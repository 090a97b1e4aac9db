import Mathlib.Data.Multiset.AddSub
import Mathlib.Data.Multiset.Range
import Mathlib.Algebra.BigOperators.Group.List.Basic
import Mathlib.Algebra.Order.Group.Multiset
import Mathlib.Tactic.Abel

-- Runs of consecutive numbers, counted with multiplicity.
namespace Lib.Spans

open List

def span (first count : Nat) : Multiset Nat := (List.range' first count : List Nat)

@[simp] theorem span_zero (first : Nat) : span first 0 = 0 := rfl

theorem span_one (first : Nat) : span first 1 = {first} := rfl

variable {b : Nat} {α : Type} {items : List α}

@[simp] theorem mem_span {first count : Nat} :
    b ∈ span first count ↔ first ≤ b ∧ b < first + count := by
  simp [span,List.mem_range'_1]

@[simp] theorem card_span (first count : Nat) : Multiset.card (span first count) = count := by
  simp [span]

theorem nodup_span (first count : Nat) : (span first count).Nodup := by
  simpa [span] using List.nodup_range' (s:=first) (n:=count)

theorem span_add (first m n : Nat) :
    span first (m + n) = span first m + span (first + m) n := by
  rw [span,span,span,Multiset.coe_add,←List.range'_append_1]

theorem span_cut {first count m : Nat} (fits : m ≤ count) :
    span first count = span first m + span (first + m) (count - m) := by
  rw [←span_add,Nat.add_sub_of_le fits]

theorem apart {s t whole : Multiset Nat} (sum : s + t = whole) (distinct : whole.Nodup)
    (left : b ∈ s) : b ∉ t := by
  intro right
  subst sum
  exact Multiset.disjoint_left.mp (Multiset.nodup_add.mp distinct).2.2 left right

theorem mem_sum_map {f : α → Multiset Nat} :
    b ∈ (items.map f).sum ↔ ∃ x ∈ items, b ∈ f x := by
  induction items with
  | nil => simp
  | cons x rest ih => rw [map_cons,sum_cons,Multiset.mem_add,ih,List.exists_mem_cons_iff]

theorem sum_map_set {M : Type} [AddCommMonoid M] (f : α → M) {i : Nat} {old : α}
    (found : items[i]? = some old) :
    ∃ rest, (items.map f).sum = rest + f old ∧ ∀ new, ((items.set i new).map f).sum = rest + f new := by
  obtain ⟨inside,rfl⟩ := List.getElem?_eq_some_iff.mp found
  refine ⟨((items.take i).map f).sum + ((items.drop (i + 1)).map f).sum,?_,fun new => ?_⟩
  · conv_lhs => rw [←take_append_drop i items,List.drop_eq_getElem_cons inside]
    simp only [map_append,map_cons,sum_append,sum_cons]
    abel
  · rw [List.set_eq_take_append_cons_drop,if_pos inside]
    simp only [map_append,map_cons,sum_append,sum_cons]
    abel

theorem sum_map_apart {f : α → Multiset Nat} (distinct : (items.map f).sum.Nodup)
    {i j : Nat} {x y : α} (first : items[i]? = some x) (second : items[j]? = some y) (left : b ∈ f x)
    (right : b ∈ f y) : i = j := by
  induction items generalizing i j with
  | nil => cases first
  | cons item rest ih =>
    rw [map_cons,sum_cons] at distinct
    have later : ∀ {k : Nat} {z : α}, rest[k]? = some z → b ∈ f z → b ∈ (rest.map f).sum := by
      intro k z found member
      obtain ⟨_,sum,_⟩ := sum_map_set f found
      rw [sum]
      exact Multiset.mem_add.mpr (Or.inr member)
    cases i with
    | zero =>
      cases first
      cases j with
      | zero => rfl
      | succ j => exact absurd (later second right) (apart rfl distinct left)
    | succ i =>
      cases j with
      | zero =>
        cases second
        exact absurd (later first left) (apart rfl distinct right)
      | succ j => exact congrArg Nat.succ (ih (Multiset.nodup_add.mp distinct).2.1 first second)

end Lib.Spans
