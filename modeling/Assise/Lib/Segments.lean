import Mathlib.Data.List.Pairwise
import Mathlib.Order.Basic

-- Contiguous runs of positions laid end to end.
namespace Lib.Segments

structure Segment where
  first : Nat
  count : Nat
deriving DecidableEq, Repr

def Segment.stop (s : Segment) : Nat := s.first + s.count

def Segment.Holds (s : Segment) (b : Nat) : Prop := s.first ≤ b ∧ b < s.stop

def Segment.Apart (s t : Segment) : Prop := s.stop ≤ t.first ∨ t.stop ≤ s.first

-- The segments fill the positions from `a` up to `b`, in order, each holding some.
def Chain : Nat → List Segment → Nat → Prop
  | a,[],b => a = b
  | a,s :: rest,b => s.first = a ∧ 0 < s.count ∧ Chain s.stop rest b

variable {a b : Nat} {segments right left : List Segment}

theorem chain_le (chain : Chain a segments b) : a ≤ b := by
  induction segments generalizing a with
  | nil => exact Nat.le_of_eq chain
  | cons s rest ih =>
    obtain ⟨first,_,later⟩ := chain
    have bound := ih later
    simp only [Segment.stop] at bound
    omega

theorem chain_append :
    Chain a (left ++ right) b ↔ ∃ m, Chain a left m ∧ Chain m right b := by
  induction left generalizing a with
  | nil => simp [Chain]
  | cons s rest ih =>
    simp only [List.cons_append,Chain,ih]
    constructor
    · rintro ⟨first,count,m,left,right⟩
      exact ⟨m,⟨first,count,left⟩,right⟩
    · rintro ⟨m,⟨first,count,left⟩,right⟩
      exact ⟨first,count,m,left,right⟩

theorem chain_snoc {b : Nat} {s : Segment} (chain : Chain a segments b)
    (first : s.first = b) (count : 0 < s.count) : Chain a (segments ++ [s]) s.stop :=
  chain_append.mpr ⟨b,chain,first,count,rfl⟩

theorem chain_bounds (chain : Chain a segments b) :
    ∀ s ∈ segments, a ≤ s.first ∧ 0 < s.count ∧ s.stop ≤ b := by
  induction segments generalizing a with
  | nil => intro s member; cases member
  | cons head rest ih =>
    obtain ⟨first,count,later⟩ := chain
    intro s member
    rcases List.mem_cons.mp member with rfl | member
    · exact ⟨Nat.le_of_eq first.symm,count,chain_le later⟩
    · obtain ⟨low,positive,high⟩ := ih later s member
      simp only [Segment.stop] at low
      exact ⟨by omega,positive,high⟩

theorem chain_apart (chain : Chain a segments b) :
    segments.Pairwise Segment.Apart := by
  induction segments generalizing a with
  | nil => exact .nil
  | cons head rest ih =>
    obtain ⟨_,_,later⟩ := chain
    exact .cons (fun s member => .inl (chain_bounds later s member).1) (ih later)

theorem chain_length (chain : Chain a segments b) :
    a + segments.length ≤ b := by
  induction segments generalizing a with
  | nil => exact Nat.le_of_eq chain
  | cons head rest ih =>
    obtain ⟨first,count,later⟩ := chain
    have bound := ih later
    simp only [Segment.stop,List.length_cons] at *
    omega

theorem chain_empty (chain : Chain a segments a) : segments = [] := by
  have bound := chain_length chain
  exact List.length_eq_zero_iff.mp (by omega)

theorem chain_head (chain : Chain a segments b) (more : a < b) :
    segments ≠ [] := by
  rintro rfl
  exact Nat.lt_irrefl _ (chain ▸ more)

theorem chain_unique {c : Nat} (left : Chain a segments b) (right : Chain a segments c) :
    b = c := by
  induction segments generalizing a with
  | nil => exact left.symm.trans right
  | cons s rest ih => exact ih left.2.2 right.2.2

theorem chain_suffix {m : Nat} (whole : Chain a (left ++ right) b)
    (part : Chain a left m) : Chain m right b := by
  obtain ⟨middle,first,second⟩ := chain_append.mp whole
  rw [chain_unique part first]
  exact second

theorem chain_cut {first second : List Segment} (same : first ++ left = second ++ right)
    (one : Chain a first b) (two : Chain a second b) : first = second ∧ left = right := by
  rcases List.append_eq_append_iff.mp same with ⟨rest,rfl,rfl⟩ | ⟨rest,rfl,rfl⟩
  · have none := chain_empty (chain_suffix two one)
    simp [none]
  · have none := chain_empty (chain_suffix one two)
    simp [none]

instance : Std.Symm Segment.Apart := ⟨fun _ _ apart => apart.elim .inr .inl⟩

end Lib.Segments
