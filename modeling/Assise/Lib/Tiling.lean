import Mathlib.Algebra.Ring.Nat
import Mathlib.Data.List.Basic

-- Pieces that lie one behind the other.
namespace Lib.Tiling

variable {α β : Type} {start size : α → Nat}

def Tiles (start size : α → Nat) : Nat → List α → Nat → Prop
  | a,[],b => a = b
  | a,x :: rest,b => start x = a ∧ Tiles start size (a + size x) rest b

variable {a b : Nat} {xs : List α}

theorem tiles_single {x : α} (at_ : start x = a) (reach : a + size x = b) : Tiles start size a [x] b :=
  ⟨at_,reach⟩

theorem Tiles.append {c : Nat} {left right : List α} (first : Tiles start size a left b)
    (second : Tiles start size b right c) : Tiles start size a (left ++ right) c := by
  induction left generalizing a with
  | nil =>
    cases first
    exact second
  | cons x rest ih => exact ⟨first.1,ih first.2⟩

theorem Tiles.le (tiles : Tiles start size a xs b) : a ≤ b := by
  induction xs generalizing a with
  | nil => exact Nat.le_of_eq tiles
  | cons x rest ih => exact Nat.le_trans (Nat.le_add_right a (size x)) (ih tiles.2)

theorem Tiles.sum (tiles : Tiles start size a xs b) : a + (xs.map size).sum = b := by
  induction xs generalizing a with
  | nil => exact tiles
  | cons x rest ih =>
    rw [List.map_cons,List.sum_cons,←Nat.add_assoc]
    exact ih tiles.2

theorem Tiles.covered (tiles : Tiles start size a xs b) (p : Nat) :
    (∃ x ∈ xs, start x ≤ p ∧ p < start x + size x) ↔ a ≤ p ∧ p < b := by
  induction xs generalizing a with
  | nil =>
    cases tiles
    simp
  | cons x rest ih =>
    obtain ⟨rfl,later⟩ := tiles
    have reach := later.le
    rw [List.exists_mem_cons_iff,ih later]
    omega

theorem Tiles.from {b : Nat} (tiles : Tiles start size a xs b) {x : α} (member : x ∈ xs) : a ≤ start x := by
  induction xs generalizing a with
  | nil => cases member
  | cons y rest ih =>
    obtain ⟨rfl,later⟩ := tiles
    rcases List.mem_cons.mp member with rfl | there
    · exact Nat.le_refl _
    · exact Nat.le_trans (Nat.le_add_right _ _) (ih later there)

theorem Tiles.ordered (tiles : Tiles start size a xs b) :
    xs.Pairwise fun x y => start x + size x ≤ start y := by
  induction xs generalizing a with
  | nil => exact .nil
  | cons x rest ih =>
    obtain ⟨rfl,later⟩ := tiles
    exact .cons (fun y member => later.from member) (ih later)

end Lib.Tiling
