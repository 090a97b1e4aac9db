import Mathlib.Data.Nat.Find
import Mathlib.Order.Basic

-- Infinite runs of a step relation while something is still to do, and when it gets done.
namespace Lib.Progress

variable {σ : Type} {Active : σ → Prop} {Step : σ → σ → Prop} {s : σ} {trace : Nat → σ}

-- As long as a state is active, the next one comes from it by a step.
structure Trace (Active : σ → Prop) (Step : σ → σ → Prop) (s : σ) (trace : Nat → σ) : Prop where
  start : trace 0 = s
  moves : ∀ i, Active (trace i) → Step (trace i) (trace (i + 1))

theorem Trace.invariant (run : Trace Active Step s trace) {Inv : σ → Prop} (first : Inv s)
    (kept : ∀ s t, Inv s → Active s → Step s t → Inv t) {i : Nat} (active : ∀ j, j < i → Active (trace j)) : Inv (trace i) := by
  induction i with
  | zero => exact run.start ▸ first
  | succ i ih =>
    have now := active i (Nat.lt_succ_self i)
    exact kept _ _ (ih fun j before => active j (Nat.lt_succ_of_lt before)) now (run.moves i now)

theorem Trace.ends (run : Trace Active Step s trace) {Inv Event : σ → Prop} (measure : σ → Nat) (first : Inv s)
    (kept : ∀ s t, Inv s → Active s → Step s t → Inv t)
    (falls : ∀ s t, Inv s → Active s → Step s t → measure t ≤ measure s)
    (drops : ∀ s t, Inv s → Active s → Event s → Step s t → measure t < measure s)
    (recurs : ∀ i, ∃ j, i ≤ j ∧ (Event (trace j) ∨ ¬ Active (trace j))) : ∃ i, ¬ Active (trace i) := by
  by_contra never
  have active : ∀ i, Active (trace i) := fun i => not_not.mp fun ended => never ⟨i,ended⟩
  have inv : ∀ i, Inv (trace i) := fun i => run.invariant first kept fun j _ => active j
  have down : ∀ i j, i ≤ j → measure (trace j) ≤ measure (trace i) := by
    intro i j later
    induction j, later using Nat.le_induction with
    | base => exact le_refl _
    | succ j _ ih => exact le_trans (falls _ _ (inv j) (active j) (run.moves j (active j))) ih
  -- Every value of the measure is left behind for a smaller one.
  have below : ∀ value i, measure (trace i) = value → False := by
    intro value
    induction value using Nat.strongRecOn with
    | ind value ih =>
      intro i now
      obtain ⟨j,later,event | ended⟩ := recurs i
      · have less := drops _ _ (inv j) (active j) event (run.moves j (active j))
        exact ih _ (lt_of_lt_of_le less (now ▸ down i j later)) (j + 1) rfl
      · exact ended (active j)
  exact below _ 0 rfl

theorem Trace.last (run : Trace Active Step s trace) (first : Active s) (ends : ∃ i, ¬ Active (trace i)) :
    ∃ i, (∀ j, j ≤ i → Active (trace j)) ∧ ¬ Active (trace (i + 1)) := by
  classical
  cases found : Nat.find ends with
  | zero =>
    have stopped := Nat.find_spec ends
    rw [found,run.start] at stopped
    exact absurd first stopped
  | succ i =>
    have stopped := Nat.find_spec ends
    rw [found] at stopped
    exact ⟨i,fun j before => not_not.mp (Nat.find_min ends (by omega)),stopped⟩

end Lib.Progress
