import Mathlib.Order.Lattice
import Mathlib.Tactic.Common

-- Copies into a buffer: the positions that hold a source afterwards, and all others as they were.
namespace Lib.Copies

variable {ι α : Type} [LinearOrder ι]

def paste (buffer source : ι → α) (first stop : ι) : ι → α := fun x => if first ≤ x ∧ x < stop then source x else buffer x

variable {stop first : ι} {source : ι → α}

theorem paste_inside {buffer : ι → α} {x : ι} (low : first ≤ x) (high : x < stop) :
    paste buffer source first stop x = source x :=
  if_pos ⟨low,high⟩

theorem paste_outside {buffer : ι → α} {x : ι} (outside : x < first ∨ stop ≤ x) :
    paste buffer source first stop x = buffer x := by
  refine if_neg fun inside => ?_
  rcases outside with low | high
  · exact absurd inside.1 (not_le_of_gt low)
  · exact absurd inside.2 (not_lt_of_ge high)

structure Filled (before after source : ι → α) (first stop : ι) : Prop where
  inside : ∀ x, first ≤ x → x < stop → after x = source x
  outside : ∀ x, x < first ∨ stop ≤ x → after x = before x

theorem filled_paste (buffer source : ι → α) (first stop : ι) :
    Filled buffer (paste buffer source first stop) source first stop :=
  ⟨fun _ => paste_inside,fun _ => paste_outside⟩

theorem filled_refl (buffer source : ι → α) (first : ι) : Filled buffer buffer source first first :=
  ⟨fun _ low high => absurd high (not_lt_of_ge low),fun _ _ => rfl⟩

theorem Filled.append {a b c : ι → α} {middle : ι} (left : Filled a b source first middle)
    (right : Filled b c source middle stop) (low : first ≤ middle) (high : middle ≤ stop) : Filled a c source first stop := by
  refine ⟨fun x above below => ?_,fun x outside => ?_⟩
  · rcases lt_or_ge x middle with early | late
    · exact (right.outside x (.inl early)).trans (left.inside x above early)
    · exact right.inside x late below
  · rcases outside with before | behind
    · exact (right.outside x (.inl (lt_of_lt_of_le before low))).trans (left.outside x (.inl before))
    · exact (right.outside x (.inr behind)).trans (left.outside x (.inr (le_trans high behind)))

theorem Filled.congr {a b source' : ι → α} (filled : Filled a b source first stop)
    (same : ∀ x, first ≤ x → x < stop → source x = source' x) : Filled a b source' first stop :=
  ⟨fun x low high => (filled.inside x low high).trans (same x low high),filled.outside⟩

end Lib.Copies
