import Mathlib.Order.Basic

-- Binary search for the last position whose key is not above a bound, position 0 when all are.
namespace Lib.BinarySearch

-- `above m` says that the key at position `m` is above the bound; positions `l .. r` are open.
def search (above : Nat → Bool) : Nat → Nat → Nat → Nat
  | 0,l,_ => l - 1
  | fuel + 1,l,r =>
    if l ≤ r then
      let m := l + (r - l) / 2
      if above m then search above fuel l (m - 1) else search above fuel (m + 1) r
    else l - 1

def lastNotAbove (above : Nat → Bool) (count : Nat) : Nat := search above count 1 (count - 1)

theorem search_spec {above : Nat → Bool} {count fuel l r : Nat}
    (mono : ∀ i j, i ≤ j → above i = true → above j = true)
    (low : 1 ≤ l) (high : r < count) (order : l ≤ r + 1) (enough : r + 1 - l ≤ fuel)
    (below : ∀ i, 0 < i → i < l → above i = false) (beyond : ∀ i, r < i → i < count → above i = true) :
    search above fuel l r < count ∧
      (∀ i, 0 < i → i ≤ search above fuel l r → above i = false) ∧
      (∀ i, search above fuel l r < i → i < count → above i = true) := by
  induction fuel generalizing l r with
  | zero =>
    refine ⟨by simp only [search]; omega,?_,?_⟩
    · intro i positive bound
      exact below i positive (by simp only [search] at bound; omega)
    · intro i bound inside
      exact beyond i (by simp only [search] at bound; omega) inside
  | succ fuel ih =>
    unfold search
    by_cases going : l ≤ r
    · rw [if_pos going]
      by_cases mid : above (l + (r - l) / 2) = true
      · rw [if_pos mid]
        refine ih low (by omega) (by omega) (by omega) below ?_
        intro i bound inside
        exact mono _ i (by omega) mid
      · rw [if_neg mid]
        refine ih (by omega) high (by omega) (by omega) ?_ beyond
        intro i positive bound
        by_contra other
        exact mid (mono i _ (by omega) (by simpa using other))
    · rw [if_neg going]
      refine ⟨by omega,?_,?_⟩
      · intro i positive bound
        exact below i positive (by omega)
      · intro i bound inside
        exact beyond i (by omega) inside

theorem lastNotAbove_spec {above : Nat → Bool} {count : Nat} (some : 0 < count)
    (mono : ∀ i j, i ≤ j → above i = true → above j = true) :
    lastNotAbove above count < count ∧
      (∀ i, 0 < i → i ≤ lastNotAbove above count → above i = false) ∧
      (∀ i, lastNotAbove above count < i → i < count → above i = true) :=
  search_spec mono (Nat.le_refl 1) (by omega) (by omega) (by omega) (by omega) (by omega)

end Lib.BinarySearch
