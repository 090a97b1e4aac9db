import Mathlib.Algebra.BigOperators.Group.Finset.Basic
import Mathlib.Tactic.Ring

-- A byte-addressed memory with little-endian unsigned fields. A field of `width`
-- bytes at `address` is loaded and stored as a natural number.
namespace Lib.Memory

abbrev Bytes := Nat → UInt8

def load (memory : Bytes) (address : Nat) : Nat → Nat
  | 0 => 0
  | width + 1 => load memory address width + (memory (address + width)).toNat * 256 ^ width

def store (memory : Bytes) (address width value : Nat) : Bytes := fun a =>
  if address ≤ a ∧ a < address + width then UInt8.ofNat (value / 256 ^ (a - address)) else memory a

theorem load_congr (left right : Bytes) (address width : Nat)
    (same : ∀ i, i < width → left (address + i) = right (address + i)) :
    load left address width = load right address width := by
  induction width with
  | zero => rfl
  | succ width ih =>
    simp only [load]
    rw [ih (fun i small => same i (by omega)),same width (by omega)]

section
variable (memory : Bytes)
include memory

theorem load_lt (address width : Nat) : load memory address width < 256 ^ width := by
  induction width with
  | zero => simp [load]
  | succ width ih =>
    simp only [load]
    have byte : (memory (address + width)).toNat < 256 := (memory (address + width)).toNat_lt
    calc load memory address width + (memory (address + width)).toNat * 256 ^ width
        < 256 ^ width + (memory (address + width)).toNat * 256 ^ width := by omega
      _ = ((memory (address + width)).toNat + 1) * 256 ^ width := by ring
      _ ≤ 256 * 256 ^ width := Nat.mul_le_mul_right _ byte
      _ = 256 ^ (width + 1) := by ring

theorem load_zero (address width : Nat)
    (zero : ∀ i, i < width → memory (address + i) = 0) : load memory address width = 0 := by
  induction width with
  | zero => rfl
  | succ width ih =>
    simp only [load]
    rw [ih (fun i small => zero i (by omega)),zero width (by omega)]
    simp

theorem load_store_digits (address width value count : Nat) (small : count ≤ width) :
    load (store memory address width value) address count = value % 256 ^ count := by
  induction count with
  | zero => simp [load,Nat.mod_one]
  | succ count ih =>
    have byte : store memory address width value (address + count) = UInt8.ofNat (value / 256 ^ count) := by
      simp [store,show address + count < address + width by omega]
    simp only [load]
    rw [ih (by omega),byte,Nat.pow_succ,Nat.mod_mul]
    simp [UInt8.toNat_ofNat',mul_comm]

theorem load_store (address width value : Nat) (fits : value < 256 ^ width) :
    load (store memory address width value) address width = value := by
  rw [load_store_digits memory address width value width (le_refl _)]
  exact Nat.mod_eq_of_lt fits

theorem store_outside (address width value a : Nat)
    (outside : a < address ∨ address + width ≤ a) : store memory address width value a = memory a := by
  simp only [store]
  rw [if_neg (by omega)]

theorem load_store_disjoint (address width value other size : Nat)
    (disjoint : other + size ≤ address ∨ address + width ≤ other) :
    load (store memory address width value) other size = load memory other size :=
  load_congr _ _ _ _ (fun i small => store_outside _ _ _ _ _ (by omega))

end

end Lib.Memory
