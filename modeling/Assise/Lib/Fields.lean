import Mathlib.Data.Nat.Bitwise
import Mathlib.Tactic

-- Bit fields of a word: the `width` bits from bit `low` on.
namespace Lib.Fields

def field (word low width : Nat) : Nat := (word >>> low) % 2 ^ width

variable {word value low width shift : Nat}

theorem field_or (left right low width : Nat) :
    field (left ||| right) low width = field left low width ||| field right low width := by
  unfold field
  rw [Nat.shiftRight_or_distrib,Nat.or_mod_two_pow]

theorem field_and (left right low width : Nat) :
    field (left &&& right) low width = field left low width &&& field right low width := by
  unfold field
  rw [Nat.shiftRight_and_distrib,Nat.and_mod_two_pow]

theorem field_masked {mask : Nat} (whole : field mask low width = 2 ^ width - 1) :
    field (word &&& mask) low width = field word low width := by
  rw [field_and,whole,Nat.and_two_pow_sub_one_eq_mod,field,Nat.mod_mod]

theorem masked_shift {mask : Nat} (only : mask >>> low = 2 ^ width - 1) :
    (word &&& mask) >>> low = field word low width := by
  rw [Nat.shiftRight_and_distrib,only,Nat.and_two_pow_sub_one_eq_mod,field]

theorem field_placed (fits : value < 2 ^ width) : field (value <<< low) low width = value := by
  rw [field,Nat.shiftLeft_shiftRight,Nat.mod_eq_of_lt fits]

theorem field_above (above : low + width ≤ shift) : field (value <<< shift) low width = 0 := by
  obtain ⟨more,rfl⟩ := Nat.exists_eq_add_of_le above
  rw [field,Nat.shiftRight_eq_div_pow,Nat.shiftLeft_eq,add_assoc,Nat.pow_add,← mul_assoc,mul_comm value,
    mul_assoc,Nat.mul_div_cancel_left _ (by positivity),Nat.pow_add,← mul_assoc,mul_comm value,mul_assoc,
    Nat.mul_mod_right]

theorem field_below (small : word < 2 ^ low) : field word low width = 0 := by
  rw [field,Nat.shiftRight_eq_div_pow,Nat.div_eq_of_lt small,Nat.zero_mod]

end Lib.Fields
