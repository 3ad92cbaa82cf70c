import Mathlib.Algebra.Group.Nat.Defs
import Mathlib.Algebra.Ring.Int.Defs
import Mathlib.Tactic.Common

/-!
# Signed integers of a fixed width

`signed w x` is the integer with `w` bits that is congruent to `x`: what is stored of a sum that may be too large. The
integers with `w` bits stay as they are (`signed_eq`), and only they do (`signed_eq_iff`).
-/

namespace ToolLib.Base

/-- The integers with `w` bits. -/
def HasWidth (w : Nat) (x : Int) : Prop := -(2 ^ (w - 1)) ≤ x ∧ x < 2 ^ (w - 1)

instance (w : Nat) (x : Int) : Decidable (HasWidth w x) := inferInstanceAs (Decidable (_ ∧ _))

/-- The integer with `w` bits that is congruent to `x`. -/
def signed (w : Nat) (x : Int) : Int := x.bmod (2 ^ w)

variable {w : Nat} {x : Int}

theorem two_pow_eq (hw : 0 < w) : (2 : Int) ^ w = 2 * 2 ^ (w - 1) := by
  obtain ⟨n, rfl⟩ := Nat.exists_eq_succ_of_ne_zero (Nat.ne_of_gt hw)
  rw [Nat.succ_sub_one, pow_succ, Int.mul_comm]

theorem signed_hasWidth (hw : 0 < w) (x : Int) : HasWidth w (signed w x) := by
  have hpos : 0 < 2 ^ w := Nat.two_pow_pos w
  have hlow := Int.le_bmod (x := x) hpos
  have hhigh := Int.bmod_lt (x := x) hpos
  have htwo := two_pow_eq hw
  push_cast at hlow hhigh
  rw [HasWidth, signed]
  omega

theorem signed_eq (hw : 0 < w) (h : HasWidth w x) : signed w x = x := by
  have htwo := two_pow_eq hw
  rw [HasWidth] at h
  refine Int.bmod_eq_of_le ?_ ?_ <;> push_cast <;> omega

theorem signed_eq_iff (hw : 0 < w) : signed w x = x ↔ HasWidth w x :=
  ⟨fun h => h ▸ signed_hasWidth hw x, signed_eq hw⟩

end ToolLib.Base
