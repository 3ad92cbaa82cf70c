import Mathlib.Tactic.Common

/-!
# Event masks

Masks as bit vectors: when one is part of another (`Submask`), and taking it away by subtraction.
-/

namespace ToolLib.Base

variable {w : Nat} {s x y : BitVec w} {i : Nat}

/-- Every bit of `s` is set in `x`. -/
def Submask (s x : BitVec w) : Prop := ∀ i, s.getLsbD i = true → x.getLsbD i = true

/-- What is part of a mask is its own intersection with it. -/
theorem submask_iff_and_eq : Submask s x ↔ s &&& x = s := by
  constructor
  · intro h
    apply BitVec.eq_of_getLsbD_eq
    intro i _
    rw [BitVec.getLsbD_and]
    cases hs : s.getLsbD i with
    | true => rw [h i hs]; rfl
    | false => rfl
  · intro h i hi
    rw [← h, BitVec.getLsbD_and, Bool.and_eq_true] at hi
    exact hi.2

instance (s x : BitVec w) : Decidable (Submask s x) := decidable_of_iff _ submask_iff_and_eq.symm

theorem Submask.refl (x : BitVec w) : Submask x x := fun _ h => h

theorem Submask.trans {z : BitVec w} (h : Submask x y) (h' : Submask y z) : Submask x z := fun i hi => h' i (h i hi)

theorem submask_or_left (x y : BitVec w) : Submask x (x ||| y) := by
  intro i h
  rw [BitVec.getLsbD_or, h, Bool.true_or]

theorem submask_or_right (x y : BitVec w) : Submask y (x ||| y) := by
  intro i h
  rw [BitVec.getLsbD_or, h, Bool.or_true]

theorem submask_and_left (x y : BitVec w) : Submask (x &&& y) x := by
  intro i h
  rw [BitVec.getLsbD_and, Bool.and_eq_true] at h
  exact h.1

/-- What is part of both masks is part of their union. -/
theorem Submask.or {z : BitVec w} (h : Submask x z) (h' : Submask y z) : Submask (x ||| y) z := by
  intro i hi
  rw [BitVec.getLsbD_or, Bool.or_eq_true] at hi
  exact hi.elim (h i) (h' i)

theorem getLsbD_and_not (x s : BitVec w) (i : Nat) :
    (x &&& ~~~s).getLsbD i = (x.getLsbD i && !s.getLsbD i) := by
  by_cases hi : i < w
  · simp [hi]
  · rw [BitVec.getLsbD_of_ge _ _ (by omega), BitVec.getLsbD_of_ge x _ (by omega), Bool.false_and]

/-- **No borrow**: taking a part of a mask away clears its bits and leaves the others. -/
theorem Submask.sub_eq (h : Submask s x) : x - s = x &&& ~~~s := by
  have hdisj : (x &&& ~~~s) &&& s = 0#w := by
    apply BitVec.eq_of_getLsbD_eq
    intro i hi
    rw [BitVec.getLsbD_and, getLsbD_and_not, BitVec.getLsbD_zero]
    cases s.getLsbD i <;> simp
  have hsum : (x &&& ~~~s) + s = x := by
    rw [BitVec.add_eq_or_of_and_eq_zero _ _ hdisj]
    apply BitVec.eq_of_getLsbD_eq
    intro i hi
    rw [BitVec.getLsbD_or, getLsbD_and_not]
    have hsub := h i
    cases hs : s.getLsbD i with
    | true => simp [hsub hs]
    | false => simp
  calc x - s = (x &&& ~~~s) + s - s := by rw [hsum]
    _ = x &&& ~~~s := BitVec.add_sub_cancel _ _

end ToolLib.Base
