import Mathlib.Tactic.Common

/-!
# Things in places

A relation `At` says which things are in which places, as read off a state. Nothing is in two places as long as every
step moves one thing to one place and leaves the others where they are, or takes them away.
-/

namespace ToolLib.Base

variable {τ π : Type*} {At At' : τ → π → Prop}

/-- Everything is in at most one place. -/
def Single (At : τ → π → Prop) : Prop := ∀ t p q, At t p → At t q → p = q

/-- Things leave, or stay. -/
theorem Single.sub (h : Single At) (hsub : ∀ t p, At' t p → At t p) : Single At' :=
  fun t p q hp hq => h t p q (hsub t p hp) (hsub t q hq)

/-- The thing `t` comes to `p`, the others leave or stay. -/
theorem Single.move (h : Single At) {t : τ} {p : π} (hother : ∀ u q, u ≠ t → At' u q → At u q)
    (hone : ∀ q, At' t q → q = p) : Single At' := by
  intro u q r hq hr
  by_cases hu : u = t
  · subst hu
    rw [hone q hq, hone r hr]
  · exact h u q r (hother u q hu hq) (hother u r hu hr)

end ToolLib.Base
