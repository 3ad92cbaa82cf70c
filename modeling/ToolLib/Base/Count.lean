import Mathlib.Data.Fintype.Card
import Mathlib.Logic.Function.Basic
import Mathlib.Tactic.Common

/-!
# Counting the places of threads

Finitely many threads, each at a place: how many of them are at a place with the property `p`, and how that number
changes when one thread moves.
-/

namespace ToolLib.Base

variable {T β : Type*} [Fintype T] [DecidableEq T]

/-- How many threads are at a place with the property `p`. -/
def count (p : β → Bool) (f : T → β) : Nat := (Finset.univ.filter fun t => p (f t) = true).card

variable {p : β → Bool} {f g : T → β} {t : T} {b : β}

omit [DecidableEq T] in
theorem count_eq_zero : count p f = 0 ↔ ∀ t, p (f t) = false := by
  simp [count, Finset.card_eq_zero, Finset.filter_eq_empty_iff]

omit [DecidableEq T] in
theorem count_pos : 0 < count p f ↔ ∃ t, p (f t) = true := by
  simp [count, Finset.card_pos, Finset.Nonempty]

omit [DecidableEq T] in
/-- The threads may change within `p` and outside of it. -/
theorem count_congr (h : ∀ t, p (g t) = p (f t)) : count p g = count p f := by
  simp only [count, h]

/-- One thread moves. -/
theorem count_update : count p (Function.update f t b) + (if p (f t) = true then 1 else 0) =
    count p f + (if p b = true then 1 else 0) := by
  have hrest : ∀ b', (Finset.univ.filter fun u => p (Function.update f t b' u) = true) =
      if p b' = true then insert t ((Finset.univ.erase t).filter fun u => p (f u) = true)
      else (Finset.univ.erase t).filter fun u => p (f u) = true := by
    intro b'
    ext u
    by_cases hu : u = t
    · subst hu
      by_cases hb : p b' = true <;> simp [hb]
    · by_cases hb : p b' = true <;> simp [hb, hu]
  have hcard : ∀ b', count p (Function.update f t b') =
      ((Finset.univ.erase t).filter fun u => p (f u) = true).card + if p b' = true then 1 else 0 := by
    intro b'
    rw [count, hrest]
    split
    · rw [Finset.card_insert_of_notMem (by simp)]
    · rfl
  have hself := hcard (f t)
  rw [Function.update_eq_self] at hself
  rw [hcard b, hself]
  omega

/-- A thread comes to `p`. -/
theorem count_enter (hf : p (f t) = false) (hb : p b = true) : count p (Function.update f t b) = count p f + 1 := by
  have h := count_update (p := p) (f := f) (t := t) (b := b)
  simpa [hf, hb] using h

/-- A thread leaves `p`. -/
theorem count_leave (hf : p (f t) = true) (hb : p b = false) : count p (Function.update f t b) + 1 = count p f := by
  have h := count_update (p := p) (f := f) (t := t) (b := b)
  simpa [hf, hb] using h

/-- A thread moves within `p`, or outside of it. -/
theorem count_stay (h : p b = p (f t)) : count p (Function.update f t b) = count p f := by
  have hu := count_update (p := p) (f := f) (t := t) (b := b)
  rw [h] at hu
  omega

end ToolLib.Base
