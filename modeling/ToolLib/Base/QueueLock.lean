import Mathlib.Data.List.Basic
import ToolLib.Base.Trace

/-!
# Waiting in a queue, and a lock with a queue

- `tally`: how many steps of a run satisfy a test on the state and the action;
- **the progress rule** (`run_served`): an element waits in a queue of the state; no step moves it back, the steps that satisfy
  the test take the head, and an element that is taken at the head is served. Then whoever has `n` elements before it is served
  before `n + 1` of these steps are over;
- `QueueLock`: a lock with the queue of those who wait for it. The owner hands it to the first of them (`release`); one who
  waits may be taken out of the queue (`cancel`). It is only free when nobody waits (`QueueLock.Fair`), and nobody is overtaken
  (`QueueLock.step_waiting`).
-/

namespace ToolLib.Base

variable {σ α : Type*}

/-! ## Steps that are counted -/

/-- How many steps of the run satisfy `p`. -/
def tally (step : σ → α → Option σ) (p : σ → α → Bool) : σ → List α → Nat
  | _, [] => 0
  | s, a :: as => (p s a).toNat + (step s a).elim 0 fun s' => tally step p s' as

section Runs

variable {step : σ → α → Option σ} {I : σ → Prop} {C : σ → α → Prop} {as : List α} {s s' : σ} {a : α}

theorem tally_cons {p : σ → α → Bool} (h : step s a = some s') :
    tally step p s (a :: as) = (p s a).toNat + tally step p s' as := by
  rw [tally, h, Option.elim_some]

/-- **The progress rule.** `queue` is the queue of the state, and the steps with `takes` take its head. -/
theorem run_served {ν : Type*} {t : ν} (queue : σ → List ν) (takes : σ → α → Bool) (Served : σ → Prop)
    (hI : ∀ s a s', I s → C s a → step s a = some s' → I s')
    (hstep : ∀ s a s' l r, I s → C s a → step s a = some s' → queue s = l ++ t :: r →
      (∃ l' r', queue s' = l' ++ t :: r' ∧ l'.length + (takes s a).toNat ≤ l.length) ∨ Served s') :
    ∀ {as : List α} {s s' : σ} {l r : List ν}, I s → Along step C s as → run step s as = some s' → queue s = l ++ t :: r →
      l.length < tally step takes s as → ∃ as₁ as₂ s₁, as = as₁ ++ as₂ ∧ run step s as₁ = some s₁ ∧ Served s₁
  | [], _, _, _, _, _, _, _, _, hlt => absurd hlt (Nat.not_lt_zero _)
  | a :: as, s, s', l, r, h, hC, hr, hq, hlt => by
    obtain ⟨s₁, h₁, h₂⟩ := run_cons_eq_some.1 hr
    rw [tally_cons h₁] at hlt
    rcases hstep s a s₁ l r h hC.1 h₁ hq with ⟨l', r', hq', hlen⟩ | hserved
    · obtain ⟨as₁, as₂, s₂, rfl, hrun, hserved⟩ := run_served queue takes Served hI hstep (hI s a s₁ h hC.1 h₁) (hC.2 s₁ h₁) h₂ hq' (by omega)
      exact ⟨a :: as₁, as₂, s₂, rfl, run_cons_eq_some.2 ⟨s₁, h₁, hrun⟩, hserved⟩
    · exact ⟨[a], as, s₁, rfl, run_one.trans h₁, hserved⟩

end Runs

/-- Those in a queue with a property, when one without it has left the queue. -/
theorem filter_erase {ν : Type*} [DecidableEq ν] {l : List ν} {p : ν → Bool} {t : ν} (ht : p t = false) :
    (l.erase t).filter p = l.filter p := by
  induction l with
  | nil => rfl
  | cons x l ih =>
    rw [List.erase_cons]
    split
    · obtain rfl : x = t := by simpa using ‹(x == t) = true›
      rw [List.filter_cons_of_neg (by simp [ht])]
    · rw [List.filter_cons, List.filter_cons, ih]

/-! ## A lock with a queue -/

/-- The owner of a lock, and those who wait for it, the first one at the head. -/
structure QueueLock (ν : Type*) where
  owner : Option ν
  waiting : List ν

namespace QueueLock

variable {ν : Type*}

inductive Act (ν : Type*)
  | acquire (t : ν)
  | enqueue (t : ν)
  | release
  | cancel (t : ν)
  | skip

/-- The owner gives the lock back: to the first one who waits for it. -/
def pass : List ν → QueueLock ν
  | [] => ⟨none, []⟩
  | t :: q => ⟨some t, q⟩

variable [DecidableEq ν]

def step (l : QueueLock ν) : Act ν → Option (QueueLock ν)
  | .acquire t => if l.owner = none then some { l with owner := some t } else none
  | .enqueue t =>
    if l.owner = none ∨ l.owner = some t ∨ t ∈ l.waiting then none else some { l with waiting := l.waiting ++ [t] }
  | .release => if l.owner = none then none else some (pass l.waiting)
  | .cancel t => some { l with waiting := l.waiting.erase t }
  | .skip => some l

/-- It is free only when nobody waits for it, and the owner does not wait. -/
structure Fair (l : QueueLock ν) : Prop where
  free : l.owner = none → l.waiting = []
  nodup : l.waiting.Nodup
  owner : ∀ t, l.owner = some t → t ∉ l.waiting

variable {l l' : QueueLock ν} {a : Act ν} {t : ν}

omit [DecidableEq ν] in
theorem fair_pass {q : List ν} (h : q.Nodup) : Fair (pass q) := by
  cases q with
  | nil => exact ⟨fun _ => rfl, h, nofun⟩
  | cons t q =>
    obtain ⟨ht, hq⟩ := List.nodup_cons.1 h
    exact ⟨nofun, hq, by rintro x ⟨rfl⟩; exact ht⟩

theorem Fair.step (h : Fair l) (hs : l.step a = some l') : Fair l' := by
  cases a with
  | acquire t =>
    obtain ⟨hfree, ⟨⟩⟩ := Option.ite_none_right_eq_some.1 hs
    have hnil := h.free hfree
    exact ⟨nofun, h.nodup, by simp [hnil]⟩
  | enqueue t =>
    obtain ⟨hno, ⟨⟩⟩ := Option.ite_none_left_eq_some.1 hs
    have hn := h.nodup
    have ho := h.owner
    exact ⟨by grind, by grind, by grind⟩
  | release =>
    obtain ⟨-, ⟨⟩⟩ := Option.ite_none_left_eq_some.1 hs
    exact fair_pass h.nodup
  | cancel t =>
    cases hs
    exact ⟨fun hf => by simp [h.free hf], h.nodup.erase t, fun x hx hin => h.owner x hx (List.mem_of_mem_erase hin)⟩
  | skip =>
    cases hs
    exact h

/-- In every run the lock is free only when nobody waits for it. -/
theorem Fair.run {as : List (Act ν)} (h : Fair l) (hr : Base.run QueueLock.step l as = some l') : Fair l' :=
  run_inv (fun _ _ _ hi hs => hi.step hs) h hr

def isRelease : Act ν → Bool
  | .release => true
  | _ => false

omit [DecidableEq ν] in
theorem erase_around [DecidableEq ν] {x : ν} {b r : List ν} (hne : t ≠ x) :
    ∃ b' r', (b ++ t :: r).erase x = b' ++ t :: r' ∧ b'.length ≤ b.length := by
  by_cases hx : x ∈ b
  · exact ⟨b.erase x, r, List.erase_append_left _ hx, (List.erase_sublist).length_le⟩
  · refine ⟨b, r.erase x, ?_, Nat.le_refl _⟩
    rw [List.erase_append_right _ hx, List.erase_cons_tail (by simpa using hne)]

/-- A step moves nobody back who is not taken out of the queue, and a release moves the first one to the lock. -/
theorem step_waiting {b r : List ν} (hs : l.step a = some l') (hq : l.waiting = b ++ t :: r) (hno : a ≠ .cancel t) :
    (∃ b' r', l'.waiting = b' ++ t :: r' ∧ b'.length + (isRelease a).toNat ≤ b.length) ∨ l'.owner = some t := by
  cases a with
  | acquire u =>
    obtain ⟨-, ⟨⟩⟩ := Option.ite_none_right_eq_some.1 hs
    exact .inl ⟨b, r, hq, Nat.le_refl _⟩
  | enqueue u =>
    obtain ⟨-, ⟨⟩⟩ := Option.ite_none_left_eq_some.1 hs
    exact .inl ⟨b, r ++ [u], by simp [hq], Nat.le_refl _⟩
  | release =>
    obtain ⟨-, ⟨⟩⟩ := Option.ite_none_left_eq_some.1 hs
    rw [hq]
    cases b with
    | nil => exact .inr rfl
    | cons x b => exact .inl ⟨b, r, rfl, Nat.le_refl _⟩
  | cancel u =>
    cases hs
    obtain ⟨b', r', heq, hle⟩ := erase_around (b := b) (r := r) (show t ≠ u by rintro rfl; exact hno rfl)
    exact .inl ⟨b', r', (congrArg (List.erase · u) hq).trans heq, hle⟩
  | skip =>
    cases hs
    exact .inl ⟨b, r, hq, Nat.le_refl _⟩

end QueueLock

end ToolLib.Base
