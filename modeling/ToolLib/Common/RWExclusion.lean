import ToolLib.Common.RWCounts

/-!
# Mutual exclusion of the read-write lock

`fState` is -1 for a writer, otherwise the number of readers (`Exclusive`). `LockRead` waits for both. `LockWrite` waits
for readers only: its test `ActiveReaders()` is `fState > 0`, which a writer passes while another one has the lock
(`two_writers`). `mutual_exclusion`: a run is safe in all its states exactly when no `LockWrite` makes this test, on entry
or after a wait, while a writer has the lock.
-/

namespace ToolLib.Common.Locked

open ToolLib.Base

variable {T : Type*} [DecidableEq T] [Fintype T]

/-- **Mutual exclusion**: at most one writer, no readers beside it, and `fState` says which. -/
structure Exclusive (fState : Int) (spot : T → Spot) : Prop where
  one : ∀ t u, spot t = .writing → spot u = .writing → t = u
  apart : ∀ t u, spot t = .writing → spot u ≠ .reading
  writer : ∀ t, spot t = .writing → fState = -1
  readers : (∀ t, spot t ≠ .writing) → fState = count Spot.isReader spot

/-- `LockWrite` makes its test when no writer has the lock. -/
def Alone (s : Locked T) : Move T → Prop
  | .lockWrite _ => s.lock.activeWriter = false
  | .resume t => (s.spot t).isWriteWaiter = true → s.lock.activeWriter = false
  | _ => True

instance (s : Locked T) : ∀ a : Move T, Decidable (s.Alone a)
  | .lockWrite _ => inferInstanceAs (Decidable (s.lock.activeWriter = false))
  | .resume t => inferInstanceAs (Decidable ((s.spot t).isWriteWaiter = true → s.lock.activeWriter = false))
  | .lockRead _ | .tryLockRead _ | .tryLockWrite _ | .unlock _ _ => isTrue trivial

variable {s s' : Locked T} {a : Move T} {t : T} {st ww : Int} {f g : T → Spot} {p : Spot}

omit [DecidableEq T] in
theorem exclusive_new : Exclusive 0 fun _ : T => Spot.out where
  one _ _ h := by cases h
  apart _ _ h := by cases h
  writer _ h := by cases h
  readers _ := by
    have hzero : count Spot.isReader (fun _ : T => Spot.out) = 0 := count_eq_zero.2 fun _ => rfl
    rw [hzero]
    rfl

omit [DecidableEq T] in
theorem Exclusive.no_writer (h : Exclusive st f) (hst : 0 ≤ st) (t : T) : f t ≠ .writing := by
  intro ht
  have := h.writer t ht
  omega

omit [DecidableEq T] in
theorem Exclusive.some_writer (h : Exclusive st f) (hst : st < 0) : ∃ t, f t = .writing := by
  by_contra hno
  rw [not_exists] at hno
  have := h.readers hno
  omega

omit [DecidableEq T] in
/-- Threads may wait, wake and leave as long as the same ones have the lock. -/
theorem Exclusive.alike (h : Exclusive st f) (hw : ∀ u, g u = .writing ↔ f u = .writing)
    (hr : ∀ u, (g u).isReader = (f u).isReader) : Exclusive st g where
  one t u ht hu := h.one t u ((hw t).1 ht) ((hw u).1 hu)
  apart t u ht hu := by
    have hread : (f u).isReader = true := by rw [← hr u, hu]; rfl
    have hne := h.apart t u ((hw t).1 ht)
    cases hf : f u <;> simp_all [Spot.isReader]
  writer t ht := h.writer t ((hw t).1 ht)
  readers hno := by
    rw [count_congr hr]
    exact h.readers fun t ht => hno t ((hw t).2 ht)

/-- A thread without the lock begins or goes on to wait. -/
theorem Exclusive.wait (h : Exclusive st f) (ht : f t ≠ .writing) (ht' : f t ≠ .reading) (hp : p ≠ .writing)
    (hp' : p ≠ .reading) : Exclusive st (Function.update f t p) := by
  refine h.alike (fun u => ?_) fun u => ?_
  · by_cases hu : u = t
    · subst hu; simp [ht, hp]
    · simp [hu]
  · by_cases hu : u = t
    · subst hu
      rw [Function.update_self]
      cases p <;> cases hf : f u <;> simp_all [Spot.isReader]
    · simp [hu]

omit [DecidableEq T] [Fintype T] in
theorem broadcast_alike (p : Spot) : (p.broadcast = .writing ↔ p = .writing) ∧ p.broadcast.isReader = p.isReader := by
  cases p <;> simp [Spot.broadcast, Spot.isReader]

/-- A signal changes a waiting writer only. -/
theorem Exclusive.signalled (h : Exclusive st f) {pick : Option T} (hp : ∀ u ∈ pick, f u = .writeWait false) :
    Exclusive st (Locked.signalled f pick) := by
  cases pick with
  | none => exact h
  | some u =>
    have hu := hp u rfl
    exact h.wait (by rw [hu]; decide) (by rw [hu]; decide) (by decide) (by decide)

omit [Fintype T] in
theorem update_ne_writing (hp : p ≠ .writing) (h : ∀ v, v ≠ t → f v ≠ .writing) (v : T) :
    Function.update f t p v ≠ .writing := by
  by_cases hvt : v = t
  · rw [hvt, Function.update_self]; exact hp
  · rw [Function.update_of_ne hvt]; exact h v hvt

omit [DecidableEq T] in
/-- No writer, and as many readers as `st`. -/
theorem exclusive_of_none (hnone : ∀ t, f t ≠ .writing) (hst : st = count Spot.isReader f) : Exclusive st f :=
  ⟨fun t _ ht => absurd ht (hnone t), fun t _ ht => absurd ht (hnone t), fun t ht => absurd ht (hnone t), fun _ => hst⟩

/-- The writer leaves. -/
theorem Exclusive.wrote (h : Exclusive st f) (hst : st < 0) (ht : f t = .reading ∨ f t = .writing) :
    Exclusive 0 (Function.update f t .out) := by
  obtain ⟨u, hu⟩ := h.some_writer hst
  have htw : f t = .writing := ht.resolve_left fun hr => h.apart u t hu hr
  have hzero : count Spot.isReader (Function.update f t .out) = 0 := by
    refine count_eq_zero.2 fun v => ?_
    by_cases hvt : v = t
    · subst hvt; simp [Spot.isReader]
    · rw [Function.update_of_ne hvt]
      have := h.apart t v htw
      cases hf : f v <;> simp_all [Spot.isReader]
  exact exclusive_of_none (update_ne_writing (by decide) fun v hvt hv => hvt (h.one v t hv htw)) (by rw [hzero]; rfl)

/-- A reader leaves. -/
theorem Exclusive.read_leaves (h : Exclusive st f) (hst : 0 ≤ st) (ht : f t = .reading ∨ f t = .writing) :
    1 ≤ st ∧ Exclusive (st - 1) (Function.update f t .out) := by
  have hno := h.no_writer hst
  have htr : f t = .reading := ht.resolve_right (hno t)
  have hcount := h.readers hno
  have hleave : count Spot.isReader (Function.update f t .out) + 1 = count Spot.isReader f :=
    count_leave (by rw [htr]; rfl) rfl
  refine ⟨by omega, exclusive_of_none (update_ne_writing (by decide) fun v _ => hno v) ?_⟩
  omega

/-- A reader comes. -/
theorem Exclusive.read_enters (h : Exclusive st f) (hst : 0 ≤ st) (ht : f t ≠ .reading) :
    Exclusive (st + 1) (Function.update f t .reading) := by
  have hno := h.no_writer hst
  have henter : count Spot.isReader (Function.update f t .reading) = count Spot.isReader f + 1 := by
    refine count_enter ?_ rfl
    cases hf : f t <;> simp_all [Spot.isReader]
  have hcount := h.readers hno
  refine exclusive_of_none (update_ne_writing (by decide) fun v _ => hno v) ?_
  omega

/-- A writer comes to a free lock. -/
theorem Exclusive.write_enters (h : Exclusive 0 f) : Exclusive (-1) (Function.update f t .writing) := by
  have hno := h.no_writer (Int.le_refl 0)
  have hzero : count Spot.isReader f = 0 := by have := h.readers hno; omega
  have honly : ∀ v, Function.update f t .writing v = .writing → v = t := by
    intro v hv
    by_contra hvt
    rw [Function.update_of_ne hvt] at hv
    exact hno v hv
  refine ⟨fun v w hv hw => (honly v hv).trans (honly w hw).symm, fun _ w _ hw => ?_, fun _ _ => rfl,
    fun hnone => absurd (Function.update_self t _ f) (hnone t)⟩
  by_cases hwt : w = t
  · subst hwt; simp at hw
  · rw [Function.update_of_ne hwt] at hw
    have := count_eq_zero.1 hzero w
    rw [hw] at this
    cases this

theorem exclusive_effect (h : Exclusive s.lock.fState s.spot) (ha : s.Alone a) (he : Effect s a st ww f) :
    Exclusive st f := by
  cases he with
  | busy => exact h
  | readWait t ht _ =>
    refine h.wait ?_ ?_ (by decide) (by decide) <;> rcases ht with ht | ⟨w, ht⟩ <;> simp [ht]
  | read t ht hst _ =>
    refine h.read_enters hst ?_
    rcases ht with ht | ⟨w, ht⟩ <;> simp [ht]
  | writeWait t ht _ => refine h.wait ?_ ?_ (by decide) (by decide) <;> simp [ht]
  | writeAgain t ht _ =>
    obtain ⟨w, ht⟩ := ht
    refine h.wait ?_ ?_ (by decide) (by decide) <;> simp [ht]
  | write t ht hst hat =>
    have hzero : s.lock.fState = 0 := by
      rcases hat with rfl | ⟨-, hz⟩
      · have hno : ¬ s.lock.fState < 0 :=
          mt OSMutexRW.activeWriter_iff.2 (by simp [show s.lock.activeWriter = false from ha])
        omega
      · exact hz
    rw [hzero] at h
    exact h.write_enters
  | writeWoken t ht hst =>
    obtain ⟨w, ht⟩ := ht
    have hfalse : s.lock.activeWriter = false := ha (by rw [ht]; rfl)
    have hno : ¬ s.lock.fState < 0 := mt OSMutexRW.activeWriter_iff.2 (by simp [hfalse])
    have hzero : s.lock.fState = 0 := by omega
    rw [hzero] at h
    exact h.write_enters
  | wroteSignal t pick ht hp hst _ => exact (h.wrote hst ht).signalled (canPick_update hp ht)
  | wroteBroadcast t ht hst _ =>
    exact (h.wrote hst ht).alike (fun u => (broadcast_alike _).1) fun u => (broadcast_alike _).2
  | readLast t pick ht hp hst hl =>
    obtain ⟨hone, hex⟩ := h.read_leaves hst ht
    have hzero : s.lock.fState - 1 = 0 := by omega
    rw [hzero] at hex
    exact hex.signalled (canPick_update hp ht)
  | readMore t ht hst => exact (h.read_leaves (by omega) ht).2

/-- The state is safe. -/
def Safe (s : Locked T) : Prop := Exclusive s.lock.fState s.spot

omit [Fintype T] in
/-- A second writer that finds no readers gets the lock. -/
theorem writeLoop_spot (h : s.lock.fState < 0) : (s.writeLoop t).spot t = .writing := by
  unfold writeLoop
  rw [if_neg (mt OSMutexRW.activeReaders_iff.1 (by omega))]
  exact Function.update_self _ _ _

theorem not_safe_writeLoop (h : s.Safe) (hst : s.lock.fState < 0) (ht : s.spot t ≠ .writing) :
    ¬ Safe ((s.writeLoop t)) := by
  intro h'
  obtain ⟨u, hu⟩ := Exclusive.some_writer h hst
  have hut : u ≠ t := fun he => ht (he ▸ hu)
  exact hut (h'.one u t ((writeLoop_other hut).trans hu) (writeLoop_spot hst))

/-- A step that stays safe makes its test when no writer has the lock. -/
theorem alone_of_safe (h : s.Safe) (hs : s.step a = some s') (h' : s'.Safe) : s.Alone a := by
  cases a with
  | lockWrite t =>
    simp only [step] at hs
    split at hs
    · rename_i ht
      cases hs
      by_contra hw
      have hneg := OSMutexRW.activeWriter_iff.1 (Bool.not_eq_false _ ▸ hw)
      exact not_safe_writeLoop (s := { s with lock := s.lock.addWriteWaiter }) h hneg (by rw [ht]; decide) h'
    · cases hs
  | resume t =>
    intro hwait
    cases hp : s.spot t with
    | writeWait w =>
      simp only [step, hp] at hs
      cases hs
      by_contra hw
      have hneg := OSMutexRW.activeWriter_iff.1 (Bool.not_eq_false _ ▸ hw)
      exact not_safe_writeLoop h hneg (by simp [hp]) h'
    | out | readWait | reading | writing => rw [hp] at hwait; cases hwait
  | lockRead t => trivial
  | tryLockRead t => trivial
  | tryLockWrite t => trivial
  | unlock t pick => trivial

end ToolLib.Common.Locked
