import ToolLib.Common.OSMutexRW

/-!
# Wakeups of the read-write lock

Readers are woken by the one branch of `Unlock` that finds no waiting writer, writers by all others. Neither is forgotten:

- a reader that waits unwoken does so behind a writer, active or waiting (`Awake.readers`);
- when the lock is free and writers wait, one of them has been woken (`Awake.writers`).

So a free lock never leaves all its waiting threads asleep (`no_lost_wakeup`), also in the runs in which two writers have
the lock.
-/

namespace ToolLib.Common.Locked

open ToolLib.Base

variable {T : Type*} [DecidableEq T] [Fintype T]

/-- What keeps the waiting threads from being forgotten. -/
structure Awake (st ww : Int) (spot : T → Spot) : Prop where
  waiters : ww = count Spot.isWriteWaiter spot
  readers : ∀ t, spot t = .readWait false → st < 0 ∨ 0 < ww
  writers : st = 0 → (∃ t w, spot t = .writeWait w) → ∃ t, spot t = .writeWait true

/-- The lock is free, and all the threads that wait for it sleep. -/
def Stranded (s : Locked T) : Prop :=
  s.lock.fState = 0 ∧ (∃ t, (s.spot t).isBlocked = true) ∧ ∀ t, (s.spot t).isBlocked = true → (s.spot t).isWoken = false

variable {s s' : Locked T} {a : Move T} {t : T} {st ww : Int} {f : T → Spot} {p : Spot}

omit [DecidableEq T] in
theorem awake_new : Awake 0 0 fun _ : T => Spot.out where
  waiters := by
    have hzero : count Spot.isWriteWaiter (fun _ : T => Spot.out) = 0 := count_eq_zero.2 fun _ => rfl
    rw [hzero]
    rfl
  readers _ h := by cases h
  writers _ h := by
    obtain ⟨_, _, h⟩ := h
    cases h

omit [DecidableEq T] in
theorem Awake.not_stranded (h : Awake s.lock.fState s.lock.fWriteWaiters s.spot) : ¬ s.Stranded := by
  rintro ⟨hfree, ⟨t, ht⟩, hasleep⟩
  cases hp : s.spot t with
  | writeWait w =>
    obtain ⟨u, hu⟩ := h.writers hfree ⟨t, w, hp⟩
    have hsleep := hasleep u (by rw [hu]; rfl)
    rw [hu] at hsleep
    cases hsleep
  | readWait w =>
    have hsleep := hasleep t ht
    rw [hp] at hsleep
    have hw : w = false := hsleep
    subst hw
    rcases h.readers t hp with hneg | hpos
    · omega
    · -- the reader waits for a writer that waits, and that one has been woken
      rw [h.waiters] at hpos
      obtain ⟨u, hu⟩ := count_pos.1 (by omega : 0 < count Spot.isWriteWaiter s.spot)
      have hwait : ∃ w, s.spot u = .writeWait w := by cases hs : s.spot u <;> simp_all [Spot.isWriteWaiter]
      obtain ⟨w, hu⟩ := hwait
      obtain ⟨v, hv⟩ := h.writers hfree ⟨u, w, hu⟩
      have hsleep := hasleep v (by rw [hv]; rfl)
      rw [hv] at hsleep
      cases hsleep
  | out | reading | writing => rw [hp] at ht; cases ht

omit [Fintype T] in
theorem update_eq {u : T} {q : Spot} (h : Function.update f t p u = q) : u = t ∧ p = q ∨ u ≠ t ∧ f u = q := by
  by_cases hu : u = t
  · subst hu
    rw [Function.update_self] at h
    exact Or.inl ⟨rfl, h⟩
  · rw [Function.update_of_ne hu] at h
    exact Or.inr ⟨hu, h⟩

omit [Fintype T] in
theorem signalled_eq {pick : Option T} {u : T} {q : Spot} (h : signalled f pick u = q) :
    pick = some u ∧ .writeWait true = q ∨ f u = q := by
  cases pick with
  | none => exact Or.inr h
  | some v =>
    rcases update_eq h with ⟨rfl, hq⟩ | ⟨-, hf⟩
    · exact Or.inl ⟨rfl, hq⟩
    · exact Or.inr hf

omit [DecidableEq T] [Fintype T] in
/-- A thread that calls `LockRead`, or waits in it, is no waiting writer. -/
theorem notWriteWaiter_read (ht : s.spot t = .out ∨ ∃ w, s.spot t = .readWait w) :
    (s.spot t).isWriteWaiter = false := by
  rcases ht with ht | ⟨w, ht⟩ <;> rw [ht] <;> rfl

omit [DecidableEq T] [Fintype T] in
theorem notWriteWaiter_holds (ht : s.spot t = .reading ∨ s.spot t = .writing) : (s.spot t).isWriteWaiter = false := by
  rcases ht with ht | ht <;> rw [ht] <;> rfl

/-- A signal wakes a waiting writer, which goes on waiting. -/
theorem count_signalled {pick : Option T} (hp : s.CanPick pick) (ht : s.spot t = .reading ∨ s.spot t = .writing) :
    count Spot.isWriteWaiter (signalled (Function.update s.spot t .out) pick) = count Spot.isWriteWaiter s.spot := by
  have hleave : count Spot.isWriteWaiter (Function.update s.spot t .out) = count Spot.isWriteWaiter s.spot :=
    count_stay (by rw [notWriteWaiter_holds ht]; rfl)
  cases pick with
  | none => exact hleave
  | some u =>
    rw [← hleave]
    exact count_stay (by rw [canPick_update hp ht u rfl]; rfl)

/-- `fWriteWaiters` counts the threads that wait in `LockWrite`. -/
theorem waiters_effect (h : s.lock.fWriteWaiters = count Spot.isWriteWaiter s.spot) (he : Effect s a st ww f) :
    ww = count Spot.isWriteWaiter f := by
  cases he with
  | busy => exact h
  | readWait t ht _ => rw [h, count_stay (by rw [notWriteWaiter_read ht]; rfl)]
  | read t ht _ _ => rw [h, count_stay (by rw [notWriteWaiter_read ht]; rfl)]
  | writeWait t ht _ =>
    have henter : count Spot.isWriteWaiter (Function.update s.spot t (.writeWait false)) =
        count Spot.isWriteWaiter s.spot + 1 := count_enter (by rw [ht]; rfl) rfl
    omega
  | writeAgain t ht _ =>
    obtain ⟨w, ht⟩ := ht
    rw [h, count_stay (by rw [ht]; rfl)]
  | write t ht _ _ => rw [h, count_stay (by rw [ht]; rfl)]
  | writeWoken t ht _ =>
    obtain ⟨w, ht⟩ := ht
    have hleave : count Spot.isWriteWaiter (Function.update s.spot t .writing) + 1 = count Spot.isWriteWaiter s.spot :=
      count_leave (by rw [ht]; rfl) rfl
    omega
  | wroteSignal t pick ht hp _ _ => rw [h, count_signalled hp ht]
  | wroteBroadcast t ht _ _ =>
    have hsame : count Spot.isWriteWaiter (fun u => (Function.update s.spot t .out u).broadcast) =
        count Spot.isWriteWaiter (Function.update s.spot t .out) :=
      count_congr fun u => by cases Function.update s.spot t .out u <;> rfl
    rw [h, hsame, count_stay (by rw [notWriteWaiter_holds ht]; rfl)]
  | readLast t pick ht hp _ _ => rw [h, count_signalled hp ht]
  | readMore t ht _ => rw [h, count_stay (by rw [notWriteWaiter_holds ht]; rfl)]

omit [Fintype T] in
/-- A reader begins to sleep behind a writer only, and the broadcast comes when there is none left. -/
theorem readers_effect (h : ∀ t, s.spot t = .readWait false → s.lock.fState < 0 ∨ 0 < s.lock.fWriteWaiters)
    (hww : 0 ≤ s.lock.fWriteWaiters) (he : Effect s a st ww f) : ∀ t, f t = .readWait false → st < 0 ∨ 0 < ww := by
  intro u hu
  cases he with
  | busy => exact h u hu
  | readWait t _ hw => exact hw
  | read t _ hst hw =>
    rcases update_eq hu with ⟨-, hu⟩ | ⟨-, hu⟩
    · cases hu
    · have := h u hu
      omega
  | writeWait t _ _ => exact Or.inr (by omega)
  | writeAgain t _ _ =>
    rcases update_eq hu with ⟨-, hu⟩ | ⟨-, hu⟩
    · cases hu
    · exact h u hu
  | write t _ _ _ => exact Or.inl (by decide)
  | writeWoken t _ _ => exact Or.inl (by decide)
  | wroteSignal t pick _ _ _ hw => exact Or.inr hw
  | wroteBroadcast t _ _ _ => cases hf : Function.update s.spot t .out u <;> simp [hf, Spot.broadcast] at hu
  | readLast t pick _ _ hst _ =>
    rcases signalled_eq hu with ⟨-, hu⟩ | hu
    · cases hu
    · rcases update_eq hu with ⟨-, hu⟩ | ⟨-, hu⟩
      · cases hu
      · exact Or.inr ((h u hu).resolve_left (by omega))
  | readMore t _ hst =>
    rcases update_eq hu with ⟨-, hu⟩ | ⟨-, hu⟩
    · cases hu
    · exact Or.inr ((h u hu).resolve_left (by omega))

omit [Fintype T] in
/-- A signal leaves a woken writer, if any waits. -/
theorem signalled_woken {pick : Option T} (hp : s.CanPick pick)
    (h : ∃ u w, signalled (Function.update s.spot t .out) pick u = .writeWait w) :
    ∃ u, signalled (Function.update s.spot t .out) pick u = .writeWait true := by
  cases pick with
  | some u => exact ⟨u, Function.update_self _ _ _⟩
  | none =>
    obtain ⟨u, w, hu⟩ := h
    refine ⟨u, ?_⟩
    cases w with
    | true => exact hu
    | false =>
      rcases update_eq hu with ⟨-, hu⟩ | ⟨-, hu⟩
      · cases hu
      · exact absurd hu (hp u)

/-- The lock becomes free with a signal, or with no writer waiting. -/
theorem writers_effect (h : Awake s.lock.fState s.lock.fWriteWaiters s.spot) (he : Effect s a st ww f) :
    st = 0 → (∃ t w, f t = .writeWait w) → ∃ t, f t = .writeWait true := by
  intro hst hex
  cases he with
  | busy => exact h.writers hst hex
  | readWait t ht _ =>
    obtain ⟨u, w, hu⟩ := hex
    rcases update_eq hu with ⟨-, hu⟩ | ⟨-, hu⟩
    · cases hu
    · obtain ⟨v, hv⟩ := h.writers hst ⟨u, w, hu⟩
      have hvt : v ≠ t := by
        rintro rfl
        have := notWriteWaiter_read ht
        rw [hv] at this
        cases this
      exact ⟨v, by rw [Function.update_of_ne hvt]; exact hv⟩
  | read t _ _ _ => omega
  | writeWait t _ _ => omega
  | writeAgain t _ _ => omega
  | write t _ _ _ => omega
  | writeWoken t _ _ => omega
  | wroteSignal t pick _ hp _ _ => exact signalled_woken hp hex
  | wroteBroadcast t _ _ hw =>
    obtain ⟨u, w, hu⟩ := hex
    have hzero : count Spot.isWriteWaiter s.spot = 0 := by have := h.waiters; omega
    have hno := count_eq_zero.1 hzero u
    have hu' : Function.update s.spot t .out u = .writeWait w := by
      cases hf : Function.update s.spot t .out u <;> simp_all [Spot.broadcast]
    rcases update_eq hu' with ⟨-, hu'⟩ | ⟨-, hu'⟩
    · cases hu'
    · rw [hu'] at hno
      cases hno
  | readLast t pick _ hp _ _ => exact signalled_woken hp hex
  | readMore t _ _ => omega

theorem awake_step (h : Awake s.lock.fState s.lock.fWriteWaiters s.spot) (hs : s.step a = some s') :
    Awake s'.lock.fState s'.lock.fWriteWaiters s'.spot := by
  have he := step_does hs
  have hww : 0 ≤ s.lock.fWriteWaiters := by have := h.waiters; omega
  exact ⟨waiters_effect h.waiters he, readers_effect h.readers hww he, writers_effect h he⟩

/-- **No lost wakeup.** In no run from a new lock is the lock ever free while all the threads that wait for it sleep. -/
theorem no_lost_wakeup (as : List (Move T)) : Always step (fun s => ¬ s.Stranded) (new : Locked T) as := by
  have hall : Along step (fun _ _ => True) (new : Locked T) as := along_of_forall fun _ _ => trivial
  exact always_of_along (fun _ _ _ h _ hs => awake_step h hs) (fun _ h => h.not_stranded) awake_new hall

end ToolLib.Common.Locked
