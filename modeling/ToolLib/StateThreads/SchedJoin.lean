import ToolLib.StateThreads.SchedRuns

/-!
# Joining threads and waiting for signals

Two records of what the calls have done, kept beside the scheduler: the values of the threads that have exited and have not
been joined (`collected`), and the threads that a signal has woken (`notified`). They agree with the state of the scheduler
in every run, so a join returns the value of the exit, once (`join_collects`), and `st_cond_timedwait` returns 0 only to a
thread that was signalled (`wait_signalled`).
-/

namespace ToolLib.StateThreads

open Base

variable {ν μ κ : Type} [DecidableEq ν] [DecidableEq μ] [DecidableEq κ]

namespace VP

variable {isTerm : κ → Prop} {s s' s₁ : VP ν μ κ} {t : ν} {a : Act ν μ κ} {x : Option Ret} {e : Ret ⊕ Pc ν μ κ}
  {idleThread main : ν}

/-! ## Joins -/

/-- The thread that the call of the running thread is to join. -/
def joins (s : VP ν μ κ) : Act ν μ κ → Option ν
  | .join t => some t
  | .resume =>
    match s.pc s.this with
    | .join t _ => some t
    | _ => none
  | _ => none

/-- The values of the threads that have exited and have not been joined, after a step that has returned `x`. -/
def collected (s : VP ν μ κ) (a : Act ν μ κ) (x : Option Ret) (left : ν → Option Nat) : ν → Option Nat :=
  match a, x, joins s a with
  | .exit n, _, _ => if (s.term s.this).isSome then Function.update left s.this (some n) else left
  | _, some (.ok _), some t => Function.update left t none
  | _, _, _ => left

/-- The scheduler with the record of the values. -/
def withValues (s : VP ν μ κ × (ν → Option Nat)) (a : Act ν μ κ) : Option ((VP ν μ κ × (ν → Option Nat)) × Option Ret) :=
  (s.1.step a).map fun r => ((r.1, collected s.1 a r.2 s.2), r.2)

/-- The values that the zombies hold. -/
def uncollected (s : VP ν μ κ) (t : ν) : Option Nat :=
  if s.state t = .zombie ∧ s.pc t = .exit then some (s.retval t) else none

theorem uncollected_congr (hst : s'.state t = .zombie ↔ s.state t = .zombie) (hpc : s'.pc t = s.pc t)
    (hret : s'.retval t = s.retval t) : uncollected s' t = uncollected s t := by
  simp only [uncollected, hst, hpc, hret]

theorem uncollected_none (hst : s.state t ≠ .zombie) : uncollected s t = none := if_neg fun h => hst h.1

/-- A step in which no thread exits and none is joined. -/
theorem collected_quiet (hrun : s.state s.this = .running) (he : Ended s₁ e s' x)
    (hst : ∀ t, s₁.state t = .zombie ↔ s.state t = .zombie) (hpc : s₁.pc = s.pc) (hthis : s₁.this = s.this)
    (hret : s₁.retval = s.retval) (hexit : ∀ n, a ≠ .exit n) (hq : (∀ n, e ≠ .inl (.ok n)) ∨ joins s a = none) :
    collected s a x (uncollected s) = uncollected s' := by
  have hrec : collected s a x (uncollected s) = uncollected s := by
    unfold collected
    rw [he.result]
    split
    · exact absurd rfl (hexit _)
    · rename_i hx hj
      rcases hq with hq | hq
      · rcases e with (n | y) | pc
        · exact absurd rfl (hq n)
        all_goals cases hx
      · cases hq.symm.trans hj
    · rfl
  rw [hrec]
  funext t
  have hs := he.state t
  have hst' := hst t
  by_cases ht : t = s.this
  · rw [uncollected_none (by grind), uncollected_none (by grind)]
  · refine (uncollected_congr (by grind) ?_ (by rw [he.retval, hret])).symm
    rw [he.pc, hthis, Function.update_of_ne ht, hpc]

/-- A step in which the thread `u` is joined. -/
theorem collected_joined {u : ν} {n : Nat} (hrun : s.state s.this = .running) (he : Ended s₁ (.inl (.ok n)) s' x)
    (hst : s₁.state = Function.update s.state u .runnable) (hpc : s₁.pc = s.pc) (hthis : s₁.this = s.this)
    (hret : s₁.retval = s.retval) (hexit : ∀ n, a ≠ .exit n) (hj : joins s a = some u) :
    collected s a x (uncollected s) = uncollected s' := by
  have hrec : collected s a x (uncollected s) = Function.update (uncollected s) u none := by
    unfold collected
    rw [he.result]
    split
    · exact absurd rfl (hexit _)
    · rename_i hj'
      cases hj.symm.trans hj'
      rfl
    · rename_i hno
      exact absurd hj (hno _ _ rfl)
  rw [hrec]
  funext t
  have hs := he.state t
  have hst' : s₁.state t = if t = u then .runnable else s.state t := by rw [hst, Function.update_apply]
  rw [Function.update_apply]
  split
  · exact (uncollected_none (by grind)).symm
  by_cases ht : t = s.this
  · rw [uncollected_none (by grind), uncollected_none (by grind)]
  · refine (uncollected_congr (by grind) ?_ (by rw [he.retval, hret])).symm
    rw [he.pc, hthis, Function.update_of_ne ht, hpc]

theorem collected_eq (h : Ready isTerm s) (ha : Allowed isTerm s a) (hs : s.step a = some (s', x)) :
    collected s a x (uncollected s) = uncollected s' := by
  obtain ⟨s₂, x₂, hs₂, -, -, -, -, s₁, e, hd, he⟩ := h.takes ha
  cases hs₂.symm.trans hs
  have hrun := (h.inv.running s.this h.here).2 rfl
  have hend := he.ended
  have hmoved : ∀ {st : ThreadState} {u : ν}, s.state u ≠ .zombie → st ≠ .zombie →
      ∀ t, Function.update s.state u st t = .zombie ↔ s.state t = .zombie := fun hu hst t => by
    rw [Function.update_apply]
    grind
  have hwoke : ∀ {s₁ : VP ν μ κ} {added : List ν}, Woke s s₁ added → ∀ t, s₁.state t = .zombie ↔ s.state t = .zombie :=
    fun hw t => by
      have hwt := hw.waits t
      rw [hw.state]
      grind
  have hthis : s.state s.this ≠ .zombie := by simp [hrun]
  cases hd with
  | error a e hr =>
    exact collected_quiet hrun hend (fun _ => Iff.rfl) rfl rfl rfl (by rintro n rfl; exact hr) (.inl (by rintro _ ⟨⟩))
  | interrupted a hb hi =>
    exact collected_quiet hrun hend (fun _ => Iff.rfl) rfl rfl rfl (by rintro n rfl; exact hb) (.inl (by rintro _ ⟨⟩))
  | poll timeout h' => exact collected_quiet hrun hend (hmoved hthis (by simp)) rfl rfl rfl (by rintro _ ⟨⟩) (.inl (by rintro _ ⟨⟩))
  | usleep usecs h' st hst => exact collected_quiet hrun hend (hmoved hthis (by grind)) rfl rfl rfl (by rintro _ ⟨⟩) (.inl (by rintro _ ⟨⟩))
  | wait c timeout h' hi => exact collected_quiet hrun hend (hmoved hthis (by simp)) rfl rfl rfl (by rintro _ ⟨⟩) (.inl (by rintro _ ⟨⟩))
  | signal c s₁ hw => exact collected_quiet hrun hend (hwoke hw) hw.pc hw.this hw.retval (by rintro _ ⟨⟩) (.inr rfl)
  | broadcast c s₁ hw => exact collected_quiet hrun hend (hwoke hw) hw.pc hw.this hw.retval (by rintro _ ⟨⟩) (.inr rfl)
  | acquire a lock hl hfree =>
    rcases hl with ⟨rfl, -⟩ | rfl
    · exact collected_quiet hrun hend (fun _ => Iff.rfl) rfl rfl rfl (by rintro _ ⟨⟩) (.inr rfl)
    · exact collected_quiet hrun hend (fun _ => Iff.rfl) rfl rfl rfl (by rintro _ ⟨⟩) (.inr rfl)
  | lock lock hi howner => exact collected_quiet hrun hend (hmoved hthis (by simp)) rfl rfl rfl (by rintro _ ⟨⟩) (.inl (by rintro _ ⟨⟩))
  | free lock howner hno => exact collected_quiet hrun hend (fun _ => Iff.rfl) rfl rfl rfl (by rintro _ ⟨⟩) (.inr rfl)
  | handOff lock t q q' howner hq hno ht =>
    exact collected_quiet hrun hend (hmoved (by simp [ht]) (by simp)) rfl rfl rfl (by rintro _ ⟨⟩) (.inr rfl)
  | ignored t ht => exact collected_quiet hrun hend (fun _ => Iff.rfl) rfl rfl rfl (by rintro _ ⟨⟩) (.inr rfl)
  | flagged t ht => exact collected_quiet hrun hend (fun _ => Iff.rfl) rfl rfl rfl (by rintro _ ⟨⟩) (.inr rfl)
  | woken t h' ht => exact collected_quiet hrun hend (hmoved ht.1 (by simp)) rfl rfl rfl (by rintro _ ⟨⟩) (.inr rfl)
  | create t o =>
    have hrec : collected s (.create t o) x (uncollected s) = uncollected s := by
      rw [hend.result]
      rfl
    rw [hrec]
    funext u
    have hs := hend.state u
    have hgone := ha.2.1
    have hpc := congrFun hend.pc u
    simp only [stThreadCreate, setPc, makeRunnable, setState, Sum.elim_inl, Function.update_apply] at hs hpc
    by_cases hu : u = s.this ∨ u = t
    · rw [uncollected_none (s := s') (by grind), uncollected, if_neg (by grind)]
    · refine (uncollected_congr (by grind) (by grind) ?_).symm
      rw [hend.retval]
      exact Function.update_of_ne (by grind) ..
  | exit n c st w hc hst hw =>
    have hrec : collected s (.exit n) x (uncollected s) = Function.update (uncollected s) s.this (some n) := by
      rw [collected, if_pos (by simp [hc])]
    rw [hrec]
    funext u
    have hs := hend.state u
    have hu := hst u
    have hwu := hw u
    rw [Function.update_apply]
    split
    · subst ‹u = s.this›
      have hst' : s'.state s.this = .zombie := by grind
      have hpc' : s'.pc s.this = .exit := by rw [hend.pc]; exact Function.update_self ..
      rw [uncollected, if_pos ⟨hst', hpc'⟩, hend.retval]
      show some n = some (Function.update s.retval s.this n s.this)
      rw [Function.update_self]
    · refine (uncollected_congr (by grind) ?_ ?_).symm
      · rw [hend.pc]
        exact Function.update_of_ne ‹_› ..
      · rw [hend.retval]
        exact Function.update_of_ne ‹_› ..
  | exitNow n hc =>
    have hrec : collected s (.exit n) x (uncollected s) = uncollected s := by
      rw [collected, if_neg (by simp [hc])]
    rw [hrec]
    funext u
    have hs := hend.state u
    by_cases hu : u = s.this
    · rw [uncollected_none (by grind), uncollected_none (by grind)]
    · refine (uncollected_congr (by grind) ?_ ?_).symm
      · rw [hend.pc]
        exact Function.update_of_ne hu ..
      · rw [hend.retval]
        exact Function.update_of_ne hu ..
  | join t c h' hc ht => exact collected_quiet hrun hend (hmoved hthis (by simp)) rfl rfl rfl (by rintro _ ⟨⟩) (.inl (by rintro _ ⟨⟩))
  | joined t ht => exact collected_joined hrun hend rfl rfl rfl rfl (by rintro _ ⟨⟩) rfl
  | leavePoll x onIoq ioQ f hpc hf =>
    exact collected_quiet hrun hend (fun _ => Iff.rfl) rfl rfl rfl (by rintro _ ⟨⟩) (.inr (by simp [joins, hpc]))
  | leaveUsleep x f hpc hf =>
    exact collected_quiet hrun hend (fun _ => Iff.rfl) rfl rfl rfl (by rintro _ ⟨⟩) (.inr (by simp [joins, hpc]))
  | leaveWait c f g x hpc hg hf hx =>
    exact collected_quiet hrun hend (fun _ => Iff.rfl) rfl rfl rfl (by rintro _ ⟨⟩) (.inr (by simp [joins, hpc]))
  | leaveJoin t c f g e hpc hg hf => exact collected_quiet hrun hend (fun _ => Iff.rfl) rfl rfl rfl (by rintro _ ⟨⟩) (.inl (by rintro _ ⟨⟩))
  | leaveJoined t c f g hpc hg hf ht => exact collected_joined hrun hend rfl rfl rfl rfl (by rintro _ ⟨⟩) (by simp [joins, hpc])
  | leaveLock lock f x hpc hf hx =>
    exact collected_quiet hrun hend (fun _ => Iff.rfl) rfl rfl rfl (by rintro _ ⟨⟩) (.inr (by simp [joins, hpc]))
  | leaveExit hpc => exact collected_quiet hrun hend (fun _ => Iff.rfl) rfl rfl rfl (by rintro _ ⟨⟩) (.inl (by rintro _ ⟨⟩))
  | idle ready now s₁ added hw htime =>
    have hst : s₁.state s₁.this ≠ .zombie := by rw [hw.this]; exact fun hz => hthis ((hwoke hw _).1 hz)
    refine collected_quiet hrun hend (fun t => ?_) hw.pc hw.this hw.retval (by rintro _ ⟨⟩) (.inl (by rintro _ ⟨⟩))
    rw [← hwoke hw t]
    simp only [setState, Function.update_apply]
    grind

theorem joined_value (h : Ready isTerm s) (ha : Allowed isTerm s a) {n : Nat} (hj : joins s a = some t)
    (hd : Did s a s₁ (.inl (.ok n))) : uncollected s t = some n := by
  have hj' : a = .join t ∨ a = .resume ∧ ∃ c, s.pc s.this = .join t c := by
    cases a with
    | join u => exact .inl (congrArg Act.join (Option.some.inj hj))
    | resume =>
      cases hpc : s.pc s.this with
      | join u c =>
        simp only [joins, hpc] at hj
        cases hj
        exact .inr ⟨rfl, c, rfl⟩
      | _ => simp [joins, hpc] at hj
    | _ => cases hj
  rcases hj' with rfl | ⟨rfl, c, hpc⟩
  · cases hd with
    | acquire a m hl hfree => simp at hl
    | joined u ht =>
      have hexit := (fits_zombie (ht ▸ h.inv.fits t)).resolve_right ha.2.1
      exact if_pos ⟨ht, hexit⟩
  · cases hd with
    | acquire a m hl hfree => simp at hl
    | leaveJoined u c' f g hpc' hg hf ht =>
      cases hpc.symm.trans hpc'
      exact if_pos ht
    | _ => simp_all

/-- **A join returns the value of the exit, once**: `st_thread_join` returns only the value of a thread that has exited and has
not been joined since. -/
theorem join_collects (hne : main ≠ idleThread) (now : UInt64) {as : List (Act ν μ κ)}
    (has : Along (quiet withValues) (fun s a => Allowed isTerm s.1 a) (init idleThread main now, fun _ => none) as) :
    Meets withValues (fun _ s a x => ∀ t n, joins s.1 a = some t → x = some (.ok n) → s.2 t = some n) []
      (init idleThread main now, fun _ => none) as := by
  refine meets_of_along (I := fun _ s => Ready isTerm s.1 ∧ s.2 = uncollected s.1) (fun past s a hI ha => ?_)
    ⟨ready_init isTerm hne now, funext fun t => (uncollected_none ?_).symm⟩ has
  · obtain ⟨s, left⟩ := s
    obtain ⟨h, hleft⟩ := hI
    dsimp only at h hleft ha
    subst hleft
    obtain ⟨s', x, hs, ho⟩ := h.takes ha
    refine ⟨_, x, by rw [withValues, hs]; rfl, fun t n hj hx => ?_, ho.ready, collected_eq h ha hs⟩
    subst hx
    have hend := ho.2.2.2.2
    obtain ⟨s₁, e, hd, he⟩ := hend
    obtain rfl : e = .inl (.ok n) := by
      have hres := he.ended.result
      cases e <;> simp_all
    exact joined_value h ha hj hd
  · simp only [init]
    split <;> simp

theorem join_collects_one : Meets withValues (fun _ s a x => ∀ t n, joins s.1 a = some t → x = some (.ok n) → s.2 t = some n) []
    ((init 0 1 100 : VP (Fin 3) (Fin 1) (Fin 1)), fun _ => none) [.create 2 (some 0), .join 2, .exit 7, .resume] := by
  have has : Along (quiet withValues) (fun s a => Allowed (· = 0) s.1 a)
    ((init 0 1 100 : VP (Fin 3) (Fin 1) (Fin 1)), fun _ => none) [.create 2 (some 0), .join 2, .exit 7, .resume] := by
    decide +kernel
  exact join_collects (by decide) 100 has

/-! ## Condition variables -/

/-- The threads that a signal has woken since they began to wait. -/
def notified (s : VP ν μ κ) (a : Act ν μ κ) (sig : ν → Bool) : ν → Bool :=
  match a with
  | .wait _ _ => Function.update sig s.this false
  | .signal c => fun t => sig t || decide (t ∈ (s.waitingFor c).take 1)
  | .broadcast c => fun t => sig t || decide (t ∈ s.waitingFor c)
  | _ => sig

/-- The scheduler with the record of the signals. -/
def withSignals (s : VP ν μ κ × (ν → Bool)) (a : Act ν μ κ) : Option ((VP ν μ κ × (ν → Bool)) × Option Ret) :=
  (s.1.step a).map fun r => ((r.1, notified s.1 a s.2), r.2)

/-- Who has been woken in `st_cond_timedwait` was signalled, is too late, or was interrupted. -/
def Reason (s : VP ν μ κ) (sig : ν → Bool) : Prop :=
  ∀ t c, s.pc t = .wait c → s.state t ≠ .condWait → sig t = true ∨ s.timedout t = true ∨ s.interrupt t = true

theorem Did.reason {sig : ν → Bool} {c : κ} (h : Ready isTerm s) (ha : Allowed isTerm s a) (hr : Reason s sig)
    (hd : Did s a s₁ e) (ht : t ≠ s.this) (hpc : s₁.pc t = .wait c) (hst : s₁.state t ≠ .condWait) :
    notified s a sig t = true ∨ s₁.timedout t = true ∨ s₁.interrupt t = true := by
  have hrt := hr t c
  cases hd with
  | error a e ha' =>
    have hn : notified s a sig = sig := by cases a <;> first | rfl | exact ha'.elim
    rw [hn]
    exact hrt hpc hst
  | interrupted a hb hi =>
    simp only [setInterrupt, Function.update_of_ne ht] at hpc hst ⊢
    cases a <;> simp only [notified, Function.update_of_ne ht] <;> first | exact hrt hpc hst | exact hb.elim
  | acquire a lock hl hfree =>
    have hn : notified s a sig = sig := by rcases hl with ⟨rfl, -⟩ | rfl <;> rfl
    rw [hn]
    exact hrt hpc hst
  | signal c' s₁ hw =>
    have hst' := hw.state t
    have htime := hw.timedout t
    rw [hw.pc] at hpc
    rw [hw.interrupt]
    simp only [notified, Bool.or_eq_true, decide_eq_true_eq]
    grind
  | broadcast c' s₁ hw =>
    have hst' := hw.state t
    have htime := hw.timedout t
    rw [hw.pc] at hpc
    rw [hw.interrupt]
    simp only [notified, Bool.or_eq_true, decide_eq_true_eq]
    grind
  | woken u h' hu =>
    simp only [notified, setInterrupt, makeRunnable, setState, Function.update_apply] at hpc hst ⊢
    grind
  | create u o =>
    simp only [notified, stThreadCreate, setPc, makeRunnable, setState, Function.update_apply] at hpc hst ⊢
    grind
  | exit n c' st w hc hst' hw =>
    have hstt := hst' t
    have hwt := hw t
    simp only [notified] at hpc hst ⊢
    grind
  | idle ready now s₁ added hw htime =>
    have hst' := hw.state t
    have hmark := hw.timedout t
    have hm := htime t
    have hne : t ≠ s₁.this := by rwa [hw.this]
    simp only [setState, Function.update_of_ne hne, hw.pc, hw.interrupt, notified] at hpc hst ⊢
    grind
  | handOff lock u q q' howner hq hno hu =>
    have hlock : s.pc u = .lock lock := (h.inv.lockQ lock u).1 (by simp [hq])
    simp only [notified, setOwner, makeRunnable, setState, Function.update_apply] at hpc hst ⊢
    grind
  | _ =>
    simp only [notified, setOwner, setInterrupt, makeRunnable, setState, Function.update_apply] at hpc hst ⊢
    grind

theorem Reason.step {sig : ν → Bool} (hr : Reason s sig) (h : Ready isTerm s) (ha : Allowed isTerm s a)
    (hs : s.step a = some (s', x)) : Reason s' (notified s a sig) := by
  obtain ⟨s₂, x₂, hs₂, -, -, -, -, s₁, e, hd, he⟩ := h.takes ha
  cases hs₂.symm.trans hs
  have hend := he.ended
  intro t c hpc hst
  have hst₁ : s₁.state t ≠ .condWait := by
    have hs := hend.state t
    grind
  rw [hend.interrupt, hend.timedout]
  rw [hend.pc, Function.update_apply] at hpc
  by_cases ht : t = s₁.this
  · -- the running thread waits only after `st_cond_timedwait` has set its state
    rw [if_pos ht] at hpc
    subst ht
    have hrun := (h.inv.running s.this h.here).2 rfl
    cases hd <;> simp_all
  · rw [if_neg ht] at hpc
    refine hd.reason h ha hr ?_ hpc hst₁
    cases hd with
    | signal c' s₁ hw => rwa [hw.this] at ht
    | broadcast c' s₁ hw => rwa [hw.this] at ht
    | idle ready now s₁ added hw htime => rw [← hw.this]; exact ht
    | _ => exact ht

/-- What `st_cond_timedwait` returns: a thread that has been interrupted before does not wait; one that has waited and runs again
gets the reason for it, and 0 only when it was signalled. -/
def WaitResult (s : VP ν μ κ × (ν → Bool)) (a : Act ν μ κ) (x : Option Ret) : Prop :=
  (∀ c timeout, a = .wait c timeout → x = if s.1.interrupt s.1.this then some (.error .EINTR) else none) ∧
  ∀ c, a = .resume → s.1.pc s.1.this = .wait c →
    x = some (if s.1.interrupt s.1.this then .error .EINTR else if s.1.timedout s.1.this then .error .ETIME else .ok 0) ∧
      (x = some (.ok 0) → s.2 s.1.this = true)

/-- **`st_cond_timedwait` returns 0 only to a thread that was signalled**; otherwise it returns the reason why the thread runs. -/
theorem wait_signalled (hne : main ≠ idleThread) (now : UInt64) {as : List (Act ν μ κ)}
    (has : Along (quiet withSignals) (fun s a => Allowed isTerm s.1 a) (init idleThread main now, fun _ => false) as) :
    Meets withSignals (fun _ s a x => WaitResult s a x) [] (init idleThread main now, fun _ => false) as := by
  refine meets_of_along (I := fun _ s => Ready isTerm s.1 ∧ Reason s.1 s.2) (fun past s a hI ha => ?_)
    ⟨ready_init isTerm hne now, ?_⟩ has
  · obtain ⟨s, sig⟩ := s
    obtain ⟨h, hr⟩ := hI
    dsimp only at h hr ha
    obtain ⟨s', x, hs, ho⟩ := h.takes ha
    obtain ⟨s₁, e, hd, he⟩ := ho.2.2.2.2
    refine ⟨_, x, by rw [withSignals, hs]; rfl, ⟨fun c timeout hact => ?_, fun c hact hpc => ?_⟩, ho.ready, hr.step h ha hs⟩
    · subst hact
      rw [he.ended.result]
      cases hd with
      | interrupted a hb hi => rw [hi]; rfl
      | wait c timeout h' hi => rw [hi]; rfl
      | _ => simp_all [Act.Refused]
    subst hact
    dsimp only at hpc ⊢
    have hx : x = some (if s.interrupt s.this then .error .EINTR else if s.timedout s.this then .error .ETIME else .ok 0) := by
      rw [he.ended.result]
      cases hd with
      | leaveWait c f g x hpc hg hf hx => rw [hx]; rfl
      | acquire a lock hl hfree => simp at hl
      | _ => simp_all [Act.Blocks, Act.Refused]
    refine ⟨hx, fun hok => ?_⟩
    have hrun := (h.inv.running s.this h.here).2 rfl
    have hreason := hr s.this c hpc (by simp [hrun])
    rw [hx] at hok
    grind
  · simp only [Reason, init]
    grind

theorem wait_signalled_one : Meets withSignals (fun _ s a x => WaitResult s a x) []
    ((init 0 1 100 : VP (Fin 3) (Fin 1) (Fin 2)), fun _ => false)
    [.create 2 none, .wait 1 90, .signal 1, .usleep 5, .resume] := by
  have has : Along (quiet withSignals) (fun s a => Allowed (· = 0) s.1 a)
    ((init 0 1 100 : VP (Fin 3) (Fin 1) (Fin 2)), fun _ => false) [.create 2 none, .wait 1 90, .signal 1, .usleep 5, .resume] := by
    decide +kernel
  exact wait_signalled (by decide) 100 has

/-- The threads that wait for the condition variable: the rest of those that have waited before, and new ones. -/
theorem Did.waitingFor {c : κ} (h : Ready isTerm s) (ha : Allowed isTerm s a) (hd : Did s a s₁ e) :
    (∀ t ∈ s.condQ c, s₁.state t = .condWait → s.state t = .condWait) ∧
      ∃ new, s₁.waitingFor c = (s.condQ c).filter (s₁.state · = .condWait) ++ new := by
  have hrun := (h.inv.running s.this h.here).2 rfl
  have hsame : ∀ {s₁ : VP ν μ κ}, s₁.condQ c = s.condQ c →
      ∃ new, s₁.waitingFor c = (s.condQ c).filter (s₁.state · = .condWait) ++ new := fun {s₁} hq =>
    ⟨[], by rw [VP.waitingFor, hq, List.append_nil]⟩
  have hout : s.pc s.this = .user → s.this ∉ s.condQ c := fun hu hin => by
    have hpc := (h.inv.condQ c s.this).1 hin
    simp [hu] at hpc
  -- the running thread is put on a queue
  have hjoin : ∀ {s₁ : VP ν μ κ} {c' : κ}, s₁.condQ = Function.update s.condQ c' (s.condQ c' ++ [s.this]) →
      ∃ new, s₁.waitingFor c = (s.condQ c).filter (s₁.state · = .condWait) ++ new := fun {s₁ c'} hq => by
    by_cases hc : c = c'
    · subst hc
      exact ⟨_, by rw [VP.waitingFor, hq, Function.update_self, List.filter_append]⟩
    · exact hsame (by rw [hq, Function.update_of_ne hc])
  -- the running thread leaves a queue
  have hleave : ∀ {s₁ : VP ν μ κ} {c' : κ}, s₁.condQ = Function.update s.condQ c' ((s.condQ c').erase s.this) →
      s₁.state s.this ≠ .condWait →
      ∃ new, s₁.waitingFor c = (s.condQ c).filter (s₁.state · = .condWait) ++ new := fun {s₁ c'} hq hst => by
    by_cases hc : c = c'
    · subst hc
      exact ⟨[], by rw [VP.waitingFor, hq, Function.update_self, filter_erase (by simpa using hst), List.append_nil]⟩
    · exact hsame (by rw [hq, Function.update_of_ne hc])
  have hmoved : ∀ {u : ν} {st : ThreadState}, st ≠ .condWait →
      ∀ t ∈ s.condQ c, Function.update s.state u st t = .condWait → s.state t = .condWait := fun hst t _ ht => by
    rw [Function.update_apply] at ht
    grind
  have hblock : s.pc s.this = .user →
      ∀ t ∈ s.condQ c, Function.update s.state s.this .condWait t = .condWait → s.state t = .condWait := fun hu t hin ht => by
    rwa [Function.update_of_ne (ne_of_mem_of_not_mem hin (hout hu))] at ht
  have hwoke : ∀ {s₁ : VP ν μ κ} {added : List ν}, Woke s s₁ added →
      ∀ t ∈ s.condQ c, s₁.state t = .condWait → s.state t = .condWait := fun hw t _ ht => by
    have hst := hw.state t
    grind
  cases hd with
  | poll timeout h' => exact ⟨hmoved (by simp), hsame rfl⟩
  | usleep usecs h' st hst => exact ⟨hmoved (by grind), hsame rfl⟩
  | wait c' timeout h' hi => exact ⟨hblock ha.1, hjoin rfl⟩
  | join t c' h' hc ht => exact ⟨hblock ha.1, hjoin rfl⟩
  | signal c' s₁ hw => exact ⟨hwoke hw, hsame (by rw [hw.condQ])⟩
  | broadcast c' s₁ hw => exact ⟨hwoke hw, hsame (by rw [hw.condQ])⟩
  | lock lock hi howner => exact ⟨hmoved (by simp), hsame rfl⟩
  | handOff lock t q q' howner hq hno ht => exact ⟨hmoved (by simp), hsame rfl⟩
  | woken t h' ht => exact ⟨hmoved (by simp), hsame rfl⟩
  | create t o =>
    refine ⟨hmoved (by simp), ?_⟩
    cases o with
    | none => exact hsame rfl
    | some c' =>
      have hc := (ha.2.2 c' rfl).2.1
      have heq : Function.update s.condQ c' [] = s.condQ := Function.update_eq_self_iff.2 hc.symm
      exact hsame (congrFun heq c)
  | exit n c' st w hc hst hw =>
    refine ⟨fun t _ ht => ?_, hsame rfl⟩
    have hstt := hst t
    have ht' : st t = .condWait := ht
    grind
  | joined t ht => exact ⟨hmoved (by simp), hsame rfl⟩
  | leaveWait c' f g x hpc hg hf hx => exact ⟨fun _ _ ht => ht, hleave rfl (by simp [hrun])⟩
  | leaveJoin t c' f g e hpc hg hf => exact ⟨fun _ _ ht => ht, hleave rfl (by simp [hrun])⟩
  | leaveJoined t c' f g hpc hg hf ht =>
    refine ⟨hmoved (by simp), hleave rfl ?_⟩
    simp only [makeRunnable, setState, Function.update_apply, hrun]
    split <;> simp
  | idle ready now s₁ added hw htime =>
    refine ⟨fun t hin ht => hwoke hw t hin ?_, hsame (by simp [setState, hw.condQ])⟩
    simp only [setState, Function.update_apply] at ht
    grind
  | _ => exact ⟨fun _ _ ht => ht, hsame rfl⟩

/-- The step signals the condition variable. -/
def signals (c : κ) (_ : VP ν μ κ) : Act ν μ κ → Bool
  | .signal c' => c' = c
  | _ => false

/-- **Signals wake in the order of waiting**: who waits for a condition variable behind `n` other threads does not wait any more when
it has been signalled `n + 1` times. -/
theorem signals_in_order (hne : main ≠ idleThread) (now : UInt64) {c : κ} {as₀ as : List (Act ν μ κ)} {l r : List ν}
    (h₀ : Along (quiet step) (Allowed isTerm) (init idleThread main now) as₀)
    (hr₀ : run (quiet step) (init idleThread main now) as₀ = some s)
    (has : Along (quiet step) (Allowed isTerm) s as) (hr : run (quiet step) s as = some s') (hq : s.waitingFor c = l ++ t :: r)
    (hlt : l.length < tally (quiet step) (signals c) s as) :
    ∃ as₁ as₂ s₁, as = as₁ ++ as₂ ∧ run (quiet step) s as₁ = some s₁ ∧ s₁.state t ≠ .condWait := by
  obtain ⟨s₂, hr₂, h⟩ := (ready_init isTerm hne now).run h₀
  cases hr₂.symm.trans hr₀
  refine run_served (VP.waitingFor · c) (signals c) (fun s => s.state t ≠ .condWait) (I := Ready isTerm)
    (C := Allowed isTerm) (fun _ _ _ h ha hs => h.of_step ha hs) ?_ h has hr hq hlt
  intro s a s' l r h ha hs hq
  by_cases ht : s'.state t = .condWait
  · refine .inl ?_
    obtain ⟨s₂, x, hs₂, -, -, -, -, s₁, e, hd, he⟩ := h.takes ha
    cases (quiet_eq_some hs₂).symm.trans hs
    have hend := he.ended
    have hst : ∀ u, s'.state u = .condWait ↔ s₁.state u = .condWait := fun u => by
      have hu := hend.state u
      grind
    obtain ⟨hkeep, new, hnew⟩ := hd.waitingFor (c := c) h ha
    have hwait : s'.waitingFor c = s₁.waitingFor c := by
      rw [VP.waitingFor, VP.waitingFor, hend.condQ]
      exact List.filter_congr fun u _ => by simp [hst u]
    have hrest : (s.condQ c).filter (s₁.state · = .condWait) = (l ++ t :: r).filter (s₁.state · = .condWait) := by
      rw [← hq, VP.waitingFor, List.filter_filter]
      refine List.filter_congr fun u hu => ?_
      have hku := hkeep u hu
      grind
    refine ⟨l.filter (s₁.state · = .condWait), r.filter (s₁.state · = .condWait) ++ new, ?_, ?_⟩
    · show s'.waitingFor c = _
      rw [hwait, hnew, hrest, List.filter_append, List.filter_cons_of_pos (by simpa using (hst t).1 ht), List.append_assoc,
        List.cons_append]
    · by_cases hsig : a = .signal c
      · subst hsig
        have hw : Woke s s₁ ((s.waitingFor c).take 1) := by
          cases hd with
          | signal _ _ hw => exact hw
          | error _ _ hr => exact hr.elim
          | interrupted _ hb _ => exact hb.elim
          | acquire _ _ hl _ => simp at hl
        have hstate := hw.state
        rw [show s.waitingFor c = l ++ t :: r from hq] at hstate
        cases l with
        | nil =>
          -- the thread itself is woken
          have ht' := (hst t).1 ht
          rw [hstate t] at ht'
          simp at ht'
        | cons u l =>
          rw [List.filter_cons_of_neg (by rw [hstate u]; simp)]
          simpa [signals] using List.length_filter_le _ l
      · have hno : signals c s a = false := by
          cases a <;> simp_all [signals]
        rw [hno]
        exact List.length_filter_le _ l
  · exact .inr ht

theorem signals_in_order_two : ∃ s, run (quiet step) (init 0 1 100 : VP (Fin 5) (Fin 1) (Fin 2))
    [.create 2 none, .create 3 none, .create 4 none, .wait 1 90, .wait 1 80, .wait 1 70] = some s ∧
      ∃ as₁ as₂ s₁, [.signal 1, .signal 1] = as₁ ++ as₂ ∧ run (quiet step) s as₁ = some s₁ ∧ s₁.state 2 ≠ .condWait := by
  have h₀ : Along (quiet step) (Allowed (· = 0)) (init 0 1 100 : VP (Fin 5) (Fin 1) (Fin 2))
    [.create 2 none, .create 3 none, .create 4 none, .wait 1 90, .wait 1 80, .wait 1 70] := by decide +kernel
  exact ⟨_, rfl, signals_in_order (by decide) 100 (c := 1) (l := [1]) (r := [3]) h₀ rfl (by decide +kernel) rfl rfl (by decide +kernel)⟩

end VP

end ToolLib.StateThreads
