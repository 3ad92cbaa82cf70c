import ToolLib.StateThreads.SchedSteps
import ToolLib.Base.Outputs

/-!
# Every step keeps the invariant

`Outcome` for every call and for what follows its switch, put together in `step_outcome`: a step that is allowed has no fault,
keeps the invariant, only adds to the run queue, and does one of the things that `Did` lists. So a run from the initial state
has no fault (`Ready.run`, `ready_init`).
-/

namespace ToolLib.StateThreads

open Base

variable {ν μ κ : Type} [DecidableEq ν] [DecidableEq μ] [DecidableEq κ]

namespace VP

variable {isTerm : κ → Prop} {s s' : VP ν μ κ} {t : ν} {c : κ} {m : μ} {a : Act ν μ κ}

/-! ## Signals and interrupts -/

theorem outcome_signal (hI : Inv isTerm s (some s.this)) (hpc : s.pc s.this = .user) (hc : ¬ isTerm c) (broadcast : Bool) :
    Outcome isTerm s (if broadcast then .broadcast c else .signal c) ((s.condSignal c broadcast).bind (·.ret (.ok 0))) := by
  have hq : ∀ t ∈ s.condQ c, s.pc t = .wait c := fun t ht =>
    ((hI.condQ c t).1 ht).resolve_right fun ⟨u, hu⟩ => hc (hI.join c t u hu)
  obtain ⟨s', added, hrun, hI', hwoke, rfl⟩ := hI.condSignalFrom broadcast (hI.condQ_nodup c) hq
  rw [condSignal, hrun, Option.bind_some]
  refine outcome_back _ (hwoke.this.symm ▸ hI') (by rw [hwoke.pc, hwoke.this, hpc]) hwoke.this hwoke.idleThread hwoke.runQ ?_
  cases broadcast with
  | false => exact .signal c s' hwoke
  | true => exact .broadcast c s' hwoke

theorem outcome_interrupt (hI : Inv isTerm s (some s.this)) (hpc : s.pc s.this = .user) (ht : s.pc t ≠ .gone) :
    Outcome isTerm s (.interrupt t) ((s.stThreadInterrupt t).bind (·.ret (.ok 0))) := by
  have hI' := hI.setInterrupt (t := t) (b := true) (.inl rfl)
  rw [stThreadInterrupt]
  split
  · exact outcome_back [] hI hpc rfl rfl (List.append_nil _).symm (.ignored t ‹_›)
  dsimp only
  split
  · exact outcome_back [] hI' hpc rfl rfl (List.append_nil _).symm (.flagged t ‹_›)
  · obtain ⟨h', hset, hoff⟩ := hI'.offSleepq t
    rw [hoff _ rfl]
    refine outcome_back [t] ?_ hpc rfl rfl rfl (.woken t h' ⟨‹_›, not_or.1 ‹_›⟩)
    refine hI'.wake hset ht ?_ (fun _ _ => .inr ?_) fun _ _ _ => .inl ?_
    · simp only [Waits, setInterrupt] at *
      grind
    all_goals simp [setInterrupt]

/-! ## Calls that are left -/

/-- A call returns with its error, or with the result; an interrupt is reported first. -/
theorem outcome_leave {x : Ret} {b : Bool} (hthis : s'.this = s.this) (hidle : s'.idleThread = s.idleThread)
    (hq : s'.runQ = s.runQ) (hI : ∀ f : ν → Bool, (∀ t, t ≠ s.this → f t = s'.interrupt t) →
      Inv isTerm { s' with interrupt := f, pc := Function.update s'.pc s.this .user } (some s.this))
    (hd : ∀ f : ν → Bool, (∀ t, t ≠ s.this → f t = s'.interrupt t) →
      Did s a { s' with interrupt := f } (.inl (if b then .error .EINTR else x))) :
    Outcome isTerm s a (if b then s'.retInterrupted else s'.ret x) := by
  have hoff : ∀ t, t ≠ s.this → Function.update s'.interrupt s'.this false t = s'.interrupt t := fun t ht =>
    Function.update_of_ne (by rwa [hthis]) ..
  split
  · have hd' := hd _ hoff
    rw [if_pos ‹_›] at hd'
    refine outcome_ret [] ?_ hthis hidle (by simp [VP.setInterrupt, hq]) hd'
    have hf := hI _ hoff
    rw [← hthis] at hf
    exact hf
  · have hd' := hd s'.interrupt fun _ _ => rfl
    rw [if_neg ‹_›] at hd'
    refine outcome_ret [] ?_ hthis hidle (by simp [hq]) hd'
    have hf := hI s'.interrupt fun _ _ => rfl
    rw [← hthis] at hf
    exact hf

section Resume

variable (hI : Inv isTerm s (some s.this))

include hI

theorem outcome_poll_resume (hpc : s.pc s.this = .poll) : Outcome isTerm s .resume s.stPollResume := by
  have htime := hI.not_timedout (by simp [hpc])
  rw [stPollResume]
  cases hio : s.onIoq s.this with
  | true =>
    rw [if_pos rfl, unlink, if_pos ((hI.ioQ s.this).2 hio)]
    refine outcome_leave rfl rfl rfl (fun f hf => ?_) fun f hf => .leavePoll _ _ _ f hpc hf
    exact hI.back (by simp [hpc]) (.inl ⟨hio, rfl, rfl⟩) (fun m => .inr ⟨by simp [hpc], rfl⟩)
      (fun c => .inr ⟨by simp [hpc], rfl⟩) hf htime
  | false =>
    rw [if_neg Bool.false_ne_true]
    refine outcome_leave rfl rfl rfl (fun f hf => ?_) fun f hf => .leavePoll _ s.onIoq s.ioQ f hpc hf
    exact hI.back (by simp [hpc]) (.inr ⟨hio, rfl, rfl⟩) (fun m => .inr ⟨by simp [hpc], rfl⟩)
      (fun c => .inr ⟨by simp [hpc], rfl⟩) hf htime

theorem outcome_usleep_resume (hpc : s.pc s.this = .usleep) : Outcome isTerm s .resume s.stUsleepResume := by
  refine outcome_leave rfl rfl rfl (fun f hf => ?_) fun f hf => .leaveUsleep _ f hpc hf
  exact hI.back (by simp [hpc]) (.inr ⟨hI.off_ioq (by simp [hpc]), rfl, rfl⟩) (fun m => .inr ⟨by simp [hpc], rfl⟩)
    (fun c => .inr ⟨by simp [hpc], rfl⟩) hf (hI.not_timedout (by simp [hpc]))

theorem outcome_lock_resume (hpc : s.pc s.this = .lock m) : Outcome isTerm s .resume (s.stMutexLockResume m) := by
  rw [stMutexLockResume, unlink, if_pos ((hI.lockQ m s.this).2 hpc)]
  refine outcome_leave rfl rfl rfl (fun f hf => ?_) fun f hf => .leaveLock m f _ hpc hf (by simp)
  refine hI.back (by simp [hpc]) (.inr ⟨hI.off_ioq (by simp [hpc]), rfl, rfl⟩) (fun m' => ?_)
    (fun c => .inr ⟨by simp [hpc], rfl⟩) hf (hI.not_timedout (by simp [hpc]))
  simp only [hpc, Function.update_apply]
  grind

theorem outcome_wait_resume (hpc : s.pc s.this = .wait c) : Outcome isTerm s .resume s.resume := by
  obtain ⟨f, g, rv, hrun, hf, hg, hrv⟩ := condTimedwaitResume_eq hI (.inl hpc)
  have hback := hI.leaveCond (.inl hpc) hf hg
  rw [VP.resume, hpc]
  simp only [hrun, Option.bind_eq_bind, Option.bind_some]
  cases rv with
  | none => exact outcome_ret [] hback rfl rfl (List.append_nil _).symm (.leaveWait c f g _ hpc hg hf (by grind))
  | some e => exact outcome_ret [] hback rfl rfl (List.append_nil _).symm (.leaveWait c f g _ hpc hg hf (by grind))

end Resume

/-! ## Threads -/

theorem outcome_join (hI : Inv isTerm s (some s.this)) (hpc : s.pc s.this = .user) (ht : s.pc t ≠ .gone) :
    Outcome isTerm s (.join t) (s.stThreadJoin t) := by
  rw [stThreadJoin]
  cases hterm : s.term t with
  | none => exact outcome_error hI hpc trivial
  | some term =>
    dsimp only
    split
    · exact outcome_error hI hpc trivial
    split
    · exact outcome_error hI hpc trivial
    have hempty : s.condQ term = [] := not_not.1 ‹_›
    have hno : ∀ u x, s.pc x ≠ .join u term := fun u x hx => by
      have hin := (hI.condQ term x).2 (.inr ⟨u, hx⟩)
      rw [hempty] at hin
      cases hin
    rw [joinLoop]
    split
    · refine outcome_wait hI hpc trivial (by simp [Fits]) (.inr ⟨t, rfl, rfl⟩) (by rintro ⟨⟩) (fun u c hj => ?_) fun _ h' =>
        .join t term h' hterm ‹_›
      cases hj
      exact ⟨hI.term _ t ht hterm, ‹_›, fun v hv hvc => hI.term_unique _ t v ht hv hterm hvc, hno t⟩
    · have hst : s.state t = .zombie := not_not.1 ‹_›
      rw [unlink, if_pos ((hI.zombieQ t).2 ⟨hst, ht⟩)]
      refine outcome_back [t] (hI.reap hst ht fun c x hc => ?_) hpc rfl rfl rfl (.joined t hst)
      cases hterm.symm.trans hc
      exact hno t x

theorem outcome_join_resume (hI : Inv isTerm s (some s.this)) (hpc : s.pc s.this = .join t c) :
    Outcome isTerm s .resume (s.stThreadJoinResume t c) := by
  obtain ⟨f, g, rv, hrun, hf, hg, hrv⟩ := condTimedwaitResume_eq hI (.inr ⟨t, hpc⟩)
  have hback := hI.leaveCond (.inr ⟨t, hpc⟩) hf hg
  rw [stThreadJoinResume]
  simp only [hrun, Option.bind_eq_bind, Option.bind_some]
  cases rv with
  | some e => exact outcome_ret [] hback rfl rfl (List.append_nil _).symm (.leaveJoin t c f g e hpc hg hf)
  | none =>
    -- without an error the thread has been woken by the exit of `t`
    have hrunning := (hI.running s.this (by simp [hpc])).2 rfl
    obtain ⟨hst, hexit, hterm⟩ := (hI.joined c s.this t hpc (by simp [hrunning])).resolve_left (by grind)
    have hgone : s.pc t ≠ .gone := by simp [hexit]
    have hne : t ≠ s.this := by
      rintro rfl
      cases hst.symm.trans hrunning
    dsimp only
    rw [joinLoop, if_neg (not_not.2 hst), unlink, if_pos ((hI.zombieQ t).2 ⟨hst, hgone⟩)]
    refine outcome_ret [t] ?_ rfl rfl rfl (.leaveJoined t c f g hpc hg hf ⟨hst, hexit⟩)
    refine hback.reap hst (by simp [hne, hgone]) fun c' x hc' hx => ?_
    cases hterm.symm.trans hc'
    have hxc : Function.update s.pc s.this .user x = .join t c := hx
    by_cases hxt : x = s.this
    · rw [hxt, Function.update_self] at hxc
      cases hxc
    · rw [Function.update_of_ne hxt] at hxc
      exact hxt (hI.joiner_unique c s.this t x hgone hterm hpc hxc)

theorem outcome_exit_resume (hI : Inv isTerm s (some s.this)) (hpc : s.pc s.this = .exit) :
    Outcome isTerm s .resume s.stThreadExitResume := by
  refine outcome_switch [] ?_ rfl (List.append_nil _).symm (.leaveExit hpc)
  exact hI.gone (.inr hpc) (g := s.retval) (n := s.activeCount) (fun t ht => Function.update_of_ne ht ..) (by simp [hpc])

/-- `st_thread_exit` of a joinable thread, which wakes the threads `w`. -/
theorem outcome_zombie (hI : Inv isTerm s (some s.this)) (hpc : s.pc s.this = .user) (hc : s.term s.this = some c) {n : Nat}
    {w q : List ν} {st : ν → ThreadState} (hq : q = s.runQ ++ w) (hnodup : w.Nodup)
    (hst : ∀ t, st t = if t = s.this then .zombie else if t ∈ w then .runnable else s.state t)
    (hw : ∀ t, t ∈ w ↔ s.pc t = .join s.this c ∧ s.state t = .condWait) :
    Outcome isTerm s (.exit n) ({ s with
      state := st, zombieQ := s.zombieQ ++ [s.this], runQ := q, retval := Function.update s.retval s.this n
      activeCount := s.activeCount - 1 }.switchContext .exit) := by
  subst hq
  exact outcome_switch w (hI.exit hpc hc hst hw hnodup) rfl rfl (.exit n c st w hc hst fun t ht => (hw t).1 ht)

theorem outcome_exit (hI : Inv isTerm s (some s.this)) (hpc : s.pc s.this = .user) (n : Nat) :
    Outcome isTerm s (.exit n) (s.stThreadExit n) := by
  rw [stThreadExit]
  cases hterm : s.term s.this with
  | none =>
    refine outcome_switch [] ?_ rfl (List.append_nil _).symm (.exitNow n hterm)
    exact hI.gone (.inl hpc) (fun _ _ => rfl) ⟨fun _ => rfl, by simp [hpc]⟩
  | some c =>
    have hq : ∀ t, t ∈ s.condQ c ↔ s.pc t = .join s.this c := fun t => by
      have ht := hI.condQ c t
      have hw := hI.wait c t
      have hj := hI.joiner c t s.this
      have hc := hI.term c s.this
      grind
    have hone : s.condQ c = [] ∨ ∃ t, s.condQ c = [t] := by
      cases hl : s.condQ c with
      | nil => exact .inl rfl
      | cons t q =>
        cases q with
        | nil => exact .inr ⟨t, rfl⟩
        | cons x q =>
          have hnodup := hI.condQ_nodup c
          have hx := hI.joiner_unique c t s.this x
          rw [hl] at hq hnodup
          have ht := hq t
          have hxq := hq x
          grind
    rcases hone with hl | ⟨t, hl⟩
    · simp only [Option.bind_eq_bind, condSignal, setState, hl, VP.condSignalFrom, Option.bind_some]
      exact outcome_zombie hI hpc hterm (w := []) (List.append_nil _).symm List.nodup_nil
        (fun x => by simp [Function.update_apply]) fun x => by have hx := hq x; grind
    · have hjoin := (hq t).1 (by simp [hl])
      have hne : t ≠ s.this := fun heq => by simp [heq, hpc] at hjoin
      have hoff : s.onSleepq t = false := by grind [hI.onSleepq]
      simp only [Option.bind_eq_bind, condSignal, setState, hl, VP.condSignalFrom, Function.update_of_ne hne, Bool.false_eq_true,
        if_false]
      split
      · simp only [VP.offSleepq, hoff, Bool.false_eq_true, if_false, Option.bind_some, makeRunnable, setState]
        refine outcome_zombie hI hpc hterm (w := [t]) rfl (List.nodup_singleton t) (fun x => ?_) fun x => ?_
        · simp only [Function.update_apply, List.mem_singleton]
          grind
        · have hx := hq x
          grind
      · simp only [Option.bind_some]
        exact outcome_zombie hI hpc hterm (w := []) (List.append_nil _).symm List.nodup_nil
          (fun x => by simp [Function.update_apply]) fun x => by have hx := hq x; grind

theorem outcome_create (hI : Inv isTerm s (some s.this)) (hpc : s.pc s.this = .user) (hgone : s.pc t = .gone)
    {o : Option κ} (ho : ∀ c, o = some c → isTerm c ∧ s.condQ c = [] ∧ ∀ x, s.pc x ≠ .gone → s.term x ≠ some c) :
    Outcome isTerm s (.create t o) ((s.stThreadCreate t o).ret (.ok 0)) := by
  have hne : s.this ≠ t := fun heq => by simp [← heq, hpc] at hgone
  have hidle : t ≠ s.idleThread := fun heq => by simp [(hI.idle t).2 heq] at hgone
  refine outcome_back [t] ?_ ?_ rfl rfl rfl (.create t o)
  · have hI' := hI.create (by simp [hpc]) hgone hidle ho
      (q := { s.toSleepQ with
        onSleepq := Function.update s.onSleepq t false, left := Function.update s.left t none
        right := Function.update s.right t none, due := Function.update s.due t 0
        heapIndex := Function.update s.heapIndex t 0 }) rfl rfl (fun x hx => by simp [Function.update_of_ne hx])
      fun x => Function.update_apply ..
    cases o with
    | none => exact hI'
    | some c =>
      have hcond : Function.update s.condQ c [] = s.condQ := Function.update_eq_self_iff.2 (ho c rfl).2.1.symm
      simp only [stThreadCreate, setPc, makeRunnable, setState, hcond]
      exact hI'
  · exact (Function.update_of_ne hne ..).trans hpc

theorem outcome_idle (hI : Inv isTerm s (some s.this)) (hpc : s.pc s.this = .idle) (hq : s.runQ = []) (ready : ν → Nat)
    (now : UInt64) : Outcome isTerm s (.idle ready now) (s.idleTurn ready now) := by
  obtain ⟨s₁, hrun₁, hI₁, hwoke₁⟩ := hI.dispatchFrom ready hI.ioQ_nodup fun t ht => by
    have hon := (hI.ioQ t).1 ht
    exact ⟨hon, hI.waiting hpc hq hon⟩
  obtain ⟨s₂, added, hrun₂, hI₂, hexp⟩ := (hI₁.setClock now).checkClockFrom now (Nat.lt_succ_self _)
  have hclock : Woke { s₁ with lastClock := now } s₂ added := hexp.toWoke
  have hwoke : Woke s s₂ _ := hwoke₁.trans ⟨⟨hclock.this, hclock.idleThread, hclock.pc, hclock.interrupt, hclock.term,
    hclock.retval, hclock.zombieQ, hclock.owner, hclock.lockQ, hclock.condQ⟩, hclock.runQ, hclock.state, hclock.waits,
    hclock.timedout⟩
  have htime : ∀ t ∈ s.ioQ.filter (fun t => ready t ≠ 0) ++ added, s.state t = .condWait → s₂.timedout t = true := by
    intro t ht hst
    rcases List.mem_append.1 ht with ht | ht
    · have hio := hI.waiting hpc hq ((hI.ioQ t).1 (List.mem_of_mem_filter ht))
      cases hst.symm.trans hio
    · refine (hexp.marked t).2 (.inr ⟨ht, ?_⟩)
      have hw := hexp.waits t ht
      have hst₁ := hwoke₁.state t
      grind
  rw [idleTurn, dispatch, hrun₁, Option.bind_eq_bind, Option.bind_some, vpCheckClock, hrun₂, Option.bind_some]
  refine outcome_switch _ ?_ hwoke.idleThread hwoke.runQ (.idle ready now s₂ _ hwoke htime)
  have hpc₂ : s₂.pc s.this = .idle := by rw [hwoke.pc, hpc]
  rw [← hwoke.this] at hI₂ hpc₂
  exact hI₂.leave (by simp [hpc₂]) .idle .runnable (.inr ⟨rfl, hpc₂, rfl, rfl⟩)
    (.inr ⟨hI₂.off_ioq (by simp [hpc₂]), rfl, rfl⟩) (fun m => .inr ⟨by simp [hpc₂], rfl⟩)
    (fun c => .inr ⟨by simp [hpc₂], rfl⟩) (fun _ _ => rfl) (hI₂.not_timedout (by simp [hpc₂]))

/-! ## All steps -/

/-- The invariant between two steps: the running thread exists, and it is the idle thread only when no other one is
runnable. -/
structure Ready (isTerm : κ → Prop) (s : VP ν μ κ) : Prop where
  inv : Inv isTerm s (some s.this)
  here : s.pc s.this ≠ .gone
  alone : s.this = s.idleThread → s.runQ = []

/-- After a step without a fault. -/
theorem Outcome.ready {s' : VP ν μ κ} {x : Option Ret} (h : Outcome isTerm s a (some (s', x))) : Ready isTerm s' := by
  obtain ⟨hI, hgone, hidle, ⟨added, ⟨-, -, hpc, -⟩ | ⟨-, hnext⟩⟩, -⟩ := h
  · refine ⟨hI, hgone, fun heq => ?_⟩
    cases ((hI.idle s'.this).2 heq).symm.trans hpc
  · refine ⟨hI, hgone, fun heq => ?_⟩
    rcases hnext with ⟨-, hne⟩ | ⟨-, hq, -⟩
    · exact absurd (heq.trans hidle) hne
    · exact hq

theorem outcome_resume (hI : Inv isTerm s (some s.this)) (hgone : s.pc s.this ≠ .gone)
    (hpc : s.pc s.this ≠ .user ∧ s.pc s.this ≠ .idle) : Outcome isTerm s .resume s.resume := by
  cases hat : s.pc s.this with
  | user => exact absurd hat hpc.1
  | idle => exact absurd hat hpc.2
  | gone => exact absurd hat hgone
  | wait c => exact outcome_wait_resume hI hat
  | poll =>
    rw [VP.resume, hat]
    exact outcome_poll_resume hI hat
  | usleep =>
    rw [VP.resume, hat]
    exact outcome_usleep_resume hI hat
  | join t c =>
    rw [VP.resume, hat]
    exact outcome_join_resume hI hat
  | lock m =>
    rw [VP.resume, hat]
    exact outcome_lock_resume hI hat
  | exit =>
    rw [VP.resume, hat]
    exact outcome_exit_resume hI hat

/-- **Every step that is allowed has no fault and keeps the invariant.** -/
theorem step_outcome (h : Ready isTerm s) (ha : Allowed isTerm s a) : Outcome isTerm s a (s.step a) := by
  have hI := h.inv
  cases a with
  | poll timeout added => exact outcome_poll hI ha timeout added
  | usleep usecs => exact outcome_usleep hI ha usecs
  | wait c timeout =>
    exact outcome_wait hI ha.1 trivial (by simp [Fits]) (.inl rfl) (fun _ => ha.2) nofun fun hi h' => .wait c timeout h' hi
  | signal c => exact outcome_signal hI ha.1 ha.2 false
  | broadcast c => exact outcome_signal hI ha.1 ha.2 true
  | lock m => exact outcome_lock hI ha m
  | unlock m => exact outcome_unlock hI ha m
  | trylock m => exact outcome_trylock hI ha m
  | interrupt t => exact outcome_interrupt hI ha.1 ha.2.1
  | create t o => exact outcome_create hI ha.1 ha.2.1 ha.2.2
  | exit n => exact outcome_exit hI ha n
  | join t => exact outcome_join hI ha.1 ha.2.1
  | resume => exact outcome_resume hI h.here ha
  | idle ready now => exact outcome_idle hI ha.1 (h.alone ((hI.idle s.this).1 ha.1)) ready now

omit [DecidableEq μ] [DecidableEq κ] in
theorem ready_init (isTerm : κ → Prop) {idleThread main : ν} (hne : main ≠ idleThread) (now : UInt64) :
    Ready isTerm (init idleThread main now : VP ν μ κ) where
  inv := {
    fits := fun t => by
      simp only [init]
      grind [Fits]
    running := by
      simp only [init]
      grind
    idle := by
      simp only [init]
      grind
    runQ := by
      simp only [init]
      grind
    runQ_nodup := List.nodup_nil
    zombieQ := by
      simp only [init]
      grind
    zombieQ_nodup := List.nodup_nil
    ioQ := by simp [init]
    ioQ_nodup := List.nodup_nil
    onIoq := nofun
    ioWait := by
      simp only [init]
      grind
    sleepq := ⟨.nil, isHeap_nil rfl rfl, by simp [init]⟩
    onSleepq := nofun
    sleeping := by
      simp only [init]
      grind
    timedout := nofun
    lockQ := by
      simp only [init]
      grind
    lockQ_nodup := fun _ => List.nodup_nil
    unlocked := by
      simp only [init]
      grind
    handed := nofun
    woken := by
      simp only [init]
      grind
    condQ := by
      simp only [init]
      grind
    condQ_nodup := fun _ => List.nodup_nil
    wait := by
      simp only [init]
      grind
    term := nofun
    term_unique := nofun
    join := by
      simp only [init]
      grind
    joiner := nofun
    joiner_unique := nofun
    joined := by
      simp only [init]
      grind
    zombie := nofun
    active := ⟨[main], List.nodup_singleton main, by
      simp only [init]
      grind, rfl⟩ }
  here := by simp [init, hne]
  alone := fun _ => rfl

/-! ## The end of a step -/

/-- What the end of a step changes: the place of the running thread, and which thread runs. -/
structure Ended (s : VP ν μ κ) (e : Ret ⊕ Pc ν μ κ) (s' : VP ν μ κ) (x : Option Ret) : Prop where
  result : x = e.elim some fun _ => none
  pc : s'.pc = Function.update s.pc s.this (e.elim (fun _ => .user) id)
  state : ∀ t, s'.state t = s.state t ∨ (s.state t = .runnable ∧ s'.state t = .running)
  interrupt : s'.interrupt = s.interrupt
  timedout : s'.timedout = s.timedout
  term : s'.term = s.term
  retval : s'.retval = s.retval
  owner : s'.owner = s.owner
  lockQ : s'.lockQ = s.lockQ
  condQ : s'.condQ = s.condQ

omit [DecidableEq μ] [DecidableEq κ] in
theorem Ends.ended {e : Ret ⊕ Pc ν μ κ} {x : Option Ret} (h : Ends s e s' x) : Ended s e s' x := by
  cases e with
  | inl y =>
    obtain ⟨rfl, rfl⟩ := h
    exact ⟨rfl, rfl, fun _ => .inl rfl, rfl, rfl, rfl, rfl, rfl, rfl, rfl⟩
  | inr pc =>
    obtain ⟨hrun, rfl⟩ := h
    simp only [vpSchedule, setPc] at hrun
    split at hrun
    all_goals
      obtain ⟨hst, ⟨⟩⟩ := Option.ite_none_right_eq_some.1 hrun
      refine ⟨rfl, rfl, fun t => ?_, rfl, rfl, rfl, rfl, rfl, rfl, rfl⟩
      simp only [setState, Function.update_apply]
      grind

/-! ## Runs -/

theorem Ready.takes (h : Ready isTerm s) (ha : Allowed isTerm s a) :
    ∃ s' x, s.step a = some (s', x) ∧ Outcome isTerm s a (some (s', x)) := by
  have ho := step_outcome h ha
  cases hs : s.step a with
  | none =>
    rw [hs] at ho
    exact ho.elim
  | some o =>
    rw [hs] at ho
    exact ⟨o.1, o.2, rfl, ho⟩

theorem Ready.of_step (h : Ready isTerm s) (ha : Allowed isTerm s a) (hs : quiet VP.step s a = some s') : Ready isTerm s' := by
  obtain ⟨s₁, x, hs₁, ho⟩ := h.takes ha
  cases (quiet_eq_some hs₁).symm.trans hs
  exact ho.ready

/-- A run of steps that are allowed has no fault. -/
theorem Ready.run {as : List (Act ν μ κ)} (h : Ready isTerm s) (has : Along (quiet VP.step) (Allowed isTerm) s as) :
    ∃ s', Base.run (quiet VP.step) s as = some s' ∧ Ready isTerm s' := by
  induction as generalizing s with
  | nil => exact ⟨s, rfl, h⟩
  | cons a as ih =>
    obtain ⟨s₁, x, hs, ho⟩ := h.takes has.1
    have hq := quiet_eq_some hs
    obtain ⟨s', hrun, h'⟩ := ih ho.ready (has.2 s₁ hq)
    exact ⟨s', run_cons_eq_some.2 ⟨s₁, hq, hrun⟩, h'⟩

end VP

end ToolLib.StateThreads
