import ToolLib.Common.TaskPlacement

/-!
# Alive tasks without a place

`Signal` schedules a task only when it finds the alive bit clear, so a task whose bit is set and that is in no queue, in
no heap and not executed never runs again: every later `Signal` leaves it to somebody who does not exist. `Housed` says
that there is no such task. All steps keep it but one: `Signal` sets the bit before it looks whether there are task
threads, and when there are none it leaves the task where it is.
-/

namespace ToolLib.Common

open ToolLib.Base

variable {τ σ : Type*}

namespace Scheduler

variable {s s' : Scheduler τ σ} {t u : τ} {k : Nat} {a : σ} {th : TaskThread τ}

/-- Every task that is alive is in some place. -/
def Housed (s : Scheduler τ σ) : Prop := ∀ t, s.Alive t → ∃ p, s.At t p

/-- **No dead task**: a task that is alive, with no `Signal` in progress that has taken it over, is in a queue, in a heap
or executed. -/
def NoDeadTask (s : Scheduler τ σ) : Prop :=
  ∀ t, s.Alive t → (∀ a g, s.sig a = some g → g.task ≠ t) → ∃ k c, (s.thread k).Has t c

/-- A `Signal` that looks for a thread finds the pool filled. -/
def PoolFilled (s : Scheduler τ σ) : Act τ σ → Prop
  | .route _ => s.sNumTaskThreads > 0
  | _ => True

instance (s : Scheduler τ σ) (act : Act τ σ) : Decidable (s.PoolFilled act) :=
  match act with
  | .route _ => inferInstanceAs (Decidable (s.sNumTaskThreads > 0))
  | .newTask _ | .addThreads _ | .signal _ _ _ | .enqueue _ | .timer _ _ _ _ | .noTimer _ _ | .dequeue _ | .stop _
  | .begin _ | .readEvents _ | .subEvents _ | .forceSameThread _ | .callLocked _ | .globalUnlock _ | .ret _ _
  | .finish _ _ | .orIdle _ => instDecidableTrue

theorem housed_iff_noDeadTask : s.Housed ↔ s.NoDeadTask := by
  constructor
  · intro h t ht hsig
    obtain ⟨p, hp⟩ := h t ht
    cases p with
    | signaller a =>
      obtain ⟨g, hg, hgt⟩ := hp
      exact absurd hgt (hsig a g hg)
    | thread k c => exact ⟨k, c, hp⟩
  · intro h t ht
    by_cases hsig : ∀ a g, s.sig a = some g → g.task ≠ t
    · obtain ⟨k, c, hc⟩ := h t ht hsig
      exact ⟨.thread k c, hc⟩
    · push Not at hsig
      obtain ⟨a, g, hg, hgt⟩ := hsig
      exact ⟨.signaller a, g, hg, hgt⟩

theorem housed_new : Housed (new : Scheduler τ σ) := by
  rintro t ⟨hlive, -⟩
  cases hlive

/-! ## What keeps a task housed -/

/-- What was housed stays so: nobody comes to life, and nobody loses every place. -/
theorem Housed.mono (h : s.Housed) (halive : ∀ u, s'.Alive u → s.Alive u)
    (hat : ∀ u p, s'.Alive u → s.At u p → ∃ q, s'.At u q) : s'.Housed := by
  intro u hu
  obtain ⟨p, hp⟩ := h u (halive u hu)
  exact hat u p hu hp

/-- A thread changes, and each of its tasks goes from one of its parts to another. -/
theorem at_setThread_of_has {p : Spots σ} (hth : ∀ c, (s.thread k).Has u c → ∃ d, th.Has u d) (hp : s.At u p) :
    ∃ q, (s.setThread k th).At u q := by
  cases p with
  | signaller a => exact ⟨.signaller a, hp⟩
  | thread j c =>
    by_cases hj : j = k
    · subst hj
      obtain ⟨d, hd⟩ := hth c hp
      exact ⟨.thread j d, by simpa [At, Scheduler.setThread] using hd⟩
    · exact ⟨.thread j c, by simpa [At, Scheduler.setThread, Function.update_of_ne hj] using hp⟩

/-- A thread goes on with the task that it has, or had none. -/
theorem at_goto {e : Entry τ} {p : Spots σ} (he : ∀ u, (s.thread k).entry.task = some u → e.task = some u)
    (hp : s.At u p) : ∃ q, (s.goto k e).At u q := by
  refine at_setThread_of_has (fun c hc => ?_) hp
  cases c with
  | queue => exact ⟨.queue, hc⟩
  | heap => exact ⟨.heap, hc⟩
  | running => exact ⟨.running, he u hc⟩

/-- The alive bit of a task does not appear. -/
theorem alive_of_setTask [DecidableEq τ] {x : Task}
    (hx : x.fEvents.getLsbD 31 = true → (s.task t).fEvents.getLsbD 31 = true) (hu : (s.setTask t x).Alive u) :
    s.Alive u := by
  obtain ⟨hlive, hbit⟩ := hu
  refine ⟨hlive, ?_⟩
  by_cases hut : u = t
  · subst hut
    rw [setTask_task] at hbit
    exact hx hbit
  · rwa [setTask_task_ne hut] at hbit

/-- A signalling thread goes on with its task, or had none. -/
theorem at_setSig [DecidableEq σ] {g : Option (Signalling τ)} {p : Spots σ}
    (hg : ∀ x, s.sig a = some x → ∃ y, g = some y ∧ y.task = x.task) (hp : s.At u p) :
    ∃ q, (s.setSig a g).At u q := by
  cases p with
  | thread k c => exact ⟨.thread k c, hp⟩
  | signaller b =>
    by_cases hb : b = a
    · subst hb
      obtain ⟨x, hx, rfl⟩ := hp
      obtain ⟨y, hy, hyx⟩ := hg x hx
      exact ⟨.signaller b, y, by simp [Scheduler.setSig, hy], hyx⟩
    · exact ⟨.signaller b, by simpa [At, Scheduler.setSig, Function.update_of_ne hb] using hp⟩

/-! ## The steps -/

/-- The `atomic_or` of `Signal`: it takes over a task that becomes alive. -/
theorem Housed.signal [DecidableEq τ] [DecidableEq σ] (h : s.Housed) (hsig : s.sig a = none) (e : EventFlags) :
    (s.signal a t e).Housed := by
  have hkeep : ∀ u p, s.At u p → ∃ q, (s.signal a t e).At u q := fun u p hp =>
    at_setSig (s := s.setTask t _) (fun x hx => by cases hsig.symm.trans hx) hp
  intro u hu
  by_cases hut : u = t
  · subst hut
    by_cases hold : (s.task u).fEvents &&& Task.kAlive = 0
    · refine ⟨.signaller a, .route u, ?_, rfl⟩
      simp [Scheduler.signal, Scheduler.setSig, atomicOr, hold]
    · obtain ⟨p, hp⟩ := h u ⟨hu.1, by simpa using mt and_kAlive_eq_zero.2 hold⟩
      exact hkeep u p hp
  · have hlive : s.Alive u := by
      refine ⟨hu.1, ?_⟩
      have hbit : ((s.setTask t _).task u).fEvents.getLsbD 31 = true := hu.2
      rwa [setTask_task_ne hut] at hbit
    obtain ⟨p, hp⟩ := h u hlive
    exact hkeep u p hp

/-- `Signal` finds a thread. -/
theorem Housed.route [DecidableEq σ] (h : s.Housed) (hsig : s.sig a = some (.route t)) (hpool : s.sNumTaskThreads > 0) :
    (s.route a t).Housed := by
  have hkeep : ∀ k, (s.setSig a (some (.enqueue t k))).Housed := fun k =>
    h.mono (fun _ hu => hu) fun u p _ hp => at_setSig (fun x hx => by
      rw [hsig] at hx
      cases hx
      exact ⟨_, rfl, rfl⟩) hp
  unfold Scheduler.route
  rw [if_pos hpool]
  split
  · exact hkeep _
  · exact hkeep ((atomicAdd s.sThreadPicker 1).toNat % s.sNumTaskThreads)

/-- `Signal` finds no thread: nobody else has the task. -/
theorem not_housed_route [DecidableEq σ] (h : Placed s) (hsig : s.sig a = some (.route t))
    (hpool : ¬ s.sNumTaskThreads > 0) : ¬ (s.route a t).Housed := by
  intro hh
  rw [Scheduler.route, if_neg hpool] at hh
  obtain ⟨p, hp⟩ := hh t (h.alive t _ (at_signaller hsig))
  exact h.not_at_drop hsig p hp

theorem Housed.enqueue [DecidableEq τ] [DecidableEq σ] (h : s.Housed) (hsig : s.sig a = some (.enqueue t k)) :
    (s.enqueue a t k).Housed := by
  have hin : t ∈ enQueue (s.thread k).fTaskQueue t := by
    unfold enQueue
    split
    next h => exact h
    next => exact List.mem_append_right _ List.mem_cons_self
  have hsub : ∀ u ∈ (s.thread k).fTaskQueue, u ∈ enQueue (s.thread k).fTaskQueue t := by
    intro u hu
    unfold enQueue
    split
    · exact hu
    · exact List.mem_append_left _ hu
  refine h.mono (fun _ hu => hu) fun u p _ hp => ?_
  by_cases hut : u = t
  · subst hut
    refine ⟨.thread k .queue, ?_⟩
    simpa [Scheduler.enqueue, Scheduler.setSig, Scheduler.setThread, At, TaskThread.Has] using hin
  · cases p with
    | signaller b =>
      refine ⟨.signaller b, ?_⟩
      have hb : b ≠ a := by
        rintro rfl
        obtain ⟨x, hx, hxu⟩ := hp
        rw [hsig] at hx
        cases hx
        exact hut hxu.symm
      simpa [At, Scheduler.enqueue, Scheduler.setSig, Scheduler.setThread, Function.update_of_ne hb] using hp
    | thread j c =>
      refine at_setThread_of_has (s := s.setSig a none) (p := .thread j c) (fun d hd => ?_) hp
      cases d with
      | queue => exact ⟨.queue, hsub u hd⟩
      | heap => exact ⟨.heap, hd⟩
      | running => exact ⟨.running, hd⟩

/-- A thread without a task takes one from its queue or from its heap. -/
theorem Housed.take (h : s.Housed) (hfree : (s.thread k).entry.task = none) (he : th.entry.task = some t)
    (hother : ∀ u c, u ≠ t → c ≠ .running → (s.thread k).Has u c → th.Has u c) : (s.setThread k th).Housed := by
  refine h.mono (fun _ hu => hu) fun u p _ hp => at_setThread_of_has (fun c hc => ?_) hp
  by_cases hut : u = t
  · subst hut
    exact ⟨.running, he⟩
  · refine ⟨c, hother u c hut ?_ hc⟩
    rintro rfl
    have hrun : (s.thread k).entry.task = some u := hc
    rw [hfree] at hrun
    cases hrun

/-- A thread goes on with its task or without one, and the alive bit of no task appears. -/
theorem Housed.goto [DecidableEq τ] (h : s.Housed) {x : Task} {e : Entry τ}
    (hx : x.fEvents.getLsbD 31 = true → (s.task t).fEvents.getLsbD 31 = true)
    (he : ∀ u, (s.thread k).entry.task = some u → e.task = some u) : ((s.setTask t x).goto k e).Housed :=
  h.mono (fun _ hu => alive_of_setTask hx hu) fun _ _ _ hp => at_goto (s := s.setTask t x) he hp

/-- `Run` has returned: the task is deleted, no longer alive, in the heap, or run again. -/
theorem Housed.finish [DecidableEq τ] (h : s.Housed) {theTimeout : Int} (hret : (s.thread k).entry = .ret t theTimeout)
    (now : Int) : (s.finish k t theTimeout now).Housed := by
  have hrun : (s.thread k).entry.task = some t := by rw [hret]; rfl
  -- the thread leaves the task `t`, which is not alive then
  have hleave : ∀ u p, u ≠ t → s.At u p → ∃ q, (s.goto k .wait).At u q := by
    intro u p hut hp
    refine at_setThread_of_has (fun c hc => ?_) hp
    cases c with
    | queue => exact ⟨.queue, hc⟩
    | heap => exact ⟨.heap, hc⟩
    | running => exact absurd (Option.some.inj ((hrun.symm.trans hc).symm)) hut
  unfold Scheduler.finish
  split
  · intro u hu
    have hut : u ≠ t := by
      rintro rfl
      have hlife := hu.1
      simp at hlife
    obtain ⟨p, hp⟩ := h u ⟨by simpa [hut] using hu.1, hu.2⟩
    exact hleave u p hut hp
  split
  · by_cases hev : Task.kAlive = (s.task t).fEvents
    · simp only [compareAndStore, if_pos hev, if_true]
      refine h.mono (fun u hu => ?_) fun u p hu hp => ?_
      · exact alive_of_setTask (x := { s.task t with fEvents := 0 }) (fun hx => by simp at hx) hu
      have hut : u ≠ t := by
        rintro rfl
        have hbit : ((s.setTask u { s.task u with fEvents := 0 }).task u).fEvents.getLsbD 31 = true := hu.2
        simp at hbit
      exact hleave u p hut hp
    · simp only [compareAndStore, if_neg hev, Bool.false_eq_true, if_false]
      exact h.goto id fun u hu => hrun.symm.trans hu
  · refine h.mono (fun _ hu => hu) fun u p _ hp => at_setThread_of_has (fun c hc => ?_) hp
    cases c with
    | queue => exact ⟨.queue, hc⟩
    | heap => exact ⟨.heap, List.mem_cons_of_mem _ hc⟩
    | running =>
      rw [Option.some.inj (hc.symm.trans hrun)]
      exact ⟨.heap, List.mem_cons_self⟩

/-- A `Signal` that has found the task not alive waits for its own next step. -/
theorem sig_waits [DecidableEq τ] [DecidableEq σ] {act : Act τ σ} (hs : s.step act = some s')
    (hact : ∀ b, act ≠ .route b) (hsig : s.sig a = some (.route t)) : s'.sig a = some (.route t) := by
  have hother : ∀ {b g}, s.sig b = g → some (.route t) ≠ g → a ≠ b := by
    rintro b g hg hne rfl
    exact hne (hsig.symm.trans hg)
  cases act with
  | route b => exact absurd rfl (hact b)
  | signal b u e =>
    simp only [step] at hs
    split at hs
    next h =>
      cases hs
      exact (Function.update_of_ne (hother h.1 (by rintro ⟨⟩)) _ _).trans hsig
    next => cases hs
  | enqueue b =>
    simp only [step] at hs
    split at hs
    next h =>
      cases hs
      exact (Function.update_of_ne (hother h (by rintro ⟨⟩)) _ _).trans hsig
    next => cases hs
  | dequeue k =>
    simp only [step] at hs
    split at hs
    next => split at hs <;> cases hs <;> exact hsig
    next => cases hs
  | ret k theTimeout =>
    simp only [step] at hs
    split at hs
    next t l h => cases hs; cases l <;> exact hsig
    next => cases hs
  | finish k now =>
    simp only [step] at hs
    split at hs
    next =>
      cases hs
      unfold Scheduler.finish
      split
      · exact hsig
      split <;> exact hsig
    next => cases hs
  | _ =>
    -- these leave `sig` as it is
    simp only [step] at hs
    split at hs
    next => cases hs; exact hsig
    next => cases hs

/-- Every other step from a state in which the tasks are in one place keeps them housed. -/
theorem housed_step [DecidableEq τ] [DecidableEq σ] (h : Placed s) (hh : s.Housed) (hs : Step s s')
    (hwait : ∀ a t, s.sig a = some (.route t) → s'.sig a = some (.route t)) : s'.Housed := by
  cases hs with
  | newTask t hunborn =>
    intro u hu
    have hut : u ≠ t := by
      rintro rfl
      have hbit : ((s.setTask u Task.new).task u).fEvents.getLsbD 31 = true := hu.2
      rw [setTask_task] at hbit
      cases hbit
    have hbit : ((s.setTask t Task.new).task u).fEvents.getLsbD 31 = true := hu.2
    rw [setTask_task_ne hut] at hbit
    exact hh u ⟨by simpa [hut] using hu.1, hbit⟩
  | addThreads n _ => exact hh
  | signal a t e hsig _ => exact hh.signal hsig e
  | route a t hsig =>
    have hstill := hwait a t hsig
    unfold Scheduler.route at hstill
    split at hstill
    · split at hstill <;> simp [Scheduler.setSig] at hstill
    · simp [Scheduler.setSig] at hstill
  | enqueue a t k hsig => exact hh.enqueue hsig
  | timer k d t hw hin _ =>
    refine hh.take (t := t) (by rw [hw]; rfl) rfl fun u c hut hc hp => ?_
    cases c with
    | queue => exact hp
    | running => exact absurd rfl hc
    | heap =>
      obtain ⟨⟨d', u'⟩, hmem, rfl⟩ := List.mem_map.1 hp
      refine List.mem_map.2 ⟨(d', u'), (List.mem_erase_of_ne fun heq => ?_).2 hmem, rfl⟩
      cases heq
      exact hut rfl
  | dequeue k t q hw hq =>
    refine hh.take (t := t) (by rw [hw]; rfl) rfl fun u c hut hc hp => ?_
    cases c with
    | queue =>
      have hmem : u ∈ (s.thread k).fTaskQueue := hp
      rw [hq] at hmem
      exact (List.mem_cons.1 hmem).resolve_left hut
    | running => exact absurd rfl hc
    | heap => exact hp
  | rest k e hw he _ =>
    refine hh.mono (fun _ hu => hu) fun u p _ hp => at_goto (fun v hv => ?_) hp
    rcases hw with hw | hw <;> rw [hw] at hv <;> cases hv
  | own k t f w e hrun he _ => exact hh.goto id fun u hu => he.trans (hrun.symm.trans hu)
  | subEvents k t l ev he =>
    refine hh.goto (fun hbit => ?_) fun u hu => ?_
    · rw [(h.snapshot k t l ev he).subEvents, getLsbD_and_not, Bool.and_eq_true] at hbit
      exact hbit.1
    · rw [he] at hu
      exact hu
  | finish k t theTimeout now he => exact hh.finish he now
  | orIdle k t he =>
    refine hh.goto (fun hbit => ?_) fun u hu => ?_
    · have hidle : Task.kIdleEvent.getLsbD 31 = false := by decide
      rwa [atomicOr, BitVec.getLsbD_or, hidle, Bool.or_false] at hbit
    · rw [he] at hu
      cases hu

/-! ## Runs -/

/-- **No dead task, exactly when**: no task is dead in any state of a run if and only if every `Signal` of the run that
finds its task not alive finds the pool filled. -/
theorem no_dead_task_iff [DecidableEq τ] [DecidableEq σ] {as : List (Act τ σ)} (hr : run step new as = some s) :
    Always step NoDeadTask new as ↔ Along step PoolFilled new as := by
  refine always_iff_along (I := fun s => Placed s ∧ s.Housed) (fun s act s' h hpool hs => ?_)
    (fun s h => housed_iff_noDeadTask.1 h.2) (fun s act s' h hs hdead => ?_) ⟨placed_new, housed_new⟩ hr
  · refine ⟨placed_step h.1 (step_cases hs), ?_⟩
    by_cases hact : ∃ b, act = .route b
    · obtain ⟨b, rfl⟩ := hact
      simp only [step] at hs
      split at hs
      next hsig => cases hs; exact h.2.route hsig hpool
      next => cases hs
    · exact housed_step h.1 h.2 (step_cases hs) fun _ _ => sig_waits hs fun b hb => hact ⟨b, hb⟩
  · cases act with
    | route b =>
      simp only [step] at hs
      split at hs
      next hsig =>
        cases hs
        by_contra hpool
        exact not_housed_route h.1 hsig hpool (housed_iff_noDeadTask.2 hdead)
      next => cases hs
    | _ => exact trivial

/-- A task signalled before the pool is filled: the later `Signal` leaves it alone. -/
theorem no_dead_task_start : ∃ s : Scheduler Unit Unit,
    run step new [.newTask (), .signal () () Task.kStartEvent, .route (), .addThreads 1,
      .signal () () Task.kStartEvent] = some s ∧ ¬ s.NoDeadTask := by
  refine ⟨_, rfl, fun h => ?_⟩
  obtain ⟨k, c, hc⟩ := h () ⟨rfl, rfl⟩ nofun
  cases c <;> cases hc

theorem no_dead_task_iff_filled : ∃ s : Scheduler Unit Unit,
    run step new [.addThreads 1, .newTask (), .signal () () Task.kStartEvent, .route (), .enqueue ()] = some s ∧
      Always step NoDeadTask new
        [.addThreads 1, .newTask (), .signal () () Task.kStartEvent, .route (), .enqueue ()] := by
  refine ⟨_, rfl, (no_dead_task_iff rfl).2 ?_⟩
  decide +kernel

end Scheduler

end ToolLib.Common
