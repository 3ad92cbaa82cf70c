import ToolLib.Base.EventBox
import ToolLib.Common.TaskPlacement

/-!
# No event of a task is lost

`GetEvents` reads the mask and takes what it has read away by a subtraction, while other threads set bits in between.
Seen from one task the scheduler is a box of events: `Signal` and the timers put events in, `GetEvents` takes some out.
`box_step` matches every step of the scheduler with a step of the box, and what holds of the box holds of the task.
-/

namespace ToolLib.Common

open ToolLib.Base

variable {τ σ : Type*}

/-- What the task may be told of: the events signalled, and `kIdleEvent` when a timer has added it. -/
def Record.given (r : Record τ) (t : τ) : EventFlags :=
  r.signalled t ||| (if r.idled t then Task.kIdleEvent else 0)

/-! ## Masks without the alive bit -/

theorem getLsbD_and_kAliveOff (x : EventFlags) (i : Nat) :
    (x &&& Task.kAliveOff).getLsbD i = (x.getLsbD i && decide (i ≠ 31)) := by
  rw [kAliveOff_eq, getLsbD_and_not, kAlive_bit, decide_not]

/-- An `atomic_or` with or without the alive bit. -/
theorem or_and_kAliveOff (x y : EventFlags) :
    (x ||| y) &&& Task.kAliveOff = (x &&& Task.kAliveOff) ||| (y &&& Task.kAliveOff) := by
  apply BitVec.eq_of_getLsbD_eq
  intro i _
  rw [getLsbD_and_kAliveOff, BitVec.getLsbD_or, BitVec.getLsbD_or, getLsbD_and_kAliveOff, getLsbD_and_kAliveOff,
    Bool.and_or_distrib_right]

/-- A take. -/
theorem and_not_and_kAliveOff (x y : EventFlags) :
    (x &&& ~~~y) &&& Task.kAliveOff = (x &&& Task.kAliveOff) &&& ~~~y := by
  rw [BitVec.and_assoc, BitVec.and_comm (~~~y), BitVec.and_assoc]

/-- The mask is cleared only when it holds no event. -/
theorem compareAndStore_and_kAliveOff (x : EventFlags) :
    (compareAndStore Task.kAlive 0 x).1 &&& Task.kAliveOff = x &&& Task.kAliveOff := by
  unfold compareAndStore
  split
  next h => rw [← h]; decide
  next => rfl

namespace Scheduler

/-! ## The box of a task -/

/-- The mask without the alive bit. -/
def box (s : Scheduler τ σ) (t : τ) : EventBox 32 :=
  ⟨(s.task t).currentEvents, s.record.given t &&& Task.kAliveOff, s.record.reports t⟩

variable {s s' : Scheduler τ σ} {t u : τ} {k : Nat} {a : σ}

/-- The same events and the same records. -/
theorem box_eq (htask : (s'.task t).currentEvents = (s.task t).currentEvents)
    (hgiven : s'.record.given t = s.record.given t) (hreports : s'.record.reports t = s.record.reports t) :
    s'.box t = s.box t := by
  rw [box, box, htask, hgiven, hreports]

/-- Events come into the box of a task. -/
theorem box_put {e : EventFlags}
    (htask : (s'.task t).currentEvents = (s.task t).currentEvents ||| (e &&& Task.kAliveOff))
    (hgiven : s'.record.given t = s.record.given t ||| e) (hreports : s'.record.reports t = s.record.reports t) :
    EventBox.step (s.box t) (.put (e &&& Task.kAliveOff)) = some (s'.box t) := by
  rw [EventBox.step, box, box, htask, hgiven, hreports, or_and_kAliveOff]

theorem box_setTask_self [DecidableEq τ] (x : Task) :
    (s.setTask t x).box t = { s.box t with held := x.currentEvents } := by
  rw [box, setTask_task]
  rfl

theorem box_setTask_ne [DecidableEq τ] (hu : u ≠ t) (x : Task) : (s.setTask t x).box u = s.box u :=
  box_eq (congrArg Task.currentEvents (setTask_task_ne hu x)) rfl rfl

/-- A change of a task that leaves its events. -/
theorem box_setTask [DecidableEq τ] {x : Task} (hx : x.currentEvents = (s.task t).currentEvents) :
    (s.setTask t x).box u = s.box u := by
  by_cases hu : u = t
  · subst hu
    rw [box_setTask_self, hx]
    rfl
  · exact box_setTask_ne hu x

/-- What a step does to the box of a task: nothing, or one step of the box, or the task is created. -/
inductive Change (s s' : Scheduler τ σ) (t : τ) : Prop
  | same (hbox : s'.box t = s.box t) (hlife : s'.life t = .unborn → s.life t = .unborn)
  | born (h : s.life t = .unborn) (hlife : s'.life t ≠ .unborn) (hbox : s'.box t = { s.box t with held := 0 })
  | act (a : EventBox.Act 32) (hstep : EventBox.step (s.box t) a = some (s'.box t)) (hlife : s'.life t ≠ .unborn)

theorem change_signal [DecidableEq τ] [DecidableEq σ] {e : EventFlags} (hborn : s.life t ≠ .unborn) :
    Change s (s.signal a t e) u := by
  by_cases hu : u = t
  · subst hu
    have htask : (s.signal a u e).task u = { s.task u with fEvents := (s.task u).fEvents ||| (e ||| Task.kAlive) } :=
      setTask_task _ _
    have hgiven : (s.signal a u e).record.given u = s.record.given u ||| e := by
      simp only [signal, Record.given, Function.update_self]
      rw [BitVec.or_assoc, BitVec.or_comm e, ← BitVec.or_assoc]
      rfl
    refine .act _ (box_put (e := e) ?_ hgiven rfl) hborn
    have hoff : Task.kAlive &&& Task.kAliveOff = 0#32 := by decide
    rw [htask, Task.currentEvents, or_and_kAliveOff, or_and_kAliveOff e, hoff, BitVec.or_zero]
    rfl
  · refine .same (box_eq ?_ ?_ rfl) id
    · exact congrArg Task.currentEvents (setTask_task_ne hu _)
    · simp only [signal, Record.given, Function.update_of_ne hu]
      rfl

theorem change_orIdle [DecidableEq τ] (hborn : s.life t ≠ .unborn) : Change s (s.orIdle k t) u := by
  by_cases hu : u = t
  · subst hu
    have htask : (s.orIdle k u).task u = { s.task u with fEvents := (s.task u).fEvents ||| Task.kIdleEvent } :=
      setTask_task _ _
    have hgiven : (s.orIdle k u).record.given u = s.record.given u ||| Task.kIdleEvent := by
      simp only [orIdle, Record.given, Function.update_self, if_true]
      rw [BitVec.or_assoc]
      cases s.record.idled u <;> rfl
    refine .act _ (box_put (e := Task.kIdleEvent) ?_ hgiven rfl) hborn
    exact (congrArg Task.currentEvents htask).trans (or_and_kAliveOff _ _)
  · refine .same (box_eq ?_ ?_ rfl) id
    · exact congrArg Task.currentEvents (setTask_task_ne hu _)
    · simp only [orIdle, Record.given, Function.update_of_ne hu]

/-- The subtraction of `GetEvents` is a take. -/
theorem change_subEvents [DecidableEq τ] {l : Bool} {ev : EventFlags} (hborn : s.life t ≠ .unborn)
    (hsnap : (s.task t).Snapshot ev) : Change s (s.subEvents k t l ev) u := by
  by_cases hu : u = t
  · subst hu
    have htask : (s.subEvents k u l ev).task u = (s.task u).subEvents ev := setTask_task _ _
    have hin : Submask ev (s.task u).currentEvents := by
      intro i hi
      rw [Task.currentEvents, getLsbD_and_kAliveOff, hsnap.1 i hi, Bool.true_and, decide_eq_true_eq]
      rintro rfl
      rw [hsnap.2] at hi
      cases hi
    have hreports : (s.subEvents k u l ev).record.reports u = s.record.reports u ++ [ev] := Function.update_self _ _ _
    have hheld : ((s.task u).subEvents ev).currentEvents = (s.task u).currentEvents - ev := by
      rw [hin.sub_eq, Task.currentEvents, hsnap.subEvents, and_not_and_kAliveOff]
      rfl
    refine .act (.take ev) ?_ hborn
    rw [EventBox.step, if_pos (show Submask ev (s.box u).held from hin), box, box, htask, hreports, hheld]
    rfl
  · refine .same (box_eq ?_ rfl ?_) id
    · exact congrArg Task.currentEvents (setTask_task_ne hu _)
    · exact Function.update_of_ne hu _ _

/-- What the thread does after `Run` leaves the events. -/
theorem change_finish [DecidableEq τ] {theTimeout now : Int} (hborn : s.life t ≠ .unborn) :
    Change s (s.finish k t theTimeout now) u := by
  unfold finish
  split
  · refine .same rfl fun h => ?_
    by_cases hu : u = t
    · subst hu
      simp only [Function.update_self] at h
      cases h
    · simpa only [Function.update_of_ne hu] using h
  split
  · exact .same (box_setTask (u := u) (compareAndStore_and_kAliveOff _)) id
  · exact .same rfl id

/-- What a step does to the box of a task. -/
theorem change_step [DecidableEq τ] [DecidableEq σ] (h : Placed s) (hs : Step s s') (u : τ) : Change s s' u := by
  have hat : ∀ t p, s.At t p → s.life t ≠ .unborn := by
    intro t p hp
    rw [(h.alive t p hp).1]
    exact nofun
  cases hs with
  | newTask t hunborn =>
    by_cases hu : u = t
    · subst hu
      refine .born hunborn ?_ ?_
      · simp
      · exact box_setTask_self Task.new
    · refine .same (box_setTask_ne hu Task.new) fun hb => ?_
      simpa only [Function.update_of_ne hu] using hb
  | addThreads n _ => exact .same rfl id
  | signal a t e _ hlive => exact change_signal (by rw [hlive]; exact nofun)
  | route a t hsig =>
    refine .same ?_ ?_
    · unfold route
      split
      · split <;> rfl
      · rfl
    · unfold route
      split
      · split <;> exact id
      · exact id
  | enqueue a t k hsig => exact .same rfl id
  | timer k d t _ hin _ => exact .same rfl id
  | dequeue k t q _ hq => exact .same rfl id
  | rest k e _ he hidle => exact .same rfl id
  | own k t f w e hrun he hev => exact .same (box_setTask (u := u) rfl) id
  | subEvents k t l ev he =>
    have hrun : (s.thread k).entry.task = some t := by rw [he]; rfl
    exact change_subEvents (hat t (.thread k .running) hrun) (h.snapshot k t l ev he)
  | finish k t theTimeout now he =>
    have hrun : (s.thread k).entry.task = some t := by rw [he]; rfl
    exact change_finish (hat t (.thread k .running) hrun)
  | orIdle k t he => exact change_orIdle (hat t (.thread k .heap) ((h.tidy k).idle t he))

/-! ## Runs -/

/-- The placement, and that nothing has happened to a task which has not been created. -/
structure Tracked (s : Scheduler τ σ) : Prop where
  placed : Placed s
  fresh : ∀ t, s.life t = .unborn → s.box t = EventBox.empty

theorem tracked_new : Tracked (new : Scheduler τ σ) where
  placed := placed_new
  fresh _ _ := by simp [box, new, EventBox.empty, Task.currentEvents, Task.new, Record.given]

theorem tracked_step [DecidableEq τ] [DecidableEq σ] (h : Tracked s) (hs : Step s s') : Tracked s' := by
  refine ⟨placed_step h.placed hs, fun t hb => ?_⟩
  rcases change_step h.placed hs t with ⟨hbox, hlife⟩ | ⟨-, hlife, -⟩ | ⟨a, -, hlife⟩
  · rw [hbox, h.fresh t (hlife hb)]
  · exact absurd hb hlife
  · exact absurd hb hlife

/-- **Refinement**: for each task, a step of the scheduler is a run of its box. -/
theorem box_step [DecidableEq τ] [DecidableEq σ] (h : Tracked s) (hs : Step s s') (t : τ) :
    ∃ as, run EventBox.step (s.box t) as = some (s'.box t) := by
  rcases change_step h.placed hs t with ⟨hbox, -⟩ | ⟨hb, -, hbox⟩ | ⟨a, hact, -⟩
  · exact ⟨[], by rw [hbox]; rfl⟩
  · refine ⟨[], ?_⟩
    rw [hbox, h.fresh t hb]
    rfl
  · exact ⟨[a], by rw [run_one, hact]⟩

theorem tracked_run [DecidableEq τ] [DecidableEq σ] {as : List (Act τ σ)} (h : Tracked s)
    (hr : run step s as = some s') : Tracked s' :=
  run_inv (fun _ _ _ h hs => tracked_step h (step_cases hs)) h hr

theorem box_run [DecidableEq τ] [DecidableEq σ] {as : List (Act τ σ)} (h : Tracked s)
    (hr : run step s as = some s') (t : τ) : ∃ bs, run EventBox.step (s.box t) bs = some (s'.box t) :=
  run_sim (I := Tracked) (C := fun _ _ => True)
    (fun _ _ _ h _ hs => tracked_step h (step_cases hs)) (fun _ _ _ h _ hs => box_step h (step_cases hs) t)
    h (along_of_forall fun _ _ => trivial) hr

/-! ## What is kept for a task -/

/-- The events `e` of the task `t` in the first state: in the second one they are still set, or `GetEvents` has
reported them in between. The alive bit is none of them. -/
def Unlost (s s' : Scheduler τ σ) (t : τ) (e : EventFlags) : Prop :=
  ∀ i, i ≠ 31 → e.getLsbD i = true → (s'.task t).fEvents.getLsbD i = true ∨
    ∃ r ∈ (s'.record.reports t).drop (s.record.reports t).length, r.getLsbD i = true

/-- `GetEvents` has reported to the task only what was signalled, and `kIdleEvent` when a timer has added it. -/
def OnlyGiven (s : Scheduler τ σ) (t : τ) : Prop :=
  ∀ r ∈ s.record.reports t, ∀ i, r.getLsbD i = true →
    i ≠ 31 ∧ ((s.record.signalled t).getLsbD i = true ∨ s.record.idled t = true ∧ Task.kIdleEvent.getLsbD i = true)

/-- The subtraction in front of which `GetEvents` is clears the bits it has read, no others, and not the alive bit. -/
def NoBorrow (s : Scheduler τ σ) (t : τ) : Prop :=
  ∀ k l ev, (s.thread k).entry = .run t l (some ev) →
    ((s.task t).subEvents ev).fEvents = (s.task t).fEvents &&& ~~~ev ∧
      ((s.task t).subEvents ev).fEvents.getLsbD 31 = (s.task t).fEvents.getLsbD 31

theorem Tracked.unlost [DecidableEq τ] [DecidableEq σ] {as : List (Act τ σ)} {e : EventFlags} (h : Tracked s)
    (hr : run step s as = some s')
    (he : ∀ i, i ≠ 31 → e.getLsbD i = true → (s.task t).fEvents.getLsbD i = true) : Unlost s s' t e := by
  intro i hi hbit
  obtain ⟨bs, hbs⟩ := box_run h hr t
  have hin : (s.box t).held.getLsbD i = true := by
    show ((s.task t).fEvents &&& Task.kAliveOff).getLsbD i = true
    rw [getLsbD_and_kAliveOff, he i hi hbit, decide_eq_true hi]
    rfl
  refine (EventBox.took_of_held hbs hin).imp_left fun hheld => ?_
  exact submask_and_left (s'.task t).fEvents Task.kAliveOff i hheld

theorem onlyGiven_run [DecidableEq τ] [DecidableEq σ] {as : List (Act τ σ)} (hr : run step new as = some s) (t : τ) :
    OnlyGiven s t := by
  intro r hmem i hbit
  obtain ⟨bs, hbs⟩ := box_run tracked_new hr t
  rw [tracked_new.fresh t rfl] at hbs
  have hput : (s.record.given t &&& Task.kAliveOff).getLsbD i = true := EventBox.taken_put hbs r hmem i hbit
  rw [getLsbD_and_kAliveOff, Bool.and_eq_true, decide_eq_true_eq] at hput
  refine ⟨hput.2, ?_⟩
  have hgiven := hput.1
  rw [Record.given, BitVec.getLsbD_or, Bool.or_eq_true] at hgiven
  refine hgiven.imp_right fun hidle => ?_
  cases hi : s.record.idled t with
  | true => exact ⟨rfl, by simpa [hi] using hidle⟩
  | false => simp [hi] at hidle

theorem Placed.noBorrow (h : Placed s) (t : τ) : NoBorrow s t := by
  intro k l ev he
  have hsnap := h.snapshot k t l ev he
  refine ⟨hsnap.subEvents, ?_⟩
  rw [hsnap.subEvents, getLsbD_and_not, hsnap.2, Bool.not_false, Bool.and_true]

/-- **No event is lost**: after any run a signalled event stays in the mask until `GetEvents` reports it, whatever
happens then; nothing else is reported; and the subtraction never touches another bit. -/
theorem no_event_lost [DecidableEq τ] [DecidableEq σ] {as : List (Act τ σ)} (h : run step new as = some s) (t : τ) :
    (∀ a e s₁ bs s₂, s.step (.signal a t e) = some s₁ → run step s₁ bs = some s₂ → Unlost s₁ s₂ t e) ∧
      OnlyGiven s t ∧ NoBorrow s t := by
  have hs := tracked_run tracked_new h
  refine ⟨fun a e s₁ bs s₂ h₁ h₂ => ?_, onlyGiven_run h t, hs.placed.noBorrow t⟩
  have hs₁ := tracked_step hs (step_cases h₁)
  refine hs₁.unlost h₂ fun i _ hbit => ?_
  simp only [step] at h₁
  split at h₁
  · cases h₁
    show ((s.setTask t _).task t).fEvents.getLsbD i = true
    rw [setTask_task]
    exact submask_or_right _ _ i (submask_or_left _ _ i hbit)
  · cases h₁

/-- A second event comes in between the two halves of `GetEvents`: the first one is reported, the second one stays. -/
theorem no_event_lost_two_signals : ∃ s s₁ s₂ : Scheduler Unit Bool,
    run step new [.addThreads 1, .newTask ()] = some s ∧ s.step (.signal false () 0x10#32) = some s₁ ∧
      run step s₁ [.route false, .enqueue false, .noTimer 0 0, .dequeue 0, .begin 0, .readEvents 0,
        .signal true () 0x20#32, .subEvents 0] = some s₂ ∧
      Unlost s₁ s₂ () 0x10#32 ∧ s₂.record.reports () = [0x10#32] ∧ (s₂.task ()).fEvents = 0x80000020#32 := by
  have hrun : (run step (new : Scheduler Unit Bool) ([.addThreads 1, .newTask ()] ++ .signal false () 0x10#32 ::
      [.route false, .enqueue false, .noTimer 0 0, .dequeue 0, .begin 0, .readEvents 0, .signal true () 0x20#32,
        .subEvents 0])).map (fun s => (s.record.reports (), (s.task ()).fEvents)) =
      some ([0x10#32], 0x80000020#32) := by decide +kernel
  obtain ⟨s₂, hs₂, hend⟩ := Option.map_eq_some_iff.1 hrun
  obtain ⟨s, hs, hrest⟩ := run_append_eq_some.1 hs₂
  obtain ⟨s₁, h₁, h₂⟩ := run_cons_eq_some.1 hrest
  obtain ⟨hreports, hmask⟩ := Prod.mk.inj hend
  exact ⟨s, s₁, s₂, hs, h₁, h₂, (no_event_lost hs ()).1 _ _ _ _ _ h₁ h₂, hreports, hmask⟩

end Scheduler

end ToolLib.Common
