import ToolLib.Base.Logged
import ToolLib.Common.TaskLock
import ToolLib.Common.TaskPlacement

/-!
# `CallLocked`

`Task::CallLocked` asks for the next call of `Run` to be made on the same thread with the lock held for writing: it sets
`fUseThisThread` and `fWriteLock`. The thread is right in every run, as the task stays in the hands of that thread or, when
it is let go, `Signal` finds `fUseThisThread`. The lock is not: `TaskThread::Entry` clears `fWriteLock` after a call of `Run`
under the lock for writing, together with a request that this call has made.

`called_locked_iff`: all requests of a run are met exactly when those that are pending when a `Run` starts were made under
the lock for reading.
-/

namespace ToolLib.Common

open ToolLib.Base

variable {n : Nat} {τ σ : Type*}

/-- What an observer notes. -/
inductive RunNote (τ : Type*)
  /-- `Run` calls `CallLocked` on this thread. -/
  | called (t : τ) (k : Nat)
  /-- `Run` calls `GlobalUnlock`. -/
  | unlocked (t : τ)
  /-- `Run` is called on this thread, which has the lock so. -/
  | started (t : τ) (k : Nat) (p : Spot)
  deriving DecidableEq

namespace RunNote

variable [DecidableEq τ] {t u : τ} {k : Nat} {p : Spot} {log : List (RunNote τ)}

/-- The thread on which the last `Run` of the task has called `CallLocked`, without `GlobalUnlock` afterwards. -/
def request (t : τ) : List (RunNote τ) → Option Nat
  | [] => none
  | .called u k :: l => if u = t then some k else request t l
  | .unlocked u :: l | .started u _ _ :: l => if u = t then none else request t l

/-- How the last `Run` of the task had the lock. -/
def mode (t : τ) : List (RunNote τ) → Option Spot
  | [] => none
  | .started u _ p :: l => if u = t then some p else mode t l
  | .called _ _ :: l | .unlocked _ :: l => mode t l

/-- The task whose `Run` is called. -/
def starts : RunNote τ → Option τ
  | .started t _ _ => some t
  | .called _ _ | .unlocked _ => none

/-- A call of `Run` is as the one before has asked for. -/
def Granted (past : List (RunNote τ)) : RunNote τ → Prop
  | .started t k p => ∀ j, request t past = some j → k = j ∧ p = .writing
  | .called _ _ | .unlocked _ => True

@[simp] theorem request_called : request t (.called t k :: log) = some k := if_pos rfl
@[simp] theorem request_unlocked : request t (.unlocked t :: log) = none := if_pos rfl
@[simp] theorem request_started : request t (.started t k p :: log) = none := if_pos rfl
@[simp] theorem mode_started : mode t (.started t k p :: log) = some p := if_pos rfl

/-- The task that the note is about. -/
def task : RunNote τ → τ
  | .called t _ | .unlocked t | .started t _ _ => t

theorem request_other {e : RunNote τ} (h : u ≠ e.task) : request u (e :: log) = request u log := by
  cases e <;> exact if_neg fun heq => h heq.symm

theorem mode_other {e : RunNote τ} (h : u ≠ e.task) : mode u (e :: log) = mode u log := by
  cases e with
  | started t k p => exact if_neg fun heq => h heq.symm
  | called t k | unlocked t => rfl

end RunNote

/-! ## Where a task goes -/

namespace Scheduler

variable [DecidableEq τ] [DecidableEq σ] {s s' : Scheduler τ σ} {a : Act τ σ} {t : τ} {k : Nat} {b : σ}

omit [DecidableEq τ] [DecidableEq σ] in
/-- What a thread has, after one of them has changed. -/
theorem has_of_setThread {j : Nat} {th : TaskThread τ} {c : Part} (h : ((s.setThread j th).thread k).Has t c) :
    k = j ∧ th.Has t c ∨ k ≠ j ∧ (s.thread k).Has t c := at_setThread (s := s) h

omit [DecidableEq τ] [DecidableEq σ] in
/-- A thread changes: what it has now it had before. -/
theorem has_setThread {j : Nat} {th : TaskThread τ} {c : Part} (hth : ∀ d, th.Has t d → ∃ d', (s.thread j).Has t d')
    (h : ((s.setThread j th).thread k).Has t c) : ∃ c', (s.thread k).Has t c' := by
  rcases has_of_setThread h with ⟨rfl, hc⟩ | ⟨-, hc⟩
  · exact hth c hc
  · exact ⟨c, hc⟩

omit [DecidableEq τ] [DecidableEq σ] in
/-- A thread goes on with a task that it has, or without one. -/
theorem has_goto {j : Nat} {e : Entry τ} {c : Part} (he : e.task = some t → ∃ d', (s.thread j).Has t d')
    (h : ((s.goto j e).thread k).Has t c) : ∃ c', (s.thread k).Has t c' := by
  refine has_setThread (fun d hd => ?_) h
  cases d with
  | queue => exact ⟨.queue, hd⟩
  | heap => exact ⟨.heap, hd⟩
  | running => exact he hd

omit [DecidableEq τ] [DecidableEq σ] in
/-- The thread executes the task. -/
theorem has_running {j : Nat} {u : τ} (h : (s.thread j).entry.task = some u) {e : Entry τ} (he : e.task = some u)
    (ht : e.task = some t) : ∃ d, (s.thread j).Has t d := by
  rw [he] at ht
  cases ht
  exact ⟨.running, h⟩

omit [DecidableEq σ] in
theorem has_finish {j : Nat} {u : τ} {r now : Int} {c : Part} (hj : (s.thread j).entry = .ret u r)
    (h : ((s.finish j u r now).thread k).Has t c) : ∃ c', (s.thread k).Has t c' := by
  have hrun : (s.thread j).entry.task = some u := by rw [hj]; rfl
  unfold finish at h
  split at h
  next => exact has_goto (s := s) (e := .wait) (fun he => by cases he) h
  next =>
    split at h
    next =>
      refine has_goto (s := s.setTask u _) (fun he => ?_) h
      split at he
      · cases he
      · cases he
        exact ⟨.running, hrun⟩
    next =>
      refine has_setThread (fun d hd => ?_) h
      cases d with
      | queue => exact ⟨.queue, hd⟩
      | heap =>
        rcases List.mem_cons.1 hd with rfl | hd
        · exact ⟨.running, hrun⟩
        · exact ⟨.heap, hd⟩
      | running => cases hd

omit [DecidableEq σ] in
theorem mem_enQueue {q : List τ} {u : τ} (h : t ∈ enQueue q u) : t ∈ q ∨ t = u := by
  unfold enQueue at h
  split at h
  next => exact Or.inl h
  next =>
    rcases List.mem_append.1 h with h | h
    · exact Or.inl h
    · exact Or.inr (List.mem_singleton.1 h)

theorem has_enqueue {u : τ} {j : Nat} {c : Part} (h : ((s.enqueue b u j).thread k).Has t c) :
    (∃ c', (s.thread k).Has t c') ∨ t = u ∧ k = j := by
  have hset : ((s.setThread j { s.thread j with fTaskQueue := enQueue (s.thread j).fTaskQueue u }).thread k).Has t c := h
  rcases has_of_setThread hset with ⟨rfl, hc⟩ | ⟨-, hc⟩
  · cases c with
    | queue =>
      rcases mem_enQueue hc with hq | rfl
      · exact Or.inl ⟨.queue, hq⟩
      · exact Or.inr ⟨rfl, rfl⟩
    | heap => exact Or.inl ⟨.heap, hc⟩
    | running => exact Or.inl ⟨.running, hc⟩
  · exact Or.inl ⟨c, hc⟩

/-- A task comes to a thread from a signalling thread only. -/
theorem has_step {c : Part} (hs : Step s s') (h : (s'.thread k).Has t c) :
    (∃ c', (s.thread k).Has t c') ∨ ∃ b, s.sig b = some (.enqueue t k) := by
  cases hs with
  | newTask u hu => exact Or.inl ⟨c, h⟩
  | addThreads m hm => exact Or.inl ⟨c, h⟩
  | signal b u e hb hlive => exact Or.inl ⟨c, h⟩
  | route b u hb =>
    refine Or.inl ⟨c, ?_⟩
    unfold route at h
    split at h
    · split at h <;> exact h
    · exact h
  | enqueue b u j hb =>
    rcases has_enqueue h with hin | ⟨rfl, rfl⟩
    · exact Or.inl hin
    · exact Or.inr ⟨b, hb⟩
  | timer j d u hw hin hmin =>
    refine Or.inl (has_setThread (fun e he => ?_) h)
    cases e with
    | queue => exact ⟨.queue, he⟩
    | heap => exact ⟨.heap, (List.erase_sublist.map _).subset he⟩
    | running =>
      cases he
      exact ⟨.heap, List.mem_map.2 ⟨(d, t), hin, rfl⟩⟩
  | dequeue j u q hw hq =>
    refine Or.inl (has_setThread (fun e he => ?_) h)
    have hsub : ∀ v, v ∈ u :: q → (s.thread j).Has v .queue := by
      intro v hv
      rw [← hq] at hv
      exact hv
    cases e with
    | queue => exact ⟨.queue, hsub t (List.mem_cons_of_mem _ he)⟩
    | heap => exact ⟨.heap, he⟩
    | running =>
      cases he
      exact ⟨.queue, hsub t List.mem_cons_self⟩
  | rest j e hw he hidle => exact Or.inl (has_goto (fun ht => by rw [he] at ht; cases ht) h)
  | own j u f w e hrun he hev =>
    exact Or.inl (has_goto (s := s.setTask u _) (fun ht => has_running (s := s) hrun he ht) h)
  | subEvents j u l ev hj =>
    have hrun : (s.thread j).entry.task = some u := by rw [hj]; rfl
    exact Or.inl (has_goto (s := s.setTask u _) (fun ht => has_running (s := s) hrun rfl ht) h)
  | finish j u r now hj => exact Or.inl (has_finish hj h)
  | orIdle j u hj => exact Or.inl (has_goto (s := s.setTask u _) (fun ht => by cases ht) h)

omit [DecidableEq τ] in
/-- Where a signalling thread is, after one of them has gone on. -/
theorem sig_of_setSig {c : σ} {g g' : Option (Signalling τ)} (h : (s.setSig c g).sig b = g') :
    b = c ∧ g = g' ∨ s.sig b = g' := by
  by_cases hb : b = c
  · subst hb
    exact Or.inl ⟨rfl, by simpa [setSig] using h⟩
  · exact Or.inr (by simpa [setSig, hb] using h)

/-- A signalling thread takes a task to `fUseThisThread`, if it is set. -/
theorem sig_step (hs : Step s s') (h : s'.sig b = some (.enqueue t k)) : s.sig b = some (.enqueue t k) ∨
    s.sig b = some (.route t) ∧ ∀ j, (s.task t).fUseThisThread = some j → k = j := by
  cases hs with
  | signal c u e hc hlive =>
    rcases sig_of_setSig h with ⟨rfl, hg⟩ | hg
    · split at hg <;> cases hg
    · exact Or.inl hg
  | route c u hc =>
    unfold route at h
    split at h
    next =>
      split at h
      next j hj =>
        rcases sig_of_setSig h with ⟨rfl, hg⟩ | hg
        · cases hg
          refine Or.inr ⟨hc, fun j' hj' => ?_⟩
          rw [hj] at hj'
          exact Option.some.inj hj'
        · exact Or.inl hg
      next hj =>
        rcases sig_of_setSig h with ⟨rfl, hg⟩ | hg
        · cases hg
          refine Or.inr ⟨hc, fun j' hj' => ?_⟩
          rw [hj] at hj'
          cases hj'
        · exact Or.inl hg
    next =>
      rcases sig_of_setSig h with ⟨-, hg⟩ | hg
      · cases hg
      · exact Or.inl hg
  | enqueue c u j hc =>
    rcases sig_of_setSig h with ⟨-, hg⟩ | hg
    · cases hg
    · exact Or.inl hg
  | finish j u r now hj =>
    unfold finish at h
    split at h
    · exact Or.inl h
    · split at h <;> exact Or.inl h
  | newTask | addThreads | timer | dequeue | rest | own | subEvents | orIdle => exact Or.inl h

/-- A step of the scheduler, or none. -/
def Follows (s s' : Scheduler τ σ) : Prop := s' = s ∨ Step s s'

theorem Follows.has {c : Part} (hs : Follows s s') (h : (s'.thread k).Has t c) :
    (∃ c', (s.thread k).Has t c') ∨ ∃ b, s.sig b = some (.enqueue t k) := by
  rcases hs with rfl | hs
  · exact Or.inl ⟨c, h⟩
  · exact has_step hs h

theorem Follows.sig (hs : Follows s s') (h : s'.sig b = some (.enqueue t k)) : s.sig b = some (.enqueue t k) ∨
    s.sig b = some (.route t) ∧ ∀ j, (s.task t).fUseThisThread = some j → k = j := by
  rcases hs with rfl | hs
  · exact Or.inl h
  · exact sig_step hs h

theorem Follows.placed (hs : Follows s s') (h : s.Placed) : s'.Placed := by
  rcases hs with rfl | hs
  · exact h
  · exact placed_step h hs

theorem life_step (hs : Step s s') (h : s'.life t = .unborn) : s.life t = .unborn := by
  cases hs with
  | newTask u hu =>
    by_cases ht : t = u
    · rw [ht, hu]
    · simpa [setTask, ht] using h
  | route c u hc =>
    unfold route at h
    split at h
    · split at h <;> exact h
    · exact h
  | finish j u r now hj =>
    unfold finish at h
    split at h
    next =>
      by_cases ht : t = u
      · simp [ht] at h
      · simpa [goto, setThread, ht] using h
    next => split at h <;> exact h
  | addThreads | signal | enqueue | timer | dequeue | rest | own | subEvents | orIdle => exact h

end Scheduler

theorem Scheduler.Follows.life [DecidableEq τ] [DecidableEq σ] {s s' : Scheduler τ σ} {t : τ} (hs : s.Follows s')
    (h : s'.life t = .unborn) : s.life t = .unborn := by
  rcases hs with rfl | hs
  · exact h
  · exact Scheduler.life_step hs h

/-- A step that leaves `fUseThisThread`, `fWriteLock` and the lock as they are. -/
def Act.Plain : Act τ σ → Prop
  | .newTask _ | .begin _ | .forceSameThread _ | .callLocked _ | .globalUnlock _ | .ret _ _ => False
  | .addThreads _ | .signal _ _ _ | .route _ | .enqueue _ | .timer _ _ _ _ | .noTimer _ _ | .dequeue _ | .stop _
  | .readEvents _ | .subEvents _ | .finish _ _ | .orIdle _ => True

namespace Scheduler

variable [DecidableEq τ] [DecidableEq σ] {s s' : Scheduler τ σ} {a : Act τ σ} {t u : τ} {k : Nat}

omit [DecidableEq σ] in
/-- The events of a task change. -/
theorem setTask_fields {e : EventFlags} :
    ((s.setTask u { s.task u with fEvents := e }).task t).fUseThisThread = (s.task t).fUseThisThread ∧
      ((s.setTask u { s.task u with fEvents := e }).task t).fWriteLock = (s.task t).fWriteLock := by
  by_cases ht : t = u
  · subst ht
    rw [setTask_task]
    exact ⟨rfl, rfl⟩
  · rw [setTask_task_ne ht]
    exact ⟨rfl, rfl⟩

theorem fields_plain (ha : a.Plain) (hs : s.step a = some s') (t : τ) :
    (s'.task t).fUseThisThread = (s.task t).fUseThisThread ∧ (s'.task t).fWriteLock = (s.task t).fWriteLock := by
  cases a with
  | newTask | begin | forceSameThread | callLocked | globalUnlock | ret => exact ha.elim
  | addThreads m =>
    simp only [step] at hs
    split at hs <;> cases hs
    exact ⟨rfl, rfl⟩
  | signal b u e =>
    simp only [step] at hs
    split at hs <;> cases hs
    exact setTask_fields
  | route b =>
    simp only [step] at hs
    split at hs <;> cases hs
    unfold route
    split
    · split <;> exact ⟨rfl, rfl⟩
    · exact ⟨rfl, rfl⟩
  | enqueue b | timer j now d u | noTimer j now | stop j | readEvents j =>
    simp only [step] at hs
    split at hs <;> cases hs
    exact ⟨rfl, rfl⟩
  | dequeue j =>
    simp only [step] at hs
    split at hs
    next => split at hs <;> cases hs <;> exact ⟨rfl, rfl⟩
    next => cases hs
  | subEvents j =>
    simp only [step] at hs
    split at hs <;> cases hs
    exact setTask_fields
  | finish j now =>
    simp only [step] at hs
    split at hs <;> cases hs
    next u r h =>
      unfold finish
      split
      · exact ⟨rfl, rfl⟩
      · split
        · exact setTask_fields (s := s)
        · exact ⟨rfl, rfl⟩
  | orIdle j =>
    simp only [step] at hs
    split at hs <;> cases hs
    exact setTask_fields (s := s)

/-- `Run` returns. -/
theorem ret_fields {l : Bool} {ev : Option EventFlags} {r : Int} (he : (s.thread k).entry = .run t l ev)
    (hs : s.step (.ret k r) = some s') : (s'.thread k).entry.task = some t ∧ (∀ u, u ≠ t → s'.task u = s.task u) ∧
      (s'.task t).fUseThisThread = (s.task t).fUseThisThread ∧
      (s'.task t).fWriteLock = if l then false else (s.task t).fWriteLock := by
  simp only [step] at hs
  rw [he] at hs
  split at hs <;> cases hs
  next t l he' =>
    cases he'
    refine ⟨by simp [goto, setThread, Entry.task], fun u hu => ?_, ?_⟩
    · cases l with
      | false => rfl
      | true => exact setTask_task_ne hu _
    · cases l with
      | false => exact ⟨rfl, rfl⟩
      | true => simp [goto, setThread, setTask]

theorem running_plain (ha : a.Plain) (hs : s.step a = some s') (k : Nat) : s'.running k = s.running k := by
  rw [running_step hs k]
  cases a with
  | newTask | begin | forceSameThread | callLocked | globalUnlock | ret => exact ha.elim
  | addThreads | signal | route | enqueue | timer | noTimer | dequeue | stop | readEvents | subEvents | finish
  | orIdle => rfl

end Scheduler

namespace TaskPool

open RunNote

variable [DecidableEq τ] [DecidableEq σ] {s s' : TaskPool n τ σ} {act : PoolAct n τ σ} {log : List (RunNote τ)} {t u : τ}
  {i : Fin n} {j k : Nat}

omit [DecidableEq τ] [DecidableEq σ] in
theorem lock_plain {a : Act τ σ} {pick : Option (Fin n)} (ha : a.Plain) (hl : s.lockStep pick a = some s'.sMutexRW) :
    s'.sMutexRW = s.sMutexRW := by
  cases a with
  | newTask | begin | forceSameThread | callLocked | globalUnlock | ret => exact ha.elim
  | readEvents j | subEvents j =>
    obtain ⟨i, -, -, hsame⟩ := lockStep_inRun hl
    exact hsame
  | addThreads m =>
    simp only [lockStep] at hl
    split at hl
    next => exact (Option.some.inj hl).symm
    next => cases hl
  | signal | route | enqueue | timer | noTimer | dequeue | stop | finish | orIdle => exact (Option.some.inj hl).symm

/-- The thread calls `Run`, if it does not wait for the lock. -/
def started (s : TaskPool n τ σ) (k : Nat) : Option (RunNote τ) :=
  (thread? n k).bind fun i =>
    if s.blocked i then none else (s.sched.running k).map fun r => .started r.1 k (s.sMutexRW.spot i)

def observeRun (s : TaskPool n τ σ) (act : PoolAct n τ σ) (s' : TaskPool n τ σ) : Option (RunNote τ) :=
  match act with
  | .sched (.callLocked k) _ => (s.sched.running k).map fun r => .called r.1 k
  | .sched (.globalUnlock k) _ => (s.sched.running k).map fun r => .unlocked r.1
  | .sched (.begin k) _ => s'.started k
  | .resume i => s'.started i
  | .sched _ _ => none

/-- The system that takes notes. -/
abbrev notedRun : Logged (TaskPool n τ σ) (RunNote τ) → PoolAct n τ σ → Option (Logged (TaskPool n τ σ) (RunNote τ)) :=
  Logged.step step observeRun

/-- When the step starts a `Run` with a request, the `Run` before it had the lock for reading. -/
def AskedReading (x : Logged (TaskPool n τ σ) (RunNote τ)) (act : PoolAct n τ σ) : Prop :=
  ∀ s' ∈ x.state.step act, ∀ e ∈ observeRun x.state act s', ∀ t ∈ e.starts, request t x.log ≠ none →
    mode t x.log = some .reading

instance (x : Logged (TaskPool n τ σ) (RunNote τ)) (act : PoolAct n τ σ) : Decidable (AskedReading x act) :=
  inferInstanceAs (Decidable (∀ _ ∈ _, ∀ _ ∈ _, ∀ _ ∈ _, _ → _))

/-! ## The invariant -/

/-- The lock of a thread and what is noted of its `Run` fit to `fWriteLock` as it was read. -/
def LockedFor (s : TaskPool n τ σ) (log : List (RunNote τ)) : Prop :=
  ∀ (i : Fin n) t locked, s.sched.running i = some (t, locked) →
    (s.blocked i = true → (s.sMutexRW.spot i).forWriting = locked) ∧
      (s.blocked i = false → mode t log = some (if locked then .writing else .reading))

/-- Where a task is that has called `CallLocked` on the thread `j`, and what its fields are. -/
structure Asked (s : TaskPool n τ σ) (log : List (RunNote τ)) (t : τ) (j : Nat) : Prop where
  places : ∀ k c, (s.sched.thread k).Has t c → k = j
  routed : ∀ b k, s.sched.sig b = some (.enqueue t k) → k = j
  thread : (∀ (i : Fin n) l, s.sched.running i = some (t, l) → s.blocked i = false) →
    (s.sched.task t).fUseThisThread = some j
  inRun : ∀ (i : Fin n) l, s.sched.running i = some (t, l) → s.blocked i = false → (s.sched.task t).fWriteLock = true
  waiting : ∀ (i : Fin n) l, s.sched.running i = some (t, l) → s.blocked i = true → (l = true ↔ mode t log = some .reading)
  idle : (∀ (i : Fin n) l, s.sched.running i ≠ some (t, l)) →
    ((s.sched.task t).fWriteLock = true ↔ mode t log = some .reading)

/-- What every run keeps. -/
structure Due (s : TaskPool n τ σ) (log : List (RunNote τ)) : Prop where
  placed : s.sched.Placed
  seats : ∀ i : Fin n, s.sched.running i = none → s.sMutexRW.spot i = .out
  lockedFor : s.LockedFor log
  born : ∀ t, request t log ≠ none → s.sched.life t ≠ .unborn
  asked : ∀ t j, request t log = some j → s.Asked log t j

omit [DecidableEq τ] [DecidableEq σ] in
theorem running_task {l : Bool} (h : s.sched.running k = some (t, l)) : (s.sched.thread k).entry.task = some t := by
  unfold Scheduler.running at h
  cases he : (s.sched.thread k).entry <;> rw [he] at h <;> cases h
  rfl

omit [DecidableEq τ] [DecidableEq σ] in
/-- A task in `Run` is nowhere else. -/
theorem only_place {l : Bool} (hp : s.sched.Placed) (h : s.sched.running k = some (t, l)) {p : Spots σ}
    (hat : s.sched.At t p) : p = .thread k .running :=
  hp.only (c := .running) (running_task h) hat

omit [DecidableEq τ] [DecidableEq σ] in
theorem only_run {l l' : Bool} (hp : s.sched.Placed) (h : s.sched.running k = some (t, l))
    (h' : s.sched.running j = some (t, l')) : j = k :=
  hp.run_once (running_task h) (running_task h')

/-- What a step does not touch of a task. -/
theorem Asked.frame (h : s.Asked log t j) (hp : s.sched.Placed) (hs : s.sched.Follows s'.sched)
    {log' : List (RunNote τ)}
    (hfields : (s'.sched.task t).fUseThisThread = (s.sched.task t).fUseThisThread ∧
      (s'.sched.task t).fWriteLock = (s.sched.task t).fWriteLock)
    (hrun : ∀ (i : Fin n) l, s'.sched.running i = some (t, l) ↔ s.sched.running i = some (t, l))
    (hblocked : ∀ (i : Fin n) l, s.sched.running i = some (t, l) → s'.blocked i = s.blocked i)
    (hmode : mode t log' = mode t log) : s'.Asked log' t j where
  places k c hk := by
    rcases hs.has hk with ⟨c', hk⟩ | ⟨b, hb⟩
    · exact h.places k c' hk
    · exact h.routed b k hb
  routed b k hb := by
    rcases hs.sig hb with hb | ⟨hroute, huse⟩
    · exact h.routed b k hb
    · refine huse j (h.thread fun i l hi => ?_)
      -- the task is in the hands of the signalling thread
      cases only_place hp hi (Scheduler.at_signaller hroute)
  thread hno := by
    rw [hfields.1]
    refine h.thread fun i l hi => ?_
    rw [← hblocked i l hi]
    exact hno i l ((hrun i l).2 hi)
  inRun i l hi hb := by
    have hi' := (hrun i l).1 hi
    rw [hfields.2]
    exact h.inRun i l hi' (hblocked i l hi' ▸ hb)
  waiting i l hi hb := by
    have hi' := (hrun i l).1 hi
    rw [hmode]
    exact h.waiting i l hi' (hblocked i l hi' ▸ hb)
  idle hno := by
    rw [hfields.2, hmode]
    exact h.idle fun i l hi => hno i l ((hrun i l).2 hi)

/-- A step that changes no lock, no `Run` and no field of a task that has been made before. -/
theorem Due.keep (h : s.Due log) (hs : Scheduler.Step s.sched s'.sched) (hsame : s'.sMutexRW = s.sMutexRW)
    (hrun : ∀ k, s'.sched.running k = s.sched.running k)
    (hfields : ∀ t, s.sched.life t ≠ .unborn → (s'.sched.task t).fUseThisThread = (s.sched.task t).fUseThisThread ∧
      (s'.sched.task t).fWriteLock = (s.sched.task t).fWriteLock) : s'.Due log := by
  have hblocked : ∀ i, s'.blocked i = s.blocked i := fun i => by rw [blocked, blocked, hsame]
  refine ⟨Scheduler.placed_step h.placed hs, fun i hi => ?_, fun i t l hi => ?_, fun t ht hl => ?_, fun t j ht => ?_⟩
  · rw [hsame]
    exact h.seats i (by rw [← hrun, hi])
  · rw [hsame, hblocked]
    exact h.lockedFor i t l (by rw [← hrun, hi])
  · exact h.born t ht (Scheduler.life_step hs hl)
  · have hborn := h.born t (by rw [ht]; exact Option.some_ne_none j)
    exact (h.asked t j ht).frame h.placed (Or.inr hs) (hfields t hborn) (fun i l => by rw [hrun])
      (fun i l _ => hblocked i) rfl

theorem due_plain {a : Act τ σ} {pick : Option (Fin n)} (h : s.Due log) (hs : s.step (.sched a pick) = some s')
    (ha : a.Plain) : s'.Due log := by
  obtain ⟨hsched, hlock⟩ := sched_eq_some.1 hs
  exact h.keep (Scheduler.step_cases hsched) (lock_plain ha hlock) (Scheduler.running_plain ha hsched)
    fun t _ => Scheduler.fields_plain ha hsched t

/-- A new task has asked for nothing. -/
theorem due_newTask {pick : Option (Fin n)} (h : s.Due log) (hs : s.step (.sched (.newTask u) pick) = some s') :
    s'.Due log := by
  obtain ⟨hsched, hlock⟩ := sched_eq_some.1 hs
  refine h.keep (Scheduler.step_cases hsched) (Option.some.inj hlock).symm (Scheduler.running_step hsched) fun t ht => ?_
  simp only [Scheduler.step] at hsched
  split at hsched
  next hu =>
    have hne : t ≠ u := by
      rintro rfl
      exact ht hu
    rw [← Option.some.inj hsched]
    exact ⟨congrArg Task.fUseThisThread (Scheduler.setTask_task_ne hne _),
      congrArg Task.fWriteLock (Scheduler.setTask_task_ne hne _)⟩
  next => cases hsched

omit [DecidableEq σ] in
/-- The task that a thread executes, or is about to run, has asked. -/
theorem Asked.of_task {k : Fin n} (hp : s.sched.Placed) (hk : (s.sched.thread k).entry.task = some t)
    (hthread : (∀ l, s.sched.running k = some (t, l) → s.blocked k = false) →
      (s.sched.task t).fUseThisThread = some (k : Nat))
    (hinRun : ∀ l, s.sched.running k = some (t, l) → s.blocked k = false → (s.sched.task t).fWriteLock = true)
    (hwaiting : ∀ l, s.sched.running k = some (t, l) → s.blocked k = true → (l = true ↔ mode t log = some .reading))
    (hidle : s.sched.running k = none → ((s.sched.task t).fWriteLock = true ↔ mode t log = some .reading)) :
    s.Asked log t k where
  places k' c hc := by cases hp.only (c := .running) hk (p := .thread k' c) hc; rfl
  routed b k' hb := by cases hp.only (c := .running) hk (Scheduler.at_signaller hb)
  thread hno := hthread fun l hl => hno k l hl
  inRun i l hi hb := by
    obtain rfl : i = k := Fin.ext (hp.run_once hk (running_task hi))
    exact hinRun l hi hb
  waiting i l hi hb := by
    obtain rfl : i = k := Fin.ext (hp.run_once hk (running_task hi))
    exact hwaiting l hi hb
  idle hno := by
    refine hidle ?_
    cases hrun : s.sched.running k with
    | none => rfl
    | some r =>
      have htask := running_task (t := r.1) (l := r.2) hrun
      rw [hk] at htask
      obtain rfl := Option.some.inj htask
      exact absurd hrun (hno k r.2)

/-- A thread does something with the task that it executes. -/
theorem Due.own {k : Fin n} (h : s.Due log) {log' : List (RunNote τ)} (hk : (s.sched.thread k).entry.task = some t)
    (hs : s.sched.Follows s'.sched)
    (hfields : ∀ u, u ≠ t → s'.sched.task u = s.sched.task u)
    (hrun : ∀ i : Fin n, i ≠ k → s'.sched.running i = s.sched.running i)
    (hrunk : ∀ u l, s'.sched.running k = some (u, l) → u = t)
    (hspots : ∀ i : Fin n, i ≠ k → (s'.sMutexRW.spot i).asleep = (s.sMutexRW.spot i).asleep)
    (hreq : ∀ u, u ≠ t → request u log' = request u log) (hmode : ∀ u, u ≠ t → mode u log' = mode u log)
    (hseat : s'.sched.running k = none → s'.sMutexRW.spot k = .out)
    (hlocked : ∀ l, s'.sched.running k = some (t, l) → (s'.blocked k = true → (s'.sMutexRW.spot k).forWriting = l) ∧
      (s'.blocked k = false → mode t log' = some (if l then .writing else .reading)))
    (hasked : ∀ j, request t log' = some j → s'.Asked log' t j) : s'.Due log' := by
  have hblocked : ∀ i : Fin n, i ≠ k → s'.blocked i = s.blocked i := by
    intro i hi
    rw [blocked, blocked, ← Spot.isBlocked_asleep, hspots i hi, Spot.isBlocked_asleep]
  -- the task is in the hands of no other thread
  have helse : ∀ (i : Fin n) u l, s.sched.running i = some (u, l) → u = t → i = k := by
    rintro i u l hi rfl
    exact Fin.ext (h.placed.run_once hk (running_task hi))
  have hother : ∀ (i : Fin n) u l, u ≠ t → s.sched.running i = some (u, l) → i ≠ k := by
    rintro i u l hu hi rfl
    have htask := running_task hi
    rw [hk] at htask
    exact hu (Option.some.inj htask).symm
  refine ⟨hs.placed h.placed, fun i hi => ?_, fun i u l hi => ?_, fun u hu hl => ?_, fun u j hu => ?_⟩
  · by_cases hik : i = k
    · subst hik
      exact hseat hi
    · rw [hrun i hik] at hi
      have hout := hspots i hik
      rw [h.seats i hi] at hout
      exact Spot.eq_of_asleep hout rfl
  · by_cases hik : i = k
    · subst hik
      obtain rfl := hrunk u l hi
      exact hlocked l hi
    · rw [hrun i hik] at hi
      have hut : u ≠ t := fun hut => hik (helse i u l hi hut)
      rw [hblocked i hik, hmode u hut, ← Spot.forWriting_asleep, hspots i hik, Spot.forWriting_asleep]
      exact h.lockedFor i u l hi
  · by_cases hut : u = t
    · subst hut
      have hlive := (h.placed.alive u (.thread k .running) hk).1
      rw [hs.life hl] at hlive
      cases hlive
    · rw [hreq u hut] at hu
      exact h.born u hu (hs.life hl)
  · by_cases hut : u = t
    · subst hut
      exact hasked j hu
    · rw [hreq u hut] at hu
      refine (h.asked u j hu).frame h.placed hs (by rw [hfields u hut]; exact ⟨rfl, rfl⟩) (fun i l => ?_)
        (fun i l hi => hblocked i (hother i u l hut hi)) (hmode u hut)
      by_cases hik : i = k
      · subst hik
        constructor
        · exact fun hi => absurd (hrunk u l hi) hut
        · exact fun hi => absurd rfl (hother i u l hut hi)
      · rw [hrun i hik]

omit [DecidableEq τ] [DecidableEq σ] in
theorem blocked_same (h : s'.sMutexRW = s.sMutexRW) : s'.blocked i = s.blocked i := by
  rw [blocked, blocked, h]

omit [DecidableEq τ] [DecidableEq σ] in
theorem running_of_run {l : Bool} {ev : Option EventFlags} (he : (s.sched.thread k).entry = .run t l ev) :
    s.sched.running k = some (t, l) := by
  rw [Scheduler.running, he]
  rfl

theorem run_of_ret {r : Int} (hs : s.sched.step (.ret k r) = some s'.sched) :
    ∃ t l ev, (s.sched.thread k).entry = .run t l ev := by
  simp only [Scheduler.step] at hs
  split at hs
  next t l he => exact ⟨t, l, none, he⟩
  next => cases hs

/-- A task does something in `Run`, and stays there. If it has asked afterwards its fields say so. -/
theorem Due.inRun (h : s.Due log) {log' : List (RunNote τ)} {l : Bool} (hin : s.sched.running i = some (t, l))
    (hi : s.blocked i = false) (hi' : s'.blocked i = false) (hs : Scheduler.Step s.sched s'.sched)
    (hrun : ∀ k, s'.sched.running k = s.sched.running k) {x : Task} (htask : s'.sched.task = (s.sched.setTask t x).task)
    (hspots : ∀ j : Fin n, j ≠ i → (s'.sMutexRW.spot j).asleep = (s.sMutexRW.spot j).asleep)
    (hreq : ∀ u, u ≠ t → request u log' = request u log) (hmode : ∀ u, mode u log' = mode u log)
    (hasked : ∀ j, request t log' = some j → j = i ∧ x.fUseThisThread = some j ∧ x.fWriteLock = true) : s'.Due log' := by
  have hin' : s'.sched.running i = some (t, l) := (hrun i).trans hin
  have hown : s'.sched.task t = x := by rw [htask, Scheduler.setTask_task]
  refine h.own (running_task hin) (Or.inr hs) (fun u hu => ?_) (fun j _ => hrun j) (fun u l' hu => ?_) hspots hreq
    (fun u _ => hmode u) (fun hno => ?_) (fun l' hl => ⟨fun hb => ?_, fun _ => ?_⟩) fun j hj => ?_
  · rw [htask, Scheduler.setTask_task_ne hu]
  · rw [hin'] at hu
    cases hu
    rfl
  · rw [hin'] at hno
    cases hno
  · rw [hi'] at hb
    cases hb
  · rw [hmode]
    exact (h.lockedFor i t l' (by rw [← hrun, hl])).2 hi
  · obtain ⟨rfl, huse, hwrite⟩ := hasked j hj
    refine .of_task (Scheduler.placed_step h.placed hs) (running_task hin') (fun _ => by rw [hown, huse])
      (fun _ _ _ => by rw [hown, hwrite]) (fun l' hl hb => ?_) fun hno => ?_
    · rw [hi'] at hb
      cases hb
    · rw [hin'] at hno
      cases hno

theorem due_forceSameThread {pick : Option (Fin n)} (h : s.Due log)
    (hs : s.step (.sched (.forceSameThread k) pick) = some s') : s'.Due log := by
  obtain ⟨hsched, hlock⟩ := sched_eq_some.1 hs
  obtain ⟨i, rfl, hi, hsame⟩ := lockStep_inRun hlock
  have hrun : ∀ k, s'.sched.running k = s.sched.running k := Scheduler.running_step hsched
  have hstep := Scheduler.step_cases hsched
  simp only [Scheduler.step] at hsched
  split at hsched
  next t l he =>
    have hin : s.sched.running i = some (t, l) := running_of_run he
    refine h.inRun hin hi ((blocked_same hsame).trans hi) hstep hrun (by rw [← Option.some.inj hsched])
      (fun j _ => by rw [hsame]) (fun _ _ => rfl) (fun _ => rfl) fun j hj => ?_
    have hasked := h.asked t j hj
    obtain rfl : (i : Nat) = j := hasked.places i .running (running_task hin)
    exact ⟨rfl, rfl, hasked.inRun i l hin hi⟩
  next => cases hsched

theorem due_callLocked {pick : Option (Fin n)} (h : s.Due log)
    (hs : s.step (.sched (.callLocked k) pick) = some s') :
    s'.Due ((observeRun s (.sched (.callLocked k) pick) s').toList ++ log) := by
  obtain ⟨hsched, hlock⟩ := sched_eq_some.1 hs
  obtain ⟨i, rfl, hi, hsame⟩ := lockStep_inRun hlock
  have hrun : ∀ k, s'.sched.running k = s.sched.running k := Scheduler.running_step hsched
  have hstep := Scheduler.step_cases hsched
  simp only [Scheduler.step] at hsched
  split at hsched
  next t l he =>
    have hin : s.sched.running i = some (t, l) := running_of_run he
    have hnote : observeRun s (.sched (.callLocked i) pick) s' = some (.called t i) := by simp [observeRun, hin]
    rw [hnote]
    refine h.inRun hin hi ((blocked_same hsame).trans hi) hstep hrun (by rw [← Option.some.inj hsched])
      (fun j _ => by rw [hsame]) (fun u hu => request_other hu) (fun _ => rfl) fun j hj => ?_
    obtain rfl : (i : Nat) = j := Option.some.inj ((request_called (t := t)).symm.trans hj)
    exact ⟨rfl, rfl, rfl⟩
  next => cases hsched

omit [DecidableEq τ] [DecidableEq σ] in
/-- The spots after `Unlock`. -/
theorem spots_unlock {pick : Option (Fin n)} (hi : s.blocked i = false) (hu : s.unlock i pick = some s'.sMutexRW) :
    s'.sMutexRW.spot i = .out ∧ ∀ j, j ≠ i → (s'.sMutexRW.spot j).asleep = (s.sMutexRW.spot j).asleep := by
  obtain ⟨hpick, heq⟩ := unlock_eq_some hu
  have hspot : ∀ j, (s'.sMutexRW.spot j).asleep = (Function.update s.sMutexRW.spot i .out j).asleep := by
    intro j
    rw [heq]
    exact Locked.unlock_spot hpick hi
  constructor
  · have hself := hspot i
    rw [Function.update_self] at hself
    exact Spot.eq_of_asleep hself rfl
  · intro j hj
    rw [hspot j, Function.update_of_ne hj]

theorem due_globalUnlock {pick : Option (Fin n)} (h : s.Due log)
    (hs : s.step (.sched (.globalUnlock k) pick) = some s') :
    s'.Due ((observeRun s (.sched (.globalUnlock k) pick) s').toList ++ log) := by
  obtain ⟨hsched, hlock⟩ := sched_eq_some.1 hs
  obtain ⟨i, rfl, hi, hlock⟩ := lockStep_globalUnlock hlock
  have hrun : ∀ k, s'.sched.running k = s.sched.running k := Scheduler.running_step hsched
  have hstep := Scheduler.step_cases hsched
  have hspots : s'.blocked i = false ∧ ∀ j, j ≠ i → (s'.sMutexRW.spot j).asleep = (s.sMutexRW.spot j).asleep := by
    split at hlock
    next =>
      obtain ⟨hout, hother⟩ := spots_unlock hi hlock
      exact ⟨by rw [blocked, hout]; rfl, hother⟩
    next =>
      have hsame : s'.sMutexRW = s.sMutexRW := (Option.some.inj hlock).symm
      exact ⟨(blocked_same hsame).trans hi, fun j _ => by rw [hsame]⟩
  simp only [Scheduler.step] at hsched
  split at hsched
  next t l he =>
    have hin : s.sched.running i = some (t, l) := running_of_run he
    have hnote : observeRun s (.sched (.globalUnlock i) pick) s' = some (.unlocked t) := by simp [observeRun, hin]
    rw [hnote]
    refine h.inRun hin hi hspots.1 hstep hrun (by rw [← Option.some.inj hsched]) hspots.2
      (fun u hu => request_other hu) (fun _ => rfl) fun j hj => ?_
    rw [Option.toList_some, List.cons_append, List.nil_append, request_unlocked] at hj
    cases hj
  next => cases hsched

/-- `Run` returns: a request made under the lock for writing is forgotten. -/
theorem due_ret {pick : Option (Fin n)} {r : Int} (h : s.Due log) (hs : s.step (.sched (.ret k r) pick) = some s') :
    s'.Due log := by
  obtain ⟨hsched, hlock⟩ := sched_eq_some.1 hs
  obtain ⟨i, rfl, hi, hlock⟩ := lockStep_ret hlock
  obtain ⟨hout, hother⟩ := spots_unlock hi hlock
  obtain ⟨t, l, ev, he⟩ := run_of_ret hsched
  obtain ⟨hret, hfields, huse, hwrite⟩ := Scheduler.ret_fields he hsched
  have hin : s.sched.running i = some (t, l) := running_of_run he
  have hrun := Scheduler.running_step hsched
  have hstep := Scheduler.step_cases hsched
  have hnone : s'.sched.running i = none := by rw [hrun, Scheduler.runningAfter, if_pos rfl]
  have hno : ∀ {u l'}, s'.sched.running i ≠ some (u, l') := by simp [hnone]
  refine h.own (running_task hin) (Or.inr hstep) hfields (fun j hj => ?_) (fun u l' hu => absurd hu hno) hother
    (fun _ _ => rfl) (fun _ _ => rfl) (fun _ => hout) (fun l' hl => absurd hl hno) fun j hj => ?_
  · rw [hrun j, Scheduler.runningAfter, if_neg fun heq => hj (Fin.ext heq)]
  · have hasked := h.asked t j hj
    obtain rfl : (i : Nat) = j := hasked.places i .running (running_task hin)
    have hmode := (h.lockedFor i t l hin).2 hi
    refine .of_task (Scheduler.placed_step h.placed hstep) hret (fun _ => ?_) (fun l' hl => absurd hl hno)
      (fun l' hl => absurd hl hno) fun _ => ?_
    · rw [huse]
      refine hasked.thread fun i' l' hi' => ?_
      obtain rfl : i' = i := Fin.ext (only_run h.placed hin hi')
      exact hi
    · rw [hwrite, hmode]
      cases l with
      | false => simp [hasked.inRun i false hin hi]
      | true => simp

/-- A thread that is about to run a task tries to take the lock. What it has read of `fWriteLock` is what was asked for, if
the request was made under the lock for reading. -/
structure Start (s : TaskPool n τ σ) (log : List (RunNote τ)) (s' : TaskPool n τ σ) (i : Fin n) (t : τ) (w : Bool) :
    Prop where
  executes : (s.sched.thread i).entry.task = some t
  follows : s.sched.Follows s'.sched
  took : Locked.Took s.sMutexRW i w s'.sMutexRW
  inRun : s'.sched.running i = some (t, w)
  others : ∀ j : Fin n, j ≠ i → s'.sched.running j = s.sched.running j
  fields : ∀ u, u ≠ t → s'.sched.task u = s.sched.task u
  asked : ∀ j, request t log = some j → (i : Nat) = j ∧ (w = true ↔ mode t log = some .reading)

theorem start_begin {pick : Option (Fin n)} (h : s.Due log) (hs : s.step (.sched (.begin k) pick) = some s') :
    ∃ (i : Fin n) (t : τ) (w : Bool), k = i ∧ Start s log s' i t w := by
  obtain ⟨hsched, hlock⟩ := sched_eq_some.1 hs
  obtain ⟨i, rfl, hlock⟩ := lockStep_begin hlock
  have hrun := Scheduler.running_step hsched
  have hstep := Scheduler.step_cases hsched
  simp only [Scheduler.step] at hsched
  split at hsched
  next t he =>
    have hexec : (s.sched.thread i).entry.task = some t := by rw [he]; rfl
    have hnone : s.sched.running i = none := by rw [Scheduler.running, he]; rfl
    have hwrite : s.writeLock i = (s.sched.task t).fWriteLock := by rw [writeLock, hexec]
    have htask := Option.some.inj hsched
    refine ⟨i, t, (s.sched.task t).fWriteLock, rfl, hexec, Or.inr hstep, ?_, ?_, fun j hj => ?_, fun u hu => ?_,
      fun j hj => ?_⟩
    · rw [hwrite] at hlock
      cases hw : (s.sched.task t).fWriteLock with
      | true =>
        rw [hw] at hlock
        exact Locked.Takes.write.took hlock
      | false =>
        rw [hw] at hlock
        exact Locked.Takes.read.took hlock
    · rw [hrun, Scheduler.runningAfter, if_pos rfl, he]
    · rw [hrun j, Scheduler.runningAfter, if_neg fun heq => hj (Fin.ext heq)]
    · rw [← htask]
      exact Scheduler.setTask_task_ne hu _
    · have hasked := h.asked t j hj
      refine ⟨hasked.places i .running hexec, hasked.idle fun i' l hi' => ?_⟩
      obtain rfl : i' = i := Fin.ext (h.placed.run_once hexec (running_task hi'))
      rw [hnone] at hi'
      cases hi'
  next => cases hsched

theorem start_resume (h : s.Due log) (hs : s.step (.resume i) = some s') :
    ∃ (t : τ) (w : Bool), Start s log s' i t w := by
  obtain ⟨hsched, hlock⟩ := resume_eq_some.1 hs
  have hblocked : s.blocked i = true := Locked.blocked_of_resume hlock
  have htook := Locked.Takes.resume.took hlock
  cases hrun : s.sched.running i with
  | none =>
    rw [blocked, h.seats i hrun] at hblocked
    cases hblocked
  | some r =>
    obtain ⟨t, l⟩ := r
    rw [(h.lockedFor i t l hrun).1 hblocked] at htook
    refine ⟨t, l, running_task hrun, Or.inl hsched, htook, by rw [hsched, hrun], fun j _ => by rw [hsched],
      fun u _ => by rw [hsched], fun j hj => ?_⟩
    have hasked := h.asked t j hj
    exact ⟨hasked.places i .running (running_task hrun), hasked.waiting i l hrun hblocked⟩

omit [DecidableEq τ] [DecidableEq σ] in
theorem mode_of_holds {p : Spot} {w : Bool} (hp : p.Holds) (hw : p.forWriting = w) :
    p = if w then .writing else .reading := by
  rcases hp with rfl | rfl <;> subst hw <;> rfl

omit [DecidableEq τ] [DecidableEq σ] in
theorem started_eq {w : Bool} (hin : s.sched.running i = some (t, w)) :
    s.started i = if s.blocked i then none else some (.started t i (s.sMutexRW.spot i)) := by
  simp [started, hin]

theorem Due.start (h : s.Due log) {w : Bool} (hst : Start s log s' i t w) : s'.Due ((s'.started i).toList ++ log) := by
  have hspots : ∀ j : Fin n, j ≠ i → (s'.sMutexRW.spot j).asleep = (s.sMutexRW.spot j).asleep :=
    fun j hj => by rw [hst.took.other j hj]
  have honly : ∀ u l, s'.sched.running i = some (u, l) → u = t ∧ l = w := by
    intro u l hl
    rw [hst.inRun] at hl
    cases hl
    exact ⟨rfl, rfl⟩
  have hplaced := hst.follows.placed h.placed
  rw [started_eq hst.inRun]
  by_cases hb : s'.blocked i = true
  · rw [if_pos hb]
    refine h.own hst.executes hst.follows hst.fields hst.others (fun u l hl => (honly u l hl).1) hspots (fun _ _ => rfl)
      (fun _ _ => rfl) (fun hno => ?_) (fun l hl => ⟨fun _ => ?_, fun hb' => ?_⟩) fun j hj => ?_
    · rw [hst.inRun] at hno
      cases hno
    · rw [(honly t l hl).2]
      exact hst.took.writing
    · rw [hb] at hb'
      cases hb'
    · obtain ⟨rfl, hmode⟩ := hst.asked j hj
      refine .of_task hplaced (running_task hst.inRun) (fun hl => ?_) (fun l hl hb' => ?_) (fun l hl _ => ?_) fun hno => ?_
      · rw [hl w hst.inRun] at hb
        cases hb
      · rw [hb] at hb'
        cases hb'
      · rw [(honly t l hl).2]
        exact hmode
      · rw [hst.inRun] at hno
        cases hno
  · rw [if_neg hb]
    have hholds := hst.took.after.resolve_left hb
    refine h.own hst.executes hst.follows hst.fields hst.others (fun u l hl => (honly u l hl).1) hspots
      (fun u hu => request_other hu) (fun u hu => mode_other hu) (fun hno => ?_)
      (fun l hl => ⟨fun hb' => absurd hb' hb, fun _ => ?_⟩) fun j hj => ?_
    · rw [hst.inRun] at hno
      cases hno
    · rw [(honly t l hl).2, Option.toList_some, List.cons_append, List.nil_append, mode_started,
        mode_of_holds hholds hst.took.writing]
    · rw [Option.toList_some, List.cons_append, List.nil_append, request_started] at hj
      cases hj

/-- Every step keeps the invariant. -/
theorem due_step (h : s.Due log) (hs : s.step act = some s') : s'.Due ((observeRun s act s').toList ++ log) := by
  cases act with
  | resume i =>
    obtain ⟨t, w, hst⟩ := start_resume h hs
    exact h.start hst
  | sched a pick =>
    cases a with
    | newTask u => exact due_newTask h hs
    | begin k =>
      obtain ⟨i, t, w, rfl, hst⟩ := start_begin h hs
      exact h.start hst
    | forceSameThread k => exact due_forceSameThread h hs
    | callLocked k => exact due_callLocked h hs
    | globalUnlock k => exact due_globalUnlock h hs
    | ret k r => exact due_ret h hs
    | addThreads | signal | route | enqueue | timer | noTimer | dequeue | stop | readEvents | subEvents | finish | orIdle =>
      exact due_plain h hs trivial

/-- A `Run` that starts is as it was asked for, up to the lock. -/
theorem Start.note {w : Bool} (hst : Start s log s' i t w) {p : Spot}
    (hn : s'.started i = some (.started u k p)) (hj : request u log = some j) :
    k = j ∧ (p = .writing ↔ mode u log = some .reading) := by
  rw [started_eq hst.inRun] at hn
  split at hn
  next => cases hn
  next hb =>
    cases hn
    obtain ⟨rfl, hmode⟩ := hst.asked j hj
    refine ⟨rfl, ?_⟩
    rw [← hmode, mode_of_holds (hst.took.after.resolve_left hb) hst.took.writing]
    cases w <;> simp

theorem start_note (h : s.Due log) (hs : s.step act = some s') {p : Spot}
    (hn : observeRun s act s' = some (.started u k p)) (hj : request u log = some j) :
    k = j ∧ (p = .writing ↔ mode u log = some .reading) := by
  cases act with
  | resume i =>
    obtain ⟨t, w, hst⟩ := start_resume h hs
    exact hst.note hn hj
  | sched a pick =>
    cases a with
    | begin k' =>
      obtain ⟨i, t, w, rfl, hst⟩ := start_begin h hs
      exact hst.note hn hj
    | callLocked k' | globalUnlock k' =>
      obtain ⟨r, -, hr⟩ := Option.map_eq_some_iff.1 hn
      cases hr
    | newTask | addThreads | signal | route | enqueue | timer | noTimer | dequeue | stop | readEvents | subEvents
    | forceSameThread | ret | finish | orIdle => cases hn

/-- A `Run` that starts is granted when the one before had the lock for reading. -/
theorem askedReading_iff (h : s.Due log) (hs : s.step act = some s') :
    AskedReading ⟨s, log⟩ act ↔ ∀ e ∈ observeRun s act s', Granted log e := by
  constructor
  · intro hask e he
    cases e with
    | started u k p =>
      intro j hj
      obtain ⟨hk, hp⟩ := start_note h hs he hj
      have hmode := hask s' hs _ he u rfl
      exact ⟨hk, hp.2 (hmode (by rw [hj]; exact Option.some_ne_none j))⟩
    | called | unlocked => trivial
  · intro hgranted s₁ hs₁ e he u hu hreq
    obtain rfl : s' = s₁ := Option.some.inj (hs.symm.trans hs₁)
    cases e with
    | started v k p =>
      obtain rfl : v = u := Option.some.inj hu
      obtain ⟨j, hj⟩ := Option.ne_none_iff_exists'.1 hreq
      exact (start_note h hs he hj).2.1 (hgranted _ he j hj).2
    | called | unlocked => cases hu

omit [DecidableEq σ] in
theorem due_new : Due (new : TaskPool n τ σ) [] where
  placed := Scheduler.placed_new
  seats i _ := rfl
  lockedFor i t l h := by cases h
  born t h := absurd rfl h
  asked t j h := by cases h

/-- **What `CallLocked` asks for**: every request of a run is met, the next `Run` is on the same thread and has the lock for
writing, exactly when each request that a `Run` starts with was made by a `Run` that had the lock for reading. -/
theorem called_locked_iff {acts : List (PoolAct n τ σ)} {x : Logged (TaskPool n τ σ) (RunNote τ)}
    (hr : run notedRun ⟨new, []⟩ acts = some x) :
    Each Granted x.log ↔ Along notedRun AskedReading ⟨new, []⟩ acts := by
  have hiff := each_iff_along (I := fun x : Logged (TaskPool n τ σ) (RunNote τ) => x.state.Due x.log) (C := AskedReading)
    (Q := Granted) (fun x act s h _ hs => due_step h hs) (fun x act s h hs => askedReading_iff h hs) due_new hr
  exact hiff.trans (and_iff_right trivial)

/-- A task signalled to the one thread of a pool, and run there. -/
def firstRun : List (PoolAct 1 Unit Unit) :=
  [.sched (.newTask ()) none, .sched (.addThreads 1) none, .sched (.signal () () Task.kStartEvent) none,
    .sched (.route ()) none, .sched (.enqueue ()) none, .sched (.noTimer 0 0) none, .sched (.dequeue 0) none,
    .sched (.begin 0) none]

/-- It returns what `CallLocked` has returned, and is run again when this time has come. -/
def runAgain (now : Int) : List (PoolAct 1 Unit Unit) :=
  [.sched (.callLocked 0) none, .sched (.ret 0 10) none, .sched (.finish 0 now) none, .sched (.orIdle 0) none,
    .sched (.timer 0 (now + 10) (now + 10) ()) none, .sched (.begin 0) none]

theorem called_locked_iff_once : ∃ x, run notedRun ⟨new, []⟩ (firstRun ++ runAgain 0) = some x ∧
    x.log = [.started () 0 .writing, .called () 0, .started () 0 .reading] ∧ Each Granted x.log := by
  have hr : run notedRun ⟨new, []⟩ (firstRun ++ runAgain 0) = some _ := rfl
  exact ⟨_, hr, by decide +kernel, (called_locked_iff hr).2 (by decide +kernel)⟩

/-- A locked `Run` asks for another one, and the next has the lock for reading. -/
theorem second_request_lost : ∃ x, run notedRun ⟨new, []⟩ (firstRun ++ runAgain 0 ++ runAgain 10) = some x ∧
    x.log = [.started () 0 .reading, .called () 0, .started () 0 .writing, .called () 0, .started () 0 .reading] ∧
    ¬ Each Granted x.log := by
  refine ⟨_, rfl, by decide +kernel, fun h => ?_⟩
  have hlast := (h.1 0 (by decide +kernel)).2
  cases hlast

end TaskPool

end ToolLib.Common
