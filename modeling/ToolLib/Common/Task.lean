import Mathlib.Logic.Function.Basic
import ToolLib.Base.Signed
import ToolLib.Base.System

/-!
# Tasks and task threads

`Task::Signal`, `Task::GetEvents` and the loop of `TaskThread::Entry` (Task.cpp) over the operations of atomic.cpp, with
any number of tasks, of signalling threads and of task threads. The atomic operations, the operations on a queue and on
a heap, and the reading of the mask in `GetEvents` are one step each. `fUseThisThread` and `fWriteLock` are touched only
by the thread that executes the task or is about to enqueue it, and what it does with them belongs to its next step. The
lock around `Run` is left out: it can only make a thread wait.

A task may be signalled until it is deleted (its users watch their references), it learns of its events through
`GetEvents` inside of `Run` only, and no task is created at the place of a deleted one. The times of `OS::Milliseconds`
are part of the actions. They and the results of `Run` are `SInt64` values, and so is the sum that is the deadline of a
timer.
-/

namespace ToolLib.Common

open ToolLib.Base

abbrev EventFlags := BitVec 32

/-! ## atomic.cpp -/

/-- The value stored, which is returned as well. -/
def atomicAdd (area val : BitVec 32) : BitVec 32 := area + val

def atomicSub (area val : BitVec 32) : BitVec 32 := atomicAdd area (-val)

/-- The value stored, and the old value, which is returned. -/
def atomicOr (area val : BitVec 32) : BitVec 32 × BitVec 32 := (area ||| val, area)

/-- The value stored, and whether it is the new one. -/
def compareAndStore (oval nval area : BitVec 32) : BitVec 32 × Bool :=
  if oval = area then (nval, true) else (area, false)

/-! ## Task -/

/-- The fields of `Task` that are not list links. -/
structure Task where
  fEvents : EventFlags
  fUseThisThread : Option Nat
  fWriteLock : Bool
  deriving DecidableEq

namespace Task

def kIdleEvent : EventFlags := 0x1#32 <<< 0x1
def kStartEvent : EventFlags := 0x1#32 <<< 0x2
def kAlive : EventFlags := 0x80000000#32
def kAliveOff : EventFlags := 0x7fffffff#32

/-- The constructor. -/
def new : Task := ⟨0, none, false⟩

/-- `GetEvents` up to its subtraction. -/
def currentEvents (x : Task) : EventFlags := x.fEvents &&& kAliveOff

/-- The subtraction of `GetEvents`. -/
def subEvents (x : Task) (events : EventFlags) : Task := { x with fEvents := atomicSub x.fEvents events }

end Task

inductive Life
  | unborn
  | live
  | deleted
  deriving DecidableEq

/-! ## Threads -/

section Threads

variable (τ : Type*)

/-- A call of `Signal` that has found the task not alive: in front of the choice of a thread, or of `EnQueue`. -/
inductive Signalling
  | route (t : τ)
  | enqueue (t : τ) (k : Nat)
  deriving DecidableEq

/-- Where `TaskThread::Entry` is. -/
inductive Entry
  /-- At the top of `WaitForTask`. -/
  | wait
  /-- No timer is due: in front of `DeQueueBlocking`. -/
  | dequeue
  /-- In front of a call of `Run`. -/
  | begin (t : τ)
  /-- In `Run`, with `fWriteLock` as it was read; a `GetEvents` that has read the mask and not yet subtracted. -/
  | run (t : τ) (locked : Bool) (events : Option EventFlags)
  /-- `Run` has returned. -/
  | ret (t : τ) (theTimeout : Int)
  /-- The task has been put into the heap: in front of the `atomic_or` of `kIdleEvent`. -/
  | idle (t : τ)
  | stopped
  deriving DecidableEq

/-- A task thread. The heap holds tasks with the time at which they are due. -/
structure TaskThread where
  fTaskQueue : List τ
  fHeap : List (Int × τ)
  entry : Entry τ

/-- What has happened to the events of each task: those signalled, whether a timer has added `kIdleEvent`, and what its
calls of `GetEvents` returned. The code keeps none of it. -/
structure Record where
  signalled : τ → EventFlags
  idled : τ → Bool
  reports : τ → List EventFlags

/-- What happens next. -/
inductive Act (σ : Type*)
  | newTask (t : τ)
  | addThreads (numToAdd : Nat)
  /-- The `atomic_or` of `Signal`. -/
  | signal (a : σ) (t : τ) (events : EventFlags)
  | route (a : σ)
  | enqueue (a : σ)
  /-- `WaitForTask` finds the timer `(d, t)` due, or none. -/
  | timer (k : Nat) (now : Int) (d : Int) (t : τ)
  | noTimer (k : Nat) (now : Int)
  | dequeue (k : Nat)
  | stop (k : Nat)
  | begin (k : Nat)
  /-- The two halves of `GetEvents`. -/
  | readEvents (k : Nat)
  | subEvents (k : Nat)
  | forceSameThread (k : Nat)
  | callLocked (k : Nat)
  | globalUnlock (k : Nat)
  /-- `Run` returns `theTimeout`, and the thread deals with it. -/
  | ret (k : Nat) (theTimeout : Int)
  | finish (k : Nat) (now : Int)
  | orIdle (k : Nat)

end Threads

/-- The task a signalling thread is about to schedule. -/
def Signalling.task {τ : Type*} : Signalling τ → τ
  | route t => t
  | enqueue t _ => t

/-- The task a task thread executes. -/
def Entry.task {τ : Type*} : Entry τ → Option τ
  | begin t | run t _ _ | ret t _ => some t
  | wait | dequeue | idle _ | stopped => none

/-- The tasks `τ`, the signalling threads `σ` and the task threads, by their index in `sTaskThreadArray`. -/
structure Scheduler (τ σ : Type*) where
  task : τ → Task
  life : τ → Life
  sNumTaskThreads : Nat
  sThreadPicker : BitVec 32
  sig : σ → Option (Signalling τ)
  thread : Nat → TaskThread τ
  record : Record τ

namespace Scheduler

variable {τ σ : Type*} [DecidableEq τ] [DecidableEq σ]

/-- No tasks yet, and no task threads. -/
def new : Scheduler τ σ where
  task _ := Task.new
  life _ := .unborn
  sNumTaskThreads := 0
  sThreadPicker := 0
  sig _ := none
  thread _ := ⟨[], [], .wait⟩
  record := ⟨fun _ => 0, fun _ => false, fun _ => []⟩

def setTask (s : Scheduler τ σ) (t : τ) (x : Task) : Scheduler τ σ := { s with task := Function.update s.task t x }

def setThread (s : Scheduler τ σ) (k : Nat) (th : TaskThread τ) : Scheduler τ σ :=
  { s with thread := Function.update s.thread k th }

def setSig (s : Scheduler τ σ) (a : σ) (g : Option (Signalling τ)) : Scheduler τ σ :=
  { s with sig := Function.update s.sig a g }

/-- The thread goes on to another place of its loop. -/
def goto (s : Scheduler τ σ) (k : Nat) (e : Entry τ) : Scheduler τ σ := s.setThread k { s.thread k with entry := e }

/-- `Signal` up to its `atomic_or`; it goes on when the task was not alive. -/
def signal (s : Scheduler τ σ) (a : σ) (t : τ) (events : EventFlags) : Scheduler τ σ :=
  let r := atomicOr (s.task t).fEvents (events ||| Task.kAlive)
  let g := if r.2 &&& Task.kAlive = 0 then some (.route t) else none
  { (s.setTask t { s.task t with fEvents := r.1 }).setSig a g with
    record := { s.record with signalled := Function.update s.record.signalled t (s.record.signalled t ||| events) } }

/-- `Signal` finds a thread for the task, if there are threads. -/
def route (s : Scheduler τ σ) (a : σ) (t : τ) : Scheduler τ σ :=
  if s.sNumTaskThreads > 0 then
    match (s.task t).fUseThisThread with
    | some k => s.setSig a (some (.enqueue t k))
    | none =>
      let theThread := atomicAdd s.sThreadPicker 1
      { s.setSig a (some (.enqueue t (theThread.toNat % s.sNumTaskThreads))) with sThreadPicker := theThread }
  else s.setSig a none

/-- `OSQueue::EnQueue`: a member stays where it is. -/
def enQueue (q : List τ) (t : τ) : List τ := if t ∈ q then q else q ++ [t]

def enqueue (s : Scheduler τ σ) (a : σ) (t : τ) (k : Nat) : Scheduler τ σ :=
  (s.setThread k { s.thread k with fTaskQueue := enQueue (s.thread k).fTaskQueue t }).setSig a none

/-- The task is deleted, let go, run again, or put into the heap. -/
def finish (s : Scheduler τ σ) (k : Nat) (t : τ) (theTimeout now : Int) : Scheduler τ σ :=
  if theTimeout < 0 then { s.goto k .wait with life := Function.update s.life t .deleted }
  else if theTimeout = 0 then
    let r := compareAndStore Task.kAlive 0 (s.task t).fEvents
    (s.setTask t { s.task t with fEvents := r.1 }).goto k (if r.2 then .wait else .begin t)
  else s.setThread k { s.thread k with fHeap := (signed 64 (now + theTimeout), t) :: (s.thread k).fHeap, entry := .idle t }

def orIdle (s : Scheduler τ σ) (k : Nat) (t : τ) : Scheduler τ σ :=
  { (s.setTask t { s.task t with fEvents := (atomicOr (s.task t).fEvents Task.kIdleEvent).1 }).goto k .wait with
    record := { s.record with idled := Function.update s.record.idled t true } }

/-- The second half of `GetEvents`, which then returns `events`. -/
def subEvents (s : Scheduler τ σ) (k : Nat) (t : τ) (locked : Bool) (events : EventFlags) : Scheduler τ σ :=
  { (s.setTask t ((s.task t).subEvents events)).goto k (.run t locked none) with
    record := { s.record with reports := Function.update s.record.reports t (s.record.reports t ++ [events]) } }

def step (s : Scheduler τ σ) : Act τ σ → Option (Scheduler τ σ)
  | .newTask t =>
    if s.life t = .unborn then some { s.setTask t Task.new with life := Function.update s.life t .live } else none
  -- the pool is filled once
  | .addThreads n => if s.sNumTaskThreads = 0 then some { s with sNumTaskThreads := n } else none
  | .signal a t e => if s.sig a = none ∧ s.life t = .live then some (s.signal a t e) else none
  | .route a => match s.sig a with
    | some (.route t) => some (s.route a t)
    | _ => none
  | .enqueue a => match s.sig a with
    | some (.enqueue t k) => some (s.enqueue a t k)
    | _ => none
  | .timer k now d t =>
    let th := s.thread k
    if k < s.sNumTaskThreads ∧ th.entry = .wait ∧ (d, t) ∈ th.fHeap ∧ (∀ p ∈ th.fHeap, d ≤ p.1) ∧ d ≤ now then
      some (s.setThread k { th with fHeap := th.fHeap.erase (d, t), entry := .begin t })
    else none
  | .noTimer k now =>
    let th := s.thread k
    if k < s.sNumTaskThreads ∧ th.entry = .wait ∧ ∀ p ∈ th.fHeap, now < p.1 then some (s.goto k .dequeue) else none
  | .dequeue k =>
    let th := s.thread k
    if th.entry = .dequeue then
      match th.fTaskQueue with
      | t :: q => some (s.setThread k { th with fTaskQueue := q, entry := .begin t })
      | [] => some (s.goto k .wait)
    else none
  -- `DeQueueBlocking` returned `NULL` and the thread is asked to stop
  | .stop k =>
    if (s.thread k).entry = .dequeue ∧ (s.thread k).fTaskQueue = [] then some (s.goto k .stopped) else none
  | .begin k => match (s.thread k).entry with
    | .begin t =>
      some ((s.setTask t { s.task t with fUseThisThread := none }).goto k (.run t (s.task t).fWriteLock none))
    | _ => none
  | .readEvents k => match (s.thread k).entry with
    | .run t locked none => some (s.goto k (.run t locked (some (s.task t).currentEvents)))
    | _ => none
  | .subEvents k => match (s.thread k).entry with
    | .run t locked (some events) => some (s.subEvents k t locked events)
    | _ => none
  | .forceSameThread k => match (s.thread k).entry with
    | .run t _ none => some (s.setTask t { s.task t with fUseThisThread := some k })
    | _ => none
  | .callLocked k => match (s.thread k).entry with
    | .run t _ none => some (s.setTask t { s.task t with fUseThisThread := some k, fWriteLock := true })
    | _ => none
  | .globalUnlock k => match (s.thread k).entry with
    | .run t _ none => some (s.setTask t { s.task t with fWriteLock := false })
    | _ => none
  | .ret k theTimeout => match (s.thread k).entry with
    | .run t locked none =>
      let s' := if locked then s.setTask t { s.task t with fWriteLock := false } else s
      some (s'.goto k (.ret t theTimeout))
    | _ => none
  | .finish k now => match (s.thread k).entry with
    | .ret t theTimeout => some (s.finish k t theTimeout now)
    | _ => none
  | .orIdle k => match (s.thread k).entry with
    | .idle t => some (s.orIdle k t)
    | _ => none

/-! ## What a step can do -/

variable {s s' : Scheduler τ σ}

/-- The steps without the names of the actions: what a thread does with its own task, or without a task, is one case. -/
inductive Step (s : Scheduler τ σ) : Scheduler τ σ → Prop
  | newTask (t : τ) (h : s.life t = .unborn) :
    Step s { s.setTask t Task.new with life := Function.update s.life t .live }
  | addThreads (n : Nat) (h : s.sNumTaskThreads = 0) : Step s { s with sNumTaskThreads := n }
  | signal (a : σ) (t : τ) (e : EventFlags) (h : s.sig a = none) (hlive : s.life t = .live) : Step s (s.signal a t e)
  | route (a : σ) (t : τ) (h : s.sig a = some (.route t)) : Step s (s.route a t)
  | enqueue (a : σ) (t : τ) (k : Nat) (h : s.sig a = some (.enqueue t k)) : Step s (s.enqueue a t k)
  | timer (k : Nat) (d : Int) (t : τ) (hw : (s.thread k).entry = .wait) (hin : (d, t) ∈ (s.thread k).fHeap)
    (hmin : ∀ p ∈ (s.thread k).fHeap, d ≤ p.1) :
    Step s (s.setThread k { s.thread k with fHeap := (s.thread k).fHeap.erase (d, t), entry := .begin t })
  | dequeue (k : Nat) (t : τ) (q : List τ) (hw : (s.thread k).entry = .dequeue)
    (hq : (s.thread k).fTaskQueue = t :: q) :
    Step s (s.setThread k { s.thread k with fTaskQueue := q, entry := .begin t })
  | rest (k : Nat) (e : Entry τ) (h : (s.thread k).entry = .wait ∨ (s.thread k).entry = .dequeue) (he : e.task = none)
    (hidle : ∀ t, e ≠ .idle t) : Step s (s.goto k e)
  | own (k : Nat) (t : τ) (f : Option Nat) (w : Bool) (e : Entry τ) (h : (s.thread k).entry.task = some t)
    (he : e.task = some t) (hev : ∀ l ev, e = .run t l (some ev) → ev = (s.task t).currentEvents) :
    Step s ((s.setTask t { s.task t with fUseThisThread := f, fWriteLock := w }).goto k e)
  | subEvents (k : Nat) (t : τ) (l : Bool) (ev : EventFlags) (h : (s.thread k).entry = .run t l (some ev)) :
    Step s (s.subEvents k t l ev)
  | finish (k : Nat) (t : τ) (theTimeout now : Int) (h : (s.thread k).entry = .ret t theTimeout) :
    Step s (s.finish k t theTimeout now)
  | orIdle (k : Nat) (t : τ) (h : (s.thread k).entry = .idle t) : Step s (s.orIdle k t)

omit [DecidableEq σ] in
@[simp] theorem setTask_self (t : τ) : s.setTask t (s.task t) = s := by
  rw [setTask, Function.update_eq_self]

omit [DecidableEq σ] in
@[simp] theorem setTask_task (t : τ) (x : Task) : (s.setTask t x).task t = x := by simp [setTask]

omit [DecidableEq σ] in
theorem setTask_task_ne {t u : τ} (hu : u ≠ t) (x : Task) : (s.setTask t x).task u = s.task u := by
  simp [setTask, hu]

omit [DecidableEq τ] [DecidableEq σ] in
theorem goto_self {k : Nat} {e : Entry τ} (h : (s.thread k).entry = e) : s.goto k e = s := by
  rw [goto, setThread, ← h, Function.update_eq_self]

/-- A thread in `Run` changes the fields of its task and stays where it is. -/
theorem step_fields {k : Nat} {t : τ} {l : Bool} (h : (s.thread k).entry = .run t l none) (f : Option Nat) (w : Bool) :
    Step s (s.setTask t { s.task t with fUseThisThread := f, fWriteLock := w }) := by
  have hrun : (s.thread k).entry.task = some t := by rw [h]; rfl
  have hstep := Step.own k t f w (.run t l none) hrun rfl fun l ev he => by cases he
  rwa [goto_self (s := s.setTask t _) h] at hstep

/-- **The steps are of these forms.** -/
theorem step_cases {a : Act τ σ} (hs : s.step a = some s') : Step s s' := by
  cases a with
  | newTask t =>
    simp only [step] at hs
    split at hs
    next h => cases hs; exact .newTask t h
    next => cases hs
  | addThreads n =>
    simp only [step] at hs
    split at hs
    next h => cases hs; exact .addThreads n h
    next => cases hs
  | signal a t e =>
    simp only [step] at hs
    split at hs
    next h => cases hs; exact .signal a t e h.1 h.2
    next => cases hs
  | route a =>
    simp only [step] at hs
    split at hs
    next h => cases hs; exact .route a _ h
    next => cases hs
  | enqueue a =>
    simp only [step] at hs
    split at hs
    next h => cases hs; exact .enqueue a _ _ h
    next => cases hs
  | timer k now d t =>
    simp only [step] at hs
    split at hs
    next h => cases hs; exact .timer k d t h.2.1 h.2.2.1 h.2.2.2.1
    next => cases hs
  | noTimer k now =>
    simp only [step] at hs
    split at hs
    next h => cases hs; exact .rest k _ (Or.inl h.2.1) rfl nofun
    next => cases hs
  | dequeue k =>
    simp only [step] at hs
    split at hs
    next h =>
      split at hs
      next hq => cases hs; exact .dequeue k _ _ h hq
      next => cases hs; exact .rest k _ (Or.inr h) rfl nofun
    next => cases hs
  | stop k =>
    simp only [step] at hs
    split at hs
    next h => cases hs; exact .rest k _ (Or.inr h.1) rfl nofun
    next => cases hs
  | begin k =>
    simp only [step] at hs
    split at hs
    next t h => cases hs; exact .own k t none _ _ (by rw [h]; rfl) rfl fun l ev he => by cases he
    next => cases hs
  | readEvents k =>
    simp only [step] at hs
    split at hs
    next t l h =>
      cases hs
      have hstep := Step.own (s := s) k t (s.task t).fUseThisThread (s.task t).fWriteLock
        (.run t l (some (s.task t).currentEvents)) (by rw [h]; rfl) rfl fun l ev he => by cases he; rfl
      rwa [setTask_self] at hstep
    next => cases hs
  | subEvents k =>
    simp only [step] at hs
    split at hs
    next h => cases hs; exact .subEvents k _ _ _ h
    next => cases hs
  | forceSameThread k =>
    simp only [step] at hs
    split at hs
    next h => cases hs; exact step_fields h _ _
    next => cases hs
  | callLocked k =>
    simp only [step] at hs
    split at hs
    next h => cases hs; exact step_fields h _ _
    next => cases hs
  | globalUnlock k =>
    simp only [step] at hs
    split at hs
    next h => cases hs; exact step_fields h _ _
    next => cases hs
  | ret k theTimeout =>
    simp only [step] at hs
    split at hs
    next t l h =>
      cases hs
      have hown : ∀ w, Step s ((s.setTask t { s.task t with fWriteLock := w }).goto k (.ret t theTimeout)) :=
        fun w => .own k t _ w _ (by rw [h]; rfl) rfl fun l ev he => by cases he
      cases l with
      | true => exact hown false
      | false =>
        have hstep := hown (s.task t).fWriteLock
        rwa [setTask_self] at hstep
    next => cases hs
  | finish k now =>
    simp only [step] at hs
    split at hs
    next h => cases hs; exact .finish k _ _ now h
    next => cases hs
  | orIdle k =>
    simp only [step] at hs
    split at hs
    next h => cases hs; exact .orIdle k _ h
    next => cases hs

end Scheduler

end ToolLib.Common
