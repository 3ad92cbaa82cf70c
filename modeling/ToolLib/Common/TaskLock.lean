import ToolLib.Common.RWCounts
import ToolLib.Common.Task

/-!
# The lock around `Run`

The task threads with `TaskThreadPool::sMutexRW`. `TaskThread::Entry` makes a locker in front of each call of `Run`, for
writing when `fWriteLock` is set, and its destructor calls `Unlock` after the call. A thread that waits for the lock has the
place of a thread in `Run`, and does nothing until it gets the lock. `Task::GlobalUnlock` calls `Unlock` too, in `Run`, when
it finds `fWriteLock` set.

The pool has `n` threads; a waiting writer that is woken by `Unlock` is part of the action.
-/

namespace ToolLib.Common

open ToolLib.Base

variable {n : Nat} {τ σ : Type*}

/-- The scheduler of `n` task threads, and their lock. -/
structure TaskPool (n : Nat) (τ σ : Type*) where
  sched : Scheduler τ σ
  sMutexRW : Locked (Fin n)

/-- What happens next. -/
inductive PoolAct (n : Nat) (τ σ : Type*)
  /-- A step of the scheduler; `pick` is the thread that a call of `fWritersCond.Signal` wakes. -/
  | sched (a : Act τ σ) (pick : Option (Fin n))
  /-- A thread that waits in `LockRead` or `LockWrite` makes its test again. -/
  | resume (k : Fin n)

/-- The task in `Run`, and `fWriteLock` as it was read for it. -/
def Entry.running : Entry τ → Option (τ × Bool)
  | run t locked _ => some (t, locked)
  | wait | dequeue | begin _ | ret _ _ | idle _ | stopped => none

namespace Scheduler

/-- The task that the thread runs. -/
def running (s : Scheduler τ σ) (k : Nat) : Option (τ × Bool) := (s.thread k).entry.running

variable {s s' : Scheduler τ σ} {a : Act τ σ} {j k : Nat} {e : Entry τ} {th : TaskThread τ}

theorem running_setThread : (s.setThread k th).running j = if j = k then th.entry.running else s.running j := by
  by_cases hj : j = k
  · subst hj
    simp [running, setThread]
  · simp [running, setThread, hj]

theorem running_goto : (s.goto k e).running j = if j = k then e.running else s.running j := running_setThread

/-- A thread goes on in `Run`, or outside of it. -/
theorem running_same (he : e.running = s.running k) : (s.goto k e).running j = s.running j := by
  rw [running_goto]
  split
  next hj => rw [he, hj]
  next => rfl

/-- What a step means for a thread in `Run`: it comes there, or leaves, or neither. -/
def runningAfter (s : Scheduler τ σ) (k : Nat) : Act τ σ → Option (τ × Bool)
  | .begin j =>
    if k = j then
      match (s.thread j).entry with
      | .begin t => some (t, (s.task t).fWriteLock)
      | _ => none
    else s.running k
  | .ret j _ => if k = j then none else s.running k
  | .newTask _ | .addThreads _ | .signal _ _ _ | .route _ | .enqueue _ | .timer _ _ _ _ | .noTimer _ _ | .dequeue _
  | .stop _ | .readEvents _ | .subEvents _ | .forceSameThread _ | .callLocked _ | .globalUnlock _ | .finish _ _
  | .orIdle _ => s.running k

theorem running_finish [DecidableEq τ] {t : τ} {r now : Int} (h : (s.thread k).entry = .ret t r) :
    (s.finish k t r now).running j = s.running j := by
  have hnone : s.running k = none := by rw [running, h]; rfl
  unfold finish
  split
  next => exact running_same hnone.symm
  next =>
    split
    next =>
      -- the fields of the task do not matter
      refine running_same (s := s.setTask t _) (Eq.trans ?_ hnone.symm)
      split <;> rfl
    next =>
      rw [running_setThread]
      split
      next hj => rw [hj, hnone]; rfl
      next => rfl

theorem running_step [DecidableEq τ] [DecidableEq σ] (hs : s.step a = some s') (k : Nat) :
    s'.running k = s.runningAfter k a := by
  cases a with
  | newTask t =>
    simp only [step] at hs
    split at hs <;> cases hs
    rfl
  | addThreads m =>
    simp only [step] at hs
    split at hs <;> cases hs
    rfl
  | signal b t e =>
    simp only [step] at hs
    split at hs <;> cases hs
    rfl
  | route b =>
    simp only [step] at hs
    split at hs <;> cases hs
    unfold route
    split
    · split <;> rfl
    · rfl
  | enqueue b =>
    simp only [step] at hs
    split at hs <;> cases hs
    next t j hb =>
      refine (running_setThread (s := s) (k := j)).trans ?_
      split
      next hj => rw [hj]; rfl
      next => rfl
  | timer j now d t =>
    simp only [step] at hs
    split at hs <;> cases hs
    next h =>
      rw [running_setThread]
      split
      next hj => rw [hj, runningAfter, running, h.2.1]; rfl
      next => rfl
  | noTimer j now =>
    simp only [step] at hs
    split at hs <;> cases hs
    next h => exact running_same (by rw [running, h.2.1]; rfl)
  | dequeue j =>
    simp only [step] at hs
    split at hs
    next h =>
      split at hs <;> cases hs
      · rw [running_setThread]
        split
        next hj => rw [hj, runningAfter, running, h]; rfl
        next => rfl
      · exact running_same (by rw [running, h]; rfl)
    next => cases hs
  | stop j =>
    simp only [step] at hs
    split at hs <;> cases hs
    next h => exact running_same (by rw [running, h.1]; rfl)
  | begin j =>
    simp only [step] at hs
    split at hs <;> cases hs
    next t h =>
      rw [running_goto, runningAfter, h]
      split <;> rfl
  | readEvents j =>
    simp only [step] at hs
    split at hs <;> cases hs
    next h => exact running_same (by rw [running, h]; rfl)
  | subEvents j =>
    simp only [step] at hs
    split at hs <;> cases hs
    next t locked events h =>
      have hrun : s.running j = some (t, locked) := by rw [running, h]; rfl
      exact running_same (s := s.setTask t ((s.task t).subEvents events)) hrun.symm
  | forceSameThread j =>
    simp only [step] at hs
    split at hs <;> cases hs
    rfl
  | callLocked j =>
    simp only [step] at hs
    split at hs <;> cases hs
    rfl
  | globalUnlock j =>
    simp only [step] at hs
    split at hs <;> cases hs
    rfl
  | ret j r =>
    simp only [step] at hs
    split at hs <;> cases hs
    next t locked h =>
      rw [running_goto, runningAfter]
      split
      next => rfl
      next => split <;> rfl
  | finish j now =>
    simp only [step] at hs
    split at hs <;> cases hs
    next t r h => exact running_finish h
  | orIdle j =>
    simp only [step] at hs
    split at hs <;> cases hs
    next t h =>
      have hnone : s.running j = none := by rw [running, h]; rfl
      exact running_same (s := s.setTask t _) hnone.symm

end Scheduler

namespace TaskPool

/-- No tasks yet, and nobody has the lock. -/
def new : TaskPool n τ σ := ⟨Scheduler.new, Locked.new⟩

/-- The thread waits for the lock. -/
def blocked (s : TaskPool n τ σ) (k : Fin n) : Bool := (s.sMutexRW.spot k).isBlocked

/-- `OSMutexRW::Unlock`, called by a thread of the pool whether it has the lock or not. -/
def unlock (s : TaskPool n τ σ) (k : Fin n) (pick : Option (Fin n)) : Option (Locked (Fin n)) :=
  if s.sMutexRW.CanPick pick then some ((s.sMutexRW.setSpot k .out).unlock pick) else none

/-- `fWriteLock` of the task that the thread executes. -/
def writeLock (s : TaskPool n τ σ) (k : Nat) : Bool :=
  match (s.sched.thread k).entry.task with
  | some t => (s.sched.task t).fWriteLock
  | none => false

/-- The number of a thread of the pool. -/
def thread? (n k : Nat) : Option (Fin n) := if h : k < n then some ⟨k, h⟩ else none

/-- The lock after a step of the scheduler. -/
def lockStep (s : TaskPool n τ σ) (pick : Option (Fin n)) : Act τ σ → Option (Locked (Fin n))
  | .addThreads numToAdd => if numToAdd = n then some s.sMutexRW else none
  -- the constructor of the locker
  | .begin k => do
    let i ← thread? n k
    s.sMutexRW.step (if s.writeLock k then .lockWrite i else .lockRead i)
  | .readEvents k | .subEvents k | .forceSameThread k | .callLocked k => do
    let i ← thread? n k
    if s.blocked i then none else some s.sMutexRW
  | .globalUnlock k => do
    let i ← thread? n k
    if s.blocked i then none else if s.writeLock k then s.unlock i pick else some s.sMutexRW
  -- the destructor of the locker
  | .ret k _ => do
    let i ← thread? n k
    if s.blocked i then none else s.unlock i pick
  | .newTask _ | .signal _ _ _ | .route _ | .enqueue _ | .timer _ _ _ _ | .noTimer _ _ | .dequeue _ | .stop _
  | .finish _ _ | .orIdle _ => some s.sMutexRW

variable [DecidableEq τ] [DecidableEq σ]

def step (s : TaskPool n τ σ) : PoolAct n τ σ → Option (TaskPool n τ σ)
  | .sched a pick => (s.sched.step a).bind fun sched => (s.lockStep pick a).map fun lock => ⟨sched, lock⟩
  | .resume k => (s.sMutexRW.step (.resume k)).map fun lock => ⟨s.sched, lock⟩

/-! ## What a step does to the lock -/

variable {s s' : TaskPool n τ σ} {a : Act τ σ} {pick : Option (Fin n)} {i : Fin n} {k : Nat}

theorem sched_eq_some :
    s.step (.sched a pick) = some s' ↔ s.sched.step a = some s'.sched ∧ s.lockStep pick a = some s'.sMutexRW := by
  simp only [step, Option.bind_eq_some_iff, Option.map_eq_some_iff]
  constructor
  · rintro ⟨sched, hs, lock, hl, rfl⟩
    exact ⟨hs, hl⟩
  · rintro ⟨hs, hl⟩
    exact ⟨_, hs, _, hl, rfl⟩

theorem resume_eq_some :
    s.step (.resume i) = some s' ↔ s'.sched = s.sched ∧ s.sMutexRW.step (.resume i) = some s'.sMutexRW := by
  simp only [step, Option.map_eq_some_iff]
  constructor
  · rintro ⟨lock, hl, rfl⟩
    exact ⟨rfl, hl⟩
  · rintro ⟨hs, hl⟩
    exact ⟨_, hl, by rw [← hs]⟩

omit [DecidableEq τ] [DecidableEq σ] in
theorem thread?_eq_some : thread? n k = some i ↔ k = i := by
  unfold thread?
  split
  next h =>
    constructor
    · rintro heq
      cases heq
      rfl
    · intro heq
      simp [heq]
  next h =>
    constructor
    · intro heq
      cases heq
    · intro heq
      exact absurd (heq ▸ i.isLt) h

@[simp] theorem thread?_self : thread? n i = some i := thread?_eq_some.2 rfl

omit [DecidableEq τ] [DecidableEq σ] in
theorem unlock_eq_some {pick : Option (Fin n)} {lock : Locked (Fin n)} (hu : s.unlock i pick = some lock) :
    s.sMutexRW.CanPick pick ∧ lock = (s.sMutexRW.setSpot i .out).unlock pick := by
  unfold TaskPool.unlock at hu
  split at hu
  next hp => exact ⟨hp, (Option.some.inj hu).symm⟩
  next => cases hu

omit [DecidableEq τ] [DecidableEq σ] in
theorem lockStep_begin (h : s.lockStep pick (.begin k) = some s'.sMutexRW) : ∃ i : Fin n, k = i ∧
    s.sMutexRW.step (if s.writeLock k then .lockWrite i else .lockRead i) = some s'.sMutexRW := by
  obtain ⟨i, hi, hl⟩ := Option.bind_eq_some_iff.1 h
  exact ⟨i, thread?_eq_some.1 hi, hl⟩

omit [DecidableEq τ] [DecidableEq σ] in
theorem lockStep_ret {r : Int} (h : s.lockStep pick (.ret k r) = some s'.sMutexRW) : ∃ i : Fin n, k = i ∧
    s.blocked i = false ∧ s.unlock i pick = some s'.sMutexRW := by
  obtain ⟨i, hi, hl⟩ := Option.bind_eq_some_iff.1 h
  split at hl
  next => cases hl
  next hb => exact ⟨i, thread?_eq_some.1 hi, Bool.not_eq_true _ ▸ hb, hl⟩

omit [DecidableEq τ] [DecidableEq σ] in
theorem lockStep_globalUnlock (h : s.lockStep pick (.globalUnlock k) = some s'.sMutexRW) : ∃ i : Fin n, k = i ∧
    s.blocked i = false ∧ (if s.writeLock k then s.unlock i pick else some s.sMutexRW) = some s'.sMutexRW := by
  obtain ⟨i, hi, hl⟩ := Option.bind_eq_some_iff.1 h
  split at hl
  next => cases hl
  next hb => exact ⟨i, thread?_eq_some.1 hi, Bool.not_eq_true _ ▸ hb, hl⟩

omit [DecidableEq τ] [DecidableEq σ] in
/-- What a thread in `Run` does without the lock. -/
theorem lockStep_inRun (h : (thread? n k).bind (fun i => if s.blocked i then none else some s.sMutexRW) =
    some s'.sMutexRW) : ∃ i : Fin n, k = i ∧ s.blocked i = false ∧ s'.sMutexRW = s.sMutexRW := by
  obtain ⟨i, hi, hl⟩ := Option.bind_eq_some_iff.1 h
  split at hl
  next => cases hl
  next hb => exact ⟨i, thread?_eq_some.1 hi, Bool.not_eq_true _ ▸ hb, (Option.some.inj hl).symm⟩

end TaskPool

end ToolLib.Common
