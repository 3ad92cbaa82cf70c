import Mathlib.Logic.Function.Basic
import ToolLib.Base.System
import ToolLib.Simple.ObjectQueue

/-!
# The timers

`TimeManager` and `TimeoutJob` (TimeManager.cpp, TimeoutJob.cpp). One action for each point at which something outside
decides: the clock moves, `TimeManager::Processor` is called, the `Processor` of a job returns, and what users do between
the calls and inside of the `Processor` of a job. Times are microseconds.

`Record` holds what the statements of the following files speak of. The code keeps none of it.
-/

namespace ToolLib.Simple

open ToolLib.Base

structure TimeoutJob where
  timeout : UInt64
  currentTimeout : UInt64
  deriving DecidableEq

namespace TimeoutJob

/-- The constructor. -/
def new (mSec : UInt64) : TimeoutJob := ⟨mSec * 1000, 0⟩

def setScheduleTime (job : TimeoutJob) (mSec : UInt64) : TimeoutJob := { job with timeout := mSec * 1000 }

def getScheduleTime (job : TimeoutJob) : UInt64 := job.timeout

def addCurrentScheduleTime (job : TimeoutJob) (t : UInt64) : TimeoutJob :=
  { job with currentTimeout := job.currentTimeout + t }

def getCurrentScheduleTime (job : TimeoutJob) : UInt64 := job.currentTimeout

def refreshCurrentScheduleTime (job : TimeoutJob) : TimeoutJob := { job with currentTimeout := 0 }

end TimeoutJob

structure TimeManager (ι : Type*) where
  timeoutQueue : List ι
  fLastSyncTime : UInt64
  delJob : Bool

/-- The constructor. -/
def TimeManager.new {ι : Type*} : TimeManager ι := ⟨[], 0, false⟩

/-- Where `TimeManager::Processor` is: not called; in front of `synchronizeAndHandle`; in the walk over the queue, which
adds `timeSinceLastSync` to every job, in front of the job `cur`; or in the `Processor` of `cur`. -/
inductive Place (ι : Type*)
  | idle
  | sync
  | walk (cur : ι) (timeSinceLastSync : UInt64)
  | running (cur : ι) (timeSinceLastSync : UInt64)
  deriving DecidableEq

/-- An invocation of the `Processor` of a job: the time it counts from (the time the job was added, or the time of the
invocation before), the time of the invocation, and the schedule time of the job. -/
structure Invocation (ι : Type*) where
  job : ι
  since : UInt64
  time : UInt64
  schedule : UInt64
  deriving DecidableEq

/-- `base` and `old` are the last synchronisation and the accumulated times when `TimeManager::Processor` was called,
`still` the jobs that have been queued since then and `fired` those that fired and were reset since then. `since` is the
time each job was added or invoked last, and `invocations` lists all invocations. -/
structure Record (ι : Type*) where
  base : UInt64
  old : ι → UInt64
  still : List ι
  fired : List ι
  since : ι → UInt64
  invocations : List (Invocation ι)

structure Timers (ι : Type*) where
  manager : TimeManager ι
  job : ι → TimeoutJob
  deleted : List ι
  place : Place ι
  now : UInt64
  record : Record ι

inductive Timing (ι : Type*)
  /-- The clock shows `t`. -/
  | tick (t : UInt64)
  | setScheduleTime (j : ι) (mSec : UInt64)
  | addElem (j : ι)
  | delElem (j : ι)
  | processor
  | synchronizeAndHandle
  | visit
  /-- The `Processor` of the job returns. -/
  | ret (r : Int)

namespace Timers

variable {ι : Type*} [DecidableEq ι]

/-- Code of the user runs. -/
def Open (s : Timers ι) : Prop := match s.place with
  | .idle | .running _ _ => True
  | .sync | .walk _ _ => False

instance (s : Timers ι) : Decidable s.Open := by
  unfold Open
  cases s.place <;> infer_instance

/-- The job whose `Processor` runs. -/
def current (s : Timers ι) : Option ι := match s.place with
  | .running cur _ => some cur
  | _ => none

def setJob (s : Timers ι) (j : ι) (job : TimeoutJob) : Timers ι := { s with job := Function.update s.job j job }

/-- `addElem`; adding a queued job does nothing. -/
def addElem (s : Timers ι) (j : ι) : Timers ι :=
  { s with
    manager := { s.manager with timeoutQueue := ObjectQueue.enQueue s.manager.timeoutQueue j }
    record := { s.record with
      since := if j ∈ s.manager.timeoutQueue then s.record.since else Function.update s.record.since j s.now } }

def delElem (s : Timers ι) (j : ι) : Timers ι :=
  { s with
    manager := { s.manager with timeoutQueue := ObjectQueue.remove s.manager.timeoutQueue j }
    record := { s.record with still := ObjectQueue.remove s.record.still j } }

/-- `Processor` is called. -/
def processor (s : Timers ι) : Timers ι :=
  { s with
    place := .sync
    record := { s.record with
      base := s.manager.fLastSyncTime
      old := fun j => (s.job j).currentTimeout
      still := s.manager.timeoutQueue
      fired := [] } }

/-- The loop of `Processor`: back to `synchronizeAndHandle` when a job was deleted. -/
def endPass (s : Timers ι) : Timers ι :=
  if s.manager.delJob then { s with manager := { s.manager with delJob := false }, place := .sync }
  else { s with place := .idle }

/-- On to the next job of the queue, if there is one. -/
def goto (s : Timers ι) (cur : Option ι) (timeSinceLastSync : UInt64) : Timers ι :=
  match cur with
  | some j => { s with place := .walk j timeSinceLastSync }
  | none => s.endPass

/-- `synchronizeAndHandle` up to its loop. -/
def synchronize (s : Timers ι) : Timers ι :=
  let timeNow := s.now
  if timeNow < s.manager.fLastSyncTime then
    { s with manager := { s.manager with fLastSyncTime := timeNow } }.endPass
  else
    let timeSinceLastSync := timeNow - s.manager.fLastSyncTime
    { s with manager := { s.manager with fLastSyncTime := timeNow } }.goto
      (ObjectQueue.getHead s.manager.timeoutQueue) timeSinceLastSync

/-- The job's `Processor` is called. -/
def invoke (s : Timers ι) (cur : ι) (timeSinceLastSync : UInt64) : Timers ι :=
  { s with
    place := .running cur timeSinceLastSync
    record := { s.record with
      since := Function.update s.record.since cur s.now
      invocations := s.record.invocations ++ [⟨cur, s.record.since cur, s.now, (s.job cur).getScheduleTime⟩] } }

/-- The body of the loop, up to the call of the job's `Processor`. -/
def visit (s : Timers ι) (cur : ι) (timeSinceLastSync : UInt64) : Timers ι :=
  let theJob := (s.job cur).addCurrentScheduleTime timeSinceLastSync
  if theJob.getCurrentScheduleTime ≥ theJob.getScheduleTime then (s.setJob cur theJob).invoke cur timeSinceLastSync
  else (s.setJob cur theJob).goto (ObjectQueue.next s.manager.timeoutQueue cur) timeSinceLastSync

/-- The job is done: it is removed and deleted, and the walk is left. -/
def finish (s : Timers ι) (cur : ι) : Timers ι :=
  { s with
    manager := { s.manager with
      timeoutQueue := ObjectQueue.remove s.manager.timeoutQueue cur
      delJob := true }
    deleted := cur :: s.deleted
    record := { s.record with still := ObjectQueue.remove s.record.still cur } }.endPass

/-- The job stays: its accumulated time is reset, and the walk goes on. -/
def refresh (s : Timers ι) (cur : ι) (timeSinceLastSync : UInt64) : Timers ι :=
  { s.setJob cur (s.job cur).refreshCurrentScheduleTime with
    record := { s.record with fired := cur :: s.record.fired } }.goto
      (ObjectQueue.next s.manager.timeoutQueue cur) timeSinceLastSync

def step (s : Timers ι) : Timing ι → Option (Timers ι)
  | .tick t => if s.now ≤ t then some { s with now := t } else none
  | .setScheduleTime j mSec => if s.Open then some (s.setJob j ((s.job j).setScheduleTime mSec)) else none
  -- a deleted job is not added, and no job takes itself out while it runs
  | .addElem j => if s.Open ∧ j ∉ s.deleted then some (s.addElem j) else none
  | .delElem j => if s.Open ∧ s.current ≠ some j then some (s.delElem j) else none
  | .processor => match s.place with
    | .idle => some s.processor
    | _ => none
  | .synchronizeAndHandle => match s.place with
    | .sync => some s.synchronize
    | _ => none
  | .visit => match s.place with
    | .walk cur d => some (s.visit cur d)
    | _ => none
  | .ret r => match s.place with
    | .running cur d => some (if r = 0 then s.finish cur else s.refresh cur d)
    | _ => none

@[simp] theorem setJob_same (s : Timers ι) (j : ι) (job : TimeoutJob) : (s.setJob j job).job j = job := by
  simp [setJob]

theorem setJob_other (s : Timers ι) {j k : ι} (h : k ≠ j) (job : TimeoutJob) : (s.setJob j job).job k = s.job k := by
  simp [setJob, Function.update_of_ne h]

theorem visit_due {s : Timers ι} {cur : ι} {d : UInt64} (h : (s.job cur).timeout ≤ (s.job cur).currentTimeout + d) :
    s.visit cur d = (s.setJob cur ((s.job cur).addCurrentScheduleTime d)).invoke cur d := if_pos h

theorem visit_early {s : Timers ι} {cur : ι} {d : UInt64} (h : ¬ (s.job cur).timeout ≤ (s.job cur).currentTimeout + d) :
    s.visit cur d = (s.setJob cur ((s.job cur).addCurrentScheduleTime d)).goto
      (ObjectQueue.next s.manager.timeoutQueue cur) d := if_neg h

omit [DecidableEq ι] in
theorem endPass_of_not {s : Timers ι} (h : s.manager.delJob = false) : s.endPass = { s with place := .idle } := by
  simp [endPass, h]

end Timers

end ToolLib.Simple
