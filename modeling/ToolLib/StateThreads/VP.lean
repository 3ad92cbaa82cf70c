import ToolLib.StateThreads.TimeoutHeap

/-!
# The virtual processor

State Threads runs all threads on one processor (`common.h`, `sched.c`): a thread keeps the processor until it calls
something that blocks, and `_st_vp_schedule` then takes the next one off the run queue. A thread that has switched away
goes on inside the call it made, `Pc`, when it is scheduled again.

The circular lists are lists here, their first element at the head; `unlink` has no result when the element is not on the
list, where `ST_REMOVE_LINK` would write through stale pointers. The result `none` of the functions is such a fault: an
`ST_ASSERT` that fails, a link that is not there, or a fault of the timeout heap.
-/

namespace ToolLib.StateThreads

open Base

/-- `_ST_ST_RUNNING` to `_ST_ST_SUSPENDED`. -/
inductive ThreadState
  | running
  | runnable
  | ioWait
  | lockWait
  | condWait
  | sleeping
  | zombie
  | suspended
  deriving DecidableEq

/-- Where a thread goes on when it gets the processor: in the code that uses the library, or behind the
`_ST_SWITCH_CONTEXT` of the call that it is in. -/
inductive Pc (ν μ κ : Type)
  | user
  | idle
  | poll
  | usleep
  | wait (cvar : κ)
  /-- in `st_cond_timedwait` on the termination condition variable, called by `st_thread_join` -/
  | join (thread : ν) (term : κ)
  | lock (lock : μ)
  /-- in `st_thread_exit`, as a zombie that waits to be joined -/
  | exit
  /-- the thread does not exist: its stack, with the thread object on it, is free -/
  | gone
  deriving DecidableEq

/-- The values of `errno`. -/
inductive Errno
  | EINTR
  | EINVAL
  | EDEADLK
  | EBUSY
  | EPERM
  | ETIME
  /-- what `pollset_add` of the event system has set -/
  | eventsys
  deriving DecidableEq

/-- What a call returns: a number that is not negative, or -1 with `errno`. -/
inductive Ret
  | ok (n : Nat)
  | error (e : Errno)
  deriving DecidableEq

/-- The virtual processor, with the threads of type `ν`, the mutexes of type `μ` and the condition variables of type `κ`.
`revents t` is the number of descriptors that the last dispatch has found ready for the `st_poll` of `t`. -/
structure VP (ν μ κ : Type) extends SleepQ ν where
  state : ν → ThreadState
  interrupt : ν → Bool
  timedout : ν → Bool
  pc : ν → Pc ν μ κ
  term : ν → Option κ
  retval : ν → Nat
  onIoq : ν → Bool
  revents : ν → Nat
  runQ : List ν
  ioQ : List ν
  zombieQ : List ν
  owner : μ → Option ν
  lockQ : μ → List ν
  condQ : κ → List ν
  this : ν
  idleThread : ν
  activeCount : Nat

/-- `ST_REMOVE_LINK`. -/
def unlink {α : Type} [DecidableEq α] (l : List α) (e : α) : Option (List α) := if e ∈ l then some (l.erase e) else none

/-- `ST_UTIME_NO_TIMEOUT`. -/
def noTimeout : UInt64 := 0xFFFFFFFFFFFFFFFF

namespace VP

variable {ν μ κ : Type} [DecidableEq ν]

def setState (s : VP ν μ κ) (t : ν) (st : ThreadState) : VP ν μ κ := { s with state := Function.update s.state t st }

def setPc (s : VP ν μ κ) (t : ν) (pc : Pc ν μ κ) : VP ν μ κ := { s with pc := Function.update s.pc t pc }

def setInterrupt (s : VP ν μ κ) (t : ν) (b : Bool) : VP ν μ κ := { s with interrupt := Function.update s.interrupt t b }

def setTimedout (s : VP ν μ κ) (t : ν) (b : Bool) : VP ν μ κ := { s with timedout := Function.update s.timedout t b }

/-- `_ST_ADD_SLEEPQ`. -/
def addSleepq (s : VP ν μ κ) (t : ν) (timeout : UInt64) : Option (VP ν μ κ) :=
  (s.toSleepQ.addSleepQ t timeout).map fun h => { s with toSleepQ := h }

/-- `_ST_DEL_SLEEPQ`. -/
def delSleepq (s : VP ν μ κ) (t : ν) : Option (VP ν μ κ) :=
  (s.toSleepQ.delSleepQ t).map fun h => { s with toSleepQ := h }

/-- `if (thread->flags & _ST_FL_ON_SLEEPQ) _ST_DEL_SLEEPQ(thread)`. -/
def offSleepq (s : VP ν μ κ) (t : ν) : Option (VP ν μ κ) := if s.onSleepq t then s.delSleepq t else some s

/-- "Make thread runnable". -/
def makeRunnable (s : VP ν μ κ) (t : ν) : VP ν μ κ := { s.setState t .runnable with runQ := s.runQ ++ [t] }

/-- `_st_vp_schedule`. -/
def vpSchedule (s : VP ν μ κ) : Option (VP ν μ κ) :=
  match s.runQ with
  | thread :: q =>
    if s.state thread = .runnable then some { s.setState thread .running with runQ := q, this := thread } else none
  | [] =>
    if s.state s.idleThread = .runnable then some { s.setState s.idleThread .running with this := s.idleThread } else none

/-- `_ST_SWITCH_CONTEXT` in a call that goes on at `pc`: the call has not returned. -/
def switchContext (s : VP ν μ κ) (pc : Pc ν μ κ) : Option (VP ν μ κ × Option Ret) :=
  (s.setPc s.this pc).vpSchedule.map (·, none)

/-- The call of the running thread returns. -/
def ret (s : VP ν μ κ) (r : Ret) : Option (VP ν μ κ × Option Ret) := some (s.setPc s.this .user, some r)

/-- `me->flags &= ~_ST_FL_INTERRUPT; errno = EINTR; return -1;` -/
def retInterrupted (s : VP ν μ κ) : Option (VP ν μ κ × Option Ret) := (s.setInterrupt s.this false).ret (.error .EINTR)

/-- `if (timeout != ST_UTIME_NO_TIMEOUT) _ST_ADD_SLEEPQ(me, timeout)`. -/
def startTimeout (s : VP ν μ κ) (timeout : UInt64) : Option (VP ν μ κ) :=
  if timeout = noTimeout then some s else s.addSleepq s.this timeout

/-! ## `st_poll` -/

/-- `st_poll` up to its switch; `added` says whether `pollset_add` has taken the descriptors. -/
def stPoll (s : VP ν μ κ) (timeout : UInt64) (added : Bool) : Option (VP ν μ κ × Option Ret) :=
  if s.interrupt s.this then s.retInterrupted
  else if !added then s.ret (.error .eventsys)
  else do
    let s := { s with onIoq := Function.update s.onIoq s.this true, ioQ := s.ioQ ++ [s.this] }
    let s ← s.startTimeout timeout
    (s.setState s.this .ioWait).switchContext .poll

/-- The rest of `st_poll`. -/
def stPollResume (s : VP ν μ κ) : Option (VP ν μ κ × Option Ret) := do
  let (s, n) ←
    -- If we timed out, the pollq might still be on the ioq. Remove it
    if s.onIoq s.this then (unlink s.ioQ s.this).map fun q =>
      ({ s with ioQ := q, onIoq := Function.update s.onIoq s.this false }, 0)
    else some (s, s.revents s.this)
  if s.interrupt s.this then s.retInterrupted else s.ret (.ok n)

/-! ## `st_usleep` -/

def stUsleep (s : VP ν μ κ) (usecs : UInt64) : Option (VP ν μ κ × Option Ret) :=
  if s.interrupt s.this then s.retInterrupted
  else if usecs = noTimeout then (s.setState s.this .suspended).switchContext .usleep
  else do
    let s ← (s.setState s.this .sleeping).addSleepq s.this usecs
    s.switchContext .usleep

def stUsleepResume (s : VP ν μ κ) : Option (VP ν μ κ × Option Ret) :=
  if s.interrupt s.this then s.retInterrupted else s.ret (.ok 0)

/-! ## Condition variables -/

variable [DecidableEq κ]

/-- `st_cond_timedwait` up to its switch, in a call that goes on at `pc`. -/
def stCondTimedwait (s : VP ν μ κ) (cvar : κ) (timeout : UInt64) (pc : Pc ν μ κ) : Option (VP ν μ κ × Option Ret) :=
  if s.interrupt s.this then s.retInterrupted
  else do
    let s := s.setState s.this .condWait
    let s := { s with condQ := Function.update s.condQ cvar (s.condQ cvar ++ [s.this]) }
    let s ← s.startTimeout timeout
    s.switchContext pc

/-- The rest of `st_cond_timedwait`: the state and the error, if there is one. -/
def stCondTimedwaitResume (s : VP ν μ κ) (cvar : κ) : Option (VP ν μ κ × Option Errno) := do
  let q ← unlink (s.condQ cvar) s.this
  let s := { s with condQ := Function.update s.condQ cvar q }
  let (s, rv) := if s.timedout s.this then (s.setTimedout s.this false, some Errno.ETIME) else (s, none)
  let (s, rv) := if s.interrupt s.this then (s.setInterrupt s.this false, some Errno.EINTR) else (s, rv)
  some (s, rv)

/-- The loop of `_st_cond_signal`, at the element `q` of the wait queue. -/
def condSignalFrom (broadcast : Bool) : List ν → VP ν μ κ → Option (VP ν μ κ)
  | [], s => some s
  | thread :: q, s =>
    if s.state thread = .condWait then do
      let s ← s.offSleepq thread
      let s := s.makeRunnable thread
      if broadcast then condSignalFrom broadcast q s else some s
    else condSignalFrom broadcast q s

/-- `_st_cond_signal`. -/
def condSignal (s : VP ν μ κ) (cvar : κ) (broadcast : Bool) : Option (VP ν μ κ) :=
  condSignalFrom broadcast (s.condQ cvar) s

/-! ## Mutexes -/

variable [DecidableEq μ]

def setOwner (s : VP ν μ κ) (lock : μ) (t : Option ν) : VP ν μ κ := { s with owner := Function.update s.owner lock t }

def stMutexLock (s : VP ν μ κ) (lock : μ) : Option (VP ν μ κ × Option Ret) :=
  if s.interrupt s.this then s.retInterrupted
  else if s.owner lock = none then (s.setOwner lock (some s.this)).ret (.ok 0)
  else if s.owner lock = some s.this then s.ret (.error .EDEADLK)
  else
    let s := s.setState s.this .lockWait
    { s with lockQ := Function.update s.lockQ lock (s.lockQ lock ++ [s.this]) }.switchContext (.lock lock)

/-- The rest of `st_mutex_lock`. -/
def stMutexLockResume (s : VP ν μ κ) (lock : μ) : Option (VP ν μ κ × Option Ret) := do
  let q ← unlink (s.lockQ lock) s.this
  let s := { s with lockQ := Function.update s.lockQ lock q }
  if s.interrupt s.this && decide (s.owner lock ≠ some s.this) then s.retInterrupted else s.ret (.ok 0)

/-- The loop of `st_mutex_unlock`, at the element `q` of the wait queue, and the end of the function. -/
def unlockFrom (lock : μ) : List ν → VP ν μ κ → VP ν μ κ
  | [], s => s.setOwner lock none
  | thread :: q, s =>
    if s.state thread = .lockWait then (s.setOwner lock (some thread)).makeRunnable thread else unlockFrom lock q s

def stMutexUnlock (s : VP ν μ κ) (lock : μ) : Option (VP ν μ κ × Option Ret) :=
  if s.owner lock ≠ some s.this then s.ret (.error .EPERM) else (unlockFrom lock (s.lockQ lock) s).ret (.ok 0)

def stMutexTrylock (s : VP ν μ κ) (lock : μ) : Option (VP ν μ κ × Option Ret) :=
  if s.owner lock ≠ none then s.ret (.error .EBUSY) else (s.setOwner lock (some s.this)).ret (.ok 0)

/-! ## Threads -/

/-- `st_thread_interrupt`. -/
def stThreadInterrupt (s : VP ν μ κ) (thread : ν) : Option (VP ν μ κ) :=
  if s.state thread = .zombie then some s
  else
    let s := s.setInterrupt thread true
    if s.state thread = .running ∨ s.state thread = .runnable then some s
    else (s.offSleepq thread).map (·.makeRunnable thread)

/-- `st_thread_create`: `thread` is the address of the new thread object, `term` that of the condition variable of a joinable
thread. -/
def stThreadCreate (s : VP ν μ κ) (thread : ν) (term : Option κ) : VP ν μ κ :=
  -- `memset(thread, 0, sizeof(_st_thread_t))`
  let s := { s with
    interrupt := Function.update s.interrupt thread false
    timedout := Function.update s.timedout thread false
    onSleepq := Function.update s.onSleepq thread false
    left := Function.update s.left thread none
    right := Function.update s.right thread none
    due := Function.update s.due thread 0
    heapIndex := Function.update s.heapIndex thread 0
    retval := Function.update s.retval thread 0 }
  let s := { s with
    term := Function.update s.term thread term
    condQ := match term with
      | some c => Function.update s.condQ c []
      | none => s.condQ }
  { (s.setPc thread .user).makeRunnable thread with activeCount := s.activeCount + 1 }

/-- The end of `st_thread_exit`: the stack is freed, and another thread runs. -/
def finish (s : VP ν μ κ) : Option (VP ν μ κ × Option Ret) := s.switchContext .gone

/-- `st_thread_exit` up to its switch, after the destructors of `_st_thread_cleanup`. -/
def stThreadExit (s : VP ν μ κ) (retval : Nat) : Option (VP ν μ κ × Option Ret) := do
  let s := { s with retval := Function.update s.retval s.this retval, activeCount := s.activeCount - 1 }
  match s.term s.this with
  | some term =>
    let s := { s.setState s.this .zombie with zombieQ := s.zombieQ ++ [s.this] }
    let s ← s.condSignal term false
    s.switchContext .exit
  | none => s.finish

/-- The rest of `st_thread_exit`. -/
def stThreadExitResume (s : VP ν μ κ) : Option (VP ν μ κ × Option Ret) :=
  { s with term := Function.update s.term s.this none }.finish

/-- The loop of `st_thread_join` and its end. -/
def joinLoop (s : VP ν μ κ) (thread : ν) (term : κ) : Option (VP ν μ κ × Option Ret) :=
  if s.state thread ≠ .zombie then s.stCondTimedwait term noTimeout (.join thread term)
  else do
    let value := s.retval thread
    let q ← unlink s.zombieQ thread
    ({ s with zombieQ := q }.makeRunnable thread).ret (.ok value)

/-- `st_thread_join` up to its switch; the result is the number in `*retvalp`. -/
def stThreadJoin (s : VP ν μ κ) (thread : ν) : Option (VP ν μ κ × Option Ret) :=
  match s.term thread with
  | none => s.ret (.error .EINVAL)
  | some term =>
    if s.this = thread then s.ret (.error .EDEADLK)
    else if s.condQ term ≠ [] then s.ret (.error .EINVAL)
    else s.joinLoop thread term

/-- The rest of `st_thread_join`. -/
def stThreadJoinResume (s : VP ν μ κ) (thread : ν) (term : κ) : Option (VP ν μ κ × Option Ret) := do
  let (s, rv) ← s.stCondTimedwaitResume term
  match rv with
  | some e => s.ret (.error e)
  | none => s.joinLoop thread term

/-! ## The idle thread -/

/-- The part of the event system's `dispatch` that wakes threads, at the element `q` of the io queue: `ready t` is the number
of descriptors of `t` with events. -/
def dispatchFrom (ready : ν → Nat) : List ν → VP ν μ κ → Option (VP ν μ κ)
  | [], s => some s
  | thread :: q, s =>
    if ready thread = 0 then dispatchFrom ready q { s with revents := Function.update s.revents thread 0 }
    else do
      let ioQ ← unlink s.ioQ thread
      let s := { s with
        revents := Function.update s.revents thread (ready thread)
        ioQ := ioQ
        onIoq := Function.update s.onIoq thread false }
      let s ← s.offSleepq thread
      dispatchFrom ready q (s.makeRunnable thread)

def dispatch (s : VP ν μ κ) (ready : ν → Nat) : Option (VP ν μ κ) := dispatchFrom ready s.ioQ s

/-- The loop of `_st_vp_check_clock`, with at most `n` turns. -/
def checkClockFrom (now : UInt64) : Nat → VP ν μ κ → Option (VP ν μ κ)
  | 0, _ => none
  | n + 1, s =>
    match s.root with
    | none => some s
    | some thread =>
      if !s.onSleepq thread then none
      else if now < s.due thread then some s
      else do
        let s ← s.delSleepq thread
        let s := if s.state thread = .condWait then s.setTimedout thread true else s
        if thread = s.idleThread then none else checkClockFrom now n (s.makeRunnable thread)

def vpCheckClock (s : VP ν μ κ) (now : UInt64) : Option (VP ν μ κ) :=
  checkClockFrom now (s.sleepqSize + 1) { s with lastClock := now }

/-- A turn of the loop of `_st_idle_thread_start`. -/
def idleTurn (s : VP ν μ κ) (ready : ν → Nat) (now : UInt64) : Option (VP ν μ κ × Option Ret) := do
  let s ← s.dispatch ready
  let s ← s.vpCheckClock now
  (s.setState s.this .runnable).switchContext .idle

end VP

end ToolLib.StateThreads
