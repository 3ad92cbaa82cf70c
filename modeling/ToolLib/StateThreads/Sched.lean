import ToolLib.StateThreads.VP
import ToolLib.StateThreads.HeapDelete
import ToolLib.Base.System

/-!
# The scheduler

One step is what the running thread does until its call returns, or until another thread has the processor. `Allowed` is
what the library leaves to its callers: a thread that is named exists, an address for a new thread is free, and the
termination condition variables (`isTerm`) are the library's own.

`Inv s r` is the invariant of all runs, where `r` is the thread whose state is `_ST_ST_RUNNING`: none while the processor
changes hands. Every thread that exists is exactly where its state says: the runnable ones on the run queue, the sleeping
ones in the timeout heap, and so on; a thread that has been woken stays on the wait queue of its call until it runs.
-/

namespace ToolLib.StateThreads

open Base

variable {ν μ κ : Type}

/-- What the running thread does: it calls something, it goes on inside its call (`resume`), or it is the idle thread and
makes a turn. -/
inductive Act (ν μ κ : Type)
  | poll (timeout : UInt64) (added : Bool)
  | usleep (usecs : UInt64)
  | wait (cvar : κ) (timeout : UInt64)
  | signal (cvar : κ)
  | broadcast (cvar : κ)
  | lock (lock : μ)
  | unlock (lock : μ)
  | trylock (lock : μ)
  | interrupt (thread : ν)
  | create (thread : ν) (term : Option κ)
  | exit (retval : Nat)
  | join (thread : ν)
  | resume
  | idle (ready : ν → Nat) (now : UInt64)

/-- Calls that look at the interrupt flag first. -/
def Act.Blocks : Act ν μ κ → Prop
  | .poll .. | .usleep _ | .wait .. | .lock _ | .join _ => True
  | _ => False

/-- Calls that may return an error at once, and when those about a mutex do. -/
def Act.Refused (this : ν) (owner : μ → Option ν) : Act ν μ κ → Prop
  | .poll .. | .join _ => True
  | .lock m => owner m = some this
  | .trylock m => owner m ≠ none
  | .unlock m => owner m ≠ some this
  | _ => False

/-- The states that go with a place in the code. -/
def Fits : Pc ν μ κ → ThreadState → Prop
  | .user, st => st = .running ∨ st = .runnable
  | .idle, st => st = .running ∨ st = .runnable
  | .poll, st => st = .running ∨ st = .runnable ∨ st = .ioWait
  | .usleep, st => st = .running ∨ st = .runnable ∨ st = .sleeping ∨ st = .suspended
  | .wait _, st => st = .running ∨ st = .runnable ∨ st = .condWait
  | .join .., st => st = .running ∨ st = .runnable ∨ st = .condWait
  | .lock _, st => st = .running ∨ st = .runnable ∨ st = .lockWait
  | .exit, st => st = .running ∨ st = .runnable ∨ st = .zombie
  | .gone, _ => True

theorem fits_running (pc : Pc ν μ κ) : Fits pc .running := by cases pc <;> simp [Fits]

theorem fits_runnable (pc : Pc ν μ κ) : Fits pc .runnable := by cases pc <;> simp [Fits]

theorem fits_zombie {pc : Pc ν μ κ} (h : Fits pc .zombie) : pc = .exit ∨ pc = .gone := by
  cases pc <;> simp_all [Fits]

namespace VP

variable [DecidableEq ν] [DecidableEq μ] [DecidableEq κ]

/-- The thread goes on inside its call. -/
def resume (s : VP ν μ κ) : Option (VP ν μ κ × Option Ret) :=
  match s.pc s.this with
  | .poll => s.stPollResume
  | .usleep => s.stUsleepResume
  | .wait cvar => do
    let (s, rv) ← s.stCondTimedwaitResume cvar
    match rv with
    | some e => s.ret (.error e)
    | none => s.ret (.ok 0)
  | .join thread term => s.stThreadJoinResume thread term
  | .lock lock => s.stMutexLockResume lock
  | .exit => s.stThreadExitResume
  | .user | .idle | .gone => none

def step (s : VP ν μ κ) : Act ν μ κ → Option (VP ν μ κ × Option Ret)
  | .poll timeout added => s.stPoll timeout added
  | .usleep usecs => s.stUsleep usecs
  | .wait cvar timeout => s.stCondTimedwait cvar timeout (.wait cvar)
  | .signal cvar => (s.condSignal cvar false).bind (·.ret (.ok 0))
  | .broadcast cvar => (s.condSignal cvar true).bind (·.ret (.ok 0))
  | .lock lock => s.stMutexLock lock
  | .unlock lock => s.stMutexUnlock lock
  | .trylock lock => s.stMutexTrylock lock
  | .interrupt thread => (s.stThreadInterrupt thread).bind (·.ret (.ok 0))
  | .create thread term => (s.stThreadCreate thread term).ret (.ok 0)
  | .exit retval => s.stThreadExit retval
  | .join thread => s.stThreadJoin thread
  | .resume => s.resume
  | .idle ready now => s.idleTurn ready now

/-- What the library leaves to its callers, and who acts next. -/
def Allowed (isTerm : κ → Prop) (s : VP ν μ κ) : Act ν μ κ → Prop
  | .poll .. | .usleep _ | .lock _ | .unlock _ | .trylock _ | .exit _ => s.pc s.this = .user
  | .wait cvar _ | .signal cvar | .broadcast cvar => s.pc s.this = .user ∧ ¬ isTerm cvar
  | .interrupt thread | .join thread => s.pc s.this = .user ∧ s.pc thread ≠ .gone ∧ thread ≠ s.idleThread
  | .create thread term => s.pc s.this = .user ∧ s.pc thread = .gone ∧
      ∀ c, term = some c → isTerm c ∧ s.condQ c = [] ∧ ∀ t, s.pc t ≠ .gone → s.term t ≠ some c
  | .resume => s.pc s.this ≠ .user ∧ s.pc s.this ≠ .idle
  | .idle .. => s.pc s.this = .idle ∧ 0 < s.activeCount

/-- The state after `st_init`, at the time `now`: `main` is the primordial thread. -/
def init (idleThread main : ν) (now : UInt64) : VP ν μ κ where
  root := none
  left _ := none
  right _ := none
  due _ := 0
  heapIndex _ := 0
  sleepqSize := 0
  lastClock := now
  onSleepq _ := false
  state t := if t = idleThread then .runnable else .running
  interrupt _ := false
  timedout _ := false
  pc t := if t = idleThread then .idle else if t = main then .user else .gone
  term _ := none
  retval _ := 0
  onIoq _ := false
  revents _ := 0
  runQ := []
  ioQ := []
  zombieQ := []
  owner _ := none
  lockQ _ := []
  condQ _ := []
  this := main
  idleThread := idleThread
  activeCount := 1

/-- The invariant; `r` is the thread that runs. -/
structure Inv (isTerm : κ → Prop) (s : VP ν μ κ) (r : Option ν) : Prop where
  fits : ∀ t, Fits (s.pc t) (s.state t)
  running : ∀ t, s.pc t ≠ .gone → (s.state t = .running ↔ r = some t)
  idle : ∀ t, s.pc t = .idle ↔ t = s.idleThread
  runQ : ∀ t, t ∈ s.runQ ↔ s.state t = .runnable ∧ s.pc t ≠ .gone ∧ t ≠ s.idleThread
  runQ_nodup : s.runQ.Nodup
  zombieQ : ∀ t, t ∈ s.zombieQ ↔ s.state t = .zombie ∧ s.pc t ≠ .gone
  zombieQ_nodup : s.zombieQ.Nodup
  ioQ : ∀ t, t ∈ s.ioQ ↔ s.onIoq t = true
  ioQ_nodup : s.ioQ.Nodup
  onIoq : ∀ t, s.onIoq t = true → s.pc t = .poll
  ioWait : ∀ t, s.state t = .ioWait → s.pc t ≠ .gone → s.onIoq t = true
  sleepq : ∃ T, IsHeap s.toSleepQ T ∧ ∀ t, t ∈ nodes T ↔ s.onSleepq t = true
  onSleepq : ∀ t, s.onSleepq t = true →
    s.pc t ≠ .gone ∧ (∀ u c, s.pc t ≠ .join u c) ∧ (s.state t = .ioWait ∨ s.state t = .condWait ∨ s.state t = .sleeping)
  sleeping : ∀ t, s.state t = .sleeping → s.pc t ≠ .gone → s.onSleepq t = true
  timedout : ∀ t, s.timedout t = true → (∃ c, s.pc t = .wait c) ∧ (s.state t = .runnable ∨ s.state t = .running)
  lockQ : ∀ m t, t ∈ s.lockQ m ↔ s.pc t = .lock m
  lockQ_nodup : ∀ m, (s.lockQ m).Nodup
  /-- a free mutex has no thread in `_ST_ST_LOCK_WAIT` -/
  unlocked : ∀ m t, s.owner m = none → s.pc t = .lock m → s.state t ≠ .lockWait
  /-- the owner of a mutex does not wait for it -/
  handed : ∀ m t, s.owner m = some t → s.pc t = .lock m → s.state t ≠ .lockWait
  /-- who has been woken in `st_mutex_lock` has got the mutex or was interrupted -/
  woken : ∀ m t, s.pc t = .lock m → s.state t ≠ .lockWait → s.owner m = some t ∨ s.interrupt t = true
  condQ : ∀ c t, t ∈ s.condQ c ↔ s.pc t = .wait c ∨ ∃ u, s.pc t = .join u c
  condQ_nodup : ∀ c, (s.condQ c).Nodup
  wait : ∀ c t, s.pc t = .wait c → ¬ isTerm c
  term : ∀ c t, s.pc t ≠ .gone → s.term t = some c → isTerm c
  term_unique : ∀ c t u, s.pc t ≠ .gone → s.pc u ≠ .gone → s.term t = some c → s.term u = some c → t = u
  join : ∀ c t u, s.pc t = .join u c → isTerm c
  /-- who waits on the termination condition variable of a thread waits to join this thread, and is the only one -/
  joiner : ∀ c t u v, s.pc u ≠ .gone → s.term u = some c → s.pc t = .join v c → v = u
  joiner_unique : ∀ c t u x, s.pc u ≠ .gone → s.term u = some c → s.pc t = .join u c → s.pc x = .join u c → x = t
  /-- who has been woken in `st_thread_join` finds the thread as a zombie, or was interrupted -/
  joined : ∀ c t u, s.pc t = .join u c → s.state t ≠ .condWait → s.interrupt t = true ∨
    (s.state u = .zombie ∧ s.pc u = .exit ∧ s.term u = some c)
  /-- a zombie has no thread in `_ST_ST_COND_WAIT` that waits to join it -/
  zombie : ∀ c t u, s.state u = .zombie → s.pc u = .exit → s.term u = some c → s.pc t = .join u c → s.state t ≠ .condWait
  active : ∃ l : List ν, l.Nodup ∧ (∀ t, t ∈ l ↔ s.pc t ≠ .gone ∧ s.pc t ≠ .idle ∧ s.pc t ≠ .exit) ∧
    s.activeCount = l.length

/-! ## What a step does -/

/-- What only the calls about it change. -/
structure Same (s s' : VP ν μ κ) : Prop where
  this : s'.this = s.this
  idleThread : s'.idleThread = s.idleThread
  pc : s'.pc = s.pc
  interrupt : s'.interrupt = s.interrupt
  term : s'.term = s.term
  retval : s'.retval = s.retval
  zombieQ : s'.zombieQ = s.zombieQ
  owner : s'.owner = s.owner
  lockQ : s'.lockQ = s.lockQ
  condQ : s'.condQ = s.condQ

/-- `s'` comes from `s` by waking the threads `added`, in this order. -/
structure Woke (s s' : VP ν μ κ) (added : List ν) : Prop extends Same s s' where
  runQ : s'.runQ = s.runQ ++ added
  state : ∀ t, s'.state t = if t ∈ added then .runnable else s.state t
  waits : ∀ t ∈ added, s.state t = .ioWait ∨ s.state t = .condWait ∨ s.state t = .sleeping
  timedout : ∀ t, s.timedout t = true → s'.timedout t = true

/-- The threads that wait for the condition variable, in the order in which they have begun to wait. -/
def waitingFor (s : VP ν μ κ) (cvar : κ) : List ν := (s.condQ cvar).filter fun t => s.state t = .condWait

/-- The state in which a call returns, or in which the processor changes hands, and what the call returns or where it goes
on. -/
inductive Did (s : VP ν μ κ) : Act ν μ κ → VP ν μ κ → Ret ⊕ Pc ν μ κ → Prop
  | error (a e) (ha : a.Refused s.this s.owner) : Did s a s (.inl (.error e))
  | interrupted (a) (ha : a.Blocks) (hi : s.interrupt s.this = true) :
      Did s a (s.setInterrupt s.this false) (.inl (.error .EINTR))
  | poll (timeout h') : Did s (.poll timeout true)
      { s with
        toSleepQ := h', state := Function.update s.state s.this .ioWait, onIoq := Function.update s.onIoq s.this true
        ioQ := s.ioQ ++ [s.this] } (.inr .poll)
  | usleep (usecs h' st) (hst : st = .sleeping ∨ st = .suspended) : Did s (.usleep usecs)
      { s with toSleepQ := h', state := Function.update s.state s.this st } (.inr .usleep)
  | wait (c timeout h') (hi : s.interrupt s.this = false) : Did s (.wait c timeout)
      { s with
        toSleepQ := h', state := Function.update s.state s.this .condWait
        condQ := Function.update s.condQ c (s.condQ c ++ [s.this]) } (.inr (.wait c))
  | signal (c s₁) (h : Woke s s₁ ((s.waitingFor c).take 1)) : Did s (.signal c) s₁ (.inl (.ok 0))
  | broadcast (c s₁) (h : Woke s s₁ (s.waitingFor c)) : Did s (.broadcast c) s₁ (.inl (.ok 0))
  | acquire (a m) (ha : a = .lock m ∧ s.interrupt s.this = false ∨ a = .trylock m) (hfree : s.owner m = none) :
      Did s a (s.setOwner m (some s.this)) (.inl (.ok 0))
  | lock (m) (hi : s.interrupt s.this = false) (howner : s.owner m ≠ none ∧ s.owner m ≠ some s.this) : Did s (.lock m)
      { s with
        state := Function.update s.state s.this .lockWait, lockQ := Function.update s.lockQ m (s.lockQ m ++ [s.this]) }
      (.inr (.lock m))
  | free (m) (howner : s.owner m = some s.this) (hno : ∀ t ∈ s.lockQ m, s.state t ≠ .lockWait) :
      Did s (.unlock m) (s.setOwner m none) (.inl (.ok 0))
  | handOff (m t q q') (howner : s.owner m = some s.this) (hq : s.lockQ m = q ++ t :: q')
      (hno : ∀ x ∈ q, s.state x ≠ .lockWait) (ht : s.state t = .lockWait) :
      Did s (.unlock m) ((s.setOwner m (some t)).makeRunnable t) (.inl (.ok 0))
  | ignored (t) (ht : s.state t = .zombie) : Did s (.interrupt t) s (.inl (.ok 0))
  | flagged (t) (ht : s.state t = .running ∨ s.state t = .runnable) : Did s (.interrupt t) (s.setInterrupt t true) (.inl (.ok 0))
  | woken (t h') (ht : s.state t ≠ .zombie ∧ s.state t ≠ .running ∧ s.state t ≠ .runnable) : Did s (.interrupt t)
      ({ s.setInterrupt t true with toSleepQ := h' }.makeRunnable t) (.inl (.ok 0))
  | create (t o) : Did s (.create t o) (s.stThreadCreate t o) (.inl (.ok 0))
  | exit (n c st w) (hc : s.term s.this = some c)
      (hst : ∀ t, st t = if t = s.this then .zombie else if t ∈ w then .runnable else s.state t)
      (hw : ∀ t ∈ w, s.pc t = .join s.this c ∧ s.state t = .condWait) : Did s (.exit n)
      { s with
        state := st, zombieQ := s.zombieQ ++ [s.this], runQ := s.runQ ++ w, retval := Function.update s.retval s.this n
        activeCount := s.activeCount - 1 } (.inr .exit)
  | exitNow (n) (hc : s.term s.this = none) : Did s (.exit n)
      { s with retval := Function.update s.retval s.this n, activeCount := s.activeCount - 1 } (.inr .gone)
  | join (t c h') (hc : s.term t = some c) (ht : s.state t ≠ .zombie) : Did s (.join t)
      { s with
        toSleepQ := h', state := Function.update s.state s.this .condWait
        condQ := Function.update s.condQ c (s.condQ c ++ [s.this]) } (.inr (.join t c))
  | joined (t) (ht : s.state t = .zombie) : Did s (.join t)
      ({ s with zombieQ := s.zombieQ.erase t }.makeRunnable t) (.inl (.ok (s.retval t)))
  | leavePoll (x onIoq ioQ f) (hpc : s.pc s.this = .poll) (hf : ∀ t, t ≠ s.this → f t = s.interrupt t) :
      Did s .resume { s with onIoq := onIoq, ioQ := ioQ, interrupt := f } (.inl x)
  | leaveUsleep (x f) (hpc : s.pc s.this = .usleep) (hf : ∀ t, t ≠ s.this → f t = s.interrupt t) :
      Did s .resume { s with interrupt := f } (.inl x)
  | leaveWait (c f g x) (hpc : s.pc s.this = .wait c) (hg : ∀ t, t ≠ s.this → g t = s.interrupt t)
      (hf : ∀ t, f t = if t = s.this then false else s.timedout t)
      (hx : x = if s.interrupt s.this then .error .EINTR else if s.timedout s.this then .error .ETIME else .ok 0) :
      Did s .resume { s with
        condQ := Function.update s.condQ c ((s.condQ c).erase s.this), timedout := f, interrupt := g } (.inl x)
  | leaveJoin (t c f g e) (hpc : s.pc s.this = .join t c) (hg : ∀ t, t ≠ s.this → g t = s.interrupt t)
      (hf : ∀ t, f t = if t = s.this then false else s.timedout t) : Did s .resume
      { s with
        condQ := Function.update s.condQ c ((s.condQ c).erase s.this), timedout := f, interrupt := g } (.inl (.error e))
  | leaveJoined (t c f g) (hpc : s.pc s.this = .join t c) (hg : ∀ t, t ≠ s.this → g t = s.interrupt t)
      (hf : ∀ t, f t = if t = s.this then false else s.timedout t) (ht : s.state t = .zombie ∧ s.pc t = .exit) : Did s .resume
      ({ s with
        condQ := Function.update s.condQ c ((s.condQ c).erase s.this), timedout := f, interrupt := g
        zombieQ := s.zombieQ.erase t }.makeRunnable t) (.inl (.ok (s.retval t)))
  | leaveLock (m f x) (hpc : s.pc s.this = .lock m) (hf : ∀ t, t ≠ s.this → f t = s.interrupt t)
      (hx : x = if s.interrupt s.this ∧ s.owner m ≠ some s.this then .error .EINTR else .ok 0) : Did s .resume
      { s with interrupt := f, lockQ := Function.update s.lockQ m ((s.lockQ m).erase s.this) } (.inl x)
  | leaveExit (hpc : s.pc s.this = .exit) :
      Did s .resume { s with term := Function.update s.term s.this none } (.inr .gone)
  | idle (ready now s₁ added) (h : Woke s s₁ added)
      (htime : ∀ t ∈ added, s.state t = .condWait → s₁.timedout t = true) :
      Did s (.idle ready now) (s₁.setState s₁.this .runnable) (.inr .idle)

/-- The call returns, or another thread has the processor. -/
def Ends (s : VP ν μ κ) : Ret ⊕ Pc ν μ κ → VP ν μ κ → Option Ret → Prop
  | .inl x, s', r => s' = s.setPc s.this .user ∧ r = some x
  | .inr pc, s', r => (s.setPc s.this pc).vpSchedule = some s' ∧ r = none

end VP

end ToolLib.StateThreads
