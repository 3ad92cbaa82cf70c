import ToolLib.Base.Count
import ToolLib.Base.System

/-!
# The read-write lock

`OSMutexRW` (OSMutexRW.cpp, OSMutexRW.h) with the threads that use it. Everything a thread does with `fInternalLock`
held is one step. `fReadersCond.Wait` and `fWritersCond.Wait` give that lock away: the thread waits until it takes a
further step, in which it tests its condition again. It may take that step at any time, woken or not. A thread has the
lock once; one that takes the lock again while it has it counts as another thread.
-/

namespace ToolLib.Common

open ToolLib.Base

/-- The counters of the lock. -/
structure OSMutexRW where
  fState : Int
  fWriteWaiters : Int
  fReadWaiters : Int
  fActiveReaders : Int
  deriving DecidableEq

namespace OSMutexRW

def eActiveWriterState : Int := -1
def eNoWriterState : Int := 0

/-- The constructor. -/
def new : OSMutexRW := ⟨0, 0, 0, 0⟩

def adjustState (m : OSMutexRW) (i : Int) : OSMutexRW := { m with fState := m.fState + i }
def setState (m : OSMutexRW) (i : Int) : OSMutexRW := { m with fState := i }

def addWriteWaiter (m : OSMutexRW) : OSMutexRW := { m with fWriteWaiters := m.fWriteWaiters + 1 }
def removeWriteWaiter (m : OSMutexRW) : OSMutexRW := { m with fWriteWaiters := m.fWriteWaiters - 1 }
def addReadWaiter (m : OSMutexRW) : OSMutexRW := { m with fReadWaiters := m.fReadWaiters + 1 }
def removeReadWaiter (m : OSMutexRW) : OSMutexRW := { m with fReadWaiters := m.fReadWaiters - 1 }
def addActiveReader (m : OSMutexRW) : OSMutexRW := m.adjustState 1
def removeActiveReader (m : OSMutexRW) : OSMutexRW := m.adjustState (-1)

def waitingWriters (m : OSMutexRW) : Bool := m.fWriteWaiters > 0
def active (m : OSMutexRW) : Bool := m.fState ≠ 0
def activeReaders (m : OSMutexRW) : Bool := m.fState > 0
def activeWriter (m : OSMutexRW) : Bool := m.fState < 0

@[simp] theorem waitingWriters_iff {m : OSMutexRW} : m.waitingWriters = true ↔ 0 < m.fWriteWaiters := decide_eq_true_iff
@[simp] theorem active_iff {m : OSMutexRW} : m.active = true ↔ m.fState ≠ 0 := decide_eq_true_iff
@[simp] theorem activeReaders_iff {m : OSMutexRW} : m.activeReaders = true ↔ 0 < m.fState := decide_eq_true_iff
@[simp] theorem activeWriter_iff {m : OSMutexRW} : m.activeWriter = true ↔ m.fState < 0 := decide_eq_true_iff

/-- `fActiveReaders = fState`, the last statement of every function. -/
def noteState (m : OSMutexRW) : OSMutexRW := { m with fActiveReaders := m.fState }

end OSMutexRW

/-- Where a thread is: outside, waiting in `LockRead` or `LockWrite` (`woken` says whether it has been signalled since it
began to wait), or in possession of the lock. -/
inductive Spot
  | out
  | readWait (woken : Bool)
  | writeWait (woken : Bool)
  | reading
  | writing
  deriving DecidableEq

namespace Spot

def isReader : Spot → Bool
  | reading => true
  | _ => false

def isWriteWaiter : Spot → Bool
  | writeWait _ => true
  | _ => false

def isBlocked : Spot → Bool
  | readWait _ | writeWait _ => true
  | _ => false

def isWoken : Spot → Bool
  | readWait w | writeWait w => w
  | _ => false

/-- What `fReadersCond.Broadcast` does to a thread. -/
def broadcast : Spot → Spot
  | readWait _ => readWait true
  | p => p

end Spot

/-- The lock and its threads. -/
structure Locked (T : Type*) where
  lock : OSMutexRW
  spot : T → Spot

/-- What a thread does next. `pick` is the thread that a call of `fWritersCond.Signal` wakes. -/
inductive Move (T : Type*)
  | lockRead (t : T)
  | lockWrite (t : T)
  | tryLockRead (t : T)
  | tryLockWrite (t : T)
  | unlock (t : T) (pick : Option T)
  | resume (t : T)

namespace Locked

variable {T : Type*} [DecidableEq T]

/-- Nobody has the lock yet. -/
def new : Locked T := ⟨OSMutexRW.new, fun _ => .out⟩

def setSpot (s : Locked T) (t : T) (p : Spot) : Locked T := { s with spot := Function.update s.spot t p }

/-- The loop of `LockRead` from a test on, and what follows it. -/
def readLoop (s : Locked T) (t : T) : Locked T :=
  if s.lock.activeWriter || s.lock.waitingWriters then s.setSpot t (.readWait false)
  else { s.setSpot t .reading with lock := s.lock.removeReadWaiter.addActiveReader.noteState }

/-- The loop of `LockWrite` from a test on, and what follows it. -/
def writeLoop (s : Locked T) (t : T) : Locked T :=
  if s.lock.activeReaders then s.setSpot t (.writeWait false)
  else { s.setSpot t .writing with
    lock := (s.lock.removeWriteWaiter.setState OSMutexRW.eActiveWriterState).noteState }

def lockRead (s : Locked T) (t : T) : Locked T := readLoop { s with lock := s.lock.addReadWaiter } t

def lockWrite (s : Locked T) (t : T) : Locked T := writeLoop { s with lock := s.lock.addWriteWaiter } t

/-- `fWritersCond.Signal`. -/
def signalWriter (s : Locked T) : Option T → Locked T
  | some t => s.setSpot t (.writeWait true)
  | none => s

/-- `fReadersCond.Broadcast`. -/
def broadcastReaders (s : Locked T) : Locked T := { s with spot := fun t => (s.spot t).broadcast }

/-- `Unlock`; the thread is outside already. -/
def unlock (s : Locked T) (pick : Option T) : Locked T :=
  let s' :=
    if s.lock.activeWriter then
      let s := { s with lock := s.lock.setState OSMutexRW.eNoWriterState }
      if s.lock.waitingWriters then s.signalWriter pick else s.broadcastReaders
    else
      let s := { s with lock := s.lock.removeActiveReader }
      if !s.lock.activeReaders then signalWriter { s with lock := s.lock.setState OSMutexRW.eNoWriterState } pick else s
  { s' with lock := s'.lock.noteState }

/-- The thread a signal wakes waits unwoken; there is none only when no thread does. -/
def CanPick (s : Locked T) : Option T → Prop
  | some t => s.spot t = .writeWait false
  | none => ∀ t, s.spot t ≠ .writeWait false

instance [Fintype T] (s : Locked T) (pick : Option T) : Decidable (s.CanPick pick) := by
  unfold CanPick
  cases pick <;> infer_instance

variable [Fintype T]

def step (s : Locked T) : Move T → Option (Locked T)
  | .lockRead t => if s.spot t = .out then some (s.lockRead t) else none
  | .lockWrite t => if s.spot t = .out then some (s.lockWrite t) else none
  -- both call the function they try, or return EBUSY
  | .tryLockRead t =>
    if s.spot t = .out then
      some (if !s.lock.activeWriter && !s.lock.waitingWriters then s.lockRead t else s)
    else none
  | .tryLockWrite t =>
    if s.spot t = .out then some (if !s.lock.active && !s.lock.waitingWriters then s.lockWrite t else s) else none
  -- each thread unlocks what it locked
  | .unlock t pick =>
    if (s.spot t = .reading ∨ s.spot t = .writing) ∧ s.CanPick pick then some ((s.setSpot t .out).unlock pick) else none
  | .resume t => match s.spot t with
    | .readWait _ => some (s.readLoop t)
    | .writeWait _ => some (s.writeLoop t)
    | _ => none

/-! ## What a step does -/

/-- The spots after `fWritersCond.Signal`. -/
def signalled (spot : T → Spot) : Option T → T → Spot
  | some t => Function.update spot t (.writeWait true)
  | none => spot

/-- The effect of a step on the state, the number of waiting writers and the spots. -/
inductive Effect (s : Locked T) : Move T → Int → Int → (T → Spot) → Prop
  /-- `EBUSY`. -/
  | busy {a} : Effect s a s.lock.fState s.lock.fWriteWaiters s.spot
  | readWait {a} (t) (ht : s.spot t = .out ∨ ∃ w, s.spot t = .readWait w)
      (h : s.lock.fState < 0 ∨ 0 < s.lock.fWriteWaiters) :
      Effect s a s.lock.fState s.lock.fWriteWaiters (Function.update s.spot t (.readWait false))
  | read {a} (t) (ht : s.spot t = .out ∨ ∃ w, s.spot t = .readWait w)
      (h : 0 ≤ s.lock.fState) (hw : s.lock.fWriteWaiters ≤ 0) :
      Effect s a (s.lock.fState + 1) s.lock.fWriteWaiters (Function.update s.spot t .reading)
  | writeWait {a} (t) (ht : s.spot t = .out) (h : 0 < s.lock.fState) :
      Effect s a s.lock.fState (s.lock.fWriteWaiters + 1) (Function.update s.spot t (.writeWait false))
  | writeAgain {a} (t) (ht : ∃ w, s.spot t = .writeWait w) (h : 0 < s.lock.fState) :
      Effect s a s.lock.fState s.lock.fWriteWaiters (Function.update s.spot t (.writeWait false))
  | write {a} (t) (ht : s.spot t = .out) (h : s.lock.fState ≤ 0)
      (ha : a = .lockWrite t ∨ a = .tryLockWrite t ∧ s.lock.fState = 0) :
      Effect s a (-1) s.lock.fWriteWaiters (Function.update s.spot t .writing)
  | writeWoken (t) (ht : ∃ w, s.spot t = .writeWait w) (h : s.lock.fState ≤ 0) :
      Effect s (.resume t) (-1) (s.lock.fWriteWaiters - 1) (Function.update s.spot t .writing)
  /-- A writer unlocks: it wakes a writer, or all readers. -/
  | wroteSignal {a} (t pick) (ht : s.spot t = .reading ∨ s.spot t = .writing) (hp : s.CanPick pick)
      (h : s.lock.fState < 0) (hw : 0 < s.lock.fWriteWaiters) :
      Effect s a 0 s.lock.fWriteWaiters (signalled (Function.update s.spot t .out) pick)
  | wroteBroadcast {a} (t) (ht : s.spot t = .reading ∨ s.spot t = .writing)
      (h : s.lock.fState < 0) (hw : s.lock.fWriteWaiters ≤ 0) :
      Effect s a 0 s.lock.fWriteWaiters fun u => (Function.update s.spot t .out u).broadcast
  /-- A reader unlocks, and is the last one or not. -/
  | readLast {a} (t pick) (ht : s.spot t = .reading ∨ s.spot t = .writing) (hp : s.CanPick pick)
      (h : 0 ≤ s.lock.fState) (hl : s.lock.fState ≤ 1) :
      Effect s a 0 s.lock.fWriteWaiters (signalled (Function.update s.spot t .out) pick)
  | readMore {a} (t) (ht : s.spot t = .reading ∨ s.spot t = .writing) (h : 1 < s.lock.fState) :
      Effect s a (s.lock.fState - 1) s.lock.fWriteWaiters (Function.update s.spot t .out)

/-- `Effect`, from one state to the next. -/
def Does (s : Locked T) (a : Move T) (s' : Locked T) : Prop := Effect s a s'.lock.fState s'.lock.fWriteWaiters s'.spot

variable {s s' : Locked T} {a : Move T} {t : T}

omit [Fintype T] in
theorem readLoop_does {r : Int} (ht : s.spot t = .out ∨ ∃ w, s.spot t = .readWait w) :
    s.Does a (readLoop { s with lock := { s.lock with fReadWaiters := r } } t) := by
  unfold readLoop
  by_cases hw : s.lock.fState < 0 ∨ 0 < s.lock.fWriteWaiters
  · rw [if_pos (by simpa using hw)]
    exact Effect.readWait t ht hw
  · rw [if_neg (by simpa using hw)]
    rw [not_or, Int.not_lt, Int.not_lt] at hw
    exact Effect.read t ht hw.1 hw.2

omit [Fintype T] in
theorem lockRead_does (ht : s.spot t = .out) : s.Does a (s.lockRead t) := readLoop_does (Or.inl ht)

omit [Fintype T] in
theorem lockWrite_does (ht : s.spot t = .out)
    (ha : s.lock.fState ≤ 0 → a = .lockWrite t ∨ a = .tryLockWrite t ∧ s.lock.fState = 0) :
    s.Does a (s.lockWrite t) := by
  unfold lockWrite writeLoop
  by_cases hw : 0 < s.lock.addWriteWaiter.fState
  · rw [if_pos (OSMutexRW.activeReaders_iff.2 hw)]
    exact Effect.writeWait t ht hw
  · rw [if_neg (mt OSMutexRW.activeReaders_iff.1 hw)]
    have hsame : s.lock.fWriteWaiters + 1 - 1 = s.lock.fWriteWaiters := by omega
    have heff := Effect.write t ht (Int.not_lt.1 hw) (ha (Int.not_lt.1 hw))
    rw [← hsame] at heff
    exact heff

omit [Fintype T] in
theorem writeLoop_does (ht : ∃ w, s.spot t = .writeWait w) : s.Does (.resume t) (s.writeLoop t) := by
  unfold writeLoop
  by_cases hw : 0 < s.lock.fState
  · rw [if_pos (OSMutexRW.activeReaders_iff.2 hw)]
    exact Effect.writeAgain t ht hw
  · rw [if_neg (mt OSMutexRW.activeReaders_iff.1 hw)]
    exact Effect.writeWoken t ht (Int.not_lt.1 hw)

omit [Fintype T] in
/-- A signal changes no counter. -/
theorem signalWriter_eq (s : Locked T) (pick : Option T) :
    s.signalWriter pick = { s with spot := signalled s.spot pick } := by
  cases pick <;> rfl

omit [Fintype T] in
theorem unlock_does (pick : Option T) (ht : s.spot t = .reading ∨ s.spot t = .writing) (hp : s.CanPick pick) :
    s.Does a ((s.setSpot t .out).unlock pick) := by
  unfold unlock
  simp only
  split
  · rename_i hneg
    rw [OSMutexRW.activeWriter_iff] at hneg
    split
    · rename_i hw
      rw [OSMutexRW.waitingWriters_iff] at hw
      rw [signalWriter_eq]
      exact Effect.wroteSignal t pick ht hp hneg hw
    · rename_i hw
      rw [OSMutexRW.waitingWriters_iff, Int.not_lt] at hw
      exact Effect.wroteBroadcast t ht hneg hw
  · rename_i hneg
    rw [OSMutexRW.activeWriter_iff, Int.not_lt] at hneg
    have hstate : (s.setSpot t .out).lock.removeActiveReader.fState = s.lock.fState - 1 := rfl
    split
    · rename_i hl
      rw [Bool.not_eq_true', ← Bool.not_eq_true, OSMutexRW.activeReaders_iff, hstate] at hl
      rw [signalWriter_eq]
      exact Effect.readLast t pick ht hp hneg (by omega)
    · rename_i hm
      rw [Bool.not_eq_true', ← Bool.not_eq_true, OSMutexRW.activeReaders_iff, hstate] at hm
      exact Effect.readMore t ht (by omega)

/-- Every step has one of the effects. -/
theorem step_does (hs : s.step a = some s') : s.Does a s' := by
  cases a with
  | lockRead t =>
    simp only [step] at hs
    split at hs
    · rename_i ht; cases hs; exact lockRead_does ht
    · cases hs
  | lockWrite t =>
    simp only [step] at hs
    split at hs
    · rename_i ht; cases hs; exact lockWrite_does ht fun _ => Or.inl rfl
    · cases hs
  | tryLockRead t =>
    simp only [step] at hs
    split at hs
    · rename_i ht
      cases hs
      split
      · exact lockRead_does ht
      · exact Effect.busy
    · cases hs
  | tryLockWrite t =>
    simp only [step] at hs
    split at hs
    · rename_i ht
      cases hs
      split
      · rename_i hfree
        have hzero : s.lock.fState = 0 := by
          have hactive := (Bool.and_eq_true_iff.1 hfree).1
          rw [Bool.not_eq_true', ← Bool.not_eq_true, OSMutexRW.active_iff, not_not] at hactive
          exact hactive
        exact lockWrite_does ht fun _ => Or.inr ⟨rfl, hzero⟩
      · exact Effect.busy
    · cases hs
  | unlock t pick =>
    simp only [step] at hs
    split at hs
    · rename_i hc; cases hs; exact unlock_does pick hc.1 hc.2
    · cases hs
  | resume t =>
    cases hp : s.spot t with
    | readWait w =>
      simp only [step, hp] at hs
      cases hs
      exact readLoop_does (Or.inr ⟨w, hp⟩)
    | writeWait w =>
      simp only [step, hp] at hs
      cases hs
      exact writeLoop_does ⟨w, hp⟩
    | out | reading | writing => simp only [step, hp] at hs; cases hs

omit [Fintype T] in
/-- The thread that unlocks is not the one that is woken. -/
theorem canPick_update {pick : Option T} (hp : s.CanPick pick) (ht : s.spot t = .reading ∨ s.spot t = .writing) :
    ∀ u ∈ pick, Function.update s.spot t .out u = .writeWait false := by
  intro u hu
  cases hu
  have hne : u ≠ t := by
    rintro rfl
    rcases ht with ht | ht <;> rw [show s.spot u = .writeWait false from hp] at ht <;> cases ht
  rw [Function.update_of_ne hne]
  exact hp

end Locked

end ToolLib.Common
