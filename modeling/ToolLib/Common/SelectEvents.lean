import Mathlib.Data.Finset.Card
import ToolLib.Base.Logged

/-!
# The event queue over `select`

`ev.cpp`: `select_modwatch` and `select_removeevent` change the watched sets from any thread, and one thread calls
`select_waitevent`, which copies the sets, calls `select` and then reports one descriptor of the result per call. A region
under `sMaxFDPosMutex` is one step, and so is each access of the waiting thread outside it; between two steps the other
threads take theirs. `selecthasdata` clears the bit of the pipe outside the mutex: it loads a word of the set in one step
and stores it in another. `ev_hw.cpp` has the same functions, with one check more in `constructeventreq` for a descriptor
that no set holds.

An `fd_set` is the finite set of its descriptors. A scan that follows a report of the last descriptor of the array begins
one position behind it; the source leaves open what it reads there, here nothing is set. What other threads write to the
pipe is up to `select`, which may return the pipe at any time. `sFDsToCloseArray` is the list of its used entries.
-/

namespace ToolLib.Common

open ToolLib.Base

variable {δ : Type*}

/-- `fd_set`. -/
abbrev FdSet := Finset Nat

/-- `sizeof(fd_set) * 8`: the bits of an `fd_set`, and the entries of the two arrays. -/
def FD_SETSIZE : Nat := 1024

/-- `__NFDBITS`, the bits of a word of an `fd_set`, where a `long` has 64 of them. -/
def NFDBITS : Nat := 64

/-- The word of the set that has the bit of the descriptor. -/
def FdSet.word (set : FdSet) (fd : Nat) : FdSet := set.filter fun g => g / NFDBITS = fd / NFDBITS

/-- The set after a store of this word, where the bit of the descriptor is. -/
def FdSet.store (set : FdSet) (fd : Nat) (word : FdSet) : FdSet := set.filter (fun g => g / NFDBITS ≠ fd / NFDBITS) ∪ word

/-- `EV_RE`, the bit of a read event. -/
def evRE : BitVec 32 := 1

/-- `EV_WR`, the bit of a write event. -/
def evWR : BitVec 32 := 2

/-- `eventreq`, the fields that are used; `δ` is the type of the cookies. -/
structure EventReq (δ : Type*) where
  er_handle : Nat
  er_eventbits : BitVec 32
  er_data : Option δ

/-- What `select_waitevent` returns: 0 with the request filled in, `EINTR`, or the error of `select`. -/
inductive WaitReturn (δ : Type*)
  | event (req : EventReq δ)
  | eintr
  | error (theErr : Int)

/-- Where the waiting thread is. -/
inductive WaitPlace (δ : Type*)
  /-- Outside, after a call that has returned so. -/
  | out (ret : WaitReturn δ)
  | readScan
  | writeScan
  /-- Before the counters are set up again. -/
  | counted
  /-- In `selecthasdata`. -/
  | hasData
  /-- In `selecthasdata`, which has loaded this word to clear the bit of the pipe. -/
  | clearing (word : FdSet)
  /-- In `selecthasdata`, before the descriptors of `sFDsToCloseArray` are closed. -/
  | closing
  /-- Before the sets are copied. -/
  | copying
  /-- Before `select` is called. -/
  | calling
  /-- In `select`, which has been asked for these descriptors below `nfds`. -/
  | blocked (readfds writefds : FdSet) (nfds : Nat)

instance (p : WaitPlace δ) : Decidable (p = .readScan) :=
  match p with
  | .readScan => isTrue rfl
  | .out _ | .writeScan | .counted | .hasData | .clearing _ | .closing | .copying | .calling | .blocked _ _ _ =>
    isFalse nofun

instance (p : WaitPlace δ) : Decidable (p = .calling) :=
  match p with
  | .calling => isTrue rfl
  | .out _ | .readScan | .writeScan | .counted | .hasData | .clearing _ | .closing | .copying | .blocked _ _ _ =>
    isFalse nofun

instance (p : WaitPlace δ) : Decidable (p = .writeScan) :=
  match p with
  | .writeScan => isTrue rfl
  | .out _ | .readScan | .counted | .hasData | .clearing _ | .closing | .copying | .calling | .blocked _ _ _ =>
    isFalse nofun

/-- `selecthasdata` is past the bit of the pipe. -/
def WaitPlace.PastPipe : WaitPlace δ → Prop
  | .hasData | .clearing _ => False
  | .out _ | .readScan | .writeScan | .counted | .closing | .copying | .calling | .blocked _ _ _ => True

instance : DecidablePred (WaitPlace.PastPipe : WaitPlace δ → Prop)
  | .hasData | .clearing _ => instDecidableFalse
  | .out _ | .readScan | .writeScan | .counted | .closing | .copying | .calling | .blocked _ _ _ => instDecidableTrue

/-- The variables of `ev.cpp`, and the place of the waiting thread. -/
structure SelectEvents (δ : Type*) where
  sReadSet : FdSet
  sWriteSet : FdSet
  sReturnedReadSet : FdSet
  sReturnedWriteSet : FdSet
  sCookieArray : Nat → Option δ
  sFDsToCloseArray : List Nat
  /-- `sPipes[0]`. -/
  sPipe : Nat
  sCurrentFDPos : Nat
  sMaxFDPos : Nat
  sInReadSet : Bool
  sNumFDsBackFromSelect : Int
  sNumFDsProcessed : Nat
  place : WaitPlace δ

/-- How `select` ends. -/
inductive SelectResult
  | ready (readfds writefds : FdSet)
  | timedOut
  | failed

/-- What happens next. -/
inductive SelectAct (δ : Type*)
  /-- `select_modwatch`, and `select_watchevent`. -/
  | modwatch (er_handle : Nat) (er_data : δ) (which : BitVec 32)
  | removeevent (which : Nat)
  /-- The waiting thread goes on. When it looks at `errno` it finds `EBADF` or `EINTR`, or something else. -/
  | next (interrupted : Bool)
  /-- `select` returns. -/
  | select (result : SelectResult)

namespace SelectEvents

/-- `select_startevents`, before the first `select_waitevent`. -/
def startevents (pipe : Nat) : SelectEvents δ where
  sReadSet := {pipe}
  sWriteSet := ∅
  sReturnedReadSet := ∅
  sReturnedWriteSet := ∅
  sCookieArray _ := none
  sFDsToCloseArray := []
  sPipe := pipe
  sCurrentFDPos := 0
  sMaxFDPos := pipe
  sInReadSet := true
  sNumFDsBackFromSelect := 0
  sNumFDsProcessed := 0
  place := .out .eintr

/-- The loop of `select_removeevent` that looks for the highest descriptor in the sets. -/
def lowerMax (readSet writeSet : FdSet) : Nat → Nat
  | 0 => 0
  | n + 1 => if n + 1 ∈ readSet ∨ n + 1 ∈ writeSet then n + 1 else lowerMax readSet writeSet n

def removeevent (s : SelectEvents δ) (which : Nat) : SelectEvents δ :=
  let sReadSet := s.sReadSet.erase which
  let sWriteSet := s.sWriteSet.erase which
  { s with
    sReadSet := sReadSet
    sWriteSet := sWriteSet
    sReturnedReadSet := s.sReturnedReadSet.erase which
    sReturnedWriteSet := s.sReturnedWriteSet.erase which
    sCookieArray := Function.update s.sCookieArray which none
    sMaxFDPos := if which = s.sMaxFDPos then lowerMax sReadSet sWriteSet s.sMaxFDPos else s.sMaxFDPos
    sFDsToCloseArray := s.sFDsToCloseArray ++ [which] }

/-- `FD_SET` or `FD_CLR`. -/
def assign (on : Bool) (fd : Nat) (set : FdSet) : FdSet :=
  if on then insert fd set else set.erase fd

def modwatch (s : SelectEvents δ) (er_handle : Nat) (er_data : δ) (which : BitVec 32) : SelectEvents δ :=
  { s with
    sReadSet := assign (which &&& evRE != 0) er_handle s.sReadSet
    sWriteSet := assign (which &&& evWR != 0) er_handle s.sWriteSet
    sMaxFDPos := if er_handle > s.sMaxFDPos then er_handle else s.sMaxFDPos
    sCookieArray := Function.update s.sCookieArray er_handle (some er_data) }

/-- `select_waitevent` returns the request that is filled in here. -/
def constructeventreq (s : SelectEvents δ) (fd : Nat) (event : BitVec 32) : SelectEvents δ :=
  { s with
    sCurrentFDPos := s.sCurrentFDPos + 1
    sNumFDsProcessed := s.sNumFDsProcessed + 1
    sWriteSet := s.sWriteSet.erase fd
    sReadSet := s.sReadSet.erase fd
    place := .out (.event ⟨fd, event, s.sCookieArray fd⟩) }

/-- The loop over the positions from `pos` on, `left` of them before `sMaxFDPos`: where it stops. -/
def scanFrom (set : FdSet) : Nat → Nat → Nat
  | pos, 0 => pos
  | pos, left + 1 => if pos ∈ set then pos else scanFrom set (pos + 1) left

/-- `while (!FD_ISSET(pos, set) && pos < max) pos++`. -/
def scan (set : FdSet) (pos max : Nat) : Nat := scanFrom set pos (max - pos)

/-- Where the scan of `sReturnedReadSet` stops. -/
def readPos (s : SelectEvents δ) : Nat := scan s.sReturnedReadSet s.sCurrentFDPos s.sMaxFDPos

/-- Where the scan of `sReturnedWriteSet` stops. -/
def writePos (s : SelectEvents δ) : Nat := scan s.sReturnedWriteSet s.sCurrentFDPos s.sMaxFDPos

def scanRead (s : SelectEvents δ) : SelectEvents δ :=
  if s.readPos ∈ s.sReturnedReadSet then
    constructeventreq
      { s with sCurrentFDPos := s.readPos, sReturnedReadSet := s.sReturnedReadSet.erase s.readPos } s.readPos evRE
  else { s with sInReadSet := false, sCurrentFDPos := 0, place := .writeScan }

def scanWrite (s : SelectEvents δ) : SelectEvents δ :=
  if s.writePos ∈ s.sReturnedWriteSet then
    constructeventreq
      { s with sCurrentFDPos := s.writePos, sReturnedWriteSet := s.sReturnedWriteSet.erase s.writePos } s.writePos evWR
  else
    { s with
      sCurrentFDPos := s.writePos
      sNumFDsProcessed := s.sNumFDsBackFromSelect.toNat
      place := .counted }

/-- `select_waitevent` begins. -/
def enter (s : SelectEvents δ) : SelectEvents δ :=
  { s with
    place :=
      if (s.sNumFDsProcessed : Int) < s.sNumFDsBackFromSelect then
        if s.sInReadSet then .readScan else .writeScan
      else .counted }

/-- The counters are set up again. -/
def reinit (s : SelectEvents δ) : SelectEvents δ :=
  if s.sNumFDsProcessed > 0 then
    { s with
      sNumFDsProcessed := 0
      sNumFDsBackFromSelect := 0
      sCurrentFDPos := 0
      sInReadSet := true
      place := .hasData }
  else { s with place := .hasData }

/-- `selecthasdata` returns `data` to the loop, which ends or goes on. -/
def backToLoop (s : SelectEvents δ) (data : Bool) : SelectEvents δ :=
  { s with
    place :=
      if data then
        .out (if s.sNumFDsBackFromSelect ≥ 0 then .eintr else .error s.sNumFDsBackFromSelect)
      else .copying }

def selecthasdata (s : SelectEvents δ) (interrupted : Bool) : SelectEvents δ :=
  if s.sNumFDsBackFromSelect < 0 then s.backToLoop !interrupted
  else if s.sNumFDsBackFromSelect = 0 then s.backToLoop false
  else if s.sPipe ∈ s.sReturnedReadSet then { s with place := .clearing (s.sReturnedReadSet.word s.sPipe) }
  else s.backToLoop true

/-- `FD_CLR(sPipes[0], &sReturnedReadSet)` stores the word that it has loaded, without the bit of the pipe. -/
def clearPipe (s : SelectEvents δ) (word : FdSet) : SelectEvents δ :=
  { s with
    sReturnedReadSet := s.sReturnedReadSet.store s.sPipe (word.erase s.sPipe)
    sNumFDsBackFromSelect := s.sNumFDsBackFromSelect - 1
    place := .closing }

/-- The end of `selecthasdata`, after data on the pipe. -/
def closeFDs (s : SelectEvents δ) : SelectEvents δ :=
  { s with sFDsToCloseArray := [] }.backToLoop (s.sNumFDsBackFromSelect != 0)

def next (s : SelectEvents δ) (interrupted : Bool) : Option (SelectEvents δ) :=
  match s.place with
  | .out _ => some s.enter
  | .readScan => some s.scanRead
  | .writeScan => some s.scanWrite
  | .counted => some s.reinit
  | .hasData => some (s.selecthasdata interrupted)
  | .clearing word => some (s.clearPipe word)
  | .closing => some s.closeFDs
  | .copying =>
    some { s with sReturnedReadSet := s.sReadSet, sReturnedWriteSet := s.sWriteSet, place := .calling }
  | .calling =>
    some { s with place := .blocked s.sReturnedReadSet s.sReturnedWriteSet (s.sMaxFDPos + 1) }
  | .blocked _ _ _ => none

/-- `select` writes the whole result over the two sets. -/
def select (s : SelectEvents δ) : SelectResult → Option (SelectEvents δ)
  | .ready r w =>
    match s.place with
    | .blocked readfds writefds nfds =>
      if r ⊆ readfds ∧ w ⊆ writefds ∧ (∀ fd ∈ r ∪ w, fd < nfds) ∧ 0 < r.card + w.card then
        some { s with
          sReturnedReadSet := r
          sReturnedWriteSet := w
          sNumFDsBackFromSelect := r.card + w.card
          place := .hasData }
      else none
    | _ => none
  | .timedOut =>
    match s.place with
    | .blocked _ _ _ =>
      some { s with
        sReturnedReadSet := ∅
        sReturnedWriteSet := ∅
        sNumFDsBackFromSelect := 0
        place := .hasData }
    | _ => none
  | .failed =>
    match s.place with
    | .blocked _ _ _ => some { s with sNumFDsBackFromSelect := -1, place := .hasData }
    | _ => none

/-- One step. The descriptors of the callers are theirs, never the one of the pipe. -/
def step (s : SelectEvents δ) : SelectAct δ → Option (SelectEvents δ)
  | .modwatch fd data which => if fd = s.sPipe then none else some (s.modwatch fd data which)
  | .removeevent fd => if fd = s.sPipe then none else some (s.removeevent fd)
  | .next interrupted => s.next interrupted
  | .select result => s.select result

/-! ## What a step does -/

/-- What an observer notes. -/
inductive Entry (δ : Type*)
  | modwatch (fd : Nat) (data : δ)
  | removed (fd : Nat)
  /-- The sets were copied. -/
  | copied
  /-- `select` was called. -/
  | called
  /-- `selecthasdata` has loaded the word with the bit of the pipe. -/
  | loaded
  /-- `selecthasdata` has stored it. -/
  | stored
  /-- `select` returned these descriptors, none after its time. -/
  | returned (readfds writefds : FdSet)
  /-- `select_waitevent` returned an event. -/
  | event (req : EventReq δ)

def observe (s : SelectEvents δ) (act : SelectAct δ) (s' : SelectEvents δ) : Option (Entry δ) :=
  match act with
  | .modwatch fd data _ => some (.modwatch fd data)
  | .removeevent fd => some (.removed fd)
  | .next _ =>
    match s.place, s'.place with
    | .copying, _ => some .copied
    | .calling, _ => some .called
    | .clearing _, _ => some .stored
    | _, .clearing _ => some .loaded
    | _, .out (.event req) => some (.event req)
    | _, _ => none
  | .select (.ready r w) => some (.returned r w)
  | .select .timedOut => some (.returned ∅ ∅)
  | .select .failed => none

variable {s s' : SelectEvents δ} {act : SelectAct δ}

/-- What a step does, and what is noted of it. -/
inductive Does (s : SelectEvents δ) : SelectAct δ → SelectEvents δ → Option (Entry δ) → Prop
  | modwatch (fd : Nat) (data : δ) (which : BitVec 32) (hfd : fd ≠ s.sPipe) :
    Does s (.modwatch fd data which) (s.modwatch fd data which) (some (.modwatch fd data))
  | removeevent (fd : Nat) (hfd : fd ≠ s.sPipe) :
    Does s (.removeevent fd) (s.removeevent fd) (some (.removed fd))
  | enterRead (b : Bool) (ret : WaitReturn δ) (hp : s.place = .out ret)
    (hn : (s.sNumFDsProcessed : Int) < s.sNumFDsBackFromSelect) (hr : s.sInReadSet = true) :
    Does s (.next b) { s with place := .readScan } none
  | enterWrite (b : Bool) (ret : WaitReturn δ) (hp : s.place = .out ret)
    (hn : (s.sNumFDsProcessed : Int) < s.sNumFDsBackFromSelect) (hr : s.sInReadSet = false) :
    Does s (.next b) { s with place := .writeScan } none
  | enterCounted (b : Bool) (ret : WaitReturn δ) (hp : s.place = .out ret)
    (hn : s.sNumFDsBackFromSelect ≤ s.sNumFDsProcessed) :
    Does s (.next b) { s with place := .counted } none
  | readFound (b : Bool) (hp : s.place = .readScan) (hf : s.readPos ∈ s.sReturnedReadSet) :
    Does s (.next b) s.scanRead (some (.event ⟨s.readPos, evRE, s.sCookieArray s.readPos⟩))
  | readPast (b : Bool) (hp : s.place = .readScan) (hf : s.readPos ∉ s.sReturnedReadSet) :
    Does s (.next b) { s with sInReadSet := false, sCurrentFDPos := 0, place := .writeScan } none
  | writeFound (b : Bool) (hp : s.place = .writeScan) (hf : s.writePos ∈ s.sReturnedWriteSet) :
    Does s (.next b) s.scanWrite (some (.event ⟨s.writePos, evWR, s.sCookieArray s.writePos⟩))
  | writePast (b : Bool) (hp : s.place = .writeScan) (hf : s.writePos ∉ s.sReturnedWriteSet) :
    Does s (.next b)
      { s with
        sCurrentFDPos := s.writePos
        sNumFDsProcessed := s.sNumFDsBackFromSelect.toNat
        place := .counted } none
  | reinit (b : Bool) (hp : s.place = .counted) (hn : 0 < s.sNumFDsProcessed) :
    Does s (.next b)
      { s with
        sNumFDsProcessed := 0
        sNumFDsBackFromSelect := 0
        sCurrentFDPos := 0
        sInReadSet := true
        place := .hasData } none
  | fresh (b : Bool) (hp : s.place = .counted) (hn : s.sNumFDsProcessed = 0) :
    Does s (.next b) { s with place := .hasData } none
  | again (b : Bool) (hp : s.place = .hasData) (hn : s.sNumFDsBackFromSelect ≤ 0) :
    Does s (.next b) { s with place := .copying } none
  | error (b : Bool) (hp : s.place = .hasData) (hn : s.sNumFDsBackFromSelect < 0) :
    Does s (.next b) { s with place := .out (.error s.sNumFDsBackFromSelect) } none
  | pipe (b : Bool) (hp : s.place = .hasData) (hn : 0 < s.sNumFDsBackFromSelect)
    (hf : s.sPipe ∈ s.sReturnedReadSet) :
    Does s (.next b) { s with place := .clearing (s.sReturnedReadSet.word s.sPipe) } (some .loaded)
  | clear (b : Bool) (word : FdSet) (hp : s.place = .clearing word) :
    Does s (.next b) (s.clearPipe word) (some .stored)
  | data (b : Bool) (hp : s.place = .hasData) (hn : 0 < s.sNumFDsBackFromSelect)
    (hf : s.sPipe ∉ s.sReturnedReadSet) :
    Does s (.next b) { s with place := .out .eintr } none
  | closed (b : Bool) (hp : s.place = .closing) (hn : s.sNumFDsBackFromSelect = 0) :
    Does s (.next b) { s with sFDsToCloseArray := [], place := .copying } none
  | closedData (b : Bool) (ret : WaitReturn δ) (hp : s.place = .closing) (hn : s.sNumFDsBackFromSelect ≠ 0) :
    Does s (.next b) { s with sFDsToCloseArray := [], place := .out ret } none
  | copy (b : Bool) (hp : s.place = .copying) :
    Does s (.next b)
      { s with sReturnedReadSet := s.sReadSet, sReturnedWriteSet := s.sWriteSet, place := .calling } (some .copied)
  | call (b : Bool) (hp : s.place = .calling) :
    Does s (.next b) { s with place := .blocked s.sReturnedReadSet s.sReturnedWriteSet (s.sMaxFDPos + 1) }
      (some .called)
  | ready (r w readfds writefds : FdSet) (nfds : Nat) (hp : s.place = .blocked readfds writefds nfds)
    (hr : r ⊆ readfds) (hw : w ⊆ writefds) :
    Does s (.select (.ready r w))
      { s with
        sReturnedReadSet := r
        sReturnedWriteSet := w
        sNumFDsBackFromSelect := r.card + w.card
        place := .hasData } (some (.returned r w))
  | timedOut (readfds writefds : FdSet) (nfds : Nat) (hp : s.place = .blocked readfds writefds nfds) :
    Does s (.select .timedOut)
      { s with
        sReturnedReadSet := ∅
        sReturnedWriteSet := ∅
        sNumFDsBackFromSelect := 0
        place := .hasData } (some (.returned ∅ ∅))
  | failed (readfds writefds : FdSet) (nfds : Nat) (hp : s.place = .blocked readfds writefds nfds) :
    Does s (.select .failed) { s with sNumFDsBackFromSelect := -1, place := .hasData } none

theorem next_cases {b : Bool} (hs : s.next b = some s') : Does s (.next b) s' (observe s (.next b) s') := by
  unfold next at hs
  split at hs
  next ret hp =>
    cases hs
    unfold enter
    split
    next hn =>
      split
      next hr => simpa [observe, hp] using Does.enterRead b ret hp hn hr
      next hr => simpa [observe, hp] using Does.enterWrite b ret hp hn (by simpa using hr)
    next hn => simpa [observe, hp] using Does.enterCounted b ret hp (not_lt.1 hn)
  next hp =>
    cases hs
    by_cases hf : s.readPos ∈ s.sReturnedReadSet
    · have h := Does.readFound b hp hf
      simp only [scanRead, if_pos hf, observe, hp, constructeventreq] at h ⊢
      exact h
    · have h := Does.readPast b hp hf
      simp only [scanRead, if_neg hf, observe, hp] at h ⊢
      exact h
  next hp =>
    cases hs
    by_cases hf : s.writePos ∈ s.sReturnedWriteSet
    · have h := Does.writeFound b hp hf
      simp only [scanWrite, if_pos hf, observe, hp, constructeventreq] at h ⊢
      exact h
    · have h := Does.writePast b hp hf
      simp only [scanWrite, if_neg hf, observe, hp] at h ⊢
      exact h
  next hp =>
    cases hs
    unfold reinit
    split
    next hn => simpa [observe, hp] using Does.reinit b hp hn
    next hn => simpa [observe, hp] using Does.fresh b hp (by omega)
  next hp =>
    cases hs
    unfold selecthasdata
    split
    next hn =>
      cases b with
      | true => simpa [observe, hp, backToLoop] using Does.again true hp hn.le
      | false => simpa [observe, hp, backToLoop, not_le.2 hn] using Does.error false hp hn
    next hn =>
      split
      next hz => simpa [observe, hp, backToLoop] using Does.again b hp hz.le
      next hz =>
        have hpos : 0 < s.sNumFDsBackFromSelect := by omega
        split
        next hf => simpa [observe, hp] using Does.pipe b hp hpos hf
        next hf => simpa [observe, hp, backToLoop, hpos.le] using Does.data b hp hpos hf
  next word hp => cases hs; simpa [observe, hp] using Does.clear b word hp
  next hp =>
    cases hs
    unfold closeFDs backToLoop
    by_cases hn : s.sNumFDsBackFromSelect = 0
    · simpa [observe, hp, hn] using Does.closed b hp hn
    · have h := fun ret => Does.closedData b ret hp hn
      by_cases hle : 0 ≤ s.sNumFDsBackFromSelect
      · simpa [observe, hp, hn, hle] using h .eintr
      · simpa [observe, hp, hn, hle] using h (.error s.sNumFDsBackFromSelect)
  next hp => cases hs; simpa [observe, hp] using Does.copy b hp
  next hp => cases hs; simpa [observe, hp] using Does.call b hp
  next => cases hs

theorem step_cases (hs : s.step act = some s') : Does s act s' (observe s act s') := by
  cases act with
  | modwatch fd data which =>
    simp only [step] at hs
    split at hs <;> cases hs
    exact .modwatch fd data which ‹_›
  | removeevent fd =>
    simp only [step] at hs
    split at hs <;> cases hs
    exact .removeevent fd ‹_›
  | next b => exact next_cases hs
  | select result =>
    cases result with
    | ready r w =>
      simp only [step, select] at hs
      split at hs
      next readfds writefds nfds hp =>
        split at hs <;> cases hs
        next h => exact .ready r w readfds writefds nfds hp h.1 h.2.1
      next => cases hs
    | timedOut =>
      simp only [step, select] at hs
      split at hs <;> cases hs
      next readfds writefds nfds hp => exact .timedOut readfds writefds nfds hp
    | failed =>
      simp only [step, select] at hs
      split at hs <;> cases hs
      next readfds writefds nfds hp => exact .failed readfds writefds nfds hp

/-! ## The places -/

/-- The counters as `select_waitevent` wants them before it calls `select`. -/
def Fresh (s : SelectEvents δ) : Prop := s.sNumFDsProcessed = 0 ∧ s.sCurrentFDPos = 0 ∧ s.sInReadSet = true

/-- What the counters and the phase are in each place. -/
def Control (s : SelectEvents δ) : Prop :=
  match s.place with
  | .out _ => s.sNumFDsBackFromSelect ≤ 0 → s.Fresh
  | .readScan => 0 < s.sNumFDsBackFromSelect ∧ s.sInReadSet = true
  | .writeScan => 0 < s.sNumFDsBackFromSelect ∧ s.sInReadSet = false
  | .counted => s.sNumFDsProcessed = 0 → s.sNumFDsBackFromSelect ≤ 0 ∧ s.Fresh
  | .hasData => s.Fresh
  | .clearing _ => 0 < s.sNumFDsBackFromSelect ∧ s.Fresh
  | .closing => 0 ≤ s.sNumFDsBackFromSelect ∧ s.Fresh
  | .copying | .calling | .blocked _ _ _ => s.sNumFDsBackFromSelect ≤ 0 ∧ s.Fresh

theorem control_startevents (pipe : Nat) : (startevents pipe : SelectEvents δ).Control :=
  fun _ => ⟨rfl, rfl, rfl⟩

theorem control_step {o : Option (Entry δ)} (h : s.Control) (hs : Does s act s' o) : s'.Control := by
  cases hs with
  | modwatch fd data which hfd => exact h
  | removeevent fd hfd => exact h
  | readFound b hp hf =>
    simp only [Control, hp] at h
    simp only [scanRead, if_pos hf, Control, constructeventreq]
    exact fun hle => absurd h.1 (not_lt.2 hle)
  | writeFound b hp hf =>
    simp only [Control, hp] at h
    simp only [scanWrite, if_pos hf, Control, constructeventreq]
    exact fun hle => absurd h.1 (not_lt.2 hle)
  | enterRead b ret hp hn hr => exact ⟨lt_of_le_of_lt (Int.natCast_nonneg _) hn, hr⟩
  | enterWrite b ret hp hn hr => exact ⟨lt_of_le_of_lt (Int.natCast_nonneg _) hn, hr⟩
  | enterCounted b ret hp hn =>
    simp only [Control, hp] at h
    intro (hz : s.sNumFDsProcessed = 0)
    have hle : s.sNumFDsBackFromSelect ≤ 0 := by omega
    exact ⟨hle, h hle⟩
  | readPast b hp hf =>
    simp only [Control, hp] at h
    exact ⟨h.1, rfl⟩
  | writePast b hp hf =>
    simp only [Control, hp] at h
    intro hz
    simp only at hz
    omega
  | reinit b hp hn => exact ⟨rfl, rfl, rfl⟩
  | fresh b hp hn =>
    simp only [Control, hp] at h
    exact (h hn).2
  | again b hp hn =>
    simp only [Control, hp] at h
    exact ⟨hn, h⟩
  | error b hp hn =>
    simp only [Control, hp] at h
    exact fun _ => h
  | pipe b hp hn hf =>
    simp only [Control, hp] at h
    exact ⟨hn, h⟩
  | clear b word hp =>
    simp only [Control, hp] at h
    exact ⟨by simp only [clearPipe]; omega, h.2⟩
  | data b hp hn hf =>
    simp only [Control, hp] at h
    exact fun _ => h
  | closed b hp hn =>
    simp only [Control, hp] at h
    exact ⟨hn.le, h.2⟩
  | closedData b ret hp hn =>
    simp only [Control, hp] at h
    exact fun _ => h.2
  | copy b hp =>
    simp only [Control, hp] at h
    exact h
  | call b hp =>
    simp only [Control, hp] at h
    exact h
  | ready r w readfds writefds nfds hp hr hw =>
    simp only [Control, hp] at h
    exact h.2
  | timedOut readfds writefds nfds hp =>
    simp only [Control, hp] at h
    exact h.2
  | failed readfds writefds nfds hp =>
    simp only [Control, hp] at h
    exact h.2

theorem Control.readScan (h : s.Control) (hp : s.place = .readScan) :
    0 < s.sNumFDsBackFromSelect ∧ s.sInReadSet = true := by
  simpa only [Control, hp] using h

theorem Control.writeScan (h : s.Control) (hp : s.place = .writeScan) :
    0 < s.sNumFDsBackFromSelect ∧ s.sInReadSet = false := by
  simpa only [Control, hp] using h

theorem Control.clearing (h : s.Control) {word : FdSet} (hp : s.place = .clearing word) :
    0 < s.sNumFDsBackFromSelect ∧ s.Fresh := by
  simpa only [Control, hp] using h

/-! ## The words of a set -/

section Words

variable {set word : FdSet} {fd f : Nat}

theorem mem_word : f ∈ set.word fd ↔ f ∈ set ∧ f / NFDBITS = fd / NFDBITS := Finset.mem_filter

theorem mem_store : f ∈ set.store fd word ↔ f ∈ set ∧ f / NFDBITS ≠ fd / NFDBITS ∨ f ∈ word := by
  rw [FdSet.store, Finset.mem_union, Finset.mem_filter]

/-- A bit is cleared when nothing comes between the load and the store. -/
theorem store_word (hword : ∀ g, g ∈ word ↔ g ∈ set ∧ g / NFDBITS = fd / NFDBITS) :
    set.store fd (word.erase fd) = set.erase fd := by
  ext f
  rw [mem_store, Finset.mem_erase, Finset.mem_erase, hword]
  by_cases hf : f / NFDBITS = fd / NFDBITS
  · simp [hf]
  · have hne : f ≠ fd := fun heq => hf (by rw [heq])
    simp [hf, hne]

/-- The bit is clear after the store, whatever was loaded. -/
theorem notMem_store : fd ∉ set.store fd (word.erase fd) := by
  simp [mem_store]

end Words

/-! ## The bound of the scans -/

theorem le_lowerMax {r w : FdSet} {f n : Nat} (hf : f ∈ r ∨ f ∈ w) (hn : f ≤ n) : f ≤ lowerMax r w n := by
  induction n with
  | zero => exact hn
  | succ n ih =>
    unfold lowerMax
    split
    next => exact hn
    next hno =>
      refine ih (Nat.le_of_lt_succ (lt_of_le_of_ne hn ?_))
      rintro rfl
      exact hno hf

theorem mem_assign {on : Bool} {f g : Nat} {set : FdSet} :
    f ∈ assign on g set ↔ if f = g then on = true else f ∈ set := by
  cases on <;> by_cases h : f = g <;> simp [assign, h]

/-- `sMaxFDPos` bounds what is watched. -/
def Covered (s : SelectEvents δ) : Prop := ∀ f, f ∈ s.sReadSet ∨ f ∈ s.sWriteSet → f ≤ s.sMaxFDPos

/-- `sMaxFDPos` is lowered when a descriptor leaves the sets that was the highest. -/
theorem le_lowered {r w : FdSet} {which max f : Nat} (hf : f ∈ r ∨ f ∈ w) (hle : f ≤ max) :
    f ≤ if which = max then lowerMax r w max else max := by
  split
  next => exact le_lowerMax hf hle
  next => exact hle

theorem Covered.modwatch (h : s.Covered) (fd : Nat) (data : δ) (which : BitVec 32) :
    (s.modwatch fd data which).Covered := by
  intro f hf
  simp only [SelectEvents.modwatch, mem_assign] at hf ⊢
  by_cases hfd : f = fd
  · split <;> omega
  · simp only [if_neg hfd] at hf
    have := h f hf
    split <;> omega

theorem covered_step {o : Option (Entry δ)} (h : s.Covered) (hs : Does s act s' o) : s'.Covered := by
  cases hs with
  | modwatch fd data which hfd => exact h.modwatch fd data which
  | removeevent fd hfd =>
    exact fun f hf => le_lowered hf (h f (hf.imp Finset.mem_of_mem_erase Finset.mem_of_mem_erase))
  | readFound b hp hf =>
    rw [scanRead, if_pos hf]
    exact fun f hf => h f (hf.imp Finset.mem_of_mem_erase Finset.mem_of_mem_erase)
  | writeFound b hp hf =>
    rw [scanWrite, if_pos hf]
    exact fun f hf => h f (hf.imp Finset.mem_of_mem_erase Finset.mem_of_mem_erase)
  | _ => exact h

/-- The pipe is watched for reading and never reported, and `sMaxFDPos` bounds what is watched. -/
structure Bounded (s : SelectEvents δ) : Prop where
  pipe_watched : s.sPipe ∈ s.sReadSet
  pipe_not_write : s.sPipe ∉ s.sWriteSet
  pipe_not_saved : s.sPipe ∉ s.sReturnedWriteSet
  pipe_not_asked : ∀ r w nfds, s.place = .blocked r w nfds → s.sPipe ∉ w
  /-- `selecthasdata` takes the pipe out of the result. -/
  pipe_taken : 0 < s.sNumFDsBackFromSelect → s.place.PastPipe → s.sPipe ∉ s.sReturnedReadSet
  le_max : s.Covered

theorem bounded_startevents (pipe : Nat) : (startevents pipe : SelectEvents δ).Bounded where
  pipe_watched := by simp [startevents]
  pipe_not_write := by simp [startevents]
  pipe_not_saved := by simp [startevents]
  pipe_not_asked := by simp [startevents]
  pipe_taken := by simp [startevents]
  le_max := by simp [startevents, Covered]

theorem Bounded.modwatch (h : s.Bounded) {fd : Nat} (hfd : fd ≠ s.sPipe) (data : δ) (which : BitVec 32) :
    (s.modwatch fd data which).Bounded where
  pipe_watched := by simpa [SelectEvents.modwatch, mem_assign, hfd.symm] using h.pipe_watched
  pipe_not_write := by simpa [SelectEvents.modwatch, mem_assign, hfd.symm] using h.pipe_not_write
  pipe_not_saved := h.pipe_not_saved
  pipe_not_asked := h.pipe_not_asked
  pipe_taken := h.pipe_taken
  le_max := h.le_max.modwatch fd data which

theorem Bounded.removeevent (h : s.Bounded) {fd : Nat} (hfd : fd ≠ s.sPipe) : (s.removeevent fd).Bounded where
  pipe_watched := Finset.mem_erase.2 ⟨hfd.symm, h.pipe_watched⟩
  pipe_not_write hm := h.pipe_not_write (Finset.mem_of_mem_erase hm)
  pipe_not_saved hm := h.pipe_not_saved (Finset.mem_of_mem_erase hm)
  pipe_not_asked := h.pipe_not_asked
  pipe_taken hn hp hm := h.pipe_taken hn hp (Finset.mem_of_mem_erase hm)
  le_max := covered_step h.le_max (.removeevent fd hfd)

/-- A descriptor other than the pipe is reported. -/
theorem Bounded.report (h : s.Bounded) {fd pos : Nat} {r w : FdSet} (hfd : fd ≠ s.sPipe)
    (hr : r ⊆ s.sReturnedReadSet) (hw : w ⊆ s.sReturnedWriteSet) (hp : s.place.PastPipe) (event : BitVec 32) :
    (constructeventreq { s with sCurrentFDPos := pos, sReturnedReadSet := r, sReturnedWriteSet := w } fd event).Bounded
    where
  pipe_watched := Finset.mem_erase.2 ⟨hfd.symm, h.pipe_watched⟩
  pipe_not_write hm := h.pipe_not_write (Finset.mem_of_mem_erase hm)
  pipe_not_saved hm := h.pipe_not_saved (hw hm)
  pipe_not_asked _ _ _ hb := by cases hb
  pipe_taken hn _ hm := h.pipe_taken hn hp (hr hm)
  le_max f hf := h.le_max f (hf.imp Finset.mem_of_mem_erase Finset.mem_of_mem_erase)

theorem bounded_step {o : Option (Entry δ)} (hc : s.Control) (h : s.Bounded) (hs : Does s act s' o) : s'.Bounded := by
  cases hs with
  | modwatch fd data which hfd => exact h.modwatch hfd data which
  | removeevent fd hfd => exact h.removeevent hfd
  | readFound b hp hf =>
    have hne : s.sPipe ∉ s.sReturnedReadSet := h.pipe_taken (hc.readScan hp).1 (by rw [hp]; trivial)
    rw [scanRead, if_pos hf]
    refine h.report (fun heq => hne ?_) (Finset.erase_subset _ _) subset_rfl (by rw [hp]; trivial) evRE
    rwa [← heq]
  | writeFound b hp hf =>
    rw [scanWrite, if_pos hf]
    refine h.report (fun heq => h.pipe_not_saved ?_) subset_rfl (Finset.erase_subset _ _) (by rw [hp]; trivial) evWR
    rwa [← heq]
  | pipe b hp hn hf => exact { h with pipe_not_asked := nofun, pipe_taken := fun _ hpast => hpast.elim }
  | clear b word hp => exact { h with pipe_not_asked := nofun, pipe_taken := fun _ _ => notMem_store }
  | data b hp hn hf => exact { h with pipe_not_asked := nofun, pipe_taken := fun _ _ => hf }
  | again b hp hn => exact { h with pipe_not_asked := nofun, pipe_taken := fun hpos => absurd hpos (not_lt.2 hn) }
  | error b hp hn => exact { h with pipe_not_asked := nofun, pipe_taken := fun hpos => absurd hpos (not_lt.2 hn.le) }
  | copy b hp =>
    simp only [Control, hp] at hc
    exact { h with
      pipe_not_saved := h.pipe_not_write
      pipe_not_asked := nofun
      pipe_taken := fun hpos => absurd hpos (not_lt.2 hc.1) }
  | call b hp =>
    refine { h with
      pipe_not_asked := fun r w nfds hb => ?_
      pipe_taken := fun hpos _ => h.pipe_taken hpos (by rw [hp]; trivial) }
    cases hb
    exact h.pipe_not_saved
  | ready r w readfds writefds nfds hp hr hw =>
    exact { h with
      pipe_not_saved := fun hm => h.pipe_not_asked _ _ _ hp (hw hm)
      pipe_not_asked := nofun
      pipe_taken := fun _ hpast => hpast.elim }
  | timedOut readfds writefds nfds hp =>
    exact { h with
      pipe_not_saved := Finset.notMem_empty _
      pipe_not_asked := nofun
      pipe_taken := fun _ _ => Finset.notMem_empty _ }
  | reinit b hp | fresh b hp | failed _ _ _ hp =>
    exact { h with pipe_not_asked := nofun, pipe_taken := fun _ hpast => hpast.elim }
  | enterRead b ret hp | enterWrite b ret hp | enterCounted b ret hp | closedData b ret hp =>
    exact { h with pipe_not_asked := nofun, pipe_taken := fun hpos _ => h.pipe_taken hpos (by rw [hp]; trivial) }
  | readPast b hp | writePast b hp | closed b hp =>
    exact { h with pipe_not_asked := nofun, pipe_taken := fun hpos _ => h.pipe_taken hpos (by rw [hp]; trivial) }

theorem sPipe_step {o : Option (Entry δ)} (hs : Does s act s' o) : s'.sPipe = s.sPipe := by
  cases hs with
  | readFound b hp hf => rw [scanRead, if_pos hf]; rfl
  | writeFound b hp hf => rw [scanWrite, if_pos hf]; rfl
  | _ => rfl

/-- What `select` is called with. -/
theorem Does.called {o : Option (Entry δ)} {b : Bool} {r w : FdSet} {nfds : Nat} (hs : Does s (.next b) s' o)
    (hb : s'.place = .blocked r w nfds) : s.place = .calling ∧ nfds = s.sMaxFDPos + 1 := by
  cases hs with
  | call b hp => cases hb; exact ⟨hp, rfl⟩
  | readFound b hp hf => rw [scanRead, if_pos hf] at hb; cases hb
  | writeFound b hp hf => rw [scanWrite, if_pos hf] at hb; cases hb
  | _ => cases hb

/-! ## The log -/

/-- The system that takes notes. -/
abbrev noted : Logged (SelectEvents δ) (Entry δ) → SelectAct δ → Option (Logged (SelectEvents δ) (Entry δ)) :=
  Logged.step step observe

namespace Entry

/-- `select_modwatch` for the descriptor. -/
def Watches (f : Nat) : Entry δ → Prop
  | .modwatch g _ => g = f
  | .removed _ | .copied | .called | .loaded | .stored | .returned _ _ | .event _ => False

/-- `select_removeevent` for the descriptor. -/
def Removes (f : Nat) : Entry δ → Prop
  | .removed g => g = f
  | .modwatch _ _ | .copied | .called | .loaded | .stored | .returned _ _ | .event _ => False

/-- An event for the descriptor. -/
def Reports (f : Nat) : Entry δ → Prop
  | .event req => req.er_handle = f
  | .modwatch _ _ | .removed _ | .copied | .called | .loaded | .stored | .returned _ _ => False

/-- A result of `select`. -/
def IsReturned : Entry δ → Prop
  | .returned _ _ => True
  | .modwatch _ _ | .removed _ | .copied | .called | .loaded | .stored | .event _ => False

/-- A call of `select`. -/
def IsCalled : Entry δ → Prop
  | .called => True
  | .modwatch _ _ | .removed _ | .copied | .loaded | .stored | .returned _ _ | .event _ => False

/-- A load of the word with the bit of the pipe. -/
def IsLoaded : Entry δ → Prop
  | .loaded => True
  | .modwatch _ _ | .removed _ | .copied | .called | .stored | .returned _ _ | .event _ => False

instance (f : Nat) : DecidablePred (Watches f : Entry δ → Prop)
  | .modwatch g _ => inferInstanceAs (Decidable (g = f))
  | .removed _ | .copied | .called | .loaded | .stored | .returned _ _ | .event _ => instDecidableFalse

instance (f : Nat) : DecidablePred (Removes f : Entry δ → Prop)
  | .removed g => inferInstanceAs (Decidable (g = f))
  | .modwatch _ _ | .copied | .called | .loaded | .stored | .returned _ _ | .event _ => instDecidableFalse

instance (f : Nat) : DecidablePred (Reports f : Entry δ → Prop)
  | .event req => inferInstanceAs (Decidable (req.er_handle = f))
  | .modwatch _ _ | .removed _ | .copied | .called | .loaded | .stored | .returned _ _ => instDecidableFalse

instance : DecidablePred (IsCalled : Entry δ → Prop)
  | .called => instDecidableTrue
  | .modwatch _ _ | .removed _ | .copied | .loaded | .stored | .returned _ _ | .event _ => instDecidableFalse

instance : DecidablePred (IsLoaded : Entry δ → Prop)
  | .loaded => instDecidableTrue
  | .modwatch _ _ | .removed _ | .copied | .called | .stored | .returned _ _ | .event _ => instDecidableFalse

end Entry

/-- The result that is reported now: what `select` returned last. -/
def lastResult : List (Entry δ) → FdSet × FdSet
  | [] => (∅, ∅)
  | .returned r w :: _ => (r, w)
  | _ :: l => lastResult l

end SelectEvents

end ToolLib.Common
