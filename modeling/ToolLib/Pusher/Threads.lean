import ToolLib.Base.TwoStage
import ToolLib.Pusher.Frames

/-!
# The two threads over the frame cache

The pushing thread takes one step for a whole `pusher_pushFrame`, which runs under the mutex of the cache. The event
loop thread runs `PusherThread::readData` for the two sources; only `swapQueue` is under the mutex, so it takes one step
for each slot it looks at, one for a swap, and one in which the source looks at what it was handed, with pushes at any
point between them.

Frames are told apart by the number of pushes before them. `tags` remembers the number of the frame stored last in each
slot; `pushed`, `lost` and `delivered` are what happened so far. No branch of the code looks at any of the four.
-/

namespace ToolLib.Pusher

open ToolLib.Base

/-- Where the reading thread is; `t` is the media type of the source it reads for. -/
inductive Reader
  | idle
  /-- `findMediaType`, first loop. -/
  | find (t : Int) (i : Nat)
  | findSwap (t : Int)
  /-- `findMediaType`, second loop. -/
  | findAgain (t : Int) (i : Nat)
  /-- `CacheManager::readData`, first loop. -/
  | read (t : Int) (i : Nat)
  | readSwap (t : Int)
  /-- `CacheManager::readData`, second loop. -/
  | readAgain (t : Int)
  /-- `PusherThread::readData` has returned 1 with `tFrame`; the source has not come to the bytes yet. -/
  | got (t : Int) (tFrame : FrameRef) (k : Nat)
  deriving DecidableEq

/-- The number of the frame that is on its way to the source. -/
def Reader.inFlight : Reader → List Nat
  | .got _ _ k => [k]
  | _ => []

/-- What `readData` handed out to a source: the bytes behind the pointer when the source comes to them, their length, the
type of the source, and which push they come from. How many of them the source copies is another matter (`Handoff`). -/
structure Delivery where
  serial : Nat
  mediaType : Int
  bufferLen : Int
  bytes : List UInt8
  deriving DecidableEq

structure Sys where
  th : PusherThread
  reader : Reader
  tags : Bool → List Nat
  pushed : List Frame
  lost : List Nat
  delivered : List Delivery

namespace Sys

def manager (s : Sys) : CacheManager := s.th.manager

def setManager (s : Sys) (m : CacheManager) : Sys := { s with th := { s.th with manager := m } }

/-- The containers of an array, each with the number of the frame stored last in it. -/
def tagged (s : Sys) (b : Bool) : List (FrameContainer × Nat) := (s.manager.containers b).zip (s.tags b)

end Sys

/-- The numbers of the slots in use, in slot order. -/
def usedTags (q : List (FrameContainer × Nat)) : List Nat := q.filterMap fun p => if p.1.mFree then none else some p.2

namespace Sys

/-- The frames in the read queue. -/
def front (s : Sys) : List Nat := usedTags (s.tagged s.manager.readQueue)

/-- The frames in the write queue. -/
def back (s : Sys) : List Nat := usedTags (s.tagged s.manager.writeQueue)

/-- A step of the pushing thread. -/
def push (s : Sys) (f : Frame) : Sys :=
  let w := s.manager.writeQueue
  let k := s.pushed.length
  let s' := { s with th := (pusher_pushFrame s.th f).1, pushed := s.pushed ++ [f] }
  if (s.manager.writeData f).2 = 1 then
    match s.manager.write.findIdx? FrameContainer.getFreeStat with
    | some i => { s' with tags := Function.update s.tags w ((s.tags w).modify i fun _ => k) }
    | none => s'
  else { s' with lost := s.lost ++ ((if f.bufferLen ≤ 0 then [] else s.back) ++ [k]) }

/-- The test of `PusherThread::readData` on the type it found. -/
def compare (t type : Int) : Reader := if t ≠ type then .idle else .read t 0

/-- Slot `i` of the read queue is read and freed; a frame without bytes is not passed on. -/
def take (s : Sys) (t : Int) (i : Nat) : Sys :=
  let r := s.manager.takeSlot i ⟨none, 0, 0⟩
  let k := ((s.tags s.manager.readQueue)[i]?).getD 0
  { s.setManager r.1 with reader := if r.2.bufferLen = 0 then .idle else .got t r.2 k }

/-- The source comes to the bytes it was handed. -/
def deliver (s : Sys) (t : Int) (tFrame : FrameRef) (k : Nat) : Sys :=
  { s with reader := .idle, delivered := s.delivered ++ [⟨k, t, tFrame.bufferLen, s.manager.bytes tFrame⟩] }

/-- A step of the reading thread. -/
def readerStep (s : Sys) : Option Sys :=
  match s.reader with
  | .idle => none
  | .find t i =>
    match s.manager.read[i]? with
    | some c =>
      some { s with reader := if c.getFreeStat then .find t (i + 1) else compare t c.getMediaType }
    | none => some { s with reader := .findSwap t }
  | .findSwap t => some { s.setManager s.manager.swapQueue with reader := .findAgain t 0 }
  | .findAgain t i =>
    match s.manager.read[i]? with
    | some c =>
      some { s with reader := if c.getFreeStat then .findAgain t (i + 1) else compare t c.getMediaType }
    | none => some { s with reader := compare t 0 }
  | .read t i =>
    match s.manager.read[i]? with
    | some c => some (if c.getFreeStat then { s with reader := .read t (i + 1) } else s.take t i)
    | none => some { s with reader := .readSwap t }
  | .readSwap t => some { s.setManager s.manager.swapQueue with reader := .readAgain t }
  | .readAgain t =>
    match s.manager.read[0]? with
    | some c => some (if c.getFreeStat then { s with reader := .idle } else s.take t 0)
    | none => some { s with reader := .idle }
  | .got t tFrame k => some (s.deliver t tFrame k)

end Sys

/-- What can happen next: a push, a source asking for a frame, or the reading thread going on. -/
inductive Act
  | push (f : Frame)
  | begin (t : Int)
  | next

namespace Sys

/-- One step of the two threads. A source asks only when the reading thread is free. -/
def step (s : Sys) : Act → Option Sys
  | .push f => some (s.push f)
  | .begin t =>
    if s.reader = .idle then
      if s.th.fState ≠ DO_NOTHING then some s
      else some { s.setManager s.manager.firstCall with reader := .find t 0 }
    else none
  | .next => s.readerStep

/-- The account of the frames so far. -/
def abs (s : Sys) : TwoStage Frame where
  pushed := s.pushed
  out := s.delivered.map Delivery.serial ++ s.reader.inFlight
  front := s.front
  back := s.back
  lost := s.lost

@[simp] theorem setManager_manager (s : Sys) (m : CacheManager) : (s.setManager m).manager = m := rfl
@[simp] theorem setManager_tags (s : Sys) (m : CacheManager) : (s.setManager m).tags = s.tags := rfl
@[simp] theorem setManager_pushed (s : Sys) (m : CacheManager) : (s.setManager m).pushed = s.pushed := rfl
@[simp] theorem setManager_lost (s : Sys) (m : CacheManager) : (s.setManager m).lost = s.lost := rfl
@[simp] theorem setManager_delivered (s : Sys) (m : CacheManager) : (s.setManager m).delivered = s.delivered := rfl
@[simp] theorem setManager_reader (s : Sys) (m : CacheManager) : (s.setManager m).reader = s.reader := rfl

/-- A state that differs from `s` in the place of the reader only. -/
theorem abs_reader (s : Sys) (r : Reader) (h : r.inFlight = s.reader.inFlight) :
    abs { s with reader := r } = s.abs := by
  simp only [abs, h]; rfl

end Sys

/-! ## The state after the first call -/

/-- The state the first reader call leaves: both queues of length `n` are empty, every container can hold `cap` bytes,
and nothing has been pushed since. -/
structure Start (n cap : Nat) (s : Sys) : Prop where
  first : s.manager.firstRead = false
  two : s.manager.writeQueue = !s.manager.readQueue
  length : ∀ b, (s.manager.containers b).length = n
  tags : ∀ b, (s.tags b).length = n
  free : ∀ b, ∀ c ∈ s.manager.containers b, c.mFree = true
  memoryLen : ∀ b, ∀ c ∈ s.manager.containers b, c.memoryLen = cap
  idle : s.reader = .idle
  pushed : s.pushed = []
  lost : s.lost = []
  delivered : s.delivered = []

/-- Pushes of frames that fit, with one of the two media types; reads by the two sources. -/
def Act.Typed (cap : Nat) : Act → Prop
  | .push f => 1 ≤ f.bufferLen ∧ f.bufferLen ≤ cap ∧ (f.type = VIDEO_TYPE ∨ f.type = AUDIO_TYPE)
  | .begin t => t = VIDEO_TYPE ∨ t = AUDIO_TYPE
  | .next => True

/-- The first call of a reader on a new cache leaves such a state, whatever the flags held. -/
theorem start_new (cap n : Nat) (free : Bool → Nat → Bool) :
    Start n cap ⟨⟨(CacheManager.new cap n free).firstCall, DO_NOTHING⟩, .idle, fun _ => List.replicate n 0, [], [], []⟩ where
  first := rfl
  two := rfl
  length b := by simp [Sys.manager, CacheManager.firstCall, CacheManager.new, CacheManager.cleanCache]
  tags b := by simp
  free b c hc := by
    simp only [Sys.manager, CacheManager.firstCall, CacheManager.new, CacheManager.cleanCache, if_true, List.map_map,
      List.mem_map] at hc
    obtain ⟨i, -, rfl⟩ := hc
    rfl
  memoryLen b c hc := by
    simp only [Sys.manager, CacheManager.firstCall, CacheManager.new, CacheManager.cleanCache, if_true, List.map_map,
      List.mem_map] at hc
    obtain ⟨i, -, rfl⟩ := hc
    rfl
  idle := rfl
  pushed := rfl
  lost := rfl
  delivered := rfl

end ToolLib.Pusher
