import Mathlib.Data.List.Basic
import Mathlib.Logic.Function.Basic
import Mathlib.Tactic.Common

/-!
# The frame cache of the pusher

`FrameContainer`, `CacheManager` (FramesManager.cpp) and the two functions of `PusherThread` over them
(PusherThread.cpp). The cache is two arrays of containers; `readQueue` and `writeQueue` say which array is which, and
`swapQueue` exchanges them together with their lengths, so a queue length is the length of its array. A pointer to the
buffer of a container is the array and the slot (`Ref`).
-/

namespace ToolLib.Pusher

def DO_NOTHING : Int := 0x00
def VIDEO_TYPE : Int := 0x01
def AUDIO_TYPE : Int := 0x02

/-- `struct Frame`; `buffer` is the memory behind the pointer, at least `bufferLen` bytes of it. -/
structure Frame where
  buffer : List UInt8
  bufferLen : Int
  type : Int
  fits : bufferLen ≤ buffer.length
  deriving DecidableEq

/-- The bytes of a frame. -/
def Frame.data (f : Frame) : List UInt8 := f.buffer.take f.bufferLen.toNat

/-- A video frame of two bytes. -/
def twoBytes : Frame := ⟨[7, 8], 2, VIDEO_TYPE, by decide⟩

/-- `memcpy(dst, src, n)`, as the memory at `dst` afterwards. -/
def memcpy (dst src : List UInt8) (n : Nat) : List UInt8 := src.take n ++ dst.drop n

theorem length_memcpy {dst src : List UInt8} {n : Nat} (hd : n ≤ dst.length) (hs : n ≤ src.length) :
    (memcpy dst src n).length = dst.length := by
  simp [memcpy]; omega

theorem take_memcpy {dst src : List UInt8} {n : Nat} (hs : n ≤ src.length) :
    (memcpy dst src n).take n = src.take n := by
  simp [memcpy, Nat.min_eq_left hs]

/-! ## Containers -/

/-- One slot of a queue: its frame, whose buffer is the memory allocated for it, and its free flag. -/
structure FrameContainer where
  f : Frame
  memoryLen : Int
  mFree : Bool
  alloc : f.buffer.length = memoryLen
  deriving DecidableEq

/-- A pointer to the buffer of a container: the array and the slot in it. -/
abbrev Ref := Bool × Nat

/-- `struct Frame` on the reading side, where `buffer` is a pointer (`NULL` is `none`). -/
structure FrameRef where
  buffer : Option Ref
  bufferLen : Int
  type : Int
  deriving DecidableEq

namespace FrameContainer

/-- The constructor leaves `mFree` as the memory was. -/
def new (frameSize : Nat) (mFree : Bool) : FrameContainer :=
  { f := ⟨List.replicate frameSize 0, 0, 0x00, by simp⟩, memoryLen := frameSize, mFree := mFree, alloc := by simp }

def setFreeStat (c : FrameContainer) (tFree : Bool) : FrameContainer := { c with mFree := tFree }

def getFreeStat (c : FrameContainer) : Bool := c.mFree

def getMediaType (c : FrameContainer) : Int := c.f.type

def cleanContainer (c : FrameContainer) : FrameContainer := c.setFreeStat true

/-- Returns 0 for a frame over the limit, and nothing when it runs to its end. -/
def writeData (c : FrameContainer) (tFrame : Frame) : FrameContainer × Option Int :=
  if h : tFrame.bufferLen > c.memoryLen then (c, some 0)
  else
    have hn : tFrame.bufferLen.toNat ≤ c.f.buffer.length := by have := c.alloc; omega
    have hs : tFrame.bufferLen.toNat ≤ tFrame.buffer.length := by have := tFrame.fits; omega
    ({ c with
        f := { buffer := memcpy c.f.buffer tFrame.buffer tFrame.bufferLen.toNat
               bufferLen := tFrame.bufferLen
               type := tFrame.type
               fits := by rw [length_memcpy hn hs]; omega }
        alloc := by rw [length_memcpy hn hs]; exact c.alloc }, none)

/-- Hands out the buffer itself, not a copy, and clears length and type. -/
def readData (c : FrameContainer) (self : Ref) : FrameContainer × FrameRef :=
  ({ c with f := { c.f with bufferLen := 0, type := 0, fits := by simp } }, ⟨some self, c.f.bufferLen, c.f.type⟩)

@[simp] theorem setFreeStat_mFree (c : FrameContainer) (b : Bool) : (c.setFreeStat b).mFree = b := rfl
@[simp] theorem setFreeStat_f (c : FrameContainer) (b : Bool) : (c.setFreeStat b).f = c.f := rfl
@[simp] theorem setFreeStat_memoryLen (c : FrameContainer) (b : Bool) : (c.setFreeStat b).memoryLen = c.memoryLen := rfl
@[simp] theorem cleanContainer_eq (c : FrameContainer) : c.cleanContainer = c.setFreeStat true := rfl
@[simp] theorem readData_buffer (c : FrameContainer) (p : Ref) : (c.readData p).1.f.buffer = c.f.buffer := rfl
@[simp] theorem readData_memoryLen (c : FrameContainer) (p : Ref) : (c.readData p).1.memoryLen = c.memoryLen := rfl
@[simp] theorem readData_ref (c : FrameContainer) (p : Ref) : (c.readData p).2 = ⟨some p, c.f.bufferLen, c.f.type⟩ := rfl
@[simp] theorem readData_bufferLen (c : FrameContainer) (p : Ref) : (c.readData p).1.f.bufferLen = 0 := rfl

@[simp] theorem writeData_memoryLen (c : FrameContainer) (t : Frame) : (c.writeData t).1.memoryLen = c.memoryLen := by
  unfold writeData; split <;> rfl

/-- The container holds the frame: same length, type and bytes. -/
def Holds (c : FrameContainer) (t : Frame) : Prop :=
  c.f.bufferLen = t.bufferLen ∧ c.f.type = t.type ∧ c.f.data = t.data

/-- A frame within the limit is stored. -/
theorem writeData_holds {c : FrameContainer} {t : Frame} (h : t.bufferLen ≤ c.memoryLen) :
    (c.writeData t).1.Holds t := by
  have hs : t.bufferLen.toNat ≤ t.buffer.length := by have := t.fits; omega
  unfold writeData
  rw [dif_neg (by omega)]
  exact ⟨rfl, rfl, take_memcpy hs⟩

/-- A frame over the limit leaves the container as it was. -/
theorem writeData_over {c : FrameContainer} {t : Frame} (h : c.memoryLen < t.bufferLen) :
    c.writeData t = (c, some 0) := by
  unfold writeData; rw [dif_pos h]

end FrameContainer

/-! ## Searching a queue -/

section Search

variable {γ : Type*} {p : γ → Bool}

/-- Where a search stops: at the first hit, or at the end. -/
theorem findIdx?_split (p : γ → Bool) (q : List γ) :
    (q.findIdx? p = none ∧ ∀ c ∈ q, p c = false) ∨
      ∃ xs c ys, q = xs ++ c :: ys ∧ q.findIdx? p = some xs.length ∧ p c = true ∧ ∀ x ∈ xs, p x = false := by
  induction q with
  | nil => exact Or.inl ⟨rfl, by simp⟩
  | cons a q ih =>
    cases ha : p a with
    | true => exact Or.inr ⟨[], a, q, rfl, by simp [List.findIdx?_cons, ha], ha, by simp⟩
    | false =>
      rcases ih with ⟨h, hq⟩ | ⟨xs, c, ys, rfl, h, hc, hxs⟩
      · exact Or.inl ⟨by simp [List.findIdx?_cons, ha, h], by simpa [ha] using hq⟩
      · exact Or.inr ⟨a :: xs, c, ys, rfl, by simp [List.findIdx?_cons, ha, h], hc, by simpa [ha] using hxs⟩

/-- Changing the element after `xs`. -/
theorem modify_split (xs ys : List γ) (c : γ) (g : γ → γ) :
    (xs ++ c :: ys).modify xs.length g = xs ++ g c :: ys := by
  induction xs with
  | nil => rfl
  | cons x xs ih => simp [ih]

end Search

/-! ## The cache -/

/-- The two arrays, which of them is read and which is written, and whether a reader has called yet. -/
structure CacheManager where
  containers : Bool → List FrameContainer
  readQueue : Bool
  writeQueue : Bool
  firstRead : Bool

namespace CacheManager

/-- The constructor; `free` is what the memory of the `mFree` flags happened to hold. -/
def new (frameSize queueLen : Nat) (free : Bool → Nat → Bool) : CacheManager where
  containers b := (List.range queueLen).map fun i => FrameContainer.new frameSize (free b i)
  readQueue := false
  writeQueue := true
  firstRead := true

/-- The array read. -/
def read (m : CacheManager) : List FrameContainer := m.containers m.readQueue

/-- The array written. -/
def write (m : CacheManager) : List FrameContainer := m.containers m.writeQueue

/-- Another content for one array. -/
def setQueue (m : CacheManager) (b : Bool) (q : List FrameContainer) : CacheManager :=
  { m with containers := Function.update m.containers b q }

def swapQueue (m : CacheManager) : CacheManager :=
  { m with readQueue := m.writeQueue, writeQueue := m.readQueue }

def cleanCache (m : CacheManager) : CacheManager :=
  { m with containers := fun b => (m.containers b).map fun c => c.cleanContainer.setFreeStat true }

/-- The opening of both reading functions: the first call of a reader empties the queues. -/
def firstCall (m : CacheManager) : CacheManager :=
  if m.firstRead then { m.cleanCache with firstRead := false } else m

def writeData (m : CacheManager) (tFrame : Frame) : CacheManager × Int :=
  if tFrame.bufferLen ≤ 0 then (m, 0)
  else
    match m.write.findIdx? FrameContainer.getFreeStat with
    | some i =>
      -- the answer of the container is not looked at
      (m.setQueue m.writeQueue (m.write.modify i fun fc => (fc.writeData tFrame).1.setFreeStat false), 1)
    | none => (m.setQueue m.writeQueue (m.write.map fun fc => fc.cleanContainer.setFreeStat true), 0)

/-- The type of the first frame of the read queue, looking again after a swap; 0 when there is none. -/
def findMediaType (m : CacheManager) : CacheManager × Int :=
  let m := m.firstCall
  match m.read.find? fun c => !c.getFreeStat with
  | some c => (m, c.getMediaType)
  | none =>
    let m := m.swapQueue
    match m.read.find? fun c => !c.getFreeStat with
    | some c => (m, c.getMediaType)
    | none => (m, 0)

/-- Reads the container of slot `i` of the read queue into `tFrame` and frees the slot. -/
def takeSlot (m : CacheManager) (i : Nat) (tFrame : FrameRef) : CacheManager × FrameRef :=
  match m.read[i]? with
  | some c =>
    (m.setQueue m.readQueue (m.read.modify i fun c => (c.readData (m.readQueue, i)).1.setFreeStat true),
      (c.readData (m.readQueue, i)).2)
  | none => (m, tFrame)

/-- After the swap only the first slot is looked at: the `return 1` stands outside the test. -/
def readData (m : CacheManager) (tFrame : FrameRef) : CacheManager × FrameRef × Int :=
  let m := m.firstCall
  match m.read.findIdx? fun c => !c.getFreeStat with
  | some i => let r := m.takeSlot i tFrame; (r.1, r.2, 1)
  | none =>
    let m := m.swapQueue
    match m.read with
    | [] => (m, tFrame, 0)
    | c :: _ => if !c.getFreeStat then let r := m.takeSlot 0 tFrame; (r.1, r.2, 1) else (m, tFrame, 1)

/-- The bytes a reader sees through the frame it was handed. -/
def bytes (m : CacheManager) (r : FrameRef) : List UInt8 :=
  match r.buffer with
  | none => []
  | some (b, i) =>
    match (m.containers b)[i]? with
    | none => []
    | some c => c.f.buffer.take r.bufferLen.toNat

@[simp] theorem setQueue_readQueue (m : CacheManager) (b q) : (m.setQueue b q).readQueue = m.readQueue := rfl
@[simp] theorem setQueue_writeQueue (m : CacheManager) (b q) : (m.setQueue b q).writeQueue = m.writeQueue := rfl
@[simp] theorem setQueue_firstRead (m : CacheManager) (b q) : (m.setQueue b q).firstRead = m.firstRead := rfl
@[simp] theorem setQueue_same (m : CacheManager) (b q) : (m.setQueue b q).containers b = q := by simp [setQueue]

theorem setQueue_other (m : CacheManager) {b b' : Bool} (h : b' ≠ b) (q) :
    (m.setQueue b q).containers b' = m.containers b' := by simp [setQueue, Function.update_of_ne h]

@[simp] theorem swapQueue_containers (m : CacheManager) : m.swapQueue.containers = m.containers := rfl
@[simp] theorem swapQueue_read (m : CacheManager) : m.swapQueue.read = m.write := rfl
@[simp] theorem swapQueue_write (m : CacheManager) : m.swapQueue.write = m.read := rfl
@[simp] theorem swapQueue_firstRead (m : CacheManager) : m.swapQueue.firstRead = m.firstRead := rfl

theorem firstCall_of_not {m : CacheManager} (h : m.firstRead = false) : m.firstCall = m := by simp [firstCall, h]

@[simp] theorem firstCall_firstRead (m : CacheManager) : m.firstCall.firstRead = false := by
  cases h : m.firstRead <;> simp [firstCall, h]

end CacheManager

/-! ## The pusher thread -/

/-- The fields of `PusherThread` that its `writeData` and `readData` use. -/
structure PusherThread where
  manager : CacheManager
  fState : Int

namespace PusherThread

def writeData (th : PusherThread) (tFrame : Frame) : PusherThread :=
  { th with manager := (th.manager.writeData tFrame).1 }

/-- Looks at the type of the next frame and takes the frame when the type is the caller's. -/
def readData (th : PusherThread) (tFrame : FrameRef) : PusherThread × FrameRef × Int :=
  if th.fState ≠ DO_NOTHING then (th, tFrame, -1)
  else
    let r := th.manager.findMediaType
    if tFrame.type ≠ r.2 then ({ th with manager := r.1 }, tFrame, 2)
    else
      let r' := r.1.readData ⟨none, 0, 0⟩
      if r'.2.1.bufferLen = 0 then ({ th with manager := r'.1 }, tFrame, 0)
      else
        ({ th with manager := r'.1 }, { tFrame with buffer := r'.2.1.buffer, bufferLen := r'.2.1.bufferLen }, 1)

end PusherThread

/-- The library call; pushes are serialised by a lock of its own. -/
def pusher_pushFrame (th : PusherThread) (tFrame : Frame) : PusherThread × Int := (th.writeData tFrame, 1)

end ToolLib.Pusher
