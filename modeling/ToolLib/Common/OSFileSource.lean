import Mathlib.Logic.Function.Basic
import ToolLib.Base.Outputs
import ToolLib.Base.Signed

/-!
# OSFileSource

The block cache of OSFileSource.cpp. The buffers are numbered in the order in which they are allocated, `buffers` is what
is in them, and an entry of the map is the number of a buffer or `NULL`. The queue of the pool is a list from its head (the
least recently used buffer) to its tail.

`none` is a run that stops: an assertion that fails, a division by zero, an access outside of the map, or a `memcpy` whose
length is negative or which leaves the buffer.

The copies of the two libraries differ in how `FillBuffer` multiplies; the product is a parameter (`startPos`), and so are
the size of a pointer and `ULONG_MAX`. Whether the read of a block from disk fails is given with the action.
-/

namespace ToolLib.Common.FileSource

open ToolLib.Base

/-- A file: `st_size` is an `off_t`. -/
structure File where
  length : Nat
  byte : Nat → UInt8
  small : length < 9223372036854775808

/-- What `read` gives at a position: fewer bytes than asked for only at the end of the file. -/
def File.read (f : File) (pos len : Nat) : List UInt8 :=
  (List.range (min len (f.length - pos))).map fun i => f.byte (pos + i)

/-- The sizes of the types. `kUInt32_Max` is `ULONG_MAX`. -/
structure Abi where
  sizeofPointer : Nat
  kUInt32_Max : Nat

/-- `unsigned long` has 64 bits. -/
def lp64 : Abi := ⟨8, 18446744073709551615⟩

/-- `unsigned long` has 32 bits. -/
def long32 (sizeofPointer : Nat) : Abi := ⟨sizeofPointer, 4294967295⟩

/-- "(SInt64) kUInt32_Max": -1 where `unsigned long` has 64 bits. -/
def Abi.maxLength (abi : Abi) : Int := signed 64 abi.kUInt32_Max

structure Platform extends Abi where
  /-- `startPos` in `FillBuffer`, of the block's index and its size. -/
  startPos : Nat → Nat → Nat

/-- "(UInt64) buffIndex * (UInt64) buffSize" -/
def linuxWindows (abi : Abi) : Platform := ⟨abi, fun buffIndex buffSize => buffIndex * buffSize % 18446744073709551616⟩

/-- "buffIndex * buffSize", an `SInt32` and a `UInt32`, which are `signed long` and `unsigned long`, of 32 bits here. -/
def linux (sizeofPointer : Nat) : Platform :=
  ⟨long32 sizeofPointer, fun buffIndex buffSize => buffIndex * buffSize % 4294967296⟩

inductive ReadResult
  | error
  | ok (bytes : List UInt8)
  deriving DecidableEq

/-! ## FileBlockPool and FileMap -/

structure FileBlockBuffer where
  fArrayIndex : Int
  fBufferFillSize : Nat
  fDataBuffer : Nat → UInt8
  /-- Not in the code: the file that the last fill has read, `none` when it failed. -/
  filledFrom : Option File

/-- The buffer after a read into it. -/
def FileBlockBuffer.filled (b : FileBlockBuffer) (bytes : List UInt8) (file : Option File) : FileBlockBuffer where
  fArrayIndex := b.fArrayIndex
  fBufferFillSize := bytes.length
  fDataBuffer i := bytes.getD i (b.fDataBuffer i)
  filledFrom := file

/-- The buffer after a read that has failed: `readLen` is 0. -/
def FileBlockBuffer.failed (b : FileBlockBuffer) : FileBlockBuffer := { b with fBufferFillSize := 0, filledFrom := none }

structure FileBlockPool where
  fQueue : List Nat
  fMaxBuffers : Nat
  fNumCurrentBuffers : Nat
  fBufferInc : Nat
  fBufferUnitSizeBytes : Nat

structure FileMap where
  fFileMapArray : Option (Nat → Option Nat)
  fDataBufferSize : Nat
  fMapArraySize : Nat
  fNumBuffSizeUnits : Nat
  fBlockPool : FileBlockPool
  buffers : Nat → FileBlockBuffer
  /-- How many buffers have been allocated. -/
  allocated : Nat

namespace FileBlockPool

def setMaxBuffers (p : FileBlockPool) (maxBuffers : Nat) : FileBlockPool :=
  if 0 < maxBuffers then { p with fMaxBuffers := maxBuffers } else p

def setBuffIncValue (p : FileBlockPool) (bufferInc : Nat) : FileBlockPool :=
  if 0 < bufferInc then { p with fBufferInc := bufferInc } else p

def incMaxBuffers (p : FileBlockPool) : FileBlockPool :=
  { p with fMaxBuffers := (p.fMaxBuffers + p.fBufferInc) % 4294967296 }

def decMaxBuffers (p : FileBlockPool) : FileBlockPool :=
  if p.fBufferInc < p.fMaxBuffers then { p with fMaxBuffers := p.fMaxBuffers - p.fBufferInc } else p

def kBufferUnitSize : Nat := 32768

/-- All buffers are deleted. -/
def deleteBlockPool (p : FileBlockPool) : FileBlockPool :=
  { p with fQueue := [], fMaxBuffers := 1, fNumCurrentBuffers := 0, fBufferUnitSizeBytes := kBufferUnitSize }

end FileBlockPool

namespace FileMap

def withQueue (m : FileMap) (fQueue : List Nat) : FileMap :=
  { m with fBlockPool := { m.fBlockPool with fQueue := fQueue } }

/-- A new buffer is allocated and put on the tail of the queue. -/
def newBuffer (m : FileMap) : FileMap where
  fFileMapArray := m.fFileMapArray
  fDataBufferSize := m.fDataBufferSize
  fMapArraySize := m.fMapArraySize
  fNumBuffSizeUnits := m.fNumBuffSizeUnits
  fBlockPool := { m.fBlockPool with
    fQueue := m.fBlockPool.fQueue ++ [m.allocated], fNumCurrentBuffers := m.fBlockPool.fNumCurrentBuffers + 1 }
  buffers := Function.update m.buffers m.allocated ⟨-1, 0, fun _ => 0, none⟩
  allocated := m.allocated + 1

/-- `FileBlockPool::GetBufferElement`. -/
def getBufferElement (m : FileMap) : Option (FileMap × Nat) :=
  if m.fBlockPool.fNumCurrentBuffers < m.fBlockPool.fMaxBuffers then some (m.newBuffer, m.allocated)
  else
    match m.fBlockPool.fQueue with
    | [] => none
    | theElem :: fQueue => some (m.withQueue fQueue, theElem)

/-- `FileBlockPool::MarkUsed`. -/
def markUsed (m : FileMap) (inBuff : Nat) : FileMap :=
  if m.fBlockPool.fQueue.getLast? = some inBuff then m else m.withQueue (m.fBlockPool.fQueue.erase inBuff ++ [inBuff])

/-- `fFileMapArray[index] = entry`. -/
def setEntry (m : FileMap) (index : Int) (entry : Option Nat) : Option FileMap :=
  m.fFileMapArray.bind fun array =>
    if 0 ≤ index ∧ index < m.fMapArraySize then
      some { m with fFileMapArray := some (Function.update array index.toNat entry) }
    else none

/-- `DeleteOldBuffs`, with as many turns as there are buffers. -/
def deleteOldBuffs : Nat → FileMap → Option FileMap
  | 0, m => some m
  | n + 1, m =>
    if m.fBlockPool.fMaxBuffers < m.fBlockPool.fNumCurrentBuffers then
      m.getBufferElement.bind fun (m, theElem) =>
        (m.setEntry (m.buffers theElem).fArrayIndex none).bind fun m =>
          deleteOldBuffs n
            { m with fBlockPool := { m.fBlockPool with fNumCurrentBuffers := m.fBlockPool.fNumCurrentBuffers - 1 } }
    else some m

/-- A number as an `SInt32`. -/
def toSInt32 (n : Nat) : Int :=
  if n % 4294967296 < 2147483648 then (n % 4294967296 : Nat) else (n % 4294967296 : Nat) - 4294967296

/-- The buffer that is in the map for a block, or else one from the pool. -/
def findBuffer (m : FileMap) (buffIndex : Nat) : Option (FileMap × Nat) :=
  m.fFileMapArray.bind fun array =>
    match array buffIndex with
    | some theElem => some (m, theElem)
    | none => m.getBufferElement

/-- A buffer is put into the map for a block, and out of it for the block that it was for. -/
def moveBuffer (m : FileMap) (theElem buffIndex : Nat) : Option FileMap :=
  -- "reset the old map location"
  (if 0 ≤ (m.buffers theElem).fArrayIndex then m.setEntry (m.buffers theElem).fArrayIndex none else some m).bind fun m =>
    (m.setEntry buffIndex (some theElem)).map fun m =>
      { m with buffers := Function.update m.buffers theElem { m.buffers theElem with fArrayIndex := buffIndex } }

/-- What `GetBuffer` does with the buffer it has found: whether it has to be filled comes back with it. -/
def placeBuffer (m : FileMap) (theElem buffIndex : Nat) : Option (FileMap × Nat × Bool) :=
  let m := m.markUsed theElem
  if (m.buffers theElem).fArrayIndex = buffIndex then some (m, theElem, false)
  else (m.moveBuffer theElem buffIndex).map fun m => (m, theElem, true)

/-- `GetBuffer`. -/
def getBuffer (m : FileMap) (buffIndex : Nat) : Option (FileMap × Nat × Bool) :=
  (deleteOldBuffs m.fBlockPool.fNumCurrentBuffers m).bind fun m =>
    if (buffIndex : Int) < toSInt32 m.fMapArraySize then
      (m.findBuffer buffIndex).bind fun (m, theElem) => m.placeBuffer theElem buffIndex
    else none

/-- How many units `AllocateBufferMap` gives a buffer. -/
def numBuffSizeUnits (inUnitSizeInK inNumBuffSizeUnits inMaxBitRateBuffSizeInBlocks inBitRate : Nat) : Nat :=
  let fBufferUnitSizeBytes := max 1 inUnitSizeInK * 1024 % 4294967296
  -- "just use the maximum possible size"
  let inBitRate := if inBitRate = 0 then inMaxBitRateBuffSizeInBlocks * fBufferUnitSizeBytes % 4294967296 else inBitRate
  max 1 (if inNumBuffSizeUnits = 0 then min (inBitRate / fBufferUnitSizeBytes) inMaxBitRateBuffSizeInBlocks
    else inNumBuffSizeUnits)

/-- The size of a buffer: `DeleteBlockPool` has set the size of a unit back before it is computed. -/
def dataBufferSize (units : Nat) : Nat := FileBlockPool.kBufferUnitSize * units % 4294967296

/-- No division of `AllocateBufferMap` is by zero, and the sizes that `NEW` and `Clean` take as `SInt32` fit. -/
def Fits (sizeofPointer inUnitSizeInK inNumBuffSizeUnits inMaxBitRateBuffSizeInBlocks fileLen inBitRate : Nat) : Prop :=
  let size := dataBufferSize (numBuffSizeUnits inUnitSizeInK inNumBuffSizeUnits inMaxBitRateBuffSizeInBlocks inBitRate)
  (inNumBuffSizeUnits = 0 → max 1 inUnitSizeInK * 1024 % 4294967296 ≠ 0) ∧ size ≠ 0 ∧
    fileLen / size + 1 + 1 < 2147483648 ∧ sizeofPointer * (fileLen / size + 1) < 2147483648

instance (sizeofPointer inUnitSizeInK inNumBuffSizeUnits inMaxBitRateBuffSizeInBlocks fileLen inBitRate : Nat) :
    Decidable (Fits sizeofPointer inUnitSizeInK inNumBuffSizeUnits inMaxBitRateBuffSizeInBlocks fileLen inBitRate) :=
  inferInstanceAs (Decidable (_ ∧ _ ∧ _ ∧ _))

/-- The shortcut of `AllocateBufferMap`: the map is kept. -/
def Keeps (m : FileMap) (inNumBuffSizeUnits inBufferIncCount : Nat) : Prop :=
  m.fFileMapArray.isSome ∧ m.fNumBuffSizeUnits = inNumBuffSizeUnits ∧ inBufferIncCount = m.fBlockPool.fMaxBuffers

instance (m : FileMap) (inNumBuffSizeUnits inBufferIncCount : Nat) : Decidable (m.Keeps inNumBuffSizeUnits inBufferIncCount) :=
  inferInstanceAs (Decidable (_ ∧ _ ∧ _))

/-- The map that `AllocateBufferMap` makes. -/
def makeMap (m : FileMap) (units inBufferIncCount fileLen : Nat) : FileMap where
  fFileMapArray := some fun _ => none
  fDataBufferSize := dataBufferSize units
  fMapArraySize := fileLen / dataBufferSize units + 1
  fNumBuffSizeUnits := units
  fBlockPool := (m.fBlockPool.deleteBlockPool.setMaxBuffers inBufferIncCount).setBuffIncValue inBufferIncCount
  buffers := m.buffers
  allocated := m.allocated

/-- `AllocateBufferMap`. -/
def allocateBufferMap (sizeofPointer : Nat) (m : FileMap) (inUnitSizeInK inNumBuffSizeUnits inBufferIncCount
    inMaxBitRateBuffSizeInBlocks fileLen inBitRate : Nat) : Option FileMap :=
  if m.Keeps inNumBuffSizeUnits inBufferIncCount then some m
  else if Fits sizeofPointer inUnitSizeInK inNumBuffSizeUnits inMaxBitRateBuffSizeInBlocks fileLen inBitRate then
    some (m.makeMap (numBuffSizeUnits inUnitSizeInK inNumBuffSizeUnits inMaxBitRateBuffSizeInBlocks inBitRate)
      inBufferIncCount fileLen)
  else none

end FileMap

/-! ## OSFileSource -/

structure OSFileSource where
  /-- The file that is open, `none` for the descriptor -1. -/
  fFile : Option File
  fLength : Nat
  fFileMap : FileMap
  fCacheEnabled : Bool

namespace OSFileSource

/-- The constructor. `fBufferInc` is not set there. -/
def new (fBufferInc : Nat) : OSFileSource where
  fFile := none
  fLength := 0
  fFileMap := ⟨none, 0, 0, 0, ⟨[], 1, 0, fBufferInc, FileBlockPool.kBufferUnitSize⟩, fun _ => ⟨-1, 0, fun _ => 0, none⟩,
    0⟩
  fCacheEnabled := false

/-- `Set`, with the file that `open` finds. -/
def set (s : OSFileSource) (file : Option File) : OSFileSource :=
  match file with
  | none => { s with fFile := none, fLength := 0 }
  | some f => { s with fFile := some f, fLength := f.length }

/-- `ReadFromPos`. `lseek` takes no negative offset, and a count of -1 is an error. -/
def readFromPos (s : OSFileSource) (inPosition inLength : Nat) : ReadResult :=
  match s.fFile with
  | none => .error
  | some f =>
    if 9223372036854775808 ≤ inPosition ∨ (f.read inPosition inLength).length = 4294967295 then .error
    else .ok (f.read inPosition inLength)

def withBuffer (s : OSFileSource) (buff : Nat) (b : FileBlockBuffer) : OSFileSource :=
  { s with fFileMap := { s.fFileMap with buffers := Function.update s.fFileMap.buffers buff b } }

/-- `FillBuffer`, and whether it succeeds. -/
def fillBuffer (p : Platform) (s : OSFileSource) (buff buffIndex : Nat) (fails : Bool) : OSFileSource × Bool :=
  match if fails then ReadResult.error
    else s.readFromPos (p.startPos buffIndex s.fFileMap.fDataBufferSize) s.fFileMap.fDataBufferSize with
  | .error => (s.withBuffer buff (s.fFileMap.buffers buff).failed, false)
  | .ok bytes => (s.withBuffer buff ((s.fFileMap.buffers buff).filled bytes s.fFile), true)

/-- `GetBuffIndex`. -/
def getBuffIndex (s : OSFileSource) (inPosition : Nat) : Nat := inPosition / s.fFileMap.fDataBufferSize

/-- `GetMaxBuffIndex`. -/
def getMaxBuffIndex (s : OSFileSource) : Int := (s.fFileMap.fMapArraySize : Int) - 1

/-! ### ReadFromCache -/

/-- The variables of the loop of `ReadFromCache`. At the start of a turn `buffCopyLen` is `bytesToCopy`; `copied` is what has
been written to `inBuffer`. -/
structure Copying where
  source : OSFileSource
  buffIndex : Nat
  buffPos : Nat
  bytesToCopy : Int
  copied : List UInt8

inductive Turn
  | next (c : Copying)
  | done (s : OSFileSource) (r : ReadResult)

/-- The buffer of a block, filled when it has to be, and whether that succeeds. -/
def fetch (p : Platform) (fails : Nat → Bool) (s : OSFileSource) (buffIndex : Nat) : Option (OSFileSource × Nat × Bool) :=
  (s.fFileMap.getBuffer buffIndex).map fun (m, buff, fillBuff) =>
    let s := { s with fFileMap := m }
    if fillBuff then
      let (s, ok) := s.fillBuffer p buff buffIndex (fails buffIndex)
      (s, buff, ok)
    else (s, buff, true)

/-- `memcpy` from a buffer. -/
def memcpy (s : OSFileSource) (buff buffPos : Nat) (len : Int) : Option (List UInt8) :=
  if 0 ≤ len ∧ buffPos + len ≤ s.fFileMap.fDataBufferSize then
    some ((List.range len.toNat).map fun i => (s.fFileMap.buffers buff).fDataBuffer (buffPos + i))
  else none

/-- What a turn does with the buffer it has fetched. -/
def copyFrom (p : Platform) (c : Copying) (s : OSFileSource) (buff : Nat) : Option Turn :=
  let maxBuffSize := s.fFileMap.fDataBufferSize
  let buffSize := (s.fFileMap.buffers buff).fBufferFillSize
  if c.buffPos = 0 ∧ c.bytesToCopy ≤ maxBuffSize ∧ buffSize < c.bytesToCopy then
    -- "that's all there is in the file"
    if buffSize ≤ p.maxLength then (s.memcpy buff c.buffPos buffSize).map fun bytes => .done s (.ok (c.copied ++ bytes))
    else none
  else
    let buffOffsetLen := (buffSize : Int) - c.buffPos
    let buffCopyLen := if buffOffsetLen ≤ c.bytesToCopy then buffOffsetLen else c.bytesToCopy
    if buffCopyLen ≤ buffSize then
      (s.memcpy buff c.buffPos buffCopyLen).map fun bytes =>
        .next ⟨s, c.buffIndex + 1, 0, c.bytesToCopy - buffCopyLen, c.copied ++ bytes⟩
    else none

def turn (p : Platform) (fails : Nat → Bool) (c : Copying) : Option Turn :=
  (fetch p fails c.source c.buffIndex).bind fun (s, buff, ok) => if ok then copyFrom p c s buff else some (.done s .error)

/-- The loop, with as many turns as there are blocks up to `endIndex`. -/
def copyLoop (p : Platform) (fails : Nat → Bool) : Nat → Copying → Option (OSFileSource × ReadResult)
  | 0, c => some (c.source, .ok c.copied)
  | n + 1, c =>
    match turn p fails c with
    | none => none
    | some (.done s r) => some (s, r)
    | some (.next c) => copyLoop p fails n c

/-- `inPosition + inLength`, a `UInt64`. -/
def endPosition (inPosition inLength : Nat) : Nat := (inPosition + inLength) % 18446744073709551616

/-- Where the loop begins. -/
def beginCopy (s : OSFileSource) (inPosition inLength : Nat) : Copying :=
  ⟨s, s.getBuffIndex inPosition, inPosition - s.getBuffIndex inPosition * s.fFileMap.fDataBufferSize, inLength, []⟩

/-- How many turns it has. -/
def turns (s : OSFileSource) (inPosition inLength : Nat) : Nat :=
  s.getBuffIndex (endPosition inPosition inLength) + 1 - s.getBuffIndex inPosition

def readFromCache (p : Platform) (fails : Nat → Bool) (s : OSFileSource) (inPosition inLength : Nat) :
    Option (OSFileSource × ReadResult) :=
  if s.fLength ≤ inPosition then some (s, .ok [])
  else if s.getBuffIndex (endPosition inPosition inLength) < s.getBuffIndex inPosition ∨
      s.getMaxBuffIndex < s.getBuffIndex (endPosition inPosition inLength) then none
  else copyLoop p fails (s.turns inPosition inLength) (s.beginCopy inPosition inLength)

/-- Whether `Read` goes to the cache. -/
def Cached (s : OSFileSource) (inPosition inLength : Nat) : Prop :=
  s.fFileMap.fFileMapArray.isSome ∧ s.fCacheEnabled = true ∧
    (s.getBuffIndex (endPosition inPosition inLength) : Int) ≤ s.getMaxBuffIndex

instance (s : OSFileSource) (inPosition inLength : Nat) : Decidable (s.Cached inPosition inLength) :=
  inferInstanceAs (Decidable (_ ∧ _ ∧ _))

/-- `Read` at a position. -/
def read (p : Platform) (fails : Nat → Bool) (s : OSFileSource) (inPosition inLength : Nat) :
    Option (OSFileSource × ReadResult) :=
  if s.Cached inPosition inLength then s.readFromCache p fails inPosition inLength
  else some (s, s.readFromPos inPosition inLength)

/-! ### The calls -/

inductive Call
  | Set (file : Option File)
  | AllocateFileCache (inUnitSizeInK bufferSizeUnits incBuffers inMaxBitRateBuffSizeInBlocks inBitRate : UInt32)
  | EnableFileCache (enabled : Bool)
  | IncMaxBuffers
  | DecMaxBuffers
  /-- `fails` says which blocks cannot be read from disk during the call. -/
  | Read (inPosition : UInt64) (inLength : UInt32) (fails : Nat → Bool)

/-- What a call does, and what `Read` returns. -/
def call (p : Platform) (s : OSFileSource) : Call → Option (OSFileSource × Option ReadResult)
  | .Set file => some (s.set file, none)
  | .AllocateFileCache inUnitSizeInK bufferSizeUnits incBuffers inMaxBitRateBuffSizeInBlocks inBitRate =>
    (s.fFileMap.allocateBufferMap p.sizeofPointer inUnitSizeInK.toNat bufferSizeUnits.toNat incBuffers.toNat
      inMaxBitRateBuffSizeInBlocks.toNat s.fLength inBitRate.toNat).map fun m => ({ s with fFileMap := m }, none)
  | .EnableFileCache enabled => some ({ s with fCacheEnabled := enabled }, none)
  | .IncMaxBuffers =>
    some ({ s with fFileMap := { s.fFileMap with fBlockPool := s.fFileMap.fBlockPool.incMaxBuffers } }, none)
  | .DecMaxBuffers =>
    some ({ s with fFileMap := { s.fFileMap with fBlockPool := s.fFileMap.fBlockPool.decMaxBuffers } }, none)
  | .Read inPosition inLength fails =>
    (s.read p fails inPosition.toNat inLength.toNat).map fun (s, r) => (s, some r)

end OSFileSource

end ToolLib.Common.FileSource
