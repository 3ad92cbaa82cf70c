import Mathlib.Data.UInt
import ToolLib.Common.StringParser

/-!
# RTPMetaInfoPacket

`ParsePacket` of RTPMetaInfoPacket.cpp on a little-endian host, and the ID array of `ConstructFieldIDArrayFromHeader`. A
pointer is an address, and what it points to is what is left of the packet; the six field indices are a type, and
`kIllegalField` is `none`.
-/

namespace ToolLib.Common.RTPMetaInfo

/-! ## Fields -/

inductive Field
  | kPacketPosField
  | kTransTimeField
  | kFrameTypeField
  | kPacketNumField
  | kSeqNumField
  | kMediaDataField
  deriving DecidableEq

/-- The field indices from 0 on. -/
def allFields : List Field :=
  [.kPacketPosField, .kTransTimeField, .kFrameTypeField, .kPacketNumField, .kSeqNumField, .kMediaDataField]

/-- `TW0_CHARS_TO_INT(c1, c2)`. -/
def twoChars (c1 c2 : UInt8) : Nat := 256 * c1.toNat + c2.toNat

/-- The two characters of a field's name. -/
def nameChars : Field → UInt8 × UInt8
  | .kPacketPosField => (112, 112)
  | .kTransTimeField => (116, 116)
  | .kFrameTypeField => (102, 116)
  | .kPacketNumField => (112, 110)
  | .kSeqNumField => (115, 113)
  | .kMediaDataField => (109, 100)

def kFieldNameMap (f : Field) : Nat := twoChars (nameChars f).1 (nameChars f).2

def kFieldLengthValidator : Option Field → Nat
  | some .kPacketPosField => 8
  | some .kTransTimeField => 8
  | some .kFrameTypeField => 2
  | some .kPacketNumField => 8
  | some .kSeqNumField => 2
  | some .kMediaDataField => 0
  | none => 0

def getFieldIndexForName (inName : Nat) : Option Field := allFields.find? fun f => inName = kFieldNameMap f

def kUncompressed : Int := -1
def kFieldNotUsed : Int := -2

/-! ## The ID array -/

/-- A `UInt32` as the `SInt32` it becomes. -/
def toSInt32 (n : Nat) : Int := if n < 2147483648 then n else (n : Int) - 4294967296

/-- The loop of `ConstructFieldIDArrayFromHeader`. -/
def constructLoop (theParser : List UInt8) (ioFieldIDArray : Field → Int) : Field → Int :=
  if theParser = [] then ioFieldIDArray
  else
    let theFieldP := (StringParser.getThru 59 theParser).1
    -- "Corrupt or something... just bail"
    if theFieldP.length < 2 then ioFieldIDArray
    else
      let theID := if 3 < theFieldP.length then toSInt32 (StringParser.consumeInteger (theFieldP.drop 3)) else kUncompressed
      let ioFieldIDArray := match getFieldIndexForName (twoChars (theFieldP.getD 0 0) (theFieldP.getD 1 0)) with
        | some theIndex => Function.update ioFieldIDArray theIndex theID
        | none => ioFieldIDArray
      constructLoop (StringParser.getThru 59 theParser).2.2 ioFieldIDArray
  termination_by theParser.length
  decreasing_by
    have hlen : (StringParser.getThru 59 theParser).1.length + (StringParser.getThru 59 theParser).2.2.length ≤
        theParser.length := StringParser.length_getThru_le
    have hfield : ¬(StringParser.getThru 59 theParser).1.length < 2 := by assumption
    omega

def constructFieldIDArrayFromHeader (inHeader : List UInt8) : Field → Int :=
  constructLoop inHeader fun _ => kFieldNotUsed

/-! ## ParsePacket -/

/-- The bytes in network order as a number: `ntohs`, and `NetworkToHostSInt64` after the `memcpy`. -/
def hostOrder (bytes : List UInt8) : Nat := bytes.foldl (fun n b => 256 * n + b.toNat) 0

/-- The members of a packet that `ParsePacket` sets. `fTransmitTime` is the bits of an `SInt64`. -/
structure RTPMetaInfoPacket where
  fPacketPosition : UInt64
  fTransmitTime : UInt64
  fFrameType : UInt16
  fPacketNumber : UInt64
  fSeqNum : UInt16
  fMediaDataP : Nat
  fMediaDataLen : Nat
  deriving DecidableEq

namespace RTPMetaInfoPacket

/-- "store off the proper value depending on the field": the field's bytes are at `theFieldP`. -/
def store (p : RTPMetaInfoPacket) (theFieldIndex : Option Field) (theFieldP : Nat) (bytes : List UInt8) : RTPMetaInfoPacket :=
  match theFieldIndex with
  | some .kPacketPosField => { p with fPacketPosition := UInt64.ofNat (hostOrder bytes) }
  | some .kTransTimeField => { p with fTransmitTime := UInt64.ofNat (hostOrder bytes) }
  | some .kFrameTypeField => { p with fFrameType := UInt16.ofNat (hostOrder bytes) }
  | some .kPacketNumField => { p with fPacketNumber := UInt64.ofNat (hostOrder bytes) }
  | some .kSeqNumField => { p with fSeqNum := UInt16.ofNat (hostOrder bytes) }
  | some .kMediaDataField => { p with fMediaDataP := theFieldP, fMediaDataLen := bytes.length }
  | none => p

end RTPMetaInfoPacket

/-- `*theFieldName`: a native load of two bytes. -/
def loadFieldName (field : List UInt8) : Nat := (field.getD 0 0).toNat + 256 * (field.getD 1 0).toNat

/-- The head of a field: its index, its length, and how many bytes it has beyond the first two; nothing when there is not
enough room for it. -/
def fieldHead (inFieldIDArray : Field → Int) (field : List UInt8) : Option (Option Field × Nat × Nat) :=
  -- `*theFieldName & 0x8000`
  if loadFieldName field / 32768 % 2 = 1 then
    let theFieldID := (field.getD 0 0).toNat % 128
    some (allFields.find? fun x => theFieldID = inFieldIDArray x, (field.getD 1 0).toNat, 0)
  else if field.length ≤ 4 then none
  else some (getFieldIndexForName (hostOrder (field.take 2)), hostOrder ((field.drop 2).take 2), 2)

/-- The loop of `ParsePacket`: what is left of the packet is at `theFieldP`. -/
def parseLoop (inFieldIDArray : Field → Int) (theFieldP : Nat) (left : List UInt8) (p : RTPMetaInfoPacket) :
    Bool × RTPMetaInfoPacket :=
  if left.length ≤ 2 then (true, p)
  else
    match fieldHead inFieldIDArray left with
    | none => (true, p)
    | some (theFieldIndex, theFieldLen, more) =>
      if 0 < kFieldLengthValidator theFieldIndex ∧ kFieldLengthValidator theFieldIndex ≠ theFieldLen then (false, p)
      else if (left.drop (2 + more)).length < theFieldLen then (false, p)
      else
        parseLoop inFieldIDArray (theFieldP + (2 + more) + theFieldLen) (left.drop (2 + more + theFieldLen))
          (p.store theFieldIndex (theFieldP + (2 + more)) ((left.drop (2 + more)).take theFieldLen))
  termination_by left.length
  decreasing_by
    rw [List.length_drop]
    omega

/-- The packet is at the address `inPacketBuffer`. -/
def RTPMetaInfoPacket.parsePacket (p : RTPMetaInfoPacket) (inPacketBuffer : Nat) (packet : List UInt8)
    (inFieldIDArray : Field → Int) : Bool × RTPMetaInfoPacket :=
  -- "skip RTP header"
  parseLoop inFieldIDArray (inPacketBuffer + 12) (packet.drop 12) p

end ToolLib.Common.RTPMetaInfo
