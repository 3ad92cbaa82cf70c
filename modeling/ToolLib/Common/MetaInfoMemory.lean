import ToolLib.Base.Access
import ToolLib.Base.Loop
import ToolLib.Base.System
import ToolLib.Common.RTPMetaInfo

/-!
# RTPMetaInfoPacket in memory

`ParsePacket` and `MakeRTPPacket` with their pointers, which are addresses, and with the tables as the arrays that they
are.

- `parsePacket_inside`: `ParsePacket` ends, reads inside the packet and the arrays, and the media data that it finds is
  inside the packet;
- `makeRTPPacket_never`: `MakeRTPPacket` moves the header from `fPacketBuffer`, which nothing sets.
-/

namespace ToolLib.Common.MetaInfoMemory

open ToolLib.Base
open ToolLib.Common.RTPMetaInfo (twoChars hostOrder loadFieldName)

/-! ## The tables -/

@[match_pattern] abbrev kPacketPosField : Nat := 0
@[match_pattern] abbrev kTransTimeField : Nat := 1
@[match_pattern] abbrev kFrameTypeField : Nat := 2
@[match_pattern] abbrev kPacketNumField : Nat := 3
@[match_pattern] abbrev kSeqNumField : Nat := 4
@[match_pattern] abbrev kMediaDataField : Nat := 5
@[match_pattern] abbrev kIllegalField : Nat := 6
@[match_pattern] abbrev kNumFields : Nat := 6

def kFieldNameMap : List Nat :=
  [twoChars 112 112, twoChars 116 116, twoChars 102 116, twoChars 112 110, twoChars 115 113, twoChars 109 100]

def kFieldLengthValidator : List Nat := [8, 8, 2, 8, 2, 0, 0]

/-- What `ParsePacket` reads. -/
inductive Region
  | packet
  | fieldIDArray
  | fieldNameMap
  | fieldLengthValidator
  deriving DecidableEq

/-! ## ParsePacket -/

/-- The members of the class; a pointer is an address, and `NULL` is 0. -/
structure RTPMetaInfoPacket where
  fPacketBuffer : Int
  fPacketLen : Nat
  fTransmitTime : UInt64
  fFrameType : UInt16
  fPacketNumber : UInt64
  fPacketPosition : UInt64
  fMediaDataP : Int
  fMediaDataLen : Nat
  fSeqNum : UInt16
  deriving DecidableEq

/-- The constructor. -/
def RTPMetaInfoPacket.new : RTPMetaInfoPacket := ⟨0, 0, 0, 0, 0, 0, 0, 0, 0⟩

/-- The packet, the variable `theFieldP` of `ParsePacket`, what has been read, and whether media data has been found. -/
structure Parser where
  packet : RTPMetaInfoPacket
  theFieldP : Int
  accesses : List (Access Region)
  mediaFound : Bool
  deriving DecidableEq

namespace Parser

/-- `n` elements are read. -/
def read (s : Parser) (r : Region) (i : Int) (n : Nat) : Parser := { s with accesses := Access.reads r i n ++ s.accesses }

/-- The loops over the fields, with `left` of them to go: the index of the first that is hit. -/
def search (r : Region) (hit : Nat → Bool) : Nat → Nat → Parser → Nat × Parser
  | 0, _, s => (kIllegalField, s)
  | left + 1, x, s => if hit x then (x, s.read r x 1) else search r hit left (x + 1) (s.read r x 1)

section Turn

variable (buffer : Int → UInt8)

def getFieldIndexForName (inName : Nat) (s : Parser) : Nat × Parser :=
  s.search .fieldNameMap (fun x => inName = kFieldNameMap.getD x 0) kNumFields 0

/-- The head of a field: its index and length, and `theFieldP` goes behind it; nothing when there is not enough room for
it. -/
def fieldHead (inFieldIDArray : Nat → Int) (theEndP : Int) (s : Parser) : Option (Nat × Nat) × Parser :=
  let s₁ := s.read .packet s.theFieldP 2
  -- `*theFieldName & 0x8000`
  if loadFieldName (bytesFrom buffer s.theFieldP 2) / 32768 % 2 = 1 then
    let theFieldID := (buffer s.theFieldP).toNat % 128
    let (theFieldIndex, s₂) := s₁.search .fieldIDArray (fun x => theFieldID = inFieldIDArray x) kNumFields 0
    let s₃ := s₂.read .packet s.theFieldP 2
    (some (theFieldIndex, (buffer (s.theFieldP + 1)).toNat), { s₃ with theFieldP := s.theFieldP + 2 })
  else if theEndP - 4 ≤ s.theFieldP then (none, s₁)
  else
    let (theFieldIndex, s₂) :=
      (s₁.read .packet s.theFieldP 2).getFieldIndexForName (hostOrder (bytesFrom buffer s.theFieldP 2))
    let s₃ := s₂.read .packet (s.theFieldP + 2) 2
    (some (theFieldIndex, hostOrder (bytesFrom buffer (s.theFieldP + 2) 2)), { s₃ with theFieldP := s.theFieldP + 4 })

/-- "store off the proper value depending on the field" -/
def store (theFieldIndex theFieldLen : Nat) (s : Parser) : Parser :=
  let s64 := UInt64.ofNat (hostOrder (bytesFrom buffer s.theFieldP 8))
  let s16 := UInt16.ofNat (hostOrder (bytesFrom buffer s.theFieldP 2))
  match theFieldIndex with
  | kPacketPosField => { s.read .packet s.theFieldP 8 with packet := { s.packet with fPacketPosition := s64 } }
  | kTransTimeField => { s.read .packet s.theFieldP 8 with packet := { s.packet with fTransmitTime := s64 } }
  | kFrameTypeField => { s.read .packet s.theFieldP 2 with packet := { s.packet with fFrameType := s16 } }
  | kPacketNumField => { s.read .packet s.theFieldP 8 with packet := { s.packet with fPacketNumber := s64 } }
  | kSeqNumField => { s.read .packet s.theFieldP 2 with packet := { s.packet with fSeqNum := s16 } }
  | kMediaDataField =>
    { s with packet := { s.packet with fMediaDataP := s.theFieldP, fMediaDataLen := theFieldLen }, mediaFound := true }
  | _ => s

/-- One turn of the loop of `ParsePacket`. -/
def turn (inFieldIDArray : Nat → Int) (theEndP : Int) (s : Parser) : Parser ⊕ (Bool × Parser) :=
  if s.theFieldP < theEndP - 2 then
    match s.fieldHead buffer inFieldIDArray theEndP with
    | (none, s₁) => .inr (true, s₁)
    | (some (theFieldIndex, theFieldLen), s₁) =>
      let s₂ := s₁.read .fieldLengthValidator theFieldIndex 1
      let length := kFieldLengthValidator.getD theFieldIndex 0
      if 0 < length ∧ length ≠ theFieldLen then .inr (false, s₂)
      else if theEndP < s₂.theFieldP + theFieldLen then .inr (false, s₂)
      else .inl { s₂.store buffer theFieldIndex theFieldLen with theFieldP := s₂.theFieldP + theFieldLen }
  else .inr (true, s)

/-! ## What a turn does -/

/-- The field has the length that the table says, and ends in the packet. -/
def Fits (theEndP : Int) (s : Parser) (theFieldIndex theFieldLen : Nat) : Prop :=
  (kFieldLengthValidator.getD theFieldIndex 0 = 0 ∨ kFieldLengthValidator.getD theFieldIndex 0 = theFieldLen) ∧
    s.theFieldP + theFieldLen ≤ theEndP

/-- A turn is at the end of the packet, has no room for the head of a field, comes to a field that does not fit, or goes
over one. -/
inductive Turned (inFieldIDArray : Nat → Int) (theEndP : Int) (s : Parser) : Parser ⊕ (Bool × Parser) → Prop
  | atEnd (hend : ¬ s.theFieldP < theEndP - 2) : Turned inFieldIDArray theEndP s (.inr (true, s))
  | noRoom {s₁ : Parser} (hlt : s.theFieldP < theEndP - 2)
      (hhead : s.fieldHead buffer inFieldIDArray theEndP = (none, s₁)) :
    Turned inFieldIDArray theEndP s (.inr (true, s₁))
  | wrong {x len : Nat} {s₁ : Parser} (hlt : s.theFieldP < theEndP - 2)
      (hhead : s.fieldHead buffer inFieldIDArray theEndP = (some (x, len), s₁)) (hfits : ¬ Fits theEndP s₁ x len) :
    Turned inFieldIDArray theEndP s (.inr (false, s₁.read .fieldLengthValidator x 1))
  | goesOn {x len : Nat} {s₁ : Parser} (hlt : s.theFieldP < theEndP - 2)
      (hhead : s.fieldHead buffer inFieldIDArray theEndP = (some (x, len), s₁)) (hfits : Fits theEndP s₁ x len) :
    Turned inFieldIDArray theEndP s
      (.inl { (s₁.read .fieldLengthValidator x 1).store buffer x len with theFieldP := s₁.theFieldP + len })

/-- **What a turn does.** -/
theorem turned (ids : Nat → Int) (e : Int) (s : Parser) : Turned buffer ids e s (s.turn buffer ids e) := by
  unfold turn
  split
  next hlt =>
    split
    next s₁ hhead => exact .noRoom hlt hhead
    next x len s₁ hhead =>
      have hread : (s₁.read .fieldLengthValidator x 1).theFieldP = s₁.theFieldP := rfl
      dsimp only
      rw [hread]
      split
      next hno => exact .wrong hlt hhead fun hfits => by have hvalid := hfits.1; omega
      next hvalid =>
        split
        next hno => exact .wrong hlt hhead fun hfits => absurd hfits.2 (Int.not_le.2 hno)
        next hend => exact .goesOn hlt hhead ⟨by omega, Int.not_lt.1 hend⟩
  next hend => exact .atEnd hend

end Turn

end Parser

/-- `ParsePacket`, when its loop has `turns` turns at most. -/
def RTPMetaInfoPacket.parsePacket (turns : Nat) (p : RTPMetaInfoPacket) (buffer : Int → UInt8) (inPacketBuffer : Int)
    (inPacketLen : Nat) (inFieldIDArray : Nat → Int) : Option (Bool × Parser) :=
  -- "skip RTP header"
  Loop.turns (Parser.turn buffer inFieldIDArray (inPacketBuffer + inPacketLen)) turns ⟨p, inPacketBuffer + 12, [], false⟩

/-! ## What ParsePacket reads -/

/-- Where the regions begin: the packet at its address, the arrays at index 0. -/
def first (inPacketBuffer : Int) : Region → Int
  | .packet => inPacketBuffer
  | .fieldIDArray | .fieldNameMap | .fieldLengthValidator => 0

/-- Where the regions end; the array of the caller has `kNumFields` entries. -/
def past (theEndP : Int) : Region → Int
  | .packet => theEndP
  | .fieldIDArray => kNumFields
  | .fieldNameMap => kFieldNameMap.length
  | .fieldLengthValidator => kFieldLengthValidator.length

/-- Media data that has been found is in the packet that is parsed, behind the RTP header; without it the packet object
has the media data that `p` had. -/
def MediaInside (p : RTPMetaInfoPacket) (inPacketBuffer theEndP : Int) (s : Parser) : Prop :=
  if s.mediaFound then
    inPacketBuffer + 12 ≤ s.packet.fMediaDataP ∧ s.packet.fMediaDataP + s.packet.fMediaDataLen ≤ theEndP
  else s.packet.fMediaDataP = p.fMediaDataP ∧ s.packet.fMediaDataLen = p.fMediaDataLen

/-- What every turn keeps: `theFieldP` is behind the RTP header, and has not gone behind the packet. -/
structure Sound (p : RTPMetaInfoPacket) (inPacketBuffer theEndP : Int) (s : Parser) : Prop where
  header : inPacketBuffer + 12 ≤ s.theFieldP
  inside : Access.Inside (first inPacketBuffer) (past theEndP) s.accesses
  media : MediaInside p inPacketBuffer theEndP s

namespace Sound

variable {buffer : Int → UInt8} {ids : Nat → Int} {p : RTPMetaInfoPacket} {b e : Int} {s : Parser} {r : Region}
  {n x len : Nat}

/-- The loop begins behind the RTP header. -/
theorem new : Sound p b e ⟨p, b + 12, [], false⟩ := ⟨Int.le_refl _, Access.inside_nil, rfl, rfl⟩

theorem read {i : Int} (h : Sound p b e s) (hi : first b r ≤ i) (hn : i + n ≤ past e r) : Sound p b e (s.read r i n) where
  header := h.header
  inside := Access.inside_append.2 ⟨Access.inside_reads hi hn, h.inside⟩
  media := h.media

theorem read_packet {i : Int} (h : Sound p b e s) (hi : b ≤ i) (hn : i + n ≤ e) : Sound p b e (s.read .packet i n) :=
  h.read hi hn

/-- The table has an entry for `kIllegalField`, too. -/
theorem read_validator (h : Sound p b e s) (hx : x ≤ kIllegalField) : Sound p b e (s.read .fieldLengthValidator x 1) := by
  have hx : x ≤ 6 := hx
  exact h.read (Int.natCast_nonneg x) (by show (x : Int) + 1 ≤ 7; omega)

theorem move {i : Int} (h : Sound p b e s) (hi : b + 12 ≤ i) : Sound p b e { s with theFieldP := i } :=
  ⟨hi, h.inside, h.media⟩

/-- The loops over the fields stay in an array of `kNumFields` entries, and find a field or `kIllegalField`. -/
theorem search {f : Nat → Bool} (h : Sound p b e s) (hfirst : first b r = 0) (hpast : past e r = kNumFields)
    (hx : x + n = kNumFields) :
    Sound p b e (s.search r f n x).2 ∧ (s.search r f n x).1 ≤ kIllegalField ∧
      (s.search r f n x).2.theFieldP = s.theFieldP := by
  induction n generalizing x s with
  | zero => exact ⟨h, Nat.le_refl _, rfl⟩
  | succ n ih =>
    have hread := h.read (n := 1) (r := r) (i := x) (by rw [hfirst]; omega) (by rw [hpast]; omega)
    unfold Parser.search
    split
    next => exact ⟨hread, Nat.le_of_lt (show x < kNumFields by omega), rfl⟩
    next => exact ih hread (by omega)

theorem fieldHead (buffer : Int → UInt8) (ids : Nat → Int) (h : Sound p b e s) (hlt : s.theFieldP < e - 2) :
    Sound p b e (s.fieldHead buffer ids e).2 ∧
      ∀ f, (s.fieldHead buffer ids e).1 = some f → f.1 ≤ kIllegalField ∧
        s.theFieldP < (s.fieldHead buffer ids e).2.theFieldP := by
  have hlow := h.header
  have hname := h.read_packet (i := s.theFieldP) (n := 2) (by omega) (by omega)
  unfold Parser.fieldHead
  dsimp only
  split
  next =>
    obtain ⟨hsearch, hindex, hsame⟩ := hname.search (r := .fieldIDArray)
      (f := fun x => ((buffer s.theFieldP).toNat % 128 : Int) = ids x)
      rfl rfl (Nat.zero_add kNumFields)
    have hlen := hsearch.read_packet (i := s.theFieldP) (n := 2) (by omega) (by omega)
    refine ⟨hlen.move (by omega), fun f hf => ?_⟩
    cases hf
    exact ⟨hindex, by dsimp only; omega⟩
  next =>
    split
    next => exact ⟨hname, fun f hf => by cases hf⟩
    next hroom =>
      have hname := hname.read_packet (i := s.theFieldP) (n := 2) (by omega) (by omega)
      obtain ⟨hsearch, hindex, hsame⟩ := hname.search (r := .fieldNameMap)
        (f := fun x => hostOrder (bytesFrom buffer s.theFieldP 2) = kFieldNameMap.getD x 0) rfl rfl
        (Nat.zero_add kNumFields)
      have hlen := hsearch.read_packet (i := s.theFieldP + 2) (n := 2) (by omega) (by omega)
      refine ⟨hlen.move (by omega), fun f hf => ?_⟩
      cases hf
      exact ⟨hindex, by dsimp only; omega⟩

/-- What is stored comes from the field. -/
theorem store (h : Sound p b e s) (hvalid : kFieldLengthValidator.getD x 0 = 0 ∨ kFieldLengthValidator.getD x 0 = len)
    (hend : s.theFieldP + len ≤ e) :
    Sound p b e (s.store buffer x len) ∧ (s.store buffer x len).theFieldP = s.theFieldP := by
  have hlow := h.header
  have hread : ∀ n : Nat, n = len → Sound p b e (s.read .packet s.theFieldP n) := fun n hn =>
    h.read_packet (by omega) (by omega)
  unfold Parser.store
  dsimp only
  split
  case h_6 => exact ⟨⟨hlow, h.inside, hlow, hend⟩, rfl⟩
  case h_7 => exact ⟨h, rfl⟩
  all_goals
    have hsize := hread _ (hvalid.resolve_left (by decide))
    exact ⟨⟨hsize.header, hsize.inside, h.media⟩, rfl⟩

theorem turn_inl {s' : Parser} (h : Sound p b e s) (hs : s.turn buffer ids e = .inl s') :
    Sound p b e s' ∧ (e - s'.theFieldP).toNat < (e - s.theFieldP).toNat := by
  have hturned := Parser.turned buffer ids e s
  rw [hs] at hturned
  cases hturned with
  | @goesOn x len s₁ hlt hhead hfits =>
    obtain ⟨hsound, hfound⟩ := h.fieldHead buffer ids hlt
    rw [hhead] at hsound hfound
    obtain ⟨hindex, hforward⟩ := hfound _ rfl
    dsimp only at hsound hindex hforward
    obtain ⟨hstore, -⟩ := (hsound.read_validator hindex).store (x := x) hfits.1 hfits.2
    have hlow := hsound.header
    have hend := hfits.2
    exact ⟨hstore.move (by omega), by dsimp only; omega⟩

theorem turn_inr {r : Bool × Parser} (h : Sound p b e s) (hs : s.turn buffer ids e = .inr r) : Sound p b e r.2 := by
  have hturned := Parser.turned buffer ids e s
  rw [hs] at hturned
  cases hturned with
  | atEnd => exact h
  | noRoom hlt hhead =>
    have hsound := (h.fieldHead buffer ids hlt).1
    rw [hhead] at hsound
    exact hsound
  | wrong hlt hhead =>
    obtain ⟨hsound, hfound⟩ := h.fieldHead buffer ids hlt
    rw [hhead] at hsound hfound
    exact hsound.read_validator (hfound _ rfl).1

end Sound

/-- **`ParsePacket` is memory safe**: it ends, and reads inside the packet, the caller's array and the tables; and media
data that it finds is inside the packet and behind the RTP header. -/
theorem parsePacket_inside (p : RTPMetaInfoPacket) (buffer : Int → UInt8) (inPacketBuffer : Int) (inPacketLen : Nat)
    (inFieldIDArray : Nat → Int) :
    ∃ r s, p.parsePacket (inPacketLen + 1) buffer inPacketBuffer inPacketLen inFieldIDArray = some (r, s) ∧
      Access.Inside (first inPacketBuffer) (past (inPacketBuffer + inPacketLen)) s.accesses ∧
      MediaInside p inPacketBuffer (inPacketBuffer + inPacketLen) s := by
  obtain ⟨⟨r, s⟩, hr, hsound⟩ := Loop.turns_of_measure (n := inPacketLen + 1)
    (I := Sound p inPacketBuffer (inPacketBuffer + inPacketLen))
    (fun s : Parser => (inPacketBuffer + inPacketLen - s.theFieldP).toNat)
    (fun s s' h hs => h.turn_inl hs) (fun s r h hs => h.turn_inr hs) Sound.new (by dsimp only; omega)
  exact ⟨r, s, hr, hsound.inside, hsound.media⟩

/-! ## MakeRTPPacket -/

/-- Memory with addresses that are not mapped. -/
abbrev Mem := Int → Option UInt8

/-- `memmove`; the program stops when it comes to an address that is not mapped. -/
def memmove (mem : Mem) (dst src : Int) (n : Nat) : Option Mem :=
  if ∀ k < n, (mem (src + k)).isSome ∧ (mem (dst + k)).isSome then
    some fun i => if dst ≤ i ∧ i < dst + n then mem (src + (i - dst)) else mem i
  else none

/-- `MakeRTPPacket`: the pointer that it returns with the length in `outPacketLen`, or `NULL`, and memory behind it. -/
def RTPMetaInfoPacket.makeRTPPacket (mem : Mem) (p : RTPMetaInfoPacket) : Option (Option (Int × Nat) × Mem) :=
  if p.fMediaDataP = 0 then some (none, mem)
  else
    -- "Just move the RTP header to right before the media data."
    (memmove mem (p.fMediaDataP - 12) p.fPacketBuffer 12).map fun mem' =>
      (some (p.fMediaDataP - 12, p.fMediaDataLen + 12), mem')

/-- The arguments of `ParsePacket`, and what is in memory at that time. -/
structure ParseCall where
  buffer : Int → UInt8
  inPacketBuffer : Int
  inPacketLen : Nat
  inFieldIDArray : Nat → Int

def ParseCall.parse (c : ParseCall) (p : RTPMetaInfoPacket) : Option (Bool × Parser) :=
  p.parsePacket (c.inPacketLen + 1) c.buffer c.inPacketBuffer c.inPacketLen c.inFieldIDArray

/-- A packet object is used again and again. -/
def step (p : RTPMetaInfoPacket) (c : ParseCall) : Option RTPMetaInfoPacket := (c.parse p).map fun r => r.2.packet

/-- At `ptr` there are `n` bytes of the packet: the RTP header that the packet had, and the media data. -/
def IsRTPPacket (mem mem' : Mem) (c : ParseCall) (p : RTPMetaInfoPacket) (ptr : Int) (n : Nat) : Prop :=
  c.inPacketBuffer ≤ ptr ∧ ptr + n ≤ c.inPacketBuffer + c.inPacketLen ∧
    bytesFrom mem' ptr n = bytesFrom mem c.inPacketBuffer 12 ++ bytesFrom mem p.fMediaDataP p.fMediaDataLen

section Make

variable {mem : Mem} {n : Nat} {p q : RTPMetaInfoPacket} {c : ParseCall} {calls : List ParseCall}

theorem search_packet {r : Region} {f : Nat → Bool} {x : Nat} {s : Parser} :
    (s.search r f n x).2.packet = s.packet := by
  induction n generalizing x s with
  | zero => rfl
  | succ n ih =>
    unfold Parser.search
    split
    next => rfl
    next => exact ih

section Turn

variable {buffer : Int → UInt8} {ids : Nat → Int} {e : Int} {s s' : Parser} {x len : Nat}

theorem fieldHead_packet (buffer : Int → UInt8) (ids : Nat → Int) (e : Int) (s : Parser) :
    (s.fieldHead buffer ids e).2.packet = s.packet := by
  unfold Parser.fieldHead Parser.getFieldIndexForName
  dsimp only
  split
  next => exact search_packet
  next =>
    split
    next => rfl
    next => exact search_packet

theorem store_fPacketBuffer : (s.store buffer x len).packet.fPacketBuffer = s.packet.fPacketBuffer := by
  unfold Parser.store
  dsimp only
  split <;> rfl

/-- A turn does not set `fPacketBuffer`. -/
theorem turn_inl_fPacketBuffer (hs : s.turn buffer ids e = .inl s') :
    s'.packet.fPacketBuffer = s.packet.fPacketBuffer := by
  have hpacket := fieldHead_packet buffer ids e s
  have hturned := Parser.turned buffer ids e s
  rw [hs] at hturned
  cases hturned with
  | goesOn hlt hhead hfits =>
    rw [hhead] at hpacket
    exact store_fPacketBuffer.trans (congrArg _ hpacket)

theorem turn_inr_packet {r : Bool × Parser} (hs : s.turn buffer ids e = .inr r) : r.2.packet = s.packet := by
  have hpacket := fieldHead_packet buffer ids e s
  have hturned := Parser.turned buffer ids e s
  rw [hs] at hturned
  cases hturned with
  | atEnd => rfl
  | noRoom hlt hhead =>
    rw [hhead] at hpacket
    exact hpacket
  | wrong hlt hhead =>
    rw [hhead] at hpacket
    exact hpacket

end Turn

/-- Nothing sets `fPacketBuffer`. -/
theorem parse_fPacketBuffer {r : Bool × Parser} (hr : c.parse p = some r) :
    r.2.packet.fPacketBuffer = p.fPacketBuffer :=
  Loop.turns_inv (I := fun s : Parser => s.packet.fPacketBuffer = p.fPacketBuffer)
    (Q := fun r : Bool × Parser => r.2.packet.fPacketBuffer = p.fPacketBuffer)
    (fun _ _ h hs => (turn_inl_fPacketBuffer hs).trans h) (fun _ _ h hs => (congrArg _ (turn_inr_packet hs)).trans h)
    rfl hr

/-- **`MakeRTPPacket` never makes an RTP packet**: whatever packets an object has parsed, and whatever fields the last
one has, the header is moved from `NULL`. -/
theorem makeRTPPacket_never {s : Parser} (hnull : mem 0 = none) (hr : run step .new calls = some p)
    (hparse : c.parse p = some (true, s)) (hmedia : s.packet.fMediaDataP ≠ 0) :
    s.packet.makeRTPPacket mem = none ∧
      ¬ ∃ ptr n mem', s.packet.makeRTPPacket mem = some (some (ptr, n), mem') ∧
        IsRTPPacket mem mem' c s.packet ptr n := by
  have hnew : p.fPacketBuffer = 0 := run_inv (I := fun p => p.fPacketBuffer = 0) (fun q c q' hq hs => by
    obtain ⟨r, hr, rfl⟩ := Option.map_eq_some_iff.1 hs
    exact (parse_fPacketBuffer hr).trans hq) rfl hr
  have hlast := (parse_fPacketBuffer hparse).trans hnew
  have hfault : s.packet.makeRTPPacket mem = none := by
    unfold RTPMetaInfoPacket.makeRTPPacket memmove
    rw [if_neg hmedia, hlast, if_neg, Option.map_none]
    intro hall
    have hfirst := (hall 0 (by omega)).1
    rw [Nat.cast_zero, Int.add_zero, hnull] at hfirst
    cases hfirst
  refine ⟨hfault, ?_⟩
  rintro ⟨ptr, n, mem', hsome, -⟩
  rw [hfault] at hsome
  cases hsome

end Make

/-- A packet at address 100 with two bytes of media data; there is nothing else in memory. -/
def mediaPacket : Mem := fun i =>
  if i < 100 then none
  else ([128, 96, 0, 1, 0, 0, 0, 2, 0, 0, 0, 3, 109, 100, 0, 2, 65, 66] : List UInt8)[(i - 100).toNat]?

def mediaCall : ParseCall := ⟨fun i => (mediaPacket i).getD 0, 100, 18, fun _ => -1⟩

theorem makeRTPPacket_never_media : mediaPacket 0 = none ∧ run step .new [] = some .new ∧
    ∃ s, mediaCall.parse .new = some (true, s) ∧ s.packet.fMediaDataP ≠ 0 ∧ s.packet.makeRTPPacket mediaPacket = none ∧
      ¬ ∃ ptr n mem', s.packet.makeRTPPacket mediaPacket = some (some (ptr, n), mem') ∧
        IsRTPPacket mediaPacket mem' mediaCall s.packet ptr n := by
  obtain ⟨s, hs, hmedia⟩ : ∃ s, mediaCall.parse .new = some (true, s) ∧ s.packet.fMediaDataP ≠ 0 := ⟨_, rfl, by decide⟩
  exact ⟨rfl, rfl, s, hs, hmedia, makeRTPPacket_never (p := .new) rfl (show run step .new [] = some _ from rfl) hs hmedia⟩

/-- `MakeRTPPacket` stops on that packet. -/
theorem makeRTPPacket_stops : ∃ s, mediaCall.parse .new = some (true, s) ∧
    (s.packet.fMediaDataP = 116 ∧ s.packet.fMediaDataLen = 2) ∧ s.packet.makeRTPPacket mediaPacket = none :=
  ⟨_, rfl, by decide, by rfl⟩

end ToolLib.Common.MetaInfoMemory
