import Mathlib.Data.List.Nodup
import ToolLib.Base.Chains
import ToolLib.Common.RTPMetaInfo

/-!
# Building and parsing RTP-Meta-Info packets

A packet is built from fields in any order, each with its name or, when the ID array has an ID for it, with the ID
(`encode`). `ParsePacket` tells the two forms apart by bit 15 of the first two bytes. These are in network order, but on a
little-endian host bit 15 is in the second byte, which is the length of a field with an ID. So a field with an ID is found
only when it has 128 bytes or more, and is taken for a field with an unknown name otherwise: `undone_iff`.
-/

namespace ToolLib.Common.RTPMetaInfo

/-! ## The packet -/

/-- The last `n` bytes of a number, in network order. -/
def networkOrder : Nat → Nat → List UInt8
  | 0, _ => []
  | n + 1, v => networkOrder n (v / 256) ++ [UInt8.ofNat v]

/-- The values of all fields. -/
structure Values where
  packetPosition : UInt64
  transmitTime : UInt64
  frameType : UInt16
  packetNumber : UInt64
  seqNum : UInt16
  mediaData : List UInt8

def Values.bytes (v : Values) : Field → List UInt8
  | .kPacketPosField => networkOrder 8 v.packetPosition.toNat
  | .kTransTimeField => networkOrder 8 v.transmitTime.toNat
  | .kFrameTypeField => networkOrder 2 v.frameType.toNat
  | .kPacketNumField => networkOrder 8 v.packetNumber.toNat
  | .kSeqNumField => networkOrder 2 v.seqNum.toNat
  | .kMediaDataField => v.mediaData

/-- A field of a packet, with its ID or with its name. -/
structure Item where
  field : Field
  compressed : Bool
  deriving DecidableEq

def Item.head (i : Item) (ids : Field → Int) (len : Nat) : List UInt8 :=
  if i.compressed then [UInt8.ofNat (128 + (ids i.field).toNat), UInt8.ofNat len]
  else networkOrder 2 (kFieldNameMap i.field) ++ networkOrder 2 len

def encode (ids : Field → Int) (v : Values) : List Item → List UInt8
  | [] => []
  | i :: items => i.head ids (v.bytes i.field).length ++ v.bytes i.field ++ encode ids v items

/-- Where the media data is, from the end of the RTP header on. -/
def mediaOffset (ids : Field → Int) (v : Values) : List Item → Nat
  | [] => 0
  | i :: items =>
    (i.head ids (v.bytes i.field).length).length +
      if i.field = .kMediaDataField then 0 else (v.bytes i.field).length + mediaOffset ids v items

/-! ## The getters -/

inductive FieldValue
  | number (n : UInt64)
  | short (n : UInt16)
  | media (p len : Nat)
  deriving DecidableEq

def RTPMetaInfoPacket.get (p : RTPMetaInfoPacket) : Field → FieldValue
  | .kPacketPosField => .number p.fPacketPosition
  | .kTransTimeField => .number p.fTransmitTime
  | .kFrameTypeField => .short p.fFrameType
  | .kPacketNumField => .number p.fPacketNumber
  | .kSeqNumField => .short p.fSeqNum
  | .kMediaDataField => .media p.fMediaDataP p.fMediaDataLen

/-- What the getters are to return, with the media data at `mediaDataP`. -/
def Values.get (v : Values) (mediaDataP : Nat) : Field → FieldValue
  | .kPacketPosField => .number v.packetPosition
  | .kTransTimeField => .number v.transmitTime
  | .kFrameTypeField => .short v.frameType
  | .kPacketNumField => .number v.packetNumber
  | .kSeqNumField => .short v.seqNum
  | .kMediaDataField => .media mediaDataP v.mediaData.length

/-- The packet is parsed back: the getters return what was encoded, and the other fields keep their values. -/
def Undone (ids : Field → Int) (items : List Item) (v : Values) (rtpHeader : List UInt8) (inPacketBuffer : Nat)
    (p : RTPMetaInfoPacket) : Prop :=
  let parsed := p.parsePacket inPacketBuffer (rtpHeader ++ encode ids v items) ids
  parsed.1 = true ∧ ∀ f, parsed.2.get f =
    if f ∈ items.map Item.field then v.get (inPacketBuffer + 12 + mediaOffset ids v items) f else p.get f

/-- The length a field has to have. -/
def fieldSize (mdLen : Nat) (f : Field) : Nat := if f = .kMediaDataField then mdLen else kFieldLengthValidator (some f)

section Bytes

variable {n v mdLen : Nat} {f : Field} {values : Values}

theorem length_networkOrder : (networkOrder n v).length = n := by
  induction n generalizing v with
  | zero => rfl
  | succ n ih => rw [networkOrder, List.length_append, ih, List.length_singleton]

theorem hostOrder_networkOrder_two (h : v < 65536) : hostOrder (networkOrder 2 v) = v := by
  simp only [networkOrder, hostOrder, List.nil_append, List.cons_append, List.foldl_cons, List.foldl_nil, UInt8.toNat_ofNat']
  omega

theorem hostOrder_networkOrder_eight (h : v < 18446744073709551616) : hostOrder (networkOrder 8 v) = v := by
  simp only [networkOrder, hostOrder, List.nil_append, List.cons_append, List.foldl_cons, List.foldl_nil, UInt8.toNat_ofNat']
  omega

theorem Values.length_bytes (h : values.mediaData.length = mdLen) : (values.bytes f).length = fieldSize mdLen f := by
  cases f with
  | kMediaDataField => exact h
  | _ => exact length_networkOrder

end Bytes

/-! ## One field -/

section Head

variable {ids : Field → Int} {n len : Nat} {f : Field} {i : Item} {a b : UInt8} {left rest bytes : List UInt8}

/-- Bit 15 of a native load is the first bit of the second byte. -/
theorem loadFieldName_bit : loadFieldName (a :: b :: left) / 32768 % 2 = 1 ↔ 128 ≤ b.toNat := by
  have ha := a.toNat_lt
  have hb := b.toNat_lt
  simp only [loadFieldName, List.getD_cons_zero, List.getD_cons_succ]
  omega

theorem getFieldIndexForName_name : getFieldIndexForName (kFieldNameMap f) = some f := by
  cases f <;> decide

theorem kFieldNameMap_lt : kFieldNameMap f < 32768 := by
  cases f <;> decide

theorem getFieldIndexForName_of_le (h : 32768 ≤ n) : getFieldIndexForName n = none := by
  rw [getFieldIndexForName, List.find?_eq_none]
  intro f _ heq
  have hlt : kFieldNameMap f < 32768 := kFieldNameMap_lt
  have heq : n = kFieldNameMap f := of_decide_eq_true heq
  omega

theorem mem_allFields : f ∈ allFields := by
  cases f <;> decide

/-- The field that has an ID of its own. -/
theorem find?_id (hown : ∀ g ≠ f, ids g ≠ ids f) (hn : (n : Int) = ids f) :
    (allFields.find? fun x => decide ((n : Int) = ids x)) = some f := by
  apply Base.find?_eq_some_of_unique mem_allFields (decide_eq_true hn)
  intro g _ hg
  by_contra hne
  exact hown g hne ((of_decide_eq_true hg).symm.trans hn)

theorem head_bytes (c : Bool) : (⟨f, c⟩ : Item).head ids len =
    if c then [UInt8.ofNat (128 + (ids f).toNat), UInt8.ofNat len]
    else [(nameChars f).1, (nameChars f).2, UInt8.ofNat (len / 256), UInt8.ofNat len] := by
  cases c with
  | true => rfl
  | false => cases f <;> rfl

/-- A name is found. -/
theorem fieldHead_name (hlen : len < 65536) (hrest : rest ≠ []) :
    fieldHead ids ((⟨f, false⟩ : Item).head ids len ++ rest) = some (some f, len, 2) := by
  have hbit : ¬loadFieldName ((⟨f, false⟩ : Item).head ids len ++ rest) / 32768 % 2 = 1 := by
    rw [head_bytes, if_neg Bool.false_ne_true, List.cons_append, List.cons_append, loadFieldName_bit]
    cases f <;> decide
  have hroom : ¬((⟨f, false⟩ : Item).head ids len ++ rest).length ≤ 4 := by
    have hpos := List.length_pos_iff.2 hrest
    rw [head_bytes, if_neg Bool.false_ne_true, List.length_append]
    simp only [List.length_cons, List.length_nil]
    omega
  have hname : hostOrder (networkOrder 2 (kFieldNameMap f)) = kFieldNameMap f :=
    hostOrder_networkOrder_two (Nat.lt_trans kFieldNameMap_lt (by decide))
  rw [fieldHead, if_neg hbit, if_neg hroom]
  simp only [Item.head, Bool.false_eq_true, if_false, List.append_assoc]
  rw [List.take_left' length_networkOrder, List.drop_left' length_networkOrder, List.take_left' length_networkOrder, hname,
    getFieldIndexForName_name, hostOrder_networkOrder_two hlen]

/-- An ID is found when the length has its first bit set. -/
theorem fieldHead_id (hid : 0 ≤ ids f ∧ ids f ≤ 127) (hown : ∀ g ≠ f, ids g ≠ ids f) (hlen : 128 ≤ len ∧ len ≤ 255) :
    fieldHead ids ((⟨f, true⟩ : Item).head ids len ++ rest) = some (some f, len, 0) := by
  have hbyte : (UInt8.ofNat len).toNat = len := by
    rw [UInt8.toNat_ofNat']
    omega
  have hID : (((UInt8.ofNat (128 + (ids f).toNat)).toNat % 128 : Nat) : Int) = ids f := by
    rw [UInt8.toNat_ofNat']
    omega
  rw [head_bytes, if_pos rfl, fieldHead, List.cons_append, List.cons_append, if_pos (loadFieldName_bit.2 (by omega))]
  simp only [List.getD_cons_zero, List.getD_cons_succ, List.nil_append, hbyte, find?_id hown hID]

/-- Otherwise it is taken for an unknown name, with the next two bytes for a length. -/
theorem fieldHead_short (rest : List UInt8) (hlen : len < 128) (hid : 0 ≤ ids f ∧ ids f ≤ 127) :
    fieldHead ids ((⟨f, true⟩ : Item).head ids len ++ rest) =
      if rest.length ≤ 2 then none else some (none, hostOrder (rest.take 2), 2) := by
  have hbyte : (UInt8.ofNat len).toNat = len := by
    rw [UInt8.toNat_ofNat']
    omega
  have hbit : ¬128 ≤ (UInt8.ofNat len).toNat := by omega
  have hname : getFieldIndexForName (hostOrder [UInt8.ofNat (128 + (ids f).toNat), UInt8.ofNat len]) = none := by
    apply getFieldIndexForName_of_le
    simp only [hostOrder, List.foldl_cons, List.foldl_nil, UInt8.toNat_ofNat']
    omega
  rw [head_bytes, if_pos rfl, fieldHead, List.cons_append, List.cons_append, if_neg (mt loadFieldName_bit.1 hbit)]
  have hroom : rest.length + 1 + 1 ≤ 4 ↔ rest.length ≤ 2 := by omega
  simp only [List.length_cons, List.nil_append, hroom, List.take_succ_cons, List.take_zero, hname, List.drop_succ_cons,
    List.drop_zero]

end Head

/-! ## A packet -/

section Parse

variable {ids : Field → Int} {theFieldP mdLen : Nat} {f : Field} {c : Bool} {i : Item} {items : List Item} {v : Values}
  {rest : List UInt8} {p : RTPMetaInfoPacket}

/-- A form that is told apart from the other. -/
def Item.Found (mdLen : Nat) (i : Item) : Prop := i.compressed = true → 128 ≤ fieldSize mdLen i.field

/-- What the parameters of a packet have to be: the length of a field fits into its head, and an ID is a field's own. -/
structure Item.Valid (ids : Field → Int) (mdLen : Nat) (i : Item) : Prop where
  id : i.compressed = true → (0 ≤ ids i.field ∧ ids i.field ≤ 127) ∧ ∀ f ≠ i.field, ids f ≠ ids i.field
  media : i.field = .kMediaDataField → 1 ≤ mdLen ∧ mdLen ≤ if i.compressed then 255 else 65535

theorem Item.Valid.size (h : i.Valid ids mdLen) : 1 ≤ fieldSize mdLen i.field ∧
    fieldSize mdLen i.field ≤ if i.compressed then 255 else 65535 := by
  obtain ⟨f, c⟩ := i
  by_cases hf : f = .kMediaDataField
  · rw [fieldSize, if_pos hf]
    exact h.media hf
  · rw [fieldSize, if_neg hf]
    cases f <;> cases c <;> first | decide | exact absurd rfl hf

theorem validator_fieldSize : ¬(0 < kFieldLengthValidator (some f) ∧ kFieldLengthValidator (some f) ≠ fieldSize mdLen f) := by
  cases f <;> simp [fieldSize, kFieldLengthValidator]

/-- Storing a field changes what is returned for that field only. -/
theorem get_store_ne {g : Field} (bytes : List UInt8) (h : g ≠ f) : (p.store (some f) theFieldP bytes).get g = p.get g := by
  cases f <;> cases g <;> first | rfl | exact absurd rfl h

theorem get_store_self : (p.store (some f) theFieldP (v.bytes f)).get f = v.get theFieldP f := by
  have hlong (n : UInt64) : UInt64.ofNat (hostOrder (networkOrder 8 n.toNat)) = n := by
    rw [hostOrder_networkOrder_eight n.toNat_lt, UInt64.ofNat_toNat]
  have hshort (n : UInt16) : UInt16.ofNat (hostOrder (networkOrder 2 n.toNat)) = n := by
    rw [hostOrder_networkOrder_two n.toNat_lt, UInt16.ofNat_toNat]
  cases f with
  | kMediaDataField => rfl
  | kPacketPosField => exact congrArg FieldValue.number (hlong _)
  | kTransTimeField => exact congrArg FieldValue.number (hlong _)
  | kPacketNumField => exact congrArg FieldValue.number (hlong _)
  | kFrameTypeField => exact congrArg FieldValue.short (hshort _)
  | kSeqNumField => exact congrArg FieldValue.short (hshort _)

/-- Only the media data has an address. -/
theorem Values.get_address {a b : Nat} (h : f ≠ .kMediaDataField) : v.get a f = v.get b f := by
  cases f <;> first | rfl | exact absurd rfl h

/-- The loop takes a field whose head is `head` and whose bytes are `bytes`. -/
theorem parseLoop_field {head bytes : List UInt8} {x : Option Field} (more : Nat)
    (hhead : fieldHead ids (head ++ bytes ++ rest) = some (x, bytes.length, more)) (hmore : head.length = 2 + more)
    (hlen : ¬(0 < kFieldLengthValidator x ∧ kFieldLengthValidator x ≠ bytes.length)) (hpos : 2 < head.length + bytes.length) :
    parseLoop ids theFieldP (head ++ bytes ++ rest) p =
      parseLoop ids (theFieldP + head.length + bytes.length) rest (p.store x (theFieldP + head.length) bytes) := by
  have hdrop : (head ++ bytes ++ rest).drop (2 + more) = bytes ++ rest := by
    rw [List.append_assoc, List.drop_left' hmore]
  have hroom : ¬(bytes ++ rest).length < bytes.length := by
    rw [List.length_append]
    omega
  have hleft : ¬(head ++ bytes ++ rest).length ≤ 2 := by
    simp only [List.length_append]
    omega
  rw [parseLoop, if_neg hleft, hhead]
  simp only [if_neg hlen]
  rw [hdrop, if_neg hroom, ← List.drop_drop, hdrop, List.drop_left, List.take_left, hmore]

/-- A field that is found is stored. -/
theorem parseLoop_found (hv : i.Valid ids mdLen) (hmd : v.mediaData.length = mdLen) (hi : i.Found mdLen) :
    parseLoop ids theFieldP (i.head ids (v.bytes i.field).length ++ v.bytes i.field ++ rest) p =
      parseLoop ids (theFieldP + (i.head ids (v.bytes i.field).length).length + (v.bytes i.field).length) rest
        (p.store (some i.field) (theFieldP + (i.head ids (v.bytes i.field).length).length) (v.bytes i.field)) := by
  have hlen : (v.bytes i.field).length = fieldSize mdLen i.field := Values.length_bytes hmd
  obtain ⟨hpos, hle⟩ := hv.size
  obtain ⟨f, c⟩ := i
  cases c with
  | true =>
    have hsize : 128 ≤ fieldSize mdLen f := hi rfl
    obtain ⟨hid, hown⟩ := hv.id rfl
    refine parseLoop_field 0 ?_ rfl (hlen ▸ validator_fieldSize) (Nat.lt_add_of_pos_right (hlen ▸ hpos))
    rw [List.append_assoc, fieldHead_id hid hown ⟨hlen ▸ hsize, hlen ▸ hle⟩]
  | false =>
    refine parseLoop_field 2 ?_ rfl (hlen ▸ validator_fieldSize) (Nat.lt_add_right _ (by decide : 2 < 4))
    have hne : v.bytes f ++ rest ≠ [] := List.append_ne_nil_of_left_ne_nil (List.length_pos_iff.1 (hlen ▸ hpos)) _
    rw [List.append_assoc, fieldHead_name (Nat.lt_succ_of_le (hlen ▸ hle)) hne]

/-- The loop over fields that are all found. -/
theorem parseLoop_encode (hv : ∀ i ∈ items, i.Valid ids mdLen) (hmd : v.mediaData.length = mdLen)
    (hdistinct : (items.map Item.field).Nodup) (hfound : ∀ i ∈ items, i.Found mdLen) :
    ∃ p', parseLoop ids theFieldP (encode ids v items) p = (true, p') ∧ ∀ f, p'.get f =
      if f ∈ items.map Item.field then v.get (theFieldP + mediaOffset ids v items) f else p.get f := by
  induction items generalizing theFieldP p with
  | nil =>
    refine ⟨p, ?_, fun f => ?_⟩
    · rw [parseLoop]
      exact if_pos (Nat.zero_le 2)
    · simp
  | cons i items ih =>
    obtain ⟨hi, hv⟩ := List.forall_mem_cons.1 hv
    obtain ⟨hifound, hfound⟩ := List.forall_mem_cons.1 hfound
    obtain ⟨hnew, hdistinct⟩ := List.nodup_cons.1 hdistinct
    rw [encode, parseLoop_found hi hmd hifound]
    obtain ⟨p', hloop, hget⟩ := ih hv hdistinct hfound
    refine ⟨p', hloop, fun f => ?_⟩
    rw [hget f, List.map_cons]
    by_cases hf : f = i.field
    · subst hf
      rw [if_neg hnew, if_pos List.mem_cons_self, get_store_self]
      by_cases hmedia : i.field = .kMediaDataField
      · rw [mediaOffset, if_pos hmedia, Nat.add_zero]
      · exact Values.get_address hmedia
    · simp only [List.mem_cons, hf, false_or]
      split
      · by_cases hmedia : f = .kMediaDataField
        · have hother : i.field ≠ .kMediaDataField := fun heq => hf (hmedia.trans heq.symm)
          rw [mediaOffset, if_neg hother, Nat.add_assoc, Nat.add_assoc]
        · exact Values.get_address hmedia
      · exact get_store_ne _ hf

/-! ## A field that is not found -/

/-- Values for which the loop goes past a field that is not found: the first two bytes are the number of the others. -/
def skipValues (mdLen : Nat) : Values where
  packetPosition := 1688849860263936
  transmitTime := 1688849860263936
  frameType := 0
  packetNumber := 1688849860263936
  seqNum := 0
  mediaData := match mdLen with
    | 0 => []
    | 1 => [255]
    | n + 2 => networkOrder 2 n ++ List.replicate n 0

theorem length_skipValues : (skipValues mdLen).mediaData.length = mdLen := by
  rcases mdLen with _ | _ | n
  · rfl
  · rfl
  · simp only [skipValues, List.length_append, length_networkOrder, List.length_replicate]
    omega

theorem skipValues_bytes (hsize : 2 ≤ fieldSize mdLen f) (hshort : fieldSize mdLen f < 128) :
    hostOrder (((skipValues mdLen).bytes f).take 2) = fieldSize mdLen f - 2 := by
  have hlong : hostOrder ((networkOrder 8 (1688849860263936 : UInt64).toNat).take 2) = 6 := by decide +kernel
  have htwo : hostOrder ((networkOrder 2 (0 : UInt16).toNat).take 2) = 0 := by decide +kernel
  cases f with
  | kMediaDataField =>
    have hsize : 2 ≤ mdLen := hsize
    have hshort : mdLen < 128 := hshort
    obtain ⟨n, rfl⟩ : ∃ n, mdLen = n + 2 := ⟨mdLen - 2, by omega⟩
    have htake : ((skipValues (n + 2)).bytes .kMediaDataField).take 2 = networkOrder 2 n :=
      List.take_left' length_networkOrder
    rw [htake, hostOrder_networkOrder_two (by omega)]
    rfl
  | kPacketPosField => exact hlong
  | kTransTimeField => exact hlong
  | kPacketNumField => exact hlong
  | kFrameTypeField => exact htwo
  | kSeqNumField => exact htwo

theorem length_encode_le (h : ∀ f, (v.bytes f).length ≤ 8) : (encode ids v items).length ≤ 12 * items.length := by
  induction items with
  | nil => exact Nat.le_refl 0
  | cons i items ih =>
    have hbytes := h i.field
    have hhead : (i.head ids (v.bytes i.field).length).length ≤ 4 := by
      rw [head_bytes]
      split <;> simp
    simp only [encode, List.length_append, List.length_cons]
    omega

/-- A field that is not found, with room for a name and a length: it is passed when the first two bytes are the number of the
others. -/
theorem parseLoop_skip {head bytes : List UInt8} (hhead : head.length = 2) (hbytes : 2 ≤ bytes.length)
    (hskip : hostOrder (bytes.take 2) = bytes.length - 2)
    (h : fieldHead ids (head ++ bytes ++ rest) = some (none, hostOrder ((bytes ++ rest).take 2), 2)) :
    ∃ next, parseLoop ids theFieldP (head ++ bytes ++ rest) p = parseLoop ids next rest p := by
  have hlen : hostOrder ((bytes ++ rest).take 2) = (bytes.drop 2).length := by
    rw [List.take_append_of_le_length hbytes, hskip, List.length_drop]
  have hsplit : head ++ bytes ++ rest = (head ++ bytes.take 2) ++ bytes.drop 2 ++ rest := by
    rw [List.append_assoc head (bytes.take 2), List.take_append_drop]
  have hfour : (head ++ bytes.take 2).length = 2 + 2 := by
    rw [List.length_append, hhead, List.length_take_of_le hbytes]
  rw [hlen, hsplit] at h
  rw [hsplit]
  exact ⟨_, parseLoop_field 2 h hfour (fun hval => absurd hval.1 (Nat.lt_irrefl 0)) (by omega)⟩

/-- One byte of media data that is not found: with the next byte it is a length that the packet has no room for. -/
theorem parseLoop_one {head : List UInt8} (hhead : head.length = 2) (hrest : rest.length < 1000)
    (h : fieldHead ids (head ++ [255] ++ rest) = some (none, hostOrder (([255] ++ rest).take 2), 2)) (hne : rest ≠ []) :
    parseLoop ids theFieldP (head ++ [255] ++ rest) p = (false, p) := by
  obtain ⟨x, rest, rfl⟩ := List.exists_cons_of_ne_nil hne
  have hleft : ¬(head ++ [255] ++ x :: rest).length ≤ 2 := by
    simp only [List.length_append, List.length_cons]
    omega
  have hval : ¬(0 < kFieldLengthValidator none ∧ kFieldLengthValidator none ≠ hostOrder (([255] ++ x :: rest).take 2)) :=
    fun hval => absurd hval.1 (Nat.lt_irrefl 0)
  have hlong : ((head ++ [255] ++ x :: rest).drop (2 + 2)).length < hostOrder (([255] ++ x :: rest).take 2) := by
    have horder : hostOrder (([255] ++ x :: rest).take 2) = 65280 + x.toNat := by
      simp [hostOrder]
    rw [horder, List.length_drop]
    simp only [List.length_append, List.length_cons, List.length_nil] at hrest ⊢
    omega
  rw [parseLoop, if_neg hleft, h]
  simp only [if_neg hval, if_pos hlong]

/-- What the loop does with a field that is not found: it ends, or goes on with the next one. -/
theorem parseLoop_not_found (hv : i.Valid ids mdLen) (hi : ¬i.Found mdLen) (hrest : mdLen = 1 → rest.length < 1000) :
    let left := i.head ids ((skipValues mdLen).bytes i.field).length ++ (skipValues mdLen).bytes i.field ++ rest
    (∃ ok, parseLoop ids theFieldP left p = (ok, p)) ∨ ∃ next, parseLoop ids theFieldP left p = parseLoop ids next rest p := by
  obtain ⟨f, c⟩ := i
  obtain ⟨rfl, hshort⟩ : c = true ∧ fieldSize mdLen f < 128 := by simpa [Item.Found] using hi
  have hlen : ((skipValues mdLen).bytes f).length = fieldSize mdLen f := Values.length_bytes length_skipValues
  have hpos : 1 ≤ fieldSize mdLen f := hv.size.1
  have hhead := fieldHead_short ((skipValues mdLen).bytes f ++ rest) (hlen ▸ hshort) (hv.id rfl).1
  rw [← List.append_assoc] at hhead
  have htwo : ((⟨f, true⟩ : Item).head ids ((skipValues mdLen).bytes f).length).length = 2 := rfl
  by_cases hroom : ((skipValues mdLen).bytes f ++ rest).length ≤ 2
  · -- too little is left for a name and a length
    left
    refine ⟨true, ?_⟩
    rw [parseLoop]
    split
    · rfl
    · rw [hhead, if_pos hroom]
  rw [if_neg hroom] at hhead
  by_cases hone : fieldSize mdLen f = 1
  · left
    obtain rfl : f = .kMediaDataField := by
      by_contra hf
      rw [fieldSize, if_neg hf] at hone
      cases f <;> first | exact absurd rfl hf | exact absurd hone (by decide)
    obtain rfl : mdLen = 1 := hone
    have hne : rest ≠ [] := by
      rintro rfl
      exact hroom (by decide)
    exact ⟨false, parseLoop_one htwo (hrest rfl) hhead hne⟩
  · right
    have hsize : 2 ≤ fieldSize mdLen f := by omega
    exact parseLoop_skip htwo (hlen ▸ hsize) (hlen ▸ skipValues_bytes hsize hshort) hhead

/-- A field that is not found is not set. -/
theorem parseLoop_unset (hv : ∀ i ∈ items, i.Valid ids mdLen) (hcount : items.length ≤ 6)
    (hbad : ∀ i ∈ items, i.field = f → ¬i.Found mdLen) :
    (parseLoop ids theFieldP (encode ids (skipValues mdLen) items) p).1 = false ∨
      (parseLoop ids theFieldP (encode ids (skipValues mdLen) items) p).2.get f = p.get f := by
  induction items generalizing theFieldP p with
  | nil =>
    right
    rw [parseLoop]
    exact congrArg (fun r : Bool × RTPMetaInfoPacket => r.2.get f) (if_pos (Nat.zero_le 2))
  | cons i items ih =>
    obtain ⟨hi, hv⟩ := List.forall_mem_cons.1 hv
    obtain ⟨hibad, hbad⟩ := List.forall_mem_cons.1 hbad
    simp only [List.length_cons] at hcount
    rw [encode]
    by_cases hfound : i.Found mdLen
    · rw [parseLoop_found hi length_skipValues hfound]
      have hne : f ≠ i.field := fun heq => hibad heq.symm hfound
      rcases ih hv (by omega) hbad with hfail | hget
      · exact Or.inl hfail
      · exact Or.inr (hget.trans (get_store_ne _ hne))
    · have hrest : mdLen = 1 → (encode ids (skipValues mdLen) items).length < 1000 := by
        rintro rfl
        have hle : (encode ids (skipValues 1) items).length ≤ 12 * items.length :=
          length_encode_le fun f => by cases f <;> decide
        omega
      rcases parseLoop_not_found hi hfound hrest with ⟨ok, hend⟩ | ⟨next, hnext⟩
      · right
        rw [hend]
      · rw [hnext]
        exact ih hv (by omega) hbad

end Parse

theorem length_le_of_distinct {items : List Item} (h : (items.map Item.field).Nodup) : items.length ≤ 6 := by
  have hsub : (items.map Item.field).Subperm allFields := List.subperm_of_subset h fun f _ => mem_allFields
  have hle : (items.map Item.field).length ≤ 6 := hsub.length_le
  rwa [List.length_map] at hle

/-- A packet none of whose getters returns what a packet of `skipValues` has in its fields. -/
def otherPacket : RTPMetaInfoPacket := ⟨1, 1, 1, 1, 1, 0, 0⟩

theorem otherPacket_get {mdLen a : Nat} {f : Field} (h : f = .kMediaDataField → 1 ≤ mdLen) :
    otherPacket.get f ≠ (skipValues mdLen).get a f := by
  intro heq
  cases f with
  | kMediaDataField =>
    have hlen : 0 = (skipValues mdLen).mediaData.length := (FieldValue.media.inj heq).2
    rw [length_skipValues] at hlen
    exact absurd (h rfl) (by omega)
  | _ => cases heq

/-- **Parsing undoes building** for all values of the fields if and only if each field that is encoded with an ID has 128 bytes
or more. -/
theorem undone_iff (inHeader : List UInt8) (items : List Item) (mdLen : Nat) (hdistinct : (items.map Item.field).Nodup)
    (hvalid : ∀ i ∈ items, i.Valid (constructFieldIDArrayFromHeader inHeader) mdLen) :
    (∀ v rtpHeader inPacketBuffer p, v.mediaData.length = mdLen → rtpHeader.length = 12 →
        Undone (constructFieldIDArrayFromHeader inHeader) items v rtpHeader inPacketBuffer p) ↔
      ∀ i ∈ items, i.compressed = true → 128 ≤ fieldSize mdLen i.field := by
  generalize constructFieldIDArrayFromHeader inHeader = ids at hvalid ⊢
  constructor
  · intro hall i hi
    by_contra hfound
    have hfound : ¬i.Found mdLen := hfound
    obtain ⟨hok, hget⟩ := hall (skipValues mdLen) (List.replicate 12 0) 0 otherPacket length_skipValues rfl
    have hfield := hget i.field
    rw [if_pos (List.mem_map_of_mem hi)] at hfield
    have hbad : ∀ j ∈ items, j.field = i.field → ¬j.Found mdLen := by
      intro j hj heq
      rwa [List.inj_on_of_nodup_map hdistinct hj hi heq]
    have hunset : (parseLoop ids 12 _ otherPacket).1 = false ∨ _ :=
      parseLoop_unset hvalid (length_le_of_distinct hdistinct) hbad
    rcases hunset with hfail | hkept
    · exact Bool.false_ne_true (hfail.symm.trans hok)
    · exact otherPacket_get (fun hmd => ((hvalid i hi).media hmd).1) (hkept.symm.trans hfield)
  · intro hfound v rtpHeader inPacketBuffer p hmd hlen
    obtain ⟨p', hloop, hget⟩ := parseLoop_encode hvalid hmd hdistinct hfound
    rw [Undone, RTPMetaInfoPacket.parsePacket, List.drop_left' hlen, hloop]
    exact ⟨rfl, hget⟩

/-- `md=1;pp` -/
def mediaHeader : List UInt8 := [109, 100, 61, 49, 59, 112, 112]

theorem mediaHeader_id : constructFieldIDArrayFromHeader mediaHeader .kMediaDataField = 1 := by decide +kernel

theorem mediaHeader_own (f : Field) (h : f ≠ .kMediaDataField) :
    constructFieldIDArrayFromHeader mediaHeader f ≠ constructFieldIDArrayFromHeader mediaHeader .kMediaDataField := by
  cases f <;> first | exact absurd rfl h | decide +kernel

/-- Media data with its ID 1, up to 255 bytes. -/
theorem valid_media {mdLen : Nat} (h : 1 ≤ mdLen ∧ mdLen ≤ 255) :
    Item.Valid (constructFieldIDArrayFromHeader mediaHeader) mdLen ⟨.kMediaDataField, true⟩ where
  id _ := ⟨by rw [mediaHeader_id]; decide, mediaHeader_own⟩
  media _ := h

/-- A position with its name, and 200 bytes of media data with the ID. -/
theorem undone_iff_media :
    (∀ v rtpHeader inPacketBuffer p, v.mediaData.length = 200 → rtpHeader.length = 12 →
        Undone (constructFieldIDArrayFromHeader mediaHeader) [⟨.kPacketPosField, false⟩, ⟨.kMediaDataField, true⟩] v rtpHeader
          inPacketBuffer p) ↔
      ∀ i ∈ ([⟨.kPacketPosField, false⟩, ⟨.kMediaDataField, true⟩] : List Item), i.compressed = true →
        128 ≤ fieldSize 200 i.field :=
  undone_iff mediaHeader _ 200 (by decide) (List.forall_mem_cons.2
    ⟨⟨by rintro ⟨⟩, by rintro ⟨⟩⟩, List.forall_mem_singleton.2 (valid_media (by decide))⟩)

/-- Five bytes of media data with the ID: the packet is refused. -/
theorem short_media : Item.Valid (constructFieldIDArrayFromHeader mediaHeader) 5 ⟨.kMediaDataField, true⟩ ∧
    ¬Undone (constructFieldIDArrayFromHeader mediaHeader) [⟨.kMediaDataField, true⟩] ⟨0, 0, 0, 0, 0, [1, 2, 3, 4, 5]⟩
      (List.replicate 12 0) 1000 ⟨0, 0, 0, 0, 0, 0, 0⟩ := by
  refine ⟨valid_media (by decide), ?_⟩
  rintro ⟨hok, -⟩
  have hrun : (RTPMetaInfoPacket.parsePacket ⟨0, 0, 0, 0, 0, 0, 0⟩ 1000 (List.replicate 12 0 ++
      encode (constructFieldIDArrayFromHeader mediaHeader) ⟨0, 0, 0, 0, 0, [1, 2, 3, 4, 5]⟩ [⟨.kMediaDataField, true⟩])
      (constructFieldIDArrayFromHeader mediaHeader)).1 = false := by decide +kernel
  exact Bool.false_ne_true (hrun.symm.trans hok)

end ToolLib.Common.RTPMetaInfo
