import ToolLib.Common.MetaInfoMemory

/-!
# ParsePacket in memory and on lists

`ParsePacket` with its pointers, arrays and field indices has the result of `RTPMetaInfo.parsePacket`, which has what is
left of the packet as a list and the fields as a type: `parsePacket_refines`.
-/

namespace ToolLib.Common.MetaInfoMemory

open ToolLib.Base
open ToolLib.Common.RTPMetaInfo (Field allFields hostOrder loadFieldName)

/-- The index of a field. -/
def index : Option Field → Nat
  | some .kPacketPosField => kPacketPosField
  | some .kTransTimeField => kTransTimeField
  | some .kFrameTypeField => kFrameTypeField
  | some .kPacketNumField => kPacketNumField
  | some .kSeqNumField => kSeqNumField
  | some .kMediaDataField => kMediaDataField
  | none => kIllegalField

/-- The members that `ParsePacket` sets. -/
def RTPMetaInfoPacket.fields (p : RTPMetaInfoPacket) : RTPMetaInfo.RTPMetaInfoPacket where
  fPacketPosition := p.fPacketPosition
  fTransmitTime := p.fTransmitTime
  fFrameType := p.fFrameType
  fPacketNumber := p.fPacketNumber
  fSeqNum := p.fSeqNum
  fMediaDataP := p.fMediaDataP.toNat
  fMediaDataLen := p.fMediaDataLen

/-- An array of IDs, by fields. -/
def idsOf (inFieldIDArray : Nat → Int) (f : Field) : Int := inFieldIDArray (index (some f))

/-! ## The tables -/

theorem validator_eq (f : Option Field) :
    kFieldLengthValidator.getD (index f) 0 = RTPMetaInfo.kFieldLengthValidator f := by
  rcases f with _ | f
  · rfl
  · cases f <;> rfl

theorem nameMap_eq (f : Field) : kFieldNameMap.getD (index (some f)) 0 = RTPMetaInfo.kFieldNameMap f := by
  cases f <;> rfl

section Search

variable {r : Region} {hit : Nat → Bool} {n x : Nat} {s : Parser}

theorem search_list (l : List Field) (hl : l.map (fun f => index (some f)) = List.range' x l.length) :
    (s.search r hit l.length x).1 = index (l.find? fun f => hit (index (some f))) := by
  induction l generalizing x s with
  | nil => rfl
  | cons f l ih =>
    rw [List.map_cons, List.length_cons, List.range'_succ] at hl
    obtain ⟨hf, hl⟩ := List.cons.inj hl
    rw [List.length_cons, Parser.search, List.find?_cons, hf]
    cases hit x with
    | true => exact hf.symm
    | false => exact ih hl

/-- The loops over the fields find the first that is hit. -/
theorem search_fst : (s.search r hit kNumFields 0).1 = index (allFields.find? fun f => hit (index (some f))) :=
  search_list allFields rfl

end Search

/-! ## Turns -/

section Turn

variable {buffer : Int → UInt8} {ids : Nat → Int} {e : Int} {s : Parser}

/-- What is left of the packet. -/
def left (buffer : Int → UInt8) (e : Int) (s : Parser) : List UInt8 :=
  bytesFrom buffer s.theFieldP (e - s.theFieldP).toNat

theorem length_left : (left buffer e s).length = (e - s.theFieldP).toNat := length_bytesFrom

theorem take_left {n k : Nat} (h : s.theFieldP + (n + k : Nat) ≤ e) :
    ((left buffer e s).drop n).take k = bytesFrom buffer (s.theFieldP + n) k := by
  rw [left, drop_bytesFrom]
  exact take_bytesFrom (by omega)

/-- The head of a field, when there are two bytes of it. -/
theorem fieldHead_refines (buffer : Int → UInt8) (ids : Nat → Int) (h : s.theFieldP + 2 ≤ e) :
    ∃ s', s.fieldHead buffer ids e =
      ((RTPMetaInfo.fieldHead (idsOf ids) (left buffer e s)).map fun f => (index f.1, f.2.1), s') ∧
    ∀ f, RTPMetaInfo.fieldHead (idsOf ids) (left buffer e s) = some f →
      s'.theFieldP = s.theFieldP + (2 + f.2.2 : Nat) ∧ s'.theFieldP ≤ e := by
  have hlen : (e - s.theFieldP).toNat = (e - (s.theFieldP + 1 + 1)).toNat + 1 + 1 := by omega
  have hleft : left buffer e s = buffer s.theFieldP :: buffer (s.theFieldP + 1) ::
      bytesFrom buffer (s.theFieldP + 1 + 1) (e - (s.theFieldP + 1 + 1)).toNat := by
    rw [left, hlen, bytesFrom_succ, bytesFrom_succ]
  have hload : loadFieldName (bytesFrom buffer s.theFieldP 2) = loadFieldName (left buffer e s) := by
    rw [hleft, bytesFrom_two]
    rfl
  have hzero : (left buffer e s).getD 0 0 = buffer s.theFieldP := by
    rw [hleft]
    rfl
  have hone : (left buffer e s).getD 1 0 = buffer (s.theFieldP + 1) := by
    rw [hleft]
    rfl
  unfold Parser.fieldHead RTPMetaInfo.fieldHead
  rw [hload, hzero, hone]
  split
  next =>
    refine ⟨_, Prod.ext ?_ rfl, fun f hf => ?_⟩
    · dsimp only
      rw [search_fst]
      rfl
    · cases hf
      exact ⟨rfl, h⟩
  next =>
    by_cases hroom : e - 4 ≤ s.theFieldP
    · rw [if_pos hroom, if_pos (by rw [length_left]; omega)]
      exact ⟨_, rfl, fun f hf => by cases hf⟩
    · have hname : (left buffer e s).take 2 = bytesFrom buffer s.theFieldP 2 := take_bytesFrom (by omega)
      have hlength : ((left buffer e s).drop 2).take 2 = bytesFrom buffer (s.theFieldP + 2) 2 := take_left (by omega)
      rw [if_neg hroom, if_neg (by rw [length_left]; omega), hname, hlength]
      refine ⟨_, Prod.ext ?_ rfl, fun f hf => ?_⟩
      · dsimp only [Parser.getFieldIndexForName]
        rw [search_fst]
        simp only [nameMap_eq]
        rfl
      · cases hf
        refine ⟨rfl, ?_⟩
        dsimp only
        omega

theorem fieldHead_none {s₁ : Parser} (h : s.theFieldP + 2 ≤ e) (hhead : s.fieldHead buffer ids e = (none, s₁)) :
    RTPMetaInfo.fieldHead (idsOf ids) (left buffer e s) = none := by
  obtain ⟨s₂, hlists, -⟩ := fieldHead_refines buffer ids h
  rw [hhead] at hlists
  exact Option.map_eq_none_iff.1 (Prod.mk.inj hlists).1.symm

theorem fieldHead_some {x len : Nat} {s₁ : Parser} (h : s.theFieldP + 2 ≤ e)
    (hhead : s.fieldHead buffer ids e = (some (x, len), s₁)) :
    ∃ f more, RTPMetaInfo.fieldHead (idsOf ids) (left buffer e s) = some (f, len, more) ∧ x = index f ∧
      s₁.theFieldP = s.theFieldP + (2 + more : Nat) ∧ s₁.theFieldP ≤ e := by
  obtain ⟨s₂, hlists, hplace⟩ := fieldHead_refines buffer ids h
  rw [hhead] at hlists
  obtain ⟨hfield, rfl⟩ := Prod.mk.inj hlists
  obtain ⟨⟨f, len', more⟩, hf, heq⟩ := Option.map_eq_some_iff.1 hfield.symm
  cases heq
  exact ⟨f, more, hf, rfl, hplace _ hf⟩

/-- What is stored is what the bytes of the field say, whose number has been checked. -/
theorem store_refines {len : Nat} (f : Option Field)
    (hvalid : RTPMetaInfo.kFieldLengthValidator f = 0 ∨ RTPMetaInfo.kFieldLengthValidator f = len) :
    (s.store buffer (index f) len).packet.fields =
      s.packet.fields.store f s.theFieldP.toNat (bytesFrom buffer s.theFieldP len) := by
  rcases f with _ | f
  · rfl
  · cases f with
    | kMediaDataField =>
      rw [RTPMetaInfo.RTPMetaInfoPacket.store, length_bytesFrom]
      rfl
    | _ =>
      rw [← hvalid.resolve_left (by decide)]
      rfl

/-- A turn of the loop in memory is a turn of the loop on lists. -/
theorem turn_refines (buffer : Int → UInt8) (ids : Nat → Int) (e : Int) (hlow : 0 ≤ s.theFieldP) :
    (∃ s', s.turn buffer ids e = .inl s' ∧
        RTPMetaInfo.parseLoop (idsOf ids) s.theFieldP.toNat (left buffer e s) s.packet.fields =
          RTPMetaInfo.parseLoop (idsOf ids) s'.theFieldP.toNat (left buffer e s') s'.packet.fields) ∨
      ∃ r s', s.turn buffer ids e = .inr (r, s') ∧
        RTPMetaInfo.parseLoop (idsOf ids) s.theFieldP.toNat (left buffer e s) s.packet.fields =
          (r, s'.packet.fields) := by
  have hpacket := fieldHead_packet buffer ids e s
  have hturned := Parser.turned buffer ids e s
  rw [RTPMetaInfo.parseLoop]
  generalize s.turn buffer ids e = t at hturned ⊢
  cases hturned with
  | atEnd hend =>
    rw [if_pos (by rw [length_left]; omega)]
    exact Or.inr ⟨true, s, rfl, rfl⟩
  | @noRoom s₁ hlt hhead =>
    rw [hhead] at hpacket
    rw [if_neg (by rw [length_left]; omega), fieldHead_none (by omega) hhead]
    exact Or.inr ⟨true, s₁, rfl, by rw [← hpacket]⟩
  | @wrong x len s₁ hlt hhead hfits =>
    obtain ⟨f, more, hfield, rfl, hplace, hend⟩ := fieldHead_some (by omega) hhead
    rw [hhead] at hpacket
    have hfits : (RTPMetaInfo.kFieldLengthValidator f = 0 ∨ RTPMetaInfo.kFieldLengthValidator f = len) →
        e < s₁.theFieldP + len := by
      rw [← validator_eq f]
      exact fun hvalid => Int.not_le.1 fun hle => hfits ⟨hvalid, hle⟩
    rw [if_neg (by rw [length_left]; omega), hfield]
    dsimp only
    rw [List.length_drop, length_left]
    refine Or.inr ⟨false, _, rfl, ?_⟩
    split
    next => rw [← hpacket]; rfl
    next hvalid =>
      rw [if_pos (by omega), ← hpacket]
      rfl
  | @goesOn x len s₁ hlt hhead hfits =>
    obtain ⟨f, more, hfield, rfl, hplace, hend⟩ := fieldHead_some (by omega) hhead
    rw [hhead] at hpacket
    have hvalid := hfits.1
    have hstop := hfits.2
    rw [validator_eq] at hvalid
    rw [if_neg (by rw [length_left]; omega), hfield]
    dsimp only
    rw [List.length_drop, length_left, if_neg (by omega), if_neg (by omega)]
    refine Or.inl ⟨_, rfl, ?_⟩
    have hbytes : ((left buffer e s).drop (2 + more)).take len = bytesFrom buffer s₁.theFieldP len := by
      rw [hplace]
      exact take_left (by omega)
    have hfields : ((s₁.read .fieldLengthValidator (index f) 1).store buffer (index f) len).packet.fields =
        s.packet.fields.store f (s.theFieldP.toNat + (2 + more)) (bytesFrom buffer s₁.theFieldP len) := by
      have haddress : s₁.theFieldP.toNat = s.theFieldP.toNat + (2 + more) := by omega
      refine (store_refines f hvalid).trans ?_
      show s₁.packet.fields.store f s₁.theFieldP.toNat (bytesFrom buffer s₁.theFieldP len) = _
      rw [show s₁.packet = s.packet from hpacket, haddress]
    have hfirst : s.theFieldP.toNat + (2 + more) + len = (s₁.theFieldP + len).toNat := by omega
    have hrest : (left buffer e s).drop (2 + more + len) =
        bytesFrom buffer (s₁.theFieldP + len) (e - (s₁.theFieldP + len)).toNat := by
      have hplace' : s.theFieldP + ((2 + more + len : Nat) : Int) = s₁.theFieldP + len := by omega
      have hlen : (e - s.theFieldP).toNat - (2 + more + len) = (e - (s₁.theFieldP + len)).toNat := by omega
      rw [left, drop_bytesFrom, hplace', hlen]
    rw [hbytes, hfirst, hrest]
    exact congrArg _ hfields.symm

end Turn

/-- **`ParsePacket` in memory** has the result of the function on lists. -/
theorem parsePacket_refines {turns : Nat} {r : Bool} {s : Parser} (p : RTPMetaInfoPacket) (buffer : Int → UInt8)
    (inPacketBuffer inPacketLen : Nat) (inFieldIDArray : Nat → Int)
    (h : p.parsePacket turns buffer inPacketBuffer inPacketLen inFieldIDArray = some (r, s)) :
    p.fields.parsePacket inPacketBuffer (bytesFrom buffer inPacketBuffer inPacketLen) (idsOf inFieldIDArray) =
      (r, s.packet.fields) := by
  have hstart : p.fields.parsePacket inPacketBuffer (bytesFrom buffer inPacketBuffer inPacketLen) (idsOf inFieldIDArray) =
      RTPMetaInfo.parseLoop (idsOf inFieldIDArray) ((inPacketBuffer : Int) + 12).toNat
        (left buffer (inPacketBuffer + inPacketLen) ⟨p, inPacketBuffer + 12, [], false⟩) p.fields := by
    have hlen : ((inPacketBuffer : Int) + inPacketLen - (inPacketBuffer + 12)).toNat = inPacketLen - 12 := by omega
    have haddress : ((inPacketBuffer : Int) + 12).toNat = inPacketBuffer + 12 := by omega
    rw [RTPMetaInfo.RTPMetaInfoPacket.parsePacket, drop_bytesFrom, left, hlen, haddress]
    rfl
  refine (Loop.turns_rel (Q := fun (x : Bool × Parser) u => (x.1, x.2.packet.fields) = u)
    (R := fun s u => Sound p inPacketBuffer (inPacketBuffer + inPacketLen) s ∧
      RTPMetaInfo.parseLoop (idsOf inFieldIDArray) s.theFieldP.toNat (left buffer (inPacketBuffer + inPacketLen) s)
        s.packet.fields = u)
    (fun s₁ h₁ => ?_) ⟨Sound.new, hstart.symm⟩ h).symm
  obtain ⟨hsound, heq⟩ := h₁
  have hlow := hsound.header
  rcases turn_refines buffer inFieldIDArray (inPacketBuffer + inPacketLen)
    (by omega : 0 ≤ s₁.theFieldP) with ⟨s', hs', hloop⟩ | ⟨r', s', hs', hloop⟩
  · exact Or.inl ⟨s', hs', (hsound.turn_inl hs').1, hloop.symm.trans heq⟩
  · exact Or.inr ⟨(r', s'), hs', hloop.symm.trans heq⟩

/-- **`ParsePacket` in memory** returns for every packet and every array of field identifiers, with the result of the function on
lists. -/
theorem parsePacket_agrees (p : RTPMetaInfoPacket) (buffer : Int → UInt8) (inPacketBuffer inPacketLen : Nat)
    (inFieldIDArray : Nat → Int) :
    ∃ r s, p.parsePacket (inPacketLen + 1) buffer inPacketBuffer inPacketLen inFieldIDArray = some (r, s) ∧
      p.fields.parsePacket inPacketBuffer (bytesFrom buffer inPacketBuffer inPacketLen) (idsOf inFieldIDArray) =
        (r, s.packet.fields) := by
  obtain ⟨⟨r, s⟩, hr, -⟩ := Loop.turns_of_measure (n := inPacketLen + 1)
    (I := Sound p inPacketBuffer (inPacketBuffer + inPacketLen))
    (fun s : Parser => ((inPacketBuffer : Int) + inPacketLen - s.theFieldP).toNat)
    (fun s s' h hs => h.turn_inl hs) (fun s r h hs => h.turn_inr hs) Sound.new (by dsimp only; omega)
  exact ⟨r, s, hr, parsePacket_refines p buffer inPacketBuffer inPacketLen inFieldIDArray hr⟩

end ToolLib.Common.MetaInfoMemory
