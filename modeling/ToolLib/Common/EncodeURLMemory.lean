import ToolLib.Common.DecodeURLMemory

/-!
# EncodeURL in memory

`StringTranslator::EncodeURL` with its pointers. An escape is written by `qtss_sprintf(ioDest, "%%%X", c)`, with a
terminator behind it, and `ioDest` goes on by three, whatever has been written.

`encodeURL_iff` says when that is right: no escape that is written has one digit, and none ends where the destination
does.
-/

namespace ToolLib.Common.EncodeURLMemory

open ToolLib.Base
open ToolLib.Common.StringTranslator (percent illegalChars upperHex TranslatorError)
open ToolLib.Common.DecodeURLMemory (Region past)

/-- The variables of `EncodeURL`, the destination, and what has been accessed. -/
structure Encoder where
  inSrc : Int
  inSrcLen : Int
  ioDest : Int
  dest : Int → UInt8
  theLengthWritten : Int
  accesses : List (Access Region)
  /-- The characters that have been produced, without terminators. -/
  produced : Int

/-- The byte is written as an escape: it is above 127, or illegal in a URL. -/
def Escaped (c : UInt8) : Prop := 127 < c ∨ c ∈ illegalChars

instance : DecidablePred Escaped := fun _ => inferInstanceAs (Decidable (_ ∨ _))

/-- The characters of `"%%%X"`: there is no second digit when `c` is below 16. -/
def sprintfChars (c : UInt8) : List UInt8 :=
  if c < 16 then [percent, upperHex c] else [percent, upperHex (c / 16), upperHex (c % 16)]

/-- Memory when `l` has been stored at `i`. -/
def stored (dest : Int → UInt8) (i : Int) : List UInt8 → Int → UInt8
  | [] => dest
  | c :: l => stored (Function.update dest i c) (i + 1) l

namespace Encoder

def new (inSrcLen : Int) (dest : Int → UInt8) : Encoder := ⟨0, inSrcLen, 0, dest, 0, [], 0⟩

/-- `qtss_sprintf(ioDest, "%%%X", c)` -/
def sprintf (s : Encoder) (c : UInt8) : Encoder :=
  { s with
    dest := stored s.dest s.ioDest (sprintfChars c ++ [0])
    accesses := Access.writes .ioDest s.ioDest ((sprintfChars c).length + 1) ++ s.accesses
    produced := s.produced + (sprintfChars c).length }

/-- `*ioDest = *inSrc` -/
def store (s : Encoder) (c : UInt8) : Encoder :=
  { s with
    dest := stored s.dest s.ioDest [c]
    accesses := .write .ioDest s.ioDest :: s.accesses
    produced := s.produced + 1 }

/-- One turn of the loop of `EncodeURL`, and what is done behind it. -/
def turn (src : Int → UInt8) (inDestLen : Int) (s : Encoder) : Encoder ⊕ (Except TranslatorError Int × Encoder) :=
  if 0 < s.inSrcLen then
    if s.theLengthWritten = inDestLen then .inr (.error .OS_NotEnoughSpace, s)
    else
      let c := src s.inSrc
      let s := { s with accesses := .read .inSrc s.inSrc :: s.accesses }
      let next := { s with inSrc := s.inSrc + 1, inSrcLen := s.inSrcLen - 1 }
      if Escaped c then
        if inDestLen - s.theLengthWritten < 3 then .inr (.error .OS_NotEnoughSpace, s)
        else .inl { next.sprintf c with ioDest := s.ioDest + 3, theLengthWritten := s.theLengthWritten + 3 }
      else .inl { next.store c with ioDest := s.ioDest + 1, theLengthWritten := s.theLengthWritten + 1 }
  else .inr (.ok s.theLengthWritten, s)

end Encoder

open Encoder

/-- `EncodeURL`, when its loop has `turns` turns at most. -/
def encodeURL (turns : Nat) (src : Int → UInt8) (inSrcLen : Int) (dest : Int → UInt8) (inDestLen : Int) :
    Option (Except TranslatorError Int × Encoder) :=
  Loop.turns (turn src inDestLen) turns (new inSrcLen dest)

/-! ## The encoding -/

/-- A byte of the encoding of a URL: as it is, or as an escape with two digits. -/
def encodedByte (c : UInt8) : List UInt8 := if Escaped c then [percent, upperHex (c / 16), upperHex (c % 16)] else [c]

def encoding (bytes : List UInt8) : List UInt8 := bytes.flatMap encodedByte

/-- What is required of a turn for `c`, with `n` bytes written: an escape that is written has two digits, and there is
room for the terminator behind it. -/
def Written (inDestLen : Int) (n : Nat) (c : UInt8) : Prop :=
  Escaped c → n + 3 ≤ inDestLen → 16 ≤ c ∧ n + 3 < inDestLen

instance (inDestLen : Int) (n : Nat) : DecidablePred (Written inDestLen n) := fun _ => inferInstanceAs (Decidable (_ → _))

theorem length_encoding_cons {c : UInt8} {rest : List UInt8} :
    (encoding (c :: rest)).length = (encodedByte c).length + (encoding rest).length := by
  rw [encoding, List.flatMap_cons, List.length_append, encoding]

/-- A statement about the places of a list. -/
theorem forall_place_cons {P : List UInt8 → UInt8 → Prop} {c : UInt8} {rest : List UInt8} :
    (∀ p x q, c :: rest = p ++ x :: q → P p x) ↔ P [] c ∧ ∀ p x q, rest = p ++ x :: q → P (c :: p) x := by
  constructor
  · exact fun h => ⟨h [] c rest rfl, fun p x q heq => h (c :: p) x q (by rw [heq]; rfl)⟩
  · rintro ⟨hc, h⟩ (_ | ⟨y, p⟩) x q heq
    · cases heq
      exact hc
    · cases heq
      exact h p x q rfl

section Turns

variable {src : Int → UInt8} {len m : Int} {s s' : Encoder} {n : Nat} {c : UInt8} {rest : List UInt8}

/-- At the head of the loop `n` bytes have been written, and the bytes `rest` are left of the source, which has `len`. -/
structure AtHead (src : Int → UInt8) (len m : Int) (s : Encoder) (n : Nat) (rest : List UInt8) : Prop where
  source : 0 ≤ s.inSrc ∧ s.inSrc + s.inSrcLen = len
  left : s.inSrcLen.toNat = rest.length
  bytes : bytesFrom src s.inSrc rest.length = rest
  place : s.ioDest = n ∧ s.theLengthWritten = n
  room : n ≤ m

theorem AtHead.head (h : AtHead src len m s n (c :: rest)) :
    0 < s.inSrcLen ∧ src s.inSrc = c ∧ bytesFrom src (s.inSrc + 1) rest.length = rest := by
  have hleft := h.left
  rw [List.length_cons] at hleft
  exact ⟨by omega, bytesFrom_eq_cons.1 h.bytes⟩

theorem AtHead.next {k : Nat} {s₁ : Encoder} (h : AtHead src len m s n (c :: rest)) (hsrc : s₁.inSrc = s.inSrc + 1)
    (hleft : s₁.inSrcLen = s.inSrcLen - 1) (hdest : s₁.ioDest = s.ioDest + k)
    (hlen : s₁.theLengthWritten = s.theLengthWritten + k) (hroom : n + k ≤ m) : AtHead src len m s₁ (n + k) rest where
  source := by
    have hs := h.source
    rw [hsrc, hleft]
    omega
  left := by
    have hl := h.left
    rw [List.length_cons] at hl
    rw [hleft]
    omega
  bytes := by
    rw [hsrc]
    exact h.head.2.2
  place := by
    rw [hdest, hlen, h.place.1, h.place.2, Int.natCast_add]
    exact ⟨rfl, rfl⟩
  room := by
    rw [Int.natCast_add]
    exact hroom

/-- The accesses are inside, and `ioDest` is behind the characters that have been produced. -/
def Right (len m : Int) (s : Encoder) : Prop :=
  Access.Inside (fun _ => 0) (past len m) s.accesses ∧ s.ioDest = s.produced

theorem length_encodedByte : (encodedByte c).length = if Escaped c then 3 else 1 := by
  unfold encodedByte
  split <;> rfl

/-- The terminator of an escape with two digits is the fourth byte; an escape with one digit is too short. -/
theorem sprintf_right (len : Int) {i : Int} (hi : i = n) :
    Access.Inside (fun _ => 0) (past len m) (Access.writes .ioDest i ((sprintfChars c).length + 1)) ∧
      3 = (sprintfChars c).length ↔ 16 ≤ c ∧ n + 3 < m := by
  rw [Access.inside_writes_iff, hi]
  unfold sprintfChars
  by_cases hc : c < 16
  · rw [if_pos hc]
    exact iff_of_false (fun h => absurd h.2 (by simp)) fun h => absurd h.1 (UInt8.not_le.2 hc)
  · rw [if_neg hc]
    have hlow : 16 ≤ c := UInt8.not_lt.1 hc
    rw [and_iff_right hlow]
    exact ⟨fun h => h.1.2, fun h => ⟨⟨Int.natCast_nonneg n, h⟩, rfl⟩⟩

/-- One turn: the byte is written, or there is no room for it. -/
theorem turn_spec (h : AtHead src len m s n (c :: rest)) :
    (∃ s₁, turn src m s = .inl s₁ ∧ AtHead src len m s₁ (n + (encodedByte c).length) rest ∧
        (s.ioDest = s.produced →
          (Right len m s₁ ↔ Access.Inside (fun _ => 0) (past len m) s.accesses ∧ Written m n c))) ∨
      ∃ s₁, turn src m s = .inr (.error .OS_NotEnoughSpace, s₁) ∧ m < n + (encodedByte c).length ∧
        (Access.Inside (fun _ => 0) (past len m) s₁.accesses ↔ Access.Inside (fun _ => 0) (past len m) s.accesses) := by
  obtain ⟨hlen, hc, -⟩ := h.head
  have hroom := h.room
  have hplace := h.place
  have hsource := h.source
  rw [length_encodedByte]
  unfold turn
  rw [if_pos hlen, hplace.2]
  split
  next hfull => exact Or.inr ⟨s, rfl, by split <;> omega, Iff.rfl⟩
  next hfull =>
    dsimp only
    rw [hc]
    have hread : Access.Inside (fun _ => 0) (past len m) (.read .inSrc s.inSrc :: s.accesses) ↔
        Access.Inside (fun _ => 0) (past len m) s.accesses :=
      Access.inside_cons.trans (and_iff_right ⟨hsource.1, by show s.inSrc < len; omega⟩)
    split
    next hescaped =>
      split
      next hshort => exact Or.inr ⟨_, rfl, by omega, hread⟩
      next hthree =>
        refine Or.inl ⟨_, rfl, h.next rfl rfl rfl (by rw [hplace.2]; rfl) (by omega), fun heq => ?_⟩
        have hwritten : Written m n c ↔ 16 ≤ c ∧ n + 3 < m := ⟨fun hw => hw hescaped (by omega), fun hw _ _ => hw⟩
        rw [hwritten, ← sprintf_right len hplace.1]
        show (Access.Inside _ _ (_ ++ _) ∧ s.ioDest + 3 = s.produced + (sprintfChars c).length) ↔ _
        rw [Access.inside_append, hread, heq, and_comm (a := Access.Inside _ _ (Access.writes ..)), and_assoc]
        refine and_congr_right fun _ => and_congr_right fun _ => ?_
        omega
    next hplain =>
      refine Or.inl ⟨_, rfl, h.next rfl rfl rfl (by rw [hplace.2]; rfl) (by omega), fun heq => ?_⟩
      have hwritten : Written m n c := fun hescaped => absurd hescaped hplain
      rw [and_iff_left hwritten]
      show (Access.Inside _ _ (_ :: _) ∧ s.ioDest + 1 = s.produced + 1) ↔ _
      rw [Access.inside_cons, hread, and_assoc]
      have hin : 0 ≤ s.ioDest ∧ s.ioDest < m := by omega
      exact (and_iff_right hin).trans (and_iff_left (by rw [heq]))

/-- The result of the loop, and what it has accessed. -/
structure Encoded (src : Int → UInt8) (len m : Int) (s : Encoder) (n : Nat) (rest : List UInt8)
    (r : Except TranslatorError Int) (s' : Encoder) : Prop where
  full : r = .error .OS_NotEnoughSpace ↔ m < n + (encoding rest).length
  ok : ∀ k, r = .ok k → k = n + (encoding rest).length
  right : (Access.Inside (fun _ => 0) (past len m) s'.accesses ∧
      ∀ s'', Loop.Heads (turn src m) s s'' → s''.ioDest = s''.produced) ↔
    Right len m s ∧ ∀ p c q, rest = p ++ c :: q → Written m (n + (encoding p).length) c

theorem loop_spec (h : AtHead src len m s n rest) :
    ∃ r s', Loop.Ends (turn src m) s (r, s') ∧ Encoded src len m s n rest r s' := by
  induction rest generalizing s n with
  | nil =>
    have hleft : s.inSrcLen.toNat = 0 := h.left
    have hstop : turn src m s = .inr (.ok s.theLengthWritten, s) := if_neg (by omega)
    have hroom := h.room
    refine ⟨_, s, Loop.ends_inr hstop, ⟨fun hr => (by cases hr), fun hfull => ?_⟩, fun k hk => ?_, ?_⟩
    · rw [encoding, List.flatMap_nil, List.length_nil] at hfull
      omega
    · rw [← Except.ok.inj hk, h.place.2]
      exact (Int.add_zero _).symm
    · simp only [Loop.heads_inr hstop, forall_eq]
      exact (and_iff_left fun p c q hsplit => by simp at hsplit).symm
  | cons c rest ih =>
    have hall : (∀ p x q, c :: rest = p ++ x :: q → Written m (n + (encoding p).length) x) ↔ Written m n c ∧
        ∀ p x q, rest = p ++ x :: q → Written m (n + (encodedByte c).length + (encoding p).length) x := by
      simp only [forall_place_cons (P := fun p x => Written m (n + (encoding p).length) x), length_encoding_cons,
        Nat.add_assoc]
      rfl
    rcases turn_spec h with ⟨s₁, hs, h₁, hright⟩ | ⟨s₁, hs, hfull, hin⟩
    · obtain ⟨r, s', hends, henc⟩ := ih h₁
      refine ⟨r, s', (Loop.ends_inl hs).2 hends, ?_, fun k hk => ?_, ?_⟩
      · rw [henc.full, length_encoding_cons, Nat.cast_add, Nat.cast_add, Int.add_assoc]
      · rw [henc.ok k hk, length_encoding_cons, Nat.cast_add, Nat.cast_add, Int.add_assoc]
      · simp only [Loop.heads_inl hs, forall_eq_or_imp]
        rw [and_left_comm, henc.right, hall]
        constructor
        · rintro ⟨heq, hright₁, hrest⟩
          obtain ⟨hinside, hc⟩ := (hright heq).1 hright₁
          exact ⟨⟨hinside, heq⟩, hc, hrest⟩
        · rintro ⟨⟨hinside, heq⟩, hc, hrest⟩
          exact ⟨heq, (hright heq).2 ⟨hinside, hc⟩, hrest⟩
    · -- there is no room for an escape here, nor further on
      have hshort : ∀ p x q, c :: rest = p ++ x :: q → Written m (n + (encoding p).length) x := by
        rw [hall]
        refine ⟨fun hescaped hroom => ?_, fun p x q _ _ hroom => ?_⟩
        · rw [length_encodedByte, if_pos hescaped] at hfull
          omega
        · omega
      refine ⟨_, s₁, Loop.ends_inr hs, iff_of_true rfl ?_, fun k hk => (by cases hk), ?_⟩
      · rw [length_encoding_cons]
        omega
      · simp only [Loop.heads_inr hs, forall_eq]
        rw [hin, and_iff_left hshort, Right]

theorem atHead_new (src dest : Int → UInt8) (len : Int) (hm : 0 ≤ m) :
    AtHead src len m (new len dest) 0 (bytesFrom src 0 len.toNat) where
  source := ⟨Int.le_refl 0, Int.zero_add _⟩
  left := length_bytesFrom.symm
  bytes := by
    rw [length_bytesFrom]
    rfl
  place := ⟨rfl, rfl⟩
  room := hm

end Turns

/-- **`EncodeURL` is right** exactly when no escape that is written has one digit, and none ends where the destination
does: then it writes the destination only, terminators included, `ioDest` is behind the characters that have been
produced in every turn, `OS_NotEnoughSpace` says that the encoding is too long, and the length of the encoding is
returned. -/
theorem encodeURL_iff (src dest : Int → UInt8) (inSrcLen inDestLen : Int) (hdest : 0 ≤ inDestLen) :
    (∃ turns r s, encodeURL turns src inSrcLen dest inDestLen = some (r, s) ∧
        Access.Inside (fun _ => 0) (past inSrcLen inDestLen) s.accesses ∧
        (∀ s', Loop.Heads (turn src inDestLen) (new inSrcLen dest) s' → s'.ioDest = s'.produced) ∧
        (r = .error .OS_NotEnoughSpace ↔ inDestLen < (encoding (bytesFrom src 0 inSrcLen.toNat)).length) ∧
        ∀ n, r = .ok n → n = (encoding (bytesFrom src 0 inSrcLen.toNat)).length) ↔
      ∀ p c q, bytesFrom src 0 inSrcLen.toNat = p ++ c :: q → Written inDestLen (encoding p).length c := by
  obtain ⟨r, s, hends, henc⟩ := loop_spec (atHead_new src dest inSrcLen hdest)
  have hright := henc.right
  rw [and_iff_right (show Right inSrcLen inDestLen (new inSrcLen dest) from ⟨Access.inside_nil, rfl⟩)] at hright
  simp only [Nat.zero_add] at hright
  rw [← hright]
  constructor
  · rintro ⟨turns, r', s', hr', hinside, hheads, -, -⟩
    obtain ⟨rfl, rfl⟩ := Prod.mk.inj (hends.unique ⟨turns, hr'⟩)
    exact ⟨hinside, hheads⟩
  · rintro ⟨hinside, hheads⟩
    obtain ⟨turns, hr⟩ := hends
    refine ⟨turns, r, s, hr, hinside, hheads, ?_, fun k hk => ?_⟩
    · rw [henc.full, Nat.cast_zero, Int.zero_add]
    · rw [henc.ok k hk, Nat.cast_zero, Int.zero_add]

/-- "a b", with room to spare. -/
theorem encodeURL_iff_space : (0 : Int) ≤ 6 ∧
    ((∃ turns r s, encodeURL turns (memory [97, 32, 98] fun _ => 0) 3 (fun _ => 0) 6 = some (r, s) ∧
        Access.Inside (fun _ => 0) (past 3 6) s.accesses ∧
        (∀ s', Loop.Heads (turn (memory [97, 32, 98] fun _ => 0) 6) (new 3 fun _ => 0) s' → s'.ioDest = s'.produced) ∧
        (r = .error .OS_NotEnoughSpace ↔ (6 : Int) < (encoding (bytesFrom (memory [97, 32, 98] fun _ => 0) 0 3)).length) ∧
        ∀ n, r = .ok n → n = (encoding (bytesFrom (memory [97, 32, 98] fun _ => 0) 0 3)).length) ↔
      ∀ p c q, bytesFrom (memory [97, 32, 98] fun _ => 0) 0 3 = p ++ c :: q → Written 6 (encoding p).length c) :=
  ⟨by decide, encodeURL_iff (memory [97, 32, 98] fun _ => 0) (fun _ => 0) 3 6 (by decide)⟩

/-- A space, with room for its escape: the terminator is written behind the destination. -/
theorem encodeURL_terminator : ∃ s, encodeURL 2 (memory [32] fun _ => 0) 1 (fun _ => 0) 3 = some (.ok 3, s) ∧
    ¬ Access.Inside (fun _ => 0) (past 1 3) s.accesses :=
  ⟨_, rfl, by decide⟩

end ToolLib.Common.EncodeURLMemory
