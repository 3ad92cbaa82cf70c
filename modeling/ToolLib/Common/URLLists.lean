import ToolLib.Common.EncodeURLMemory

/-!
# The translators in memory and on lists

`DecodeURL` and `EncodeURL` with their pointers have the results of `StringTranslator.decodeURL` and
`StringTranslator.encodeURL` on the bytes of the source, and leave these bytes in the destination.
-/

namespace ToolLib.Common.DecodeURLMemory

open ToolLib.Base
open ToolLib.Common.StringTranslator (slash dot queryMark percent hexDigit TranslatorError Decoding)
open Decoder

/-! ## DecodeURL -/

/-- What has been written, in memory and on a list. -/
structure Writes (s : Decoder) (d : Decoding) : Prop where
  place : s.ioDest = d.written.length ∧ s.theLengthWritten = d.written.length
  dest : bytesFrom s.dest 0 d.written.length = d.written.reverse
  dots : s.numDotChars = d.numDotChars
  query : s.inQuery = d.inQuery

/-- The result, with these bytes in the destination. -/
def Agrees (r : Except TranslatorError Int) (dest : Int → UInt8) : Except TranslatorError (List UInt8) → Prop
  | .error e => r = .error e
  | .ok out => r = .ok out.length ∧ bytesFrom dest 0 out.length = out

namespace Writes

variable {s : Decoder} {d : Decoding} {c : UInt8} {k : Nat}

/-- Going back in the destination. -/
theorem drop (h : Writes s d) : bytesFrom s.dest 0 (d.written.drop k).length = (d.written.drop k).reverse := by
  rw [List.length_drop, ← take_bytesFrom (Nat.sub_le d.written.length k), h.dest, List.reverse_drop]

theorem backup (h : Writes s d) (hd : DotsBehindSlash s c) : Writes (s.backup c) { d with
    written :=
      if c = slash ∧ d.numDotChars ≤ 2 ∧ 0 < d.numDotChars then d.written.drop (d.numDotChars + 1)
      else d.written } := by
  have hplace := h.place
  unfold Decoder.backup
  rw [h.dots]
  split
  next hback =>
    have hlen : d.numDotChars + 1 ≤ d.written.length := by
      have hdots := h.dots
      rcases hd with hd | ⟨-, hzero, -⟩ <;> omega
    refine ⟨?_, h.drop, rfl, h.query⟩
    dsimp only
    rw [List.length_drop, Int.ofNat_sub hlen]
    omega
  next => exact h

/-- A byte is stored behind the others. -/
theorem store_dest (h : Writes s d) : bytesFrom (s.store c).dest 0 (d.written.length + 1) = (c :: d.written).reverse := by
  have hplace := h.place.1
  have hself : (s.store c).dest (0 + (d.written.length : Nat)) = c := by
    rw [Int.zero_add, ← hplace]
    exact Function.update_self ..
  have hbefore : bytesFrom (s.store c).dest 0 d.written.length = d.written.reverse := by
    rw [← h.dest]
    exact bytesFrom_update (by omega)
  rw [bytesFrom_add, bytesFrom_one, hself, hbefore, List.reverse_cons]

/-- The byte in front of `ioDest`. -/
theorem head?_eq (h : Writes s d) (hpos : 0 < d.written.length) : d.written.head? = some (s.dest (s.ioDest - 1)) := by
  obtain ⟨x, w, hw⟩ := List.exists_cons_of_length_pos hpos
  have hdest := h.dest
  have hplace : s.ioDest - 1 = 0 + (w.length : Nat) := by
    rw [h.place.1, hw, List.length_cons]
    omega
  rw [hw, List.length_cons, bytesFrom_add, bytesFrom_one, List.reverse_cons] at hdest
  have hlast := (List.append_inj' hdest rfl).2
  rw [hplace, hw, List.head?_cons, (List.cons.inj hlast).1]

theorem advance {s' : Decoder} {d' : Decoding}
    (hplace : s'.ioDest = d.written.length ∧ s'.theLengthWritten = d.written.length)
    (hwritten : d'.written = c :: d.written)
    (hdest : bytesFrom s'.dest 0 (d.written.length + 1) = (c :: d.written).reverse)
    (hdots : s'.numDotChars = d'.numDotChars) (hquery : s'.inQuery = d'.inQuery) :
    Writes { s' with theLengthWritten := s'.theLengthWritten + 1, ioDest := s'.ioDest + 1 } d' where
  place := by
    rw [hwritten, List.length_cons, hplace.1, hplace.2]
    exact ⟨rfl, rfl⟩
  dest := by rw [hwritten]; exact hdest
  dots := hdots
  query := hquery

/-- The counted dots, behind a byte that has been stored. -/
theorem countDots (h : Writes s d) (hpos : c = dot → 0 < d.written.length) : (s.store c).countDots.numDotChars =
    if c = dot then
      if d.numDotChars = 0 ∧ d.written.head? = some slash then d.numDotChars + 1
      else if 0 < d.numDotChars ∧ d.written.head? = some dot then d.numDotChars + 1
      else d.numDotChars
    else 0 := by
  have hself : (s.store c).dest s.ioDest = c := Function.update_self ..
  have hback : (s.store c).dest (s.ioDest - 1) = s.dest (s.ioDest - 1) := Function.update_of_ne (by omega) _ _
  have hdest : (s.store c).ioDest = s.ioDest := rfl
  have hdots : (s.store c).numDotChars = d.numDotChars := h.dots
  unfold Decoder.countDots
  rw [hdest, hself, hback, hdots]
  split
  next hdot =>
    simp only [h.head?_eq (hpos hdot), Option.some_inj]
    split
    next => rfl
    next =>
      split
      next => rfl
      next => exact hdots
  next => rfl

/-- Nothing but the dots is counted. -/
theorem countDots_frame : (s.countDots.ioDest = s.ioDest ∧ s.countDots.theLengthWritten = s.theLengthWritten) ∧
    s.countDots.dest = s.dest ∧ s.countDots.inQuery = s.inQuery := by
  unfold Decoder.countDots
  split
  next =>
    dsimp only
    split
    next => exact ⟨⟨rfl, rfl⟩, rfl, rfl⟩
    next => split <;> exact ⟨⟨rfl, rfl⟩, rfl, rfl⟩
  next => exact ⟨⟨rfl, rfl⟩, rfl, rfl⟩

theorem write (h : Writes s d) (hd : DotsBehindSlash s c) : Writes (s.write c) (d.write c) := by
  unfold Decoder.write Decoding.write
  rw [h.query]
  by_cases hquery : d.inQuery = true
  · rw [if_pos hquery, if_pos hquery]
    exact advance (c := c) (d := d) h.place rfl h.store_dest h.dots h.query
  · rw [if_neg hquery, if_neg hquery]
    have hback := h.backup hd
    obtain ⟨hplace, hdest, hsame⟩ := countDots_frame (s := (s.backup c).store c)
    refine advance (c := c) ?_ rfl (hdest ▸ hback.store_dest) (hback.countDots fun hdot => ?_) (hsame.trans hback.query)
    · rw [hplace.1, hplace.2]
      exact hback.place
    · -- there is no backup at a dot
      have hslash : c ≠ slash := by
        rw [hdot]
        decide
      have hlen := h.place.2
      have hpos : 0 < d.written.length := by
        rcases hd with hd | ⟨-, -, heq⟩
        · omega
        · exact absurd heq hslash
      rw [if_neg fun hback => hslash hback.1]
      exact hpos

end Writes

section Turn

variable {src : Int → UInt8} {n m : Int} {s : Decoder} {d : Decoding} {c : UInt8} {rest : List UInt8}

/-- What is left of the source. -/
structure Left (src : Int → UInt8) (s : Decoder) (rest : List UInt8) : Prop where
  len : s.inSrcLen = rest.length
  bytes : bytesFrom src s.inSrc rest.length = rest

theorem Left.head (h : Left src s (c :: rest)) : src s.inSrc = c ∧ bytesFrom src (s.inSrc + 1) rest.length = rest :=
  bytesFrom_eq_cons.1 h.bytes

theorem Left.write (h : Left src s rest) : Left src (s.write c) rest where
  len := write_source.2.trans h.len
  bytes := by rw [write_source.1, h.bytes]

/-- The next byte of the source is fetched, in memory and on the list. -/
theorem fetch_refines (hl : Left src s (c :: rest)) (hfull : ¬ (d.written.length : Int) = m) :
    (∃ tempChar s' rest', s.fetch src = (some tempChar, s') ∧ Left src s' rest' ∧ (Writes s d → Writes s' d) ∧
        StringTranslator.decodeLoop m d (c :: rest) =
          StringTranslator.decodeLoop m
            ({ d with inQuery := d.inQuery || decide (c = queryMark) }.write tempChar) rest') ∨
      ∃ s', s.fetch src = (none, s') ∧ StringTranslator.decodeLoop m d (c :: rest) = .error .OS_BadURLFormat := by
  obtain ⟨hc, hrest⟩ := hl.head
  have hlen := hl.len
  rw [StringTranslator.decodeLoop.eq_def]
  unfold Decoder.fetch
  simp only [if_neg hfull, hc]
  by_cases hpercent : c = percent
  · simp only [if_pos hpercent]
    rcases rest with _ | ⟨high, _ | ⟨low, rest⟩⟩
    · simp only [List.length_cons, List.length_nil] at hlen
      rw [if_pos (by omega)]
      exact Or.inr ⟨_, rfl, rfl⟩
    · simp only [List.length_cons, List.length_nil] at hlen
      rw [if_pos (by omega)]
      exact Or.inr ⟨_, rfl, rfl⟩
    · obtain ⟨hhigh, hrest⟩ := bytesFrom_eq_cons.1 hrest
      obtain ⟨hlow, hrest⟩ := bytesFrom_eq_cons.1 hrest
      simp only [List.length_cons] at hlen
      have hthree : s.inSrc + 1 + 1 + 1 = s.inSrc + 3 := by omega
      rw [Int.add_assoc] at hlow
      rw [hthree] at hrest
      rw [if_neg (by omega), hhigh]
      dsimp only
      cases hh : hexDigit high with
      | none => exact Or.inr ⟨_, rfl, rfl⟩
      | some x =>
        have hlow : src (s.inSrc + 2) = low := hlow
        dsimp only
        rw [hlow]
        cases hl : hexDigit low with
        | none => exact Or.inr ⟨_, rfl, rfl⟩
        | some y =>
          refine Or.inl ⟨_, _, rest, rfl, ⟨?_, hrest⟩, fun h => ⟨h.place, h.dest, h.dots, h.query⟩, ?_⟩
          · dsimp only
            omega
          · have hmark : decide (c = queryMark) = false := by
              rw [hpercent]
              decide
            rw [hmark, Bool.or_false]
  · simp only [if_neg hpercent]
    by_cases hzero : c = 0
    · rw [if_pos hzero, if_pos hzero]
      exact Or.inr ⟨_, rfl, rfl⟩
    · simp only [if_neg hzero]
      refine Or.inl ⟨c, _, rest, rfl, ⟨?_, hrest⟩, fun h => ⟨h.place, h.dest, h.dots, h.query⟩, rfl⟩
      rw [List.length_cons] at hlen
      dsimp only
      omega

/-- A turn of the loop in memory is a turn of the loop on lists. -/
theorem turn_refines (h : AtHead src n m s) (hw : Writes s d) (hl : Left src s rest) :
    (∃ s' d' rest', turn src m s = .inl s' ∧ Writes s' d' ∧ Left src s' rest' ∧
        StringTranslator.decodeLoop m d rest = StringTranslator.decodeLoop m d' rest') ∨
      ∃ x, turn src m s = .inr x ∧ Agrees x.1 x.2.dest (StringTranslator.decodeLoop m d rest) := by
  have hplace := hw.place
  have hlen := hl.len
  unfold turn
  cases rest with
  | nil =>
    rw [if_neg (by rw [hlen]; simp)]
    refine Or.inr ⟨_, rfl, ?_⟩
    -- the dots that are stripped have been written
    have hdots : d.numDotChars ≤ d.written.length := by
      have heq := hw.dots
      rcases h.dots with hd | ⟨-, hnone, -⟩ <;> omega
    rw [StringTranslator.decodeLoop, Agrees, Decoding.finish, hw.dots]
    split
    next =>
      rw [List.length_reverse]
      refine ⟨?_, hw.drop⟩
      rw [List.length_drop, Int.ofNat_sub hdots, hplace.2]
    next =>
      rw [List.length_reverse, hplace.2]
      exact ⟨rfl, hw.dest⟩
  | cons c rest =>
    rw [if_pos (by rw [hlen, List.length_cons]; omega), hplace.2]
    split
    next hfull =>
      refine Or.inr ⟨_, rfl, ?_⟩
      rw [StringTranslator.decodeLoop.eq_def]
      simp only [if_pos hfull]
      rfl
    next hfull =>
      rcases fetch_refines hl hfull with ⟨tempChar, s', rest', hfetch, hleft, hkeep, hloop⟩ | ⟨s', hfetch, hloop⟩
      · rw [hfetch]
        refine Or.inl ⟨_, _, rest', rfl,
          Writes.write (d := { d with inQuery := d.inQuery || decide (c = queryMark) }) ?_ ?_,
          Left.write ⟨hleft.len, hleft.bytes⟩, hloop⟩
        · have hwrites := hkeep hw
          refine ⟨hwrites.place, hwrites.dest, hwrites.dots, ?_⟩
          dsimp only
          rw [hl.head.1, hw.query]
        · exact h.fetched hfetch
      · rw [hfetch]
        exact Or.inr ⟨_, rfl, hloop ▸ rfl⟩

theorem loop_refines {turns : Nat} {x : Except TranslatorError Int × Decoder} (h : AtHead src n m s) (hw : Writes s d)
    (hl : Left src s rest) (hr : Loop.turns (turn src m) turns s = some x) :
    Agrees x.1 x.2.dest (StringTranslator.decodeLoop m d rest) := by
  refine Loop.turns_rel (Q := fun x => Agrees x.1 x.2.dest) (R := fun s u => AtHead src n m s ∧ ∃ d rest,
    Writes s d ∧ Left src s rest ∧ StringTranslator.decodeLoop m d rest = u) (fun s₁ h₁ => ?_)
    ⟨h, d, rest, hw, hl, rfl⟩ hr
  obtain ⟨hat, d₁, rest₁, hw₁, hl₁, heq⟩ := h₁
  rcases turn_refines hat hw₁ hl₁ with ⟨s', d', rest', hs', hw', hl', heq'⟩ | ⟨x', hs', hagrees⟩
  · exact Or.inl ⟨s', hs', (turn_inl hat hs').1, d', rest', hw', hl', heq'.symm.trans heq⟩
  · exact Or.inr ⟨x', hs', heq ▸ hagrees⟩

end Turn

/-- **`DecodeURL` in memory** has the result of the function on lists, and the bytes are in the destination. -/
theorem decodeURL_refines {turns : Nat} {x : Except TranslatorError Int × Decoder} (src dest : Int → UInt8)
    (inSrcLen inDestLen : Int) (hdest : 0 ≤ inDestLen) (h : decodeURL turns src inSrcLen dest inDestLen = some x) :
    Agrees x.1 x.2.dest (StringTranslator.decodeURL (bytesFrom src 0 inSrcLen.toNat) inDestLen) := by
  unfold decodeURL at h
  unfold StringTranslator.decodeURL
  split at h
  next hempty =>
    cases h
    rw [Int.toNat_of_nonpos hempty]
    rfl
  next hpos =>
    have hlt : 0 < inSrcLen := Int.not_le.1 hpos
    obtain ⟨k, hk⟩ : ∃ k, inSrcLen.toNat = k + 1 := ⟨inSrcLen.toNat - 1, by omega⟩
    have hhead : (bytesFrom src 0 inSrcLen.toNat).head? = some (src 0) := by rw [hk, bytesFrom_succ, List.head?_cons]
    rw [hhead]
    split at h
    next hno =>
      cases h
      rw [if_neg fun heq => hno (Option.some.inj heq)]
      rfl
    next hslash =>
      have hslash := not_not.1 hslash
      rw [if_pos (congrArg some hslash)]
      refine loop_refines (atHead_new hlt hdest hslash) ⟨⟨rfl, rfl⟩, rfl, rfl, rfl⟩ ⟨?_, ?_⟩ h
      · rw [length_bytesFrom]
        exact (Int.toNat_of_nonneg (Int.le_of_lt hlt)).symm
      · rw [length_bytesFrom]
        rfl

/-- `DecodeURL` in memory returns. -/
theorem decodeURL_ends (src dest : Int → UInt8) (inSrcLen inDestLen : Int) (hdest : 0 ≤ inDestLen) :
    ∃ turns x, decodeURL turns src inSrcLen dest inDestLen = some x := by
  unfold decodeURL
  split
  next => exact ⟨0, _, rfl⟩
  next hpos =>
    split
    next => exact ⟨0, _, rfl⟩
    next hslash =>
      obtain ⟨x, ⟨turns, hx⟩, -⟩ := loop_ends (atHead_new (Int.not_le.1 hpos) hdest (not_not.1 hslash))
      exact ⟨turns, x, hx⟩

/-- **`DecodeURL` in memory** returns for every source, with the result of the function on lists, and the bytes are in the
destination. -/
theorem decodeURL_agrees (src dest : Int → UInt8) (inSrcLen inDestLen : Int) (hdest : 0 ≤ inDestLen) :
    ∃ turns r s, decodeURL turns src inSrcLen dest inDestLen = some (r, s) ∧
      Agrees r s.dest (StringTranslator.decodeURL (bytesFrom src 0 inSrcLen.toNat) inDestLen) := by
  obtain ⟨turns, ⟨r, s⟩, hx⟩ := decodeURL_ends src dest inSrcLen inDestLen hdest
  exact ⟨turns, r, s, hx, decodeURL_refines src dest inSrcLen inDestLen hdest hx⟩

/-- `/a/../b`, with room for eight bytes -/
theorem decodeURL_agrees_backup :
    ∃ turns r s, decodeURL turns (memory backedUp fun _ => 0) 7 (fun _ => 0) 8 = some (r, s) ∧
      Agrees r s.dest (StringTranslator.decodeURL (bytesFrom (memory backedUp fun _ => 0) 0 7) 8) :=
  decodeURL_agrees (memory backedUp fun _ => 0) (fun _ => 0) 7 8 (by decide)

end ToolLib.Common.DecodeURLMemory

namespace ToolLib.Common.EncodeURLMemory

open ToolLib.Base
open ToolLib.Common.StringTranslator (percent upperHex sprintfX TranslatorError)
open ToolLib.Common.DecodeURLMemory (Agrees)
open Encoder

/-! ## EncodeURL -/

section Stored

variable {dest : Int → UInt8} {i j : Int} {k : Nat} {l : List UInt8}

theorem stored_before (h : j < i) : stored dest i l j = dest j := by
  induction l generalizing dest i with
  | nil => rfl
  | cons c l ih =>
    rw [stored, ih (by omega)]
    exact Function.update_of_ne (Int.ne_of_lt h) _ _

theorem bytesFrom_stored_before (h : i + k ≤ j) : bytesFrom (stored dest j l) i k = bytesFrom dest i k := by
  refine List.map_congr_left fun m hm => stored_before ?_
  have hlt := List.mem_range.1 hm
  omega

theorem bytesFrom_stored : bytesFrom (stored dest i l) i l.length = l := by
  induction l generalizing dest i with
  | nil => rfl
  | cons c l ih =>
    rw [List.length_cons, bytesFrom_succ, stored, stored_before (Int.lt_succ i), Function.update_self]
    exact congrArg _ ih

/-- A piece that is stored behind the others; more may be stored behind it. -/
theorem bytesFrom_piece {piece more w : List UInt8} (hw : bytesFrom dest 0 w.length = w) :
    bytesFrom (stored dest w.length (piece ++ more)) 0 (w ++ piece).length = w ++ piece := by
  have hpiece : bytesFrom (stored dest w.length (piece ++ more)) w.length piece.length = piece := by
    have hle : piece.length ≤ (piece ++ more).length := by
      rw [List.length_append]
      exact Nat.le_add_right _ _
    rw [← take_bytesFrom hle, bytesFrom_stored]
    exact List.take_left' rfl
  rw [List.length_append, bytesFrom_add, bytesFrom_stored_before (by omega), hw, Int.zero_add, hpiece]

end Stored

section Turn

variable {src : Int → UInt8} {len m : Int} {s : Encoder} {c : UInt8} {w rest : List UInt8}

/-- The three characters that `ioDest` goes over. -/
theorem sprintfX_eq (c : UInt8) : ∃ more, sprintfChars c ++ [0] = sprintfX c ++ more := by
  unfold sprintfChars sprintfX
  split
  next => exact ⟨[], rfl⟩
  next => exact ⟨[0], rfl⟩

theorem length_sprintfX : (sprintfX c).length = 3 := by
  unfold sprintfX
  split <;> rfl

/-- One turn of the loop: a piece is written, as on lists. -/
theorem turn_refines (h : AtHead src len m s w.length (c :: rest)) (hw : bytesFrom s.dest 0 w.length = w) :
    (∃ s' piece, turn src m s = .inl s' ∧ AtHead src len m s' (w ++ piece).length rest ∧
        bytesFrom s'.dest 0 (w ++ piece).length = w ++ piece ∧
        StringTranslator.encodeLoop m w.length (c :: rest) =
          (StringTranslator.encodeLoop m (w ++ piece).length rest).map (piece ++ ·)) ∨
      ∃ s', turn src m s = .inr (.error .OS_NotEnoughSpace, s') ∧
        StringTranslator.encodeLoop m w.length (c :: rest) = .error .OS_NotEnoughSpace := by
  obtain ⟨hlen, hc, -⟩ := h.head
  have hplace := h.place
  have hroom := h.room
  unfold turn
  rw [StringTranslator.encodeLoop, if_pos hlen, hplace.2]
  split
  next => exact Or.inr ⟨_, rfl, rfl⟩
  next hfull =>
    dsimp only
    rw [hc]
    by_cases hescaped : Escaped c
    · have hillegal : 127 < c ∨ c ∈ StringTranslator.illegalChars := hescaped
      rw [if_pos hescaped, if_pos hillegal]
      split
      next => exact Or.inr ⟨_, rfl, rfl⟩
      next hthree =>
        obtain ⟨more, hmore⟩ := sprintfX_eq c
        refine Or.inl ⟨_, sprintfX c, rfl, ?_, ?_, ?_⟩
        · rw [List.length_append, length_sprintfX]
          exact h.next rfl rfl rfl (by rw [hplace.2]; rfl) (by omega)
        · show bytesFrom (stored s.dest s.ioDest (sprintfChars c ++ [0])) 0 _ = _
          rw [hplace.1, hmore, bytesFrom_piece hw]
        · rw [List.length_append, length_sprintfX]
    · have hlegal : ¬ (127 < c ∨ c ∈ StringTranslator.illegalChars) := hescaped
      rw [if_neg hescaped, if_neg hlegal]
      refine Or.inl ⟨_, [c], rfl, ?_, ?_, ?_⟩
      · rw [List.length_append]
        exact h.next rfl rfl rfl (by rw [hplace.2]; rfl) (by rw [List.length_singleton]; omega)
      · show bytesFrom (stored s.dest s.ioDest ([c] ++ [])) 0 _ = _
        rw [hplace.1, bytesFrom_piece hw]
      · rw [List.length_append]
        rfl

theorem loop_refines (h : AtHead src len m s w.length rest) (hw : bytesFrom s.dest 0 w.length = w) :
    ∃ r s', Loop.Ends (turn src m) s (r, s') ∧
      Agrees r s'.dest ((StringTranslator.encodeLoop m w.length rest).map (w ++ ·)) := by
  induction rest generalizing s w with
  | nil =>
    have hleft : s.inSrcLen.toNat = 0 := h.left
    refine ⟨_, s, Loop.ends_inr (if_neg (by omega)), ?_⟩
    show Agrees (.ok s.theLengthWritten) s.dest (.ok (w ++ []))
    rw [List.append_nil, h.place.2]
    exact ⟨rfl, hw⟩
  | cons c rest ih =>
    rcases turn_refines h hw with ⟨s₁, piece, hs, h₁, hw₁, heq⟩ | ⟨s₁, hs, heq⟩
    · obtain ⟨r, s', hends, hagrees⟩ := ih h₁ hw₁
      refine ⟨r, s', (Loop.ends_inl hs).2 hends, ?_⟩
      have hmap (y : Except TranslatorError (List UInt8)) :
          (y.map (piece ++ ·)).map (w ++ ·) = y.map (w ++ piece ++ ·) := by
        cases y with
        | error => rfl
        | ok out => exact congrArg Except.ok (List.append_assoc w piece out).symm
      rw [heq, hmap]
      exact hagrees
    · refine ⟨_, s₁, Loop.ends_inr hs, ?_⟩
      rw [heq]
      rfl

end Turn

/-- **`EncodeURL` in memory** has the result of the function on lists, and the bytes are in the destination. -/
theorem encodeURL_refines (src dest : Int → UInt8) (inSrcLen inDestLen : Int) (hdest : 0 ≤ inDestLen) :
    ∃ turns r s, encodeURL turns src inSrcLen dest inDestLen = some (r, s) ∧
      Agrees r s.dest (StringTranslator.encodeURL (bytesFrom src 0 inSrcLen.toNat) inDestLen) := by
  have hnew := atHead_new src dest inSrcLen hdest
  obtain ⟨r, s, ⟨turns, hr⟩, hagrees⟩ := loop_refines (w := []) hnew rfl
  refine ⟨turns, r, s, hr, ?_⟩
  have hmap (y : Except TranslatorError (List UInt8)) : y.map ([] ++ ·) = y := by
    cases y <;> rfl
  rw [hmap] at hagrees
  exact hagrees

/-- `a b`, with room for eight bytes -/
theorem encodeURL_refines_blank :
    ∃ turns r s, encodeURL turns (memory [97, 32, 98] fun _ => 0) 3 (fun _ => 0) 8 = some (r, s) ∧
      Agrees r s.dest (StringTranslator.encodeURL (bytesFrom (memory [97, 32, 98] fun _ => 0) 0 3) 8) :=
  encodeURL_refines (memory [97, 32, 98] fun _ => 0) (fun _ => 0) 3 8 (by decide)

end ToolLib.Common.EncodeURLMemory
