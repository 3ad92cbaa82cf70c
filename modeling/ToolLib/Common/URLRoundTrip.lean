import ToolLib.Common.URLDots

/-!
# A path through EncodeURL and DecodeURL

`EncodeURL` writes one byte or three for each byte of a path (`encodeByte`). `DecodeURL` reads each of these back as the byte
it came from, and as there are no dot segments nothing is stripped.

The exception are the bytes below 16 that are encoded, for which `"%X"` gives one digit: tab, line feed and carriage return.
`DecodeURL` takes no path that was encoded with one of these.
-/

namespace ToolLib.Common.StringTranslator

/-- What `EncodeURL` writes for a byte. -/
def encodeByte (c : UInt8) : List UInt8 := if 127 < c ∨ c ∈ illegalChars then sprintfX c else [c]

/-- The bytes whose code has one digit. -/
def oneDigit : List UInt8 := [9, 10, 13]

section Bytes

variable {c : UInt8}

/-- A statement about bytes, value by value. -/
theorem forall_byte {P : UInt8 → Prop} (h : ∀ n : Fin 256, P (UInt8.ofFin n)) (c : UInt8) : P c := h c.toFin

theorem encoded_digits : ∀ c : UInt8, c ≠ 0 → (127 < c ∨ c ∈ illegalChars) → c ∉ oneDigit →
    sprintfX c = [percent, upperHex (c / 16), upperHex (c % 16)] ∧ hexDigit (upperHex (c / 16)) = some (c / 16) ∧
      hexDigit (upperHex (c % 16)) = some (c % 16) ∧ 16 * (c / 16) + c % 16 = c := by
  apply forall_byte
  decide +kernel

theorem oneDigit_code : ∀ c ∈ oneDigit, encodeByte c = [percent, upperHex c, 0] := by decide +kernel

theorem plain_byte (h : ¬(127 < c ∨ c ∈ illegalChars)) : c ≠ percent ∧ c ≠ queryMark := by
  refine ⟨?_, ?_⟩ <;> rintro rfl <;> exact h (by decide)

theorem encodeByte_ne_nil : encodeByte c ≠ [] := by
  rw [encodeByte, sprintfX]
  split
  · split <;> exact List.cons_ne_nil _ _
  · exact List.cons_ne_nil _ _

end Bytes

section RoundTrip

variable {p rest out : List UInt8} {c : UInt8} {d : Decoding} {inDestLen : Int}

/-- With room for three bytes each, all bytes are encoded. -/
theorem encodeLoop_eq {theLengthWritten : Nat} (h : theLengthWritten + 3 * p.length ≤ inDestLen) :
    encodeLoop inDestLen theLengthWritten p = .ok (p.flatMap encodeByte) := by
  induction p generalizing theLengthWritten with
  | nil => rfl
  | cons c p ih =>
    simp only [List.length_cons, Nat.cast_add, Nat.cast_one] at h
    have hroom : ¬(theLengthWritten : Int) = inDestLen := by omega
    have hthree : ¬inDestLen - theLengthWritten < 3 := by omega
    rw [encodeLoop, if_neg hroom, List.flatMap_cons]
    by_cases hc : 127 < c ∨ c ∈ illegalChars
    · rw [if_pos hc, if_neg hthree, ih (by push_cast; omega), encodeByte, if_pos hc]
      rfl
    · rw [if_neg hc, ih (by push_cast; omega), encodeByte, if_neg hc]
      rfl

/-- A byte is read back from its code. -/
theorem decodeLoop_encodeByte (hc : c ≠ 0) (hone : c ∉ oneDigit) (hd : d.inQuery = false)
    (hroom : (d.written.length : Int) ≠ inDestLen) :
    decodeLoop inDestLen d (encodeByte c ++ rest) = decodeLoop inDestLen (d.put c) rest := by
  rw [encodeByte]
  split
  · rename_i hill
    obtain ⟨heq, hhigh, hlow, hsum⟩ := encoded_digits c hc hill hone
    rw [heq, List.cons_append, List.cons_append, List.cons_append, List.nil_append, decodeLoop.eq_def]
    simp only [if_neg hroom, if_true, hhigh, hlow, hsum]
    rw [Decoding.write, if_neg (by simp [hd])]
  · rename_i hill
    obtain ⟨hpercent, hquery⟩ := plain_byte hill
    rw [List.singleton_append, decodeLoop.eq_def]
    simp only [if_neg hroom, if_neg hpercent, if_neg hc]
    rw [decide_eq_false hquery, Bool.or_false, Decoding.write, if_neg (by simp [hd])]

theorem room_of_decodeLoop (hp : p ≠ []) (h : decodeLoop inDestLen d (p ++ rest) = .ok out) :
    (d.written.length : Int) ≠ inDestLen := by
  cases p with
  | nil => exact absurd rfl hp
  | cons c p =>
    intro hroom
    rw [List.cons_append, decodeLoop.eq_def] at h
    simp only [if_pos hroom] at h
    cases h

/-- No code with one digit is read. -/
theorem not_decodeLoop_oneDigit (hone : c ∈ oneDigit) : decodeLoop inDestLen d (encodeByte c ++ rest) ≠ .ok out := by
  intro h
  rw [oneDigit_code c hone] at h
  obtain ⟨high, low, x, y, rest', heq, -, hlow, -⟩ := decodeLoop_percent h
  obtain ⟨-, hzero, -⟩ : upperHex c = high ∧ 0 = low ∧ rest = rest' := by simpa using heq
  rw [← hzero] at hlow
  cases hlow

theorem Decoding.length_put_le : (d.put c).written.length ≤ d.written.length + 1 := by
  rw [put]
  split <;> simp

/-- The codes of a path, read back. -/
theorem decodeLoop_encoded (hp : 0 ∉ p) (hone : ∀ c ∈ p, c ∉ oneDigit) (hd : d.inQuery = false)
    (hroom : (d.written.length + p.length : Int) ≤ inDestLen) :
    decodeLoop inDestLen d (p.flatMap encodeByte) = .ok (d.puts p).finish := by
  induction p generalizing d with
  | nil => rfl
  | cons c p ih =>
    obtain ⟨hc, hp⟩ : 0 ≠ c ∧ 0 ∉ p := by simpa using hp
    simp only [List.length_cons, Nat.cast_add, Nat.cast_one] at hroom
    have hlen : ((d.put c).written.length : Int) ≤ d.written.length + 1 := by exact_mod_cast Decoding.length_put_le
    rw [List.flatMap_cons, decodeLoop_encodeByte hc.symm (hone c List.mem_cons_self) hd (by omega), Decoding.puts_cons]
    exact ih hp (fun c hmem => hone c (List.mem_cons_of_mem _ hmem)) hd (by omega)

/-- A path whose codes are read has no byte with one digit. -/
theorem not_oneDigit_of_decodeLoop (hp : 0 ∉ p) (hd : d.inQuery = false)
    (h : decodeLoop inDestLen d (p.flatMap encodeByte) = .ok out) : ∀ c ∈ p, c ∉ oneDigit := by
  induction p generalizing d with
  | nil => simp
  | cons c p ih =>
    obtain ⟨hc, hp⟩ : 0 ≠ c ∧ 0 ∉ p := by simpa using hp
    rw [List.flatMap_cons] at h
    have hone : c ∉ oneDigit := fun hone => not_decodeLoop_oneDigit hone h
    rw [decodeLoop_encodeByte hc.symm hone hd (room_of_decodeLoop encodeByte_ne_nil h)] at h
    have hd' : (d.put c).inQuery = false := hd
    exact List.forall_mem_cons.2 ⟨hone, ih hp hd' h⟩

/-- A path without dot segments is put as it is. -/
theorem finish_puts (hslash : p.head? = some slash) (hdots : NoDotSegment p) : (Decoding.new.puts p).finish = p := by
  obtain ⟨before, path, seg, hw⟩ := Decoding.walked_new hslash
  obtain ⟨hbefore, hseg⟩ := (noDotSegment_snoc hw.no_slash).1 (hw.bytes_eq ▸ hdots)
  have hpath : path.splitOn slash = before.splitOn slash := by
    rw [hw.splitOn, List.filter_eq_self]
    intro s hs
    simp [hbefore s hs]
  have heq : path = before := calc
    path = [slash].intercalate (path.splitOn slash) := (List.intercalate_splitOn slash).symm
    _ = [slash].intercalate (before.splitOn slash) := by rw [hpath]
    _ = before := List.intercalate_splitOn slash
  rw [hw.finish_eq (Decoding.new.puts p).written, hseg, if_neg Bool.false_ne_true, List.drop_zero, hw.written, heq,
    List.reverse_reverse, ← hw.bytes_eq]

/-- **The round trip of a path.** With room on both sides it succeeds for the paths without tabs and line ends, and for no
others. -/
theorem roundTrip_iff {encodeLen decodeLen : Int} (hslash : p.head? = some slash) (hnul : 0 ∉ p) (hdots : NoDotSegment p)
    (hencode : 3 * p.length ≤ encodeLen) (hdecode : p.length ≤ decodeLen) :
    (∃ url, encodeURL p encodeLen = .ok url ∧ decodeURL url decodeLen = .ok p) ↔ ∀ c ∈ p, c ∉ oneDigit := by
  have hurl : encodeURL p encodeLen = .ok (p.flatMap encodeByte) := encodeLoop_eq (by simpa using hencode)
  have hhead : (p.flatMap encodeByte).head? = some slash := by
    cases p with
    | nil => cases hslash
    | cons c p =>
      cases hslash
      rfl
  rw [hurl]
  constructor
  · rintro ⟨url, heq, h⟩
    cases heq
    rw [decodeURL, if_pos hhead] at h
    exact not_oneDigit_of_decodeLoop hnul rfl h
  · intro hone
    refine ⟨_, rfl, ?_⟩
    rw [decodeURL, if_pos hhead, decodeLoop_encoded hnul hone rfl (by simpa [Decoding.new] using hdecode),
      finish_puts hslash hdots]

/-- `/a?` and `/a%` are encoded and decoded. -/
theorem roundTrip_iff_query :
    (∃ url, encodeURL [slash, 97, queryMark, percent] 12 = .ok url ∧ decodeURL url 4 = .ok [slash, 97, queryMark, percent]) ↔
      ∀ c ∈ [slash, 97, queryMark, percent], c ∉ oneDigit :=
  roundTrip_iff rfl (by decide) (by decide +kernel) (by decide) (by decide)

/-- A tab is encoded as `%9` and a terminator. -/
theorem tab_not_decoded : NoDotSegment [slash, 9] ∧
    ¬∃ url, encodeURL [slash, 9] 100 = .ok url ∧ decodeURL url 100 = .ok [slash, 9] := by
  have hencode : encodeURL [slash, 9] 100 = .ok [slash, percent, 57, 0] := by decide +kernel
  have hdecode : decodeURL [slash, percent, 57, 0] 100 = .error .OS_BadURLFormat := by decide +kernel
  refine ⟨by decide +kernel, ?_⟩
  rintro ⟨url, hurl, h⟩
  rw [hencode] at hurl
  cases hurl
  rw [hdecode] at h
  cases h

end RoundTrip

end ToolLib.Common.StringTranslator
