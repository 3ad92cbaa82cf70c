import Mathlib.Data.List.Basic
import Mathlib.Data.UInt
import Mathlib.Tactic.Common

/-!
# StringTranslator

`DecodeURL` and `EncodeURL` of StringTranslator.cpp. What has been written to `ioDest` is a list, the last byte first, so
its head is `ioDest[-1]` and going back in `ioDest` is a `drop`. Lengths of lists stand for `inSrcLen` and
`theLengthWritten`; `inDestLen` is any number, and is compared with as the code does it. `kPathDelimiterChar` is `'/'`, so
the check for another delimiter never fails.

`DecodeURL` reads the source as a list of bytes (`unescape`), writes them one by one (`put`) up to the first `'?'` of the
source, and copies the rest; `decode_eq_of_path` and `decode_eq_of_query` say so.
-/

namespace ToolLib.Common.StringTranslator

/-! ## Characters -/

abbrev slash : UInt8 := 47
abbrev dot : UInt8 := 46
abbrev queryMark : UInt8 := 63
abbrev percent : UInt8 := 37

/-- The value of a hexadecimal digit: `isxdigit`, and `sscanf` with `"%x"`. -/
def hexDigit (c : UInt8) : Option UInt8 :=
  if 48 ≤ c ∧ c ≤ 57 then some (c - 48)
  else if 65 ≤ c ∧ c ≤ 70 then some (c - 55)
  else if 97 ≤ c ∧ c ≤ 102 then some (c - 87)
  else none

inductive TranslatorError
  | OS_BadURLFormat
  | OS_NotEnoughSpace
  deriving DecidableEq

/-! ## DecodeURL -/

/-- The variables of `DecodeURL`. -/
structure Decoding where
  /-- What is in `ioDest`, the last byte first. -/
  written : List UInt8
  numDotChars : Nat
  inQuery : Bool
  deriving DecidableEq

namespace Decoding

def new : Decoding := ⟨[], 0, false⟩

/-- A byte that is not in the query is written. -/
def put (d : Decoding) (tempChar : UInt8) : Decoding :=
  -- "backup is required due to dot chars that need to be stripped"
  let before :=
    if tempChar = slash ∧ d.numDotChars ≤ 2 ∧ 0 < d.numDotChars then d.written.drop (d.numDotChars + 1) else d.written
  { d with
    written := tempChar :: before
    numDotChars :=
      if tempChar = dot then
        if d.numDotChars = 0 ∧ before.head? = some slash then d.numDotChars + 1
        else if 0 < d.numDotChars ∧ before.head? = some dot then d.numDotChars + 1
        else d.numDotChars
      else 0 }

/-- A byte is written. -/
def write (d : Decoding) (tempChar : UInt8) : Decoding :=
  if d.inQuery then { d with written := tempChar :: d.written } else d.put tempChar

/-- What is left in `ioDest` when the trailing dots are stripped. -/
def finish (d : Decoding) : List UInt8 :=
  (if d.numDotChars ≤ 2 then d.written.drop d.numDotChars else d.written).reverse

end Decoding

/-- The loop of `DecodeURL`. -/
def decodeLoop (inDestLen : Int) : Decoding → List UInt8 → Except TranslatorError (List UInt8)
  | d, [] => .ok d.finish
  | d, c :: inSrc =>
    if (d.written.length : Int) = inDestLen then .error .OS_NotEnoughSpace
    else if c = percent then
      match inSrc with
      | high :: low :: inSrc =>
        match hexDigit high, hexDigit low with
        | some h, some l => decodeLoop inDestLen (d.write (16 * h + l)) inSrc
        | _, _ => .error .OS_BadURLFormat
      | _ => .error .OS_BadURLFormat
    else if c = 0 then .error .OS_BadURLFormat
    else decodeLoop inDestLen ({ d with inQuery := d.inQuery || decide (c = queryMark) }.write c) inSrc

def decodeURL (inSrc : List UInt8) (inDestLen : Int) : Except TranslatorError (List UInt8) :=
  if inSrc.head? = some slash then decodeLoop inDestLen .new inSrc else .error .OS_BadURLFormat

/-! ## EncodeURL -/

/-- "This is the URL RFC list of illegal characters." -/
def illegalChars : List UInt8 :=
  [32, 13, 10, 9, 60, 62, 35, 37, 123, 125, 124, 92, 94, 126, 91, 93, 96, 59, 63, 64, 61, 38, 36, 34]

/-- A digit of `"%X"`. -/
def upperHex (n : UInt8) : UInt8 := if n < 10 then n + 48 else n + 55

/-- The three bytes of `ioDest` after `qtss_sprintf(ioDest, "%%%X", c)`. There is no second digit when `c` is below 16,
and the third byte is then the terminator. -/
def sprintfX (c : UInt8) : List UInt8 :=
  if c < 16 then [percent, upperHex c, 0] else [percent, upperHex (c / 16), upperHex (c % 16)]

/-- The loop of `EncodeURL`. -/
def encodeLoop (inDestLen : Int) : Nat → List UInt8 → Except TranslatorError (List UInt8)
  | _, [] => .ok []
  | theLengthWritten, c :: inSrc =>
    if (theLengthWritten : Int) = inDestLen then .error .OS_NotEnoughSpace
    else if 127 < c ∨ c ∈ illegalChars then
      if inDestLen - theLengthWritten < 3 then .error .OS_NotEnoughSpace
      else (encodeLoop inDestLen (theLengthWritten + 3) inSrc).map (sprintfX c ++ ·)
    else (encodeLoop inDestLen (theLengthWritten + 1) inSrc).map (c :: ·)

def encodeURL (inSrc : List UInt8) (inDestLen : Int) : Except TranslatorError (List UInt8) :=
  encodeLoop inDestLen 0 inSrc

/-! ## What the source says -/

/-- The bytes of a source, with `%XX` decoded. -/
def unescape : List UInt8 → List UInt8
  | [] => []
  | c :: inSrc =>
    if c = percent then
      match inSrc with
      | high :: low :: inSrc => (16 * (hexDigit high).getD 0 + (hexDigit low).getD 0) :: unescape inSrc
      | _ => []
    else c :: unescape inSrc

section Decode

variable {inDestLen : Int} {d : Decoding} {out p q rest : List UInt8} {c : UInt8}

/-- The path, as `DecodeURL` writes it. -/
def Decoding.puts (d : Decoding) (bytes : List UInt8) : Decoding := bytes.foldl put d

@[simp] theorem Decoding.puts_cons : d.puts (c :: p) = (d.put c).puts p := rfl

theorem Decoding.put_slash_strip (h : d.numDotChars ≤ 2 ∧ 0 < d.numDotChars) :
    (d.put slash).written = slash :: d.written.drop (d.numDotChars + 1) := by
  simp [put, h]

theorem Decoding.put_slash_keep (h : ¬(d.numDotChars ≤ 2 ∧ 0 < d.numDotChars)) :
    (d.put slash).written = slash :: d.written := by
  rw [put, if_neg fun hn => h hn.2]

theorem Decoding.put_slash_dots : (d.put slash).numDotChars = 0 := rfl

theorem Decoding.put_dot_written : (d.put dot).written = dot :: d.written := rfl

theorem Decoding.put_dot_dots : (d.put dot).numDotChars =
    if d.numDotChars = 0 ∧ d.written.head? = some slash then d.numDotChars + 1
    else if 0 < d.numDotChars ∧ d.written.head? = some dot then d.numDotChars + 1
    else d.numDotChars := rfl

theorem Decoding.put_char (hs : c ≠ slash) (hd : c ≠ dot) :
    d.put c = { d with written := c :: d.written, numDotChars := 0 } := by
  simp [put, hs, hd]

/-- One turn of the loop that does not fail. -/
theorem decodeLoop_cons (hc : c ≠ percent) (h : decodeLoop inDestLen d (c :: rest) = .ok out) :
    decodeLoop inDestLen ({ d with inQuery := d.inQuery || decide (c = queryMark) }.write c) rest = .ok out := by
  rw [decodeLoop.eq_def] at h
  simp only [if_neg hc] at h
  split at h
  · cases h
  · split at h
    · cases h
    · exact h

/-- A turn for an encoded byte. -/
theorem decodeLoop_percent (h : decodeLoop inDestLen d (percent :: rest) = .ok out) :
    ∃ high low h' l' rest', rest = high :: low :: rest' ∧ hexDigit high = some h' ∧ hexDigit low = some l' ∧
      decodeLoop inDestLen (d.write (16 * h' + l')) rest' = .ok out := by
  rw [decodeLoop.eq_def] at h
  simp only [if_true] at h
  split at h
  · cases h
  · split at h
    · rename_i high low rest'
      split at h
      · rename_i hh hl
        exact ⟨high, low, _, _, rest', rfl, hh, hl, h⟩
      · cases h
    · cases h

theorem unescape_percent {high low h l : UInt8} (hh : hexDigit high = some h) (hl : hexDigit low = some l) :
    unescape (percent :: high :: low :: p) = (16 * h + l) :: unescape p := by
  simp [unescape, hh, hl]

theorem unescape_cons (hc : c ≠ percent) : unescape (c :: p) = c :: unescape p := by
  rw [unescape.eq_def]
  exact if_neg hc

/-- The loop up to the query mark. -/
theorem decodeLoop_append (hp : queryMark ∉ p) (hd : d.inQuery = false)
    (hrest : rest = [] ∨ rest.head? = some queryMark) (h : decodeLoop inDestLen d (p ++ rest) = .ok out) :
    decodeLoop inDestLen (d.puts (unescape p)) rest = .ok out := by
  induction hn : p.length using Nat.strongRecOn generalizing p d with | ind n ih
  rcases p with _ | ⟨c, p⟩
  · exact h
  obtain ⟨hc, hp'⟩ : queryMark ≠ c ∧ queryMark ∉ p := by simpa using hp
  by_cases hpc : c = percent
  · subst hpc
    obtain ⟨high, low, x, y, rest', heq, hx, hy, hloop⟩ := decodeLoop_percent h
    -- a query mark is no digit, so both digits are in `p`
    rcases p with _ | ⟨a, _ | ⟨b, p⟩⟩
    · have heq : rest = high :: low :: rest' := heq
      rw [heq] at hrest
      rcases hrest with hr | hr
      · cases hr
      · cases hr
        cases hx
    · have heq : a :: rest = high :: low :: rest' := heq
      rw [(List.cons.inj heq).2] at hrest
      rcases hrest with hr | hr
      · cases hr
      · cases hr
        cases hy
    · have heq : a :: b :: (p ++ rest) = high :: low :: rest' := heq
      obtain ⟨ha, hb, hrest'⟩ : a = high ∧ b = low ∧ p ++ rest = rest' := by simpa using heq
      rw [← ha] at hx
      rw [← hb] at hy
      rw [← hrest', Decoding.write, hd, if_neg Bool.false_ne_true] at hloop
      rw [unescape_percent hx hy, Decoding.puts_cons]
      have hlt : p.length < n := by
        simp only [List.length_cons] at hn
        omega
      have hq : queryMark ∉ p := fun hq => hp' (List.mem_cons_of_mem _ (List.mem_cons_of_mem _ hq))
      exact ih p.length hlt hq hd hloop rfl
  · have h := decodeLoop_cons hpc h
    rw [decide_eq_false (Ne.symm hc), Bool.or_false, Decoding.write, if_neg (by simpa using hd)] at h
    rw [unescape_cons hpc, Decoding.puts_cons]
    exact ih p.length (hn ▸ Nat.lt_succ_self _) hp' hd h rfl

/-- The loop in the query. -/
theorem decodeLoop_query : ∀ {q : List UInt8} {d : Decoding}, d.inQuery = true → decodeLoop inDestLen d q = .ok out →
    out = ({ d with written := (unescape q).reverse ++ d.written } : Decoding).finish
  | [], d, _, h => by
    cases h
    rfl
  | c :: q, d, hd, h => by
    by_cases hpc : c = percent
    · subst hpc
      obtain ⟨high, low, x, y, rest', rfl, hx, hy, h⟩ := decodeLoop_percent h
      rw [unescape_percent hx hy, List.reverse_cons, List.append_assoc]
      rw [Decoding.write, if_pos hd] at h
      refine decodeLoop_query ?_ h
      exact hd
    · have h := decodeLoop_cons hpc h
      rw [hd, Bool.true_or, Decoding.write, if_pos rfl] at h
      rw [unescape_cons hpc, List.reverse_cons, List.append_assoc]
      exact decodeLoop_query rfl h
  termination_by q => q.length

/-- What `DecodeURL` gives for a source without a query mark. -/
theorem decode_eq_of_path (hp : queryMark ∉ p) (h : decodeURL p inDestLen = .ok out) :
    p.head? = some slash ∧ out = (Decoding.new.puts (unescape p)).finish := by
  simp only [decodeURL] at h
  split at h
  · rename_i hslash
    rw [← List.append_nil p] at h
    have h := decodeLoop_append hp rfl (Or.inl rfl) h
    cases h
    exact ⟨hslash, rfl⟩
  · cases h

/-- What it gives for the path `p` and the query `q`: the dots are counted in the path only, but stripped at the end. -/
theorem decode_eq_of_query (hp : queryMark ∉ p) (h : decodeURL (p ++ queryMark :: q) inDestLen = .ok out) :
    p.head? = some slash ∧ out = ({ Decoding.new.puts (unescape p) with
      written := (unescape q).reverse ++ queryMark :: (Decoding.new.puts (unescape p)).written } : Decoding).finish := by
  simp only [decodeURL] at h
  split at h
  · rename_i hslash
    refine ⟨?_, ?_⟩
    · cases p with
      | nil => cases hslash
      | cons c p => exact hslash
    · have h := decodeLoop_cons (by decide) (decodeLoop_append hp rfl (Or.inr rfl) h)
      rw [decide_eq_true rfl, Bool.or_true, Decoding.write, if_pos rfl] at h
      exact decodeLoop_query rfl h
  · cases h

end Decode

end ToolLib.Common.StringTranslator
