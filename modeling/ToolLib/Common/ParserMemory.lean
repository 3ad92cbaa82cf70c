import Mathlib.Data.Int.Range
import Mathlib.Data.List.GetD
import ToolLib.Base.Access
import ToolLib.Base.Loop
import ToolLib.Base.System
import ToolLib.Common.StringParser

/-!
# StringParser in memory

`StringParser` as it is: `fStartGet` moves through memory up to `fEndGet`, `AdvanceMark` looks at the byte in front of
it and, at a carriage return, at the one behind that. Addresses count from the start of the buffer; what is behind the
buffer is arbitrary. The loop of `ConsumeLength` counts with a `short` and is given by its turns (`Base.Loop`); the
other loops go on for `fEndGet - fStartGet` turns at most. A parser without a stream returns from all calls at once.

Every call moves `fStartGet` over some bytes by `AdvanceMark`, and looks at bytes of the buffer (`Moved`);
`consumeLength_iff` says when `ConsumeLength` returns.
-/

namespace ToolLib.Common.ParserMemory

open ToolLib.Base
open ToolLib.Common.StringParser (carriageReturn lineFeed sEOLMask)

/-- `Ptr` counts from the start of the buffer. -/
structure StrPtrLen where
  Ptr : Int
  Len : Int
  deriving DecidableEq

/-- The parser, and what it has read. The line number is an `int`, which goes on below zero when it overflows. -/
structure StringParser where
  fStartGet : Int
  fCurLineNumber : Int32
  accesses : List (Access Unit)
  deriving DecidableEq

namespace StringParser

def new : StringParser := ⟨0, 1, []⟩

def read (p : StringParser) (i : Int) : StringParser := { p with accesses := .read () i :: p.accesses }

section Calls

variable (buffer : Int → UInt8)

def advanceMark (p : StringParser) : StringParser :=
  let c := buffer p.fStartGet
  -- `fStartGet[1]`
  let p' := if c = carriageReturn then (p.read p.fStartGet).read (p.fStartGet + 1) else p.read p.fStartGet
  { p' with
    fCurLineNumber :=
      if c = lineFeed ∨ c = carriageReturn ∧ buffer (p.fStartGet + 1) ≠ lineFeed then p.fCurLineNumber + 1
      else p.fCurLineNumber
    fStartGet := p.fStartGet + 1 }

/-- The loop of `ConsumeUntil`, `left` bytes in front of `fEndGet`. -/
def untilLoop (inMask : UInt8 → Bool) : Nat → StringParser → StringParser
  | 0, p => p
  | left + 1, p =>
    if inMask (buffer p.fStartGet) then p.read p.fStartGet
    else untilLoop inMask left ((p.read p.fStartGet).advanceMark buffer)

/-- The loop of `ConsumeInteger`, `left` bytes in front of `fEndGet`. -/
def integerLoop : Nat → UInt32 → StringParser → UInt32 × StringParser
  | 0, theValue, p => (theValue, p)
  | left + 1, theValue, p =>
    let c := buffer p.fStartGet
    if 48 ≤ c ∧ c ≤ 57 then
      integerLoop left (theValue * 10 + (c - 48).toUInt32) ((p.read p.fStartGet).advanceMark buffer)
    else (theValue, p.read p.fStartGet)

/-- One turn of the loop of `ConsumeLength`. -/
def lengthTurn (inLength : Int) : Int16 × StringParser → (Int16 × StringParser) ⊕ StringParser
  | (i, p) => if i.toInt < inLength then .inl (i + 1, p.advanceMark buffer) else .inr p

variable (fEndGet : Int)

/-- `ConsumeUntil` with a mask. -/
def consumeUntilMask (inMask : UInt8 → Bool) (p : StringParser) : StrPtrLen × StringParser :=
  let p' := p.untilLoop buffer inMask (fEndGet - p.fStartGet).toNat
  (⟨p.fStartGet, p'.fStartGet - p.fStartGet⟩, p')

/-- `ConsumeUntil` with a character. -/
def consumeUntil (inStop : UInt8) (p : StringParser) : StrPtrLen × StringParser :=
  p.consumeUntilMask buffer fEndGet fun c => c = inStop

/-- `ConsumeLength`, when its loop has `turns` turns at most. -/
def consumeLength (turns : Nat) (inLength : Int) (p : StringParser) : Option (StrPtrLen × StringParser) :=
  let inLength := if fEndGet - p.fStartGet < inLength then fEndGet - p.fStartGet else inLength
  let spl := ⟨p.fStartGet, inLength⟩
  if 0 < inLength then (Loop.turns (lengthTurn buffer inLength) turns (0, p)).map (spl, ·)
  else some (spl, { p with fStartGet := p.fStartGet + inLength })

def consumeInteger (p : StringParser) : UInt32 × StrPtrLen × StringParser :=
  let (theValue, p') := p.integerLoop buffer (fEndGet - p.fStartGet).toNat 0
  (theValue, ⟨p.fStartGet, p'.fStartGet - p.fStartGet⟩, p')

def expect (stopChar : UInt8) (p : StringParser) : Bool × StringParser :=
  if fEndGet ≤ p.fStartGet then (false, p)
  else if buffer p.fStartGet ≠ stopChar then (false, p.read p.fStartGet)
  else (true, (p.read p.fStartGet).advanceMark buffer)

/-- "check for a \r\n, which is the most common EOL sequence." -/
def advanceLineFeed (p : StringParser) : StringParser :=
  if p.fStartGet < fEndGet then
    if buffer (p.fStartGet - 1) = carriageReturn then
      let p' := (p.read (p.fStartGet - 1)).read p.fStartGet
      if buffer p.fStartGet = lineFeed then p'.advanceMark buffer else p'
    else p.read (p.fStartGet - 1)
  else p

def expectEOL (p : StringParser) : Bool × StringParser :=
  if p.fStartGet < fEndGet then
    if buffer p.fStartGet = carriageReturn ∨ buffer p.fStartGet = lineFeed then
      (true, ((p.read p.fStartGet).advanceMark buffer).advanceLineFeed buffer fEndGet)
    else (false, p.read p.fStartGet)
  else (false, p)

/-- `ConsumeEOL`, with the same body. -/
def consumeEOL (p : StringParser) : StrPtrLen × StringParser :=
  let p' := (p.expectEOL buffer fEndGet).2
  (⟨p.fStartGet, p'.fStartGet - p.fStartGet⟩, p')

def getThru (inStopChar : UInt8) (p : StringParser) : StrPtrLen × Bool × StringParser :=
  let (outString, p') := p.consumeUntil buffer fEndGet inStopChar
  (outString, p'.expect buffer fEndGet inStopChar)

def getThruEOL (p : StringParser) : StrPtrLen × Bool × StringParser :=
  let (outString, p') := p.consumeUntilMask buffer fEndGet sEOLMask
  (outString, p'.expectEOL buffer fEndGet)

end Calls

end StringParser

/-! ## Moving over bytes -/

/-- The byte ends a line: a newline, or a carriage return without one. -/
def EndsLine (buffer : Int → UInt8) (i : Int) : Prop :=
  buffer i = lineFeed ∨ buffer i = carriageReturn ∧ buffer (i + 1) ≠ lineFeed

instance (buffer : Int → UInt8) (i : Int) : Decidable (EndsLine buffer i) := inferInstanceAs (Decidable (_ ∨ _))

/-- The lines that end among the `m` bytes from `i` on. -/
def lineEnds (buffer : Int → UInt8) (i : Int) : Nat → Nat
  | 0 => 0
  | m + 1 => (if EndsLine buffer i then 1 else 0) + lineEnds buffer (i + 1) m

/-- A carriage return that is the last byte of the buffer. -/
def LastReturn (buffer : Int → UInt8) (fEndGet : Int) : Prop := buffer (fEndGet - 1) = carriageReturn

instance (buffer : Int → UInt8) (fEndGet : Int) : Decidable (LastReturn buffer fEndGet) :=
  inferInstanceAs (Decidable (_ = _))

/-- Every access is to a byte of the buffer. -/
abbrev InBuffer (fEndGet : Int) (l : List (Access Unit)) : Prop := Access.Inside (fun _ => 0) (fun _ => fEndGet) l

theorem inBuffer_append {fEndGet : Int} {l l' : List (Access Unit)} :
    InBuffer fEndGet (l ++ l') ↔ InBuffer fEndGet l ∧ InBuffer fEndGet l' := Access.inside_append

theorem inBuffer_cons {fEndGet : Int} {a : Access Unit} {l : List (Access Unit)} :
    InBuffer fEndGet (a :: l) ↔ (0 ≤ a.address ∧ a.address < fEndGet) ∧ InBuffer fEndGet l := Access.inside_cons

/-- The parser moves over `m` bytes. It looks at bytes of the buffer only, unless it moves over a carriage return that
is the last one. -/
structure Moved (buffer : Int → UInt8) (fEndGet : Int) (p p' : StringParser) (m : Nat) : Prop where
  start : p'.fStartGet = p.fStartGet + m
  stop : p'.fStartGet ≤ fEndGet
  line : p'.fCurLineNumber = p.fCurLineNumber + Int32.ofNat (lineEnds buffer p.fStartGet m)
  accesses : ∃ l, p'.accesses = l ++ p.accesses ∧
    (InBuffer fEndGet l ↔ ¬ (LastReturn buffer fEndGet ∧ 0 < m ∧ p'.fStartGet = fEndGet))

namespace Moved

variable {b : Int → UInt8} {e i : Int} {p p' p'' : StringParser} {m n : Nat}

theorem lineEnds_add : lineEnds b i (m + n) = lineEnds b i m + lineEnds b (i + m) n := by
  induction m generalizing i with
  | zero => simp [lineEnds]
  | succ m ih =>
    have hnext : i + 1 + (m : Int) = i + ((m + 1 : Nat) : Int) := by omega
    rw [Nat.succ_add_eq_add_succ, Nat.add_succ, lineEnds, ih, hnext, lineEnds]
    omega

theorem refl (h : p.fStartGet ≤ e) : Moved b e p p 0 where
  start := by simp
  stop := h
  line := (Int32.add_zero _).symm
  accesses := ⟨[], rfl, by simp⟩

theorem trans (h : Moved b e p p' m) (h' : Moved b e p' p'' n) :
    Moved b e p p'' (m + n) where
  start := by rw [h'.start, h.start]; omega
  stop := h'.stop
  line := by rw [h'.line, h.line, lineEnds_add, h.start, Int32.ofNat_add, Int32.add_assoc]
  accesses := by
    obtain ⟨l, hl, hin⟩ := h.accesses
    obtain ⟨l', hl', hin'⟩ := h'.accesses
    have hstart := h'.start
    have hstop := h'.stop
    refine ⟨l' ++ l, by rw [hl', hl, List.append_assoc], ?_⟩
    rw [inBuffer_append, hin, hin']
    by_cases hlast : LastReturn b e
    · simp only [hlast, true_and]
      omega
    · simp [hlast]

/-- A byte of the buffer is looked at. -/
theorem read (h : Moved b e p p' m) (hi : 0 ≤ i) (hlt : i < e) :
    Moved b e p (p'.read i) m where
  start := h.start
  stop := h.stop
  line := h.line
  accesses := by
    obtain ⟨l, hl, hin⟩ := h.accesses
    refine ⟨.read () i :: l, by rw [StringParser.read, hl]; rfl, ?_⟩
    rw [inBuffer_cons]
    exact Iff.trans (and_iff_right ⟨hi, hlt⟩) hin

theorem advanceMark (hi : 0 ≤ p.fStartGet) (hlt : p.fStartGet < e) :
    Moved b e p (p.advanceMark b) 1 where
  start := rfl
  stop := by
    show p.fStartGet + 1 ≤ e
    omega
  line := by
    simp only [StringParser.advanceMark, lineEnds, Nat.add_zero]
    by_cases hline : EndsLine b p.fStartGet
    · rw [if_pos hline]
      exact if_pos hline
    · rw [if_neg hline]
      exact (if_neg hline).trans (Int32.add_zero _).symm
  accesses := by
    simp only [StringParser.advanceMark]
    split
    next hc =>
      refine ⟨[.read () (p.fStartGet + 1), .read () p.fStartGet], rfl, ?_⟩
      simp only [Access.inside_cons, Access.inside_nil, Access.address, and_true]
      by_cases hlast : p.fStartGet + 1 = e
      · have hreturn : LastReturn b e := by rw [LastReturn, ← hlast, Int.add_sub_cancel, hc]
        simp [hlast, hreturn]
      · simp only [hlast, and_false, not_false_eq_true, iff_true]
        omega
    next hc =>
      refine ⟨[.read () p.fStartGet], rfl, ?_⟩
      simp only [Access.inside_cons, Access.inside_nil, Access.address, and_true]
      refine iff_of_true ⟨hi, hlt⟩ ?_
      rintro ⟨hreturn, -, hend⟩
      have hend : p.fStartGet + 1 = e := hend
      rw [LastReturn, ← hend, Int.add_sub_cancel] at hreturn
      exact hc hreturn

end Moved

/-! ## What the calls move over -/

namespace StringParser

variable {b : Int → UInt8} {e : Int} {f : UInt8 → Bool} {c : UInt8} {l : Nat} {p : StringParser}

/-- The loop of `ConsumeUntil` stops at the first stop character, or at the end. -/
theorem untilLoop_spec (hp : 0 ≤ p.fStartGet) (hleft : p.fStartGet + l = e) :
    ∃ m, Moved b e p (p.untilLoop b f l) m ∧
      (∀ i, p.fStartGet ≤ i → i < p.fStartGet + m → f (b i) = false) ∧
      (p.fStartGet + m < e → f (b (p.fStartGet + m)) = true) := by
  induction l generalizing p with
  | zero =>
    refine ⟨0, .refl (by omega), fun i hi hlt => ?_, fun hlt => ?_⟩ <;> omega
  | succ l ih =>
    have hlt : p.fStartGet < e := by omega
    unfold untilLoop
    split
    next hstop =>
      refine ⟨0, (Moved.refl (Int.le_of_lt hlt)).read hp hlt, fun i hi hlt => by omega, fun _ => ?_⟩
      simpa using hstop
    next hgo =>
      have hread := (Moved.refl (b := b) (Int.le_of_lt hlt)).read hp hlt
      have hone := hread.trans (Moved.advanceMark hp hlt)
      obtain ⟨m, hm, hbefore, hat⟩ := ih (p := (p.read p.fStartGet).advanceMark b)
        (by rw [hone.start]; omega) (by rw [hone.start]; omega)
      rw [hone.start] at hbefore hat
      refine ⟨0 + 1 + m, hone.trans hm, fun i hi hlt => ?_, fun hlt => ?_⟩
      · by_cases hfirst : i = p.fStartGet
        · rw [hfirst]
          simpa using hgo
        · exact hbefore i (by omega) (by omega)
      · have hpos : p.fStartGet + ((0 + 1 + m : Nat) : Int) = p.fStartGet + ((0 + 1 : Nat) : Int) + m := by omega
        rw [hpos] at hlt ⊢
        exact hat hlt

/-- What is not a digit. -/
def noDigit (c : UInt8) : Bool := !(48 ≤ c && c ≤ 57)

/-- `ConsumeInteger` moves as far as the first character that is no digit. -/
theorem integerLoop_snd (theValue : UInt32) :
    (p.integerLoop b l theValue).2 = p.untilLoop b noDigit l := by
  induction l generalizing p theValue with
  | zero => rfl
  | succ l ih =>
    unfold integerLoop untilLoop
    by_cases hdigit : 48 ≤ b p.fStartGet ∧ b p.fStartGet ≤ 57
    · rw [if_pos hdigit, if_neg (by simp [noDigit, hdigit]), ih]
    · rw [if_neg hdigit, if_pos (by simpa [noDigit, imp_iff_not_or] using hdigit)]

theorem expect_spec (hp : 0 ≤ p.fStartGet) (hend : p.fStartGet ≤ e) :
    ((p.expect b e c).1 = true ∧ p.fStartGet < e ∧ b p.fStartGet = c ∧
        Moved b e p (p.expect b e c).2 1) ∨
      (p.expect b e c).1 = false ∧ (p.fStartGet < e → b p.fStartGet ≠ c) ∧
        Moved b e p (p.expect b e c).2 0 := by
  unfold expect
  split
  next hstop => exact Or.inr ⟨rfl, fun hlt => by omega, .refl hend⟩
  next hgo =>
    have hlt : p.fStartGet < e := by omega
    have hread := (Moved.refl (b := b) hend).read hp hlt
    split
    next hne => exact Or.inr ⟨rfl, fun _ => hne, hread⟩
    next heq =>
      exact Or.inl ⟨rfl, hlt, not_not.1 heq, (Nat.zero_add 1) ▸ hread.trans (Moved.advanceMark hp hlt)⟩

/-- The newline of a `\r\n` is moved over. -/
theorem advanceLineFeed_spec (hp : 1 ≤ p.fStartGet) (hend : p.fStartGet ≤ e) :
    (b (p.fStartGet - 1) = carriageReturn ∧ p.fStartGet < e ∧ b p.fStartGet = lineFeed) ∧
        Moved b e p (p.advanceLineFeed b e) 1 ∨
      ¬ (b (p.fStartGet - 1) = carriageReturn ∧ p.fStartGet < e ∧ b p.fStartGet = lineFeed) ∧
        Moved b e p (p.advanceLineFeed b e) 0 := by
  unfold advanceLineFeed
  split
  next hlt =>
    have hback := (Moved.refl (b := b) hend).read (i := p.fStartGet - 1) (by omega) (by omega)
    have hnext := hback.read (i := p.fStartGet) (by omega) hlt
    split
    next hreturn =>
      dsimp only
      split
      next hfeed =>
        refine Or.inl ⟨⟨hreturn, hlt, hfeed⟩, (Nat.zero_add 1) ▸ hnext.trans (Moved.advanceMark ?_ hlt)⟩
        show 0 ≤ p.fStartGet
        omega
      next hno => exact Or.inr ⟨fun h => hno h.2.2, hnext⟩
    next hno => exact Or.inr ⟨fun h => hno h.1, hback⟩
  next hno => exact Or.inr ⟨fun h => hno h.2.1, .refl hend⟩

/-- The `m` bytes at `i` are a line end: one character, or both of a `\r\n`. -/
inductive LineEnd (b : Int → UInt8) (e i : Int) : Nat → Prop
  | one (heol : sEOLMask (b i) = true) (hno : ¬ (b i = carriageReturn ∧ i + 1 < e ∧ b (i + 1) = lineFeed)) :
    LineEnd b e i 1
  | both (hreturn : b i = carriageReturn) (hlt : i + 1 < e) (hfeed : b (i + 1) = lineFeed) : LineEnd b e i 2

/-- A line end is moved over. -/
theorem expectEOL_spec (hp : 0 ≤ p.fStartGet) (hend : p.fStartGet ≤ e) :
    ((p.expectEOL b e).1 = true ∧ p.fStartGet < e ∧ ∃ m, Moved b e p (p.expectEOL b e).2 m ∧
      LineEnd b e p.fStartGet m) ∨
      (p.expectEOL b e).1 = false ∧ (p.fStartGet < e → sEOLMask (b p.fStartGet) = false) ∧
        Moved b e p (p.expectEOL b e).2 0 := by
  unfold expectEOL
  split
  next hlt =>
    have hread := (Moved.refl (b := b) hend).read hp hlt
    split
    next heol =>
      have hmask : sEOLMask (b p.fStartGet) = true := by simpa [sEOLMask] using heol.symm
      have hone := hread.trans (Moved.advanceMark (p := p.read p.fStartGet) hp hlt)
      have hback : ((p.read p.fStartGet).advanceMark b).fStartGet - 1 = p.fStartGet := Int.add_sub_cancel _ _
      refine Or.inl ⟨rfl, hlt, ?_⟩
      rcases advanceLineFeed_spec (b := b) (p := (p.read p.fStartGet).advanceMark b)
        (by rw [hone.start]; omega) hone.stop with ⟨⟨hreturn, hnext, hfeed⟩, hm⟩ | ⟨hno, hm⟩
      · rw [hback] at hreturn
        exact ⟨2, hone.trans hm, .both hreturn hnext hfeed⟩
      · rw [hback] at hno
        exact ⟨1, hone.trans hm, .one hmask hno⟩
    next hno =>
      refine Or.inr ⟨rfl, fun _ => ?_, hread⟩
      have hne := not_or.1 hno
      simp [sEOLMask, hne.1, hne.2]
  next hstop => exact Or.inr ⟨rfl, fun hlt => absurd hlt hstop, .refl hend⟩

/-! ## ConsumeLength -/

theorem toInt_succ {i : Int16} (h : i.toInt < 32767) : (i + 1).toInt = i.toInt + 1 := by
  have hlow := Int16.le_toInt i
  have hone : (1 : Int16).toInt = 1 := by decide
  rw [Int16.toInt_add, hone]
  show Int.bmod (i.toInt + 1) 65536 = _
  rw [Int.bmod_def]
  omega

variable {n : Int}

/-- The loop of `ConsumeLength` goes over a length that a `short` can count to. -/
theorem lengthLoop_spec (hp : 0 ≤ p.fStartGet) (hlen : 0 ≤ n) (hshort : n ≤ 32767)
    (hin : p.fStartGet + n ≤ e) :
    ∃ p', Loop.turns (lengthTurn b n) 32768 (0, p) = some p' ∧ Moved b e p p' n.toNat := by
  refine Loop.turns_of_measure
    (I := fun s => 0 ≤ s.1.toInt ∧ s.1.toInt ≤ n ∧ Moved b e p s.2 s.1.toInt.toNat)
    (fun s => (n - s.1.toInt).toNat) ?_ ?_ ⟨Int.le_refl _, hlen, .refl (by omega)⟩ ?_
  · rintro ⟨i, q⟩ s' ⟨hi, hle, hm⟩ hs
    dsimp only at hi hle hm
    simp only [lengthTurn] at hs
    split at hs <;> cases hs
    next hlt =>
      have hsucc := toInt_succ (i := i) (by omega)
      have hstart := hm.start
      have hone := hm.trans (Moved.advanceMark (p := q) (by omega) (by omega))
      have hnat : (i.toInt + 1).toNat = i.toInt.toNat + 1 := by omega
      dsimp only
      rw [hsucc, hnat]
      exact ⟨⟨by omega, by omega, hone⟩, by omega⟩
  · rintro ⟨i, q⟩ r ⟨hi, hle, hm⟩ hs
    dsimp only at hi hle hm
    simp only [lengthTurn] at hs
    split at hs <;> cases hs
    next hstop =>
      have heq : i.toInt = n := by omega
      rw [← heq]
      exact hm
  · have hzero : (0 : Int16).toInt = 0 := by decide
    dsimp only
    omega

/-- The loop of `ConsumeLength` does not end when the length is too large for its `short`. -/
theorem lengthLoop_none (hlen : 32767 < n) {k : Nat} {i : Int16} :
    Loop.turns (lengthTurn b n) k (i, p) = none := by
  refine Loop.turns_eq_none (I := fun _ => True) (fun s _ => ?_) trivial
  obtain ⟨j, q⟩ := s
  have hle := Int16.toInt_lt j
  exact ⟨(j + 1, q.advanceMark b), if_pos (by omega), trivial⟩

/-- "sanity check to make sure we aren't being told to run off the end of the buffer" -/
theorem clamp_eq : (if e - p.fStartGet < n then e - p.fStartGet else n) =
    min n (e - p.fStartGet) := by
  omega

theorem consumeLength_spec (hp : 0 ≤ p.fStartGet) (hend : p.fStartGet ≤ e) (hlen : 0 ≤ n)
    (hshort : min n (e - p.fStartGet) ≤ 32767) :
    ∃ p', p.consumeLength b e 32768 n = some (⟨p.fStartGet, min n (e - p.fStartGet)⟩, p') ∧
      Moved b e p p' (min n (e - p.fStartGet)).toNat := by
  unfold consumeLength
  rw [clamp_eq]
  dsimp only
  split
  next hpos =>
    obtain ⟨p', hp', hm⟩ := lengthLoop_spec (b := b) hp (by omega) hshort
      (by omega : p.fStartGet + min n (e - p.fStartGet) ≤ e)
    exact ⟨p', by rw [hp']; rfl, hm⟩
  next hzero =>
    have hmin : min n (e - p.fStartGet) = 0 := by omega
    rw [hmin]
    have hsame : { p with fStartGet := p.fStartGet + 0 } = p := by rw [Int.add_zero]
    exact ⟨p, by rw [hsame], .refl hend⟩

/-- **`ConsumeLength`** returns, with the slice of the first bytes and the parser behind them, exactly when a `short`
can count these bytes; otherwise it never returns. -/
theorem consumeLength_iff (hp : 0 ≤ p.fStartGet) (hend : p.fStartGet ≤ e) (hlen : 0 ≤ n) :
    (∃ turns p', p.consumeLength b e turns n =
        some (⟨p.fStartGet, min n (e - p.fStartGet)⟩, p') ∧
      p'.fStartGet = p.fStartGet + min n (e - p.fStartGet)) ↔
    min n (e - p.fStartGet) ≤ 32767 := by
  constructor
  · rintro ⟨turns, p', hp', -⟩
    by_contra hlong
    unfold consumeLength at hp'
    rw [clamp_eq] at hp'
    dsimp only at hp'
    rw [if_pos (by omega), lengthLoop_none (Int.not_le.1 hlong)] at hp'
    cases hp'
  · intro hshort
    obtain ⟨p', hp', hm⟩ := consumeLength_spec (b := b) hp hend hlen hshort
    have hstart := hm.start
    exact ⟨32768, p', hp', by omega⟩

theorem consumeLength_iff_five : ∃ turns p', new.consumeLength (memory [97, 98, 99] fun _ => 0) 3 turns 5 =
    some (⟨0, 3⟩, p') ∧ p'.fStartGet = 3 :=
  (consumeLength_iff (p := new) (n := 5) (by decide) (by decide) (by decide)).2 (by decide)

/-- A buffer of 32768 bytes, all of them asked for. -/
theorem consumeLength_forever :
    ¬ ∃ turns r, new.consumeLength (memory (List.replicate 32768 65) fun _ => 0) 32768 turns 32768 = some r := by
  rintro ⟨turns, r, hr⟩
  unfold consumeLength at hr
  rw [clamp_eq] at hr
  dsimp only at hr
  rw [if_pos (by decide), lengthLoop_none (by decide)] at hr
  cases hr

end StringParser

end ToolLib.Common.ParserMemory
