import ToolLib.Base.Logged
import ToolLib.Common.ParserMemory

/-!
# The calls of a parser

The functions of `StringParser` in any order, on a buffer in memory. One call moves over the string that it reports and
the delimiter that it skips (`Called`), and from there:

- a run stays in the buffer exactly when no call passes a carriage return that is the last byte (`inBuffer_iff`);
- what has been consumed is what the calls have reported and skipped, and the line number counts the line ends in it,
  when the byte behind the buffer is no newline (`consumed_pieces`).
-/

namespace ToolLib.Common.ParserMemory

open ToolLib.Base
open ToolLib.Common.StringParser (carriageReturn lineFeed sEOLMask)

/-- A length that the `short` of `ConsumeLength` can count to. -/
abbrev ShortLength := { inLength : Int // 0 ≤ inLength ∧ inLength ≤ 32767 }

/-- A call of the parser. -/
inductive Call
  | expect (stopChar : UInt8)
  | expectEOL
  | consumeUntil (inStop : UInt8)
  | consumeUntilMask (inMask : UInt8 → Bool)
  | consumeLength (inLength : ShortLength)
  | consumeInteger
  | consumeEOL
  | getThru (inStopChar : UInt8)
  | getThruEOL

/-- What the call gives: `outString`, whether it has found what it looks for, and the value of `ConsumeInteger`. -/
structure Report where
  outString : Option StrPtrLen := none
  found : Option Bool := none
  value : Option UInt32 := none

namespace StringParser

variable (buffer : Int → UInt8) (fEndGet : Int)

/-- What the call does; `none` when it does not return. A loop that counts with a `short` and ends has at most 32768
turns. -/
def call (p : StringParser) : Call → Option (Report × StringParser)
  | .expect stopChar =>
    let (found, p') := p.expect buffer fEndGet stopChar
    some ({ found := some found }, p')
  | .expectEOL =>
    let (found, p') := p.expectEOL buffer fEndGet
    some ({ found := some found }, p')
  | .consumeUntil inStop =>
    let (outString, p') := p.consumeUntil buffer fEndGet inStop
    some ({ outString := some outString }, p')
  | .consumeUntilMask inMask =>
    let (outString, p') := p.consumeUntilMask buffer fEndGet inMask
    some ({ outString := some outString }, p')
  | .consumeLength inLength =>
    (p.consumeLength buffer fEndGet 32768 inLength).map fun (spl, p') => ({ outString := some spl }, p')
  | .consumeInteger =>
    let (theValue, outString, p') := p.consumeInteger buffer fEndGet
    some ({ outString := some outString, value := some theValue }, p')
  | .consumeEOL =>
    let (outString, p') := p.consumeEOL buffer fEndGet
    some ({ outString := some outString }, p')
  | .getThru inStopChar =>
    let (outString, found, p') := p.getThru buffer fEndGet inStopChar
    some ({ outString := some outString, found := some found }, p')
  | .getThruEOL =>
    let (outString, found, p') := p.getThruEOL buffer fEndGet
    some ({ outString := some outString, found := some found }, p')

def step (p : StringParser) (c : Call) : Option StringParser := (p.call buffer fEndGet c).map Prod.snd

/-- What an observer notes: the call, and what it has given. -/
def observe (p : StringParser) (c : Call) (_ : StringParser) : Option (Call × Report) :=
  (p.call buffer fEndGet c).map fun r => (c, r.1)

end StringParser

/-! ## What a call consumes -/

/-- The string that is reported. -/
def Report.string (buffer : Int → UInt8) (r : Report) : List UInt8 :=
  match r.outString with
  | some s => bytesFrom buffer s.Ptr s.Len.toNat
  | none => []

/-- The delimiter that the call skips, if it finds one. -/
def Delimiter (r : Report) (d : List UInt8) : Call → Prop
  | .expect c | .getThru c => d = if r.found = some true then [c] else []
  | .expectEOL | .getThruEOL =>
    if r.found = some true then d = [lineFeed] ∨ d = [carriageReturn] ∨ d = [carriageReturn, lineFeed] else d = []
  | .consumeUntil _ | .consumeUntilMask _ | .consumeLength _ | .consumeInteger | .consumeEOL => d = []

/-- The calls have reported and skipped these bytes; the last call is the first of the list. -/
inductive Consumed (buffer : Int → UInt8) : List (Call × Report) → List UInt8 → Prop
  | nil : Consumed buffer [] []
  | cons {log : List (Call × Report)} {bytes d : List UInt8} {c : Call} {r : Report} (h : Consumed buffer log bytes)
      (hd : Delimiter r d c) : Consumed buffer ((c, r) :: log) (bytes ++ (r.string buffer ++ d))

/-- The call goes to the end of a buffer that has a carriage return there. -/
def ToEnd (buffer : Int → UInt8) (fEndGet : Int) (p : StringParser) : Call → Prop
  | .expect c => p.fStartGet + 1 = fEndGet ∧ c = carriageReturn
  | .expectEOL | .consumeEOL => p.fStartGet + 1 = fEndGet
  | .consumeUntil c => ∀ i, p.fStartGet ≤ i → i < fEndGet → buffer i ≠ c
  | .consumeUntilMask inMask => ∀ i, p.fStartGet ≤ i → i < fEndGet → inMask (buffer i) = false
  | .consumeLength inLength => fEndGet - p.fStartGet ≤ inLength
  | .consumeInteger => False
  | .getThru c => ∀ i, p.fStartGet ≤ i → i < fEndGet - 1 → buffer i ≠ c
  | .getThruEOL => ∀ i, p.fStartGet ≤ i → i < fEndGet - 1 → sEOLMask (buffer i) = false

instance (buffer : Int → UInt8) (fEndGet : Int) (p : StringParser) : DecidablePred (ToEnd buffer fEndGet p)
  | .expect _ => inferInstanceAs (Decidable (_ ∧ _))
  | .expectEOL | .consumeEOL => inferInstanceAs (Decidable (_ = _))
  | .consumeUntil _ | .consumeUntilMask _ | .getThru _ | .getThruEOL => Int.decidableLELT _ _ _
  | .consumeLength _ => inferInstanceAs (Decidable (_ ≤ _))
  | .consumeInteger => instDecidableFalse

/-- The call passes a carriage return that is the last byte of the buffer. -/
def PassesReturn (buffer : Int → UInt8) (fEndGet : Int) (p : StringParser) (c : Call) : Prop :=
  LastReturn buffer fEndGet ∧ p.fStartGet < fEndGet ∧ ToEnd buffer fEndGet p c

instance (buffer : Int → UInt8) (fEndGet : Int) (p : StringParser) : DecidablePred (PassesReturn buffer fEndGet p) :=
  fun _ => inferInstanceAs (Decidable (_ ∧ _ ∧ _))

/-- What one call does. -/
structure Called (buffer : Int → UInt8) (fEndGet : Int) (p : StringParser) (c : Call) (r : Report) (p' : StringParser)
    (m : Nat) : Prop where
  moved : Moved buffer fEndGet p p' m
  consumed : ∃ d, Delimiter r d c ∧ bytesFrom buffer p.fStartGet m = r.string buffer ++ d
  toEnd : LastReturn buffer fEndGet → (0 < m ∧ p'.fStartGet = fEndGet ↔ p.fStartGet < fEndGet ∧ ToEnd buffer fEndGet p c)

namespace StringParser

variable {b : Int → UInt8} {e : Int} {f : UInt8 → Bool} {c : UInt8} {p : StringParser}

/-- `ConsumeUntil`, with a mask or with a character. -/
theorem consumeUntilMask_spec (hp : 0 ≤ p.fStartGet) (hend : p.fStartGet ≤ e) :
    ∃ (m : Nat) (p' : StringParser), p.consumeUntilMask b e f = (⟨p.fStartGet, m⟩, p') ∧ Moved b e p p' m ∧
      (∀ i, p.fStartGet ≤ i → i < p.fStartGet + m → f (b i) = false) ∧
      (p.fStartGet + m < e → f (b (p.fStartGet + m)) = true) := by
  obtain ⟨m, hm, hbefore, hat⟩ := untilLoop_spec (b := b) (f := f) (e := e)
    (l := (e - p.fStartGet).toNat) hp (by omega)
  have hlen : (p.untilLoop b f (e - p.fStartGet).toNat).fStartGet - p.fStartGet = m := by
    rw [hm.start]
    omega
  refine ⟨m, _, ?_, hm, hbefore, hat⟩
  rw [consumeUntilMask, hlen]

/-- The end is reached when no byte is a stop character. -/
theorem until_toEnd {m : Nat} (hstop : p.fStartGet + m ≤ e)
    (hbefore : ∀ i, p.fStartGet ≤ i → i < p.fStartGet + m → f (b i) = false)
    (hat : p.fStartGet + m < e → f (b (p.fStartGet + m)) = true) :
    0 < m ∧ p.fStartGet + m = e ↔
      p.fStartGet < e ∧ ∀ i, p.fStartGet ≤ i → i < e → f (b i) = false := by
  constructor
  · rintro ⟨hpos, hend⟩
    exact ⟨by omega, fun i hi hlt => hbefore i hi (by omega)⟩
  · rintro ⟨hlt, hno⟩
    have hend : p.fStartGet + m = e := by
      by_contra hne
      have hstopped := hat (by omega)
      rw [hno _ (by omega) (by omega)] at hstopped
      cases hstopped
    exact ⟨by omega, hend⟩

/-- A call that moves over its `outString` and nothing else. -/
theorem called_string {c : Call} {p' : StringParser} {m : Nat} {v : Option UInt32} (hm : Moved b e p p' m)
    (hd : Delimiter { outString := some ⟨p.fStartGet, m⟩, value := v } [] c)
    (hend : LastReturn b e → (0 < m ∧ p'.fStartGet = e ↔ p.fStartGet < e ∧ ToEnd b e p c)) :
    Called b e p c { outString := some ⟨p.fStartGet, m⟩, value := v } p' m where
  moved := hm
  consumed := ⟨[], hd, by simp [Report.string]⟩
  toEnd := hend

theorem called_expect (hp : 0 ≤ p.fStartGet) (hend : p.fStartGet ≤ e) :
    ∃ r p' m, p.call b e (.expect c) = some (r, p') ∧ Called b e p (.expect c) r p' m := by
  rcases expect_spec (c := c) hp hend with ⟨hfound, hlt, hc, hm⟩ | ⟨hfound, hne, hm⟩
  · refine ⟨{ found := some (p.expect b e c).1 }, (p.expect b e c).2, 1, rfl, hm,
      ⟨[c], ?_, ?_⟩, fun hlast => ?_⟩
    · simp [Delimiter, hfound]
    · simp [Report.string, bytesFrom_one, hc]
    · rw [hm.start]
      constructor
      · rintro ⟨-, hat⟩
        rw [LastReturn, ← hat, Int.natCast_one, Int.add_sub_cancel, hc] at hlast
        exact ⟨hlt, hat, hlast⟩
      · rintro ⟨-, hat, -⟩
        exact ⟨by omega, hat⟩
  · refine ⟨{ found := some (p.expect b e c).1 }, (p.expect b e c).2, 0, rfl, hm,
      ⟨[], ?_, ?_⟩, fun hlast => ?_⟩
    · simp [Delimiter, hfound]
    · simp [Report.string, bytesFrom]
    · constructor
      · rintro ⟨hpos, -⟩
        omega
      · rintro ⟨hlt, hat, hc⟩
        have hat : p.fStartGet + 1 = e := hat
        rw [LastReturn, ← hat, Int.add_sub_cancel] at hlast
        exact absurd (hlast.trans hc.symm) (hne hlt)

/-- The bytes of a line end. -/
theorem LineEnd.bytes {i : Int} {m : Nat} (h : LineEnd b e i m) :
    bytesFrom b i m = [lineFeed] ∨ bytesFrom b i m = [carriageReturn] ∨ bytesFrom b i m = [carriageReturn, lineFeed] := by
  cases h with
  | one heol hno =>
    rw [bytesFrom_one]
    rcases (by simpa [sEOLMask] using heol : b i = lineFeed ∨ b i = carriageReturn) with h | h
    · exact Or.inl (by rw [h])
    · exact Or.inr (Or.inl (by rw [h]))
  | both hreturn hlt hfeed => exact Or.inr (Or.inr (by rw [bytesFrom_two, hreturn, hfeed]))

/-- A line end goes to the end of a buffer that ends in a carriage return when it begins at its last byte. -/
theorem LineEnd.toEnd {i : Int} {m : Nat} (h : LineEnd b e i m) (hlast : LastReturn b e) : i + m = e ↔ i + 1 = e := by
  cases h with
  | one heol hno => exact Iff.rfl
  | both hreturn hlt hfeed =>
    refine iff_of_false (fun hat => ?_) (fun hat => by omega)
    have hlow : e - 1 = i + 1 := by omega
    rw [LastReturn, hlow, hfeed] at hlast
    cases hlast

/-- `ExpectEOL` and `ConsumeEOL`, with whatever they report. -/
theorem expectEOL_moved (hp : 0 ≤ p.fStartGet) (hend : p.fStartGet ≤ e) :
    ∃ m, Moved b e p (p.expectEOL b e).2 m ∧
      (if (p.expectEOL b e).1 = true then bytesFrom b p.fStartGet m = [lineFeed] ∨
        bytesFrom b p.fStartGet m = [carriageReturn] ∨ bytesFrom b p.fStartGet m = [carriageReturn, lineFeed]
      else bytesFrom b p.fStartGet m = []) ∧
      (LastReturn b e → (0 < m ∧ p.fStartGet + m = e ↔ p.fStartGet + 1 = e)) := by
  rcases expectEOL_spec (b := b) hp hend with ⟨hfound, hlt, m, hm, heol⟩ | ⟨hfound, hno, hm⟩
  · refine ⟨m, hm, ?_, fun hlast => ?_⟩
    · rw [if_pos hfound]
      exact heol.bytes
    · have hpos : 0 < m := by
        cases heol <;> exact Nat.succ_pos _
      rw [and_iff_right hpos]
      exact heol.toEnd hlast
  · refine ⟨0, hm, ?_, fun hlast => ?_⟩
    · rw [if_neg (by simp [hfound])]
      rfl
    · refine iff_of_false (fun h => Nat.lt_irrefl 0 h.1) fun hat => ?_
      have hmask := hno (by omega)
      rw [LastReturn, ← hat, Int.add_sub_cancel] at hlast
      rw [hlast] at hmask
      cases hmask

theorem called_expectEOL (hp : 0 ≤ p.fStartGet) (hend : p.fStartGet ≤ e) :
    ∃ r p' m, p.call b e .expectEOL = some (r, p') ∧ Called b e p .expectEOL r p' m := by
  obtain ⟨m, hm, hbytes, hat⟩ := expectEOL_moved (b := b) hp hend
  refine ⟨{ found := some (p.expectEOL b e).1 }, (p.expectEOL b e).2, m, rfl, hm,
    ⟨bytesFrom b p.fStartGet m, ?_, rfl⟩, fun hlast => ?_⟩
  · simpa [Delimiter] using hbytes
  · rw [hm.start, hat hlast]
    exact ⟨fun h => ⟨by omega, h⟩, And.right⟩

theorem called_consumeEOL (hp : 0 ≤ p.fStartGet) (hend : p.fStartGet ≤ e) :
    ∃ r p' m, p.call b e .consumeEOL = some (r, p') ∧ Called b e p .consumeEOL r p' m := by
  obtain ⟨m, hm, -, hat⟩ := expectEOL_moved (b := b) hp hend
  have hlen : (p.expectEOL b e).2.fStartGet - p.fStartGet = m := by rw [hm.start]; omega
  refine ⟨_, _, m, by rw [call, consumeEOL, hlen], called_string hm rfl fun hlast => ?_⟩
  rw [hm.start, hat hlast]
  exact ⟨fun h => ⟨by omega, h⟩, And.right⟩

theorem called_consumeUntilMask (hp : 0 ≤ p.fStartGet) (hend : p.fStartGet ≤ e) :
    ∃ r p' m, p.call b e (.consumeUntilMask f) = some (r, p') ∧
      Called b e p (.consumeUntilMask f) r p' m := by
  obtain ⟨m, p', hout, hm, hbefore, hat⟩ := consumeUntilMask_spec (b := b) (f := f) hp hend
  refine ⟨_, p', m, by rw [call, hout], called_string hm rfl fun _ => ?_⟩
  rw [hm.start]
  exact until_toEnd (by rw [← hm.start]; exact hm.stop) hbefore hat

theorem called_consumeUntil (hp : 0 ≤ p.fStartGet) (hend : p.fStartGet ≤ e) :
    ∃ r p' m, p.call b e (.consumeUntil c) = some (r, p') ∧
      Called b e p (.consumeUntil c) r p' m := by
  obtain ⟨m, p', hout, hm, hbefore, hat⟩ := consumeUntilMask_spec (b := b) (f := fun x => x = c) hp hend
  refine ⟨_, p', m, by rw [call, consumeUntil, hout], called_string hm rfl fun _ => ?_⟩
  rw [hm.start, until_toEnd (f := fun x => x = c) (by rw [← hm.start]; exact hm.stop) hbefore hat]
  simp [ToEnd]

/-- `ConsumeInteger` moves as `ConsumeUntil` does. -/
theorem consumeInteger_eq : ∃ theValue, p.consumeInteger b e = (theValue, p.consumeUntilMask b e noDigit) := by
  refine ⟨(p.integerLoop b (e - p.fStartGet).toNat 0).1, ?_⟩
  unfold consumeInteger consumeUntilMask
  rw [← integerLoop_snd 0]

theorem called_consumeInteger (hp : 0 ≤ p.fStartGet) (hend : p.fStartGet ≤ e) :
    ∃ r p' m, p.call b e .consumeInteger = some (r, p') ∧ Called b e p .consumeInteger r p' m := by
  obtain ⟨m, p', hout, hm, hbefore, -⟩ := consumeUntilMask_spec (b := b) (f := noDigit) hp hend
  obtain ⟨theValue, hvalue⟩ := consumeInteger_eq (b := b) (e := e) (p := p)
  refine ⟨_, p', m, by rw [call, hvalue, hout], called_string hm rfl fun hlast => ?_⟩
  refine iff_of_false (fun ⟨hpos, hat⟩ => ?_) And.right
  -- the last byte would be a digit
  rw [hm.start] at hat
  have hdigit := hbefore (e - 1) (by omega) (by omega)
  rw [LastReturn] at hlast
  rw [hlast] at hdigit
  cases hdigit

theorem called_consumeLength {n : ShortLength} (hp : 0 ≤ p.fStartGet) (hend : p.fStartGet ≤ e) :
    ∃ r p' m, p.call b e (.consumeLength n) = some (r, p') ∧
      Called b e p (.consumeLength n) r p' m := by
  obtain ⟨n, hlow, hshort⟩ := n
  obtain ⟨p', hp', hm⟩ := consumeLength_spec (b := b) hp hend hlow (by omega)
  have hcast : (((min n (e - p.fStartGet)).toNat : Nat) : Int) = min n (e - p.fStartGet) := by omega
  refine ⟨_, p', _, by rw [call, hp', ← hcast]; rfl, called_string hm rfl fun _ => ?_⟩
  have hstart := hm.start
  have hstop := hm.stop
  simp only [ToEnd]
  omega

/-- A string up to a delimiter, and the delimiter when it is there. With a carriage return as the last byte, the end is
reached when there is no delimiter in front of that. -/
theorem called_thru {c : Call} {q p' : StringParser} {m n : Nat} {found : Bool} (hm : Moved b e p q m)
    (hn : Moved b e q p' n) (hbefore : ∀ i, p.fStartGet ≤ i → i < p.fStartGet + m → f (b i) = false)
    (hat : p.fStartGet + m < e → f (b (p.fStartGet + m)) = true)
    (hd : Delimiter { outString := some ⟨p.fStartGet, m⟩, found := some found } (bytesFrom b q.fStartGet n) c)
    (hend : LastReturn b e → (0 < n ∧ q.fStartGet + n = e ↔ q.fStartGet + 1 = e))
    (hto : ToEnd b e p c ↔ ∀ i, p.fStartGet ≤ i → i < e - 1 → f (b i) = false) :
    Called b e p c { outString := some ⟨p.fStartGet, m⟩, found := some found } p' (m + n) where
  moved := hm.trans hn
  consumed := ⟨bytesFrom b q.fStartGet n, hd, by rw [bytesFrom_add, hm.start]; simp [Report.string]⟩
  toEnd hlast := by
    have hend := hend hlast
    have hstop := hn.stop
    rw [hto, hn.start]
    rw [hn.start] at hstop
    rw [hm.start] at hend hstop ⊢
    constructor
    · rintro ⟨hpos, heq⟩
      exact ⟨by omega, fun i hi hlt => hbefore i hi (by omega)⟩
    · rintro ⟨hlt, hno⟩
      by_cases hfound : p.fStartGet + m + 1 < e
      · have hstopped := hat (by omega)
        rw [hno _ (by omega) (by omega)] at hstopped
        cases hstopped
      · omega

theorem called_getThru (hp : 0 ≤ p.fStartGet) (hend : p.fStartGet ≤ e) :
    ∃ r p' m, p.call b e (.getThru c) = some (r, p') ∧ Called b e p (.getThru c) r p' m := by
  obtain ⟨m, q, hout, hm, hbefore, hat⟩ := consumeUntilMask_spec (b := b) (f := fun x => x = c) hp hend
  have hstart := hm.start
  have hto : ToEnd b e p (.getThru c) ↔ ∀ i, p.fStartGet ≤ i → i < e - 1 → decide (b i = c) = false := by simp [ToEnd]
  rcases expect_spec (b := b) (c := c) (p := q) (by omega) hm.stop with ⟨hfound, hlt, hc, hn⟩ | ⟨hfound, hne, hn⟩
  · refine ⟨_, _, _, by rw [call, getThru, consumeUntil, hout],
      called_thru (f := fun x => x = c) hm hn hbefore hat ?_ (fun _ => ?_) hto⟩
    · simp [Delimiter, hfound, bytesFrom_one, hc]
    · simp
  · refine ⟨_, _, _, by rw [call, getThru, consumeUntil, hout],
      called_thru (f := fun x => x = c) hm hn hbefore hat ?_ (fun _ => ?_) hto⟩
    · simp [Delimiter, hfound, bytesFrom]
    · refine iff_of_false (fun h => Nat.lt_irrefl 0 h.1) fun heq => ?_
      rw [← hstart] at hat
      exact hne (by omega) (by simpa using hat (by omega))

theorem called_getThruEOL (hp : 0 ≤ p.fStartGet) (hend : p.fStartGet ≤ e) :
    ∃ r p' m, p.call b e .getThruEOL = some (r, p') ∧ Called b e p .getThruEOL r p' m := by
  obtain ⟨m, q, hout, hm, hbefore, hat⟩ := consumeUntilMask_spec (b := b) (f := sEOLMask) hp hend
  have hstart := hm.start
  obtain ⟨n, hn, hbytes, hto⟩ := expectEOL_moved (b := b) (p := q) (by omega) hm.stop
  refine ⟨_, _, _, by rw [call, getThruEOL, hout], called_thru hm hn hbefore hat ?_ hto Iff.rfl⟩
  simpa [Delimiter] using hbytes

/-- Every call returns. -/
theorem called {c : Call} (hp : 0 ≤ p.fStartGet) (hend : p.fStartGet ≤ e) :
    ∃ r p' m, p.call b e c = some (r, p') ∧ Called b e p c r p' m := by
  cases c with
  | expect => exact called_expect hp hend
  | expectEOL => exact called_expectEOL hp hend
  | consumeUntil => exact called_consumeUntil hp hend
  | consumeUntilMask => exact called_consumeUntilMask hp hend
  | consumeLength => exact called_consumeLength hp hend
  | consumeInteger => exact called_consumeInteger hp hend
  | consumeEOL => exact called_consumeEOL hp hend
  | getThru => exact called_getThru hp hend
  | getThruEOL => exact called_getThruEOL hp hend

theorem step_called {c : Call} {p' : StringParser} (hp : 0 ≤ p.fStartGet) (hend : p.fStartGet ≤ e)
    (hs : p.step b e c = some p') : ∃ r m, p.call b e c = some (r, p') ∧ Called b e p c r p' m := by
  obtain ⟨r, q, m, hcall, hcalled⟩ := called (b := b) (c := c) hp hend
  rw [step, hcall] at hs
  cases hs
  exact ⟨r, m, hcall, hcalled⟩

/-! ## Runs -/

/-- The parser is in the buffer, and so is what it has looked at. -/
def Safe (e : Int) (p : StringParser) : Prop := (0 ≤ p.fStartGet ∧ p.fStartGet ≤ e) ∧ InBuffer e p.accesses

instance (e : Int) (p : StringParser) : Decidable (Safe e p) := inferInstanceAs (Decidable (_ ∧ _))

/-- The calls can be made in any order. -/
theorem runs (calls : List Call) (hp : 0 ≤ p.fStartGet) (hend : p.fStartGet ≤ e) :
    ∃ p', run (step b e) p calls = some p' := by
  induction calls generalizing p with
  | nil => exact ⟨p, rfl⟩
  | cons c calls ih =>
    obtain ⟨r, q, m, hcall, hcalled⟩ := called (b := b) (c := c) hp hend
    have hstart := hcalled.moved.start
    obtain ⟨p', hp'⟩ := ih (p := q) (by omega) hcalled.moved.stop
    exact ⟨p', run_cons_eq_some.2 ⟨q, by rw [step, hcall]; rfl, hp'⟩⟩

/-- A call from a safe state leads to a safe one exactly when it does not pass a carriage return at the end. -/
theorem safe_step {c : Call} {p' : StringParser} (h : Safe e p) (hs : p.step b e c = some p') :
    Safe e p' ↔ ¬ PassesReturn b e p c := by
  obtain ⟨⟨hp, hend⟩, hin⟩ := h
  obtain ⟨r, m, -, hcalled⟩ := step_called hp hend hs
  obtain ⟨l, hl, hiff⟩ := hcalled.moved.accesses
  have hstart := hcalled.moved.start
  have hplace : 0 ≤ p'.fStartGet ∧ p'.fStartGet ≤ e := ⟨by omega, hcalled.moved.stop⟩
  rw [Safe, and_iff_right hplace, hl, inBuffer_append, and_iff_left hin, hiff, not_iff_not, PassesReturn]
  exact and_congr_right hcalled.toEnd

/-- **A parser stays inside its buffer** exactly when no call passes a carriage return that is the last byte:
`AdvanceMark` looks at the byte behind that. -/
theorem inBuffer_iff (bytes : List UInt8) (behind : Int → UInt8) (calls : List Call) :
    ∃ p, run (step (memory bytes behind) bytes.length) new calls = some p ∧
      (Always (step (memory bytes behind) bytes.length) (Safe bytes.length) new calls ↔
        Along (step (memory bytes behind) bytes.length)
          (fun p c => ¬ PassesReturn (memory bytes behind) bytes.length p c) new calls) := by
  have hnew : Safe bytes.length new := ⟨⟨Int.le_refl 0, Int.natCast_nonneg _⟩, Access.inside_nil⟩
  obtain ⟨p, hr⟩ := runs (b := memory bytes behind) calls hnew.1.1 hnew.1.2
  refine ⟨p, hr, always_iff_along (I := Safe bytes.length) (fun q c q' h hc hs => ?_) (fun _ h => h)
    (fun q c q' h hs h' => ?_) hnew hr⟩
  · exact (safe_step h hs).2 hc
  · exact (safe_step h hs).1 h'

/-- `ExpectEOL` on a buffer that is a carriage return looks at the byte behind it. -/
theorem expectEOL_outside : ¬ Always (step (memory [carriageReturn] fun _ => 0) 1) (Safe 1) new [.expectEOL] := by
  intro h
  have hr : run (step (memory [carriageReturn] fun _ => 0) 1) new [.expectEOL] =
      some ⟨1, 2, [.read () 1, .read () 0, .read () 0]⟩ := rfl
  exact absurd (h.last hr) (by decide)

/-! ## What has been consumed -/

/-- The lines that have ended before `i` are those of the consumed bytes. -/
theorem lineEnds_countP {i : Int} {m : Nat} :
    lineEnds b i m = (List.range m).countP fun k : Nat => EndsLine b (i + k) := by
  induction m with
  | zero => rfl
  | succ m ih =>
    rw [Moved.lineEnds_add (m := m) (n := 1), ih, List.range_succ, List.countP_append, List.countP_singleton]
    simp [lineEnds]

/-- What has been reported and skipped, and the lines that have ended in it. -/
structure Followed (b : Int → UInt8) (e : Int) (x : Logged StringParser (Call × Report)) (m : Nat) : Prop where
  start : x.state.fStartGet = m
  stop : x.state.fStartGet ≤ e
  consumed : Consumed b x.log (bytesFrom b 0 m)
  line : x.state.fCurLineNumber = Int32.ofNat (1 + lineEnds b 0 m)

theorem followed_step {x x' : Logged StringParser (Call × Report)} {c : Call} (h : ∃ m, Followed b e x m)
    (hs : Logged.step (step b e) (observe b e) x c = some x') : ∃ m, Followed b e x' m := by
  obtain ⟨m, h⟩ := h
  obtain ⟨p', hp', rfl⟩ := Logged.step_eq_some.1 hs
  have hstart := h.start
  obtain ⟨r, n, hcall, hcalled⟩ := step_called (by omega) h.stop hp'
  obtain ⟨d, hd, hbytes⟩ := hcalled.consumed
  have hnote : observe b e x.state c p' = some (c, r) := by rw [observe, hcall]; rfl
  refine ⟨m + n, by rw [hcalled.moved.start, hstart]; omega, hcalled.moved.stop, ?_, ?_⟩
  · rw [hnote, bytesFrom_add, Int.zero_add, ← hstart, hbytes]
    exact h.consumed.cons hd
  · rw [hcalled.moved.line, h.line, Moved.lineEnds_add, Int.zero_add, hstart, ← Int32.ofNat_add, Nat.add_assoc]

/-- With something else than a newline behind the buffer, its lines end where the bytes say. -/
theorem endsLine_iff {bytes : List UInt8} {behind : Int → UInt8} {k : Nat} (hbehind : behind bytes.length ≠ lineFeed)
    (hk : k < bytes.length) : EndsLine (memory bytes behind) k ↔
      bytes[k]? = some lineFeed ∨ bytes[k]? = some carriageReturn ∧ bytes[k + 1]? ≠ some lineFeed := by
  have hnext : ((k : Int) + 1) = ((k + 1 : Nat) : Int) := by omega
  rw [EndsLine, hnext, memory_nat, memory_nat, List.getD_eq_getElem?_getD, List.getD_eq_getElem?_getD]
  by_cases hlast : k + 1 < bytes.length
  · simp [hk, hlast]
  · have hend : k + 1 = bytes.length := by omega
    simp [hk, hend, hbehind]

/-- The line ends that begin in the first `m` bytes: newlines, and carriage returns without one behind them. -/
def lineEndsIn (bytes : List UInt8) (m : Nat) : Nat :=
  (List.range m).countP fun k => bytes[k]? = some lineFeed ∨ bytes[k]? = some carriageReturn ∧ bytes[k + 1]? ≠ some lineFeed

/-- **What a parser has consumed** is the beginning of the buffer, and it is what the calls have reported and skipped,
piece by piece; the line number counts the line ends that begin in it, as an `int` does. -/
theorem consumed_pieces (bytes : List UInt8) (behind : Int → UInt8) (calls : List Call)
    (hbehind : behind bytes.length ≠ lineFeed) :
    ∃ x, run (Logged.step (step (memory bytes behind) bytes.length) (observe (memory bytes behind) bytes.length))
        ⟨new, []⟩ calls = some x ∧
      ∃ m ≤ bytes.length, x.state.fStartGet = m ∧ Consumed (memory bytes behind) x.log (bytes.take m) ∧
        x.state.fCurLineNumber = Int32.ofNat (1 + lineEndsIn bytes m) := by
  obtain ⟨p, hp⟩ := runs (b := memory bytes behind) (e := bytes.length) (p := new) calls (Int.le_refl 0)
    (Int.natCast_nonneg _)
  obtain ⟨log, hr⟩ : ∃ log, run (Logged.step (step (memory bytes behind) bytes.length)
      (observe (memory bytes behind) bytes.length)) ⟨new, []⟩ calls = some ⟨p, log⟩ := Logged.exists_run hp
  obtain ⟨m, h⟩ := run_inv (I := fun x => ∃ m, Followed (memory bytes behind) bytes.length x m)
    (fun _ _ _ => followed_step) ⟨0, rfl, Int.natCast_nonneg _, .nil, rfl⟩ hr
  have hstart := h.start
  have hstop := h.stop
  have hm : m ≤ bytes.length := by omega
  refine ⟨⟨p, log⟩, hr, m, hm, hstart, bytesFrom_take hm ▸ h.consumed, ?_⟩
  rw [h.line, lineEnds_countP, lineEndsIn]
  congr 2
  refine List.countP_congr fun k hk => ?_
  rw [decide_eq_true_iff, decide_eq_true_iff, Int.zero_add]
  exact endsLine_iff hbehind ((List.mem_range.1 hk).trans_le hm)

end StringParser

end ToolLib.Common.ParserMemory
