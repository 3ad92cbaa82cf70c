import ToolLib.Base.Loop
import ToolLib.Base.Strings
import ToolLib.Common.QueryLookup

/-!
# DecodeArg in place

`QueryParamList::DecodeArg` with its pointers: `curChar` moves through the argument, `destPtr` writes the decoded
characters over it. Addresses count from the start of the argument. An escape withholds its first two characters until it
is known what it is; a bad escape puts them back, an escape that the end of the argument cuts off loses them.

`decodeArg_inverse_in_place`: what has been encoded comes back, and for any argument nothing is written that has not been
read, and the result has its terminator within the argument.
-/

namespace ToolLib.Common.DecodeArg

open ToolLib.Base
open ToolLib.Common.QueryParamList (LineState decodeLoop Encodes plus space)
open ToolLib.Common.StringTranslator (percent hexDigit)

/-- The variables of `DecodeArg`, memory, and what has been accessed. -/
structure Decoding where
  memory : Int → UInt8
  destPtr : Int
  curChar : Int
  lineState : LineState
  accesses : List (Access Unit)

namespace Decoding

def new (memory : Int → UInt8) : Decoding := ⟨memory, 0, 0, .kLastWasText, []⟩

/-- `*destPtr++ = c` -/
def put (s : Decoding) (c : UInt8) : Decoding :=
  { s with
    memory := Function.update s.memory s.destPtr c
    destPtr := s.destPtr + 1
    accesses := .write () s.destPtr :: s.accesses }

/-- The `switch` of `DecodeArg` at the character `c`. -/
def character (s : Decoding) (c : UInt8) : Decoding :=
  match s.lineState with
  | .kRcvHexDigitOne hexBuff =>
    match hexDigit hexBuff, hexDigit c with
    | some high, some low => { s.put (16 * high + low) with lineState := .kLastWasText }
    -- "put back the pct sign", "put back the first digit too", "and this one!"
    | _, _ => { ((s.put percent).put hexBuff).put c with lineState := .kLastWasText }
  | .kLastWasText =>
    if c = percent then { s with lineState := .kPctEscape }
    else if c = plus then s.put space
    else s.put c
  | .kPctEscape =>
    if c = percent then { s.put percent with lineState := .kLastWasText }
    else if (hexDigit c).isSome then { s with lineState := .kRcvHexDigitOne c }
    else { (s.put percent).put c with lineState := .kLastWasText }

/-- One turn of the loop of `DecodeArg`, and what is done behind it. -/
def turn (s : Decoding) : Decoding ⊕ Decoding :=
  let s' := { s with accesses := .read () s.curChar :: s.accesses }
  let c := s.memory s.curChar
  if c = 0 then
    .inr { s' with
      memory := Function.update s.memory s.destPtr c
      accesses := .write () s.destPtr :: s'.accesses }
  else .inl { s'.character c with curChar := s.curChar + 1 }

end Decoding

open Decoding

/-- The characters of an escape that have been read and not written. -/
def withheld : LineState → Nat
  | .kLastWasText => 0
  | .kPctEscape => 1
  | .kRcvHexDigitOne _ => 2

/-- Characters are written one after another. -/
def Decoding.puts (s : Decoding) : List UInt8 → Decoding
  | [] => s
  | c :: cs => (s.put c).puts cs

section Puts

variable {s : Decoding} {c : UInt8} {cs rest : List UInt8}

theorem memory_puts : (s.puts cs).memory = store s.memory s.destPtr cs := by
  induction cs generalizing s with
  | nil => rfl
  | cons c cs ih => rw [Decoding.puts, ih]; rfl

theorem destPtr_puts : (s.puts cs).destPtr = s.destPtr + cs.length := by
  induction cs generalizing s with
  | nil => simp [Decoding.puts]
  | cons c cs ih =>
    have hput : (s.put c).destPtr = s.destPtr + 1 := rfl
    rw [Decoding.puts, ih, hput, List.length_cons]
    omega

theorem mem_accesses_puts {a : Access Unit} (h : a ∈ s.accesses) : a ∈ (s.puts cs).accesses := by
  induction cs generalizing s with
  | nil => exact h
  | cons c cs ih => exact ih (List.mem_cons_of_mem _ h)

/-- All bytes that are overwritten have been read, and are inside. -/
theorem accesses_puts {first past : Unit → Int} (hread : ∀ i, s.destPtr ≤ i → i < s.destPtr + cs.length →
      Access.read () i ∈ s.accesses)
    (hbefore : Access.ReadBefore () s.accesses) (hinside : Access.Inside first past s.accesses) :
    Access.ReadBefore () (s.puts cs).accesses ∧ Access.Inside first past (s.puts cs).accesses := by
  induction cs generalizing s with
  | nil => exact ⟨hbefore, hinside⟩
  | cons c cs ih =>
    rw [List.length_cons] at hread
    have hhere : Access.read () s.destPtr ∈ s.accesses := hread _ (Int.le_refl _) (by omega)
    refine ih (fun i hi hlt => ?_) ?_ ?_
    · have hi : s.destPtr + 1 ≤ i := hi
      have hlt : i < s.destPtr + 1 + cs.length := hlt
      exact List.mem_cons_of_mem _ (hread i (by omega) (by omega))
    · exact Access.readBefore_cons.2 ⟨fun i hi => (by cases hi; exact hhere), hbefore⟩
    · exact Access.inside_cons.2 ⟨hinside (.read () s.destPtr) hhere, hinside⟩

/-- **What the `switch` does**: it writes the characters that are decoded now, and withholds the others. -/
theorem character_spec (s : Decoding) (c : UInt8) : ∃ cs st, s.character c = { s.puts cs with lineState := st } ∧
    cs.length + withheld st ≤ withheld s.lineState + 1 ∧
    ∀ rest, decodeLoop s.lineState (c :: rest) = cs ++ decodeLoop st rest := by
  obtain ⟨memory, destPtr, curChar, lineState, accesses⟩ := s
  cases lineState with
  | kLastWasText =>
    by_cases hpercent : c = percent
    · exact ⟨[], .kPctEscape, by simp [character, hpercent, Decoding.puts], by simp [withheld],
        fun rest => by simp [decodeLoop, hpercent]⟩
    · by_cases hplus : c = plus
      · exact ⟨[space], .kLastWasText, by simp [character, hpercent, if_pos hplus, Decoding.puts, put], by simp [withheld],
          fun rest => by simp [decodeLoop, hpercent, if_pos hplus]⟩
      · exact ⟨[c], .kLastWasText, by simp [character, hpercent, hplus, Decoding.puts, put], by simp [withheld],
          fun rest => by simp [decodeLoop, hpercent, hplus]⟩
  | kPctEscape =>
    by_cases hpercent : c = percent
    · exact ⟨[percent], .kLastWasText, by simp [character, hpercent, Decoding.puts], by simp [withheld],
        fun rest => by simp [decodeLoop, hpercent]⟩
    · by_cases hdigit : (hexDigit c).isSome
      · exact ⟨[], .kRcvHexDigitOne c, by simp [character, hpercent, hdigit, Decoding.puts], by simp [withheld],
          fun rest => by simp [decodeLoop, hpercent, hdigit]⟩
      · exact ⟨[percent, c], .kLastWasText, by simp [character, hpercent, hdigit, Decoding.puts], by simp [withheld],
          fun rest => by simp [decodeLoop, hpercent, hdigit]⟩
  | kRcvHexDigitOne hexBuff =>
    cases hhigh : hexDigit hexBuff with
    | none =>
      exact ⟨[percent, hexBuff, c], .kLastWasText, by simp [character, hhigh, Decoding.puts], by simp [withheld],
        fun rest => by simp [decodeLoop, hhigh]⟩
    | some high =>
      cases hlow : hexDigit c with
      | none =>
        exact ⟨[percent, hexBuff, c], .kLastWasText, by simp [character, hhigh, hlow, Decoding.puts],
          by simp [withheld], fun rest => by simp [decodeLoop, hhigh, hlow]⟩
      | some low =>
        exact ⟨[16 * high + low], .kLastWasText, by simp [character, hhigh, hlow, Decoding.puts], by simp [withheld],
          fun rest => by simp [decodeLoop, hhigh, hlow]⟩

end Puts

/-! ## The loop -/

/-- The argument is `text` and `rest` of it is left; `out` has been written, all of it behind the place where the loop
reads, and what is withheld would fit too. -/
structure Reached (m₀ : Int → UInt8) (text : List UInt8) (s : Decoding) (out rest : List UInt8) : Prop where
  unread : IsString s.memory s.curChar rest
  place : 0 ≤ s.curChar ∧ s.curChar + rest.length = text.length
  dest : s.destPtr = out.length
  behind : s.destPtr + withheld s.lineState ≤ s.curChar
  written : bytesFrom s.memory 0 out.length = out
  decoded : out ++ decodeLoop s.lineState rest = decodeLoop .kLastWasText text
  elsewhere : ∀ j, j < 0 ∨ s.curChar ≤ j → s.memory j = m₀ j
  have_read : ∀ i, 0 ≤ i → i < s.curChar → Access.read () i ∈ s.accesses
  readBefore : Access.ReadBefore () s.accesses
  inside : Access.Inside (fun _ => 0) (fun _ => text.length + 1) s.accesses

section Loop

variable {m₀ : Int → UInt8} {text out rest : List UInt8} {c : UInt8} {s s' : Decoding}

theorem reached_new (h : IsString m₀ 0 text) : Reached m₀ text (new m₀) [] text where
  unread := h
  place := ⟨Int.le_refl 0, Int.zero_add _⟩
  dest := rfl
  behind := Int.le_refl 0
  written := rfl
  decoded := rfl
  elsewhere _ _ := rfl
  have_read _ hi hlt := absurd hlt (Int.not_lt.2 hi)
  readBefore := trivial
  inside := Access.inside_nil

/-- A turn at a character. -/
theorem Reached.turn_cons (h : Reached m₀ text s out (c :: rest)) :
    ∃ s' out', s.turn = .inl s' ∧ Reached m₀ text s' out' rest := by
  obtain ⟨⟨hc, hne⟩, hrest⟩ := h.unread
  obtain ⟨hplace, hlen⟩ := h.place
  rw [List.length_cons] at hlen
  have hdest := h.dest
  have hbehind := h.behind
  -- the read, and the `switch` behind it
  obtain ⟨cs, st, hswitch, hcount, hdecode⟩ :=
    character_spec { s with accesses := .read () s.curChar :: s.accesses } c
  have hcount : cs.length + withheld st ≤ withheld s.lineState + 1 := hcount
  have hread : ∀ i, 0 ≤ i → i < s.curChar + 1 → Access.read () i ∈ Access.read () s.curChar :: s.accesses := by
    intro i hi hlt
    by_cases hlast : i = s.curChar
    · rw [hlast]
      exact List.mem_cons_self
    · exact List.mem_cons_of_mem _ (h.have_read i hi (by omega))
  have haccesses := @accesses_puts { s with accesses := .read () s.curChar :: s.accesses } cs _ _
    (fun i hi hlt => hread i (by dsimp only at hi; omega) (by dsimp only at hlt; omega))
    (Access.readBefore_cons.2 ⟨fun _ heq => (by cases heq), h.readBefore⟩)
    (Access.inside_cons.2 ⟨⟨hplace, by show s.curChar < text.length + 1; omega⟩, h.inside⟩)
  refine ⟨_, out ++ cs, by rw [turn, if_neg (by rw [hc]; exact hne), hc, hswitch], ?_⟩
  refine ⟨?_, ⟨?_, ?_⟩, ?_, ?_, ?_, ?_, ?_, ?_, haccesses.1, haccesses.2⟩
  · show IsString (Decoding.puts _ cs).memory (s.curChar + 1) rest
    rw [memory_puts]
    refine hrest.of_eq fun j hj _ => store_of_outside (Or.inr ?_)
    dsimp only
    omega
  · show 0 ≤ s.curChar + 1
    omega
  · show s.curChar + 1 + rest.length = text.length
    omega
  · show (Decoding.puts _ cs).destPtr = (out ++ cs).length
    rw [destPtr_puts, List.length_append]
    show s.destPtr + cs.length = _
    omega
  · show (Decoding.puts _ cs).destPtr + withheld st ≤ s.curChar + 1
    rw [destPtr_puts]
    show s.destPtr + cs.length + withheld st ≤ _
    omega
  · show bytesFrom (Decoding.puts _ cs).memory 0 (out ++ cs).length = out ++ cs
    have hdest' : s.destPtr = 0 + (out.length : Int) := by omega
    rw [memory_puts, List.length_append]
    show bytesFrom (store s.memory s.destPtr cs) 0 (out.length + cs.length) = _
    rw [hdest', bytesFrom_store_behind, h.written]
  · rw [List.append_assoc, ← hdecode rest]
    exact h.decoded
  · intro j hj
    have hj : j < 0 ∨ s.curChar + 1 ≤ j := hj
    show (Decoding.puts _ cs).memory j = _
    rw [memory_puts, store_of_outside (by dsimp only; omega)]
    exact h.elsewhere j (by omega)
  · intro i hi hlt
    exact mem_accesses_puts (hread i hi hlt)

/-- What holds when the loop has ended: all of the argument has been decoded, and the terminator is behind it. -/
structure Decoded (m₀ : Int → UInt8) (text : List UInt8) (s : Decoding) : Prop where
  written : bytesFrom s.memory 0 (decodeLoop .kLastWasText text).length = decodeLoop .kLastWasText text
  terminated : s.destPtr = (decodeLoop .kLastWasText text).length ∧ s.memory s.destPtr = 0
  short : s.destPtr ≤ text.length
  elsewhere : ∀ j, j < 0 ∨ text.length < j → s.memory j = m₀ j
  readBefore : Access.ReadBefore () s.accesses
  inside : Access.Inside (fun _ => 0) (fun _ => text.length + 1) s.accesses

/-- The turn at the terminator. -/
theorem Reached.turn_nil (h : Reached m₀ text s out []) : ∃ s', s.turn = .inr s' ∧ Decoded m₀ text s' := by
  have hstop : s.memory s.curChar = 0 := h.unread
  obtain ⟨hplace, hlen⟩ := h.place
  have hdest := h.dest
  have hbehind := h.behind
  have hdecoded := h.decoded
  simp only [decodeLoop, List.append_nil, List.length_nil] at hdecoded hlen
  refine ⟨_, by rw [turn, if_pos hstop, hstop], ?_⟩
  refine ⟨?_, ⟨hdecoded ▸ hdest, Function.update_self ..⟩, by show s.destPtr ≤ _; omega, fun j hj => ?_, ?_, ?_⟩
  · rw [← hdecoded]
    show bytesFrom (Function.update s.memory s.destPtr 0) 0 out.length = out
    rw [bytesFrom_update (by omega), h.written]
  · show Function.update s.memory s.destPtr 0 j = m₀ j
    rw [Function.update_of_ne (by omega)]
    exact h.elsewhere j (by omega)
  · refine Access.readBefore_cons.2 ⟨fun i heq => ?_, Access.readBefore_cons.2 ⟨fun _ heq => (by cases heq), h.readBefore⟩⟩
    cases heq
    by_cases hlast : s.destPtr = s.curChar
    · rw [hlast]
      exact List.mem_cons_self
    · exact List.mem_cons_of_mem _ (h.have_read _ (by omega) (by omega))
  · refine Access.inside_cons.2 ⟨?_, Access.inside_cons.2 ⟨?_, h.inside⟩⟩
    · show 0 ≤ s.destPtr ∧ s.destPtr < text.length + 1
      omega
    · show 0 ≤ s.curChar ∧ s.curChar < text.length + 1
      omega

theorem Reached.ends (h : Reached m₀ text s out rest) : ∃ s', Loop.Ends turn s s' ∧ Decoded m₀ text s' := by
  induction rest generalizing s out with
  | nil =>
    obtain ⟨s', hturn, hs'⟩ := h.turn_nil
    exact ⟨s', Loop.ends_inr hturn, hs'⟩
  | cons c rest ih =>
    obtain ⟨s₁, out', hturn, h₁⟩ := h.turn_cons
    obtain ⟨s', hends, hs'⟩ := ih h₁
    exact ⟨s', (Loop.ends_inl hturn).2 hends, hs'⟩

theorem Reached.heads (h : Reached m₀ text s out rest) (hs : Loop.Heads turn s s') :
    ∃ out' rest', Reached m₀ text s' out' rest' := by
  refine Loop.heads_inv (I := fun s => ∃ out rest, Reached m₀ text s out rest) ?_ ⟨out, rest, h⟩ hs
  rintro s s₁ ⟨out, _ | ⟨c, rest⟩, h⟩ hturn
  · obtain ⟨s', hturn', -⟩ := h.turn_nil
    rw [hturn'] at hturn
    cases hturn
  · obtain ⟨s', out', hturn', h'⟩ := h.turn_cons
    rw [hturn'] at hturn
    cases hturn
    exact ⟨out', rest, h'⟩

end Loop

/-! ## DecodeArg -/

/-- `DecodeArg` of an argument that is not `NULL`, when its loop has `turns` turns at most. -/
def decodeArg (turns : Nat) (ioCodedPtr : Int → UInt8) : Option Decoding := Loop.turns turn turns (new ioCodedPtr)

/-- What decoding in place has to keep to. -/
structure InPlace (m₀ : Int → UInt8) (text : List UInt8) : Prop where
  /-- The write position is not ahead of the read position when a turn begins. -/
  behind : ∀ s, Loop.Heads turn (new m₀) s → s.destPtr ≤ s.curChar
  /-- The call returns. No byte is written that has not been read, all accesses are to the argument with its terminator,
  and the result is terminated at the write position, no further than the argument is long. -/
  returns : ∃ turns s, decodeArg turns m₀ = some s ∧ Access.ReadBefore () s.accesses ∧
    Access.Inside (fun _ => 0) (fun _ => text.length + 1) s.accesses ∧
    (∀ j, j < 0 ∨ text.length < j → s.memory j = m₀ j) ∧
    s.memory s.destPtr = 0 ∧ 0 ≤ s.destPtr ∧ s.destPtr ≤ text.length

/-- **Decoding undoes every encoding, and works in place on every argument.** `Encodes 0` has no character that must be
escaped because it separates something. -/
theorem decodeArg_inverse_in_place (m₀ : Int → UInt8) (text : List UInt8) (h : IsString m₀ 0 text) :
    (∀ x, Encodes 0 text x → ∃ turns s, decodeArg turns m₀ = some s ∧ IsString s.memory 0 x) ∧ InPlace m₀ text := by
  obtain ⟨s, ⟨turns, hturns⟩, hs⟩ := (reached_new h).ends
  refine ⟨fun x hx => ⟨turns, s, hturns, ?_⟩, fun s' hs' => ?_, turns, s, hturns, hs.readBefore, hs.inside, hs.elsewhere,
    hs.terminated.2, by rw [hs.terminated.1]; exact Int.natCast_nonneg _, hs.short⟩
  · have hdecode := hx.decodeLoop_eq
    refine isString_iff.2 ⟨⟨?_, ?_⟩, hx.not_zero⟩
    · exact hdecode ▸ hs.written
    · have hstop := hs.terminated.2
      rwa [hs.terminated.1, hdecode, ← Int.zero_add (x.length : Int)] at hstop
  · obtain ⟨out, rest, h'⟩ := (reached_new h).heads hs'
    have hbehind := h'.behind
    omega

/-- The argument `"a+%41"` stands for `"a A"`. -/
theorem decodeArg_inverse_in_place_escape : (∃ turns s,
    decodeArg turns (memory [97, 43, 37, 52, 49, 0] fun _ => 1) = some s ∧ IsString s.memory 0 [97, 32, 65]) ∧
      InPlace (memory [97, 43, 37, 52, 49, 0] fun _ => 1) [97, 43, 37, 52, 49] := by
  have h := decodeArg_inverse_in_place (memory [97, 43, 37, 52, 49, 0] fun _ => 1) [97, 43, 37, 52, 49] (by decide)
  have henc : Encodes 0 [97, 43, 37, 52, 49] [97, 32, 65] :=
    .literal (by decide) (.space (.escape (a := 4) (b := 1) (by decide) (by decide) (by decide) .nil))
  exact ⟨h.1 _ henc, h.2⟩

end ToolLib.Common.DecodeArg
