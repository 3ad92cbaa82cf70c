import Mathlib.Logic.Function.Basic
import ToolLib.Common.ParserStream

/-!
# UserAgentParser

The loop of `UserAgentParser::Parse` takes the entries between `'('` and `')'` of a User-Agent apart with a `StringParser`
and keeps, for each field it knows, where the data of the first entry with its name is. `fields` reads the same entries
off the list of bytes, and `parseFields_spec` connects the two.
-/

namespace ToolLib.Common.UserAgentParser

open ToolLib.Base
open ToolLib.Common.ParserMemory
open ToolLib.Common.StringParser (sWhitespaceMask)

abbrev openParen : UInt8 := 40
abbrev closeParen : UInt8 := 41
abbrev semicolon : UInt8 := 59
abbrev equals : UInt8 := 61
abbrev percent : UInt8 := 37

inductive FieldID
  | eQtid
  | eQtver
  | eLang
  | eOs
  | eOsver
  | eCpu
  deriving DecidableEq

/-- `fAttrName` -/
def FieldID.name : FieldID → List UInt8
  | .eQtid => [113, 116, 105, 100]
  | .eQtver => [113, 116, 118, 101, 114]
  | .eLang => [108, 97, 110, 103]
  | .eOs => [111, 115]
  | .eOsver => [111, 115, 118, 101, 114]
  | .eCpu => [99, 112, 117]

def sFieldIDs : List FieldID := [.eQtid, .eQtver, .eLang, .eOs, .eOsver, .eCpu]

/-- "\t is a stop", "\r & \n are stop conditions", "' ' is a stop", "'=' is a stop" -/
def sEOLWhitespaceEqualMask (c : UInt8) : Bool := c = 9 || c = 10 || c = 13 || c = 32 || c = equals

/-- "\t is a stop", "\r & \n are stop conditions", "')' is a stop", "';' is a stop" -/
def sEOLSemicolonCloseParenMask (c : UInt8) : Bool := c = 9 || c = 10 || c = 13 || c = closeParen || c = semicolon

structure UserAgentData where
  fData : StrPtrLen
  fFound : Bool
  deriving DecidableEq

/-- `fFieldData` -/
abbrev FieldData := FieldID → UserAgentData

/-- `memset(&fFieldData, 0, ..)` -/
def cleared : FieldData := fun _ => ⟨⟨0, 0⟩, false⟩

section Parse

variable (buffer : Int → UInt8) (fEndGet : Int)

/-- The bytes that a `StrPtrLen` points to. -/
def bytesOf (s : StrPtrLen) : List UInt8 := bytesFrom buffer s.Ptr s.Len.toNat

/-- `ConsumeLength(NULL, 1)`: there is no byte to consume at the end -/
def consumeOne (parser : StringParser) : StringParser :=
  if parser.fStartGet < fEndGet then parser.advanceMark buffer else parser

/-- "search for non-white space" -/
def consumeWhitespace (parser : StringParser) : StringParser :=
  (parser.consumeUntilMask buffer fEndGet sWhitespaceMask).2

/-- The `for` loop over `sFieldIDs`. -/
def record (tempID tempData : StrPtrLen) (d : FieldData) : FieldData :=
  sFieldIDs.foldl (fun d fieldID =>
    if (d fieldID).fFound = false ∧ fieldID.name = bytesOf buffer tempID then Function.update d fieldID ⟨tempData, true⟩
    else d) d

/-- One turn of "parse through everything between the '(' and ')'". -/
def turn (s : StringParser × FieldData) : (StringParser × FieldData) ⊕ FieldData :=
  let parser := consumeOne buffer fEndGet s.1
  let parser := consumeWhitespace buffer fEndGet parser
  let (tempID, parser) := parser.consumeUntilMask buffer fEndGet sEOLWhitespaceEqualMask
  if tempID.Len = 0 then .inr s.2
  else
    let (_, parser) := parser.consumeUntil buffer fEndGet equals
    let parser := consumeOne buffer fEndGet parser
    let (tempData, parser) := parser.consumeUntilMask buffer fEndGet sEOLSemicolonCloseParenMask
    if tempData.Len = 0 then .inr s.2 else .inl (parser, record buffer tempID tempData s.2)

/-- `Parse` up to the end of its first loop, when that has `turns` turns at most. -/
def parseFields (turns : Nat) : Option FieldData :=
  let (startFields, parser) := StringParser.new.consumeUntil buffer fEndGet openParen
  if startFields.Len = 0 then some cleared else Loop.turns (turn buffer fEndGet) turns (parser, cleared)

end Parse

/-! ## The entries of a list of bytes -/

section Entries

open ToolLib.Common.StringParser (consumeUntil)

/-- What is in front of the `'='` and behind it, and what is left. -/
def entry (stream : List UInt8) : Option ((List UInt8 × List UInt8) × List UInt8) :=
  let (_, stream) := consumeUntil sWhitespaceMask (stream.drop 1)
  let (tempID, stream) := consumeUntil sEOLWhitespaceEqualMask stream
  if tempID = [] then none
  else
    let (_, stream) := consumeUntil (fun c => c = equals) stream
    let (tempData, stream) := consumeUntil sEOLSemicolonCloseParenMask (stream.drop 1)
    if tempData = [] then none else some ((tempID, tempData), stream)

/-- The entries, at most as many as there are bytes. -/
def entries : Nat → List UInt8 → List (List UInt8 × List UInt8)
  | 0, _ => []
  | n + 1, stream =>
    match entry stream with
    | none => []
    | some (x, stream) => x :: entries n stream

/-- The entries of a User-Agent: something has to be in front of the `'('`. -/
def fields (inStream : List UInt8) : List (List UInt8 × List UInt8) :=
  let (startFields, stream) := consumeUntil (fun c => c = openParen) inStream
  if startFields = [] then [] else entries inStream.length stream

end Entries

/-! ## Calls of the parser -/

section Calls

variable {b : Int → UInt8} {e : Int} {f : UInt8 → Bool} {c : UInt8} {p : StringParser}

/-- The parser is in the buffer, and has `stream` in front of it. -/
def At (b : Int → UInt8) (e : Int) (p : StringParser) (stream : List UInt8) : Prop :=
  0 ≤ p.fStartGet ∧ p.fStartGet ≤ e ∧ p.stream b e = stream

variable {stream : List UInt8}

theorem At.length (h : At b e p stream) : (stream.length : Int) = e - p.fStartGet := by
  obtain ⟨h0, he, rfl⟩ := h
  rw [StringParser.length_stream]
  omega

theorem At.consumeOne (h : At b e p stream) : At b e (consumeOne b e p) (stream.drop 1) := by
  obtain ⟨h0, he, rfl⟩ := h
  unfold UserAgentParser.consumeOne
  split
  next hlt =>
    have hm := Moved.advanceMark (b := b) h0 hlt
    have hstart := hm.start
    exact ⟨by omega, hm.stop, (StringParser.drop_stream hm).symm⟩
  next hstop => exact ⟨h0, he, by rw [StringParser.stream_end (Int.not_lt.1 hstop), List.drop_nil]⟩

/-- `ConsumeUntil` gives the place of what the function on lists gives. -/
theorem At.consumeUntilMask (h : At b e p stream) :
    ∃ (m : Nat) (p' : StringParser), p.consumeUntilMask b e f = (⟨p.fStartGet, m⟩, p') ∧
      bytesFrom b p.fStartGet m = (Common.StringParser.consumeUntil f stream).1 ∧
      At b e p' (Common.StringParser.consumeUntil f stream).2 ∧ p'.fStartGet = p.fStartGet + m := by
  obtain ⟨h0, he, rfl⟩ := h
  obtain ⟨m, p', hcall, hm, hbefore, hat⟩ := StringParser.consumeUntilMask_spec (b := b) (f := f) h0 he
  have hstream := StringParser.consumeUntil_stream hm hbefore hat
  have hstart := hm.start
  exact ⟨m, p', hcall, by rw [hstream], ⟨by omega, hm.stop, by rw [hstream]⟩, hstart⟩

end Calls

/-! ## The loop -/

/-- The place is in the input, and the bytes are there. -/
def Holds (buffer : Int → UInt8) (fEndGet : Int) (s : StrPtrLen) (bytes : List UInt8) : Prop :=
  0 ≤ s.Ptr ∧ s.Ptr + bytes.length ≤ fEndGet ∧ s.Len = bytes.length ∧ bytesOf buffer s = bytes

/-- What is known of a field when the entries are read. -/
def Keeps (buffer : Int → UInt8) (fEndGet : Int) (x : UserAgentData) : Option (List UInt8) → Prop
  | none => x.fFound = false
  | some data => x.fFound = true ∧ data ≠ [] ∧ Holds buffer fEndGet x.fData data

section Fields

variable {b : Int → UInt8} {e : Int} {p : StringParser} {d : FieldData} {x : UserAgentData} {fieldID : FieldID}
  {tempID tempData : StrPtrLen} {stream rest id data : List UInt8} {seen all : List (List UInt8 × List UInt8)} {n : Nat}

theorem record_apply (d : FieldData) (tempID tempData : StrPtrLen) (fieldID : FieldID) :
    record b tempID tempData d fieldID =
      if (d fieldID).fFound = false ∧ fieldID.name = bytesOf b tempID then ⟨tempData, true⟩ else d fieldID := by
  have hstep : ∀ (l : List FieldID) (d : FieldData), l.Nodup →
      l.foldl (fun d fieldID =>
        if (d fieldID).fFound = false ∧ fieldID.name = bytesOf b tempID then
          Function.update d fieldID ⟨tempData, true⟩ else d) d fieldID =
      if fieldID ∈ l ∧ (d fieldID).fFound = false ∧ fieldID.name = bytesOf b tempID then ⟨tempData, true⟩
      else d fieldID := by
    intro l
    induction l with
    | nil => simp
    | cons x l ih =>
      intro d hl
      obtain ⟨hx, hl⟩ := List.nodup_cons.1 hl
      rw [List.foldl_cons, ih _ hl]
      by_cases hfield : fieldID = x
      · -- its turn: later fields do not touch it
        subst hfield
        simp only [hx, false_and, if_false, List.mem_cons_self, true_and]
        split
        next => rw [Function.update_self]
        next => rfl
      · have hsame : ∀ g : Prop, [Decidable g] → (if g then Function.update d x ⟨tempData, true⟩ else d) fieldID =
            d fieldID := by
          intro g _
          split
          next => rw [Function.update_of_ne hfield]
          next => rfl
        simp only [hsame, List.mem_cons, hfield, false_or]
  have hall : fieldID ∈ sFieldIDs := by cases fieldID <;> decide
  rw [record, hstep _ _ (by decide)]
  simp only [hall, true_and]

/-- An entry is recorded for the field with its name, unless there has been one. -/
theorem keeps_record (h : Keeps b e (d fieldID) (seen.lookup fieldID.name)) (hid : bytesOf b tempID = id)
    (hdata : Holds b e tempData data) (hne : data ≠ []) :
    Keeps b e (record b tempID tempData d fieldID) ((seen ++ [(id, data)]).lookup fieldID.name) := by
  rw [record_apply, List.lookup_append, hid]
  cases hseen : seen.lookup fieldID.name with
  | some data' =>
    rw [hseen] at h
    rw [if_neg (by rw [h.1]; simp), Option.some_or]
    exact h
  | none =>
    rw [hseen] at h
    have hfree : (d fieldID).fFound = false := h
    by_cases hname : fieldID.name = id
    · rw [if_pos ⟨hfree, hname⟩, hname, Option.none_or, List.lookup_cons_self]
      exact ⟨rfl, hne, hdata⟩
    · rw [if_neg (fun hc => hname hc.2), Option.none_or, List.lookup_cons, beq_false_of_ne hname]
      exact h

/-- A turn reads the next entry. -/
theorem turn_spec (h : At b e p stream) :
    (entry stream = none ∧ turn b e (p, d) = .inr d) ∨
      ∃ id data rest tempID tempData p', entry stream = some ((id, data), rest) ∧ At b e p' rest ∧
        p.fStartGet < p'.fStartGet ∧ bytesOf b tempID = id ∧ Holds b e tempData data ∧ data ≠ [] ∧
        turn b e (p, d) = .inl (p', record b tempID tempData d) := by
  have h₁ := h.consumeOne
  obtain ⟨m₂, p₂, hcall₂, -, h₂, hstart₂⟩ := h₁.consumeUntilMask (f := sWhitespaceMask)
  obtain ⟨m₃, p₃, hcall₃, hid, h₃, hstart₃⟩ := h₂.consumeUntilMask (f := sEOLWhitespaceEqualMask)
  obtain ⟨m₄, p₄, hcall₄, -, h₄, hstart₄⟩ := h₃.consumeUntilMask (f := fun c => c = equals)
  have h₅ := h₄.consumeOne
  obtain ⟨m₆, p₆, hcall₆, hdata, h₆, hstart₆⟩ := h₅.consumeUntilMask (f := sEOLSemicolonCloseParenMask)
  have hlen := congrArg List.length hid
  have hlen' := congrArg List.length hdata
  rw [length_bytesFrom] at hlen hlen'
  have hcall₄ : p₃.consumeUntil b e equals = _ := hcall₄
  unfold turn entry consumeWhitespace
  simp only [hcall₂, hcall₃, hcall₄, hcall₆]
  by_cases hidnil : (Common.StringParser.consumeUntil sEOLWhitespaceEqualMask
      (Common.StringParser.consumeUntil sWhitespaceMask (stream.drop 1)).2).1 = []
  · rw [hidnil, List.length_nil] at hlen
    exact Or.inl ⟨if_pos hidnil, by rw [hlen]; rfl⟩
  · have hpos := List.length_pos_iff.2 hidnil
    have hm₃ : ¬ (m₃ : Int) = 0 := by omega
    rw [if_neg hidnil, if_neg hm₃]
    split
    next hdatanil =>
      rw [hdatanil, List.length_nil] at hlen'
      exact Or.inl ⟨rfl, by rw [hlen']; rfl⟩
    next hdatane =>
      have hpos' := List.length_pos_iff.2 hdatane
      have hstart₁ : p.fStartGet ≤ (consumeOne b e p).fStartGet := by
        have hlen₀ := h.length
        have hlen₁ := h₁.length
        rw [List.length_drop] at hlen₁
        omega
      have hstart₅ : p₄.fStartGet ≤ (consumeOne b e p₄).fStartGet := by
        have hlen₄ := h₄.length
        have hlen₅ := h₅.length
        rw [List.length_drop] at hlen₅
        omega
      refine Or.inr ⟨_, _, _, ⟨p₂.fStartGet, m₃⟩, ⟨(consumeOne b e p₄).fStartGet, m₆⟩, p₆, rfl, h₆, by omega, hid,
        ⟨h₅.1, ?_, congrArg Nat.cast hlen', hdata⟩, hdatane, if_neg fun hzero => ?_⟩
      · have hstop := h₆.2.1
        show (consumeOne b e p₄).fStartGet + _ ≤ e
        omega
      · have hzero : (m₆ : Int) = 0 := hzero
        omega

/-- **The loop reads the entries** one after another, and ends. -/
theorem turns_spec (h : At b e p stream) (hn : stream.length ≤ n)
    (hkeeps : ∀ fieldID, Keeps b e (d fieldID) (seen.lookup fieldID.name)) :
    ∃ d', Loop.turns (turn b e) (n + 1) (p, d) = some d' ∧
      ∀ fieldID, Keeps b e (d' fieldID) ((seen ++ entries n stream).lookup fieldID.name) := by
  induction n generalizing p stream d seen with
  | zero =>
    -- nothing is left, so there is no entry
    have hnil : stream = [] := List.length_eq_zero_iff.1 (by omega)
    subst hnil
    rcases turn_spec (d := d) h with ⟨-, hturn⟩ | ⟨id, data, rest, tempID, tempData, p', hentry, -⟩
    · exact ⟨d, Loop.turns_succ_inr hturn, by simpa [entries] using hkeeps⟩
    · cases hentry
  | succ n ih =>
    rcases turn_spec (d := d) h with ⟨hentry, hturn⟩ |
      ⟨id, data, rest, tempID, tempData, p', hentry, h', hlt, hid, hdata, hne, hturn⟩
    · refine ⟨d, Loop.turns_succ_inr hturn, ?_⟩
      rw [entries, hentry, List.append_nil]
      exact hkeeps
    · have hlen := h.length
      have hlen' := h'.length
      obtain ⟨d', hturns, hkeeps'⟩ := ih h' (by omega) fun fieldID => keeps_record (hkeeps fieldID) hid hdata hne
      refine ⟨d', by rw [Loop.turns_succ_inl hturn, hturns], ?_⟩
      rw [entries, hentry]
      simpa only [List.append_assoc, List.singleton_append] using hkeeps'

/-- **The loop of `Parse`** ends, and every field is found that has an entry; it is where its first entry has its data. -/
theorem parseFields_spec (inStream : List UInt8) (behind : Int → UInt8) :
    ∃ d, parseFields (memory inStream behind) inStream.length (inStream.length + 1) = some d ∧
      ∀ fieldID, Keeps (memory inStream behind) inStream.length (d fieldID) ((fields inStream).lookup fieldID.name) := by
  have h : At (memory inStream behind) inStream.length .new inStream := by
    refine ⟨Int.le_refl 0, Int.natCast_nonneg _, ?_⟩
    show bytesFrom _ 0 ((inStream.length : Int) - 0).toNat = inStream
    have hlen : ((inStream.length : Int) - 0).toNat = inStream.length := by omega
    rw [hlen, bytesFrom_take (Nat.le_refl _), List.take_length]
  obtain ⟨m, p, hcall, hstart, hp, -⟩ := h.consumeUntilMask (f := fun c => c = openParen)
  have hlen := congrArg List.length hstart
  rw [length_bytesFrom] at hlen
  have hcall : StringParser.new.consumeUntil (memory inStream behind) inStream.length openParen = _ := hcall
  unfold parseFields fields
  simp only [hcall]
  split
  next hzero =>
    rw [if_pos (List.length_eq_zero_iff.1 (by omega))]
    exact ⟨cleared, rfl, fun fieldID => rfl⟩
  next hpos =>
    rw [if_neg fun hnil => hpos (by rw [hnil, List.length_nil] at hlen; omega)]
    have hnone (fieldID : FieldID) : Keeps (memory inStream behind) inStream.length (cleared fieldID)
        (([] : List (List UInt8 × List UInt8)).lookup fieldID.name) := rfl
    refine turns_spec hp ?_ hnone
    exact List.Sublist.length_le (List.dropWhile_sublist _)

end Fields

end ToolLib.Common.UserAgentParser
