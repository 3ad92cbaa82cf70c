import Mathlib.Data.List.DropRight
import ToolLib.Base.Loop
import ToolLib.Common.StringParser
import ToolLib.Common.StringTranslator

/-!
# QueryParamList

`BulidList` of QueryParamList.cpp takes a query string apart, decodes names and values, and puts the pairs into a
`PLDoubleLinkedList`, which is a list with `fHead` first. A `char*` is what it points to up to the terminator.

`bulidList_ends_iff` says when the loop of `BulidList` ends: a round makes no progress when all that is left is a name
and `'='`.
-/

namespace ToolLib.Common.QueryParamList

open ToolLib.Base
open ToolLib.Common.StringParser (consumeUntil)
open ToolLib.Common.StringTranslator (percent hexDigit)

abbrev equals : UInt8 := 61
abbrev ampersand : UInt8 := 38
abbrev plus : UInt8 := 43
abbrev space : UInt8 := 32

/-! ## Decoding -/

/-- What a pointer to these bytes points to as a string. -/
def cString (bytes : List UInt8) : List UInt8 := bytes.takeWhile (· ≠ 0)

/-- The states of `DecodeArg`; `hexBuff[2]` is the first digit. -/
inductive LineState
  | kLastWasText
  | kPctEscape
  | kRcvHexDigitOne (hexBuff : UInt8)
  deriving DecidableEq

/-- The loop of `DecodeArg`: what is written to `destPtr`. -/
def decodeLoop : LineState → List UInt8 → List UInt8
  | _, [] => []
  | .kRcvHexDigitOne hexBuff, curChar :: rest =>
    match hexDigit hexBuff, hexDigit curChar with
    | some high, some low => (16 * high + low) :: decodeLoop .kLastWasText rest
    -- "put back the pct sign", "put back the first digit too", "and this one!"
    | _, _ => percent :: hexBuff :: curChar :: decodeLoop .kLastWasText rest
  | .kLastWasText, curChar :: rest =>
    if curChar = percent then decodeLoop .kPctEscape rest
    else (if curChar = plus then space else curChar) :: decodeLoop .kLastWasText rest
  | .kPctEscape, curChar :: rest =>
    if curChar = percent then percent :: decodeLoop .kLastWasText rest
    else if (hexDigit curChar).isSome then decodeLoop (.kRcvHexDigitOne curChar) rest
    else percent :: curChar :: decodeLoop .kLastWasText rest

/-- `DecodeArg`: the string that is there afterwards. A byte that is decoded to 0 ends it. -/
def decodeArg (ioCodedPtr : List UInt8) : List UInt8 := cString (decodeLoop .kLastWasText ioCodedPtr)

/-! ## The list -/

structure QueryParamListElement where
  mName : List UInt8
  mValue : List UInt8
  deriving DecidableEq

/-- `AddNode`: the new node is the head. -/
def addNode (node : QueryParamListElement) (list : List QueryParamListElement) : List QueryParamListElement :=
  node :: list

def addNameValuePairToList (name value : List UInt8) (list : List QueryParamListElement) : List QueryParamListElement :=
  addNode ⟨decodeArg name, decodeArg value⟩ list

/-! ## BulidList -/

/-- What is left in `queryParser`, and `fNameValueQueryParamlist`. -/
structure Building where
  stream : List UInt8
  list : List QueryParamListElement
  deriving DecidableEq

/-- One round of `BulidList`. `ConsumeLength(.., 1)` takes nothing from a stream that is at its end. -/
def turn (s : Building) : Building ⊕ Building :=
  if s.stream = [] then .inr s
  else
    let (theCGIParamName, stream) := consumeUntil (fun c => c = equals) s.stream
    if 1 < stream.length then
      let (theCGIParamValue, stream) := consumeUntil (fun c => c = ampersand) (stream.drop 1)
      .inl ⟨stream.drop 1, addNameValuePairToList (cString theCGIParamName) (cString theCGIParamValue) s.list⟩
    else .inl ⟨stream, s.list⟩

/-- All that is left is a name and `'='`. -/
def Stuck (stream : List UInt8) : Prop := ∃ name, equals ∉ name ∧ stream = name ++ [equals]

/-- What is behind the last `'&'`. -/
def lastPiece (stream : List UInt8) : List UInt8 := stream.rtakeWhile (· ≠ ampersand)

section Pieces

variable {stream more name p q : List UInt8}

theorem not_stuck_of_not_mem (h : equals ∉ stream) : ¬ Stuck stream := by
  rintro ⟨name, -, rfl⟩
  exact h (List.mem_append_right _ List.mem_cons_self)

/-- Something is behind an `'='`. -/
theorem not_stuck_append (hmore : more ≠ []) : ¬ Stuck (p ++ equals :: more) := by
  rintro ⟨name, hname, heq⟩
  obtain ⟨more', c, rfl⟩ := List.eq_nil_or_concat more |>.resolve_left hmore
  rw [List.concat_eq_append] at heq
  have hsplit : (p ++ equals :: more') ++ [c] = name ++ [equals] := by
    rw [← heq, List.append_assoc]
    rfl
  rw [← (List.append_inj' hsplit rfl).1] at hname
  exact hname (List.mem_append_right _ List.mem_cons_self)

theorem takeWhile_stop {f : UInt8 → Bool} {c : UInt8} (hc : f c = false) : (p ++ c :: q).takeWhile f = p.takeWhile f := by
  induction p with
  | nil => simp [hc]
  | cons a p ih => simp only [List.cons_append, List.takeWhile_cons, ih]

theorem lastPiece_ampersand : lastPiece (p ++ ampersand :: q) = lastPiece q := by
  rw [lastPiece, List.rtakeWhile, List.reverse_append, List.reverse_cons, List.append_assoc]
  exact congrArg List.reverse (takeWhile_stop (by decide))

theorem lastPiece_append (hq : ampersand ∉ q) : lastPiece (p ++ q) = lastPiece p ++ q := by
  have hall : ∀ c ∈ q.reverse, decide (c ≠ ampersand) = true := by
    intro c hc
    exact decide_eq_true fun heq => hq (heq ▸ List.mem_reverse.1 hc)
  rw [lastPiece, List.rtakeWhile, List.reverse_append, List.takeWhile_append_of_pos hall, List.reverse_append,
    List.reverse_reverse]
  rfl

theorem mem_of_mem_lastPiece {c : UInt8} (h : c ∈ lastPiece p) : c ∈ p := List.rtakeWhile_suffix _ _ |>.subset h

theorem consumeUntil_of_not_mem {c : UInt8} (h : c ∉ stream) : consumeUntil (fun x => x = c) stream = (stream, []) := by
  have hall : ∀ x ∈ stream, (!decide (x = c)) = true := by
    intro x hx
    have hne : x ≠ c := fun heq => h (heq ▸ hx)
    simp [hne]
  rw [consumeUntil, List.takeWhile_eq_self_iff.2 hall, List.dropWhile_eq_nil_iff.2 hall]

theorem consumeUntil_append {c : UInt8} (h : c ∉ p) : consumeUntil (fun x => x = c) (p ++ c :: q) = (p, c :: q) := by
  induction p with
  | nil => simp [consumeUntil]
  | cons a p ih =>
    obtain ⟨hne, hp⟩ : c ≠ a ∧ c ∉ p := by simpa using h
    have hstep := ih hp
    simp only [consumeUntil, Prod.mk.injEq] at hstep
    simp [consumeUntil, Ne.symm hne, hstep]

/-- A round with a name and something behind its `'='`. -/
theorem turn_pair (list : List QueryParamListElement) (hname : equals ∉ name) (hmore : more ≠ []) :
    turn ⟨name ++ equals :: more, list⟩ = .inl ⟨(consumeUntil (fun c => c = ampersand) more).2.drop 1,
      addNameValuePairToList (cString name) (cString (consumeUntil (fun c => c = ampersand) more).1) list⟩ := by
  have hpos := List.length_pos_iff.2 hmore
  unfold turn
  rw [if_neg (by simp), consumeUntil_append hname]
  exact if_pos (by rw [List.length_cons]; omega)

/-- A round keeps what is behind the last `'&'`, and makes progress unless all that is left is a name and `'='`. -/
theorem turn_spec (list : List QueryParamListElement) (hs : stream ≠ []) : ∃ s', turn ⟨stream, list⟩ = .inl s' ∧
    (Stuck (lastPiece s'.stream) ↔ Stuck (lastPiece stream)) ∧
    (¬ Stuck (lastPiece stream) → s'.stream.length < stream.length) := by
  by_cases hmem : equals ∈ stream
  · obtain ⟨name, more, rfl, hname⟩ := List.eq_append_cons_of_mem hmem
    by_cases hmore : more = []
    · -- only the `'='` is left
      have hstuck : Stuck (lastPiece (name ++ [equals])) := by
        rw [lastPiece_append (by decide)]
        exact ⟨_, fun h => hname (mem_of_mem_lastPiece h), rfl⟩
      rw [hmore]
      refine ⟨⟨[equals], list⟩, ?_, iff_of_true ⟨[], List.not_mem_nil, rfl⟩ hstuck, fun hnot => absurd hstuck hnot⟩
      unfold turn
      rw [if_neg (by simp), consumeUntil_append hname]
      rfl
    · refine ⟨_, turn_pair list hname hmore, ?_⟩
      by_cases hamp : ampersand ∈ more
      · obtain ⟨value, rest, rfl, hvalue⟩ := List.eq_append_cons_of_mem hamp
        rw [consumeUntil_append hvalue]
        constructor
        · show Stuck (lastPiece rest) ↔ Stuck (lastPiece (name ++ equals :: (value ++ ampersand :: rest)))
          rw [← List.cons_append, ← List.append_assoc, lastPiece_ampersand]
        · intro _
          simp only [List.drop_one, List.tail_cons, List.length_append, List.length_cons]
          omega
      · rw [consumeUntil_of_not_mem hamp]
        constructor
        · refine iff_of_false (not_stuck_of_not_mem List.not_mem_nil) ?_
          rw [lastPiece_append (fun h => hamp (List.mem_of_ne_of_mem (by decide) h))]
          exact not_stuck_append hmore
        · intro _
          rw [List.length_append, List.length_cons]
          exact Nat.lt_add_left _ (Nat.succ_pos _)
  · refine ⟨⟨[], list⟩, ?_, iff_of_false (not_stuck_of_not_mem List.not_mem_nil) ?_, fun _ => List.length_pos_iff.2 hs⟩
    · unfold turn
      rw [if_neg hs, consumeUntil_of_not_mem hmem]
      rfl
    · exact not_stuck_of_not_mem fun h => hmem (mem_of_mem_lastPiece h)

end Pieces

/-- **`BulidList` ends**, with the whole query consumed, exactly when its last piece is no name with nothing behind its
`'='`. -/
theorem bulidList_ends_iff (query : List UInt8) :
    (∃ s, Loop.Ends turn ⟨query, []⟩ s ∧ s.stream = []) ↔ ¬ Stuck (lastPiece query) := by
  constructor
  · rintro ⟨s, hs, -⟩ hstuck
    refine Loop.never_ends (I := fun s : Building => Stuck (lastPiece s.stream)) (fun s h => ?_) hstuck hs
    have hne : s.stream ≠ [] := by
      intro heq
      rw [heq] at h
      exact not_stuck_of_not_mem List.not_mem_nil h
    obtain ⟨s', hs', hkeep, -⟩ := turn_spec s.list hne
    exact ⟨s', hs', hkeep.2 h⟩
  · intro hnot
    refine Loop.ends_of_turn (I := fun s : Building => ¬ Stuck (lastPiece s.stream)) (fun s => s.stream.length)
      (fun s h => ?_) hnot
    by_cases hne : s.stream = []
    · exact Or.inr ⟨s, by rw [turn, if_pos hne], hne⟩
    · obtain ⟨s₁, hs₁, hkeep, hless⟩ := turn_spec s.list hne
      exact Or.inl ⟨s₁, hs₁, fun h' => h (hkeep.1 h'), hless h⟩

/-- `a=` -/
theorem bulidList_forever : ¬ ∃ s, Loop.Ends turn ⟨[97, equals], []⟩ s := by
  rintro ⟨s, hs⟩
  refine Loop.never_ends (I := fun s : Building => s.stream = [97, equals] ∨ s.stream = [equals]) (fun s h => ?_)
    (Or.inl rfl) hs
  obtain ⟨stream, list⟩ := s
  rcases h with rfl | rfl <;> exact ⟨_, rfl, Or.inr rfl⟩

end ToolLib.Common.QueryParamList
