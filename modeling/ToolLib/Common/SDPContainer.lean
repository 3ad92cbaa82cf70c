import Mathlib.Logic.Function.Basic
import ToolLib.Base.System
import ToolLib.Common.SDPLossless

/-!
# `SDPContainer`, with all it keeps

The container of SDPUtils.cpp with its cursor, its array and the table of the line types, which stay in the container from
one buffer to the next. An operation is `none` where an assertion fails or `fNumSDPLines` does not fit in an `SInt32`.

`parseLines_spec` says what `Parse` adds to what was there, in terms of the lines of the buffer; `reachable_sound` says
what holds of the array and the cursor after any operations.
-/

namespace ToolLib.Common.SDPContainer

open ToolLib.Base StringParser SDP

/-- The bits of `fReqLines`. -/
abbrev kV : UInt16 := 1
abbrev kS : UInt16 := 2
abbrev kT : UInt16 := 4
abbrev kO : UInt16 := 8
abbrev kAllReq : UInt16 := 15

/-- The container. -/
structure Container where
  fCurrentLine : Nat
  fNumSDPLines : Nat
  fNumUsedLines : Nat
  fSDPLineArray : List SDPLine
  fValid : Bool
  fSDPBuffer : List UInt8
  fReqLines : UInt16
  fFieldStr : UInt8 → UInt8

/-- An `SDPLine` as its constructor leaves it. -/
abbrev noLine : SDPLine := ⟨[], 0⟩

/-- `memset(s, c, n)`. -/
def memset (s : UInt8 → UInt8) (c n : Nat) : UInt8 → UInt8 := fun i => if i.toNat < n then UInt8.ofNat c else s i

/-- The bit of a line type. -/
def reqBit (firstChar : UInt8) : UInt16 :=
  if firstChar = 118 then kV else if firstChar = 115 then kS else if firstChar = 116 then kT
  else if firstChar = 111 then kO else 0

namespace Container

def Initialize (c : Container) : Container :=
  { c with
    fCurrentLine := 0
    fNumUsedLines := 0
    fSDPLineArray := List.replicate c.fNumSDPLines noLine
    fValid := false
    fReqLines := 0
    -- `::memset(fFieldStr, sizeof(fFieldStr), 0)`
    fFieldStr := memset c.fFieldStr 256 0 }

/-- A container; the constructor does not set `fFieldStr`. -/
def new (numStrPtrs : Nat) (fFieldStr : UInt8 → UInt8) : Container :=
  Initialize ⟨0, numStrPtrs, 0, [], false, [], 0, fFieldStr⟩

def addHeaderLine (c : Container) (theLine : SDPLine) : Option (Nat × Container) :=
  let thisLine := c.fNumUsedLines
  if c.fNumUsedLines < c.fNumSDPLines then
    let fSDPLineArray := c.fSDPLineArray.set thisLine theLine
    let fNumUsedLines := c.fNumUsedLines + 1
    if fNumUsedLines = c.fNumSDPLines then
      if c.fNumSDPLines * 2 < 2147483648 then
        some (thisLine, { c with
          fNumUsedLines
          fSDPLineArray := fSDPLineArray.take c.fNumSDPLines ++ List.replicate c.fNumSDPLines noLine
          fNumSDPLines := fNumUsedLines * 2 })
      else none
    else some (thisLine, { c with fNumUsedLines, fSDPLineArray })
  else none

/-- The lines that are in use. -/
def usedLines (c : Container) : List SDPLine := c.fSDPLineArray.take c.fNumUsedLines

def findHeaderLineType (c : Container) (id : UInt8) (start : Int) : Int × Container :=
  if c.fNumUsedLines ≤ start ∨ start < 0 then (-1, c)
  else
    match (c.usedLines.drop start.toNat).findIdx? fun l => l.getHeaderType = id with
    | none => (-1, c)
    | some i => (start + i, { c with fCurrentLine := start.toNat + i })

/-- The line behind the current one may be the one behind the last. -/
def getNextLine (c : Container) : Option SDPLine × Container :=
  if c.fCurrentLine < c.fNumUsedLines then
    (some (c.fSDPLineArray.getD (c.fCurrentLine + 1) noLine), { c with fCurrentLine := c.fCurrentLine + 1 })
  else (none, c)

def getLine (c : Container) (lineIndex : Int) : Option SDPLine :=
  if -1 < lineIndex ∧ lineIndex < c.fNumUsedLines then some (c.fSDPLineArray.getD lineIndex.toNat noLine) else none

def setLine (c : Container) (index : Int) : Option Container :=
  if -1 < index ∧ index < c.fNumUsedLines then some { c with fCurrentLine := index.toNat } else none

def hasReqLines (c : Container) : Bool := c.fReqLines = kAllReq

def hasLineType (c : Container) (lineType : UInt8) : Bool := lineType = c.fFieldStr lineType

def getNumLines (c : Container) : Nat := c.fNumUsedLines

/-- The first character is noted before the line is checked. -/
def register (c : Container) (firstChar : UInt8) : Container :=
  { c with
    fFieldStr := Function.update c.fFieldStr firstChar firstChar
    fReqLines := c.fReqLines ||| reqBit firstChar }

/-- The loop of `Parse`, and whether the lines are valid. -/
def parseLines (c : Container) (stream : List UInt8) : Option (Container × Bool) :=
  if stream.length = 0 then some (c, true)
  else if _h : (getThruEOL stream).2.1 = true then
    match checkLine (getThruEOL stream).1 with
    | .skip => parseLines c (getThruEOL stream).2.2
    | .add => do
      let (_, c) ← (c.register (lineType (getThruEOL stream).1)).addHeaderLine ⟨stream, (getThruEOL stream).1.length⟩
      parseLines c (getThruEOL stream).2.2
    | .invalid => some (c.register (lineType (getThruEOL stream).1), false)
  else some (c, true)
  termination_by stream.length
  decreasing_by all_goals exact length_getThruEOL_lt (by assumption)

def parse (c : Container) : Option Container :=
  (c.parseLines c.fSDPBuffer).map fun (c, valid) => { c with fValid := if c.fNumUsedLines = 0 then false else valid }

/-- `SetSDPBuffer` with a `StrPtrLen`, `none` for `NULL`. -/
def setSDPBuffer (c : Container) (sdpBufferPtr : Option (List UInt8)) : Option Container :=
  match sdpBufferPtr with
  | none => some c.Initialize
  | some buffer => parse { c.Initialize with fSDPBuffer := buffer }

/-- `SetSDPBuffer` with characters up to a 0. -/
def setSDPString (c : Container) (sdpBuffer : Option (List UInt8)) : Option Container :=
  c.setSDPBuffer (sdpBuffer.map fun s => s.takeWhile (· ≠ 0))

end Container

/-! ## Parse -/

/-- What holds of the array and the cursor. -/
structure Sound (c : Container) : Prop where
  length : c.fSDPLineArray.length = c.fNumSDPLines
  room : c.fNumUsedLines = 0 ∨ c.fNumUsedLines < c.fNumSDPLines
  unused : ∀ i, c.fNumUsedLines ≤ i → c.fSDPLineArray.getD i noLine = noLine
  cursor : c.fCurrentLine ≤ c.fNumUsedLines

/-- The types that `Parse` notes: those of the lines up to the first invalid one. -/
def noted : List (List UInt8) → List UInt8
  | [] => []
  | line :: lines =>
    match checkLine line with
    | .skip => noted lines
    | .add => lineType line :: noted lines
    | .invalid => [lineType line]

section Parse

variable {c c' : Container} {l : SDPLine} {i : Nat} {valid : Bool} {stream : List UInt8} {lines : List (List UInt8)}
  {types : List UInt8}

theorem memset_zero (s : UInt8 → UInt8) (n : Nat) : memset s n 0 = s := funext fun _ => if_neg (Nat.not_lt_zero _)

theorem initial_sound (c : Container) : Sound c.Initialize where
  length := List.length_replicate
  room := Or.inl rfl
  unused i _ := by
    rw [Container.Initialize, List.getD_eq_getElem?_getD, List.getElem?_replicate]
    split <;> rfl
  cursor := Nat.le_refl 0

/-- A line comes behind the others; the rest stays. -/
theorem addHeaderLine_spec (hc : Sound c) (h : c.addHeaderLine l = some (i, c')) :
    Sound c' ∧ c'.usedLines = c.usedLines ++ [l] ∧ c'.fNumUsedLines = c.fNumUsedLines + 1 ∧
      c'.fFieldStr = c.fFieldStr ∧ c'.fReqLines = c.fReqLines := by
  unfold Container.addHeaderLine at h
  dsimp only at h
  split at h
  next hroom =>
    have hlen := hc.length
    have hset : (c.fSDPLineArray.set c.fNumUsedLines l).take (c.fNumUsedLines + 1) = c.usedLines ++ [l] := by
      have htake : (c.fSDPLineArray.take c.fNumUsedLines).length = c.fNumUsedLines := by
        rw [List.length_take]
        omega
      rw [List.take_set, List.take_succ_eq_append_getElem (by omega), List.set_append_right _ _ (Nat.le_of_eq htake),
        htake, Nat.sub_self]
      rfl
    have hbehind : ∀ i, c.fNumUsedLines + 1 ≤ i → (c.fSDPLineArray.set c.fNumUsedLines l).getD i noLine = noLine := by
      intro i hi
      rw [List.getD_eq_getElem?_getD, List.getElem?_set_ne (by omega), ← List.getD_eq_getElem?_getD]
      exact hc.unused i (by omega)
    split at h
    next hfull =>
      split at h
      · cases h
        have htake : (c.fSDPLineArray.set c.fNumUsedLines l).take c.fNumSDPLines = c.fSDPLineArray.set c.fNumUsedLines l :=
          List.take_of_length_le (by rw [List.length_set]; omega)
        refine ⟨⟨?_, Or.inr ?_, fun i hi => ?_, ?_⟩, ?_, rfl, rfl, rfl⟩
        · dsimp only
          rw [htake, List.length_append, List.length_set, List.length_replicate]
          omega
        · dsimp only
          omega
        · dsimp only at hi ⊢
          rw [htake, List.getD_eq_getElem?_getD, List.getElem?_append_right (by rw [List.length_set]; omega),
            List.getElem?_replicate]
          split <;> rfl
        · exact Nat.le_succ_of_le hc.cursor
        · unfold Container.usedLines
          dsimp only
          rw [htake, List.take_append_of_le_length (by rw [List.length_set]; omega), hset]
          rfl
      · cases h
    next hroom' =>
      cases h
      refine ⟨⟨?_, Or.inr ?_, hbehind, Nat.le_succ_of_le hc.cursor⟩, hset, rfl, rfl, rfl⟩
      · exact (List.length_set ..).trans hlen
      · dsimp only
        omega
  next => cases h

theorem register_sound (hc : Sound c) (firstChar : UInt8) : Sound (c.register firstChar) :=
  ⟨hc.length, hc.room, hc.unused, hc.cursor⟩

theorem parseLines_end (h : ¬(getThruEOL stream).2.1 = true) : c.parseLines stream = some (c, true) := by
  rw [Container.parseLines, dif_neg h, ite_self]

/-- One line of `Parse`. -/
theorem parseLines_found (h : (getThruEOL stream).2.1 = true) : c.parseLines stream =
    match checkLine (getThruEOL stream).1 with
    | .skip => c.parseLines (getThruEOL stream).2.2
    | .add => ((c.register (lineType (getThruEOL stream).1)).addHeaderLine
        ⟨stream, (getThruEOL stream).1.length⟩).bind fun r => r.2.parseLines (getThruEOL stream).2.2
    | .invalid => some (c.register (lineType (getThruEOL stream).1), false) := by
  have hne : stream.length ≠ 0 := by
    have hlt := length_getThruEOL_lt h
    omega
  rw [Container.parseLines, if_neg hne]
  refine (dif_pos h).trans ?_
  cases checkLine (getThruEOL stream).1 with
  | skip => rfl
  | add => rfl
  | invalid => rfl

/-- The types that have been noted. -/
structure Noted (c c' : Container) (types : List UInt8) : Prop where
  fieldStr : ∀ x, c'.fFieldStr x = if x ∈ types then x else c.fFieldStr x
  reqLines : c'.fReqLines = types.foldl (fun req x => req ||| reqBit x) c.fReqLines

theorem Noted.cons {x : UInt8} (h : Noted (c.register x) c' types) : Noted c c' (x :: types) where
  fieldStr y := by
    rw [h.fieldStr, Container.register]
    by_cases hy : y = x
    · simp [hy]
    · simp [hy]
  reqLines := h.reqLines

/-- **What `Parse` does**: it adds the lines of the buffer to those that are there, and notes their types. -/
theorem parseLines_spec (hc : Sound c) (h : c.parseLines stream = some (c', valid)) :
    Sound c' ∧ c'.usedLines = c.usedLines ++ (SDP.parse stream).1 ∧
      c'.fNumUsedLines = c.fNumUsedLines + (SDP.parse stream).1.length ∧ valid = (SDP.parse stream).2 ∧
      Noted c c' (noted (completeLines stream)) := by
  induction stream using lines_induct generalizing c with
  | hend stream hfound =>
    rw [parseLines_end hfound] at h
    cases h
    rw [completeLines_not_found hfound, parse_end hfound]
    exact ⟨hc, by simp, rfl, rfl, fun x => by simp [noted], rfl⟩
  | hline stream hfound ih =>
    rw [parseLines_found hfound] at h
    rw [completeLines_found hfound, parse_found hfound, noted]
    cases hcheck : checkLine (getThruEOL stream).1 with
    | skip =>
      rw [hcheck] at h
      exact ih hc h
    | add =>
      rw [hcheck] at h
      obtain ⟨⟨j, c₁⟩, hadd, hrest⟩ := Option.bind_eq_some_iff.1 h
      obtain ⟨hsound, hused, hnum, hfield, hreq⟩ := addHeaderLine_spec (register_sound hc _) hadd
      obtain ⟨hsound', hused', hnum', hvalid, hnoted⟩ := ih hsound hrest
      refine ⟨hsound', ?_, ?_, hvalid, ?_⟩
      · rw [hused', hused, List.append_assoc]
        rfl
      · rw [hnum', hnum, List.length_cons]
        exact Nat.add_right_comm ..
      · refine Noted.cons ⟨fun x => ?_, ?_⟩
        · rw [hnoted.fieldStr, hfield]
        · rw [hnoted.reqLines, hreq]
    | invalid =>
      rw [hcheck] at h
      cases h
      exact ⟨register_sound hc _, by simp [Container.usedLines, Container.register], rfl, rfl,
        Noted.cons ⟨fun x => by simp, rfl⟩⟩

/-- **A buffer is set**: the lines are those of the buffer, and their types are noted in the old table. -/
theorem setSDPBuffer_spec {buffer : List UInt8} (h : c.setSDPBuffer (some buffer) = some c') :
    Sound c' ∧ c'.usedLines = (SDP.setSDPBuffer buffer).fSDPLineArray ∧
      c'.fNumUsedLines = (SDP.setSDPBuffer buffer).fSDPLineArray.length ∧
      c'.fValid = (SDP.setSDPBuffer buffer).fValid ∧
      (∀ x, c'.fFieldStr x = if x ∈ noted (completeLines buffer) then x else c.fFieldStr x) ∧
      c'.fReqLines = (noted (completeLines buffer)).foldl (fun req x => req ||| reqBit x) 0 := by
  obtain ⟨⟨c₁, valid⟩, hparse, rfl⟩ := Option.map_eq_some_iff.1 h
  have hfirst : Sound { c.Initialize with fSDPBuffer := buffer } :=
    have h₀ := initial_sound c
    ⟨h₀.length, h₀.room, h₀.unused, h₀.cursor⟩
  obtain ⟨hsound, hused, hnum, hvalid, hnoted⟩ := parseLines_spec hfirst hparse
  have hnum' : c₁.fNumUsedLines = (SDP.parse buffer).1.length := hnum.trans (Nat.zero_add _)
  refine ⟨⟨hsound.length, hsound.room, hsound.unused, hsound.cursor⟩, ?_, hnum', ?_, fun x => ?_, hnoted.reqLines⟩
  · exact hused.trans (List.nil_append _)
  · dsimp only
    rw [hnum', hvalid, SDP.setSDPBuffer]
  · have hnew : c₁.fFieldStr x = if x ∈ noted (completeLines buffer) then x else memset c.fFieldStr 256 0 x :=
      hnoted.fieldStr x
    rwa [memset_zero] at hnew

end Parse

/-! ## Runs -/

/-- What can be done with a container. -/
inductive Op
  | setSDPBuffer (sdpBufferPtr : Option (List UInt8))
  | setSDPString (sdpBuffer : Option (List UInt8))
  | addHeaderLine (theLine : SDPLine)
  | findHeaderLineType (id : UInt8) (start : Int)
  | getNextLine
  | setLine (index : Int)

def step (c : Container) : Op → Option Container
  | .setSDPBuffer sdpBufferPtr => c.setSDPBuffer sdpBufferPtr
  | .setSDPString sdpBuffer => c.setSDPString sdpBuffer
  | .addHeaderLine theLine => (c.addHeaderLine theLine).map Prod.snd
  | .findHeaderLineType id start => some (c.findHeaderLineType id start).2
  | .getNextLine => some c.getNextLine.2
  | .setLine index => c.setLine index

section Runs

variable {c c' : Container} {op : Op} {ops : List Op}

theorem setSDPBuffer_sound {sdpBufferPtr : Option (List UInt8)} (h : c.setSDPBuffer sdpBufferPtr = some c') :
    Sound c' := by
  cases sdpBufferPtr with
  | none =>
    cases h
    exact initial_sound c
  | some buffer => exact (setSDPBuffer_spec h).1

theorem Sound.step (hc : Sound c) (h : step c op = some c') : Sound c' := by
  cases op with
  | setSDPBuffer | setSDPString => exact setSDPBuffer_sound h
  | addHeaderLine theLine =>
    obtain ⟨⟨i, c₁⟩, hadd, rfl⟩ := Option.map_eq_some_iff.1 h
    exact (addHeaderLine_spec hc hadd).1
  | findHeaderLineType id start =>
    cases h
    unfold Container.findHeaderLineType
    split
    · exact hc
    · split
      · exact hc
      next hstart i hfind =>
        refine ⟨hc.length, hc.room, hc.unused, ?_⟩
        have hlt := (List.findIdx?_eq_some_iff_getElem.1 hfind).1
        have hused : c.usedLines.length ≤ c.fNumUsedLines := by
          rw [Container.usedLines, List.length_take]
          exact Nat.min_le_left ..
        rw [List.length_drop] at hlt
        dsimp only
        omega
  | getNextLine =>
    cases h
    unfold Container.getNextLine
    split
    next hlt => exact ⟨hc.length, hc.room, hc.unused, hlt⟩
    next => exact hc
  | setLine index =>
    simp only [SDPContainer.step, Container.setLine] at h
    split at h
    next hin =>
      cases h
      exact ⟨hc.length, hc.room, hc.unused, by dsimp only; omega⟩
    next => cases h

/-- **A container**, whatever has been done with it. -/
theorem reachable_sound {numStrPtrs : Nat} {fFieldStr : UInt8 → UInt8}
    (h : run step (.new numStrPtrs fFieldStr) ops = some c) : Sound c :=
  run_inv (fun _ _ _ hc hs => hc.step hs) (initial_sound _) h

end Runs

end ToolLib.Common.SDPContainer
