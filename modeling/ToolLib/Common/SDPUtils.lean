import Mathlib.Data.List.Infix
import ToolLib.Common.StringParser

/-!
# SDPUtils

`SDPContainer` and `SDPLineSorter` of SDPUtils.cpp, the sorter with its default arguments (a bandwidth adjustment of 1.0 and
no lines to insert). A pointer into the buffer is what is in the buffer from there on. The formatters grow as they are
written to, so what has been put into one is a list of bytes.

`none` is a sorter that stops because the index of a session line, an `SInt16`, has wrapped around.
-/

namespace ToolLib.Common.SDP

open StringParser

/-! ## SDPContainer -/

structure SDPLine where
  /-- The buffer from where the line begins. -/
  Ptr : List UInt8
  Len : Nat
  deriving DecidableEq

namespace SDPLine

def bytes (l : SDPLine) : List UInt8 := l.Ptr.take l.Len

/-- `GetHeaderType`. -/
def getHeaderType (l : SDPLine) : UInt8 := if l.Len = 0 then 0 else l.Ptr.headD 0

end SDPLine

/-- "vosiuepcbtrzkam" -/
def validChars : List UInt8 := [118, 111, 115, 105, 117, 101, 112, 99, 98, 116, 114, 122, 107, 97, 109]

/-- '=' -/
abbrev nameValueSeparator : UInt8 := 61

/-- What `Parse` does with a line. -/
inductive LineCheck
  | skip
  | add
  | invalid
  deriving DecidableEq

def checkLine (line : List UInt8) : LineCheck :=
  -- "skip over leading whitespace"
  let lineParser := (consumeUntil sWhitespaceMask line).2
  -- "must be an empty line", or one whose first character is 0
  if lineParser.length = 0 ∨ lineParser.headD 0 = 0 then .skip
  else
    let (fieldName, lineParser) := consumeUntil (fun c => c = nameValueSeparator) lineParser
    -- "line doesn't begin with one of the valid characters followed by an "=""
    if fieldName.length ≠ 1 ∨ fieldName.headD 0 ∉ validChars then .invalid
    else
      let (found, lineParser) := expect nameValueSeparator lineParser
      if found = false then .invalid
      -- "line has whitespace after the "=""
      else if (consumeUntil sWhitespaceMask lineParser).1.length ≠ 0 then .invalid
      else .add

/-- `Parse`, from some line on: the lines that are added, and whether the lines are valid. -/
def parse (stream : List UInt8) : List SDPLine × Bool :=
  if stream.length = 0 then ([], true)
  else if _h : (getThruEOL stream).2.1 = true then
    match checkLine (getThruEOL stream).1 with
    | .skip => parse (getThruEOL stream).2.2
    | .add =>
      let (lines, valid) := parse (getThruEOL stream).2.2
      (⟨stream, (getThruEOL stream).1.length⟩ :: lines, valid)
    | .invalid => ([], false)
  else ([], true)
  termination_by stream.length
  decreasing_by all_goals exact length_getThruEOL_lt (by assumption)

structure SDPContainer where
  fSDPLineArray : List SDPLine
  fValid : Bool

/-- `SetSDPBuffer`. -/
def setSDPBuffer (buffer : List UInt8) : SDPContainer where
  fSDPLineArray := (parse buffer).1
  fValid := if (parse buffer).1.length = 0 then false else (parse buffer).2

/-- `FindHeaderLineType`, from the first line on. -/
def SDPContainer.findHeaderLineType (c : SDPContainer) (id : UInt8) : Option Nat :=
  c.fSDPLineArray.findIdx? fun l => l.getHeaderType = id

/-! ## SDPLineSorter -/

/-- "vosiuepcbtrzka", "chars are order dependent: declared by rfc 2327" -/
def sSessionOrderedLines : List UInt8 := [118, 111, 115, 105, 117, 101, 112, 99, 98, 116, 114, 122, 107, 97]

/-- "vtosiuepcbzk", "return only 1 of each of these session field types" -/
def sessionSingleLines : List UInt8 := [118, 116, 111, 115, 105, 117, 101, 112, 99, 98, 122, 107]

/-- "a=range" -/
def rangeTag : List UInt8 := [97, 61, 114, 97, 110, 103, 101]

def sEOL : List UInt8 := [carriageReturn, lineFeed]

abbrev mediaType : UInt8 := 109
abbrev attributeType : UInt8 := 97

/-- `FindString`: `strstr` looks no further than the first 0. -/
def FindString (query s : List UInt8) : Prop := query <:+: s.takeWhile (· ≠ 0)

instance (query s : List UInt8) : Decidable (FindString query s) := inferInstanceAs (Decidable (_ <:+: _))

/-- The loop over the lines from the first line for a medium on. -/
def mediaLoop (stream : List UInt8) : List UInt8 :=
  if stream.length = 0 then []
  else if _h : (getThruEOL stream).2.1 = true then (getThruEOL stream).1 ++ sEOL ++ mediaLoop (getThruEOL stream).2.2
  else []
  termination_by stream.length
  decreasing_by exact length_getThruEOL_lt (by assumption)

/-- `fMediaHeaders`. -/
def mediaHeaders (c : SDPContainer) : List UInt8 :=
  match (c.findHeaderLineType mediaType).bind fun i => c.fSDPLineArray[i]? with
  | none => []
  | some theMediaStart => mediaLoop theMediaStart.Ptr

/-- `fSessionLineCount`: "didn't find it use the whole buffer". -/
def sessionLineCount (c : SDPContainer) : Nat := (c.findHeaderLineType mediaType).getD c.fSDPLineArray.length

/-- The lines that are copied into `fSessionSDPContainer`. -/
def sessionLines (c : SDPContainer) : Option (List SDPLine) :=
  if 32767 < sessionLineCount c then none else some (c.fSDPLineArray.take (sessionLineCount c))

/-- `ValidateSessionHeader`. -/
def validateSessionHeader (fSDPSessionHeaders : List UInt8) (theHeaderLine : List UInt8) : Bool :=
  if theHeaderLine.length = 0 then false
  -- "check for a duplicate range line."
  else if theHeaderLine.headD 0 = attributeType ∧ FindString rangeTag theHeaderLine ∧
      FindString rangeTag fSDPSessionHeaders then false
  else true

/-- The lines of one type are put, from some line on. -/
def putType (fieldType : UInt8) : List SDPLine → List UInt8 → List UInt8
  | [], fSDPSessionHeaders => fSDPSessionHeaders
  | theHeaderLine :: lines, fSDPSessionHeaders =>
    if theHeaderLine.getHeaderType = fieldType then
      let fSDPSessionHeaders :=
        if validateSessionHeader fSDPSessionHeaders theHeaderLine.bytes then
          fSDPSessionHeaders ++ theHeaderLine.bytes ++ sEOL
        else fSDPSessionHeaders
      -- "allow 1 of this type: use first found"
      if fieldType ∈ sessionSingleLines then fSDPSessionHeaders else putType fieldType lines fSDPSessionHeaders
    else putType fieldType lines fSDPSessionHeaders

/-- `fSessionHeaders`. -/
def sessionHeaders (lines : List SDPLine) : List UInt8 :=
  sSessionOrderedLines.foldl (fun fSDPSessionHeaders fieldType => putType fieldType lines fSDPSessionHeaders) []

/-- `fullbuffCopy`, before the 0 at the end. -/
def fullbuffCopy (c : SDPContainer) : Option (List UInt8) :=
  (sessionLines c).map fun lines => sessionHeaders lines ++ mediaHeaders c

/-- `GetSortedSDPCopy`: the `char*` that it returns is a string up to the first 0. -/
def getSortedSDPCopy (c : SDPContainer) : Option (List UInt8) := (fullbuffCopy c).map (List.takeWhile (· ≠ 0))

end ToolLib.Common.SDP
