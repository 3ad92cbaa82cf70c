import Mathlib.Data.List.TakeWhile
import Mathlib.Tactic.Common

/-!
# StringParser

The functions of StringParser.cpp that the parsers of this library use. The stream from `fStartGet` to `fEndGet` is a list
of bytes; a parser without a stream behaves as one whose stream is empty.
-/

namespace ToolLib.Common.StringParser

abbrev carriageReturn : UInt8 := 13
abbrev lineFeed : UInt8 := 10

/-- "stop when you hit an eol" -/
def sEOLMask (c : UInt8) : Bool := c = lineFeed || c = carriageReturn

/-- "skip over whitespace" -/
def sWhitespaceMask (c : UInt8) : Bool := !(9 ≤ c && c ≤ 13 || c = 32)

/-- What is before the first stop character, and what is left. -/
def consumeUntil (inMask : UInt8 → Bool) (stream : List UInt8) : List UInt8 × List UInt8 :=
  (stream.takeWhile (!inMask ·), stream.dropWhile (!inMask ·))

def expect (stopChar : UInt8) (stream : List UInt8) : Bool × List UInt8 :=
  if stream.head? = some stopChar then (true, stream.tail) else (false, stream)

/-- "They are: \r (alone), \n (alone), \r\n" -/
def expectEOL : List UInt8 → Bool × List UInt8
  | [] => (false, [])
  | c :: stream =>
    if sEOLMask c then (true, if c = carriageReturn ∧ stream.head? = some lineFeed then stream.tail else stream)
    else (false, c :: stream)

/-- What is before the stop character, whether there is one, and what is left after it. -/
def getThru (inStopChar : UInt8) (stream : List UInt8) : List UInt8 × Bool × List UInt8 :=
  let (outString, stream) := consumeUntil (fun c => c = inStopChar) stream
  (outString, expect inStopChar stream)

def getThruEOL (stream : List UInt8) : List UInt8 × Bool × List UInt8 :=
  let (outString, stream) := consumeUntil sEOLMask stream
  (outString, expectEOL stream)

/-- `ConsumeInteger`: a `UInt32` that wraps around. -/
def consumeInteger (stream : List UInt8) : Nat :=
  (stream.takeWhile fun c => 48 ≤ c && c ≤ 57).foldl (fun theValue c => (theValue * 10 + (c.toNat - 48)) % 4294967296) 0

section Lengths

variable {stream : List UInt8} {c : UInt8}

theorem length_expect_le : (expect c stream).2.length ≤ stream.length := by
  rw [expect]
  split <;> simp

/-- The string and what is left are pieces of the stream. -/
theorem length_getThru_le : (getThru c stream).1.length + (getThru c stream).2.2.length ≤ stream.length := by
  have hsplit := congrArg List.length (List.takeWhile_append_dropWhile (p := fun x => !decide (x = c)) (l := stream))
  rw [List.length_append] at hsplit
  have hleft : (getThru c stream).2.2.length ≤ (stream.dropWhile fun x => !decide (x = c)).length := length_expect_le
  calc (getThru c stream).1.length + (getThru c stream).2.2.length
      ≤ (stream.takeWhile fun x => !decide (x = c)).length + (stream.dropWhile fun x => !decide (x = c)).length :=
        Nat.add_le_add_left hleft _
    _ = stream.length := hsplit

/-- A line that has been found, its end, and what is left make up the stream. -/
theorem getThruEOL_found (h : (getThruEOL stream).2.1 = true) :
    ∃ eol ≠ [], (getThruEOL stream).1 ++ eol ++ (getThruEOL stream).2.2 = stream := by
  have hsplit := List.takeWhile_append_dropWhile (p := fun x => !sEOLMask x) (l := stream)
  simp only [getThruEOL, consumeUntil] at h ⊢
  cases hrest : stream.dropWhile fun x => !sEOLMask x with
  | nil =>
    rw [hrest] at h
    cases h
  | cons a rest =>
    rw [hrest] at h hsplit
    rw [expectEOL] at h ⊢
    by_cases hmask : sEOLMask a = true
    · rw [if_pos hmask]
      by_cases hboth : a = carriageReturn ∧ rest.head? = some lineFeed
      · refine ⟨[a, lineFeed], List.cons_ne_nil _ _, ?_⟩
        rw [if_pos hboth, List.append_assoc]
        obtain ⟨b, rest', rfl⟩ := List.exists_cons_of_ne_nil (l := rest) (by rintro rfl; cases hboth.2)
        cases hboth.2
        exact hsplit
      · refine ⟨[a], List.cons_ne_nil _ _, ?_⟩
        rw [if_neg hboth, List.append_assoc]
        exact hsplit
    · rw [if_neg hmask] at h
      cases h

theorem length_getThruEOL_lt (h : (getThruEOL stream).2.1 = true) : (getThruEOL stream).2.2.length < stream.length := by
  obtain ⟨eol, hne, hsplit⟩ := getThruEOL_found h
  have hlen := congrArg List.length hsplit
  have hpos := List.length_pos_iff.2 hne
  rw [List.length_append, List.length_append] at hlen
  omega

end Lengths

end ToolLib.Common.StringParser
