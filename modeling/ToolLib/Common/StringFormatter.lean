import Mathlib.Data.Int.Basic
import ToolLib.Base.Loop
import ToolLib.Base.Strings

/-!
# StringFormatter and ResizeableStringFormatter

`StringFormatter::Put` copies its argument to `fCurrentPut` and calls the virtual `BufferIsFull` when the buffer has no
room for it: the one of a plain `StringFormatter` does nothing, the one of a `ResizeableStringFormatter` takes a buffer
twice as large. The other `Put` functions call this one. Lengths are `UInt32`.

`put_resizeable`: what has been put is in the buffer, all of it, whatever buffers there have been. `put_plain`: each
`Put` stores a prefix of its argument, in the buffer, directly behind what was stored before.
-/

namespace ToolLib.Common.StringFormatter

open ToolLib.Base

/-- A formatter, memory, and what `Put` and `BufferIsFull` have written. `fOriginalBuffer` belongs to a
`ResizeableStringFormatter`, which notes in `deleted` what it has deleted. -/
structure Formatter where
  fCurrentPut : Int
  fStartPut : Int
  fEndPut : Int
  fBytesWritten : Nat
  fOriginalBuffer : Int
  deleted : List Int
  memory : Int → UInt8
  accesses : List (Access Unit)

namespace Formatter

/-- The constructors; `inBuffer` may be `NULL` with the size 0. -/
def new (memory : Int → UInt8) (inBuffer : Int) (inBufSize : Nat) : Formatter :=
  ⟨inBuffer, inBuffer, inBuffer + inBufSize, 0, inBuffer, [], memory, []⟩

def getCurrentOffset (s : Formatter) : Nat := ((s.fCurrentPut - s.fStartPut) % 4294967296).toNat

def getSpaceLeft (s : Formatter) : Nat := ((s.fEndPut - s.fCurrentPut) % 4294967296).toNat

def getTotalBufferSize (s : Formatter) : Nat := ((s.fEndPut - s.fStartPut) % 4294967296).toNat

/-- `memcpy` to `fCurrentPut`; `fCurrentPut` and `fBytesWritten` follow. -/
def copy (s : Formatter) (bytes : List UInt8) : Formatter :=
  { s with
    memory := store s.memory s.fCurrentPut bytes
    fCurrentPut := s.fCurrentPut + bytes.length
    fBytesWritten := (s.fBytesWritten + bytes.length) % 4294967296
    accesses := Access.writes () s.fCurrentPut bytes.length ++ s.accesses }

/-- One turn of "loop until the input buffer size is smaller than the space in the output buffer": the formatter, what is
left of the argument, and `spaceLeft`. -/
def turn (bufferIsFull : Formatter → Formatter) :
    Formatter × List UInt8 × Nat → (Formatter × List UInt8 × Nat) ⊕ Formatter
  | (s, buffer, spaceLeft) =>
    -- wraps when there is no space
    let spaceInBuffer := (spaceLeft + 4294967295) % 4294967296
    if spaceInBuffer < buffer.length ∨ spaceLeft = 0 then
      let (s, buffer) :=
        -- "copy as much as possible"
        if 0 < spaceLeft then (s.copy (buffer.take spaceInBuffer), buffer.drop spaceInBuffer) else (s, buffer)
      let s := bufferIsFull s
      let resizedSpaceLeft := s.getSpaceLeft
      -- "couldn't resize, nothing left to do"
      if spaceLeft = resizedSpaceLeft then .inr s else .inl (s, buffer, resizedSpaceLeft)
    else .inr (s.copy buffer)

/-- `Put`, when its loop has `turns` turns at most. -/
def put (bufferIsFull : Formatter → Formatter) (turns : Nat) (s : Formatter) (buffer : List UInt8) : Option Formatter :=
  -- "optimization for writing 1 character"
  if buffer.length = 1 ∧ s.fCurrentPut ≠ s.fEndPut then some (s.copy buffer)
  else Loop.turns (turn bufferIsFull) turns (s, buffer, s.getSpaceLeft)

/-- A sequence of `Put` calls. -/
def puts (bufferIsFull : Formatter → Formatter) (turns : Nat) : Formatter → List (List UInt8) → Option Formatter
  | s, [] => some s
  | s, buffer :: buffers => (put bufferIsFull turns s buffer).bind fun s => puts bufferIsFull turns s buffers

/-- `StringFormatter::BufferIsFull` -/
def plain (s : Formatter) : Formatter := s

/-- `ResizeableStringFormatter::BufferIsFull`. `theNewBuffer` is what `NEW` returns; it may depend on all that has
happened. -/
def resize (theNewBuffer : Formatter → Int) (s : Formatter) : Formatter :=
  let inBuffer := s.fStartPut
  let inBufferLen := s.getCurrentOffset
  let theNewBufferSize := s.getTotalBufferSize * 2 % 4294967296
  let theNewBufferSize := if theNewBufferSize = 0 then 64 else theNewBufferSize
  { s with
    memory := store s.memory (theNewBuffer s) (bytesFrom s.memory inBuffer inBufferLen)
    deleted := if inBuffer ≠ s.fOriginalBuffer then inBuffer :: s.deleted else s.deleted
    fStartPut := theNewBuffer s
    fCurrentPut := theNewBuffer s + inBufferLen
    fEndPut := theNewBuffer s + theNewBufferSize
    accesses := Access.writes () (theNewBuffer s) inBufferLen ++ s.accesses }

/-- What is in the buffer. -/
def content (s : Formatter) : List UInt8 := bytesFrom s.memory s.fStartPut (s.fCurrentPut - s.fStartPut).toNat

end Formatter

open Formatter

/-! ## The buffer -/

/-- The buffer has `size` bytes, of which `used` are in use, and `room` are left. -/
structure Sized (s : Formatter) (used room : Nat) : Prop where
  current : s.fCurrentPut = s.fStartPut + used
  stop : s.fEndPut = s.fCurrentPut + room
  size : used + room < 4294967296

section Sizes

variable {s s' : Formatter} {used room n turns turns' : Nat} {bytes bytes' buffer : List UInt8}
  {buffers : List (List UInt8)} {full : Formatter → Formatter}

theorem Sized.spaceLeft (h : Sized s used room) : s.getSpaceLeft = room := by
  have hstop := h.stop
  have hsize := h.size
  unfold getSpaceLeft
  omega

theorem Sized.offset (h : Sized s used room) : s.getCurrentOffset = used := by
  have hcurrent := h.current
  have hsize := h.size
  unfold getCurrentOffset
  omega

theorem Sized.total (h : Sized s used room) : s.getTotalBufferSize = used + room := by
  have hcurrent := h.current
  have hstop := h.stop
  have hsize := h.size
  unfold getTotalBufferSize
  omega

theorem Sized.content_eq (h : Sized s used room) : s.content = bytesFrom s.memory s.fStartPut used := by
  have hcurrent := h.current
  have hlen : (s.fCurrentPut - s.fStartPut).toNat = used := by omega
  rw [content, hlen]

theorem Sized.copy (h : Sized s used room) (bytes : List UInt8) (hbytes : bytes.length ≤ room) :
    Sized (s.copy bytes) (used + bytes.length) (room - bytes.length) where
  current := by
    have hcurrent := h.current
    show s.fCurrentPut + bytes.length = s.fStartPut + ((used + bytes.length : Nat) : Int)
    omega
  stop := by
    have hstop := h.stop
    show s.fEndPut = s.fCurrentPut + bytes.length + ((room - bytes.length : Nat) : Int)
    omega
  size := by
    have hsize := h.size
    omega

/-- What is copied is behind what was there. -/
theorem Sized.content_copy (h : Sized s used room) (hbytes : bytes.length ≤ room) :
    (s.copy bytes).content = s.content ++ bytes := by
  rw [(h.copy bytes hbytes).content_eq, h.content_eq]
  show bytesFrom (store s.memory s.fCurrentPut bytes) s.fStartPut (used + bytes.length) = _
  rw [h.current, bytesFrom_store_behind]

theorem copy_nil (hwritten : s.fBytesWritten < 4294967296) : s.copy [] = s := by
  obtain ⟨fCurrentPut, fStartPut, fEndPut, fBytesWritten, fOriginalBuffer, deleted, memory, accesses⟩ := s
  have hmod : fBytesWritten % 4294967296 = fBytesWritten := Nat.mod_eq_of_lt hwritten
  simp [Formatter.copy, Access.writes, hmod]

theorem sized_new (memory : Int → UInt8) (inBuffer : Int) {inBufSize : Nat} (h : inBufSize < 4294967296) :
    Sized (new memory inBuffer inBufSize) 0 inBufSize := ⟨(Int.add_zero _).symm, rfl, by omega⟩

theorem content_new (memory : Int → UInt8) (inBuffer : Int) (inBufSize : Nat) :
    (new memory inBuffer inBufSize).content = [] := by
  show bytesFrom memory inBuffer (inBuffer - inBuffer).toNat = []
  rw [Int.sub_self]
  rfl

/-! ## One turn -/

/-- The argument fits with a byte to spare. -/
theorem turn_fits (hn : n < 4294967296) (h : buffer.length < n) : turn full (s, buffer, n) = .inr (s.copy buffer) := by
  have hspace : (n + 4294967295) % 4294967296 = n - 1 := by omega
  rw [turn, hspace]
  exact if_neg (by omega)

/-- There is space, and as much is copied as leaves one byte of it. -/
theorem turn_copies (full : Formatter → Formatter) (s : Formatter) (hn : n + 1 < 4294967296) (h : n < buffer.length) :
    turn full (s, buffer, n + 1) =
    if n + 1 = (full (s.copy (buffer.take n))).getSpaceLeft then .inr (full (s.copy (buffer.take n)))
    else .inl (full (s.copy (buffer.take n)), buffer.drop n, (full (s.copy (buffer.take n))).getSpaceLeft) := by
  have hspace : (n + 1 + 4294967295) % 4294967296 = n := by omega
  rw [turn, hspace]
  dsimp only
  rw [if_pos (Or.inl h), if_pos (Nat.succ_pos n)]

/-- There is no space. -/
theorem turn_no_space : turn full (s, buffer, 0) =
    if 0 = (full s).getSpaceLeft then .inr (full s) else .inl (full s, buffer, (full s).getSpaceLeft) := by
  rw [turn]
  dsimp only
  rw [if_pos (Or.inr rfl), if_neg (Nat.lt_irrefl 0)]

theorem put_mono (h : put full turns s buffer = some s') (hle : turns ≤ turns') : put full turns' s buffer = some s' := by
  unfold put at h ⊢
  split
  next hone => rwa [if_pos hone] at h
  next hmore =>
    rw [if_neg hmore] at h
    exact Loop.turns_mono h hle

theorem puts_mono (h : puts full turns s buffers = some s') (hle : turns ≤ turns') :
    puts full turns' s buffers = some s' := by
  induction buffers generalizing s with
  | nil => exact h
  | cons buffer buffers ih =>
    obtain ⟨s₁, h₁, h₂⟩ := Option.bind_eq_some_iff.1 h
    exact Option.bind_eq_some_iff.2 ⟨s₁, put_mono h₁ hle, ih h₂⟩

/-- Calls that keep an invariant return one after another. -/
theorem puts_of_put (I : Formatter → List (List UInt8) → Prop)
    (hput : ∀ s buffer buffers, I s (buffer :: buffers) → ∃ turns s', put full turns s buffer = some s' ∧ I s' buffers)
    (h : I s buffers) : ∃ turns s', puts full turns s buffers = some s' ∧ I s' [] := by
  induction buffers generalizing s with
  | nil => exact ⟨0, s, rfl, h⟩
  | cons buffer buffers ih =>
    obtain ⟨turns₁, s₁, h₁, hI⟩ := hput s buffer buffers h
    obtain ⟨turns₂, s₂, h₂, hI'⟩ := ih hI
    refine ⟨max turns₁ turns₂, s₂, Option.bind_eq_some_iff.2 ⟨s₁, ?_, ?_⟩, hI'⟩
    · exact put_mono h₁ (Nat.le_max_left ..)
    · exact puts_mono h₂ (Nat.le_max_right ..)

end Sizes

/-! ## A plain formatter -/

section Plain

variable {m₀ : Int → UInt8} {inBuffer : Int} {inBufSize : Nat} {s : Formatter} {used room : Nat} {buffer : List UInt8}

/-- **`Put` of a plain formatter** copies as much of its argument as there is room for; the last byte of the buffer is
used by a single character only. -/
theorem put_plain_eq (h : Sized s used room) (buffer : List UInt8) (hwritten : s.fBytesWritten < 4294967296) :
    ∃ k, k ≤ room ∧ put plain 2 s buffer = some (s.copy (buffer.take k)) := by
  have hsize := h.size
  have hstop := h.stop
  unfold put
  split
  next hone =>
    refine ⟨1, by omega, ?_⟩
    rw [List.take_of_length_le (by omega)]
  next hmore =>
    rw [h.spaceLeft]
    rcases room with _ | n
    · -- nothing is stored
      refine ⟨0, Nat.le_refl 0, Loop.turns_succ_inr ?_⟩
      rw [turn_no_space, List.take_zero, copy_nil hwritten]
      exact if_pos h.spaceLeft.symm
    · rcases Nat.lt_or_ge n buffer.length with hlong | hfits
      · have hlen : (buffer.take n).length = n := by rw [List.length_take]; omega
        have hcopy := h.copy (buffer.take n) (by omega)
        have hleft : (s.copy (buffer.take n)).getSpaceLeft = 1 := by
          rw [hcopy.spaceLeft, hlen]
          omega
        have hmod : (s.copy (buffer.take n)).fBytesWritten < 4294967296 := Nat.mod_lt _ (by omega)
        have hfirst := turn_copies plain s (by omega) hlong
        simp only [plain, hleft] at hfirst
        refine ⟨n, by omega, ?_⟩
        by_cases hzero : n + 1 = 1
        · rw [if_pos hzero] at hfirst
          exact Loop.turns_succ_inr hfirst
        · -- one byte is left, which the second turn leaves alone
          rw [if_neg hzero] at hfirst
          have hrest : 0 < (buffer.drop n).length := by
            rw [List.length_drop]
            omega
          have hsecond := turn_copies plain (s.copy (buffer.take n)) (by omega) hrest
          simp only [plain, List.take_zero, copy_nil hmod, Nat.zero_add, hleft, if_true] at hsecond
          rw [Loop.turns_succ_inl hfirst, Loop.turns_succ_inr hsecond]
      · refine ⟨buffer.length, by omega, ?_⟩
        rw [List.take_length]
        exact Loop.turns_succ_inr (turn_fits (by omega) (by omega))

/-- What holds of a plain formatter whatever is put: every byte stored is in the buffer, and is counted. -/
structure InBuffer (inBuffer : Int) (inBufSize : Nat) (s : Formatter) : Prop where
  inside : Access.Inside (fun _ => inBuffer) (fun _ => inBuffer + inBufSize) s.accesses
  written : s.fBytesWritten = s.accesses.length
  offset : s.fCurrentPut - s.fStartPut = s.accesses.length

/-- A `Put` has stored a prefix of its argument directly behind what was stored before. -/
def StoresPrefix (buffer : List UInt8) (s s' : Formatter) : Prop := ∃ stored, stored <+: buffer ∧
  s'.content = s.content ++ stored ∧ s'.fStartPut = s.fStartPut ∧ s'.fCurrentPut = s.fCurrentPut + stored.length ∧
  s'.memory = store s.memory s.fCurrentPut stored ∧
  s'.accesses = Access.writes () s.fCurrentPut stored.length ++ s.accesses

/-- Where a plain formatter is after some calls, with `left` bytes still to be put. -/
structure Fills (inBuffer : Int) (inBufSize : Nat) (s : Formatter) (left : Nat) : Prop where
  stored : InBuffer inBuffer inBufSize s
  start : s.fStartPut = inBuffer
  stop : s.fEndPut = inBuffer + inBufSize
  current : s.fCurrentPut ≤ s.fEndPut
  size : inBufSize < 4294967296
  count : s.accesses.length + left < 1073741824

theorem Fills.sized {left : Nat} (h : Fills inBuffer inBufSize s left) :
    Sized s s.accesses.length (inBufSize - s.accesses.length) := by
  have hoffset := h.stored.offset
  have hstart := h.start
  have hstop := h.stop
  have hcurrent := h.current
  have hsize := h.size
  exact ⟨by omega, by omega, by omega⟩

/-- A `Put` of a plain formatter. -/
theorem Fills.put {left : Nat} (h : Fills inBuffer inBufSize s (buffer.length + left)) :
    ∃ s', put plain 2 s buffer = some s' ∧ Fills inBuffer inBufSize s' left ∧ StoresPrefix buffer s s' := by
  have hsized := h.sized
  have hwritten := h.stored.written
  have hoffset := h.stored.offset
  have hstart := h.start
  have hstop := h.stop
  have hcurrent := h.current
  have hcount := h.count
  obtain ⟨k, hk, hput⟩ := put_plain_eq hsized buffer (by omega)
  have hlen : (buffer.take k).length ≤ k := List.length_take_le _ _
  have hle : (buffer.take k).length ≤ buffer.length := List.length_take_le' _ _
  have haccesses : (s.copy (buffer.take k)).accesses.length = (buffer.take k).length + s.accesses.length := by
    simp [Formatter.copy, Access.writes]
  refine ⟨_, hput, ⟨⟨?_, ?_, ?_⟩, hstart, hstop, ?_, h.size, by omega⟩, buffer.take k, List.take_prefix _ _,
    hsized.content_copy (by omega), rfl, rfl, rfl, rfl⟩
  · refine Access.inside_append.2 ⟨Access.inside_writes ?_ ?_, h.stored.inside⟩
    · show inBuffer ≤ s.fCurrentPut
      omega
    · show s.fCurrentPut + _ ≤ inBuffer + inBufSize
      omega
  · show (s.fBytesWritten + (buffer.take k).length) % 4294967296 = _
    rw [haccesses]
    omega
  · show s.fCurrentPut + (buffer.take k).length - s.fStartPut = _
    rw [haccesses]
    omega
  · show s.fCurrentPut + (buffer.take k).length ≤ s.fEndPut
    omega

theorem fills_new (m₀ : Int → UInt8) (hsize : inBufSize < 4294967296) {left : Nat} (hleft : left < 1073741824) :
    Fills inBuffer inBufSize (new m₀ inBuffer inBufSize) left := by
  refine ⟨⟨Access.inside_nil, rfl, Int.sub_self _⟩, rfl, rfl, ?_, hsize, by simpa [new] using hleft⟩
  show inBuffer ≤ inBuffer + inBufSize
  omega

theorem fills_puts (m₀ : Int → UInt8) (inBuffer : Int) (hsize : inBufSize < 4294967296) {buffers : List (List UInt8)}
    {left : Nat}
    (hleft : buffers.flatten.length + left < 1073741824) :
    ∃ turns s, puts plain turns (new m₀ inBuffer inBufSize) buffers = some s ∧ Fills inBuffer inBufSize s left := by
  have hput : ∀ s buffer buffers, Fills inBuffer inBufSize s ((buffer :: buffers).flatten.length + left) →
      ∃ turns s', put plain turns s buffer = some s' ∧ Fills inBuffer inBufSize s' (buffers.flatten.length + left) := by
    intro s buffer buffers h
    rw [List.flatten_cons, List.length_append, Nat.add_assoc] at h
    obtain ⟨s', hput, hs', -⟩ := h.put
    exact ⟨2, s', hput, hs'⟩
  obtain ⟨turns, s, hputs, hs⟩ := puts_of_put
    (fun s buffers => Fills inBuffer inBufSize s (buffers.flatten.length + left)) hput (fills_new m₀ hsize hleft)
  exact ⟨turns, s, hputs, by simpa using hs⟩

end Plain

/-! ## A formatter that is resized -/

/-- The text is in the buffer, and is counted. -/
structure Has (s : Formatter) (text : List UInt8) (room : Nat) : Prop where
  sized : Sized s text.length room
  content : s.content = text
  written : s.fBytesWritten = text.length

section Resize

variable {s : Formatter} {text bytes rest buffer : List UInt8} {room : Nat} {theNewBuffer : Formatter → Int}

theorem Has.copy (h : Has s text room) (bytes : List UInt8) (hbytes : bytes.length ≤ room)
    (hlen : (text ++ bytes).length < 4294967296) :
    Has (s.copy bytes) (text ++ bytes) (room - bytes.length) where
  sized := by
    rw [List.length_append]
    exact h.sized.copy bytes hbytes
  content := by rw [h.sized.content_copy hbytes, h.content]
  written := by
    show (s.fBytesWritten + bytes.length) % 4294967296 = _
    rw [List.length_append] at hlen ⊢
    rw [h.written, Nat.mod_eq_of_lt hlen]

/-- The room in the new buffer. -/
def newRoom (used room : Nat) : Nat := if used + room = 0 then 64 else used + 2 * room

/-- The new buffer has the contents of the old one. -/
theorem Has.resize (h : Has s text room) (theNewBuffer : Formatter → Int) (hsize : text.length + room < 1073741824) :
    Has (resize theNewBuffer s) text (newRoom text.length room) := by
  have hoffset := h.sized.offset
  have hbytes := h.sized.content_eq
  rw [h.content] at hbytes
  have hdouble : s.getTotalBufferSize * 2 % 4294967296 = 2 * (text.length + room) := by
    rw [h.sized.total]
    omega
  have hcurrent : (Formatter.resize theNewBuffer s).fCurrentPut = theNewBuffer s + text.length := by
    rw [← hoffset]
    rfl
  have hend : (Formatter.resize theNewBuffer s).fEndPut =
      theNewBuffer s + (if 2 * (text.length + room) = 0 then 64 else 2 * (text.length + room) : Nat) := by
    rw [← hdouble]
    rfl
  have hsized : Sized (Formatter.resize theNewBuffer s) text.length (newRoom text.length room) := by
    refine ⟨hcurrent, ?_, ?_⟩
    · rw [hend, hcurrent, newRoom]
      split <;> split <;> omega
    · rw [newRoom]
      split <;> omega
  refine ⟨hsized, ?_, h.written⟩
  rw [hsized.content_eq]
  show bytesFrom (store s.memory (theNewBuffer s) (bytesFrom s.memory s.fStartPut s.getCurrentOffset)) (theNewBuffer s)
    text.length = text
  rw [hoffset, ← hbytes, bytesFrom_store]

/-- How many turns can be without a byte being copied. -/
def idle : Nat → Nat
  | 0 => 2
  | 1 => 1
  | _ + 2 => 0

/-- **What a turn does**: it copies some of the argument and makes room for more, or it copies all that is left. -/
theorem Has.turned (h : Has s text room) (theNewBuffer : Formatter → Int) (hlen : (text ++ rest).length < 1073741824) :
    (∃ s' text' rest' room', turn (Formatter.resize theNewBuffer) (s, rest, room) = .inl (s', rest', room') ∧
        Has s' text' room' ∧ text' ++ rest' = text ++ rest ∧
        3 * rest'.length + idle room' < 3 * rest.length + idle room) ∨
      ∃ s' room', turn (Formatter.resize theNewBuffer) (s, rest, room) = .inr s' ∧ Has s' (text ++ rest) room' := by
  have hsize := h.sized.size
  rw [List.length_append] at hlen
  rcases room with _ | n
  · -- no space, the buffer grows
    have hs' := h.resize theNewBuffer (by omega)
    have hroom : 0 < newRoom text.length 0 := by
      unfold newRoom
      split <;> omega
    refine Or.inl ⟨_, text, rest, _, ?_, hs', rfl, ?_⟩
    · rw [turn_no_space, hs'.sized.spaceLeft, if_neg (by omega)]
    · obtain ⟨k, hk⟩ := Nat.exists_eq_succ_of_ne_zero (Nat.ne_of_gt hroom)
      rw [hk]
      rcases k with _ | k <;> simp [idle]
  · rcases Nat.lt_or_ge n rest.length with hlong | hfits
    · -- one byte of the space is left, and as much again as the buffer had
      have htake : (rest.take n).length = n := by rw [List.length_take]; omega
      have hcopy := h.copy (rest.take n) (by omega) (by rw [List.length_append]; omega)
      have hone : n + 1 - (rest.take n).length = 1 := by omega
      rw [hone] at hcopy
      have hs' := hcopy.resize theNewBuffer (by rw [List.length_append]; omega)
      have hroom : newRoom (text ++ rest.take n).length 1 = (text ++ rest.take n).length + 2 := by
        rw [newRoom, if_neg (by omega)]
      rw [hroom] at hs'
      refine Or.inl ⟨_, text ++ rest.take n, rest.drop n, _, ?_, hs', ?_, ?_⟩
      · rw [turn_copies _ s (by omega) hlong, hs'.sized.spaceLeft, if_neg (by rw [List.length_append]; omega)]
      · rw [List.append_assoc, List.take_append_drop]
      · rw [List.length_drop]
        rcases n with _ | n <;> simp only [idle] <;> omega
    · exact Or.inr ⟨_, _, turn_fits (by omega) (by omega), h.copy rest (by omega) (by rw [List.length_append]; omega)⟩

/-- The loop of `Put` ends, with all of the argument in the buffer. -/
theorem Has.ends (h : Has s text room) (theNewBuffer : Formatter → Int) (hlen : (text ++ buffer).length < 1073741824) :
    ∃ s', Loop.Ends (turn (Formatter.resize theNewBuffer)) (s, buffer, room) s' ∧
      ∃ room', Has s' (text ++ buffer) room' := by
  refine Loop.ends_of_turn
    (I := fun x : Formatter × List UInt8 × Nat => ∃ seen, Has x.1 seen x.2.2 ∧ seen ++ x.2.1 = text ++ buffer)
    (fun x => 3 * x.2.1.length + idle x.2.2) ?_ ⟨text, h, rfl⟩
  rintro ⟨s, rest, room⟩ ⟨seen, hs, hall⟩
  rcases hs.turned theNewBuffer (hall ▸ hlen) with
    ⟨s', seen', rest', room', hturn, hs', hall', hless⟩ | ⟨s', room', hturn, hs'⟩
  · exact Or.inl ⟨_, hturn, ⟨seen', hs', hall'.trans hall⟩, hless⟩
  · exact Or.inr ⟨s', hturn, room', hall ▸ hs'⟩

/-- **`Put` of a formatter that is resized** puts all of its argument behind what was there. -/
theorem Has.put (h : Has s text room) (theNewBuffer : Formatter → Int) (hlen : (text ++ buffer).length < 1073741824) :
    ∃ turns s', put (Formatter.resize theNewBuffer) turns s buffer = some s' ∧ ∃ room', Has s' (text ++ buffer) room' := by
  unfold Formatter.put
  split
  next hone =>
    have hstop := h.sized.stop
    exact ⟨0, _, rfl, _, h.copy buffer (by omega) (by omega)⟩
  next hmore =>
    rw [h.sized.spaceLeft]
    obtain ⟨s', ⟨turns, hturns⟩, hs'⟩ := h.ends theNewBuffer hlen
    exact ⟨turns, s', hturns, hs'⟩

end Resize

/-! ## Both formatters -/

/-- **The formatters store what is put**, for every initial buffer and every sequence of `Put` calls, shorter than
`2^30` bytes altogether. The first part is about a `ResizeableStringFormatter`, the others are about a plain
`StringFormatter`. -/
theorem puts_store (m₀ : Int → UInt8) (inBuffer : Int) (inBufSize : Nat) (buffers : List (List UInt8))
    (hsize : inBufSize < 4294967296) (htotal : buffers.flatten.length < 1073741824) :
    (∀ theNewBuffer, ∃ turns s, puts (resize theNewBuffer) turns (new m₀ inBuffer inBufSize) buffers = some s ∧
      s.content = buffers.flatten ∧ s.fBytesWritten = buffers.flatten.length) ∧
    (∃ turns s, puts plain turns (new m₀ inBuffer inBufSize) buffers = some s ∧ InBuffer inBuffer inBufSize s) ∧
    ∀ before buffer after, buffers = before ++ buffer :: after → ∃ turns s s',
      puts plain turns (new m₀ inBuffer inBufSize) before = some s ∧ put plain turns s buffer = some s' ∧
      StoresPrefix buffer s s' := by
  refine ⟨fun theNewBuffer => ?_, ?_, ?_⟩
  · have hnew : Has (new m₀ inBuffer inBufSize) [] inBufSize :=
      ⟨sized_new m₀ inBuffer hsize, content_new m₀ inBuffer inBufSize, rfl⟩
    have hput : ∀ s buffer rest, (∃ text room, Has s text room ∧ text ++ (buffer :: rest).flatten = buffers.flatten) →
        ∃ turns s', put (resize theNewBuffer) turns s buffer = some s' ∧
          ∃ text room, Has s' text room ∧ text ++ rest.flatten = buffers.flatten := by
      rintro s buffer rest ⟨text, room, hs, hall⟩
      rw [List.flatten_cons, ← List.append_assoc] at hall
      have hcount := congrArg List.length hall
      rw [List.length_append] at hcount
      have hshort : (text ++ buffer).length < 1073741824 := by omega
      obtain ⟨turns, s', hput, room', hs'⟩ := hs.put theNewBuffer hshort
      exact ⟨turns, s', hput, _, room', hs', hall⟩
    obtain ⟨turns, s, hputs, text, room, hs, hall⟩ := puts_of_put
      (fun s rest => ∃ text room, Has s text room ∧ text ++ rest.flatten = buffers.flatten) hput ⟨[], inBufSize, hnew, rfl⟩
    rw [List.flatten_nil, List.append_nil] at hall
    subst hall
    exact ⟨turns, s, hputs, hs.content, hs.written⟩
  · obtain ⟨turns, s, hputs, hs⟩ := @fills_puts inBufSize m₀ inBuffer hsize buffers 0 htotal
    exact ⟨turns, s, hputs, hs.stored⟩
  · rintro before buffer after rfl
    rw [List.flatten_append, List.flatten_cons, List.length_append, List.length_append] at htotal
    obtain ⟨turns, s, hputs, hs⟩ := fills_puts m₀ inBuffer hsize htotal
    obtain ⟨s', hput, -, hprefix⟩ := hs.put
    exact ⟨max turns 2, s, s', puts_mono hputs (Nat.le_max_left ..), put_mono hput (Nat.le_max_right ..), hprefix⟩

/-- A formatter that begins without a buffer. -/
theorem puts_store_null :
    (∀ theNewBuffer, ∃ turns s, puts (resize theNewBuffer) turns (new (fun _ => 0) 0 0) [[104, 105], [33]] = some s ∧
      s.content = [[104, 105], [33]].flatten ∧ s.fBytesWritten = ([[104, 105], [33]] : List (List UInt8)).flatten.length) ∧
    (∃ turns s, puts plain turns (new (fun _ => 0) 0 0) [[104, 105], [33]] = some s ∧ InBuffer 0 0 s) ∧
    ∀ before buffer after, ([[104, 105], [33]] : List (List UInt8)) = before ++ buffer :: after → ∃ turns s s',
      puts plain turns (new (fun _ => 0) 0 0) before = some s ∧ put plain turns s buffer = some s' ∧
      StoresPrefix buffer s s' :=
  puts_store (fun _ => 0) 0 0 [[104, 105], [33]] (by decide) (by decide)

end ToolLib.Common.StringFormatter
