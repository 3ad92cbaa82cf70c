import Mathlib.Data.Int.Basic
import Mathlib.Logic.Function.Basic
import ToolLib.Base.Access
import ToolLib.Base.Loop
import ToolLib.Common.StringTranslator

/-!
# DecodeURL in memory

`StringTranslator::DecodeURL` with its pointers: `inSrc` moves through the source, `ioDest` through the destination,
forward with every byte and back over dot segments, and the byte in front of `ioDest` is looked at again. Addresses
count from the start of each buffer.

`decodeURL_inside`: all accesses are inside the buffers, what is read back has been written, and `theLengthWritten` is
where `ioDest` is, also after a backup.
-/

namespace ToolLib.Common.DecodeURLMemory

open ToolLib.Base
open ToolLib.Common.StringTranslator (slash dot queryMark percent hexDigit TranslatorError)

inductive Region
  | inSrc
  | ioDest
  deriving DecidableEq

/-- The variables of `DecodeURL`, the destination, and what has been accessed. -/
structure Decoder where
  inSrc : Int
  inSrcLen : Int
  ioDest : Int
  dest : Int → UInt8
  theLengthWritten : Int
  numDotChars : Nat
  inQuery : Bool
  accesses : List (Access Region)

namespace Decoder

def new (inSrcLen : Int) (dest : Int → UInt8) : Decoder := ⟨0, inSrcLen, 0, dest, 0, 0, false, []⟩

def read (s : Decoder) (r : Region) (i : Int) : Decoder := { s with accesses := .read r i :: s.accesses }

/-- `*ioDest = tempChar` -/
def store (s : Decoder) (tempChar : UInt8) : Decoder :=
  { s with dest := Function.update s.dest s.ioDest tempChar, accesses := .write .ioDest s.ioDest :: s.accesses }

/-- "backup is required due to dot chars that need to be stripped" -/
def backup (s : Decoder) (tempChar : UInt8) : Decoder :=
  if tempChar = slash ∧ s.numDotChars ≤ 2 ∧ 0 < s.numDotChars then
    { s with
      ioDest := s.ioDest - (s.numDotChars + 1)
      theLengthWritten := s.theLengthWritten - (s.numDotChars + 1) }
  else s

/-- "track how many '.'s in a row we've gotten": `*ioDest` is what has just been written. -/
def countDots (s : Decoder) : Decoder :=
  let s' := s.read .ioDest s.ioDest
  if s.dest s.ioDest = dot then
    let s' := s'.read .ioDest (s.ioDest - 1)
    if s.numDotChars = 0 ∧ s.dest (s.ioDest - 1) = slash then { s' with numDotChars := s.numDotChars + 1 }
    else if 0 < s.numDotChars ∧ s.dest (s.ioDest - 1) = dot then { s' with numDotChars := s.numDotChars + 1 }
    else s'
  else { s' with numDotChars := 0 }

/-- The character goes to the destination. -/
def write (s : Decoder) (tempChar : UInt8) : Decoder :=
  let s' := if s.inQuery then s.store tempChar else ((s.backup tempChar).store tempChar).countDots
  { s' with theLengthWritten := s'.theLengthWritten + 1, ioDest := s'.ioDest + 1 }

/-- The next character of the source, or the one that the next three encode. -/
def fetch (src : Int → UInt8) (s : Decoder) : Option UInt8 × Decoder :=
  let s' := s.read .inSrc s.inSrc
  if src s.inSrc = percent then
    if s.inSrcLen < 3 then (none, s')
    else
      let s' := s'.read .inSrc (s.inSrc + 1)
      match hexDigit (src (s.inSrc + 1)) with
      | none => (none, s')
      | some high =>
        let s' := s'.read .inSrc (s.inSrc + 2)
        match hexDigit (src (s.inSrc + 2)) with
        | none => (none, s')
        | some low => (some (16 * high + low), { s' with inSrc := s.inSrc + 3, inSrcLen := s.inSrcLen - 3 })
  else if src s.inSrc = 0 then (none, s')
  else (some (src s.inSrc), { s' with inSrc := s.inSrc + 1, inSrcLen := s.inSrcLen - 1 })

/-- One turn of the loop of `DecodeURL`, and what is done behind it. -/
def turn (src : Int → UInt8) (inDestLen : Int) (s : Decoder) : Decoder ⊕ (Except TranslatorError Int × Decoder) :=
  if 0 < s.inSrcLen then
    if s.theLengthWritten = inDestLen then .inr (.error .OS_NotEnoughSpace, s)
    else
      match s.fetch src with
      | (none, s') => .inr (.error .OS_BadURLFormat, s')
      | (some tempChar, s') => .inl ({ s' with inQuery := s.inQuery || src s.inSrc = queryMark }.write tempChar)
  else .inr (.ok (if s.numDotChars ≤ 2 then s.theLengthWritten - s.numDotChars else s.theLengthWritten), s)

/-- A turn is at the end of the source, has no room left in the destination, cannot fetch a character, or writes one. -/
inductive Turned (src : Int → UInt8) (inDestLen : Int) (s : Decoder) :
    Decoder ⊕ (Except TranslatorError Int × Decoder) → Prop
  | atEnd (hend : ¬ 0 < s.inSrcLen) : Turned src inDestLen s
      (.inr (.ok (if s.numDotChars ≤ 2 then s.theLengthWritten - s.numDotChars else s.theLengthWritten), s))
  | full (hlen : 0 < s.inSrcLen) (hfull : s.theLengthWritten = inDestLen) :
    Turned src inDestLen s (.inr (.error .OS_NotEnoughSpace, s))
  | bad {s₁ : Decoder} (hlen : 0 < s.inSrcLen) (hroom : ¬ s.theLengthWritten = inDestLen)
      (hfetch : s.fetch src = (none, s₁)) :
    Turned src inDestLen s (.inr (.error .OS_BadURLFormat, s₁))
  | goesOn {c : UInt8} {s₁ : Decoder} (hlen : 0 < s.inSrcLen) (hroom : ¬ s.theLengthWritten = inDestLen)
      (hfetch : s.fetch src = (some c, s₁)) :
    Turned src inDestLen s (.inl ({ s₁ with inQuery := s.inQuery || src s.inSrc = queryMark }.write c))

/-- **What a turn does.** -/
theorem turned (src : Int → UInt8) (inDestLen : Int) (s : Decoder) : Turned src inDestLen s (s.turn src inDestLen) := by
  unfold turn
  split
  next hlen =>
    split
    next hfull => exact .full hlen hfull
    next hroom =>
      split
      next s₁ hfetch => exact .bad hlen hroom hfetch
      next c s₁ hfetch => exact .goesOn hlen hroom hfetch
  next hend => exact .atEnd hend

end Decoder

open Decoder

/-- `DecodeURL`, when its loop has `turns` turns at most. -/
def decodeURL (turns : Nat) (src : Int → UInt8) (inSrcLen : Int) (dest : Int → UInt8) (inDestLen : Int) :
    Option (Except TranslatorError Int × Decoder) :=
  if inSrcLen ≤ 0 then some (.error .OS_BadURLFormat, new inSrcLen dest)
  else if src 0 ≠ slash then some (.error .OS_BadURLFormat, (new inSrcLen dest).read .inSrc 0)
  else Loop.turns (turn src inDestLen) turns ((new inSrcLen dest).read .inSrc 0)

/-- Where the regions end; they start at 0. -/
def past (inSrcLen inDestLen : Int) : Region → Int
  | .inSrc => inSrcLen
  | .ioDest => inDestLen

/-- `theLengthWritten` is the distance of `ioDest` from its start. -/
def Placed (s : Decoder) : Prop := s.ioDest = s.theLengthWritten ∧ 0 ≤ s.theLengthWritten

/-- The pointers are in the buffers, which have `n` and `m` bytes; what is in front of `ioDest` has been written. -/
structure Sound (n m : Int) (s : Decoder) : Prop where
  source : 0 ≤ s.inSrc ∧ 0 ≤ s.inSrcLen ∧ s.inSrc + s.inSrcLen = n
  placed : Placed s
  room : s.theLengthWritten ≤ m
  written : ∀ i, 0 ≤ i → i < s.theLengthWritten → Access.write .ioDest i ∈ s.accesses
  inside : Access.Inside (fun _ => 0) (past n m) s.accesses
  before : Access.WrittenBefore .ioDest s.accesses

/-- The counted dots have been written, and a slash in front of them; the first character is a slash itself. -/
def DotsBehindSlash (s : Decoder) (tempChar : UInt8) : Prop :=
  s.numDotChars < s.theLengthWritten ∨ s.theLengthWritten = 0 ∧ s.numDotChars = 0 ∧ tempChar = slash

namespace Sound

variable {n m i : Int} {s : Decoder} {c : UInt8}

theorem read_src (h : Sound n m s) (hi : 0 ≤ i) (hlt : i < n) : Sound n m (s.read .inSrc i) where
  source := h.source
  placed := h.placed
  room := h.room
  written i hi hlt := List.mem_cons_of_mem _ (h.written i hi hlt)
  inside := Access.inside_cons.2 ⟨⟨hi, hlt⟩, h.inside⟩
  before := Access.writtenBefore_cons.2 ⟨fun _ heq => (by cases heq), h.before⟩

theorem read_dest (h : Sound n m s) (hi : 0 ≤ i) (hlt : i < m) (hw : Access.write .ioDest i ∈ s.accesses) :
    Sound n m (s.read .ioDest i) where
  source := h.source
  placed := h.placed
  room := h.room
  written i hi hlt := List.mem_cons_of_mem _ (h.written i hi hlt)
  inside := Access.inside_cons.2 ⟨⟨hi, hlt⟩, h.inside⟩
  before := Access.writtenBefore_cons.2 ⟨fun _ heq => (by cases heq; exact hw), h.before⟩

theorem backup (h : Sound n m s) (hd : DotsBehindSlash s c) : Sound n m (s.backup c) := by
  unfold Decoder.backup
  split
  next hback =>
    have hplace := h.placed.1
    have hroom := h.room
    have hdots : s.numDotChars < s.theLengthWritten := by
      rcases hd with hd | ⟨-, hzero, -⟩ <;> omega
    refine ⟨h.source, ⟨?_, ?_⟩, ?_, fun i hi hlt => h.written i hi ?_, h.inside, h.before⟩
    all_goals dsimp only at *; omega
  next => exact h

theorem store (h : Sound n m s) (hroom : s.theLengthWritten < m) : Sound n m (s.store c) where
  source := h.source
  placed := h.placed
  room := h.room
  written i hi hlt := List.mem_cons_of_mem _ (h.written i hi hlt)
  inside := by
    have hplace := h.placed
    refine Access.inside_cons.2 ⟨⟨?_, ?_⟩, h.inside⟩
    · show 0 ≤ s.ioDest
      rw [hplace.1]
      exact hplace.2
    · show s.ioDest < m
      rw [hplace.1]
      exact hroom
  before := Access.writtenBefore_cons.2 ⟨fun _ heq => (by cases heq), h.before⟩

theorem of_dots {k : Nat} (h : Sound n m s) : Sound n m { s with numDotChars := k } :=
  ⟨h.source, h.placed, h.room, h.written, h.inside, h.before⟩

theorem of_query {b : Bool} (h : Sound n m s) : Sound n m { s with inQuery := b } :=
  ⟨h.source, h.placed, h.room, h.written, h.inside, h.before⟩

theorem backup_of_ne (hc : c ≠ slash) : s.backup c = s := if_neg fun h => hc h.1

theorem backup_le : (s.backup c).theLengthWritten ≤ s.theLengthWritten := by
  unfold Decoder.backup
  split
  next =>
    dsimp only
    omega
  next => exact Int.le_refl _

/-- Dots are counted behind a slash. -/
theorem countDots (h : Sound n m s) (hroom : s.theLengthWritten < m) (hw : Access.write .ioDest s.ioDest ∈ s.accesses)
    (hdot : s.dest s.ioDest = dot → 0 < s.theLengthWritten) :
    Sound n m s.countDots ∧
      (s.countDots.numDotChars = 0 ∨ s.dest s.ioDest = dot ∧ s.countDots.numDotChars ≤ s.numDotChars + 1) ∧
      s.countDots.theLengthWritten = s.theLengthWritten ∧ s.countDots.ioDest = s.ioDest ∧
      Access.write .ioDest s.ioDest ∈ s.countDots.accesses := by
  have hplace := h.placed
  have hread := h.read_dest (i := s.ioDest) (by rw [hplace.1]; exact hplace.2) (by rw [hplace.1]; exact hroom) hw
  have hmem := List.mem_cons_of_mem (.read .ioDest s.ioDest) hw
  unfold Decoder.countDots
  by_cases hc : s.dest s.ioDest = dot
  · have hpos := hdot hc
    -- the byte in front of `ioDest` is there, and has been written
    have hback := hread.read_dest (i := s.ioDest - 1) (by rw [hplace.1]; omega) (by rw [hplace.1]; omega)
      (List.mem_cons_of_mem _ (h.written _ (by rw [hplace.1]; omega) (by rw [hplace.1]; omega)))
    have hmem' := List.mem_cons_of_mem (.read .ioDest (s.ioDest - 1)) hmem
    simp only [if_pos hc]
    split
    next => exact ⟨hback.of_dots, Or.inr ⟨hc, Nat.le_refl _⟩, rfl, rfl, hmem'⟩
    next =>
      split
      next => exact ⟨hback.of_dots, Or.inr ⟨hc, Nat.le_refl _⟩, rfl, rfl, hmem'⟩
      next => exact ⟨hback, Or.inr ⟨hc, Nat.le_succ _⟩, rfl, rfl, hmem'⟩
  · simp only [if_neg hc]
    exact ⟨hread.of_dots, Or.inl trivial, rfl, rfl, hmem⟩

/-- The pointer goes over the byte that has been written. -/
theorem advance (h : Sound n m s) (hroom : s.theLengthWritten < m) (hw : Access.write .ioDest s.ioDest ∈ s.accesses) :
    Sound n m { s with theLengthWritten := s.theLengthWritten + 1, ioDest := s.ioDest + 1 } where
  source := h.source
  placed := by
    have hplace := h.placed
    exact ⟨by rw [hplace.1], Int.le_trans hplace.2 (Int.le_of_lt (Int.lt_succ _))⟩
  room := hroom
  written i hi hlt := by
    rcases Int.lt_or_eq_of_le (Int.lt_add_one_iff.1 hlt) with hlt | heq
    · exact h.written i hi hlt
    · rw [heq, ← h.placed.1]
      exact hw
  inside := h.inside
  before := h.before

theorem write (h : Sound n m s) (hroom : s.theLengthWritten < m) (hd : DotsBehindSlash s c) :
    Sound n m (s.write c) ∧ (s.write c).numDotChars < (s.write c).theLengthWritten := by
  unfold Decoder.write
  by_cases hquery : s.inQuery = true
  · rw [if_pos hquery]
    refine ⟨(h.store hroom).advance hroom List.mem_cons_self, ?_⟩
    show (s.numDotChars : Int) < s.theLengthWritten + 1
    rcases hd with hd | ⟨hzero, hdots, -⟩ <;> omega
  · rw [if_neg hquery]
    have hback := h.backup hd
    have hlow := backup_le (s := s) (c := c)
    have hstore := hback.store (c := c) (by omega)
    have hself : ((s.backup c).store c).dest ((s.backup c).store c).ioDest = c := Function.update_self ..
    obtain ⟨hcount, hdots, hlen, hdest, hmem⟩ := hstore.countDots (by show (s.backup c).theLengthWritten < m; omega)
      List.mem_cons_self fun hdot => by
        rw [hself] at hdot
        show 0 < (s.backup c).theLengthWritten
        rw [backup_of_ne (by rw [hdot]; decide)]
        rcases hd with hd | ⟨-, -, hslash⟩
        · omega
        · rw [hslash] at hdot
          cases hdot
    have hlen : ((s.backup c).store c).countDots.theLengthWritten = (s.backup c).theLengthWritten := hlen
    refine ⟨hcount.advance (by omega) (by rw [hdest]; exact hmem), ?_⟩
    have hpos := hback.placed.2
    show (((s.backup c).store c).countDots.numDotChars : Int) < ((s.backup c).store c).countDots.theLengthWritten + 1
    rcases hdots with hzero | ⟨hdot, hle⟩
    · omega
    · -- there is no backup at a dot
      rw [hself] at hdot
      have hsame : s.backup c = s := backup_of_ne (by rw [hdot]; decide)
      have hle : ((s.backup c).store c).countDots.numDotChars ≤ (s.backup c).numDotChars + 1 := hle
      rw [hsame] at hle hlen
      rcases hd with hd | ⟨-, -, hslash⟩
      · rw [hsame]
        omega
      · rw [hslash] at hdot
        cases hdot

/-- What a turn fetches is in the source. -/
theorem fetch (src : Int → UInt8) (h : Sound n m s) (hlen : 0 < s.inSrcLen) : Sound n m (s.fetch src).2 := by
  obtain ⟨hlow, -, hsum⟩ := h.source
  have hread := h.read_src (i := s.inSrc) hlow (by omega)
  unfold Decoder.fetch
  split
  next =>
    split
    next => exact hread
    next hroom =>
      have hread₁ := hread.read_src (i := s.inSrc + 1) (by omega) (by omega)
      split
      next => exact hread₁
      next =>
        have hread₂ := hread₁.read_src (i := s.inSrc + 2) (by omega) (by omega)
        split
        next => exact hread₂
        next =>
          refine ⟨⟨?_, ?_, ?_⟩, hread₂.placed, hread₂.room, hread₂.written, hread₂.inside, hread₂.before⟩
          all_goals dsimp only; omega
  next =>
    split
    next => exact hread
    next =>
      refine ⟨⟨?_, ?_, ?_⟩, hread.placed, hread.room, hread.written, hread.inside, hread.before⟩
      all_goals dsimp only; omega

end Sound

section Turn

variable {src : Int → UInt8} {n m : Int} {s : Decoder} {c : UInt8}

/-- The destination is as it was, and there is less of the source left. -/
theorem fetch_frame (src : Int → UInt8) (s : Decoder) : (s.fetch src).2.theLengthWritten = s.theLengthWritten ∧
    (s.fetch src).2.numDotChars = s.numDotChars ∧
      ∀ c, (s.fetch src).1 = some c → (s.fetch src).2.inSrcLen < s.inSrcLen ∧ (src s.inSrc = slash → c = slash) := by
  unfold fetch
  split
  next hpercent =>
    split
    next => exact ⟨rfl, rfl, fun c hc => by cases hc⟩
    next =>
      split
      next => exact ⟨rfl, rfl, fun c hc => by cases hc⟩
      next =>
        split
        next => exact ⟨rfl, rfl, fun c hc => by cases hc⟩
        next =>
          refine ⟨rfl, rfl, fun c _ => ⟨?_, fun hslash => ?_⟩⟩
          · dsimp only
            omega
          · rw [hslash] at hpercent
            cases hpercent
  next =>
    split
    next => exact ⟨rfl, rfl, fun c hc => by cases hc⟩
    next =>
      refine ⟨rfl, rfl, fun c hc => ⟨?_, fun hslash => ?_⟩⟩
      · dsimp only
        omega
      · rw [← Option.some.inj hc, hslash]

/-- The invariant of the loop: before the first turn the slash is still in the source. -/
structure AtHead (src : Int → UInt8) (n m : Int) (s : Decoder) : Prop where
  sound : Sound n m s
  dots : DotsBehindSlash s (src s.inSrc)

theorem write_source : (s.write c).inSrc = s.inSrc ∧ (s.write c).inSrcLen = s.inSrcLen := by
  unfold write countDots backup
  grind [Decoder.store, Decoder.read]

/-- What is fetched first is the slash. -/
theorem AtHead.fetched {s₁ : Decoder} {q : Bool} (h : AtHead src n m s) (hs : s.fetch src = (some c, s₁)) :
    DotsBehindSlash { s₁ with inQuery := q } c := by
  obtain ⟨hwritten, hdots, hnext⟩ := fetch_frame src s
  rw [hs] at hwritten hdots hnext
  rcases h.dots with hd | ⟨hzero, hnone, hfirst⟩
  · exact Or.inl (by dsimp only at *; omega)
  · exact Or.inr ⟨hwritten.trans hzero, hdots.trans hnone, (hnext c rfl).2 hfirst⟩

theorem turn_inl {s' : Decoder} (h : AtHead src n m s) (hs : turn src m s = .inl s') :
    AtHead src n m s' ∧ s'.inSrcLen < s.inSrcLen := by
  have hturned := turned src m s
  rw [hs] at hturned
  cases hturned with
  | @goesOn c s₁ hlen hfull hfetch =>
    have hroom := h.sound.room
    have hsound := h.sound.fetch src hlen
    obtain ⟨hwritten, -, hnext⟩ := fetch_frame src s
    rw [hfetch] at hsound hwritten hnext
    obtain ⟨hsound, hlt⟩ := hsound.of_query.write (by dsimp only at *; omega) (h.fetched hfetch)
    refine ⟨⟨hsound, Or.inl hlt⟩, ?_⟩
    rw [write_source.2]
    exact (hnext c rfl).1

theorem turn_inr {r : Except TranslatorError Int × Decoder} (h : AtHead src n m s) (hs : turn src m s = .inr r) :
    Sound n m r.2 ∧ ∀ k, r.1 = .ok k → 0 ≤ k ∧ k ≤ m := by
  have hturned := turned src m s
  rw [hs] at hturned
  cases hturned with
  | atEnd hend =>
    refine ⟨h.sound, fun k hk => ?_⟩
    have hpos := h.sound.placed.2
    have hroom := h.sound.room
    have hdots : (s.numDotChars : Int) ≤ s.theLengthWritten := by
      rcases h.dots with hd | ⟨hzero, hnone, -⟩ <;> omega
    rw [← Except.ok.inj hk]
    split <;> omega
  | full hlen hfull => exact ⟨h.sound, fun k hk => by cases hk⟩
  | bad hlen hroom hfetch =>
    have hsound := h.sound.fetch src hlen
    rw [hfetch] at hsound
    exact ⟨hsound, fun k hk => by cases hk⟩

/-- What `DecodeURL` is in when its loop begins. -/
theorem atHead_new {dest : Int → UInt8} (hn : 0 < n) (hm : 0 ≤ m) (hslash : src 0 = slash) :
    AtHead src n m ((new n dest).read .inSrc 0) where
  sound := by
    refine Sound.read_src ⟨?_, ?_, hm, ?_, Access.inside_nil, trivial⟩ (Int.le_refl 0) hn
    · exact ⟨Int.le_refl 0, Int.le_of_lt hn, Int.zero_add n⟩
    · exact ⟨rfl, Int.le_refl 0⟩
    · intro i hi hlt
      exact absurd hlt (Int.not_lt.2 hi)
  dots := Or.inr ⟨rfl, rfl, hslash⟩

theorem AtHead.backup (h : AtHead src n m s) : Placed (s.backup c) := by
  by_cases hzero : s.theLengthWritten = 0
  · have hnone : s.numDotChars = 0 := by
      rcases h.dots with hd | ⟨-, hnone, -⟩ <;> omega
    have hsame : s.backup c = s := if_neg fun hback => by omega
    rw [hsame]
    exact h.sound.placed
  · exact (h.sound.backup (c := c) (h.dots.imp id fun hd => absurd hd.1 hzero)).placed

/-- The loop ends, and has stayed in the buffers. -/
theorem loop_ends (h : AtHead src n m s) :
    ∃ r, Loop.Ends (turn src m) s r ∧ Sound n m r.2 ∧ ∀ k, r.1 = .ok k → 0 ≤ k ∧ k ≤ m := by
  refine Loop.ends_of_measure (I := AtHead src n m) (fun s => s.inSrcLen.toNat) (fun s s' h hs => ?_)
    (fun s r h hs => turn_inr h hs) h
  obtain ⟨h', hless⟩ := turn_inl h hs
  have hleft := h.sound.source.2.1
  have hleft' := h'.sound.source.2.1
  exact ⟨h', by omega⟩

end Turn

/-- **`DecodeURL` stays inside its buffers**, also when it fails: it reads the source only, writes the destination only,
and reads back only what it has written. In every turn `theLengthWritten` is the distance of `ioDest` from its start and
not negative, also after a backup. The length that is returned is at most `inDestLen`. -/
theorem decodeURL_inside (src dest : Int → UInt8) (inSrcLen inDestLen : Int) (hdest : 0 ≤ inDestLen) :
    (∃ turns r s, decodeURL turns src inSrcLen dest inDestLen = some (r, s) ∧
        Access.Inside (fun _ => 0) (past inSrcLen inDestLen) s.accesses ∧ Access.WrittenBefore .ioDest s.accesses ∧
        ∀ n, r = .ok n → 0 ≤ n ∧ n ≤ inDestLen) ∧
      (0 < inSrcLen → src 0 = slash → ∀ s, Loop.Heads (turn src inDestLen) ((new inSrcLen dest).read .inSrc 0) s →
        Placed s ∧ ∀ tempChar, Placed (s.backup tempChar)) := by
  constructor
  · unfold decodeURL
    split
    next =>
      exact ⟨0, _, _, rfl, Access.inside_nil, trivial, fun n hn => by cases hn⟩
    next hpos =>
      have hlt : 0 < inSrcLen := Int.not_le.1 hpos
      split
      next =>
        refine ⟨0, _, _, rfl, Access.inside_cons.2 ⟨⟨Int.le_refl 0, hlt⟩, Access.inside_nil⟩,
          Access.writtenBefore_cons.2 ⟨fun i hi => (by cases hi), trivial⟩, fun n hn => by cases hn⟩
      next hslash =>
        obtain ⟨⟨r, s⟩, ⟨turns, hr⟩, hsound, hlen⟩ := loop_ends (atHead_new hlt hdest (not_not.1 hslash))
        exact ⟨turns, r, s, hr, hsound.inside, hsound.before, hlen⟩
  · intro hlt hslash s hs
    have h := Loop.heads_inv (I := AtHead src inSrcLen inDestLen) (fun s s' h hs => (turn_inl h hs).1)
      (atHead_new hlt hdest hslash) hs
    exact ⟨h.sound.placed, fun _ => h.backup⟩

/-- The path `/a/../b`, whose `..` is backed up over. -/
def backedUp : List UInt8 := [slash, 97, slash, dot, dot, slash, 98]

theorem decodeURL_inside_backup : (0 : Int) ≤ 8 ∧
    (∃ turns r s, decodeURL turns (memory backedUp fun _ => 0) 7 (fun _ => 0) 8 = some (r, s) ∧
        Access.Inside (fun _ => 0) (past 7 8) s.accesses ∧ Access.WrittenBefore .ioDest s.accesses ∧
        ∀ n, r = .ok n → 0 ≤ n ∧ n ≤ 8) ∧
      ((0 : Int) < 7 → memory backedUp (fun _ => 0) 0 = slash →
        ∀ s, Loop.Heads (turn (memory backedUp fun _ => 0) 8) ((new 7 fun _ => 0).read .inSrc 0) s →
          Placed s ∧ ∀ tempChar, Placed (s.backup tempChar)) :=
  ⟨by decide, decodeURL_inside (memory backedUp fun _ => 0) (fun _ => 0) 7 8 (by decide)⟩

end ToolLib.Common.DecodeURLMemory
