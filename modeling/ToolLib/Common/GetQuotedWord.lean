import Mathlib.Data.Int.Basic
import Mathlib.Data.List.TakeWhile
import Mathlib.Data.UInt
import ToolLib.Base.Loop
import ToolLib.Base.Strings

/-!
# GetQuotedWord

`GetQuotedWord` of GetWord.c: white space, a quote, and the word up to the next quote that stands by itself; two quotes
in a row are one quote of the word. `limit` counts the characters that are stored.

`getQuotedWord_undoes_quoting`: a word whose quotes have been doubled comes back, and no input makes it store more than
`limit` allows.
-/

namespace ToolLib.Common.GetQuotedWord

open ToolLib.Base

abbrev quote : UInt8 := 34

/-- The variables of `GetQuotedWord`, memory, and what has been stored. -/
structure Word where
  memory : Int → UInt8
  toWordPtr : Int
  fromStrPtr : Int
  limit : Int
  lastWasQuote : Bool
  accesses : List (Access Unit)

namespace Word

/-- `*toWordPtr++ = c` -/
def put (s : Word) (c : UInt8) : Word :=
  { s with
    memory := Function.update s.memory s.toWordPtr c
    toWordPtr := s.toWordPtr + 1
    accesses := .write () s.toWordPtr :: s.accesses }

/-- One turn of "trim any leading white space". -/
def trimTurn (memory : Int → UInt8) (fromStrPtr : Int) : Int ⊕ Int :=
  if memory fromStrPtr ≤ 32 ∧ memory fromStrPtr ≠ 0 then .inl (fromStrPtr + 1) else .inr fromStrPtr

/-- One turn of "copy until we find the last single quote". -/
def turn (s : Word) : Word ⊕ Word :=
  if s.limit ≠ 0 ∧ s.memory s.fromStrPtr ≠ 0 then
    let c := s.memory s.fromStrPtr
    -- "consume the char we read"
    let consumed := { s with fromStrPtr := s.fromStrPtr + 1 }
    if c = quote then
      if s.lastWasQuote then .inl { consumed.put quote with lastWasQuote := false, limit := s.limit - 1 }
      else .inl { consumed with lastWasQuote := true }
    else if s.lastWasQuote = false then .inl { consumed.put c with limit := s.limit - 1 }
    -- "we're done, hit a quote by itself"
    else .inr s
  else .inr s

/-- `*toWordPtr = 0x00` -/
def terminate (s : Word) : Word :=
  { s with memory := Function.update s.memory s.toWordPtr 0, accesses := .write () s.toWordPtr :: s.accesses }

end Word

open Word

/-- `GetQuotedWord`, when each of its loops has `turns` turns at most; `fromStrPtr` is returned. -/
def getQuotedWord (turns : Nat) (memory : Int → UInt8) (toWordPtr fromStrPtr limit : Int) : Option Word :=
  (Loop.turns (trimTurn memory) turns fromStrPtr).bind fun fromStrPtr =>
    if memory fromStrPtr = quote then
      (Loop.turns turn turns ⟨memory, toWordPtr, fromStrPtr + 1, limit, false, []⟩).map terminate
    else some (terminate ⟨memory, toWordPtr, fromStrPtr, limit, false, []⟩)

/-- The word with every quote doubled. -/
def doubled (s : List UInt8) : List UInt8 := s.flatMap fun c => if c = quote then [quote, quote] else [c]

/-- What is stored does not get into the way of what is still to be read: the word goes in front of the text, or
over it from its start on, or behind its end. -/
def Apart (toWordPtr fromStrPtr : Int) (n : Nat) : Prop := toWordPtr ≤ fromStrPtr ∨ fromStrPtr + n < toWordPtr

/-! ## White space -/

section Trim

variable {m : Int → UInt8} {p : Int} {white text : List UInt8}

/-- The first loop stops behind the white space. -/
theorem trim_spec (hwhite : ∀ c ∈ white, c ≤ 32) (htext : ∀ c ∈ text.head?, ¬ c ≤ 32) (h : IsString m p (white ++ text)) :
    Loop.Ends (trimTurn m) p (p + white.length) ∧ IsString m (p + white.length) text := by
  induction white generalizing p with
  | nil =>
    have hzero : p + (([] : List UInt8).length : Int) = p := Int.add_zero p
    rw [hzero]
    refine ⟨Loop.ends_inr (if_neg ?_), h⟩
    rintro ⟨hle, hne⟩
    cases text with
    | nil => exact hne h
    | cons c text => exact htext c rfl (h.1.1 ▸ hle)
  | cons c white ih =>
    obtain ⟨⟨hc, hne⟩, hrest⟩ := h
    have hnext : p + ((c :: white).length : Int) = p + 1 + white.length := by rw [List.length_cons]; omega
    obtain ⟨hends, hstring⟩ := ih (fun d hd => hwhite d (List.mem_cons_of_mem _ hd)) hrest
    have hturn : trimTurn m p = .inl (p + 1) := if_pos (hc ▸ ⟨hwhite c List.mem_cons_self, hne⟩)
    rw [hnext]
    exact ⟨(Loop.ends_inl hturn).2 hends, hstring⟩

/-- Every text is white space, and something that does not begin with white space. -/
theorem exists_trim (text : List UInt8) :
    ∃ white rest, text = white ++ rest ∧ (∀ c ∈ white, c ≤ 32) ∧ ∀ c ∈ rest.head?, ¬ c ≤ 32 := by
  refine ⟨text.takeWhile (decide <| · ≤ 32), text.dropWhile (decide <| · ≤ 32), List.takeWhile_append_dropWhile.symm,
    fun c hc => ?_, fun c hc => ?_⟩
  · exact of_decide_eq_true (List.mem_takeWhile_imp (p := (decide <| · ≤ 32)) hc)
  · have hfirst := List.head?_dropWhile_not (decide <| · ≤ 32) text
    rw [Option.mem_def.1 hc] at hfirst
    simpa using hfirst

end Trim

/-! ## The word -/

section Turns

variable {s : Word} {c : UInt8}

theorem turn_doubled (hlimit : s.limit ≠ 0) (hc : s.memory s.fromStrPtr = quote) (hlast : s.lastWasQuote = true) :
    s.turn = .inl { { s with fromStrPtr := s.fromStrPtr + 1 }.put quote with
      lastWasQuote := false, limit := s.limit - 1 } := by
  rw [turn, hc, if_pos ⟨hlimit, by decide⟩]
  dsimp only
  rw [if_pos rfl, if_pos hlast]

theorem turn_quote (hlimit : s.limit ≠ 0) (hc : s.memory s.fromStrPtr = quote) (hlast : s.lastWasQuote = false) :
    s.turn = .inl { s with fromStrPtr := s.fromStrPtr + 1, lastWasQuote := true } := by
  rw [turn, hc, if_pos ⟨hlimit, by decide⟩]
  dsimp only
  rw [if_pos rfl, if_neg (by rw [hlast]; decide)]

theorem turn_character (hlimit : s.limit ≠ 0) (hc : s.memory s.fromStrPtr = c) (hne : c ≠ quote) (hzero : c ≠ 0)
    (hlast : s.lastWasQuote = false) :
    s.turn = .inl { { s with fromStrPtr := s.fromStrPtr + 1 }.put c with limit := s.limit - 1 } := by
  rw [turn, hc, if_pos ⟨hlimit, hzero⟩]
  dsimp only
  rw [if_neg hne, if_pos hlast]

/-- The quote before was by itself: this is the end of the word. -/
theorem turn_end (hc : s.memory s.fromStrPtr ≠ quote) (hlast : s.lastWasQuote = true) : s.turn = .inr s := by
  unfold turn
  split
  next =>
    dsimp only
    rw [if_neg hc, if_neg (by rw [hlast]; decide)]
  next => rfl

end Turns

/-- Where the loop stops when the word `x` comes back: the word has been stored, and the closing quote is behind. -/
structure Stopped (s s' : Word) (x : List UInt8) : Prop where
  memory : s'.memory = store s.memory s.toWordPtr x
  toWordPtr : s'.toWordPtr = s.toWordPtr + x.length
  fromStrPtr : s'.fromStrPtr = s.fromStrPtr + ((doubled x).length + 1 : Nat)

section Undo

variable {s s' : Word} {x rest : List UInt8}

theorem Stopped.terminate (h : Stopped s s' x) : s'.terminate.memory = store s.memory s.toWordPtr (x ++ [0]) := by
  rw [store_append, ← h.memory, ← h.toWordPtr]
  rfl

theorem mem_doubled {c : UInt8} (hc : c ∈ x) : c ∈ doubled x := by
  refine List.mem_flatMap.2 ⟨c, hc, ?_⟩
  split
  next hquote => exact hquote ▸ List.mem_cons_self
  next => exact List.mem_singleton_self c

/-- A character that is stored is not among those that are still to be read. -/
theorem isString_put {m : Int → UInt8} {p q : Int} {c d : UInt8} {text : List UInt8} (h : IsString m p (c :: text))
    (hapart : q ≤ p ∨ p + ((c :: text).length : Int) < q) : IsString (Function.update m q d) (p + 1) text := by
  refine h.2.of_eq fun j hj hle => Function.update_of_ne ?_ _ _
  rw [List.length_cons] at hapart
  omega

/-- **The loop undoes the doubling**, and stops at what is behind the closing quote. -/
theorem ends_doubled (h : IsString s.memory s.fromStrPtr (doubled x ++ quote :: rest)) (hrest : rest.head? ≠ some quote)
    (hlast : s.lastWasQuote = false) (hlimit : (x.length : Int) < s.limit)
    (hapart : s.toWordPtr < s.fromStrPtr ∨ s.fromStrPtr + (doubled x ++ quote :: rest).length < s.toWordPtr) :
    ∃ s', Loop.Ends turn s s' ∧ Stopped s s' x := by
  induction x generalizing s with
  | nil =>
    obtain ⟨⟨hc, -⟩, hbehind⟩ := h
    rw [List.length_nil] at hlimit
    have hquote := turn_quote (by omega) hc hlast
    have hstop : s.memory (s.fromStrPtr + 1) ≠ quote := by
      cases rest with
      | nil => exact fun heq => absurd (heq.symm.trans hbehind) (by decide)
      | cons c rest => exact fun heq => hrest (congrArg some (hbehind.1.1.symm.trans heq))
    have hend := turn_end (s := { s with fromStrPtr := s.fromStrPtr + 1, lastWasQuote := true }) hstop rfl
    exact ⟨_, (Loop.ends_inl hquote).2 (Loop.ends_inr hend), rfl, (Int.add_zero _).symm, rfl⟩
  | cons c x ih =>
    rw [List.length_cons] at hlimit
    by_cases hquote : c = quote
    · -- two quotes are read, and one is stored
      subst hquote
      have hdoubled : doubled (quote :: x) = quote :: quote :: doubled x := rfl
      rw [hdoubled] at h hapart
      simp only [List.cons_append, List.length_cons] at h hapart
      have hfirst := turn_quote (by omega) h.1.1 hlast
      have hsecond := turn_doubled (s := { s with fromStrPtr := s.fromStrPtr + 1, lastWasQuote := true })
        (by dsimp only; omega) h.2.1.1 rfl
      obtain ⟨s', hends, hs'⟩ := ih (s := { { s with fromStrPtr := s.fromStrPtr + 1 + 1 }.put quote with
          lastWasQuote := false, limit := s.limit - 1 })
        (isString_put h.2 (by simp only [List.length_cons]; omega)) rfl (by dsimp only; omega)
        (by dsimp only [Word.put]; omega)
      refine ⟨s', (Loop.ends_inl hfirst).2 ((Loop.ends_inl hsecond).2 hends), hs'.memory, ?_, ?_⟩
      · rw [hs'.toWordPtr, List.length_cons]
        show s.toWordPtr + 1 + _ = _
        omega
      · rw [hs'.fromStrPtr, hdoubled, List.length_cons, List.length_cons]
        show s.fromStrPtr + 1 + 1 + _ = _
        omega
    · have hdoubled : doubled (c :: x) = c :: doubled x := by
        rw [doubled, List.flatMap_cons, if_neg hquote]
        rfl
      rw [hdoubled] at h hapart
      simp only [List.cons_append, List.length_cons] at h hapart
      have hturn := turn_character (by omega) h.1.1 hquote h.1.2 hlast
      obtain ⟨s', hends, hs'⟩ := ih (s := { { s with fromStrPtr := s.fromStrPtr + 1 }.put c with limit := s.limit - 1 })
        (isString_put h (by simp only [List.length_cons]; omega)) hlast (by dsimp only; omega)
        (by dsimp only [Word.put]; omega)
      refine ⟨s', (Loop.ends_inl hturn).2 hends, hs'.memory, ?_, ?_⟩
      · rw [hs'.toWordPtr, List.length_cons]
        show s.toWordPtr + 1 + _ = _
        omega
      · rw [hs'.fromStrPtr, hdoubled, List.length_cons]
        show s.fromStrPtr + 1 + _ = _
        omega

end Undo

/-! ## The limit -/

/-- What the loop keeps to: it began with `limit` and has stored as many characters as it has counted, one after another,
and nothing else. -/
structure Within (m₀ : Int → UInt8) (toWordPtr limit : Int) (s : Word) : Prop where
  limit : 0 ≤ s.limit ∧ s.limit + s.accesses.length = limit
  place : s.toWordPtr = toWordPtr + s.accesses.length
  inside : Access.Inside (fun _ => toWordPtr) (fun _ => s.toWordPtr) s.accesses
  elsewhere : ∀ j, j < toWordPtr ∨ s.toWordPtr ≤ j → s.memory j = m₀ j

section Limit

variable {m₀ : Int → UInt8} {toWordPtr limit : Int} {s s' : Word} {c : UInt8}

theorem Within.put (h : Within m₀ toWordPtr limit s) {p : Int} {b : Bool} (hlimit : s.limit ≠ 0) :
    Within m₀ toWordPtr limit { { s with fromStrPtr := p }.put c with lastWasQuote := b, limit := s.limit - 1 } := by
  obtain ⟨hpos, hsum⟩ := h.limit
  have hplace := h.place
  refine ⟨⟨by dsimp only; omega, ?_⟩, ?_, Access.inside_cons.2 ⟨?_, fun a ha => ?_⟩, fun j hj => ?_⟩
  · simp only [Word.put, List.length_cons]
    omega
  · simp only [Word.put, List.length_cons]
    omega
  · show toWordPtr ≤ s.toWordPtr ∧ s.toWordPtr < s.toWordPtr + 1
    omega
  · have hin := h.inside a ha
    exact ⟨hin.1, Int.lt_trans hin.2 (Int.lt_succ s.toWordPtr)⟩
  · have hj : j < toWordPtr ∨ s.toWordPtr + 1 ≤ j := hj
    show Function.update s.memory s.toWordPtr c j = m₀ j
    rw [Function.update_of_ne (by omega)]
    exact h.elsewhere j (by omega)

/-- A turn goes on with less of the limit, or with a quote behind it; otherwise the loop ends. -/
theorem Within.turned (h : Within m₀ toWordPtr limit s) :
    (∃ s', s.turn = .inl s' ∧ Within m₀ toWordPtr limit s' ∧
        2 * s'.limit.toNat + (if s'.lastWasQuote then 0 else 1) < 2 * s.limit.toNat + (if s.lastWasQuote then 0 else 1)) ∨
      s.turn = .inr s := by
  obtain ⟨hpos, hsum⟩ := h.limit
  by_cases hgo : s.limit ≠ 0 ∧ s.memory s.fromStrPtr ≠ 0
  · obtain ⟨hlimit, hzero⟩ := hgo
    cases hlast : s.lastWasQuote with
    | true =>
      by_cases hquote : s.memory s.fromStrPtr = quote
      · refine Or.inl ⟨_, turn_doubled hlimit hquote hlast, h.put hlimit, ?_⟩
        simp only [Bool.false_eq_true, if_false, if_true]
        omega
      · exact Or.inr (turn_end hquote hlast)
    | false =>
      by_cases hquote : s.memory s.fromStrPtr = quote
      · refine Or.inl ⟨_, turn_quote hlimit hquote hlast, ⟨h.limit, h.place, h.inside, h.elsewhere⟩, ?_⟩
        simp
      · refine Or.inl ⟨_, turn_character hlimit rfl hquote hzero hlast, h.put hlimit, ?_⟩
        simp only [Word.put, hlast, Bool.false_eq_true, if_false]
        omega
  · exact Or.inr (if_neg hgo)

theorem Within.ends (h : Within m₀ toWordPtr limit s) : ∃ s', Loop.Ends turn s s' ∧ Within m₀ toWordPtr limit s' :=
  Loop.ends_of_turn (fun s => 2 * s.limit.toNat + (if s.lastWasQuote then 0 else 1))
    (fun s hs => hs.turned.imp id fun hturn => ⟨s, hturn, hs⟩) h

/-- What has been stored when the call returns: `limit` characters at most, and the NUL. -/
structure AtMost (m₀ : Int → UInt8) (toWordPtr limit : Int) (r : Word) : Prop where
  stored : r.accesses.length ≤ limit + 1
  inside : Access.Inside (fun _ => toWordPtr) (fun _ => toWordPtr + limit + 1) r.accesses
  elsewhere : ∀ j, j < toWordPtr ∨ toWordPtr + limit < j → r.memory j = m₀ j
  terminated : r.memory r.toWordPtr = 0

theorem Within.terminate (h : Within m₀ toWordPtr limit s) : AtMost m₀ toWordPtr limit s.terminate := by
  obtain ⟨hpos, hsum⟩ := h.limit
  have hplace := h.place
  refine ⟨?_, Access.inside_cons.2 ⟨?_, fun a ha => ?_⟩, fun j hj => ?_, Function.update_self ..⟩
  · show ((s.accesses.length + 1 : Nat) : Int) ≤ limit + 1
    omega
  · show toWordPtr ≤ s.toWordPtr ∧ s.toWordPtr < toWordPtr + limit + 1
    omega
  · have hin := h.inside a ha
    have hlt : a.address < s.toWordPtr := hin.2
    exact ⟨hin.1, by show a.address < toWordPtr + limit + 1; omega⟩
  · show Function.update s.memory s.toWordPtr 0 j = m₀ j
    rw [Function.update_of_ne (by omega)]
    exact h.elsewhere j (by omega)

end Limit

/-! ## GetQuotedWord -/

section GetQuotedWord

variable {m : Int → UInt8} {toWordPtr fromStrPtr limit : Int} {white rest x : List UInt8} {p : Int} {r : Word}

/-- Both loops end. -/
theorem getQuotedWord_of_ends (htrim : Loop.Ends (trimTurn m) fromStrPtr p) (hquote : m p = quote)
    (hloop : Loop.Ends turn ⟨m, toWordPtr, p + 1, limit, false, []⟩ r) :
    ∃ turns, getQuotedWord turns m toWordPtr fromStrPtr limit = some r.terminate := by
  obtain ⟨n, hn⟩ := htrim
  obtain ⟨k, hk⟩ := hloop
  refine ⟨max n k, ?_⟩
  rw [getQuotedWord, Loop.turns_mono hn (Nat.le_max_left ..), Option.bind_some, if_pos hquote,
    Loop.turns_mono hk (Nat.le_max_right ..), Option.map_some]

/-- **`GetQuotedWord` undoes quoting.** For a word with fewer characters than `limit`, in white space and quotes and with
its own quotes doubled, it stores the word with a NUL and nothing else, and returns where the rest begins. For every input and every limit
that is not negative it returns, and stores at most `limit` characters and the NUL. -/
theorem getQuotedWord_undoes_quoting (m : Int → UInt8) (toWordPtr fromStrPtr limit : Int) :
    (∀ white x rest, (∀ c ∈ white, c ≤ 32) → rest.head? ≠ some quote → (x.length : Int) < limit →
      IsString m fromStrPtr (white ++ quote :: (doubled x ++ quote :: rest)) →
      Apart toWordPtr fromStrPtr (white ++ quote :: (doubled x ++ quote :: rest)).length →
      ∃ turns r, getQuotedWord turns m toWordPtr fromStrPtr limit = some r ∧
        r.memory = store m toWordPtr (x ++ [0]) ∧ IsString r.memory toWordPtr x ∧
        r.fromStrPtr = fromStrPtr + (white.length + 1 + (doubled x).length + 1 : Nat)) ∧
    (0 ≤ limit → ∀ text, IsString m fromStrPtr text →
      ∃ turns r, getQuotedWord turns m toWordPtr fromStrPtr limit = some r ∧ AtMost m toWordPtr limit r) := by
  constructor
  · intro white x rest hwhite hrest hlimit hstring hapart
    obtain ⟨htrim, hquoted⟩ := trim_spec hwhite (by simp +decide) hstring
    have hapart' : toWordPtr < fromStrPtr + white.length + 1 ∨
        fromStrPtr + white.length + 1 + (doubled x ++ quote :: rest).length < toWordPtr := by
      rw [Apart, List.length_append, List.length_cons] at hapart
      omega
    obtain ⟨s, hloop, hs⟩ := ends_doubled (s := ⟨m, toWordPtr, fromStrPtr + white.length + 1, limit, false, []⟩) hquoted.2
      hrest rfl hlimit hapart'
    obtain ⟨turns, hcall⟩ := getQuotedWord_of_ends htrim hquoted.1.1 hloop
    refine ⟨turns, _, hcall, hs.terminate, ?_, ?_⟩
    · have hfree : 0 ∉ x := fun hmem =>
        (isString_iff.1 hquoted.2).2 (List.mem_append_left _ (mem_doubled hmem))
      rw [hs.terminate]
      exact isString_store hfree
    · show s.fromStrPtr = _
      rw [hs.fromStrPtr]
      dsimp only
      omega
  · intro hlimit text hstring
    obtain ⟨white, rest, rfl, hwhite, hrest⟩ := exists_trim text
    obtain ⟨htrim, -⟩ := trim_spec hwhite hrest hstring
    have hwithin : ∀ q, Within m toWordPtr limit ⟨m, toWordPtr, q, limit, false, []⟩ := fun q =>
      ⟨⟨hlimit, Int.add_zero _⟩, (Int.add_zero _).symm, Access.inside_nil, fun _ _ => rfl⟩
    by_cases hquote : m (fromStrPtr + white.length) = quote
    · obtain ⟨s, hloop, hs⟩ := (hwithin (fromStrPtr + white.length + 1)).ends
      obtain ⟨turns, hcall⟩ := getQuotedWord_of_ends htrim hquote hloop
      exact ⟨turns, _, hcall, hs.terminate⟩
    · obtain ⟨n, hn⟩ := htrim
      refine ⟨n, _, ?_, (hwithin (fromStrPtr + white.length)).terminate⟩
      rw [getQuotedWord, hn, Option.bind_some, if_neg hquote]

/-- `" "a""b" c"`, the word behind it. -/
theorem getQuotedWord_undoes_quoting_ab : ∃ turns r,
    getQuotedWord turns (memory [32, 34, 97, 34, 34, 98, 34, 32, 99, 0] fun _ => 0) 20 0 4 = some r ∧
      r.memory = store (memory [32, 34, 97, 34, 34, 98, 34, 32, 99, 0] fun _ => 0) 20 ([97, 34, 98] ++ [0]) ∧
      IsString r.memory 20 [97, 34, 98] ∧ r.fromStrPtr = 0 + (1 + 1 + 4 + 1 : Nat) :=
  (getQuotedWord_undoes_quoting _ _ _ _).1 [32] [97, 34, 98] [32, 99] (by simp) (by decide) (by decide) (by decide)
    (Or.inr (by decide))

end GetQuotedWord

end ToolLib.Common.GetQuotedWord
