import ToolLib.Common.ParserCalls

/-!
# The stream of a parser

The bytes from `fStartGet` to `fEndGet` are the stream of `Common.StringParser`. A call of the parser in memory does to
it what the function on lists does, and reports the same (`call_refines`), and so does a run of calls (`calls_refine`).
So the stream says how many bytes the calls consume, and the line number is right until the line ends in them are too
many for an `int` (`consumed_lines_iff`).
-/

namespace ToolLib.Common.ParserMemory

open ToolLib.Base
open ToolLib.Common.StringParser (carriageReturn lineFeed sEOLMask)

/-! ## Calls on a stream -/

/-- What a call gives, with the bytes of its `outString`. -/
structure Answer where
  outString : Option (List UInt8) := none
  found : Option Bool := none
  value : Option Nat := none
  deriving DecidableEq

/-- A call on a stream: the answer, and what is left. -/
def callOn (stream : List UInt8) : Call → Answer × List UInt8
  | .expect stopChar =>
    let (found, left) := Common.StringParser.expect stopChar stream
    ({ found := some found }, left)
  | .expectEOL =>
    let (found, left) := Common.StringParser.expectEOL stream
    ({ found := some found }, left)
  | .consumeUntil inStop =>
    let (outString, left) := Common.StringParser.consumeUntil (fun c => c = inStop) stream
    ({ outString := some outString }, left)
  | .consumeUntilMask inMask =>
    let (outString, left) := Common.StringParser.consumeUntil inMask stream
    ({ outString := some outString }, left)
  | .consumeLength inLength => ({ outString := some (stream.take inLength.1.toNat) }, stream.drop inLength.1.toNat)
  | .consumeInteger =>
    let (outString, left) := Common.StringParser.consumeUntil StringParser.noDigit stream
    ({ outString := some outString, value := some (Common.StringParser.consumeInteger stream) }, left)
  | .consumeEOL =>
    let (_, left) := Common.StringParser.expectEOL stream
    ({ outString := some (stream.take (stream.length - left.length)) }, left)
  | .getThru inStopChar =>
    let (outString, found, left) := Common.StringParser.getThru inStopChar stream
    ({ outString := some outString, found := some found }, left)
  | .getThruEOL =>
    let (outString, found, left) := Common.StringParser.getThruEOL stream
    ({ outString := some outString, found := some found }, left)

def streamStep (stream : List UInt8) (c : Call) : Option (List UInt8) := some (callOn stream c).2

def streamObserve (stream : List UInt8) (c : Call) (_ : List UInt8) : Option Answer := some (callOn stream c).1

def Report.answer (buffer : Int → UInt8) (r : Report) : Answer where
  outString := r.outString.map fun s => bytesFrom buffer s.Ptr s.Len.toNat
  found := r.found
  value := r.value.map UInt32.toNat

namespace StringParser

/-- The bytes from `fStartGet` to `fEndGet`. -/
def stream (buffer : Int → UInt8) (fEndGet : Int) (p : StringParser) : List UInt8 :=
  bytesFrom buffer p.fStartGet (fEndGet - p.fStartGet).toNat

variable {b : Int → UInt8} {e : Int} {f : UInt8 → Bool} {c : UInt8} {p p' : StringParser} {m n : Nat}

/-! ## The stream in memory -/

theorem stream_end (h : e ≤ p.fStartGet) : p.stream b e = [] := by
  rw [stream, Int.toNat_of_nonpos (by omega)]
  rfl

theorem stream_cons (h : p.fStartGet < e) :
    p.stream b e = b p.fStartGet :: bytesFrom b (p.fStartGet + 1) (e - (p.fStartGet + 1)).toNat := by
  have hlen : (e - p.fStartGet).toNat = (e - (p.fStartGet + 1)).toNat + 1 := by omega
  rw [stream, hlen, bytesFrom_succ]

theorem head?_stream : (p.stream b e).head? = if p.fStartGet < e then some (b p.fStartGet) else none := by
  split
  next hlt => rw [stream_cons hlt, List.head?_cons]
  next hstop => rw [stream_end (Int.not_lt.1 hstop), List.head?_nil]

theorem length_stream : (p.stream b e).length = (e - p.fStartGet).toNat := length_bytesFrom

/-- What has been moved over is the beginning of the stream. -/
theorem stream_moved (h : Moved b e p p' m) : p.stream b e = bytesFrom b p.fStartGet m ++ p'.stream b e := by
  have hstart := h.start
  have hstop := h.stop
  have hlen : (e - p.fStartGet).toNat = m + (e - p'.fStartGet).toNat := by omega
  rw [stream, hlen, bytesFrom_add, ← hstart]
  rfl

theorem take_stream (h : Moved b e p p' m) : (p.stream b e).take m = bytesFrom b p.fStartGet m := by
  rw [stream_moved h]
  exact List.take_left' length_bytesFrom

theorem drop_stream (h : Moved b e p p' m) : (p.stream b e).drop m = p'.stream b e := by
  rw [stream_moved h]
  exact List.drop_left' length_bytesFrom

theorem stream_stayed (h : Moved b e p p' 0) : p'.stream b e = p.stream b e := (stream_moved h).symm

/-! ## Every call -/

theorem consumeUntil_stream (h : Moved b e p p' m)
    (hbefore : ∀ i, p.fStartGet ≤ i → i < p.fStartGet + m → f (b i) = false)
    (hat : p.fStartGet + m < e → f (b (p.fStartGet + m)) = true) :
    Common.StringParser.consumeUntil f (p.stream b e) = (bytesFrom b p.fStartGet m, p'.stream b e) := by
  have hall : ∀ x ∈ bytesFrom b p.fStartGet m, (!f x) = true := by
    intro x hx
    obtain ⟨k, hk, rfl⟩ := mem_bytesFrom.1 hx
    rw [hbefore _ (by omega) (by omega), Bool.not_false]
  rw [stream_moved h, Common.StringParser.consumeUntil, List.takeWhile_append_of_pos hall,
    List.dropWhile_append_of_pos hall]
  rw [← h.start] at hat
  by_cases hlt : p'.fStartGet < e
  · have hstop := hat hlt
    rw [stream_cons hlt, List.takeWhile_cons_of_neg (by simp [hstop]), List.dropWhile_cons_of_neg (by simp [hstop]),
      List.append_nil]
  · rw [stream_end (Int.not_lt.1 hlt)]
    exact congrArg (·, _) (List.append_nil _)

theorem expect_stream (hp : 0 ≤ p.fStartGet) (hend : p.fStartGet ≤ e) :
    Common.StringParser.expect c (p.stream b e) = ((p.expect b e c).1, (p.expect b e c).2.stream b e) := by
  unfold Common.StringParser.expect
  rcases expect_spec (b := b) (c := c) hp hend with ⟨hfound, hlt, hc, hm⟩ | ⟨hfound, hne, hm⟩
  · rw [stream_moved hm, bytesFrom_one, hc, hfound, List.singleton_append, List.head?_cons, if_pos rfl]
    rfl
  · rw [stream_stayed hm, hfound]
    refine if_neg fun hhead => ?_
    rw [head?_stream] at hhead
    split at hhead
    next hlt => exact hne hlt (Option.some.inj hhead)
    next => cases hhead

theorem expectEOL_stream (hp : 0 ≤ p.fStartGet) (hend : p.fStartGet ≤ e) :
    Common.StringParser.expectEOL (p.stream b e) = ((p.expectEOL b e).1, (p.expectEOL b e).2.stream b e) := by
  rcases expectEOL_spec (b := b) hp hend with ⟨hfound, hlt, m, hm, heol⟩ | ⟨hfound, hno, hm⟩
  · have hstart := hm.start
    rw [stream_moved hm, hfound]
    cases heol with
    | one heol hno =>
      rw [bytesFrom_one, List.singleton_append, Common.StringParser.expectEOL, if_pos heol, if_neg]
      rw [head?_stream, hstart]
      rintro ⟨hreturn, hhead⟩
      split at hhead
      next hnext => exact hno ⟨hreturn, hnext, Option.some.inj hhead⟩
      next => cases hhead
    | both hreturn hlt hfeed =>
      rw [bytesFrom_two, hreturn, hfeed]
      rfl
  · rw [stream_stayed hm, hfound]
    by_cases hlt : p.fStartGet < e
    · rw [stream_cons hlt, Common.StringParser.expectEOL, hno hlt]
      rfl
    · rw [stream_end (Int.not_lt.1 hlt)]
      rfl

theorem consumeUntilMask_stream (hp : 0 ≤ p.fStartGet) (hend : p.fStartGet ≤ e) :
    ∃ outString p', p.consumeUntilMask b e f = (outString, p') ∧ 0 ≤ p'.fStartGet ∧ p'.fStartGet ≤ e ∧
      Common.StringParser.consumeUntil f (p.stream b e) =
        (bytesFrom b outString.Ptr outString.Len.toNat, p'.stream b e) := by
  obtain ⟨m, p', hout, hm, hbefore, hat⟩ := consumeUntilMask_spec (b := b) (f := f) hp hend
  have hstart := hm.start
  exact ⟨_, p', hout, by omega, hm.stop, consumeUntil_stream hm hbefore hat⟩

/-- The value of `ConsumeInteger`. -/
theorem integerLoop_fst {theValue : UInt32} {l : Nat} :
    (p.integerLoop b l theValue).1.toNat = ((bytesFrom b p.fStartGet l).takeWhile fun c => 48 ≤ c && c ≤ 57).foldl
      (fun v c => (v * 10 + (c.toNat - 48)) % 4294967296) theValue.toNat := by
  induction l generalizing p theValue with
  | zero => rfl
  | succ l ih =>
    rw [bytesFrom_succ, integerLoop]
    by_cases hdigit : 48 ≤ b p.fStartGet ∧ b p.fStartGet ≤ 57
    · rw [if_pos hdigit, ih, List.takeWhile_cons_of_pos (by simpa using hdigit), List.foldl_cons]
      congr 1
      rw [UInt32.toNat_add, UInt32.toNat_mul, UInt8.toNat_toUInt32, UInt8.toNat_sub_of_le _ _ hdigit.1]
      show ((theValue.toNat * 10) % 4294967296 + ((b p.fStartGet).toNat - 48)) % 4294967296 = _
      omega
    · rw [if_neg hdigit, List.takeWhile_cons_of_neg (by simpa using hdigit)]
      rfl

theorem consumeInteger_stream :
    (p.consumeInteger b e).1.toNat = Common.StringParser.consumeInteger (p.stream b e) := integerLoop_fst

/-- **A call in memory** does what the function on the stream does, and reports the same bytes. -/
theorem call_refines {c : Call} {r : Report} (hp : 0 ≤ p.fStartGet) (hend : p.fStartGet ≤ e)
    (hc : p.call b e c = some (r, p')) : callOn (p.stream b e) c = (r.answer b, p'.stream b e) := by
  cases c with
  | expect c =>
    cases hc
    rw [callOn, expect_stream hp hend]
    rfl
  | expectEOL =>
    cases hc
    rw [callOn, expectEOL_stream hp hend]
    rfl
  | consumeUntil c =>
    obtain ⟨outString, q, hout, -, -, hstream⟩ := consumeUntilMask_stream (b := b) (f := fun x => x = c) hp hend
    rw [call, consumeUntil, hout] at hc
    cases hc
    rw [callOn, hstream]
    rfl
  | consumeUntilMask f =>
    obtain ⟨outString, q, hout, -, -, hstream⟩ := consumeUntilMask_stream (b := b) (f := f) hp hend
    rw [call, hout] at hc
    cases hc
    rw [callOn, hstream]
    rfl
  | consumeLength n =>
    obtain ⟨n, hlow, hshort⟩ := n
    obtain ⟨q, hq, hm⟩ := consumeLength_spec (b := b) hp hend hlow (by omega)
    rw [call, hq] at hc
    cases hc
    have hmin : (min n (e - p.fStartGet)).toNat = min n.toNat (p.stream b e).length := by
      rw [length_stream]
      omega
    rw [callOn, List.take_eq_take_min, List.drop_eq_drop_min, ← hmin, take_stream hm, drop_stream hm]
    rfl
  | consumeInteger =>
    obtain ⟨outString, q, hout, -, -, hstream⟩ := consumeUntilMask_stream (b := b) (f := noDigit) hp hend
    obtain ⟨theValue, hvalue⟩ := consumeInteger_eq (b := b) (e := e) (p := p)
    have hnumber := consumeInteger_stream (b := b) (e := e) (p := p)
    rw [hvalue] at hnumber
    rw [call, hvalue, hout] at hc
    cases hc
    rw [callOn, hstream, ← hnumber]
    rfl
  | consumeEOL =>
    cases hc
    obtain ⟨m, hm, -⟩ := expectEOL_moved (b := b) hp hend
    have hlen : (p.stream b e).length - ((p.expectEOL b e).2.stream b e).length = m := by
      rw [stream_moved hm, List.length_append, length_bytesFrom, Nat.add_sub_cancel]
    have hback : (p.expectEOL b e).2.fStartGet - p.fStartGet = m := by
      rw [hm.start]
      omega
    rw [callOn, expectEOL_stream hp hend]
    dsimp only
    rw [hlen, take_stream hm]
    show _ = (Report.answer b { outString := some ⟨p.fStartGet, (p.expectEOL b e).2.fStartGet - p.fStartGet⟩ }, _)
    rw [hback]
    rfl
  | getThru c =>
    obtain ⟨outString, q, hout, hlow, hstop, hstream⟩ := consumeUntilMask_stream (b := b) (f := fun x => x = c) hp hend
    rw [call, getThru, consumeUntil, hout] at hc
    cases hc
    rw [callOn, Common.StringParser.getThru, hstream]
    dsimp only
    rw [expect_stream hlow hstop]
    rfl
  | getThruEOL =>
    obtain ⟨outString, q, hout, hlow, hstop, hstream⟩ := consumeUntilMask_stream (b := b) (f := sEOLMask) hp hend
    rw [call, getThruEOL, hout] at hc
    cases hc
    rw [callOn, Common.StringParser.getThruEOL, hstream]
    dsimp only
    rw [expectEOL_stream hlow hstop]
    rfl

/-- The stream and the answers of a parser in memory. -/
def onStream (b : Int → UInt8) (e : Int) (x : Logged StringParser (Call × Report)) : Logged (List UInt8) Answer :=
  ⟨x.state.stream b e, x.log.map fun a => a.2.answer b⟩

theorem step_refines {x x' : Logged StringParser (Call × Report)} {c : Call} (hp : 0 ≤ x.state.fStartGet)
    (hend : x.state.fStartGet ≤ e) (hs : Logged.step (step b e) (observe b e) x c = some x') :
    Logged.step streamStep streamObserve (onStream b e x) c = some (onStream b e x') := by
  obtain ⟨q, hq, rfl⟩ := Logged.step_eq_some.1 hs
  obtain ⟨r, m, hcall, -⟩ := step_called hp hend hq
  have hrefines := call_refines hp hend hcall
  refine Logged.step_eq_some.2 ⟨q.stream b e, ?_, ?_⟩
  · exact congrArg some (congrArg Prod.snd hrefines)
  · have hanswer : callOn (onStream b e x).state c = (r.answer b, q.stream b e) := hrefines
    rw [observe, hcall, streamObserve, hanswer]
    rfl

/-- **Calls in memory are calls on a stream**: a run from the start of the buffer has the answers of the run on its
bytes, and as much is left. -/
theorem calls_refine (bytes : List UInt8) (behind : Int → UInt8) (calls : List Call) :
    ∃ x, run (Logged.step (step (memory bytes behind) bytes.length) (observe (memory bytes behind) bytes.length))
        ⟨new, []⟩ calls = some x ∧
      run (Logged.step streamStep streamObserve) ⟨bytes, []⟩ calls =
        some (onStream (memory bytes behind) bytes.length x) := by
  obtain ⟨p, hp⟩ := runs (b := memory bytes behind) (e := bytes.length) (p := new) calls (Int.le_refl 0)
    (Int.natCast_nonneg _)
  obtain ⟨log, hr⟩ : ∃ log, run (Logged.step (step (memory bytes behind) bytes.length)
      (observe (memory bytes behind) bytes.length)) ⟨new, []⟩ calls = some ⟨p, log⟩ := Logged.exists_run hp
  have hnew : onStream (memory bytes behind) bytes.length ⟨new, []⟩ = ⟨bytes, []⟩ := by
    have hall : bytesFrom (memory bytes behind) 0 bytes.length = bytes.take bytes.length := bytesFrom_take (Nat.le_refl _)
    rw [List.take_length] at hall
    exact congrArg (Logged.mk · []) hall
  obtain ⟨t, ht, -, -, rfl⟩ := run_lockstep (C := fun _ _ => True)
    (R := fun x t => 0 ≤ x.state.fStartGet ∧ x.state.fStartGet ≤ (bytes.length : Int) ∧
      t = onStream (memory bytes behind) bytes.length x)
    (fun x t c x' h _ hs => by
      obtain ⟨hlow, hstop, rfl⟩ := h
      obtain ⟨q, hq, rfl⟩ := Logged.step_eq_some.1 hs
      obtain ⟨r, m, -, hcalled⟩ := step_called hlow hstop hq
      have hstart := hcalled.moved.start
      refine ⟨_, step_refines hlow hstop hs, ?_, hcalled.moved.stop, rfl⟩
      show 0 ≤ q.fStartGet
      omega)
    ⟨Int.le_refl 0, Int.natCast_nonneg _, rfl⟩ (along_of_forall fun _ _ => trivial) hr
  exact ⟨⟨p, log⟩, hr, hnew ▸ ht⟩

/-! ## Line numbers -/

/-- What the calls leave of a stream. -/
def leftBy (stream : List UInt8) (calls : List Call) : List UInt8 := calls.foldl (fun stream c => (callOn stream c).2) stream

/-- How many bytes the calls consume. -/
def consumedBy (bytes : List UInt8) (calls : List Call) : Nat := bytes.length - (leftBy bytes calls).length

theorem run_streamStep {x y : Logged (List UInt8) Answer} {calls : List Call}
    (hr : run (Logged.step streamStep streamObserve) x calls = some y) : y.state = leftBy x.state calls := by
  induction calls generalizing x with
  | nil => cases hr; rfl
  | cons c calls ih =>
    obtain ⟨x₁, h₁, h₂⟩ := run_cons_eq_some.1 hr
    obtain ⟨s, hs, rfl⟩ := Logged.step_eq_some.1 h₁
    cases hs
    exact ih h₂

/-- What has been consumed is the beginning of the buffer, and it is what the calls have reported and skipped; and the line
number is 1 and the number of the line ends that begin in it. -/
def LinesRight (bytes : List UInt8) (behind : Int → UInt8) (calls : List Call) : Prop :=
  ∃ x, run (Logged.step (step (memory bytes behind) bytes.length) (observe (memory bytes behind) bytes.length))
      ⟨new, []⟩ calls = some x ∧
    ∃ m ≤ bytes.length, x.state.fStartGet = m ∧ Consumed (memory bytes behind) x.log (bytes.take m) ∧
      x.state.fCurLineNumber.toInt = 1 + lineEndsIn bytes m

/-- An `int` counts to 2147483647. -/
theorem toInt_ofNat_iff {n : Nat} : (Int32.ofNat n).toInt = n ↔ n < 2147483648 := by
  constructor
  · intro h
    have hlt := (Int32.ofNat n).toInt_lt
    omega
  · intro h
    exact Int32.toInt_ofNat_of_lt h

theorem linesRight_iff {bytes : List UInt8} {behind : Int → UInt8} (calls : List Call)
    (hbehind : behind bytes.length ≠ lineFeed) :
    LinesRight bytes behind calls ↔ lineEndsIn bytes (consumedBy bytes calls) ≤ 2147483646 := by
  obtain ⟨x, hr, m, hm, hstart, hconsumed, hline⟩ := consumed_pieces bytes behind calls hbehind
  have hby : m = consumedBy bytes calls := by
    obtain ⟨x', hr', hstream⟩ := calls_refine bytes behind calls
    obtain rfl := Option.some.inj (hr.symm.trans hr')
    have hleft : x.state.stream (memory bytes behind) bytes.length = leftBy bytes calls := run_streamStep hstream
    rw [consumedBy, ← hleft, length_stream]
    omega
  have hnumber : x.state.fCurLineNumber.toInt = 1 + lineEndsIn bytes m ↔ lineEndsIn bytes m ≤ 2147483646 := by
    have hcast : (1 : Int) + lineEndsIn bytes m = ((1 + lineEndsIn bytes m : Nat) : Int) := by omega
    rw [hline, hcast, toInt_ofNat_iff]
    omega
  rw [← hby, ← hnumber]
  constructor
  · rintro ⟨x', hr', m', hm', hstart', -, hline'⟩
    obtain rfl := Option.some.inj (hr.symm.trans hr')
    obtain rfl : m' = m := by omega
    exact hline'
  · exact fun hright => ⟨x, hr, m, hm, hstart, hconsumed, hright⟩

/-- A `ConsumeUntil` that stops at no byte consumes the buffer. -/
theorem consumedBy_all (bytes : List UInt8) : consumedBy bytes [.consumeUntilMask fun _ => false] = bytes.length := by
  have hleft : leftBy bytes [.consumeUntilMask fun _ => false] = [] := List.dropWhile_eq_nil_iff.2 fun _ _ => rfl
  rw [consumedBy, hleft, List.length_nil, Nat.sub_zero]

theorem lineEndsIn_mono {bytes : List UInt8} {m n : Nat} (h : m ≤ n) : lineEndsIn bytes m ≤ lineEndsIn bytes n :=
  (List.range_sublist.2 h).countP_le

/-- **The line number** is right, and so is what has been consumed, in every sequence of calls exactly when the buffer has
at most 2147483646 line ends; and for one sequence of calls, when the bytes that it consumes have no more. -/
theorem consumed_lines_iff (bytes : List UInt8) (behind : Int → UInt8) (hbehind : behind bytes.length ≠ lineFeed) :
    ((∀ calls, LinesRight bytes behind calls) ↔ lineEndsIn bytes bytes.length ≤ 2147483646) ∧
    ∀ calls, LinesRight bytes behind calls ↔ lineEndsIn bytes (consumedBy bytes calls) ≤ 2147483646 := by
  refine ⟨⟨fun hright => ?_, fun hends calls => ?_⟩, fun calls => linesRight_iff calls hbehind⟩
  · have hall := (linesRight_iff _ hbehind).1 (hright [.consumeUntilMask fun _ => false])
    rwa [consumedBy_all] at hall
  · exact (linesRight_iff calls hbehind).2 ((lineEndsIn_mono (Nat.sub_le _ _)).trans hends)

/-- Two lines, with a `\r\n` that is split between two calls. -/
theorem consumed_lines_iff_split : (fun _ : Int => (0 : UInt8)) [97, carriageReturn, lineFeed, 98].length ≠ lineFeed ∧
    LinesRight [97, carriageReturn, lineFeed, 98] (fun _ => 0)
      [.consumeLength ⟨2, by decide⟩, .expect lineFeed, .consumeInteger] :=
  ⟨by decide, (consumed_lines_iff _ (fun _ => 0) (by decide)).1.2 (by decide) _⟩

/-- The line number after 2147483647 empty lines is negative. -/
theorem line_number_wraps :
    ¬ LinesRight (List.replicate 2147483647 lineFeed) (fun _ => 0) [.consumeUntilMask fun _ => false] := by
  have hends : ∀ n, lineEndsIn (List.replicate n lineFeed) n = n := by
    intro n
    have hall : ∀ k ∈ List.range n, (List.replicate n lineFeed)[k]? = some lineFeed := by
      intro k hk
      rw [List.getElem?_replicate, if_pos (List.mem_range.1 hk)]
    have hcount : lineEndsIn (List.replicate n lineFeed) n = (List.range n).length :=
      List.countP_eq_length.2 fun k hk => decide_eq_true (Or.inl (hall k hk))
    rwa [List.length_range] at hcount
  rw [linesRight_iff _ (by decide), consumedBy_all, List.length_replicate, hends]
  decide

end StringParser

end ToolLib.Common.ParserMemory
