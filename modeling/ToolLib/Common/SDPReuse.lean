import ToolLib.Common.SDPContainer

/-!
# A container and its buffers

`Describes c buffer`: what the container says about lines and types is what there is in the buffer. For a valid buffer
`describes_iff` reduces it to the table of the types, which nothing clears; `reuse_iff` says for which sequences of
buffers every valid one is described.
-/

namespace ToolLib.Common.SDPContainer

open ToolLib.Base StringParser SDP

/-- The lines that `Parse` accepts. -/
def accepted (buffer : List UInt8) : List (List UInt8) := (completeLines buffer).filter fun line => checkLine line = .add

/-- The lines that have a first character that is not a blank, nor 0. A line is what has an end of line behind it, as for
`GetThruEOL`. -/
def nonEmptyLines (buffer : List UInt8) : List (List UInt8) := (completeLines buffer).filter fun line => lineType line ≠ 0

/-- An accepted line of the buffer has the type `c`. -/
def HasType (buffer : List UInt8) (c : UInt8) : Prop := ∃ line ∈ accepted buffer, lineType line = c

/-- 'v', 's', 't' and 'o' -/
def requiredTypes : List UInt8 := [118, 115, 116, 111]

/-- The container speaks of `buffer`. -/
structure Describes (c : Container) (buffer : List UInt8) : Prop where
  types : ∀ x ≠ 0, c.hasLineType x = true ↔ HasType buffer x
  required : c.hasReqLines = true ↔ ∀ x ∈ requiredTypes, HasType buffer x
  numLines : c.getNumLines = (nonEmptyLines buffer).length
  lines : ∀ i : Int, (c.getLine i).map SDPLine.bytes = if 0 ≤ i then (nonEmptyLines buffer)[i.toNat]? else none

instance (buffer : List UInt8) (c : UInt8) : Decidable (HasType buffer c) :=
  inferInstanceAs (Decidable (∃ line ∈ accepted buffer, lineType line = c))

/-- A container, and the buffer of the latest call, if it was not `NULL`. -/
structure World where
  container : Container
  latest : Option (List UInt8)

/-- A call of one of the two `SetSDPBuffer`. -/
inductive Call
  | setSDPBuffer (sdpBufferPtr : Option (List UInt8))
  | setSDPString (sdpBuffer : Option (List UInt8))

/-- The buffer of a call. -/
def Call.buffer : Call → Option (List UInt8)
  | .setSDPBuffer sdpBufferPtr => sdpBufferPtr
  | .setSDPString sdpBuffer => sdpBuffer.map fun s => s.takeWhile (· ≠ 0)

def World.step (w : World) : Call → Option World
  | .setSDPBuffer sdpBufferPtr =>
    (w.container.setSDPBuffer sdpBufferPtr).map (⟨·, (Call.setSDPBuffer sdpBufferPtr).buffer⟩)
  | .setSDPString sdpBuffer => (w.container.setSDPString sdpBuffer).map (⟨·, (Call.setSDPString sdpBuffer).buffer⟩)

/-- After a call that has returned valid, the container speaks of its buffer. -/
def Current (w : World) : Prop :=
  ∀ buffer, w.latest = some buffer → w.container.fValid = true → Describes w.container buffer

/-- No type is left in the table that a valid buffer does not have. -/
def NothingLeft (w : World) (call : Call) : Prop :=
  ∀ buffer, call.buffer = some buffer → (SDP.setSDPBuffer buffer).fValid = true →
    ∀ x ≠ 0, w.container.hasLineType x = true → HasType buffer x

section Describes

variable {c c' : Container} {buffer line : List UInt8} {lines : List (List UInt8)} {types : List UInt8} {x : UInt8}
  {v s t o : Bool}

/-! ## The lines and their types -/

theorem skip_iff : checkLine line = .skip ↔ lineType line = 0 := by
  refine ⟨lineType_of_skip, fun htype => ?_⟩
  rw [checkLine]
  exact if_pos (Or.inr htype)

theorem nonEmptyLines_eq (hclean : Clean buffer) : nonEmptyLines buffer = accepted buffer := by
  refine List.filter_congr fun line hline => ?_
  have hvalid := hclean line hline
  rw [decide_eq_decide, ← not_iff_not, not_not, ← skip_iff]
  cases hcheck : checkLine line with
  | skip => simp
  | add => simp
  | invalid => exact absurd hcheck hvalid

theorem noted_eq (hclean : ∀ line ∈ lines, checkLine line ≠ .invalid) :
    noted lines = (lines.filter fun line => checkLine line = .add).map lineType := by
  induction lines with
  | nil => rfl
  | cons line lines ih =>
    have hrest := ih fun l hl => hclean l (List.mem_cons_of_mem _ hl)
    rw [noted, List.filter_cons]
    cases hcheck : checkLine line with
    | skip => simpa using hrest
    | add => simpa using hrest
    | invalid => exact absurd hcheck (hclean line List.mem_cons_self)

theorem mem_noted (hclean : Clean buffer) : x ∈ noted (completeLines buffer) ↔ HasType buffer x := by
  rw [noted_eq hclean, List.mem_map]
  rfl

/-! ## The required lines -/

/-- `fReqLines` when there have been lines of some of the four types. -/
def mask (v s t o : Bool) : UInt16 :=
  (if v then kV else 0) ||| (if s then kS else 0) ||| (if t then kT else 0) ||| (if o then kO else 0)

theorem mask_reqBit : mask v s t o ||| reqBit x =
    mask (v || decide (x = 118)) (s || decide (x = 115)) (t || decide (x = 116)) (o || decide (x = 111)) := by
  unfold reqBit
  split
  next hx =>
    subst hx
    revert v s t o
    decide
  next hv =>
    split
    next hx =>
      subst hx
      revert v s t o
      decide
    next hs =>
      split
      next hx =>
        subst hx
        revert v s t o
        decide
      next ht =>
        split
        next hx =>
          subst hx
          revert v s t o
          decide
        next ho =>
          rw [decide_eq_false hv, decide_eq_false hs, decide_eq_false ht, decide_eq_false ho]
          revert v s t o
          decide

theorem foldl_reqBit : types.foldl (fun req x => req ||| reqBit x) (mask v s t o) =
    mask (v || decide (118 ∈ types)) (s || decide (115 ∈ types)) (t || decide (116 ∈ types))
      (o || decide (111 ∈ types)) := by
  induction types generalizing v s t o with
  | nil => simp
  | cons x types ih =>
    rw [List.foldl_cons, mask_reqBit, ih]
    simp only [List.mem_cons, Bool.decide_or, Bool.or_assoc, eq_comm]

theorem mask_eq_all : mask v s t o = kAllReq ↔ v = true ∧ s = true ∧ t = true ∧ o = true := by
  revert v s t o
  decide

/-! ## Valid buffers -/

/-- **A valid buffer** is described when nothing is left in the table. -/
theorem describes_iff (h : c.setSDPBuffer (some buffer) = some c') (hvalid : c'.fValid = true) :
    Describes c' buffer ↔ ∀ x ≠ 0, c.hasLineType x = true → HasType buffer x := by
  obtain ⟨hsound, hused, hnum, hsame, hfield, hreq⟩ := setSDPBuffer_spec h
  have hclean : Clean buffer := clean_of_valid (hsame ▸ hvalid)
  have hbytes : c'.usedLines.map SDPLine.bytes = nonEmptyLines buffer := by
    rw [hused, nonEmptyLines_eq hclean]
    exact parse_bytes hclean
  have htable : ∀ x, c'.hasLineType x = true ↔ HasType buffer x ∨ c.hasLineType x = true := by
    intro x
    simp only [Container.hasLineType, decide_eq_true_eq, hfield, ← mem_noted hclean]
    split
    next hin => exact iff_of_true rfl (Or.inl hin)
    next hout => exact (or_iff_right hout).symm
  constructor
  · exact fun hdesc x hx hleft => (hdesc.types x hx).1 ((htable x).2 (Or.inr hleft))
  · refine fun hnothing => ⟨fun x hx => ?_, ?_, ?_, fun i => ?_⟩
    · exact (htable x).trans (or_iff_left_of_imp (hnothing x hx))
    · have hmask := @foldl_reqBit (noted (completeLines buffer)) false false false false
      have hall := hreq.trans hmask
      unfold Container.hasReqLines
      rw [decide_eq_true_eq, hall, mask_eq_all]
      simp [mem_noted hclean, requiredTypes]
    · exact hnum.trans (by rw [← hbytes, hused, List.length_map])
    · have hlen : c'.fNumUsedLines ≤ c'.fSDPLineArray.length := by
        rw [hsound.length]
        have hroom := hsound.room
        omega
      unfold Container.getLine
      rw [← hbytes, List.getElem?_map, Container.usedLines, List.getElem?_take]
      by_cases hneg : 0 ≤ i
      · rw [if_pos hneg]
        by_cases hlt : i < c'.fNumUsedLines
        · rw [if_pos ⟨by omega, hlt⟩, if_pos (by omega), List.getD_eq_getElem?_getD,
            List.getElem?_eq_getElem (by omega)]
          simp
        · rw [if_neg (fun hin => hlt hin.2), if_neg (by omega)]
      · rw [if_neg (fun hin => hneg (by omega)), if_neg hneg]
        rfl

end Describes

/-! ## Runs -/

section Runs

variable {w w' : World} {call : Call}

/-- What a call does. -/
theorem step_eq_some (h : w.step call = some w') :
    w.container.setSDPBuffer call.buffer = some w'.container ∧ w'.latest = call.buffer := by
  cases call with
  | setSDPBuffer sdpBufferPtr =>
    obtain ⟨c, hset, rfl⟩ := Option.map_eq_some_iff.1 h
    exact ⟨hset, rfl⟩
  | setSDPString sdpBuffer =>
    obtain ⟨c, hset, rfl⟩ := Option.map_eq_some_iff.1 h
    exact ⟨hset, rfl⟩

/-- A call, when nothing is left for it to keep, and only then. -/
theorem current_iff (h : w.step call = some w') : Current w' ↔ NothingLeft w call := by
  obtain ⟨hset, hlatest⟩ := step_eq_some h
  unfold Current NothingLeft
  rw [hlatest]
  refine forall_congr' fun buffer => forall_congr' fun hbuffer => ?_
  rw [hbuffer] at hset
  obtain ⟨-, -, -, hsame, -⟩ := setSDPBuffer_spec hset
  rw [hsame]
  exact forall_congr' fun hvalid => describes_iff hset (hsame.trans hvalid)

theorem World.always_iff {calls : List Call} (h : Current w) (hr : run World.step w calls = some w') :
    Always World.step Current w calls ↔ Along World.step NothingLeft w calls :=
  always_iff_along (fun _ _ _ _ hC hs => (current_iff hs).2 hC) (fun _ h => h)
    (fun _ _ _ _ hs hP => (current_iff hs).1 hP) h hr

theorem current_new (numStrPtrs : Nat) (fFieldStr : UInt8 → UInt8) : Current ⟨.new numStrPtrs fFieldStr, none⟩ := by
  rintro buffer hbuffer
  cases hbuffer

end Runs

/-- **A container that is used again**: after every call that returns valid it describes the buffer of that call,
exactly when no call with a valid buffer finds another type in the table, which the constructor does not set and
`Initialize` does not clear. -/
theorem reuse_iff (numStrPtrs : Nat) (fFieldStr : UInt8 → UInt8) (calls : List Call) (w : World)
    (hr : run World.step ⟨.new numStrPtrs fFieldStr, none⟩ calls = some w) :
    Always World.step Current ⟨.new numStrPtrs fFieldStr, none⟩ calls ↔
      Along World.step NothingLeft ⟨.new numStrPtrs fFieldStr, none⟩ calls :=
  World.always_iff (current_new numStrPtrs fFieldStr) hr

/-- The lines "v=0" and "s=1". -/
def twoLines : List UInt8 := [118, 61, 48, 13, 10, 115, 61, 49, 13, 10]

/-- The line "v=0". -/
def oneLine : List UInt8 := [118, 61, 48, 13, 10]

theorem reuse_iff_longer :
    Always World.step Current ⟨.new 20 fun _ => 0, none⟩ [.setSDPBuffer (some oneLine), .setSDPString (some twoLines)] ↔
      Along World.step NothingLeft ⟨.new 20 fun _ => 0, none⟩
        [.setSDPBuffer (some oneLine), .setSDPString (some twoLines)] := by
  have hsome : (run World.step ⟨.new 20 fun _ => 0, none⟩
      [.setSDPBuffer (some oneLine), .setSDPString (some twoLines)]).isSome = true := by decide +kernel
  exact reuse_iff 20 (fun _ => 0) _ _ (Option.some_get hsome).symm

/-- After the two lines the one line still has the type 's'. -/
theorem reuse_keeps_type :
    ¬ Always World.step Current ⟨.new 20 fun _ => 0, none⟩
      [.setSDPBuffer (some twoLines), .setSDPBuffer (some oneLine)] := by
  have hresult : (run World.step ⟨.new 20 fun _ => 0, none⟩
      [.setSDPBuffer (some twoLines), .setSDPBuffer (some oneLine)]).map
        (fun w => (w.latest, w.container.fValid, w.container.hasLineType 115)) = some (some oneLine, true, true) := by
    decide +kernel
  obtain ⟨w, hrun, hw⟩ := Option.map_eq_some_iff.1 hresult
  simp only [Prod.mk.injEq] at hw
  intro h
  have htype := ((h.last hrun oneLine hw.1 hw.2.1).types 115 (by decide)).1 hw.2.2
  exact absurd htype (by decide +kernel)

end ToolLib.Common.SDPContainer
