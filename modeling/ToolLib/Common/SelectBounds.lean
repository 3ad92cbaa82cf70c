import ToolLib.Base.Scan
import ToolLib.Common.SelectEvents

/-!
# The bounds of the scans over `select`

`ev.cpp`: the bits of the `fd_set`s and the entries of `sCookieArray` that a step uses, and those of `sFDsToCloseArray`,
which is here the array that it is, with -1 for a free entry. All its loops test the bit or the entry before the bound.

- the array is filled from the front with the descriptors that wait for their close, as long as one entry is free
  (`step_fills`);
- a step stays in the arrays when no scan begins behind the last descriptor and an entry is free whenever the array is
  scanned, and only then (`inBounds_iff`).
-/

namespace ToolLib.Common

open ToolLib.Base

variable {δ : Type*}

/-- The event queue, with the array that holds the descriptors to be closed. -/
structure SelectShim (δ : Type*) where
  events : SelectEvents δ
  sFDsToCloseArray : Nat → Int

/-- The descriptors that are passed in are below `FD_SETSIZE`, as `select_modwatch` asserts. -/
def SelectAct.Asserted : SelectAct δ → Prop
  | .modwatch fd _ _ | .removeevent fd => fd < FD_SETSIZE
  | .next _ | .select _ => True

instance : DecidablePred (SelectAct.Asserted : SelectAct δ → Prop)
  | .modwatch fd _ _ | .removeevent fd => inferInstanceAs (Decidable (fd < FD_SETSIZE))
  | .next _ | .select _ => instDecidableTrue

namespace SelectShim

/-- `select_startevents`. -/
def startevents (pipe : Nat) : SelectShim δ := ⟨SelectEvents.startevents pipe, fun _ => -1⟩

/-- `select_removeevent` looks for a free entry. -/
def theIndex (s : SelectShim δ) : Nat := Scan.stop (fun i => s.sFDsToCloseArray i = -1) 0 FD_SETSIZE

/-- The array after a step. -/
def arrayAfter (s : SelectShim δ) : SelectAct δ → Nat → Int
  | .removeevent which => Function.update s.sFDsToCloseArray s.theIndex which
  | .next _ =>
    match s.events.place with
    | .closing => (Scan.drain (-1) s.sFDsToCloseArray 0 FD_SETSIZE).1
    | _ => s.sFDsToCloseArray
  | .modwatch _ _ _ | .select _ => s.sFDsToCloseArray

/-- The descriptors that a step closes. -/
def closes (s : SelectShim δ) : SelectAct δ → List Int
  | .next _ =>
    match s.events.place with
    | .closing => (Scan.drain (-1) s.sFDsToCloseArray 0 FD_SETSIZE).2
    | _ => []
  | .removeevent _ | .modwatch _ _ _ | .select _ => []

def step (s : SelectShim δ) (act : SelectAct δ) : Option (SelectShim δ) :=
  (s.events.step act).map fun events => ⟨events, s.arrayAfter act⟩

/-! ## What a step uses -/

/-- The bits that `lowerMax` tests. -/
def lowerTested (readSet writeSet : FdSet) : Nat → List Nat
  | 0 => [0]
  | n + 1 => (n + 1) :: if n + 1 ∈ readSet ∨ n + 1 ∈ writeSet then [] else lowerTested readSet writeSet n

/-- The bits that a scan of `set` tests, and the one that it clears and whose cookie it reads. -/
def scanned (s : SelectShim δ) (set : FdSet) : List Nat :=
  let pos := SelectEvents.scan set s.events.sCurrentFDPos s.events.sMaxFDPos
  Scan.tested (· ∈ set) s.events.sCurrentFDPos (s.events.sMaxFDPos - s.events.sCurrentFDPos) ++
    if pos ∈ set then [pos] else []

/-- The bits of the sets and the entries of `sCookieArray` that a step uses. -/
def bits (s : SelectShim δ) : SelectAct δ → List Nat
  | .modwatch fd _ _ => [fd]
  | .removeevent which =>
    which ::
      if which = s.events.sMaxFDPos then
        lowerTested (s.events.sReadSet.erase which) (s.events.sWriteSet.erase which) s.events.sMaxFDPos
      else []
  | .next _ =>
    match s.events.place with
    | .readScan => s.scanned s.events.sReturnedReadSet
    | .writeScan => s.scanned s.events.sReturnedWriteSet
    | .hasData => if 0 < s.events.sNumFDsBackFromSelect then [s.events.sPipe] else []
    | .clearing _ | .closing => [s.events.sPipe]
    | .out _ | .counted | .copying | .calling | .blocked _ _ _ => []
  | .select _ => []

/-- The entries of `sFDsToCloseArray` that a loop over it tests. -/
def entriesTested (s : SelectShim δ) : List Nat :=
  Scan.tested (fun i => s.sFDsToCloseArray i = -1) 0 FD_SETSIZE

/-- The entries of `sFDsToCloseArray` that a step uses. -/
def entries (s : SelectShim δ) : SelectAct δ → List Nat
  | .removeevent _ => s.entriesTested ++ [s.theIndex]
  | .next _ =>
    match s.events.place with
    | .closing => s.entriesTested
    | .out _ | .readScan | .writeScan | .counted | .hasData | .clearing _ | .copying | .calling | .blocked _ _ _ => []
  | .modwatch _ _ _ | .select _ => []

/-- The step stays in the sets and in the arrays. -/
def InBounds (s : SelectShim δ) (act : SelectAct δ) : Prop :=
  (∀ i ∈ s.bits act, i < FD_SETSIZE) ∧ ∀ i ∈ s.entries act, i < FD_SETSIZE

instance (s : SelectShim δ) (act : SelectAct δ) : Decidable (s.InBounds act) := inferInstanceAs (Decidable (_ ∧ _))

/-- No scan begins behind the last descriptor, and an entry of the array is free when it is scanned. -/
def HasRoom (s : SelectShim δ) : SelectAct δ → Prop
  | .removeevent _ => ∃ i, i < FD_SETSIZE ∧ s.sFDsToCloseArray i = -1
  | .next _ =>
    match s.events.place with
    | .readScan | .writeScan => s.events.sCurrentFDPos < FD_SETSIZE
    | .closing => ∃ i, i < FD_SETSIZE ∧ s.sFDsToCloseArray i = -1
    | .out _ | .counted | .hasData | .clearing _ | .copying | .calling | .blocked _ _ _ => True
  | .modwatch _ _ _ | .select _ => True

variable {s s' : SelectShim δ} {act : SelectAct δ} {set : FdSet}

theorem step_eq_some : s.step act = some s' ↔
    ∃ events, s.events.step act = some events ∧ s' = ⟨events, s.arrayAfter act⟩ := by
  simp only [step, Option.map_eq_some_iff]
  constructor
  · rintro ⟨events, he, rfl⟩
    exact ⟨events, he, rfl⟩
  · rintro ⟨events, he, rfl⟩
    exact ⟨events, he, rfl⟩

/-- The scan of the sets is the general one. -/
theorem scanFrom_eq_stop {pos left : Nat} : SelectEvents.scanFrom set pos left = Scan.stop (· ∈ set) pos left := by
  induction left generalizing pos with
  | zero => rfl
  | succ left ih =>
    unfold SelectEvents.scanFrom Scan.stop
    rw [ih]

/-! ## The array -/

/-- The descriptors that wait for their close, as entries of the array. -/
def waiting (s : SelectShim δ) : List Int := s.events.sFDsToCloseArray.map fun fd : Nat => (fd : Int)

@[simp] theorem mem_waiting {fd : Nat} : (fd : Int) ∈ s.waiting ↔ fd ∈ s.events.sFDsToCloseArray :=
  List.mem_map_of_injective fun _ _ h => Int.ofNat_inj.1 h

/-- The array is filled from the front with the descriptors that wait for their close. -/
def Filled (s : SelectShim δ) : Prop := Scan.Fills FD_SETSIZE (-1) s.sFDsToCloseArray s.waiting

theorem filled_startevents (pipe : Nat) : (startevents pipe : SelectShim δ).Filled :=
  Scan.fills_nil fun _ _ => rfl

/-- Data on the pipe closes what waits, and nothing else does. -/
theorem next_closes (h : s.Filled) {b : Bool} (hs : s.step (.next b) = some s') :
    (s.events.place = .closing ∧ s.closes (.next b) = s.waiting ∧ s'.events.sFDsToCloseArray = []) ∨
    (s.closes (.next b) = [] ∧ s'.events.sFDsToCloseArray = s.events.sFDsToCloseArray) := by
  obtain ⟨events, he, rfl⟩ := step_eq_some.1 hs
  have hdoes := SelectEvents.step_cases he
  generalize SelectEvents.observe s.events (.next b) events = o at hdoes
  cases hdoes with
  | closed b hp hn | closedData b ret hp hn =>
    refine Or.inl ⟨hp, ?_, rfl⟩
    simp only [closes, hp]
    exact h.drain.1
  | readFound b hp hf =>
    refine Or.inr ⟨by simp only [closes, hp], ?_⟩
    rw [SelectEvents.scanRead, if_pos hf]
    rfl
  | writeFound b hp hf =>
    refine Or.inr ⟨by simp only [closes, hp], ?_⟩
    rw [SelectEvents.scanWrite, if_pos hf]
    rfl
  | enterRead _ _ hp | enterWrite _ _ hp | enterCounted _ _ hp | readPast _ hp | writePast _ hp | reinit _ hp
  | fresh _ hp | again _ hp | error _ hp | pipe _ hp | clear _ _ hp | data _ hp | copy _ hp | call _ hp =>
    exact Or.inr ⟨by simp only [closes, hp], rfl⟩

theorem Filled.of_eq (h : s.Filled) (harray : s'.sFDsToCloseArray = s.sFDsToCloseArray)
    (hlist : s'.events.sFDsToCloseArray = s.events.sFDsToCloseArray) : s'.Filled := by
  rwa [Filled, waiting, harray, hlist]

/-- The array stays filled from the front, if there is room for the next descriptor. -/
theorem filled_step (h : s.Filled)
    (hroom : ∀ which, act = .removeevent which → s.events.sFDsToCloseArray.length < FD_SETSIZE)
    (hs : s.step act = some s') : s'.Filled := by
  obtain ⟨events, he, rfl⟩ := step_eq_some.1 hs
  have hdoes := SelectEvents.step_cases he
  generalize SelectEvents.observe s.events act events = o at hdoes
  cases hdoes with
  | removeevent fd hfd =>
    have hput := h.put (x := (fd : Int)) (by simpa [waiting] using hroom fd rfl) (by omega)
    simp only [Filled, waiting, SelectEvents.removeevent, List.map_append, List.map_cons, List.map_nil]
    exact hput
  | closed b hp hn | closedData b ret hp hn =>
    simp only [Filled, waiting, arrayAfter, hp]
    exact h.drain.2
  | readFound b hp hf =>
    rw [SelectEvents.scanRead, if_pos hf]
    exact h.of_eq (by simp only [arrayAfter, hp]) rfl
  | writeFound b hp hf =>
    rw [SelectEvents.scanWrite, if_pos hf]
    exact h.of_eq (by simp only [arrayAfter, hp]) rfl
  | enterRead _ _ hp | enterWrite _ _ hp | enterCounted _ _ hp | readPast _ hp | writePast _ hp | reinit _ hp
  | fresh _ hp | again _ hp | error _ hp | pipe _ hp | clear _ _ hp | data _ hp | copy _ hp | call _ hp =>
    exact h.of_eq (by simp only [arrayAfter, hp]) rfl
  | modwatch | ready | timedOut | failed => exact h

/-! ## The bits -/

theorem lowerMax_le {r w : FdSet} {n : Nat} : SelectEvents.lowerMax r w n ≤ n := by
  induction n with
  | zero => exact Nat.le_refl _
  | succ n ih =>
    unfold SelectEvents.lowerMax
    split
    · exact Nat.le_refl _
    · exact Nat.le_succ_of_le ih

theorem lowerTested_le {r w : FdSet} {n i : Nat} (hi : i ∈ lowerTested r w n) : i ≤ n := by
  induction n with
  | zero => simpa [lowerTested] using hi
  | succ n ih =>
    unfold lowerTested at hi
    split at hi
    · exact Nat.le_of_eq (List.mem_singleton.1 hi)
    · rcases List.mem_cons.1 hi with rfl | hi
      · exact Nat.le_refl _
      · exact Nat.le_succ_of_le (ih hi)

/-- A scan that begins in the set stays there, up to `sMaxFDPos`. -/
theorem scanned_lt_iff (hmax : s.events.sMaxFDPos < FD_SETSIZE) :
    (∀ i ∈ s.scanned set, i < FD_SETSIZE) ↔ s.events.sCurrentFDPos < FD_SETSIZE := by
  have hle : s.events.sCurrentFDPos ≤
      Scan.stop (· ∈ set) s.events.sCurrentFDPos (s.events.sMaxFDPos - s.events.sCurrentFDPos) := Scan.le_stop
  constructor
  · intro h
    exact h _ (List.mem_append_left _ (Scan.mem_tested.2 ⟨Nat.le_refl _, hle⟩))
  · intro hpos
    have hstop : SelectEvents.scan set s.events.sCurrentFDPos s.events.sMaxFDPos < FD_SETSIZE := by
      rw [SelectEvents.scan, scanFrom_eq_stop]
      exact Nat.lt_of_le_of_lt Scan.stop_le (by omega)
    intro i hi
    rcases List.mem_append.1 hi with hi | hi
    · rw [SelectEvents.scan, scanFrom_eq_stop] at hstop
      exact Scan.tested_lt_iff.2 hstop i hi
    · split at hi
      · rwa [List.mem_singleton.1 hi]
      · cases hi

theorem entriesTested_lt_iff : (∀ i ∈ s.entriesTested, i < FD_SETSIZE) ↔
    ∃ i, i < FD_SETSIZE ∧ s.sFDsToCloseArray i = -1 := by
  have hiff : s.theIndex < 0 + FD_SETSIZE ↔ _ := Scan.stop_lt_iff
  rw [Nat.zero_add] at hiff
  rw [entriesTested, Scan.tested_lt_iff]
  exact hiff.trans ⟨fun ⟨i, _, hi, hfree⟩ => ⟨i, hi, hfree⟩, fun ⟨i, hi, hfree⟩ => ⟨i, Nat.zero_le _, hi, hfree⟩⟩

/-- The two bounds that the scans rely on. -/
def Ranged (s : SelectShim δ) : Prop := s.events.sMaxFDPos < FD_SETSIZE ∧ s.events.sPipe < FD_SETSIZE

theorem ranged_step (h : s.Ranged) (hact : act.Asserted) (hs : s.step act = some s') : s'.Ranged := by
  obtain ⟨events, he, rfl⟩ := step_eq_some.1 hs
  have hdoes := SelectEvents.step_cases he
  refine ⟨?_, (SelectEvents.sPipe_step hdoes).symm ▸ h.2⟩
  have hmax := h.1
  generalize SelectEvents.observe s.events act events = o at hdoes
  cases hdoes with
  | modwatch fd data which hfd =>
    simp only [SelectEvents.modwatch]
    split
    · exact hact
    · exact hmax
  | removeevent fd hfd =>
    simp only [SelectEvents.removeevent]
    split
    · exact Nat.lt_of_le_of_lt lowerMax_le hmax
    · exact hmax
  | readFound b hp hf => rw [SelectEvents.scanRead, if_pos hf]; exact hmax
  | writeFound b hp hf => rw [SelectEvents.scanWrite, if_pos hf]; exact hmax
  | _ => exact hmax

/-- What a step needs to stay in its bounds. -/
theorem step_inBounds_iff (h : s.Ranged) (hact : act.Asserted) : s.InBounds act ↔ s.HasRoom act := by
  cases act with
  | modwatch fd data which =>
    have hfd : fd < FD_SETSIZE := hact
    simpa [InBounds, bits, entries, HasRoom] using hfd
  | removeevent which =>
    have hbits : ∀ i ∈ s.bits (.removeevent which), i < FD_SETSIZE := by
      intro i hi
      rcases List.mem_cons.1 hi with rfl | hi
      · exact hact
      · split at hi
        · exact Nat.lt_of_le_of_lt (lowerTested_le hi) h.1
        · cases hi
    have hroom : s.HasRoom (.removeevent which) ↔ ∀ i ∈ s.entriesTested, i < FD_SETSIZE := entriesTested_lt_iff.symm
    rw [hroom]
    constructor
    · exact fun hin i hi => hin.2 i (List.mem_append_left _ hi)
    · refine fun hin => ⟨hbits, fun i hi => ?_⟩
      rcases List.mem_append.1 hi with hi | hi
      · exact hin i hi
      · rw [List.mem_singleton.1 hi]
        exact Scan.tested_lt_iff.1 hin
  | next b =>
    unfold InBounds bits entries HasRoom
    cases s.events.place with
    | readScan | writeScan => simpa using scanned_lt_iff h.1
    | closing => simpa [h.2] using entriesTested_lt_iff
    | hasData =>
      simp only
      split <;> simp [h.2]
    | clearing word => simp [h.2]
    | out _ | counted | copying | calling | blocked _ _ _ => simp
  | select result => simp [InBounds, bits, entries, HasRoom]

/-- **The bounds of the scans**: a run stays in the sets and in the arrays exactly when no scan of it begins behind the last
descriptor, and a free entry is there whenever the array is scanned. -/
theorem inBounds_iff {pipe : Nat} (hpipe : pipe < FD_SETSIZE) {acts : List (SelectAct δ)}
    (hacts : ∀ act ∈ acts, act.Asserted) :
    Along step InBounds (startevents pipe) acts ↔ Along step HasRoom (startevents pipe) acts := by
  rw [← along_and_forall_iff hacts, ← along_and_forall_iff (C := HasRoom) hacts]
  refine along_iff_along (I := Ranged) (fun s act s' h hc hs => ranged_step h hc.1 hs) (fun s act h => ?_) ⟨hpipe, hpipe⟩
  exact and_congr_right (step_inBounds_iff h)

theorem inBounds_iff_watched : Along step InBounds (startevents 3 : SelectShim Unit)
    [.modwatch 5 () evRE, .next false, .next false, .next false, .removeevent 5] := by
  refine (inBounds_iff (by decide) (by decide)).2 ⟨trivial, fun _ hs => ?_⟩
  cases hs
  refine ⟨trivial, fun _ hs => ?_⟩
  cases hs
  refine ⟨trivial, fun _ hs => ?_⟩
  cases hs
  refine ⟨trivial, fun _ hs => ?_⟩
  cases hs
  exact ⟨⟨0, by decide, rfl⟩, fun _ _ => trivial⟩

/-- The calls of a run that reports the last descriptor for reading, when it is ready for writing too, and goes on. -/
def behindLast : List (SelectAct Unit) :=
  [.modwatch 1023 () (evRE ||| evWR), .next false, .next false, .next false, .next false, .next false,
    .select (.ready {1023} {1023}), .next false, .next false, .next false, .next false, .next false]

theorem behind_last : (∀ act ∈ behindLast, act.Asserted) ∧ (run step (startevents 3) behindLast).isSome = true ∧
    ¬ Along step InBounds (startevents 3) behindLast :=
  ⟨by decide, by decide +kernel, by decide +kernel⟩

end SelectShim

end ToolLib.Common
