import ToolLib.Common.SelectEvents

/-!
# The bit of the pipe

`select_removeevent` clears its descriptor in the saved sets under the mutex, but the waiting thread writes `sReturnedReadSet`
outside it: when `select` returns, and when `selecthasdata` clears the bit of the pipe. Here each `FD_CLR` of
`select_removeevent` in the saved sets is a load of a word and a store, as the one of `selecthasdata` is. A store of a word
that was loaded too early puts the bit of the pipe back; the scan reports the pipe, and `constructeventreq` takes it out of
`sReadSet`. This is the only way that it leaves this set (`scan_bound`); that `sMaxFDPos` bounds what is watched does not
depend on it.

A removal that the waiting thread leaves alone is the one step of `SelectEvents` (`removal_alone`).
-/

namespace ToolLib.Common

open ToolLib.Base

variable {δ : Type*}

/-- Where the thread is that holds the mutex in `select_removeevent`. -/
inductive RemovalPlace
  /-- It has loaded this word of `sReturnedReadSet`. -/
  | readLoaded (word : FdSet)
  | readStored
  /-- It has loaded this word of `sReturnedWriteSet`. -/
  | writeLoaded (word : FdSet)

/-- The event queue, and the descriptor that is being removed. -/
structure SelectRemovals (δ : Type*) where
  events : SelectEvents δ
  removal : Option (Nat × RemovalPlace)

/-- What happens next. -/
inductive RemovalAct (δ : Type*)
  | modwatch (er_handle : Nat) (er_data : δ) (which : BitVec 32)
  /-- `select_removeevent` gets the mutex, and goes on to its first load from the saved sets. -/
  | removeevent (which : Nat)
  /-- It goes on to the next load or store in these sets, or to its end. -/
  | removal
  | next (interrupted : Bool)
  | select (result : SelectResult)

namespace SelectEvents

/-- The next step of the waiting thread needs the mutex. -/
def locks (s : SelectEvents δ) : Bool :=
  match s.place with
  | .readScan | .writeScan | .closing | .copying => true
  | .counted => s.sNumFDsProcessed > 0
  | .out _ | .hasData | .clearing _ | .calling | .blocked _ _ _ => false

/-- `select_removeevent`, up to its first load from the saved sets. -/
def beginRemoval (s : SelectEvents δ) (which : Nat) : SelectEvents δ :=
  { s with
    sWriteSet := s.sWriteSet.erase which
    sReadSet := s.sReadSet.erase which }

/-- `select_removeevent`, after its last store in the saved sets. -/
def endRemoval (s : SelectEvents δ) (which : Nat) : SelectEvents δ :=
  { s with
    sCookieArray := Function.update s.sCookieArray which none
    sMaxFDPos := if which = s.sMaxFDPos then lowerMax s.sReadSet s.sWriteSet s.sMaxFDPos else s.sMaxFDPos
    sFDsToCloseArray := s.sFDsToCloseArray ++ [which] }

end SelectEvents

namespace SelectRemovals

open SelectEvents

def startevents (pipe : Nat) : SelectRemovals δ := ⟨SelectEvents.startevents pipe, none⟩

/-- `select_removeevent` of `which` goes on. -/
def goOn (events : SelectEvents δ) (which : Nat) : RemovalPlace → SelectRemovals δ
  | .readLoaded word =>
    ⟨{ events with sReturnedReadSet := events.sReturnedReadSet.store which (word.erase which) },
      some (which, .readStored)⟩
  | .readStored => ⟨events, some (which, .writeLoaded (events.sReturnedWriteSet.word which))⟩
  | .writeLoaded word =>
    ⟨endRemoval { events with sReturnedWriteSet := events.sReturnedWriteSet.store which (word.erase which) } which, none⟩

def step (s : SelectRemovals δ) : RemovalAct δ → Option (SelectRemovals δ)
  | .modwatch fd data which =>
    if s.removal.isSome then none else (s.events.step (.modwatch fd data which)).map fun events => ⟨events, none⟩
  | .removeevent which =>
    if s.removal.isSome ∨ which = s.events.sPipe then none
    else some ⟨s.events.beginRemoval which, some (which, .readLoaded (s.events.sReturnedReadSet.word which))⟩
  | .removal => s.removal.map fun removal => goOn s.events removal.1 removal.2
  | .next interrupted =>
    if s.removal.isSome ∧ s.events.locks then none
    else (s.events.step (.next interrupted)).map fun events => ⟨events, s.removal⟩
  | .select result => (s.events.step (.select result)).map fun events => ⟨events, s.removal⟩

/-- A store of `select_removeevent` does not put the bit of the pipe back when `selecthasdata` has passed it. -/
def ClearAfter (events : SelectEvents δ) : Option (Nat × RemovalPlace) → Prop
  | some (_, .readLoaded word) => 0 < events.sNumFDsBackFromSelect → events.place.PastPipe → events.sPipe ∉ word
  | some (_, .readStored) | some (_, .writeLoaded _) | none => True

/-- The step does not put the bit of the pipe back. -/
def KeepsClear (s : SelectRemovals δ) : RemovalAct δ → Prop
  | .removal => ClearAfter s.events s.removal
  | .modwatch _ _ _ | .removeevent _ | .next _ | .select _ => True

instance (events : SelectEvents δ) : (removal : Option (Nat × RemovalPlace)) → Decidable (ClearAfter events removal)
  | some (_, .readLoaded _) => inferInstanceAs (Decidable (_ → _ → _ ∉ _))
  | some (_, .readStored) | some (_, .writeLoaded _) | none => instDecidableTrue

instance (s : SelectRemovals δ) : DecidablePred s.KeepsClear
  | .removal => inferInstanceAs (Decidable (ClearAfter _ _))
  | .modwatch _ _ _ | .removeevent _ | .next _ | .select _ => instDecidableTrue

variable {s s' : SelectRemovals δ} {act : RemovalAct δ}

/-! ## What a step does -/

/-- What a step does: one of the event queue, or a part of a removal. -/
inductive Does (s : SelectRemovals δ) : RemovalAct δ → SelectRemovals δ → Prop
  | events (act : RemovalAct δ) (act' : SelectAct δ) (events : SelectEvents δ)
    (hs : s.events.step act' = some events) : Does s act ⟨events, s.removal⟩
  | begins (which : Nat) (hpipe : which ≠ s.events.sPipe) :
    Does s (.removeevent which)
      ⟨s.events.beginRemoval which, some (which, .readLoaded (s.events.sReturnedReadSet.word which))⟩
  | goesOn (which : Nat) (place : RemovalPlace) (hr : s.removal = some (which, place)) :
    Does s .removal (goOn s.events which place)

theorem step_cases (hs : s.step act = some s') : Does s act s' := by
  cases act with
  | modwatch fd data which =>
    simp only [step] at hs
    split at hs
    next => cases hs
    next hr =>
      obtain ⟨events, he, rfl⟩ := Option.map_eq_some_iff.1 hs
      have hnone : s.removal = none := by simpa using hr
      exact hnone ▸ .events _ _ events he
  | removeevent which =>
    simp only [step] at hs
    split at hs <;> cases hs
    next hr => exact .begins which fun heq => hr (Or.inr heq)
  | removal =>
    obtain ⟨⟨which, place⟩, hr, rfl⟩ := Option.map_eq_some_iff.1 hs
    exact .goesOn which place hr
  | next b =>
    simp only [step] at hs
    split at hs
    next => cases hs
    next =>
      obtain ⟨events, he, rfl⟩ := Option.map_eq_some_iff.1 hs
      exact .events _ _ events he
  | select result =>
    obtain ⟨events, he, rfl⟩ := Option.map_eq_some_iff.1 hs
    exact .events _ _ events he

/-- **A removal left alone** is one step of the event queue. -/
theorem removal_alone {events : SelectEvents δ} {which : Nat} (hpipe : which ≠ events.sPipe) :
    run step ⟨events, none⟩ [.removeevent which, .removal, .removal, .removal] =
      some ⟨events.removeevent which, none⟩ := by
  have hread : events.sReturnedReadSet.store which ((events.sReturnedReadSet.word which).erase which) =
      events.sReturnedReadSet.erase which := store_word fun _ => mem_word
  have hwrite : events.sReturnedWriteSet.store which ((events.sReturnedWriteSet.word which).erase which) =
      events.sReturnedWriteSet.erase which := store_word fun _ => mem_word
  simp [run, step, goOn, beginRemoval, endRemoval, SelectEvents.removeevent, hpipe, hread, hwrite]

/-! ## What every run keeps -/

/-- What is watched is covered, whatever the waiting thread does during a removal. -/
theorem covered_step (h : s.events.Covered) (hs : Does s act s') : s'.events.Covered := by
  cases hs with
  | events _ act' events hs => exact SelectEvents.covered_step h (SelectEvents.step_cases hs)
  | begins which hpipe => exact fun f hf => h f (hf.imp Finset.mem_of_mem_erase Finset.mem_of_mem_erase)
  | goesOn which place hr =>
    cases place with
    | readLoaded word | readStored => exact h
    | writeLoaded word => exact fun f hf => le_lowered hf (h f hf)

/-- The pipe is watched and not reported, and no loaded word of the write set has it. -/
structure Guarded (s : SelectRemovals δ) : Prop where
  control : s.events.Control
  bounded : s.events.Bounded
  not_loaded : ∀ which word, s.removal = some (which, .writeLoaded word) → s.events.sPipe ∉ word

theorem guarded_startevents (pipe : Nat) : (startevents pipe : SelectRemovals δ).Guarded where
  control := control_startevents pipe
  bounded := bounded_startevents pipe
  not_loaded _ _ h := by cases h

theorem guarded_step (h : s.Guarded) (hC : s.KeepsClear act) (hs : Does s act s') : s'.Guarded := by
  have hb := h.bounded
  cases hs with
  | events _ act' events hs =>
    have hd := SelectEvents.step_cases hs
    have hpipe : events.sPipe = s.events.sPipe := sPipe_step hd
    exact {
      control := control_step h.control hd
      bounded := bounded_step h.control hb hd
      not_loaded := hpipe ▸ h.not_loaded }
  | begins which hpipe =>
    exact {
      control := h.control
      bounded := { hb with
        pipe_watched := Finset.mem_erase.2 ⟨hpipe.symm, hb.pipe_watched⟩
        pipe_not_write := fun hm => hb.pipe_not_write (Finset.mem_of_mem_erase hm)
        le_max := covered_step hb.le_max (.begins which hpipe) }
      not_loaded := fun g word heq => (by cases heq) }
  | goesOn which place hr =>
    cases place with
    | readLoaded word =>
      refine {
        control := h.control
        bounded := { hb with pipe_taken := fun hn hpast hm => ?_ }
        not_loaded := fun g word heq => (by cases heq) }
      rcases mem_store.1 hm with hm | hm
      · exact hb.pipe_taken hn hpast hm.1
      · simp only [KeepsClear, hr, ClearAfter] at hC
        exact hC hn hpast (Finset.mem_of_mem_erase hm)
    | readStored =>
      refine { control := h.control, bounded := hb, not_loaded := fun g word heq => ?_ }
      cases heq
      exact fun hm => hb.pipe_not_saved (mem_word.1 hm).1
    | writeLoaded word =>
      refine {
        control := h.control
        bounded := { hb with
          pipe_not_saved := fun hm => ?_
          le_max := covered_step hb.le_max (.goesOn which _ hr) }
        not_loaded := fun g word heq => (by cases heq) }
      rcases mem_store.1 hm with hm | hm
      · exact hb.pipe_not_saved hm.1
      · exact h.not_loaded which word hr (Finset.mem_of_mem_erase hm)

theorem sPipe_step (hs : Does s act s') : s'.events.sPipe = s.events.sPipe := by
  cases hs with
  | events _ act' events hs => exact SelectEvents.sPipe_step (SelectEvents.step_cases hs)
  | begins which hpipe => rfl
  | goesOn which place hr => cases place <;> rfl

/-- **The scan bound**: `sMaxFDPos` is at least every watched descriptor, and so a call of `select` covers them all; and the
pipe stays in `sReadSet` when no `select_removeevent` puts its bit back into the result. -/
theorem scan_bound {pipe : Nat} {acts : List (RemovalAct δ)} (hr : run step (startevents pipe) acts = some s) :
    (∀ f, f ∈ s.events.sReadSet ∨ f ∈ s.events.sWriteSet → f ≤ s.events.sMaxFDPos) ∧
    (∀ b s' r w nfds, step s (.next b) = some s' → s'.events.place = .blocked r w nfds →
      ∀ f, f ∈ s.events.sReadSet ∨ f ∈ s.events.sWriteSet → f < nfds) ∧
    (Along step KeepsClear (startevents pipe) acts → pipe ∈ s.events.sReadSet) := by
  have hcovered : s.events.Covered :=
    run_inv (I := fun s => s.events.Covered) (fun _ _ _ h hs => covered_step h (step_cases hs))
      (bounded_startevents pipe).le_max hr
  refine ⟨hcovered, fun b s' r w nfds hs hb f hf => ?_, fun hC => ?_⟩
  · simp only [step] at hs
    split at hs
    next => cases hs
    next =>
      obtain ⟨events, he, rfl⟩ := Option.map_eq_some_iff.1 hs
      obtain ⟨-, hnfds⟩ := (SelectEvents.step_cases he).called hb
      exact hnfds ▸ Nat.lt_succ_of_le (hcovered f hf)
  · have hpipe : s.events.sPipe = pipe :=
      run_inv (I := fun s => s.events.sPipe = pipe) (fun _ _ _ h hs => (sPipe_step (step_cases hs)).trans h) rfl hr
    have hguarded : s.Guarded :=
      run_inv_along (fun _ _ _ h hC hs => guarded_step h hC (step_cases hs)) (guarded_startevents pipe) hC hr
    exact hpipe ▸ hguarded.bounded.pipe_watched

/-- The descriptors 5 and 7 are watched, and `select` returns the pipe and 5. The removal of 7 loads its word before
`selecthasdata` clears the bit of the pipe, and stores it afterwards or, if it is `alone`, before. -/
def removalDuringClear (alone : Bool) : List (RemovalAct Unit) :=
  [.modwatch 5 () evRE, .modwatch 7 () evRE] ++ List.replicate 5 (.next false) ++
    [.select (.ready {3, 5} ∅), .removeevent 7] ++
    (if alone then [.removal, .removal, .removal] ++ List.replicate 2 (.next false)
      else List.replicate 2 (.next false) ++ [.removal, .removal, .removal]) ++
    List.replicate 3 (.next false)

/-- The pipe is reported, and watched no more. -/
theorem scan_bound_put_back : ∃ s : SelectRemovals Unit,
    run step (startevents 3) (removalDuringClear false) = some s ∧ 3 ∉ s.events.sReadSet :=
  ⟨_, rfl, by decide +kernel⟩

theorem scan_bound_alone : ∃ s : SelectRemovals Unit,
    run step (startevents 3) (removalDuringClear true) = some s ∧ 3 ∈ s.events.sReadSet := by
  obtain ⟨s, hr⟩ : ∃ s, run step (startevents 3) (removalDuringClear true) = some s := ⟨_, rfl⟩
  exact ⟨s, hr, (scan_bound hr).2.2 (by decide +kernel)⟩

end SelectRemovals

end ToolLib.Common
