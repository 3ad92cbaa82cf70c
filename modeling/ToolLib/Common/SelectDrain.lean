import ToolLib.Common.SelectEvents

/-!
# A result is drained

After a successful `select` the waiting thread comes back to the copy of the sets, however often the other threads register
and remove descriptors meanwhile: each of its steps brings it nearer, and no step of theirs takes it back
(`stepsLeft_step`).
-/

namespace ToolLib.Common

open ToolLib.Base

variable {δ : Type*}

/-- A step of the waiting thread. -/
def SelectAct.isNext : SelectAct δ → Bool
  | .next _ => true
  | .modwatch _ _ _ | .removeevent _ | .select _ => false

namespace SelectEvents

variable {s s' : SelectEvents δ} {act : SelectAct δ}

/-- From a result of `select` to the next copy of the sets. -/
def Draining (s : SelectEvents δ) : Prop :=
  0 ≤ s.sNumFDsBackFromSelect ∧
    match s.place with
    | .copying | .calling | .blocked _ _ _ => False
    | .out _ | .readScan | .writeScan | .counted | .hasData | .clearing _ | .closing => True

/-- The steps to the copy of the sets when nothing is reported, after a result of `select` with `back` descriptors. -/
def placeLeft (back : Int) : WaitPlace δ → Nat
  | .hasData => if 0 < back then 8 else 1
  | .clearing _ => 7
  | .closing => 6
  | .out _ => 5
  | .readScan => 4
  | .writeScan => 3
  | .counted => 2
  | .copying | .calling | .blocked _ _ _ => 0

/-- The saved read set, or what it is when the loaded word is stored. -/
def readsLeft (s : SelectEvents δ) : FdSet :=
  match s.place with
  | .clearing word => s.sReturnedReadSet.store s.sPipe word
  | .out _ | .readScan | .writeScan | .counted | .hasData | .closing | .copying | .calling | .blocked _ _ _ =>
    s.sReturnedReadSet

/-- How many steps of the waiting thread there are to come at most. -/
def stepsLeft (s : SelectEvents δ) : Nat :=
  8 * (s.readsLeft.card + s.sReturnedWriteSet.card) + placeLeft s.sNumFDsBackFromSelect s.place

/-- The waiting thread can go on. -/
theorem Draining.next (h : s.Draining) (b : Bool) : (s.step (.next b)).isSome := by
  unfold step SelectEvents.next
  cases hp : s.place with
  | blocked r w nfds => simp [Draining, hp] at h
  | _ => rfl

/-- No new result comes meanwhile. -/
theorem Draining.not_returned {o : Option (Entry δ)} (h : s.Draining) (hs : Does s act s' o) :
    ∀ e, o = some e → ¬ e.IsReturned := by
  rintro e rfl
  cases hs with
  | ready r w readfds writefds nfds hp => simp [Draining, hp] at h
  | timedOut readfds writefds nfds hp => simp [Draining, hp] at h
  | _ => exact id

/-- A load and a store of the same word. -/
theorem store_word_self {set : FdSet} {fd : Nat} : set.store fd (set.word fd) = set := by
  ext f
  rw [mem_store, mem_word]
  by_cases hf : f / NFDBITS = fd / NFDBITS <;> simp [hf]

theorem readsLeft_removeevent (fd : Nat) : (s.removeevent fd).readsLeft ⊆ s.readsLeft := by
  have herase : s.sReturnedReadSet.erase fd ⊆ s.sReturnedReadSet := Finset.erase_subset _ _
  unfold readsLeft removeevent
  cases s.place with
  | clearing word => exact Finset.union_subset_union_left (Finset.filter_subset_filter _ herase)
  | _ => exact herase

/-- **A result is drained**: each step of the waiting thread brings it nearer to the next copy, whatever the others do. -/
theorem stepsLeft_step {o : Option (Entry δ)} (hc : s.Control) (hD : s.Draining) (hs : Does s act s' o) :
    s'.stepsLeft + act.isNext.toNat ≤ s.stepsLeft := by
  cases hs with
  | modwatch fd data which hfd => exact Nat.le_refl _
  | removeevent fd hfd =>
    have hr : (s.removeevent fd).readsLeft.card ≤ s.readsLeft.card := Finset.card_le_card (readsLeft_removeevent fd)
    have hw := Finset.card_erase_le (a := fd) (s := s.sReturnedWriteSet)
    simp only [stepsLeft, removeevent, SelectAct.isNext, Bool.toNat_false] at hr ⊢
    omega
  | readFound b hp hf =>
    have hcard := Finset.card_erase_add_one hf
    simp only [scanRead, if_pos hf, stepsLeft, readsLeft, placeLeft, constructeventreq, hp, SelectAct.isNext,
      Bool.toNat_true]
    omega
  | writeFound b hp hf =>
    have hcard := Finset.card_erase_add_one hf
    simp only [scanWrite, if_pos hf, stepsLeft, readsLeft, placeLeft, constructeventreq, hp, SelectAct.isNext,
      Bool.toNat_true]
    omega
  | pipe b hp hn hf =>
    simp only [stepsLeft, readsLeft, placeLeft, hp, hn, store_word_self, if_true, SelectAct.isNext, Bool.toNat_true]
    omega
  | clear b word hp =>
    have hcard : (s.sReturnedReadSet.store s.sPipe (word.erase s.sPipe)).card ≤
        (s.sReturnedReadSet.store s.sPipe word).card :=
      Finset.card_le_card (Finset.union_subset_union_right (Finset.erase_subset _ _))
    simp only [clearPipe, stepsLeft, readsLeft, placeLeft, hp, SelectAct.isNext, Bool.toNat_true]
    omega
  | fresh b hp hn =>
    simp only [Control, hp] at hc
    have hle := (hc hn).1
    simp [stepsLeft, readsLeft, placeLeft, hp, not_lt.2 hle, SelectAct.isNext]
  | again b hp hn =>
    simp only [stepsLeft, readsLeft, placeLeft, hp, not_lt.2 hn, if_false, SelectAct.isNext, Bool.toNat_true]
    omega
  | data b hp hn hf =>
    simp only [stepsLeft, readsLeft, placeLeft, hp, hn, if_true, SelectAct.isNext, Bool.toNat_true]
    omega
  | error b hp hn => exact absurd hD.1 (not_le.2 hn)
  | copy b hp | call b hp => simp [Draining, hp] at hD
  | ready r w readfds writefds nfds hp => simp [Draining, hp] at hD
  | timedOut readfds writefds nfds hp | failed readfds writefds nfds hp => simp [Draining, hp] at hD
  | enterRead b ret hp | enterWrite b ret hp | enterCounted b ret hp | readPast b hp | writePast b hp | reinit b hp
  | closed b hp | closedData b ret hp =>
    simp [stepsLeft, readsLeft, placeLeft, hp, SelectAct.isNext]

end SelectEvents

end ToolLib.Common
