import ToolLib.Common.OSMutexRW

/-!
# What the read-write lock counts

`fState` counts the threads that have the lock for reading, if it is not -1 (`Counted`), whatever the writers do: a second
writer, which `LockWrite` lets in, spoils the count only when it unlocks while readers are counted
(`not_counted_unlock`). A call of `Unlock` by a thread that does not have the lock takes away a reader as well, or the
writer; what it does to the other threads is the same (`unlock_spot`).
-/

namespace ToolLib.Common

open ToolLib.Base

/-- Where the thread is, whether it has been woken or not. -/
def Spot.asleep : Spot → Spot
  | .readWait _ => .readWait false
  | .writeWait _ => .writeWait false
  | p => p

namespace Spot

variable {p q : Spot}

theorem isReader_asleep : p.asleep.isReader = p.isReader := by cases p <;> rfl
theorem isBlocked_asleep : p.asleep.isBlocked = p.isBlocked := by cases p <;> rfl

theorem broadcast_asleep : p.broadcast.asleep = p.asleep := by cases p <;> rfl

/-- A thread that has the lock, or is outside, stays there. -/
theorem eq_of_asleep (h : p.asleep = q.asleep) (hq : q.isBlocked = false) : p = q := by
  cases p <;> cases q <;> simp_all [asleep, isBlocked]

/-- The thread has the lock. -/
def Holds (p : Spot) : Prop := p = .reading ∨ p = .writing

instance : DecidablePred Holds := fun _ => inferInstanceAs (Decidable (_ ∨ _))

theorem holds_iff_of_asleep (h : p.asleep = q.asleep) : p.Holds ↔ q.Holds := by
  cases p <;> cases q <;> simp_all [asleep, Holds]

/-- The thread has the lock for writing, or waits for it. -/
def forWriting : Spot → Bool
  | .writeWait _ | .writing => true
  | .out | .readWait _ | .reading => false

theorem forWriting_asleep : p.asleep.forWriting = p.forWriting := by cases p <;> rfl

theorem Holds.not_blocked (h : p.Holds) : p.isBlocked = false := by
  rcases h with rfl | rfl <;> rfl

end Spot

namespace Locked

section Spots

variable {T : Type*} [DecidableEq T] {s : Locked T} {t u : T} {pick : Option T}

theorem readLoop_other (hu : u ≠ t) : (s.readLoop t).spot u = s.spot u := by
  unfold readLoop
  split <;> exact Function.update_of_ne hu _ _

theorem readLoop_spot : (s.readLoop t).spot t = .readWait false ∨ (s.readLoop t).spot t = .reading := by
  unfold readLoop
  split
  · exact Or.inl (Function.update_self ..)
  · exact Or.inr (Function.update_self ..)

theorem writeLoop_other (hu : u ≠ t) : (s.writeLoop t).spot u = s.spot u := by
  unfold writeLoop
  split <;> exact Function.update_of_ne hu _ _

theorem writeLoop_own : (s.writeLoop t).spot t = .writeWait false ∨ (s.writeLoop t).spot t = .writing := by
  unfold writeLoop
  split
  · exact Or.inl (Function.update_self ..)
  · exact Or.inr (Function.update_self ..)

omit [DecidableEq T] in
theorem canPick_ne (hp : s.CanPick (some u)) (ht : (s.spot t).isBlocked = false) : u ≠ t := by
  rintro rfl
  have hu : s.spot u = .writeWait false := hp
  rw [hu] at ht
  cases ht

theorem signalWriter_spot (hp : ∀ v ∈ pick, s.spot v = .writeWait false) :
    ((s.signalWriter pick).spot u).asleep = (s.spot u).asleep := by
  cases pick with
  | none => rfl
  | some v =>
    by_cases huv : u = v
    · subst huv
      simp only [signalWriter, setSpot, Function.update_self]
      rw [hp u rfl]
      rfl
    · simp only [signalWriter, setSpot, Function.update_of_ne huv]

/-- **`Unlock`**, by any thread: the others stay where they are, but may be woken. -/
theorem unlock_spot (hp : s.CanPick pick) (ht : (s.spot t).isBlocked = false) :
    (((s.setSpot t .out).unlock pick).spot u).asleep = (Function.update s.spot t .out u).asleep := by
  have hpick : ∀ v ∈ pick, Function.update s.spot t .out v = .writeWait false := by
    intro v hv
    cases hv
    rw [Function.update_of_ne (canPick_ne hp ht)]
    exact hp
  unfold unlock
  simp only
  split
  · split
    · exact signalWriter_spot hpick
    · exact Spot.broadcast_asleep
  · split
    · exact signalWriter_spot hpick
    · rfl

theorem unlock_fState : ((s.setSpot t .out).unlock pick).lock.fState =
    if s.lock.fState < 0 then 0 else max (s.lock.fState - 1) 0 := by
  have hsub : (s.setSpot t .out).lock.removeActiveReader.fState = s.lock.fState - 1 := rfl
  unfold unlock
  simp only [signalWriter_eq]
  split
  next hneg =>
    have hwriter : s.lock.fState < 0 := OSMutexRW.activeWriter_iff.1 hneg
    rw [if_pos hwriter]
    split <;> rfl
  next hneg =>
    have hwriter : ¬ s.lock.fState < 0 := mt OSMutexRW.activeWriter_iff.2 hneg
    rw [if_neg hwriter]
    split
    next hl =>
      rw [Bool.not_eq_true', ← Bool.not_eq_true, OSMutexRW.activeReaders_iff, hsub] at hl
      have hle : s.lock.fState - 1 ≤ 0 := by omega
      exact (max_eq_right hle).symm
    next hm =>
      rw [Bool.not_eq_true', ← Bool.not_eq_true, OSMutexRW.activeReaders_iff, hsub] at hm
      have hle : 0 ≤ s.lock.fState - 1 := by omega
      exact (max_eq_left hle).symm

end Spots

/-! ## The count of the readers -/

section Counts

variable {T : Type*} [DecidableEq T] [Fintype T] {s : Locked T} {t : T} {st : Int} {f g : T → Spot} {p : Spot}
  {pick : Option T}

/-- `fState` is -1, or what it counts are the readers. -/
structure Counted (fState : Int) (spot : T → Spot) : Prop where
  low : -1 ≤ fState
  readers : fState.toNat = count Spot.isReader spot

omit [DecidableEq T] in
theorem Counted.alike (h : Counted st f) (hg : ∀ u, (g u).isReader = (f u).isReader) : Counted st g :=
  ⟨h.low, by rw [count_congr hg]; exact h.readers⟩

/-- A thread that does not read goes on without reading. -/
theorem Counted.move (h : Counted st f) (ht : (f t).isReader = false) (hp : p.isReader = false) :
    Counted st (Function.update f t p) := by
  refine h.alike fun u => ?_
  by_cases hu : u = t
  · subst hu
    rw [Function.update_self, hp, ht]
  · rw [Function.update_of_ne hu]

theorem Counted.read_enters (h : Counted st f) (hst : 0 ≤ st) (ht : (f t).isReader = false) :
    Counted (st + 1) (Function.update f t .reading) := by
  have henter : count Spot.isReader (Function.update f t .reading) = count Spot.isReader f + 1 := count_enter ht rfl
  have hreaders := h.readers
  exact ⟨by omega, by omega⟩

/-- A writer comes when no readers are counted. -/
theorem Counted.write_enters (h : Counted st f) (hst : st ≤ 0) (ht : (f t).isReader = false) :
    Counted (-1) (Function.update f t .writing) := by
  have hmove := (h.move (p := .writing) ht rfl).readers
  exact ⟨Int.le_refl _, by omega⟩

theorem Counted.read_leaves (h : Counted st f) (ht : f t = .reading) :
    0 < st ∧ Counted (st - 1) (Function.update f t .out) := by
  have hleave : count Spot.isReader (Function.update f t .out) + 1 = count Spot.isReader f :=
    count_leave (by rw [ht]; rfl) rfl
  have hreaders := h.readers
  have hpos : 0 < st := by omega
  exact ⟨hpos, by omega, by omega⟩

theorem Counted.readLoop (h : Counted s.lock.fState s.spot) (ht : (s.spot t).isReader = false) :
    Counted (s.readLoop t).lock.fState (s.readLoop t).spot := by
  unfold Locked.readLoop
  split
  next => exact h.move ht rfl
  next hno =>
    rw [Bool.or_eq_true, not_or, OSMutexRW.activeWriter_iff, Int.not_lt] at hno
    exact h.read_enters hno.1 ht

theorem Counted.writeLoop (h : Counted s.lock.fState s.spot) (ht : (s.spot t).isReader = false) :
    Counted (s.writeLoop t).lock.fState (s.writeLoop t).spot := by
  unfold Locked.writeLoop
  split
  next => exact h.move ht rfl
  next hno =>
    rw [OSMutexRW.activeReaders_iff, Int.not_lt] at hno
    exact h.write_enters hno ht

/-- The spots after `Unlock`, for the count. -/
theorem counted_unlock_iff (hp : s.CanPick pick) (ht : (s.spot t).isBlocked = false) :
    Counted st ((s.setSpot t .out).unlock pick).spot ↔ Counted st (Function.update s.spot t .out) := by
  have halike : ∀ u, (((s.setSpot t .out).unlock pick).spot u).isReader = (Function.update s.spot t .out u).isReader := by
    intro u
    rw [← Spot.isReader_asleep, unlock_spot hp ht, Spot.isReader_asleep]
  exact ⟨fun h => h.alike fun u => (halike u).symm, fun h => h.alike halike⟩

theorem Counted.unlock (h : Counted s.lock.fState s.spot) (hp : s.CanPick pick) (ht : (s.spot t).Holds)
    (hw : s.spot t = .writing → s.lock.fState ≤ 0) :
    Counted ((s.setSpot t .out).unlock pick).lock.fState ((s.setSpot t .out).unlock pick).spot := by
  rw [counted_unlock_iff hp ht.not_blocked, unlock_fState]
  rcases ht with ht | ht
  · obtain ⟨hpos, hleave⟩ := h.read_leaves ht
    rw [if_neg (by omega), max_eq_left (by omega)]
    exact hleave
  · have hle := hw ht
    have hmove := (h.move (p := .out) (by rw [ht]; rfl) rfl).readers
    have hzero : (if s.lock.fState < 0 then 0 else max (s.lock.fState - 1) 0) = 0 := by
      split
      · rfl
      · exact max_eq_right (by omega)
    rw [hzero]
    exact ⟨by decide, by omega⟩

/-- A writer that unlocks while readers are counted takes one of them away. -/
theorem not_counted_unlock (h : Counted s.lock.fState s.spot) (hp : s.CanPick pick) (ht : s.spot t = .writing)
    (hpos : 0 < s.lock.fState) :
    ¬ Counted ((s.setSpot t .out).unlock pick).lock.fState ((s.setSpot t .out).unlock pick).spot := by
  rw [counted_unlock_iff hp (by rw [ht]; rfl), unlock_fState, if_neg (by omega)]
  intro h'
  have hmove := (h.move (p := .out) (by rw [ht]; rfl) rfl).readers
  have hreaders := h'.readers
  rw [max_eq_left (by omega)] at hreaders
  omega

end Counts

/-! ## Moves that may take the lock -/

section Takes

variable {T : Type*} [DecidableEq T] [Fintype T] {s s' : Locked T} {t : T}

/-- The three moves, and whether they are for writing. -/
inductive Takes (s : Locked T) (t : T) : Move T → Bool → Prop
  | read : Takes s t (.lockRead t) false
  | write : Takes s t (.lockWrite t) true
  | resume : Takes s t (.resume t) (s.spot t).forWriting

variable {a : Move T} {w : Bool}

/-- What the thread was before, and what becomes of it: it waits or has the lock. The others stay where they are. -/
structure Took (s : Locked T) (t : T) (w : Bool) (s' : Locked T) : Prop where
  before : ¬ (s.spot t).Holds
  after : (s'.spot t).isBlocked = true ∨ (s'.spot t).Holds
  writing : (s'.spot t).forWriting = w
  other : ∀ u, u ≠ t → s'.spot u = s.spot u
  counted : Counted s.lock.fState s.spot → Counted s'.lock.fState s'.spot

/-- The test in `LockRead`. -/
theorem took_readLoop {r : Int} (ht : ¬ (s.spot t).Holds) :
    Took s t false (Locked.readLoop { s with lock := { s.lock with fReadWaiters := r } } t) := by
  have hreader : (s.spot t).isReader = false := by
    cases hp : s.spot t <;> simp_all [Spot.Holds, Spot.isReader]
  refine ⟨ht, ?_, ?_, fun u hu => readLoop_other hu, fun h => ?_⟩
  · rcases readLoop_spot (s := { s with lock := { s.lock with fReadWaiters := r } }) (t := t) with h | h <;> rw [h]
    · exact Or.inl rfl
    · exact Or.inr (Or.inl rfl)
  · rcases readLoop_spot (s := { s with lock := { s.lock with fReadWaiters := r } }) (t := t) with h | h <;> rw [h] <;> rfl
  · exact Counted.readLoop (s := { s with lock := { s.lock with fReadWaiters := r } }) h hreader

/-- The test in `LockWrite`. -/
theorem took_writeLoop {r : Int} (ht : ¬ (s.spot t).Holds) :
    Took s t true (Locked.writeLoop { s with lock := { s.lock with fWriteWaiters := r } } t) := by
  have hreader : (s.spot t).isReader = false := by
    cases hp : s.spot t <;> simp_all [Spot.Holds, Spot.isReader]
  refine ⟨ht, ?_, ?_, fun u hu => writeLoop_other hu, fun h => ?_⟩
  · rcases writeLoop_own (s := { s with lock := { s.lock with fWriteWaiters := r } }) (t := t) with h | h <;> rw [h]
    · exact Or.inl rfl
    · exact Or.inr (Or.inr rfl)
  · rcases writeLoop_own (s := { s with lock := { s.lock with fWriteWaiters := r } }) (t := t) with h | h <;> rw [h] <;> rfl
  · exact Counted.writeLoop (s := { s with lock := { s.lock with fWriteWaiters := r } }) h hreader

theorem Takes.took (ha : Takes s t a w) (hs : s.step a = some s') : Took s t w s' := by
  cases ha with
  | read =>
    simp only [step] at hs
    split at hs <;> cases hs
    next ht => exact took_readLoop (by rw [ht]; decide)
  | write =>
    simp only [step] at hs
    split at hs <;> cases hs
    next ht => exact took_writeLoop (by rw [ht]; decide)
  | resume =>
    cases hp : s.spot t with
    | readWait b =>
      simp only [step, hp] at hs
      cases hs
      exact took_readLoop (r := s.lock.fReadWaiters) (by simp [hp, Spot.Holds])
    | writeWait b =>
      simp only [step, hp] at hs
      cases hs
      exact took_writeLoop (r := s.lock.fWriteWaiters) (by simp [hp, Spot.Holds])
    | out | reading | writing => simp only [step, hp] at hs; cases hs

/-- Only a thread that waits makes its test again. -/
theorem blocked_of_resume (hs : s.step (.resume t) = some s') : (s.spot t).isBlocked = true := by
  cases hp : s.spot t with
  | readWait b | writeWait b => rfl
  | out | reading | writing => simp only [step, hp] at hs; cases hs

end Takes

end Locked

end ToolLib.Common
