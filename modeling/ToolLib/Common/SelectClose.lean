import ToolLib.Base.Logged
import ToolLib.Common.SelectBounds

/-!
# Who closes a descriptor

The event queue over `select` with the descriptors that the callers have. The system hands out a number that is closed
(`opens`). Its owner may watch it from then on, and gets rid of it with `EventContext::Cleanup`: a descriptor that was never
watched is closed there (`close`), one that was is passed to `select_removeevent`, and the waiting thread closes it when it
next finds data on the pipe. The owner calls neither function afterwards.

What a descriptor is now (`FDState`) and the array of the descriptors to be closed agree in every run (`Kept`), and with the
log of what happened to each of them (`Told`).
-/

namespace ToolLib.Common

open ToolLib.Base

variable {δ : Type*}

/-- What the number of a descriptor is now. -/
inductive FDState
  | closed
  /-- Handed out, and not watched yet. -/
  | opened
  | watched
  /-- Passed to `select_removeevent`. -/
  | removed
  deriving DecidableEq

/-- The event queue, and the descriptors. -/
structure FDTable (δ : Type*) where
  shim : SelectShim δ
  fds : Nat → FDState

/-- What happens next. -/
inductive FDAct (δ : Type*)
  /-- The system hands out the number. -/
  | opens (fd : Nat)
  /-- `EventContext::Cleanup` of a context that never asked for events. -/
  | close (fd : Nat)
  | modwatch (fd : Nat) (data : δ) (which : BitVec 32)
  | removeevent (fd : Nat)
  | next (interrupted : Bool)
  | select (result : SelectResult)

/-- What an observer notes. -/
inductive FDEntry
  | opened (fd : Nat)
  | removed (fd : Nat)
  /-- Closed by their owner, or by the waiting thread. -/
  | closed (byWaitevent : Bool) (fds : List Int)

namespace FDTable

/-- `select_startevents`: of the numbers that are in use then, only that of the pipe matters, and it is never handed out. -/
def startevents (pipe : Nat) : FDTable δ := ⟨SelectShim.startevents pipe, fun _ => .closed⟩

def step (s : FDTable δ) : FDAct δ → Option (FDTable δ)
  | .opens fd =>
    if s.fds fd = .closed ∧ fd ≠ s.shim.events.sPipe then some { s with fds := Function.update s.fds fd .opened } else none
  | .close fd => if s.fds fd = .opened then some { s with fds := Function.update s.fds fd .closed } else none
  | .modwatch fd data which =>
    -- the assertion of `select_modwatch`
    if fd < FD_SETSIZE ∧ (s.fds fd = .opened ∨ s.fds fd = .watched) then
      (s.shim.step (.modwatch fd data which)).map fun shim => ⟨shim, Function.update s.fds fd .watched⟩
    else none
  | .removeevent fd =>
    if s.fds fd = .watched then
      (s.shim.step (.removeevent fd)).map fun shim => ⟨shim, Function.update s.fds fd .removed⟩
    else none
  | .next interrupted =>
    (s.shim.step (.next interrupted)).map fun shim =>
      ⟨shim, fun fd => if (fd : Int) ∈ s.shim.closes (.next interrupted) then .closed else s.fds fd⟩
  | .select result => (s.shim.step (.select result)).map fun shim => ⟨shim, s.fds⟩

/-- The descriptors that a step closes. -/
def closes (s : FDTable δ) : FDAct δ → List Int
  | .close fd => [(fd : Int)]
  | .next interrupted => s.shim.closes (.next interrupted)
  | .opens _ | .modwatch _ _ _ | .removeevent _ | .select _ => []

/-- The entries of `sFDsToCloseArray` that a step uses. -/
def entries (s : FDTable δ) : FDAct δ → List Nat
  | .removeevent fd => s.shim.entries (.removeevent fd)
  | .next interrupted => s.shim.entries (.next interrupted)
  | .opens _ | .close _ | .modwatch _ _ _ | .select _ => []

def observe (s : FDTable δ) (act : FDAct δ) (_ : FDTable δ) : Option FDEntry :=
  match act with
  | .opens fd => some (.opened fd)
  | .close fd => some (.closed false [(fd : Int)])
  | .removeevent fd => some (.removed fd)
  | .next interrupted => some (.closed true (s.shim.closes (.next interrupted)))
  | .modwatch _ _ _ | .select _ => none

end FDTable

namespace FDEntry

/-- The number is handed out. -/
def Opens (fd : Nat) : FDEntry → Prop
  | .opened g => g = fd
  | .removed _ | .closed _ _ => False

/-- The number is passed to `select_removeevent`. -/
def Removes (fd : Nat) : FDEntry → Prop
  | .removed g => g = fd
  | .opened _ | .closed _ _ => False

/-- The number is closed. -/
def Closes (fd : Nat) : FDEntry → Prop
  | .closed _ fds => (fd : Int) ∈ fds
  | .opened _ | .removed _ => False

/-- The waiting thread closes each descriptor once that was removed and neither closed nor handed out since. Others close only
what was not removed since it was handed out. -/
def Rightful (past : List FDEntry) : FDEntry → Prop
  | .closed true fds => fds.Nodup ∧ ∀ x ∈ fds, ∃ fd : Nat, x = fd ∧
      Since (Removes fd) (fun e => Closes fd e ∨ Opens fd e) past
  | .closed false fds => ∀ x ∈ fds, ∃ fd : Nat, x = fd ∧ Since (Opens fd) (fun e => Removes fd e ∨ Closes fd e) past
  | .opened _ | .removed _ => True

end FDEntry

/-! ## What the waiting thread does -/

section Waiting

variable {s s' : SelectEvents δ} {act : SelectAct δ} {o : Option (SelectEvents.Entry δ)}

/-- A step of the waiting thread or of `select`. -/
def SelectAct.Waits : SelectAct δ → Prop
  | .next _ | .select _ => True
  | .modwatch _ _ _ | .removeevent _ => False

/-- The waiting thread takes descriptors out of the sets at most, copies them, and calls `select` with the copies. -/
theorem SelectEvents.Does.waits (hs : SelectEvents.Does s act s' o) (hact : act.Waits) :
    s'.sReadSet ⊆ s.sReadSet ∧ s'.sWriteSet ⊆ s.sWriteSet ∧
      (s'.place = .calling → s'.sReturnedReadSet = s.sReadSet ∧ s'.sReturnedWriteSet = s.sWriteSet) ∧
      ∀ r w nfds, s'.place = .blocked r w nfds →
        s.place = .calling ∧ r = s.sReturnedReadSet ∧ w = s.sReturnedWriteSet := by
  cases hs with
  | modwatch | removeevent => exact hact.elim
  | readFound b hp hf =>
    rw [SelectEvents.scanRead, if_pos hf]
    refine ⟨Finset.erase_subset _ _, Finset.erase_subset _ _, fun h => ?_, fun r w nfds h => ?_⟩ <;> cases h
  | writeFound b hp hf =>
    rw [SelectEvents.scanWrite, if_pos hf]
    refine ⟨Finset.erase_subset _ _, Finset.erase_subset _ _, fun h => ?_, fun r w nfds h => ?_⟩ <;> cases h
  | copy b hp => exact ⟨subset_rfl, subset_rfl, fun _ => ⟨rfl, rfl⟩, fun r w nfds h => by cases h⟩
  | call b hp =>
    refine ⟨subset_rfl, subset_rfl, fun h => (by cases h), fun r w nfds h => ?_⟩
    cases h
    exact ⟨hp, rfl, rfl⟩
  | _ => exact ⟨subset_rfl, subset_rfl, fun h => (by cases h), fun r w nfds h => (by cases h)⟩

/-- What waits for its close stays there until the waiting thread takes it. -/
theorem SelectEvents.Does.select_keeps {result : SelectResult} (hs : SelectEvents.Does s (.select result) s' o) :
    s'.sFDsToCloseArray = s.sFDsToCloseArray := by
  cases hs <;> rfl

end Waiting

/-! ## What every run keeps -/

namespace FDTable

variable {s s' : FDTable δ} {act : FDAct δ}

/-- The sets, the array and the descriptors agree. -/
structure Kept (s : FDTable δ) : Prop where
  filled : s.shim.Filled
  nodup : s.shim.events.sFDsToCloseArray.Nodup
  waiting : ∀ fd, fd ∈ s.shim.events.sFDsToCloseArray ↔ s.fds fd = .removed
  below : ∀ fd, s.fds fd = .watched ∨ s.fds fd = .removed → fd < FD_SETSIZE
  pipe : s.fds s.shim.events.sPipe = .closed
  sets : ∀ fd, fd ∈ s.shim.events.sReadSet ∨ fd ∈ s.shim.events.sWriteSet →
    fd = s.shim.events.sPipe ∨ s.fds fd = .watched
  copied : s.shim.events.place = .calling →
    ∀ fd, fd ∈ s.shim.events.sReturnedReadSet ∨ fd ∈ s.shim.events.sReturnedWriteSet →
      fd = s.shim.events.sPipe ∨ s.fds fd = .watched
  asked : ∀ r w nfds, s.shim.events.place = .blocked r w nfds → ∀ fd, fd ∈ r ∨ fd ∈ w →
    fd = s.shim.events.sPipe ∨ s.fds fd = .watched ∨ s.fds fd = .removed

theorem kept_startevents (pipe : Nat) : (startevents pipe : FDTable δ).Kept where
  filled := SelectShim.filled_startevents pipe
  nodup := List.nodup_nil
  waiting fd := by simp [startevents, SelectShim.startevents, SelectEvents.startevents]
  below fd h := by simp [startevents] at h
  pipe := rfl
  sets fd h := by simpa [startevents, SelectShim.startevents, SelectEvents.startevents] using h
  copied h := by cases h
  asked r w nfds h := by cases h

/-- There is room for one more descriptor below `FD_SETSIZE` that does not wait yet. -/
theorem Kept.length_lt (h : s.Kept) {fd : Nat} (hfd : fd < FD_SETSIZE) (hno : s.fds fd ≠ .removed) :
    s.shim.events.sFDsToCloseArray.length < FD_SETSIZE := by
  have hnodup : (fd :: s.shim.events.sFDsToCloseArray).Nodup :=
    List.nodup_cons.2 ⟨fun hm => hno ((h.waiting fd).1 hm), h.nodup⟩
  have hsub : fd :: s.shim.events.sFDsToCloseArray ⊆ List.range FD_SETSIZE := by
    intro g hg
    rw [List.mem_range]
    rcases List.mem_cons.1 hg with rfl | hg
    · exact hfd
    · exact h.below g (Or.inr ((h.waiting g).1 hg))
  have hle := (List.subperm_of_subset hnodup hsub).length_le
  rwa [List.length_range, List.length_cons] at hle

/-- The waiting thread closes descriptors that were removed, each of them once. -/
theorem Kept.closes_removed (h : s.Kept) {b : Bool} {shim : SelectShim δ} (hs : s.shim.step (.next b) = some shim) :
    (s.shim.closes (.next b)).Nodup ∧ ∀ x ∈ s.shim.closes (.next b), ∃ fd : Nat, x = fd ∧ s.fds fd = .removed := by
  rcases SelectShim.next_closes h.filled hs with ⟨-, hcloses, -⟩ | ⟨hcloses, -⟩ <;> rw [hcloses]
  · refine ⟨h.nodup.map fun _ _ heq => Int.ofNat_inj.1 heq, fun x hx => ?_⟩
    obtain ⟨fd, hfd, rfl⟩ := List.mem_map.1 hx
    exact ⟨fd, rfl, (h.waiting fd).1 hfd⟩
  · exact ⟨List.nodup_nil, fun x hx => by cases hx⟩

theorem Kept.mem_closes (h : s.Kept) {b : Bool} {shim : SelectShim δ} (hs : s.shim.step (.next b) = some shim) {fd : Nat}
    (hfd : (fd : Int) ∈ s.shim.closes (.next b)) : s.fds fd = .removed := by
  obtain ⟨g, heq, hg⟩ := (h.closes_removed hs).2 _ hfd
  rwa [Int.ofNat_inj.1 heq]

/-- A descriptor is handed out, or closed by its owner: nothing that the queue holds is meant. -/
theorem Kept.idle (h : s.Kept) {fd : Nat} {x : FDState} (hpipe : fd ≠ s.shim.events.sPipe)
    (hw : s.fds fd ≠ .watched) (hr : s.fds fd ≠ .removed) (hxw : x ≠ .watched) (hxr : x ≠ .removed) :
    Kept { s with fds := Function.update s.fds fd x } := by
  have hwatched : ∀ g, Function.update s.fds fd x g = .watched ↔ s.fds g = .watched := by
    intro g
    by_cases hg : g = fd
    · subst hg
      simp [hw, hxw]
    · rw [Function.update_of_ne hg]
  have hremoved : ∀ g, Function.update s.fds fd x g = .removed ↔ s.fds g = .removed := by
    intro g
    by_cases hg : g = fd
    · subst hg
      simp [hr, hxr]
    · rw [Function.update_of_ne hg]
  exact {
    filled := h.filled
    nodup := h.nodup
    waiting := fun g => (h.waiting g).trans (hremoved g).symm
    below := fun g hg => h.below g (hg.imp (hwatched g).1 (hremoved g).1)
    pipe := (Function.update_of_ne hpipe.symm ..).trans h.pipe
    sets := fun g hg => (h.sets g hg).imp_right (hwatched g).2
    copied := fun hp g hg => (h.copied hp g hg).imp_right (hwatched g).2
    asked := fun r w nfds hp g hg =>
      (h.asked r w nfds hp g hg).imp_right fun hg => hg.imp (hwatched g).2 (hremoved g).2 }

theorem Kept.modwatch (h : s.Kept) {fd : Nat} {data : δ} {which : BitVec 32} {shim : SelectShim δ}
    (hlt : fd < FD_SETSIZE) (hr : s.fds fd ≠ .removed)
    (hs : s.shim.step (.modwatch fd data which) = some shim) :
    Kept ⟨shim, Function.update s.fds fd .watched⟩ := by
  have hfilled := SelectShim.filled_step h.filled (fun g hg => by cases hg) hs
  obtain ⟨events, he, rfl⟩ := SelectShim.step_eq_some.1 hs
  cases SelectEvents.step_cases he with | modwatch _ _ _ hpipe =>
  have hkeep : ∀ g, s.fds g = .watched → Function.update s.fds fd .watched g = .watched := by
    intro g hg
    by_cases hgf : g = fd
    · rw [hgf, Function.update_self]
    · rw [Function.update_of_ne hgf, hg]
  have hremoved : ∀ g, Function.update s.fds fd .watched g = .removed ↔ s.fds g = .removed := by
    intro g
    by_cases hgf : g = fd
    · subst hgf
      simp [hr]
    · rw [Function.update_of_ne hgf]
  refine
    { filled := hfilled
      nodup := h.nodup
      waiting := fun g => (h.waiting g).trans (hremoved g).symm
      below := fun g hg => ?_
      pipe := (Function.update_of_ne hpipe.symm ..).trans h.pipe
      sets := fun g hg => ?_
      copied := fun hp g hg => (h.copied hp g hg).imp_right (hkeep g)
      asked := fun r w nfds hp g hg =>
        (h.asked r w nfds hp g hg).imp_right fun hg => hg.imp (hkeep g) (hremoved g).2 }
  · by_cases hgf : g = fd
    · rwa [hgf]
    · simp only [Function.update_of_ne hgf] at hg
      exact h.below g hg
  · by_cases hgf : g = fd
    · rw [hgf]
      exact Or.inr (Function.update_self ..)
    · simp only [SelectEvents.modwatch, SelectEvents.mem_assign, if_neg hgf] at hg
      exact (h.sets g hg).imp_right (hkeep g)

theorem Kept.removeevent (h : s.Kept) {fd : Nat} {shim : SelectShim δ} (hfd : s.fds fd = .watched)
    (hs : s.shim.step (.removeevent fd) = some shim) : Kept ⟨shim, Function.update s.fds fd .removed⟩ := by
  have hlt := h.below fd (Or.inl hfd)
  have hno : s.fds fd ≠ .removed := by rw [hfd]; decide
  have hfilled := SelectShim.filled_step h.filled (fun _ _ => h.length_lt hlt hno) hs
  obtain ⟨events, he, rfl⟩ := SelectShim.step_eq_some.1 hs
  cases SelectEvents.step_cases he with | removeevent _ hpipe =>
  have hother : ∀ g, g ≠ fd → Function.update s.fds fd .removed g = s.fds g := fun g hg => Function.update_of_ne hg ..
  refine
    { filled := hfilled
      nodup := ?_
      waiting := fun g => ?_
      below := fun g hg => ?_
      pipe := (hother _ hpipe.symm).trans h.pipe
      sets := fun g hg => ?_
      copied := fun hp g hg => ?_
      asked := fun r w nfds hp g hg => ?_ }
  · have hnot : fd ∉ s.shim.events.sFDsToCloseArray := fun hm => hno ((h.waiting fd).1 hm)
    rw [SelectEvents.removeevent, List.nodup_append]
    refine ⟨h.nodup, List.nodup_singleton fd, fun g hg g' hg' => ?_⟩
    rw [List.mem_singleton.1 hg']
    rintro rfl
    exact hnot hg
  · by_cases hgf : g = fd
    · subst hgf
      simp [SelectEvents.removeevent]
    · refine Iff.trans ?_ ((h.waiting g).trans (by rw [← hother g hgf]))
      simp [SelectEvents.removeevent, hgf]
  · by_cases hgf : g = fd
    · rwa [hgf]
    · simp only [hother g hgf] at hg
      exact h.below g hg
  · have hgf : g ≠ fd := by
      rintro rfl
      simp [SelectEvents.removeevent] at hg
    simp only [SelectEvents.removeevent, Finset.mem_erase] at hg
    exact (h.sets g (hg.imp And.right And.right)).imp_right (hother g hgf).trans
  · have hgf : g ≠ fd := by
      rintro rfl
      simp [SelectEvents.removeevent] at hg
    simp only [SelectEvents.removeevent, Finset.mem_erase] at hg
    exact (h.copied hp g (hg.imp And.right And.right)).imp_right (hother g hgf).trans
  · by_cases hgf : g = fd
    · rw [hgf]
      exact Or.inr (Or.inr (Function.update_self ..))
    · exact (h.asked r w nfds hp g hg).imp_right fun hg => hg.imp (hother g hgf).trans (hother g hgf).trans

/-- A step of the waiting thread, which closes what waits, or nothing. -/
theorem Kept.next (h : s.Kept) {b : Bool} {shim : SelectShim δ} (hs : s.shim.step (.next b) = some shim) :
    Kept ⟨shim, fun fd => if (fd : Int) ∈ s.shim.closes (.next b) then .closed else s.fds fd⟩ := by
  have hfilled := SelectShim.filled_step h.filled (fun g hg => by cases hg) hs
  have hcloses : ∀ fd : Nat, (fd : Int) ∈ s.shim.closes (.next b) → s.fds fd = .removed := fun fd => h.mem_closes hs
  have hlist := SelectShim.next_closes h.filled hs
  obtain ⟨events, he, rfl⟩ := SelectShim.step_eq_some.1 hs
  have hdoes := SelectEvents.step_cases he
  obtain ⟨hread, hwrite, hcopied, hasked⟩ := hdoes.waits trivial
  have hpipe := SelectEvents.sPipe_step hdoes
  have hwatched : ∀ g : Nat, s.fds g = .watched →
      (if (g : Int) ∈ s.shim.closes (.next b) then FDState.closed else s.fds g) = .watched := by
    intro g hg
    rw [if_neg fun hm => ?_, hg]
    rw [hcloses g hm] at hg
    cases hg
  refine
    { filled := hfilled
      nodup := ?_
      waiting := fun g => ?_
      below := fun g hg => ?_
      pipe := ?_
      sets := fun g hg => ?_
      copied := fun hp g hg => ?_
      asked := fun r w nfds hp g hg => ?_ }
  · rcases hlist with ⟨-, -, hlist⟩ | ⟨-, hlist⟩ <;> rw [hlist]
    · exact List.nodup_nil
    · exact h.nodup
  · rcases hlist with ⟨-, hall, hlist⟩ | ⟨hnone, hlist⟩ <;> simp only at hlist ⊢ <;> rw [hlist]
    · simp only [hall, SelectShim.mem_waiting, h.waiting g]
      by_cases hg : s.fds g = .removed <;> simp [hg]
    · rw [hnone, if_neg List.not_mem_nil]
      exact h.waiting g
  · refine h.below g ?_
    simp only at hg
    split at hg
    · simp at hg
    · exact hg
  · simp only [hpipe, h.pipe, ite_self]
  · rw [hpipe]
    exact (h.sets g (hg.imp (@hread g) (@hwrite g))).imp_right (hwatched g)
  · obtain ⟨hr, hw⟩ := hcopied hp
    simp only [hr, hw] at hg
    rw [hpipe]
    exact (h.sets g hg).imp_right (hwatched g)
  · obtain ⟨hplace, rfl, rfl⟩ := hasked r w nfds hp
    rw [hpipe]
    exact (h.copied hplace g hg).imp_right fun hg => Or.inl (hwatched g hg)

theorem Kept.select (h : s.Kept) {result : SelectResult} {shim : SelectShim δ}
    (hs : s.shim.step (.select result) = some shim) : Kept ⟨shim, s.fds⟩ := by
  have hfilled := SelectShim.filled_step h.filled (fun g hg => by cases hg) hs
  obtain ⟨events, he, rfl⟩ := SelectShim.step_eq_some.1 hs
  have hdoes := SelectEvents.step_cases he
  obtain ⟨hread, hwrite, hcopied, hasked⟩ := hdoes.waits trivial
  have hpipe := SelectEvents.sPipe_step hdoes
  have hlist := hdoes.select_keeps
  refine
    { filled := hfilled
      nodup := hlist ▸ h.nodup
      waiting := hlist ▸ h.waiting
      below := h.below
      pipe := hpipe ▸ h.pipe
      sets := fun g hg => hpipe ▸ h.sets g (hg.imp (@hread g) (@hwrite g))
      copied := fun hp g hg => ?_
      asked := fun r w nfds hp g hg => ?_ }
  · obtain ⟨hr, hw⟩ := hcopied hp
    simp only [hr, hw] at hg
    exact hpipe ▸ h.sets g hg
  · obtain ⟨hplace, rfl, rfl⟩ := hasked r w nfds hp
    exact hpipe ▸ (h.copied hplace g hg).imp_right Or.inl

theorem kept_step (h : s.Kept) (hs : s.step act = some s') : s'.Kept := by
  cases act with
  | opens fd =>
    simp only [step] at hs
    split at hs <;> cases hs
    next hc => exact h.idle hc.2 (by rw [hc.1]; decide) (by rw [hc.1]; decide) (by decide) (by decide)
  | close fd =>
    simp only [step] at hs
    split at hs <;> cases hs
    next hc =>
      refine h.idle ?_ (by rw [hc]; decide) (by rw [hc]; decide) (by decide) (by decide)
      rintro rfl
      rw [h.pipe] at hc
      cases hc
  | modwatch fd data which =>
    simp only [step] at hs
    split at hs
    next hc =>
      obtain ⟨shim, hshim, rfl⟩ := Option.map_eq_some_iff.1 hs
      refine h.modwatch hc.1 ?_ hshim
      rcases hc.2 with hfd | hfd <;> rw [hfd] <;> decide
    next => cases hs
  | removeevent fd =>
    simp only [step] at hs
    split at hs
    next hc =>
      obtain ⟨shim, hshim, rfl⟩ := Option.map_eq_some_iff.1 hs
      exact h.removeevent hc hshim
    next => cases hs
  | next b =>
    obtain ⟨shim, hshim, rfl⟩ := Option.map_eq_some_iff.1 hs
    exact h.next hshim
  | select result =>
    obtain ⟨shim, hshim, rfl⟩ := Option.map_eq_some_iff.1 hs
    exact h.select hshim

/-! ## The log -/

/-- The system that takes notes. -/
abbrev noted : Logged (FDTable δ) FDEntry → FDAct δ → Option (Logged (FDTable δ) FDEntry) := Logged.step step observe

open FDEntry

/-- What the log says of the descriptors. -/
structure Told (s : FDTable δ) (log : List FDEntry) : Prop where
  removed : ∀ fd, s.fds fd = .removed → Since (Removes fd) (fun e => Closes fd e ∨ Opens fd e) log
  opened : ∀ fd, s.fds fd = .opened → Since (Opens fd) (fun e => Removes fd e ∨ Closes fd e) log

variable {log : List FDEntry}

/-- Another descriptor is handed out, removed or closed. -/
theorem Told.other (h : Told s log) {e : FDEntry} {fd : Nat} (hfd : s'.fds fd = s.fds fd) (ho : ¬ Opens fd e)
    (hr : ¬ Removes fd e) (hc : ¬ Closes fd e) :
    (s'.fds fd = .removed → Since (Removes fd) (fun e => Closes fd e ∨ Opens fd e) (e :: log)) ∧
      (s'.fds fd = .opened → Since (Opens fd) (fun e => Removes fd e ∨ Closes fd e) (e :: log)) := by
  rw [hfd, since_skip hr (by simp [hc, ho]), since_skip ho (by simp [hr, hc])]
  exact ⟨h.removed fd, h.opened fd⟩

theorem told_step (h : Told s log) (hs : s.step act = some s') :
    Told s' ((observe s act s').toList ++ log) := by
  suffices hall : ∀ fd,
      (s'.fds fd = .removed → Since (Removes fd) (fun e => Closes fd e ∨ Opens fd e) ((observe s act s').toList ++ log)) ∧
        (s'.fds fd = .opened → Since (Opens fd) (fun e => Removes fd e ∨ Closes fd e) ((observe s act s').toList ++ log)) from
    ⟨fun fd => (hall fd).1, fun fd => (hall fd).2⟩
  intro g
  cases act with
  | opens fd =>
    simp only [step] at hs
    split at hs <;> cases hs
    by_cases hg : g = fd
    · subst hg
      exact ⟨fun hr => by simp at hr, fun _ => Or.inl rfl⟩
    · exact h.other (Function.update_of_ne hg ..) (Ne.symm hg) id id
  | close fd =>
    simp only [step] at hs
    split at hs <;> cases hs
    by_cases hg : g = fd
    · subst hg
      exact ⟨fun hr => by simp at hr, fun ho => by simp at ho⟩
    · refine h.other (Function.update_of_ne hg ..) id id fun hm => hg ?_
      exact Int.ofNat_inj.1 (List.mem_singleton.1 hm)
  | modwatch fd data which =>
    simp only [step] at hs
    split at hs
    next hc =>
      obtain ⟨shim, hshim, rfl⟩ := Option.map_eq_some_iff.1 hs
      by_cases hg : g = fd
      · subst hg
        exact ⟨fun hr => by simp at hr, fun ho => by simp at ho⟩
      · simp only [Function.update_of_ne hg]
        exact ⟨h.removed g, h.opened g⟩
    next => cases hs
  | removeevent fd =>
    simp only [step] at hs
    split at hs
    next hc =>
      obtain ⟨shim, hshim, rfl⟩ := Option.map_eq_some_iff.1 hs
      by_cases hg : g = fd
      · subst hg
        exact ⟨fun _ => Or.inl rfl, fun ho => by simp at ho⟩
      · exact h.other (Function.update_of_ne hg ..) id (Ne.symm hg) id
    next => cases hs
  | next b =>
    obtain ⟨shim, hshim, rfl⟩ := Option.map_eq_some_iff.1 hs
    by_cases hg : (g : Int) ∈ s.shim.closes (.next b)
    · simp only [if_pos hg]
      exact ⟨fun hr => (by cases hr), fun ho => (by cases ho)⟩
    · exact h.other (if_neg hg) id id hg
  | select result =>
    obtain ⟨shim, hshim, rfl⟩ := Option.map_eq_some_iff.1 hs
    exact ⟨h.removed g, h.opened g⟩

/-- Every close is rightful. -/
theorem rightful_step (hk : s.Kept) (h : Told s log) (hs : s.step act = some s') :
    ∀ e ∈ observe s act s', Rightful log e := by
  intro e he
  cases act with
  | opens fd | removeevent fd => cases he; trivial
  | modwatch fd data which | select result => cases he
  | close fd =>
    cases he
    simp only [step] at hs
    split at hs <;> cases hs
    next hfd =>
      intro x hx
      exact ⟨fd, List.mem_singleton.1 hx, h.opened fd hfd⟩
  | next b =>
    cases he
    obtain ⟨shim, hshim, rfl⟩ := Option.map_eq_some_iff.1 hs
    obtain ⟨hnodup, hremoved⟩ := hk.closes_removed hshim
    refine ⟨hnodup, fun x hx => ?_⟩
    obtain ⟨fd, rfl, hfd⟩ := hremoved x hx
    exact ⟨fd, rfl, h.removed fd hfd⟩

/-- What a step closes is in none of the sets, and `select` does not run on it. -/
theorem Kept.closes_unwatched (h : s.Kept) (hs : s.step act = some s') {fd : Nat} (hfd : (fd : Int) ∈ s.closes act) :
    fd ∉ s.shim.events.sReadSet ∧ fd ∉ s.shim.events.sWriteSet ∧
      ∀ r w nfds, s.shim.events.place = .blocked r w nfds → fd ∉ r ∧ fd ∉ w := by
  have hsets : s.fds fd ≠ .watched → fd ≠ s.shim.events.sPipe →
      fd ∉ s.shim.events.sReadSet ∧ fd ∉ s.shim.events.sWriteSet := by
    intro hw hp
    constructor
    · exact fun hm => (h.sets fd (Or.inl hm)).elim hp hw
    · exact fun hm => (h.sets fd (Or.inr hm)).elim hp hw
  have hpipe : s.fds fd ≠ .closed → fd ≠ s.shim.events.sPipe := by
    rintro hne rfl
    exact hne h.pipe
  cases act with
  | opens g | modwatch g data which | removeevent g | select result => cases hfd
  | close g =>
    obtain rfl : fd = g := Int.ofNat_inj.1 (List.mem_singleton.1 hfd)
    simp only [step] at hs
    split at hs
    next ho =>
      have hne : fd ≠ s.shim.events.sPipe := hpipe (by rw [ho]; decide)
      have hno : ∀ r w nfds, s.shim.events.place = .blocked r w nfds → ¬ (fd ∈ r ∨ fd ∈ w) := by
        intro r w nfds hp hm
        rcases h.asked r w nfds hp fd hm with hm | hm | hm
        · exact hne hm
        · rw [ho] at hm
          cases hm
        · rw [ho] at hm
          cases hm
      obtain ⟨hr, hw⟩ := hsets (by rw [ho]; decide) hne
      exact ⟨hr, hw, fun r w nfds hp => not_or.1 (hno r w nfds hp)⟩
    next => cases hs
  | next b =>
    obtain ⟨shim, hshim, -⟩ := Option.map_eq_some_iff.1 hs
    have hr := h.mem_closes hshim hfd
    obtain ⟨hread, hwrite⟩ := hsets (by rw [hr]; decide) (hpipe (by rw [hr]; decide))
    refine ⟨hread, hwrite, fun r w nfds hp => ?_⟩
    -- the waiting thread is not in `select` when it takes a step
    obtain ⟨events, he, -⟩ := SelectShim.step_eq_some.1 hshim
    simp only [SelectEvents.step, SelectEvents.next, hp] at he
    cases he

/-- `select_removeevent` finds a free entry of the array. -/
theorem Kept.theIndex_lt (h : s.Kept) {fd : Nat} (hfd : s.fds fd = .watched) :
    s.shim.theIndex < FD_SETSIZE ∧ s.shim.sFDsToCloseArray s.shim.theIndex = -1 := by
  have hlen := h.length_lt (h.below fd (Or.inl hfd)) (by rw [hfd]; decide)
  have hindex : s.shim.theIndex = s.shim.waiting.length := h.filled.stop_eq
  have hlt : s.shim.theIndex < FD_SETSIZE := by rwa [hindex, SelectShim.waiting, List.length_map]
  refine ⟨hlt, ?_⟩
  by_contra hne
  exact absurd ((h.filled.ne_empty_iff hlt).1 hne) (by rw [hindex]; exact Nat.lt_irrefl _)

/-- A step uses entries of the array only. -/
theorem Kept.entries_lt (h : s.Kept) (hpipe : s.shim.events.sPipe < FD_SETSIZE) (hs : s.step act = some s') :
    ∀ i ∈ s.entries act, i < FD_SETSIZE := by
  -- the pipe never waits for its close
  have hlen : s.shim.waiting.length < FD_SETSIZE := by
    rw [SelectShim.waiting, List.length_map]
    exact h.length_lt hpipe (by rw [h.pipe]; decide)
  have htested : ∀ i ∈ s.shim.entriesTested, i < FD_SETSIZE := SelectShim.entriesTested_lt_iff.2 (h.filled.exists_empty hlen)
  cases act with
  | opens fd | close fd | modwatch fd data which | select result => exact fun i hi => by cases hi
  | removeevent fd =>
    intro i hi
    rcases List.mem_append.1 hi with hi | hi
    · exact htested i hi
    · rw [List.mem_singleton.1 hi]
      exact Scan.tested_lt_iff.1 htested
  | next b =>
    intro i hi
    unfold entries SelectShim.entries at hi
    simp only at hi
    split at hi
    · exact htested i hi
    all_goals cases hi

theorem kept_run {pipe : Nat} {acts : List (FDAct δ)} {x : Logged (FDTable δ) FDEntry}
    (hr : run noted ⟨startevents pipe, []⟩ acts = some x) : x.state.Kept ∧ Told x.state x.log ∧ Each Rightful x.log := by
  refine run_inv (I := fun x => x.state.Kept ∧ Told x.state x.log ∧ Each Rightful x.log) (fun x act x' h hs => ?_) ?_ hr
  · obtain ⟨s', hs', rfl⟩ := Logged.step_eq_some.1 hs
    obtain ⟨hk, ht, hl⟩ := h
    exact ⟨kept_step hk hs', told_step ht hs', each_note.2 ⟨rightful_step hk ht hs', hl⟩⟩
  · exact ⟨kept_startevents pipe, ⟨fun fd h => (by cases h), fun fd h => (by cases h)⟩, trivial⟩

theorem sPipe_step (hs : s.step act = some s') : s'.shim.events.sPipe = s.shim.events.sPipe := by
  have hshim : ∀ {a : SelectAct δ} {shim : SelectShim δ}, s.shim.step a = some shim →
      shim.events.sPipe = s.shim.events.sPipe := by
    intro a shim h
    obtain ⟨events, he, rfl⟩ := SelectShim.step_eq_some.1 h
    exact SelectEvents.sPipe_step (SelectEvents.step_cases he)
  cases act with
  | opens fd | close fd =>
    simp only [step] at hs
    split at hs <;> cases hs
    rfl
  | modwatch fd data which | removeevent fd =>
    simp only [step] at hs
    split at hs
    next =>
      obtain ⟨shim, h, rfl⟩ := Option.map_eq_some_iff.1 hs
      exact hshim h
    next => cases hs
  | next b | select result =>
    obtain ⟨shim, h, rfl⟩ := Option.map_eq_some_iff.1 hs
    exact hshim h

theorem sPipe_run {pipe : Nat} {acts : List (FDAct δ)} {x : Logged (FDTable δ) FDEntry}
    (hr : run noted ⟨startevents pipe, []⟩ acts = some x) : x.state.shim.events.sPipe = pipe := by
  refine run_inv (I := fun x => x.state.shim.events.sPipe = pipe) (fun x act x' h hs => ?_) rfl hr
  obtain ⟨s', hs', rfl⟩ := Logged.step_eq_some.1 hs
  exact (sPipe_step hs').trans h

/-- **Descriptors are closed once**, by the waiting thread if they were removed, and while no set has them. The array of the
descriptors to be closed is filled from the front, without duplicates, and has room for each. -/
theorem removed_closed_once {pipe : Nat} {acts : List (FDAct δ)} {x : Logged (FDTable δ) FDEntry}
    (hr : run noted ⟨startevents pipe, []⟩ acts = some x) :
    Each Rightful x.log ∧
    (∀ act s', step x.state act = some s' → ∀ fd : Nat, (fd : Int) ∈ x.state.closes act →
      fd ∉ x.state.shim.events.sReadSet ∧ fd ∉ x.state.shim.events.sWriteSet ∧
        ∀ r w nfds, x.state.shim.events.place = .blocked r w nfds → fd ∉ r ∧ fd ∉ w) ∧
    (∀ i j, i ≤ j → j < FD_SETSIZE → x.state.shim.sFDsToCloseArray j ≠ -1 → x.state.shim.sFDsToCloseArray i ≠ -1) ∧
    (∀ i j, i < FD_SETSIZE → j < FD_SETSIZE → x.state.shim.sFDsToCloseArray i ≠ -1 →
      x.state.shim.sFDsToCloseArray i = x.state.shim.sFDsToCloseArray j → i = j) ∧
    (∀ fd s', step x.state (.removeevent fd) = some s' →
      x.state.shim.theIndex < FD_SETSIZE ∧ x.state.shim.sFDsToCloseArray x.state.shim.theIndex = -1) ∧
    (pipe < FD_SETSIZE → ∀ act s', step x.state act = some s' → ∀ i ∈ x.state.entries act, i < FD_SETSIZE) := by
  obtain ⟨hkept, -, hlog⟩ := kept_run hr
  have hnodup : x.state.shim.waiting.Nodup := hkept.nodup.map fun _ _ heq => Int.ofNat_inj.1 heq
  refine ⟨hlog, fun act s' hs fd hfd => hkept.closes_unwatched hs hfd, ?_, ?_, ?_, ?_⟩
  · exact fun i j hij hj hne => hkept.filled.prefix_of_ne hij hj hne
  · exact fun i j hi hj hne heq => hkept.filled.eq_of_nodup hnodup hi hj hne heq
  · intro fd s' hs
    simp only [step] at hs
    split at hs
    next hfd => exact hkept.theIndex_lt hfd
    next => cases hs
  · intro hpipe act s' hs
    rw [← sPipe_run hr] at hpipe
    exact hkept.entries_lt hpipe hs

theorem removed_closed_once_selecting : ∃ x : Logged (FDTable Unit) FDEntry,
    run noted ⟨startevents 3, []⟩ [.opens 5, .modwatch 5 () evRE, .next false, .next false, .next false, .next false,
      .next false, .removeevent 5, .select (.ready {3} ∅), .next false, .next false] = some x ∧ Each Rightful x.log := by
  have hr : run noted ⟨startevents 3, []⟩ [.opens 5, .modwatch 5 () evRE, .next false, .next false, .next false,
    .next false, .next false, .removeevent 5, .select (.ready {3} ∅), .next false, .next false] =
      some (_ : Logged (FDTable Unit) FDEntry) := rfl
  exact ⟨_, hr, (removed_closed_once hr).1⟩

end FDTable

end ToolLib.Common
