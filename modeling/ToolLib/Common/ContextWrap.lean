import Mathlib.Data.Fintype.Basic
import ToolLib.Base.Logged
import ToolLib.Common.ContextIDs

/-!
# How long an ID stays free of others

The counter comes back to an ID after 10000000 more, so a context is safe from the wrap as long as fewer contexts than that
have drawn an ID since it drew its own (`Spaced`). In every run that keeps to this the IDs do their job, however often the
counter starts again (`identified_spaced`).

The notes of a run say who has drawn an ID, and who has taken one over; `later` counts in them. The invariant `Counted` says
how far the counter is from an ID that is in use.
-/

namespace ToolLib.Common

open ToolLib.Base

variable {κ : Type*}

/-- From the moment that it has its ID to the loss of the descriptor. -/
def EventContext.Live (x : EventContext κ) : Prop := (∃ theMask, x.place = .registering theMask) ∨ x.Registered

instance (x : EventContext κ) : Decidable x.Live :=
  match h : x.place with
  | .registering theMask => isTrue (Or.inl ⟨theMask, h⟩)
  | .absent | .idle | .adding _ | .snarfing _ | .snarfed =>
    decidable_of_iff x.Registered ⟨Or.inr, fun hlive => hlive.resolve_left (by rw [h]; rintro ⟨_, ⟨⟩⟩)⟩

/-! ## The IDs that have been drawn -/

/-- What has happened to an ID. -/
inductive IDNote (κ : Type*)
  | drawn (c : κ)
  | snarfed (c fromContext : κ)

namespace EventContexts

/-- `RequestEvent` finds the counter at its end and gives the ID 1. -/
def StartsAgain (s : EventContexts κ) (c : κ) : Prop :=
  (s.context c).fWatchEventCalled = false ∧ s.sUniqueID = 10000000

instance (s : EventContexts κ) (c : κ) : Decidable (s.StartsAgain c) := inferInstanceAs (Decidable (_ ∧ _))

/-- What a step does to an ID. -/
def note (s : EventContexts κ) : ContextAct κ → EventContexts κ → Option (IDNote κ)
  | .request c _, _ => if s.StartsAgain c then some (.drawn c) else none
  | .addID c, _ => some (.drawn c)
  | .snarf c fromContext, _ => some (.snarfed c fromContext)
  | _, _ => none

/-- The number of IDs that have been drawn after that of `c`. -/
def later [DecidableEq κ] : List (IDNote κ) → κ → Nat
  | [], _ => 0
  | .drawn d :: log, c => if c = d then 0 else later log c + 1
  | .snarfed d fromContext :: log, c => later log (if c = d then fromContext else c)

variable [DecidableEq κ]

/-- Room for one more: every ID in use is one of the last 9999999. -/
def Room (x : Logged (EventContexts κ) (IDNote κ)) : Prop :=
  ∀ d, (x.state.context d).Live → later x.log d + 1 < 10000000

/-- When an ID is drawn there is room for one more, and the counter does not come to 0. A context that is snarfed has its
ID, or never had one. -/
def Spaced (x : Logged (EventContexts κ) (IDNote κ)) : ContextAct κ → Prop
  | .request c _ => x.state.StartsAgain c → Room x
  | .addID _ => Room x ∧ x.state.sUniqueID + 1 ≠ 0
  | .snarf _ fromContext => (x.state.context fromContext).Registered ∨ x.state.key fromContext = 0
  | _ => True

end EventContexts

/-! ## The counter and the IDs -/

/-- The counter is at `n`, and `k` IDs have been drawn after `id`. -/
def DrawnBefore (id n k : Nat) : Prop := n = id + k ∨ id ≤ 10000000 ∧ n + 10000000 ≤ id + k

section DrawnBefore

variable {id n k : Nat}

theorem DrawnBefore.next (h : DrawnBefore id n k) : DrawnBefore id (n + 1) (k + 1) := by
  unfold DrawnBefore at *
  omega

theorem DrawnBefore.again (h : DrawnBefore id 10000000 k) : DrawnBefore id 1 (k + 1) := by
  unfold DrawnBefore at *
  omega

theorem DrawnBefore.ne_next (h : DrawnBefore id n k) (hk : k + 1 < 10000000) : id ≠ n + 1 := by
  unfold DrawnBefore at h
  omega

theorem DrawnBefore.ne_one (h : DrawnBefore id 10000000 k) (hk : k + 1 < 10000000) : id ≠ 1 := by
  unfold DrawnBefore at h
  omega

end DrawnBefore

/-- The IDs in use are different, and the counter is as far from each as has been counted. -/
structure Counted (context : κ → EventContext κ) (later : κ → Nat) (n : Nat) : Prop where
  pos : ∀ c, (context c).Live → 0 < (context c).fUniqueID.toNat
  drawn : ∀ c, (context c).Live → DrawnBefore (context c).fUniqueID.toNat n (later c)
  distinct : ∀ c d, (context c).Live → (context d).Live → (context c).fUniqueID = (context d).fUniqueID → c = d

section Counted

variable [DecidableEq κ] {context : κ → EventContext κ} {later later' : κ → Nat} {n m : Nat} {x : EventContext κ} {c : κ}

/-- One context changes, and the counter goes on. -/
theorem Counted.update (N : Counted context later n)
    (hold : ∀ d, d ≠ c → (context d).Live → DrawnBefore (context d).fUniqueID.toNat m (later' d))
    (hx : x.Live → 0 < x.fUniqueID.toNat ∧ DrawnBefore x.fUniqueID.toNat m (later' c))
    (hd : x.Live → ∀ d, d ≠ c → (context d).Live → (context d).fUniqueID ≠ x.fUniqueID) :
    Counted (Function.update context c x) later' m := by
  constructor
  · intro d h
    rcases eq_or_ne d c with rfl | hdc
    · rw [Function.update_self] at h ⊢
      exact (hx h).1
    · rw [Function.update_of_ne hdc] at h ⊢
      exact N.pos d h
  · intro d h
    rcases eq_or_ne d c with rfl | hdc
    · rw [Function.update_self] at h ⊢
      exact (hx h).2
    · rw [Function.update_of_ne hdc] at h ⊢
      exact hold d hdc h
  · exact distinct_update N.distinct hd

/-- One context changes, and keeps its ID or is live no more. -/
theorem Counted.same (N : Counted context later n)
    (hx : x.Live → (context c).Live ∧ x.fUniqueID = (context c).fUniqueID) :
    Counted (Function.update context c x) later n := by
  apply N.update fun d _ hd => N.drawn d hd
  · intro h
    obtain ⟨hl, hid⟩ := hx h
    rw [hid]
    exact ⟨N.pos c hl, N.drawn c hl⟩
  · intro h d hdc hdl heq
    obtain ⟨hl, hid⟩ := hx h
    exact hdc (N.distinct d c hdl hl (heq.trans hid))

/-- One context draws the next ID. -/
theorem Counted.draw {id : BitVec 32} (N : Counted context later n) (hid : x.fUniqueID = id) (hpos : 0 < id.toNat)
    (hold : ∀ d, (context d).Live → DrawnBefore (context d).fUniqueID.toNat id.toNat (later d + 1))
    (hne : ∀ d, (context d).Live → (context d).fUniqueID.toNat ≠ id.toNat) :
    Counted (Function.update context c x) (fun d => if d = c then 0 else later d + 1) id.toNat := by
  apply N.update
  · intro d hdc hd
    rw [if_neg hdc]
    exact hold d hd
  · intro _
    rw [hid, if_pos rfl]
    exact ⟨hpos, Or.inl rfl⟩
  · intro _ d _ hd heq
    exact hne d hd (congrArg BitVec.toNat (heq.trans hid))

end Counted

namespace EventContexts

variable [DecidableEq κ] {s s' : EventContexts κ} {x : Logged (EventContexts κ) (IDNote κ)} {c f : κ} {a : ContextAct κ}

/-- The invariant of the notes. -/
def Noted (x : Logged (EventContexts κ) (IDNote κ)) : Prop :=
  Counted x.state.context (later x.log) x.state.sUniqueID.toNat

theorem noted_new : Noted (⟨new, []⟩ : Logged (EventContexts κ) (IDNote κ)) := by
  have hdead : ∀ c, ¬ ((new : EventContexts κ).context c).Live := by
    rintro c (⟨theMask, h⟩ | h)
    · cases h
    · exact EventContext.not_registered_of_watch rfl h
  exact ⟨fun c h => absurd h (hdead c), fun c h => absurd h (hdead c), fun c d h => absurd h (hdead c)⟩

/-- What is registered, or taken over, is not another's. -/
theorem fresh_of_noted (I : x.state.Inv) (N : Noted x) (hS : Spaced x a) (h : x.state.step a = some s') :
    Fresh x.state a := by
  cases step_cases h with
  | @register c theMask fd hp hf =>
    have hlive : (x.state.context c).Live := Or.inl ⟨theMask, hp⟩
    constructor
    · intro hzero
      have hpos := N.pos c hlive
      rw [show (x.state.context c).fUniqueID = 0 from hzero] at hpos
      exact absurd hpos (by decide)
    · intro d hd hid
      have hdc := N.distinct d c (Or.inr hd) hlive hid
      subst hdc
      exact EventContext.not_registered_of_watch ((I.kept.sound d).registering _ hp) hd
  | snarf hp hq hf hne =>
    intro d hd hid
    rcases hS with hreg | hzero
    · exact N.distinct _ _ (Or.inr hd) (Or.inr hreg) hid
    · exact absurd (hid.trans hzero) ((I.kept.sound d).id_ne_zero hd)
  | _ => trivial

theorem counted_addID {theMask : BitVec 32} (N : Noted x) (hroom : Room x) (hB : x.state.sUniqueID + 1 ≠ 0) :
    Counted (x.state.addID c theMask).context (fun d => if d = c then 0 else later x.log d + 1)
      (x.state.addID c theMask).sUniqueID.toNat := by
  have hnat : (x.state.addID c theMask).sUniqueID.toNat = x.state.sUniqueID.toNat + 1 := by
    show (x.state.sUniqueID + 1).toNat = _
    bv_omega
  refine N.draw rfl (hnat ▸ Nat.succ_pos _) (fun d hd => ?_) fun d hd => ?_
  · rw [hnat]
    exact (N.drawn d hd).next
  · rw [hnat]
    exact (N.drawn d hd).ne_next (hroom d hd)

theorem counted_wrap {y : EventContext κ} (N : Noted x) (hroom : Room x) (hid : x.state.sUniqueID = 10000000)
    (hy : y.fUniqueID = 1) :
    Counted (Function.update x.state.context c y) (fun d => if d = c then 0 else later x.log d + 1) (1 : BitVec 32).toNat := by
  have hnat : x.state.sUniqueID.toNat = 10000000 := by
    rw [hid]
    rfl
  have hdrawn : ∀ d, (x.state.context d).Live →
      DrawnBefore (x.state.context d).fUniqueID.toNat 10000000 (later x.log d) := by
    intro d hd
    rw [← hnat]
    exact N.drawn d hd
  exact N.draw hy (by decide) (fun d hd => (hdrawn d hd).again) fun d hd => (hdrawn d hd).ne_one (hroom d hd)

theorem counted_snarf (N : Noted x) (hne : c ≠ f) :
    Counted (x.state.snarfing c f).context (fun d => later x.log (if d = c then f else d)) x.state.sUniqueID.toNat := by
  have hleave : ¬ (x.state.context f).leave.Live := by
    rintro (⟨theMask, h⟩ | h)
    · cases h
    · exact EventContext.not_registered_of_desc rfl h
  have N' : Counted (Function.update x.state.context f (x.state.context f).leave) (later x.log) x.state.sUniqueID.toNat :=
    Counted.same N fun h => absurd h hleave
  have htake : ((x.state.context c).take (x.state.context f) f).Live → (x.state.context f).Live := by
    rintro (⟨theMask, h⟩ | h)
    · cases h
    · exact Or.inr h
  rw [snarfing_context hne]
  apply N'.update
  · intro d hdc hd
    rw [if_neg hdc]
    exact N'.drawn d hd
  · intro h
    rw [if_pos rfl]
    exact ⟨N.pos f (htake h), N.drawn f (htake h)⟩
  · intro h d _ hd hid
    rcases eq_or_ne d f with rfl | hdf
    · rw [Function.update_self] at hd
      exact hleave hd
    · rw [Function.update_of_ne hdf] at hd hid
      exact hdf (N.distinct d f hd (htake h) hid)

theorem noted_step (N : Noted x) (hS : Spaced x a) (h : x.state.step a = some s') :
    Noted ⟨s', (note x.state a s').toList ++ x.log⟩ := by
  cases step_cases h with
  | create hp =>
    refine Counted.same N ?_
    rintro (⟨theMask, h⟩ | h)
    · cases h
    · exact absurd h (EventContext.not_registered_of_watch rfl)
  | @wrap c theMask hp hw hid =>
    have hagain : x.state.StartsAgain c := ⟨hw, hid⟩
    rw [note, if_pos hagain]
    exact counted_wrap N (hS hagain) hid rfl
  | ask hp hw hid =>
    rw [note, if_neg fun hagain => hid hagain.2]
    refine Counted.same N ?_
    rintro (⟨theMask, h⟩ | h)
    · cases h
    · exact absurd h (EventContext.not_registered_of_watch hw)
  | addID hp => exact counted_addID N hS.1 hS.2
  | register hp hf => exact Counted.same N fun _ => ⟨Or.inl ⟨_, hp⟩, rfl⟩
  | @snarf c f hp hq hf hne =>
    have hid : (x.state.snarf c f).sUniqueID = x.state.sUniqueID := swap_sUniqueID
    have hcontext : (x.state.snarf c f).context = (x.state.snarfing c f).context := swap_context
    show Counted _ _ _
    rw [hid, hcontext]
    exact counted_snarf N hne
  | @unRegister c f hp =>
    have hback : ∀ x : EventContext κ, x.back.Live → x.Live := by
      rintro x (⟨theMask, h⟩ | h)
      · cases h
      · exact Or.inr h
    have N' := Counted.same (c := c) (x := (x.state.context c).back) N fun h => ⟨hback _ h, rfl⟩
    refine N'.same ?_
    intro hlive
    rcases eq_or_ne f c with rfl | hfc
    · rw [Function.update_self]
      exact ⟨hlive, rfl⟩
    · rw [Function.update_of_ne hfc]
      exact ⟨hback _ hlive, rfl⟩
  | cleanup hp =>
    refine Counted.same N ?_
    rintro (⟨theMask, h⟩ | h)
    · rw [show (x.state.context _).place = _ from h] at hp
      cases hp
    · exact absurd h (EventContext.not_registered_of_desc rfl)
  | again hp hw =>
    rw [note, if_neg fun hagain => Bool.false_ne_true (hagain.1.symm.trans hw)]
    exact Counted.same N fun h => ⟨h, rfl⟩
  | resolve _ | release _ => exact Counted.same N fun h => ⟨h, rfl⟩
  | unknown _ => exact N

/-- **While no ID is in use for 10000000 draws, the IDs do their job.** -/
theorem identified_spaced {as : List (ContextAct κ)}
    (hS : Along (Logged.step step note) Spaced ⟨(new : EventContexts κ), []⟩ as) :
    Always step Identified (new : EventContexts κ) as := by
  apply @Logged.always_state _ _ _ _ note _ _ ⟨new, []⟩
  refine always_of_along (I := fun x => x.state.Inv ∧ Noted x) ?_ (fun _ ⟨I, _⟩ => I.identified) ⟨inv_new, noted_new⟩ hS
  rintro x a x' ⟨I, N⟩ hS h
  obtain ⟨s', hs, rfl⟩ := Logged.step_eq_some.1 h
  exact ⟨inv_step I (fresh_of_noted I N hS hs) hs, noted_step N hS hs⟩

/-- With finitely many contexts the condition can be evaluated. -/
instance Spaced.decidable [Fintype κ] (x : Logged (EventContexts κ) (IDNote κ)) :
    (a : ContextAct κ) → Decidable (Spaced x a)
  | .request c _ => inferInstanceAs (Decidable (x.state.StartsAgain c → ∀ d, _ → later x.log d + 1 < 10000000))
  | .addID _ => inferInstanceAs (Decidable ((∀ d, _ → later x.log d + 1 < 10000000) ∧ x.state.sUniqueID + 1 ≠ 0))
  | .snarf _ fromContext =>
    inferInstanceAs (Decidable ((x.state.context fromContext).Registered ∨ x.state.key fromContext = 0))
  | .create _ _ | .register _ | .unRegister _ | .cleanup _ | .resolve _ | .release => inferInstanceAs (Decidable True)

/-- Two contexts, of which a third snarfs the first. -/
def snarfedOne : List (ContextAct (Fin 3)) :=
  opened 0 3 ++ opened 1 4 ++
    [.create 2 none, .snarf 2 0, .resolve (some 2), .release, .unRegister 2, .cleanup 0, .cleanup 1]

theorem identified_spaced_snarf : Always step Identified new snarfedOne := identified_spaced (by decide +kernel)

end EventContexts

end ToolLib.Common
