import ToolLib.Base.System
import ToolLib.Common.OSHeap

/-!
# Idle timers

`IdleTaskThread` (IdleTask.cpp): `SetIdleTimer` puts a task with its deadline into a heap, `CancelTimeout` and the
destructor of `IdleTask` take it out, and `Entry` makes passes in which it signals the tasks whose deadline has come,
from the root of the heap downwards, and then waits for the earliest deadline that is left. All of it happens under
`fHeapMutex`, so an operation is one step.

`Pending` is what the timers are for: a deadline for each task, or none. While the heap is in order it holds these
deadlines (`models_step`), and a pass, which only looks at the root, finds the right ones (`popDue_popped`). `Remove` may
take the order away: the last leaf, which comes to the hole, may be below the parent of the hole (`idle_passes_cancel`).
-/

namespace ToolLib.Common

open ToolLib.Base

variable {τ : Type*}

/-- How long `OSCond::Wait` may last, `none` for ever. A time that has passed already is no wait. -/
def OSCond.limit (inTimeoutInMilSecs : BitVec 32) : Option Int :=
  if inTimeoutInMilSecs = 0 then none else some inTimeoutInMilSecs.toInt

/-- The idle thread, and which tasks have been destroyed. -/
structure IdleTaskThread (τ : Type*) where
  fIdleHeap : OSHeap τ
  destroyed : τ → Bool

/-- What happens next. The times are readings of `OS::Milliseconds`. -/
inductive IdleAct (τ : Type*)
  | setIdleTimer (t : τ) (msec now : Int)
  | cancelTimeout (t : τ)
  /-- `IdleTask::~IdleTask`. -/
  | destroy (t : τ)
  /-- A pass of `Entry`. -/
  | pass (now : Int)

/-- What a pass of `Entry` leaves, whom it signals `kIdleEvent`, and the argument of the wait that follows. -/
structure IdlePass (τ : Type*) where
  thread : IdleTaskThread τ
  signalled : List τ
  wait : BitVec 32

namespace IdleTaskThread

variable [DecidableEq τ]

def new : IdleTaskThread τ where
  fIdleHeap := .new OSHeap.kDefaultStartSize
  destroyed _ := false

/-- The source adds two `SInt64`s: the sum here is the deadline when it is one too. -/
def setIdleTimer (s : IdleTaskThread τ) (t : τ) (msec now : Int) : IdleTaskThread τ :=
  if s.fIdleHeap.fCurrentHeap t then s else { s with fIdleHeap := s.fIdleHeap.insert (now + msec, t) }

def cancelTimeout (s : IdleTaskThread τ) (t : τ) : IdleTaskThread τ :=
  { s with fIdleHeap := (s.fIdleHeap.remove t).1 }

def destroy (s : IdleTaskThread τ) (t : τ) : IdleTaskThread τ :=
  let s := if s.fIdleHeap.fCurrentHeap t then s.cancelTimeout t else s
  { s with destroyed := Function.update s.destroyed t true }

/-- The loop that pops elements out of the heap as long as their timeout time has arrived. -/
def popDue (msec : Int) : Nat → OSHeap τ → OSHeap τ × List τ
  | 0, h => (h, [])
  | fuel + 1, h =>
    match h.peekMin with
    | some x =>
      if x.1 ≤ msec then
        let r := popDue msec fuel h.extractMin.1
        (r.1, h.extractMin.2.toList.map Prod.snd ++ r.2)
      else (h, [])
    | none => (h, [])

/-- A pass of `Entry`. With an empty heap it blocks at the top of its loop. -/
def pass (s : IdleTaskThread τ) (msec : Int) : IdlePass τ :=
  let r := popDue msec s.fIdleHeap.currentHeapSize s.fIdleHeap
  { thread := { s with fIdleHeap := r.1 }
    signalled := r.2
    wait := r.1.peekMin.elim 0 fun x => BitVec.ofInt 32 (x.1 - msec) }

def step (s : IdleTaskThread τ) : IdleAct τ → Option (IdleTaskThread τ)
  | .setIdleTimer t msec now => if s.destroyed t then none else some (s.setIdleTimer t msec now)
  | .cancelTimeout t => if s.destroyed t then none else some (s.cancelTimeout t)
  | .destroy t => if s.destroyed t then none else some (s.destroy t)
  | .pass now => some (s.pass now).thread

end IdleTaskThread

/-! ## What the timers are for -/

/-- The deadline of each task that waits for one, and which tasks have been destroyed. -/
structure Pending (τ : Type*) where
  deadline : τ → Option Int
  destroyed : τ → Bool

namespace Pending

def new : Pending τ := ⟨fun _ => none, fun _ => false⟩

variable [DecidableEq τ]

/-- A timer that is set stays as it is; a pass takes the deadlines that have come. -/
def step (p : Pending τ) : IdleAct τ → Option (Pending τ)
  | .setIdleTimer t msec now =>
    if p.destroyed t then none
    else some { p with deadline := Function.update p.deadline t (some ((p.deadline t).getD (now + msec))) }
  | .cancelTimeout t =>
    if p.destroyed t then none else some { p with deadline := Function.update p.deadline t none }
  | .destroy t =>
    if p.destroyed t then none
    else some ⟨Function.update p.deadline t none, Function.update p.destroyed t true⟩
  | .pass now => some { p with deadline := fun t => (p.deadline t).filter fun d => now < d }

/-- A destroyed task waits for nothing. -/
theorem deadline_destroyed {as : List (IdleAct τ)} {p : Pending τ} (hr : run step new as = some p) {t : τ}
    (ht : p.destroyed t = true) : p.deadline t = none := by
  refine run_inv (I := fun p => ∀ t, p.destroyed t = true → p.deadline t = none) (fun p a p' hp hs u hu => ?_)
    (fun t ht => by cases ht) hr t ht
  cases a with
  | setIdleTimer t msec now =>
    simp only [step] at hs
    split at hs <;> cases hs
    next hd =>
      have hne : u ≠ t := by
        rintro rfl
        exact hd hu
      simpa [hne] using hp u hu
  | cancelTimeout t =>
    simp only [step] at hs
    split at hs <;> cases hs
    by_cases hut : u = t
    · simp [hut]
    · simpa [hut] using hp u hu
  | destroy t =>
    simp only [step] at hs
    split at hs <;> cases hs
    by_cases hut : u = t
    · simp [hut]
    · exact (Function.update_of_ne hut _ _).trans (hp u (by simpa [hut] using hu))
  | pass now =>
    cases hs
    simp [hp u hu]

end Pending

/-- A pass as it should be: it signals the tasks whose deadline has come, each once, it takes these and no others out of
the heap, and the wait that follows ends by the earliest deadline that is left. -/
structure GoodPass (p : Pending τ) (now : Int) (r : IdlePass τ) : Prop where
  once : r.signalled.Nodup
  signalled : ∀ t, t ∈ r.signalled ↔ ∃ d, p.deadline t = some d ∧ d ≤ now
  left : ∀ d t, r.thread.fIdleHeap.Holds (d, t) ↔ p.deadline t = some d ∧ now < d
  wait : ∀ d t, p.deadline t = some d → now < d → ∃ w, OSCond.limit r.wait = some w ∧ w ≤ d - now

namespace IdleTaskThread

variable {s s' : IdleTaskThread τ} {p : Pending τ} {t : τ}

/-- The heap holds the deadlines. -/
structure Models (s : IdleTaskThread τ) (p : Pending τ) : Prop where
  valid : s.fIdleHeap.Valid
  holds : ∀ d t, s.fIdleHeap.Holds (d, t) ↔ p.deadline t = some d
  destroyed : s.destroyed = p.destroyed

/-- The task has its timer set. -/
theorem Models.current (h : Models s p) : s.fIdleHeap.fCurrentHeap t = true ↔ (p.deadline t).isSome := by
  rw [h.valid.current, Option.isSome_iff_exists]
  exact exists_congr fun d => h.holds d t

theorem models_new : Models (new : IdleTaskThread τ) .new where
  valid := OSHeap.valid_new _
  holds d t := by
    constructor
    · rintro ⟨i, hi, -⟩
      have hlt : i < 1 := hi.2
      omega
    · intro h
      cases h
  destroyed := rfl

/-! ## The operations -/

/-- What the loop of a pass does with a heap in order. -/
structure Popped (h : OSHeap τ) (msec : Int) (r : OSHeap τ × List τ) : Prop where
  valid : r.1.Valid
  ordered : r.1.Ordered
  left : ∀ x, r.1.Holds x ↔ h.Holds x ∧ msec < x.1
  signalled : ∀ t, t ∈ r.2 ↔ ∃ d, h.Holds (d, t) ∧ d ≤ msec
  once : r.2.Nodup

/-- The loop ends where nothing is due. -/
theorem popped_done {h : OSHeap τ} {msec : Int} (hv : h.Valid) (ho : h.Ordered) (hlate : ∀ x, h.Holds x → msec < x.1) :
    Popped h msec (h, []) where
  valid := hv
  ordered := ho
  left x := ⟨fun hx => ⟨hx, hlate x hx⟩, And.left⟩
  signalled t := by
    constructor
    · intro ht
      cases ht
    · rintro ⟨d, hd, hdue⟩
      have hlt := hlate _ hd
      exact absurd hdue (not_le.2 hlt)
  once := List.nodup_nil

section Operations

variable [DecidableEq τ]

theorem Models.setIdleTimer (h : Models s p) (t : τ) (msec now : Int) : Models (s.setIdleTimer t msec now)
    { p with deadline := Function.update p.deadline t (some ((p.deadline t).getD (now + msec))) } := by
  unfold IdleTaskThread.setIdleTimer
  split
  next hin =>
    -- the timer is set already
    obtain ⟨d, hd⟩ := Option.isSome_iff_exists.1 (h.current.1 hin)
    rw [hd, Option.getD_some, ← hd, Function.update_eq_self]
    exact h
  next hout =>
    have hnone : p.deadline t = none := by
      rw [h.current] at hout
      simpa using hout
    have hnew : ∀ d, ¬ s.fIdleHeap.Holds (d, t) := by
      intro d hd
      rw [h.holds, hnone] at hd
      cases hd
    refine ⟨h.valid.insert hnew, fun d u => ?_, h.destroyed⟩
    rw [OSHeap.holds_insert h.valid, h.holds, hnone, Option.getD_none]
    by_cases hu : u = t
    · subst hu
      simp [hnone, eq_comm]
    · simp [hu]

/-- `Remove` of the element of the task, wherever it is. -/
theorem Models.cancelTimeout (h : Models s p) (t : τ) :
    Models (s.cancelTimeout t) { p with deadline := Function.update p.deadline t none } := by
  unfold IdleTaskThread.cancelTimeout OSHeap.remove
  cases hl : s.fIdleHeap.locate t with
  | none =>
    have hnone : p.deadline t = none := Option.eq_none_iff_forall_ne_some.2 fun d hd =>
      OSHeap.locate_none hl d ((h.holds d t).2 hd)
    rw [← hnone, Function.update_eq_self]
    exact h
  | some i =>
    obtain ⟨hi, d, hd⟩ := OSHeap.locate_some hl
    refine ⟨h.valid.extract hi hd, fun e u => ?_, h.destroyed⟩
    rw [OSHeap.holds_extract h.valid hi hd, h.holds]
    by_cases hu : u = t
    · subst hu
      simp
    · simp [hu]

theorem Models.destroy (h : Models s p) (t : τ) :
    Models (s.destroy t) ⟨Function.update p.deadline t none, Function.update p.destroyed t true⟩ := by
  unfold IdleTaskThread.destroy
  split
  next =>
    have hc := h.cancelTimeout t
    exact ⟨hc.valid, hc.holds, congrArg (Function.update · t true) hc.destroyed⟩
  next hout =>
    have hnone : p.deadline t = none := by
      rw [h.current] at hout
      simpa using hout
    rw [← hnone, Function.update_eq_self]
    exact ⟨h.valid, h.holds, congrArg (Function.update · t true) h.destroyed⟩

/-- **The loop of a pass**: from the root downwards it comes to every task that is due. -/
theorem popDue_popped {msec : Int} {fuel : Nat} {h : OSHeap τ} (hv : h.Valid) (ho : h.Ordered)
    (hfuel : h.currentHeapSize ≤ fuel) : Popped h msec (popDue msec fuel h) := by
  induction fuel generalizing h with
  | zero =>
    refine popped_done hv ho fun x hx => ?_
    obtain ⟨i, hi, -⟩ := hx
    unfold OSHeap.currentHeapSize at hfuel
    omega
  | succ fuel ih =>
    simp only [popDue]
    split
    next x hx =>
      obtain ⟨-, -, hin, hleast⟩ := ho.peekMin hx
      obtain ⟨hex, hsize, hv', ho', hholds⟩ := ho.extractMin hv hx
      split
      next hdue =>
        have hrest := ih hv' ho' (by omega)
        rw [hex]
        refine ⟨hrest.valid, hrest.ordered, fun y => ?_, fun t => ?_, ?_⟩
        · rw [hrest.left, hholds, and_assoc]
          refine and_congr_right fun _ => and_iff_right_of_imp fun hlate he => ?_
          rw [he] at hlate
          omega
        · show t ∈ x.2 :: (popDue msec fuel h.extractMin.1).2 ↔ _
          rw [List.mem_cons, hrest.signalled]
          constructor
          · rintro (rfl | ⟨d, hd, hle⟩)
            · exact ⟨x.1, hin, hdue⟩
            · exact ⟨d, ((hholds _).1 hd).1, hle⟩
          · rintro ⟨d, hd, hle⟩
            by_cases he : (d, t) = x
            · exact Or.inl (congrArg Prod.snd he)
            · exact Or.inr ⟨d, (hholds _).2 ⟨hd, he⟩, hle⟩
        · show (x.2 :: (popDue msec fuel h.extractMin.1).2).Nodup
          refine List.nodup_cons.2 ⟨fun hmem => ?_, hrest.once⟩
          obtain ⟨d, hd, -⟩ := (hrest.signalled _).1 hmem
          obtain ⟨hd', hne⟩ := (hholds _).1 hd
          exact hne (hv.unique hd' hin rfl)
      next hlate => exact popped_done hv ho fun y hy => lt_of_lt_of_le (not_le.1 hlate) (hleast y hy)
    next hnone => exact popped_done hv ho fun y hy => absurd hy (hv.peekMin_none hnone)

/-! ## Passes -/

/-- The truncation of a positive time to 32 bits does not make it longer. -/
theorem limit_ofInt {x : Int} (hx : 0 < x) (h : ¬ (2 ^ 32 : Int) ∣ x) :
    ∃ w, OSCond.limit (BitVec.ofInt 32 x) = some w ∧ w ≤ x := by
  have hne : BitVec.ofInt 32 x ≠ 0 := by
    intro h0
    apply h
    have hmod := congrArg BitVec.toNat h0
    simp only [BitVec.toNat_ofInt] at hmod
    have hz : (BitVec.toNat (0 : BitVec 32)) = 0 := rfl
    omega
  refine ⟨_, if_neg hne, ?_⟩
  rw [BitVec.toInt_ofInt, Int.bmod_def]
  split <;> omega

/-- The steps that keep the heap in order and the waits short: where an element is removed the last leaf is not below
the parent of the hole, and the time to the earliest deadline left by a pass is no multiple of `2 ^ 32`. -/
def Fits (s : IdleTaskThread τ) : IdleAct τ → Prop
  | .setIdleTimer _ _ _ => True
  | .cancelTimeout t | .destroy t => ∀ i, s.fIdleHeap.locate t = some i → s.fIdleHeap.Fits i
  | .pass now => ∀ x, s.fIdleHeap.Holds x → now < x.1 → (∀ y, s.fIdleHeap.Holds y → now < y.1 → x.1 ≤ y.1) →
      ¬ (2 ^ 32 : Int) ∣ x.1 - now

theorem Models.pass (h : Models s p) (ho : s.fIdleHeap.Ordered) {now : Int} (hfit : s.Fits (.pass now)) :
    GoodPass p now (s.pass now) ∧ (s.pass now).thread.fIdleHeap.Ordered ∧
      Models (s.pass now).thread { p with deadline := fun t => (p.deadline t).filter fun d => now < d } := by
  have hpop : Popped s.fIdleHeap now (popDue now s.fIdleHeap.currentHeapSize s.fIdleHeap) :=
    popDue_popped h.valid ho le_rfl
  have hleft : ∀ d t, (s.pass now).thread.fIdleHeap.Holds (d, t) ↔ p.deadline t = some d ∧ now < d := by
    intro d t
    rw [← h.holds]
    exact hpop.left (d, t)
  refine ⟨⟨hpop.once, fun t => ?_, hleft, fun d t hd hnow => ?_⟩, hpop.ordered, hpop.valid, fun d t => ?_, h.destroyed⟩
  · rw [show t ∈ (s.pass now).signalled ↔ _ from hpop.signalled t]
    exact exists_congr fun d => and_congr_left fun _ => h.holds d t
  · -- the earliest deadline that is left
    have hin := (hleft d t).2 ⟨hd, hnow⟩
    cases hx : (s.pass now).thread.fIdleHeap.peekMin with
    | none => exact absurd hin (hpop.valid.peekMin_none hx)
    | some x =>
      obtain ⟨-, -, hxin, hleast⟩ := hpop.ordered.peekMin hx
      have hxd := hleast _ hin
      obtain ⟨hxh, hxnow⟩ := (hpop.left x).1 hxin
      have hnot := hfit x hxh hxnow fun y hy hynow => hleast y ((hpop.left y).2 ⟨hy, hynow⟩)
      obtain ⟨w, hw, hwx⟩ := limit_ofInt (x := x.1 - now) (by omega) hnot
      refine ⟨w, ?_, by simp only at hxd; omega⟩
      have hwait : (s.pass now).wait = BitVec.ofInt 32 (x.1 - now) := by
        show (s.pass now).thread.fIdleHeap.peekMin.elim 0 _ = _
        rw [hx]
        rfl
      rw [hwait, hw]
  · rw [hleft, Option.filter_eq_some_iff, decide_eq_true_eq]

/-! ## Runs -/

/-- A step that fits keeps the order, and the deadlines are as they should be. -/
theorem models_step (h : Models s p) (ho : s.fIdleHeap.Ordered) {a : IdleAct τ} (hfit : s.Fits a)
    (hs : s.step a = some s') : s'.fIdleHeap.Ordered ∧ ∃ p', p.step a = some p' ∧ Models s' p' := by
  have hremove : ∀ t, (∀ i, s.fIdleHeap.locate t = some i → s.fIdleHeap.Fits i) →
      (s.cancelTimeout t).fIdleHeap.Ordered := by
    intro t hfit
    unfold IdleTaskThread.cancelTimeout OSHeap.remove
    cases hl : s.fIdleHeap.locate t with
    | none => exact ho
    | some i =>
      obtain ⟨hi, d, hd⟩ := OSHeap.locate_some hl
      exact ho.extract h.valid hi hd (hfit i hl)
  cases a with
  | setIdleTimer t msec now =>
    simp only [step] at hs
    split at hs <;> cases hs
    next hd =>
      refine ⟨?_, _, if_neg (by rwa [← h.destroyed]), h.setIdleTimer t msec now⟩
      unfold IdleTaskThread.setIdleTimer
      split
      · exact ho
      · exact ho.insert h.valid
  | cancelTimeout t =>
    simp only [step] at hs
    split at hs <;> cases hs
    next hd => exact ⟨hremove t hfit, _, if_neg (by rwa [← h.destroyed]), h.cancelTimeout t⟩
  | destroy t =>
    simp only [step] at hs
    split at hs <;> cases hs
    next hd =>
      refine ⟨?_, _, if_neg (by rwa [← h.destroyed]), h.destroy t⟩
      unfold IdleTaskThread.destroy
      split
      · exact hremove t hfit
      · exact ho
  | pass now =>
    cases hs
    obtain ⟨-, ho', hm⟩ := h.pass ho hfit
    exact ⟨ho', _, rfl, hm⟩

/-- **Idle timers**: after every run whose steps fit, the heap holds exactly the deadlines that are pending, none of
them of a destroyed task, and a pass that fits signals exactly the tasks that are due and waits no longer than it may. -/
theorem idle_passes {as : List (IdleAct τ)} (hr : run step new as = some s) (hfit : Along step Fits new as) :
    ∃ p, run Pending.step .new as = some p ∧ (∀ d t, s.fIdleHeap.Holds (d, t) ↔ p.deadline t = some d) ∧
      (∀ t, s.destroyed t = true → p.deadline t = none) ∧ ∀ now, s.Fits (.pass now) → GoodPass p now (s.pass now) := by
  obtain ⟨p, hp, hm, ho⟩ := run_lockstep (R := fun s p => Models s p ∧ s.fIdleHeap.Ordered)
    (fun s p a s' h hfit hs => by
      obtain ⟨ho', p', hp', hm'⟩ := models_step h.1 h.2 hfit hs
      exact ⟨p', hp', hm', ho'⟩)
    ⟨models_new, OSHeap.ordered_new _⟩ hfit hr
  exact ⟨p, hp, hm.holds, fun t ht => Pending.deadline_destroyed hp (by rwa [← hm.destroyed]),
    fun now hnow => (hm.pass ho hnow).1⟩

end Operations

/-- Seven timers and the cancellation of one of them in the middle of the heap. The pass at 2 leaves the deadline 3 below
the deadline 4, and the pass at 3 does not come to it. -/
theorem idle_passes_cancel : ∃ (s : IdleTaskThread Nat) (p : Pending Nat),
    let as : List (IdleAct Nat) := [.setIdleTimer 0 1 0, .setIdleTimer 1 4 0, .setIdleTimer 2 2 0,
      .setIdleTimer 3 5 0, .setIdleTimer 4 6 0, .setIdleTimer 5 7 0, .setIdleTimer 6 3 0, .cancelTimeout 3, .pass 2]
    run step new as = some s ∧ run Pending.step .new as = some p ∧ p.deadline 6 = some 3 ∧
      (s.pass 3).signalled = [] ∧ ¬ GoodPass p 3 (s.pass 3) := by
  refine ⟨_, _, rfl, rfl, rfl, rfl, fun h => ?_⟩
  have hin := (h.signalled 6).2 ⟨3, rfl, by decide⟩
  cases hin

/-- A cancellation that takes the last leaf away. -/
theorem idle_passes_last : ∃ (s : IdleTaskThread Nat) (p : Pending Nat),
    let as : List (IdleAct Nat) := [.setIdleTimer 0 1 0, .setIdleTimer 1 4 0, .setIdleTimer 2 2 0, .cancelTimeout 2]
    run step new as = some s ∧ run Pending.step .new as = some p ∧ GoodPass p 1 (s.pass 1) := by
  have hfit : Along step Fits (new : IdleTaskThread Nat)
      [.setIdleTimer 0 1 0, .setIdleTimer 1 4 0, .setIdleTimer 2 2 0, .cancelTimeout 2] := by
    refine ⟨trivial, fun s₁ h₁ => ⟨trivial, fun s₂ h₂ => ⟨trivial, fun s₃ h₃ => ⟨fun i hi => ?_, fun _ _ => trivial⟩⟩⟩⟩
    cases h₁
    cases h₂
    cases h₃
    cases hi
    intro _ hlast
    exact absurd hlast (by decide)
  obtain ⟨p, hp, -, -, hpass⟩ := idle_passes rfl hfit
  refine ⟨_, p, rfl, hp, hpass 1 ?_⟩
  rintro x ⟨i, hi, hx⟩ hnow -
  have hcases : i = 1 ∨ i = 2 := by
    have h3 : i < 3 := hi.2
    omega
  rcases hcases with rfl | rfl <;> cases hx
  · exact absurd hnow (by decide)
  · decide

end IdleTaskThread

end ToolLib.Common
