import Mathlib.Data.List.Nodup
import ToolLib.Common.OSHeap
import ToolLib.Common.TaskPlacement

/-!
# Task threads with their heaps

In Task.lean the heap of a task thread is a list from which a least element is taken. Here it is the array of `OSHeap`:
a pass of `WaitForTask` reads the clock once and looks at `PeekMin`, and `Entry` inserts the task whose `Run` returned a
timeout. Everything else is as it was, so the state consists of a `Scheduler` whose lists are not used and of the heaps.

`Models` relates the two, and `models_step` is the refinement: each step of a scheduler with heaps is a step of the
scheduler. What the task threads keep (`Placed`) then also holds with the heaps, and it is what the heap relies on: a
task that is inserted is not in the heap.
-/

namespace ToolLib.Common

open ToolLib.Base

variable {τ σ : Type*}

structure HeapScheduler (τ σ : Type*) where
  rest : Scheduler τ σ
  fHeap : Nat → OSHeap τ

/-- What happens next. -/
inductive HeapAct (τ σ : Type*)
  /-- `WaitForTask` reads the clock and looks for a timer. -/
  | pass (k : Nat) (now : Int)
  /-- `Entry` deals with what `Run` returned. -/
  | finish (k : Nat) (now : Int)
  | other (act : Act τ σ)

/-- The actions that have nothing to do with a heap. -/
def Act.untimed : Act τ σ → Bool
  | .timer _ _ _ _ | .noTimer _ _ | .finish _ _ => false
  | _ => true

namespace HeapScheduler

section Step

variable [DecidableEq τ] [DecidableEq σ]

def new : HeapScheduler τ σ where
  rest := .new
  fHeap _ := .new OSHeap.kDefaultStartSize

/-- `WaitForTask` returns the task of `ExtractMin`. -/
def timer (c : HeapScheduler τ σ) (k : Nat) : Option (HeapScheduler τ σ) :=
  let r := (c.fHeap k).extractMin
  r.2.map fun x => { rest := c.rest.goto k (.begin x.2), fHeap := Function.update c.fHeap k r.1 }

/-- A pass of `WaitForTask` up to its `DeQueueBlocking`. -/
def pass (c : HeapScheduler τ σ) (k : Nat) (now : Int) : Option (HeapScheduler τ σ) :=
  match (c.fHeap k).peekMin with
  | some x =>
    if x.1 ≤ now then c.timer k
    -- `Assert(theTimeout >= 0)`
    else if 0 ≤ signed 64 (x.1 - now) then some { c with rest := c.rest.goto k .dequeue } else none
  | none => some { c with rest := c.rest.goto k .dequeue }

/-- The task is put into the heap, or it goes on without it. -/
def finish (c : HeapScheduler τ σ) (k : Nat) (t : τ) (theTimeout now : Int) : HeapScheduler τ σ :=
  if theTimeout > 0 then
    { rest := c.rest.goto k (.idle t)
      fHeap := Function.update c.fHeap k ((c.fHeap k).insert (signed 64 (now + theTimeout), t)) }
  else { c with rest := c.rest.finish k t theTimeout now }

def step (c : HeapScheduler τ σ) : HeapAct τ σ → Option (HeapScheduler τ σ)
  | .pass k now => if k < c.rest.sNumTaskThreads ∧ (c.rest.thread k).entry = .wait then c.pass k now else none
  | .finish k now => match (c.rest.thread k).entry with
    | .ret t theTimeout => some (c.finish k t theTimeout now)
    | _ => none
  | .other act => if act.untimed then (c.rest.step act).map fun s => { c with rest := s } else none

end Step

end HeapScheduler

/-! ## Schedulers with other heaps -/

namespace Scheduler

/-- The scheduler with the lists `l`. -/
def withHeaps (l : Nat → List (Int × τ)) (s : Scheduler τ σ) : Scheduler τ σ :=
  { s with thread := fun k => { s.thread k with fHeap := l k } }

variable {s s' : Scheduler τ σ} {l : Nat → List (Int × τ)} {k : Nat}

theorem withHeaps_setThread (th : TaskThread τ) :
    (s.setThread k th).withHeaps l = (s.withHeaps l).setThread k { th with fHeap := l k } := by
  have hthread : (fun j => { Function.update s.thread k th j with fHeap := l j }) =
      Function.update (s.withHeaps l).thread k { th with fHeap := l k } := by
    funext j
    by_cases hj : j = k
    · rw [hj, Function.update_self, Function.update_self]
    · rw [Function.update_of_ne hj, Function.update_of_ne hj]
      rfl
  show { (s.setThread k th) with thread := fun j => { Function.update s.thread k th j with fHeap := l j } } = _
  rw [hthread]
  rfl

theorem withHeaps_goto (e : Entry τ) : (s.goto k e).withHeaps l = (s.withHeaps l).goto k e := withHeaps_setThread _

theorem withHeaps_entry : ((s.withHeaps l).thread k).entry = (s.thread k).entry := rfl

theorem withHeaps_sig (a : σ) : (s.withHeaps l).sig a = s.sig a := rfl

theorem withHeaps_route [DecidableEq σ] (a : σ) (t : τ) : (s.route a t).withHeaps l = (s.withHeaps l).route a t := by
  have htask : (s.withHeaps l).task t = s.task t := rfl
  unfold route
  rw [apply_ite (withHeaps l), htask]
  refine if_congr Iff.rfl ?_ rfl
  cases (s.task t).fUseThisThread <;> rfl

theorem withHeaps_enqueue [DecidableEq τ] [DecidableEq σ] (a : σ) (t : τ) (k : Nat) :
    (s.enqueue a t k).withHeaps l = (s.withHeaps l).enqueue a t k := by
  have hthread := withHeaps_setThread (s := s) (l := l) (k := k)
    { s.thread k with fTaskQueue := enQueue (s.thread k).fTaskQueue t }
  exact congrArg (fun x : Scheduler τ σ => x.setSig a none) hthread

theorem withHeaps_subEvents [DecidableEq τ] (k : Nat) (t : τ) (w : Bool) (ev : EventFlags) :
    (s.subEvents k t w ev).withHeaps l = (s.withHeaps l).subEvents k t w ev :=
  congrArg (fun x : Scheduler τ σ => { x with record := (s.subEvents k t w ev).record })
    (withHeaps_goto (s := s.setTask t _) _)

theorem withHeaps_orIdle [DecidableEq τ] (k : Nat) (t : τ) : (s.orIdle k t).withHeaps l = (s.withHeaps l).orIdle k t :=
  congrArg (fun x : Scheduler τ σ => { x with record := (s.orIdle k t).record }) (withHeaps_goto (s := s.setTask t _) _)

/-- What `Entry` does with a task that it does not put into the heap. -/
theorem withHeaps_finish [DecidableEq τ] {theTimeout : Int} (hle : ¬ theTimeout > 0) (k : Nat) (t : τ) (now : Int) :
    (s.finish k t theTimeout now).withHeaps l = (s.withHeaps l).finish k t theTimeout now := by
  unfold finish
  by_cases hneg : theTimeout < 0
  · rw [if_pos hneg, if_pos hneg]
    exact congrArg (fun x : Scheduler τ σ => { x with life := Function.update s.life t .deleted }) (withHeaps_goto _)
  · have hzero : theTimeout = 0 := by omega
    rw [if_neg hneg, if_neg hneg, if_pos hzero, if_pos hzero]
    exact withHeaps_goto (s := s.setTask t _) _

/-- Two guards that say the same. -/
theorem map_guard {p q : Prop} [Decidable p] [Decidable q] {x y : Scheduler τ σ} (hpq : p ↔ q) (h : y.withHeaps l = x) :
    (if p then some x else none) = (if q then some y else none).map (withHeaps l) := by
  by_cases hp : p
  · rw [if_pos hp, if_pos (hpq.1 hp), Option.map_some, h]
  · rw [if_neg hp, if_neg (mt hpq.2 hp)]
    rfl

variable [DecidableEq τ] [DecidableEq σ]

/-- What has nothing to do with a heap does not look at it. -/
theorem withHeaps_step (act : Act τ σ) (hact : act.untimed = true) :
    (s.withHeaps l).step act = (s.step act).map (withHeaps l) := by
  cases act with
  | newTask t => exact map_guard Iff.rfl rfl
  | addThreads n => exact map_guard Iff.rfl rfl
  | signal a t e => exact map_guard Iff.rfl rfl
  | route a =>
    simp only [step, withHeaps_sig]
    cases s.sig a with
    | none => rfl
    | some g =>
      cases g with
      | route t => exact congrArg some (withHeaps_route a t).symm
      | enqueue t k => rfl
  | enqueue a =>
    simp only [step, withHeaps_sig]
    cases s.sig a with
    | none => rfl
    | some g =>
      cases g with
      | route t => rfl
      | enqueue t k => exact congrArg some (withHeaps_enqueue a t k).symm
  | dequeue k =>
    have hqueue : ((s.withHeaps l).thread k).fTaskQueue = (s.thread k).fTaskQueue := rfl
    simp only [step, withHeaps_entry, hqueue]
    by_cases he : (s.thread k).entry = .dequeue
    · rw [if_pos he, if_pos he]
      cases (s.thread k).fTaskQueue with
      | nil => exact congrArg some (withHeaps_goto _).symm
      | cons t q =>
        exact congrArg some (withHeaps_setThread { s.thread k with fTaskQueue := q, entry := .begin t }).symm
    · rw [if_neg he, if_neg he]
      rfl
  | stop k => exact map_guard Iff.rfl (withHeaps_goto _)
  | begin k =>
    simp only [step, withHeaps_entry]
    cases (s.thread k).entry with
    | begin t => exact congrArg some (withHeaps_goto (s := s.setTask t _) _).symm
    | _ => rfl
  | readEvents k =>
    simp only [step, withHeaps_entry]
    cases (s.thread k).entry with
    | run t w ev =>
      cases ev with
      | none => exact congrArg some (withHeaps_goto _).symm
      | some ev => rfl
    | _ => rfl
  | subEvents k =>
    simp only [step, withHeaps_entry]
    cases (s.thread k).entry with
    | run t w ev =>
      cases ev with
      | none => rfl
      | some ev => exact congrArg some (withHeaps_subEvents k t w ev).symm
    | _ => rfl
  | forceSameThread k | callLocked k | globalUnlock k =>
    simp only [step, withHeaps_entry]
    cases (s.thread k).entry with
    | run t w ev => cases ev <;> rfl
    | _ => rfl
  | ret k theTimeout =>
    simp only [step, withHeaps_entry]
    cases (s.thread k).entry with
    | run t w ev =>
      cases ev with
      | none =>
        cases w with
        | true => exact congrArg some (withHeaps_goto (s := s.setTask t _) _).symm
        | false => exact congrArg some (withHeaps_goto _).symm
      | some ev => rfl
    | _ => rfl
  | orIdle k =>
    simp only [step, withHeaps_entry]
    cases (s.thread k).entry with
    | idle t => exact congrArg some (withHeaps_orIdle k t).symm
    | _ => rfl
  | timer | noTimer | finish => cases hact

/-- It does not change the heaps either. -/
theorem heap_step {act : Act τ σ} (hact : act.untimed = true) (hs : s.step act = some s') (k : Nat) :
    (s'.thread k).fHeap = (s.thread k).fHeap := by
  have hown : s.withHeaps (fun k => (s.thread k).fHeap) = s := rfl
  have hstep := withHeaps_step (s := s) (l := fun k => (s.thread k).fHeap) act hact
  rw [hown, hs] at hstep
  have hs' := Option.some.inj hstep
  rw [hs']
  rfl

end Scheduler

/-! ## Refinement -/

namespace HeapScheduler

variable {c c' : HeapScheduler τ σ} {s s' : Scheduler τ σ} {k : Nat} {t : τ}

/-- The scheduler `s` is the one in `c`, and has in its lists what is in the heaps of `c`, which are in order. -/
structure Models (c : HeapScheduler τ σ) (s : Scheduler τ σ) : Prop where
  rest : c.rest = s.withHeaps fun _ => []
  holds : ∀ k x, x ∈ (s.thread k).fHeap ↔ (c.fHeap k).Holds x
  valid : ∀ k, (c.fHeap k).Valid
  ordered : ∀ k, (c.fHeap k).Ordered

theorem models_new [DecidableEq τ] [DecidableEq σ] : Models (new : HeapScheduler τ σ) .new where
  rest := rfl
  holds k x := by
    constructor
    · intro h
      cases h
    · rintro ⟨i, hi, -⟩
      have hlt : i < 1 := hi.2
      omega
  valid _ := OSHeap.valid_new _
  ordered _ := OSHeap.ordered_new _

theorem Models.entry (h : Models c s) (k : Nat) : (c.rest.thread k).entry = (s.thread k).entry := by rw [h.rest]; rfl

theorem Models.task (h : Models c s) (t : τ) : c.rest.task t = s.task t := by rw [h.rest]; rfl

/-- A step that leaves the heaps alone. -/
theorem Models.keep (h : Models c s) (hheap : ∀ k, (s'.thread k).fHeap = (s.thread k).fHeap) :
    Models { c with rest := s'.withHeaps fun _ => [] } s' where
  rest := rfl
  holds k x := by rw [hheap]; exact h.holds k x
  valid := h.valid
  ordered := h.ordered

/-- A step that changes one heap. -/
theorem Models.change (h : Models c s) {g : OSHeap τ} {th : TaskThread τ} (hg : ∀ x, x ∈ th.fHeap ↔ g.Holds x)
    (hv : g.Valid) (ho : g.Ordered) :
    Models { rest := (s.setThread k th).withHeaps fun _ => [], fHeap := Function.update c.fHeap k g } (s.setThread k th) where
  rest := rfl
  holds j x := by
    by_cases hj : j = k
    · subst hj
      simpa [Scheduler.setThread] using hg x
    · simpa [Scheduler.setThread, Function.update_of_ne hj] using h.holds j x
  valid j := by
    by_cases hj : j = k
    · subst hj
      simpa using hv
    · simpa [Function.update_of_ne hj] using h.valid j
  ordered j := by
    by_cases hj : j = k
    · subst hj
      simpa using ho
    · simpa [Function.update_of_ne hj] using h.ordered j

/-- What a step of the scheduler with heaps is for the scheduler. -/
def Does (c : HeapScheduler τ σ) : HeapAct τ σ → Act τ σ → Prop
  | .pass k now, act => (∃ x, (c.fHeap k).peekMin = some x ∧ x.1 ≤ now ∧ act = .timer k now x.1 x.2) ∨
      act = .noTimer k now
  | .finish k now, act => act = .finish k now
  | .other b, act => b.untimed = true ∧ act = b

section Refinement

variable [DecidableEq τ]

/-- A pass that finds a timer. -/
theorem Models.timer [DecidableEq σ] (h : Models c s) (hp : s.Placed) {x : OSHeapElem τ} {now : Int}
    (hk : k < c.rest.sNumTaskThreads) (hw : (c.rest.thread k).entry = .wait) (hx : (c.fHeap k).peekMin = some x)
    (hnow : x.1 ≤ now) :
    ∃ c' s', c.timer k = some c' ∧ s.step (.timer k now x.1 x.2) = some s' ∧ Models c' s' := by
  obtain ⟨-, -, hin, hleast⟩ := (h.ordered k).peekMin hx
  obtain ⟨hex, -, hv, ho, hholds⟩ := (h.ordered k).extractMin (h.valid k) hx
  have hmem : x ∈ (s.thread k).fHeap := (h.holds k x).2 hin
  have hguard : k < s.sNumTaskThreads ∧ (s.thread k).entry = .wait ∧ (x.1, x.2) ∈ (s.thread k).fHeap ∧
      (∀ p ∈ (s.thread k).fHeap, x.1 ≤ p.1) ∧ x.1 ≤ now := by
    refine ⟨?_, by rw [← h.entry, hw], hmem, fun p hp => hleast p ((h.holds k p).1 hp), hnow⟩
    rw [h.rest] at hk
    exact hk
  refine ⟨_, _, by rw [HeapScheduler.timer, hex]; rfl, by rw [Scheduler.step, if_pos hguard], ?_⟩
  have hgoto : c.rest.goto k (.begin x.2) = (s.setThread k { s.thread k with
      fHeap := (s.thread k).fHeap.erase (x.1, x.2), entry := .begin x.2 }).withHeaps fun _ => [] := by
    rw [h.rest, Scheduler.withHeaps_setThread]
    rfl
  show Models { rest := c.rest.goto k (.begin x.2), fHeap := _ } _
  rw [hgoto]
  have hnodup : (s.thread k).fHeap.Nodup := List.Nodup.of_map _ (hp.tidy k).timed
  refine h.change (fun y => ?_) hv ho
  rw [hholds, hnodup.mem_erase_iff, h.holds k y, and_comm]

/-- What happens to a task whose `Run` has returned. -/
theorem Models.finish (h : Models c s) (hp : s.Placed) {theTimeout : Int} (he : (s.thread k).entry = .ret t theTimeout)
    (now : Int) : Models (c.finish k t theTimeout now) (s.finish k t theTimeout now) := by
  by_cases hpos : theTimeout > 0
  · have hnew : ∀ d, ¬ (c.fHeap k).Holds (d, t) := by
      intro d hd
      have hrun : (s.thread k).Has t .running := by
        show (s.thread k).entry.task = some t
        rw [he]
        rfl
      have hheap : (s.thread k).Has t .heap := List.mem_map.2 ⟨(d, t), (h.holds k _).2 hd, rfl⟩
      cases hp.only hrun (p := .thread k .heap) hheap
    have hgoto : c.rest.goto k (.idle t) = (s.setThread k { s.thread k with
        fHeap := (signed 64 (now + theTimeout), t) :: (s.thread k).fHeap, entry := .idle t }).withHeaps fun _ => [] := by
      rw [h.rest, Scheduler.withHeaps_setThread]
      rfl
    rw [HeapScheduler.finish, if_pos hpos, Scheduler.finish, if_neg (by omega), if_neg (by omega), hgoto]
    refine h.change (fun y => ?_) ((h.valid k).insert hnew) ((h.ordered k).insert (h.valid k))
    rw [OSHeap.holds_insert (h.valid k), List.mem_cons, h.holds k y]
  · have hown : (s.finish k t theTimeout now).withHeaps (fun k => (s.thread k).fHeap) = s.finish k t theTimeout now :=
      Scheduler.withHeaps_finish hpos k t now
    rw [HeapScheduler.finish, if_neg hpos, h.rest, ← Scheduler.withHeaps_finish hpos]
    refine h.keep fun j => ?_
    rw [← hown]
    rfl

/-- A pass that finds no timer. -/
theorem Models.noTimer [DecidableEq σ] (h : Models c s) {k : Nat} {now : Int} (hk : k < c.rest.sNumTaskThreads)
    (hwait : (c.rest.thread k).entry = .wait) (hlate : ∀ p ∈ (s.thread k).fHeap, now < p.1) :
    ∃ s', s.step (.noTimer k now : Act τ σ) = some s' ∧ Models { c with rest := c.rest.goto k .dequeue } s' := by
  have hguard : k < s.sNumTaskThreads ∧ (s.thread k).entry = .wait ∧ ∀ p ∈ (s.thread k).fHeap, now < p.1 := by
    refine ⟨?_, by rw [← h.entry, hwait], hlate⟩
    rw [h.rest] at hk
    exact hk
  refine ⟨_, by rw [Scheduler.step, if_pos hguard], ?_⟩
  rw [h.rest, ← Scheduler.withHeaps_goto]
  refine h.keep fun j => ?_
  by_cases hj : j = k
  · subst hj
    simp [Scheduler.goto, Scheduler.setThread]
  · simp [Scheduler.goto, Scheduler.setThread, Function.update_of_ne hj]

/-- **Refinement**: every step with heaps is a step of the scheduler. -/
theorem models_step [DecidableEq σ] (h : Models c s) (hp : s.Placed) {a : HeapAct τ σ} (hs : c.step a = some c') :
    ∃ act s', c.Does a act ∧ s.step act = some s' ∧ Models c' s' := by
  cases a with
  | pass k now =>
    simp only [step] at hs
    split at hs
    next hg =>
      have hno : (∀ p ∈ (s.thread k).fHeap, now < p.1) → c' = { c with rest := c.rest.goto k .dequeue } →
          ∃ act s', c.Does (.pass k now) act ∧ s.step act = some s' ∧ Models c' s' := by
        rintro hlate rfl
        obtain ⟨s', hs', hm⟩ := h.noTimer (σ := σ) hg.1 hg.2 hlate
        exact ⟨.noTimer k now, s', Or.inr rfl, hs', hm⟩
      unfold HeapScheduler.pass at hs
      split at hs
      next x hx =>
        split at hs
        next hnow =>
          obtain ⟨c₁, s', hc₁, hs', hm⟩ := h.timer hp hg.1 hg.2 hx hnow
          rw [hc₁] at hs
          cases hs
          exact ⟨_, s', Or.inl ⟨x, hx, hnow, rfl⟩, hs', hm⟩
        next hnow =>
          obtain ⟨-, hs⟩ := Option.ite_none_right_eq_some.1 hs
          refine hno (fun p hp => ?_) (Option.some.inj hs).symm
          have hle := ((h.ordered k).peekMin hx).2.2.2 p ((h.holds k p).1 hp)
          omega
      next hx =>
        exact hno (fun p hp => absurd ((h.holds k p).1 hp) ((h.valid k).peekMin_none hx)) (Option.some.inj hs).symm
    next => cases hs
  | finish k now =>
    simp only [step] at hs
    split at hs
    next t theTimeout he =>
      cases hs
      rw [h.entry] at he
      exact ⟨.finish k now, s.finish k t theTimeout now, rfl, by simp only [Scheduler.step, he], h.finish hp he now⟩
    next => cases hs
  | other act =>
    simp only [step] at hs
    split at hs
    next hact =>
      rw [h.rest, Scheduler.withHeaps_step act hact, Option.map_map] at hs
      obtain ⟨s', hs', rfl⟩ := Option.map_eq_some_iff.1 hs
      exact ⟨act, s', ⟨hact, rfl⟩, hs', h.keep (Scheduler.heap_step hact hs')⟩
    next => cases hs

end Refinement

end HeapScheduler

end ToolLib.Common
