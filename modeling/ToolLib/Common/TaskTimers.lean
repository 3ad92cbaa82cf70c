import ToolLib.Common.TaskHeap

/-!
# Timers

A task whose `Run` returned a timeout stays in the heap of its thread until a pass of `WaitForTask` on that thread reads
a clock that has reached the deadline. It keeps the alive bit all the time, so a signal leaves it there. It is given
`kIdleEvent` by the thread that has put it into the heap, which cannot take it out before; and only the thread that
executes the task in `Run` takes events out of its mask.

A pass looks at the heap first, so it does not come to its queue while a timer is due.
-/

namespace ToolLib.Common

open ToolLib.Base

variable {τ σ : Type*}

/-- The task thread that acts. -/
def Act.thread : Act τ σ → Option Nat
  | .newTask _ | .addThreads _ | .signal _ _ _ | .route _ | .enqueue _ => none
  | .timer k _ _ _ | .noTimer k _ | .dequeue k | .stop k | .begin k | .readEvents k | .subEvents k | .forceSameThread k
  | .callLocked k | .globalUnlock k | .ret k _ | .finish k _ | .orIdle k => some k

namespace Scheduler

variable {s s' : Scheduler τ σ} {act : Act τ σ} {t u : τ} {d : Int} {j k : Nat}

theorem setThread_entry_ne {th : TaskThread τ} (hjk : k ≠ j) :
    ((s.setThread j th).thread k).entry = (s.thread k).entry := by
  simp [setThread, Function.update_of_ne hjk]

/-- A thread is where it was unless it acts. -/
theorem entry_step [DecidableEq τ] [DecidableEq σ] (hs : s.step act = some s') (hk : act.thread ≠ some k) :
    (s'.thread k).entry = (s.thread k).entry := by
  have hne : ∀ j, act.thread = some j → k ≠ j := by
    rintro j hj rfl
    exact hk hj
  cases act with
  | newTask t | addThreads n | signal a t e =>
    simp only [step] at hs
    split at hs <;> cases hs
    rfl
  | route a =>
    simp only [step] at hs
    split at hs
    next =>
      cases hs
      unfold route
      split
      · split <;> rfl
      · rfl
    next => cases hs
  | enqueue a =>
    simp only [step] at hs
    split at hs
    next t j _ =>
      cases hs
      by_cases hkj : k = j
      · subst hkj
        simp [enqueue, setSig, setThread]
      · exact setThread_entry_ne hkj
    next => cases hs
  | dequeue j =>
    simp only [step] at hs
    split at hs
    next => split at hs <;> cases hs <;> exact setThread_entry_ne (hne j rfl)
    next => cases hs
  | ret j theTimeout =>
    simp only [step] at hs
    split at hs
    next t w _ => cases hs; cases w <;> exact setThread_entry_ne (hne j rfl)
    next => cases hs
  | finish j now =>
    simp only [step] at hs
    split at hs
    next =>
      cases hs
      unfold finish
      split
      · exact setThread_entry_ne (hne j rfl)
      split <;> exact setThread_entry_ne (hne j rfl)
    next => cases hs
  | forceSameThread j | callLocked j | globalUnlock j =>
    simp only [step] at hs
    split at hs <;> cases hs
    rfl
  | timer j now d t | noTimer j now | stop j | begin j | readEvents j | subEvents j | orIdle j =>
    simp only [step] at hs
    split at hs <;> cases hs
    exact setThread_entry_ne (hne j rfl)

/-- Nobody takes events out of the mask of the task: no thread is in `GetEvents` or leaves the task. -/
structure Unread (s : Scheduler τ σ) (t : τ) : Prop where
  live : s.life t = .live
  run : ∀ j w ev, (s.thread j).entry ≠ .run t w (some ev)
  ret : ∀ j theTimeout, (s.thread j).entry ≠ .ret t theTimeout

/-- The mask of such a task grows. -/
theorem Unread.grows [DecidableEq τ] [DecidableEq σ] (h : s.Unread t) (hs : Step s s') :
    Submask (s.task t).fEvents (s'.task t).fEvents := by
  have hset : ∀ u x, (u = t → Submask (s.task t).fEvents x.fEvents) →
      Submask (s.task t).fEvents ((s.setTask u x).task t).fEvents := by
    intro u x hx
    by_cases hu : t = u
    · subst hu
      rw [setTask_task]
      exact hx rfl
    · rw [setTask_task_ne hu]
      exact .refl _
  cases hs with
  | newTask u hborn =>
    refine hset u Task.new ?_
    rintro rfl
    rw [h.live] at hborn
    cases hborn
  | signal a u e _ _ =>
    refine hset u _ ?_
    rintro rfl
    exact submask_or_left _ _
  | route a u _ =>
    unfold route
    split
    · split <;> exact .refl _
    · exact .refl _
  | addThreads | enqueue | timer | dequeue | rest => exact .refl _
  | own k u f w e _ _ _ =>
    refine hset u _ ?_
    rintro rfl
    exact .refl _
  | subEvents k u w ev he =>
    refine hset u _ ?_
    rintro rfl
    exact absurd he (h.run k w ev)
  | finish k u theTimeout now he =>
    unfold finish
    split
    · exact .refl _
    split
    · refine hset u _ ?_
      rintro rfl
      exact absurd he (h.ret k theTimeout)
    · exact .refl _
  | orIdle k u _ =>
    refine hset u _ ?_
    rintro rfl
    exact submask_or_left _ _

/-! ## Waiting -/

/-- The task `t` is in the heap of the thread `k`, and has `kIdleEvent` or is about to be given it. -/
structure Waiting (s : Scheduler τ σ) (k : Nat) (d : Int) (t : τ) : Prop where
  timed : (d, t) ∈ (s.thread k).fHeap
  idle : (s.thread k).entry = .idle t ∨ Submask Task.kIdleEvent (s.task t).fEvents

/-- The thread `k` is about to call `Run` of the task, with `kIdleEvent`. -/
structure Due (s : Scheduler τ σ) (k : Nat) (t : τ) : Prop where
  entry : (s.thread k).entry = .begin t
  idle : Submask Task.kIdleEvent (s.task t).fEvents

theorem Waiting.has (h : s.Waiting k d t) : s.At t (.thread k .heap) := List.mem_map.2 ⟨(d, t), h.timed, rfl⟩

/-- Nobody executes a task that is in a heap. -/
theorem Waiting.not_run (h : s.Waiting k d t) (hp : s.Placed) (j : Nat) : (s.thread j).entry.task ≠ some t := by
  intro hrun
  cases hp.only (c := .running) hrun h.has

theorem Waiting.unread (h : s.Waiting k d t) (hp : s.Placed) : s.Unread t where
  live := (hp.alive t _ h.has).1
  run j w ev he := h.not_run hp j (by rw [he]; rfl)
  ret j theTimeout he := h.not_run hp j (by rw [he]; rfl)

/-- The thread that executes the task has not called `Run` yet. -/
theorem Due.unread (h : s.Due k t) (hp : s.Placed) : s.Unread t := by
  have hrun : (s.thread k).entry.task = some t := by rw [h.entry]; rfl
  have hone : ∀ j, (s.thread j).entry.task = some t → (s.thread j).entry = .begin t := by
    intro j hj
    rw [hp.run_once hrun hj, h.entry]
  refine ⟨(hp.alive t (.thread k .running) hrun).1, fun j w ev he => ?_, fun j theTimeout he => ?_⟩
  · have hbegin := hone j (by rw [he]; rfl)
    rw [he] at hbegin
    cases hbegin
  · have hbegin := hone j (by rw [he]; rfl)
    rw [he] at hbegin
    cases hbegin

section Steps

variable [DecidableEq τ] [DecidableEq σ]

/-- A timer leaves the heap when it is due, and not otherwise. -/
theorem timed_step (hs : s.step act = some s') (h : (d, t) ∈ (s.thread k).fHeap) :
    (d, t) ∈ (s'.thread k).fHeap ∨ ∃ now, act = .timer k now d t := by
  cases hact : act.untimed with
  | true =>
    rw [heap_step hact hs]
    exact Or.inl h
  | false =>
    cases act with
    | timer j now e u =>
      simp only [step] at hs
      split at hs
      next hg =>
        cases hs
        by_cases hkj : k = j
        · subst hkj
          by_cases heq : (d, t) = (e, u)
          · cases heq
            exact Or.inr ⟨now, rfl⟩
          · refine Or.inl ?_
            simpa [setThread] using (List.mem_erase_of_ne heq).2 h
        · exact Or.inl (by simpa [setThread, Function.update_of_ne hkj] using h)
      next => cases hs
    | noTimer j now =>
      simp only [step] at hs
      split at hs
      next =>
        cases hs
        by_cases hkj : k = j
        · subst hkj
          exact Or.inl (by simpa [goto, setThread] using h)
        · exact Or.inl (by simpa [goto, setThread, Function.update_of_ne hkj] using h)
      next => cases hs
    | finish j now =>
      simp only [step] at hs
      split at hs
      next u theTimeout _ =>
        cases hs
        refine Or.inl ?_
        by_cases hle : theTimeout > 0
        · rw [finish, if_neg (by omega), if_neg (by omega)]
          by_cases hkj : k = j
          · subst hkj
            simpa [setThread] using Or.inr h
          · simpa [setThread, Function.update_of_ne hkj] using h
        · have hown : (s.finish j u theTimeout now).withHeaps (fun k => (s.thread k).fHeap) =
              s.finish j u theTimeout now := withHeaps_finish hle j u now
          rw [← hown]
          exact h
      next => cases hs
    | _ => cases hact

/-- The task waits on, or its timer is due and it is about to run. -/
theorem waiting_step (hp : s.Placed) (h : s.Waiting k d t) (hs : s.step act = some s') :
    s'.Waiting k d t ∨ ∃ now, act = .timer k now d t ∧ d ≤ now ∧ s'.Due k t := by
  have hgrow := (h.unread hp).grows (step_cases hs)
  rcases timed_step hs h.timed with htimed | ⟨now, rfl⟩
  · refine Or.inl ⟨htimed, ?_⟩
    rcases h.idle with he | he
    · by_cases hk : act.thread = some k
      · -- the thread that has put the task into the heap gives it `kIdleEvent`
        cases act with
        | orIdle j =>
          cases hk
          simp only [step, he] at hs
          cases hs
          refine Or.inr ?_
          show Submask _ ((s.setTask t _).task t).fEvents
          rw [setTask_task]
          exact submask_or_right _ _
        | newTask | addThreads | signal | route | enqueue => cases hk
        | _ =>
          cases hk
          simp [step, he] at hs
      · rw [entry_step hs hk]
        exact Or.inl he
    · exact Or.inr (he.trans hgrow)
  · refine Or.inr ⟨now, rfl, ?_⟩
    simp only [step] at hs
    split at hs
    next hg =>
      cases hs
      refine ⟨hg.2.2.2.2, by simp [setThread], ?_⟩
      rcases h.idle with he | he
      · rw [hg.2.1] at he
        cases he
      · exact he.trans hgrow
    next => cases hs

/-- Then it runs. -/
theorem due_step (hp : s.Placed) (h : s.Due k t) (hs : s.step act = some s') :
    s'.Due k t ∨ act = .begin k ∧ (∃ w, (s'.thread k).entry = .run t w none) ∧
      Submask Task.kIdleEvent (s'.task t).fEvents := by
  have hgrow := h.idle.trans ((h.unread hp).grows (step_cases hs))
  have he := h.entry
  by_cases hk : act.thread = some k
  · cases act with
    | begin j =>
      cases hk
      simp only [step, he] at hs
      cases hs
      exact Or.inr ⟨rfl, ⟨(s.task t).fWriteLock, by simp [goto, setThread]⟩, hgrow⟩
    | newTask | addThreads | signal | route | enqueue => cases hk
    | _ =>
      cases hk
      simp [step, he] at hs
  · exact Or.inl ⟨(entry_step hs hk).trans he, hgrow⟩

end Steps

end Scheduler

/-! ## Runs with heaps -/

namespace HeapScheduler

variable {c c' : HeapScheduler τ σ} {t : τ} {d : Int} {k : Nat}

/-- The element `(d, t)` is in the heap of the thread `k`, and nobody executes the task. -/
def Waits (k : Nat) (d : Int) (t : τ) (c : HeapScheduler τ σ) : Prop :=
  (c.fHeap k).Holds (d, t) ∧ ∀ j, (c.rest.thread j).entry.task ≠ some t

/-- The thread `k` is about to call `Run` of the task, with `kIdleEvent`. -/
def Due (k : Nat) (t : τ) (c : HeapScheduler τ σ) : Prop :=
  (c.rest.thread k).entry = .begin t ∧ Submask Task.kIdleEvent (c.rest.task t).fEvents

/-- The thread `k` has called `Run` of the task, with `kIdleEvent`. -/
def Runs (k : Nat) (t : τ) (c : HeapScheduler τ σ) : Prop :=
  (∃ w, (c.rest.thread k).entry = .run t w none) ∧ Submask Task.kIdleEvent (c.rest.task t).fEvents

/-- A pass of `WaitForTask` on the thread `k` that reads a clock value not below `d`. -/
def PassFrom (k : Nat) (d : Int) (a : HeapAct τ σ) : Prop := ∃ now, a = .pass k now ∧ d ≤ now

variable [DecidableEq τ] [DecidableEq σ]

/-- In the rest of the run the task `t` waits in the heap of the thread `k`, up to a pass of this thread that reads a
clock value not below `d`; then the thread has the task, and `kIdleEvent` stays set until it calls `Run`. -/
def Timed (k : Nat) (d : Int) (t : τ) (c : HeapScheduler τ σ) (bs : List (HeapAct τ σ)) : Prop :=
  Until step (Waits k d t) (fun _ => PassFrom k d)
    (Until step (Due k t) (fun _ a => a = .other (.begin k)) fun c _ => c.Runs k t) c bs

/-- A state that models one of the scheduler in which every task has one place. -/
def Sound (c : HeapScheduler τ σ) (s : Scheduler τ σ) : Prop := c.Models s ∧ s.Placed

theorem sound_run {as : List (HeapAct τ σ)} (hr : run step new as = some c) : ∃ s, c.Sound s := by
  refine run_inv (I := fun c => ∃ s, c.Sound s) (fun c a c' hc hs => ?_)
    ⟨.new, models_new, Scheduler.placed_new⟩ hr
  obtain ⟨s, hm, hp⟩ := hc
  obtain ⟨act, s', -, hs', hm'⟩ := models_step hm hp hs
  exact ⟨s', hm', Scheduler.placed_step hp (Scheduler.step_cases hs')⟩

/-- Once the timer was due, the task runs. -/
theorem due_until {s : Scheduler τ σ} {bs : List (HeapAct τ σ)} (h : c.Sound s) (hdue : s.Due k t) :
    Until step (Due k t) (fun _ a => a = .other (.begin k)) (fun c _ => c.Runs k t) c bs := by
  refine until_of_step (I := fun c => ∃ s, c.Sound s ∧ s.Due k t) (fun c hc => ?_) (fun c a c' hc hs => ?_)
    ⟨s, h, hdue⟩
  · obtain ⟨s, ⟨hm, -⟩, hdue⟩ := hc
    exact ⟨(hm.entry k).trans hdue.entry, by rw [hm.task]; exact hdue.idle⟩
  · obtain ⟨s, ⟨hm, hp⟩, hdue⟩ := hc
    obtain ⟨act, s', hdo, hs', hm'⟩ := models_step hm hp hs
    have hp' := Scheduler.placed_step hp (Scheduler.step_cases hs')
    rcases Scheduler.due_step hp hdue hs' with hdue' | ⟨rfl, ⟨w, hw⟩, hidle⟩
    · exact Or.inl ⟨s', ⟨hm', hp'⟩, hdue'⟩
    · refine Or.inr ⟨?_, fun _ => ⟨⟨w, (hm'.entry k).trans hw⟩, by rw [hm'.task]; exact hidle⟩⟩
      cases a with
      | pass j now => rcases hdo with ⟨x, -, -, hx⟩ | hx <;> cases hx
      | finish j now => cases hdo
      | other b =>
        obtain ⟨-, rfl⟩ := hdo
        rfl

/-- A task that is in the heap waits there for its timer. -/
theorem timed_of_waiting {s : Scheduler τ σ} {bs : List (HeapAct τ σ)} (h : c.Sound s) (hw : s.Waiting k d t) :
    c.Timed k d t bs := by
  refine until_of_step (I := fun c => ∃ s, c.Sound s ∧ s.Waiting k d t) (fun c hc => ?_) (fun c a c' hc hs => ?_)
    ⟨s, h, hw⟩
  · obtain ⟨s, ⟨hm, hp⟩, hw⟩ := hc
    refine ⟨(hm.holds k _).1 hw.timed, fun j => ?_⟩
    rw [hm.entry]
    exact hw.not_run hp j
  · obtain ⟨s, ⟨hm, hp⟩, hw⟩ := hc
    obtain ⟨act, s', hdo, hs', hm'⟩ := models_step hm hp hs
    have hp' := Scheduler.placed_step hp (Scheduler.step_cases hs')
    rcases Scheduler.waiting_step hp hw hs' with hw' | ⟨now, rfl, hnow, hdue⟩
    · exact Or.inl ⟨s', ⟨hm', hp'⟩, hw'⟩
    · refine Or.inr ⟨?_, fun _ => due_until ⟨hm', hp'⟩ hdue⟩
      cases a with
      | pass j now' =>
        rcases hdo with ⟨x, -, -, hx⟩ | hx <;> cases hx
        exact ⟨now, rfl, hnow⟩
      | finish j now' => cases hdo
      | other b =>
        obtain ⟨hact, rfl⟩ := hdo
        cases hact

/-- The new timer is kept with its deadline when the sum has 64 bits. -/
theorem timed_finish {s : Scheduler τ σ} {theTimeout now : Int} (h : c.Sound s)
    (he : (s.thread k).entry = .ret t theTimeout) (hpos : 0 < theTimeout) :
    (∀ bs, (c.finish k t theTimeout now).Timed k (now + theTimeout) t bs) ↔ HasWidth 64 (now + theTimeout) := by
  obtain ⟨hm, hp⟩ := h
  have hm' := hm.finish hp he now
  have hheap : ((s.finish k t theTimeout now).thread k).fHeap =
      (signed 64 (now + theTimeout), t) :: (s.thread k).fHeap := by
    rw [Scheduler.finish, if_neg (by omega), if_neg (by omega)]
    simp [Scheduler.setThread]
  constructor
  · intro htimed
    have hwaits : Waits k (now + theTimeout) t (c.finish k t theTimeout now) := htimed []
    have hin := (hm'.holds k _).2 hwaits.1
    rw [hheap, List.mem_cons] at hin
    rcases hin with heq | hold
    · exact (signed_eq_iff (by decide)).1 (congrArg Prod.fst heq).symm
    · -- the task that has just run is in no heap
      have hrun : (s.thread k).Has t .running := by
        show (s.thread k).entry.task = some t
        rw [he]
        rfl
      have htimer : (s.thread k).Has t .heap := List.mem_map.2 ⟨_, hold, rfl⟩
      cases hp.only hrun (p := .thread k .heap) htimer
  · intro hfits bs
    refine timed_of_waiting (s := s.finish k t theTimeout now) ⟨hm', hp.finish he now⟩ ⟨?_, ?_⟩
    · rw [hheap, signed_eq (by decide) hfits]
      exact List.mem_cons_self
    · rw [Scheduler.finish, if_neg (by omega), if_neg (by omega)]
      exact Or.inl (by simp [Scheduler.setThread])

/-- **Timers**: in every run, a task whose `Run` returns a timeout waits for its deadline and then runs on the same
thread with `kIdleEvent`, exactly when the sum of the clock and the timeout is an `SInt64` value; and a pass that finds a
timer due takes a least one and leaves the queue alone. -/
theorem timers_iff {as : List (HeapAct τ σ)} (hr : run step new as = some c) (k : Nat) (now : Int) (hnow : HasWidth 64 now) :
    (∀ t theTimeout c₁, (c.rest.thread k).entry = .ret t theTimeout → 0 < theTimeout → HasWidth 64 theTimeout →
      c.step (.finish k now) = some c₁ →
      ((∀ bs, c₁.Timed k (now + theTimeout) t bs) ↔ now + theTimeout ≤ 9223372036854775807)) ∧
    (k < c.rest.sNumTaskThreads → (c.rest.thread k).entry = .wait → (∃ x, (c.fHeap k).Holds x ∧ x.1 ≤ now) →
      ∃ x c₁, (c.fHeap k).Holds x ∧ (∀ y, (c.fHeap k).Holds y → x.1 ≤ y.1) ∧ c.step (.pass k now) = some c₁ ∧
        (c₁.rest.thread k).entry = .begin x.2 ∧
        (c₁.rest.thread k).fTaskQueue = (c.rest.thread k).fTaskQueue) := by
  obtain ⟨s, hm, hp⟩ := sound_run hr
  refine ⟨fun t theTimeout c₁ he hpos htimeout hs => ?_, fun hk hw hdue => ?_⟩
  · simp only [step, he] at hs
    cases hs
    rw [timed_finish ⟨hm, hp⟩ ((hm.entry k).symm.trans he) hpos]
    simp only [HasWidth] at hnow htimeout ⊢
    omega
  · obtain ⟨y, hy, hynow⟩ := hdue
    cases hx : (c.fHeap k).peekMin with
    | none => exact absurd hy ((hm.valid k).peekMin_none hx)
    | some x =>
      obtain ⟨-, -, hin, hleast⟩ := (hm.ordered k).peekMin hx
      have hnow := (hleast y hy).trans hynow
      have hex := ((hm.ordered k).extractMin (hm.valid k) hx).1
      refine ⟨x, { rest := c.rest.goto k (.begin x.2), fHeap := Function.update c.fHeap k (c.fHeap k).extractMin.1 },
        hin, hleast, ?_, ?_, ?_⟩
      · rw [step, if_pos ⟨hk, hw⟩, pass, hx]
        simp only [if_pos hnow, timer, hex, Option.map_some]
      · simp [Scheduler.goto, Scheduler.setThread]
      · simp [Scheduler.goto, Scheduler.setThread]

/-- Up to the return of the first call of `Run` of the only task. -/
def firstRet (theTimeout : Int) : List (HeapAct Unit Unit) :=
  [.other (.addThreads 1), .other (.newTask ()), .other (.signal () () Task.kStartEvent), .other (.route ()),
    .other (.enqueue ()), .pass 0 99, .other (.dequeue 0), .other (.begin 0), .other (.ret 0 theTimeout)]

/-- A task that returns 5 at the clock value 100, and the pass at 110 that takes it out of the heap. -/
theorem timers_iff_one_task : ∃ c c₁ c₂ : HeapScheduler Unit Unit, run step new (firstRet 5) = some c ∧
    c.step (.finish 0 100) = some c₁ ∧ (∀ bs, c₁.Timed 0 105 () bs) ∧ c₁.step (.other (.orIdle 0)) = some c₂ ∧
    ∃ x c₃, c₂.step (.pass 0 110) = some c₃ ∧ (c₂.fHeap 0).Holds x ∧ (c₃.rest.thread 0).entry = .begin x.2 := by
  have hrun : run step (new : HeapScheduler Unit Unit) (firstRet 5) = some _ := rfl
  have hrun₂ := run_trans hrun (show run step _ [.finish 0 100, .other (.orIdle 0)] = some _ from rfl)
  have hdue := (timers_iff hrun₂ 0 110 (by decide)).2 (by decide) rfl ⟨(105, ()), ⟨1, by decide, rfl⟩, by decide⟩
  obtain ⟨x, c₃, hx, -, hs, he, -⟩ := hdue
  have htimed := ((timers_iff hrun 0 100 (by decide)).1 () 5 _ rfl (by decide) (by decide) rfl).2 (by decide)
  exact ⟨_, _, _, hrun, rfl, htimed, rfl, x, c₃, hs, hx, he⟩

/-- A task that returns the largest timeout at the clock value 100 runs again in the next pass, at the same clock value. -/
theorem timer_wraps : ∃ c c₁ c₂ c₃ : HeapScheduler Unit Unit, run step new (firstRet 9223372036854775807) = some c ∧
    c.step (.finish 0 100) = some c₁ ∧ ¬ (∀ bs, c₁.Timed 0 (100 + 9223372036854775807) () bs) ∧
    c₁.step (.other (.orIdle 0)) = some c₂ ∧ c₂.step (.pass 0 100) = some c₃ ∧ (c₃.rest.thread 0).entry = .begin () := by
  have hrun : run step (new : HeapScheduler Unit Unit) (firstRet 9223372036854775807) = some _ := rfl
  obtain ⟨s, hs⟩ := sound_run hrun
  refine ⟨_, _, _, _, hrun, rfl, fun htimed => ?_, rfl, rfl, rfl⟩
  have hsum := (timed_finish hs ((hs.1.entry 0).symm.trans rfl) (by decide)).1 htimed
  exact absurd hsum (by decide)

end HeapScheduler

end ToolLib.Common
