import ToolLib.Base.Mask
import ToolLib.Base.Tokens
import ToolLib.Common.Task

/-!
# One place for every task

No lock protects a task. What keeps two threads from running it at once is the alive bit: the `atomic_or` that finds it
clear takes the task over, and the task is then passed from the signalling thread to a queue, to a task thread and to
its heap, until `compare_and_store` clears the bit or the task is deleted. `Placed` is this invariant: a task is in one
place at most, and only while it is alive.

`GetEvents` must not lose the alive bit when it subtracts what it has read some steps before. It does not, as the mask
has only grown since then: the one thread that could take bits away is the one that executes the task. So the snapshots
of the mask are part of the invariant.
-/

namespace ToolLib.Common

open ToolLib.Base

variable {τ σ : Type*}

/-- The three parts of a task thread. -/
inductive Part
  | queue
  | heap
  | running
  deriving DecidableEq

/-- The places where a task can be. -/
inductive Spots (σ : Type*)
  | signaller (a : σ)
  | thread (k : Nat) (c : Part)

/-- The tasks in a part of a task thread. -/
def TaskThread.Has (th : TaskThread τ) (t : τ) : Part → Prop
  | .queue => t ∈ th.fTaskQueue
  | .heap => t ∈ th.fHeap.map Prod.snd
  | .running => th.entry.task = some t

/-- What holds of a task thread by itself: every task is in its queue once and in its heap once, and a task that is
about to be given `kIdleEvent` is in the heap. -/
structure TaskThread.Tidy (th : TaskThread τ) : Prop where
  queued : th.fTaskQueue.Nodup
  timed : (th.fHeap.map Prod.snd).Nodup
  idle : ∀ t, th.entry = .idle t → th.Has t .heap

/-- What `GetEvents` has read can be taken away from the mask, without the alive bit. -/
def Task.Snapshot (x : Task) (events : EventFlags) : Prop := Submask events x.fEvents ∧ events.getLsbD 31 = false

/-! ## The bits -/

theorem kAlive_bit (i : Nat) : Task.kAlive.getLsbD i = decide (i = 31) := by
  by_cases hi : i < 32
  · have hall : ∀ j : Fin 32, Task.kAlive.getLsbD j = decide ((j : Nat) = 31) := by decide
    exact hall ⟨i, hi⟩
  · rw [BitVec.getLsbD_of_ge _ _ (by omega)]
    have hne : i ≠ 31 := by omega
    rw [decide_eq_false hne]

theorem kAliveOff_eq : Task.kAliveOff = ~~~Task.kAlive := by decide

/-- The test of `Signal`. -/
theorem and_kAlive_eq_zero {x : EventFlags} : x &&& Task.kAlive = 0 ↔ x.getLsbD 31 = false := by
  constructor
  · intro h
    have hbit : (x &&& Task.kAlive).getLsbD 31 = false := by rw [h]; rfl
    rw [BitVec.getLsbD_and, kAlive_bit] at hbit
    rwa [decide_eq_true rfl, Bool.and_true] at hbit
  · intro h
    apply BitVec.eq_of_getLsbD_eq
    intro i _
    rw [BitVec.getLsbD_and, kAlive_bit]
    by_cases hi : i = 31
    · rw [hi, h, Bool.false_and]; rfl
    · rw [decide_eq_false hi, Bool.and_false, BitVec.ofNat_eq_ofNat, BitVec.getLsbD_zero]

/-- The reading of `GetEvents`. -/
theorem Task.snapshot_currentEvents (x : Task) : x.Snapshot x.currentEvents := by
  refine ⟨submask_and_left _ _, ?_⟩
  rw [Task.currentEvents, kAliveOff_eq, getLsbD_and_not, kAlive_bit, decide_eq_true rfl, Bool.not_true, Bool.and_false]

/-- The subtraction of `GetEvents` clears the bits that it has read, and no others. -/
theorem Task.Snapshot.subEvents {x : Task} {events : EventFlags} (h : x.Snapshot events) :
    (x.subEvents events).fEvents = x.fEvents &&& ~~~events := by
  have hsub : x.fEvents + -events = x.fEvents - events := (BitVec.sub_eq_add_neg _ _).symm
  exact hsub.trans h.1.sub_eq

/-- The mask grows. -/
theorem Task.Snapshot.grow {x y : Task} {events : EventFlags} (h : x.Snapshot events)
    (hxy : Submask x.fEvents y.fEvents) : y.Snapshot events :=
  ⟨h.1.trans hxy, h.2⟩

/-! ## The invariant -/

namespace Scheduler

/-- The task is in a place. -/
def At (s : Scheduler τ σ) (t : τ) : Spots σ → Prop
  | .signaller a => ∃ g, s.sig a = some g ∧ g.task = t
  | .thread k c => (s.thread k).Has t c

/-- The task exists and its alive bit is set. -/
def Alive (s : Scheduler τ σ) (t : τ) : Prop := s.life t = .live ∧ (s.task t).fEvents.getLsbD 31 = true

/-- **One place.** Whoever has the task at all is the only one: the threads that signal it, the queues and the heaps of
the task threads, and the threads that execute it. -/
structure Placed (s : Scheduler τ σ) : Prop where
  single : Single s.At
  alive : ∀ t p, s.At t p → s.Alive t
  tidy : ∀ k, (s.thread k).Tidy
  snapshot : ∀ k t l events, (s.thread k).entry = .run t l (some events) → (s.task t).Snapshot events

variable {s s' : Scheduler τ σ} {t : τ} {k : Nat} {a : σ} {th : TaskThread τ}

theorem not_at_new {p : Spots σ} : ¬ (new : Scheduler τ σ).At t p := by
  intro hp
  cases p with
  | signaller a => obtain ⟨g, hg, -⟩ := hp; cases hg
  | thread k c =>
    cases c with
    | queue => exact absurd hp List.not_mem_nil
    | heap => exact absurd hp List.not_mem_nil
    | running => cases hp

theorem placed_new : Placed (new : Scheduler τ σ) where
  single _ _ _ hp _ := absurd hp not_at_new
  alive _ _ hp := absurd hp not_at_new
  tidy _ := ⟨List.nodup_nil, List.nodup_nil, fun _ h => by cases h⟩
  snapshot _ _ _ _ h := by cases h

/-! ## Changes of one component -/

/-- The task has no place: it is not executed either. -/
theorem not_run_of_not_at {l : Bool} {ev : Option EventFlags} (hno : ∀ p, ¬ s.At t p) :
    (s.thread k).entry ≠ .run t l ev := by
  intro he
  refine hno (.thread k .running) ?_
  show (s.thread k).entry.task = some t
  rw [he]; rfl

/-- The mask of a task changes. -/
theorem Placed.setTask [DecidableEq τ] (h : Placed s) {x : Task} (hbit : ∀ p, s.At t p → x.fEvents.getLsbD 31 = true)
    (hev : ∀ k l ev, (s.thread k).entry = .run t l (some ev) → x.Snapshot ev) : Placed (s.setTask t x) := by
  refine ⟨h.single, fun u p hp => ?_, h.tidy, fun k u l ev he => ?_⟩
  · obtain ⟨hlive, hu⟩ := h.alive u p hp
    refine ⟨hlive, ?_⟩
    by_cases hut : u = t
    · subst hut
      rw [setTask_task]
      exact hbit p hp
    · rw [setTask_task_ne hut]
      exact hu
  · by_cases hut : u = t
    · subst hut
      rw [setTask_task]
      exact hev k l ev he
    · rw [setTask_task_ne hut]
      exact h.snapshot k u l ev he

/-- The mask of a task loses none of its bits. -/
theorem Placed.growTask [DecidableEq τ] (h : Placed s) {x : Task} (hx : Submask (s.task t).fEvents x.fEvents) :
    Placed (s.setTask t x) :=
  h.setTask (fun p hp => hx 31 (h.alive t p hp).2) fun k l ev he => (h.snapshot k t l ev he).grow hx

/-- A task without a place is created, or has been deleted. -/
theorem Placed.setLife [DecidableEq τ] (h : Placed s) (hno : ∀ p, ¬ s.At t p) {l : Life} :
    Placed { s with life := Function.update s.life t l } := by
  refine ⟨h.single, fun u p hp => ?_, h.tidy, h.snapshot⟩
  have hut : u ≠ t := by
    rintro rfl
    exact hno p hp
  obtain ⟨hlive, hu⟩ := h.alive u p hp
  exact ⟨by simpa [Function.update_of_ne hut] using hlive, hu⟩

/-- A thread goes on with its `Signal`, or leaves it. If it has a task now it has taken it over. -/
theorem Placed.setSig [DecidableEq σ] (h : Placed s) {g : Option (Signalling τ)}
    (hg : ∀ x, g = some x → s.Alive x.task ∧ ∀ p, s.At x.task p → p = .signaller a) : Placed (s.setSig a g) := by
  have hat : ∀ t p, (s.setSig a g).At t p → s.At t p ∨ p = .signaller a ∧ ∃ x, g = some x ∧ x.task = t := by
    intro t p hp
    cases p with
    | thread k c => exact Or.inl hp
    | signaller b =>
      by_cases hb : b = a
      · subst hb
        exact Or.inr ⟨rfl, by simpa [At, Scheduler.setSig] using hp⟩
      · exact Or.inl (by simpa [At, Scheduler.setSig, Function.update_of_ne hb] using hp)
  refine ⟨fun t p q hp hq => ?_, fun t p hp => ?_, h.tidy, h.snapshot⟩
  · rcases hat t p hp with hp' | ⟨hp', x, hx, rfl⟩
    · rcases hat t q hq with hq' | ⟨hq', x, hx, rfl⟩
      · exact h.single t p q hp' hq'
      · rw [(hg x hx).2 p hp', hq']
    · rcases hat x.task q hq with hq' | ⟨hq', -⟩
      · rw [hp', (hg x hx).2 q hq']
      · rw [hp', hq']
  · rcases hat t p hp with hp' | ⟨-, x, hx, rfl⟩
    · exact h.alive t p hp'
    · exact (hg x hx).1

/-- In a changed thread, or where it was. -/
theorem at_setThread {j : Nat} {c : Part} (h : (s.setThread k th).At t (.thread j c)) :
    j = k ∧ th.Has t c ∨ j ≠ k ∧ s.At t (.thread j c) := by
  by_cases hj : j = k
  · subst hj
    exact Or.inl ⟨rfl, by simpa [At, Scheduler.setThread] using h⟩
  · exact Or.inr ⟨hj, by simpa [At, Scheduler.setThread, Function.update_of_ne hj] using h⟩

/-- A thread changes. It may get the task `t`, in the part `c`, which is alive and in no other place. -/
theorem Placed.setThread (h : Placed s) {c : Part} (hfree : ∀ p, s.At t p → ∃ d, p = .thread k d) (hlive : s.Alive t)
    (hother : ∀ u d, u ≠ t → th.Has u d → (s.thread k).Has u d) (hone : ∀ d, th.Has t d → d = c)
    (htidy : th.Tidy) (hev : ∀ u l ev, th.entry = .run u l (some ev) → (s.task u).Snapshot ev) :
    Placed (s.setThread k th) := by
  have hothers : ∀ u p, u ≠ t → (s.setThread k th).At u p → s.At u p := by
    intro u p hu hp
    cases p with
    | signaller a => exact hp
    | thread j d =>
      rcases at_setThread hp with ⟨hj, hp'⟩ | ⟨-, hp'⟩
      · rw [hj]
        exact hother u d hu hp'
      · exact hp'
  refine ⟨h.single.move (t := t) (p := .thread k c) hothers fun p hp => ?_, fun u p hp => ?_, fun j => ?_,
    fun j u l ev he => ?_⟩
  · cases p with
    | signaller a =>
      obtain ⟨d, hd⟩ := hfree (.signaller a) hp
      cases hd
    | thread j d =>
      rcases at_setThread hp with ⟨hj, hp'⟩ | ⟨hj, hp'⟩
      · rw [hj, hone d hp']
      · obtain ⟨d', hd⟩ := hfree (.thread j d) hp'
        cases hd
        exact absurd rfl hj
  · by_cases hu : u = t
    · rw [hu]; exact hlive
    · exact h.alive u p (hothers u p hu hp)
  · by_cases hj : j = k
    · subst hj; simpa [Scheduler.setThread] using htidy
    · simpa [Scheduler.setThread, Function.update_of_ne hj] using h.tidy j
  · by_cases hj : j = k
    · subst hj
      exact hev u l ev (by simpa [Scheduler.setThread] using he)
    · exact h.snapshot j u l ev (by simpa [Scheduler.setThread, Function.update_of_ne hj] using he)

/-- A thread goes on without a new task. -/
theorem Placed.goto (h : Placed s) {e : Entry τ} (htask : ∀ t, e.task = some t → (s.thread k).entry.task = some t)
    (hidle : ∀ t, e = .idle t → (s.thread k).Has t .heap)
    (hev : ∀ t l ev, e = .run t l (some ev) → (s.task t).Snapshot ev) : Placed (s.goto k e) := by
  have hat : ∀ t p, (s.goto k e).At t p → s.At t p := by
    intro t p hp
    cases p with
    | signaller a => exact hp
    | thread j c =>
      rcases at_setThread hp with ⟨hj, hp'⟩ | ⟨-, hp'⟩
      · subst hj
        cases c with
        | queue => exact hp'
        | heap => exact hp'
        | running => exact htask t hp'
      · exact hp'
  refine ⟨h.single.sub hat, fun t p hp => h.alive t p (hat t p hp), fun j => ?_, fun j t l ev he => ?_⟩
  · by_cases hj : j = k
    · subst hj
      simpa [Scheduler.goto, Scheduler.setThread] using
        (⟨(h.tidy j).queued, (h.tidy j).timed, hidle⟩ : TaskThread.Tidy { s.thread j with entry := e })
    · simpa [Scheduler.goto, Scheduler.setThread, Function.update_of_ne hj] using h.tidy j
  · by_cases hj : j = k
    · subst hj
      exact hev t l ev (by simpa [Scheduler.goto, Scheduler.setThread] using he)
    · exact h.snapshot j t l ev (by simpa [Scheduler.goto, Scheduler.setThread, Function.update_of_ne hj] using he)

/-- A thread goes on without a task. -/
theorem Placed.rest (h : Placed s) {e : Entry τ} (htask : e.task = none) (hidle : ∀ t, e ≠ .idle t) :
    Placed (s.goto k e) :=
  h.goto (fun t ht => by rw [htask] at ht; cases ht) (fun t ht => absurd ht (hidle t))
    fun t l ev ht => by rw [ht] at htask; cases htask

/-- A thread goes on with its task. -/
theorem Placed.stay (h : Placed s) {e : Entry τ} (hrun : (s.thread k).entry.task = some t) (htask : e.task = some t)
    (hev : ∀ l ev, e = .run t l (some ev) → (s.task t).Snapshot ev) : Placed (s.goto k e) := by
  refine h.goto (fun u hu => ?_) (fun u hu => ?_) fun u l ev hu => ?_
  · rw [hrun, ← htask, hu]
  · rw [hu] at htask; cases htask
  · have hut : u = t := by rw [hu] at htask; exact Option.some.inj htask
    subst hut
    exact hev l ev hu

/-! ## The steps -/

/-- The `atomic_or` of `Signal`: a task whose alive bit was clear had no place. -/
theorem Placed.signal [DecidableEq τ] [DecidableEq σ] (h : Placed s) (hlive : s.life t = .live) (events : EventFlags) :
    Placed (s.signal a t events) := by
  have h₁ : Placed (s.setTask t { s.task t with fEvents := (s.task t).fEvents ||| (events ||| Task.kAlive) }) :=
    h.growTask (submask_or_left _ _)
  have h₂ := h₁.setSig (a := a) (g := if (s.task t).fEvents &&& Task.kAlive = 0 then some (.route t) else none) ?_
  · exact ⟨h₂.single, h₂.alive, h₂.tidy, h₂.snapshot⟩
  intro x hx
  split at hx
  next hold =>
    cases hx
    refine ⟨⟨hlive, ?_⟩, fun p hp => ?_⟩
    · rw [Signalling.task, setTask_task]
      exact submask_or_right _ _ 31 (submask_or_right _ _ 31 rfl)
    · have hbit := (h.alive t p hp).2
      rw [and_kAlive_eq_zero.1 hold] at hbit
      cases hbit
  next => cases hx

/-- The signalling thread has the task. -/
theorem at_signaller {g : Signalling τ} (h : s.sig a = some g) : s.At g.task (.signaller a) := ⟨g, h, rfl⟩

theorem Placed.route [DecidableEq σ] (h : Placed s) (hs : s.sig a = some (.route t)) : Placed (s.route a t) := by
  have hkeep : ∀ k, Placed (s.setSig a (some (.enqueue t k))) := fun k => h.setSig fun x hx => by
    cases hx
    exact ⟨h.alive t _ (at_signaller hs), fun p hp => h.single t _ _ hp (at_signaller hs)⟩
  unfold Scheduler.route
  split
  · split
    · exact hkeep _
    · have h' := hkeep ((atomicAdd s.sThreadPicker 1).toNat % s.sNumTaskThreads)
      exact ⟨h'.single, h'.alive, h'.tidy, h'.snapshot⟩
  · exact h.setSig fun x hx => by cases hx

/-- What the signalling thread has is nowhere else. -/
theorem Placed.not_at_drop [DecidableEq σ] (h : Placed s) {g : Signalling τ} (hs : s.sig a = some g) (p : Spots σ) :
    ¬ (s.setSig a none).At g.task p := by
  intro hp
  cases p with
  | thread k c =>
    have hp' : s.At g.task (.thread k c) := hp
    cases h.single g.task _ _ (at_signaller hs) hp'
  | signaller b =>
    by_cases hb : b = a
    · subst hb
      obtain ⟨x, hx, -⟩ := hp
      simp [Scheduler.setSig] at hx
    · have hp' : s.At g.task (.signaller b) := by simpa [At, Scheduler.setSig, Function.update_of_ne hb] using hp
      cases h.single g.task _ _ (at_signaller hs) hp'
      exact hb rfl

theorem Placed.enqueue [DecidableEq τ] [DecidableEq σ] (h : Placed s) (hs : s.sig a = some (.enqueue t k)) :
    Placed (s.enqueue a t k) := by
  have hno := h.not_at_drop hs
  have hdrop : Placed (s.setSig a none) := h.setSig fun x hx => by cases hx
  have hq : t ∉ (s.thread k).fTaskQueue := hno (.thread k .queue)
  show Placed ((s.setSig a none).setThread k { s.thread k with fTaskQueue := enQueue (s.thread k).fTaskQueue t })
  rw [enQueue, if_neg hq]
  refine hdrop.setThread (t := t) (c := .queue) (fun p hp => absurd hp (hno p)) (h.alive t _ (at_signaller hs))
    ?_ ?_ ?_ fun u l ev he => h.snapshot k u l ev he
  · intro u c hu hc
    cases c with
    | queue => exact (List.mem_append.1 hc).resolve_right fun h => hu (List.mem_singleton.1 h)
    | heap => exact hc
    | running => exact hc
  · intro c hc
    cases c with
    | queue => rfl
    | heap => exact absurd hc (hno (.thread k .heap))
    | running => exact absurd hc (hno (.thread k .running))
  · refine ⟨?_, (h.tidy k).timed, (h.tidy k).idle⟩
    have hone : [t].Nodup := List.nodup_cons.2 ⟨List.not_mem_nil, List.nodup_nil⟩
    refine List.nodup_append.2 ⟨(h.tidy k).queued, hone, fun u hu v hv he => ?_⟩
    rw [he, List.mem_singleton.1 hv] at hu
    exact hq hu

/-- What a part of a thread has is in no other place. -/
theorem Placed.only (h : Placed s) {c : Part} (hin : (s.thread k).Has t c) {p : Spots σ} (hp : s.At t p) :
    p = .thread k c :=
  h.single t p (.thread k c) hp hin

/-- A timer is due: the task goes from the heap to the thread. -/
theorem Placed.timer [DecidableEq τ] (h : Placed s) {d : Int} (hin : (d, t) ∈ (s.thread k).fHeap) :
    Placed (s.setThread k { s.thread k with fHeap := (s.thread k).fHeap.erase (d, t), entry := .begin t }) := by
  have hhas : (s.thread k).Has t .heap := List.mem_map.2 ⟨(d, t), hin, rfl⟩
  have hsub : ((s.thread k).fHeap.erase (d, t)).Sublist (s.thread k).fHeap := List.erase_sublist
  have hgone : t ∉ ((s.thread k).fHeap.erase (d, t)).map Prod.snd := by
    have hperm := (List.perm_cons_erase hin).map Prod.snd
    exact (List.nodup_cons.1 (hperm.nodup_iff.1 (h.tidy k).timed)).1
  refine h.setThread (t := t) (c := .running) (fun p hp => ⟨_, h.only hhas hp⟩) (h.alive t (.thread k .heap) hhas)
    ?_ ?_ ?_ fun u l ev he => by cases he
  · intro u c hu hc
    cases c with
    | queue => exact hc
    | heap => exact (hsub.map _).subset hc
    | running => exact absurd (Option.some.inj hc).symm hu
  · intro c hc
    cases c with
    | queue => cases h.only hhas (p := .thread k .queue) hc
    | heap => exact absurd hc hgone
    | running => rfl
  · exact ⟨(h.tidy k).queued, (h.tidy k).timed.sublist (hsub.map _), fun u he => by cases he⟩

/-- `DeQueue`: the task goes from the queue to the thread. -/
theorem Placed.dequeue (h : Placed s) {q : List τ} (hq : (s.thread k).fTaskQueue = t :: q) :
    Placed (s.setThread k { s.thread k with fTaskQueue := q, entry := .begin t }) := by
  have hhas : (s.thread k).Has t .queue := by
    show t ∈ (s.thread k).fTaskQueue
    rw [hq]
    exact List.mem_cons_self
  have hnd := (h.tidy k).queued
  rw [hq, List.nodup_cons] at hnd
  refine h.setThread (t := t) (c := .running) (fun p hp => ⟨_, h.only hhas hp⟩) (h.alive t (.thread k .queue) hhas)
    ?_ ?_ ?_ fun u l ev he => by cases he
  · intro u c hu hc
    cases c with
    | queue =>
      show u ∈ (s.thread k).fTaskQueue
      rw [hq]
      exact List.mem_cons_of_mem _ hc
    | heap => exact hc
    | running => exact absurd (Option.some.inj hc).symm hu
  · intro c hc
    cases c with
    | queue => exact absurd hc hnd.1
    | heap => cases h.only hhas (p := .thread k .heap) hc
    | running => rfl
  · exact ⟨hnd.2, (h.tidy k).timed, fun u he => by cases he⟩

/-- One thread at most executes a task. -/
theorem Placed.run_once (h : Placed s) {j : Nat} (hk : (s.thread k).entry.task = some t)
    (hj : (s.thread j).entry.task = some t) : j = k := by
  have hp : s.At t (.thread j .running) := hj
  cases h.only (c := .running) hk hp
  rfl

/-- The subtraction of `GetEvents`: nobody else has read the mask of this task, and the alive bit stays. -/
theorem Placed.subEvents [DecidableEq τ] (h : Placed s) {l : Bool} {events : EventFlags}
    (he : (s.thread k).entry = .run t l (some events)) : Placed (s.subEvents k t l events) := by
  have hrun : (s.thread k).entry.task = some t := by rw [he]; rfl
  have hsnap := h.snapshot k t l events he
  have h₁ : Placed (s.goto k (.run t l none)) := h.stay hrun rfl nofun
  have h₂ : Placed ((s.goto k (.run t l none)).setTask t ((s.task t).subEvents events)) := by
    refine h₁.setTask (fun p _ => ?_) fun j l' ev hj => ?_
    · rw [hsnap.subEvents, getLsbD_and_not, hsnap.2, (h.alive t (.thread k .running) hrun).2]; rfl
    · by_cases hjk : j = k
      · subst hjk
        simp [Scheduler.goto, Scheduler.setThread] at hj
      · simp only [Scheduler.goto, Scheduler.setThread, Function.update_of_ne hjk] at hj
        exact absurd (h.run_once hrun (by rw [hj]; rfl)) hjk
  exact ⟨h₂.single, h₂.alive, h₂.tidy, h₂.snapshot⟩

/-- The thread leaves its task, which has no place then. -/
theorem Placed.leave (h : Placed s) (hrun : (s.thread k).entry.task = some t) :
    Placed (s.goto k .wait) ∧ ∀ p, ¬ (s.goto k .wait).At t p := by
  refine ⟨h.rest rfl nofun, fun p hp => ?_⟩
  cases p with
  | signaller a =>
    have hp' : s.At t (.signaller a) := hp
    cases h.only (c := .running) hrun hp'
  | thread j c =>
    rcases at_setThread hp with ⟨hj, hp'⟩ | ⟨hj, hp'⟩
    · subst hj
      cases c with
      | queue => cases h.only (c := .running) hrun (p := .thread j .queue) hp'
      | heap => cases h.only (c := .running) hrun (p := .thread j .heap) hp'
      | running => cases hp'
    · cases h.only (c := .running) hrun hp'
      exact hj rfl

/-- The task goes from the thread to its heap. -/
theorem Placed.insert (h : Placed s) (hrun : (s.thread k).entry.task = some t) (d : Int) :
    Placed (s.setThread k { s.thread k with fHeap := (d, t) :: (s.thread k).fHeap, entry := .idle t }) := by
  have hout : ∀ c, (s.thread k).Has t c → c = .running := by
    intro c hc
    cases h.only (c := .running) hrun (p := .thread k c) hc
    rfl
  refine h.setThread (t := t) (c := .heap) (fun p hp => ⟨_, h.only (c := .running) hrun hp⟩)
    (h.alive t (.thread k .running) hrun) ?_ ?_ ?_ fun u l ev he => by cases he
  · intro u c hu hc
    cases c with
    | queue => exact hc
    | heap => exact (List.mem_cons.1 hc).resolve_left hu
    | running => cases hc
  · intro c hc
    cases c with
    | queue => cases hout .queue hc
    | heap => rfl
    | running => cases hc
  · refine ⟨(h.tidy k).queued, List.nodup_cons.2 ⟨fun hc => ?_, (h.tidy k).timed⟩, fun u he => ?_⟩
    · cases hout .heap hc
    · cases he
      exact List.mem_cons_self

/-- `Run` has returned. The alive bit is cleared only when no event has come in, and the thread leaves the task then. -/
theorem Placed.finish [DecidableEq τ] (h : Placed s) {theTimeout : Int} (he : (s.thread k).entry = .ret t theTimeout)
    (now : Int) : Placed (s.finish k t theTimeout now) := by
  have hrun : (s.thread k).entry.task = some t := by rw [he]; rfl
  obtain ⟨hleft, hno⟩ := h.leave hrun
  unfold Scheduler.finish
  split
  · exact hleft.setLife hno
  split
  · by_cases hev : Task.kAlive = (s.task t).fEvents
    · simp only [compareAndStore, if_pos hev, if_true]
      show Placed ((s.goto k .wait).setTask t { s.task t with fEvents := 0 })
      exact hleft.setTask (fun p hp => absurd hp (hno p)) fun j l ev hj => absurd hj (not_run_of_not_at hno)
    · simp only [compareAndStore, if_neg hev, Bool.false_eq_true, if_false]
      have h₁ : Placed (s.setTask t { s.task t with fEvents := (s.task t).fEvents }) := h.growTask (Submask.refl _)
      exact h₁.stay hrun rfl nofun
  · exact h.insert hrun _

theorem Placed.orIdle [DecidableEq τ] (h : Placed s) : Placed (s.orIdle k t) := by
  have h₁ : Placed (s.setTask t { s.task t with fEvents := (s.task t).fEvents ||| Task.kIdleEvent }) :=
    h.growTask (submask_or_left _ _)
  have h₂ := h₁.rest (k := k) (e := .wait) rfl nofun
  exact ⟨h₂.single, h₂.alive, h₂.tidy, h₂.snapshot⟩

/-- What a task does in `Run` with its fields, apart from its events. -/
theorem Placed.setFields [DecidableEq τ] (h : Placed s) (f : Option Nat) (w : Bool) :
    Placed (s.setTask t { s.task t with fUseThisThread := f, fWriteLock := w }) :=
  h.growTask (Submask.refl _)

/-- **Every step keeps the invariant.** -/
theorem placed_step [DecidableEq τ] [DecidableEq σ] (h : Placed s) (hs : Step s s') : Placed s' := by
  cases hs with
  | newTask t hunborn =>
    have hno : ∀ p, ¬ s.At t p := by
      intro p hp
      have hlive := (h.alive t p hp).1
      rw [hunborn] at hlive
      cases hlive
    have h₁ : Placed (s.setTask t Task.new) := h.setTask (fun p hp => absurd hp (hno p)) fun j l ev hj =>
      absurd hj (not_run_of_not_at hno)
    exact h₁.setLife hno
  | addThreads n _ => exact ⟨h.single, h.alive, h.tidy, h.snapshot⟩
  | signal a t e _ hlive => exact h.signal hlive e
  | route a t hsig => exact h.route hsig
  | enqueue a t k hsig => exact h.enqueue hsig
  | timer k d t _ hin _ => exact h.timer hin
  | dequeue k t q _ hq => exact h.dequeue hq
  | rest k e _ he hidle => exact h.rest he hidle
  | own k t f w e hrun he hev =>
    refine (h.setFields f w).stay hrun he fun l ev hu => ?_
    rw [hev l ev hu, setTask_task]
    exact Task.snapshot_currentEvents _
  | subEvents k t l ev he => exact h.subEvents he
  | finish k t theTimeout now he => exact h.finish he now
  | orIdle k t he => exact h.orIdle

/-! ## Single placement -/

/-- What is said of every reachable state: a task is in one place at most, in a queue and in a heap only once; two
threads never run it; and while it runs or waits for its timer it is in no queue. -/
structure OnePlace (s : Scheduler τ σ) : Prop where
  single : Single s.At
  queued : ∀ k, (s.thread k).fTaskQueue.Nodup
  timed : ∀ k, ((s.thread k).fHeap.map Prod.snd).Nodup
  run_once : ∀ t j k, (s.thread j).entry.task = some t → (s.thread k).entry.task = some t → j = k
  not_queued : ∀ t j k, (s.thread j).entry.task = some t ∨ t ∈ (s.thread j).fHeap.map Prod.snd →
    t ∉ (s.thread k).fTaskQueue

theorem Placed.onePlace (h : Placed s) : OnePlace s where
  single := h.single
  queued k := (h.tidy k).queued
  timed k := (h.tidy k).timed
  run_once t j k hj hk := h.run_once hk hj
  not_queued t j k hj hq := by
    rcases hj with hj | hj
    · cases h.only (c := .running) hj (p := .thread k .queue) hq
    · cases h.only (c := .heap) hj (p := .thread k .queue) hq

/-- **Single placement**: in every state of every run, whatever signals come in and whatever `Run` returns. -/
theorem single_placement [DecidableEq τ] [DecidableEq σ] (as : List (Act τ σ)) :
    Always step OnePlace (new : Scheduler τ σ) as := by
  have hkeep : ∀ (s : Scheduler τ σ) a s', Placed s → True → s.step a = some s' → Placed s' :=
    fun _ _ _ h _ hs => placed_step h (step_cases hs)
  exact always_of_along (C := fun _ _ => True) hkeep (fun _ h => h.onePlace) placed_new
    (along_of_forall fun _ _ => trivial)

end Scheduler

end ToolLib.Common
