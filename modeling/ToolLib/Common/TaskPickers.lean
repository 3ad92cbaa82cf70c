import Mathlib.Data.List.Permutation
import ToolLib.Common.TaskPlacement

/-!
# Two classes of task threads

`Task::Signal` and `TaskThreadPool` of CommonUtilitiesLib-linux-windows: the first `sNumShortTaskThreads` threads are for
short tasks, the others for those that may block, and a task goes to a class by its picker. `PicksWell` says that a task on
this picker finds a thread, and one of its class.

`TCPListenerSocket` puts its tasks on the blocking picker whatever the numbers are. When there is no blocking thread, that
is a division by zero; when there is no short one, `AddThreads` takes all threads for short ones, and the index is one of
a thread that does not exist (`picksWell_iff`).
-/

namespace ToolLib.Common.Pickers

open ToolLib.Base

/-! ## TaskThreadPool -/

structure TaskThreadPool where
  sNumTaskThreads : BitVec 32
  sNumShortTaskThreads : BitVec 32
  sNumBlockingTaskThreads : BitVec 32
  deriving DecidableEq

/-- A call that configures the pool. -/
inductive PoolCall
  | setNumShortTaskThreads (numToAdd : BitVec 32)
  | setNumBlockingTaskThreads (numToAdd : BitVec 32)
  | addThreads (numToAdd : BitVec 32)
  deriving DecidableEq

namespace TaskThreadPool

def new : TaskThreadPool := ⟨0, 0, 0⟩

def addThreads (p : TaskThreadPool) (numToAdd : BitVec 32) : TaskThreadPool :=
  { p with
    sNumTaskThreads := numToAdd
    sNumShortTaskThreads := if 0 = p.sNumShortTaskThreads then numToAdd else p.sNumShortTaskThreads }

def call (p : TaskThreadPool) : PoolCall → TaskThreadPool
  | .setNumShortTaskThreads numToAdd => { p with sNumShortTaskThreads := numToAdd }
  | .setNumBlockingTaskThreads numToAdd => { p with sNumBlockingTaskThreads := numToAdd }
  | .addThreads numToAdd => p.addThreads numToAdd

/-- The pool after these calls. -/
def configure (calls : List PoolCall) : TaskThreadPool := calls.foldl call new

end TaskThreadPool

/-! ## Task -/

/-- Where `pickerToUse` points. -/
inductive ThreadPicker
  | sShortTaskThreadPicker
  | sBlockingTaskThreadPicker
  | unknown
  deriving DecidableEq

/-- The fields of `Task` that `Signal` uses. A task thread is given by its index in `sTaskThreadArray`. -/
structure Task where
  /-- The result of `Valid`. -/
  valid : Bool
  fEvents : EventFlags
  fUseThisThread : Option Nat
  fDefaultThread : Option Nat
  pickerToUse : ThreadPicker

/-- The tasks, the pickers and the queues of the task threads. -/
structure Tasks (τ : Type*) where
  pool : TaskThreadPool
  sShortTaskThreadPicker : BitVec 32
  sBlockingTaskThreadPicker : BitVec 32
  task : τ → Task
  fTaskQueue : Nat → List τ

namespace Tasks

variable {τ : Type*}

def enQueue (s : Tasks τ) (k : Nat) (t : τ) : Tasks τ :=
  { s with fTaskQueue := Function.update s.fTaskQueue k (s.fTaskQueue k ++ [t]) }

/-- `sTaskThreadArray[theThreadIndex]->fTaskQueue.EnQueue`: `none` when there is no such thread. -/
def enQueueAt (s : Tasks τ) (theThreadIndex : BitVec 32) (t : τ) : Option (Tasks τ) :=
  if theThreadIndex < s.pool.sNumTaskThreads then some (s.enQueue theThreadIndex.toNat t) else none

/-- "find a thread to put this task on": `none` when the program divides by zero, or leaves the array. -/
def pick (s : Tasks τ) (t : τ) : Option (Tasks τ) :=
  match (s.task t).pickerToUse with
  | .sShortTaskThreadPicker =>
    let theThreadIndex := atomicAdd s.sShortTaskThreadPicker 1
    let s := { s with sShortTaskThreadPicker := theThreadIndex }
    if s.pool.sNumShortTaskThreads = 0#32 then none else s.enQueueAt (theThreadIndex % s.pool.sNumShortTaskThreads) t
  | .sBlockingTaskThreadPicker =>
    let theThreadIndex := atomicAdd s.sBlockingTaskThreadPicker 1
    let s := { s with sBlockingTaskThreadPicker := theThreadIndex }
    if s.pool.sNumBlockingTaskThreads = 0#32 then none
    else s.enQueueAt (theThreadIndex % s.pool.sNumBlockingTaskThreads + s.pool.sNumShortTaskThreads) t
  | .unknown => some s

variable [DecidableEq τ]

def signal (s : Tasks τ) (t : τ) (events : EventFlags) : Option (Tasks τ) :=
  let x := s.task t
  if x.valid then
    let (fEvents, oldEvents) := atomicOr x.fEvents (events ||| Task.kAlive)
    if oldEvents &&& Task.kAlive = 0 ∧ 0 < s.pool.sNumTaskThreads then
      let use := if x.fUseThisThread = none then x.fDefaultThread else x.fUseThisThread
      let s := { s with task := Function.update s.task t { x with fEvents := fEvents, fUseThisThread := use } }
      match use with
      | some k => some (s.enQueue k t)
      | none => s.pick t
    else some { s with task := Function.update s.task t { x with fEvents := fEvents } }
  else some s

end Tasks

/-- The thread that the task asks for, or that is its default. -/
def Task.requested (x : Task) : Option Nat := if x.fUseThisThread = none then x.fDefaultThread else x.fUseThisThread

section Picks

variable (τ : Type*) [DecidableEq τ]

/-- A task on the picker `p` that is not alive yet is enqueued by `Signal`, whatever the pickers are at. A thread that is
picked exists, and is not for short tasks when `p` is the blocking picker and there are threads of both classes, `s` for
short tasks and `b` others. -/
def PicksWell (s b : BitVec 32) (pool : TaskThreadPool) (p : ThreadPicker) : Prop :=
  ∀ (x : Tasks τ) (t : τ) (events : EventFlags), x.pool = pool → (x.task t).pickerToUse = p →
    (x.task t).valid = true → (x.task t).fEvents &&& Task.kAlive = 0 →
    ∃ x' k, x.signal t events = some x' ∧
      x'.fTaskQueue = Function.update x.fTaskQueue k (x.fTaskQueue k ++ [t]) ∧
      ((x.task t).requested = none → k < pool.sNumTaskThreads.toNat ∧
        (p = .sBlockingTaskThreadPicker → s ≠ 0 → b ≠ 0 → s.toNat ≤ k))

/-- The calls that are right for a picker: the sum does not wrap, the blocking picker has a thread, and when there is no
thread for short tasks, `sNumShortTaskThreads` is set before `AddThreads` for the one picker, and after it for the other. -/
def Configured (s b : BitVec 32) (calls : List PoolCall) : ThreadPicker → Prop
  | .sShortTaskThreadPicker => s.toNat + b.toNat < 4294967296 ∧
    (s = 0 → ¬ List.Sublist [.addThreads (s + b), .setNumShortTaskThreads s] calls)
  | .sBlockingTaskThreadPicker => s.toNat + b.toNat < 4294967296 ∧ b ≠ 0 ∧
    (s = 0 → List.Sublist [.addThreads (s + b), .setNumShortTaskThreads s] calls)
  | .unknown => False

end Picks

/-! ## The choice of a thread -/

section Choice

variable {τ : Type*} [DecidableEq τ] {s b : BitVec 32} {pool : TaskThreadPool} {p : ThreadPicker} {calls : List PoolCall}

/-- The pool after the three calls, in any order. -/
theorem configure_perm
    (h : calls.Perm [.setNumShortTaskThreads s, .setNumBlockingTaskThreads b, .addThreads (s + b)]) :
    TaskThreadPool.configure calls =
      ⟨s + b, if s = 0 ∧ ¬ List.Sublist [.addThreads (s + b), .setNumShortTaskThreads s] calls then s + b else s, b⟩ := by
  rw [← List.mem_permutations'] at h
  simp only [List.permutations', List.flatMap_cons, List.flatMap_nil, List.permutations'Aux, List.map_cons, List.map_nil,
    List.append_nil, List.cons_append, List.nil_append, List.mem_cons, List.not_mem_nil, or_false] at h
  by_cases hs : s = 0#32
  · subst hs
    rcases h with rfl | rfl | rfl | rfl | rfl | rfl <;>
      simp [TaskThreadPool.configure, TaskThreadPool.call, TaskThreadPool.addThreads, TaskThreadPool.new,
        List.cons_sublist_cons']
  · have hs' : ¬ 0#32 = s := fun h => hs h.symm
    rcases h with rfl | rfl | rfl | rfl | rfl | rfl <;>
      simp [TaskThreadPool.configure, TaskThreadPool.call, TaskThreadPool.addThreads, TaskThreadPool.new, hs, hs']

/-- The index that a picker gives when it is at `v`. -/
def theThreadIndex (pool : TaskThreadPool) (v : BitVec 32) : ThreadPicker → Option (BitVec 32)
  | .sShortTaskThreadPicker => if pool.sNumShortTaskThreads = 0 then none else some (v % pool.sNumShortTaskThreads)
  | .sBlockingTaskThreadPicker =>
    if pool.sNumBlockingTaskThreads = 0 then none
    else some (v % pool.sNumBlockingTaskThreads + pool.sNumShortTaskThreads)
  | .unknown => none

/-- What a picker is at after `atomic_add`. -/
def Tasks.next (x : Tasks τ) : ThreadPicker → BitVec 32
  | .sShortTaskThreadPicker => x.sShortTaskThreadPicker + 1
  | .sBlockingTaskThreadPicker => x.sBlockingTaskThreadPicker + 1
  | .unknown => 0

variable {x x' : Tasks τ} {t : τ} {events : EventFlags} {v i : BitVec 32} {k : Nat}

omit [DecidableEq τ] in
theorem enQueueAt_eq_some : x.enQueueAt i t = some x' ↔ i < x.pool.sNumTaskThreads ∧ x.enQueue i.toNat t = x' := by
  simp only [Tasks.enQueueAt]
  split <;> simp [*]

omit [DecidableEq τ] in
/-- A pick ends with the task in the queue of a thread that exists. -/
theorem pick_of_index (hp : (x.task t).pickerToUse = p) (hi : theThreadIndex x.pool (x.next p) p = some i)
    (hlt : i < x.pool.sNumTaskThreads) : ∃ x', x.pick t = some x' ∧
      x'.fTaskQueue = Function.update x.fTaskQueue i.toNat (x.fTaskQueue i.toNat ++ [t]) := by
  cases p with
  | sShortTaskThreadPicker =>
    simp only [theThreadIndex, Tasks.next] at hi
    split at hi
    · cases hi
    · rename_i hne
      cases hi
      simp only [Tasks.pick, hp, atomicAdd]
      exact ⟨_, (if_neg hne).trans (enQueueAt_eq_some.2 ⟨hlt, rfl⟩), rfl⟩
  | sBlockingTaskThreadPicker =>
    simp only [theThreadIndex, Tasks.next] at hi
    split at hi
    · cases hi
    · rename_i hne
      cases hi
      simp only [Tasks.pick, hp, atomicAdd]
      exact ⟨_, (if_neg hne).trans (enQueueAt_eq_some.2 ⟨hlt, rfl⟩), rfl⟩
  | unknown => cases hi

omit [DecidableEq τ] in
theorem index_of_pick (hp : (x.task t).pickerToUse = p) (h : x.pick t = some x') :
    (p = .unknown ∧ x' = x) ∨ ∃ i, theThreadIndex x.pool (x.next p) p = some i ∧ i < x.pool.sNumTaskThreads ∧
      x'.fTaskQueue = Function.update x.fTaskQueue i.toNat (x.fTaskQueue i.toNat ++ [t]) := by
  cases p with
  | sShortTaskThreadPicker =>
    simp only [Tasks.pick, hp, atomicAdd] at h
    split at h
    · cases h
    · rename_i hne
      obtain ⟨hlt, rfl⟩ := enQueueAt_eq_some.1 h
      exact Or.inr ⟨_, if_neg hne, hlt, rfl⟩
  | sBlockingTaskThreadPicker =>
    simp only [Tasks.pick, hp, atomicAdd] at h
    split at h
    · cases h
    · rename_i hne
      obtain ⟨hlt, rfl⟩ := enQueueAt_eq_some.1 h
      exact Or.inr ⟨_, if_neg hne, hlt, rfl⟩
  | unknown =>
    simp only [Tasks.pick, hp, Option.some.injEq] at h
    exact Or.inl ⟨rfl, h.symm⟩

/-- The task as `Signal` leaves it. -/
def Tasks.marked (x : Tasks τ) (t : τ) (events : EventFlags) : Tasks τ :=
  { x with task := Function.update x.task t { x.task t with
      fEvents := (x.task t).fEvents ||| (events ||| Task.kAlive)
      fUseThisThread := (x.task t).requested } }

theorem signal_eq (hv : (x.task t).valid = true) (ha : (x.task t).fEvents &&& Task.kAlive = 0)
    (hn : 0 < x.pool.sNumTaskThreads) : x.signal t events =
      match (x.task t).requested with
      | some k => some ((x.marked t events).enQueue k t)
      | none => (x.marked t events).pick t := by
  have hc : (x.task t).fEvents &&& Task.kAlive = 0 ∧ 0 < x.pool.sNumTaskThreads := ⟨ha, hn⟩
  exact (if_pos hv).trans (if_pos hc)

/-- When there is no thread, nothing is enqueued. -/
theorem signal_of_no_thread (hn : ¬ 0 < x.pool.sNumTaskThreads) (h : x.signal t events = some x') :
    x'.fTaskQueue = x.fTaskQueue := by
  simp only [Tasks.signal, hn, and_false, if_false] at h
  split at h <;> cases h <;> rfl

omit [DecidableEq τ] in
theorem update_push_ne {f : Nat → List τ} : Function.update f k (f k ++ [t]) ≠ f := by
  intro h
  have hk := congrFun h k
  rw [Function.update_self] at hk
  simpa using congrArg List.length hk

/-- A state in which `p` is about to give the index for `v`. -/
def Tasks.before (pool : TaskThreadPool) (p : ThreadPicker) (v : BitVec 32) : Tasks τ where
  pool := pool
  sShortTaskThreadPicker := v - 1
  sBlockingTaskThreadPicker := v - 1
  task _ := ⟨true, 0, none, none, p⟩
  fTaskQueue _ := []

/-- It is a matter of the indices that the picker gives. -/
theorem picksWell_iff_index [Inhabited τ] : PicksWell τ s b pool p ↔ ∀ v, ∃ i, theThreadIndex pool v p = some i ∧
    i < pool.sNumTaskThreads ∧ (p = .sBlockingTaskThreadPicker → s ≠ 0 → b ≠ 0 → s.toNat ≤ i.toNat) := by
  constructor
  · intro h v
    have hdead : (0 : EventFlags) &&& Task.kAlive = 0 := by decide
    have hnext : theThreadIndex pool (((Tasks.before pool p v).marked (default : τ) 0).next p) p =
        theThreadIndex pool v p := by
      cases p <;> simp only [Tasks.next, Tasks.marked, Tasks.before, theThreadIndex, BitVec.sub_add_cancel]
    obtain ⟨x', k, hs, hq, hk⟩ := h (.before pool p v) default 0 rfl rfl rfl hdead
    have hk := hk rfl
    have hn : 0 < pool.sNumTaskThreads := by
      by_contra hn
      rw [signal_of_no_thread hn hs] at hq
      exact update_push_ne hq.symm
    rw [signal_eq rfl hdead hn] at hs
    rcases index_of_pick (p := p) (by simp [Tasks.marked, Tasks.before]) hs with ⟨-, rfl⟩ | ⟨i, hi, hlt, hq'⟩
    · exact absurd hq.symm update_push_ne
    · refine ⟨i, hnext.symm.trans hi, hlt, ?_⟩
      · have hki : k = i.toNat := by
          have hki := congrFun (hq.symm.trans hq') k
          by_contra hne
          simp [Function.update_of_ne hne, Tasks.marked, Tasks.before] at hki
        rw [← hki]
        exact hk.2
  · intro h x t events hpool hp hv ha
    have hn : 0 < x.pool.sNumTaskThreads := by
      obtain ⟨i, -, hlt, -⟩ := h 0
      rw [hpool]
      rw [BitVec.lt_def] at hlt ⊢
      exact Nat.lt_of_le_of_lt (Nat.zero_le _) hlt
    rw [signal_eq hv ha hn]
    cases hr : (x.task t).requested with
    | some k => exact ⟨_, k, rfl, rfl, by simp⟩
    | none =>
      obtain ⟨i, hi, hlt, hclass⟩ := h (x.next p)
      rw [← hpool] at hi hlt
      obtain ⟨x', hx, hq⟩ := pick_of_index (x := x.marked t events) (t := t) (p := p)
        (by simpa [Tasks.marked] using hp)
        (by cases p <;> exact hi) hlt
      refine ⟨x', i.toNat, hx, hq, fun _ => ⟨?_, hclass⟩⟩
      rw [← hpool]
      exact hlt

end Choice

/-! ## The numbers of threads -/

section Numbers

variable {s b m n v : BitVec 32}

/-- The indices modulo `m` are all below `n`. -/
theorem forall_mod_lt (hm : m ≠ 0) : (∀ v : BitVec 32, v % m < n) ↔ m ≤ n := by
  have hpos : 0 < m.toNat := Nat.pos_of_ne_zero fun h => hm (BitVec.eq_of_toNat_eq h)
  constructor
  · intro h
    have hlast := h (m - 1)
    rw [BitVec.lt_def, BitVec.toNat_umod] at hlast
    have hsub : (m - 1).toNat = m.toNat - 1 := by bv_omega
    rw [hsub, Nat.mod_eq_of_lt (by omega)] at hlast
    rw [BitVec.le_def]
    omega
  · intro h v
    rw [BitVec.lt_def, BitVec.toNat_umod]
    rw [BitVec.le_def] at h
    exact Nat.lt_of_lt_of_le (Nat.mod_lt _ hpos) h

theorem le_add_iff : s ≤ s + b ↔ s.toNat + b.toNat < 4294967296 := by
  bv_omega

/-- An index of the other class, above `s` threads. -/
theorem mod_add_lt (hb : b ≠ 0) (hw : s.toNat + b.toNat < 4294967296) : v % b + s < s + b ∧ s.toNat ≤ (v % b + s).toNat := by
  have hpos : 0 < b.toNat := Nat.pos_of_ne_zero fun h => hb (BitVec.eq_of_toNat_eq h)
  have hlt := Nat.mod_lt v.toNat hpos
  have hindex : (v % b + s).toNat = v.toNat % b.toNat + s.toNat := by
    rw [BitVec.toNat_add, BitVec.toNat_umod]
    exact Nat.mod_eq_of_lt (by omega)
  have hsum : (s + b).toNat = s.toNat + b.toNat := by
    rw [BitVec.toNat_add]
    exact Nat.mod_eq_of_lt hw
  rw [BitVec.lt_def, hindex, hsum]
  exact ⟨by omega, Nat.le_add_left ..⟩

end Numbers

section Classes

variable {τ : Type*} [DecidableEq τ] [Inhabited τ] {s b : BitVec 32} {p : ThreadPicker} {calls : List PoolCall}

theorem picksWell_short {m n : BitVec 32} :
    PicksWell τ s b ⟨n, m, b⟩ .sShortTaskThreadPicker ↔ m ≠ 0 ∧ m ≤ n := by
  rw [picksWell_iff_index]
  by_cases hm : m = 0#32
  · simp [theThreadIndex, hm]
  · rw [← forall_mod_lt hm]
    simp [theThreadIndex, hm]

theorem picksWell_blocking {m n : BitVec 32} :
    PicksWell τ s b ⟨n, m, b⟩ .sBlockingTaskThreadPicker ↔
      b ≠ 0 ∧ ∀ v, v % b + m < n ∧ (s ≠ 0 → s.toNat ≤ (v % b + m).toNat) := by
  rw [picksWell_iff_index]
  by_cases hb : b = 0#32
  · simp [theThreadIndex, hb]
  · simp [theThreadIndex, hb]

/-- The short picker, after the numbers of threads have been set and the threads added in any order. -/
theorem picksWell_short_iff (hpos : s ≠ 0 ∨ b ≠ 0)
    (h : calls.Perm [.setNumShortTaskThreads s, .setNumBlockingTaskThreads b, .addThreads (s + b)]) :
    PicksWell τ s b (TaskThreadPool.configure calls) .sShortTaskThreadPicker ↔
      Configured s b calls .sShortTaskThreadPicker := by
  rw [configure_perm h, picksWell_short, Configured]
  by_cases hs : s = 0#32
  · have hw : s.toNat + b.toNat < 4294967296 := by rw [hs]; simpa using b.isLt
    have hb : b ≠ 0 := hpos.resolve_left (not_not_intro hs)
    split
    · rename_i hc
      refine iff_of_true ⟨by rwa [hs, BitVec.zero_add], BitVec.le_refl _⟩ ⟨hw, fun _ => hc.2⟩
    · rename_i hc
      exact iff_of_false (fun hf => hf.1 hs) fun hf => hc ⟨hs, hf.2 hs⟩
  · rw [if_neg fun hc => hs hc.1, le_add_iff]
    simp [hs]

/-- The blocking picker. -/
theorem picksWell_blocking_iff
    (h : calls.Perm [.setNumShortTaskThreads s, .setNumBlockingTaskThreads b, .addThreads (s + b)]) :
    PicksWell τ s b (TaskThreadPool.configure calls) .sBlockingTaskThreadPicker ↔
      Configured s b calls .sBlockingTaskThreadPicker := by
  rw [configure_perm h, picksWell_blocking, Configured]
  by_cases hs : s = 0#32
  · have hw : s.toNat + b.toNat < 4294967296 := by rw [hs]; simpa using b.isLt
    split
    · rename_i hc
      -- all threads are for short tasks
      refine iff_of_false ?_ fun hf => hc.2 (hf.2.2 hs)
      rintro ⟨hb, hall⟩
      have h0 := (hall 0#32).1
      rw [hs, BitVec.zero_umod, BitVec.zero_add] at h0
      exact BitVec.lt_irrefl _ h0
    · rename_i hc
      have hl : List.Sublist [.addThreads (s + b), .setNumShortTaskThreads s] calls := by
        by_contra hl
        exact hc ⟨hs, hl⟩
      simp only [hw, true_and]
      exact and_congr_right fun hb => iff_of_true (fun v => ⟨(mod_add_lt hb hw).1, fun h => absurd hs h⟩) fun _ => hl
  · rw [if_neg fun hc => hs hc.1]
    constructor
    · rintro ⟨hb, hall⟩
      have h0 := (hall 0#32).1
      rw [BitVec.zero_umod, BitVec.zero_add] at h0
      exact ⟨le_add_iff.1 (BitVec.le_of_lt h0), hb, fun h => absurd h hs⟩
    · rintro ⟨hw, hb, -⟩
      exact ⟨hb, fun v => ⟨(mod_add_lt hb hw).1, fun _ => (mod_add_lt hb hw).2⟩⟩

/-- **When `Signal` picks well**, after the numbers of threads have been set and the threads added in any order. -/
theorem picksWell_iff (hpos : s ≠ 0 ∨ b ≠ 0)
    (h : calls.Perm [.setNumShortTaskThreads s, .setNumBlockingTaskThreads b, .addThreads (s + b)]) :
    PicksWell τ s b (TaskThreadPool.configure calls) p ↔ Configured s b calls p := by
  cases p with
  | sShortTaskThreadPicker => exact picksWell_short_iff hpos h
  | sBlockingTaskThreadPicker => exact picksWell_blocking_iff h
  | unknown => simp [picksWell_iff_index, theThreadIndex, Configured]

/-- The pool that OS.cpp sets up: four threads, two of them for short tasks. -/
theorem picksWell_iff_os :
    PicksWell Unit 2 2 (TaskThreadPool.configure
      [.addThreads (2 + 2), .setNumBlockingTaskThreads 2, .setNumShortTaskThreads 2]) .sBlockingTaskThreadPicker :=
  (picksWell_iff (by decide) (by decide)).2 ⟨by decide, by decide, fun h => absurd h (by decide)⟩

/-- One blocking thread and none for short tasks: a task on the blocking picker goes to the thread after the last. -/
theorem no_short_thread :
    ¬ PicksWell Unit 0 1 (TaskThreadPool.configure
      [.setNumShortTaskThreads 0, .setNumBlockingTaskThreads 1, .addThreads (0 + 1)]) .sBlockingTaskThreadPicker := by
  intro h
  have h0 := (picksWell_blocking.1 h).2 0
  exact absurd h0.1 (by decide)

/-- One thread for short tasks and no blocking one: a division by zero. -/
example (x : Tasks Unit) (hp : x.pool = TaskThreadPool.configure
    [.setNumShortTaskThreads 1, .setNumBlockingTaskThreads 0, .addThreads (1 + 0)])
    (hx : (x.task ()).pickerToUse = .sBlockingTaskThreadPicker) : x.pick () = none := by
  simp only [Tasks.pick, hx, hp]
  rfl

end Classes

end ToolLib.Common.Pickers
