import ToolLib.StateThreads.HeapDelete
import ToolLib.Base.System

/-!
# The timeout heap stands for a set of timeouts

`Timeouts` is what the sleep queue is for: which threads sleep, and when each of them is due. Every sequence of operations that
is possible there is possible on the heap and has the same result (`heap_refines`), and the heap stays a complete binary tree
with the thread that is due first at its root.
-/

namespace ToolLib.StateThreads

open Base

variable {ν : Type*} [DecidableEq ν]

/-- The operations: `_ST_ADD_SLEEPQ`, `_ST_DEL_SLEEPQ`, and a new time in `_st_vp_check_clock`. -/
inductive HeapOp (ν : Type*)
  | add (thread : ν) (timeout : UInt64)
  | del (thread : ν)
  | clock (now : UInt64)

/-- The last time, and when the sleeping threads are due. -/
structure Timeouts (ν : Type*) where
  lastClock : UInt64
  due : ν → Option UInt64

/-- A thread that sleeps is not added again, and only a thread that sleeps is taken out. -/
def Timeouts.step (T : Timeouts ν) : HeapOp ν → Option (Timeouts ν)
  | .add thread timeout =>
    if T.due thread = none then some { T with due := Function.update T.due thread (some (T.lastClock + timeout)) } else none
  | .del thread => if T.due thread = none then none else some { T with due := Function.update T.due thread none }
  | .clock now => some { T with lastClock := now }

namespace SleepQ

def op (h : SleepQ ν) : HeapOp ν → Option (SleepQ ν)
  | .add thread timeout => h.addSleepQ thread timeout
  | .del thread => h.delSleepQ thread
  | .clock now => some { h with lastClock := now }

/-- The timeouts that the sleep queue stands for. -/
def timeouts (h : SleepQ ν) : Timeouts ν := ⟨h.lastClock, fun t => if h.onSleepq t then some (h.due t) else none⟩

/-- The empty sleep queue. -/
def empty (now : UInt64) : SleepQ ν where
  root := none
  left _ := none
  right _ := none
  due _ := 0
  heapIndex _ := 0
  sleepqSize := 0
  lastClock := now
  onSleepq _ := false

end SleepQ

/-- The links of the sleep queue are those of a heap (`IsHeap`), which holds the threads with the flag `_ST_FL_ON_SLEEPQ`. -/
def Sound (h : SleepQ ν) : Prop := ∃ t, IsHeap h t ∧ ∀ x, x ∈ nodes t ↔ h.onSleepq x = true

variable {h : SleepQ ν} {x y : ν}

omit [DecidableEq ν] in
theorem Sound.root_none (hs : Sound h) : h.root = none ↔ ∀ x, h.onSleepq x = false := by
  obtain ⟨t, ht, hmem⟩ := hs
  rcases ht.held.cases with ⟨hroot, rfl⟩ | ⟨y, l, r, hroot, rfl, -⟩
  · simp only [hroot, true_iff]
    intro x
    have hx := hmem x
    simp only [nodes_nil, List.not_mem_nil, false_iff] at hx
    exact eq_false_of_ne_true hx
  · simp only [hroot, reduceCtorEq, false_iff]
    intro hoff
    exact Bool.false_ne_true ((hoff y).symm.trans ((hmem y).1 List.mem_cons_self))

omit [DecidableEq ν] in
/-- The thread at the root is due first. -/
theorem Sound.root_first (hs : Sound h) (hroot : h.root = some x) :
    h.onSleepq x = true ∧ ∀ y, h.onSleepq y = true → h.due x ≤ h.due y := by
  obtain ⟨t, ht, hmem⟩ := hs
  rcases ht.held.cases with ⟨hnone, rfl⟩ | ⟨z, l, r, hz, rfl, -⟩
  · cases hroot.symm.trans hnone
  · cases hroot.symm.trans hz
    exact ⟨(hmem x).1 List.mem_cons_self, fun y hy => UInt64.le_iff_toNat_le.2 (ht.ordered.root_le ((hmem y).2 hy))⟩

omit [DecidableEq ν] in
/-- The places from 1 to the size of the queue are taken, each by one thread. -/
theorem Sound.places (hs : Sound h) {i : Nat} (hi : 1 ≤ i) (hn : i ≤ h.sleepqSize) :
    ∃ x, h.onSleepq x = true ∧ h.heapIndex x = i ∧ ∀ y, h.onSleepq y = true → h.heapIndex y = i → y = x := by
  obtain ⟨t, ht, hmem⟩ := hs
  obtain ⟨x, hx, hxi⟩ := ht.laid.exists_at Nat.one_pos (under_one hi) hn
  exact ⟨x, (hmem x).1 hx, hxi, fun y hy hyi =>
    ht.laid.injective Nat.one_pos ((hmem y).2 hy) hx (hyi.trans hxi.symm)⟩

omit [DecidableEq ν] in
theorem sound_empty (now : UInt64) : Sound (SleepQ.empty now : SleepQ ν) :=
  ⟨.nil, isHeap_nil rfl rfl, by simp [SleepQ.empty]⟩

theorem op_refines {T T' : Timeouts ν} {o : HeapOp ν} (hR : h.timeouts = T ∧ Sound h) (hs : T.step o = some T') :
    ∃ h', h.op o = some h' ∧ h'.timeouts = T' ∧ Sound h' := by
  obtain ⟨rfl, t, ht, hmem⟩ := hR
  cases o with
  | add x timeout =>
    obtain ⟨hnone, ⟨⟩⟩ := Option.ite_none_right_eq_some.1 hs
    have hoff : h.onSleepq x = false := by simpa [SleepQ.timeouts] using hnone
    have hx : x ∉ nodes t := fun hin => Bool.false_ne_true (hoff.symm.trans ((hmem x).1 hin))
    obtain ⟨h', t', hrun, ht', hperm, hdue, hclock, hflag⟩ := addSleepQ_spec ht hx timeout
    refine ⟨h', hrun, ?_, t', ht', fun y => ?_⟩
    · simp only [SleepQ.timeouts, hclock, hdue, hflag]
      congr 1
      funext y
      simp only [Function.update_apply]
      grind
    · rw [hperm.mem_iff, List.mem_cons, hmem, hflag, Function.update_apply]
      grind
  | del x =>
    obtain ⟨hsome, ⟨⟩⟩ := Option.ite_none_left_eq_some.1 hs
    have hon : h.onSleepq x = true := by simpa [SleepQ.timeouts] using hsome
    obtain ⟨h', t', hrun, ht', hperm, hdue, hclock, hflag⟩ := delSleepQ_spec ht ((hmem x).2 hon)
    refine ⟨h', hrun, ?_, t', ht', fun y => ?_⟩
    · simp only [SleepQ.timeouts, hclock, hdue, hflag]
      congr 1
      funext y
      simp only [Function.update_apply]
      grind
    · have hy := hperm.mem_iff (a := y)
      have hnodup := List.nodup_cons.1 (hperm.nodup_iff.2 ht.nodup)
      rw [List.mem_cons, hmem] at hy
      rw [hflag, Function.update_apply]
      grind
  | clock now =>
    cases hs
    exact ⟨_, rfl, rfl, t, ht.congr rfl rfl fun _ _ => ⟨rfl, rfl, rfl, rfl⟩, hmem⟩

/-- **The timeout heap refines a set of timeouts**: its tree holds the threads that sleep, in the shape and the order of a heap. -/
theorem heap_refines (now : UInt64) {ops : List (HeapOp ν)} {T : Timeouts ν}
    (hr : run Timeouts.step ⟨now, fun _ => none⟩ ops = some T) :
    ∃ h, run SleepQ.op (SleepQ.empty now) ops = some h ∧ h.timeouts = T ∧ Sound h ∧
      (h.root = none ↔ ∀ x, T.due x = none) ∧
      (∀ x, h.root = some x → ∃ d, T.due x = some d ∧ ∀ y d', T.due y = some d' → d ≤ d') ∧
      (∀ x d, T.due x = some d → 1 ≤ h.heapIndex x ∧ h.heapIndex x ≤ h.sleepqSize) ∧
      ∀ i, 1 ≤ i → i ≤ h.sleepqSize → ∃ x, (∃ d, T.due x = some d) ∧ h.heapIndex x = i ∧
        ∀ y d, T.due y = some d → h.heapIndex y = i → y = x := by
  have hstep : ∀ (T : Timeouts ν) (h : SleepQ ν) o T', (h.timeouts = T ∧ Sound h) → True → T.step o = some T' →
      ∃ h', h.op o = some h' ∧ h'.timeouts = T' ∧ Sound h' := fun T h o T' hR _ hs => op_refines hR hs
  obtain ⟨h, hrun, rfl, hsound⟩ := run_lockstep hstep (t := SleepQ.empty now) ⟨rfl, sound_empty now⟩
    (along_of_forall fun _ _ => trivial) hr
  have hdue : ∀ x d, h.timeouts.due x = some d ↔ h.onSleepq x = true ∧ h.due x = d := fun x d => by
    simp [SleepQ.timeouts]
  have hnone : ∀ x, h.timeouts.due x = none ↔ h.onSleepq x = false := fun x => by simp [SleepQ.timeouts]
  refine ⟨h, hrun, rfl, hsound, ?_, fun x hroot => ?_, fun x d hx => ?_, fun i hi hn => ?_⟩
  · simp only [hnone]
    exact hsound.root_none
  · obtain ⟨hon, hfirst⟩ := hsound.root_first hroot
    refine ⟨h.due x, (hdue x _).2 ⟨hon, rfl⟩, fun y d' hy => ?_⟩
    obtain ⟨hsleeps, rfl⟩ := (hdue y d').1 hy
    exact hfirst y hsleeps
  · obtain ⟨t, ht, hmem⟩ := hsound
    have hin := ht.laid.under ((hmem x).2 ((hdue x d).1 hx).1)
    exact ⟨hin.1.le, hin.2⟩
  · obtain ⟨x, hx, hxi, honly⟩ := hsound.places hi hn
    exact ⟨x, ⟨_, (hdue x _).2 ⟨hx, rfl⟩⟩, hxi, fun y d hy hyi => honly y ((hdue y d).1 hy).1 hyi⟩

/-- Four threads, one of which is taken out again: the first to wake up is at the root. -/
theorem heap_refines_four :
    ∃ h, run SleepQ.op (SleepQ.empty 10) [.add (3 : Nat) 40, .add 1 30, .clock 20, .add 4 15, .add 2 5, .del 2] = some h ∧
      h.timeouts.due 4 = some 35 ∧ h.root ≠ none := by
  have hr : run Timeouts.step ⟨10, fun _ => none⟩
    [.add (3 : Nat) 40, .add 1 30, .clock 20, .add 4 15, .add 2 5, .del 2] = some ⟨20, _⟩ := rfl
  obtain ⟨h, hrun, hT, -, hroot, -⟩ := heap_refines 10 hr
  have hdue : h.timeouts.due 4 = some 35 := by
    rw [hT]
    rfl
  exact ⟨h, hrun, hdue, fun hnone => by simpa [← hT, hdue] using hroot.1 hnone 4⟩

end ToolLib.StateThreads
