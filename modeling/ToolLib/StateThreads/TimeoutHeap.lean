import ToolLib.Base.HeapLayout
import ToolLib.Base.Loop
import Mathlib.Data.UInt

/-!
# The timeout heap

The sleeping threads of a virtual processor are the nodes of a binary heap (`sched.c`, `docs/timeout_heap.txt`). There is
no array: a thread has the pointers `left` and `right` and its place `heap_index`, and a walk from the root `_ST_SLEEPQ`
finds a place by the binary digits of its number.

`heap_insert` carries the new thread down to the place and leaves it where a later thread stands, which it then carries on.
`heap_delete` takes the last thread out of its place and inserts it at the place of the deleted one, then sifts it down.
Both read pointers that could be `NULL`: the result `none` is a read through `NULL`, and for the loop that sifts also that it
did not end.
-/

namespace ToolLib.StateThreads

open Base

/-- The sleep queue: the heap's pointers, where `root` is `_ST_SLEEPQ`, and the fields of the threads that it uses;
`lastClock` is `_ST_LAST_CLOCK`, `onSleepq` the flag `_ST_FL_ON_SLEEPQ`. -/
structure SleepQ (ν : Type*) extends TreeLinks ν where
  due : ν → UInt64
  heapIndex : ν → Nat
  sleepqSize : Nat
  lastClock : UInt64
  onSleepq : ν → Bool

namespace SleepQ

variable {ν : Type*} [DecidableEq ν]

def write (h : SleepQ ν) (s : Slot ν) (v : Option ν) : SleepQ ν := { h with toTreeLinks := h.toTreeLinks.write s v }

def setIndex (h : SleepQ ν) (thread : ν) (index : Nat) : SleepQ ν :=
  { h with heapIndex := Function.update h.heapIndex thread index }

/-- When a thread is due, as a number. -/
def dueTime (h : SleepQ ν) (thread : ν) : Nat := (h.due thread).toNat

omit [DecidableEq ν] in
theorem due_lt (h : SleepQ ν) (x y : ν) : h.due x < h.due y ↔ h.dueTime x < h.dueTime y := UInt64.lt_iff_toNat_lt

@[simp] theorem write_toTreeLinks (h : SleepQ ν) (s : Slot ν) (v : Option ν) :
    (h.write s v).toTreeLinks = h.toTreeLinks.write s v := rfl
@[simp] theorem write_due (h : SleepQ ν) (s : Slot ν) (v : Option ν) : (h.write s v).due = h.due := rfl
@[simp] theorem write_heapIndex (h : SleepQ ν) (s : Slot ν) (v : Option ν) : (h.write s v).heapIndex = h.heapIndex := rfl
@[simp] theorem write_sleepqSize (h : SleepQ ν) (s : Slot ν) (v : Option ν) :
    (h.write s v).sleepqSize = h.sleepqSize := rfl
@[simp] theorem setIndex_toTreeLinks (h : SleepQ ν) (x : ν) (i : Nat) : (h.setIndex x i).toTreeLinks = h.toTreeLinks := rfl
@[simp] theorem setIndex_due (h : SleepQ ν) (x : ν) (i : Nat) : (h.setIndex x i).due = h.due := rfl
@[simp] theorem setIndex_sleepqSize (h : SleepQ ν) (x : ν) (i : Nat) : (h.setIndex x i).sleepqSize = h.sleepqSize := rfl
@[simp] theorem setIndex_heapIndex (h : SleepQ ν) (x : ν) (i : Nat) :
    (h.setIndex x i).heapIndex = Function.update h.heapIndex x i := rfl

/-- `while (s) { s >>= 1; bits++; }`, with at most `n` turns. -/
def bitsWithin : Nat → Nat → Nat
  | 0, _ => 0
  | n + 1, s => if s = 0 then 0 else bitsWithin n (s >>> 1) + 1

/-- The number of binary digits, as both functions count them. -/
def bits (s : Nat) : Nat := bitsWithin s s

/-- `thread` takes the place of `t`, which `*p` leads to. -/
def replace (h : SleepQ ν) (thread t : ν) (p : Slot ν) (index : Nat) : SleepQ ν :=
  let h := h.write (.left thread) (h.left t)
  let h := h.write (.right thread) (h.right t)
  let h := h.write p (some thread)
  h.setIndex thread index

/-- The loop of `heap_insert` from the state `thread`, `p`, `index` on, with `bit` digits of `target` left to read, and the
end of the function. -/
def heapInsertFrom (target : Nat) : Nat → SleepQ ν → ν → Slot ν → Nat → Option (SleepQ ν × Slot ν)
  | 0, h, thread, p, index =>
    let h := h.setIndex thread index
    let h := h.write p (some thread)
    some ((h.write (.right thread) none).write (.left thread) none, p)
  | bit + 1, h, thread, p, index => do
    let t ← h.read p
    let (h, carried) := if h.due thread < h.due t then (h.replace thread t p index, t) else (h, thread)
    let index := index <<< 1
    let t ← h.read p
    if target.testBit bit then heapInsertFrom target bit h carried (.right t) (index ||| 1)
    else heapInsertFrom target bit h carried (.left t) index

def heapInsert (h : SleepQ ν) (thread : ν) : Option (SleepQ ν × Slot ν) :=
  heapInsertFrom (h.heapIndex thread) (bits (h.heapIndex thread) - 1) h thread .root 1

/-- The first loop of `heap_delete`: the walk to the last thread. -/
def lastFrom (h : SleepQ ν) : Nat → Slot ν → Option (Slot ν)
  | 0, p => some p
  | bit + 1, p => do
    let t ← h.read p
    if h.sleepqSize.testBit bit then lastFrom h bit (.right t) else lastFrom h bit (.left t)

/-- `y`, a child of `t`, changes places with `t`, which `*p` leads to. -/
def exchange (h : SleepQ ν) (t y : ν) (p : Slot ν) : SleepQ ν × Slot ν :=
  let tl := h.left y
  let tr := h.right y
  let h := h.write p (some y)
  let (h, p) :=
    if some y = h.left t then ((h.write (.left y) (some t)).write (.right y) (h.right t), Slot.left y)
    else ((h.write (.left y) (h.left t)).write (.right y) (some t), Slot.right y)
  let h := h.write (.left t) tl
  let h := h.write (.right t) tr
  let indexTmp := h.heapIndex t
  ((h.setIndex t (h.heapIndex y)).setIndex y indexTmp, p)

/-- The younger child: the one that is due first. -/
def younger (h : SleepQ ν) (t : ν) : Option ν :=
  match h.left t, h.right t with
  | none, _ => none
  | some l, none => some l
  | some l, some r => if h.due l < h.due r then some l else some r

/-- A turn of the last loop of `heap_delete`. -/
def siftTurn (t : ν) (s : SleepQ ν × Slot ν) : (SleepQ ν × Slot ν) ⊕ SleepQ ν :=
  match s.1.younger t with
  | none => .inr s.1
  | some y => if s.1.due y < s.1.due t then .inl (s.1.exchange t y s.2) else .inr s.1

def heapDelete (h : SleepQ ν) (thread : ν) : Option (SleepQ ν) := do
  -- First find and unlink the last heap element
  let p ← h.lastFrom (bits h.sleepqSize - 1) .root
  let t ← h.read p
  let h := { h.write p none with sleepqSize := h.sleepqSize - 1 }
  let h ←
    if t = thread then some h
    else do
      let (h, p) ← (h.setIndex t (h.heapIndex thread)).heapInsert t
      let t ← h.read p
      let h := (h.write (.left t) (h.left thread)).write (.right t) (h.right thread)
      Loop.turns (siftTurn t) (h.sleepqSize + 1) (h, p)
  some ((h.write (.right thread) none).write (.left thread) none)

/-- `_st_add_sleep_q`. -/
def addSleepQ (h : SleepQ ν) (thread : ν) (timeout : UInt64) : Option (SleepQ ν) :=
  let h := { h with due := Function.update h.due thread (h.lastClock + timeout) }
  let h := { h with onSleepq := Function.update h.onSleepq thread true }
  let h := { h with sleepqSize := h.sleepqSize + 1 }
  let h := h.setIndex thread h.sleepqSize
  (h.heapInsert thread).map Prod.fst

/-- `_st_del_sleep_q`. -/
def delSleepQ (h : SleepQ ν) (thread : ν) : Option (SleepQ ν) := do
  let h ← h.heapDelete thread
  some { h with onSleepq := Function.update h.onSleepq thread false }

/-! ## The digits -/

theorem bitsWithin_spec {n s : Nat} (hs : 0 < s) (hn : s ≤ n) : s / 2 ^ (bitsWithin n s - 1) = 1 := by
  induction n generalizing s with
  | zero => omega
  | succ n ih =>
    rw [bitsWithin, if_neg hs.ne', Nat.shiftRight_one, Nat.add_sub_cancel]
    rcases Nat.eq_zero_or_pos (s / 2) with h | h
    · obtain rfl : s = 1 := by omega
      have hbits : bitsWithin n 0 = 0 := by cases n <;> simp [bitsWithin]
      rw [h, hbits, Nat.pow_zero, Nat.div_one]
    · have hpos : 0 < bitsWithin n (s / 2) := by
        cases n with
        | zero => omega
        | succ n =>
          rw [bitsWithin, if_neg h.ne']
          exact Nat.succ_pos _
      have hdiv := ih h (by omega)
      rwa [Nat.div_div_eq_div_mul, ← Nat.pow_succ', Nat.succ_eq_add_one, Nat.sub_add_cancel hpos] at hdiv

/-- The walk starts at the root, with all digits but the first to read. -/
theorem bits_spec {s : Nat} (hs : 0 < s) : s / 2 ^ (bits s - 1) = 1 := bitsWithin_spec hs le_rfl

end SleepQ

end ToolLib.StateThreads
