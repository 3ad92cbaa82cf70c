import Mathlib.Algebra.Order.Group.Int
import Mathlib.Data.List.Basic
import Mathlib.Tactic.Common
import ToolLib.Base.SlackMin

/-!
# The timeout thread

`TimeoutTask` and `TimeoutTaskThread` (TimeoutTask.cpp, TimeoutTask.h): the queue of the timeout tasks in the order in which
`Run` goes through it, and one pass of `Run` at the time `curTime`. Times are milliseconds since 1970.

A pass remembers the remaining time of the next task to time out, with one second on top, and compares the next task with that
(`Base.SlackMin`). `Timely` says what a pass is for; `timely_iff` says for which queues it does it.
-/

namespace ToolLib.Common.Timeouts

open ToolLib.Base

variable {τ : Type*}

/-- A `TimeoutTask`; `fTimeoutAtThisTime` is 0 for a task that never times out. -/
structure TimeoutTask (τ : Type*) where
  fTask : τ
  fTimeoutAtThisTime : Int
  fTimeoutInMilSecs : Int

namespace TimeoutTask

/-- `SetTimeout`, at the time `now`. -/
def setTimeout (now : Nat) (t : TimeoutTask τ) (inTimeoutInMilSecs : Int) : TimeoutTask τ :=
  { t with
    fTimeoutInMilSecs := inTimeoutInMilSecs
    fTimeoutAtThisTime := if inTimeoutInMilSecs = 0 then 0 else now + inTimeoutInMilSecs }

def refreshTimeout (now : Nat) (t : TimeoutTask τ) : TimeoutTask τ :=
  { t with fTimeoutAtThisTime := now + t.fTimeoutInMilSecs }

/-- The constructor, up to `EnQueue`. -/
def new (now : Nat) (inTask : τ) (inTimeoutInMilSecs : Int) : TimeoutTask τ :=
  setTimeout now ⟨inTask, 0, 0⟩ inTimeoutInMilSecs

end TimeoutTask

/-- A new task comes to the end of the queue. -/
def enQueue (fQueue : List (TimeoutTask τ)) (t : TimeoutTask τ) : List (TimeoutTask τ) := fQueue ++ [t]

/-- What a pass does: the tasks that get `kTimeoutEvent`, in this order, and the interval. -/
structure Pass (τ : Type*) where
  signalled : List τ
  intervalMilli : Int

def kIntervalSeconds : Int := 60

/-- One round of the loop of `Run`. -/
def visit (curTime : Nat) (p : Pass τ) (t : TimeoutTask τ) : Pass τ :=
  if t.fTimeoutAtThisTime > 0 ∧ curTime ≥ t.fTimeoutAtThisTime then
    { p with signalled := p.signalled ++ [t.fTask] }
  else
    let taskInterval := t.fTimeoutAtThisTime - curTime
    if taskInterval > 0 ∧ t.fTimeoutInMilSecs > 0 ∧ p.intervalMilli > taskInterval then
      { p with intervalMilli := taskInterval + 1000 }
    else p

/-- `TimeoutTaskThread::Run`. -/
def Run (curTime : Nat) (fQueue : List (TimeoutTask τ)) : Pass τ :=
  fQueue.foldl (visit curTime) ⟨[], kIntervalSeconds * 1000⟩

/-! ## What a pass is for -/

/-- The deadline of the task is there. -/
def Due (curTime : Nat) (t : TimeoutTask τ) : Prop := t.fTimeoutAtThisTime ≠ 0 ∧ t.fTimeoutAtThisTime ≤ curTime

/-- The deadline of the task is still to come. -/
def Pending (curTime : Nat) (t : TimeoutTask τ) : Prop := t.fTimeoutAtThisTime ≠ 0 ∧ curTime < t.fTimeoutAtThisTime

instance (curTime : Nat) (t : TimeoutTask τ) : Decidable (Due curTime t) := inferInstanceAs (Decidable (_ ∧ _))

instance (curTime : Nat) (t : TimeoutTask τ) : Decidable (Pending curTime t) := inferInstanceAs (Decidable (_ ∧ _))

/-- The time up to the deadline. -/
def remaining (curTime : Nat) (t : TimeoutTask τ) : Int := t.fTimeoutAtThisTime - curTime

/-- The tasks that are due are signalled, and no others, and the next pass is in time for those that are pending. -/
structure Timely (curTime : Nat) (fQueue : List (TimeoutTask τ)) (p : Pass τ) : Prop where
  exactly : p.signalled = (fQueue.filter fun t => Due curTime t).map TimeoutTask.fTask
  positive : 0 < p.intervalMilli
  at_most : p.intervalMilli ≤ 61000
  in_time : ∀ t ∈ fQueue, Pending curTime t → p.intervalMilli ≤ remaining curTime t + 1000

/-! ## What a pass does -/

/-- The task is signalled by `Run`. -/
def TimesOut (curTime : Nat) (t : TimeoutTask τ) : Prop :=
  0 < t.fTimeoutAtThisTime ∧ t.fTimeoutAtThisTime ≤ (curTime : Int)

/-- The task is looked at for the interval. -/
def Counts (curTime : Nat) (t : TimeoutTask τ) : Prop :=
  (curTime : Int) < t.fTimeoutAtThisTime ∧ 0 < t.fTimeoutInMilSecs

instance (curTime : Nat) : DecidablePred (TimesOut (τ := τ) curTime) := fun _ => inferInstanceAs (Decidable (_ ∧ _))

instance (curTime : Nat) : DecidablePred (Counts (τ := τ) curTime) := fun _ => inferInstanceAs (Decidable (_ ∧ _))

/-- The remaining times that a pass looks at. -/
def counted (curTime : Nat) (fQueue : List (TimeoutTask τ)) : List Int :=
  (fQueue.filter fun t => Counts curTime t).map (remaining curTime)

section Pass

variable {curTime : Nat} {fQueue : List (TimeoutTask τ)} {t : TimeoutTask τ} {p : Pass τ} {r : Int}

theorem TimesOut.due (h : TimesOut curTime t) : Due curTime t := ⟨h.1.ne', h.2⟩

theorem TimesOut.not_counts (h : TimesOut curTime t) : ¬ Counts curTime t := fun hc => not_lt.2 h.2 hc.1

theorem Counts.pending (h : Counts curTime t) : Pending curTime t := ⟨by have := h.1; omega, h.1⟩

theorem mem_counted : r ∈ counted curTime fQueue ↔ ∃ t ∈ fQueue, Counts curTime t ∧ remaining curTime t = r := by
  simp only [counted, List.mem_map, List.mem_filter, decide_eq_true_eq, and_assoc]

theorem counted_pos (hr : r ∈ counted curTime fQueue) : 0 < r := by
  obtain ⟨t, -, hc, rfl⟩ := mem_counted.1 hr
  have hlt := hc.1
  unfold remaining
  omega

/-- One round of the loop. -/
theorem visit_timesOut (h : TimesOut curTime t) :
    visit curTime p t = { p with signalled := p.signalled ++ [t.fTask] } := if_pos h

theorem visit_counts (h : Counts curTime t) : visit curTime p t =
    { p with intervalMilli := if remaining curTime t < p.intervalMilli then remaining curTime t + 1000
      else p.intervalMilli } := by
  have hnot : ¬ (t.fTimeoutAtThisTime > 0 ∧ (curTime : Int) ≥ t.fTimeoutAtThisTime) := fun ht => TimesOut.not_counts ht h
  have hlt := h.1
  have hiff : (t.fTimeoutAtThisTime - curTime > 0 ∧ t.fTimeoutInMilSecs > 0 ∧
      p.intervalMilli > t.fTimeoutAtThisTime - curTime) ↔ remaining curTime t < p.intervalMilli :=
    ⟨fun hi => hi.2.2, fun hi => ⟨by omega, h.2, hi⟩⟩
  simp only [visit, if_neg hnot, hiff]
  split <;> rfl

theorem visit_other (ht : ¬ TimesOut curTime t) (hc : ¬ Counts curTime t) : visit curTime p t = p := by
  have hno : ¬ (t.fTimeoutAtThisTime - curTime > 0 ∧ t.fTimeoutInMilSecs > 0 ∧
      p.intervalMilli > t.fTimeoutAtThisTime - curTime) := fun hi => hc ⟨by omega, hi.2.1⟩
  exact (if_neg ht).trans (if_neg hno)

/-- The loop, from any state of it. -/
theorem foldl_visit (fQueue : List (TimeoutTask τ)) (p : Pass τ) : fQueue.foldl (visit curTime) p =
    ⟨p.signalled ++ (fQueue.filter fun t => TimesOut curTime t).map TimeoutTask.fTask,
      slackMin 1000 p.intervalMilli (counted curTime fQueue)⟩ := by
  induction fQueue generalizing p with
  | nil => simp [counted, slackMin]
  | cons t fQueue ih =>
    rw [List.foldl_cons, ih]
    by_cases ht : TimesOut curTime t
    · simp [visit_timesOut ht, counted, ht, ht.not_counts]
    by_cases hc : Counts curTime t
    · simp [visit_counts hc, counted, ht, hc, slackMin]
    · simp [visit_other ht hc, counted, ht, hc]

/-- **What `Run` signals and returns.** -/
theorem run_eq : Run curTime fQueue = ⟨(fQueue.filter fun t => TimesOut curTime t).map TimeoutTask.fTask,
    slackMin 1000 60000 (counted curTime fQueue)⟩ := by
  rw [Run, foldl_visit]
  rfl

/-! ## When a pass is timely -/

/-- No deadline is negative. -/
theorem exactly_iff : (Run curTime fQueue).signalled = (fQueue.filter fun t => Due curTime t).map TimeoutTask.fTask ↔
    ∀ t ∈ fQueue, t.fTimeoutAtThisTime < 0 → (curTime : Int) < t.fTimeoutAtThisTime := by
  rw [run_eq]
  constructor
  · intro heq t ht hneg
    by_contra hle
    have hsub : (fQueue.filter fun t => TimesOut curTime t).Sublist (fQueue.filter fun t => Due curTime t) :=
      List.monotone_filter_right _ fun t ht => by simpa using TimesOut.due (by simpa using ht)
    have hlen := congrArg List.length heq
    rw [List.length_map, List.length_map] at hlen
    have hin : t ∈ fQueue.filter fun t => Due curTime t :=
      List.mem_filter.2 ⟨ht, decide_eq_true ⟨by omega, by omega⟩⟩
    rw [← hsub.eq_of_length hlen] at hin
    have hpos : TimesOut curTime t := by simpa using (List.mem_filter.1 hin).2
    exact absurd hpos.1 (by omega)
  · intro hneg
    refine congrArg _ (List.filter_congr fun t ht => decide_eq_decide.2 ⟨TimesOut.due, fun hd => ⟨?_, hd.2⟩⟩)
    have hn := hneg t ht
    have hd0 := hd.1
    have hdc := hd.2
    omega

/-- Which queues `Run` goes through as it should. -/
structure Undisturbed (curTime : Nat) (fQueue : List (TimeoutTask τ)) : Prop where
  /-- no deadline is negative -/
  no_negative : ∀ t ∈ fQueue, 0 ≤ t.fTimeoutAtThisTime
  /-- after the last of the smallest remaining times below 60 seconds comes none that is less than a second larger -/
  settled : Settled 1000 60000 (counted curTime fQueue)
  /-- a pending task without a timeout has a task with a timeout before it, or there is none within the 60 seconds, and its
  own remaining time is not below 59 -/
  others : ∀ t ∈ fQueue, Pending curTime t → t.fTimeoutInMilSecs ≤ 0 →
    (∃ r ∈ counted curTime fQueue, r < 60000 ∧ r ≤ remaining curTime t) ∨
      (∀ r ∈ counted curTime fQueue, 60000 ≤ r) ∧ 59000 ≤ remaining curTime t

/-- The interval, and a remaining time that was not looked at. -/
theorem interval_le_iff (h : Settled 1000 60000 (counted curTime fQueue)) :
    slackMin 1000 60000 (counted curTime fQueue) ≤ r + 1000 ↔
      (∃ m ∈ counted curTime fQueue, m < 60000 ∧ m ≤ r) ∨ (∀ m ∈ counted curTime fQueue, 60000 ≤ m) ∧ 59000 ≤ r := by
  rcases slackMin_cases (by omega) h with ⟨hall, heq⟩ | ⟨m, hm, hlt, hmin, heq⟩ <;> rw [heq]
  · constructor
    · exact fun hle => Or.inr ⟨hall, by omega⟩
    · rintro (⟨m, hm, hlt, -⟩ | ⟨-, hle⟩)
      · exact absurd (hall m hm) (by omega)
      · omega
  · constructor
    · exact fun hle => Or.inl ⟨m, hm, hlt, by omega⟩
    · rintro (⟨m', hm', -, hle⟩ | ⟨hall, -⟩)
      · have := hmin m' hm'
        omega
      · exact absurd (hall m hm) (by omega)

theorem interval_pos : 0 < slackMin 1000 60000 (counted curTime fQueue) :=
  lt_slackMin (by omega) (by omega) fun _ hr => (counted_pos hr).le

/-- **A pass of the timeout thread is timely** exactly for the undisturbed queues. -/
theorem timely_iff : Timely curTime fQueue (Run curTime fQueue) ↔ Undisturbed curTime fQueue := by
  have hint : (Run curTime fQueue).intervalMilli = slackMin 1000 60000 (counted curTime fQueue) := by rw [run_eq]
  constructor
  · intro h
    have hset : Settled 1000 60000 (counted curTime fQueue) := by
      refine (slackMin_le_iff (by omega)).1 fun r hr => ?_
      obtain ⟨t, ht, hc, rfl⟩ := mem_counted.1 hr
      rw [← hint]
      exact h.in_time t ht hc.pending
    refine ⟨fun t ht => ?_, hset, fun t ht hp _ => ?_⟩
    · have hneg := exactly_iff.1 h.exactly t ht
      omega
    · rw [← interval_le_iff hset, ← hint]
      exact h.in_time t ht hp
  · intro h
    refine ⟨exactly_iff.2 fun t ht hneg => ?_, ?_, ?_, fun t ht hp => ?_⟩
    · exact absurd (h.no_negative t ht) (by omega)
    · rw [hint]
      exact interval_pos
    · rw [hint]
      rcases slackMin_cases (by omega) h.settled with ⟨-, heq⟩ | ⟨m, -, hlt, -, heq⟩ <;> rw [heq] <;> omega
    · rw [hint]
      by_cases hc : 0 < t.fTimeoutInMilSecs
      · exact (slackMin_le_iff (by omega)).2 h.settled _ (mem_counted.2 ⟨t, ht, ⟨hp.2, hc⟩, rfl⟩)
      · exact (interval_le_iff h.settled).2 (h.others t ht hp (by omega))

end Pass

/-- Two tasks are put in the queue at the same time, the second one with a timeout that is a little longer: the interval is
almost two seconds more than the timeout of the first one. -/
theorem late_by_two_seconds : ¬ ∀ (τ : Type) (curTime : Nat) (fQueue : List (TimeoutTask τ)),
    Timely curTime fQueue (Run curTime fQueue) := by
  intro h
  have hrun := (h Unit 0 (enQueue (enQueue [] (.new 0 () 10000)) (.new 0 () 10999))).in_time (.new 0 () 10000)
    (by simp [enQueue]) (by decide)
  revert hrun
  decide

end ToolLib.Common.Timeouts
