import ToolLib.Base.Logged
import ToolLib.Common.TaskLock

/-!
# The balance of the task lock

Every lock that `TaskThread::Entry` takes is to be given back once, and `fState` counts the threads that have the lock for
reading (`Balanced`). There are two ways to miss this: `GlobalUnlock` gives back what the destructor of the locker gives
back again, and a writer that unlocks while readers are counted takes one of them away, which happens after two writers
have had the lock at once. `balanced_iff`: a run is balanced in all its states exactly when none of its steps does either.
-/

namespace ToolLib.Common

open ToolLib.Base

/-- What a thread does with the lock. -/
inductive LockCall
  /-- `LockRead` or `LockWrite` returns. -/
  | locked
  /-- `GlobalUnlock` calls `Unlock`. -/
  | globalUnlock
  /-- The destructor of the locker calls `Unlock`. -/
  | unlocked
  deriving DecidableEq

/-- What an observer notes. -/
structure LockNote (n : Nat) where
  thread : Fin n
  call : LockCall

namespace LockNote

variable {n : Nat}

/-- The last thing that the thread did with the lock. -/
def last (k : Fin n) : List (LockNote n) → Option LockCall
  | [] => none
  | e :: l => if e.thread = k then some e.call else last k l

/-- A thread that takes the lock has given it back before, and one that gives it back has it. -/
def Matched (past : List (LockNote n)) (e : LockNote n) : Prop :=
  match e.call with
  | .locked => last e.thread past ≠ some .locked
  | .globalUnlock | .unlocked => last e.thread past = some .locked

theorem last_self {k : Fin n} {c : LockCall} {l : List (LockNote n)} : last k (⟨k, c⟩ :: l) = some c := if_pos rfl

theorem last_other {j k : Fin n} {c : LockCall} {l : List (LockNote n)} (h : k ≠ j) : last k (⟨j, c⟩ :: l) = last k l :=
  if_neg fun heq => h heq.symm

end LockNote

variable {n : Nat} {τ σ : Type*}

namespace TaskPool

open LockNote

def observe (s : TaskPool n τ σ) (act : PoolAct n τ σ) (s' : TaskPool n τ σ) : Option (LockNote n) :=
  match act with
  | .sched (.begin k) _ => (thread? n k).bind fun i => if s'.blocked i then none else some ⟨i, .locked⟩
  | .resume i => if s'.blocked i then none else some ⟨i, .locked⟩
  | .sched (.globalUnlock k) _ => (thread? n k).bind fun i => if s.writeLock k then some ⟨i, .globalUnlock⟩ else none
  | .sched (.ret k _) _ => (thread? n k).map fun i => ⟨i, .unlocked⟩
  | .sched _ _ => none

variable [DecidableEq τ] [DecidableEq σ] in
/-- The system that takes notes. -/
abbrev noted : Logged (TaskPool n τ σ) (LockNote n) → PoolAct n τ σ → Option (Logged (TaskPool n τ σ) (LockNote n)) :=
  Logged.step step observe

/-- **The balance**: every lock is matched by one unlock before the next lock of the thread, `fState` is never below -1, and
the readers that it counts are those that have the lock. -/
def Balanced (x : Logged (TaskPool n τ σ) (LockNote n)) : Prop :=
  Each Matched x.log ∧ Locked.Counted x.state.sMutexRW.lock.fState x.state.sMutexRW.spot

/-- The thread may unlock: `GlobalUnlock` has not done so in this call of `Run`, and if the thread has the lock for writing
no readers are counted. -/
def MayUnlock (x : Logged (TaskPool n τ σ) (LockNote n)) (k : Nat) : Prop :=
  ∀ i, thread? n k = some i → last i x.log ≠ some .globalUnlock ∧
    (x.state.sMutexRW.spot i = .writing → x.state.sMutexRW.lock.fState ≤ 0)

/-- The step is one of the two that go wrong, or not. -/
def Fair (x : Logged (TaskPool n τ σ) (LockNote n)) : PoolAct n τ σ → Prop
  | .sched (.globalUnlock k) _ => x.state.writeLock k = true → MayUnlock x k
  | .sched (.ret k _) _ => MayUnlock x k
  | .sched _ _ | .resume _ => True

instance (x : Logged (TaskPool n τ σ) (LockNote n)) (k : Nat) : Decidable (MayUnlock x k) :=
  inferInstanceAs (Decidable (∀ _, _ → _ ∧ (_ → _)))

instance (x : Logged (TaskPool n τ σ) (LockNote n)) : DecidablePred (Fair x)
  | .sched (.globalUnlock _) _ => inferInstanceAs (Decidable (_ → _))
  | .sched (.ret k _) _ => inferInstanceAs (Decidable (MayUnlock x k))
  | .sched (.newTask _) _ | .sched (.addThreads _) _ | .sched (.signal _ _ _) _ | .sched (.route _) _
  | .sched (.enqueue _) _ | .sched (.timer _ _ _ _) _ | .sched (.noTimer _ _) _ | .sched (.dequeue _) _
  | .sched (.stop _) _ | .sched (.begin _) _ | .sched (.readEvents _) _ | .sched (.subEvents _) _
  | .sched (.forceSameThread _) _ | .sched (.callLocked _) _ | .sched (.finish _ _) _ | .sched (.orIdle _) _
  | .resume _ => instDecidableTrue

/-! ## Where the threads are -/

variable {s s' : TaskPool n τ σ} {log : List (LockNote n)} {act : PoolAct n τ σ} {i j : Fin n} {k : Nat}

/-- Where a thread is, and what it did last: outside of `Run` it has given the lock back, and in `Run` it waits for the lock,
or has it, or `GlobalUnlock` has given it back. -/
def Seat (inRun : Bool) (p : Spot) (last : Option LockCall) : Prop :=
  if inRun then
    p.isBlocked = true ∧ last ≠ some .locked ∨ p.Holds ∧ last = some .locked ∨ p = .out ∧ last = some .globalUnlock
  else p = .out ∧ last ≠ some .locked

/-- Every thread is in its place. -/
def Seated (s : TaskPool n τ σ) (log : List (LockNote n)) : Prop :=
  ∀ i : Fin n, Seat (s.sched.running i).isSome (s.sMutexRW.spot i) (last i log)

theorem Seat.woken {b : Bool} {p q : Spot} {l : Option LockCall} (h : Seat b p l) (hq : q.asleep = p.asleep) :
    Seat b q l := by
  have hblocked : q.isBlocked = p.isBlocked := by rw [← Spot.isBlocked_asleep, hq, Spot.isBlocked_asleep]
  have hout : p = .out → q = .out := by
    rintro rfl
    exact Spot.eq_of_asleep hq rfl
  cases b with
  | false => exact ⟨hout h.1, h.2⟩
  | true =>
    rcases h with ⟨hp, hl⟩ | ⟨hp, hl⟩ | ⟨hp, hl⟩
    · exact Or.inl ⟨hblocked.trans hp, hl⟩
    · exact Or.inr (Or.inl ⟨(Spot.holds_iff_of_asleep hq).2 hp, hl⟩)
    · exact Or.inr (Or.inr ⟨hout hp, hl⟩)

/-- A thread that does not have the lock did not take it last. -/
theorem Seat.not_locked {b : Bool} {p : Spot} {l : Option LockCall} (h : Seat b p l) (hp : ¬ p.Holds) :
    l ≠ some .locked := by
  cases b with
  | false => exact h.2
  | true =>
    rcases h with ⟨-, hl⟩ | ⟨hp', -⟩ | ⟨-, hl⟩
    · exact hl
    · exact absurd hp' hp
    · rw [hl]
      decide

/-- A thread in `Run` that does not wait has the lock, unless `GlobalUnlock` has given it back. -/
theorem Seat.has {p : Spot} {l : Option LockCall} (h : Seat true p l) (hp : p.isBlocked = false) :
    p.Holds ∧ l = some .locked ∨ l = some .globalUnlock := by
  rcases h with ⟨hp', -⟩ | h | ⟨-, hl⟩
  · rw [hp] at hp'
    cases hp'
  · exact Or.inl h
  · exact Or.inr hl

theorem seated_new : Seated (new : TaskPool n τ σ) [] := fun i => ⟨rfl, by simp [last]⟩

/-- A thread tries to take the lock, and takes it or waits. -/
theorem Seated.take (h : Seated s log) {w : Bool} (ht : Locked.Took s.sMutexRW i w s'.sMutexRW)
    (hin : (s'.sched.running i).isSome = true) (hrun : ∀ j : Fin n, j ≠ i → s'.sched.running j = s.sched.running j) :
    Seated s' ((if s'.blocked i then none else some ⟨i, .locked⟩ : Option (LockNote n)).toList ++ log) := by
  have hlast := (h i).not_locked ht.before
  intro j
  by_cases hj : j = i
  · subst hj
    rw [hin]
    by_cases hb : s'.blocked j = true
    · rw [if_pos hb]
      exact Or.inl ⟨hb, hlast⟩
    · rw [if_neg hb]
      exact Or.inr (Or.inl ⟨ht.after.resolve_left hb, last_self⟩)
  · have hsame : last j ((if s'.blocked i then none else some ⟨i, .locked⟩ : Option (LockNote n)).toList ++ log) =
        last j log := by
      split
      · rfl
      · exact last_other hj
    rw [hsame, hrun j hj, ht.other j hj]
    exact h j

/-- A thread unlocks. -/
theorem Seated.unlock (h : Seated s log) {pick : Option (Fin n)} {c : LockCall} (hi : s.blocked i = false)
    (hu : s.unlock i pick = some s'.sMutexRW) (hrun : ∀ j : Fin n, j ≠ i → s'.sched.running j = s.sched.running j)
    (hc : Seat (s'.sched.running i).isSome .out (some c)) : Seated s' (⟨i, c⟩ :: log) := by
  unfold TaskPool.unlock at hu
  split at hu
  next hpick =>
    have hspot := Option.some.inj hu
    intro j
    have hj' : (s'.sMutexRW.spot j).asleep = (Function.update s.sMutexRW.spot i .out j).asleep := by
      rw [← hspot]
      exact Locked.unlock_spot hpick hi
    by_cases hj : j = i
    · subst hj
      rw [Function.update_self] at hj'
      rw [last_self]
      exact hc.woken hj'
    · rw [Function.update_of_ne hj] at hj'
      rw [last_other hj, hrun j hj]
      exact (h j).woken hj'
  next => cases hu

/-! ## The steps -/

/-- A step that uses no lock and leaves the threads in `Run` there. -/
theorem Seated.quiet (h : Seated s log) (hlock : s'.sMutexRW = s.sMutexRW)
    (hrun : ∀ j : Fin n, s'.sched.running j = s.sched.running j) : Seated s' log := by
  intro j
  rw [hlock, hrun j]
  exact h j

/-- What a step does to the lock, and what is noted of it. -/
inductive Does (s : TaskPool n τ σ) (act : PoolAct n τ σ) (s' : TaskPool n τ σ) : Option (LockNote n) → Prop
  | quiet (hlock : s'.sMutexRW = s.sMutexRW) (hrun : ∀ j : Fin n, s'.sched.running j = s.sched.running j)
    (hfair : ∀ log, Fair ⟨s, log⟩ act) : Does s act s' none
  | take (i : Fin n) (w : Bool) (ht : Locked.Took s.sMutexRW i w s'.sMutexRW)
    (hin : (s'.sched.running i).isSome = true) (hrun : ∀ j : Fin n, j ≠ i → s'.sched.running j = s.sched.running j)
    (hfair : ∀ log, Fair ⟨s, log⟩ act) : Does s act s' (if s'.blocked i then none else some ⟨i, .locked⟩)
  | unlock (i : Fin n) (pick : Option (Fin n)) (c : LockCall) (hi : s.blocked i = false)
    (hin : (s.sched.running i).isSome = true) (hu : s.unlock i pick = some s'.sMutexRW)
    (hrun : ∀ j : Fin n, j ≠ i → s'.sched.running j = s.sched.running j)
    (hc : c = .globalUnlock ∧ (s'.sched.running i).isSome = true ∨ c = .unlocked ∧ s'.sched.running i = none)
    (hfair : ∀ log, Fair ⟨s, log⟩ act ↔ MayUnlock ⟨s, log⟩ i) : Does s act s' (some ⟨i, c⟩)

/-- The thread is in `Run`. -/
theorem running_isSome {t : τ} {l : Bool} {ev : Option EventFlags} (he : (s.sched.thread k).entry = .run t l ev) :
    (s.sched.running k).isSome = true := by
  rw [Scheduler.running, he]
  rfl

/-- The threads are seated, and the locks are balanced. -/
def Sound (x : Logged (TaskPool n τ σ) (LockNote n)) : Prop := Seated x.state x.log ∧ Balanced x

theorem sound_new : Sound (⟨new, []⟩ : Logged (TaskPool n τ σ) (LockNote n)) := by
  refine ⟨seated_new, trivial, (by decide : (-1 : Int) ≤ 0), ?_⟩
  exact (count_eq_zero.2 fun _ => rfl).symm

/-- A thread that may unlock has the lock. -/
theorem Seated.holds (h : Seated s log) (hin : (s.sched.running i).isSome = true) (hi : s.blocked i = false)
    (hlast : last i log ≠ some .globalUnlock) : (s.sMutexRW.spot i).Holds ∧ last i log = some .locked := by
  have hseat := h i
  rw [hin] at hseat
  exact (hseat.has hi).resolve_right hlast

variable [DecidableEq τ] [DecidableEq σ]

theorem does_begin {pick : Option (Fin n)} (hs : s.step (.sched (.begin k) pick) = some s') :
    Does s (.sched (.begin k) pick) s' (observe s (.sched (.begin k) pick) s') := by
  obtain ⟨hsched, hlock⟩ := sched_eq_some.1 hs
  obtain ⟨i, rfl, hlock⟩ := lockStep_begin hlock
  have hrun := Scheduler.running_step hsched
  have hnote : observe s (.sched (.begin i) pick) s' = if s'.blocked i then none else some ⟨i, .locked⟩ := by
    simp [observe]
  have htook : ∃ w, Locked.Took s.sMutexRW i w s'.sMutexRW := by
    split at hlock
    · exact ⟨true, Locked.Takes.write.took hlock⟩
    · exact ⟨false, Locked.Takes.read.took hlock⟩
  obtain ⟨w, htook⟩ := htook
  rw [hnote]
  refine .take i w htook ?_ (fun j hj => ?_) fun log => trivial
  · have hi := hrun i
    simp only [Scheduler.step] at hsched
    split at hsched
    next t he =>
      rw [hi, Scheduler.runningAfter, if_pos rfl, he]
      rfl
    next => cases hsched
  · rw [hrun j, Scheduler.runningAfter, if_neg fun heq => hj (Fin.ext heq)]

theorem does_ret {pick : Option (Fin n)} {r : Int} (hs : s.step (.sched (.ret k r) pick) = some s') :
    Does s (.sched (.ret k r) pick) s' (observe s (.sched (.ret k r) pick) s') := by
  obtain ⟨hsched, hlock⟩ := sched_eq_some.1 hs
  obtain ⟨i, rfl, hi, hlock⟩ := lockStep_ret hlock
  have hrun := Scheduler.running_step hsched
  have hnote : observe s (.sched (.ret i r) pick) s' = some ⟨i, .unlocked⟩ := by simp [observe]
  have hin : (s.sched.running i).isSome = true := by
    simp only [Scheduler.step] at hsched
    split at hsched
    next t l he => exact running_isSome he
    next => cases hsched
  rw [hnote]
  refine .unlock i pick .unlocked hi hin hlock (fun j hj => ?_) (Or.inr ⟨rfl, ?_⟩) fun log => Iff.rfl
  · rw [hrun j, Scheduler.runningAfter, if_neg fun heq => hj (Fin.ext heq)]
  · rw [hrun i, Scheduler.runningAfter, if_pos rfl]

theorem does_globalUnlock {pick : Option (Fin n)} (hs : s.step (.sched (.globalUnlock k) pick) = some s') :
    Does s (.sched (.globalUnlock k) pick) s' (observe s (.sched (.globalUnlock k) pick) s') := by
  obtain ⟨hsched, hlock⟩ := sched_eq_some.1 hs
  obtain ⟨i, rfl, hi, hlock⟩ := lockStep_globalUnlock hlock
  have hrun : ∀ j, s'.sched.running j = s.sched.running j := Scheduler.running_step hsched
  have hin : (s.sched.running i).isSome = true := by
    simp only [Scheduler.step] at hsched
    split at hsched
    next t l he => exact running_isSome he
    next => cases hsched
  have hnote : observe s (.sched (.globalUnlock i) pick) s' =
      if s.writeLock i then some ⟨i, .globalUnlock⟩ else none := by simp [observe]
  rw [hnote]
  split at hlock
  next hw =>
    rw [if_pos hw]
    refine .unlock i pick .globalUnlock hi hin hlock (fun j _ => hrun j) (Or.inl ⟨rfl, by rw [hrun i, hin]⟩) fun log => ?_
    exact ⟨fun h => h hw, fun h _ => h⟩
  next hw =>
    rw [if_neg hw]
    exact .quiet (Option.some.inj hlock).symm (fun j => hrun j) fun log h => absurd h hw

theorem does_of_step (h : Seated s log) (hs : s.step act = some s') : Does s act s' (observe s act s') := by
  cases act with
  | resume i =>
    obtain ⟨hsched, hlock⟩ := resume_eq_some.1 hs
    have hin : (s.sched.running i).isSome = true := by
      have hblocked := Locked.blocked_of_resume hlock
      have hseat := h i
      cases hrun : (s.sched.running i).isSome with
      | true => rfl
      | false =>
        rw [hrun] at hseat
        rw [hseat.1] at hblocked
        cases hblocked
    exact .take i _ (Locked.Takes.resume.took hlock) (by rw [hsched, hin]) (fun j _ => by rw [hsched]) fun log => trivial
  | sched a pick =>
    cases a with
    | begin k => exact does_begin hs
    | ret k r => exact does_ret hs
    | globalUnlock k => exact does_globalUnlock hs
    | readEvents k | subEvents k | forceSameThread k | callLocked k =>
      obtain ⟨hsched, hlock⟩ := sched_eq_some.1 hs
      obtain ⟨i, -, -, hsame⟩ := lockStep_inRun hlock
      exact .quiet hsame (fun j => Scheduler.running_step hsched j) fun log => trivial
    | addThreads m =>
      obtain ⟨hsched, hlock⟩ := sched_eq_some.1 hs
      simp only [lockStep] at hlock
      split at hlock
      next => exact .quiet (Option.some.inj hlock).symm (fun j => Scheduler.running_step hsched j) fun log => trivial
      next => cases hlock
    | newTask t | signal b t e | route b | enqueue b | timer k now d t | noTimer k now | dequeue k | stop k
    | finish k now | orIdle k =>
      obtain ⟨hsched, hlock⟩ := sched_eq_some.1 hs
      exact .quiet (Option.some.inj hlock).symm (fun j => Scheduler.running_step hsched j) fun log => trivial

theorem sound_step (h : Sound ⟨s, log⟩) (hc : Fair ⟨s, log⟩ act) (hs : s.step act = some s') :
    Sound (⟨s', (observe s act s').toList ++ log⟩ : Logged (TaskPool n τ σ) (LockNote n)) := by
  obtain ⟨hseated, hlog, hcounted⟩ := h
  have hdoes := does_of_step hseated hs
  generalize observe s act s' = o at hdoes
  cases hdoes with
  | quiet hlock hrun hfair =>
    refine ⟨hseated.quiet hlock hrun, hlog, ?_⟩
    simp only [hlock]
    exact hcounted
  | take i w ht hin hrun hfair =>
    refine ⟨hseated.take ht hin hrun, each_note.2 ⟨fun e he => ?_, hlog⟩, ht.counted hcounted⟩
    split at he
    · cases he
    · cases he
      exact (hseated i).not_locked ht.before
  | unlock i pick c hi hin hu hrun hc' hfair =>
    obtain ⟨hlast, hwriting⟩ := (hfair log).1 hc i thread?_self
    obtain ⟨hholds, hlocked⟩ := hseated.holds hin hi hlast
    obtain ⟨hpick, heq⟩ := unlock_eq_some hu
    refine ⟨hseated.unlock hi hu hrun ?_, each_note.2 ⟨fun e he => ?_, hlog⟩, ?_⟩
    · rcases hc' with ⟨rfl, hin'⟩ | ⟨rfl, hin'⟩ <;> rw [hin']
      · exact Or.inr (Or.inr ⟨rfl, rfl⟩)
      · exact ⟨rfl, by decide⟩
    · cases he
      rcases hc' with ⟨rfl, -⟩ | ⟨rfl, -⟩ <;> exact hlocked
    · simp only [heq]
      exact hcounted.unlock hpick hholds hwriting

/-- A step that stays balanced is fair. -/
theorem fair_of_balanced (h : Sound ⟨s, log⟩) (hs : s.step act = some s')
    (h' : Balanced (⟨s', (observe s act s').toList ++ log⟩ : Logged (TaskPool n τ σ) (LockNote n))) :
    Fair ⟨s, log⟩ act := by
  obtain ⟨hseated, hlog, hcounted⟩ := h
  have hdoes := does_of_step hseated hs
  generalize observe s act s' = o at hdoes h'
  cases hdoes with
  | quiet hlock hrun hfair => exact hfair log
  | take i w ht hin hrun hfair => exact hfair log
  | unlock i pick c hi hin hu hrun hc hfair =>
    have hmatched : last i log = some .locked := by
      have hentry := (each_note.1 h'.1).1 _ rfl
      rcases hc with ⟨rfl, -⟩ | ⟨rfl, -⟩ <;> exact hentry
    refine (hfair log).2 fun j hj => ?_
    obtain rfl : j = i := Fin.ext (thread?_eq_some.1 hj).symm
    refine ⟨by rw [hmatched]; decide, fun hwriting => ?_⟩
    by_contra hpos
    obtain ⟨hpick, heq⟩ := unlock_eq_some hu
    refine Locked.not_counted_unlock hcounted hpick hwriting (Int.not_le.1 hpos) ?_
    rw [← heq]
    exact h'.2

/-- **The balance of the lock**: a run is balanced in all its states exactly when no thread unlocks after `GlobalUnlock` has
done so in the same call of `Run`, and no thread unlocks that has the lock for writing while readers are counted. -/
theorem balanced_iff {acts : List (PoolAct n τ σ)} {x : Logged (TaskPool n τ σ) (LockNote n)}
    (hr : run noted ⟨new, []⟩ acts = some x) :
    Always noted Balanced ⟨new, []⟩ acts ↔ Along noted Fair ⟨new, []⟩ acts := by
  refine always_iff_along (I := Sound) (fun x act x' h hc hs => ?_) (fun x h => h.2) (fun x act x' h hs h' => ?_)
    sound_new hr
  · obtain ⟨s', hs', rfl⟩ := Logged.step_eq_some.1 hs
    exact sound_step h hc hs'
  · obtain ⟨s', hs', rfl⟩ := Logged.step_eq_some.1 hs
    exact fair_of_balanced h hs' h'

/-- A task asks for the lock, and its second `Run` has it. -/
def asksOnce : List (PoolAct 1 Unit Unit) :=
  [.sched (.newTask ()) none, .sched (.addThreads 1) none, .sched (.signal () () Task.kStartEvent) none,
    .sched (.route ()) none, .sched (.enqueue ()) none, .sched (.noTimer 0 0) none, .sched (.dequeue 0) none,
    .sched (.begin 0) none, .sched (.callLocked 0) none, .sched (.ret 0 10) none, .sched (.finish 0 0) none,
    .sched (.orIdle 0) none, .sched (.timer 0 10 10 ()) none, .sched (.begin 0) none, .sched (.ret 0 0) none]

theorem balanced_iff_once : Always noted Balanced ⟨new, []⟩ asksOnce := by
  have hr : run noted ⟨new, []⟩ asksOnce = some _ := rfl
  exact (balanced_iff hr).2 (by decide +kernel)

/-- Two threads. The task `false` asks for the lock, and its second `Run` calls `GlobalUnlock`. The task `true` is run for
reading when this `Run` returns. -/
def unlocksTwice : List (PoolAct 2 Bool Unit) :=
  [.sched (.newTask false) none, .sched (.newTask true) none, .sched (.addThreads 2) none,
    .sched (.signal () false Task.kStartEvent) none, .sched (.route ()) none, .sched (.enqueue ()) none,
    .sched (.signal () true Task.kStartEvent) none, .sched (.route ()) none, .sched (.enqueue ()) none,
    .sched (.noTimer 1 0) none, .sched (.dequeue 1) none, .sched (.begin 1) none, .sched (.callLocked 1) none,
    .sched (.ret 1 10) none, .sched (.finish 1 0) none, .sched (.orIdle 1) none, .sched (.timer 1 10 10 false) none,
    .sched (.begin 1) none, .sched (.globalUnlock 1) none, .sched (.noTimer 0 10) none, .sched (.dequeue 0) none,
    .sched (.begin 0) none, .sched (.ret 1 0) none]

theorem reader_forgotten : ∃ x, run noted ⟨new, []⟩ unlocksTwice = some x ∧ x.state.sMutexRW.spot 0 = .reading ∧
    x.state.sMutexRW.lock.fState = 0 ∧ ¬ Balanced x := by
  refine ⟨_, rfl, by decide +kernel, by decide +kernel, fun h => ?_⟩
  exact absurd h.2.readers (by decide +kernel)

end TaskPool

end ToolLib.Common
