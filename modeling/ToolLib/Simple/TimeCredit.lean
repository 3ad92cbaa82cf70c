import ToolLib.Simple.Passes

/-!
# Elapsed time

A pass of `synchronizeAndHandle` moves `fLastSyncTime` to the present, then walks over the queue and adds the interval to
each job. It leaves the walk at the first job that finishes, and the next pass starts from the new `fLastSyncTime`: the
jobs behind never get the interval (`dropped_interval`).

Along a walk the jobs passed have the whole time since `TimeManager::Processor` was called (`Credited`), and the others
lack the interval (`Owed`). So nothing is lost as long as a job finishes only in a pass of no time, or at the tail of the
queue (`time_credited`).
-/

namespace ToolLib.Simple.Timers

open ToolLib.Base

variable {ι : Type*} [DecidableEq ι] {s s' : Timers ι} {cur j : ι} {d : UInt64}

/-- The job has fired, or has been given the whole time. -/
def Credited (s : Timers ι) (j : ι) : Prop :=
  j ∈ s.record.still → j ∈ s.record.fired ∨
    (s.job j).currentTimeout = s.record.old j + (s.manager.fLastSyncTime - s.record.base)

/-- The job lacks the interval `d`. -/
def Owed (d : UInt64) (s : Timers ι) (j : ι) : Prop :=
  j ∈ s.record.still → j ∈ s.record.fired ∨
    (s.job j).currentTimeout + d = s.record.old j + (s.manager.fLastSyncTime - s.record.base)

/-- **The contract**: when `TimeManager::Processor` has returned, every job still queued has fired, or has been given the
time between the last synchronisation before the call and the last one in it. -/
def AllCredited (s : Timers ι) : Prop := s.place = .idle → ∀ j ∈ s.record.still, j ∈ s.record.fired ∨
  (s.job j).currentTimeout = s.record.old j + (s.manager.fLastSyncTime - s.record.base)

/-- A job finishes only in a pass of no time, or at the tail of the queue. -/
def NoLoss (s : Timers ι) : Timing ι → Prop
  | .ret r => match s.place with
    | .running cur d => r = 0 → d = 0 ∨ ObjectQueue.next s.manager.timeoutQueue cur = none
    | _ => True
  | _ => True

instance (s : Timers ι) : ∀ a : Timing ι, Decidable (s.NoLoss a)
  | .ret r =>
    show Decidable (match s.place with
      | .running cur d => r = 0 → d = 0 ∨ ObjectQueue.next s.manager.timeoutQueue cur = none
      | _ => True) from
    match s.place with
    | .running cur d =>
      inferInstanceAs (Decidable (r = 0 → d = 0 ∨ ObjectQueue.next s.manager.timeoutQueue cur = none))
    | .idle | .sync | .walk _ _ => instDecidableTrue
  | .tick _ | .setScheduleTime _ _ | .addElem _ | .delElem _ | .processor | .synchronizeAndHandle | .visit =>
    instDecidableTrue

omit [DecidableEq ι] in
/-- The interval is owed from the moment the clock was read. -/
theorem Credited.owe (h : s.Credited j) : Owed (s.now - s.manager.fLastSyncTime)
    { s with manager := { s.manager with fLastSyncTime := s.now } } j := by
  intro hs
  refine (h hs).imp_right fun he => ?_
  show (s.job j).currentTimeout + (s.now - s.manager.fLastSyncTime) = s.record.old j + (s.now - s.record.base)
  grind

/-- A job that comes in is not one of those still queued, and a job that fires is settled. -/
theorem credit_rule : PassRule (ι := ι) NoLoss Credited Owed fun _ _ => True where
  frameD h hc hs := by
    rw [h.currentTimeout, h.old, h.fLastSyncTime, h.base]
    exact (hc (h.still hs)).imp_left h.fired
  frameP h hc hs := by
    rw [h.currentTimeout, h.old, h.fLastSyncTime, h.base]
    exact (hc (h.still hs)).imp_left h.fired
  frameR _ _ := trivial
  enter hsound _ hj _ hs := absurd (hsound.still hs) hj
  join hsound _ hj _ hs := absurd (hsound.still hs) hj
  call {s j} _ _ := Or.inr (by simp [processor])
  owe _ h := h.owe
  add h hs := by
    rw [setJob_same]
    exact h hs
  fire _ _ _ _ := trivial
  reset _ _ := Or.inl List.mem_cons_self
  leave hC hp hn ho hs := by
    simp only [NoLoss, hp] at hC
    obtain rfl := (hC trivial).resolve_right hn
    simpa using ho hs

/-- **No elapsed time is lost**, in any run whose jobs finish only in a pass of no time or at the tail of the queue. -/
theorem time_credited {as : List (Timing ι)} (h : Queued s) (ha : Along step NoLoss s as) :
    Always step AllCredited s as := by
  have hstart : PassInv Credited Owed (fun _ _ => True) s := by
    refine ⟨h.sound, ?_⟩
    rw [h.place]
    intro j _ hj
    rw [h.still] at hj
    cases hj
  refine always_of_along (fun _ _ _ => credit_rule.step) (fun s hi hp j hj => ?_) hstart ha
  have hbal := hi.balance
  rw [hp] at hbal
  exact hbal j (hi.sound.still hj) hj

/-- Two jobs of 5 and `ms` milliseconds, 10 milliseconds after the last synchronisation. -/
def twoJobs (ms : UInt64) : Timers Bool where
  manager := ⟨[false, true], 1000000, false⟩
  job b := if b then TimeoutJob.new ms else TimeoutJob.new 5
  deleted := []
  place := .idle
  now := 1010000
  record := ⟨0, fun _ => 0, [], [], fun _ => 0, []⟩

theorem twoJobs_queued (ms : UInt64) : Queued (twoJobs ms) where
  place := rfl
  nodup := show [false, true].Nodup by decide
  delJob := rfl
  clock := show (1000000 : UInt64) ≤ 1010000 by decide
  still := rfl

/-- The first job fires, the second finishes at the tail. -/
theorem time_credited_tail :
    Always step AllCredited (twoJobs 7)
      [.processor, .synchronizeAndHandle, .visit, .ret 1, .visit, .ret 0, .synchronizeAndHandle, .visit] :=
  time_credited (twoJobs_queued 7) (by decide +kernel)

/-- **A dropped interval.** The first job finishes: the second never gets the 10 milliseconds of the pass. -/
theorem dropped_interval : Queued (twoJobs 100) ∧ ∃ s, run step (twoJobs 100)
    [.processor, .synchronizeAndHandle, .visit, .ret 0, .synchronizeAndHandle, .visit] = some s ∧
    s.place = .idle ∧ s.record.still = [true] ∧ s.record.fired = [] ∧ (s.job true).currentTimeout = 0 ∧
    s.record.old true = 0 ∧ s.manager.fLastSyncTime - s.record.base = 10000 ∧ ¬ s.AllCredited := by
  have h : (run step (twoJobs 100) [.processor, .synchronizeAndHandle, .visit, .ret 0, .synchronizeAndHandle, .visit]).map
      (fun s => (s.place, s.record.still, s.record.fired, (s.job true).currentTimeout, s.record.old true,
        s.manager.fLastSyncTime - s.record.base)) = some (.idle, [true], [], 0, 0, 10000) := by decide +kernel
  obtain ⟨s, hs, he⟩ := Option.map_eq_some_iff.1 h
  simp only [Prod.mk.injEq] at he
  obtain ⟨hplace, hstill, hfired, hcur, hold, hint⟩ := he
  refine ⟨twoJobs_queued 100, s, hs, hplace, hstill, hfired, hcur, hold, hint, fun hall => ?_⟩
  have hlost := hall hplace true (by rw [hstill]; exact List.mem_singleton_self _)
  rw [hfired, hcur, hold, hint] at hlost
  revert hlost
  decide

end ToolLib.Simple.Timers
