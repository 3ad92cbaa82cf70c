import ToolLib.Simple.Passes

/-!
# Timers that fire early

The manager keeps one last synchronisation for all jobs. A job is therefore credited with the time from the last
synchronisation before it was added, and the constructor sets `fLastSyncTime` to 0: a job added before the first pass
fires at once (`fires_at_once`). Time a job accumulated before it was taken out, and time other jobs spend in a pass
before its own `Processor` is called, count in the same way.

When a job comes in just after a synchronisation with no time of its own, and is invoked at the time its pass read, its
accumulated time never exceeds the time since then (`Behind`), so it never fires early (`never_early`).
-/

namespace ToolLib.Simple.Timers

open ToolLib.Base

variable {ι : Type*} [DecidableEq ι] {s s' : Timers ι} {cur j : ι} {d : UInt64}

/-- The accumulated time of the job is time since it was added or invoked last. -/
def Behind (s : Timers ι) (j : ι) : Prop :=
  (s.record.since j).toNat + (s.job j).currentTimeout.toNat ≤ s.manager.fLastSyncTime.toNat

/-- So it is with the interval `d` added. -/
def StillBehind (d : UInt64) (s : Timers ι) (j : ι) : Prop :=
  (s.record.since j).toNat + (s.job j).currentTimeout.toNat + d.toNat ≤ s.manager.fLastSyncTime.toNat

/-- **The contract**: every job was invoked only when its schedule time had passed. -/
def NeverEarly (s : Timers ι) : Prop :=
  ∀ v ∈ s.record.invocations, v.since.toNat + v.schedule.toNat ≤ v.time.toNat

/-- The interval that the pass is still going to add to a job that comes in. -/
def interval (s : Timers ι) : UInt64 := match s.place with
  | .running _ d => d
  | _ => 0

/-- A job comes in at the time of the last synchronisation, with no time of its own and none to be added by a pass; and a
job that is due is invoked at the time its pass read. -/
def OnTime (s : Timers ι) : Timing ι → Prop
  | .addElem j => j ∉ s.manager.timeoutQueue →
    s.now = s.manager.fLastSyncTime ∧ (s.job j).currentTimeout = 0 ∧ s.interval = 0
  | .visit => match s.place with
    | .walk cur d => (s.job cur).timeout ≤ (s.job cur).currentTimeout + d → s.now = s.manager.fLastSyncTime
    | _ => True
  | _ => True

instance (s : Timers ι) : ∀ a : Timing ι, Decidable (s.OnTime a)
  | .addElem j => inferInstanceAs (Decidable (j ∉ s.manager.timeoutQueue →
    s.now = s.manager.fLastSyncTime ∧ (s.job j).currentTimeout = 0 ∧ s.interval = 0))
  | .visit =>
    show Decidable (match s.place with
      | .walk cur d => (s.job cur).timeout ≤ (s.job cur).currentTimeout + d → s.now = s.manager.fLastSyncTime
      | _ => True) from
    match s.place with
    | .walk cur d => inferInstanceAs (Decidable
      ((s.job cur).timeout ≤ (s.job cur).currentTimeout + d → s.now = s.manager.fLastSyncTime))
    | .idle | .sync | .running _ _ => instDecidableTrue
  | .tick _ | .setScheduleTime _ _ | .delElem _ | .processor | .synchronizeAndHandle | .ret _ => instDecidableTrue

theorem toNat_add_le (a b : UInt64) : (a + b).toNat ≤ a.toNat + b.toNat := by
  rw [UInt64.toNat_add]; exact Nat.mod_le _ _

theorem addElem_since (h : j ∉ s.manager.timeoutQueue) : (s.addElem j).record.since j = s.now := by
  simp [addElem, h]

theorem early_rule : PassRule (ι := ι) OnTime Behind StillBehind
    fun s j => s.record.since j ≤ s.manager.fLastSyncTime where
  frameD h hb := by
    unfold Behind
    rw [h.since, h.currentTimeout, h.fLastSyncTime]
    exact hb
  frameP h hb := by
    unfold StillBehind
    rw [h.since, h.currentTimeout, h.fLastSyncTime]
    exact hb
  frameR h hb := by
    rw [h.since, h.fLastSyncTime]
    exact hb
  enter {s j} _ hC hj _ := by
    obtain ⟨hnow, hzero, -⟩ := hC hj
    unfold Behind
    rw [addElem_since hj, hnow]
    show s.manager.fLastSyncTime.toNat + (s.job j).currentTimeout.toNat ≤ s.manager.fLastSyncTime.toNat
    rw [hzero]
    exact Nat.le_refl _
  join {s j cur d} _ hC hj hp := by
    obtain ⟨hnow, hzero, hint⟩ := hC hj
    obtain rfl : d = 0 := by simpa [interval, hp] using hint
    unfold StillBehind
    rw [addElem_since hj, hnow]
    show s.manager.fLastSyncTime.toNat + (s.job j).currentTimeout.toNat + 0 ≤ s.manager.fLastSyncTime.toNat
    rw [hzero]
    exact Nat.le_refl _
  call h := h
  owe {s j} hle h := by
    have hsub := UInt64.toNat_sub_of_le _ _ hle
    have hnat := UInt64.le_iff_toNat_le.1 hle
    unfold Behind at h
    show (s.record.since j).toNat + (s.job j).currentTimeout.toNat + (s.now - s.manager.fLastSyncTime).toNat ≤ s.now.toNat
    omega
  add {s j d} h := by
    have hadd := toNat_add_le (s.job j).currentTimeout d
    unfold StillBehind at h
    unfold Behind
    rw [setJob_same]
    show (s.record.since j).toNat + ((s.job j).currentTimeout + d).toNat ≤ s.manager.fLastSyncTime.toNat
    omega
  fire {s j d} hC hp _ hdue := by
    simp only [OnTime, hp] at hC
    have hsince : ((s.setJob j ((s.job j).addCurrentScheduleTime d)).invoke j d).record.since j = s.now :=
      Function.update_self _ _ _
    rw [hsince]
    exact UInt64.le_of_eq (hC hdue)
  reset {s j} h := by
    have hnat := UInt64.le_iff_toNat_le.1 h
    unfold Behind
    rw [show ({ s.setJob j (s.job j).refreshCurrentScheduleTime with
      record := { s.record with fired := j :: s.record.fired } } : Timers ι).job j =
        (s.job j).refreshCurrentScheduleTime from setJob_same s j _]
    exact hnat
  leave {s cur j d} _ _ _ h := by
    unfold StillBehind at h
    unfold Behind
    omega

omit [DecidableEq ι] in
theorem goto_invocations (s : Timers ι) (k : Option ι) (d : UInt64) :
    (s.goto k d).record.invocations = s.record.invocations := by
  cases k with
  | none => simp only [goto, endPass]; split <;> rfl
  | some j => rfl

omit [DecidableEq ι] in
theorem endPass_invocations (s : Timers ι) : s.endPass.record.invocations = s.record.invocations := by
  unfold endPass; split <;> rfl

/-- Only a job that is due is invoked. -/
theorem step_invocations {a : Timing ι} (hs : s.step a = some s') :
    s'.record.invocations = s.record.invocations ∨
      ∃ cur d, a = .visit ∧ s.place = .walk cur d ∧ (s.job cur).timeout ≤ (s.job cur).currentTimeout + d ∧
        s'.record.invocations = s.record.invocations ++ [⟨cur, s.record.since cur, s.now, (s.job cur).timeout⟩] := by
  cases a with
  | tick t => simp only [step] at hs; split at hs <;> cases hs; exact Or.inl rfl
  | setScheduleTime j mSec => simp only [step] at hs; split at hs <;> cases hs; exact Or.inl rfl
  | addElem j => simp only [step] at hs; split at hs <;> cases hs; exact Or.inl rfl
  | delElem j => simp only [step] at hs; split at hs <;> cases hs; exact Or.inl rfl
  | processor =>
    cases hp : s.place <;> simp only [step, hp] at hs <;> cases hs
    exact Or.inl rfl
  | synchronizeAndHandle =>
    cases hp : s.place <;> simp only [step, hp] at hs <;> cases hs
    refine Or.inl ?_
    unfold synchronize
    simp only
    split
    · exact endPass_invocations _
    · exact goto_invocations _ _ _
  | visit =>
    cases hp : s.place <;> simp only [step, hp] at hs <;> cases hs
    rename_i cur d
    by_cases hdue : (s.job cur).timeout ≤ (s.job cur).currentTimeout + d
    · refine Or.inr ⟨cur, d, rfl, rfl, hdue, ?_⟩
      rw [visit_due hdue]
      simp [invoke, setJob, TimeoutJob.addCurrentScheduleTime, TimeoutJob.getScheduleTime]
    · rw [visit_early hdue]
      exact Or.inl (goto_invocations _ _ _)
  | ret r =>
    cases hp : s.place <;> simp only [step, hp] at hs <;> cases hs
    refine Or.inl ?_
    split
    · exact endPass_invocations _
    · exact goto_invocations _ _ _

/-- A new manager, and jobs that have not run. -/
structure Fresh (s : Timers ι) : Prop where
  manager : s.manager = TimeManager.new
  place : s.place = .idle
  still : s.record.still = []
  invocations : s.record.invocations = []

/-- No job has more accumulated time than has passed, and none was invoked early. -/
structure EarlyInv (s : Timers ι) : Prop where
  pass : PassInv Behind StillBehind (fun s j => s.record.since j ≤ s.manager.fLastSyncTime) s
  never : NeverEarly s

omit [DecidableEq ι] in
theorem earlyInv_fresh (h : Fresh s) : EarlyInv s := by
  refine ⟨⟨⟨?_, ?_, ?_, ?_, ?_⟩, ?_⟩, ?_⟩
  · rw [h.manager]; exact List.nodup_nil
  · rw [h.manager]; rfl
  · rw [h.manager]; exact UInt64.zero_le
  · rw [h.still]; exact List.nil_subset _
  · rw [h.still]; exact List.nodup_nil
  · rw [h.place]
    intro j hj
    rw [h.manager] at hj
    cases hj
  · intro v hv
    rw [h.invocations] at hv
    cases hv

theorem early_step {a : Timing ι} (h : EarlyInv s) (ha : s.OnTime a) (hs : s.step a = some s') : EarlyInv s' := by
  refine ⟨early_rule.step h.pass ha hs, ?_⟩
  rcases step_invocations hs with he | ⟨cur, d, rfl, hp, hdue, he⟩
  · unfold NeverEarly
    rw [he]
    exact h.never
  · intro v hv
    rw [he] at hv
    rcases List.mem_append.1 hv with hv | hv
    · exact h.never v hv
    · rw [List.mem_singleton.1 hv]
      -- the job is due by its accumulated time, which the clock bounds
      have hbal := h.pass.balance
      rw [hp] at hbal
      have hbehind := hbal.2
      unfold StillBehind at hbehind
      have hnow := UInt64.le_iff_toNat_le.1 h.pass.sound.clock
      have hdue' := UInt64.le_iff_toNat_le.1 hdue
      have hadd := toNat_add_le (s.job cur).currentTimeout d
      show (s.record.since cur).toNat + (s.job cur).timeout.toNat ≤ s.now.toNat
      omega

/-- **Never early**, in any run whose jobs come in and are invoked on time. -/
theorem never_early {as : List (Timing ι)} (h : Fresh s) (ha : Along step OnTime s as) :
    Always step NeverEarly s as :=
  always_of_along (fun _ _ _ => early_step) (fun _ hi => hi.never) (earlyInv_fresh h) ha

/-- A job of one second and a new manager; the clock shows `now`. -/
def oneSecond (now : UInt64) : Timers Unit where
  manager := TimeManager.new
  job _ := TimeoutJob.new 1000
  deleted := []
  place := .idle
  now := now
  record := ⟨0, fun _ => 0, [], [], fun _ => 0, []⟩

/-- The job is added just after a pass, and fires a second later. -/
theorem never_early_after_pass :
    Always step NeverEarly (oneSecond 1700000000000000) [.processor, .synchronizeAndHandle, .addElem (),
      .tick 1700000001000000, .processor, .synchronizeAndHandle, .visit, .ret 1] :=
  never_early ⟨rfl, rfl, rfl, rfl⟩ (by decide +kernel)

/-- **Fires at once.** The job is added before the first pass, and that pass invokes it at the time it was added. -/
theorem fires_at_once : Fresh (oneSecond 1700000000000000) ∧
    ∃ s, run step (oneSecond 1700000000000000) [.addElem (), .processor, .synchronizeAndHandle, .visit] = some s ∧
      s.record.invocations = [⟨(), 1700000000000000, 1700000000000000, 1000000⟩] ∧ ¬ s.NeverEarly := by
  have h : (run step (oneSecond 1700000000000000) [.addElem (), .processor, .synchronizeAndHandle, .visit]).map
      (fun s => s.record.invocations) = some [⟨(), 1700000000000000, 1700000000000000, 1000000⟩] := by decide +kernel
  obtain ⟨s, hs, he⟩ := Option.map_eq_some_iff.1 h
  refine ⟨⟨rfl, rfl, rfl, rfl⟩, s, hs, he, fun hn => ?_⟩
  have hv := hn _ (by rw [he]; exact List.mem_singleton_self _)
  revert hv
  decide

end ToolLib.Simple.Timers
