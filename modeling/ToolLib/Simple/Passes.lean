import ToolLib.Simple.TimeManager

/-!
# Passes over the timers

An invariant of the timers says one thing of a job that a pass is done with (`D`), another of a job still in front of
the interval of the pass (`P`), and a third of the job whose `Processor` runs (`R`). `PassRule` is what is to be shown
about each of the few things that can happen to a job; `PassRule.step` does the walk over the queue, which changes
meanwhile, once for all.
-/

namespace ToolLib.Simple.Timers

open ToolLib.Base

variable {ι : Type*} [DecidableEq ι]

/-- What holds of the timers at any time. -/
structure Sound (s : Timers ι) : Prop where
  nodup : s.manager.timeoutQueue.Nodup
  delJob : s.manager.delJob = false
  clock : s.manager.fLastSyncTime ≤ s.now
  still : s.record.still ⊆ s.manager.timeoutQueue
  stillNodup : s.record.still.Nodup

/-- Any jobs, queued or not, before the first call. -/
structure Queued (s : Timers ι) : Prop where
  place : s.place = .idle
  nodup : s.manager.timeoutQueue.Nodup
  delJob : s.manager.delJob = false
  clock : s.manager.fLastSyncTime ≤ s.now
  still : s.record.still = []

omit [DecidableEq ι] in
theorem Queued.sound {s : Timers ι} (h : Queued s) : Sound s :=
  ⟨h.nodup, h.delJob, h.clock, by rw [h.still]; exact List.nil_subset _, by rw [h.still]; exact List.nodup_nil⟩

/-- Nothing has happened to the job `j` between `s` and `s'`. -/
structure Same (s s' : Timers ι) (j : ι) : Prop where
  currentTimeout : (s'.job j).currentTimeout = (s.job j).currentTimeout
  fLastSyncTime : s'.manager.fLastSyncTime = s.manager.fLastSyncTime
  base : s'.record.base = s.record.base
  old : s'.record.old j = s.record.old j
  still : j ∈ s'.record.still → j ∈ s.record.still
  fired : j ∈ s.record.fired → j ∈ s'.record.fired
  since : s'.record.since j = s.record.since j

/-- The three predicates, and the condition `C` on the steps, fit. -/
structure PassRule (C : Timers ι → Timing ι → Prop) (D : Timers ι → ι → Prop) (P : UInt64 → Timers ι → ι → Prop)
    (R : Timers ι → ι → Prop) : Prop where
  frameD : ∀ {s s' j}, Same s s' j → D s j → D s' j
  frameP : ∀ {s s' j d}, Same s s' j → P d s j → P d s' j
  frameR : ∀ {s s' j}, Same s s' j → R s j → R s' j
  /-- A job comes in between the passes, or during one. -/
  enter : ∀ {s j}, Sound s → C s (.addElem j) → j ∉ s.manager.timeoutQueue → s.place = .idle → D (s.addElem j) j
  join : ∀ {s j cur d}, Sound s → C s (.addElem j) → j ∉ s.manager.timeoutQueue → s.place = .running cur d →
    P d (s.addElem j) j
  call : ∀ {s j}, D s j → D s.processor j
  /-- The interval becomes due. -/
  owe : ∀ {s j}, s.manager.fLastSyncTime ≤ s.now → D s j →
    P (s.now - s.manager.fLastSyncTime) { s with manager := { s.manager with fLastSyncTime := s.now } } j
  /-- The interval is added, and the job does not fire, or fires. -/
  add : ∀ {s j d}, P d s j → D (s.setJob j ((s.job j).addCurrentScheduleTime d)) j
  fire : ∀ {s j d}, C s .visit → s.place = .walk j d → P d s j →
    (s.job j).timeout ≤ (s.job j).currentTimeout + d →
    R ((s.setJob j ((s.job j).addCurrentScheduleTime d)).invoke j d) j
  reset : ∀ {s j}, R s j → D { s.setJob j (s.job j).refreshCurrentScheduleTime with
    record := { s.record with fired := j :: s.record.fired } } j
  /-- The job `cur` finishes in front of `j`. -/
  leave : ∀ {s cur j d}, C s (.ret 0) → s.place = .running cur d →
    ObjectQueue.next s.manager.timeoutQueue cur ≠ none → P d s j → D s j

section Rule

variable {C : Timers ι → Timing ι → Prop} {D : Timers ι → ι → Prop} {P : UInt64 → Timers ι → ι → Prop}
  {R : Timers ι → ι → Prop}

/-- What a place in the code says about the jobs. -/
def Balance (D : Timers ι → ι → Prop) (P : UInt64 → Timers ι → ι → Prop) (R : Timers ι → ι → Prop) (s : Timers ι) :
    Place ι → Prop
  | .idle | .sync => ∀ j ∈ s.manager.timeoutQueue, D s j
  | .walk cur d => ObjectQueue.Walk (D s) (P d s) s.manager.timeoutQueue cur ∧ P d s cur
  | .running cur d => ObjectQueue.Walk (D s) (P d s) s.manager.timeoutQueue cur ∧ R s cur

/-- The invariant. -/
structure PassInv (D : Timers ι → ι → Prop) (P : UInt64 → Timers ι → ι → Prop) (R : Timers ι → ι → Prop)
    (s : Timers ι) : Prop where
  sound : Sound s
  balance : Balance D P R s s.place

variable {s s' : Timers ι} {cur j : ι} {d : UInt64}

/-- The same queue and the same jobs. -/
theorem PassRule.balance_same (rule : PassRule C D P R) (hsame : ∀ j, Same s s' j)
    (hq : s'.manager.timeoutQueue = s.manager.timeoutQueue) {p : Place ι} (h : Balance D P R s p) :
    Balance D P R s' p := by
  have hD : ∀ j, D s j → D s' j := fun j => rule.frameD (hsame j)
  cases p with
  | idle | sync => intro j hj; rw [hq] at hj; exact hD j (h j hj)
  | walk cur d =>
    refine ⟨?_, rule.frameP (hsame cur) h.2⟩
    rw [hq]
    exact h.1.imp (fun k _ _ => hD k) fun k _ _ => rule.frameP (hsame k)
  | running cur d =>
    refine ⟨?_, rule.frameR (hsame cur) h.2⟩
    rw [hq]
    exact h.1.imp (fun k _ _ => hD k) fun k _ _ => rule.frameP (hsame k)

/-- At another place with the same queue and the same jobs. -/
theorem PassRule.move (rule : PassRule C D P R) (h : Sound s) {p : Place ι} (hb : Balance D P R s p) :
    PassInv D P R { s with place := p } := by
  have hsame : ∀ k, Same s { s with place := p } k := fun _ => ⟨rfl, rfl, rfl, rfl, id, id, rfl⟩
  exact ⟨⟨h.nodup, h.delJob, h.clock, h.still, h.stillNodup⟩, rule.balance_same hsame rfl hb⟩

/-- On to a job of the queue, or to the end of the pass. -/
theorem PassRule.goto (rule : PassRule C D P R) (h : Sound s) {k : Option ι}
    (hnone : k = none → ∀ j ∈ s.manager.timeoutQueue, D s j)
    (hsome : ∀ i, k = some i → ObjectQueue.Walk (D s) (P d s) s.manager.timeoutQueue i ∧ P d s i) :
    PassInv D P R (s.goto k d) := by
  cases k with
  | none =>
    simp only [Timers.goto]
    rw [endPass_of_not h.delJob]
    exact rule.move h (p := .idle) (hnone rfl)
  | some i => exact rule.move h (p := .walk i d) (hsome i rfl)

/-- On to the job behind. -/
theorem PassRule.goto_next (rule : PassRule C D P R) (h : Sound s)
    (hwalk : ObjectQueue.Walk (D s) (P d s) s.manager.timeoutQueue cur) (hcur : D s cur) :
    PassInv D P R (s.goto (ObjectQueue.next s.manager.timeoutQueue cur) d) :=
  rule.goto h (hwalk.next_none hcur) fun _ => hwalk.next_some hcur

/-! ## The steps -/

theorem PassRule.setScheduleTime (rule : PassRule C D P R) (h : PassInv D P R s) (mSec : UInt64) :
    PassInv D P R (s.setJob j ((s.job j).setScheduleTime mSec)) := by
  have hsame : ∀ k, Same s (s.setJob j ((s.job j).setScheduleTime mSec)) k := by
    intro k
    refine ⟨?_, rfl, rfl, rfl, id, id, rfl⟩
    by_cases hk : k = j
    · rw [hk, setJob_same]; rfl
    · rw [setJob_other s hk]
  have hs := h.sound
  exact ⟨⟨hs.nodup, hs.delJob, hs.clock, hs.still, hs.stillNodup⟩, rule.balance_same hsame rfl h.balance⟩

theorem PassRule.tick (rule : PassRule C D P R) (h : PassInv D P R s) {t : UInt64} (ht : s.now ≤ t) :
    PassInv D P R { s with now := t } := by
  have hs := h.sound
  have hsame : ∀ k, Same s { s with now := t } k := fun _ => ⟨rfl, rfl, rfl, rfl, id, id, rfl⟩
  exact ⟨⟨hs.nodup, hs.delJob, UInt64.le_trans hs.clock ht, hs.still, hs.stillNodup⟩,
    rule.balance_same hsame rfl h.balance⟩

theorem PassRule.addElem (rule : PassRule C D P R) (h : PassInv D P R s) (hopen : s.Open) (hC : C s (.addElem j)) :
    PassInv D P R (s.addElem j) := by
  have hs := h.sound
  have hsame : ∀ k ∈ s.manager.timeoutQueue, Same s (s.addElem j) k := by
    intro k hk
    refine ⟨rfl, rfl, rfl, rfl, id, id, ?_⟩
    show (if j ∈ s.manager.timeoutQueue then s.record.since else Function.update s.record.since j s.now) k = _
    split
    · rfl
    · rename_i hj
      exact Function.update_of_ne (fun he : k = j => hj (he ▸ hk)) _ _
  have hstill : s.record.still ⊆ ObjectQueue.enQueue s.manager.timeoutQueue j := fun k hk =>
    ObjectQueue.mem_enQueue.2 (Or.inl (hs.still hk))
  refine ⟨⟨ObjectQueue.nodup_enQueue hs.nodup, hs.delJob, hs.clock, hstill, hs.stillNodup⟩, ?_⟩
  show Balance D P R (s.addElem j) s.place
  have hbal := h.balance
  cases hp : s.place with
  | idle =>
    rw [hp] at hbal
    intro k hk
    by_cases hin : k ∈ s.manager.timeoutQueue
    · exact rule.frameD (hsame k hin) (hbal k hin)
    · obtain rfl : k = j := (ObjectQueue.mem_enQueue.1 hk).resolve_left hin
      exact rule.enter hs hC hin hp
  | sync => simp [Open, hp] at hopen
  | walk cur d => simp [Open, hp] at hopen
  | running cur d =>
    rw [hp] at hbal
    refine ⟨?_, rule.frameR (hsame cur hbal.1.mem) hbal.2⟩
    have hwalk : ObjectQueue.Walk (D (s.addElem j)) (P d (s.addElem j)) s.manager.timeoutQueue cur := hbal.1.imp
      (fun k hk _ => rule.frameD (hsame k hk)) fun k hk _ => rule.frameP (hsame k hk)
    exact hwalk.enQueue fun hj => rule.join hs hC hj hp

theorem PassRule.delElem (rule : PassRule C D P R) (h : PassInv D P R s) (hopen : s.Open) (hj : s.current ≠ some j) :
    PassInv D P R (s.delElem j) := by
  have hs := h.sound
  have hsub : ∀ k, k ∈ ObjectQueue.remove s.record.still j → k ∈ s.record.still := fun k hk =>
    List.mem_of_mem_erase hk
  have hsame : ∀ k, Same s (s.delElem j) k := fun k => ⟨rfl, rfl, rfl, rfl, hsub k, id, rfl⟩
  refine ⟨⟨ObjectQueue.nodup_remove hs.nodup, hs.delJob, hs.clock, fun k hk => ?_,
    ObjectQueue.nodup_remove hs.stillNodup⟩, ?_⟩
  · exact (ObjectQueue.mem_remove hs.nodup).2 ⟨((ObjectQueue.mem_remove hs.stillNodup).1 hk).1, hs.still (hsub k hk)⟩
  · show Balance D P R (s.delElem j) s.place
    have hbal := h.balance
    cases hp : s.place with
    | idle =>
      rw [hp] at hbal
      exact fun k hk => rule.frameD (hsame k) (hbal k (List.mem_of_mem_erase hk))
    | sync => simp [Open, hp] at hopen
    | walk cur d => simp [Open, hp] at hopen
    | running cur d =>
      rw [hp] at hbal
      have hne : j ≠ cur := fun he => hj (by simp [current, hp, he])
      exact ⟨(hbal.1.remove hne).imp (fun k _ _ => rule.frameD (hsame k)) fun k _ _ => rule.frameP (hsame k),
        rule.frameR (hsame cur) hbal.2⟩

/-- The call of `TimeManager::Processor`. -/
theorem PassRule.processor (rule : PassRule C D P R) (h : PassInv D P R s) (hp : s.place = .idle) :
    PassInv D P R s.processor := by
  have hs := h.sound
  have hbal := h.balance
  rw [hp] at hbal
  exact ⟨⟨hs.nodup, hs.delJob, hs.clock, List.Subset.refl _, hs.nodup⟩, fun j hj => rule.call (hbal j hj)⟩

/-- The interval moves from the clock to the jobs. -/
theorem PassRule.synchronize (rule : PassRule C D P R) (h : PassInv D P R s) (hp : s.place = .sync) :
    PassInv D P R s.synchronize := by
  have hs := h.sound
  have hbal := h.balance
  rw [hp] at hbal
  unfold Timers.synchronize
  rw [if_neg (UInt64.not_lt.2 hs.clock)]
  have hsound : Sound { s with manager := { s.manager with fLastSyncTime := s.now } } :=
    ⟨hs.nodup, hs.delJob, UInt64.le_refl s.now, hs.still, hs.stillNodup⟩
  refine rule.goto hsound (fun hn j hj => ?_) fun i hi => ?_
  · rw [ObjectQueue.getHead, List.head?_eq_none_iff] at hn
    change j ∈ s.manager.timeoutQueue at hj
    rw [hn] at hj
    cases hj
  · exact ObjectQueue.walk_head hs.nodup (fun j hj => rule.owe hs.clock (hbal j hj)) hi

/-- The interval is added to the job at hand. -/
theorem PassRule.visit (rule : PassRule C D P R) (h : PassInv D P R s) (hp : s.place = .walk cur d) (hC : C s .visit) :
    PassInv D P R (s.visit cur d) := by
  have hs := h.sound
  have hbal := h.balance
  rw [hp] at hbal
  obtain ⟨hwalk, howed⟩ := hbal
  have hother : ∀ k, k ≠ cur → (s.setJob cur ((s.job cur).addCurrentScheduleTime d)).job k = s.job k := fun k hk =>
    setJob_other s hk _
  by_cases hdue : (s.job cur).timeout ≤ (s.job cur).currentTimeout + d
  · have hsame : ∀ k, k ≠ cur → Same s ((s.setJob cur ((s.job cur).addCurrentScheduleTime d)).invoke cur d) k :=
      fun k hk => ⟨congrArg _ (hother k hk), rfl, rfl, rfl, id, id, Function.update_of_ne hk _ _⟩
    have hfire := rule.fire hC hp howed hdue
    rw [visit_due hdue]
    exact ⟨⟨hs.nodup, hs.delJob, hs.clock, hs.still, hs.stillNodup⟩,
      hwalk.imp (fun k _ hk => rule.frameD (hsame k hk)) (fun k _ hk => rule.frameP (hsame k hk)), hfire⟩
  · have hsame : ∀ k, k ≠ cur → Same s (s.setJob cur ((s.job cur).addCurrentScheduleTime d)) k := fun k hk =>
      ⟨congrArg _ (hother k hk), rfl, rfl, rfl, id, id, rfl⟩
    have hsound : Sound (s.setJob cur ((s.job cur).addCurrentScheduleTime d)) :=
      ⟨hs.nodup, hs.delJob, hs.clock, hs.still, hs.stillNodup⟩
    rw [visit_early hdue]
    exact rule.goto_next hsound
      (hwalk.imp (fun k _ hk => rule.frameD (hsame k hk)) fun k _ hk => rule.frameP (hsame k hk)) (rule.add howed)

/-- The job is reset, and the walk goes on. -/
theorem PassRule.refresh (rule : PassRule C D P R) (h : PassInv D P R s) (hp : s.place = .running cur d) :
    PassInv D P R (s.refresh cur d) := by
  have hs := h.sound
  have hbal := h.balance
  rw [hp] at hbal
  obtain ⟨hwalk, hrun⟩ := hbal
  have hsame : ∀ k, k ≠ cur → Same s { s.setJob cur (s.job cur).refreshCurrentScheduleTime with
      record := { s.record with fired := cur :: s.record.fired } } k := fun k hk =>
    ⟨congrArg _ (setJob_other s hk _), rfl, rfl, rfl, id, List.mem_cons_of_mem _, rfl⟩
  refine rule.goto_next ⟨hs.nodup, hs.delJob, hs.clock, hs.still, hs.stillNodup⟩ ?_ (rule.reset hrun)
  exact hwalk.imp (fun k _ hk => rule.frameD (hsame k hk)) fun k _ hk => rule.frameP (hsame k hk)

/-- The job leaves, and the walk is left with it. -/
theorem PassRule.finish (rule : PassRule C D P R) (h : PassInv D P R s) (hp : s.place = .running cur d)
    (hC : C s (.ret 0)) : PassInv D P R (s.finish cur) := by
  have hs := h.sound
  have hbal := h.balance
  rw [hp] at hbal
  have hsame : ∀ k, Same s (s.finish cur) k := fun k => ⟨rfl, rfl, rfl, rfl, List.mem_of_mem_erase, id, rfl⟩
  refine ⟨⟨ObjectQueue.nodup_remove hs.nodup, rfl, hs.clock, fun k hk => ?_, ObjectQueue.nodup_remove hs.stillNodup⟩,
    fun k hk => rule.frameD (hsame k) ?_⟩
  · obtain ⟨hne, hk⟩ := (ObjectQueue.mem_remove hs.stillNodup).1 hk
    exact (ObjectQueue.mem_remove hs.nodup).2 ⟨hne, hs.still hk⟩
  · rcases hbal.1.remove_self hk with hd | ⟨ho, hn⟩
    · exact hd
    · exact rule.leave hC hp hn ho

/-- **One step of the timers.** -/
theorem PassRule.step (rule : PassRule C D P R) {a : Timing ι} (h : PassInv D P R s) (hC : C s a)
    (hs : s.step a = some s') : PassInv D P R s' := by
  cases a with
  | tick t =>
    simp only [Timers.step] at hs
    split at hs
    · rename_i hle; cases hs; exact rule.tick h hle
    · cases hs
  | setScheduleTime j mSec =>
    simp only [Timers.step] at hs
    split at hs
    · cases hs; exact rule.setScheduleTime h mSec
    · cases hs
  | addElem j =>
    simp only [Timers.step] at hs
    split at hs
    · rename_i hc; cases hs; exact rule.addElem h hc.1 hC
    · cases hs
  | delElem j =>
    simp only [Timers.step] at hs
    split at hs
    · rename_i hc; cases hs; exact rule.delElem h hc.1 hc.2
    · cases hs
  | processor =>
    cases hp : s.place <;> simp only [Timers.step, hp] at hs <;> cases hs
    exact rule.processor h hp
  | synchronizeAndHandle =>
    cases hp : s.place <;> simp only [Timers.step, hp] at hs <;> cases hs
    exact rule.synchronize h hp
  | visit =>
    cases hp : s.place <;> simp only [Timers.step, hp] at hs <;> cases hs
    exact rule.visit h hp hC
  | ret r =>
    cases hp : s.place <;> simp only [Timers.step, hp] at hs <;> cases hs
    split
    · rename_i hr
      subst hr
      exact rule.finish h hp hC
    · exact rule.refresh h hp

end Rule

end ToolLib.Simple.Timers
