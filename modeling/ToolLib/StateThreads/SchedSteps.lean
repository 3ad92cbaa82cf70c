import ToolLib.StateThreads.SchedInv

/-!
# The invariant of all runs

The rest of the steps: the loops that wake threads (`condSignalFrom`, `dispatchFrom`, `checkClockFrom`), threads that are
created, exit and are joined, and the calls that threads go on in. `step_outcome`: a step that is allowed has no fault, keeps
the invariant, and adds to the run queue only; `run_inv` is this for all runs.
-/

namespace ToolLib.StateThreads

open Base

variable {ν μ κ : Type} [DecidableEq ν]

namespace VP

variable {isTerm : κ → Prop} {s s' : VP ν μ κ} {r : Option ν} {t u me : ν} {c : κ} {m : μ} {h' : SleepQ ν}

omit [DecidableEq ν] in
theorem Same.trans {s'' : VP ν μ κ} (h : Same s s') (h' : Same s' s'') : Same s s'' :=
  ⟨h'.this.trans h.this, h'.idleThread.trans h.idleThread, h'.pc.trans h.pc, h'.interrupt.trans h.interrupt,
    h'.term.trans h.term, h'.retval.trans h.retval, h'.zombieQ.trans h.zombieQ, h'.owner.trans h.owner,
    h'.lockQ.trans h.lockQ, h'.condQ.trans h.condQ⟩

omit [DecidableEq ν] in
theorem Same.refl (s : VP ν μ κ) : Same s s := ⟨rfl, rfl, rfl, rfl, rfl, rfl, rfl, rfl, rfl, rfl⟩

theorem Woke.refl (s : VP ν μ κ) : Woke s s [] := ⟨.refl s, (List.append_nil _).symm, by simp, nofun, fun _ h => h⟩

theorem Woke.trans {s'' : VP ν μ κ} {added added' : List ν} (h : Woke s s' added) (h' : Woke s' s'' added') :
    Woke s s'' (added ++ added') := by
  refine ⟨h.toSame.trans h'.toSame, by rw [h'.runQ, h.runQ, List.append_assoc], fun t => ?_, fun t ht => ?_,
    fun t ht => h'.timedout t (h.timedout t ht)⟩
  · rw [h'.state, h.state]
    simp only [List.mem_append]
    grind
  · rcases List.mem_append.1 ht with ht | ht
    · exact h.waits t ht
    · have hw := h'.waits t ht
      rw [h.state] at hw
      grind

/-- One thread is woken. -/
theorem Woke.one (hsame : Same s s') (hq : s'.runQ = s.runQ ++ [t]) (hst : s'.state = Function.update s.state t .runnable)
    (hw : s.state t = .ioWait ∨ s.state t = .condWait ∨ s.state t = .sleeping)
    (htime : ∀ x, s.timedout x = true → s'.timedout x = true) : Woke s s' [t] :=
  ⟨hsame, hq, fun x => by rw [hst, Function.update_apply]; simp, by simpa using hw, htime⟩

/-! ## Signals -/

/-- The loop of `_st_cond_signal` over threads that wait in `st_cond_timedwait`. -/
theorem Inv.condSignalFrom (hI : Inv isTerm s r) (broadcast : Bool) {q : List ν} (hnodup : q.Nodup)
    (hq : ∀ t ∈ q, s.pc t = .wait c) :
    ∃ s' added, VP.condSignalFrom broadcast q s = some s' ∧ Inv isTerm s' r ∧ Woke s s' added ∧
      added = if broadcast then q.filter (s.state · = .condWait) else (q.filter (s.state · = .condWait)).take 1 := by
  induction q generalizing s with
  | nil => exact ⟨s, [], rfl, hI, .refl s, by cases broadcast <;> rfl⟩
  | cons t q ih =>
    have ht := hq t List.mem_cons_self
    have hrest : ∀ x ∈ q, s.pc x = .wait c := fun x hx => hq x (List.mem_cons_of_mem _ hx)
    obtain ⟨htq, hnodup⟩ := List.nodup_cons.1 hnodup
    rw [VP.condSignalFrom]
    by_cases hst : s.state t = .condWait
    · obtain ⟨h', hset, hoff⟩ := hI.offSleepq t
      have hwake := hI.wake hset (by grind) (by simp [Waits, hst]) (by grind) (by grind)
      have hone : Woke s ({ s with toSleepQ := h' }.makeRunnable t) [t] :=
        .one ⟨rfl, rfl, rfl, rfl, rfl, rfl, rfl, rfl, rfl, rfl⟩ rfl rfl (.inr (.inl hst)) fun _ h => h
      rw [if_pos hst, hoff s rfl, List.filter_cons_of_pos (by simpa using hst)]
      cases broadcast with
      | false => exact ⟨_, [t], rfl, hwake, hone, rfl⟩
      | true =>
        obtain ⟨s', added, hrun, hI', hwoke, rfl⟩ := ih hwake hnodup hrest
        refine ⟨s', _, hrun, hI', hone.trans hwoke, ?_⟩
        simp only [if_true, List.singleton_append, List.cons.injEq, true_and]
        refine List.filter_congr fun x hx => ?_
        have hxt : x ≠ t := fun heq => htq (heq ▸ hx)
        simp only [Function.update_of_ne hxt]
    · rw [if_neg hst, List.filter_cons_of_neg (by simpa using hst)]
      exact ih hI hnodup hrest

/-! ## The idle thread -/

/-- A thread that does not wait for descriptors any more may be taken off the io queue. -/
theorem Inv.leaveIoq (hI : Inv isTerm s r) (ht : s.state t ≠ .ioWait) {n : Nat} :
    Inv isTerm { s with
      revents := Function.update s.revents t n, ioQ := s.ioQ.erase t, onIoq := Function.update s.onIoq t false } r :=
  { hI with
    ioQ := by grind [Function.update_apply, hI.ioQ, hI.ioQ_nodup]
    ioQ_nodup := by grind [hI.ioQ_nodup]
    onIoq := by grind [Function.update_apply, hI.onIoq]
    ioWait := by grind [Function.update_apply, hI.ioWait] }

/-- The loop of the event system over the io queue wakes threads that wait for descriptors. -/
theorem Inv.dispatchFrom (hI : Inv isTerm s r) (ready : ν → Nat) {q : List ν} (hnodup : q.Nodup)
    (hq : ∀ t ∈ q, s.onIoq t = true ∧ s.state t = .ioWait) :
    ∃ s', VP.dispatchFrom ready q s = some s' ∧ Inv isTerm s' r ∧ Woke s s' (q.filter fun t => ready t ≠ 0) := by
  induction q generalizing s with
  | nil => exact ⟨s, rfl, hI, .refl s⟩
  | cons t q ih =>
    obtain ⟨hio, hst⟩ := hq t List.mem_cons_self
    obtain ⟨htq, hnodup⟩ := List.nodup_cons.1 hnodup
    have hrest : ∀ x ∈ q, s.onIoq x = true ∧ s.state x = .ioWait := fun x hx => hq x (List.mem_cons_of_mem _ hx)
    rw [VP.dispatchFrom]
    by_cases hready : ready t = 0
    · rw [if_pos hready]
      have hI₁ : Inv isTerm { s with revents := Function.update s.revents t 0 } r := { hI with }
      obtain ⟨s', hrun, hI', hwoke⟩ := ih hI₁ hnodup hrest
      have hsame : Woke s { s with revents := Function.update s.revents t 0 } [] :=
        ⟨⟨rfl, rfl, rfl, rfl, rfl, rfl, rfl, rfl, rfl, rfl⟩, (List.append_nil _).symm, by simp, nofun, fun _ h => h⟩
      exact ⟨s', hrun, hI', by simpa [hready] using hsame.trans hwoke⟩
    · obtain ⟨h', hset, hoff⟩ := hI.offSleepq t
      have hpc := hI.onIoq t hio
      have hwake := hI.wake hset (by grind) (by simp [Waits, hst]) (by grind) (by grind)
      have hleave := hwake.leaveIoq (t := t) (n := ready t) (by simp)
      rw [if_neg hready, unlink, if_pos ((hI.ioQ t).2 hio), Option.bind_eq_bind, Option.bind_some]
      dsimp only
      rw [hoff, Option.bind_eq_bind, Option.bind_some]
      · obtain ⟨s', hrun, hI', hwoke⟩ := ih hleave hnodup fun x hx => by
          have hx' := hrest x hx
          have hxt : x ≠ t := fun heq => htq (heq ▸ hx)
          simp only [Function.update_apply, if_neg hxt]
          exact hx'
        refine ⟨s', hrun, hI', ?_⟩
        rw [List.filter_cons_of_pos (by simpa using hready)]
        show Woke s s' ([t] ++ _)
        refine .trans ?_ hwoke
        exact .one ⟨rfl, rfl, rfl, rfl, rfl, rfl, rfl, rfl, rfl, rfl⟩ rfl rfl (.inl hst) fun _ h => h
      · rfl

/-- What the loop of `_st_vp_check_clock` does: the threads that are due are woken, in the order in which they are due. -/
structure Expired (s s' : VP ν μ κ) (now : UInt64) (added : List ν) : Prop extends Woke s s' added where
  mem : ∀ t, t ∈ added ↔ s.onSleepq t = true ∧ s.due t ≤ now
  order : added.Pairwise fun t u => s.due t ≤ s.due u
  onSleepq : ∀ t, s'.onSleepq t = true ↔ s.onSleepq t = true ∧ now < s.due t
  due : s'.due = s.due
  marked : ∀ t, s'.timedout t = true ↔ s.timedout t = true ∨ (t ∈ added ∧ s.state t = .condWait)

theorem Inv.setTimedout (hI : Inv isTerm s r) (ht : (∃ c, s.pc t = .wait c) ∧ (s.state t = .runnable ∨ s.state t = .running)) :
    Inv isTerm (s.setTimedout t true) r :=
  { hI with
    timedout := by
      simp only [VP.setTimedout, Function.update_apply]
      grind [hI.timedout] }

/-- A thread in the timeout heap is woken by the clock. -/
theorem Inv.expire (hI : Inv isTerm s r) (ht : s.onSleepq t = true) {now : UInt64} {n : Nat} {h' : SleepQ ν}
    (hrun : s.toSleepQ.delSleepQ t = some h') (hset : SleepSet s.toSleepQ h' t false) (hroot : s.root = some t)
    (hdue : ¬ now < s.due t) :
    ∃ s₁, VP.checkClockFrom now (n + 1) s = VP.checkClockFrom now n s₁ ∧ Inv isTerm s₁ r ∧ Woke s s₁ [t] ∧
      s₁.toSleepQ = h' ∧ ∀ x, s₁.timedout x = true ↔ s.timedout x = true ∨ (x = t ∧ s.state t = .condWait) := by
  obtain ⟨hgone, hjoin, hst⟩ := hI.onSleepq t ht
  have hfit := hI.fits t
  have hidle : t ≠ s.idleThread := by grind [hI.idle, Fits]
  have hwake := hI.wake hset hgone (by grind [Waits]) (by grind [Fits]) (by grind)
  have hdel : s.delSleepq t = some { s with toSleepQ := h' } := by rw [VP.delSleepq, hrun, Option.map_some]
  rw [VP.checkClockFrom, hroot]
  simp only [ht, Bool.not_true, Bool.false_eq_true, if_false, if_neg hdue, hdel, Option.bind_eq_bind, Option.bind_some]
  by_cases hcond : s.state t = .condWait
  · have hwait : ∃ c, s.pc t = .wait c := by
      cases hpc : s.pc t <;> simp_all [Fits]
    have hmark : ∀ x, Function.update s.timedout t true x = true ↔ s.timedout x = true ∨ (x = t ∧ s.state t = .condWait) := by
      intro x
      rw [Function.update_apply]
      grind
    simp only [if_pos hcond]
    exact ⟨_, if_neg hidle, hwake.setTimedout ⟨hwait, .inl (Function.update_self ..)⟩,
      .one ⟨rfl, rfl, rfl, rfl, rfl, rfl, rfl, rfl, rfl, rfl⟩ rfl rfl hst fun x hx => (hmark x).2 (.inl hx), rfl, hmark⟩
  · simp only [if_neg hcond]
    refine ⟨_, if_neg hidle, hwake, .one ⟨rfl, rfl, rfl, rfl, rfl, rfl, rfl, rfl, rfl, rfl⟩ rfl rfl hst fun _ h => h, rfl,
      fun x => ?_⟩
    simp [makeRunnable, setState, hcond]

/-- **The loop of `_st_vp_check_clock`.** -/
theorem Inv.checkClockFrom (hI : Inv isTerm s r) (now : UInt64) {n : Nat} (hn : s.sleepqSize < n) :
    ∃ s' added, VP.checkClockFrom now n s = some s' ∧ Inv isTerm s' r ∧ Expired s s' now added := by
  induction n generalizing s with
  | zero => cases hn
  | succ n ih =>
    obtain ⟨T, hT, hmem⟩ := hI.sleepq
    rcases hT.held.cases with ⟨hroot, rfl⟩ | ⟨t, l, r', hroot, rfl, -⟩
    · rw [VP.checkClockFrom, hroot]
      have hoff : ∀ t, s.onSleepq t = false := fun t => by
        have ht := hmem t
        simp only [nodes_nil, List.not_mem_nil, false_iff] at ht
        exact eq_false_of_ne_true ht
      exact ⟨s, [], rfl, hI, .refl s, by simp [hoff], List.Pairwise.nil, by simp [hoff], rfl, by simp⟩
    · have hon : s.onSleepq t = true := (hmem t).1 List.mem_cons_self
      have hfirst : ∀ x, s.onSleepq x = true → s.due t ≤ s.due x := fun x hx =>
        UInt64.le_iff_toNat_le.2 (hT.ordered.root_le ((hmem x).2 hx))
      by_cases hdue : now < s.due t
      · -- nothing is due
        rw [VP.checkClockFrom, hroot]
        simp only [hon, Bool.not_true, Bool.false_eq_true, if_false, if_pos hdue]
        have hlater : ∀ x, s.onSleepq x = true → now < s.due x := fun x hx => by
          have h₁ := hfirst x hx
          grind
        refine ⟨s, [], rfl, hI, .refl s, fun x => ?_, List.Pairwise.nil, fun x => ?_, rfl, by simp⟩
        · have hx := hlater x
          grind
        · have hx := hlater x
          grind
      · obtain ⟨h', hrun, hset, hsame, hsize⟩ := hI.delSleepq hon
        obtain ⟨s₁, hstep, hI₁, hone, hsleep, htime⟩ := hI.expire (n := n) hon hrun hset hroot hdue
        have hflag : ∀ x, s₁.onSleepq x = if x = t then false else s.onSleepq x := fun x => by rw [hsleep, hset.flag]
        have hdue₁ : s₁.due = s.due := by rw [hsleep, hsame]
        obtain ⟨s', added, hrun', hI', hexp⟩ := ih hI₁ (by rw [hsleep]; omega)
        have hmem' := hexp.mem
        rw [hdue₁] at hmem'
        refine ⟨s', t :: added, hstep.trans hrun', hI', hone.trans hexp.toWoke, fun x => ?_, ?_, fun x => ?_, ?_, fun x => ?_⟩
        · have hx := hmem' x
          have hfx := hflag x
          grind
        · refine List.pairwise_cons.2 ⟨fun x hx => ?_, ?_⟩
          · have hxm := (hmem' x).1 hx
            have hfx := hflag x
            exact hfirst x (by grind)
          · have hord := hexp.order
            rwa [hdue₁] at hord
        · have hx := hexp.onSleepq x
          have hfx := hflag x
          rw [hdue₁] at hx
          grind
        · rw [hexp.due, hdue₁]
        · have hx := hexp.marked x
          have hfx := hflag x
          have hmx := hmem' x
          have hsx := hone.state x
          have htx := htime x
          grind

/-! ## Calls that are left -/

/-- The running thread leaves its call, and the queues of the call; the idle thread gives the processor back. -/
theorem Inv.leave (hI : Inv isTerm s (some me)) (hpc : s.pc me ≠ .gone ∧ s.pc me ≠ .exit) (pc : Pc ν μ κ) (st : ThreadState)
    (hto : (pc = .user ∧ s.pc me ≠ .idle ∧ st = .running ∧ r = some me) ∨
      (pc = .idle ∧ s.pc me = .idle ∧ st = .runnable ∧ r = none))
    {onIoq interrupt timedout : ν → Bool} {ioQ : List ν} {lockQ : μ → List ν} {condQ : κ → List ν}
    (hio : (s.onIoq me = true ∧ onIoq = Function.update s.onIoq me false ∧ ioQ = s.ioQ.erase me) ∨
      (s.onIoq me = false ∧ onIoq = s.onIoq ∧ ioQ = s.ioQ))
    (hlockQ : ∀ m, (s.pc me = .lock m ∧ lockQ m = (s.lockQ m).erase me) ∨ (s.pc me ≠ .lock m ∧ lockQ m = s.lockQ m))
    (hcondQ : ∀ c, ((s.pc me = .wait c ∨ ∃ u, s.pc me = .join u c) ∧ condQ c = (s.condQ c).erase me) ∨
      ((s.pc me ≠ .wait c ∧ ∀ u, s.pc me ≠ .join u c) ∧ condQ c = s.condQ c))
    (hint : ∀ t, t ≠ me → interrupt t = s.interrupt t) (htime : ∀ t, timedout t = if t = me then false else s.timedout t) :
    Inv isTerm { s with
      state := Function.update s.state me st, pc := Function.update s.pc me pc, interrupt := interrupt, timedout := timedout
      onIoq := onIoq, ioQ := ioQ, lockQ := lockQ, condQ := condQ } r := by
  have hrun := hI.running me
  have hoff : s.onSleepq me = false := by grind [hI.onSleepq]
  have hother : ∀ t, onIoq t = if t = me then false else s.onIoq t := by
    intro t
    rcases hio with ⟨-, rfl, -⟩ | ⟨hoff, rfl, -⟩
    · exact Function.update_apply ..
    · grind
  let M : Move isTerm s me := {
    pc := pc
    state := st
    sleepq := s.toSleepQ
    onSleepq := false
    interrupt := interrupt
    timedout := timedout
    onIoq := onIoq
    ioQ := ioQ
    lockQ := lockQ
    condQ := condQ
    here := by grind
    fits := by rcases hto with ⟨rfl, -, rfl, -⟩ | ⟨rfl, -, rfl, -⟩ <;> simp [Fits]
    runnable := by grind [hI.idle]
    sleepq_set := hI.sleepSet hoff
    asleep := nofun
    sleeping := by grind
    interrupt_other := hint
    timedout_eq := htime
    onIoq_eq := by grind
    onIoq_me := by grind
    ioQ_mem := by
      intro t
      have hmem := hI.ioQ t
      have ht := hother t
      have hn := hI.ioQ_nodup
      grind
    ioQ_nodup := by grind [hI.ioQ_nodup]
    lockQ_mem := by
      intro m t
      have hm := hI.lockQ m t
      have hq := hlockQ m
      have hn := hI.lockQ_nodup m
      grind
    lockQ_nodup := by
      intro m
      have hq := hlockQ m
      have hn := hI.lockQ_nodup m
      grind
    condQ_mem := by
      intro c t
      have hc := hI.condQ c t
      have hq := hcondQ c
      have hn := hI.condQ_nodup c
      grind
    condQ_nodup := by
      intro c
      have hq := hcondQ c
      have hn := hI.condQ_nodup c
      grind
    lock := by grind
    wait := by grind
    join := by
      intro u c hj
      grind }
  exact M.inv hI (by grind) (by grind)

section Resume

variable (hI : Inv isTerm s (some s.this))

include hI

/-- The running thread is back in the code of the user. -/
theorem Inv.back (hpc : s.pc s.this ≠ .gone ∧ s.pc s.this ≠ .exit ∧ s.pc s.this ≠ .idle)
    {onIoq interrupt timedout : ν → Bool} {ioQ : List ν} {lockQ : μ → List ν} {condQ : κ → List ν}
    (hio : (s.onIoq s.this = true ∧ onIoq = Function.update s.onIoq s.this false ∧ ioQ = s.ioQ.erase s.this) ∨
      (s.onIoq s.this = false ∧ onIoq = s.onIoq ∧ ioQ = s.ioQ))
    (hlockQ : ∀ m, (s.pc s.this = .lock m ∧ lockQ m = (s.lockQ m).erase s.this) ∨
      (s.pc s.this ≠ .lock m ∧ lockQ m = s.lockQ m))
    (hcondQ : ∀ c, ((s.pc s.this = .wait c ∨ ∃ u, s.pc s.this = .join u c) ∧ condQ c = (s.condQ c).erase s.this) ∨
      ((s.pc s.this ≠ .wait c ∧ ∀ u, s.pc s.this ≠ .join u c) ∧ condQ c = s.condQ c))
    (hint : ∀ t, t ≠ s.this → interrupt t = s.interrupt t)
    (htime : ∀ t, timedout t = if t = s.this then false else s.timedout t) :
    Inv isTerm { s with
      pc := Function.update s.pc s.this .user, interrupt := interrupt, timedout := timedout
      onIoq := onIoq, ioQ := ioQ, lockQ := lockQ, condQ := condQ } (some s.this) := by
  have hrun := hI.running s.this
  have hstate : Function.update s.state s.this .running = s.state := Function.update_eq_self_iff.2 (by grind)
  have hl := hI.leave ⟨hpc.1, hpc.2.1⟩ .user .running (.inl ⟨rfl, hpc.2.2, rfl, rfl⟩) hio hlockQ hcondQ hint htime
  rwa [hstate] at hl

/-- The flag `_ST_FL_TIMEDOUT` is only set in `st_cond_timedwait`. -/
theorem Inv.not_timedout (hpc : ∀ c, s.pc s.this ≠ .wait c) (t : ν) :
    s.timedout t = if t = s.this then false else s.timedout t := by
  have ht := hI.timedout t
  grind

omit [DecidableEq ν] in
theorem Inv.off_ioq (hpc : s.pc s.this ≠ .poll) : s.onIoq s.this = false := by grind [hI.onIoq]

/-- `st_cond_timedwait` takes the thread off the wait queue and clears its flags. -/
theorem condTimedwaitResume_eq [DecidableEq κ] (hpc : s.pc s.this = .wait c ∨ ∃ u, s.pc s.this = .join u c) :
    ∃ (f g : ν → Bool) (rv : Option Errno), s.stCondTimedwaitResume c =
        some ({ s with condQ := Function.update s.condQ c ((s.condQ c).erase s.this), timedout := f, interrupt := g }, rv) ∧
      (∀ t, f t = if t = s.this then false else s.timedout t) ∧ (∀ t, t ≠ s.this → g t = s.interrupt t) ∧
      rv = if s.interrupt s.this then some .EINTR else if s.timedout s.this then some .ETIME else none := by
  rw [stCondTimedwaitResume, unlink, if_pos ((hI.condQ c s.this).2 hpc)]
  simp only [Option.bind_eq_bind, Option.bind_some, VP.setTimedout, VP.setInterrupt]
  cases ht : s.timedout s.this <;> cases hi : s.interrupt s.this
  · exact ⟨s.timedout, s.interrupt, none, by simp [hi], by grind, fun _ _ => rfl, rfl⟩
  · exact ⟨s.timedout, Function.update s.interrupt s.this false, some .EINTR, by simp [hi], by grind,
      fun t ht => Function.update_of_ne ht .., rfl⟩
  · exact ⟨Function.update s.timedout s.this false, s.interrupt, some .ETIME, by simp [hi],
      fun t => Function.update_apply .., fun _ _ => rfl, rfl⟩
  · exact ⟨Function.update s.timedout s.this false, Function.update s.interrupt s.this false, some .EINTR, by simp [hi],
      fun t => Function.update_apply .., fun t ht => Function.update_of_ne ht .., rfl⟩

/-- The thread has left the wait queue of a condition variable. -/
theorem Inv.leaveCond [DecidableEq κ] (hpc : s.pc s.this = .wait c ∨ ∃ u, s.pc s.this = .join u c) {f g : ν → Bool}
    (hf : ∀ t, f t = if t = s.this then false else s.timedout t) (hg : ∀ t, t ≠ s.this → g t = s.interrupt t) :
    Inv isTerm { s with
      pc := Function.update s.pc s.this .user, condQ := Function.update s.condQ c ((s.condQ c).erase s.this), timedout := f
      interrupt := g } (some s.this) := by
  have hne : ∀ p, p = .poll ∨ p = .gone ∨ p = .exit ∨ p = .idle ∨ (∃ m, p = .lock m) → s.pc s.this ≠ p := by
    rintro p hp rfl
    grind
  refine hI.back ⟨hne _ (by simp), hne _ (by simp), hne _ (by simp)⟩ (.inr ⟨hI.off_ioq (hne _ (by simp)), rfl, rfl⟩)
    (fun m => .inr ⟨hne _ (by simp), rfl⟩) (fun c' => ?_) hg hf
  simp only [Function.update_apply]
  grind

end Resume

/-! ## Threads that exit and are joined -/

/-- **A zombie is joined**: it becomes runnable, to clean up. Nobody waits to join it. -/
theorem Inv.reap (hI : Inv isTerm s r) (hst : s.state u = .zombie) (hgone : s.pc u ≠ .gone)
    (hno : ∀ c x, s.term u = some c → s.pc x ≠ .join u c) :
    Inv isTerm ({ s with zombieQ := s.zombieQ.erase u }.makeRunnable u) r := by
  have hfit := hI.fits u
  have hidle : u ≠ s.idleThread := by grind [hI.idle, Fits]
  exact { hI with
    fits := fun x => by
      have hx := hI.fits x
      simp only [makeRunnable, setState, Function.update_apply]
      grind [fits_runnable]
    running := by
      simp only [makeRunnable, setState, Function.update_apply]
      grind [hI.running]
    runQ := by
      simp only [makeRunnable, setState, Function.update_apply]
      grind [hI.runQ]
    runQ_nodup := by
      simp only [makeRunnable, setState]
      grind [hI.runQ, hI.runQ_nodup]
    zombieQ := by
      simp only [makeRunnable, setState, Function.update_apply]
      grind [hI.zombieQ, hI.zombieQ_nodup]
    zombieQ_nodup := hI.zombieQ_nodup.erase u
    ioWait := by
      simp only [makeRunnable, setState, Function.update_apply]
      grind [hI.ioWait]
    onSleepq := by
      simp only [makeRunnable, setState, Function.update_apply]
      grind [hI.onSleepq]
    sleeping := by
      simp only [makeRunnable, setState, Function.update_apply]
      grind [hI.sleeping]
    timedout := by
      simp only [makeRunnable, setState, Function.update_apply]
      grind [hI.timedout]
    unlocked := by
      simp only [makeRunnable, setState, Function.update_apply]
      grind [hI.unlocked]
    handed := by
      simp only [makeRunnable, setState, Function.update_apply]
      grind [hI.handed]
    woken := by
      simp only [makeRunnable, setState, Function.update_apply]
      grind [hI.woken, Fits]
    joined := by
      simp only [makeRunnable, setState, Function.update_apply]
      intro c x v hx hxs
      have hj := hI.joined c x v hx
      have hn := hno c x
      grind [Fits]
    zombie := by
      simp only [makeRunnable, setState, Function.update_apply]
      grind [hI.zombie] }

/-- **The running thread goes**: it returns from `st_thread_exit` for good. -/
theorem Inv.gone (hI : Inv isTerm s (some me)) (hpc : s.pc me = .user ∨ s.pc me = .exit) {f : ν → Option κ} {g : ν → Nat}
    {n : Nat} (hf : ∀ t, t ≠ me → f t = s.term t) (hn : (s.pc me = .user → n = s.activeCount - 1) ∧
      (s.pc me = .exit → n = s.activeCount)) :
    Inv isTerm { s with pc := Function.update s.pc me .gone, term := f, retval := g, activeCount := n } none := by
  have hrun := hI.running me
  exact { hI with
    fits := fun x => by
      have hx := hI.fits x
      simp only [Function.update_apply]
      grind [Fits]
    running := by grind [Function.update_apply, hI.running]
    idle := by grind [Function.update_apply, hI.idle]
    runQ := by grind [Function.update_apply, hI.runQ]
    zombieQ := by grind [Function.update_apply, hI.zombieQ]
    onIoq := by grind [Function.update_apply, hI.onIoq]
    ioWait := by grind [Function.update_apply, hI.ioWait]
    onSleepq := by grind [Function.update_apply, hI.onSleepq]
    sleeping := by grind [Function.update_apply, hI.sleeping]
    timedout := by grind [Function.update_apply, hI.timedout]
    lockQ := by grind [Function.update_apply, hI.lockQ]
    unlocked := by grind [Function.update_apply, hI.unlocked]
    handed := by grind [Function.update_apply, hI.handed]
    woken := by grind [Function.update_apply, hI.woken]
    condQ := by grind [Function.update_apply, hI.condQ]
    wait := by grind [Function.update_apply, hI.wait]
    term := by grind [Function.update_apply, hI.term]
    term_unique := by grind [Function.update_apply, hI.term_unique]
    join := by grind [Function.update_apply, hI.join]
    joiner := by grind [Function.update_apply, hI.joiner]
    joiner_unique := by grind [Function.update_apply, hI.joiner_unique]
    joined := by
      simp only [Function.update_apply]
      intro c x v hx hxs
      have hj := hI.joined c x v
      grind
    zombie := by grind [Function.update_apply, hI.zombie]
    active := by
      obtain ⟨l, hl, hmem, hlen⟩ := hI.active
      have hme := hmem me
      rcases hpc with hpc | hpc
      · refine ⟨l.erase me, hl.erase me, fun x => ?_, ?_⟩
        · have hx := hmem x
          simp only [Function.update_apply]
          grind
        · simp only [hn.1 hpc, hlen]
          grind
      · refine ⟨l, hl, fun x => ?_, (hn.2 hpc).trans hlen⟩
        have hx := hmem x
        simp only [Function.update_apply]
        grind }

/-- **The running thread becomes a zombie**, and the thread `w` that waits to join it, if there is one, is woken. -/
theorem Inv.exit (hI : Inv isTerm s (some me)) (hpc : s.pc me = .user) (hc : s.term me = some c) {w : List ν}
    {st : ν → ThreadState} {f : ν → Nat} (hst : ∀ t, st t = if t = me then .zombie else if t ∈ w then .runnable else s.state t)
    (hw : ∀ t, t ∈ w ↔ s.pc t = .join me c ∧ s.state t = .condWait) (hnodup : w.Nodup) :
    Inv isTerm { s with
      state := st, pc := Function.update s.pc me .exit, zombieQ := s.zombieQ ++ [me], runQ := s.runQ ++ w, retval := f
      activeCount := s.activeCount - 1 } none := by
  have hrun := hI.running me
  have hme : me ∉ w := by grind
  exact { hI with
    fits := fun x => by
      have hx := hI.fits x
      simp only [Function.update_apply, hst]
      grind [Fits]
    running := by grind [Function.update_apply, hI.running]
    idle := by grind [Function.update_apply, hI.idle]
    runQ := by
      intro x
      have hx := hI.runQ x
      have hidle := hI.idle x
      simp only [Function.update_apply, hst, List.mem_append]
      grind
    runQ_nodup := by
      refine List.Nodup.append hI.runQ_nodup hnodup fun x hx hxw => ?_
      have hxq := (hI.runQ x).1 hx
      have hxs := (hw x).1 hxw
      grind
    zombieQ := by
      intro x
      have hx := hI.zombieQ x
      have hxw := hw x
      simp only [Function.update_apply, hst, List.mem_append, List.mem_singleton]
      grind
    zombieQ_nodup := by grind [hI.zombieQ, hI.zombieQ_nodup]
    onIoq := by grind [Function.update_apply, hI.onIoq]
    ioWait := by grind [Function.update_apply, hI.ioWait]
    onSleepq := by
      intro x hx
      have hs := hI.onSleepq x hx
      have hxw := hw x
      simp only [Function.update_apply, hst]
      grind
    sleeping := by grind [Function.update_apply, hI.sleeping]
    timedout := by grind [Function.update_apply, hI.timedout]
    lockQ := by grind [Function.update_apply, hI.lockQ]
    unlocked := by grind [Function.update_apply, hI.unlocked]
    handed := by grind [Function.update_apply, hI.handed]
    woken := by grind [Function.update_apply, hI.woken]
    condQ := by grind [Function.update_apply, hI.condQ]
    wait := by grind [Function.update_apply, hI.wait]
    term := by grind [Function.update_apply, hI.term]
    term_unique := by grind [Function.update_apply, hI.term_unique]
    join := by grind [Function.update_apply, hI.join]
    joiner := by grind [Function.update_apply, hI.joiner]
    joiner_unique := by grind [Function.update_apply, hI.joiner_unique]
    joined := by
      simp only [Function.update_apply, hst]
      intro c' x v hx hxs
      have hj := hI.joined c' x v
      have hxw := hw x
      have hpx : s.pc x = .join v c' := by grind
      grind
    zombie := by
      simp only [Function.update_apply, hst]
      intro c' x v hvs hv hvc hx
      have hz := hI.zombie c' x v
      have hxw := hw x
      grind
    active := by
      obtain ⟨l, hl, hmem, hlen⟩ := hI.active
      have hme := hmem me
      refine ⟨l.erase me, hl.erase me, fun x => ?_, ?_⟩
      · have hx := hmem x
        simp only [Function.update_apply]
        grind
      · simp only [hlen]
        grind }

/-- **A thread is created**, at an address that is free, with a new condition variable when it is joinable. -/
theorem Inv.create (hI : Inv isTerm s (some me)) (hme : s.pc me ≠ .gone) (hgone : s.pc t = .gone) (hidle : t ≠ s.idleThread) {o : Option κ}
    (ho : ∀ c, o = some c → isTerm c ∧ s.condQ c = [] ∧ ∀ x, s.pc x ≠ .gone → s.term x ≠ some c)
    {q : SleepQ ν} (hroot : q.root = s.root) (hsize : q.sleepqSize = s.sleepqSize)
    (hother : ∀ x, x ≠ t → q.left x = s.left x ∧ q.right x = s.right x ∧ q.heapIndex x = s.heapIndex x ∧ q.due x = s.due x)
    (hon : ∀ x, q.onSleepq x = if x = t then false else s.onSleepq x) :
    Inv isTerm { s with
      toSleepQ := q, state := Function.update s.state t .runnable, pc := Function.update s.pc t .user
      interrupt := Function.update s.interrupt t false, timedout := Function.update s.timedout t false
      term := Function.update s.term t o, retval := Function.update s.retval t 0, runQ := s.runQ ++ [t]
      activeCount := s.activeCount + 1 } (some me) := by
  have hoff : s.onSleepq t = false := by grind [hI.onSleepq]
  have hempty : ∀ c x, o = some c → s.pc x ≠ .wait c ∧ ∀ u, s.pc x ≠ .join u c := by
    intro c x hc
    have hx := hI.condQ c x
    have hq := (ho c hc).2.1
    grind
  exact { hI with
    fits := fun x => by
      have hx := hI.fits x
      simp only [Function.update_apply]
      grind [Fits]
    running := by grind [Function.update_apply, hI.running]
    idle := by grind [Function.update_apply, hI.idle]
    runQ := by grind [Function.update_apply, hI.runQ]
    runQ_nodup := by grind [hI.runQ, hI.runQ_nodup]
    zombieQ := by grind [Function.update_apply, hI.zombieQ]
    onIoq := by grind [Function.update_apply, hI.onIoq]
    ioWait := by grind [Function.update_apply, hI.ioWait]
    sleepq := by
      obtain ⟨T, hT, hmem⟩ := hI.sleepq
      refine ⟨T, hT.congr hroot hsize fun z hz => hother z ?_, fun x => ?_⟩
      · rintro rfl
        exact Bool.false_ne_true (hoff.symm.trans ((hmem z).1 hz))
      · have hx := hmem x
        have hx' := hon x
        grind
    onSleepq := by grind [Function.update_apply, hI.onSleepq]
    sleeping := by grind [Function.update_apply, hI.sleeping]
    timedout := by grind [Function.update_apply, hI.timedout]
    lockQ := by grind [Function.update_apply, hI.lockQ]
    unlocked := by grind [Function.update_apply, hI.unlocked]
    handed := by grind [Function.update_apply, hI.handed]
    woken := by grind [Function.update_apply, hI.woken]
    condQ := by grind [Function.update_apply, hI.condQ]
    wait := by grind [Function.update_apply, hI.wait]
    term := by grind [Function.update_apply, hI.term]
    term_unique := by grind [Function.update_apply, hI.term_unique]
    join := by grind [Function.update_apply, hI.join]
    joiner := by grind [Function.update_apply, hI.joiner]
    joiner_unique := by grind [Function.update_apply, hI.joiner_unique]
    joined := by
      simp only [Function.update_apply]
      intro c x v hx hxs
      have hj := hI.joined c x v
      grind
    zombie := by grind [Function.update_apply, hI.zombie]
    active := by
      obtain ⟨l, hl, hmem, hlen⟩ := hI.active
      have ht := hmem t
      refine ⟨t :: l, List.nodup_cons.2 ⟨by grind, hl⟩, fun x => ?_, congrArg (· + 1) hlen⟩
      have hx := hmem x
      simp only [Function.update_apply]
      grind }

omit [DecidableEq ν] in
/-- A new time: the timeout heap stays as it is. -/
theorem Inv.setClock (hI : Inv isTerm s r) (now : UInt64) : Inv isTerm { s with lastClock := now } r :=
  { hI with
    sleepq := by
      obtain ⟨T, hT, hmem⟩ := hI.sleepq
      exact ⟨T, hT.congr rfl rfl fun _ _ => ⟨rfl, rfl, rfl, rfl⟩, hmem⟩ }

omit [DecidableEq ν] in
/-- When the idle thread has got the processor because no other thread is runnable, the threads on the io queue wait there. -/
theorem Inv.waiting (hI : Inv isTerm s (some s.this)) (hpc : s.pc s.this = .idle) (hq : s.runQ = []) (ht : s.onIoq t = true) :
    s.state t = .ioWait := by
  have hpoll := hI.onIoq t ht
  have hfit := hI.fits t
  have hrun := hI.running t
  have hrunQ := hI.runQ t
  have hidle := hI.idle t
  have hidle' := hI.idle s.this
  rw [hq] at hrunQ
  grind [Fits]

end VP

end ToolLib.StateThreads
