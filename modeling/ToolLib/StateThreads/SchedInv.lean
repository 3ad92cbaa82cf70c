import ToolLib.StateThreads.Sched

/-!
# What the parts of a step do to the invariant

One lemma for each thing that happens to threads: one is woken (`Inv.wake`), the running one blocks (`Inv.poll` to
`Inv.zombie`), goes (`Inv.gone`) or leaves its call (`Inv.leavePoll` to `Inv.leaveLock`), a mutex changes its owner, a thread is
created, a zombie is joined, and the processor changes hands (`Inv.schedule`). The loops that wake threads follow by
induction on the queue.
-/

namespace ToolLib.StateThreads

open Base

variable {ν μ κ : Type} [DecidableEq ν]

namespace VP

variable {isTerm : κ → Prop} {s s' : VP ν μ κ} {r : Option ν} {t u me : ν} {c : κ} {m : μ} {h' : SleepQ ν}

/-- `h'` is the sleep queue with `t` on it, or off it. -/
structure SleepSet (h h' : SleepQ ν) (t : ν) (b : Bool) : Prop where
  heap : ∃ T, IsHeap h' T ∧ ∀ x, x ∈ nodes T ↔ h'.onSleepq x = true
  flag : ∀ x, h'.onSleepq x = if x = t then b else h.onSleepq x

theorem Inv.sleepSet (hI : Inv isTerm s r) {b : Bool} (ht : s.onSleepq t = b) : SleepSet s.toSleepQ s.toSleepQ t b :=
  ⟨hI.sleepq, by grind⟩

/-- `_ST_ADD_SLEEPQ`. -/
theorem Inv.addSleepq (hI : Inv isTerm s r) (ht : s.onSleepq t = false) (timeout : UInt64) :
    ∃ h', s.toSleepQ.addSleepQ t timeout = some h' ∧ SleepSet s.toSleepQ h' t true := by
  obtain ⟨T, hT, hmem⟩ := hI.sleepq
  have hx : t ∉ nodes T := fun hin => Bool.false_ne_true (ht.symm.trans ((hmem t).1 hin))
  obtain ⟨h', T', hrun, hT', hperm, -, -, hflag⟩ := addSleepQ_spec hT hx timeout
  have hflag' : ∀ x, h'.onSleepq x = if x = t then true else s.onSleepq x := fun x => by
    rw [hflag, Function.update_apply]
  refine ⟨h', hrun, ⟨T', hT', fun x => ?_⟩, hflag'⟩
  rw [hperm.mem_iff, List.mem_cons, hmem, hflag']
  grind

/-- `_ST_DEL_SLEEPQ`. -/
theorem Inv.delSleepq (hI : Inv isTerm s r) (ht : s.onSleepq t = true) :
    ∃ h', s.toSleepQ.delSleepQ t = some h' ∧ SleepSet s.toSleepQ h' t false ∧ h'.due = s.due ∧
      h'.sleepqSize + 1 = s.sleepqSize := by
  obtain ⟨T, hT, hmem⟩ := hI.sleepq
  obtain ⟨h', T', hrun, hT', hperm, hdue, -, hflag⟩ := delSleepQ_spec hT ((hmem t).2 ht)
  have hflag' : ∀ x, h'.onSleepq x = if x = t then false else s.onSleepq x := fun x => by
    rw [hflag, Function.update_apply]
  have hnodup := List.nodup_cons.1 (hperm.nodup_iff.2 hT.nodup)
  have hsize : h'.sleepqSize + 1 = s.sleepqSize := by
    rw [← hT.laid.length hT.nodup, ← hT'.laid.length hT'.nodup]
    exact hperm.length_eq
  refine ⟨h', hrun, ⟨⟨T', hT', fun x => ?_⟩, hflag'⟩, hdue, hsize⟩
  have hx := hperm.mem_iff (a := x)
  rw [List.mem_cons, hmem] at hx
  rw [hflag']
  grind

theorem Inv.offSleepq (hI : Inv isTerm s r) (t : ν) : ∃ h', SleepSet s.toSleepQ h' t false ∧
    ∀ s₁ : VP ν μ κ, s₁.toSleepQ = s.toSleepQ → s₁.offSleepq t = some { s₁ with toSleepQ := h' } := by
  cases ht : s.onSleepq t with
  | true =>
    obtain ⟨h', hrun, hset, -⟩ := hI.delSleepq ht
    refine ⟨h', hset, fun s₁ heq => ?_⟩
    rw [VP.offSleepq, heq, if_pos ht, VP.delSleepq, heq, hrun, Option.map_some]
  | false =>
    refine ⟨s.toSleepQ, ⟨hI.sleepq, by grind⟩, fun s₁ heq => ?_⟩
    rw [VP.offSleepq, heq, if_neg (by rw [ht]; exact Bool.false_ne_true), ← heq]

theorem Inv.startTimeout (hI : Inv isTerm s r) (ht : s.onSleepq s.this = false) (timeout : UInt64) :
    ∃ h', SleepSet s.toSleepQ h' s.this (decide (timeout ≠ noTimeout)) ∧
      ∀ s₁ : VP ν μ κ, s₁.toSleepQ = s.toSleepQ → s₁.this = s.this →
        s₁.startTimeout timeout = some { s₁ with toSleepQ := h' } := by
  by_cases hno : timeout = noTimeout
  · refine ⟨s.toSleepQ, ⟨hI.sleepq, by grind⟩, fun s₁ heq _ => ?_⟩
    rw [VP.startTimeout, if_pos hno, ← heq]
  · obtain ⟨h', hrun, hset⟩ := hI.addSleepq ht timeout
    refine ⟨h', by rwa [decide_eq_true hno], fun s₁ heq hthis => ?_⟩
    rw [VP.startTimeout, if_neg hno, VP.addSleepq, heq, hthis, hrun, Option.map_some]

/-! ## A thread is woken -/

/-- The states of a thread that waits for something. -/
def Waits (st : ThreadState) : Prop := st ≠ .running ∧ st ≠ .runnable ∧ st ≠ .zombie

/-- **A thread is woken**, off the sleep queue, with a reason when it waits for a mutex or to join a thread. -/
theorem Inv.wake (hI : Inv isTerm s r) (hset : SleepSet s.toSleepQ h' t false) (hgone : s.pc t ≠ .gone)
    (hst : Waits (s.state t)) (hlock : ∀ m, s.pc t = .lock m → s.owner m = some t ∨ s.interrupt t = true)
    (hjoin : ∀ u c, s.pc t = .join u c → s.interrupt t = true ∨ (s.state u = .zombie ∧ s.pc u = .exit ∧ s.term u = some c)) :
    Inv isTerm { s with toSleepQ := h', state := Function.update s.state t .runnable, runQ := s.runQ ++ [t] } r := by
  have hflag := hset.flag
  have hfit := hI.fits t
  have hidle : t ≠ s.idleThread := by grind [hI.idle, Fits, Waits]
  exact { hI with
    fits := fun x => by
      have hx := hI.fits x
      grind [Function.update_apply, fits_runnable]
    running := by grind [Function.update_apply, hI.running, Waits]
    runQ := by grind [Function.update_apply, hI.runQ]
    runQ_nodup := by grind [hI.runQ, hI.runQ_nodup, Waits]
    zombieQ := by grind [Function.update_apply, hI.zombieQ, Waits]
    ioWait := by grind [Function.update_apply, hI.ioWait]
    sleepq := hset.heap
    onSleepq := by grind [Function.update_apply, hI.onSleepq]
    sleeping := by grind [Function.update_apply, hI.sleeping]
    timedout := by grind [Function.update_apply, hI.timedout]
    unlocked := by grind [Function.update_apply, hI.unlocked]
    handed := by grind [Function.update_apply, hI.handed]
    woken := by grind [Function.update_apply, hI.woken]
    joined := by grind [Function.update_apply, hI.joined, Waits]
    zombie := by grind [Function.update_apply, hI.zombie] }

/-! ## The running thread moves -/

/-- The running thread `me` goes on at another place: it blocks, or it leaves its call. Its own entries change, and it may be
put on the queues that go with the place and taken off the others. -/
structure Move (isTerm : κ → Prop) (s : VP ν μ κ) (me : ν) where
  pc : Pc ν μ κ
  state : ThreadState
  sleepq : SleepQ ν
  onSleepq : Bool
  interrupt : ν → Bool
  timedout : ν → Bool
  onIoq : ν → Bool
  ioQ : List ν
  lockQ : μ → List ν
  condQ : κ → List ν
  here : pc ≠ .gone ∧ pc ≠ .exit ∧ (pc = .idle ↔ s.pc me = .idle) ∧ s.pc me ≠ .gone ∧ s.pc me ≠ .exit
  fits : Fits pc state
  runnable : state = .runnable → me = s.idleThread
  sleepq_set : SleepSet s.toSleepQ sleepq me onSleepq
  asleep : onSleepq = true → (∀ u c, pc ≠ .join u c) ∧ (state = .ioWait ∨ state = .condWait ∨ state = .sleeping)
  sleeping : state = .sleeping → onSleepq = true
  interrupt_other : ∀ t, t ≠ me → interrupt t = s.interrupt t
  timedout_eq : ∀ t, timedout t = if t = me then false else s.timedout t
  onIoq_eq : ∀ t, t ≠ me → onIoq t = s.onIoq t
  onIoq_me : (onIoq me = true → pc = .poll) ∧ (state = .ioWait → onIoq me = true)
  ioQ_mem : ∀ t, t ∈ ioQ ↔ onIoq t = true
  ioQ_nodup : ioQ.Nodup
  lockQ_mem : ∀ m t, t ∈ lockQ m ↔ if t = me then pc = .lock m else s.pc t = .lock m
  lockQ_nodup : ∀ m, (lockQ m).Nodup
  condQ_mem : ∀ c t, t ∈ condQ c ↔
    if t = me then pc = .wait c ∨ ∃ u, pc = .join u c else s.pc t = .wait c ∨ ∃ u, s.pc t = .join u c
  condQ_nodup : ∀ c, (condQ c).Nodup
  lock : ∀ m, pc = .lock m → state = .lockWait ∧ s.owner m ≠ none ∧ s.owner m ≠ some me
  wait : ∀ c, pc = .wait c → ¬ isTerm c
  join : ∀ u c, pc = .join u c → isTerm c ∧ state = .condWait ∧ s.state u ≠ .zombie ∧
    (∀ v, s.pc v ≠ .gone → s.term v = some c → u = v) ∧ ∀ x, s.pc x ≠ .join u c

/-- The state after a move. -/
def Move.after (M : Move isTerm s me) : VP ν μ κ :=
  { s with
    toSleepQ := M.sleepq
    state := Function.update s.state me M.state
    pc := Function.update s.pc me M.pc
    interrupt := M.interrupt
    timedout := M.timedout
    onIoq := M.onIoq
    ioQ := M.ioQ
    lockQ := M.lockQ
    condQ := M.condQ }

/-- **A move keeps the invariant.** -/
theorem Move.inv (M : Move isTerm s me) (hI : Inv isTerm s (some me)) (hr : M.state = .running ↔ r = some me)
    (hr' : r = some me ∨ r = none) : Inv isTerm M.after r := by
  have hrun := hI.running me
  have hset := M.sleepq_set.flag
  obtain ⟨hgone, hexit, hidle, hgone', hexit'⟩ := M.here
  have hz : M.state ≠ .zombie := fun h => (fits_zombie (h ▸ M.fits)).elim hexit hgone
  exact {
    fits := fun x => by
      have hx := hI.fits x
      have hm := M.fits
      simp only [Move.after, Function.update_apply]
      split
      · exact hm
      · exact hx
    running := by
      simp only [Move.after, Function.update_apply]
      grind [hI.running]
    idle := by
      simp only [Move.after, Function.update_apply]
      grind [hI.idle]
    runQ := by
      simp only [Move.after, Function.update_apply]
      grind [hI.runQ, M.runnable]
    runQ_nodup := hI.runQ_nodup
    zombieQ := by
      simp only [Move.after, Function.update_apply]
      grind [hI.zombieQ]
    zombieQ_nodup := hI.zombieQ_nodup
    ioQ := M.ioQ_mem
    ioQ_nodup := M.ioQ_nodup
    onIoq := by
      simp only [Move.after, Function.update_apply]
      grind [hI.onIoq, M.onIoq_eq, M.onIoq_me]
    ioWait := by
      simp only [Move.after, Function.update_apply]
      grind [hI.ioWait, M.onIoq_eq, M.onIoq_me]
    sleepq := M.sleepq_set.heap
    onSleepq := by
      simp only [Move.after, Function.update_apply]
      grind [hI.onSleepq, M.asleep]
    sleeping := by
      simp only [Move.after, Function.update_apply]
      grind [hI.sleeping, M.sleeping]
    timedout := by
      simp only [Move.after, Function.update_apply]
      grind [hI.timedout, M.timedout_eq]
    lockQ := by
      simp only [Move.after, Function.update_apply]
      grind [hI.lockQ, M.lockQ_mem]
    lockQ_nodup := M.lockQ_nodup
    unlocked := by
      simp only [Move.after, Function.update_apply]
      grind [hI.unlocked, M.lock]
    handed := by
      simp only [Move.after, Function.update_apply]
      grind [hI.handed, M.lock]
    woken := by
      simp only [Move.after, Function.update_apply]
      grind [hI.woken, M.lock, M.interrupt_other]
    condQ := by
      simp only [Move.after, Function.update_apply]
      grind [hI.condQ, M.condQ_mem]
    condQ_nodup := M.condQ_nodup
    wait := by
      simp only [Move.after, Function.update_apply]
      grind [hI.wait, M.wait]
    term := by
      simp only [Move.after, Function.update_apply]
      grind [hI.term]
    term_unique := by
      simp only [Move.after, Function.update_apply]
      grind [hI.term_unique]
    join := by
      simp only [Move.after, Function.update_apply]
      intro c t u h
      have hj := M.join u c
      have hi := hI.join c t u
      grind
    joiner := by
      simp only [Move.after, Function.update_apply]
      intro c t u v hu hterm h
      have hj := M.join v c
      have hi := hI.joiner c t u v
      grind
    joiner_unique := by
      simp only [Move.after, Function.update_apply]
      intro c t u x hu hterm ht hx
      have hj := M.join u c
      have hi := hI.joiner_unique c t u x
      grind
    joined := by
      simp only [Move.after, Function.update_apply]
      intro c t u h hst
      have hj := M.join u c
      have hi := hI.joined c t u
      have hint := M.interrupt_other t
      grind
    zombie := by
      simp only [Move.after, Function.update_apply]
      intro c t u hu hpc hterm h
      have hj := M.join u c
      have hi := hI.zombie c t u
      grind
    active := by
      obtain ⟨l, hl, hmem, hlen⟩ := hI.active
      refine ⟨l, hl, ?_, hlen⟩
      simp only [Move.after, Function.update_apply]
      grind }

/-! ## The processor changes hands -/

theorem Inv.resumed (hI : Inv isTerm s none) (ht : s.state t = .runnable) {q : List ν}
    (hq : ∀ x, x ∈ q ↔ x ∈ s.runQ ∧ x ≠ t) (hnodup : q.Nodup) :
    Inv isTerm { s with state := Function.update s.state t .running, runQ := q, this := t } (some t) :=
  { hI with
    fits := fun x => by
      have hx := hI.fits x
      grind [Function.update_apply, fits_running]
    running := by grind [Function.update_apply, hI.running]
    runQ := by grind [Function.update_apply, hI.runQ]
    runQ_nodup := hnodup
    zombieQ := by grind [Function.update_apply, hI.zombieQ]
    ioWait := by grind [Function.update_apply, hI.ioWait]
    onSleepq := by grind [Function.update_apply, hI.onSleepq]
    sleeping := by grind [Function.update_apply, hI.sleeping]
    timedout := by grind [Function.update_apply, hI.timedout]
    unlocked := by grind [Function.update_apply, hI.unlocked]
    handed := by grind [Function.update_apply, hI.handed]
    woken := by grind [Function.update_apply, hI.woken]
    joined := by grind [Function.update_apply, hI.joined]
    zombie := by grind [Function.update_apply, hI.zombie] }

/-- The thread `t` that `_st_vp_schedule` takes from the run queue `q`, which is `q'` afterwards. -/
def Next (idleThread : ν) (q : List ν) (t : ν) (q' : List ν) : Prop :=
  (q = t :: q' ∧ t ≠ idleThread) ∨ (q = [] ∧ q' = [] ∧ t = idleThread)

/-- **`_st_vp_schedule` finds a runnable thread**: the first one of the run queue, or the idle thread. -/
theorem Inv.schedule (hI : Inv isTerm s none) : ∃ s', s.vpSchedule = some s' ∧ Inv isTerm s' (some s'.this) ∧
    s'.pc s'.this ≠ .gone ∧ s'.idleThread = s.idleThread ∧ Next s.idleThread s.runQ s'.this s'.runQ := by
  cases hq : s.runQ with
  | nil =>
    have hpc := (hI.idle s.idleThread).2 rfl
    have hidle : s.state s.idleThread = .runnable := by
      have hfit := hI.fits s.idleThread
      have hrun := hI.running s.idleThread
      grind [Fits]
    have hrun : s.vpSchedule = some { s.setState s.idleThread .running with this := s.idleThread } := by
      simp only [vpSchedule, hq, if_pos hidle]
    refine ⟨_, hrun, hI.resumed hidle (fun x => ?_) hI.runQ_nodup, by simp [setState, hpc], rfl, .inr ⟨rfl, hq, rfl⟩⟩
    show x ∈ s.runQ ↔ x ∈ s.runQ ∧ x ≠ s.idleThread
    rw [hq]
    simp
  | cons t q =>
    have ht := (hI.runQ t).1 (hq ▸ List.mem_cons_self)
    have hnodup := hI.runQ_nodup
    rw [hq] at hnodup
    have hrun : s.vpSchedule = some { s.setState t .running with runQ := q, this := t } := by
      simp only [vpSchedule, hq, if_pos ht.1]
    refine ⟨_, hrun, hI.resumed ht.1 (fun x => ?_) (List.nodup_cons.1 hnodup).2, ht.2.1, rfl, .inl ⟨rfl, ht.2.2⟩⟩
    rw [hq]
    grind

theorem setPc_user (hpc : s.pc s.this = .user) : s.setPc s.this .user = s := by
  rw [setPc, ← hpc, Function.update_eq_self]

/-- The flag of an interrupt is set by others, and taken back by the thread when it reports it. -/
theorem Inv.setInterrupt {b : Bool} (hI : Inv isTerm s r) (hb : b = true ∨ s.pc t = .user) :
    Inv isTerm (s.setInterrupt t b) r :=
  { hI with
    woken := by
      simp only [VP.setInterrupt, Function.update_apply]
      grind [hI.woken]
    joined := by
      simp only [VP.setInterrupt, Function.update_apply]
      grind [hI.joined] }

/-- The loop of `st_mutex_unlock` stops at the first thread that still waits. -/
theorem unlockFrom_cases [DecidableEq μ] (s : VP ν μ κ) (lock : μ) (q : List ν) :
    (VP.unlockFrom lock q s = s.setOwner lock none ∧ ∀ t ∈ q, s.state t ≠ .lockWait) ∨
      ∃ t q₁ q₂, q = q₁ ++ t :: q₂ ∧ (∀ x ∈ q₁, s.state x ≠ .lockWait) ∧ s.state t = .lockWait ∧
        VP.unlockFrom lock q s = (s.setOwner lock (some t)).makeRunnable t := by
  induction q with
  | nil => exact .inl ⟨rfl, nofun⟩
  | cons t q ih =>
    rw [VP.unlockFrom]
    by_cases hst : s.state t = .lockWait
    · rw [if_pos hst]
      exact .inr ⟨t, [], q, rfl, nofun, hst, rfl⟩
    · rw [if_neg hst]
      rcases ih with ⟨hrun, hno⟩ | ⟨u, q₁, q₂, rfl, hno, hu, hrun⟩
      · exact .inl ⟨hrun, List.forall_mem_cons.2 ⟨hst, hno⟩⟩
      · exact .inr ⟨u, t :: q₁, q₂, rfl, List.forall_mem_cons.2 ⟨hst, hno⟩, hu, hrun⟩

variable [DecidableEq μ] [DecidableEq κ] {a : Act ν μ κ}

/-- **A step without a fault that keeps the invariant.** It only adds to the run queue; when the call has not returned, the
next thread has been taken from it. -/
def Outcome (isTerm : κ → Prop) (s : VP ν μ κ) (a : Act ν μ κ) : Option (VP ν μ κ × Option Ret) → Prop
  | none => False
  | some (s', r) => Inv isTerm s' (some s'.this) ∧ s'.pc s'.this ≠ .gone ∧ s'.idleThread = s.idleThread ∧
      (∃ added, (r.isSome ∧ s'.this = s.this ∧ s'.pc s'.this = .user ∧ s'.runQ = s.runQ ++ added) ∨
        (r = none ∧ Next s.idleThread (s.runQ ++ added) s'.this s'.runQ)) ∧
      ∃ s₁ e, Did s a s₁ e ∧ Ends s₁ e s' r

theorem outcome_ret {x : Ret} (added : List ν) (hI : Inv isTerm (s'.setPc s'.this .user) (some s'.this))
    (hthis : s'.this = s.this) (hidle : s'.idleThread = s.idleThread) (hq : s'.runQ = s.runQ ++ added)
    (hd : Did s a s' (.inl x)) : Outcome isTerm s a (s'.ret x) :=
  ⟨hI, by simp [setPc], hidle, ⟨added, .inl ⟨rfl, hthis, Function.update_self .., hq⟩⟩, s', _, hd, rfl, rfl⟩

theorem outcome_switch {pc : Pc ν μ κ} (added : List ν) (hI : Inv isTerm (s'.setPc s'.this pc) none)
    (hidle : s'.idleThread = s.idleThread) (hq : s'.runQ = s.runQ ++ added) (hd : Did s a s' (.inr pc)) :
    Outcome isTerm s a (s'.switchContext pc) := by
  obtain ⟨s₁, hrun, hI₁, hgone, hidle₁, hnext⟩ := hI.schedule
  rw [switchContext, hrun, Option.map_some]
  refine ⟨hI₁, hgone, hidle₁.trans hidle, ⟨added, .inr ⟨rfl, ?_⟩⟩, s', _, hd, hrun, rfl⟩
  rw [← hq, ← hidle]
  exact hnext

/-- A call returns that has not been left: the thread is in the code of the user. -/
theorem outcome_back {x : Ret} (added : List ν) (hI : Inv isTerm s' (some s'.this)) (hpc : s'.pc s'.this = .user)
    (hthis : s'.this = s.this) (hidle : s'.idleThread = s.idleThread) (hq : s'.runQ = s.runQ ++ added)
    (hd : Did s a s' (.inl x)) : Outcome isTerm s a (s'.ret x) :=
  outcome_ret added (by rwa [setPc_user hpc]) hthis hidle hq hd

/-! ## Calls that block -/

section Block

variable (hI : Inv isTerm s (some s.this)) (hpc : s.pc s.this = .user)

include hI hpc

theorem outcome_error {e : Errno} (ha : a.Refused s.this s.owner) : Outcome isTerm s a (s.ret (.error e)) :=
  outcome_back [] hI hpc rfl rfl (List.append_nil _).symm (.error a e ha)

theorem outcome_interrupted (ha : a.Blocks) (hi : s.interrupt s.this = true) : Outcome isTerm s a s.retInterrupted :=
  outcome_back [] (hI.setInterrupt (.inr hpc)) hpc rfl rfl (List.append_nil _).symm (.interrupted a ha hi)

omit [DecidableEq ν] [DecidableEq μ] [DecidableEq κ] in
/-- The running thread is on no queue. -/
theorem Inv.on_none : s.onSleepq s.this = false ∧ s.onIoq s.this = false ∧ s.timedout s.this = false := by
  have hrun := hI.running s.this
  grind [hI.onSleepq, hI.onIoq, hI.timedout]

omit [DecidableEq μ] [DecidableEq κ] in
/-- The running thread blocks and is put on the queues of its call. -/
theorem Inv.block (pc : Pc ν μ κ) (st : ThreadState) {b : Bool} {onIoq : ν → Bool} {ioQ : List ν} {lockQ : μ → List ν}
    {condQ : κ → List ν} (hset : SleepSet s.toSleepQ h' s.this b) (hfit : Fits pc st)
    (hst : st ≠ .running ∧ st ≠ .runnable ∧ st ≠ .zombie ∧ pc ≠ .gone)
    (hasleep : b = true → (∀ u c, pc ≠ .join u c) ∧ (st = .ioWait ∨ st = .condWait ∨ st = .sleeping))
    (hsleeping : st = .sleeping → b = true)
    (hio : (pc = .poll ∧ onIoq = Function.update s.onIoq s.this true ∧ ioQ = s.ioQ ++ [s.this]) ∨
      (pc ≠ .poll ∧ onIoq = s.onIoq ∧ ioQ = s.ioQ))
    (hlockQ : ∀ m, (pc = .lock m ∧ lockQ m = s.lockQ m ++ [s.this] ∧ s.owner m ≠ none ∧ s.owner m ≠ some s.this) ∨
      (pc ≠ .lock m ∧ lockQ m = s.lockQ m))
    (hcondQ : ∀ c, ((pc = .wait c ∨ ∃ u, pc = .join u c) ∧ condQ c = s.condQ c ++ [s.this]) ∨
      ((pc ≠ .wait c ∧ ∀ u, pc ≠ .join u c) ∧ condQ c = s.condQ c))
    (hwait : ∀ c, pc = .wait c → ¬ isTerm c)
    (hjoin : ∀ u c, pc = .join u c → isTerm c ∧ s.state u ≠ .zombie ∧
      (∀ v, s.pc v ≠ .gone → s.term v = some c → u = v) ∧ ∀ x, s.pc x ≠ .join u c) :
    Inv isTerm { s with
      toSleepQ := h', state := Function.update s.state s.this st, pc := Function.update s.pc s.this pc
      onIoq := onIoq, ioQ := ioQ, lockQ := lockQ, condQ := condQ } none := by
  obtain ⟨-, hoff, htime⟩ := hI.on_none hpc
  have hother : ∀ t, t ≠ s.this → onIoq t = s.onIoq t := by
    rintro t ht
    rcases hio with ⟨-, rfl, -⟩ | ⟨-, rfl, -⟩
    · exact Function.update_of_ne ht ..
    · rfl
  have hme : onIoq s.this = true ↔ pc = .poll := by
    rcases hio with ⟨hp, rfl, -⟩ | ⟨hp, rfl, -⟩
    · simp [hp]
    · simp [hp, hoff]
  have hpc' : pc ≠ .user ∧ pc ≠ .idle ∧ pc ≠ .exit := by
    refine ⟨?_, ?_, ?_⟩ <;> rintro rfl <;> grind [Fits]
  let M : Move isTerm s s.this := {
    pc := pc
    state := st
    sleepq := h'
    onSleepq := b
    interrupt := s.interrupt
    timedout := s.timedout
    onIoq := onIoq
    ioQ := ioQ
    lockQ := lockQ
    condQ := condQ
    here := by grind
    fits := hfit
    runnable := by grind
    sleepq_set := hset
    asleep := hasleep
    sleeping := hsleeping
    interrupt_other := fun _ _ => rfl
    timedout_eq := by grind
    onIoq_eq := hother
    onIoq_me := by
      have hwaits : st = .ioWait → pc = .poll := by
        rintro rfl
        cases pc <;> simp_all [Fits]
      grind
    ioQ_mem := by
      intro t
      have hmem := hI.ioQ t
      have ht := hother t
      grind
    ioQ_nodup := by
      have hmem := hI.ioQ s.this
      grind [hI.ioQ_nodup]
    lockQ_mem := by
      intro m t
      have hm := hI.lockQ m t
      have hq := hlockQ m
      grind
    lockQ_nodup := by
      intro m
      have hm := hI.lockQ m s.this
      have hq := hlockQ m
      have hn := hI.lockQ_nodup m
      grind
    condQ_mem := by
      intro c t
      have hc := hI.condQ c t
      have hq := hcondQ c
      grind
    condQ_nodup := by
      intro c
      have hc := hI.condQ c s.this
      have hq := hcondQ c
      have hn := hI.condQ_nodup c
      grind
    lock := by
      intro m hm
      have hq := hlockQ m
      subst hm
      grind [Fits]
    wait := hwait
    join := by
      intro u c hj
      have hq := hjoin u c hj
      subst hj
      grind [Fits] }
  exact M.inv hI (by grind) (.inr rfl)

theorem outcome_poll (timeout : UInt64) (added : Bool) : Outcome isTerm s (.poll timeout added) (s.stPoll timeout added) := by
  obtain ⟨hsleep, -⟩ := hI.on_none hpc
  rw [stPoll]
  split
  · exact outcome_interrupted hI hpc trivial ‹_›
  split
  · exact outcome_error hI hpc trivial
  obtain rfl : added = true := by simpa using ‹¬ (!added) = true›
  obtain ⟨h', hset, hstart⟩ := hI.startTimeout hsleep timeout
  dsimp only
  rw [hstart]
  · refine outcome_switch [] ?_ rfl (List.append_nil _).symm (.poll timeout h')
    exact hI.block hpc .poll .ioWait hset (by simp [Fits]) (by simp) (by simp) (by simp) (.inl ⟨rfl, rfl, rfl⟩)
      (fun _ => .inr ⟨by simp, rfl⟩) (fun _ => .inr ⟨by simp, rfl⟩) (by simp) (by simp)
  · rfl
  · rfl

theorem outcome_usleep (usecs : UInt64) : Outcome isTerm s (.usleep usecs) (s.stUsleep usecs) := by
  obtain ⟨hsleep, -⟩ := hI.on_none hpc
  rw [stUsleep]
  split
  · exact outcome_interrupted hI hpc trivial ‹_›
  split
  · refine outcome_switch [] ?_ rfl (List.append_nil _).symm (.usleep usecs s.toSleepQ .suspended (.inr rfl))
    exact hI.block hpc .usleep .suspended (hI.sleepSet hsleep) (by simp [Fits]) (by simp) (by simp) (by simp)
      (.inr ⟨by simp, rfl, rfl⟩) (fun _ => .inr ⟨by simp, rfl⟩) (fun _ => .inr ⟨by simp, rfl⟩) (by simp) (by simp)
  · obtain ⟨h', hrun, hset⟩ := hI.addSleepq hsleep usecs
    have hadd : (s.setState s.this .sleeping).addSleepq s.this usecs =
        some { s.setState s.this .sleeping with toSleepQ := h' } := by
      rw [VP.addSleepq]
      exact congrArg (Option.map _) hrun
    rw [hadd]
    refine outcome_switch [] ?_ rfl (List.append_nil _).symm (.usleep usecs h' .sleeping (.inl rfl))
    exact hI.block hpc .usleep .sleeping hset (by simp [Fits]) (by simp) (by simp) (by simp)
      (.inr ⟨by simp, rfl, rfl⟩) (fun _ => .inr ⟨by simp, rfl⟩) (fun _ => .inr ⟨by simp, rfl⟩) (by simp) (by simp)

/-- `st_cond_timedwait`, called by the user or by `st_thread_join`. -/
theorem outcome_wait {pc : Pc ν μ κ} {cvar : κ} {timeout : UInt64} (ha : a.Blocks) (hfit : Fits pc .condWait)
    (hpc' : pc = .wait cvar ∨ ∃ u, pc = .join u cvar ∧ timeout = noTimeout) (hwait : pc = .wait cvar → ¬ isTerm cvar)
    (hjoin : ∀ u c, pc = .join u c → isTerm c ∧ s.state u ≠ .zombie ∧
      (∀ v, s.pc v ≠ .gone → s.term v = some c → u = v) ∧ ∀ x, s.pc x ≠ .join u c)
    (hd : s.interrupt s.this = false → ∀ h', Did s a { s with
      toSleepQ := h', state := Function.update s.state s.this .condWait
      condQ := Function.update s.condQ cvar (s.condQ cvar ++ [s.this]) } (.inr pc)) :
    Outcome isTerm s a (s.stCondTimedwait cvar timeout pc) := by
  obtain ⟨hsleep, -⟩ := hI.on_none hpc
  rw [stCondTimedwait]
  split
  · exact outcome_interrupted hI hpc ha ‹_›
  rename_i hi
  obtain ⟨h', hset, hstart⟩ := hI.startTimeout hsleep timeout
  dsimp only
  rw [hstart]
  · refine outcome_switch [] ?_ rfl (List.append_nil _).symm (hd (Bool.eq_false_iff.2 hi) h')
    refine hI.block hpc pc .condWait hset hfit ⟨by simp, by simp, by simp, by grind⟩ (by grind) (by simp)
      (.inr ⟨by grind, rfl, rfl⟩) (fun _ => .inr ⟨by grind, rfl⟩) (fun c => ?_) (by grind) hjoin
    simp only [setState, Function.update_apply]
    grind
  · rfl
  · rfl

omit [DecidableEq ν] [DecidableEq κ] in
/-- A free mutex is taken. -/
theorem Inv.acquire {lock : μ} (hfree : s.owner lock = none) : Inv isTerm (s.setOwner lock (some s.this)) (some s.this) :=
  { hI with
    unlocked := by
      simp only [setOwner, Function.update_apply]
      grind [hI.unlocked]
    handed := by
      simp only [setOwner, Function.update_apply]
      grind [hI.handed]
    woken := by
      simp only [setOwner, Function.update_apply]
      grind [hI.woken] }

theorem outcome_acquire {lock : μ} (hfree : s.owner lock = none)
    (ha : a = .lock lock ∧ s.interrupt s.this = false ∨ a = .trylock lock) :
    Outcome isTerm s a ((s.setOwner lock (some s.this)).ret (.ok 0)) :=
  outcome_back [] (hI.acquire hpc hfree) hpc rfl rfl (List.append_nil _).symm (.acquire a lock ha hfree)

theorem outcome_trylock (lock : μ) : Outcome isTerm s (.trylock lock) (s.stMutexTrylock lock) := by
  rw [stMutexTrylock]
  split
  · exact outcome_error hI hpc ‹_›
  · exact outcome_acquire hI hpc (not_not.1 ‹_›) (.inr rfl)

omit [DecidableEq κ] in
/-- **The mutex goes to a thread that waits for it.** -/
theorem Inv.handOff {lock : μ} (howner : s.owner lock = some s.this) (ht : s.pc t = .lock lock)
    (hst : s.state t = .lockWait) : Inv isTerm ((s.setOwner lock (some t)).makeRunnable t) (some s.this) := by
  have hrun := hI.running s.this
  have hidle : t ≠ s.idleThread := by grind [hI.idle]
  exact { hI with
    fits := fun x => by
      have hx := hI.fits x
      simp only [makeRunnable, setState, setOwner, Function.update_apply]
      grind [fits_runnable]
    running := by
      simp only [makeRunnable, setState, setOwner, Function.update_apply]
      grind [hI.running]
    runQ := by
      simp only [makeRunnable, setState, setOwner, Function.update_apply]
      grind [hI.runQ]
    runQ_nodup := by
      simp only [makeRunnable, setState, setOwner]
      grind [hI.runQ, hI.runQ_nodup]
    zombieQ := by
      simp only [makeRunnable, setState, setOwner, Function.update_apply]
      grind [hI.zombieQ]
    ioWait := by
      simp only [makeRunnable, setState, setOwner, Function.update_apply]
      grind [hI.ioWait]
    onSleepq := by
      simp only [makeRunnable, setState, setOwner, Function.update_apply]
      grind [hI.onSleepq]
    sleeping := by
      simp only [makeRunnable, setState, setOwner, Function.update_apply]
      grind [hI.sleeping]
    timedout := by
      simp only [makeRunnable, setState, setOwner, Function.update_apply]
      grind [hI.timedout]
    unlocked := by
      simp only [makeRunnable, setState, setOwner, Function.update_apply]
      grind [hI.unlocked]
    handed := by
      simp only [makeRunnable, setState, setOwner, Function.update_apply]
      grind [hI.handed]
    woken := by
      simp only [makeRunnable, setState, setOwner, Function.update_apply]
      grind [hI.woken]
    joined := by
      simp only [makeRunnable, setState, setOwner, Function.update_apply]
      grind [hI.joined]
    zombie := by
      simp only [makeRunnable, setState, setOwner, Function.update_apply]
      grind [hI.zombie] }

omit [DecidableEq ν] [DecidableEq κ] in
/-- The mutex is free when no thread waits for it. -/
theorem Inv.release {lock : μ} (howner : s.owner lock = some s.this)
    (hno : ∀ t, s.pc t = .lock lock → s.state t ≠ .lockWait) : Inv isTerm (s.setOwner lock none) (some s.this) :=
  { hI with
    unlocked := by
      simp only [setOwner, Function.update_apply]
      grind [hI.unlocked]
    handed := by
      simp only [setOwner, Function.update_apply]
      grind [hI.handed]
    woken := by
      simp only [setOwner, Function.update_apply]
      grind [hI.woken] }

theorem outcome_unlock (lock : μ) : Outcome isTerm s (.unlock lock) (s.stMutexUnlock lock) := by
  rw [stMutexUnlock]
  split
  · exact outcome_error hI hpc ‹_›
  have howner : s.owner lock = some s.this := not_not.1 ‹_›
  rcases unlockFrom_cases s lock (s.lockQ lock) with ⟨hrun, hno⟩ | ⟨t, q₁, q₂, hq, hno, ht, hrun⟩
  · rw [hrun]
    exact outcome_back [] (hI.release hpc howner fun t ht => hno t ((hI.lockQ lock t).2 ht)) hpc rfl rfl
      (List.append_nil _).symm (.free lock howner hno)
  · rw [hrun]
    have hlock : s.pc t = .lock lock := (hI.lockQ lock t).1 (by simp [hq])
    exact outcome_back [t] (hI.handOff hpc howner hlock ht) hpc rfl rfl rfl (.handOff lock t q₁ q₂ howner hq hno ht)

theorem outcome_lock (lock : μ) : Outcome isTerm s (.lock lock) (s.stMutexLock lock) := by
  obtain ⟨hsleep, -⟩ := hI.on_none hpc
  rw [stMutexLock]
  split
  · exact outcome_interrupted hI hpc trivial ‹_›
  have hi : s.interrupt s.this = false := eq_false_of_ne_true ‹_›
  split
  · exact outcome_acquire hI hpc ‹_› (.inl ⟨rfl, hi⟩)
  split
  · exact outcome_error hI hpc ‹_›
  · refine outcome_switch [] ?_ rfl (List.append_nil _).symm (.lock lock hi ⟨‹_›, ‹_›⟩)
    refine hI.block hpc (.lock lock) .lockWait (hI.sleepSet hsleep) (by simp [Fits]) (by simp) (by simp) (by simp)
      (.inr ⟨by simp, rfl, rfl⟩) (fun m => ?_) (fun _ => .inr ⟨by simp, rfl⟩) (by simp) (by simp)
    simp only [setState, Function.update_apply]
    grind

end Block

end VP

end ToolLib.StateThreads
