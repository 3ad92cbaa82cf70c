import ToolLib.StateThreads.SchedRuns

/-!
# Mutexes

Seen from one mutex, the scheduler is a lock with a queue (`view`, `lockAct`, `step_view`): the threads that wait for it are those of
its wait queue that are in `_ST_ST_LOCK_WAIT`. So the results of `Base.QueueLock` hold for all runs: the mutex is only free
when no thread waits for it, and no thread is overtaken. `watched` records which threads have a mutex, from what the calls
have returned: never more than one.
-/

namespace ToolLib.StateThreads

open Base

variable {ν μ κ : Type} [DecidableEq ν] [DecidableEq μ] [DecidableEq κ]

namespace VP

variable {isTerm : κ → Prop} {s s' s₁ : VP ν μ κ} {t : ν} {c : κ} {m : μ} {a : Act ν μ κ} {x : Option Ret}
  {e : Ret ⊕ Pc ν μ κ}

/-- The mutex as a lock with a queue. -/
def view (m : μ) (s : VP ν μ κ) : QueueLock ν := ⟨s.owner m, (s.lockQ m).filter (s.state · = .lockWait)⟩

/-- What a step does to the mutex. -/
def lockAct (m : μ) (s : VP ν μ κ) : Act ν μ κ → QueueLock.Act ν
  | .lock lock =>
    if lock ≠ m ∨ s.interrupt s.this then .skip
    else if s.owner m = none then .acquire s.this
    else if s.owner m = some s.this then .skip
    else .enqueue s.this
  | .trylock lock => if lock = m ∧ s.owner m = none then .acquire s.this else .skip
  | .unlock lock => if lock = m ∧ s.owner m = some s.this then .release else .skip
  | .interrupt thread => .cancel thread
  | _ => .skip

omit [DecidableEq ν] [DecidableEq μ] [DecidableEq κ] in
theorem view_congr (howner : s'.owner m = s.owner m) (hq : s'.lockQ m = s.lockQ m)
    (hst : ∀ t ∈ s.lockQ m, (s'.state t = .lockWait ↔ s.state t = .lockWait)) : view m s' = view m s := by
  rw [view, view, howner, hq]
  exact congrArg _ (List.filter_congr fun t ht => by simpa using hst t ht)

omit [DecidableEq μ] [DecidableEq κ] in
/-- The processor changes hands, or the call returns. -/
theorem Ends.view_eq (h : Ends s e s' x) : view m s' = view m s := by
  refine view_congr (by rw [h.ended.owner]) (by rw [h.ended.lockQ]) fun t _ => ?_
  have ht := h.ended.state t
  grind

omit [DecidableEq μ] [DecidableEq κ] in
theorem Woke.view_eq {added : List ν} (h : Woke s s' added) : view m s' = view m s := by
  refine view_congr (by rw [h.owner]) (by rw [h.lockQ]) fun t _ => ?_
  have hw := h.waits t
  rw [h.state]
  grind

omit [DecidableEq μ] [DecidableEq κ] in
/-- A thread that does not wait for a mutex changes its state. -/
theorem view_moved {st : ThreadState} (howner : s'.owner m = s.owner m) (hq : s'.lockQ m = s.lockQ m)
    (hst : s'.state = Function.update s.state t st) (ht : s.state t ≠ .lockWait) (hst' : st ≠ .lockWait) :
    view m s' = view m s := by
  refine view_congr howner hq fun x _ => ?_
  rw [hst, Function.update_apply]
  grind

omit [DecidableEq μ] [DecidableEq κ] in
/-- A thread is taken out of the queue. -/
theorem filter_update {l : List ν} (f : ν → ThreadState) (t : ν) {st : ThreadState} (hst : st ≠ .lockWait) (hl : l.Nodup) :
    l.filter (fun x => Function.update f t st x = .lockWait) = (l.filter (f · = .lockWait)).erase t := by
  rw [(hl.filter _).erase_eq_filter, List.filter_filter]
  refine List.filter_congr fun x _ => ?_
  rw [Function.update_apply]
  grind

omit [DecidableEq κ] in
theorem lockAct_error (ha : a.Refused s.this s.owner) : lockAct m s a = .skip := by
  cases a <;> simp only [Act.Refused, lockAct] at ha ⊢ <;> grind

omit [DecidableEq κ] in
theorem lockAct_interrupted (ha : a.Blocks) (hi : s.interrupt s.this = true) : lockAct m s a = .skip := by
  cases a <;> simp_all [Act.Blocks, lockAct]

omit [DecidableEq κ] in
theorem skip_of_view (hact : lockAct m s a = .skip) (h : view m s₁ = view m s) :
    QueueLock.step (view m s) (lockAct m s a) = some (view m s₁) := by
  rw [hact, h]
  rfl

omit [DecidableEq ν] [DecidableEq κ] in
theorem view_setOwner {o : Option ν} : view m (s.setOwner m o) = ⟨o, (view m s).waiting⟩ :=
  congrArg₂ QueueLock.mk (Function.update_self ..) rfl

omit [DecidableEq κ] in
/-- The running thread joins the queue. -/
theorem view_enqueue (hno : s.this ∉ s.lockQ m) : view m { s with
    state := Function.update s.state s.this .lockWait, lockQ := Function.update s.lockQ m (s.lockQ m ++ [s.this]) } =
    ⟨s.owner m, (view m s).waiting ++ [s.this]⟩ := by
  refine congrArg (QueueLock.mk (s.owner m)) ?_
  show List.filter _ (Function.update s.lockQ m (s.lockQ m ++ [s.this]) m) = _
  rw [Function.update_self, List.filter_append, List.filter_cons_of_pos (by simp), List.filter_nil]
  refine congrArg (· ++ [s.this]) (List.filter_congr fun x hx => ?_)
  have hne : x ≠ s.this := ne_of_mem_of_not_mem hx hno
  simp only [Function.update_of_ne hne]

omit [DecidableEq κ] in
/-- The mutex is handed to the first thread that waits for it. -/
theorem view_handOff {q q' : List ν} (hnodup : (s.lockQ m).Nodup) (hq : s.lockQ m = q ++ t :: q')
    (hno : ∀ x ∈ q, s.state x ≠ .lockWait) (ht : s.state t = .lockWait) :
    (view m s).waiting = t :: q'.filter (s.state · = .lockWait) ∧
      view m ((s.setOwner m (some t)).makeRunnable t) = ⟨some t, q'.filter (s.state · = .lockWait)⟩ := by
  have hnone : q.filter (s.state · = .lockWait) = [] := List.filter_eq_nil_iff.2 fun x hx => by simpa using hno x hx
  have hwait : (s.lockQ m).filter (s.state · = .lockWait) = t :: q'.filter (s.state · = .lockWait) := by
    rw [hq, List.filter_append, hnone, List.filter_cons_of_pos (by simpa using ht), List.nil_append]
  refine ⟨hwait, ?_⟩
  have hupd := filter_update s.state t (show ThreadState.runnable ≠ .lockWait by simp) hnodup
  rw [hwait, List.erase_cons_head] at hupd
  exact congrArg₂ QueueLock.mk (Function.update_self ..) hupd

theorem Did.view_eq (h : Ready isTerm s) (ha : Allowed isTerm s a) (hd : Did s a s₁ e) :
    QueueLock.step (view m s) (lockAct m s a) = some (view m s₁) := by
  have hI := h.inv
  have hrun := (hI.running s.this h.here).2 rfl
  have hthis : s.state s.this ≠ .lockWait := by simp [hrun]
  cases hd with
  | error a e hr => exact skip_of_view (lockAct_error hr) rfl
  | interrupted a hb hi => exact skip_of_view (lockAct_interrupted hb hi) rfl
  | poll timeout h' => exact skip_of_view rfl (view_moved rfl rfl rfl hthis (by simp))
  | usleep usecs h' st hst => exact skip_of_view rfl (view_moved rfl rfl rfl hthis (by grind))
  | wait c timeout h' hi => exact skip_of_view rfl (view_moved rfl rfl rfl hthis (by simp))
  | signal c s₁ hw => exact skip_of_view rfl hw.view_eq
  | broadcast c s₁ hw => exact skip_of_view rfl hw.view_eq
  | acquire a lock hl hfree =>
    by_cases hm : lock = m
    · subst hm
      have hact : lockAct lock s a = .acquire s.this := by
        rcases hl with ⟨rfl, hi⟩ | rfl <;> simp [lockAct, *]
      rw [hact, view_setOwner]
      exact if_pos hfree
    · have hact : lockAct m s a = .skip := by
        rcases hl with ⟨rfl, hi⟩ | rfl <;> simp [lockAct, hm]
      exact skip_of_view hact (view_congr (Function.update_of_ne (Ne.symm hm) ..) rfl fun _ _ => Iff.rfl)
  | lock lock hi howner =>
    by_cases hm : lock = m
    · subst hm
      have hno : s.this ∉ s.lockQ lock := fun hin => by
        have hpc := (hI.lockQ lock s.this).1 hin
        simp only [Allowed] at ha
        simp [ha] at hpc
      rw [lockAct, if_neg (by simp [hi]), if_neg howner.1, if_neg howner.2, view_enqueue hno, QueueLock.step,
        if_neg (by simp [view, howner, hrun])]
      rfl
    · refine skip_of_view (if_pos (.inl hm)) (view_congr rfl (Function.update_of_ne (Ne.symm hm) ..) fun x hx => ?_)
      have hpc := (hI.lockQ m x).1 hx
      have hne : x ≠ s.this := by
        rintro rfl
        simp only [Allowed] at ha
        simp [ha] at hpc
      simp only [Function.update_of_ne hne]
  | free lock howner hno =>
    by_cases hm : lock = m
    · subst hm
      have hnone : (view lock s).waiting = [] := List.filter_eq_nil_iff.2 fun x hx => by simpa using hno x hx
      rw [lockAct, if_pos ⟨rfl, howner⟩, QueueLock.step, if_neg (by simp [view, howner]), view_setOwner, hnone, QueueLock.pass]
    · exact skip_of_view (if_neg (by simp [hm])) (view_congr (Function.update_of_ne (Ne.symm hm) ..) rfl fun _ _ => Iff.rfl)
  | handOff lock t q q' howner hq hno ht =>
    by_cases hm : lock = m
    · subst hm
      obtain ⟨hwait, hview⟩ := view_handOff (hI.lockQ_nodup lock) hq hno ht
      rw [lockAct, if_pos ⟨rfl, howner⟩, QueueLock.step, if_neg (by simp [view, howner]), hwait, hview, QueueLock.pass]
    · refine skip_of_view (if_neg (by simp [hm])) (view_congr (Function.update_of_ne (Ne.symm hm) ..) rfl fun x hx => ?_)
      have hpc := (hI.lockQ m x).1 hx
      have hpc' := (hI.lockQ lock t).1 (by simp [hq])
      have hne : x ≠ t := by
        rintro rfl
        cases hpc.symm.trans hpc'
        exact hm rfl
      simp only [makeRunnable, setState, setOwner, Function.update_of_ne hne]
  | ignored t ht =>
    have hnot : t ∉ (view m s).waiting := by simp [view, ht]
    rw [lockAct, QueueLock.step, List.erase_of_not_mem hnot]
  | flagged t ht =>
    have hnot : t ∉ (view m s).waiting := by
      rcases ht with ht | ht <;> simp [view, ht]
    rw [lockAct, QueueLock.step, List.erase_of_not_mem hnot]
    rfl
  | woken t h' ht =>
    rw [lockAct, QueueLock.step, view, ← filter_update s.state t (show ThreadState.runnable ≠ .lockWait by simp) (hI.lockQ_nodup m)]
    rfl
  | create t o =>
    refine skip_of_view rfl (view_congr rfl rfl fun x hx => ?_)
    have hpc := (hI.lockQ m x).1 hx
    have hne : x ≠ t := by
      rintro rfl
      simp only [Allowed] at ha
      simp [ha] at hpc
    simp only [stThreadCreate, setPc, makeRunnable, setState, Function.update_of_ne hne]
  | exit n c st w hc hst hw =>
    refine skip_of_view rfl (view_congr rfl rfl fun x _ => ?_)
    have hx := hst x
    have hwx := hw x
    grind
  | exitNow n hc => exact skip_of_view rfl rfl
  | join t c h' hc ht => exact skip_of_view rfl (view_moved rfl rfl rfl hthis (by simp))
  | joined t ht => exact skip_of_view rfl (view_moved rfl rfl rfl (t := t) (by simp [ht]) (by simp))
  | leavePoll x onIoq ioQ f hpc hf => exact skip_of_view rfl rfl
  | leaveUsleep x f hpc hf => exact skip_of_view rfl rfl
  | leaveWait c f g x hpc hg hf hx => exact skip_of_view rfl rfl
  | leaveJoin t c f g e hpc hg hf => exact skip_of_view rfl rfl
  | leaveJoined t c f g hpc hg hf ht => exact skip_of_view rfl (view_moved rfl rfl rfl (t := t) (by simp [ht.1]) (by simp))
  | leaveLock lock f x hpc hf hx =>
    have hq : (view m s).waiting = (view m { s with
        interrupt := f, lockQ := Function.update s.lockQ lock ((s.lockQ lock).erase s.this) }).waiting := by
      simp only [view, Function.update_apply]
      split
      · subst ‹m = lock›
        exact (filter_erase (by simp [hrun])).symm
      · rfl
    exact skip_of_view rfl (congrArg (QueueLock.mk (s.owner m)) hq.symm)
  | leaveExit hpc => exact skip_of_view rfl rfl
  | idle ready now s₁ added hw htime =>
    have hmoved : view m (s₁.setState s₁.this .runnable) = view m s₁ := view_moved rfl rfl rfl ?_ (by simp)
    · exact skip_of_view rfl (hmoved.trans hw.view_eq)
    rw [hw.state, hw.this, hrun]
    split <;> simp

/-- **A step is one action of the lock.** -/
theorem step_view (h : Ready isTerm s) (ha : Allowed isTerm s a) (hs : quiet step s a = some s') :
    QueueLock.step (view m s) (lockAct m s a) = some (view m s') := by
  obtain ⟨s₂, x, hs₂, -, -, -, -, s₁, e, hd, he⟩ := h.takes ha
  cases (quiet_eq_some hs₂).symm.trans hs
  rw [he.view_eq]
  exact hd.view_eq h ha

/-- **The mutexes of a run refine locks with a queue**, and each lock is fair. -/
theorem mutex_refines {idleThread main : ν} (hne : main ≠ idleThread) (now : UInt64) {as : List (Act ν μ κ)}
    (has : Along (quiet step) (Allowed isTerm) (init idleThread main now) as)
    (hr : run (quiet step) (init idleThread main now) as = some s) (m : μ) :
    run QueueLock.step ⟨none, []⟩ (trace (quiet step) (lockAct m) (init idleThread main now) as) = some (view m s) ∧
      (view m s).Fair := by
  have hinit : (view m (init idleThread main now : VP ν μ κ)).Fair := ⟨fun _ => rfl, List.nodup_nil, fun _ h => nomatch h⟩
  have hsim : ∀ (s : VP ν μ κ) a s', Ready isTerm s → Allowed isTerm s a → quiet VP.step s a = some s' →
      QueueLock.step (view m s) (lockAct m s a) = some (view m s') := fun _ _ _ h ha hs => step_view h ha hs
  have hrun := run_trace (fun _ _ _ h ha hs => h.of_step ha hs) hsim (ready_init isTerm hne now) has hr
  exact ⟨hrun, hinit.run hrun⟩

theorem mutex_refines_three : ∃ s, run (quiet step) (init 0 1 100 : VP (Fin 4) (Fin 1) (Fin 1))
    [.create 2 none, .create 3 none, .lock 0, .usleep 50, .lock 0, .lock 0, .idle (fun _ => 0) 200, .resume, .unlock 0] = some s ∧
      (view 0 s).Fair := by
  have has : Along (quiet step) (Allowed (· = 0)) (init 0 1 100 : VP (Fin 4) (Fin 1) (Fin 1))
    [.create 2 none, .create 3 none, .lock 0, .usleep 50, .lock 0, .lock 0, .idle (fun _ => 0) 200, .resume, .unlock 0] := by
    decide +kernel
  exact ⟨_, rfl, (mutex_refines (by decide) 100 has rfl 0).2⟩

/-- The running thread gives the mutex back in this step. -/
def unlocks (m : μ) (s : VP ν μ κ) : Act ν μ κ → Bool
  | .unlock lock => lock = m ∧ s.owner m = some s.this
  | _ => false

/-- **No thread is overtaken at a mutex**: who waits behind `n` other threads, and is not interrupted, owns the mutex before it has
been unlocked `n + 1` times. -/
theorem mutex_in_order {idleThread main : ν} (hne : main ≠ idleThread) (now : UInt64) {as₀ as : List (Act ν μ κ)} {l r : List ν}
    (h₀ : Along (quiet step) (Allowed isTerm) (init idleThread main now) as₀)
    (hr₀ : run (quiet step) (init idleThread main now) as₀ = some s)
    (has : Along (quiet step) (Allowed isTerm) s as) (hr : run (quiet step) s as = some s')
    (hq : (s.lockQ m).filter (s.state · = .lockWait) = l ++ t :: r) (hno : ∀ a ∈ as, a ≠ .interrupt t)
    (hlt : l.length < tally (quiet step) (unlocks m) s as) :
    ∃ as₁ as₂ s₁, as = as₁ ++ as₂ ∧ run (quiet step) s as₁ = some s₁ ∧ s₁.owner m = some t := by
  obtain ⟨s₂, hr₂, h⟩ := (ready_init isTerm hne now).run h₀
  cases hr₂.symm.trans hr₀
  refine run_served (fun s => (view m s).waiting) (unlocks m) (fun s => s.owner m = some t) (I := Ready isTerm)
    (C := fun s a => a ≠ .interrupt t ∧ Allowed isTerm s a)
    (fun _ _ _ h ha hs => h.of_step ha.2 hs) ?_ h (has.and_forall hno) hr hq hlt
  intro s a s' l r h ha hs hq
  have hstep := step_view (m := m) h ha.2 hs
  have hact : lockAct m s a = .release ∨ (unlocks m s a).toNat = 0 ∧ lockAct m s a ≠ .cancel t := by
    have hne := ha.1
    cases a <;> simp only [lockAct, unlocks] <;> grind
  rcases QueueLock.step_waiting hstep hq (by grind) with ⟨l', r', hq', hle⟩ | howner
  · refine .inl ⟨l', r', hq', ?_⟩
    rcases hact with hact | ⟨hzero, -⟩
    · have hone := Bool.toNat_le (unlocks m s a)
      rw [hact] at hle
      exact Nat.le_trans (Nat.add_le_add_left hone _) hle
    · omega
  · exact .inr howner

theorem mutex_in_order_two : ∃ s, run (quiet step) (init 0 1 100 : VP (Fin 4) (Fin 1) (Fin 1))
    [.create 2 none, .create 3 none, .lock 0, .usleep 50, .lock 0, .lock 0] = some s ∧
      ∃ as₁ as₂ s₁, [.idle (fun _ => 0) 200, .resume, .unlock 0, .usleep 5, .resume, .unlock 0] = as₁ ++ as₂ ∧
        run (quiet step) s as₁ = some s₁ ∧ s₁.owner 0 = some 3 := by
  have h₀ : Along (quiet step) (Allowed (· = 0)) (init 0 1 100 : VP (Fin 4) (Fin 1) (Fin 1))
    [.create 2 none, .create 3 none, .lock 0, .usleep 50, .lock 0, .lock 0] := by decide +kernel
  exact ⟨_, rfl, mutex_in_order (by decide) 100 (l := [2]) (r := []) h₀ rfl (by decide +kernel) rfl rfl (by simp)
    (by decide +kernel)⟩

/-! ## Mutual exclusion -/

/-- The mutex that the call of the running thread is to take. -/
def locks (s : VP ν μ κ) : Act ν μ κ → Option μ
  | .lock lock | .trylock lock => some lock
  | .resume =>
    match s.pc s.this with
    | .lock lock => some lock
    | _ => none
  | _ => none

/-- Who has which mutex, from what the calls return: a thread has a mutex from the return of the `st_mutex_lock` or
`st_mutex_trylock` that has taken it to the return of `st_mutex_unlock`. -/
def recorded (s : VP ν μ κ) (a : Act ν μ κ) (x : Option Ret) (held : μ → List ν) : μ → List ν :=
  match x, locks s a, a with
  | some (.ok _), some m, _ => Function.update held m (s.this :: held m)
  | some (.ok _), none, .unlock m => Function.update held m ((held m).erase s.this)
  | _, _, _ => held

/-- The scheduler with this record. -/
def watched (s : VP ν μ κ × (μ → List ν)) (a : Act ν μ κ) : Option ((VP ν μ κ × (μ → List ν)) × Option Ret) :=
  (s.1.step a).map fun r => ((r.1, recorded s.1 a r.2 s.2), r.2)

/-- The threads that have the mutex: its owner, unless it has not yet returned from `st_mutex_lock`. -/
def holders (s : VP ν μ κ) (m : μ) : List ν := (s.owner m).toList.filter fun t => s.pc t ≠ .lock m

theorem holders_congr (howner : s'.owner m = s.owner m)
    (hpc : ∀ t, s.owner m = some t → (s'.pc t = .lock m ↔ s.pc t = .lock m)) : holders s' m = holders s m := by
  rw [holders, holders, howner]
  refine List.filter_congr fun t ht => ?_
  have hown : s.owner m = some t := by simpa using ht
  simp only [ne_eq, hpc t hown]

theorem holders_one (howner : s.owner m = some t) (hpc : s.pc t ≠ .lock m) : holders s m = [t] := by
  simp [holders, howner, hpc]

theorem holders_nil (howner : ∀ t, s.owner m = some t → s.pc t = .lock m) : holders s m = [] := by
  refine List.filter_eq_nil_iff.2 fun t ht => ?_
  simpa using howner t (by simpa using ht)

/-- A step that neither takes a mutex nor gives one back. -/
theorem recorded_quiet (he : Ended s₁ e s' x) (howner : s₁.owner = s.owner) (hpc : s₁.pc = s.pc) (hthis : s₁.this = s.this)
    (hq : (∀ n, e ≠ .inl (.ok n)) ∨ locks s a = none ∧ ∀ m, a ≠ .unlock m)
    (hfrom : ∀ m, s.pc s.this = .lock m → s.owner m ≠ some s.this) (hto : ∀ m, e = .inr (.lock m) → s.owner m ≠ some s.this) :
    recorded s a x (holders s) = holders s' := by
  have hrec : recorded s a x (holders s) = holders s := by
    unfold recorded
    rw [he.result]
    rcases hq with hq | ⟨hlocks, hunlock⟩
    · rcases e with (n | y) | pc
      · exact absurd rfl (hq n)
      · rfl
      · rfl
    · rw [hlocks]
      split
      · cases ‹none = some _›
      · exact absurd rfl (hunlock _)
      · rfl
  rw [hrec]
  funext m
  refine (holders_congr (by rw [he.owner, howner]) fun t ht => ?_).symm
  have hf := hfrom m
  have hto := hto m
  rw [he.pc, Function.update_apply, hthis, hpc]
  cases e with
  | inl y =>
    simp only [Sum.elim_inl]
    grind
  | inr pc =>
    simp only [Sum.elim_inr, id]
    grind

/-- A call about the mutex `lock` that returns 0: for the others it is as in `recorded_quiet`. -/
theorem recorded_ok (lock : μ) (l : List ν) {n : Nat} (he : Ended s₁ (.inl (.ok n)) s' x)
    (howner : ∀ m, m ≠ lock → s₁.owner m = s.owner m) (hpc : s₁.pc = s.pc) (hthis : s₁.this = s.this)
    (hrec : recorded s a (some (.ok n)) (holders s) = Function.update (holders s) lock l)
    (hfrom : ∀ m, m ≠ lock → s.pc s.this ≠ .lock m) (hl : holders s' lock = l) :
    recorded s a x (holders s) = holders s' := by
  rw [he.result, Sum.elim_inl, hrec]
  funext m
  rw [Function.update_apply]
  split
  · subst ‹m = lock›
    exact hl.symm
  · refine (holders_congr (by rw [he.owner, howner m ‹_›]) fun t _ => ?_).symm
    have hf := hfrom m ‹_›
    rw [he.pc, Function.update_apply, hthis, hpc, Sum.elim_inl]
    grind

theorem recorded_eq (h : Ready isTerm s) (ha : Allowed isTerm s a) (hs : s.step a = some (s', x)) :
    recorded s a x (holders s) = holders s' := by
  obtain ⟨s₂, x₂, hs₂, -, -, -, -, s₁, e, hd, he⟩ := h.takes ha
  cases hs₂.symm.trans hs
  have hI := h.inv
  have hrun := (hI.running s.this h.here).2 rfl
  have hend := he.ended
  have hfrom : s.pc s.this = .user → ∀ m, s.pc s.this = .lock m → s.owner m ≠ some s.this := fun hu m hm => by
    rw [hu] at hm
    cases hm
  cases hd with
  | error a e hr =>
    refine recorded_quiet hend rfl rfl rfl (.inl (by rintro _ ⟨⟩)) (hfrom ?_) (by rintro _ ⟨⟩)
    cases a <;> simp_all [Allowed, Act.Refused]
  | interrupted a hb hi =>
    refine recorded_quiet hend rfl rfl rfl (.inl (by rintro _ ⟨⟩)) (hfrom ?_) (by rintro _ ⟨⟩)
    cases a <;> simp_all [Allowed, Act.Blocks]
  | poll timeout h' => exact recorded_quiet hend rfl rfl rfl (.inl (by rintro _ ⟨⟩)) (hfrom ha) (by rintro _ ⟨⟩)
  | usleep usecs h' st hst => exact recorded_quiet hend rfl rfl rfl (.inl (by rintro _ ⟨⟩)) (hfrom ha) (by rintro _ ⟨⟩)
  | wait c timeout h' hi => exact recorded_quiet hend rfl rfl rfl (.inl (by rintro _ ⟨⟩)) (hfrom ha.1) (by rintro _ ⟨⟩)
  | signal c s₁ hw =>
    exact recorded_quiet hend hw.owner hw.pc hw.this (.inr ⟨rfl, by rintro _ ⟨⟩⟩) (hfrom ha.1)
      (by rintro _ ⟨⟩)
  | broadcast c s₁ hw =>
    exact recorded_quiet hend hw.owner hw.pc hw.this (.inr ⟨rfl, by rintro _ ⟨⟩⟩) (hfrom ha.1)
      (by rintro _ ⟨⟩)
  | acquire a lock hl hfree =>
    have hpc : s.pc s.this = .user := by rcases hl with ⟨rfl, -⟩ | rfl <;> exact ha
    have hlocks : locks s a = some lock := by rcases hl with ⟨rfl, -⟩ | rfl <;> rfl
    have hnil : holders s lock = [] := holders_nil (by simp [hfree])
    refine recorded_ok lock [s.this] hend (fun m hm => Function.update_of_ne hm ..) rfl rfl ?_ (by simp [hpc]) ?_
    · unfold recorded
      rw [hlocks]
      simp only [hnil]
    · exact holders_one (by rw [hend.owner]; exact Function.update_self ..) (by rw [hend.pc]; simp [setOwner])
  | lock lock hi howner =>
    refine recorded_quiet hend rfl rfl rfl (.inl (by rintro _ ⟨⟩)) (hfrom ha) fun m hm => ?_
    cases hm
    exact howner.2
  | free lock howner hno =>
    have hpc : s.pc s.this = .user := ha
    have hone : holders s lock = [s.this] := holders_one howner (by simp [hpc])
    refine recorded_ok lock [] hend (fun m hm => Function.update_of_ne hm ..) rfl rfl ?_ (by simp [hpc]) ?_
    · simp [recorded, locks, hone]
    · exact holders_nil (by rw [hend.owner]; simp [setOwner])
  | handOff lock t q q' howner hq hno ht =>
    have hpc : s.pc s.this = .user := ha
    have hone : holders s lock = [s.this] := holders_one howner (by simp [hpc])
    have hlock : s.pc t = .lock lock := (hI.lockQ lock t).1 (by simp [hq])
    have hne : t ≠ s.this := fun heq => by simp [heq, hpc] at hlock
    refine recorded_ok lock [] hend (fun m hm => Function.update_of_ne hm ..) rfl rfl ?_ (by simp [hpc]) ?_
    · simp [recorded, locks, hone]
    · refine holders_nil fun x hx => ?_
      rw [hend.owner] at hx
      obtain rfl : t = x := by simpa [makeRunnable, setState, setOwner] using hx
      rw [hend.pc]
      exact (Function.update_of_ne hne ..).trans hlock
  | ignored t ht => exact recorded_quiet hend rfl rfl rfl (.inr ⟨rfl, by rintro _ ⟨⟩⟩) (hfrom ha.1) (by rintro _ ⟨⟩)
  | flagged t ht => exact recorded_quiet hend rfl rfl rfl (.inr ⟨rfl, by rintro _ ⟨⟩⟩) (hfrom ha.1) (by rintro _ ⟨⟩)
  | woken t h' ht => exact recorded_quiet hend rfl rfl rfl (.inr ⟨rfl, by rintro _ ⟨⟩⟩) (hfrom ha.1) (by rintro _ ⟨⟩)
  | create t o =>
    have hne : s.this ≠ t := by
      rintro rfl
      cases ha.1.symm.trans ha.2.1
    have hrec : recorded s (.create t o) x (holders s) = holders s := by
      rw [hend.result]
      rfl
    rw [hrec]
    funext m
    refine (holders_congr (by rw [hend.owner]; rfl) fun u _ => ?_).symm
    have hgone := ha.2.1
    have hu := ha.1
    rw [hend.pc]
    simp only [Sum.elim_inl, stThreadCreate, setPc, makeRunnable, setState, Function.update_apply]
    grind
  | exit n c st w hc hst hw => exact recorded_quiet hend rfl rfl rfl (.inl (by rintro _ ⟨⟩)) (hfrom ha) (by rintro _ ⟨⟩)
  | exitNow n hc => exact recorded_quiet hend rfl rfl rfl (.inl (by rintro _ ⟨⟩)) (hfrom ha) (by rintro _ ⟨⟩)
  | join t c h' hc ht => exact recorded_quiet hend rfl rfl rfl (.inl (by rintro _ ⟨⟩)) (hfrom ha.1) (by rintro _ ⟨⟩)
  | joined t ht => exact recorded_quiet hend rfl rfl rfl (.inr ⟨rfl, by rintro _ ⟨⟩⟩) (hfrom ha.1) (by rintro _ ⟨⟩)
  | leavePoll x onIoq ioQ f hpc hf =>
    exact recorded_quiet hend rfl rfl rfl (.inr ⟨by simp [locks, hpc], by rintro _ ⟨⟩⟩) (by simp [hpc]) (by rintro _ ⟨⟩)
  | leaveUsleep x f hpc hf =>
    exact recorded_quiet hend rfl rfl rfl (.inr ⟨by simp [locks, hpc], by rintro _ ⟨⟩⟩) (by simp [hpc]) (by rintro _ ⟨⟩)
  | leaveWait c f g x hpc hg hf hx =>
    exact recorded_quiet hend rfl rfl rfl (.inr ⟨by simp [locks, hpc], by rintro _ ⟨⟩⟩) (by simp [hpc]) (by rintro _ ⟨⟩)
  | leaveJoin t c f g e hpc hg hf => exact recorded_quiet hend rfl rfl rfl (.inl (by rintro _ ⟨⟩)) (by simp [hpc]) (by rintro _ ⟨⟩)
  | leaveJoined t c f g hpc hg hf ht =>
    exact recorded_quiet hend rfl rfl rfl (.inr ⟨by simp [locks, hpc], by rintro _ ⟨⟩⟩) (by simp [hpc]) (by rintro _ ⟨⟩)
  | leaveLock lock f x hpc hf hx =>
    have hlocks : locks s .resume = some lock := by simp [locks, hpc]
    by_cases howner : s.owner lock = some s.this
    · obtain rfl : x = .ok 0 := by simpa [howner] using hx
      have hnil : holders s lock = [] := holders_nil (by simp [howner, hpc])
      refine recorded_ok lock [s.this] hend (fun _ _ => rfl) rfl rfl ?_ (by simp [hpc, eq_comm]) ?_
      · unfold recorded
        rw [hlocks]
        simp only [hnil]
      · exact holders_one (by rw [hend.owner]; exact howner) (by rw [hend.pc]; simp)
    · -- who has not got the mutex was interrupted
      have hi : s.interrupt s.this = true := (hI.woken lock s.this hpc (by simp [hrun])).resolve_left howner
      obtain rfl : x = .error .EINTR := by simpa [howner, hi] using hx
      refine recorded_quiet hend rfl rfl rfl (.inl (by rintro _ ⟨⟩)) (fun m hm => ?_) (by rintro _ ⟨⟩)
      cases hpc.symm.trans hm
      exact howner
  | leaveExit hpc => exact recorded_quiet hend rfl rfl rfl (.inl (by rintro _ ⟨⟩)) (by simp [hpc]) (by rintro _ ⟨⟩)
  | idle ready now s₁ added hw htime =>
    exact recorded_quiet hend hw.owner hw.pc hw.this (.inl (by rintro _ ⟨⟩)) (by simp [ha.1]) (by rintro _ ⟨⟩)

/-- **Mutual exclusion**: `st_mutex_lock` and `st_mutex_trylock` return 0 only when no thread has the mutex. -/
theorem mutex_exclusive {idleThread main : ν} (hne : main ≠ idleThread) (now : UInt64) {as : List (Act ν μ κ)}
    (has : Along (quiet watched) (fun s a => Allowed isTerm s.1 a) (init idleThread main now, fun _ => []) as) :
    Meets watched (fun _ s a x => ∀ m n, locks s.1 a = some m → x = some (.ok n) → s.2 m = []) []
      (init idleThread main now, fun _ => []) as := by
  refine meets_of_along (I := fun _ s => Ready isTerm s.1 ∧ s.2 = holders s.1) (fun past s a hI ha => ?_)
    ⟨ready_init isTerm hne now, rfl⟩ has
  obtain ⟨s, held⟩ := s
  obtain ⟨h, hheld⟩ := hI
  dsimp only at h hheld ha
  subst hheld
  obtain ⟨s', x, hs, ho⟩ := h.takes ha
  have hrec := recorded_eq h ha hs
  refine ⟨_, x, by rw [watched, hs]; rfl, fun m n hlocks hx => ?_, ho.ready, hrec⟩
  -- the thread that has got the mutex is the only one in the record afterwards
  subst hx
  unfold recorded at hrec
  simp only [hlocks] at hrec
  have hm := congrFun hrec m
  rw [Function.update_self] at hm
  have hle : (holders s' m).length ≤ 1 := by
    refine (List.length_filter_le _ _).trans ?_
    cases s'.owner m <;> simp
  rw [← hm, List.length_cons] at hle
  exact List.eq_nil_of_length_eq_zero (Nat.le_zero.1 (Nat.le_of_succ_le_succ hle))

theorem mutex_exclusive_handOff : Meets watched (fun _ s a x => ∀ m n, locks s.1 a = some m → x = some (.ok n) → s.2 m = []) []
    ((init 0 1 100 : VP (Fin 3) (Fin 1) (Fin 1)), fun _ => [])
    [.create 2 none, .lock 0, .usleep 50, .lock 0, .idle (fun _ => 0) 200, .resume, .unlock 0, .usleep 5, .resume] := by
  have has : Along (quiet watched) (fun s a => Allowed (· = 0) s.1 a) ((init 0 1 100 : VP (Fin 3) (Fin 1) (Fin 1)), fun _ => [])
    [.create 2 none, .lock 0, .usleep 50, .lock 0, .idle (fun _ => 0) 200, .resume, .unlock 0, .usleep 5, .resume] := by
    decide +kernel
  exact mutex_exclusive (by decide) 100 has

end VP

end ToolLib.StateThreads
