import ToolLib.StateThreads.SchedOutcome
import ToolLib.Base.QueueLock

/-!
# What all runs have in common

From the state after `st_init`, as long as the callers keep to `Allowed`: no run has a fault and the invariant holds
(`run_safe`), the runnable threads get the processor in turn (`run_in_order`), the clock wakes exactly the threads that are due
(`clock_wakes`), and the active count is the number of the threads that have not exited (`active_threads`).
-/

namespace ToolLib.StateThreads

open Base

variable {ν μ κ : Type} [DecidableEq ν] [DecidableEq μ] [DecidableEq κ]

/-- Evaluated on concrete runs. -/
instance [Fintype ν] (isTerm : κ → Prop) [DecidablePred isTerm] (s : VP ν μ κ) :
    (a : Act ν μ κ) → Decidable (VP.Allowed isTerm s a)
  | .poll .. | .usleep _ | .lock _ | .unlock _ | .trylock _ | .exit _ => inferInstanceAs (Decidable (_ = _))
  | .wait .. | .signal _ | .broadcast _ => inferInstanceAs (Decidable (_ ∧ _))
  | .interrupt _ | .join _ => inferInstanceAs (Decidable (_ ∧ _ ∧ _))
  | .create _ none => decidable_of_iff (_ ∧ _) (and_congr_right fun _ => ⟨fun h => ⟨h, nofun⟩, And.left⟩)
  | .create _ (some c) => decidable_of_iff (_ ∧ _ ∧ isTerm c ∧ s.condQ c = [] ∧ ∀ t, s.pc t ≠ .gone → s.term t ≠ some c)
      (and_congr_right fun _ => and_congr_right fun _ => ⟨fun h _ hc => by cases hc; exact h, fun h => h c rfl⟩)
  | .resume => inferInstanceAs (Decidable (_ ∧ _))
  | .idle .. => inferInstanceAs (Decidable (_ ∧ _))

namespace VP

variable {isTerm : κ → Prop} {s s' s₁ : VP ν μ κ} {t : ν} {a : Act ν μ κ} {idleThread main : ν}

/-- **No run has a fault**: no assertion fails and no list is damaged, and every thread is where its state says. -/
theorem run_safe (hne : main ≠ idleThread) (now : UInt64) {as : List (Act ν μ κ)}
    (has : Along (quiet step) (Allowed isTerm) (init idleThread main now) as) :
    ∃ s, run (quiet step) (init idleThread main now) as = some s ∧ Inv isTerm s (some s.this) := by
  obtain ⟨s, hr, h⟩ := (ready_init isTerm hne now).run has
  exact ⟨s, hr, h.inv⟩

/-- A thread is created, waits for a mutex of the thread that sleeps, exits and is joined. -/
theorem run_safe_join : ∃ s, run (quiet step) (init 0 1 100 : VP (Fin 3) (Fin 1) (Fin 1))
    [.create 2 (some 0), .lock 0, .usleep 50, .lock 0, .idle (fun _ => 0) 151, .resume, .unlock 0, .join 2, .resume, .unlock 0,
      .exit 7, .resume] = some s ∧ Inv (· = 0) s (some s.this) :=
  run_safe (by decide) 100 (by decide +kernel)

/-! ## The run queue -/

/-- The processor changes hands in this step: the call does not return. -/
def switches (s : VP ν μ κ) (a : Act ν μ κ) : Bool :=
  match s.step a with
  | some (_, none) => true
  | _ => false

/-- **The runnable threads run in turn**: who has `n` threads before it on the run queue has got the processor before it has
changed hands `n + 1` times. -/
theorem run_in_order (hne : main ≠ idleThread) (now : UInt64) {as₀ as : List (Act ν μ κ)} {l r : List ν}
    (h₀ : Along (quiet step) (Allowed isTerm) (init idleThread main now) as₀)
    (hr₀ : run (quiet step) (init idleThread main now) as₀ = some s)
    (has : Along (quiet step) (Allowed isTerm) s as) (hr : run (quiet step) s as = some s') (hq : s.runQ = l ++ t :: r)
    (hlt : l.length < tally (quiet step) switches s as) :
    ∃ as₁ as₂ s₁, as = as₁ ++ as₂ ∧ run (quiet step) s as₁ = some s₁ ∧ s₁.this = t := by
  obtain ⟨s₂, hr₂, h⟩ := (ready_init isTerm hne now).run h₀
  cases hr₂.symm.trans hr₀
  refine run_served VP.runQ switches (fun s => s.this = t) (I := Ready isTerm) (C := Allowed isTerm)
    (fun _ _ _ h ha hs => h.of_step ha hs) ?_ h has hr hq hlt
  intro s a s' l r h ha hs hq
  obtain ⟨s₁, x, hs₁, -, -, -, ⟨added, hadded⟩, -⟩ := h.takes ha
  cases (quiet_eq_some hs₁).symm.trans hs
  rcases hadded with ⟨hx, -, -, hq'⟩ | ⟨rfl, ⟨hq', -⟩ | ⟨hnil, -⟩⟩
  · obtain ⟨y, rfl⟩ := Option.isSome_iff_exists.1 hx
    exact .inl ⟨l, r ++ added, by rw [hq', hq]; simp, by simp [switches, hs₁]⟩
  · rw [hq] at hq'
    cases l with
    | nil => exact .inr (List.cons.inj hq').1.symm
    | cons u l => exact .inl ⟨l, r ++ added, by rw [← (List.cons.inj hq').2]; simp, by simp [switches, hs₁]⟩
  · rw [hq] at hnil
    simp at hnil

theorem run_in_order_two : ∃ s, run (quiet step) (init 0 1 100 : VP (Fin 4) (Fin 1) (Fin 1)) [.create 2 none, .create 3 none] =
    some s ∧ ∃ as₁ as₂ s₁, [.usleep 5, .lock 0, .exit 0] = as₁ ++ as₂ ∧ run (quiet step) s as₁ = some s₁ ∧ s₁.this = 3 := by
  have h₀ : Along (quiet step) (Allowed (· = 0)) (init 0 1 100 : VP (Fin 4) (Fin 1) (Fin 1))
    [.create 2 none, .create 3 none] := by decide +kernel
  exact ⟨_, rfl, run_in_order (by decide) 100 (l := [2]) (r := []) h₀ rfl (by decide +kernel) rfl rfl (by decide +kernel)⟩

/-! ## The clock -/

/-- **The clock wakes exactly the threads that are due.** A turn of the idle thread first wakes the threads with events, in the
order of the io queue; then `_st_vp_check_clock` wakes those that are due, in the order in which they are due, and marks those
that wait for a condition variable. -/
theorem clock_wakes (hne : main ≠ idleThread) (now : UInt64) {as : List (Act ν μ κ)}
    (has : Along (quiet step) (Allowed isTerm) (init idleThread main now) as)
    (hr : run (quiet step) (init idleThread main now) as = some s) (ready : ν → Nat) (now' : UInt64)
    (hturn : Allowed isTerm s (.idle ready now')) :
    ∃ s₁ s₂ woken, s.dispatch ready = some s₁ ∧ s₁.runQ = s.ioQ.filter (ready · ≠ 0) ∧ s₁.vpCheckClock now' = some s₂ ∧
      s₂.runQ = s₁.runQ ++ woken ∧ (∀ t, t ∈ woken ↔ s₁.onSleepq t = true ∧ s₁.due t ≤ now') ∧
      (woken.Pairwise fun t u => s₁.due t ≤ s₁.due u) ∧
      (∀ t, s₂.onSleepq t = true ↔ s₁.onSleepq t = true ∧ now' < s₁.due t) ∧
      ∀ t, s₂.timedout t = true ↔ s₁.timedout t = true ∨ (t ∈ woken ∧ s₁.state t = .condWait) := by
  obtain ⟨s', hr', h⟩ := (ready_init isTerm hne now).run has
  cases hr'.symm.trans hr
  have hI := h.inv
  have hq : s.runQ = [] := h.alone ((hI.idle s.this).1 hturn.1)
  obtain ⟨s₁, hrun₁, hI₁, hwoke₁⟩ := hI.dispatchFrom ready hI.ioQ_nodup fun t ht => by
    have hon := (hI.ioQ t).1 ht
    exact ⟨hon, hI.waiting hturn.1 hq hon⟩
  obtain ⟨s₂, woken, hrun₂, -, hexp⟩ := (hI₁.setClock now').checkClockFrom now' (Nat.lt_succ_self _)
  exact ⟨s₁, s₂, woken, hrun₁, by rw [hwoke₁.runQ, hq, List.nil_append], hrun₂, hexp.runQ, hexp.mem, hexp.order,
    hexp.onSleepq, hexp.marked⟩

theorem clock_wakes_two : ∃ s s₁ s₂ woken,
    run (quiet step) (init 0 1 100 : VP (Fin 3) (Fin 1) (Fin 1)) [.create 2 none, .usleep 50, .usleep 40] = some s ∧
      s.dispatch (fun _ => 0) = some s₁ ∧ s₁.vpCheckClock 145 = some s₂ ∧ s₂.runQ = s₁.runQ ++ woken := by
  have has : Along (quiet step) (Allowed (· = 0)) (init 0 1 100 : VP (Fin 3) (Fin 1) (Fin 1))
    [.create 2 none, .usleep 50, .usleep 40] := by decide +kernel
  obtain ⟨s, hr⟩ : ∃ s, run (quiet step) (init 0 1 100 : VP (Fin 3) (Fin 1) (Fin 1))
    [.create 2 none, .usleep 50, .usleep 40] = some s := ⟨_, rfl⟩
  obtain ⟨s₁, s₂, woken, h₁, -, h₂, hq, -⟩ :=
    clock_wakes (by decide) 100 has hr (fun _ => 0) 145 (by cases hr; decide +kernel)
  exact ⟨s, s₁, s₂, woken, hr, h₁, h₂, hq⟩

/-! ## The end -/

/-- **The idle thread ends the process exactly when all other threads have exited**: `_st_active_count` is their number. -/
theorem active_threads (hne : main ≠ idleThread) (now : UInt64) {as : List (Act ν μ κ)}
    (has : Along (quiet step) (Allowed isTerm) (init idleThread main now) as)
    (hr : run (quiet step) (init idleThread main now) as = some s) :
    (∃ l : List ν, l.Nodup ∧ (∀ t, t ∈ l ↔ t ≠ s.idleThread ∧ s.pc t ≠ .gone ∧ s.pc t ≠ .exit) ∧ s.activeCount = l.length) ∧
      (s.activeCount = 0 ↔ ∀ t, t ≠ s.idleThread → s.pc t = .gone ∨ s.pc t = .exit) := by
  obtain ⟨s', hr', h⟩ := (ready_init isTerm hne now).run has
  cases hr'.symm.trans hr
  obtain ⟨l, hl, hmem, hlen⟩ := h.inv.active
  have hidle := h.inv.idle
  have hmem' : ∀ t, t ∈ l ↔ t ≠ s.idleThread ∧ s.pc t ≠ .gone ∧ s.pc t ≠ .exit := by grind
  refine ⟨⟨l, hl, hmem', hlen⟩, ?_⟩
  rw [hlen, List.length_eq_zero_iff, List.eq_nil_iff_forall_not_mem]
  grind

theorem active_threads_exit : ∃ s, run (quiet step) (init 0 1 100 : VP (Fin 3) (Fin 1) (Fin 1)) [.create 2 (some 0), .exit 0, .exit 1] =
    some s ∧ (s.activeCount = 0 ↔ ∀ t, t ≠ s.idleThread → s.pc t = .gone ∨ s.pc t = .exit) := by
  have has : Along (quiet step) (Allowed (· = 0)) (init 0 1 100 : VP (Fin 3) (Fin 1) (Fin 1))
    [.create 2 (some 0), .exit 0, .exit 1] := by decide +kernel
  exact ⟨_, rfl, (active_threads (by decide) 100 has rfl).2⟩

end VP

end ToolLib.StateThreads
