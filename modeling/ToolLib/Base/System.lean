import Mathlib.Data.List.Basic
import Mathlib.Tactic.Common

/-!
# Systems that take one action at a time

A system is a function `step : σ → α → Option σ`: what the action `a` does in the state `s`, `none` when `a` is not
possible there. Whatever is open in the modelled program (the schedule, the result of a system call, the outcome of a
callback) is part of the action, so a list of actions is one interleaving and `run` is its result.

- `run` and how it composes (`run_append`, `run_snoc`);
- the invariant rule (`run_inv`), and its form for actions that satisfy a condition (`Along`, `run_inv_along`);
- a property of every state of a run (`Always`), and the rules that find the exact condition for it
  (`always_iff_along`, `always_iff_along_within`, `always_iff_along_of_total`);
- a property of the states up to some step (`Until`);
- relations between the two ends of a run (`run_rel`), and how many actions of a kind it can have (`run_count`);
- simulation: when every step is matched by a run of a second system, so is every run (`run_sim`), and when it is
  matched by the same action, through a relation, so is every run by the same actions (`run_lockstep`).
-/

namespace ToolLib.Base

variable {σ τ α β : Type*}

/-! ## Runs -/

/-- The state after the actions `as`, `none` when one of them is not possible. -/
def run (step : σ → α → Option σ) : σ → List α → Option σ
  | s, [] => some s
  | s, a :: as => (step s a).bind fun s' => run step s' as

section Runs

variable {step : σ → α → Option σ} {s s' s'' : σ} {a : α} {as bs : List α}

@[simp] theorem run_nil : run step s [] = some s := rfl

theorem run_cons_eq_some : run step s (a :: as) = some s'' ↔ ∃ s', step s a = some s' ∧ run step s' as = some s'' := by
  simp [run, Option.bind_eq_some_iff]

theorem run_one : run step s [a] = step s a := by
  cases h : step s a <;> simp [run, h]

theorem run_append : run step s (as ++ bs) = (run step s as).bind fun s' => run step s' bs := by
  induction as generalizing s with
  | nil => rfl
  | cons a as ih =>
    simp only [List.cons_append, run]
    cases step s a with
    | none => rfl
    | some s' => exact ih

theorem run_append_eq_some :
    run step s (as ++ bs) = some s'' ↔ ∃ s', run step s as = some s' ∧ run step s' bs = some s'' := by
  rw [run_append, Option.bind_eq_some_iff]

theorem run_snoc : run step s (as ++ [a]) = some s'' ↔ ∃ s', run step s as = some s' ∧ step s' a = some s'' := by
  rw [run_append_eq_some]
  simp only [run_one]

/-- Runs compose. -/
theorem run_trans (h : run step s as = some s') (h' : run step s' bs = some s'') :
    run step s (as ++ bs) = some s'' :=
  run_append_eq_some.2 ⟨s', h, h'⟩

end Runs

/-! ## Invariants -/

section Invariants

variable {step : σ → α → Option σ}

/-- **The invariant rule**: what every step keeps, every run keeps. -/
theorem run_inv {I : σ → Prop} (hI : ∀ s a s', I s → step s a = some s' → I s') :
    ∀ {as : List α} {s s' : σ}, I s → run step s as = some s' → I s'
  | [], _, _, h, hr => by cases hr; exact h
  | _ :: _, s, _, h, hr => by
    obtain ⟨s₁, h₁, h₂⟩ := run_cons_eq_some.1 hr
    exact run_inv hI (hI s _ s₁ h h₁) h₂

/-- Every step of the run satisfies `C`, a condition on an action and the state it is taken in. -/
def Along (step : σ → α → Option σ) (C : σ → α → Prop) : σ → List α → Prop
  | _, [] => True
  | s, a :: as => C s a ∧ ∀ s', step s a = some s' → Along step C s' as

/-- Every state of the run satisfies `P`. -/
def Always (step : σ → α → Option σ) (P : σ → Prop) : σ → List α → Prop
  | s, [] => P s
  | s, a :: as => P s ∧ ∀ s', step s a = some s' → Always step P s' as

variable {C : σ → α → Prop} {P I : σ → Prop} {s s' : σ} {as bs : List α}

/-- A condition on the actions alone. -/
theorem along_of_forall {Q : α → Prop} : ∀ {as : List α} {s : σ}, (∀ a ∈ as, Q a) →
    Along step (fun _ a => Q a) s as
  | [], _, _ => trivial
  | _ :: _, _, h =>
    ⟨h _ List.mem_cons_self, fun _ _ => along_of_forall fun a ha => h a (List.mem_cons_of_mem _ ha)⟩

/-- A condition on the actions, and one on their states. -/
theorem Along.and_forall {Q : α → Prop} : ∀ {as : List α} {s : σ}, (∀ a ∈ as, Q a) → Along step C s as →
    Along step (fun s a => Q a ∧ C s a) s as
  | [], _, _, _ => trivial
  | _ :: _, _, hQ, hC =>
    ⟨⟨hQ _ List.mem_cons_self, hC.1⟩, fun s' hs => (hC.2 s' hs).and_forall fun a ha => hQ a (List.mem_cons_of_mem _ ha)⟩

/-- A weaker condition. -/
theorem Along.mono {D : σ → α → Prop} (hCD : ∀ s a, C s a → D s a) :
    ∀ {as : List α} {s : σ}, Along step C s as → Along step D s as
  | [], _, _ => trivial
  | _ :: _, _, h => ⟨hCD _ _ h.1, fun s' hs => (h.2 s' hs).mono hCD⟩

/-- A condition that all actions satisfy can be left out. -/
theorem along_and_forall_iff {Q : α → Prop} (hQ : ∀ a ∈ as, Q a) :
    Along step (fun s a => Q a ∧ C s a) s as ↔ Along step C s as :=
  ⟨fun h => h.mono fun _ _ hc => hc.2, fun h => h.and_forall hQ⟩

/-- **Two conditions for the same runs**: `I` is kept by the steps that satisfy `C`, and in an `I`-state the two conditions are
the same. -/
theorem along_iff_along {D : σ → α → Prop} (hI : ∀ s a s', I s → C s a → step s a = some s' → I s')
    (hCD : ∀ s a, I s → (D s a ↔ C s a)) : ∀ {as : List α} {s : σ}, I s → (Along step D s as ↔ Along step C s as)
  | [], _, _ => Iff.rfl
  | a :: as, s, h => by
    rw [Along, Along, hCD s a h]
    exact and_congr_right fun hc => forall_congr' fun s' => forall_congr' fun hs =>
      along_iff_along hI hCD (hI s a s' h hc hs)

/-- A condition on the actions alone, of a run. -/
theorem along_forall_iff {Q : α → Prop} : ∀ {as : List α} {s s' : σ}, run step s as = some s' →
    (Along step (fun _ a => Q a) s as ↔ ∀ a ∈ as, Q a)
  | [], _, _, _ => by simp [Along]
  | a :: as, s, s', hr => by
    obtain ⟨s₁, h₁, h₂⟩ := run_cons_eq_some.1 hr
    rw [Along, List.forall_mem_cons, ← along_forall_iff h₂]
    refine and_congr_right fun _ => ⟨fun h => h s₁ h₁, fun h s₂ hs₂ => ?_⟩
    obtain rfl := Option.some.inj (h₁.symm.trans hs₂)
    exact h

/-- On concrete runs the condition can be evaluated. -/
instance Along.decidable [∀ s a, Decidable (C s a)] : ∀ (as : List α) (s : σ), Decidable (Along step C s as)
  | [], _ => isTrue trivial
  | a :: as, s =>
    match h : step s a with
    | none => decidable_of_iff (C s a) ⟨fun hc => ⟨hc, fun s' hs => by rw [h] at hs; cases hs⟩, And.left⟩
    | some s₁ =>
      have := Along.decidable as s₁
      decidable_of_iff (C s a ∧ Along step C s₁ as)
        ⟨fun hc => ⟨hc.1, fun s' hs => by rw [h] at hs; cases hs; exact hc.2⟩, fun hc => ⟨hc.1, hc.2 s₁ h⟩⟩

/-- The invariant rule for runs whose steps satisfy `C`. -/
theorem run_inv_along (hI : ∀ s a s', I s → C s a → step s a = some s' → I s') :
    ∀ {as : List α} {s s' : σ}, I s → Along step C s as → run step s as = some s' → I s'
  | [], _, _, h, _, hr => by cases hr; exact h
  | _ :: _, s, _, h, hC, hr => by
    obtain ⟨s₁, h₁, h₂⟩ := run_cons_eq_some.1 hr
    exact run_inv_along hI (hI s _ s₁ h hC.1 h₁) (hC.2 s₁ h₁) h₂

/-- The same, for every state of the run. -/
theorem always_of_along (hI : ∀ s a s', I s → C s a → step s a = some s' → I s') (hP : ∀ s, I s → P s) :
    ∀ {as : List α} {s : σ}, I s → Along step C s as → Always step P s as
  | [], s, h, _ => hP s h
  | _ :: _, s, h, hC =>
    ⟨hP s h, fun s' hs => always_of_along hI hP (hI s _ s' h hC.1 hs) (hC.2 s' hs)⟩

theorem Always.head (h : Always step P s as) : P s := by
  cases as with
  | nil => exact h
  | cons a as => exact h.1

/-- A run that keeps `P` satisfies `P` at its end. -/
theorem Always.last : ∀ {as : List α} {s s' : σ}, Always step P s as → run step s as = some s' → P s'
  | [], _, _, h, hr => by cases hr; exact h
  | _ :: _, _, _, h, hr => by
    obtain ⟨s₁, h₁, h₂⟩ := run_cons_eq_some.1 hr
    exact (h.2 s₁ h₁).last h₂

/-- **The exact condition, within another one.** Among the steps that satisfy `D`, those that satisfy `C` keep `I`, which
gives `P`, and a step from an `I`-state that keeps `P` satisfies `C`. Then a run of steps that satisfy `D`, from an
`I`-state, keeps `P` exactly when all its steps satisfy `C`. -/
theorem always_iff_along_within {D : σ → α → Prop} (hI : ∀ s a s', I s → D s a → C s a → step s a = some s' → I s')
    (hP : ∀ s, I s → P s) (hC : ∀ s a s', I s → D s a → step s a = some s' → P s' → C s a) :
    ∀ {as : List α} {s s' : σ}, I s → Along step D s as → run step s as = some s' →
      (Always step P s as ↔ Along step C s as)
  | [], s, _, h, _, _ => ⟨fun _ => trivial, fun _ => hP s h⟩
  | a :: as, s, s', h, hD, hr => by
    obtain ⟨s₁, h₁, h₂⟩ := run_cons_eq_some.1 hr
    have ih : I s₁ → (Always step P s₁ as ↔ Along step C s₁ as) := fun h' =>
      always_iff_along_within hI hP hC h' (hD.2 s₁ h₁) h₂
    have only : ∀ s', step s a = some s' → s' = s₁ := fun s' hs => Option.some.inj (hs.symm.trans h₁)
    constructor
    · intro hA
      have hc := hC s a s₁ h hD.1 h₁ (hA.2 s₁ h₁).head
      refine ⟨hc, fun s' hs => ?_⟩
      rw [only s' hs]
      exact (ih (hI s a s₁ h hD.1 hc h₁)).1 (hA.2 s₁ h₁)
    · intro hA
      refine ⟨hP s h, fun s' hs => ?_⟩
      rw [only s' hs]
      exact (ih (hI s a s₁ h hD.1 hA.1 h₁)).2 (hA.2 s₁ h₁)

/-- **The exact condition**, for every run from an `I`-state. -/
theorem always_iff_along (hI : ∀ s a s', I s → C s a → step s a = some s' → I s') (hP : ∀ s, I s → P s)
    (hC : ∀ s a s', I s → step s a = some s' → P s' → C s a) {s s' : σ} (h : I s) (hr : run step s as = some s') :
    Always step P s as ↔ Along step C s as :=
  always_iff_along_within (D := fun _ _ => True) (fun s a s' h _ hc hs => hI s a s' h hc hs) hP
    (fun s a s' h _ hs hp => hC s a s' h hs hp) h (along_of_forall fun _ _ => trivial) hr

/-- **The exact condition**, where every step from an `I`-state is possible. -/
theorem always_iff_along_of_total (hI : ∀ s a s', I s → C s a → step s a = some s' → I s') (hP : ∀ s, I s → P s)
    (hC : ∀ s a s', I s → step s a = some s' → P s' → C s a) (htotal : ∀ s a, I s → ∃ s', step s a = some s') :
    ∀ {as : List α} {s : σ}, I s → (Always step P s as ↔ Along step C s as)
  | [], s, h => ⟨fun _ => trivial, fun _ => hP s h⟩
  | a :: as, s, h => by
    constructor
    · intro hA
      obtain ⟨s₁, h₁⟩ := htotal s a h
      have hc := hC s a s₁ h h₁ (hA.2 s₁ h₁).head
      exact ⟨hc, fun s' hs => (always_iff_along_of_total hI hP hC htotal (hI s a s' h hc hs)).1 (hA.2 s' hs)⟩
    · exact fun hA =>
        ⟨hP s h, fun s' hs => (always_iff_along_of_total hI hP hC htotal (hI s a s' h hA.1 hs)).2 (hA.2 s' hs)⟩

/-- Every state of the run satisfies `P`, up to the first step that satisfies `E`, if there is one; then the rest of the
run satisfies `R`. -/
def Until (step : σ → α → Option σ) (P : σ → Prop) (E : σ → α → Prop) (R : σ → List α → Prop) : σ → List α → Prop
  | s, [] => P s
  | s, a :: as => P s ∧ (E s a ∧ (∀ s', step s a = some s' → R s' as) ∨ ∀ s', step s a = some s' → Until step P E R s' as)

/-- The rule for `Until`: a step keeps `I`, or it satisfies `E` and leads to where `R` begins. -/
theorem until_of_step {E : σ → α → Prop} {R : σ → List α → Prop} (hP : ∀ s, I s → P s)
    (hI : ∀ s a s', I s → step s a = some s' → I s' ∨ E s a ∧ ∀ as, R s' as) :
    ∀ {as : List α} {s : σ}, I s → Until step P E R s as
  | [], s, h => hP s h
  | a :: as, s, h => by
    refine ⟨hP s h, ?_⟩
    cases hs : step s a with
    | none => exact Or.inr fun s' hs' => by cases hs'
    | some s₁ =>
      rcases hI s a s₁ h hs with h₁ | ⟨hE, hR⟩
      · refine Or.inr fun s' hs' => ?_
        cases hs'
        exact until_of_step hP hI h₁
      · refine Or.inl ⟨hE, fun s' hs' => ?_⟩
        cases hs'
        exact hR as

/-- A reflexive and transitive relation that every step respects holds between the ends of a run. -/
theorem run_rel {R : σ → σ → Prop} (hrefl : ∀ s, R s s) (htrans : ∀ s₁ s₂ s₃, R s₁ s₂ → R s₂ s₃ → R s₁ s₃)
    (hstep : ∀ s a s', step s a = some s' → R s s') :
    ∀ {as : List α} {s s' : σ}, run step s as = some s' → R s s'
  | [], s, _, hr => by cases hr; exact hrefl s
  | _ :: _, s, _, hr => by
    obtain ⟨s₁, h₁, h₂⟩ := run_cons_eq_some.1 hr
    exact htrans _ _ _ (hstep s _ s₁ h₁) (run_rel hrefl htrans hstep h₂)

/-- **The progress rule**: when every step that satisfies `C` keeps `I` and does not raise `left`, and the actions `p` lower
it, a run has at most as many of these actions as was left. -/
theorem run_count {p : α → Bool} {left : σ → Nat} (hI : ∀ s a s', I s → C s a → step s a = some s' → I s')
    (hleft : ∀ s a s', I s → C s a → step s a = some s' → left s' + (p a).toNat ≤ left s) :
    ∀ {as : List α} {s s' : σ}, I s → Along step C s as → run step s as = some s' → left s' + as.countP p ≤ left s
  | [], _, _, _, _, hr => by cases hr; exact Nat.le_refl _
  | a :: as, s, s', h, hC, hr => by
    obtain ⟨s₁, h₁, h₂⟩ := run_cons_eq_some.1 hr
    have hstep := hleft s a s₁ h hC.1 h₁
    have hrest := run_count hI hleft (hI s a s₁ h hC.1 h₁) (hC.2 s₁ h₁) h₂
    rw [List.countP_cons]
    cases hp : p a with
    | true =>
      simp only [hp, Bool.toNat_true] at hstep
      simp only [if_true]
      omega
    | false =>
      simp only [hp, Bool.toNat_false] at hstep
      simp only [Bool.false_eq_true, if_false]
      omega

end Invariants

/-! ## Simulation -/

/-- **Simulation**: when every step from an `I`-state that satisfies `C` keeps `I` and is matched, through `abs`, by a run
of the abstract system, so is every run of such steps. -/
theorem run_sim {step : σ → α → Option σ} {astep : τ → β → Option τ} {abs : σ → τ} {I : σ → Prop} {C : σ → α → Prop}
    (hI : ∀ s a s', I s → C s a → step s a = some s' → I s')
    (hsim : ∀ s a s', I s → C s a → step s a = some s' → ∃ bs, run astep (abs s) bs = some (abs s')) :
    ∀ {as : List α} {s s' : σ}, I s → Along step C s as → run step s as = some s' →
      ∃ bs, run astep (abs s) bs = some (abs s')
  | [], _, _, _, _, hr => by cases hr; exact ⟨[], rfl⟩
  | a :: _, s, _, h, hC, hr => by
    obtain ⟨s₁, h₁, h₂⟩ := run_cons_eq_some.1 hr
    obtain ⟨bs, hb⟩ := hsim s a s₁ h hC.1 h₁
    obtain ⟨cs, hc⟩ := run_sim hI hsim (hI s a s₁ h hC.1 h₁) (hC.2 s₁ h₁) h₂
    exact ⟨bs ++ cs, run_trans hb hc⟩

/-- **Lockstep**: when every step that satisfies `C` is matched, through `R`, by the same action of the second system, so
is every run of such steps. -/
theorem run_lockstep {step : σ → α → Option σ} {astep : τ → α → Option τ} {R : σ → τ → Prop} {C : σ → α → Prop}
    (hR : ∀ s t a s', R s t → C s a → step s a = some s' → ∃ t', astep t a = some t' ∧ R s' t') :
    ∀ {as : List α} {s s' : σ} {t : τ}, R s t → Along step C s as → run step s as = some s' →
      ∃ t', run astep t as = some t' ∧ R s' t'
  | [], _, _, t, h, _, hr => by cases hr; exact ⟨t, rfl, h⟩
  | a :: _, s, _, t, h, hC, hr => by
    obtain ⟨s₁, h₁, h₂⟩ := run_cons_eq_some.1 hr
    obtain ⟨t₁, ht₁, hR₁⟩ := hR s t a s₁ h hC.1 h₁
    obtain ⟨t', ht', hR'⟩ := run_lockstep hR hR₁ (hC.2 s₁ h₁) h₂
    exact ⟨t', run_cons_eq_some.2 ⟨t₁, ht₁, ht'⟩, hR'⟩

end ToolLib.Base
