import ToolLib.Base.System

/-!
# Systems with outputs

A system whose steps also give an output: `step : σ → α → Option (σ × ω)`. Without the outputs it is a system of
`ToolLib.Base.System` (`quiet`), so the runs that a theorem is about are described by `Along (quiet step)`.

- `Meets Q`: no step of a run fails, and each output is as `Q` says, which may look at the actions before it; the rules
  `meets_of_along` and `meets_of_along_beside`, and `meets_iff_along` for the exact condition;
- `outputs`: the outputs of a run, and the rule for two systems that give the same (`outputs_eq_of_along`).
-/

namespace ToolLib.Base

variable {σ α ω : Type*}

/-- The system without its outputs. -/
def quiet (step : σ → α → Option (σ × ω)) (s : σ) (a : α) : Option σ := (step s a).map Prod.fst

/-- No step fails, and each output is as `Q` says; `past` are the actions before, the last one first. -/
def Meets (step : σ → α → Option (σ × ω)) (Q : List α → σ → α → ω → Prop) : List α → σ → List α → Prop
  | _, _, [] => True
  | past, s, a :: as => ∃ s' o, step s a = some (s', o) ∧ Q past s a o ∧ Meets step Q (a :: past) s' as

/-- The outputs of a run, `none` when a step fails. -/
def outputs (step : σ → α → Option (σ × ω)) : σ → List α → Option (List ω)
  | _, [] => some []
  | s, a :: as => (step s a).bind fun r => (outputs step r.1 as).map (r.2 :: ·)

section Outputs

variable {step step' : σ → α → Option (σ × ω)} {Q : List α → σ → α → ω → Prop} {C : σ → α → Prop} {s s' : σ} {a : α}
  {as past : List α} {o : ω}

theorem quiet_eq_some (h : step s a = some (s', o)) : quiet step s a = some s' := by
  rw [quiet, h]
  rfl

/-- **The rule for outputs**: when every step that satisfies `C` succeeds, keeps `I` and gives an output as `Q` says. -/
theorem meets_of_along {I : List α → σ → Prop}
    (h : ∀ past s a, I past s → C s a → ∃ s' o, step s a = some (s', o) ∧ Q past s a o ∧ I (a :: past) s')
    (hI : I past s) (hC : Along (quiet step) C s as) : Meets step Q past s as := by
  induction as generalizing past s with
  | nil => trivial
  | cons a as ih =>
    obtain ⟨s', o, hstep, hQ, hI'⟩ := h past s a hI hC.1
    exact ⟨s', o, hstep, hQ, ih hI' (hC.2 s' (quiet_eq_some hstep))⟩

/-- **The rule for outputs, with the condition on another system**: when every action that the other system allows in a
related state succeeds, keeps `R` and gives an output as `Q` says. -/
theorem meets_of_along_beside {τ : Type*} {astep : τ → α → Option τ} {D : τ → α → Prop} {R : List α → σ → τ → Prop}
    (h : ∀ past s t a, R past s t → D t a → ∃ s' o t', step s a = some (s', o) ∧ astep t a = some t' ∧ Q past s a o ∧
      R (a :: past) s' t') {t : τ} (hR : R past s t) (hD : Along astep D t as) : Meets step Q past s as := by
  induction as generalizing past s t with
  | nil => trivial
  | cons a as ih =>
    obtain ⟨s', o, t', hstep, hastep, hQ, hR'⟩ := h past s t a hR hD.1
    exact ⟨s', o, hstep, hQ, ih hR' (hD.2 t' hastep)⟩

/-- What `Meets` says about one action of a run. -/
theorem Meets.last (as : List α) (h : Meets step Q past s (as ++ [a])) (hrun : run (quiet step) s as = some s') :
    ∃ s'' o, step s' a = some (s'', o) ∧ Q (as.reverse ++ past) s' a o := by
  induction as generalizing past s with
  | nil =>
    cases hrun
    obtain ⟨s'', o, hstep, hQ, -⟩ := h
    exact ⟨s'', o, hstep, hQ⟩
  | cons b as ih =>
    obtain ⟨s₁, o, hstep, -, h⟩ := h
    obtain ⟨s₂, hstep', hrun⟩ := run_cons_eq_some.1 hrun
    rw [quiet_eq_some hstep] at hstep'
    cases hstep'
    rw [List.reverse_cons, List.append_assoc]
    exact ih h hrun

/-- **The exact condition for outputs**: in a run of actions that satisfy `A`, the outputs are as `Q` says exactly when every step
satisfies `C`. -/
theorem meets_iff_along {I : List α → σ → Prop} {A : α → Prop}
    (h : ∀ past s a, I past s → A a → C s a → ∃ s' o, step s a = some (s', o) ∧ Q past s a o ∧ I (a :: past) s')
    (hC : ∀ past s a s' o, I past s → A a → step s a = some (s', o) → Q past s a o → C s a) (hI : I past s)
    (hA : ∀ a ∈ as, A a) : Meets step Q past s as ↔ Along (quiet step) C s as := by
  constructor
  · intro hM
    induction as generalizing past s with
    | nil => trivial
    | cons a as ih =>
      obtain ⟨s', o, hstep, hQ, hM'⟩ := hM
      have hAa := hA a List.mem_cons_self
      have hCa := hC past s a s' o hI hAa hstep hQ
      obtain ⟨s'', o', hstep', -, hI'⟩ := h past s a hI hAa hCa
      rw [hstep] at hstep'
      cases hstep'
      refine ⟨hCa, fun s'' hs => ?_⟩
      rw [quiet_eq_some hstep] at hs
      cases hs
      exact ih hI' (fun b hb => hA b (List.mem_cons_of_mem _ hb)) hM'
  · intro hAlong
    exact meets_of_along (fun past s a hI ha => h past s a hI ha.1 ha.2) hI (hAlong.and_forall hA)

/-- **The rule for equal outputs**: when every step that satisfies `C` keeps `I` and is the same in both systems. -/
theorem outputs_eq_of_along {I : σ → Prop}
    (h : ∀ s a, I s → C s a → step s a = step' s a ∧ ∀ s' o, step s a = some (s', o) → I s')
    (hI : I s) (hC : Along (quiet step) C s as) : outputs step s as = outputs step' s as := by
  induction as generalizing s with
  | nil => rfl
  | cons a as ih =>
    obtain ⟨heq, hkeep⟩ := h s a hI hC.1
    rw [outputs, outputs, ← heq]
    cases hstep : step s a with
    | none => rfl
    | some r =>
      rw [Option.bind_some, Option.bind_some, ih (hkeep r.1 r.2 hstep) (hC.2 r.1 (quiet_eq_some hstep))]

end Outputs

end ToolLib.Base
