import ToolLib.Base.Outputs

/-!
# Simulation by named actions

Every step of a system is matched by one action of a second system, which is a function of the state and the action. Then
so is every run, by the list of these actions (`trace`): it leads to the matching state (`run_trace`), and where the two
systems give the same outputs step by step, they give the same outputs in the run (`outputs_trace`).
-/

namespace ToolLib.Base

variable {σ τ α β ω : Type*}

/-- The actions `f` of the steps of a run. -/
def trace (step : σ → α → Option σ) (f : σ → α → β) : σ → List α → List β
  | _, [] => []
  | s, a :: as => f s a :: (step s a).elim [] fun s' => trace step f s' as

theorem trace_cons {step : σ → α → Option σ} {f : σ → α → β} {as : List α} {s s' : σ} {a : α} (h : step s a = some s') :
    trace step f s (a :: as) = f s a :: trace step f s' as := by
  rw [trace, h, Option.elim_some]

/-- **Simulation by named actions.** -/
theorem run_trace {step : σ → α → Option σ} {I : σ → Prop} {C : σ → α → Prop} {astep : τ → β → Option τ} {abs : σ → τ}
    {f : σ → α → β} (hI : ∀ s a s', I s → C s a → step s a = some s' → I s')
    (hsim : ∀ s a s', I s → C s a → step s a = some s' → astep (abs s) (f s a) = some (abs s')) :
    ∀ {as : List α} {s s' : σ}, I s → Along step C s as → run step s as = some s' →
      run astep (abs s) (trace step f s as) = some (abs s')
  | [], _, _, _, _, hr => by cases hr; rfl
  | a :: _, s, _, h, hC, hr => by
    obtain ⟨s₁, h₁, h₂⟩ := run_cons_eq_some.1 hr
    rw [trace_cons h₁]
    exact run_cons_eq_some.2 ⟨abs s₁, hsim s a s₁ h hC.1 h₁, run_trace hI hsim (hI s a s₁ h hC.1 h₁) (hC.2 s₁ h₁) h₂⟩

/-- **The same outputs**: no step fails, and the run of the second system by the named actions has the same outputs. -/
theorem outputs_trace {step : σ → α → Option (σ × ω)} {I : σ → Prop} {C : σ → α → Prop} {astep : τ → β → Option (τ × ω)}
    {abs : σ → τ} {f : σ → α → β}
    (h : ∀ s a, I s → C s a → ∃ s' o, step s a = some (s', o) ∧ I s' ∧ astep (abs s) (f s a) = some (abs s', o)) :
    ∀ {as : List α} {s : σ}, I s → Along (quiet step) C s as →
      ∃ s' l, run (quiet step) s as = some s' ∧ I s' ∧ outputs step s as = some l ∧
        outputs astep (abs s) (trace (quiet step) f s as) = some l
  | [], s, hI, _ => ⟨s, [], rfl, hI, rfl, rfl⟩
  | a :: as, s, hI, hC => by
    obtain ⟨s₁, o, hs, hI₁, ha⟩ := h s a hI hC.1
    have hq := quiet_eq_some hs
    obtain ⟨s', l, hr, hI', hl, hal⟩ := outputs_trace h hI₁ (hC.2 s₁ hq)
    refine ⟨s', o :: l, run_cons_eq_some.2 ⟨s₁, hq, hr⟩, hI', ?_, ?_⟩
    · rw [outputs, hs, Option.bind_some, hl, Option.map_some]
    · rw [trace_cons hq, outputs, ha, Option.bind_some, hal, Option.map_some]

end ToolLib.Base
