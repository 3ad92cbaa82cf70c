import ToolLib.Base.System

/-!
# Systems with a log

What an observer notes of a run: `obs s a s'` is what there is to note when the action `a` leads from `s` to `s'`. The log
is kept newest first, so a function on logs reads the past by recursion, and what happened before an entry is the rest of
the list.

`Since p q` says that there was a `p`, and no `q` since. `Each Q` says that every entry is allowed by the ones before it: it
is the form of a property of a whole run that is a matter of single entries, and has its own rule for the exact condition
(`each_iff_along`). That something is noted in the end is a matter of a measure (`Logged.appears`).
-/

namespace ToolLib.Base

variable {σ α ε : Type*}

/-- A state, and what has been noted on the way to it, newest first. -/
structure Logged (σ ε : Type*) where
  state : σ
  log : List ε

/-- The system that takes notes. -/
def Logged.step (step : σ → α → Option σ) (obs : σ → α → σ → Option ε) (x : Logged σ ε) (a : α) :
    Option (Logged σ ε) :=
  (step x.state a).map fun s => ⟨s, (obs x.state a s).toList ++ x.log⟩

/-- There was a `p`, and no `q` since. -/
def Since (p q : ε → Prop) : List ε → Prop
  | [] => False
  | e :: l => p e ∨ ¬ q e ∧ Since p q l

/-- Every entry of the log is allowed by the ones before it. -/
def Each (Q : List ε → ε → Prop) : List ε → Prop
  | [] => True
  | e :: l => Q l e ∧ Each Q l

section Logs

variable {step : σ → α → Option σ} {obs : σ → α → σ → Option ε} {Q : List ε → ε → Prop} {x x' : Logged σ ε} {a : α}
  {as : List α}

theorem Logged.step_eq_some : Logged.step step obs x a = some x' ↔
    ∃ s, step x.state a = some s ∧ x' = ⟨s, (obs x.state a s).toList ++ x.log⟩ := by
  simp only [Logged.step, Option.map_eq_some_iff]
  constructor
  · rintro ⟨s, hs, rfl⟩
    exact ⟨s, hs, rfl⟩
  · rintro ⟨s, hs, rfl⟩
    exact ⟨s, hs, rfl⟩

/-- What holds in all states of a run holds whether or not notes are taken. -/
theorem Logged.always_state {P : σ → Prop} :
    ∀ {as : List α} {x : Logged σ ε}, Always (Logged.step step obs) (fun x => P x.state) x as → Always step P x.state as
  | [], _, h => h
  | _ :: _, _, h => ⟨h.1, fun s hs => Logged.always_state (h.2 ⟨s, _⟩ (Logged.step_eq_some.2 ⟨s, hs, rfl⟩))⟩

/-- Every run can be noted. -/
theorem Logged.exists_run {s : σ} (hr : run step x.state as = some s) :
    ∃ l, run (Logged.step step obs) x as = some ⟨s, l⟩ := by
  induction as generalizing x with
  | nil => cases hr; exact ⟨x.log, rfl⟩
  | cons a as ih =>
    obtain ⟨s₁, h₁, h₂⟩ := run_cons_eq_some.1 hr
    obtain ⟨l, hl⟩ := ih (x := ⟨s₁, (obs x.state a s₁).toList ++ x.log⟩) h₂
    exact ⟨l, run_cons_eq_some.2 ⟨_, Logged.step_eq_some.2 ⟨s₁, h₁, rfl⟩, hl⟩⟩

instance Since.decidable {p q : ε → Prop} [DecidablePred p] [DecidablePred q] :
    (l : List ε) → Decidable (Since p q l)
  | [] => instDecidableFalse
  | e :: l =>
    have := Since.decidable (p := p) (q := q) l
    inferInstanceAs (Decidable (p e ∨ ¬ q e ∧ Since p q l))

section Since

variable {p q : ε → Prop} {e : ε} {l : List ε}

theorem since_cons (hq : ¬ q e) : Since p q (e :: l) ↔ p e ∨ Since p q l := by
  simp [Since, hq]

/-- The entry does not matter. -/
theorem since_skip (hp : ¬ p e) (hq : ¬ q e) : Since p q (e :: l) ↔ Since p q l := by
  simp [Since, hp, hq]

theorem not_since (hp : ¬ p e) (hq : q e) : ¬ Since p q (e :: l) := by
  simp [Since, hp, hq]

end Since

theorem since_iff {p q : ε → Prop} {l : List ε} :
    Since p q l ↔ ∃ l₁ e l₂, l = l₁ ++ e :: l₂ ∧ p e ∧ ∀ e' ∈ l₁, ¬ q e' := by
  induction l with
  | nil => simp [Since]
  | cons e l ih =>
    rw [Since, ih]
    constructor
    · rintro (he | ⟨hq, l₁, e', l₂, rfl, he', hno⟩)
      · exact ⟨[], e, l, rfl, he, by simp⟩
      · exact ⟨e :: l₁, e', l₂, rfl, he', by simpa using ⟨hq, hno⟩⟩
    · rintro ⟨l₁, e', l₂, heq, he', hno⟩
      cases l₁ with
      | nil => cases heq; exact Or.inl he'
      | cons e₁ l₁ =>
        cases heq
        exact Or.inr ⟨hno e List.mem_cons_self, l₁, e', l₂, rfl, he', fun e'' h => hno e'' (List.mem_cons_of_mem _ h)⟩

theorem each_note {o : Option ε} {l : List ε} : Each Q (o.toList ++ l) ↔ (∀ e ∈ o, Q l e) ∧ Each Q l := by
  cases o with
  | none => simp
  | some e => simp [Each]

theorem each_iff {l : List ε} : Each Q l ↔ ∀ l₁ e l₂, l = l₁ ++ e :: l₂ → Q l₂ e := by
  induction l with
  | nil => simp [Each]
  | cons e l ih =>
    constructor
    · rintro ⟨he, hl⟩ l₁ e' l₂ heq
      cases l₁ with
      | nil => cases heq; exact he
      | cons e₁ l₁ => cases heq; exact ih.1 hl l₁ e' l₂ rfl
    · exact fun h => ⟨h [] e l rfl, ih.2 fun l₁ e' l₂ heq => h (e :: l₁) e' l₂ (by rw [heq]; rfl)⟩

/-- The log grows. -/
theorem Each.before (hr : run (Logged.step step obs) x as = some x') (h : Each Q x'.log) : Each Q x.log := by
  induction as generalizing x with
  | nil => cases hr; exact h
  | cons a as ih =>
    obtain ⟨x₁, h₁, h₂⟩ := run_cons_eq_some.1 hr
    obtain ⟨s₁, -, rfl⟩ := Logged.step_eq_some.1 h₁
    exact (each_note.1 (ih h₂)).2

/-- **The exact condition for logs.** `I` is kept by the steps that satisfy `C`, and in an `I`-state the steps that satisfy
`C` are those whose entry is allowed. Then all entries of a run are allowed exactly when all its steps satisfy `C`. -/
theorem each_iff_along {I : Logged σ ε → Prop} {C : Logged σ ε → α → Prop}
    (hI : ∀ x a s, I x → C x a → step x.state a = some s → I ⟨s, (obs x.state a s).toList ++ x.log⟩)
    (hQ : ∀ x a s, I x → step x.state a = some s → (C x a ↔ ∀ e ∈ obs x.state a s, Q x.log e)) (h : I x)
    (hr : run (Logged.step step obs) x as = some x') :
    Each Q x'.log ↔ Each Q x.log ∧ Along (Logged.step step obs) C x as := by
  induction as generalizing x with
  | nil => cases hr; simp [Along]
  | cons a as ih =>
    obtain ⟨x₁, h₁, h₂⟩ := run_cons_eq_some.1 hr
    obtain ⟨s₁, hs₁, rfl⟩ := Logged.step_eq_some.1 h₁
    constructor
    · intro hlog
      obtain ⟨hentry, hbefore⟩ := each_note.1 (hlog.before h₂)
      have hC := (hQ x a s₁ h hs₁).2 hentry
      refine ⟨hbefore, hC, fun x₂ hx₂ => ?_⟩
      obtain rfl : _ = x₂ := Option.some.inj (h₁.symm.trans hx₂)
      exact ((ih (hI x a s₁ h hC hs₁) h₂).1 hlog).2
    · rintro ⟨hbefore, hC, hrest⟩
      refine (ih (hI x a s₁ h hC hs₁) h₂).2 ⟨?_, hrest _ h₁⟩
      exact each_note.2 ⟨(hQ x a s₁ h hs₁).1 hC, hbefore⟩

/-- The rule for logs: when the steps that satisfy `C` keep `I`, and their entries are allowed. -/
theorem each_of_along {I : Logged σ ε → Prop} {C : Logged σ ε → α → Prop}
    (hI : ∀ x a s, I x → C x a → step x.state a = some s → I ⟨s, (obs x.state a s).toList ++ x.log⟩)
    (hQ : ∀ x a s, I x → C x a → step x.state a = some s → ∀ e ∈ obs x.state a s, Q x.log e) (h : I x)
    (hlog : Each Q x.log) (hC : Along (Logged.step step obs) C x as)
    (hr : run (Logged.step step obs) x as = some x') : Each Q x'.log := by
  refine (run_inv_along (I := fun x => I x ∧ Each Q x.log) (fun x a x' hx hc hs => ?_) ⟨h, hlog⟩ hC hr).2
  obtain ⟨s, h₁, rfl⟩ := Logged.step_eq_some.1 hs
  exact ⟨hI x a s hx.1 hc h₁, each_note.2 ⟨hQ x a s hx.1 hc h₁, hx.2⟩⟩

/-- The log of a run begins with the log before it. -/
theorem Logged.log_append (hr : run (Logged.step step obs) x as = some x') : ∃ l, x'.log = l ++ x.log := by
  induction as generalizing x with
  | nil => cases hr; exact ⟨[], rfl⟩
  | cons a as ih =>
    obtain ⟨x₁, h₁, h₂⟩ := run_cons_eq_some.1 hr
    obtain ⟨s₁, -, rfl⟩ := Logged.step_eq_some.1 h₁
    obtain ⟨l, hl⟩ := ih h₂
    exact ⟨l ++ (obs x.state a s₁).toList, by rw [hl, List.append_assoc]⟩

/-- **The progress rule for logs**: a step that satisfies `C` either notes an `E`, or keeps `I`; it does not raise `left`, and
the actions `p` lower it. Then a run with more of these actions than was left notes an `E`. -/
theorem Logged.appears {I : Logged σ ε → Prop} {C : Logged σ ε → α → Prop} {E : ε → Prop} {p : α → Bool} {left : σ → Nat}
    (hI : ∀ x a s, I x → C x a → step x.state a = some s →
      (∃ e ∈ obs x.state a s, E e) ∨ I ⟨s, (obs x.state a s).toList ++ x.log⟩)
    (hleft : ∀ x a s, I x → C x a → step x.state a = some s → left s + (p a).toNat ≤ left x.state) (h : I x)
    (hC : Along (Logged.step step obs) C x as) (hr : run (Logged.step step obs) x as = some x')
    (hp : left x.state < as.countP p) : ∃ l, x'.log = l ++ x.log ∧ ∃ e ∈ l, E e := by
  induction as generalizing x with
  | nil => simp at hp
  | cons a as ih =>
    obtain ⟨x₁, h₁, h₂⟩ := run_cons_eq_some.1 hr
    obtain ⟨s₁, hs₁, rfl⟩ := Logged.step_eq_some.1 h₁
    have hrest := hC.2 _ h₁
    rcases hI x a s₁ h hC.1 hs₁ with ⟨e, he, hE⟩ | h'
    · obtain ⟨l, hl⟩ := Logged.log_append h₂
      refine ⟨l ++ (obs x.state a s₁).toList, by rw [hl, List.append_assoc], e, ?_, hE⟩
      exact List.mem_append_right _ (Option.mem_toList.2 he)
    · have hstep := hleft x a s₁ h hC.1 hs₁
      have hcount : (a :: as).countP p = as.countP p + (p a).toNat := by
        cases hpa : p a <;> simp [hpa]
      obtain ⟨l, hl, e, he, hE⟩ := ih h' hrest h₂ (by simp only; omega)
      refine ⟨l ++ (obs x.state a s₁).toList, by rw [hl, List.append_assoc], e, List.mem_append_left _ he, hE⟩

end Logs

end ToolLib.Base
