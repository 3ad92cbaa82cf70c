import Mathlib.Logic.Relation
import Mathlib.Tactic.Common

/-!
# Loops

A loop is a function `turn : σ → σ ⊕ ρ`: one turn in the state `s` leads to a state for the next turn, or leaves the
loop with a result, at the test of the loop or by a `return` in its body. `turns turn n s` is the result within `n`
turns.

- the result does not depend on how many turns are allowed (`turns_mono`, `Ends.unique`);
- the rule for loops that end (`ends_of_measure`): every turn keeps an invariant and makes a measure smaller
  (`ends_of_turn`, from what one turn does);
- the rule for loops that do not end (`never_ends`);
- the states at the head of the loop (`Heads`), and what holds in all of them (`heads_inv`);
- the rule for loops that compute something, which is what connects a loop with a function on other data (`turns_rel`).
-/

namespace ToolLib.Base

namespace Loop

variable {σ ρ : Type*}

/-- The result of the loop, if it has one within `n` turns. -/
def turns (turn : σ → σ ⊕ ρ) : Nat → σ → Option ρ
  | 0, _ => none
  | n + 1, s =>
    match turn s with
    | .inl s' => turns turn n s'
    | .inr r => some r

/-- The loop ends with the result `r`. -/
def Ends (turn : σ → σ ⊕ ρ) (s : σ) (r : ρ) : Prop := ∃ n, turns turn n s = some r

/-- The loop comes to its head in the state `s'`. -/
def Heads (turn : σ → σ ⊕ ρ) : σ → σ → Prop := Relation.ReflTransGen fun s s' => turn s = .inl s'

variable {turn : σ → σ ⊕ ρ} {s s' : σ} {r r' : ρ} {n m : Nat} {I : σ → Prop}

theorem turns_succ_inl (h : turn s = .inl s') : turns turn (n + 1) s = turns turn n s' := by
  rw [turns, h]

theorem turns_succ_inr (h : turn s = .inr r) : turns turn (n + 1) s = some r := by
  rw [turns, h]

/-- More turns do not change the result. -/
theorem turns_mono (h : turns turn n s = some r) (hnm : n ≤ m) : turns turn m s = some r := by
  induction n generalizing s m with
  | zero => cases h
  | succ n ih =>
    obtain ⟨m, rfl⟩ : ∃ k, m = k + 1 := ⟨m - 1, by omega⟩
    cases hs : turn s with
    | inl s' =>
      rw [turns_succ_inl hs] at h ⊢
      exact ih h (by omega)
    | inr r' =>
      rw [turns_succ_inr hs] at h ⊢
      exact h

theorem Ends.unique (h : Ends turn s r) (h' : Ends turn s r') : r = r' := by
  obtain ⟨n, hn⟩ := h
  obtain ⟨m, hm⟩ := h'
  have hr := turns_mono hn (Nat.le_max_left n m)
  have hr' := turns_mono hm (Nat.le_max_right n m)
  exact Option.some.inj (hr.symm.trans hr')

theorem ends_inl (h : turn s = .inl s') : Ends turn s r ↔ Ends turn s' r := by
  constructor
  · rintro ⟨_ | n, hn⟩
    · cases hn
    · rw [turns_succ_inl h] at hn
      exact ⟨n, hn⟩
  · rintro ⟨n, hn⟩
    exact ⟨n + 1, by rw [turns_succ_inl h, hn]⟩

theorem ends_inr (h : turn s = .inr r) : Ends turn s r := ⟨1, turns_succ_inr h⟩

/-- The invariant rule: a result comes from a state that the turns have kept `I` for. -/
theorem turns_inv {Q : ρ → Prop} (hgo : ∀ s s', I s → turn s = .inl s' → I s')
    (hleave : ∀ s r, I s → turn s = .inr r → Q r) (h : I s) (hr : turns turn n s = some r) : Q r := by
  induction n generalizing s with
  | zero => cases hr
  | succ n ih =>
    cases hs : turn s with
    | inl s' =>
      rw [turns_succ_inl hs] at hr
      exact ih (hgo s s' h hs) hr
    | inr r' =>
      rw [turns_succ_inr hs] at hr
      cases hr
      exact hleave s r h hs

/-- **The rule for loops that end**: every turn keeps `I` and makes `size` smaller, or leaves with a result as `Q` says.
-/
theorem turns_of_measure {Q : ρ → Prop} (size : σ → Nat)
    (hgo : ∀ s s', I s → turn s = .inl s' → I s' ∧ size s' < size s) (hleave : ∀ s r, I s → turn s = .inr r → Q r)
    (h : I s) (hn : size s < n) : ∃ r, turns turn n s = some r ∧ Q r := by
  induction n generalizing s with
  | zero => cases hn
  | succ n ih =>
    cases hs : turn s with
    | inl s' =>
      obtain ⟨hI, hlt⟩ := hgo s s' h hs
      rw [turns_succ_inl hs]
      exact ih hI (by omega)
    | inr r => exact ⟨r, turns_succ_inr hs, hleave s r h hs⟩

theorem ends_of_measure {Q : ρ → Prop} (size : σ → Nat)
    (hgo : ∀ s s', I s → turn s = .inl s' → I s' ∧ size s' < size s) (hleave : ∀ s r, I s → turn s = .inr r → Q r)
    (h : I s) : ∃ r, Ends turn s r ∧ Q r := by
  obtain ⟨r, hr, hQ⟩ := turns_of_measure size hgo hleave h (Nat.lt_succ_self _)
  exact ⟨r, ⟨_, hr⟩, hQ⟩

/-- The same rule, from what one turn does. -/
theorem turns_of_turn {Q : ρ → Prop} (size : σ → Nat)
    (hturn : ∀ s, I s → (∃ s', turn s = .inl s' ∧ I s' ∧ size s' < size s) ∨ ∃ r, turn s = .inr r ∧ Q r)
    (h : I s) (hn : size s < n) : ∃ r, turns turn n s = some r ∧ Q r := by
  refine turns_of_measure size (fun s s' hs hgo => ?_) (fun s r hs hleave => ?_) h hn
  · rcases hturn s hs with ⟨s₁, h₁, hI, hlt⟩ | ⟨r, h₁, -⟩
    · rw [h₁] at hgo
      cases hgo
      exact ⟨hI, hlt⟩
    · rw [h₁] at hgo
      cases hgo
  · rcases hturn s hs with ⟨s₁, h₁, -⟩ | ⟨r', h₁, hQ⟩
    · rw [h₁] at hleave
      cases hleave
    · rw [h₁] at hleave
      cases hleave
      exact hQ

theorem ends_of_turn {Q : ρ → Prop} (size : σ → Nat)
    (hturn : ∀ s, I s → (∃ s', turn s = .inl s' ∧ I s' ∧ size s' < size s) ∨ ∃ r, turn s = .inr r ∧ Q r)
    (h : I s) : ∃ r, Ends turn s r ∧ Q r := by
  obtain ⟨r, hr, hQ⟩ := turns_of_turn size hturn h (Nat.lt_succ_self _)
  exact ⟨r, ⟨_, hr⟩, hQ⟩

/-- **The rule for loops that do not end**: from an `I`-state every turn leads to an `I`-state. -/
theorem turns_eq_none (hgo : ∀ s, I s → ∃ s', turn s = .inl s' ∧ I s') (h : I s) : turns turn n s = none := by
  induction n generalizing s with
  | zero => rfl
  | succ n ih =>
    obtain ⟨s', hs, hI⟩ := hgo s h
    rw [turns_succ_inl hs]
    exact ih hI

theorem never_ends (hgo : ∀ s, I s → ∃ s', turn s = .inl s' ∧ I s') (h : I s) : ¬ Ends turn s r := by
  rintro ⟨n, hn⟩
  rw [turns_eq_none hgo h] at hn
  cases hn

theorem heads_inv (hgo : ∀ s s', I s → turn s = .inl s' → I s') (h : I s) (hs : Heads turn s s') : I s' := by
  induction hs with
  | refl => exact h
  | tail _ ht ih => exact hgo _ _ ih ht

theorem heads_inl (h : turn s = .inl s') {s'' : σ} : Heads turn s s'' ↔ s'' = s ∨ Heads turn s' s'' := by
  rw [Heads, Relation.ReflTransGen.cases_head_iff, eq_comm]
  refine or_congr_right ⟨?_, fun hs => ⟨s', h, hs⟩⟩
  rintro ⟨s₁, h₁, hs⟩
  rw [h] at h₁
  rw [Sum.inl.inj h₁]
  exact hs

theorem heads_inr (h : turn s = .inr r) {s'' : σ} : Heads turn s s'' ↔ s'' = s := by
  rw [Heads, Relation.ReflTransGen.cases_head_iff, eq_comm]
  refine or_iff_left ?_
  rintro ⟨s₁, h₁, -⟩
  rw [h] at h₁
  cases h₁

/-- **The rule for loops that compute something**: `R s u` says that `u` is what the loop is to give in the state `s`.
Every turn leads to a state that is to give the same, or leaves with a result that is right. -/
theorem turns_rel {υ : Type*} {R : σ → υ → Prop} {Q : ρ → υ → Prop} {u : υ}
    (hR : ∀ s, R s u → (∃ s', turn s = .inl s' ∧ R s' u) ∨ ∃ r, turn s = .inr r ∧ Q r u) (h : R s u)
    (hr : turns turn n s = some r) : Q r u := by
  induction n generalizing s with
  | zero => cases hr
  | succ n ih =>
    rcases hR s h with ⟨s', hs, h'⟩ | ⟨r', hs, hQ⟩
    · rw [turns_succ_inl hs] at hr
      exact ih h' hr
    · rw [turns_succ_inr hs] at hr
      cases hr
      exact hQ

end Loop

end ToolLib.Base
