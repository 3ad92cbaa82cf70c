import ToolLib.Base.System
import Mathlib.Data.List.Sublists

/-!
# A queue in two stages

Items are pushed at the back stage and taken from the front stage; when the front stage is empty the two stages change
places. An overflow throws away the back stage together with the item that did not fit. Every item is named by the
number of pushes before it, so that equal items stay apart.

- `TwoStage.Ok`: the numbers taken and the numbers still stored, in this order, increase, and together with the lost
  ones they are all the pushes there were;
- every step keeps it (`step_ok`), hence every run (`run_ok`);
- the items with increasing numbers are a subsequence of what was pushed (`sublist_of_sorted`).
-/

namespace ToolLib.Base

/-- The items pushed so far, and the numbers of those taken, stored at the front, stored at the back, and lost. -/
structure TwoStage (φ : Type*) where
  pushed : List φ
  out : List Nat
  front : List Nat
  back : List Nat
  lost : List Nat

namespace TwoStage

variable {φ : Type*}

/-- What can happen to a queue in two stages. -/
inductive Act (φ : Type*)
  | push (f : φ)
  | overflow (f : φ)
  | swap
  | take

/-- One step; the stages change places only when the front is empty. -/
def step : TwoStage φ → Act φ → Option (TwoStage φ)
  | b, .push f => some { b with pushed := b.pushed ++ [f], back := b.back ++ [b.pushed.length] }
  | b, .overflow f =>
    some { b with pushed := b.pushed ++ [f], back := [], lost := b.lost ++ (b.back ++ [b.pushed.length]) }
  | b, .swap => if b.front = [] then some { b with front := b.back, back := [] } else none
  | b, .take =>
    match b.front with
    | [] => none
    | k :: ks => some { b with out := b.out ++ [k], front := ks }

/-- The numbers that are not lost: taken, then at the front, then at the back. -/
def kept (b : TwoStage φ) : List Nat := b.out ++ b.front ++ b.back

/-- Nothing is taken twice or out of order, and nothing disappears without being counted as lost. -/
structure Ok (b : TwoStage φ) : Prop where
  sorted : b.kept.Pairwise (· < ·)
  cover : ∀ k, k < b.pushed.length ↔ k ∈ b.kept ∨ k ∈ b.lost
  apart : ∀ k ∈ b.kept, k ∉ b.lost

/-- The queue before the first push. -/
theorem ok_empty : Ok (⟨[], [], [], [], []⟩ : TwoStage φ) where
  sorted := by simp [kept]
  cover := by simp [kept]
  apart := by simp [kept]

theorem Ok.lt {b : TwoStage φ} (h : Ok b) {k : Nat} (hk : k ∈ b.kept) : k < b.pushed.length :=
  (h.cover k).2 (Or.inl hk)

/-- A new number after the kept ones. -/
theorem Ok.push {b : TwoStage φ} (h : Ok b) (f : φ) :
    Ok { b with pushed := b.pushed ++ [f], back := b.back ++ [b.pushed.length] } := by
  have hk : kept { b with pushed := b.pushed ++ [f], back := b.back ++ [b.pushed.length] } =
      b.kept ++ [b.pushed.length] := by simp [kept]
  have hlost : b.pushed.length ∉ b.lost := fun hl => absurd ((h.cover _).2 (Or.inr hl)) (lt_irrefl _)
  refine ⟨?_, fun k => ?_, fun k hm => ?_⟩
  · rw [hk, List.pairwise_append]
    exact ⟨h.sorted, List.pairwise_singleton _ _, fun a ha b' hb => by
      rw [List.mem_singleton.1 hb]; exact h.lt ha⟩
  · rw [hk]
    have := h.cover k
    simp only [List.length_append, List.length_singleton, List.mem_append, List.mem_singleton]
    constructor
    · intro hlt
      rcases Nat.lt_or_eq_of_le (Nat.lt_succ_iff.1 hlt) with hlt | rfl
      · rcases this.1 hlt with hm | hm
        · exact Or.inl (Or.inl hm)
        · exact Or.inr hm
      · exact Or.inl (Or.inr rfl)
    · rintro ((hm | rfl) | hm)
      · exact Nat.lt_succ_of_lt (this.2 (Or.inl hm))
      · exact Nat.lt_succ_self _
      · exact Nat.lt_succ_of_lt (this.2 (Or.inr hm))
  · rw [hk] at hm
    rcases List.mem_append.1 hm with hm | hm
    · exact h.apart k hm
    · rw [List.mem_singleton.1 hm]; exact hlost

/-- Losing a tail of the kept numbers, and then the new one. -/
theorem Ok.overflow {b : TwoStage φ} (h : Ok b) (f : φ) :
    Ok { b with pushed := b.pushed ++ [f], back := [], lost := b.lost ++ (b.back ++ [b.pushed.length]) } := by
  have hk : kept { b with pushed := b.pushed ++ [f], back := [], lost := b.lost ++ (b.back ++ [b.pushed.length]) } =
      b.out ++ b.front := by simp [kept]
  have hsplit := List.pairwise_append.1 h.sorted
  refine ⟨?_, fun k => ?_, fun k hm => ?_⟩
  · rw [hk]; exact hsplit.1
  · rw [hk]
    have := h.cover k
    simp only [kept, List.mem_append] at this
    simp only [List.length_append, List.length_singleton, List.mem_append, List.mem_singleton]
    constructor
    · intro hlt
      rcases Nat.lt_or_eq_of_le (Nat.lt_succ_iff.1 hlt) with hlt | rfl
      · rcases this.1 hlt with (hm | hm) | hm
        · exact Or.inl hm
        · exact Or.inr (Or.inr (Or.inl hm))
        · exact Or.inr (Or.inl hm)
      · exact Or.inr (Or.inr (Or.inr rfl))
    · rintro (hm | hm | hm | rfl)
      · exact Nat.lt_succ_of_lt (this.2 (Or.inl (Or.inl hm)))
      · exact Nat.lt_succ_of_lt (this.2 (Or.inr hm))
      · exact Nat.lt_succ_of_lt (this.2 (Or.inl (Or.inr hm)))
      · exact Nat.lt_succ_self _
  · rw [hk] at hm
    have hmk : k ∈ b.kept := List.mem_append_left _ hm
    simp only [List.mem_append, List.mem_singleton, not_or]
    refine ⟨h.apart k hmk, fun hb => ?_, fun he => ?_⟩
    · exact absurd (hsplit.2.2 k hm k hb) (lt_irrefl _)
    · exact absurd (h.lt hmk) (by omega)

/-- Every step keeps the account. -/
theorem step_ok (b : TwoStage φ) (a : Act φ) (b' : TwoStage φ) (h : Ok b) (hs : step b a = some b') : Ok b' := by
  cases a with
  | push f => cases hs; exact h.push f
  | overflow f => cases hs; exact h.overflow f
  | swap =>
    simp only [step] at hs
    split at hs
    · rename_i hf
      cases hs
      have hk : kept { b with front := b.back, back := [] } = b.kept := by simp [kept, hf]
      exact ⟨hk ▸ h.sorted, by rw [hk]; exact h.cover, by rw [hk]; exact h.apart⟩
    · cases hs
  | take =>
    simp only [step] at hs
    split at hs
    · cases hs
    · rename_i k ks hf
      cases hs
      have hk : kept { b with out := b.out ++ [k], front := ks } = b.kept := by simp [kept, hf]
      exact ⟨hk ▸ h.sorted, by rw [hk]; exact h.cover, by rw [hk]; exact h.apart⟩

/-- Every run keeps the account. -/
theorem run_ok {as : List (Act φ)} {b b' : TwoStage φ} (h : Ok b) (hr : run step b as = some b') : Ok b' :=
  run_inv step_ok h hr

/-- Increasing numbers pick a subsequence. -/
theorem sublist_of_sorted (l : List φ) : ∀ (ks : List Nat), ks.Pairwise (· < ·) →
    (ks.filterMap fun k => l[k]?).Sublist l := by
  intro ks hs
  have hmap : (ks.filterMap fun k => l[k]?) =
      ((ks.filterMap fun k => if h : k < l.length then some (⟨k, h⟩ : Fin l.length) else none).map fun i => l[i]) := by
    rw [List.map_filterMap]
    refine List.filterMap_congr fun k _ => ?_
    by_cases h : k < l.length <;> simp [h]
  rw [hmap]
  refine List.map_getElem_sublist ?_
  rw [List.pairwise_filterMap]
  refine hs.imp fun {a b} hab i hi j hj => ?_
  simp only [Option.dite_none_right_eq_some, Option.some.injEq] at hi hj
  obtain ⟨_, rfl⟩ := hi
  obtain ⟨_, rfl⟩ := hj
  exact hab

end TwoStage

end ToolLib.Base
