import Mathlib.Data.List.Nodup
import Mathlib.Logic.Function.Basic

/-!
# Entries in chains

A table with chaining is a function `t` from positions to lists of entries. `Placed t p` says what it holds, by a partial
function `p` from entries to positions: an entry is in one chain, that of its position, and there once, or in none.

- an entry that is not in the table is put in (`Placed.push`);
- an entry is taken out of its chain; when it is in no chain this changes nothing (`Placed.erase`);
- a search finds the entry that is alone in what is searched for (`find?_eq_some_of_unique`);
- keys stay different when the record of one entry changes and its key is new (`distinct_update`).
-/

namespace ToolLib.Base

variable {ι κ : Type*} {t : ι → List κ} {p : κ → Option ι} {i : ι} {c : κ}

/-- The table holds the entries to which `p` gives a position, each once. -/
structure Placed (t : ι → List κ) (p : κ → Option ι) : Prop where
  mem_iff : ∀ i c, c ∈ t i ↔ p c = some i
  nodup : ∀ i, (t i).Nodup

theorem placed_empty : Placed (fun _ : ι => ([] : List κ)) fun _ => none :=
  ⟨fun _ c => by simp, fun _ => List.nodup_nil⟩

theorem Placed.push [DecidableEq ι] [DecidableEq κ] (P : Placed t p) (hc : p c = none) :
    Placed (Function.update t i (c :: t i)) (Function.update p c (some i)) := by
  have hnew : ∀ j, c ∉ t j := by
    intro j hj
    rw [P.mem_iff, hc] at hj
    cases hj
  constructor
  · intro j d
    rcases eq_or_ne d c with rfl | hd
    · rw [Function.update_self, Option.some.injEq]
      rcases eq_or_ne j i with rfl | hj
      · simp
      · rw [Function.update_of_ne hj]
        exact iff_of_false (hnew j) (Ne.symm hj)
    · rw [Function.update_of_ne hd, ← P.mem_iff]
      rcases eq_or_ne j i with rfl | hj
      · simp [hd]
      · rw [Function.update_of_ne hj]
  · intro j
    rcases eq_or_ne j i with rfl | hj
    · rw [Function.update_self]
      exact List.nodup_cons.2 ⟨hnew j, P.nodup j⟩
    · rw [Function.update_of_ne hj]
      exact P.nodup j

theorem Placed.erase [DecidableEq ι] [DecidableEq κ] (P : Placed t p) (hc : ∀ j, p c = some j → j = i) :
    Placed (Function.update t i ((t i).erase c)) (Function.update p c none) := by
  constructor
  · intro j d
    rcases eq_or_ne d c with rfl | hd
    · rw [Function.update_self]
      refine iff_of_false ?_ (by simp)
      rcases eq_or_ne j i with rfl | hj
      · rw [Function.update_self]
        exact (P.nodup j).not_mem_erase
      · rw [Function.update_of_ne hj, P.mem_iff]
        exact fun h => hj (hc j h)
    · rw [Function.update_of_ne hd, ← P.mem_iff]
      rcases eq_or_ne j i with rfl | hj
      · rw [Function.update_self]
        exact List.mem_erase_of_ne hd
      · rw [Function.update_of_ne hj]
  · intro j
    rcases eq_or_ne j i with rfl | hj
    · rw [Function.update_self]
      exact (P.nodup j).erase c
    · rw [Function.update_of_ne hj]
      exact P.nodup j

/-- What is searched for is there, and nothing else is like it. -/
theorem find?_eq_some_of_unique {l : List κ} {q : κ → Bool} (hc : c ∈ l) (hq : q c = true)
    (hu : ∀ d ∈ l, q d = true → d = c) : l.find? q = some c := by
  cases h : l.find? q with
  | none => exact absurd hq (List.find?_eq_none.1 h c hc)
  | some d => rw [hu d (List.mem_of_find?_eq_some h) (List.find?_some h)]

/-- The records that satisfy `Q` have different keys, also after one has changed to `x`. -/
theorem distinct_update [DecidableEq κ] {ρ β : Type*} {Q : ρ → Prop} {key : ρ → β} {r : κ → ρ} {x : ρ}
    (h : ∀ d e, Q (r d) → Q (r e) → key (r d) = key (r e) → d = e)
    (hx : Q x → ∀ d, d ≠ c → Q (r d) → key (r d) ≠ key x) (d e : κ) (hd : Q (Function.update r c x d))
    (he : Q (Function.update r c x e)) (hkey : key (Function.update r c x d) = key (Function.update r c x e)) : d = e := by
  rcases eq_or_ne d c with rfl | hdc <;> rcases eq_or_ne e d with rfl | hed
  · rfl
  · rw [Function.update_self] at hd hkey
    rw [Function.update_of_ne hed] at he hkey
    exact absurd hkey.symm (hx hd e hed he)
  · rfl
  · rw [Function.update_of_ne hdc] at hd hkey
    rcases eq_or_ne e c with rfl | hec
    · rw [Function.update_self] at he hkey
      exact absurd hkey (hx he d hdc hd)
    · rw [Function.update_of_ne hec] at he hkey
      exact h d e hd he hkey

end ToolLib.Base
