import Mathlib.Data.Finset.Basic
import Mathlib.Data.List.Count
import Mathlib.Logic.Function.Basic
import Mathlib.Tactic.Common

/-!
# Keys with reference counts

The users of a resource each hold some keys, one key perhaps several times. `Tallied cnt ks` says that the counters `cnt` are
the numbers of times that the keys are in the list `ks` of all that are held; a key that is taken or given back changes one
counter (`Tallied.take`, `Tallied.give`). `Refs` are counters with the set of the keys in use, which is changed where a
counter leaves or reaches 0: `Counts` is kept in the same way, so that the set has the keys that somebody holds.
-/

namespace ToolLib.Base

variable {κ : Type*} [DecidableEq κ] {cnt : κ → Int} {k : κ} {ks ls : List κ}

/-- The counters say how often each key is held. -/
def Tallied (cnt : κ → Int) (ks : List κ) : Prop := ∀ k, cnt k = ks.count k

/-- One more. -/
def raise (cnt : κ → Int) (k : κ) : κ → Int := Function.update cnt k (cnt k + 1)

/-- One less. -/
def lower (cnt : κ → Int) (k : κ) : κ → Int := Function.update cnt k (cnt k - 1)

namespace Tallied

theorem nil : Tallied (fun _ : κ => 0) [] := fun _ => rfl

theorem perm (h : Tallied cnt ks) (hp : ks.Perm ls) : Tallied cnt ls := fun k => by rw [h k, hp.count_eq]

/-- A key is held when its counter is not 0. -/
theorem ne_zero (h : Tallied cnt ks) : cnt k ≠ 0 ↔ k ∈ ks := by
  rw [h k, ← List.count_pos_iff]
  omega

theorem raise (h : Tallied cnt ks) (k : κ) : Tallied (raise cnt k) (k :: ks) := by
  intro j
  rw [Base.raise, Function.update_apply]
  split
  · subst j
    rw [h k, List.count_cons_self]
    rfl
  · rw [h j, List.count_cons_of_ne (Ne.symm ‹_›)]

theorem lower (h : Tallied cnt (k :: ks)) : Tallied (lower cnt k) ks := by
  intro j
  rw [Base.lower, Function.update_apply]
  split
  · subst j
    rw [h k, List.count_cons_self]
    omega
  · rw [h j, List.count_cons_of_ne (Ne.symm ‹_›)]

/-- The keys of a list are taken, one after another. -/
theorem foldl_raise (h : Tallied cnt ks) : Tallied (ls.foldl Base.raise cnt) (ls ++ ks) := by
  induction ls generalizing cnt ks with
  | nil => exact h
  | cons k ls ih => exact (ih (h.raise k)).perm List.perm_middle

/-- The keys of a list are given back. -/
theorem foldl_lower (h : Tallied cnt (ls ++ ks)) : Tallied (ls.foldl Base.lower cnt) ks := by
  induction ls generalizing cnt with
  | nil => exact h
  | cons k ls ih => exact ih h.lower

end Tallied

/-! ## The set of the keys in use -/

/-- Counters, and a set of keys. -/
structure Refs (κ : Type*) where
  cnt : κ → Int
  set : Finset κ

namespace Refs

variable {r : Refs κ}

def empty : Refs κ := ⟨fun _ => 0, ∅⟩

def take (r : Refs κ) (k : κ) : Refs κ := ⟨raise r.cnt k, insert k r.set⟩

/-- A key is taken out of the set when its counter reaches 0. -/
def give (r : Refs κ) (k : κ) : Refs κ := ⟨lower r.cnt k, if r.cnt k - 1 = 0 then r.set.erase k else r.set⟩

/-- The counters say how often each key is held, and the set has the keys that are held. -/
structure Counts (r : Refs κ) (ks : List κ) : Prop where
  tallied : Tallied r.cnt ks
  mem : ∀ k, k ∈ r.set ↔ k ∈ ks

theorem counts_empty : Counts (empty : Refs κ) [] := ⟨Tallied.nil, fun k => by simp [empty]⟩

namespace Counts

theorem perm (h : Counts r ks) (hp : ks.Perm ls) : Counts r ls :=
  ⟨h.tallied.perm hp, fun k => (h.mem k).trans hp.mem_iff⟩

theorem take (h : Counts r ks) (k : κ) : Counts (r.take k) (k :: ks) := by
  refine ⟨h.tallied.raise k, fun j => ?_⟩
  rw [Refs.take, Finset.mem_insert, List.mem_cons, h.mem j]

theorem give (h : Counts r (k :: ks)) : Counts (r.give k) ks := by
  have hcnt := h.tallied k
  rw [List.count_cons_self] at hcnt
  refine ⟨h.tallied.lower, fun j => ?_⟩
  have hj := h.mem j
  rw [List.mem_cons] at hj
  rw [Refs.give]
  dsimp only
  split
  · -- the last one
    have hno : k ∉ ks := fun hin => by
      have hpos := List.count_pos_iff.2 hin
      omega
    rw [Finset.mem_erase, hj]
    constructor
    · rintro ⟨hne, rfl | hin⟩
      · exact absurd rfl hne
      · exact hin
    · intro hin
      exact ⟨fun heq => hno (heq ▸ hin), Or.inr hin⟩
  · have hin : k ∈ ks := List.count_pos_iff.1 (by omega)
    rw [hj]
    constructor
    · rintro (rfl | hj)
      · exact hin
      · exact hj
    · exact Or.inr

theorem foldl_take (h : Counts r ks) : Counts (ls.foldl Refs.take r) (ls ++ ks) := by
  induction ls generalizing r ks with
  | nil => exact h
  | cons k ls ih => exact (ih (h.take k)).perm List.perm_middle

theorem foldl_give (h : Counts r (ls ++ ks)) : Counts (ls.foldl Refs.give r) ks := by
  induction ls generalizing r with
  | nil => exact h
  | cons k ls ih => exact ih h.give

end Counts

end Refs

end ToolLib.Base
