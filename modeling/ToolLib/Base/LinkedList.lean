import Mathlib.Data.List.Nodup
import Mathlib.Logic.Function.Basic
import Mathlib.Tactic.Common

/-!
# Singly linked lists

The nodes of a list have a pointer to the next node each, `none` for `NULL`. `Leads next p l`: the pointer `p` leads through
the nodes of `l` to `NULL`.

Pointers of nodes that are not on the way do not matter (`Leads.frame`). A node is put in front (`Leads.push`), and a node
behind another one is taken out (`Leads.unlink`).
-/

namespace ToolLib.Base

variable {ν : Type*} {next next' : ν → Option ν} {p : Option ν} {l r : List ν} {e x last : ν}

/-- The nodes of `l` are on the way from `p` to `NULL`. -/
def Leads (next : ν → Option ν) : Option ν → List ν → Prop
  | p, [] => p = none
  | p, e :: l => p = some e ∧ Leads next (next e) l

theorem leads_nil : Leads next p [] ↔ p = none := Iff.rfl

namespace Leads

theorem congr (h : Leads next p l) (heq : ∀ y ∈ l, next' y = next y) : Leads next' p l := by
  induction l generalizing p with
  | nil => exact h
  | cons y l ih =>
    obtain ⟨hy, hl⟩ := List.forall_mem_cons.1 heq
    refine ⟨h.1, ih ?_ hl⟩
    rw [hy]
    exact h.2

variable [DecidableEq ν]

/-- The pointer of a node that is not on the way may be changed. -/
theorem frame {v : Option ν} (h : Leads next p l) (hx : x ∉ l) : Leads (Function.update next x v) p l := by
  refine h.congr fun y hy => Function.update_of_ne ?_ ..
  rintro rfl
  exact hx hy

/-- A node is put in front. -/
theorem push (h : Leads next p l) (hx : x ∉ l) : Leads (Function.update next x p) (some x) (x :: l) := by
  refine ⟨rfl, ?_⟩
  rw [Function.update_self]
  exact h.frame hx

/-- **A node is taken out**: the one in front of it points to the one behind it. -/
theorem unlink (h : Leads next p (l ++ last :: e :: r)) (hnodup : (l ++ last :: e :: r).Nodup) :
    Leads (Function.update next last (next e)) p (l ++ last :: r) := by
  induction l generalizing p with
  | nil =>
    obtain ⟨hp, -, hrest⟩ := h
    refine ⟨hp, ?_⟩
    rw [Function.update_self]
    exact hrest.frame fun hin => (List.nodup_cons.1 hnodup).1 (List.mem_cons_of_mem _ hin)
  | cons y l ih =>
    obtain ⟨hy, hnodup⟩ := List.nodup_cons.1 hnodup
    have hne : y ≠ last := fun heq => hy (heq ▸ List.mem_append_right _ List.mem_cons_self)
    refine ⟨h.1, ?_⟩
    rw [Function.update_of_ne hne]
    exact ih h.2 hnodup

end Leads

end ToolLib.Base
