import Mathlib.Data.List.Nodup
import Mathlib.Logic.Function.Basic
import Mathlib.Tactic.Common

/-!
# Doubly linked lists

The nodes of a list have a forward and a backward pointer each, `none` for `NULL`. `Linked fwd bwd a l b`: the way from
`a` through the nodes of `l` to `b`, each node pointing to the next one and back. With `a = b` it is a ring.

Pointers that are not on the way do not matter (`Linked.congr`, `Linked.frame`). The last node can be made to point somewhere else
(`Linked.retarget`), from which come the two changes of a ring: a node is put at the end (`Linked.insert`), and a node is
taken out (`Linked.unlink`).
-/

namespace ToolLib.Base

variable {ν : Type*} {fwd bwd fwd' bwd' : ν → Option ν} {a b c x : ν} {l r : List ν}

/-- The nodes of `l` are on the way from `a` to `b`. -/
def Linked (fwd bwd : ν → Option ν) : ν → List ν → ν → Prop
  | a, [], b => fwd a = some b ∧ bwd b = some a
  | a, x :: l, b => fwd a = some x ∧ bwd x = some a ∧ Linked fwd bwd x l b

theorem linked_cons : Linked fwd bwd a (x :: l) b ↔ fwd a = some x ∧ bwd x = some a ∧ Linked fwd bwd x l b := Iff.rfl

/-- A way through `x` is a way to `x` and a way from `x`. -/
theorem linked_append : Linked fwd bwd a (l ++ x :: r) b ↔ Linked fwd bwd a l x ∧ Linked fwd bwd x r b := by
  induction l generalizing a with
  | nil => exact and_assoc.symm
  | cons y l ih => rw [List.cons_append, linked_cons, linked_cons, ih, and_assoc, and_assoc]

namespace Linked

theorem fwd_start (h : Linked fwd bwd a l b) : fwd a = (l ++ [b]).head? := by
  cases l with
  | nil => exact h.1
  | cons x l => exact h.1

theorem bwd_end (h : Linked fwd bwd a l b) : bwd b = (a :: l).getLast? := by
  induction l generalizing a with
  | nil => exact h.2
  | cons x l ih => rw [List.getLast?_cons_cons]; exact ih h.2.2

/-- Only the pointers on the way matter. -/
theorem congr (h : Linked fwd bwd a l b) (hfwd : ∀ y ∈ a :: l, fwd' y = fwd y) (hbwd : ∀ y ∈ l ++ [b], bwd' y = bwd y) :
    Linked fwd' bwd' a l b := by
  induction l generalizing a with
  | nil => exact ⟨(hfwd a (by simp)).trans h.1, (hbwd b (by simp)).trans h.2⟩
  | cons x l ih =>
    refine ⟨(hfwd a (by simp)).trans h.1, (hbwd x (by simp)).trans h.2.1, ih h.2.2 (fun y hy => ?_) fun y hy => ?_⟩
    · exact hfwd y (List.mem_cons_of_mem _ hy)
    · exact hbwd y (List.mem_cons_of_mem _ hy)

variable [DecidableEq ν]

/-- Pointers of nodes outside of a ring may be changed. -/
theorem frame (h : Linked fwd bwd a l a) {x y : ν} {u v : Option ν} (hx : x ∉ a :: l) (hy : y ∉ a :: l) :
    Linked (Function.update fwd x u) (Function.update bwd y v) a l a := by
  refine h.congr (fun z hz => Function.update_of_ne ?_ ..) fun z hz => Function.update_of_ne ?_ ..
  · rintro rfl
    exact hx hz
  · rintro rfl
    rw [List.mem_append, List.mem_singleton] at hz
    exact hy (List.mem_cons.2 hz.symm)

/-- The way leads to `c` instead: the last node before the end is changed, and `c`. -/
theorem retarget (h : Linked fwd bwd a l b) (hnodup : (a :: l).Nodup) (hc : c ∉ l) :
    ∃ p ∈ a :: l, bwd b = some p ∧ Linked (Function.update fwd p (some c)) (Function.update bwd c (some p)) a l c := by
  induction l generalizing a with
  | nil => exact ⟨a, by simp, h.2, Function.update_self .., Function.update_self ..⟩
  | cons x l ih =>
    obtain ⟨hfresh, hnodup⟩ := List.nodup_cons.1 hnodup
    obtain ⟨hx, hc⟩ := not_or.1 (mt List.mem_cons.2 hc)
    obtain ⟨p, hp, hend, hway⟩ := ih h.2.2 hnodup hc
    have ha : a ≠ p := fun heq => hfresh (heq ▸ hp)
    refine ⟨p, List.mem_cons_of_mem _ hp, hend, ?_, ?_, hway⟩
    · rw [Function.update_of_ne ha]
      exact h.1
    · rw [Function.update_of_ne (Ne.symm hx)]
      exact h.2.1

/-- **A node is put at the end**: it points to `b` and back to the last node, which points to it, as `b` does. -/
theorem insert (h : Linked fwd bwd a l b) (hnodup : (a :: l).Nodup) (hx : x ∉ a :: l) (hb : b ∉ l) (hxb : x ≠ b) :
    ∃ p ∈ a :: l, bwd b = some p ∧
      Linked (Function.update (Function.update fwd x (some b)) p (some x))
        (Function.update (Function.update bwd x (some p)) b (some x)) a (l ++ [x]) b := by
  obtain ⟨hxa, hxl⟩ := not_or.1 (mt List.mem_cons.2 hx)
  obtain ⟨p, hp, hend, hway⟩ := h.retarget hnodup hxl
  have hpx : p ≠ x := fun heq => hx (heq ▸ hp)
  refine ⟨p, hp, hend, linked_append.2 ⟨hway.congr (fun y hy => ?_) fun y hy => ?_, ?_, Function.update_self ..⟩⟩
  · have hyx : y ≠ x := fun heq => hx (heq ▸ hy)
    by_cases hyp : y = p
    · rw [hyp, Function.update_self, Function.update_self]
    · rw [Function.update_of_ne hyp, Function.update_of_ne hyp, Function.update_of_ne hyx]
  · have hyb : y ≠ b := by
      rcases List.mem_append.1 hy with hy | hy
      · exact fun heq => hb (heq ▸ hy)
      · exact fun heq => hxb ((List.mem_singleton.1 hy).symm.trans heq)
    rw [Function.update_of_ne hyb]
  · rw [Function.update_of_ne hpx.symm, Function.update_self]

/-- **A node is taken out**: its neighbours point to each other. Its own pointers stay. -/
theorem unlink (h : Linked fwd bwd a (l ++ x :: r) b) (hnodup : (a :: (l ++ x :: r)).Nodup) (hb : b ∉ l ++ x :: r) :
    ∃ p ∈ a :: l, ∃ n ∈ r ++ [b], bwd x = some p ∧ fwd x = some n ∧
      Linked (Function.update fwd p (some n)) (Function.update bwd n (some p)) a (l ++ r) b := by
  obtain ⟨hto, hfrom⟩ := linked_append.1 h
  have hparts : ((a :: l) ++ x :: r).Nodup := hnodup
  obtain ⟨hleft, hright, hapart⟩ := List.nodup_append'.1 hparts
  cases r with
  | nil =>
    obtain ⟨p, hp, hend, hway⟩ := hto.retarget hleft (c := b) fun hbl => hb (List.mem_append_left _ hbl)
    refine ⟨p, hp, b, by simp, hend, hfrom.1, ?_⟩
    rw [List.append_nil]
    exact hway
  | cons y r =>
    have hyl : y ∉ l := fun hyl => hapart (List.mem_cons_of_mem _ hyl) (by simp)
    obtain ⟨p, hp, hend, hway⟩ := hto.retarget hleft hyl
    refine ⟨p, hp, y, by simp, hend, hfrom.1, linked_append.2 ⟨hway, hfrom.2.2.congr (fun z hz => ?_) fun z hz => ?_⟩⟩
    · have hzp : z ≠ p := fun heq => hapart hp (heq ▸ List.mem_cons_of_mem _ hz)
      rw [Function.update_of_ne hzp]
    · have hzy : z ≠ y := by
        rcases List.mem_append.1 hz with hz | hz
        · exact fun heq => (List.nodup_cons.1 (List.nodup_cons.1 hright).2).1 (heq ▸ hz)
        · rintro rfl
          exact hb (by rw [← List.mem_singleton.1 hz]; simp)
      rw [Function.update_of_ne hzy]

end Linked

end ToolLib.Base
