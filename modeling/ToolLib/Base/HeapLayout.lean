import ToolLib.Base.TreeLinks
import Mathlib.Order.Basic
import Mathlib.Data.List.Perm.Basic
import Mathlib.Data.List.Range
import Mathlib.Data.Nat.Log
import Mathlib.Tactic.Ring

/-!
# Binary heaps as trees

The places of a binary tree are numbered as in an array: the root is 1, the children of `i` are `2 * i` and `2 * i + 1`.
`Under i j` says that the place `j` is in the tree below `i`, which is so when the binary digits of `j` begin with those
of `i`: what a walk to a place turns on (`under_turn`).

`Laid idx P i t` says that a tree at the place `i` has its nodes at the places in `P`, each node with its place in `idx`, and
`Ordered key t` that no node is before its parent. Both are known for a tree with a hole from the part around the hole and
the part in it (`laid_plug`, `ordered_plug`), so that the hole may be filled anew; the part around the hole does not depend
on whether the place of the hole is in `P` (`LaidAround.congr`).
-/

namespace ToolLib.Base

/-! ## Places -/

/-- The place `j` is below the place `i`, or is `i`. -/
def Under (i j : Nat) : Prop := ∃ k, j / 2 ^ k = i

theorem under_refl (i : Nat) : Under i i := ⟨0, by rw [Nat.pow_zero, Nat.div_one]⟩

/-- The place of a child: the right one for `true`. -/
def childPlace (i : Nat) (b : Bool) : Nat := 2 * i + b.toNat

theorem childPlace_false (i : Nat) : childPlace i false = 2 * i := rfl
theorem childPlace_true (i : Nat) : childPlace i true = 2 * i + 1 := rfl

theorem childPlace_div (i : Nat) (b : Bool) : childPlace i b / 2 = i := by
  cases b <;> simp only [childPlace, Bool.toNat_false, Bool.toNat_true] <;> omega

theorem Under.of_child {i j : Nat} {b : Bool} (h : Under (childPlace i b) j) : Under i j := by
  obtain ⟨k, hk⟩ := h
  refine ⟨k + 1, ?_⟩
  rw [Nat.pow_succ, ← Nat.div_div_eq_div_mul, hk, childPlace_div]

theorem Under.le {i j : Nat} (h : Under i j) : i ≤ j := by
  obtain ⟨k, rfl⟩ := h
  exact Nat.div_le_self ..

theorem Under.child_lt {i j : Nat} {b : Bool} (hi : 0 < i) (h : Under (childPlace i b) j) : i < j := by
  have hle := h.le
  simp only [childPlace] at hle
  omega

/-- What is below one child is not below the other. -/
theorem Under.not_other {i j : Nat} {b : Bool} (hi : 0 < i) (h : Under (childPlace i b) j) : ¬ Under (childPlace i !b) j := by
  rintro ⟨m, hm⟩
  obtain ⟨k, hk⟩ := h
  -- the two shifts of `j` would have to be by different numbers of digits, and the longer one gives at most `i`
  have hlt : ∀ {k m : Nat} {b c : Bool}, j / 2 ^ k = childPlace i b → j / 2 ^ m = childPlace i c → ¬ k < m := by
    intro k m b c hk hm hkm
    obtain ⟨d, rfl⟩ : ∃ d, m = k + 1 + d := ⟨m - k - 1, by omega⟩
    rw [Nat.pow_add, Nat.pow_succ, ← Nat.div_div_eq_div_mul, ← Nat.div_div_eq_div_mul, hk, childPlace_div] at hm
    have hle := Nat.div_le_self i (2 ^ d)
    simp only [hm, childPlace] at hle
    omega
  have hkm : k = m := by
    have h₁ := hlt hk hm
    have h₂ := hlt hm hk
    omega
  subst hkm
  rw [hk] at hm
  cases b <;> simp [childPlace] at hm

/-- The walk to a place: the next digit says which child it is below. -/
theorem under_turn {i j k : Nat} (h : j / 2 ^ (k + 1) = i) : j / 2 ^ k = childPlace i (j.testBit k) := by
  rw [Nat.pow_succ, ← Nat.div_div_eq_div_mul] at h
  rw [childPlace, Nat.toNat_testBit]
  omega

theorem under_next {i j k : Nat} (h : j / 2 ^ (k + 1) = i) : Under (childPlace i (j.testBit k)) j := ⟨k, under_turn h⟩

/-! ## Where the nodes are -/

variable {ν : Type*} {idx idx' : ν → Nat} {P P' : Nat → Prop} {i j : Nat} {b : Bool} {x y : ν} {t l r : BinaryTree ν}
  {f : Frame ν} {fs : List (Frame ν)}

/-- The tree at the place `i` has its nodes at the places in `P`. -/
def Laid (idx : ν → Nat) (P : Nat → Prop) : Nat → BinaryTree ν → Prop
  | i, .nil => ¬ P i
  | i, .node x l r => idx x = i ∧ P i ∧ Laid idx P (childPlace i false) l ∧ Laid idx P (childPlace i true) r

@[simp] theorem laid_nil : Laid idx P i .nil ↔ ¬ P i := Iff.rfl

theorem laid_node : Laid idx P i (.node x l r) ↔
    idx x = i ∧ P i ∧ Laid idx P (childPlace i false) l ∧ Laid idx P (childPlace i true) r := Iff.rfl

theorem Laid.congr_idx (h : Laid idx P i t) (heq : ∀ x ∈ nodes t, idx' x = idx x) : Laid idx' P i t := by
  induction t generalizing i with
  | nil => exact h
  | node x l r ihl ihr =>
    obtain ⟨hx, hP, hl, hr⟩ := h
    obtain ⟨heqx, heq⟩ := List.forall_mem_cons.1 heq
    refine ⟨heqx.trans hx, hP, ?_, ?_⟩
    · exact ihl hl fun y hy => heq y (List.mem_append_left _ hy)
    · exact ihr hr fun y hy => heq y (List.mem_append_right _ hy)

theorem Laid.congr (h : Laid idx P i t) (hP : ∀ j, Under i j → (P' j ↔ P j)) : Laid idx P' i t := by
  induction t generalizing i with
  | nil => exact fun hi => h ((hP i (under_refl i)).1 hi)
  | node x l r ihl ihr =>
    obtain ⟨hx, hPi, hl, hr⟩ := h
    refine ⟨hx, (hP i (under_refl i)).2 hPi, ?_, ?_⟩
    · exact ihl hl fun j hj => hP j hj.of_child
    · exact ihr hr fun j hj => hP j hj.of_child

/-- A tree at a place in `P` has a root. -/
theorem Laid.node (h : Laid idx P i t) (hP : P i) : ∃ x l r, t = .node x l r ∧ idx x = i := by
  cases t with
  | nil => exact absurd hP h
  | node x l r => exact ⟨x, l, r, rfl, h.1⟩

theorem Laid.eq_nil (h : Laid idx P i t) (hP : ¬ P i) : t = .nil := by
  cases t with
  | nil => rfl
  | node x l r => exact absurd h.2.1 hP

/-- Every node is below the place of the tree, at a place in `P`. -/
theorem Laid.under (h : Laid idx P i t) (hx : x ∈ nodes t) : Under i (idx x) ∧ P (idx x) := by
  induction t generalizing i with
  | nil => cases hx
  | node y l r ihl ihr =>
    obtain ⟨hy, hP, hl, hr⟩ := h
    rcases List.mem_cons.1 hx with rfl | hx
    · rw [hy]
      exact ⟨under_refl i, hP⟩
    · rcases List.mem_append.1 hx with hx | hx
      · exact ⟨(ihl hl hx).1.of_child, (ihl hl hx).2⟩
      · exact ⟨(ihr hr hx).1.of_child, (ihr hr hx).2⟩

/-- The node that has the place of the tree is its root. -/
theorem Laid.root_eq (hi : 0 < i) (h : Laid idx P i (.node y l r)) (hx : x ∈ nodes (.node y l r)) (hxi : idx x = i) : x = y := by
  obtain ⟨-, -, hl, hr⟩ := h
  rcases List.mem_cons.1 hx with rfl | hx
  · rfl
  · rcases List.mem_append.1 hx with hx | hx
    · exact absurd hxi ((hl.under hx).1.child_lt hi).ne'
    · exact absurd hxi ((hr.under hx).1.child_lt hi).ne'

/-- The child of a node. -/
def child (l r : BinaryTree ν) : Bool → BinaryTree ν
  | false => l
  | true => r

@[simp] theorem child_false (l r : BinaryTree ν) : child l r false = l := rfl
@[simp] theorem child_true (l r : BinaryTree ν) : child l r true = r := rfl

theorem Laid.child (h : Laid idx P i (.node x l r)) (b : Bool) : Laid idx P (childPlace i b) (child l r b) := by
  cases b with
  | false => exact h.2.2.1
  | true => exact h.2.2.2

/-- **The walk to a node's place keeps the node below it.** -/
theorem Laid.mem_child {k : Nat} (hi : 0 < i) (h : Laid idx P i (.node y l r)) (hx : x ∈ nodes (.node y l r))
    (hk : idx x / 2 ^ (k + 1) = i) : x ∈ nodes (Base.child l r ((idx x).testBit k)) := by
  have hnext := under_next hk
  obtain ⟨hy, -, hl, hr⟩ := h
  rcases List.mem_cons.1 hx with rfl | hx
  · exact absurd hy (hnext.child_lt hi).ne'
  · rcases List.mem_append.1 hx with hx | hx
    · cases hb : (idx x).testBit k with
      | false => exact hx
      | true =>
        rw [hb] at hnext
        exact absurd (hl.under hx).1 (hnext.not_other hi)
    · cases hb : (idx x).testBit k with
      | true => exact hx
      | false =>
        rw [hb] at hnext
        exact absurd (hr.under hx).1 (hnext.not_other hi)

/-- **Two nodes have two places.** -/
theorem Laid.injective (hi : 0 < i) (h : Laid idx P i t) (hx : x ∈ nodes t) (hy : y ∈ nodes t) (heq : idx x = idx y) :
    x = y := by
  induction t generalizing i with
  | nil => cases hx
  | node z l r ihl ihr =>
    have hpos : ∀ b, 0 < childPlace i b := fun b => by
      rw [childPlace]
      omega
    obtain ⟨hz, -, hl, hr⟩ := h
    have hroot : ∀ {w}, w ∈ nodes l ++ nodes r → idx w ≠ i := by
      intro w hw
      rcases List.mem_append.1 hw with hw | hw
      · exact ((hl.under hw).1.child_lt hi).ne'
      · exact ((hr.under hw).1.child_lt hi).ne'
    rcases List.mem_cons.1 hx with rfl | hxc
    · rcases List.mem_cons.1 hy with rfl | hyc
      · rfl
      · exact absurd (heq.symm.trans hz) (hroot hyc)
    · rcases List.mem_cons.1 hy with rfl | hyc
      · exact absurd (heq.trans hz) (hroot hxc)
      · rcases List.mem_append.1 hxc with hx | hx <;> rcases List.mem_append.1 hyc with hy | hy
        · exact ihl (hpos _) hl hx hy
        · exact absurd (heq ▸ (hl.under hx).1) ((hr.under hy).1.not_other hi)
        · exact absurd (heq ▸ (hr.under hx).1) ((hl.under hy).1.not_other hi)
        · exact ihr (hpos _) hr hx hy

/-- **Every place up to `n` has a node.** -/
theorem Laid.exists_at {n : Nat} (hi : 0 < i) (h : Laid idx (· ≤ n) i t) (hj : Under i j) (hn : j ≤ n) :
    ∃ x ∈ nodes t, idx x = j := by
  induction t generalizing i with
  | nil => exact absurd (hj.le.trans hn) h
  | node z l r ihl ihr =>
    have hpos : ∀ b, 0 < childPlace i b := fun b => by
      rw [childPlace]
      omega
    obtain ⟨hz, -, hl, hr⟩ := h
    obtain ⟨k, hk⟩ := hj
    cases k with
    | zero =>
      rw [Nat.pow_zero, Nat.div_one] at hk
      exact ⟨z, List.mem_cons_self, hz.trans hk.symm⟩
    | succ k =>
      have hnext := under_next hk
      cases hb : j.testBit k with
      | false =>
        obtain ⟨x, hx, hxj⟩ := ihl (hpos _) hl (hb ▸ hnext)
        exact ⟨x, List.mem_cons_of_mem _ (List.mem_append_left _ hx), hxj⟩
      | true =>
        obtain ⟨x, hx, hxj⟩ := ihr (hpos _) hr (hb ▸ hnext)
        exact ⟨x, List.mem_cons_of_mem _ (List.mem_append_right _ hx), hxj⟩

theorem under_one (hj : 0 < j) : Under 1 j := by
  refine ⟨Nat.log 2 j, ?_⟩
  rw [Nat.div_eq_iff (Nat.two_pow_pos _)]
  have hle := Nat.pow_log_le_self 2 hj.ne'
  have hlt := Nat.lt_pow_succ_log_self Nat.one_lt_two j
  rw [Nat.pow_succ] at hlt
  omega

/-- The places of the nodes are the numbers from 1 to `n`. -/
theorem Laid.places {n : Nat} (h : Laid idx (· ≤ n) 1 t) (hnodup : (nodes t).Nodup) :
    ((nodes t).map idx).Perm (List.range' 1 n) := by
  refine (List.perm_ext_iff_of_nodup (List.Nodup.map_on ?_ hnodup) List.nodup_range').2 fun j => ?_
  · exact fun x hx y hy => h.injective Nat.one_pos hx hy
  · rw [List.mem_map, List.mem_range'_1]
    refine ⟨?_, fun ⟨h₁, hn⟩ => h.exists_at Nat.one_pos (under_one h₁) (by omega)⟩
    rintro ⟨x, hx, rfl⟩
    have hx' := h.under hx
    have hle := hx'.1.le
    omega

theorem Laid.length {n : Nat} (h : Laid idx (· ≤ n) 1 t) (hnodup : (nodes t).Nodup) : (nodes t).length = n := by
  rw [← List.length_map (f := idx), (h.places hnodup).length_eq, List.length_range']

/-- The place of the hole. -/
def place : List (Frame ν) → Nat
  | [] => 1
  | f :: fs => childPlace (place fs) f.right

@[simp] theorem place_nil : place ([] : List (Frame ν)) = 1 := rfl
@[simp] theorem place_cons : place (f :: fs) = childPlace (place fs) f.right := rfl

theorem place_pos (fs : List (Frame ν)) : 0 < place fs := by
  induction fs with
  | nil => exact Nat.one_pos
  | cons f fs ih =>
    rw [place_cons, childPlace]
    omega

/-- The nodes around the hole are at the places in `P`. -/
def LaidAround (idx : ν → Nat) (P : Nat → Prop) : List (Frame ν) → Prop
  | [] => True
  | f :: fs => idx f.node = place fs ∧ P (place fs) ∧ Laid idx P (childPlace (place fs) !f.right) f.sib ∧ LaidAround idx P fs

theorem laid_attach : Laid idx P i (f.attach t) ↔ idx f.node = i ∧ P i ∧ Laid idx P (childPlace i !f.right) f.sib ∧
    Laid idx P (childPlace i f.right) t := by
  rw [Frame.attach]
  cases hr : f.right with
  | true => exact Iff.rfl
  | false =>
    refine ⟨?_, ?_⟩
    · rintro ⟨hx, hP, hl, hr⟩
      exact ⟨hx, hP, hr, hl⟩
    · rintro ⟨hx, hP, hl, hr⟩
      exact ⟨hx, hP, hr, hl⟩

theorem laid_plug : Laid idx P 1 (plug fs t) ↔ LaidAround idx P fs ∧ Laid idx P (place fs) t := by
  induction fs generalizing t with
  | nil => exact ⟨fun h => ⟨trivial, h⟩, fun h => h.2⟩
  | cons f fs ih =>
    rw [plug_cons, ih, laid_attach, place_cons, LaidAround]
    tauto

theorem LaidAround.congr_idx (h : LaidAround idx P fs) (heq : ∀ x ∈ around fs, idx' x = idx x) : LaidAround idx' P fs := by
  induction fs with
  | nil => exact h
  | cons f fs ih =>
    obtain ⟨hf, hP, hsib, hfs⟩ := h
    obtain ⟨heqf, heq⟩ := List.forall_mem_cons.1 heq
    refine ⟨heqf.trans hf, hP, ?_, ?_⟩
    · exact hsib.congr_idx fun y hy => heq y (List.mem_append_left _ hy)
    · exact ih hfs fun y hy => heq y (List.mem_append_right _ hy)

/-- **A place below the hole does not count around it.** -/
theorem LaidAround.congr (h : LaidAround idx P fs) (hj : Under (place fs) j) (hP : ∀ k, k ≠ j → (P' k ↔ P k)) :
    LaidAround idx P' fs := by
  induction fs with
  | nil => exact h
  | cons f fs ih =>
    obtain ⟨hf, hPf, hsib, hfs⟩ := h
    rw [place_cons] at hj
    refine ⟨hf, (hP _ (hj.child_lt (place_pos fs)).ne).2 hPf, hsib.congr fun k hk => hP k ?_, ih hfs hj.of_child⟩
    rintro rfl
    exact hj.not_other (place_pos fs) hk

/-! ## The order of the keys -/

section Order

variable {κ : Type*} [LinearOrder κ] {key key' : ν → κ} {k : κ}

/-- No node is before its parent. -/
def Ordered (key : ν → κ) : BinaryTree ν → Prop
  | .nil => True
  | .node x l r => (∀ y ∈ nodes l ++ nodes r, key x ≤ key y) ∧ Ordered key l ∧ Ordered key r

@[simp] theorem ordered_nil : Ordered key (.nil : BinaryTree ν) := trivial

theorem ordered_node : Ordered key (.node x l r) ↔
    (∀ y ∈ nodes l ++ nodes r, key x ≤ key y) ∧ Ordered key l ∧ Ordered key r := Iff.rfl

/-- The root is first. -/
theorem Ordered.root_le (h : Ordered key (.node x l r)) (hy : y ∈ nodes (.node x l r)) : key x ≤ key y := by
  rcases List.mem_cons.1 hy with rfl | hy
  · exact le_rfl
  · exact h.1 y hy

theorem Ordered.child (h : Ordered key (.node x l r)) (b : Bool) : Ordered key (Base.child l r b) := by
  cases b with
  | false => exact h.2.1
  | true => exact h.2.2

theorem Ordered.congr (h : Ordered key t) (heq : ∀ x ∈ nodes t, key' x = key x) : Ordered key' t := by
  induction t with
  | nil => exact h
  | node x l r ihl ihr =>
    obtain ⟨hx, hl, hr⟩ := h
    obtain ⟨heqx, heq⟩ := List.forall_mem_cons.1 heq
    refine ⟨fun y hy => ?_, ?_, ?_⟩
    · rw [heqx, heq y hy]
      exact hx y hy
    · exact ihl hl fun y hy => heq y (List.mem_append_left _ hy)
    · exact ihr hr fun y hy => heq y (List.mem_append_right _ hy)

/-- The nodes above the hole. -/
def above (fs : List (Frame ν)) : List ν := fs.map Frame.node

@[simp] theorem above_nil : above ([] : List (Frame ν)) = [] := rfl
@[simp] theorem above_cons : above (f :: fs) = f.node :: above fs := rfl

theorem mem_around {a : ν} (h : a ∈ above fs) : a ∈ around fs := by
  induction fs with
  | nil => cases h
  | cons f fs ih =>
    rcases List.mem_cons.1 h with rfl | h
    · exact List.mem_cons_self
    · exact List.mem_cons_of_mem _ (List.mem_append_right _ (ih h))

/-- Around the hole, no node is before its parent. -/
def OrderedAround (key : ν → κ) : List (Frame ν) → Prop
  | [] => True
  | f :: fs => (∀ y ∈ nodes f.sib, key f.node ≤ key y) ∧ Ordered key f.sib ∧ (∀ a ∈ above fs, key a ≤ key f.node) ∧
      OrderedAround key fs

theorem ordered_attach : Ordered key (f.attach t) ↔
    (∀ y ∈ nodes f.sib ++ nodes t, key f.node ≤ key y) ∧ Ordered key f.sib ∧ Ordered key t := by
  rw [Frame.attach]
  cases hr : f.right with
  | true => exact Iff.rfl
  | false =>
    simp only [Bool.false_eq_true, if_false, ordered_node, List.mem_append]
    refine ⟨?_, ?_⟩
    · rintro ⟨hx, hl, hr⟩
      exact ⟨fun y hy => hx y hy.symm, hr, hl⟩
    · rintro ⟨hx, hl, hr⟩
      exact ⟨fun y hy => hx y hy.symm, hr, hl⟩

/-- **The order of the whole tree**, from the part around the hole and the part in it. -/
theorem ordered_plug : Ordered key (plug fs t) ↔
    OrderedAround key fs ∧ (∀ a ∈ above fs, ∀ y ∈ nodes t, key a ≤ key y) ∧ Ordered key t := by
  induction fs generalizing t with
  | nil => exact ⟨fun h => ⟨trivial, nofun, h⟩, fun h => h.2.2⟩
  | cons f fs ih =>
    rw [plug_cons, ih, ordered_attach, OrderedAround]
    have hmem : ∀ y, y ∈ nodes (f.attach t) ↔ y = f.node ∨ y ∈ nodes f.sib ∨ y ∈ nodes t := by
      intro y
      rw [(nodes_attach f t).mem_iff, List.mem_cons, List.mem_append]
    refine ⟨?_, ?_⟩
    · rintro ⟨hfs, ha, hf, hsib, ht⟩
      refine ⟨⟨fun y hy => hf y (List.mem_append_left _ hy), hsib, fun a hin => ha a hin _ ((hmem _).2 (.inl rfl)), hfs⟩,
        fun a hin y hy => ?_, ht⟩
      rcases List.mem_cons.1 hin with rfl | hin
      · exact hf y (List.mem_append_right _ hy)
      · exact ha a hin y ((hmem y).2 (.inr (.inr hy)))
    · rintro ⟨⟨hf, hsib, ha, hfs⟩, hin, ht⟩
      have hft : ∀ y ∈ nodes t, key f.node ≤ key y := fun y hy => hin f.node List.mem_cons_self y hy
      refine ⟨hfs, fun a haa y hy => ?_, fun y hy => ?_, hsib, ht⟩
      · rcases (hmem y).1 hy with rfl | hy | hy
        · exact ha a haa
        · exact (ha a haa).trans (hf y hy)
        · exact (ha a haa).trans (hft y hy)
      · exact (List.mem_append.1 hy).elim (hf y) (hft y)

theorem OrderedAround.congr (h : OrderedAround key fs) (heq : ∀ x ∈ around fs, key' x = key x) : OrderedAround key' fs := by
  induction fs with
  | nil => exact h
  | cons f fs ih =>
    obtain ⟨hf, hsib, ha, hfs⟩ := h
    obtain ⟨heqf, heq⟩ := List.forall_mem_cons.1 heq
    have hsibs : ∀ y ∈ nodes f.sib, key' y = key y := fun y hy => heq y (List.mem_append_left _ hy)
    refine ⟨fun y hy => ?_, hsib.congr hsibs, fun a haa => ?_, ih hfs fun y hy => heq y (List.mem_append_right _ hy)⟩
    · rw [heqf, hsibs y hy]
      exact hf y hy
    · rw [heqf, heq a (List.mem_append_right _ (mem_around haa))]
      exact ha a haa

end Order

end ToolLib.Base
