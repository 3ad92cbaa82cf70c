import Mathlib.Data.Tree.Basic
import Mathlib.Data.List.Nodup
import Mathlib.Logic.Function.Basic
import Mathlib.Tactic.Common

/-!
# Binary trees of linked nodes

Nodes have two pointers each, `left` and `right`, and one pointer `root` leads to the whole tree. `Held m p t`: the pointer
`p` leads to the nodes of `t`, in the shape of `t`. A pointer is named by the place it is stored in, its *slot*, so that
code that walks down with a pointer to a pointer can be followed.

A walk from the root has passed some nodes and left a subtree at each of them: the list of these *frames*, the last one
first, is the tree with a hole at the slot `hole fs`. `Way m fs` says that the memory holds it, whatever stands in the hole
(`Way.congr`), and `Way.held` that a tree in the hole makes the whole.
-/

namespace ToolLib.Base

variable {ν : Type*}

/-- The pointers: `none` is `NULL`. -/
structure TreeLinks (ν : Type*) where
  root : Option ν
  left : ν → Option ν
  right : ν → Option ν

/-- The places a pointer is stored in. -/
inductive Slot (ν : Type*)
  | root
  | left (x : ν)
  | right (x : ν)
  deriving DecidableEq

namespace Slot

/-- The node that the slot is part of. -/
def owner : Slot ν → Option ν
  | root => none
  | left x => some x
  | right x => some x

@[simp] theorem owner_root : (root : Slot ν).owner = none := rfl
@[simp] theorem owner_left (x : ν) : (left x).owner = some x := rfl
@[simp] theorem owner_right (x : ν) : (right x).owner = some x := rfl

/-- The slot of a child: the right one for `true`. -/
def child (x : ν) : Bool → Slot ν
  | false => left x
  | true => right x

@[simp] theorem child_false (x : ν) : child x false = left x := rfl
@[simp] theorem child_true (x : ν) : child x true = right x := rfl

@[simp] theorem owner_child (x : ν) (b : Bool) : (child x b).owner = some x := by
  cases b <;> rfl

theorem child_not_ne (x : ν) (b : Bool) : child x (!b) ≠ child x b := by
  cases b <;> simp

end Slot

namespace TreeLinks

variable {m m' : TreeLinks ν} {s s' : Slot ν} {p v : Option ν}

def read (m : TreeLinks ν) : Slot ν → Option ν
  | .root => m.root
  | .left x => m.left x
  | .right x => m.right x

@[simp] theorem read_root (m : TreeLinks ν) : m.read .root = m.root := rfl
@[simp] theorem read_left (m : TreeLinks ν) (x : ν) : m.read (.left x) = m.left x := rfl
@[simp] theorem read_right (m : TreeLinks ν) (x : ν) : m.read (.right x) = m.right x := rfl

variable [DecidableEq ν]

def write (m : TreeLinks ν) : Slot ν → Option ν → TreeLinks ν
  | .root, v => { m with root := v }
  | .left x, v => { m with left := Function.update m.left x v }
  | .right x, v => { m with right := Function.update m.right x v }

@[simp] theorem read_write_self (m : TreeLinks ν) (s : Slot ν) (v : Option ν) : (m.write s v).read s = v := by
  cases s <;> simp [write, read]

theorem read_write_of_ne (h : s' ≠ s) : (m.write s v).read s' = m.read s' := by
  cases s <;> cases s' <;> first | rfl | exact absurd rfl h | skip
  all_goals
    refine Function.update_of_ne ?_ ..
    rintro rfl
    exact h rfl

theorem read_write (m : TreeLinks ν) (s s' : Slot ν) (v : Option ν) :
    (m.write s v).read s' = if s' = s then v else m.read s' := by
  split
  · subst_vars
    exact read_write_self ..
  · exact read_write_of_ne ‹_›

theorem left_write (m : TreeLinks ν) (s : Slot ν) (v : Option ν) (x : ν) :
    (m.write s v).left x = if s = .left x then v else m.left x := by
  simpa [eq_comm] using m.read_write s (.left x) v

theorem right_write (m : TreeLinks ν) (s : Slot ν) (v : Option ν) (x : ν) :
    (m.write s v).right x = if s = .right x then v else m.right x := by
  simpa [eq_comm] using m.read_write s (.right x) v

end TreeLinks

/-- The nodes of a tree. -/
def nodes : BinaryTree ν → List ν
  | .nil => []
  | .node x l r => x :: (nodes l ++ nodes r)

@[simp] theorem nodes_nil : nodes (.nil : BinaryTree ν) = [] := rfl
@[simp] theorem nodes_node (x : ν) (l r : BinaryTree ν) : nodes (.node x l r) = x :: (nodes l ++ nodes r) := rfl

/-- The pointer `p` leads to the nodes of the tree. -/
def Held (m : TreeLinks ν) : Option ν → BinaryTree ν → Prop
  | p, .nil => p = none
  | p, .node x l r => p = some x ∧ Held m (m.left x) l ∧ Held m (m.right x) r

@[simp] theorem held_nil {m : TreeLinks ν} {p : Option ν} : Held m p .nil ↔ p = none := Iff.rfl

theorem Held.congr {m m' : TreeLinks ν} {p : Option ν} {t : BinaryTree ν} (h : Held m p t)
    (heq : ∀ x ∈ nodes t, m'.left x = m.left x ∧ m'.right x = m.right x) : Held m' p t := by
  induction t generalizing p with
  | nil => exact h
  | node x l r ihl ihr =>
    obtain ⟨hp, hl, hr⟩ := h
    obtain ⟨hx, hlr⟩ := List.forall_mem_cons.1 heq
    refine ⟨hp, ?_, ?_⟩
    · rw [hx.1]
      exact ihl hl fun y hy => hlr y (List.mem_append_left _ hy)
    · rw [hx.2]
      exact ihr hr fun y hy => hlr y (List.mem_append_right _ hy)

/-- A pointer to nothing leads to the empty tree, any other to its node. -/
theorem Held.cases {m : TreeLinks ν} {p : Option ν} {t : BinaryTree ν} (h : Held m p t) :
    (p = none ∧ t = .nil) ∨ ∃ x l r, p = some x ∧ t = .node x l r ∧ Held m (m.left x) l ∧ Held m (m.right x) r := by
  cases t with
  | nil => exact .inl ⟨h, rfl⟩
  | node x l r => exact .inr ⟨x, l, r, h.1, rfl, h.2⟩

/-- The tree that a pointer leads to is known from the memory. -/
theorem Held.unique {m : TreeLinks ν} {p : Option ν} {t t' : BinaryTree ν} (h : Held m p t) (h' : Held m p t') : t = t' := by
  induction t generalizing p t' with
  | nil =>
    cases t' with
    | nil => rfl
    | node x l r => cases h.symm.trans h'.1
  | node x l r ihl ihr =>
    cases t' with
    | nil => cases h.1.symm.trans h'
    | node x' l' r' =>
      obtain rfl : x = x' := Option.some.inj (h.1.symm.trans h'.1)
      rw [ihl h.2.1 h'.2.1, ihr h.2.2 h'.2.2]

/-! ## Trees with a hole -/

/-- A node that a walk has passed: the child it went to (the right one for `true`), and the subtree of the other. -/
structure Frame (ν : Type*) where
  node : ν
  right : Bool
  sib : BinaryTree ν

/-- The frame with a tree in its hole. -/
def Frame.attach (f : Frame ν) (t : BinaryTree ν) : BinaryTree ν :=
  if f.right then .node f.node f.sib t else .node f.node t f.sib

/-- The whole tree. -/
def plug : List (Frame ν) → BinaryTree ν → BinaryTree ν
  | [], t => t
  | f :: fs, t => plug fs (f.attach t)

@[simp] theorem plug_nil (t : BinaryTree ν) : plug [] t = t := rfl
@[simp] theorem plug_cons (f : Frame ν) (fs : List (Frame ν)) (t : BinaryTree ν) : plug (f :: fs) t = plug fs (f.attach t) := rfl

/-- The nodes around the hole. -/
def around : List (Frame ν) → List ν
  | [] => []
  | f :: fs => f.node :: (nodes f.sib ++ around fs)

@[simp] theorem around_nil : around ([] : List (Frame ν)) = [] := rfl
@[simp] theorem around_cons (f : Frame ν) (fs : List (Frame ν)) :
    around (f :: fs) = f.node :: (nodes f.sib ++ around fs) := rfl

theorem nodes_attach (f : Frame ν) (t : BinaryTree ν) : (nodes (f.attach t)).Perm (f.node :: (nodes f.sib ++ nodes t)) := by
  rw [Frame.attach]
  split
  · exact List.Perm.refl _
  · exact List.perm_append_comm.cons _

theorem nodes_plug (fs : List (Frame ν)) (t : BinaryTree ν) : (nodes (plug fs t)).Perm (around fs ++ nodes t) := by
  induction fs generalizing t with
  | nil => exact List.Perm.refl _
  | cons f fs ih =>
    have hfs : (around fs ++ nodes (f.attach t)).Perm (around fs ++ (f.node :: nodes f.sib ++ nodes t)) :=
      (nodes_attach f t).append_left _
    have hcomm : (around fs ++ (f.node :: nodes f.sib)).Perm ((f.node :: nodes f.sib) ++ around fs) := List.perm_append_comm
    refine (ih _).trans (hfs.trans ?_)
    rw [← List.append_assoc]
    exact hcomm.append_right _

theorem nodes_plug_node (fs : List (Frame ν)) (x : ν) (l r : BinaryTree ν) :
    (nodes (plug fs (.node x l r))).Perm (x :: (around fs ++ (nodes l ++ nodes r))) :=
  (nodes_plug fs _).trans List.perm_middle

/-- The slot of the hole. -/
def hole : List (Frame ν) → Slot ν
  | [] => .root
  | f :: _ => .child f.node f.right

@[simp] theorem hole_nil : hole ([] : List (Frame ν)) = .root := rfl
@[simp] theorem hole_cons (f : Frame ν) (fs : List (Frame ν)) : hole (f :: fs) = .child f.node f.right := rfl

theorem owner_hole {fs : List (Frame ν)} {x : ν} (h : (hole fs).owner = some x) : x ∈ around fs := by
  cases fs with
  | nil => cases h
  | cons f fs =>
    rw [hole_cons, Slot.owner_child] at h
    cases h
    exact List.mem_cons_self

variable {m m' : TreeLinks ν} {fs : List (Frame ν)} {t : BinaryTree ν}

/-- The memory holds the tree around the hole. -/
def Way (m : TreeLinks ν) : List (Frame ν) → Prop
  | [] => True
  | f :: fs => m.read (hole fs) = some f.node ∧ Held m (m.read (.child f.node (!f.right))) f.sib ∧ Way m fs

/-- **A tree in the hole makes the whole tree.** -/
theorem Way.held (h : Way m fs) (ht : Held m (m.read (hole fs)) t) : Held m m.root (plug fs t) := by
  induction fs generalizing t with
  | nil => exact ht
  | cons f fs ih =>
    obtain ⟨hread, hsib, hway⟩ := h
    refine ih hway ?_
    rw [Frame.attach]
    cases hr : f.right with
    | true =>
      rw [hole_cons, hr] at ht
      rw [hr] at hsib
      exact ⟨hread, hsib, ht⟩
    | false =>
      rw [hole_cons, hr] at ht
      rw [hr] at hsib
      exact ⟨hread, ht, hsib⟩

/-- **The hole may be written to**: only the pointers around it count. -/
theorem Way.congr (h : Way m fs) (hnodup : (around fs).Nodup)
    (heq : ∀ s, s ≠ hole fs → (∀ x, s.owner = some x → x ∈ around fs) → m'.read s = m.read s) : Way m' fs := by
  induction fs with
  | nil => exact h
  | cons f fs ih =>
    obtain ⟨hread, hsib, hway⟩ := h
    obtain ⟨hnode, hnodup⟩ := List.nodup_cons.1 hnodup
    have hfs : f.node ∉ around fs := fun hin => hnode (List.mem_append_right _ hin)
    have hf : f.node ∉ nodes f.sib := fun hin => hnode (List.mem_append_left _ hin)
    have hne : ∀ s : Slot ν, (∀ x, s.owner = some x → x ∈ nodes f.sib ++ around fs) → s ≠ hole (f :: fs) := by
      rintro s hs rfl
      exact hnode (hs _ (Slot.owner_child ..))
    refine ⟨?_, ?_, ih hway (List.nodup_append.1 hnodup).2.1 fun s _ hs => ?_⟩
    · rw [← hread]
      refine heq _ (hne _ fun x hx => List.mem_append_right _ (owner_hole hx)) fun x hx => ?_
      exact List.mem_cons_of_mem _ (List.mem_append_right _ (owner_hole hx))
    · have hsame : ∀ s : Slot ν, ∀ y ∈ nodes f.sib, s.owner = some y → m'.read s = m.read s := by
        intro s y hy hs
        refine heq s (hne s fun x hx => ?_) fun x hx => ?_
        all_goals obtain rfl : x = y := Option.some.inj (hx.symm.trans hs)
        · exact List.mem_append_left _ hy
        · exact List.mem_cons_of_mem _ (List.mem_append_left _ hy)
      have hother : m'.read (.child f.node (!f.right)) = m.read (.child f.node (!f.right)) := by
        refine heq _ (Slot.child_not_ne f.node f.right) fun x hx => ?_
        rw [Slot.owner_child] at hx
        cases hx
        exact List.mem_cons_self
      rw [hother]
      exact hsib.congr fun y hy => ⟨hsame (.left y) y hy rfl, hsame (.right y) y hy rfl⟩
    · refine heq s (hne s fun x hx => List.mem_append_right _ (hs x hx)) fun x hx => ?_
      exact List.mem_cons_of_mem _ (List.mem_append_right _ (hs x hx))

end ToolLib.Base
