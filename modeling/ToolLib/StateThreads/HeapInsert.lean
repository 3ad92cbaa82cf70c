import ToolLib.StateThreads.TimeoutHeap

/-!
# Insertion into the timeout heap

`IsHeap h T`: the sleep queue is the heap `T`. The loop of `heap_insert` is followed with a tree with a hole: `Hole h P fs S x`
says that the walk has come to the hole of `fs`, where the subtree `S` is, and carries the thread `x`; the threads above are
due before `x`, or at the same time. A turn goes one place further down (`hole_turn`), and the walk ends with the carried
thread in the hole (`heapInsertFrom_spec`), which is the target. Whether the target was free (`heapInsert_add`) or a deleted
thread still stood there makes no difference to the walk.
-/

namespace ToolLib.StateThreads

open Base

variable {ν : Type*}

/-- The sleep queue is the heap `T`. -/
structure IsHeap (h : SleepQ ν) (T : BinaryTree ν) : Prop where
  held : Held h.toTreeLinks h.root T
  laid : Laid h.heapIndex (· ≤ h.sleepqSize) 1 T
  ordered : Ordered h.dueTime T
  nodup : (nodes T).Nodup

/-- The walk carries `x` and has come to the hole of `fs`, with `S` below it. -/
structure Hole (h : SleepQ ν) (P : Nat → Prop) (fs : List (Frame ν)) (S : BinaryTree ν) (x : ν) : Prop where
  way : Way h.toTreeLinks fs
  laid : Laid h.heapIndex P 1 (plug fs S)
  ordered : Ordered h.dueTime (plug fs S)
  nodup : (x :: nodes (plug fs S)).Nodup
  above_le : ∀ a ∈ above fs, h.dueTime a ≤ h.dueTime x

/-- What the heap operations leave as it is. -/
structure Kept (h h' : SleepQ ν) : Prop where
  due : h'.due = h.due
  sleepqSize : h'.sleepqSize = h.sleepqSize
  lastClock : h'.lastClock = h.lastClock
  onSleepq : h'.onSleepq = h.onSleepq

variable {h h' h'' : SleepQ ν} {P : Nat → Prop} {fs : List (Frame ν)} {S T l r : BinaryTree ν} {x y a t thread : ν}
  {target n : Nat} {p : Option ν} {b : Bool}

theorem Kept.refl (h : SleepQ ν) : Kept h h := ⟨rfl, rfl, rfl, rfl⟩

theorem Kept.trans (hk : Kept h h') (hk' : Kept h' h'') : Kept h h'' :=
  ⟨hk'.due.trans hk.due, hk'.sleepqSize.trans hk.sleepqSize, hk'.lastClock.trans hk.lastClock,
    hk'.onSleepq.trans hk.onSleepq⟩

/-- The frame of a walk that goes to a child of `a` has the other child. -/
theorem attach_child (a : ν) (b : Bool) (l r : BinaryTree ν) :
    (Frame.mk a b (child l r !b)).attach (child l r b) = .node a l r := by
  cases b <;> rfl

theorem Held.child_slot {m : TreeLinks ν} (h : Held m p (.node a l r)) (b : Bool) :
    Held m (m.read (.child a b)) (child l r b) := by
  cases b with
  | false => exact h.2.1
  | true => exact h.2.2

theorem mem_nodes_child (h : x ∈ nodes (child l r b)) : x ∈ nodes l ++ nodes r := by
  cases b with
  | false => exact List.mem_append_left _ h
  | true => exact List.mem_append_right _ h

theorem mem_plug : x ∈ nodes (plug fs S) ↔ x ∈ around fs ∨ x ∈ nodes S := by
  rw [(nodes_plug fs S).mem_iff, List.mem_append]

namespace Hole

theorem around_nodup (hh : Hole h P fs S x) : (around fs ++ nodes S).Nodup :=
  (nodes_plug fs S).nodup_iff.1 (List.nodup_cons.1 hh.nodup).2

theorem not_around (hh : Hole h P fs S x) : x ∉ around fs := fun hin =>
  (List.nodup_cons.1 hh.nodup).1 (mem_plug.2 (.inl hin))

theorem not_below (hh : Hole h P fs S x) : x ∉ nodes S := fun hin =>
  (List.nodup_cons.1 hh.nodup).1 (mem_plug.2 (.inr hin))

theorem apart (hh : Hole h P fs S x) (hy : y ∈ nodes S) : y ∉ around fs := fun hin =>
  (List.nodup_append.1 hh.around_nodup).2.2 y hin y hy rfl

/-- A slot of a thread that is below the hole, or carried, is not the hole. -/
theorem hole_ne (hh : Hole h P fs S x) {s : Slot ν} (hs : s.owner = some y) (hy : y = x ∨ y ∈ nodes S) : s ≠ hole fs := by
  rintro rfl
  rcases hy with rfl | hy
  · exact hh.not_around (owner_hole hs)
  · exact hh.apart hy (owner_hole hs)

/-- The pointers of `x` and the hole may be written to. -/
theorem way_congr (hh : Hole h P fs S x) {m : TreeLinks ν}
    (hm : ∀ s, s ≠ .left x → s ≠ .right x → s ≠ hole fs → m.read s = h.read s) : Way m fs := by
  refine hh.way.congr (List.nodup_append.1 hh.around_nodup).1 fun s hs hin => hm s ?_ ?_ hs
  all_goals
    rintro rfl
    exact hh.not_around (hin x rfl)

theorem held_congr (hh : Hole h P fs S x) {m : TreeLinks ν}
    (hm : ∀ s, s ≠ .left x → s ≠ .right x → s ≠ hole fs → m.read s = h.read s) (ht : Held h.toTreeLinks p T)
    (hsub : ∀ y ∈ nodes T, y ∈ nodes S) : Held m p T := by
  have hsame : ∀ y ∈ nodes T, ∀ s : Slot ν, s.owner = some y → m.read s = h.read s := by
    intro y hy s hs
    have hyx : y ≠ x := fun heq => hh.not_below (heq ▸ hsub y hy)
    refine hm s ?_ ?_ (hh.hole_ne hs (.inr (hsub y hy)))
    all_goals
      rintro rfl
      exact hyx (Option.some.inj hs).symm
  exact ht.congr fun y hy => ⟨hsame y hy (.left y) rfl, hsame y hy (.right y) rfl⟩

/-- The place of `x` may be changed. -/
theorem idx_congr [DecidableEq ν] (hh : Hole h P fs S x) {i : Nat} (hy : y ∈ nodes (plug fs S)) :
    Function.update h.heapIndex x i y = h.heapIndex y := by
  refine Function.update_of_ne ?_ ..
  rintro rfl
  exact (List.nodup_cons.1 hh.nodup).1 hy

theorem laid_below (hh : Hole h P fs S x) : Laid h.heapIndex P (place fs) S := (laid_plug.1 hh.laid).2

end Hole

theorem replace_perm : (a :: nodes (plug fs (.node x l r))).Perm (x :: nodes (plug fs (.node a l r))) := by
  have hback := (nodes_plug_node fs a l r).symm.cons x
  exact ((nodes_plug_node fs x l r).cons a).trans ((List.Perm.swap x a _).trans hback)

/-! ## One turn -/

variable [DecidableEq ν]

/-- The memory after a replacement: only the pointers of `x` and the hole have changed. -/
theorem read_replace {s : Slot ν} (hl : s ≠ .left x) (hr : s ≠ .right x) (hs : s ≠ hole fs) {i : Nat} :
    (h.replace x a (hole fs) i).read s = h.read s := by
  simp only [SleepQ.replace, SleepQ.setIndex_toTreeLinks, SleepQ.write_toTreeLinks]
  rw [TreeLinks.read_write_of_ne hs, TreeLinks.read_write_of_ne hr, TreeLinks.read_write_of_ne hl]

theorem read_replace_hole {i : Nat} : (h.replace x a (hole fs) i).read (hole fs) = some x := by
  simp only [SleepQ.replace, SleepQ.setIndex_toTreeLinks, SleepQ.write_toTreeLinks, TreeLinks.read_write_self]

section Turn

variable (hh : Hole h P fs (.node a l r) x)

include hh

/-- `x` has got the children of `a`. -/
theorem read_replace_child {i : Nat} (b : Bool) :
    (h.replace x a (hole fs) i).read (.child x b) = h.read (.child a b) := by
  have hne : ∀ b, Slot.child x b ≠ hole fs := fun b => hh.hole_ne (Slot.owner_child x b) (.inl rfl)
  simp only [SleepQ.replace, SleepQ.setIndex_toTreeLinks, SleepQ.write_toTreeLinks]
  rw [TreeLinks.read_write_of_ne (hne b)]
  cases b with
  | false =>
    rw [Slot.child_false, TreeLinks.read_write_of_ne (by simp), TreeLinks.read_write_self]
    rfl
  | true =>
    rw [Slot.child_true, TreeLinks.read_write_self]
    simp [TreeLinks.right_write]

/-- `x` stays behind and `a` is carried on. -/
theorem hole_replace (hlt : h.due x < h.due a) (hheld : Held h.toTreeLinks (h.read (hole fs)) (.node a l r)) (b : Bool) :
    Hole (h.replace x a (hole fs) (place fs)) P (⟨x, b, child l r !b⟩ :: fs) (child l r b) a ∧
      Held (h.replace x a (hole fs) (place fs)).toTreeLinks ((h.replace x a (hole fs) (place fs)).read (.child x b))
        (child l r b) := by
  have hm : ∀ s, s ≠ .left x → s ≠ .right x → s ≠ hole fs → (h.replace x a (hole fs) (place fs)).read s = h.read s :=
    fun s hl hr hs => read_replace hl hr hs
  have hchild : ∀ c, Held (h.replace x a (hole fs) (place fs)).toTreeLinks
      ((h.replace x a (hole fs) (place fs)).read (.child x c)) (child l r c) := by
    intro c
    rw [read_replace_child hh]
    exact hh.held_congr hm (Held.child_slot hheld c) fun y hy => List.mem_cons_of_mem _ (mem_nodes_child hy)
  have hidx : ∀ y ∈ nodes (plug fs (.node a l r)), (h.replace x a (hole fs) (place fs)).heapIndex y = h.heapIndex y :=
    fun y hy => hh.idx_congr hy
  rw [SleepQ.due_lt] at hlt
  obtain ⟨haround, hbel⟩ := laid_plug.1 hh.laid
  obtain ⟨ofs, ole, oS⟩ := ordered_plug.1 hh.ordered
  refine ⟨⟨⟨read_replace_hole, hchild _, hh.way_congr hm⟩, ?_, ?_, ?_, ?_⟩, hchild b⟩
  · rw [plug_cons, attach_child, laid_plug]
    refine ⟨haround.congr_idx fun y hy => hidx y (mem_plug.2 (.inl hy)), Function.update_self .., hbel.2.1, ?_, ?_⟩
    · refine hbel.2.2.1.congr_idx fun y hy => hidx y (mem_plug.2 (.inr ?_))
      exact List.mem_cons_of_mem _ (List.mem_append_left _ hy)
    · refine hbel.2.2.2.congr_idx fun y hy => hidx y (mem_plug.2 (.inr ?_))
      exact List.mem_cons_of_mem _ (List.mem_append_right _ hy)
  · rw [plug_cons, attach_child, ordered_plug]
    have hle : ∀ y ∈ nodes l ++ nodes r, h.dueTime x ≤ h.dueTime y := fun y hy => hlt.le.trans (oS.1 y hy)
    refine ⟨ofs, fun c hc y hy => ?_, hle, oS.2⟩
    rcases List.mem_cons.1 hy with rfl | hy
    · exact hh.above_le c hc
    · exact (hh.above_le c hc).trans (hle y hy)
  · rw [plug_cons, attach_child]
    have hperm : (a :: nodes (plug fs (.node x l r))).Perm (x :: nodes (plug fs (.node a l r))) := replace_perm
    exact hperm.nodup_iff.2 hh.nodup
  · intro c hc
    rcases List.mem_cons.1 hc with rfl | hc
    · exact hlt.le
    · exact ole c hc a List.mem_cons_self

omit [DecidableEq ν] in
/-- `a` stays and `x` is carried on. -/
theorem hole_stay (hle : ¬ h.due x < h.due a) (hheld : Held h.toTreeLinks (h.read (hole fs)) (.node a l r)) (b : Bool) :
    Hole h P (⟨a, b, child l r !b⟩ :: fs) (child l r b) x := by
  refine ⟨⟨hheld.1, Held.child_slot hheld _, hh.way⟩, ?_, ?_, ?_, ?_⟩
  · rw [plug_cons, attach_child]
    exact hh.laid
  · rw [plug_cons, attach_child]
    exact hh.ordered
  · rw [plug_cons, attach_child]
    exact hh.nodup
  · intro c hc
    rcases List.mem_cons.1 hc with rfl | hc
    · exact not_lt.1 fun hlt => hle ((SleepQ.due_lt ..).2 hlt)
    · exact hh.above_le c hc

end Turn

/-- The state after a turn: `a'` has stayed, `x'` is carried on. -/
structure Turned (h : SleepQ ν) (P : Nat → Prop) (fs : List (Frame ν)) (a : ν) (l r : BinaryTree ν) (x : ν) (b : Bool)
    (h' : SleepQ ν) (a' x' : ν) : Prop where
  read : h'.read (hole fs) = some a'
  hole : Hole h' P (⟨a', b, child l r !b⟩ :: fs) (child l r b) x'
  held : Held h'.toTreeLinks (h'.read (.child a' b)) (child l r b)
  kept : Kept h h'
  perm : (x' :: nodes (plug fs (.node a' l r))).Perm (x :: nodes (plug fs (.node a l r)))
  heapIndex : ∀ z ∈ nodes (child l r b), h'.heapIndex z = h.heapIndex z

/-- **One turn.** -/
theorem hole_turn (hh : Hole h P fs (.node a l r) x) (hheld : Held h.toTreeLinks (h.read (hole fs)) (.node a l r))
    (b : Bool) : ∃ h' a' x', (if h.due x < h.due a then (h.replace x a (hole fs) (place fs), a) else (h, x)) = (h', x') ∧
      Turned h P fs a l r x b h' a' x' := by
  by_cases hlt : h.due x < h.due a
  · obtain ⟨hhole, hheld'⟩ := hole_replace hh hlt hheld b
    refine ⟨_, x, a, if_pos hlt, read_replace_hole, hhole, hheld', ⟨rfl, rfl, rfl, rfl⟩, replace_perm, fun z hz => ?_⟩
    refine Function.update_of_ne ?_ ..
    rintro rfl
    exact hh.not_below (List.mem_cons_of_mem _ (mem_nodes_child hz))
  · exact ⟨_, a, x, if_neg hlt, hheld.1, hole_stay hh hlt hheld b, Held.child_slot hheld b, Kept.refl h,
      List.Perm.refl _, fun _ _ => rfl⟩

/-! ## The walk -/

/-- The end of the walk: `y` is in the hole, where `S` was, and has no children. -/
structure Placed (h : SleepQ ν) (P : Nat → Prop) (fs : List (Frame ν)) (S : BinaryTree ν) (x : ν) (h' : SleepQ ν)
    (fs' : List (Frame ν)) (S' : BinaryTree ν) (y : ν) : Prop where
  read : h'.read (hole fs') = some y
  hole : Hole h' P fs' S' y
  held : ∃ p, Held h'.toTreeLinks p S'
  left : h'.left y = none
  right : h'.right y = none
  heapIndex : h'.heapIndex y = place fs'
  kept : Kept h h'
  perm : (y :: nodes (plug fs' S')).Perm (x :: nodes (plug fs S))

theorem placed_here (hh : Hole h P fs S x) (hheld : Held h.toTreeLinks (h.read (hole fs)) S) :
    Placed h P fs S x ((((h.setIndex x (place fs)).write (hole fs) (some x)).write (.right x) none).write (.left x) none)
      fs S x := by
  have hl : Slot.left x ≠ hole fs := hh.hole_ne rfl (.inl rfl)
  have hr : Slot.right x ≠ hole fs := hh.hole_ne rfl (.inl rfl)
  have hm : ∀ s, s ≠ .left x → s ≠ .right x → s ≠ hole fs →
      (((h.toTreeLinks.write (hole fs) (some x)).write (.right x) none).write (.left x) none).read s = h.read s := by
    intro s hsl hsr hs
    rw [TreeLinks.read_write_of_ne hsl, TreeLinks.read_write_of_ne hsr, TreeLinks.read_write_of_ne hs]
  refine ⟨?_, ⟨hh.way_congr hm, ?_, hh.ordered, hh.nodup, hh.above_le⟩, ⟨_, hh.held_congr hm hheld fun _ hy => hy⟩, ?_, ?_,
    Function.update_self .., ⟨rfl, rfl, rfl, rfl⟩, List.Perm.refl _⟩
  · simp only [SleepQ.write_toTreeLinks, SleepQ.setIndex_toTreeLinks]
    rw [TreeLinks.read_write_of_ne hl.symm, TreeLinks.read_write_of_ne hr.symm, TreeLinks.read_write_self]
  · exact hh.laid.congr_idx fun y hy => hh.idx_congr hy
  · simp [TreeLinks.left_write]
  · simp [TreeLinks.right_write]

theorem shift_one (i : Nat) : i <<< 1 = childPlace i false := by
  rw [Nat.shiftLeft_eq, childPlace_false]
  omega

theorem shift_or_one (i : Nat) : i <<< 1 ||| 1 = childPlace i true := by
  rw [← Nat.shiftLeft_add_eq_or_of_lt (by decide : 1 < 2 ^ 1), Nat.shiftLeft_eq, childPlace_true]
  omega

/-- **The walk of `heap_insert` comes to the target**, where a thread with that place still is below the hole. -/
theorem heapInsertFrom_spec (hh : Hole h P fs S x) (hheld : Held h.toTreeLinks (h.read (hole fs)) S)
    (hplace : target / 2 ^ n = place fs) (hP : ∀ k < n, P (target / 2 ^ (k + 1))) :
    ∃ h' fs' S' y, SleepQ.heapInsertFrom target n h x (hole fs) (place fs) = some (h', hole fs') ∧ place fs' = target ∧
      Placed h P fs S x h' fs' S' y ∧
      ∀ z ∈ nodes S, h.heapIndex z = target → z ∈ nodes S' ∧ h'.heapIndex z = target := by
  induction n generalizing h fs S x with
  | zero =>
    rw [Nat.pow_zero, Nat.div_one] at hplace
    refine ⟨_, fs, S, x, rfl, hplace.symm, placed_here hh hheld, fun z hz hzi => ⟨hz, ?_⟩⟩
    exact (hh.idx_congr (mem_plug.2 (.inr hz))).trans hzi
  | succ n ih =>
    obtain ⟨a, l, r, rfl, ha⟩ := hh.laid_below.node (hplace ▸ hP n (Nat.lt_succ_self n))
    obtain ⟨h₁, a', x', hif, ht⟩ := hole_turn hh hheld (target.testBit n)
    have hnext : target / 2 ^ n = place (⟨a', target.testBit n, child l r !(target.testBit n)⟩ :: fs) := under_turn hplace
    obtain ⟨h', fs', S', y, hrun, hpl, hplaced, hkeep⟩ := ih ht.hole ht.held hnext fun k hk => hP k (Nat.lt_succ_of_lt hk)
    have hin : ∀ z ∈ nodes (.node a l r), h.heapIndex z = target → z ∈ nodes (child l r (target.testBit n)) := by
      rintro z hz rfl
      exact hh.laid_below.mem_child (place_pos fs) hz hplace
    refine ⟨h', fs', S', y, ?_, hpl, ?_, fun z hz hzi => ?_⟩
    · rw [SleepQ.heapInsertFrom, hheld.1]
      simp only [Option.bind_eq_bind, Option.bind_some, hif, ht.read]
      rw [← hrun, hole_cons, place_cons]
      cases target.testBit n with
      | true => rw [if_pos rfl, shift_or_one, Slot.child_true]
      | false => rw [if_neg Bool.false_ne_true, shift_one, Slot.child_false]
    · have hperm := hplaced.perm
      rw [plug_cons, attach_child] at hperm
      exact { hplaced with kept := ht.kept.trans hplaced.kept, perm := hperm.trans ht.perm }
    · have hz' := hin z hz hzi
      exact hkeep z hz' ((ht.heapIndex z hz').trans hzi)

/-! ## A new thread -/

/-- `heap_insert` of a thread that is not in the heap yet, at any place that the digits lead to. -/
theorem heapInsert_spec (hh : Hole h P [] T x) (hheld : Held h.toTreeLinks h.root T) (hpos : 0 < h.heapIndex x)
    (hP : ∀ k, 0 < k → k < h.heapIndex x → P k) :
    ∃ h' fs S y, h.heapInsert x = some (h', hole fs) ∧ place fs = h.heapIndex x ∧ Placed h P [] T x h' fs S y ∧
      ∀ z ∈ nodes T, h.heapIndex z = h.heapIndex x → z ∈ nodes S ∧ h'.heapIndex z = h.heapIndex x := by
  refine heapInsertFrom_spec hh hheld (SleepQ.bits_spec hpos) fun k hk => hP _ ?_ ?_
  · have hone := SleepQ.bits_spec hpos
    refine Nat.div_pos ?_ (Nat.two_pow_pos _)
    have hle : 2 ^ (k + 1) ≤ 2 ^ (SleepQ.bits (h.heapIndex x) - 1) := Nat.pow_le_pow_right Nat.two_pos hk
    exact hle.trans (Nat.le_of_not_lt fun hlt => by rw [Nat.div_eq_of_lt hlt] at hone; cases hone)
  · exact Nat.div_lt_self hpos (Nat.one_lt_two_pow (Nat.succ_ne_zero k))

omit [DecidableEq ν] in
/-- The empty sleep queue. -/
theorem isHeap_nil (hroot : h.root = none) (hsize : h.sleepqSize = 0) : IsHeap h .nil :=
  ⟨hroot, by simp [hsize], trivial, List.nodup_nil⟩

omit [DecidableEq ν] in
theorem IsHeap.congr (hT : IsHeap h T) (hroot : h'.root = h.root) (hsize : h'.sleepqSize = h.sleepqSize)
    (heq : ∀ z ∈ nodes T, h'.left z = h.left z ∧ h'.right z = h.right z ∧ h'.heapIndex z = h.heapIndex z ∧
      h'.due z = h.due z) : IsHeap h' T where
  held := by
    rw [hroot]
    exact hT.held.congr fun z hz => ⟨(heq z hz).1, (heq z hz).2.1⟩
  laid := by
    rw [hsize]
    exact hT.laid.congr_idx fun z hz => (heq z hz).2.2.1
  ordered := hT.ordered.congr fun z hz => congrArg UInt64.toNat (heq z hz).2.2.2
  nodup := hT.nodup

omit [DecidableEq ν] in
theorem IsHeap.hole (hT : IsHeap h T) (hx : x ∉ nodes T) : Hole h (· ≤ h.sleepqSize) [] T x :=
  ⟨trivial, hT.laid, hT.ordered, List.nodup_cons.2 ⟨hx, hT.nodup⟩, nofun⟩

/-- **`_st_add_sleep_q` puts the thread into the heap**, due after the timeout. -/
theorem addSleepQ_spec (hT : IsHeap h T) (hx : x ∉ nodes T) (timeout : UInt64) :
    ∃ h' T', h.addSleepQ x timeout = some h' ∧ IsHeap h' T' ∧ (nodes T').Perm (x :: nodes T) ∧
      h'.due = Function.update h.due x (h.lastClock + timeout) ∧ h'.lastClock = h.lastClock ∧
      h'.onSleepq = Function.update h.onSleepq x true := by
  have hne : ∀ z ∈ nodes T, z ≠ x := fun z hz heq => hx (heq ▸ hz)
  -- the thread with its wakeup time and its place, but not in the heap yet
  let h₁ : SleepQ ν :=
    { h with
      due := Function.update h.due x (h.lastClock + timeout)
      onSleepq := Function.update h.onSleepq x true
      sleepqSize := h.sleepqSize + 1
      heapIndex := Function.update h.heapIndex x (h.sleepqSize + 1) }
  have hidx : h₁.heapIndex x = h.sleepqSize + 1 := Function.update_self ..
  have hhole : Hole h₁ (· ≤ h.sleepqSize) [] T x := by
    refine ⟨trivial, ?_, ?_, List.nodup_cons.2 ⟨hx, hT.nodup⟩, (by intro _ h; cases h)⟩
    · exact hT.laid.congr_idx fun z hz => Function.update_of_ne (hne z hz) ..
    · exact hT.ordered.congr fun z hz => congrArg UInt64.toNat (Function.update_of_ne (hne z hz) ..)
  obtain ⟨h', fs, S, y, hrun, hplace, hput, -⟩ :=
    heapInsert_spec hhole hT.held (hidx ▸ Nat.succ_pos _) fun k _ hk => Nat.lt_succ_iff.1 (lt_of_lt_of_eq hk hidx)
  rw [hidx] at hplace
  obtain ⟨haround, hbel⟩ := laid_plug.1 hput.hole.laid
  obtain rfl : S = .nil := hbel.eq_nil (by omega)
  obtain ⟨ofs, -, -⟩ := ordered_plug.1 hput.hole.ordered
  have hsize : h'.sleepqSize = h.sleepqSize + 1 := hput.kept.sleepqSize
  have hperm : (nodes (plug fs (.node y .nil .nil))).Perm (x :: nodes T) := by
    have hback := (nodes_plug fs .nil).symm.cons y
    exact ((nodes_plug_node fs y .nil .nil).trans hback).trans hput.perm
  refine ⟨h', plug fs (.node y .nil .nil), ?_, ⟨?_, ?_, ?_, ?_⟩, hperm, hput.kept.due, hput.kept.lastClock,
    hput.kept.onSleepq⟩
  · exact congrArg (Option.map Prod.fst) hrun
  · exact hput.hole.way.held ⟨hput.read, hput.left, hput.right⟩
  · rw [hsize]
    refine laid_plug.2 ⟨haround.congr (j := h.sleepqSize + 1) ?_ fun k hk => ?_, hput.heapIndex, ?_, ?_, ?_⟩
    · rw [hplace]
      exact under_refl _
    · omega
    all_goals simp only [laid_nil, childPlace_false, childPlace_true]; omega
  · refine ordered_plug.2 ⟨ofs, fun a ha z hz => ?_, (by intro _ h; cases h), trivial, trivial⟩
    obtain rfl : z = y := List.mem_singleton.1 hz
    exact hput.hole.above_le a ha
  · exact hperm.nodup_iff.2 hhole.nodup

end ToolLib.StateThreads
