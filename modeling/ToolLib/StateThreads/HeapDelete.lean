import ToolLib.StateThreads.HeapInsert

/-!
# Deletion from the timeout heap

`heap_delete` walks to the last thread (`lastFrom_spec`) and unlinks it (`unlink_last`). When it is not the thread to delete,
it is inserted at that thread's place: the walk leaves the carried thread there with the children of the deleted one
(`Sifting`), and the last loop moves it down until no child is due before it (`siftTurn_spec`, `sift_spec`). Only in between
is the order of the heap broken, and only at that thread.
-/

namespace ToolLib.StateThreads

open Base

variable {ν : Type*} {h h' : SleepQ ν} {P : Nat → Prop} {fs : List (Frame ν)} {S T l r yl yr : BinaryTree ν}
  {x y a t thread : ν} {n : Nat} {p : Option ν} {b : Bool}

/-! ## The last thread -/

/-- The walk to the last place. -/
theorem lastFrom_spec (hway : Way h.toTreeLinks fs) (hheld : Held h.toTreeLinks (h.read (hole fs)) S)
    (hlaid : Laid h.heapIndex (· ≤ h.sleepqSize) 1 (plug fs S)) (hplace : h.sleepqSize / 2 ^ n = place fs) :
    ∃ fs' S', h.lastFrom n (hole fs) = some (hole fs') ∧ plug fs' S' = plug fs S ∧ Way h.toTreeLinks fs' ∧
      Held h.toTreeLinks (h.read (hole fs')) S' ∧ place fs' = h.sleepqSize := by
  induction n generalizing fs S with
  | zero =>
    rw [Nat.pow_zero, Nat.div_one] at hplace
    exact ⟨fs, S, rfl, rfl, hway, hheld, hplace.symm⟩
  | succ n ih =>
    have hP : place fs ≤ h.sleepqSize := hplace ▸ Nat.div_le_self ..
    obtain ⟨a, l, r, rfl, -⟩ := (laid_plug.1 hlaid).2.node hP
    have hway' : Way h.toTreeLinks (⟨a, h.sleepqSize.testBit n, child l r !(h.sleepqSize.testBit n)⟩ :: fs) :=
      ⟨hheld.1, Held.child_slot hheld _, hway⟩
    obtain ⟨fs', S', hrun, hplug, hrest⟩ := ih hway' (Held.child_slot hheld _) (by rwa [plug_cons, attach_child])
      (under_turn hplace)
    refine ⟨fs', S', ?_, ?_, hrest⟩
    · rw [SleepQ.lastFrom, hheld.1]
      simp only [Option.bind_eq_bind, Option.bind_some]
      rw [← hrun, hole_cons]
      cases h.sleepqSize.testBit n with
      | true => rw [if_pos rfl, Slot.child_true]
      | false => rw [if_neg Bool.false_ne_true, Slot.child_false]
    · rw [hplug, plug_cons, attach_child]

variable [DecidableEq ν]

/-- **The last thread is unlinked**: what is left is a heap. -/
theorem unlink_last (hT : IsHeap h T) (hpos : 0 < h.sleepqSize) :
    ∃ s t T₁, h.lastFrom (SleepQ.bits h.sleepqSize - 1) .root = some s ∧ h.read s = some t ∧
      IsHeap { h.write s none with sleepqSize := h.sleepqSize - 1 } T₁ ∧ (t :: nodes T₁).Perm (nodes T) := by
  obtain ⟨fs, S, hrun, hplug, hway, hheld, hplace⟩ :=
    lastFrom_spec (show Way h.toTreeLinks [] from trivial) hT.held hT.laid (SleepQ.bits_spec hpos)
  have hlaid := hT.laid
  rw [← plug_nil T, ← hplug, laid_plug, hplace] at hlaid
  obtain ⟨haround, hbel⟩ := hlaid
  obtain ⟨t, l, r, rfl, -⟩ := hbel.node le_rfl
  have hord := hT.ordered
  rw [← plug_nil T, ← hplug, ordered_plug] at hord
  obtain rfl : l = .nil := hbel.2.2.1.eq_nil (by rw [childPlace_false]; omega)
  obtain rfl : r = .nil := hbel.2.2.2.eq_nil (by rw [childPlace_true]; omega)
  have hperm : (t :: nodes (plug fs .nil)).Perm (nodes T) := by
    rw [← plug_nil T, ← hplug]
    exact ((nodes_plug fs .nil).cons t).trans (nodes_plug_node fs t .nil .nil).symm
  have hnodup : (t :: nodes (plug fs .nil)).Nodup := hperm.nodup_iff.2 hT.nodup
  have hfs : (around fs).Nodup := (List.nodup_append.1 ((nodes_plug fs .nil).nodup_iff.1 (List.nodup_cons.1 hnodup).2)).1
  refine ⟨hole fs, t, plug fs .nil, hrun, hheld.1, ⟨?_, ?_, ?_, (List.nodup_cons.1 hnodup).2⟩, hperm⟩
  · refine Way.held (hway.congr hfs fun s hs _ => ?_) ?_
    · exact TreeLinks.read_write_of_ne hs
    · exact TreeLinks.read_write_self ..
  · refine laid_plug.2 ⟨haround.congr (j := h.sleepqSize) ?_ fun k hk => ?_, ?_⟩
    · rw [hplace]
      exact under_refl _
    · show k ≤ h.sleepqSize - 1 ↔ k ≤ h.sleepqSize
      omega
    · rw [hplace, laid_nil]
      show ¬ h.sleepqSize ≤ h.sleepqSize - 1
      omega
  · exact ordered_plug.2 ⟨hord.1, fun _ _ => nofun, trivial⟩

/-! ## The loop that sifts -/

/-- `t` is in the hole of `fs`, over the subtrees `l` and `r`; it may be due after its children. -/
structure Sifting (h : SleepQ ν) (n : Nat) (fs : List (Frame ν)) (t : ν) (l r : BinaryTree ν) : Prop where
  way : Way h.toTreeLinks fs
  read : h.read (hole fs) = some t
  left : Held h.toTreeLinks (h.left t) l
  right : Held h.toTreeLinks (h.right t) r
  laid : Laid h.heapIndex (· ≤ n) 1 (plug fs (.node t l r))
  around : OrderedAround h.dueTime fs
  above : ∀ a ∈ above fs, ∀ y ∈ nodes (.node t l r), h.dueTime a ≤ h.dueTime y
  orderedLeft : Ordered h.dueTime l
  orderedRight : Ordered h.dueTime r
  nodup : (nodes (plug fs (.node t l r))).Nodup

namespace Sifting

omit [DecidableEq ν]

theorem below_nodup (hs : Sifting h n fs t l r) : (Base.around fs ++ t :: (nodes l ++ nodes r)).Nodup :=
  (nodes_plug fs _).nodup_iff.1 hs.nodup

theorem held_child (hs : Sifting h n fs t l r) (b : Bool) : Held h.toTreeLinks (h.read (.child t b)) (child l r b) := by
  cases b with
  | false => exact hs.left
  | true => exact hs.right

/-- The end: no child is due before `t`. -/
theorem isHeap (hs : Sifting h n fs t l r) (hsize : h.sleepqSize = n)
    (hle : ∀ y ∈ nodes l ++ nodes r, h.dueTime t ≤ h.dueTime y) : IsHeap h (plug fs (.node t l r)) where
  held := hs.way.held ⟨hs.read, hs.left, hs.right⟩
  laid := by
    rw [hsize]
    exact hs.laid
  ordered := ordered_plug.2 ⟨hs.around, hs.above, hle, hs.orderedLeft, hs.orderedRight⟩
  nodup := hs.nodup

/-- **The younger child** is due before everything below. -/
theorem younger (hs : Sifting h n fs t l r) :
    (l = .nil ∧ r = .nil ∧ h.younger t = none) ∨ ∃ y b yl yr, h.younger t = some y ∧ child l r b = .node y yl yr ∧
      ∀ z ∈ nodes l ++ nodes r, h.dueTime y ≤ h.dueTime z := by
  have hlaid := (laid_plug.1 hs.laid).2
  rcases hs.left.cases with ⟨hl, rfl⟩ | ⟨yl, ll, lr, hl, rfl, -, -⟩
  · -- without a left child there is no place for a right one
    have hleft : ¬ childPlace (place fs) false ≤ n := hlaid.2.2.1
    obtain rfl : r = .nil := hlaid.2.2.2.eq_nil (by rw [childPlace_true]; rw [childPlace_false] at hleft; omega)
    exact .inl ⟨rfl, rfl, by rw [SleepQ.younger, hl]⟩
  · right
    rcases hs.right.cases with ⟨hr, rfl⟩ | ⟨yr, rl, rr, hr, rfl, -, -⟩
    · refine ⟨yl, false, ll, lr, by rw [SleepQ.younger, hl, hr], rfl, fun z hz => hs.orderedLeft.root_le ?_⟩
      rwa [nodes_nil, List.append_nil] at hz
    · by_cases hlt : h.due yl < h.due yr
      · refine ⟨yl, false, ll, lr, by rw [SleepQ.younger, hl, hr]; exact if_pos hlt, rfl, fun z hz => ?_⟩
        rcases List.mem_append.1 hz with hz | hz
        · exact hs.orderedLeft.root_le hz
        · exact ((SleepQ.due_lt ..).1 hlt).le.trans (hs.orderedRight.root_le hz)
      · refine ⟨yr, true, rl, rr, by rw [SleepQ.younger, hl, hr]; exact if_neg hlt, rfl, fun z hz => ?_⟩
        rcases List.mem_append.1 hz with hz | hz
        · exact (not_lt.1 fun hlt' => hlt ((SleepQ.due_lt ..).2 hlt')).trans (hs.orderedLeft.root_le hz)
        · exact hs.orderedRight.root_le hz

theorem hole_ne (hs : Sifting h n fs t l r) {s : Slot ν} (hs' : s.owner = some y) (hy : y ∈ nodes (.node t l r)) :
    s ≠ hole fs := by
  rintro rfl
  exact (List.nodup_append.1 hs.below_nodup).2.2 y (owner_hole hs') y hy rfl

end Sifting

section Exchange

variable {s : Slot ν} (hy : ∀ c, Slot.child y c ≠ s) (ht : ∀ c, Slot.child t c ≠ s)
  (hb : some y = h.left t ↔ b = false)

include ht hb

theorem exchange_slot : (h.exchange t y s).2 = .child y b := by
  have hleft : (h.write s (some y)).left t = h.left t := TreeLinks.read_write_of_ne (ht false)
  simp only [SleepQ.exchange, hleft]
  cases b with
  | false => rw [if_pos (hb.2 rfl), Slot.child_false]
  | true => rw [if_neg fun heq => Bool.noConfusion (hb.1 heq), Slot.child_true]

include hy

/-- The memory after `t` has changed places with its child `y`. -/
theorem read_exchange (s' : Slot ν) : (h.exchange t y s).1.read s' =
    if s' = s then some y
    else if s' = .left t then h.left y
    else if s' = .right t then h.right y
    else if s' = .child y b then some t
    else if s' = .child y !b then h.read (.child t !b)
    else h.read s' := by
  have hl : (h.write s (some y)).left t = h.left t := TreeLinks.read_write_of_ne (ht false)
  have hlt := ht false
  have hrt := ht true
  have hly := hy false
  have hry := hy true
  simp only [SleepQ.exchange, hl]
  cases b with
  | false =>
    rw [if_pos (hb.2 rfl)]
    simp only [SleepQ.setIndex_toTreeLinks, SleepQ.write_toTreeLinks, TreeLinks.read_write, TreeLinks.right_write]
    grind [Slot.child_false, Slot.child_true, TreeLinks.read]
  | true =>
    rw [if_neg fun heq => Bool.noConfusion (hb.1 heq)]
    simp only [SleepQ.setIndex_toTreeLinks, SleepQ.write_toTreeLinks, TreeLinks.read_write]
    grind [Slot.child_false, Slot.child_true, TreeLinks.read]

end Exchange

theorem exchange_heapIndex (h : SleepQ ν) (t y : ν) (s : Slot ν) : (h.exchange t y s).1.heapIndex =
    Function.update (Function.update h.heapIndex t (h.heapIndex y)) y (h.heapIndex t) := by
  simp only [SleepQ.exchange]
  split <;> rfl

theorem exchange_kept (h : SleepQ ν) (t y : ν) (s : Slot ν) : Kept h (h.exchange t y s).1 := by
  simp only [SleepQ.exchange]
  split <;> exact ⟨rfl, rfl, rfl, rfl⟩

omit [DecidableEq ν] in
theorem nodes_children_perm (l r : BinaryTree ν) (b : Bool) :
    (nodes (child l r b) ++ nodes (child l r !b)).Perm (nodes l ++ nodes r) := by
  cases b with
  | false => exact List.Perm.refl _
  | true => exact List.perm_append_comm

namespace Sifting

variable (hs : Sifting h n fs t l r) (hc : child l r b = .node y yl yr)

section Nodes

include hc

omit [DecidableEq ν] in
theorem nodes_perm : (y :: (nodes yl ++ nodes yr) ++ nodes (child l r !b)).Perm (nodes l ++ nodes r) := by
  have hlr := nodes_children_perm l r b
  rwa [hc] at hlr

theorem exchange_perm : (nodes (plug (⟨y, b, child l r !b⟩ :: fs) (.node t yl yr))).Perm (nodes (plug fs (.node t l r))) := by
  refine (nodes_plug_node _ t yl yr).trans (List.Perm.trans ?_ (nodes_plug_node fs t l r).symm)
  refine (List.Perm.trans ?_ ((nodes_perm hc).append_left _)).cons t
  rw [List.perm_iff_count]
  intro z
  simp only [around_cons, List.count_append, List.count_cons, List.cons_append]
  omega

omit [DecidableEq ν] in
theorem mem_child : y ∈ nodes l ++ nodes r := (nodes_perm hc).mem_iff.1 List.mem_cons_self

include hs

omit [DecidableEq ν] in
/-- The two threads that change places, the threads below them and the threads around the hole are different ones. -/
theorem apart : t ≠ y ∧ (∀ z ∈ nodes yl ++ nodes yr ++ nodes (child l r !b), z ≠ y ∧ z ≠ t) ∧
    ∀ z ∈ Base.around fs, z ≠ y ∧ z ≠ t := by
  have hnodup := ((nodes_plug_node fs t l r).trans (((nodes_perm hc).symm.append_left _).cons t)).nodup_iff.1 hs.nodup
  obtain ⟨htin, hnodup⟩ := List.nodup_cons.1 hnodup
  obtain ⟨-, hnodup, hdisj⟩ := List.nodup_append.1 hnodup
  obtain ⟨hyin, -⟩ := List.nodup_cons.1 hnodup
  refine ⟨fun heq => htin (heq ▸ List.mem_append_right _ List.mem_cons_self), fun z hz => ⟨fun heq => hyin (heq ▸ hz), ?_⟩,
    fun z hz => ⟨hdisj z hz y List.mem_cons_self, ?_⟩⟩
  · rintro rfl
    exact htin (List.mem_append_right _ (List.mem_cons_of_mem _ hz))
  · rintro rfl
    exact htin (List.mem_append_left _ hz)

omit [DecidableEq ν] in
/-- The test `y == t->left`. -/
theorem left_iff : some y = h.left t ↔ b = false := by
  cases b with
  | false =>
    obtain rfl : l = .node y yl yr := hc
    exact ⟨fun _ => rfl, fun _ => hs.left.1.symm⟩
  | true =>
    refine ⟨fun heq => ?_, Bool.noConfusion⟩
    rcases hs.left.cases with ⟨hl, -⟩ | ⟨y', ll, lr, hl, rfl, -⟩
    · cases heq.trans hl
    · cases heq.trans hl
      exact absurd rfl ((hs.apart hc).2.1 y (List.mem_append_right _ List.mem_cons_self)).1

end Nodes

include hs hc

theorem read_exchanged (s : Slot ν) : (h.exchange t y (hole fs)).1.read s =
    if s = hole fs then some y
    else if s = .left t then h.left y
    else if s = .right t then h.right y
    else if s = .child y b then some t
    else if s = .child y !b then h.read (.child t !b)
    else h.read s :=
  read_exchange (fun c => hs.hole_ne (Slot.owner_child y c) (List.mem_cons_of_mem _ (mem_child hc)))
    (fun c => hs.hole_ne (Slot.owner_child t c) List.mem_cons_self) (hs.left_iff hc) s

/-- The pointers of the other threads stay as they are. -/
theorem exchange_frame {s : Slot ν} {z : ν} (hsz : s.owner = some z) (hsh : s ≠ hole fs) (hz : z ≠ y ∧ z ≠ t) :
    (h.exchange t y (hole fs)).1.read s = h.read s := by
  have hty : ∀ x, x ≠ z → ∀ c, s ≠ .child x c := by
    rintro x hx c rfl
    exact hx (Option.some.inj ((Slot.owner_child x c).symm.trans hsz))
  have hl : s ≠ .left t := hty t hz.2.symm false
  have hr : s ≠ .right t := hty t hz.2.symm true
  rw [hs.read_exchanged hc, if_neg hsh, if_neg hl, if_neg hr, if_neg (hty y hz.1.symm b), if_neg (hty y hz.1.symm !b)]

theorem exchange_held (hsub : ∀ z ∈ nodes T, z ∈ nodes yl ++ nodes yr ++ nodes (child l r !b))
    (hT : Held h.toTreeLinks p T) : Held (h.exchange t y (hole fs)).1.toTreeLinks p T := by
  have hin : ∀ z ∈ nodes T, z ∈ nodes (.node t l r) := fun z hz =>
    List.mem_cons_of_mem _ ((nodes_perm hc).mem_iff.1 (List.mem_cons_of_mem _ (hsub z hz)))
  have hz := fun z hz => (hs.apart hc).2.1 z (hsub z hz)
  exact hT.congr fun z hzT => ⟨hs.exchange_frame hc (s := .left z) rfl (hs.hole_ne rfl (hin z hzT)) (hz z hzT),
    hs.exchange_frame hc (s := .right z) rfl (hs.hole_ne rfl (hin z hzT)) (hz z hzT)⟩

/-- What the pointers of `y` are afterwards: `t`, and the other child of `t`. -/
theorem exchange_child (c : Bool) : (h.exchange t y (hole fs)).1.read (.child y c) =
    if c = b then some t else h.read (.child t !b) := by
  have hyt := (hs.apart hc).1.symm
  have hy : Slot.child y c ≠ hole fs :=
    hs.hole_ne (Slot.owner_child y c) (List.mem_cons_of_mem _ (mem_child hc))
  have hne : ∀ d, Slot.child y c ≠ .child t d := fun d heq =>
    hyt (Option.some.inj ((Slot.owner_child y c).symm.trans ((congrArg Slot.owner heq).trans (Slot.owner_child t d))))
  have hl : Slot.child y c ≠ .left t := hne false
  have hr : Slot.child y c ≠ .right t := hne true
  rw [hs.read_exchanged hc, if_neg hy, if_neg hl, if_neg hr]
  cases b <;> cases c <;> simp

theorem exchange_way : Way (h.exchange t y (hole fs)).1.toTreeLinks (⟨y, b, child l r !b⟩ :: fs) := by
  refine ⟨?_, ?_, hs.way.congr (List.nodup_append.1 hs.below_nodup).1 fun s hsh hin => ?_⟩
  · rw [hs.read_exchanged hc, if_pos rfl]
  · refine hs.exchange_held hc (fun z hz => List.mem_append_right _ hz) ?_
    rw [hs.exchange_child hc, if_neg (Bool.not_ne_self b)]
    exact hs.held_child _
  · cases hown : s.owner with
    | none =>
      cases s with
      | root =>
        rw [hs.read_exchanged hc, if_neg hsh]
        cases b <;> simp
      | left x => cases hown
      | right x => cases hown
    | some z => exact hs.exchange_frame hc hown hsh ((hs.apart hc).2.2 z (hin z hown))

theorem exchange_laid : Laid (h.exchange t y (hole fs)).1.heapIndex (· ≤ n) 1
    (plug (⟨y, b, child l r !b⟩ :: fs) (.node t yl yr)) := by
  obtain ⟨hty, hbelow, haround⟩ := hs.apart hc
  have hidx : ∀ z, z ≠ y ∧ z ≠ t → (h.exchange t y (hole fs)).1.heapIndex z = h.heapIndex z := fun z hz => by
    rw [exchange_heapIndex, Function.update_of_ne hz.1, Function.update_of_ne hz.2]
  have hlaid := hs.laid
  rw [laid_plug, ← attach_child t b l r, laid_attach] at hlaid
  obtain ⟨hfs, ht, hP, hsib, hchild⟩ := hlaid
  rw [hc, laid_node] at hchild
  obtain ⟨hy, hP', hyl, hyr⟩ := hchild
  rw [plug_cons, laid_plug, laid_attach, laid_node]
  refine ⟨hfs.congr_idx fun z hz => hidx z (haround z hz), ?_, hP, ?_, ?_, hP', ?_, ?_⟩
  · rw [exchange_heapIndex, Function.update_self, ht]
  · exact hsib.congr_idx fun z hz => hidx z (hbelow z (List.mem_append_right _ hz))
  · rw [exchange_heapIndex, Function.update_of_ne hty, Function.update_self, hy]
  · exact hyl.congr_idx fun z hz => hidx z (hbelow z (List.mem_append_left _ (List.mem_append_left _ hz)))
  · exact hyr.congr_idx fun z hz => hidx z (hbelow z (List.mem_append_left _ (List.mem_append_right _ hz)))

/-- **A turn of the sifting**: `y`, the child of `t` on the side `b`, comes up. -/
theorem exchange (hle : ∀ z ∈ nodes l ++ nodes r, h.dueTime y ≤ h.dueTime z) (hlt : h.dueTime y < h.dueTime t) :
    Sifting (h.exchange t y (hole fs)).1 n (⟨y, b, child l r !b⟩ :: fs) t yl yr := by
  have hord : Ordered h.dueTime (.node y yl yr) := by
    have hlr : Ordered h.dueTime (child l r b) := by
      cases b with
      | false => exact hs.orderedLeft
      | true => exact hs.orderedRight
    rwa [hc] at hlr
  have hsib : Ordered h.dueTime (child l r !b) := by
    cases b with
    | false => exact hs.orderedRight
    | true => exact hs.orderedLeft
  have hdue : (h.exchange t y (hole fs)).1.dueTime = h.dueTime :=
    funext fun z => congrArg (fun due => (due z).toNat) (exchange_kept h t y (hole fs)).due
  have hyt : y ∈ nodes (.node t l r) := List.mem_cons_of_mem _ (mem_child hc)
  have hchild : Held h.toTreeLinks (h.read (.child t b)) (.node y yl yr) := hc ▸ hs.held_child b
  have ht : ∀ c, Slot.child t c ≠ hole fs := fun c => hs.hole_ne (Slot.owner_child t c) List.mem_cons_self
  have hin : ∀ z ∈ nodes yl ++ nodes yr ++ nodes (child l r !b), z ∈ nodes l ++ nodes r := fun z hz =>
    (nodes_perm hc).mem_iff.1 (List.mem_cons_of_mem _ hz)
  refine ⟨hs.exchange_way hc, ?_, ?_, ?_, hs.exchange_laid hc, ?_, ?_, ?_, ?_, (exchange_perm hc).nodup_iff.2 hs.nodup⟩
  · rw [hole_cons, hs.exchange_child hc, if_pos rfl]
  · have hl : Slot.left t ≠ hole fs := ht false
    have hread : (h.exchange t y (hole fs)).1.left t = h.left y := by simpa [hl] using hs.read_exchanged hc (.left t)
    rw [hread]
    exact hs.exchange_held hc (fun z hz => List.mem_append_left _ (List.mem_append_left _ hz)) hchild.2.1
  · have hr : Slot.right t ≠ hole fs := ht true
    have hread : (h.exchange t y (hole fs)).1.right t = h.right y := by simpa [hr] using hs.read_exchanged hc (.right t)
    rw [hread]
    exact hs.exchange_held hc (fun z hz => List.mem_append_left _ (List.mem_append_right _ hz)) hchild.2.2
  · rw [hdue]
    exact ⟨fun z hz => hle z (hin z (List.mem_append_right _ hz)), hsib, fun a ha => hs.above a ha y hyt, hs.around⟩
  · rw [hdue]
    intro a ha z hz
    rcases List.mem_cons.1 ha with rfl | ha
    · rcases List.mem_cons.1 hz with rfl | hz
      · exact hlt.le
      · exact hord.1 z hz
    · refine hs.above a ha z ?_
      rcases List.mem_cons.1 hz with rfl | hz
      · exact List.mem_cons_self
      · exact List.mem_cons_of_mem _ (hin z (List.mem_append_left _ hz))
  · rw [hdue]
    exact hord.2.1
  · rw [hdue]
    exact hord.2.2

end Sifting

/-- **The loop that sifts ends with a heap** of the same threads. -/
theorem sift_spec (hs : Sifting h n fs t l r) (hsize : h.sleepqSize = n) {fuel : Nat}
    (hfuel : (nodes l ++ nodes r).length < fuel) : ∃ h' T', Loop.turns (SleepQ.siftTurn t) fuel (h, hole fs) = some h' ∧
      IsHeap h' T' ∧ (nodes T').Perm (nodes (plug fs (.node t l r))) ∧ Kept h h' := by
  induction fuel generalizing h fs l r with
  | zero => cases hfuel
  | succ fuel ih =>
    rcases hs.younger with ⟨rfl, rfl, hy⟩ | ⟨y, b, yl, yr, hy, hc, hle⟩
    · have hstop : SleepQ.siftTurn t (h, hole fs) = .inr h := by rw [SleepQ.siftTurn, hy]
      exact ⟨h, _, Loop.turns_succ_inr hstop, hs.isHeap hsize nofun, List.Perm.refl _, Kept.refl h⟩
    · by_cases hlt : h.due y < h.due t
      · have hturn : SleepQ.siftTurn t (h, hole fs) = .inl ((h.exchange t y (hole fs)).1, hole (⟨y, b, child l r !b⟩ :: fs)) := by
          rw [SleepQ.siftTurn, hy]
          refine (if_pos hlt).trans (congrArg Sum.inl (Prod.ext rfl ?_))
          exact exchange_slot (fun c => hs.hole_ne (Slot.owner_child t c) List.mem_cons_self) (hs.left_iff hc)
        have hkept := exchange_kept h t y (hole fs)
        have hlen := (Sifting.nodes_perm hc).length_eq
        simp only [List.length_append, List.length_cons] at hlen hfuel
        obtain ⟨h', T', hrun, hT, hperm, hk⟩ := ih (hs.exchange hc hle ((SleepQ.due_lt ..).1 hlt))
          (hkept.sleepqSize.trans hsize) (by rw [List.length_append]; omega)
        exact ⟨h', T', (Loop.turns_succ_inl hturn).trans hrun, hT, hperm.trans (Sifting.exchange_perm hc), hkept.trans hk⟩
      · have hstop : SleepQ.siftTurn t (h, hole fs) = .inr h := by
          rw [SleepQ.siftTurn, hy]
          exact if_neg hlt
        have hty : h.dueTime t ≤ h.dueTime y := not_lt.1 fun hlt' => hlt ((SleepQ.due_lt ..).2 hlt')
        exact ⟨h, _, Loop.turns_succ_inr hstop, hs.isHeap hsize fun z hz => hty.trans (hle z hz), List.Perm.refl _,
          Kept.refl h⟩

/-! ## The whole deletion -/

/-- The carried thread gets the children of the deleted one. -/
theorem sifting_of_placed {h₀ : SleepQ ν} {S₀ : BinaryTree ν} (hput : Placed h₀ (· ≤ n) [] S₀ x h fs (.node thread l r) y) :
    Sifting ((h.write (.left y) (h.left thread)).write (.right y) (h.right thread)) n fs y l r := by
  have hh := hput.hole
  obtain ⟨p, hheld⟩ := hput.held
  have hl : Slot.left y ≠ hole fs := hh.hole_ne rfl (.inl rfl)
  have hr : Slot.right y ≠ hole fs := hh.hole_ne rfl (.inl rfl)
  have hm : ∀ s, s ≠ .left y → s ≠ .right y → s ≠ hole fs →
      ((h.toTreeLinks.write (.left y) (h.left thread)).write (.right y) (h.right thread)).read s = h.read s := by
    intro s hsl hsr _
    rw [TreeLinks.read_write_of_ne hsr, TreeLinks.read_write_of_ne hsl]
  obtain ⟨haround, hbel⟩ := laid_plug.1 hh.laid
  obtain ⟨ofs, ole, oS⟩ := ordered_plug.1 hh.ordered
  refine ⟨hh.way_congr hm, ?_, ?_, ?_, ?_, ofs, fun a ha z hz => ?_, oS.2.1, oS.2.2, ?_⟩
  · simp only [SleepQ.write_toTreeLinks]
    rw [TreeLinks.read_write_of_ne hr.symm, TreeLinks.read_write_of_ne hl.symm, hput.read]
  · have hleft : ((h.write (.left y) (h.left thread)).write (.right y) (h.right thread)).left y = h.left thread := by
      simp [TreeLinks.left_write]
    rw [hleft]
    exact hh.held_congr hm hheld.2.1 fun z hz => List.mem_cons_of_mem _ (List.mem_append_left _ hz)
  · have hright : ((h.write (.left y) (h.left thread)).write (.right y) (h.right thread)).right y = h.right thread := by
      simp [TreeLinks.right_write]
    rw [hright]
    exact hh.held_congr hm hheld.2.2 fun z hz => List.mem_cons_of_mem _ (List.mem_append_right _ hz)
  · exact laid_plug.2 ⟨haround, hput.heapIndex, hbel.2.1, hbel.2.2.1, hbel.2.2.2⟩
  · rcases List.mem_cons.1 hz with rfl | hz
    · exact hh.above_le a ha
    · exact ole a ha z (List.mem_cons_of_mem _ hz)
  · exact (List.nodup_cons.1 (replace_perm.nodup_iff.2 hh.nodup)).2

/-- A thread that has been unlinked has no children. -/
def SleepQ.clear (h : SleepQ ν) (thread : ν) : SleepQ ν := (h.write (.right thread) none).write (.left thread) none

theorem IsHeap.clear (hT : IsHeap h T) (hx : x ∉ nodes T) : IsHeap (h.clear x) T := by
  refine hT.congr rfl rfl fun z hz => ⟨?_, ?_, rfl, rfl⟩
  all_goals
    have hne : x ≠ z := fun heq => hx (heq ▸ hz)
    simp [SleepQ.clear, TreeLinks.left_write, TreeLinks.right_write, hne]

/-- **The last thread takes the place of another one**: insertion at that place and sifting. -/
theorem insert_sift (hT : IsHeap h T) (ht : t ∉ nodes T) (hthread : thread ∈ nodes T) :
    ∃ h₁ s y h' T', (h.setIndex t (h.heapIndex thread)).heapInsert t = some (h₁, s) ∧ h₁.read s = some y ∧
      Loop.turns (SleepQ.siftTurn y) (h₁.sleepqSize + 1)
        ((h₁.write (.left y) (h₁.left thread)).write (.right y) (h₁.right thread), s) = some h' ∧
      IsHeap h' T' ∧ (thread :: nodes T').Perm (t :: nodes T) ∧ Kept h h' := by
  have hne : ∀ z ∈ nodes T, z ≠ t := fun z hz heq => ht (heq ▸ hz)
  have hidx : (h.setIndex t (h.heapIndex thread)).heapIndex t = h.heapIndex thread := Function.update_self ..
  have hat : (h.setIndex t (h.heapIndex thread)).heapIndex thread = h.heapIndex thread :=
    Function.update_of_ne (hne thread hthread) ..
  have hT₂ : IsHeap (h.setIndex t (h.heapIndex thread)) T :=
    hT.congr rfl rfl fun z hz => ⟨rfl, rfl, Function.update_of_ne (hne z hz) .., rfl⟩
  have hplace := hT.laid.under hthread
  have hpos := hplace.1.le
  have hle : h.heapIndex thread ≤ h.sleepqSize := hplace.2
  obtain ⟨h₁, fs, S, y, hrun, hfs, hput, hkeep⟩ := heapInsert_spec (hT₂.hole ht) hT₂.held
    (lt_of_lt_of_eq hpos hidx.symm) fun k _ hk => (lt_of_lt_of_eq hk hidx).le.trans hle
  obtain ⟨hin, hidx₁⟩ := hkeep thread hthread (hat.trans hidx.symm)
  rw [hidx] at hfs hidx₁
  -- the thread that stands at the target is the one to delete
  obtain ⟨d, l, r, rfl, -⟩ := hput.hole.laid_below.node (hfs ▸ hle : place fs ≤ h.sleepqSize)
  obtain rfl : thread = d := hput.hole.laid_below.root_eq (place_pos fs) hin (hidx₁.trans hfs.symm)
  have hs := sifting_of_placed hput
  have hperm : (thread :: nodes (plug fs (.node y l r))).Perm (t :: nodes T) := replace_perm.trans hput.perm
  have hlen : (nodes l ++ nodes r).length < h₁.sleepqSize + 1 := by
    rw [hput.kept.sleepqSize]
    have hsize := (hs.laid.length hs.nodup).symm.trans (nodes_plug_node fs y l r).length_eq
    simp only [List.length_cons, List.length_append, SleepQ.setIndex_sleepqSize] at hsize ⊢
    omega
  obtain ⟨h', T', hturns, hT', hperm', hk⟩ := sift_spec hs hput.kept.sleepqSize hlen
  have hk₁ : Kept h h₁ := ⟨hput.kept.due, hput.kept.sleepqSize, hput.kept.lastClock, hput.kept.onSleepq⟩
  have hk₂ : Kept h₁ ((h₁.write (.left y) (h₁.left thread)).write (.right y) (h₁.right thread)) := ⟨rfl, rfl, rfl, rfl⟩
  exact ⟨h₁, hole fs, y, h', T', hrun, hput.read, hturns, hT', (hperm'.cons thread).trans hperm,
    (hk₁.trans hk₂).trans hk⟩

/-- **`heap_delete` takes the thread out of the heap.** -/
theorem heapDelete_spec (hT : IsHeap h T) (hthread : thread ∈ nodes T) :
    ∃ h' T', h.heapDelete thread = some h' ∧ IsHeap h' T' ∧ (thread :: nodes T').Perm (nodes T) ∧ h'.due = h.due ∧
      h'.lastClock = h.lastClock ∧ h'.onSleepq = h.onSleepq := by
  have hpos : 0 < h.sleepqSize := by
    have hP := (hT.laid.under hthread).2
    have hle := (hT.laid.under hthread).1.le
    omega
  obtain ⟨s, t, T₁, hlast, hread, hT₁, hperm⟩ := unlink_last hT hpos
  have hnodup : (t :: nodes T₁).Nodup := hperm.nodup_iff.2 hT.nodup
  obtain ⟨ht, -⟩ := List.nodup_cons.1 hnodup
  by_cases heq : t = thread
  · subst heq
    refine ⟨_, T₁, ?_, hT₁.clear ht, hperm, rfl, rfl, rfl⟩
    simp only [SleepQ.heapDelete, hlast, Option.bind_eq_bind, Option.bind_some, hread, if_true]
    rfl
  · have hin : thread ∈ nodes T₁ := (List.mem_cons.1 (hperm.mem_iff.2 hthread)).resolve_left fun h => heq h.symm
    obtain ⟨h₁, s', y, h', T', hins, hy, hturns, hT', hperm', hk⟩ := insert_sift hT₁ ht hin
    have hnodup' : (thread :: nodes T').Nodup := hperm'.nodup_iff.2 hnodup
    refine ⟨h'.clear thread, T', ?_, hT'.clear (List.nodup_cons.1 hnodup').1, hperm'.trans hperm, hk.due, hk.lastClock,
      hk.onSleepq⟩
    simp only [SleepQ.heapDelete, hlast, Option.bind_eq_bind, Option.bind_some, hread, if_neg heq]
    refine Option.bind_eq_some_iff.2 ⟨_, hins, Option.bind_eq_some_iff.2 ⟨y, hy, ?_⟩⟩
    exact Option.bind_eq_some_iff.2 ⟨h', hturns, rfl⟩

/-- **`_st_del_sleep_q` takes the thread out of the heap.** -/
theorem delSleepQ_spec (hT : IsHeap h T) (hthread : thread ∈ nodes T) :
    ∃ h' T', h.delSleepQ thread = some h' ∧ IsHeap h' T' ∧ (thread :: nodes T').Perm (nodes T) ∧ h'.due = h.due ∧
      h'.lastClock = h.lastClock ∧ h'.onSleepq = Function.update h.onSleepq thread false := by
  obtain ⟨h', T', hrun, hT', hperm, hdue, hclock, hflag⟩ := heapDelete_spec hT hthread
  refine ⟨{ h' with onSleepq := Function.update h'.onSleepq thread false }, T', ?_,
    hT'.congr rfl rfl fun _ _ => ⟨rfl, rfl, rfl, rfl⟩, hperm, hdue, hclock, by rw [hflag]⟩
  rw [SleepQ.delSleepQ, hrun]
  rfl

end ToolLib.StateThreads
