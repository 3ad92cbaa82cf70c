import Mathlib
import ToolLib.Base.System
import ToolLib.Common.OSHeap

/-!
# A timer heap over a whole run

`Insert`, `ExtractMin` and `Remove` in any order (OSHeap.cpp), next to the elements that are inserted and not yet removed.
`Lawful` says what a heap should be like at any time: an ordered array of exactly these elements. `Remove` lets the last leaf
sink from the hole and never rise, so it breaks the order exactly when the leaf does not fit below the parent of the hole
(`fits_of_ordered`); all other operations keep it.

The sizes and positions are `unsigned int`s, and the operations of `Unsigned` compute with them. The size of a full array is
doubled, which wraps from 2147483648 on: the new array is then smaller than what it should hold. A child of a position from
2147483648 on wraps as well, so the loop of `Extract` is that of `OSHeap` while the heap has no such position.
-/

namespace ToolLib.Common.OSHeap

open ToolLib.Base

variable {τ : Type*} [DecidableEq τ]

/-! ## The operations, with their `unsigned int`s -/

/-- An `unsigned int`. -/
def unsigned (n : Nat) : Nat := n % 4294967296

theorem unsigned_eq {n : Nat} (hn : n < 4294967296) : unsigned n = n := Nat.mod_eq_of_lt hn

namespace Unsigned

/-- The constructor. -/
def new (inStartSize : UInt32) : OSHeap τ := OSHeap.new inStartSize.toNat

/-- A full array is copied to one of twice its size. -/
def grow (h : OSHeap τ) : OSHeap τ :=
  if h.fFreeIndex = h.fArraySize then
    { h with fHeap := fun i => if i < h.fFreeIndex then h.fHeap i else none, fArraySize := unsigned (h.fArraySize * 2) }
  else h

def insert (h : OSHeap τ) (inElem : OSHeapElem τ) : OSHeap τ :=
  let h := grow h
  { h with
    fHeap := bubbleUp h.fFreeIndex (Function.update h.fHeap h.fFreeIndex (some inElem)) h.fFreeIndex
    fFreeIndex := unsigned (h.fFreeIndex + 1)
    fCurrentHeap := Function.update h.fCurrentHeap inElem.2 true }

/-- The loop of `Extract`, at `parent`. -/
def heapify (fFreeIndex : Nat) : Nat → (Nat → Option (OSHeapElem τ)) → Nat → Nat → Option (OSHeapElem τ)
  | 0, a, _ => a
  | fuel + 1, a, parent =>
    if parent < fFreeIndex then
      let leftChild := unsigned (parent * 2)
      let rightChild := unsigned (unsigned (parent * 2) + 1)
      let greatest := choose fFreeIndex a (choose fFreeIndex a parent leftChild) rightChild
      if greatest = parent then a else heapify fFreeIndex fuel (swapped a parent greatest) greatest
    else a

def extract (h : OSHeap τ) (inIndex : Nat) : OSHeap τ × Option (OSHeapElem τ) :=
  if h.fFreeIndex ≤ inIndex then (h, none)
  else
    match h.fHeap inIndex with
    | none => (h, none)
    | some victim =>
      let fFreeIndex := h.fFreeIndex - 1
      ({ h with
        fHeap := heapify fFreeIndex fFreeIndex (Function.update h.fHeap inIndex (h.fHeap fFreeIndex)) inIndex
        fFreeIndex := fFreeIndex
        fCurrentHeap := Function.update h.fCurrentHeap victim.2 false }, some victim)

def extractMin (h : OSHeap τ) : OSHeap τ × Option (OSHeapElem τ) := extract h 1

/-- `Remove` of the element of the task `t`. -/
def remove (h : OSHeap τ) (t : τ) : OSHeap τ × Option (OSHeapElem τ) :=
  match h.locate t with
  | none => (h, none)
  | some theIndex => extract h theIndex

section Small

variable {h : OSHeap τ} {x : OSHeapElem τ} {t : τ} {i n : Nat}

omit [DecidableEq τ] in
theorem grow_eq (hroom : h.fFreeIndex = h.fArraySize → h.fArraySize < 2147483648) : grow h = h.grow := by
  rw [grow, OSHeap.grow]
  split
  next hfull =>
    have hlt := hroom hfull
    rw [unsigned_eq (by omega)]
  next => rfl

/-- `Insert` into an array that has room, or can be doubled. -/
theorem insert_eq (hsize : h.fFreeIndex ≤ h.fArraySize ∧ h.fArraySize < 4294967296)
    (hroom : h.fFreeIndex = h.fArraySize → h.fArraySize < 2147483648) : insert h x = h.insert x := by
  have hfree : h.grow.fFreeIndex = h.fFreeIndex := by
    rw [OSHeap.grow]
    split <;> rfl
  have hlt : h.fFreeIndex + 1 < 4294967296 := by
    by_cases hfull : h.fFreeIndex = h.fArraySize
    · have hhalf := hroom hfull
      omega
    · omega
  rw [insert, OSHeap.insert, grow_eq hroom, hfree, unsigned_eq hlt]

omit [DecidableEq τ] in
/-- Positions up to 2147483647 have their children. -/
theorem heapify_eq (hn : n ≤ 2147483648) {fuel p : Nat} {a : Nat → Option (OSHeapElem τ)} :
    heapify n fuel a p = OSHeap.heapify n fuel a p := by
  induction fuel generalizing a p with
  | zero => rfl
  | succ fuel ih =>
    rw [heapify, OSHeap.heapify]
    split
    next hp =>
      have hleft : unsigned (p * 2) = p * 2 := unsigned_eq (by omega)
      have hright : unsigned (p * 2 + 1) = p * 2 + 1 := unsigned_eq (by omega)
      simp only [hleft, hright, ih]
    next => rfl

/-- `Extract` from a heap of at most 2147483648 elements. -/
theorem extract_eq (hfew : h.fFreeIndex ≤ 2147483649) : extract h i = h.extract i := by
  have hloop : ∀ (a : Nat → Option (OSHeapElem τ)) (p : Nat), heapify (h.fFreeIndex - 1) (h.fFreeIndex - 1) a p =
      OSHeap.heapify (h.fFreeIndex - 1) (h.fFreeIndex - 1) a p := fun _ _ => heapify_eq (by omega)
  rw [extract, OSHeap.extract]
  split
  · rfl
  · cases h.fHeap i with
    | none => rfl
    | some victim => simp only [hloop]

theorem extractMin_eq (hfew : h.fFreeIndex ≤ 2147483649) : extractMin h = h.extractMin := extract_eq hfew

theorem remove_eq (hfew : h.fFreeIndex ≤ 2147483649) : remove h t = h.remove t := by
  rw [remove, OSHeap.remove]
  cases h.locate t with
  | none => rfl
  | some i => exact extract_eq hfew

/-- What `Extract` returns does not depend on its loop. -/
theorem extract_snd : (extract h i).2 = (h.extract i).2 := by
  rw [extract, OSHeap.extract]
  split
  · rfl
  · cases h.fHeap i <;> rfl

theorem remove_snd : (remove h t).2 = (h.remove t).2 := by
  rw [remove, OSHeap.remove]
  cases h.locate t with
  | none => rfl
  | some i => exact extract_snd

end Small

end Unsigned

/-! ## A heap and its elements -/

/-- A call of the heap; elements are named by their tasks. -/
inductive Call (τ : Type*)
  | insert (fValue : Int) (t : τ)
  | extractMin
  | remove (t : τ)

/-- A heap, and the values of the elements that are inserted and not yet removed. -/
structure Tracked (τ : Type*) where
  heap : OSHeap τ
  live : τ → Option Int

namespace Tracked

/-- A new heap. -/
def new (inStartSize : UInt32) : Tracked τ := ⟨Unsigned.new inStartSize, fun _ => none⟩

/-- One call; an element is inserted when it is not in the heap. -/
def step (s : Tracked τ) : Call τ → Option (Tracked τ)
  | .insert fValue t =>
    if s.live t = none then some ⟨Unsigned.insert s.heap (fValue, t), Function.update s.live t (some fValue)⟩ else none
  | .extractMin =>
    let r := Unsigned.extractMin s.heap
    some ⟨r.1, match r.2 with
      | none => s.live
      | some x => Function.update s.live x.2 none⟩
  | .remove t => some ⟨(Unsigned.remove s.heap t).1, Function.update s.live t none⟩

/-- **What a heap should be like** at any time. -/
structure Lawful (s : Tracked τ) : Prop where
  room : s.heap.fFreeIndex ≤ s.heap.fArraySize
  filled : ∀ i, 1 ≤ i ∧ i < s.heap.fFreeIndex → ∃ x, s.heap.fHeap i = some x ∧ s.live x.2 = some x.1
  once : ∀ t d, s.live t = some d → ∃! i, (1 ≤ i ∧ i < s.heap.fFreeIndex) ∧ s.heap.fHeap i = some (d, t)
  current : ∀ t, s.heap.fCurrentHeap t = true ↔ s.live t ≠ none
  ordered : ∀ i x y, 2 ≤ i → i < s.heap.fFreeIndex → s.heap.fHeap (i / 2) = some x → s.heap.fHeap i = some y → x.1 ≤ y.1
  peekMin_some : ∀ x, s.heap.peekMin = some x → s.live x.2 = some x.1 ∧ ∀ t d, s.live t = some d → x.1 ≤ d
  peekMin_none : s.heap.peekMin = none → ∀ t, s.live t = none
  extractMin : (Unsigned.extractMin s.heap).2 = s.heap.peekMin
  remove_some : ∀ t d, s.live t = some d → (Unsigned.remove s.heap t).2 = some (d, t)
  remove_none : ∀ t, s.live t = none → Unsigned.remove s.heap t = (s.heap, none)

/-- A full array can be doubled, and the last leaf fits in the hole that the call makes. -/
def LeafFits (s : Tracked τ) : Call τ → Prop
  | .insert _ _ => s.heap.fFreeIndex = s.heap.fArraySize → s.heap.fArraySize < 2147483648
  | .extractMin => True
  | .remove t => ∀ i, s.heap.locate t = some i → s.heap.Fits i

/-- The call takes an element out of a heap of at most 2147483648 of them. -/
def Few (s : Tracked τ) : Call τ → Prop
  | .insert _ _ => True
  | _ => s.heap.fFreeIndex ≤ 2147483649

instance (s : Tracked τ) (a : Call τ) : Decidable (Few s a) :=
  match a with
  | .insert _ _ => isTrue trivial
  | .extractMin => inferInstanceAs (Decidable (s.heap.fFreeIndex ≤ 2147483649))
  | .remove _ => inferInstanceAs (Decidable (s.heap.fFreeIndex ≤ 2147483649))

instance (s : Tracked τ) (a : Call τ) : Decidable (LeafFits s a) :=
  match a with
  | .insert _ _ => inferInstanceAs (Decidable (s.heap.fFreeIndex = s.heap.fArraySize → s.heap.fArraySize < 2147483648))
  | .extractMin => isTrue trivial
  | .remove t =>
    match hl : s.heap.locate t with
    | none => isTrue fun i hi => by rw [hl] at hi; cases hi
    | some i =>
      decidable_of_iff (2 ≤ i → i < s.heap.fFreeIndex - 1 →
          less (s.heap.fHeap (s.heap.fFreeIndex - 1)) (s.heap.fHeap (i / 2)) = false)
        ⟨fun hfit j hj => by rw [hl] at hj; cases hj; exact hfit, fun hfit => hfit i hl⟩

end Tracked

/-! ## The calls, by the elements -/

variable {h : OSHeap τ} {x y : OSHeapElem τ} {t : τ} {i : Nat}

theorem extractMin_none (hv : h.Valid) (hx : h.peekMin = none) : h.extractMin = (h, none) := by
  have hfree : h.fFreeIndex ≤ 1 := by
    by_contra hlt
    obtain ⟨y, hy⟩ := hv.filled 1 (by omega)
    exact hv.peekMin_none (x := y) hx ⟨1, by omega, hy⟩
  rw [extractMin, extract, if_pos hfree]

theorem remove_some {d : Int} (hv : h.Valid) (ht : h.Holds (d, t)) :
    ∃ i, h.locate t = some i ∧ (1 ≤ i ∧ i < h.fFreeIndex) ∧ h.fHeap i = some (d, t) ∧ h.remove t = h.extract i := by
  cases hl : h.locate t with
  | none => exact absurd ht (locate_none hl d)
  | some i =>
    obtain ⟨hi, d', hd'⟩ := locate_some hl
    have he := hv.unique ht ⟨i, hi, hd'⟩ rfl
    refine ⟨i, rfl, hi, by rw [hd', ← he], ?_⟩
    rw [remove, hl]

theorem remove_none (ht : ∀ d, ¬ h.Holds (d, t)) : h.locate t = none ∧ h.remove t = (h, none) := by
  cases hl : h.locate t with
  | none => exact ⟨rfl, by rw [remove, hl]⟩
  | some i =>
    obtain ⟨hi, d, hd⟩ := locate_some hl
    exact absurd ⟨i, hi, hd⟩ (ht d)

omit [DecidableEq τ] in
/-- The loop of `Extract` stops at once, when the leaf in the hole is not above the children of the hole. -/
theorem heapify_stop {a : Nat → Option (OSHeapElem τ)} {n fuel p : Nat} (hp : p < n)
    (hchild : ∀ j, j / 2 = p → j < n → less (a j) (a p) = false) : heapify n (fuel + 1) a p = a := by
  have hstay : ∀ j, j / 2 = p → choose n a p j = p := by
    intro j hj
    refine if_neg fun hless => ?_
    rw [hchild j hj hless.1] at hless
    exact Bool.false_ne_true hless.2
  simp only [heapify]
  rw [if_pos hp, hstay (p * 2) (by omega), hstay (p * 2 + 1) (by omega), if_pos rfl]

/-- **A leaf that does not fit breaks the order**: it stays in the hole, below its parent there. -/
theorem fits_of_ordered (ho : h.Ordered) (hv : h.Valid) (hi : 1 ≤ i ∧ i < h.fFreeIndex) (hx : h.fHeap i = some x)
    (hafter : ∀ j y z, 2 ≤ j → j < (h.extract i).1.fFreeIndex → (h.extract i).1.fHeap (j / 2) = some y →
      (h.extract i).1.fHeap j = some z → y.1 ≤ z.1) : h.Fits i := by
  intro h2 hlast
  obtain ⟨leaf, hleaf⟩ := hv.filled (h.fFreeIndex - 1) (by omega)
  obtain ⟨parent, hparent⟩ := hv.filled (i / 2) (by omega)
  rw [hleaf, hparent]
  by_contra hless
  have hlt : leaf.1 < parent.1 := by simpa [less] using hless
  -- the elements below the hole are not below its parent, so the leaf stays where it is put
  have hchild : ∀ j, j / 2 = i → j < h.fFreeIndex - 1 → less (Function.update h.fHeap i (some leaf) j)
      (Function.update h.fHeap i (some leaf) i) = false := by
    intro j hj hjn
    obtain ⟨child, hchild⟩ := hv.filled j (by omega)
    have hup := ho i h2
    have hdown := ho j (by omega)
    rw [hj, values_of_lt (by omega), values_of_lt (by omega), hx, hchild] at hdown
    rw [values_of_lt (by omega), values_of_lt (by omega), hparent, hx] at hup
    have hle : parent.1 ≤ child.1 := WithTop.coe_le_coe.1 (hup.trans hdown)
    rw [Function.update_self, Function.update_of_ne (by omega), hchild]
    simp only [less, decide_eq_false_iff_not, not_lt]
    omega
  obtain ⟨fuel, hfuel⟩ : ∃ fuel, h.fFreeIndex - 1 = fuel + 1 := ⟨h.fFreeIndex - 2, by omega⟩
  have hheap : (h.extract i).1.fHeap = Function.update h.fHeap i (some leaf) := by
    rw [extract_eq hi hx, ← hleaf]
    rw [← hleaf] at hchild
    show heapify (h.fFreeIndex - 1) (h.fFreeIndex - 1) _ i = _
    rw [hfuel]
    exact heapify_stop (by omega) (by simpa [hfuel] using hchild)
  have hfree : (h.extract i).1.fFreeIndex = h.fFreeIndex - 1 := by rw [extract_eq hi hx]
  have hbad := hafter i parent leaf h2 (by rw [hfree]; exact hlast)
    (by rw [hheap, Function.update_of_ne (by omega), hparent]) (by rw [hheap, Function.update_self])
  omega

/-! ## Runs -/

namespace Tracked

variable {s s' : Tracked τ} {a : Call τ} {calls : List (Call τ)} {n : UInt32}

/-- An ordered array of distinct elements, which are those inserted and not yet removed. -/
structure Kept (s : Tracked τ) : Prop where
  valid : s.heap.Valid
  ordered : s.heap.Ordered
  holds : ∀ x, s.heap.Holds x ↔ s.live x.2 = some x.1
  size : s.heap.fArraySize < 4294967296

omit [DecidableEq τ] in
theorem kept_new (n : UInt32) : Kept (new n : Tracked τ) where
  valid := valid_new n.toNat
  ordered := ordered_new n.toNat
  size := by
    have hlt := n.toNat_lt
    show (if n.toNat < 2 then 2 else n.toNat) < 4294967296
    split <;> omega
  holds x := by
    constructor
    · rintro ⟨i, hi, -⟩
      have hlt : i < 1 := hi.2
      omega
    · intro h
      cases h

omit [DecidableEq τ] in
theorem Kept.not_holds (h : Kept s) (ht : s.live t = none) (d : Int) : ¬ s.heap.Holds (d, t) := by
  rw [h.holds, ht]
  simp

/-- `Insert`. -/
theorem Kept.insert (h : Kept s) {d : Int} (ht : s.live t = none)
    (hroom : s.heap.fFreeIndex = s.heap.fArraySize → s.heap.fArraySize < 2147483648) :
    Kept ⟨s.heap.insert (d, t), Function.update s.live t (some d)⟩ := by
  refine ⟨h.valid.insert (h.not_holds ht), h.ordered.insert h.valid, fun x => ?_, ?_⟩
  rotate_left
  · have hsize := h.size
    show s.heap.grow.fArraySize < 4294967296
    rw [OSHeap.grow]
    split
    next hfull =>
      have hlt := hroom hfull
      show s.heap.fArraySize * 2 < 4294967296
      omega
    next => exact hsize
  show (s.heap.insert (d, t)).Holds x ↔ Function.update s.live t (some d) x.2 = some x.1
  rw [holds_insert h.valid, h.holds]
  by_cases hx : x.2 = t
  · rw [hx, Function.update_self, ht]
    constructor
    · rintro (rfl | hno)
      · rfl
      · cases hno
    · intro hd
      exact Or.inl (Prod.ext (Option.some.inj hd).symm hx)
  · rw [Function.update_of_ne hx]
    refine ⟨fun hor => hor.resolve_left ?_, Or.inr⟩
    rintro rfl
    exact hx rfl

/-- An element is taken out, and its leaf fits. -/
theorem Kept.extract (h : Kept s) (hi : 1 ≤ i ∧ i < s.heap.fFreeIndex) (hx : s.heap.fHeap i = some x)
    (hfit : s.heap.Fits i) : Kept ⟨(s.heap.extract i).1, Function.update s.live x.2 none⟩ := by
  refine ⟨h.valid.extract hi hx, h.ordered.extract h.valid hi hx hfit, fun y => ?_, ?_⟩
  rotate_left
  · show (s.heap.extract i).1.fArraySize < 4294967296
    rw [extract_eq hi hx]
    exact h.size
  show (s.heap.extract i).1.Holds y ↔ Function.update s.live x.2 none y.2 = some y.1
  rw [holds_extract h.valid hi hx, h.holds]
  by_cases hy : y.2 = x.2
  · rw [hy, Function.update_self]
    exact ⟨fun hno => absurd rfl hno.2, fun hno => by cases hno⟩
  · rw [Function.update_of_ne hy, and_iff_left hy]

/-- **One call** keeps the heap, when its leaf fits. -/
theorem kept_step (h : Kept s) (hfew : Few s a) (hfit : LeafFits s a) (hs : step s a = some s') : Kept s' := by
  cases a with
  | insert d t =>
    simp only [Tracked.step] at hs
    split at hs
    next ht =>
      cases hs
      rw [Unsigned.insert_eq ⟨h.valid.size.2, h.size⟩ hfit]
      exact h.insert ht hfit
    next => cases hs
  | extractMin =>
    simp only [Tracked.step, Unsigned.extractMin_eq hfew] at hs
    cases hs
    cases hpeek : s.heap.peekMin with
    | none =>
      rw [OSHeap.extractMin_none h.valid hpeek]
      exact h
    | some x =>
      obtain ⟨hfree, hroot, -, -⟩ := h.ordered.peekMin hpeek
      have hi : 1 ≤ 1 ∧ 1 < s.heap.fFreeIndex := ⟨le_rfl, hfree⟩
      have hkept := h.extract hi hroot fun h2 => absurd h2 (by omega)
      have hret : s.heap.extractMin.2 = some x := by rw [OSHeap.extractMin, extract_eq hi hroot]
      rw [hret]
      exact hkept
  | remove t =>
    simp only [Tracked.step, Unsigned.remove_eq hfew] at hs
    cases hs
    cases ht : s.live t with
    | none =>
      rw [(OSHeap.remove_none (h.not_holds ht)).2, Function.update_eq_self_iff.2 ht.symm]
      exact h
    | some d =>
      obtain ⟨i, hl, hi, hx, hrem⟩ := OSHeap.remove_some h.valid ((h.holds (d, t)).2 ht)
      rw [hrem]
      exact h.extract hi hx (hfit i hl)

omit [DecidableEq τ] in
/-- Heap order, by the elements. -/
theorem Kept.edge (h : Kept s) {i : Nat} (h2 : 2 ≤ i) (hi : i < s.heap.fFreeIndex)
    (hx : s.heap.fHeap (i / 2) = some x) (hy : s.heap.fHeap i = some y) : x.1 ≤ y.1 := by
  have hle := h.ordered i h2
  rw [values_of_lt (by omega), values_of_lt hi, hx, hy] at hle
  exact WithTop.coe_le_coe.1 hle

theorem Kept.lawful (h : Kept s) : Lawful s where
  room := h.valid.size.2
  filled i hi := by
    obtain ⟨x, hx⟩ := h.valid.filled i hi
    exact ⟨x, hx, (h.holds x).1 ⟨i, hi, hx⟩⟩
  once t d ht := by
    obtain ⟨i, hi, hx⟩ := (h.holds (d, t)).2 ht
    refine ⟨i, ⟨hi, hx⟩, fun j hj => ?_⟩
    exact h.valid.once j i hj.1 hi (by rw [hj.2, hx])
  current t := by
    rw [h.valid.current t, Option.ne_none_iff_exists']
    exact exists_congr fun d => h.holds (d, t)
  ordered _ _ _ := h.edge
  peekMin_some x hx := by
    obtain ⟨-, -, hin, hleast⟩ := h.ordered.peekMin hx
    exact ⟨(h.holds x).1 hin, fun t d ht => hleast (d, t) ((h.holds (d, t)).2 ht)⟩
  peekMin_none hx t := by
    by_contra hlive
    obtain ⟨d, hd⟩ := Option.ne_none_iff_exists'.1 hlive
    exact h.valid.peekMin_none (x := (d, t)) hx ((h.holds (d, t)).2 hd)
  extractMin := by
    rw [Unsigned.extractMin, Unsigned.extract_snd]
    cases hpeek : s.heap.peekMin with
    | none =>
      show s.heap.extractMin.2 = none
      rw [OSHeap.extractMin_none h.valid hpeek]
    | some x => exact (h.ordered.extractMin h.valid hpeek).1
  remove_some t d ht := by
    obtain ⟨i, -, hi, hx, hrem⟩ := OSHeap.remove_some h.valid ((h.holds (d, t)).2 ht)
    rw [Unsigned.remove_snd, hrem, extract_eq hi hx]
  remove_none t ht := by rw [Unsigned.remove, (OSHeap.remove_none (h.not_holds ht)).1]

/-- **An array that cannot be doubled**: the new one is smaller than what it should hold, and the new element is outside. -/
theorem Kept.doubled (h : Kept s) {d : Int} (ht : s.live t = none) (hs : step s (.insert d t) = some s') (hl : Lawful s')
    (hfull : s.heap.fFreeIndex = s.heap.fArraySize) : s.heap.fArraySize < 2147483648 := by
  simp only [Tracked.step, if_pos ht] at hs
  cases hs
  have hsize := h.size
  have harray : (Unsigned.insert s.heap (d, t)).fArraySize = unsigned (s.heap.fArraySize * 2) := by
    rw [Unsigned.insert, Unsigned.grow, if_pos hfull]
  have hfree : (Unsigned.insert s.heap (d, t)).fFreeIndex = unsigned (s.heap.fArraySize + 1) := by
    rw [Unsigned.insert, Unsigned.grow, if_pos hfull, ← hfull]
  have hroom : (Unsigned.insert s.heap (d, t)).fFreeIndex ≤ (Unsigned.insert s.heap (d, t)).fArraySize := hl.room
  obtain ⟨i, ⟨hi, -⟩, -⟩ := hl.once t d (Function.update_self t (some d) s.live)
  have hlast : 1 ≤ i ∧ i < (Unsigned.insert s.heap (d, t)).fFreeIndex := hi
  rw [harray, hfree] at hroom
  rw [hfree] at hlast
  rw [unsigned] at hroom hlast
  rw [unsigned] at hroom
  omega

/-- A call after which the heap is as it should be had a leaf that fits. -/
theorem Kept.leafFits (h : Kept s) (hfew : Few s a) (hs : step s a = some s') (hl : Lawful s') : LeafFits s a := by
  cases a with
  | insert d t =>
    by_cases ht : s.live t = none
    · exact h.doubled ht hs hl
    · simp only [Tracked.step, if_neg ht] at hs
      cases hs
  | extractMin => trivial
  | remove t =>
    intro i hloc
    simp only [Tracked.step, Unsigned.remove_eq hfew] at hs
    cases hs
    obtain ⟨hi, d, hx⟩ := locate_some hloc
    have hrem : s.heap.remove t = s.heap.extract i := by rw [OSHeap.remove, hloc]
    have hord := hl.ordered
    rw [hrem] at hord
    exact fits_of_ordered h.ordered h.valid hi hx fun j y z => hord j y z

/-- **The timer heap is as it should be at any time of a run** exactly when each full array can be doubled and each `Remove`
finds its element at a position whose parent is not above the last leaf; as long as no element is taken out of a heap of
more than 2147483648 of them. -/
theorem lawful_iff (h : run step (new n) calls = some s') (hfew : Along step Few (new n) calls) :
    Always step Lawful (new n) calls ↔ Along step LeafFits (new n) calls :=
  always_iff_along_within (I := Kept) (fun _ _ _ hk hf hc hs => kept_step hk hf hc hs) (fun _ hk => hk.lawful)
    (fun _ _ _ hk hf hs hl => hk.leafFits hf hs hl) (kept_new n) hfew h

/-- Equal values, and a `Remove` in the middle. -/
theorem lawful_iff_ties : Always step Lawful (new 2 : Tracked Nat)
    [.insert 5 0, .insert 5 1, .insert 7 2, .insert 6 3, .remove 1, .extractMin, .remove 0] :=
  (lawful_iff rfl (by decide +kernel)).2 (by decide +kernel)

/-- `Remove` of the task 3: the last leaf, of value 3, comes below the task 1, of value 10. -/
theorem leaf_not_raised : ¬ ∀ (τ : Type) [DecidableEq τ] (n : UInt32) (calls : List (Call τ)) (s' : Tracked τ),
    run step (new n) calls = some s' → Always step Lawful (new n) calls := by
  intro h
  let calls : List (Call Nat) := [.insert 1 0, .insert 10 1, .insert 2 2, .insert 11 3, .insert 12 4, .insert 3 5, .remove 3]
  have hend : (run step (new 2) calls).map (fun s => (s.heap.fFreeIndex, s.heap.fHeap 2, s.heap.fHeap 4)) =
      some (6, some (10, 1), some (3, 5)) := by decide +kernel
  obtain ⟨s', hrun, hs'⟩ := Option.map_eq_some_iff.1 hend
  simp only [Prod.mk.injEq] at hs'
  have hlaw := (h Nat 2 calls s' hrun).last hrun
  have hle := hlaw.ordered 4 (10, 1) (3, 5) (by omega) (by omega) hs'.2.1 hs'.2.2
  omega

end Tracked

end ToolLib.Common.OSHeap
