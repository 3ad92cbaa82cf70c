import Mathlib
import ToolLib.Base.HeapOrder

/-!
# The timer heap

`OSHeap` (OSHeap.cpp): `Insert`, `Extract` with its heapify loop, `Remove`, `PeekMin`. The element that belongs to a task is
written as the pair of its `fValue` and its enclosing object, as a value is only set while its element is in no heap.
`fCurrentHeap` tells which elements have this heap as their heap. The sizes are natural numbers: the `UInt32`s of
CommonUtilitiesLib-linux are `unsigned long`s, as wide as a pointer, and so many elements that they wrap do not fit into
the memory. The `unsigned int`s of CommonTools can wrap; OSHeapRuns.lean has the operations with these.

`Valid` says that the heap is an array of distinct elements, and every operation keeps it. `Ordered` is heap order; it
is kept by `Insert` and by `ExtractMin`. `Extract` moves the last leaf to the hole and lets it sink from there, so in the
middle of the heap order is kept only when that leaf is not below the parent of the hole (`extract_ordered`).
-/

namespace ToolLib.Common

open ToolLib.Base

variable {τ : Type*}

/-- The `OSHeapElem` of a task: `fValue` and `fEnclosingObject`. -/
abbrev OSHeapElem (τ : Type*) := Int × τ

structure OSHeap (τ : Type*) where
  fHeap : Nat → Option (OSHeapElem τ)
  fFreeIndex : Nat
  fArraySize : Nat
  fCurrentHeap : τ → Bool

namespace OSHeap

/-- The constructor. -/
def new (inStartSize : Nat) : OSHeap τ where
  fHeap _ := none
  fFreeIndex := 1
  fArraySize := if inStartSize < 2 then 2 else inStartSize
  fCurrentHeap _ := false

def kDefaultStartSize : Nat := 1024

def currentHeapSize (h : OSHeap τ) : Nat := h.fFreeIndex - 1

def peekMin (h : OSHeap τ) : Option (OSHeapElem τ) := if h.currentHeapSize > 0 then h.fHeap 1 else none

/-- `x->fValue < y->fValue`. -/
def less (x y : Option (OSHeapElem τ)) : Bool :=
  match x, y with
  | some x, some y => x.1 < y.1
  | _, _ => false

/-- A full array is copied to one of twice its size. -/
def grow (h : OSHeap τ) : OSHeap τ :=
  if h.fFreeIndex = h.fArraySize then
    { h with fHeap := fun i => if i < h.fFreeIndex then h.fHeap i else none, fArraySize := h.fArraySize * 2 }
  else h

/-- The loop of `Insert`, at `swapPos`. -/
def bubbleUp : Nat → (Nat → Option (OSHeapElem τ)) → Nat → Nat → Option (OSHeapElem τ)
  | 0, a, _ => a
  | fuel + 1, a, swapPos =>
    if swapPos > 1 then
      if less (a swapPos) (a (swapPos / 2)) then bubbleUp fuel (swapped a swapPos (swapPos / 2)) (swapPos / 2) else a
    else a

def insert [DecidableEq τ] (h : OSHeap τ) (inElem : OSHeapElem τ) : OSHeap τ :=
  let h := h.grow
  { h with
    fHeap := bubbleUp h.fFreeIndex (Function.update h.fHeap h.fFreeIndex (some inElem)) h.fFreeIndex
    fFreeIndex := h.fFreeIndex + 1
    fCurrentHeap := Function.update h.fCurrentHeap inElem.2 true }

/-- The child, when there is one and it is below `greatest`. -/
def choose (fFreeIndex : Nat) (a : Nat → Option (OSHeapElem τ)) (greatest child : Nat) : Nat :=
  if child < fFreeIndex ∧ less (a child) (a greatest) then child else greatest

/-- The loop of `Extract`, at `parent`. -/
def heapify (fFreeIndex : Nat) : Nat → (Nat → Option (OSHeapElem τ)) → Nat → Nat → Option (OSHeapElem τ)
  | 0, a, _ => a
  | fuel + 1, a, parent =>
    if parent < fFreeIndex then
      let greatest := choose fFreeIndex a (choose fFreeIndex a parent (parent * 2)) (parent * 2 + 1)
      if greatest = parent then a else heapify fFreeIndex fuel (swapped a parent greatest) greatest
    else a

def extract [DecidableEq τ] (h : OSHeap τ) (inIndex : Nat) : OSHeap τ × Option (OSHeapElem τ) :=
  if h.fFreeIndex ≤ inIndex then (h, none)
  else
    match h.fHeap inIndex with
    | none => (h, none)
    | some victim =>
      let fFreeIndex := h.fFreeIndex - 1
      ({ h with
        fHeap := heapify fFreeIndex fFreeIndex (Function.update h.fHeap inIndex (h.fHeap fFreeIndex)) inIndex
        fFreeIndex := fFreeIndex
        fCurrentHeap := Function.update h.fCurrentHeap victim.2 false }, some victim)

def extractMin [DecidableEq τ] (h : OSHeap τ) : OSHeap τ × Option (OSHeapElem τ) := h.extract 1

/-- Where the element of the task `t` is. -/
def locate [DecidableEq τ] (h : OSHeap τ) (t : τ) : Option Nat :=
  (List.range' 1 h.currentHeapSize).find? fun i => (h.fHeap i).map Prod.snd = some t

/-- `Remove` of the element of the task `t`. -/
def remove [DecidableEq τ] (h : OSHeap τ) (t : τ) : OSHeap τ × Option (OSHeapElem τ) :=
  match h.locate t with
  | none => (h, none)
  | some theIndex => h.extract theIndex

/-! ## What a heap holds -/

/-- The element is in the heap. -/
def Holds (h : OSHeap τ) (x : OSHeapElem τ) : Prop := ∃ i, (1 ≤ i ∧ i < h.fFreeIndex) ∧ h.fHeap i = some x

/-- The array is filled below `n`. -/
def Filled (n : Nat) (a : Nat → Option (OSHeapElem τ)) : Prop := ∀ i, 1 ≤ i ∧ i < n → ∃ x, a i = some x

/-- No task has two elements below `n`. -/
def Once (n : Nat) (a : Nat → Option (OSHeapElem τ)) : Prop :=
  ∀ i j, 1 ≤ i ∧ i < n → 1 ≤ j ∧ j < n → (a i).map Prod.snd = (a j).map Prod.snd → i = j

/-- The array is filled with the elements of distinct tasks, and these have the heap as theirs. -/
structure Valid (h : OSHeap τ) : Prop where
  free : 1 ≤ h.fFreeIndex
  size : 2 ≤ h.fArraySize ∧ h.fFreeIndex ≤ h.fArraySize
  filled : Filled h.fFreeIndex h.fHeap
  once : Once h.fFreeIndex h.fHeap
  current : ∀ t, h.fCurrentHeap t = true ↔ ∃ d, h.Holds (d, t)

/-- The value of a pointer. -/
def value (x : Option (OSHeapElem τ)) : WithTop Int := x.elim ⊤ fun x => (x.1 : WithTop Int)

/-- The heap by its values. -/
def values (n : Nat) (a : Nat → Option (OSHeapElem τ)) : Nat → WithTop Int := upTo n fun i => value (a i)

/-- Heap order. -/
def Ordered (h : OSHeap τ) : Prop := Heaped (values h.fFreeIndex h.fHeap)

theorem valid_new (n : Nat) : Valid (new n : OSHeap τ) where
  free := Nat.le_refl 1
  size := by
    show 2 ≤ (if n < 2 then 2 else n) ∧ 1 ≤ (if n < 2 then 2 else n)
    split <;> omega
  filled i hi := by
    have hlt : i < 1 := hi.2
    omega
  once i j hi _ _ := by
    have hlt : i < 1 := hi.2
    omega
  current t := by
    constructor
    · intro h
      cases h
    · rintro ⟨d, i, hi, -⟩
      have hlt : i < 1 := hi.2
      omega

theorem ordered_new (n : Nat) : Ordered (new n : OSHeap τ) := by
  intro i hi
  have hout : values 1 (new n : OSHeap τ).fHeap i = ⊤ := upTo_of_le (by omega)
  exact le_top.trans_eq hout.symm

section Loops

variable {a b : Nat → Option (OSHeapElem τ)} {n fuel p q : Nat}

theorem values_of_lt (hp : p < n) : values n a p = value (a p) := upTo_of_lt hp

theorem values_swapped (hp : p < n) (hq : q < n) : values n (swapped a p q) = swapped (values n a) p q :=
  upTo_swapped hp hq

/-- The comparison of two elements. -/
theorem less_iff (hfill : Filled n a) (hp : 1 ≤ p ∧ p < n) (hq : 1 ≤ q ∧ q < n) :
    less (a p) (a q) = true ↔ values n a p < values n a q := by
  obtain ⟨x, hx⟩ := hfill p hp
  obtain ⟨y, hy⟩ := hfill q hq
  rw [values_of_lt hp.2, values_of_lt hq.2, hx, hy]
  simp [less, value]

theorem Filled.shuffled (h : Filled n a) (hab : Shuffled n a b) : Filled n b := by
  intro i hi
  obtain ⟨j, hj, he⟩ := hab.source hi
  rw [he]
  exact h j hj

theorem Once.shuffled (h : Once n a) (hab : Shuffled n a b) : Once n b := fun _ _ => hab.once h

/-! ## The loops -/

theorem bubbleUp_shuffled (hp : 1 ≤ p ∧ p < n) : Shuffled n a (bubbleUp fuel a p) := by
  induction fuel generalizing a p with
  | zero => exact .refl n a
  | succ fuel ih =>
    simp only [bubbleUp]
    split
    next hgt =>
      have hpar : 1 ≤ p / 2 ∧ p / 2 < n := by omega
      split
      · exact (shuffled_swapped hp hpar).trans (ih hpar)
      · exact .refl n a
    next => exact .refl n a

/-- The new leaf comes to its place. -/
theorem bubbleUp_heaped (hfill : Filled n a) (hp : 1 ≤ p ∧ p < n) (hfuel : p ≤ fuel) (h : Rising (values n a) p) :
    Heaped (values n (bubbleUp fuel a p)) := by
  induction fuel generalizing a p with
  | zero => omega
  | succ fuel ih =>
    simp only [bubbleUp]
    split
    next hgt =>
      have hpar : 1 ≤ p / 2 ∧ p / 2 < n := by omega
      split
      next hless =>
        have hlt := (less_iff hfill hp hpar).1 hless
        refine ih (hfill.shuffled (shuffled_swapped hp hpar)) hpar (by omega) ?_
        rw [values_swapped hp.2 hpar.2]
        exact h.rise hgt hlt
      next hless => exact h.done fun _ => not_lt.1 (mt (less_iff hfill hp hpar).2 hless)
    next hle => exact h.done fun h2 => absurd h2 (by omega)

/-- What `choose` chooses: `child` is in the heap and below `greatest`, or it is not below it. -/
theorem choose_cases (hfill : Filled n a) (hp : 1 ≤ p ∧ p < n) (hq : 1 ≤ q) :
    choose n a p q = q ∧ q < n ∧ values n a q < values n a p ∨
      choose n a p q = p ∧ values n a p ≤ values n a q := by
  unfold choose
  split
  next h => exact Or.inl ⟨rfl, h.1, (less_iff hfill ⟨hq, h.1⟩ hp).1 h.2⟩
  next h =>
    refine Or.inr ⟨rfl, ?_⟩
    by_cases hlt : q < n
    · exact not_lt.1 fun hv => h ⟨hlt, (less_iff hfill ⟨hq, hlt⟩ hp).2 hv⟩
    · exact le_top.trans_eq (upTo_of_le (Nat.not_lt.1 hlt)).symm

/-- The place of the loop of `Extract` after one round: the place itself, not above its children, or a child below it
which is not above the other one. -/
theorem greatest_cases (hfill : Filled n a) (hp : 1 ≤ p ∧ p < n) {g : Nat}
    (hg : g = choose n a (choose n a p (p * 2)) (p * 2 + 1)) :
    g = p ∧ (∀ i, 2 ≤ i → i / 2 = p → values n a p ≤ values n a i) ∨
      g / 2 = p ∧ g < n ∧ values n a g < values n a p ∧ ∀ i, i / 2 = p → values n a g ≤ values n a i := by
  have hchild : ∀ i, i / 2 = p → i = p * 2 ∨ i = p * 2 + 1 := fun i hi => by omega
  rcases choose_cases hfill hp (q := p * 2) (by omega) with ⟨hl, hln, hlt⟩ | ⟨hl, hle⟩ <;> rw [hl] at hg
  · rcases choose_cases hfill (p := p * 2) (q := p * 2 + 1) (by omega) (by omega) with ⟨hr, hrn, hrt⟩ | ⟨hr, hre⟩ <;>
      rw [hr] at hg <;> subst hg
    · refine Or.inr ⟨by omega, hrn, hrt.trans hlt, fun i hi => ?_⟩
      rcases hchild i hi with rfl | rfl
      · exact hrt.le
      · exact le_rfl
    · refine Or.inr ⟨by omega, hln, hlt, fun i hi => ?_⟩
      rcases hchild i hi with rfl | rfl
      · exact le_rfl
      · exact hre
  · rcases choose_cases hfill hp (q := p * 2 + 1) (by omega) with ⟨hr, hrn, hrt⟩ | ⟨hr, hre⟩ <;>
      rw [hr] at hg <;> subst hg
    · refine Or.inr ⟨by omega, hrn, hrt, fun i hi => ?_⟩
      rcases hchild i hi with rfl | rfl
      · exact hrt.le.trans hle
      · exact le_rfl
    · refine Or.inl ⟨rfl, fun i _ hi => ?_⟩
      rcases hchild i hi with rfl | rfl
      · exact hle
      · exact hre

theorem heapify_shuffled (hfill : Filled n a) (hp : 1 ≤ p) : Shuffled n a (heapify n fuel a p) := by
  induction fuel generalizing a p with
  | zero => exact .refl n a
  | succ fuel ih =>
    simp only [heapify]
    split
    next hlt =>
      generalize hg : choose n a (choose n a p (p * 2)) (p * 2 + 1) = g
      split
      next => exact .refl n a
      next hne =>
        rcases greatest_cases hfill ⟨hp, hlt⟩ hg.symm with ⟨he, -⟩ | ⟨hpar, hgn, -, -⟩
        · exact absurd he hne
        · have hswap : Shuffled n a (swapped a p g) := shuffled_swapped ⟨hp, hlt⟩ ⟨by omega, hgn⟩
          exact hswap.trans (ih (hfill.shuffled hswap) (by omega))
    next => exact .refl n a

/-- The leaf that was moved sinks to its place. -/
theorem heapify_heaped (hfill : Filled n a) (hp : 1 ≤ p) (hfuel : n ≤ fuel + p) (h : Sinking (values n a) p) :
    Heaped (values n (heapify n fuel a p)) := by
  have hout : n ≤ p → Heaped (values n a) := fun hnp => h.done fun i _ hi =>
    le_top.trans_eq (upTo_of_le (by omega)).symm
  induction fuel generalizing a p with
  | zero => exact hout (by omega)
  | succ fuel ih =>
    simp only [heapify]
    split
    next hlt =>
      generalize hg : choose n a (choose n a p (p * 2)) (p * 2 + 1) = g
      rcases greatest_cases hfill ⟨hp, hlt⟩ hg.symm with ⟨he, hmin⟩ | ⟨hpar, hgn, hgp, hmin⟩
      · rw [if_pos he]
        exact h.done hmin
      · rw [if_neg (by omega)]
        have hswap : Shuffled n a (swapped a p g) := shuffled_swapped ⟨hp, hlt⟩ ⟨by omega, hgn⟩
        have hsink : Sinking (values n (swapped a p g)) g := by
          rw [values_swapped hlt hgn]
          exact h.sink hp hpar hgp hmin
        refine ih (hfill.shuffled hswap) (by omega) (by omega) hsink fun hng => ?_
        exact absurd hgn (by omega)
    next hnlt => exact hout (by omega)

end Loops

/-! ## Insert -/

variable {h : OSHeap τ} {x y : OSHeapElem τ} {t : τ} {i : Nat}

/-- Growing the array changes nothing of the heap, and makes room. -/
theorem Valid.grow (hv : Valid h) :
    h.grow.fFreeIndex = h.fFreeIndex ∧ h.grow.fCurrentHeap = h.fCurrentHeap ∧ 2 ≤ h.grow.fArraySize ∧
      h.fFreeIndex < h.grow.fArraySize ∧ ∀ i, i < h.fFreeIndex → h.grow.fHeap i = h.fHeap i := by
  have hsize := hv.size
  unfold OSHeap.grow
  split
  next hfull =>
    exact ⟨rfl, rfl, by simp only; omega, by simp only; omega, fun i hi => if_pos hi⟩
  next hfull => exact ⟨rfl, rfl, hsize.1, by omega, fun _ _ => rfl⟩

/-- The array in front of the loop of `Insert`. -/
theorem Valid.leaf (hv : Valid h) {a : Nat → Option (OSHeapElem τ)}
    (ha : a = Function.update h.grow.fHeap h.grow.fFreeIndex (some x)) :
    a h.fFreeIndex = some x ∧ (∀ i, i < h.fFreeIndex → a i = h.fHeap i) ∧ Filled (h.fFreeIndex + 1) a := by
  obtain ⟨hfree, -, -, -, hsame⟩ := hv.grow
  rw [hfree] at ha
  have hleaf : a h.fFreeIndex = some x := by rw [ha, Function.update_self]
  have hold : ∀ i, i < h.fFreeIndex → a i = h.fHeap i := fun i hi => by
    rw [ha, Function.update_of_ne (by omega), hsame i hi]
  refine ⟨hleaf, hold, fun i hi => ?_⟩
  by_cases hin : i = h.fFreeIndex
  · rw [hin]
    exact ⟨x, hleaf⟩
  · rw [hold i (by omega)]
    exact hv.filled i (by omega)

section Insert

variable [DecidableEq τ]

/-- The array after the loop of `Insert` has the same elements. -/
theorem Valid.insert_shuffled (hv : Valid h) : (h.insert x).fFreeIndex = h.fFreeIndex + 1 ∧
    Shuffled (h.fFreeIndex + 1) (Function.update h.grow.fHeap h.grow.fFreeIndex (some x)) (h.insert x).fHeap := by
  have hfree := hv.grow.1
  have hpos := hv.free
  refine ⟨congrArg (· + 1) hfree, ?_⟩
  show Shuffled _ _ (bubbleUp h.grow.fFreeIndex _ h.grow.fFreeIndex)
  exact bubbleUp_shuffled (by omega)

/-- `Insert` adds the element. -/
theorem holds_insert (hv : Valid h) : (h.insert x).Holds y ↔ y = x ∨ h.Holds y := by
  obtain ⟨hfree, hsh⟩ := hv.insert_shuffled (x := x)
  obtain ⟨hleaf, hold, -⟩ := hv.leaf (x := x) rfl
  have hpos := hv.free
  constructor
  · rintro ⟨i, hi, hiy⟩
    rw [hfree] at hi
    obtain ⟨j, hj, he⟩ := hsh.source hi
    rw [hiy] at he
    by_cases hjn : j = h.fFreeIndex
    · rw [hjn, hleaf] at he
      exact Or.inl (Option.some.inj he)
    · rw [hold j (by omega)] at he
      exact Or.inr ⟨j, by omega, he.symm⟩
  · have hback : ∀ j, 1 ≤ j ∧ j < h.fFreeIndex + 1 →
        Function.update h.grow.fHeap h.grow.fFreeIndex (some x) j = some y → (h.insert x).Holds y := by
      intro j hj he
      obtain ⟨i, hi, hij⟩ := hsh.symm.source hj
      exact ⟨i, by rw [hfree]; exact hi, hij.symm.trans he⟩
    rintro (rfl | ⟨j, hj, he⟩)
    · exact hback _ (by omega) hleaf
    · exact hback j (by omega) ((hold j hj.2).trans he)

/-- `Insert` of an element of another task. -/
theorem Valid.insert (hv : Valid h) (hnew : ∀ d, ¬ h.Holds (d, x.2)) : Valid (h.insert x) := by
  obtain ⟨hfree, hsh⟩ := hv.insert_shuffled (x := x)
  obtain ⟨hleaf, hold, hfill⟩ := hv.leaf (x := x) rfl
  obtain ⟨-, hcur, hsize, hroom, -⟩ := hv.grow
  have hpos := hv.free
  refine ⟨by omega, ⟨hsize, by rw [hfree]; exact hroom⟩, ?_, ?_, fun t => ?_⟩
  · rw [hfree]
    exact hfill.shuffled hsh
  · -- the new leaf is of another task than the old elements
    have hother : ∀ j, 1 ≤ j ∧ j < h.fFreeIndex → (h.fHeap j).map Prod.snd ≠ (some x).map Prod.snd := by
      intro j hj he
      obtain ⟨z, hz, hzx⟩ := Option.map_eq_some_iff.1 he
      exact hnew z.1 ⟨j, hj, by rw [hz, ← hzx]⟩
    have honce : Once (h.fFreeIndex + 1) (Function.update h.grow.fHeap h.grow.fFreeIndex (some x)) := by
      intro i j hi hj he
      by_cases hin : i = h.fFreeIndex
      · by_cases hjn : j = h.fFreeIndex
        · rw [hin, hjn]
        · rw [hin, hleaf, hold j (by omega)] at he
          exact absurd he.symm (hother j (by omega))
      · by_cases hjn : j = h.fFreeIndex
        · rw [hjn, hleaf, hold i (by omega)] at he
          exact absurd he (hother i (by omega))
        · rw [hold i (by omega), hold j (by omega)] at he
          exact hv.once i j (by omega) (by omega) he
    rw [hfree]
    exact honce.shuffled hsh
  · show Function.update h.grow.fCurrentHeap x.2 true t = true ↔ _
    rw [hcur]
    by_cases ht : t = x.2
    · rw [ht, Function.update_self]
      exact ⟨fun _ => ⟨x.1, (holds_insert hv).2 (Or.inl rfl)⟩, fun _ => rfl⟩
    · rw [Function.update_of_ne ht, hv.current t]
      refine exists_congr fun d => ?_
      rw [holds_insert hv]
      refine ⟨Or.inr, fun hd => hd.resolve_left ?_⟩
      rintro rfl
      exact ht rfl

/-- **`Insert` keeps heap order.** -/
theorem Ordered.insert (ho : Ordered h) (hv : Valid h) : Ordered (h.insert x) := by
  obtain ⟨hfree, -⟩ := hv.insert_shuffled (x := x)
  obtain ⟨hleaf, hold, hfill⟩ := hv.leaf (x := x) rfl
  have hpos := hv.free
  have hrise := Heaped.leaf (x := value (some x)) ho hpos
  show Heaped (values (h.insert x).fFreeIndex (bubbleUp h.grow.fFreeIndex _ h.grow.fFreeIndex))
  rw [hfree]
  refine bubbleUp_heaped hfill (by rw [hv.grow.1]; omega) le_rfl ?_
  have hsame : values (h.fFreeIndex + 1) (Function.update h.grow.fHeap h.grow.fFreeIndex (some x)) =
      upTo (h.fFreeIndex + 1) (Function.update (fun i => value (h.fHeap i)) h.fFreeIndex (value (some x))) := by
    funext i
    by_cases hi : i < h.fFreeIndex + 1
    · rw [values_of_lt hi, upTo_of_lt hi]
      by_cases hin : i = h.fFreeIndex
      · rw [hin, hleaf, Function.update_self]
      · rw [hold i (by omega), Function.update_of_ne hin]
    · rw [values, upTo_of_le (Nat.not_lt.1 hi), upTo_of_le (Nat.not_lt.1 hi)]
  rw [hsame, hv.grow.1]
  exact hrise

end Insert

/-! ## Extract -/

/-- Where the elements of the array in front of the loop of `Extract` come from. -/
theorem hole_source {n j : Nat} {a : Nat → Option (OSHeapElem τ)} (hi : i < n) (hj : 1 ≤ j ∧ j < n - 1) :
    ∃ k, (1 ≤ k ∧ k < n) ∧ k ≠ i ∧ Function.update a i (a (n - 1)) j = a k ∧ (j = i → k = n - 1) ∧
      (j ≠ i → k = j) := by
  by_cases hji : j = i
  · subst hji
    exact ⟨n - 1, by omega, by omega, by rw [Function.update_self], fun _ => rfl, fun h => absurd rfl h⟩
  · exact ⟨j, by omega, hji, by rw [Function.update_of_ne hji], fun h => absurd h hji, fun _ => rfl⟩

theorem Valid.filled_hole (hv : Valid h) (hi : i < h.fFreeIndex) :
    Filled (h.fFreeIndex - 1) (Function.update h.fHeap i (h.fHeap (h.fFreeIndex - 1))) := by
  intro j hj
  obtain ⟨k, hk, -, he, -⟩ := hole_source (a := h.fHeap) hi hj
  rw [he]
  exact hv.filled k hk

section Extract

variable [DecidableEq τ]

/-- What `Extract` does at a position of the heap. -/
theorem extract_eq (hi : 1 ≤ i ∧ i < h.fFreeIndex) (hx : h.fHeap i = some x) :
    h.extract i = ({ h with
      fHeap := heapify (h.fFreeIndex - 1) (h.fFreeIndex - 1)
        (Function.update h.fHeap i (h.fHeap (h.fFreeIndex - 1))) i
      fFreeIndex := h.fFreeIndex - 1
      fCurrentHeap := Function.update h.fCurrentHeap x.2 false }, some x) := by
  have hin : ¬ h.fFreeIndex ≤ i := by omega
  simp only [extract, if_neg hin, hx]

/-- The array after the loop of `Extract` has the same elements. -/
theorem Valid.extract_shuffled (hv : Valid h) (hi : 1 ≤ i ∧ i < h.fFreeIndex) (hx : h.fHeap i = some x) :
    (h.extract i).1.fFreeIndex = h.fFreeIndex - 1 ∧ Shuffled (h.fFreeIndex - 1)
      (Function.update h.fHeap i (h.fHeap (h.fFreeIndex - 1))) (h.extract i).1.fHeap := by
  rw [extract_eq hi hx]
  exact ⟨rfl, heapify_shuffled (hv.filled_hole hi.2) hi.1⟩

/-- `Extract` takes the element away, and no other. -/
theorem holds_extract (hv : Valid h) (hi : 1 ≤ i ∧ i < h.fFreeIndex) (hx : h.fHeap i = some x) :
    (h.extract i).1.Holds y ↔ h.Holds y ∧ y.2 ≠ x.2 := by
  obtain ⟨hfree, hsh⟩ := hv.extract_shuffled hi hx
  constructor
  · rintro ⟨j, hj, hjy⟩
    rw [hfree] at hj
    obtain ⟨k, hk, he⟩ := hsh.source hj
    obtain ⟨l, hl, hli, he', -⟩ := hole_source (a := h.fHeap) hi.2 hk
    have hly : h.fHeap l = some y := by rw [← he', ← he, hjy]
    refine ⟨⟨l, hl, hly⟩, fun hyx => hli (hv.once l i hl hi ?_)⟩
    rw [hly, hx, Option.map_some, Option.map_some, hyx]
  · rintro ⟨⟨l, hl, hly⟩, hyx⟩
    have hli : l ≠ i := by
      rintro rfl
      rw [hx] at hly
      exact hyx (congrArg Prod.snd (Option.some.inj hly)).symm
    -- the last leaf is at the hole now
    obtain ⟨k, hk, he⟩ : ∃ k, (1 ≤ k ∧ k < h.fFreeIndex - 1) ∧
        Function.update h.fHeap i (h.fHeap (h.fFreeIndex - 1)) k = some y := by
      by_cases hlast : l = h.fFreeIndex - 1
      · exact ⟨i, by omega, by rw [Function.update_self, ← hlast, hly]⟩
      · exact ⟨l, by omega, by rw [Function.update_of_ne hli, hly]⟩
    obtain ⟨j, hj, hjk⟩ := hsh.symm.source hk
    exact ⟨j, by rw [hfree]; exact hj, hjk.symm.trans he⟩

/-- **`Extract` keeps the heap an array of distinct elements.** -/
theorem Valid.extract (hv : Valid h) (hi : 1 ≤ i ∧ i < h.fFreeIndex) (hx : h.fHeap i = some x) :
    Valid (h.extract i).1 := by
  obtain ⟨hfree, hsh⟩ := hv.extract_shuffled hi hx
  have hcur : (h.extract i).1.fCurrentHeap = Function.update h.fCurrentHeap x.2 false := by rw [extract_eq hi hx]
  have hsize : (h.extract i).1.fArraySize = h.fArraySize := by rw [extract_eq hi hx]
  have hold := hv.size
  refine ⟨by omega, by omega, ?_, ?_, fun t => ?_⟩
  · rw [hfree]
    exact (hv.filled_hole hi.2).shuffled hsh
  · have honce : Once (h.fFreeIndex - 1) (Function.update h.fHeap i (h.fHeap (h.fFreeIndex - 1))) := by
      intro j k hj hk he
      obtain ⟨j', hj', -, hje, hji, hjn⟩ := hole_source (a := h.fHeap) hi.2 hj
      obtain ⟨k', hk', -, hke, hki, hkn⟩ := hole_source (a := h.fHeap) hi.2 hk
      rw [hje, hke] at he
      have hjk := hv.once j' k' hj' hk' he
      by_cases h1 : j = i <;> by_cases h2 : k = i
      · rw [h1, h2]
      · have := hji h1
        have := hkn h2
        omega
      · have := hjn h1
        have := hki h2
        omega
      · rw [hjn h1, hkn h2] at hjk
        exact hjk
    rw [hfree]
    exact honce.shuffled hsh
  · rw [hcur]
    by_cases ht : t = x.2
    · rw [ht, Function.update_self]
      constructor
      · intro hf
        cases hf
      · rintro ⟨d, hd⟩
        exact absurd rfl ((holds_extract hv hi hx).1 hd).2
    · rw [Function.update_of_ne ht, hv.current t]
      exact exists_congr fun d => by rw [holds_extract hv hi hx, and_iff_left ht]

/-- The last leaf is not below the parent of the position `i`, so it can take that position. -/
def Fits (h : OSHeap τ) (i : Nat) : Prop :=
  2 ≤ i → i < h.fFreeIndex - 1 → less (h.fHeap (h.fFreeIndex - 1)) (h.fHeap (i / 2)) = false

/-- **`Extract` keeps heap order**, when the last leaf fits in the hole. -/
theorem Ordered.extract (ho : Ordered h) (hv : Valid h) (hi : 1 ≤ i ∧ i < h.fFreeIndex) (hx : h.fHeap i = some x)
    (hfit : h.Fits i) : Ordered (h.extract i).1 := by
  rw [extract_eq hi hx]
  show Heaped (values (h.fFreeIndex - 1) (heapify (h.fFreeIndex - 1) (h.fFreeIndex - 1) _ i))
  refine heapify_heaped (hv.filled_hole hi.2) hi.1 (by omega) ?_
  have hcut : Heaped (upTo (h.fFreeIndex - 1) fun j => value (h.fHeap j)) := by
    have hcut := Heaped.cut ho (h.fFreeIndex - 1)
    have hsame : upTo (h.fFreeIndex - 1) (values h.fFreeIndex h.fHeap) =
        upTo (h.fFreeIndex - 1) fun j => value (h.fHeap j) := by
      funext j
      by_cases hj : j < h.fFreeIndex - 1
      · rw [upTo_of_lt hj, upTo_of_lt hj, values_of_lt (by omega)]
      · rw [upTo_of_le (Nat.not_lt.1 hj), upTo_of_le (Nat.not_lt.1 hj)]
    rwa [hsame] at hcut
  by_cases hlast : i < h.fFreeIndex - 1
  · have hsame : values (h.fFreeIndex - 1) (Function.update h.fHeap i (h.fHeap (h.fFreeIndex - 1))) =
        Function.update (upTo (h.fFreeIndex - 1) fun j => value (h.fHeap j)) i
          (value (h.fHeap (h.fFreeIndex - 1))) := by
      funext j
      by_cases hji : j = i
      · rw [hji, Function.update_self, values_of_lt hlast, Function.update_self]
      · rw [Function.update_of_ne hji, values, upTo, upTo, Function.update_of_ne hji]
    rw [hsame]
    refine hcut.replace hi.1 fun h2 => ?_
    rw [upTo_of_lt (by omega)]
    have hnot := mt (less_iff hv.filled (p := h.fFreeIndex - 1) (q := i / 2) (by omega) (by omega)).2
      (by rw [hfit h2 hlast]; exact Bool.false_ne_true)
    rw [values_of_lt (by omega), values_of_lt (by omega)] at hnot
    exact not_lt.1 hnot
  · -- the last leaf itself is extracted
    have hsame : values (h.fFreeIndex - 1) (Function.update h.fHeap i (h.fHeap (h.fFreeIndex - 1))) =
        upTo (h.fFreeIndex - 1) fun j => value (h.fHeap j) := by
      funext j
      by_cases hji : j = i
      · rw [values, upTo_of_le (by omega), upTo_of_le (by omega)]
      · rw [values, upTo, upTo, Function.update_of_ne hji]
    rw [hsame]
    exact ⟨fun j hj _ => hcut j hj, fun h2 j hj => (hcut i h2).trans (hj ▸ hcut j (by omega))⟩

end Extract

/-- A task has one element. -/
theorem Valid.unique (hv : Valid h) (hx : h.Holds x) (hy : h.Holds y) (he : x.2 = y.2) : x = y := by
  obtain ⟨i, hi, hix⟩ := hx
  obtain ⟨j, hj, hjy⟩ := hy
  have hij : i = j := hv.once i j hi hj (by rw [hix, hjy, Option.map_some, Option.map_some, he])
  rw [hij, hjy] at hix
  exact (Option.some.inj hix).symm

/-! ## PeekMin and Remove -/

/-- **`PeekMin`** returns a least element. -/
theorem Ordered.peekMin (ho : Ordered h) (hx : h.peekMin = some x) :
    1 < h.fFreeIndex ∧ h.fHeap 1 = some x ∧ h.Holds x ∧ ∀ y, h.Holds y → x.1 ≤ y.1 := by
  unfold OSHeap.peekMin currentHeapSize at hx
  split at hx
  next hsize =>
    refine ⟨by omega, hx, ⟨1, by omega, hx⟩, ?_⟩
    rintro y ⟨j, hj, hy⟩
    have hle := Heaped.root_le ho hj.1
    rw [values_of_lt (by omega), values_of_lt hj.2, hx, hy] at hle
    exact WithTop.coe_le_coe.1 hle
  next => cases hx

/-- `PeekMin` returns `NULL` for the empty heap only. -/
theorem Valid.peekMin_none (hv : Valid h) (hx : h.peekMin = none) : ¬ h.Holds x := by
  rintro ⟨j, hj, -⟩
  obtain ⟨y, hy⟩ := hv.filled 1 (by omega)
  unfold OSHeap.peekMin currentHeapSize at hx
  rw [if_pos (by omega), hy] at hx
  cases hx

section Remove

variable [DecidableEq τ]

/-- **`ExtractMin`** returns the element of `PeekMin`, takes it out of the heap and leaves the others in order. -/
theorem Ordered.extractMin (ho : Ordered h) (hv : Valid h) (hx : h.peekMin = some x) :
    h.extractMin.2 = some x ∧ h.extractMin.1.currentHeapSize = h.currentHeapSize - 1 ∧ h.extractMin.1.Valid ∧
      h.extractMin.1.Ordered ∧ ∀ y, h.extractMin.1.Holds y ↔ h.Holds y ∧ y ≠ x := by
  obtain ⟨hfree, hroot, hin, -⟩ := ho.peekMin hx
  have hi : 1 ≤ 1 ∧ 1 < h.fFreeIndex := ⟨le_rfl, hfree⟩
  refine ⟨by rw [OSHeap.extractMin, extract_eq hi hroot], ?_, hv.extract hi hroot,
    ho.extract hv hi hroot fun h2 => absurd h2 (by omega), fun y => ?_⟩
  · show (h.extract 1).1.fFreeIndex - 1 = h.fFreeIndex - 1 - 1
    rw [(hv.extract_shuffled hi hroot).1]
  · show (h.extract 1).1.Holds y ↔ _
    rw [holds_extract hv hi hroot]
    refine and_congr_right fun hy => not_congr ⟨fun he => hv.unique hy hin he, fun he => by rw [he]⟩

/-- The loop of `Remove` finds the element of the task. -/
theorem locate_some (hl : h.locate t = some i) : (1 ≤ i ∧ i < h.fFreeIndex) ∧ ∃ d, h.fHeap i = some (d, t) := by
  have hin := List.mem_of_find?_eq_some hl
  have heq := List.find?_some hl
  simp only [List.mem_range'_1, currentHeapSize] at hin
  simp only [decide_eq_true_eq, Option.map_eq_some_iff] at heq
  obtain ⟨⟨d, u⟩, hu, rfl⟩ := heq
  exact ⟨by omega, d, hu⟩

theorem locate_none (hl : h.locate t = none) (d : Int) : ¬ h.Holds (d, t) := by
  rintro ⟨j, hj, hjt⟩
  have hno := List.find?_eq_none.1 hl j (by simp only [List.mem_range'_1, currentHeapSize]; omega)
  simp [hjt] at hno

end Remove

end OSHeap

end ToolLib.Common
