import Mathlib.Logic.Equiv.Basic
import Mathlib.Order.BoundedOrder.Basic
import Mathlib.Order.Defs.LinearOrder
import Mathlib.Order.Lattice

/-!
# Binary heaps by position

A heap with the root at position 1 and the children of `i` at `2 * i` and `2 * i + 1` is seen here as the function from
positions to values, with `⊤` behind the last leaf, so that the parent of `i` is `i / 2` and there is no other shape to
speak of.

- `Heaped`: every value is at least that of its parent; the root is least then (`Heaped.root_le`);
- `Rising v p`: heap order, but the value at `p` may have to go up (`Rising.rise`, `Rising.done`);
- `Sinking v p`: heap order, but the value at `p` may have to go down (`Sinking.sink`, `Sinking.done`);
- how the two begin: a new last leaf (`Heaped.leaf`), and a new value in the middle (`Heaped.replace`);
- `Shuffled`: two arrays with the same things in the positions below `n`, in another order.
-/

namespace ToolLib.Base

variable {α β : Type*}

/-- The two places exchange what they have. -/
def swapped (f : Nat → α) (p q : Nat) : Nat → α := fun i => f (Equiv.swap p q i)

section Swapped

variable {f : Nat → α} {p q i : Nat}

@[simp] theorem swapped_left : swapped f p q p = f q := by rw [swapped, Equiv.swap_apply_left]

@[simp] theorem swapped_right : swapped f p q q = f p := by rw [swapped, Equiv.swap_apply_right]

theorem swapped_of_ne (hp : i ≠ p) (hq : i ≠ q) : swapped f p q i = f i := by
  rw [swapped, Equiv.swap_apply_of_ne_of_ne hp hq]

end Swapped

/-! ## Heap order -/

section Order

variable [LinearOrder β] {v : Nat → β} {p q n : Nat} {x : β}

/-- Heap order. -/
def Heaped (v : Nat → β) : Prop := ∀ i, 2 ≤ i → v (i / 2) ≤ v i

/-- Heap order, apart from `p` and its parent; the parent is not above the children of `p`. -/
structure Rising (v : Nat → β) (p : Nat) : Prop where
  edges : ∀ i, 2 ≤ i → i ≠ p → v (i / 2) ≤ v i
  grand : 2 ≤ p → ∀ i, i / 2 = p → v (p / 2) ≤ v i

/-- Heap order, apart from `p` and its children; the parent of `p` is not above them. -/
structure Sinking (v : Nat → β) (p : Nat) : Prop where
  edges : ∀ i, 2 ≤ i → i / 2 ≠ p → v (i / 2) ≤ v i
  grand : 2 ≤ p → ∀ i, i / 2 = p → v (p / 2) ≤ v i

/-- **The root is least.** -/
theorem Heaped.root_le (h : Heaped v) : ∀ {i : Nat}, 1 ≤ i → v 1 ≤ v i := by
  intro i
  induction i using Nat.strongRecOn with
  | ind i ih =>
    intro hi
    by_cases h1 : i = 1
    · rw [h1]
    · exact (ih (i / 2) (by omega) (by omega)).trans (h i (by omega))

theorem Rising.done (h : Rising v p) (hp : 2 ≤ p → v (p / 2) ≤ v p) : Heaped v := by
  intro i hi
  by_cases hip : i = p
  · subst hip
    exact hp hi
  · exact h.edges i hi hip

/-- One step up. -/
theorem Rising.rise (h : Rising v p) (hp : 2 ≤ p) (hlt : v p < v (p / 2)) :
    Rising (swapped v p (p / 2)) (p / 2) := by
  have hup : ∀ i, 2 ≤ i → i ≠ p → i / 2 = p / 2 → v (p / 2) ≤ v i := by
    intro i hi hip hpar
    rw [← hpar]
    exact h.edges i hi hip
  constructor
  · intro i hi hne
    by_cases hip : i = p
    · subst hip
      rw [swapped_left, swapped_right]
      exact hlt.le
    · rw [swapped_of_ne hip hne]
      by_cases hpar : i / 2 = p
      · rw [hpar, swapped_left]
        exact h.grand hp i hpar
      by_cases hsib : i / 2 = p / 2
      · rw [hsib, swapped_right]
        exact hlt.le.trans (hup i hi hip hsib)
      · rw [swapped_of_ne hpar hsib]
        exact h.edges i hi hip
  · intro hpp i hpar
    have hroot : v (p / 2 / 2) ≤ v (p / 2) := h.edges (p / 2) hpp (by omega)
    rw [swapped_of_ne (by omega) (by omega)]
    by_cases hip : i = p
    · subst hip
      rw [swapped_left]
      exact hroot
    · rw [swapped_of_ne hip (by omega)]
      exact hroot.trans (hup i (by omega) hip hpar)

theorem Sinking.done (h : Sinking v p) (hp : ∀ i, 2 ≤ i → i / 2 = p → v p ≤ v i) : Heaped v := by
  intro i hi
  by_cases hpar : i / 2 = p
  · rw [hpar]
    exact hp i hi hpar
  · exact h.edges i hi hpar

/-- One step down, to the least child. -/
theorem Sinking.sink (h : Sinking v p) (hp : 1 ≤ p) (hq : q / 2 = p) (hlt : v q < v p)
    (hmin : ∀ i, i / 2 = p → v q ≤ v i) : Sinking (swapped v p q) q := by
  constructor
  · intro i hi hpar
    by_cases hiq : i = q
    · subst hiq
      rw [hq, swapped_left, swapped_right]
      exact hlt.le
    by_cases hip : i = p
    · subst hip
      rw [swapped_left, swapped_of_ne (by omega) (by omega)]
      exact h.grand hi q hq
    · rw [swapped_of_ne hip hiq]
      by_cases hsib : i / 2 = p
      · rw [hsib, swapped_left]
        exact hmin i hsib
      · rw [swapped_of_ne hsib hpar]
        exact h.edges i hi hsib
  · intro _ i hpar
    rw [hq, swapped_left, swapped_of_ne (by omega) (by omega), ← hpar]
    exact h.edges i (by omega) (by omega)

/-- A new value in the middle, not below its parent. -/
theorem Heaped.replace (h : Heaped v) (hp : 1 ≤ p) (hx : 2 ≤ p → v (p / 2) ≤ x) :
    Sinking (Function.update v p x) p := by
  constructor
  · intro i hi hpar
    rw [Function.update_of_ne hpar]
    by_cases hip : i = p
    · subst hip
      rw [Function.update_self]
      exact hx hi
    · rw [Function.update_of_ne hip]
      exact h i hi
  · intro h2 i hpar
    rw [Function.update_of_ne (by omega), Function.update_of_ne (by omega)]
    refine (h p h2).trans ?_
    rw [← hpar]
    exact h i (by omega)

/-! ## The last leaf -/

section Leaf

variable [OrderTop β]

/-- The values below position `n`. -/
def upTo (n : Nat) (v : Nat → β) : Nat → β := fun i => if i < n then v i else ⊤

theorem upTo_of_lt {i : Nat} (hi : i < n) : upTo n v i = v i := if_pos hi

theorem upTo_of_le {i : Nat} (hi : n ≤ i) : upTo n v i = ⊤ := if_neg (Nat.not_lt.2 hi)

/-- An exchange below `n`. -/
theorem upTo_swapped {g : α → β} {a : Nat → α} (hp : p < n) (hq : q < n) :
    upTo n (fun i => g (swapped a p q i)) = swapped (upTo n fun i => g (a i)) p q := by
  funext i
  by_cases hip : i = p
  · rw [hip, swapped_left, upTo_of_lt hp, upTo_of_lt hq, swapped_left]
  by_cases hiq : i = q
  · rw [hiq, swapped_right, upTo_of_lt hp, upTo_of_lt hq, swapped_right]
  · rw [swapped_of_ne hip hiq, upTo, upTo, swapped_of_ne hip hiq]

/-- Leaves fall off at the end. -/
theorem Heaped.cut (h : Heaped v) (n : Nat) : Heaped (upTo n v) := by
  intro i hi
  by_cases hn : i < n
  · rw [upTo_of_lt hn, upTo_of_lt (by omega)]
    exact h i hi
  · rw [upTo_of_le (Nat.not_lt.1 hn)]
    exact le_top

/-- A new last leaf. -/
theorem Heaped.leaf (h : Heaped (upTo n v)) (hn : 1 ≤ n) :
    Rising (upTo (n + 1) (Function.update v n x)) n := by
  have hout : ∀ i, i / 2 = n → upTo (n + 1) (Function.update v n x) i = ⊤ :=
    fun i hi => upTo_of_le (by omega)
  constructor
  · intro i hi hne
    by_cases hin : i < n
    · have hi2 : i / 2 < n := by omega
      have hle := h i hi
      rw [upTo_of_lt hin, upTo_of_lt hi2] at hle
      rwa [upTo_of_lt (by omega), upTo_of_lt (by omega), Function.update_of_ne hne, Function.update_of_ne (by omega)]
    · rw [upTo_of_le (i := i) (by omega)]
      exact le_top
  · intro _ i hpar
    rw [hout i hpar]
    exact le_top

end Leaf

end Order

/-! ## Contents -/

/-- In the positions from 1 to `n - 1` the two arrays have the same things, in another order; elsewhere they agree. -/
def Shuffled (n : Nat) (a b : Nat → α) : Prop :=
  ∃ π : Equiv.Perm Nat, (∀ i, (1 ≤ π i ∧ π i < n) ↔ (1 ≤ i ∧ i < n)) ∧ ∀ i, b i = a (π i)

section Shuffled

variable {n p q : Nat} {a b c : Nat → α}

theorem Shuffled.refl (n : Nat) (a : Nat → α) : Shuffled n a a := ⟨Equiv.refl _, fun _ => Iff.rfl, fun _ => rfl⟩

theorem Shuffled.trans (h : Shuffled n a b) (h' : Shuffled n b c) : Shuffled n a c := by
  obtain ⟨π, hin, hπ⟩ := h
  obtain ⟨ρ, hin', hρ⟩ := h'
  exact ⟨ρ.trans π, fun i => (hin (ρ i)).trans (hin' i), fun i => (hρ i).trans (hπ (ρ i))⟩

theorem shuffled_swapped (hp : 1 ≤ p ∧ p < n) (hq : 1 ≤ q ∧ q < n) : Shuffled n a (swapped a p q) := by
  refine ⟨Equiv.swap p q, fun i => ?_, fun _ => rfl⟩
  by_cases hip : i = p
  · rw [hip, Equiv.swap_apply_left]
    exact ⟨fun _ => hp, fun _ => hq⟩
  by_cases hiq : i = q
  · rw [hiq, Equiv.swap_apply_right]
    exact ⟨fun _ => hq, fun _ => hp⟩
  · rw [Equiv.swap_apply_of_ne_of_ne hip hiq]

/-- Where a thing comes from. -/
theorem Shuffled.source (h : Shuffled n a b) {i : Nat} (hi : 1 ≤ i ∧ i < n) : ∃ j, (1 ≤ j ∧ j < n) ∧ b i = a j := by
  obtain ⟨π, hin, hπ⟩ := h
  exact ⟨π i, (hin i).2 hi, hπ i⟩

theorem Shuffled.symm (h : Shuffled n a b) : Shuffled n b a := by
  obtain ⟨π, hin, hπ⟩ := h
  refine ⟨π.symm, fun i => ?_, fun i => ?_⟩
  · rw [← hin (π.symm i), Equiv.apply_symm_apply]
  · rw [hπ, Equiv.apply_symm_apply]

/-- Nothing is there twice, as far as `f` can tell. -/
theorem Shuffled.once (h : Shuffled n a b) {γ : Type*} {f : α → γ}
    (ha : ∀ i j, (1 ≤ i ∧ i < n) → (1 ≤ j ∧ j < n) → f (a i) = f (a j) → i = j) {i j : Nat} (hi : 1 ≤ i ∧ i < n)
    (hj : 1 ≤ j ∧ j < n) (he : f (b i) = f (b j)) : i = j := by
  obtain ⟨π, hin, hπ⟩ := h
  rw [hπ, hπ] at he
  exact π.injective (ha _ _ ((hin i).2 hi) ((hin j).2 hj) he)

end Shuffled

end ToolLib.Base
