import Mathlib.Data.List.GetD
import Mathlib.Data.List.Nodup
import Mathlib.Logic.Function.Basic
import Mathlib.Tactic.Common

/-!
# Scans

The loop `while (!p(i) && i < n) i++`, which tests the position before the bound: where it stops (`stop`) and which
positions it tests (`tested`), the one behind the last among them when `p` holds nowhere.

An array of `n` entries is filled from the front when the entries of a list come first and all others are `empty`
(`Fills`). Then the first empty entry is behind the list, writing there appends to it (`Fills.put`), and the loop that
empties the array up to its first empty entry finds the list (`Fills.drain`).
-/

namespace ToolLib.Base

namespace Scan

section Loop

variable (p : Nat → Prop) [DecidablePred p]

/-- Where the scan from `pos` stops, `left` positions before its bound. -/
def stop : Nat → Nat → Nat
  | pos, 0 => pos
  | pos, left + 1 => if p pos then pos else stop (pos + 1) left

/-- The positions that the scan tests. -/
def tested : Nat → Nat → List Nat
  | pos, 0 => [pos]
  | pos, left + 1 => pos :: if p pos then [] else tested (pos + 1) left

variable {p} {pos left i n : Nat}

theorem le_stop : pos ≤ stop p pos left := by
  induction left generalizing pos with
  | zero => exact Nat.le_refl _
  | succ left ih =>
    unfold stop
    split
    · exact Nat.le_refl _
    · exact Nat.le_of_succ_le ih

theorem stop_le : stop p pos left ≤ pos + left := by
  induction left generalizing pos with
  | zero => exact Nat.le_refl _
  | succ left ih =>
    unfold stop
    split
    · omega
    · have h : stop p (pos + 1) left ≤ pos + 1 + left := ih
      omega

theorem stop_end (h : ¬ p (stop p pos left)) : stop p pos left = pos + left := by
  induction left generalizing pos with
  | zero => rfl
  | succ left ih =>
    unfold stop at h ⊢
    split at h
    next hp => exact absurd hp h
    next hp =>
      rw [if_neg hp, ih h]
      omega

theorem not_before (hpos : pos ≤ i) (hi : i < stop p pos left) : ¬ p i := by
  induction left generalizing pos with
  | zero =>
    unfold stop at hi
    omega
  | succ left ih =>
    unfold stop at hi
    split at hi
    next hp => omega
    next hp =>
      rcases Nat.eq_or_lt_of_le hpos with rfl | hlt
      · exact hp
      · exact ih hlt hi

theorem stop_lt_iff : stop p pos left < pos + left ↔ ∃ i, pos ≤ i ∧ i < pos + left ∧ p i := by
  constructor
  · intro h
    refine ⟨stop p pos left, le_stop, h, ?_⟩
    by_contra hp
    have := stop_end hp
    omega
  · rintro ⟨i, hpos, hi, hp⟩
    by_contra h
    exact not_before hpos (Nat.lt_of_lt_of_le hi (Nat.le_of_not_lt h)) hp

theorem mem_tested : i ∈ tested p pos left ↔ pos ≤ i ∧ i ≤ stop p pos left := by
  induction left generalizing pos with
  | zero =>
    simp only [tested, stop, List.mem_singleton]
    omega
  | succ left ih =>
    unfold tested stop
    split
    next hp =>
      simp only [List.mem_singleton]
      omega
    next hp =>
      have hle : pos + 1 ≤ stop p (pos + 1) left := le_stop
      rw [List.mem_cons, ih]
      omega

theorem tested_lt_iff : (∀ i ∈ tested p pos left, i < n) ↔ stop p pos left < n := by
  constructor
  · exact fun h => h _ (mem_tested.2 ⟨le_stop, Nat.le_refl _⟩)
  · exact fun h i hi => Nat.lt_of_le_of_lt (mem_tested.1 hi).2 h

end Loop

/-! ## Arrays that are filled from the front -/

section Array

variable {ι : Type*} {empty x : ι} {array : Nat → ι} {l : List ι} {i j n left : Nat}

/-- The `n` entries are those of the list, and then empty ones. -/
structure Fills (n : Nat) (empty : ι) (array : Nat → ι) (l : List ι) : Prop where
  short : l.length ≤ n
  entry : ∀ i, i < n → array i = l.getD i empty
  used : ∀ x ∈ l, x ≠ empty

theorem fills_nil (h : ∀ i, i < n → array i = empty) : Fills n empty array [] :=
  ⟨Nat.zero_le _, h, by simp⟩

namespace Fills

theorem entry_eq (h : Fills n empty array l) (hi : i < l.length) : array i = l[i] := by
  rw [h.entry i (Nat.lt_of_lt_of_le hi h.short), List.getD_eq_getElem _ _ hi]

theorem ne_empty_iff (h : Fills n empty array l) (hi : i < n) : array i ≠ empty ↔ i < l.length := by
  constructor
  · intro hne
    by_contra hlt
    rw [h.entry i hi, List.getD_eq_default _ _ (by omega)] at hne
    exact hne rfl
  · intro hlt
    rw [h.entry_eq hlt]
    exact h.used _ (List.getElem_mem hlt)

theorem prefix_of_ne (h : Fills n empty array l) (hij : i ≤ j) (hj : j < n) (hne : array j ≠ empty) :
    array i ≠ empty :=
  (h.ne_empty_iff (by omega)).2 (Nat.lt_of_le_of_lt hij ((h.ne_empty_iff hj).1 hne))

theorem eq_of_nodup (h : Fills n empty array l) (hl : l.Nodup) (hi : i < n) (hj : j < n) (hne : array i ≠ empty)
    (heq : array i = array j) : i = j := by
  have hlti := (h.ne_empty_iff hi).1 hne
  have hltj := (h.ne_empty_iff hj).1 (heq ▸ hne)
  rw [h.entry_eq hlti, h.entry_eq hltj] at heq
  exact (List.Nodup.getElem_inj_iff hl).1 heq

/-- One entry is empty, unless the list is as long as the array. -/
theorem exists_empty (h : Fills n empty array l) (hn : l.length < n) : ∃ i, i < n ∧ array i = empty :=
  ⟨l.length, hn, by rw [h.entry _ hn, List.getD_eq_default _ _ (Nat.le_refl _)]⟩

end Fills

variable [DecidableEq ι]

/-- The loop that empties the array up to its first empty entry: the array, and what it found. -/
def drain (empty : ι) (array : Nat → ι) : Nat → Nat → (Nat → ι) × List ι
  | _, 0 => (array, [])
  | i, left + 1 =>
    if array i = empty then (array, [])
    else
      let rest := drain empty (Function.update array i empty) (i + 1) left
      (rest.1, array i :: rest.2)

namespace Fills

/-- The first empty entry. -/
theorem stop_eq (h : Fills n empty array l) : stop (array · = empty) 0 n = l.length := by
  refine Nat.le_antisymm ?_ ?_
  · by_contra hlt
    refine not_before (Nat.zero_le l.length) (Nat.lt_of_not_le hlt) ?_
    have hn : stop (array · = empty) 0 n ≤ 0 + n := stop_le
    rw [h.entry _ (by omega), List.getD_eq_default _ _ (Nat.le_refl _)]
  · by_contra hlt
    have hn := h.short
    have hend := stop_end (p := (array · = empty)) ((h.ne_empty_iff (by omega)).2 (Nat.lt_of_not_le hlt))
    omega

/-- The first empty entry takes the next element. -/
theorem put (h : Fills n empty array l) (hn : l.length < n) (hx : x ≠ empty) :
    Fills n empty (Function.update array (stop (array · = empty) 0 n) x) (l ++ [x]) where
  short := by
    rw [List.length_append]
    exact hn
  entry i hi := by
    rw [h.stop_eq]
    rcases Nat.lt_trichotomy i l.length with hlt | rfl | hgt
    · rw [Function.update_of_ne (by omega), h.entry i hi, List.getD_append _ _ _ _ hlt]
    · rw [Function.update_self, List.getD_append_right _ _ _ _ (Nat.le_refl _)]
      simp
    · rw [Function.update_of_ne (by omega), h.entry i hi, List.getD_eq_default _ _ (by omega),
        List.getD_eq_default _ _ (by rw [List.length_append]; exact hgt)]
  used y hy := by
    rcases List.mem_append.1 hy with hy | hy
    · exact h.used y hy
    · rw [List.mem_singleton.1 hy]
      exact hx

end Fills

/-- The loop that has come to `i`. -/
theorem drain_eq (hlen : l.length ≤ left) (hentry : ∀ j, j < left → array (i + j) = l.getD j empty)
    (hused : ∀ x ∈ l, x ≠ empty) : (drain empty array i left).2 = l ∧
      (∀ j, j < left → (drain empty array i left).1 (i + j) = empty) ∧
      ∀ j, j < i → (drain empty array i left).1 j = array j := by
  induction left generalizing i l array with
  | zero =>
    obtain rfl := List.eq_nil_of_length_eq_zero (Nat.le_zero.1 hlen)
    exact ⟨rfl, fun j hj => absurd hj (Nat.not_lt_zero _), fun _ _ => rfl⟩
  | succ left ih =>
    have hfirst := hentry 0 (Nat.succ_pos _)
    unfold drain
    cases l with
    | nil =>
      rw [if_pos (by simpa using hfirst)]
      exact ⟨rfl, fun j hj => by simpa using hentry j hj, fun _ _ => rfl⟩
    | cons x l =>
      have hx : array i = x := by simpa using hfirst
      rw [if_neg (by rw [hx]; exact hused x List.mem_cons_self)]
      have hrest : ∀ j, j < left → Function.update array i empty (i + 1 + j) = l.getD j empty := by
        intro j hj
        rw [Function.update_of_ne (by omega), show i + 1 + j = i + (j + 1) by omega]
        exact hentry (j + 1) (by omega)
      obtain ⟨hfound, hempty, hbefore⟩ :=
        ih (by simpa using hlen) hrest fun y hy => hused y (List.mem_cons_of_mem _ hy)
      refine ⟨by simp only [hfound, hx], fun j hj => ?_, fun j hj => ?_⟩
      · rcases j with _ | j
        · exact (hbefore i (Nat.lt_succ_self i)).trans (Function.update_self ..)
        · rw [show i + (j + 1) = i + 1 + j by omega]
          exact hempty j (by omega)
      · exact (hbefore j (by omega)).trans (Function.update_of_ne (by omega) ..)

/-- The loop finds the list, and leaves an empty array. -/
theorem Fills.drain (h : Fills n empty array l) : (drain empty array 0 n).2 = l ∧
    Fills n empty (Scan.drain empty array 0 n).1 [] := by
  obtain ⟨hfound, hempty, -⟩ := drain_eq (i := 0) h.short (fun j hj => by simpa using h.entry j hj) h.used
  exact ⟨hfound, fills_nil fun j hj => by simpa using hempty j hj⟩

end Array

end Scan

end ToolLib.Base
