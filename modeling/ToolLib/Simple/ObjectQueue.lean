import Mathlib.Data.List.Nodup
import Mathlib.Tactic.Common

/-!
# `ObjectQueue`

The elements of a queue as a list, the oldest (`GetHead`) first. An element is known by the object it encloses. The
iterator starts at the head and follows `Prev()` to the tail, so it meets the elements in the order they were added,
those added behind it included (`Walk`).
-/

namespace ToolLib.Simple.ObjectQueue

variable {ι : Type*} [DecidableEq ι]

/-- `EnQueue`: an element of the queue stays where it is. -/
def enQueue (q : List ι) (elem : ι) : List ι := if elem ∈ q then q else q ++ [elem]

/-- `Remove`: nothing happens to an element that is not in the queue. -/
def remove (q : List ι) (elem : ι) : List ι := q.erase elem

/-- `GetHead`, `none` for `NULL`. -/
def getHead (q : List ι) : Option ι := q.head?

/-- `ObjectQueueIter::Next` at the element `cur`, `none` when it was the tail. -/
def next : List ι → ι → Option ι
  | [], _ => none
  | x :: xs, cur => if x = cur then xs.head? else next xs cur

variable {q : List ι} {e x : ι}

@[simp] theorem mem_enQueue : x ∈ enQueue q e ↔ x ∈ q ∨ x = e := by
  unfold enQueue
  split
  · rename_i he
    exact ⟨Or.inl, fun h => h.elim id fun hx => hx ▸ he⟩
  · simp

theorem nodup_enQueue (h : q.Nodup) : (enQueue q e).Nodup := by
  unfold enQueue
  split
  · exact h
  · rename_i he
    exact h.append (List.nodup_singleton e) (by simpa using he)

theorem mem_remove (h : q.Nodup) : x ∈ remove q e ↔ x ≠ e ∧ x ∈ q := h.mem_erase_iff

theorem nodup_remove (h : q.Nodup) : (remove q e).Nodup := h.erase e

theorem next_mem (h : next q x = some e) : e ∈ q := by
  induction q with
  | nil => cases h
  | cons y q ih =>
    simp only [next] at h
    split at h
    · exact List.mem_cons_of_mem _ (List.mem_of_mem_head? h)
    · exact List.mem_cons_of_mem _ (ih h)

/-! ## fLength -/

section Length

variable {fLength : UInt32} {n : Nat}

/-- An element more, as long as `fLength` does not wrap. -/
theorem fLength_add (h : fLength.toNat = n) (hless : n < 4294967295) : (fLength + 1).toNat = n + 1 := by
  rw [UInt32.toNat_add, h]
  exact Nat.mod_eq_of_lt (Nat.succ_lt_succ hless)

theorem fLength_sub (h : fLength.toNat = n + 1) : (fLength - 1).toNat = n := by
  have hone : (1 : UInt32) ≤ fLength := by
    rw [UInt32.le_iff_toNat_le, h]
    exact Nat.le_add_left 1 n
  rw [UInt32.toNat_sub_of_le _ _ hone, h]
  rfl

end Length

/-! ## Walks -/

/-- An iterator stands at `cur`; the elements it has passed satisfy `D`, those behind `cur` satisfy `P`. -/
structure Walk (D P : ι → Prop) (q : List ι) (cur : ι) : Prop where
  nodup : q.Nodup
  parts : ∃ xs ys, q = xs ++ cur :: ys ∧ (∀ j ∈ xs, D j) ∧ ∀ j ∈ ys, P j

section Walk

variable {D P D' P' : ι → Prop} {cur k : ι} {xs ys : List ι}

theorem next_split (h : cur ∉ xs) : next (xs ++ cur :: ys) cur = ys.head? := by
  induction xs with
  | nil => simp [next]
  | cons x xs ih =>
    have hx : x ≠ cur := fun he => h (he ▸ List.mem_cons_self)
    simp only [List.cons_append, next, if_neg hx]
    exact ih fun hc => h (List.mem_cons_of_mem _ hc)

omit [DecidableEq ι] in
theorem Walk.mem (h : Walk D P q cur) : cur ∈ q := by
  obtain ⟨xs, ys, rfl, -, -⟩ := h.parts
  exact List.mem_append_right _ List.mem_cons_self

omit [DecidableEq ι] in
/-- The walk begins at the head. -/
theorem walk_head (hq : q.Nodup) (h : ∀ j ∈ q, P j) (hcur : getHead q = some cur) : Walk D P q cur ∧ P cur := by
  cases q with
  | nil => cases hcur
  | cons x q =>
    cases hcur
    exact ⟨⟨hq, [], q, rfl, by simp, fun j hj => h j (List.mem_cons_of_mem _ hj)⟩, h _ List.mem_cons_self⟩

/-- The walk ends at the tail. -/
theorem Walk.next_none (h : Walk D P q cur) (hcur : D cur) (hn : next q cur = none) : ∀ j ∈ q, D j := by
  obtain ⟨xs, ys, rfl, hx, -⟩ := h.parts
  have hc : cur ∉ xs := (List.nodup_middle.1 h.nodup).notMem ∘ List.mem_append_left _
  rw [next_split hc, List.head?_eq_none_iff] at hn
  subst hn
  intro j hj
  rcases List.mem_append.1 hj with hj | hj
  · exact hx j hj
  · rw [List.mem_singleton.1 hj]; exact hcur

theorem Walk.next_some (h : Walk D P q cur) (hcur : D cur) (hn : next q cur = some k) : Walk D P q k ∧ P k := by
  obtain ⟨xs, ys, rfl, hx, hy⟩ := h.parts
  have hc : cur ∉ xs := (List.nodup_middle.1 h.nodup).notMem ∘ List.mem_append_left _
  rw [next_split hc] at hn
  cases ys with
  | nil => cases hn
  | cons y ys =>
    cases hn
    refine ⟨⟨h.nodup, xs ++ [cur], ys, by simp, fun j hj => ?_, fun j hj => hy j (List.mem_cons_of_mem _ hj)⟩,
      hy _ List.mem_cons_self⟩
    rcases List.mem_append.1 hj with hj | hj
    · exact hx j hj
    · rw [List.mem_singleton.1 hj]; exact hcur

omit [DecidableEq ι] in
/-- What is known of the other elements may change. -/
theorem Walk.imp (h : Walk D P q cur) (hD : ∀ j ∈ q, j ≠ cur → D j → D' j) (hP : ∀ j ∈ q, j ≠ cur → P j → P' j) :
    Walk D' P' q cur := by
  obtain ⟨xs, ys, rfl, hx, hy⟩ := h.parts
  have hc := (List.nodup_middle.1 h.nodup).notMem
  refine ⟨h.nodup, xs, ys, rfl, fun j hj => hD j (by simp [hj]) (fun he => hc ?_) (hx j hj),
    fun j hj => hP j (by simp [hj]) (fun he => hc ?_) (hy j hj)⟩
  · exact he ▸ List.mem_append_left _ hj
  · exact he ▸ List.mem_append_right _ hj

/-- A new element comes in behind. -/
theorem Walk.enQueue (h : Walk D P q cur) (hk : k ∉ q → P k) : Walk D P (enQueue q k) cur := by
  refine ⟨nodup_enQueue h.nodup, ?_⟩
  obtain ⟨xs, ys, rfl, hx, hy⟩ := h.parts
  unfold ObjectQueue.enQueue
  split
  · exact ⟨xs, ys, rfl, hx, hy⟩
  · rename_i hn
    refine ⟨xs, ys ++ [k], by simp, hx, fun j hj => ?_⟩
    rcases List.mem_append.1 hj with hj | hj
    · exact hy j hj
    · rw [List.mem_singleton.1 hj]; exact hk hn

/-- Another element leaves. -/
theorem Walk.remove (h : Walk D P q cur) (hk : k ≠ cur) : Walk D P (remove q k) cur := by
  refine ⟨nodup_remove h.nodup, ?_⟩
  have hq := h.nodup.erase_eq_filter k
  obtain ⟨xs, ys, rfl, hx, hy⟩ := h.parts
  refine ⟨xs.filter (· != k), ys.filter (· != k), ?_, fun j hj => hx j (List.mem_filter.1 hj).1,
    fun j hj => hy j (List.mem_filter.1 hj).1⟩
  unfold ObjectQueue.remove
  rw [hq, List.filter_append, List.filter_cons_of_pos (by simpa using hk.symm)]

/-- The current element leaves: the others are on one of the two sides. -/
theorem Walk.remove_self (h : Walk D P q cur) {j : ι} (hj : j ∈ ObjectQueue.remove q cur) :
    D j ∨ P j ∧ next q cur ≠ none := by
  obtain ⟨hne, hq⟩ := (mem_remove h.nodup).1 hj
  obtain ⟨xs, ys, rfl, hx, hy⟩ := h.parts
  have hc : cur ∉ xs := (List.nodup_middle.1 h.nodup).notMem ∘ List.mem_append_left _
  rcases List.mem_append.1 hq with hm | hm
  · exact Or.inl (hx j hm)
  · have hm : j ∈ ys := (List.mem_cons.1 hm).resolve_left hne
    refine Or.inr ⟨hy j hm, ?_⟩
    rw [next_split hc]
    exact fun hn => List.ne_nil_of_mem hm (List.head?_eq_none_iff.1 hn)

end Walk

end ToolLib.Simple.ObjectQueue
