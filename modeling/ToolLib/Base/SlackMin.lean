import Mathlib.Algebra.Order.Group.Defs
import Mathlib.Algebra.Order.Monoid.Unbundled.Basic
import Mathlib.Tactic.Common

/-!
# A running minimum with slack

A loop that looks for the smallest value of a list, but remembers each new smallest value with a slack `d` on top
(`slackMin`). The next value is compared with the remembered one, so a value that is larger than the smallest one, by
less than `d`, takes its place: the result depends on the order of the list.

- `slackMin_eq`: only the last smallest value matters, and what comes after it;
- `slackMin_le_iff`: the result is at most `d` above every value exactly when no value after the last smallest one is in
  its slack;
- `slackMin_cases`: what the result is then.
-/

namespace ToolLib.Base

variable {α : Type*} [LinearOrder α]

/-- The remembered value after the loop, when it was `i` before. -/
def slackMin [Add α] (d : α) : α → List α → α
  | i, [] => i
  | i, r :: rs => slackMin d (if r < i then r + d else i) rs

/-- The list, with its last smallest value in the middle. -/
structure LastSmallest (rs before : List α) (m : α) (after : List α) : Prop where
  split : rs = before ++ m :: after
  before_ge : ∀ r ∈ before, m ≤ r
  after_gt : ∀ r ∈ after, m < r

/-- No value after the last smallest one is in its slack; only values below `i` count. -/
def Settled [Add α] (d i : α) (rs : List α) : Prop :=
  ∀ before m after, LastSmallest rs before m after → m < i → ∀ r ∈ after, m + d ≤ r

section LastSmallest

variable {rs before after : List α} {m : α}

theorem LastSmallest.mem (h : LastSmallest rs before m after) : m ∈ rs := by
  rw [h.split]
  exact List.mem_append_right _ List.mem_cons_self

theorem LastSmallest.le (h : LastSmallest rs before m after) : ∀ r ∈ rs, m ≤ r := by
  intro r hr
  rw [h.split] at hr
  rcases List.mem_append.1 hr with hr | hr
  · exact h.before_ge r hr
  rcases List.mem_cons.1 hr with rfl | hr
  · exact le_rfl
  · exact (h.after_gt r hr).le

theorem exists_lastSmallest : ∀ {rs : List α}, rs ≠ [] → ∃ before m after, LastSmallest rs before m after
  | [], h => absurd rfl h
  | [a], _ => ⟨[], a, [], rfl, by simp, by simp⟩
  | a :: b :: rs, _ => by
    obtain ⟨before, m, after, h⟩ := exists_lastSmallest (List.cons_ne_nil b rs)
    rcases le_or_gt m a with hle | hlt
    · exact ⟨a :: before, m, after, by rw [h.split]; rfl, List.forall_mem_cons.2 ⟨hle, h.before_ge⟩, h.after_gt⟩
    · exact ⟨[], a, b :: rs, rfl, by simp, fun r hr => hlt.trans_le (h.le r hr)⟩

end LastSmallest

variable [AddCommGroup α] [IsOrderedAddMonoid α] {d i m : α} {rs rs' : List α}

omit [IsOrderedAddMonoid α] in
theorem slackMin_append : slackMin d i (rs ++ rs') = slackMin d (slackMin d i rs) rs' := by
  induction rs generalizing i with
  | nil => rfl
  | cons r rs ih => exact ih

omit [IsOrderedAddMonoid α] in
/-- No value is smaller than the remembered one. -/
theorem slackMin_of_le (h : ∀ r ∈ rs, i ≤ r) : slackMin d i rs = i := by
  induction rs with
  | nil => rfl
  | cons r rs ih =>
    obtain ⟨hr, hrs⟩ := List.forall_mem_cons.1 h
    rw [slackMin, if_neg (not_lt.2 hr)]
    exact ih hrs

/-- What is below all values and the first remembered one is below the result. -/
theorem lt_slackMin (hd : 0 < d) (hi : m < i) (h : ∀ r ∈ rs, m ≤ r) : m < slackMin d i rs := by
  induction rs generalizing i with
  | nil => exact hi
  | cons r rs ih =>
    obtain ⟨hr, hrs⟩ := List.forall_mem_cons.1 h
    refine ih ?_ hrs
    split
    · exact lt_of_le_of_lt hr (lt_add_of_pos_right r hd)
    · exact hi

/-- The slack above a value that is below all others is not undercut again. -/
theorem add_lt_slackMin (hi : m + d < i) (h : ∀ r ∈ rs, m < r) : m + d < slackMin d i rs := by
  induction rs generalizing i with
  | nil => exact hi
  | cons r rs ih =>
    obtain ⟨hr, hrs⟩ := List.forall_mem_cons.1 h
    refine ih ?_ hrs
    split
    · exact (add_lt_add_iff_right d).2 hr
    · exact hi

/-- **Only the last smallest value matters**, and what comes after it. -/
theorem slackMin_eq (hd : 0 < d) {before after : List α} (h : LastSmallest rs before m after) (hi : m < i) :
    slackMin d i rs = slackMin d (m + d) after := by
  rw [h.split, slackMin_append, slackMin, if_pos (lt_slackMin hd hi h.before_ge)]

/-- After the smallest value: the result is at most `d` above it exactly when no later value is in its slack. -/
theorem slackMin_after_le_iff (h : ∀ r ∈ rs, m < r) : slackMin d (m + d) rs ≤ m + d ↔ ∀ r ∈ rs, m + d ≤ r := by
  constructor
  · intro hle
    induction rs with
    | nil => simp
    | cons r rs ih =>
      obtain ⟨hr, hrs⟩ := List.forall_mem_cons.1 h
      rw [slackMin] at hle
      by_cases hlt : r < m + d
      · rw [if_pos hlt] at hle
        exact absurd hle (not_le.2 (add_lt_slackMin ((add_lt_add_iff_right d).2 hr) hrs))
      · rw [if_neg hlt] at hle
        exact List.forall_mem_cons.2 ⟨not_lt.1 hlt, ih hrs hle⟩
  · intro hge
    exact (slackMin_of_le hge).le

/-- **The exact condition**: the result is at most `d` above every value. -/
theorem slackMin_le_iff (hd : 0 < d) : (∀ r ∈ rs, slackMin d i rs ≤ r + d) ↔ Settled d i rs := by
  constructor
  · intro hle before m after h hi
    have hm := hle m h.mem
    rw [slackMin_eq hd h hi] at hm
    exact (slackMin_after_le_iff h.after_gt).1 hm
  · intro hset r hr
    obtain ⟨before, m, after, h⟩ := exists_lastSmallest (List.ne_nil_of_mem hr)
    have hmr : m + d ≤ r + d := (add_le_add_iff_right d).2 (h.le r hr)
    rcases lt_or_ge m i with hi | hi
    · rw [slackMin_eq hd h hi]
      exact ((slackMin_after_le_iff h.after_gt).2 (hset before m after h hi)).trans hmr
    · rw [slackMin_of_le fun r hr => hi.trans (h.le r hr)]
      exact (hi.trans (le_add_of_nonneg_right hd.le)).trans hmr

/-- What the result is: what was remembered before, when no value is below that, and else the smallest value with the
slack on top. -/
theorem slackMin_cases (hd : 0 < d) (h : Settled d i rs) :
    (∀ r ∈ rs, i ≤ r) ∧ slackMin d i rs = i ∨
      ∃ m ∈ rs, m < i ∧ (∀ r ∈ rs, m ≤ r) ∧ slackMin d i rs = m + d := by
  by_cases hall : ∀ r ∈ rs, i ≤ r
  · exact Or.inl ⟨hall, slackMin_of_le hall⟩
  · obtain ⟨r, hr, hri⟩ : ∃ r ∈ rs, r < i := by
      simpa only [not_forall, not_le, exists_prop] using hall
    obtain ⟨before, m, after, hm⟩ := exists_lastSmallest (List.ne_nil_of_mem hr)
    have hi : m < i := (hm.le r hr).trans_lt hri
    refine Or.inr ⟨m, hm.mem, hi, hm.le, ?_⟩
    rw [slackMin_eq hd hm hi]
    exact slackMin_of_le (h before m after hm hi)

end ToolLib.Base
