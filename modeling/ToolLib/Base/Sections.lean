import Mathlib.Data.List.TakeWhile
import Mathlib.Tactic.Common

/-!
# Sections of a list

A list is cut into sections, each from an item that starts one to the next such item (`sections`). In every section that
has a marked item something is inserted before the first one; what is inserted may differ from one insertion to the next
(`putSections`). A loop that passes over the items with a flag for a new section does the same (`putItems_eq`).

When the insertions are no longer than they should be, and the result is as long as it should be, none of them is shorter
(`full_of_length`).
-/

namespace ToolLib.Base

variable {α β : Type*}

/-- The sections: each item that satisfies `start` begins a new one. -/
def sections (start : α → Bool) : List α → List (List α)
  | [] => []
  | a :: l => (a :: l.takeWhile (!start ·)) :: sections start (l.dropWhile (!start ·))
  termination_by l => l.length
  decreasing_by exact Nat.lt_succ_of_le (List.length_dropWhile_le ..)

/-- One section with `x` before its first marked item. -/
def withInsert (mark : α → Bool) (out : α → List β) (x : List β) (sec : List α) : List β :=
  (sec.takeWhile (!mark ·)).flatMap out ++ (if sec.any mark then x else []) ++ (sec.dropWhile (!mark ·)).flatMap out

/-- The sections one after the other, with `ins i` as insertion number `i`. -/
def putSections (mark : α → Bool) (out : α → List β) : (Nat → List β) → List (List α) → List β
  | _, [] => []
  | ins, sec :: secs =>
    withInsert mark out (ins 0) sec ++ putSections mark out (if sec.any mark then fun i => ins (i + 1) else ins) secs

/-- The loop with a flag: is this still a new section, without an insertion? -/
def putItems (start mark : α → Bool) (out : α → List β) : (Nat → List β) → Bool → List α → List β
  | _, _, [] => []
  | ins, new, a :: l =>
    if (start a || new) && mark a then ins 0 ++ out a ++ putItems start mark out (fun i => ins (i + 1)) false l
    else out a ++ putItems start mark out ins (start a || new) l

/-- The number of sections with an insertion. -/
def marked (mark : α → Bool) (secs : List (List α)) : Nat := secs.countP (·.any mark)

section Sections

variable {start mark start' mark' : α → Bool} {out : α → List β} {ins ins' : Nat → List β} {x : List β}
  {sec rest l : List α} {secs : List (List α)} {new : Bool} {a : α}

theorem sections_cons : sections start (a :: l) =
    (a :: l.takeWhile (!start ·)) :: sections start (l.dropWhile (!start ·)) := by
  rw [sections]

/-- The rule for the sections: the first one, and the rest. -/
theorem sections_induct (start : α → Bool) {P : List α → Prop} (hnil : P [])
    (hcons : ∀ a l, P (l.dropWhile (!start ·)) → P (a :: l)) : ∀ l, P l
  | [] => hnil
  | a :: l => hcons a l (sections_induct start hnil hcons (l.dropWhile (!start ·)))
  termination_by l => l.length
  decreasing_by exact Nat.lt_succ_of_le (List.length_dropWhile_le ..)

/-! ## The loop with a flag -/

/-- Nothing is inserted in the rest of a section. -/
theorem putItems_false (h : ∀ a ∈ sec, start a = false) :
    putItems start mark out ins false (sec ++ rest) = sec.flatMap out ++ putItems start mark out ins false rest := by
  induction sec with
  | nil => rfl
  | cons a sec ih =>
    have ha : start a = false := h a List.mem_cons_self
    rw [List.cons_append, putItems, ha, Bool.or_self, ih fun b hb => h b (List.mem_cons_of_mem _ hb), List.flatMap_cons]
    exact (if_neg (by simp)).trans (List.append_assoc ..).symm

/-- One section, from its first item on. -/
theorem putItems_true (h : ∀ a ∈ sec.tail, start a = false) : putItems start mark out ins true (sec ++ rest) =
    withInsert mark out (ins 0) sec ++
      if sec.any mark then putItems start mark out (fun i => ins (i + 1)) false rest
      else putItems start mark out ins true rest := by
  induction sec with
  | nil => rfl
  | cons a sec ih =>
    rw [List.cons_append, putItems, Bool.or_true, Bool.true_and, withInsert]
    by_cases hmark : mark a = true
    · have hsec : ∀ b ∈ sec, start b = false := h
      rw [if_pos hmark, putItems_false hsec, List.takeWhile_cons_of_neg (by simp [hmark]),
        List.dropWhile_cons_of_neg (by simp [hmark])]
      simp [hmark]
    · have hrest := ih fun b hb => h b (List.mem_of_mem_tail hb)
      rw [if_neg hmark, hrest, withInsert, List.takeWhile_cons_of_pos (by simp [hmark]),
        List.dropWhile_cons_of_pos (by simp [hmark])]
      simp [hmark]

/-- Where a section begins, the flag does not matter. -/
theorem putItems_new (h : ∀ a ∈ rest.head?, start a = true) :
    putItems start mark out ins new rest = putItems start mark out ins true rest := by
  cases rest with
  | nil => rfl
  | cons a rest =>
    have ha := h a rfl
    rw [putItems, putItems, ha]
    rfl

/-- **The loop** inserts in the sections. -/
theorem putItems_eq : putItems start mark out ins true l = putSections mark out ins (sections start l) := by
  induction l using sections_induct start generalizing ins with
  | hnil => rw [sections]; rfl
  | hcons a l ih =>
    have hstart : ∀ b ∈ (l.dropWhile (!start ·)).head?, start b = true := by
      intro b hb
      have hstop := List.head?_dropWhile_not (!start ·) l
      rw [hb] at hstop
      simpa using hstop
    have hsec : ∀ b ∈ (a :: l.takeWhile (!start ·)).tail, start b = false := by
      intro b hb
      simpa using List.mem_takeWhile_imp hb
    have hsplit : a :: l = (a :: l.takeWhile (!start ·)) ++ l.dropWhile (!start ·) := by
      rw [List.cons_append, List.takeWhile_append_dropWhile]
    rw [sections_cons, putSections, ← ih, hsplit, putItems_true hsec]
    refine congrArg (withInsert mark out (ins 0) _ ++ ·) ?_
    split
    · exact putItems_new hstart
    · rfl

/-- What is asked of the items matters for the items of the list. -/
theorem putItems_congr (h : ∀ a ∈ l, start a = start' a ∧ mark a = mark' a) :
    putItems start mark out ins new l = putItems start' mark' out ins new l := by
  induction l generalizing ins new with
  | nil => rfl
  | cons a l ih =>
    obtain ⟨hstart, hmark⟩ := h a List.mem_cons_self
    have hrest : ∀ b ∈ l, start b = start' b ∧ mark b = mark' b := fun b hb => h b (List.mem_cons_of_mem _ hb)
    rw [putItems, putItems, hstart, hmark, ih hrest, ih hrest]

/-! ## What is inserted -/

theorem marked_cons : marked mark (sec :: secs) = marked mark secs + (sec.any mark).toNat := by
  rw [marked, List.countP_cons]
  cases sec.any mark <;> rfl

/-- The same insertion everywhere. -/
theorem putSections_const : putSections mark out (fun _ => x) secs = secs.flatMap (withInsert mark out x) := by
  induction secs with
  | nil => rfl
  | cons sec secs ih => rw [putSections, ite_self, ih, List.flatMap_cons]

/-- The insertions that are made matter. -/
theorem putSections_congr (h : ∀ i < marked mark secs, ins i = ins' i) :
    putSections mark out ins secs = putSections mark out ins' secs := by
  induction secs generalizing ins ins' with
  | nil => rfl
  | cons sec secs ih =>
    rw [marked_cons] at h
    rw [putSections, putSections, withInsert, withInsert]
    cases hany : sec.any mark with
    | true =>
      rw [hany] at h
      have hrest : putSections mark out (fun i => ins (i + 1)) secs = putSections mark out (fun i => ins' (i + 1)) secs :=
        ih fun i hi => h (i + 1) (Nat.succ_lt_succ hi)
      simp only [if_true, h 0 (Nat.succ_pos _), hrest]
    | false =>
      rw [hany] at h
      simp only [Bool.false_eq_true, if_false, ih h]

theorem length_putSections_le (h : ∀ i, (ins i).length ≤ x.length) :
    (putSections mark out ins secs).length ≤ (putSections mark out (fun _ => x) secs).length := by
  induction secs generalizing ins with
  | nil => exact Nat.le_refl _
  | cons sec secs ih =>
    have hfirst := h 0
    rw [putSections, putSections, withInsert, withInsert]
    cases sec.any mark with
    | true =>
      have hrest := ih fun i => h (i + 1)
      simp only [if_true, List.length_append]
      omega
    | false =>
      have hrest := ih h
      simp only [Bool.false_eq_true, if_false, List.length_append]
      omega

/-- **When the whole is long enough**, so is everything inserted. -/
theorem full_of_length (h : ∀ i, (ins i).length ≤ x.length)
    (hlen : (putSections mark out (fun _ => x) secs).length ≤ (putSections mark out ins secs).length) :
    ∀ i < marked mark secs, (ins i).length = x.length := by
  induction secs generalizing ins with
  | nil => exact fun i hi => absurd hi (Nat.not_lt_zero i)
  | cons sec secs ih =>
    have hfirst := h 0
    rw [putSections, putSections, withInsert, withInsert] at hlen
    rw [marked_cons]
    cases hany : sec.any mark with
    | true =>
      have hle : (putSections mark out (fun i => ins (i + 1)) secs).length ≤
          (putSections mark out (fun _ => x) secs).length := length_putSections_le fun i => h (i + 1)
      simp only [hany, if_true, List.length_append] at hlen
      intro i hi
      cases i with
      | zero => omega
      | succ i => exact ih (fun i => h (i + 1)) (by omega) i (Nat.lt_of_succ_lt_succ hi)
    | false =>
      simp only [hany, Bool.false_eq_true, if_false, List.length_append] at hlen
      exact ih h (by omega)

end Sections

end ToolLib.Base
