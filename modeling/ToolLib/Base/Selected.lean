import Mathlib.Data.List.Basic
import Mathlib.Data.List.Induction
import Mathlib.Data.List.Perm.Subperm
import Mathlib.Tactic.Common

/-!
# Items in the order of their kinds

- `byKind`: the items of a list in the order of their kinds, of some kinds only the first one; the items of one kind stay in
  the order of the list (`pairwise_byKind`), what is left out is a later item of such a kind (`not_mem_byKind`,
  `first_of_single`), and what has been selected is not changed by selecting again (`byKind_self`);
- `keeping`: the items that pass a test which may look at the items kept before (`not_mem_keeping`, `keeping_keeping`). When
  only what has been seen makes an item fail, what is kept has been seen as soon as all that came has (`seen_keeping`).
-/

namespace ToolLib.Base

variable {α β κ : Type*}

/-- The first item with a property. -/
theorem exists_first {P : α → Prop} {items : List α} (h : ∃ x ∈ items, P x) :
    ∃ before x after, items = before ++ x :: after ∧ P x ∧ ∀ y ∈ before, ¬P y := by
  classical
  have hfind : (items.find? fun x => P x).isSome := List.find?_isSome.2 (by simpa using h)
  obtain ⟨x, hx⟩ := Option.isSome_iff_exists.1 hfind
  obtain ⟨hP, before, after, hsplit, hnot⟩ := List.find?_eq_some_iff_append.1 hx
  exact ⟨before, x, after, hsplit, by simpa using hP, by simpa using hnot⟩

/-! ## Kinds -/

section Kinds

variable [DecidableEq κ] {kind : α → κ} {single : κ → Bool} {items l : List α} {order : List κ} {k : κ} {x : α}

/-- The items of one kind, or the first one. -/
def ofKind (kind : α → κ) (single : κ → Bool) (items : List α) (k : κ) : List α :=
  if single k then (items.filter fun x => kind x = k).take 1 else items.filter fun x => kind x = k

/-- The items in the order of their kinds. -/
def byKind (kind : α → κ) (single : κ → Bool) (order : List κ) (items : List α) : List α :=
  order.flatMap (ofKind kind single items)

theorem ofKind_sublist : (ofKind kind single items k).Sublist (items.filter fun x => kind x = k) := by
  rw [ofKind]
  split
  · exact List.take_sublist ..
  · exact List.Sublist.refl _

theorem mem_of_mem_ofKind (h : x ∈ ofKind kind single items k) : x ∈ items ∧ kind x = k := by
  simpa using ofKind_sublist.subset h

theorem mem_of_mem_byKind (h : x ∈ byKind kind single order items) : x ∈ items ∧ kind x ∈ order := by
  obtain ⟨k, hk, hx⟩ := List.mem_flatMap.1 h
  obtain ⟨hmem, rfl⟩ := mem_of_mem_ofKind hx
  exact ⟨hmem, hk⟩

theorem byKind_map (f : β → α) (items : List β) :
    byKind kind single order (items.map f) = (byKind (kind ∘ f) single order items).map f := by
  have hone (k : κ) : ofKind kind single (items.map f) k = (ofKind (kind ∘ f) single items k).map f := by
    rw [ofKind, ofKind]
    split
    · rw [List.filter_map, List.map_take]
      rfl
    · exact List.filter_map
  rw [byKind, byKind, List.map_flatMap]
  exact congrArg (List.flatMap · order) (funext hone)

/-- Items of different kinds stand in the order of the kinds, items of one kind in the order of the list. -/
theorem pairwise_byKind {R : α → α → Prop}
    (hkinds : order.Pairwise fun k k' => ∀ x y, kind x = k → kind y = k' → R x y)
    (hitems : items.Pairwise fun x y => kind x = kind y → R x y) : (byKind kind single order items).Pairwise R := by
  refine List.pairwise_flatMap.2 ⟨fun k _ => ?_, hkinds.imp fun h x hx y hy => ?_⟩
  · have hsub := (hitems.sublist List.filter_sublist).sublist (@ofKind_sublist _ _ _ kind single items k)
    refine hsub.imp_of_mem fun hx hy h => h ?_
    rw [(mem_of_mem_ofKind hx).2, (mem_of_mem_ofKind hy).2]
  · exact h x y (mem_of_mem_ofKind hx).2 (mem_of_mem_ofKind hy).2

/-- What is left out comes after an item of the same kind. -/
theorem not_mem_byKind (hx : x ∈ items) (hk : kind x ∈ order) (hnot : x ∉ byKind kind single order items) :
    single (kind x) = true ∧ ∃ before after y, items = before ++ x :: after ∧ y ∈ before ∧ kind y = kind x := by
  have hnone : x ∉ ofKind kind single items (kind x) := fun h => hnot (List.mem_flatMap.2 ⟨kind x, hk, h⟩)
  have hfilter : x ∈ items.filter fun z => kind z = kind x := by simp [hx]
  cases hs : single (kind x) with
  | false =>
    rw [ofKind, hs] at hnone
    exact absurd hfilter hnone
  | true =>
    refine ⟨rfl, ?_⟩
    rw [ofKind, hs, if_pos rfl] at hnone
    obtain ⟨y, ys, hys⟩ := List.exists_cons_of_ne_nil (List.ne_nil_of_mem hfilter)
    rw [hys] at hfilter hnone
    have hxys : x ∈ ys := (List.mem_cons.1 hfilter).resolve_left (by simpa using hnone)
    obtain ⟨l₁, l₂, hitems, -, hy, hl₂⟩ := List.filter_eq_cons_iff.1 hys
    rw [← hl₂] at hxys
    obtain ⟨s, t, rfl⟩ := List.append_of_mem (List.mem_filter.1 hxys).1
    refine ⟨l₁ ++ y :: s, t, y, ?_, by simp, by simpa using hy⟩
    rw [hitems, List.append_assoc, List.cons_append]

/-- Of some kinds only the first item is selected. -/
theorem first_of_single {R : α → α → Prop} (hitems : items.Pairwise R) (hx : x ∈ byKind kind single order items)
    (hs : single (kind x) = true) {y : α} (hy : y ∈ items) (hk : kind y = kind x) : y = x ∨ R x y := by
  obtain ⟨k, -, hx⟩ := List.mem_flatMap.1 hx
  obtain ⟨-, rfl⟩ := mem_of_mem_ofKind hx
  rw [ofKind, if_pos hs] at hx
  have hyf : y ∈ items.filter fun z => kind z = kind x := by simp [hy, hk]
  have hpair := hitems.sublist (List.filter_sublist (p := fun z => decide (kind z = kind x)))
  cases hitems' : items.filter fun z => kind z = kind x with
  | nil =>
    rw [hitems'] at hyf
    cases hyf
  | cons z zs =>
    rw [hitems'] at hx hyf hpair
    obtain rfl : x = z := by simpa using hx
    exact (List.mem_cons.1 hyf).imp id ((List.pairwise_cons.1 hpair).1 y)

/-- Selecting again changes nothing. -/
theorem byKind_self (horder : order.Nodup) (h : l.Sublist (byKind kind single order items)) :
    byKind kind single order l = l := by
  induction order generalizing l with
  | nil =>
    have hnil : l = [] := List.eq_nil_of_subset_nil h.subset
    rw [hnil]
    rfl
  | cons k order ih =>
    obtain ⟨hk, horder⟩ := List.nodup_cons.1 horder
    obtain ⟨l₁, l₂, rfl, h₁, h₂⟩ := List.sublist_append_iff.1 h
    have hkind₁ : ∀ x ∈ l₁, kind x = k := fun x hx => (mem_of_mem_ofKind (h₁.subset hx)).2
    have hkind₂ : ∀ x ∈ l₂, kind x ∈ order := fun x hx => (mem_of_mem_byKind (h₂.subset hx)).2
    have hone : (l₁ ++ l₂).filter (fun x => kind x = k) = l₁ := by
      rw [List.filter_append, List.filter_eq_self.2 (by simpa using hkind₁), List.filter_eq_nil_iff.2, List.append_nil]
      intro x hx
      have hne : kind x ≠ k := fun heq => hk (heq ▸ hkind₂ x hx)
      simpa using hne
    have hfirst : ofKind kind single (l₁ ++ l₂) k = l₁ := by
      rw [ofKind, hone]
      split
      · rename_i hs
        rw [ofKind, if_pos hs] at h₁
        exact List.take_of_length_le (Nat.le_trans h₁.length_le (List.length_take_le ..))
      · rfl
    have hrest : byKind kind single order (l₁ ++ l₂) = byKind kind single order l₂ := by
      refine List.flatMap_congr fun k' hk' => ?_
      have hnone : l₁.filter (fun x => kind x = k') = [] := by
        refine List.filter_eq_nil_iff.2 fun x hx => ?_
        have hne : kind x ≠ k' := fun heq => hk (hkind₁ x hx ▸ heq ▸ hk')
        simpa using hne
      rw [ofKind, ofKind, List.filter_append, hnone, List.nil_append]
    calc byKind kind single (k :: order) (l₁ ++ l₂)
        = ofKind kind single (l₁ ++ l₂) k ++ byKind kind single order (l₁ ++ l₂) := rfl
      _ = l₁ ++ l₂ := by rw [hfirst, hrest, ih horder h₂]

end Kinds

/-! ## Tests -/

section Tests

variable {ok : List α → α → Bool} {items before after : List α} {x : α}

/-- The items that pass a test, which may look at the items kept before. -/
def keeping (ok : List α → α → Bool) (items : List α) : List α :=
  items.foldl (fun kept x => if ok kept x then kept ++ [x] else kept) []

theorem keeping_snoc :
    keeping ok (items ++ [x]) = if ok (keeping ok items) x then keeping ok items ++ [x] else keeping ok items := by
  rw [keeping, List.foldl_append]
  rfl

theorem keeping_sublist : (keeping ok items).Sublist items := by
  induction items using List.reverseRecOn with
  | nil => exact List.Sublist.refl _
  | append_singleton items x ih =>
    rw [keeping_snoc]
    split
    · exact ih.append (List.Sublist.refl _)
    · exact ih.trans (List.sublist_append_left ..)

/-- What has passed the test passes it again. -/
theorem keeping_keeping : keeping ok (keeping ok items) = keeping ok items := by
  induction items using List.reverseRecOn with
  | nil => rfl
  | append_singleton items x ih =>
    rw [keeping_snoc]
    split
    · rename_i hok
      rw [keeping_snoc, ih, if_pos hok]
    · exact ih

/-- What has been kept stays. -/
theorem keeping_mono : keeping ok before <+: keeping ok (before ++ after) := by
  induction after using List.reverseRecOn with
  | nil => simp
  | append_singleton after x ih =>
    rw [← List.append_assoc, keeping_snoc]
    split
    · exact ih.trans (List.prefix_append ..)
    · exact ih

/-- What is left out has not passed the test. -/
theorem not_mem_keeping (hx : x ∈ items) (hnot : x ∉ keeping ok items) :
    ∃ before after, items = before ++ x :: after ∧ ok (keeping ok before) x = false := by
  induction items using List.reverseRecOn with
  | nil => cases hx
  | append_singleton items y ih =>
    by_cases hmem : x ∈ items
    · have hnot' : x ∉ keeping ok items := fun h => hnot (keeping_mono.subset h)
      obtain ⟨before, after, rfl, hok⟩ := ih hmem hnot'
      exact ⟨before, after ++ [y], by simp, hok⟩
    · have hxy : x = y := by simpa [hmem] using hx
      subst hxy
      refine ⟨items, [], rfl, ?_⟩
      rw [keeping_snoc] at hnot
      cases hok : ok (keeping ok items) x with
      | false => rfl
      | true =>
        rw [hok, if_pos rfl] at hnot
        exact absurd (List.mem_append_right _ List.mem_cons_self) hnot

/-- What has not passed the test is left out, when it is there only once. -/
theorem not_mem_keeping_of_not_ok (hnodup : (before ++ x :: after).Nodup) (hok : ok (keeping ok before) x = false) :
    x ∉ keeping ok (before ++ x :: after) := by
  induction after using List.reverseRecOn with
  | nil =>
    rw [keeping_snoc, hok, if_neg Bool.false_ne_true]
    intro hx
    exact (List.nodup_append.1 hnodup).2.2 x (keeping_sublist.subset hx) x List.mem_cons_self rfl
  | append_singleton after y ih =>
    have hsplit : before ++ x :: (after ++ [y]) = (before ++ x :: after) ++ [y] := by simp
    rw [hsplit] at hnodup ⊢
    obtain ⟨hnodup, -, hne⟩ := List.nodup_append.1 hnodup
    rw [keeping_snoc]
    split
    · rintro hx
      rcases List.mem_append.1 hx with hx | hx
      · exact ih hnodup hx
      · exact hne x (by simp) y List.mem_cons_self (List.mem_singleton.1 hx)
    · exact ih hnodup

theorem keeping_map (f : β → α) (items : List β) :
    keeping ok (items.map f) = (keeping (fun kept x => ok (kept.map f) (f x)) items).map f := by
  induction items using List.reverseRecOn with
  | nil => rfl
  | append_singleton items x ih =>
    rw [List.map_append, List.map_singleton, keeping_snoc, keeping_snoc, ih]
    split
    · rw [List.map_append, List.map_singleton]
    · rfl

/-! ### What has been seen -/

variable (seen : List α → Prop)

/-- When nothing has been seen, everything is kept. -/
theorem keeping_of_not_seen (hmono : ∀ l l' : List α, l <+: l' → seen l → seen l')
    (hok : ∀ x ∈ items, ∀ l, ok l x = false → seen l) (hnot : ¬seen items) : keeping ok items = items := by
  induction items using List.reverseRecOn with
  | nil => rfl
  | append_singleton items x ih =>
    have hnot' : ¬seen items := fun h => hnot (hmono _ _ (List.prefix_append ..) h)
    have hitems := ih (fun y hy => hok y (List.mem_append_left _ hy)) hnot'
    cases hx : ok items x with
    | true => rw [keeping_snoc, hitems, hx, if_pos rfl]
    | false => exact absurd (hok x (by simp) items hx) hnot'

/-- What is kept shows the same as all items. -/
theorem seen_keeping (hmono : ∀ l l' : List α, l <+: l' → seen l → seen l')
    (hok : ∀ x ∈ items, ∀ l, ok l x = false → seen l) : seen (keeping ok items) ↔ seen items := by
  refine ⟨fun h => ?_, fun h => ?_⟩
  · by_contra hnot
    rw [keeping_of_not_seen seen hmono hok hnot] at h
    exact hnot h
  · induction items using List.reverseRecOn with
    | nil => exact h
    | append_singleton items x ih =>
      have hitems : ∀ y ∈ items, ∀ l, ok l y = false → seen l := fun y hy => hok y (List.mem_append_left _ hy)
      by_cases hseen : seen items
      · exact hmono _ _ keeping_mono (ih hitems hseen)
      · have hkept := keeping_of_not_seen seen hmono hitems hseen
        cases hx : ok items x with
        | true =>
          rw [keeping_snoc, hkept, hx, if_pos rfl]
          exact h
        | false => exact absurd (hok x (by simp) items hx) hseen

end Tests

/-! ## Lists with equal images -/

/-- An item that only one of two lists with equal images has stands there for another item of the other one. -/
theorem exists_of_map_eq {f : α → β} {l l' : List α} {x : α} (hnodup : l.Nodup) (heq : l.map f = l'.map f)
    (hx : x ∈ l') (hnot : x ∉ l) : ∃ y ∈ l, y ∉ l' ∧ f y = f x := by
  classical
  by_contra hnone
  have hall : ∀ y ∈ l, f y = f x → y ∈ l' := by
    intro y hy hf
    by_contra hy'
    exact hnone ⟨y, hy, hy', hf⟩
  have hsub : x :: l.filter (fun y => f y = f x) ⊆ l'.filter fun y => f y = f x := by
    intro y hy
    rcases List.mem_cons.1 hy with rfl | hy
    · simpa using hx
    · obtain ⟨hy, hf⟩ := List.mem_filter.1 hy
      exact List.mem_filter.2 ⟨hall y hy (of_decide_eq_true hf), hf⟩
  have hnodup' : (x :: l.filter fun y => f y = f x).Nodup :=
    List.nodup_cons.2 ⟨fun h => hnot (List.mem_filter.1 h).1, hnodup.sublist List.filter_sublist⟩
  have hlen := (List.subperm_of_subset hnodup' hsub).length_le
  have hcount : l.countP (fun y => decide (f y = f x)) = l'.countP fun y => decide (f y = f x) := by
    have hmap := congrArg (List.countP fun b => decide (b = f x)) heq
    rw [List.countP_map, List.countP_map] at hmap
    exact hmap
  rw [List.countP_eq_length_filter, List.countP_eq_length_filter] at hcount
  rw [List.length_cons, hcount] at hlen
  exact Nat.not_succ_le_self _ hlen

end ToolLib.Base
