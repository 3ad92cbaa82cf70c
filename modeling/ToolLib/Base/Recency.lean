import Mathlib.Data.List.Nodup
import Mathlib.Logic.Function.Basic
import Mathlib.Tactic.Common

/-!
# Lists in the order of use

`stamp e` is when `e` was used last, and every use has a time of its own. `Recency stamp now q`: the list `q` is in the order
in which its elements were used last, before the time `now`.

- the head is the least recently used one (`Recency.head_lt`);
- what is left after some elements are dropped is in order (`Recency.sublist`);
- an element that is used goes to the end (`touch`, `Recency.touch`), whether it was in the list or is a new one.

A cache is a list of keys with values in the order of use (`entry`, `use`). When the elements of a list are labelled with
distinct keys, using an element is using its key (`map_touch`).
-/

namespace ToolLib.Base

variable {α : Type*} {stamp : α → Nat} {now : Nat} {q q' : List α} {e x : α}

structure Recency (stamp : α → Nat) (now : Nat) (q : List α) : Prop where
  sorted : q.Pairwise (stamp · < stamp ·)
  before : ∀ e ∈ q, stamp e < now

/-- An element goes to the end of a list. -/
def touch [DecidableEq α] (q : List α) (e : α) : List α := q.erase e ++ [e]

namespace Recency

theorem nil : Recency stamp now [] := ⟨List.Pairwise.nil, fun _ he => absurd he List.not_mem_nil⟩

theorem nodup (h : Recency stamp now q) : q.Nodup := h.sorted.imp fun hlt heq => Nat.ne_of_lt hlt (congrArg stamp heq)

theorem sublist (h : Recency stamp now q) (hsub : q'.Sublist q) : Recency stamp now q' :=
  ⟨h.sorted.sublist hsub, fun e he => h.before e (hsub.subset he)⟩

/-- The head is the least recently used one. -/
theorem head_lt (h : Recency stamp now (e :: q)) (hx : x ∈ e :: q) (hne : x ≠ e) : stamp e < stamp x :=
  (List.pairwise_cons.1 h.sorted).1 x ((List.mem_cons.1 hx).resolve_left hne)

variable [DecidableEq α]

/-- **A use**: the element goes to the end. -/
theorem touch (h : Recency stamp now q) (e : α) :
    Recency (Function.update stamp e now) (now + 1) (touch q e) := by
  have hrest : ∀ x ∈ q.erase e, Function.update stamp e now x = stamp x := by
    intro x hx
    refine Function.update_of_ne ?_ ..
    rintro rfl
    exact h.nodup.not_mem_erase hx
  have h' := h.sublist (List.erase_sublist (a := e))
  refine ⟨List.pairwise_append.2 ⟨?_, List.pairwise_singleton .., ?_⟩, ?_⟩
  · refine h'.sorted.imp_of_mem fun hx hy hlt => ?_
    rwa [hrest _ hx, hrest _ hy]
  · intro x hx y hy
    rw [List.mem_singleton.1 hy, hrest x hx, Function.update_self]
    exact h'.before x hx
  · intro x hx
    rcases List.mem_append.1 hx with hx | hx
    · rw [hrest x hx]
      exact Nat.lt_succ_of_lt (h'.before x hx)
    · rw [List.mem_singleton.1 hx, Function.update_self]
      exact Nat.lt_succ_self now

end Recency

section Touch

variable [DecidableEq α]

theorem mem_touch : x ∈ touch q e ↔ x ∈ q ∨ x = e := by
  by_cases hx : x = e
  · simp [touch, hx]
  · simp [touch, hx, List.mem_erase_of_ne hx]

theorem length_touch_of_mem (he : e ∈ q) : (touch q e).length = q.length := by
  rw [touch, List.length_append, List.length_erase_of_mem he, List.length_singleton]
  exact Nat.sub_add_cancel (List.length_pos_of_mem he)

theorem touch_of_notMem (he : e ∉ q) : touch q e = q ++ [e] := by
  rw [touch, List.erase_of_not_mem he]

/-- The last element stays where it is. -/
theorem touch_last (hq : q.Nodup) (he : q.getLast? = some e) : touch q e = q := by
  obtain ⟨l, rfl⟩ := List.getLast?_eq_some_iff.1 he
  have hout : e ∉ l := fun hin => (List.nodup_append.1 hq).2.2 e hin e List.mem_cons_self rfl
  rw [touch, List.erase_append_right _ hout]
  simp

end Touch

/-! ## Caches -/

section Caches

variable {κ β : Type*} [DecidableEq κ] {c : List (κ × β)} {k : κ} {v : β} {limit : Nat} {label : α → κ × β}

/-- The entry of a key. -/
def entry (c : List (κ × β)) (k : κ) : Option (κ × β) := c.find? fun x => x.1 = k

/-- A key is used in a cache of `limit` entries: it goes to the end and keeps its value; a new one comes with the value `v`,
and the least recently used one goes when the cache is full. -/
def use (limit : Nat) (c : List (κ × β)) (k : κ) (v : β) : List (κ × β) :=
  match entry c k with
  | some x => (c.filter fun x => x.1 ≠ k) ++ [x]
  | none => (if c.length < limit then c else c.tail) ++ [(k, v)]

theorem use_of_none (h : entry c k = none) : use limit c k v = (if c.length < limit then c else c.tail) ++ [(k, v)] := by
  rw [use, h]

theorem use_of_some {x : κ × β} (h : entry c k = some x) : use limit c k v = (c.filter fun x => x.1 ≠ k) ++ [x] := by
  rw [use, h]

theorem entry_map_eq_none (h : ∀ x ∈ q, (label x).1 ≠ k) : entry (q.map label) k = none := by
  rw [entry, List.find?_eq_none]
  intro y hy
  obtain ⟨x, hx, rfl⟩ := List.mem_map.1 hy
  simpa using h x hx

/-- The entry of the key of an element. -/
theorem entry_map (hkeys : ∀ x ∈ q, (label x).1 = (label e).1 → x = e) (he : e ∈ q) :
    entry (q.map label) (label e).1 = some (label e) := by
  cases h : entry (q.map label) (label e).1 with
  | none =>
    have hno := List.find?_eq_none.1 h (label e) (List.mem_map_of_mem he)
    simp at hno
  | some y =>
    obtain ⟨x, hx, rfl⟩ := List.mem_map.1 (List.mem_of_find?_eq_some h)
    have hkey : (label x).1 = (label e).1 := by simpa using List.find?_some h
    rw [hkeys x hx hkey]

/-- **Using an element is using its key.** -/
theorem map_touch [DecidableEq α] (limit : Nat) (v : β) (hq : q.Nodup) (hkeys : ∀ x ∈ q, (label x).1 = (label e).1 → x = e) (he : e ∈ q) :
    (touch q e).map label = use limit (q.map label) (label e).1 v := by
  rw [use_of_some (entry_map hkeys he), touch, hq.erase_eq_filter, List.map_append, List.filter_map]
  refine congrArg (· ++ [label e]) (congrArg _ (List.filter_congr fun x hx => ?_))
  have hne : x ≠ e ↔ (label x).1 ≠ (label e).1 := by
    refine not_congr ⟨fun heq => by rw [heq], hkeys x hx⟩
  rw [Bool.eq_iff_iff]
  simpa [bne_iff_ne] using hne

end Caches

end ToolLib.Base
