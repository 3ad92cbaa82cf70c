import Mathlib.Data.Finset.Card
import Mathlib.Data.Int.Order.Basic
import Mathlib.Logic.Function.Basic
import Mathlib.Tactic.Common

/-!
# Interest lists

An interest list has members, each with the events that it is asked for; it is changed by `ctl`, which may refuse an addition
or a change. Its user holds keys, pairs of an event and a member, and wants the list to follow them. `Covers e n cur base stale`
says how far it does: every member is wanted by the keys `cur`, except for those in `stale`; the keys `base` are covered; and `n`
is the number of members. A key more is followed by an addition or a change, or everything stays as it was (`Covers.grow`); a key
less is followed by a change or a removal, and then it does not matter whether the change is refused (`Covers.settle`).
-/

namespace ToolLib.Base

variable {φ ι : Type*} [DecidableEq ι]

structure Interest (φ ι : Type*) where
  members : Finset ι
  events : ι → Finset φ

inductive CtlOp
  | add
  | mod
  | del
  deriving DecidableEq

inductive CtlError
  | present
  | absent
  | refused (code : Nat)
  deriving DecidableEq

namespace Interest

def empty : Interest φ ι := ⟨∅, fun _ => ∅⟩

/-- One operation on the list. The kernel may refuse an addition or a change (`refusal`), not a removal. -/
def ctl (e : Interest φ ι) (refusal : Option Nat) (op : CtlOp) (i : ι) (events : Finset φ) :
    Interest φ ι × Option CtlError :=
  match op with
  | .add =>
    if i ∈ e.members then (e, some .present)
    else
      match refusal with
      | some code => (e, some (.refused code))
      | none => (⟨insert i e.members, Function.update e.events i events⟩, none)
  | .mod =>
    if i ∈ e.members then
      match refusal with
      | some code => (e, some (.refused code))
      | none => (⟨e.members, Function.update e.events i events⟩, none)
    else (e, some .absent)
  | .del => if i ∈ e.members then (⟨e.members.erase i, e.events⟩, none) else (e, some .absent)

variable {e : Interest φ ι} {i : ι} {events : Finset φ} {refusal : Option Nat}

theorem ctl_add (h : i ∉ e.members) : e.ctl refusal .add i events =
    refusal.elim (⟨insert i e.members, Function.update e.events i events⟩, none) fun code => (e, some (.refused code)) := by
  cases refusal <;> exact if_neg h

theorem ctl_mod (h : i ∈ e.members) : e.ctl refusal .mod i events =
    refusal.elim (⟨e.members, Function.update e.events i events⟩, none) fun code => (e, some (.refused code)) := by
  cases refusal <;> exact if_pos h

theorem ctl_del (h : i ∈ e.members) : e.ctl refusal .del i events = (⟨e.members.erase i, e.events⟩, none) := if_pos h

theorem ctl_absent {op : CtlOp} (h : i ∉ e.members) (hop : op ≠ .add) : e.ctl refusal op i events = (e, some .absent) := by
  cases op with
  | add => exact absurd rfl hop
  | mod => exact if_neg h
  | del => exact if_neg h

end Interest

/-- The events that the keys ask for. -/
def asked [DecidableEq φ] (ks : List (φ × ι)) (i : ι) : Finset φ := ((ks.filter fun key => key.2 = i).map Prod.fst).toFinset

variable [DecidableEq φ] {e : Interest φ ι} {n : Int} {F : Finset φ} {cur base ks : List (φ × ι)} {stale : ι → Prop} {i : ι}

@[simp] theorem mem_asked {b : φ} : b ∈ asked ks i ↔ (b, i) ∈ ks := by
  simp [asked]

theorem asked_subset {ls : List (φ × ι)} (h : ∀ key ∈ ks, key ∈ ls) : asked ks i ⊆ asked ls i := by
  intro b hb
  exact mem_asked.2 (h _ (mem_asked.1 hb))

/-- Keys of another member. -/
theorem asked_append_of_ne {ls : List (φ × ι)} (h : ∀ key ∈ ls, key.2 = i) {j : ι} (hj : j ≠ i) :
    asked (ls ++ ks) j = asked ks j := by
  ext b
  rw [mem_asked, mem_asked, List.mem_append]
  refine ⟨fun hb => hb.resolve_left fun hl => hj (h _ hl), Or.inr⟩

structure Covers (F : Finset φ) (e : Interest φ ι) (n : Int) (cur base : List (φ × ι)) (stale : ι → Prop) : Prop where
  wanted : ∀ i ∈ e.members, ¬ stale i → asked cur i ≠ ∅
  mem : ∀ i, asked base i ≠ ∅ → i ∈ e.members
  subset : ∀ i, asked base i ⊆ e.events i
  bound : ∀ i ∈ e.members, e.events i ⊆ F
  card : n = e.members.card

namespace Covers

theorem empty : Covers F (Interest.empty : Interest φ ι) 0 [] [] stale where
  wanted := by simp [Interest.empty]
  mem i h := absurd rfl h
  subset i := Finset.empty_subset _
  bound := by simp [Interest.empty]
  card := rfl

/-- The keys of the same events, less to be covered, and more that is stale. -/
theorem mono (h : Covers F e n cur base stale) {cur' base' : List (φ × ι)} {stale' : ι → Prop} (hst : ∀ i, stale i → stale' i)
    (hcur : ∀ i, ¬ stale' i → asked cur' i = asked cur i) (hbase : ∀ i, asked base' i ⊆ asked base i) :
    Covers F e n cur' base' stale' where
  wanted i hi hs := by
    rw [hcur i hs]
    exact h.wanted i hi fun h' => hs (hst i h')
  mem i hne := h.mem i fun h0 => hne (Finset.subset_empty.1 (h0 ▸ hbase i))
  subset i := (hbase i).trans (h.subset i)
  bound := h.bound
  card := h.card

/-- **Keys are given back**: the events of a member are changed to those that are still asked for, or the member is removed. -/
theorem settle (refusal : Option Nat) {cur' : List (φ × ι)} (h : Covers F e n cur base stale)
    (hcur : ∀ j, j ≠ i → asked cur' j = asked cur j) (hbase : asked base i ⊆ asked cur' i) (hF : asked cur' i ⊆ F)
    {op : CtlOp} (hop : op = if asked cur' i ≠ ∅ then .mod else .del) :
    Covers F (e.ctl refusal op i (asked cur' i)).1
      (if (e.ctl refusal op i (asked cur' i)).2 = none ∧ op = .del then n - 1 else n) cur' base fun j => stale j ∧ j ≠ i := by
  have hother : ∀ j ∈ e.members, ¬ (stale j ∧ j ≠ i) → j ≠ i → asked cur' j ≠ ∅ := by
    intro j hj hst hne
    rw [hcur j hne]
    exact h.wanted j hj fun h' => hst ⟨h', hne⟩
  have hwanted : asked cur' i ≠ ∅ → ∀ j ∈ e.members, ¬ (stale j ∧ j ≠ i) → asked cur' j ≠ ∅ := by
    intro hi j hj hst
    by_cases hne : j = i
    · exact hne ▸ hi
    · exact hother j hj hst hne
  subst hop
  by_cases hi : asked cur' i = ∅
  · rw [if_neg (not_not_intro hi)]
    by_cases hmem : i ∈ e.members
    · -- the member is not wanted any more
      rw [Interest.ctl_del hmem, if_pos ⟨rfl, rfl⟩]
      refine ⟨?_, ?_, h.subset, fun j hj => h.bound j (Finset.mem_of_mem_erase hj), ?_⟩
      · intro j hj hst
        exact hother j (Finset.mem_of_mem_erase hj) hst (Finset.ne_of_mem_erase hj)
      · intro j hj
        refine Finset.mem_erase.2 ⟨fun hji => hj ?_, h.mem j hj⟩
        rw [hji, ← Finset.subset_empty, ← hi]
        exact hbase
      · have hpos := Finset.card_pos.2 ⟨i, hmem⟩
        have hcard := h.card
        rw [Finset.card_erase_of_mem hmem]
        omega
    · rw [Interest.ctl_absent hmem (by simp), if_neg (by simp)]
      exact ⟨fun j hj hst => hother j hj hst fun hji => hmem (hji ▸ hj), h.mem, h.subset, h.bound, h.card⟩
  · rw [if_pos hi, if_neg (by simp)]
    by_cases hmem : i ∈ e.members
    · rw [Interest.ctl_mod hmem]
      cases refusal with
      | some code => exact ⟨hwanted hi, h.mem, h.subset, h.bound, h.card⟩
      | none =>
        refine ⟨hwanted hi, h.mem, fun j => ?_, fun j hj => ?_, h.card⟩
        · dsimp only [Option.elim]
          rw [Function.update_apply]
          split
          · rename_i hji
            exact hji ▸ hbase
          · exact h.subset j
        · dsimp only [Option.elim]
          rw [Function.update_apply]
          split
          · exact hF
          · exact h.bound j hj
    · rw [Interest.ctl_absent hmem (by simp)]
      exact ⟨hwanted hi, h.mem, h.subset, h.bound, h.card⟩

/-- **Keys are taken**: the member is added, or its events are changed; or this is refused, and what has been covered before still
is. -/
theorem grow (refusal : Option Nat) {cur' : List (φ × ι)} (h : Covers F e n cur cur fun _ => False)
    (hcur : ∀ j, j ≠ i → asked cur' j = asked cur j) (hne : asked cur' i ≠ ∅) (hF : asked cur' i ⊆ F) {op : CtlOp} (hop : op = if asked cur i ≠ ∅ then .mod else .add) :
    (e.ctl refusal op i (asked cur' i)).2 = none ∧
        Covers F (e.ctl refusal op i (asked cur' i)).1 (if op = .add then n + 1 else n) cur' cur' (fun _ => False) ∨
      (∃ code, refusal = some code ∧ (e.ctl refusal op i (asked cur' i)).2 = some (.refused code)) ∧
        Covers F (e.ctl refusal op i (asked cur' i)).1 n cur' cur fun _ => False := by
  have hwanted : ∀ j ∈ e.members, ¬ False → asked cur' j ≠ ∅ := by
    intro j hj hst
    by_cases hji : j = i
    · exact hji ▸ hne
    · rw [hcur j hji]
      exact h.wanted j hj hst
  have hsubset : ∀ j, asked cur' j ⊆ Function.update e.events i (asked cur' i) j := by
    intro j
    rw [Function.update_apply]
    split
    · rename_i hji
      rw [hji]
    · rename_i hji
      rw [hcur j hji]
      exact h.subset j
  have hbound : ∀ j, (j ≠ i → j ∈ e.members) → Function.update e.events i (asked cur' i) j ⊆ F := by
    intro j hj
    rw [Function.update_apply]
    split
    · exact hF
    · exact h.bound j (hj ‹_›)
  subst hop
  by_cases hi : asked cur i = ∅
  · -- nobody has asked for the member
    have hmem : i ∉ e.members := fun hmem => h.wanted i hmem not_false hi
    rw [if_neg (not_not_intro hi), if_pos rfl, Interest.ctl_add hmem]
    cases refusal with
    | some code => exact Or.inr ⟨⟨code, rfl, rfl⟩, hwanted, h.mem, h.subset, h.bound, h.card⟩
    | none =>
      refine Or.inl ⟨rfl, ?_, ?_, hsubset, ?_, ?_⟩
      · intro j hj hst
        obtain rfl | hj := Finset.mem_insert.1 hj
        · exact hne
        · exact hwanted j hj hst
      · intro j hj
        by_cases hji : j = i
        · exact hji ▸ Finset.mem_insert_self i e.members
        · exact Finset.mem_insert_of_mem (h.mem j (hcur j hji ▸ hj))
      · intro j hj
        apply hbound
        intro hji
        exact Finset.mem_of_mem_insert_of_ne hj hji
      · have hcard := h.card
        dsimp only [Option.elim]
        rw [Finset.card_insert_of_notMem hmem]
        omega
  · have hmem : i ∈ e.members := h.mem i hi
    rw [if_pos hi, if_neg (by simp), Interest.ctl_mod hmem]
    cases refusal with
    | some code => exact Or.inr ⟨⟨code, rfl, rfl⟩, hwanted, h.mem, h.subset, h.bound, h.card⟩
    | none =>
      refine Or.inl ⟨rfl, hwanted, fun j hj => ?_, hsubset, fun j hj => hbound j fun _ => hj, h.card⟩
      by_cases hji : j = i
      · exact hji ▸ hmem
      · exact h.mem j (hcur j hji ▸ hj)

end Covers

end ToolLib.Base
