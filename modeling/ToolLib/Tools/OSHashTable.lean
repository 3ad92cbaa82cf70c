import Mathlib.Data.List.Nodup
import Mathlib.Data.UInt
import ToolLib.Base.LinkedList
import ToolLib.Base.Loop
import ToolLib.Base.System

/-!
# OSHashTable

The hash table of CommonTools, with the chains as they are in memory. A pointer to an entry is an address other than 0, or
`NULL` (`none`). An access outside of the table has no result.

`osHashTable_agrees_iff`: the table does what a list of entries does, with the most recently added one in front, and the
iterator visits them all, except that the iterator cannot get past the index 2147483647: `GetTableEntry` takes an `int`.
-/

namespace ToolLib.Tools.OSHashTable

open ToolLib.Base

/-- The address of an entry. -/
abbrev Entry := { address : UInt64 // address ≠ 0 }

/-- The class `K`: the key of an entry, its hash value, and the comparison, for which equal keys have equal hash values. -/
structure KeyClass (K : Type*) where
  key : Entry → K
  getHashKey : K → UInt32
  equal : K → K → Bool
  hash_eq : ∀ {a b : K}, equal a b = true → getHashKey a = getHashKey b

/-- The table, and `fNextHashEntry` of the entries in memory. -/
structure Table where
  fHashTable : Nat → Option Entry
  fSize : UInt32
  fMask : UInt32
  fNumEntries : UInt64
  fNextHashEntry : Entry → Option Entry

namespace Table

/-- "Determine whether the hash size is a power of 2" -/
def mask (size : UInt32) : UInt32 := if (size - 1) &&& size ≠ 0 then 0 else size - 1

/-- The constructor; `fNextHashEntry` is what is in memory. -/
def new (size : UInt32) (fNextHashEntry : Entry → Option Entry) : Table :=
  ⟨fun _ => none, size, mask size, 0, fNextHashEntry⟩

def computeIndex (s : Table) (hashKey : UInt32) : UInt32 :=
  if s.fMask ≠ 0 then hashKey &&& s.fMask else hashKey % s.fSize

/-- `fHashTable[i]` -/
def load (s : Table) (i : Int) : Option (Option Entry) :=
  if 0 ≤ i ∧ i < s.fSize.toNat then some (s.fHashTable i.toNat) else none

/-- `fHashTable[i] = p` -/
def store (s : Table) (i : Int) (p : Option Entry) : Option Table :=
  if 0 ≤ i ∧ i < s.fSize.toNat then some { s with fHashTable := Function.update s.fHashTable i.toNat p } else none

/-- `entry->fNextHashEntry = p` -/
def setNext (s : Table) (entry : Entry) (p : Option Entry) : Table :=
  { s with fNextHashEntry := Function.update s.fNextHashEntry entry p }

/-- `GetTableEntry`: the index is an `int`. -/
def getTableEntry (s : Table) (i : Int32) : Option (Option Entry) := s.load i.toInt

section Key

variable {K : Type*} (k : KeyClass K) (s : Table)

def add (entry : Entry) : Option Table := do
  let theIndex := s.computeIndex (k.getHashKey (k.key entry))
  let head ← s.load theIndex.toNat
  let s ← (s.setNext entry head).store theIndex.toNat (some entry)
  some { s with fNumEntries := s.fNumEntries + 1 }

/-- The loop of `Remove`: `elem` and `last`. -/
def removeTurn (entry : Entry) : Option Entry × Option Entry → Option Entry × Option Entry ⊕ Option Entry × Option Entry
  | (none, last) => .inr (none, last)
  | (some elem, last) => if elem ≠ entry then .inl (s.fNextHashEntry elem, some elem) else .inr (some elem, last)

/-- `Remove`, when its loop has `turns` turns at most. -/
def remove (turns : Nat) (entry : Entry) : Option Table := do
  let theIndex := s.computeIndex (k.getHashKey (k.key entry))
  let head ← s.load theIndex.toNat
  match ← Loop.turns (s.removeTurn entry) turns (head, none) with
  | (none, _) => some s
  | (some elem, last) =>
    let s ←
      match last with
      | some last => some (s.setNext last (s.fNextHashEntry elem))
      | none => s.store theIndex.toNat (s.fNextHashEntry elem)
    let s := s.setNext elem none
    some { s with fNumEntries := s.fNumEntries - 1 }

/-- The loop of `Map`. -/
def mapTurn (key : K) : Option Entry → Option Entry ⊕ Option Entry
  | none => .inr none
  | some elem => if k.equal (k.key elem) key then .inr (some elem) else .inl (s.fNextHashEntry elem)

/-- `Map`, when its loop has `turns` turns at most. -/
def map (turns : Nat) (key : K) : Option (Option Entry) := do
  let theIndex := s.computeIndex (k.getHashKey key)
  let head ← s.load theIndex.toNat
  Loop.turns (s.mapTurn k key) turns head

end Key

/-! ## OSHashTableIter -/

section Iter

variable (s : Table)

/-- The loops of `First` and `Next` over `fIndex`, with `fCurrent`. They leave with nothing at an access outside of the
table. -/
def seekTurn : UInt32 × Option Entry → UInt32 × Option Entry ⊕ Option (UInt32 × Option Entry)
  | (fIndex, fCurrent) =>
    if fIndex < s.fSize then
      match s.getTableEntry fIndex.toInt32 with
      | none => .inr none
      | some none => .inl (fIndex + 1, none)
      | some (some elem) => .inr (some (fIndex, some elem))
    else .inr (some (fIndex, fCurrent))

def seek (turns : Nat) (fIndex : UInt32) : Option (UInt32 × Option Entry) :=
  (Loop.turns s.seekTurn turns (fIndex, none)).join

/-- `First`. What is in `fCurrent` before does not matter: there is a first chain. -/
def first (turns : Nat) : Option (UInt32 × Option Entry) := s.seek turns 0

/-- `Next` at an entry. -/
def next (turns : Nat) (fIndex : UInt32) (fCurrent : Entry) : Option (UInt32 × Option Entry) :=
  match s.fNextHashEntry fCurrent with
  | some elem => some (fIndex, some elem)
  | none => s.seek turns (fIndex + 1)

/-- An iterator goes on to the next entry, or is done; `seen` are the entries so far, the last one first. -/
def visitTurn (turns : Nat) :
    (UInt32 × Option Entry) × List Entry → (UInt32 × Option Entry) × List Entry ⊕ Option (List Entry)
  | ((_, none), seen) => .inr (some seen.reverse)
  | ((fIndex, some elem), seen) =>
    match s.next turns fIndex elem with
    | none => .inr none
    | some iter => .inl (iter, elem :: seen)

/-- The entries that an iterator visits until it is done, when every loop has `turns` turns at most. -/
def iterate (turns : Nat) : Option (List Entry) :=
  (s.first turns).bind fun iter => (Loop.turns (s.visitTurn turns) turns (iter, [])).join

end Iter

end Table


/-! ## Sequences of calls -/

section Calls

variable {K : Type*}

/-- What is done with a table. -/
inductive Op (K : Type*)
  | add (entry : Entry)
  | remove (entry : Entry)
  | map (key : K)
  | getNumEntries
  | iterate
  deriving DecidableEq

/-- What a call returns. -/
inductive Result
  | nothing
  | entry (elem : Option Entry)
  | number (n : UInt64)
  | entries (seen : List Entry)

/-- A call, when every loop has `turns` turns at most. -/
def Table.call (k : KeyClass K) (s : Table) (turns : Nat) : Op K → Option (Table × Result)
  | .add entry => (s.add k entry).map (·, .nothing)
  | .remove entry => (s.remove k turns entry).map (·, .nothing)
  | .map key => (s.map k turns key).map fun elem => (s, .entry elem)
  | .getNumEntries => some (s, .number s.fNumEntries)
  | .iterate => (s.iterate turns).map fun seen => (s, .entries seen)

/-- The entries that are present, the one added last in front. -/
def present (q : List Entry) : Op K → List Entry
  | .add entry => entry :: q
  | .remove entry => q.erase entry
  | _ => q

/-- An entry that is added is not in the table. -/
def Fresh (q : List Entry) : Op K → Prop
  | .add entry => entry ∉ q
  | _ => True

instance (q : List Entry) : (op : Op K) → Decidable (Fresh q op)
  | .add entry => inferInstanceAs (Decidable (entry ∉ q))
  | .remove _ | .map _ | .getNumEntries | .iterate => inferInstanceAs (Decidable True)

/-- What a call is to do, when the entries `q` are present. -/
def Right (k : KeyClass K) (q : List Entry) (s s' : Table) : Op K → Result → Prop
  | .add _, r => r = .nothing
  | .remove entry, r => r = .nothing ∧ (entry ∉ q → s' = s)
  | .map key, r => r = .entry (q.find? fun elem => k.equal (k.key elem) key) ∧ s' = s
  | .getNumEntries, r => (∃ n, r = .number n ∧ n.toNat = q.length) ∧ s' = s
  | .iterate, r => (∃ seen, r = .entries seen ∧ seen.Perm q) ∧ s' = s

/-- Every index is below the size. -/
def Below (s : Table) : Prop := ∀ hashKey, s.computeIndex hashKey < s.fSize

/-- All calls return, and do what they are to do. -/
def Agrees (k : KeyClass K) : Table → List Entry → List (Op K) → Prop
  | s, _, [] => Below s
  | s, q, op :: ops =>
    Below s ∧ ∃ turns s' r, s.call k turns op = some (s', r) ∧ Right k q s s' op r ∧ Agrees k s' (present q op) ops

end Calls

/-! ## The chains -/

section Represents

variable {K : Type*} {k : KeyClass K} {s s' : Table} {q l r : List Entry} {e : Entry} {p last : Option Entry} {i turns : Nat}

/-- The index of an entry. -/
def Table.index (k : KeyClass K) (s : Table) (e : Entry) : Nat := (s.computeIndex (k.getHashKey (k.key e))).toNat

theorem Table.index_eq : s.index k e = (s.computeIndex (k.getHashKey (k.key e))).toNat := rfl

/-- The entries of `q` that belong into the chain `i`. -/
def Table.chain (k : KeyClass K) (s : Table) (q : List Entry) (i : Nat) : List Entry := q.filter (s.index k · = i)

/-- Every chain leads through the entries that belong there, the one added last in front. -/
structure Represents (k : KeyClass K) (s : Table) (q : List Entry) : Prop where
  nodup : q.Nodup
  pos : 0 < s.fSize
  mask : s.fMask = Table.mask s.fSize
  leads : ∀ i < s.fSize.toNat, Leads s.fNextHashEntry (s.fHashTable i) (s.chain k q i)
  count : s.fNumEntries.toNat = q.length

theorem represents_new {size : UInt32} {fNextHashEntry : Entry → Option Entry} (hsize : 0 < size) :
    Represents k (.new size fNextHashEntry) [] :=
  ⟨List.nodup_nil, hsize, rfl, fun _ _ => rfl, rfl⟩

theorem Represents.below (h : Represents k s q) : Below s := by
  intro hashKey
  have hpos := UInt32.lt_iff_toNat_lt.1 h.pos
  rw [UInt32.lt_iff_toNat_lt]
  unfold Table.computeIndex
  split
  · rename_i hmask
    have hone : (1 : UInt32) ≤ s.fSize := UInt32.le_iff_toNat_le.2 hpos
    have hsub : s.fMask = s.fSize - 1 := by
      rw [h.mask, Table.mask] at hmask ⊢
      split at hmask
      · exact absurd rfl hmask
      · rw [if_neg ‹_›]
    rw [UInt32.toNat_and, hsub, UInt32.toNat_sub_of_le _ _ hone]
    exact Nat.lt_of_le_of_lt Nat.and_le_right (Nat.sub_lt hpos Nat.one_pos)
  · rw [UInt32.toNat_mod]
    exact Nat.mod_lt _ hpos

theorem Represents.index_lt (h : Represents k s q) (e : Entry) : s.index k e < s.fSize.toNat :=
  UInt32.lt_iff_toNat_lt.1 (h.below _)

theorem Table.load_of_lt (h : i < s.fSize.toNat) : s.load i = some (s.fHashTable i) := by
  rw [load, if_pos ⟨Int.natCast_nonneg i, Int.ofNat_lt.2 h⟩, Int.toNat_natCast]

theorem Table.store_of_lt (h : i < s.fSize.toNat) :
    s.store i p = some { s with fHashTable := Function.update s.fHashTable i p } := by
  rw [store, if_pos ⟨Int.natCast_nonneg i, Int.ofNat_lt.2 h⟩, Int.toNat_natCast]

/-- There are fewer entries than addresses. -/
theorem length_lt (h : q.Nodup) : q.length < UInt64.size := by
  have hinj : (q.map fun e => e.1.toNat).Nodup := h.map fun a b hab => Subtype.ext (UInt64.toNat.inj hab)
  have hnodup : (0 :: q.map fun e => e.1.toNat).Nodup := by
    refine List.nodup_cons.2 ⟨fun h0 => ?_, hinj⟩
    obtain ⟨e, -, he⟩ := List.mem_map.1 h0
    exact e.2 (UInt64.toNat.inj he)
  have hsub : (0 :: q.map fun e => e.1.toNat) ⊆ List.range UInt64.size := by
    intro n hn
    rw [List.mem_range]
    rcases List.mem_cons.1 hn with rfl | hn
    · decide
    · obtain ⟨e, -, rfl⟩ := List.mem_map.1 hn
      exact e.1.toNat_lt_size
  have hlength := (hnodup.subperm hsub).length_le
  rwa [List.length_cons, List.length_map, List.length_range] at hlength

theorem Table.add_eq (hindex : s.index k e < s.fSize.toNat) :
    s.add k e = some { s with
      fHashTable := Function.update s.fHashTable (s.index k e) (some e)
      fNextHashEntry := Function.update s.fNextHashEntry e (s.fHashTable (s.index k e))
      fNumEntries := s.fNumEntries + 1 } := by
  have hstore := store_of_lt (s := s.setNext e (s.fHashTable (s.index k e))) (p := some e) hindex
  simp only [add, ← index_eq, load_of_lt hindex, Option.bind_eq_bind, Option.bind_some, hstore]
  rfl

/-- Other chains, and other entries; the indices are the same. -/
theorem Represents.of_leads (h : Represents k s q) {fHashTable : Nat → Option Entry} {fNextHashEntry : Entry → Option Entry}
    {n : UInt64} (hnodup : l.Nodup) (hleads : ∀ i < s.fSize.toNat, Leads fNextHashEntry (fHashTable i) (s.chain k l i))
    (hcount : n.toNat = l.length) : Represents k ⟨fHashTable, s.fSize, s.fMask, n, fNextHashEntry⟩ l :=
  ⟨hnodup, h.pos, h.mask, hleads, hcount⟩

/-- A new entry comes to the front of its chain. -/
theorem Represents.add (h : Represents k s q) (he : e ∉ q) : ∃ s', s.add k e = some s' ∧ Represents k s' (e :: q) := by
  have hnodup : (e :: q).Nodup := List.nodup_cons.2 ⟨he, h.nodup⟩
  refine ⟨_, Table.add_eq (h.index_lt e), h.of_leads hnodup (fun i hi => ?_) ?_⟩
  · have hout : e ∉ s.chain k q i := fun hin => he (List.mem_of_mem_filter hin)
    by_cases heq : s.index k e = i
    · subst heq
      rw [Table.chain, List.filter_cons_of_pos (by simp), Function.update_self]
      exact (h.leads _ hi).push hout
    · rw [Table.chain, List.filter_cons_of_neg (by simpa using heq), Function.update_of_ne (Ne.symm heq)]
      exact (h.leads i hi).frame hout
  · have hless := length_lt hnodup
    rw [List.length_cons] at hless
    rw [UInt64.toNat_add, h.count, List.length_cons]
    exact Nat.mod_eq_of_lt hless

/-! ## The loops over a chain -/

theorem Table.removeTurn_self : s.removeTurn e (some e, last) = .inr (some e, last) := if_neg fun hne => hne rfl

theorem Table.removeTurn_of_ne {x : Entry} (hne : e ≠ x) :
    s.removeTurn e (some x, last) = .inl (s.fNextHashEntry x, some x) :=
  if_pos hne.symm

/-- `Remove` finds an entry and the one in front of it. -/
theorem Table.removeTurn_found (h : Leads s.fNextHashEntry p (l ++ e :: r)) (he : e ∉ l) (hturns : l.length < turns) :
    Loop.turns (s.removeTurn e) turns (p, last) = some (some e, (l.getLast?).or last) := by
  induction l generalizing p last turns with
  | nil =>
    obtain ⟨rfl, -⟩ := h
    obtain ⟨turns, rfl⟩ := Nat.exists_eq_add_of_lt hturns
    exact Loop.turns_succ_inr removeTurn_self
  | cons x l ih =>
    obtain ⟨rfl, h⟩ := h
    obtain ⟨hx, he⟩ := not_or.1 (mt List.mem_cons.2 he)
    obtain ⟨turns, rfl⟩ := Nat.exists_eq_add_of_lt hturns
    rw [Loop.turns_succ_inl (removeTurn_of_ne hx), ih h he (by rw [List.length_cons]; omega)]
    cases hl : l.getLast? <;> simp [List.getLast?_cons, hl]

theorem Table.removeTurn_absent (h : Leads s.fNextHashEntry p l) (he : e ∉ l) (hturns : l.length < turns) :
    ∃ last', Loop.turns (s.removeTurn e) turns (p, last) = some (none, last') := by
  induction l generalizing p last turns with
  | nil =>
    obtain rfl := leads_nil.1 h
    obtain ⟨turns, rfl⟩ := Nat.exists_eq_add_of_lt hturns
    exact ⟨last, Loop.turns_succ_inr rfl⟩
  | cons x l ih =>
    obtain ⟨rfl, h⟩ := h
    obtain ⟨hx, he⟩ := not_or.1 (mt List.mem_cons.2 he)
    obtain ⟨turns, rfl⟩ := Nat.exists_eq_add_of_lt hturns
    rw [Loop.turns_succ_inl (removeTurn_of_ne hx)]
    exact ih h he (by rw [List.length_cons]; omega)

/-- `Map` finds the first entry with an equal key. -/
theorem Table.mapTurn_find {key : K} (h : Leads s.fNextHashEntry p l) (hturns : l.length < turns) :
    Loop.turns (s.mapTurn k key) turns p = some (l.find? fun elem => k.equal (k.key elem) key) := by
  induction l generalizing p turns with
  | nil =>
    obtain rfl := leads_nil.1 h
    obtain ⟨turns, rfl⟩ := Nat.exists_eq_add_of_lt hturns
    exact Loop.turns_succ_inr rfl
  | cons x l ih =>
    obtain ⟨rfl, h⟩ := h
    obtain ⟨turns, rfl⟩ := Nat.exists_eq_add_of_lt hturns
    rw [List.find?_cons]
    cases hx : k.equal (k.key x) key with
    | true =>
      have hturn : s.mapTurn k key (some x) = .inr (some x) := by simp [mapTurn, hx]
      exact Loop.turns_succ_inr hturn
    | false =>
      have hturn : s.mapTurn k key (some x) = .inl (s.fNextHashEntry x) := by simp [mapTurn, hx]
      rw [Loop.turns_succ_inl hturn]
      exact ih h (by rw [List.length_cons]; omega)

/-! ## Remove and Map -/

theorem Represents.chain_length_lt (hturns : q.length < turns) (i : Nat) : (s.chain k q i).length < turns :=
  Nat.lt_of_le_of_lt (List.length_filter_le ..) hturns

/-- An entry is in its chain. -/
theorem Table.mem_chain : e ∈ s.chain k q i ↔ e ∈ q ∧ s.index k e = i := by
  simp [chain]

theorem Table.remove_first (hindex : s.index k e < s.fSize.toNat)
    (hfound : Loop.turns (s.removeTurn e) turns (s.fHashTable (s.index k e), none) = some (some e, none)) :
    s.remove k turns e = some
      ⟨Function.update s.fHashTable (s.index k e) (s.fNextHashEntry e), s.fSize, s.fMask, s.fNumEntries - 1,
        Function.update s.fNextHashEntry e none⟩ := by
  simp only [remove, ← index_eq, load_of_lt hindex, Option.bind_eq_bind, Option.bind_some, hfound, store_of_lt hindex]
  rfl

theorem Table.remove_behind {x : Entry} (hindex : s.index k e < s.fSize.toNat)
    (hfound : Loop.turns (s.removeTurn e) turns (s.fHashTable (s.index k e), none) = some (some e, some x)) :
    s.remove k turns e = some
      ⟨s.fHashTable, s.fSize, s.fMask, s.fNumEntries - 1,
        Function.update (Function.update s.fNextHashEntry x (s.fNextHashEntry e)) e none⟩ := by
  simp only [remove, ← index_eq, load_of_lt hindex, Option.bind_eq_bind, Option.bind_some, hfound]
  rfl

/-- One chain loses an entry, the others stay as they are. -/
theorem Represents.erase_of_leads (h : Represents k s q) (he : e ∈ q) {fHashTable : Nat → Option Entry}
    {fNextHashEntry : Entry → Option Entry}
    (hown : Leads fNextHashEntry (fHashTable (s.index k e)) ((s.chain k q (s.index k e)).erase e))
    (hother : ∀ i < s.fSize.toNat, i ≠ s.index k e → Leads fNextHashEntry (fHashTable i) (s.chain k q i)) :
    Represents k ⟨fHashTable, s.fSize, s.fMask, s.fNumEntries - 1, Function.update fNextHashEntry e none⟩ (q.erase e) := by
  have herase : ∀ i, s.chain k (q.erase e) i = (s.chain k q i).erase e := fun i => List.erase_filter.symm
  refine h.of_leads (h.nodup.erase e) (fun i hi => Leads.frame ?_ ?_) ?_
  · rw [herase]
    by_cases heq : i = s.index k e
    · rw [heq]
      exact hown
    · rw [List.erase_of_not_mem fun hin => heq (Table.mem_chain.1 hin).2.symm]
      exact hother i hi heq
  · rw [herase]
    exact (h.nodup.filter _).not_mem_erase
  · have hpos := List.length_pos_of_mem he
    have hone : (1 : UInt64) ≤ s.fNumEntries := UInt64.le_iff_toNat_le.2 (by rw [h.count]; exact hpos)
    rw [UInt64.toNat_sub_of_le _ _ hone, h.count, List.length_erase_of_mem he]
    rfl

/-- An entry is taken out of its chain. -/
theorem Represents.remove (h : Represents k s q) (he : e ∈ q) (hturns : q.length < turns) :
    ∃ s', s.remove k turns e = some s' ∧ Represents k s' (q.erase e) := by
  have hindex := h.index_lt e
  obtain ⟨l, r, hl, hchain, herase⟩ := List.exists_erase_eq (Table.mem_chain.2 ⟨he, rfl⟩ : e ∈ s.chain k q (s.index k e))
  have hleads := h.leads _ hindex
  have hnodup : (s.chain k q (s.index k e)).Nodup := h.nodup.filter _
  have hlength := chain_length_lt (k := k) (s := s) hturns (s.index k e)
  rw [hchain] at hleads hnodup hlength
  have hfound : Loop.turns (s.removeTurn e) turns (s.fHashTable (s.index k e), none) =
      some (some e, l.getLast?.or none) := by
    refine Table.removeTurn_found hleads hl ?_
    rw [List.length_append] at hlength
    omega
  rcases List.eq_nil_or_concat l with rfl | ⟨l, x, rfl⟩
  · refine ⟨_, Table.remove_first hindex hfound, h.erase_of_leads he ?_ fun i hi heq => ?_⟩
    · rw [herase, Function.update_self]
      exact hleads.2
    · rw [Function.update_of_ne heq]
      exact h.leads i hi
  · rw [List.concat_eq_append] at hfound hchain herase hleads hnodup
    rw [List.getLast?_concat, Option.some_or] at hfound
    rw [List.append_assoc] at hchain herase hleads hnodup
    refine ⟨_, Table.remove_behind hindex hfound, h.erase_of_leads he ?_ fun i hi heq => (h.leads i hi).frame fun hx => ?_⟩
    · rw [herase]
      exact hleads.unlink hnodup
    · have hx' : x ∈ s.chain k q (s.index k e) := by simp [hchain]
      exact heq ((Table.mem_chain.1 hx).2.symm.trans (Table.mem_chain.1 hx').2)

/-- An entry that is absent is not found. -/
theorem Represents.remove_absent (h : Represents k s q) (he : e ∉ q) (hturns : q.length < turns) :
    s.remove k turns e = some s := by
  have hindex := h.index_lt e
  obtain ⟨last, hfound⟩ : ∃ last, Loop.turns (s.removeTurn e) turns (s.fHashTable (s.index k e), none) =
      some (none, last) :=
    Table.removeTurn_absent (h.leads _ hindex) (fun hin => he (Table.mem_chain.1 hin).1) (chain_length_lt hturns _)
  simp only [Table.remove, ← Table.index_eq, Table.load_of_lt hindex, Option.bind_eq_bind, Option.bind_some, hfound]

/-- **The map law**: the entries with an equal key are all in one chain, in their order. -/
theorem Represents.map (h : Represents k s q) (key : K) (hturns : q.length < turns) :
    s.map k turns key = some (q.find? fun elem => k.equal (k.key elem) key) := by
  have hindex : (s.computeIndex (k.getHashKey key)).toNat < s.fSize.toNat := UInt32.lt_iff_toNat_lt.1 (h.below _)
  have hsame : ∀ elem, k.equal (k.key elem) key = true → s.index k elem = (s.computeIndex (k.getHashKey key)).toNat := by
    intro elem hequal
    rw [Table.index_eq, k.hash_eq hequal]
  unfold Table.map
  dsimp only
  rw [Table.load_of_lt hindex, Option.bind_eq_bind, Option.bind_some,
    Table.mapTurn_find (h.leads _ hindex) (chain_length_lt hturns _), Table.chain, List.find?_filter]
  congr 2
  funext elem
  cases hequal : k.equal (k.key elem) key with
  | true => simp [hsame elem hequal]
  | false => simp

/-! ## The iterator -/

theorem Table.getTableEntry_eq {fIndex : UInt32} (hsmall : fIndex.toNat < 2147483648) (hless : fIndex.toNat < s.fSize.toNat) :
    s.getTableEntry fIndex.toInt32 = some (s.fHashTable fIndex.toNat) := by
  have hint : fIndex.toInt32.toInt = fIndex.toNat := BitVec.toInt_eq_toNat_of_lt (x := fIndex.toBitVec) (by
    change 2 * fIndex.toNat < _
    omega)
  rw [getTableEntry, hint, load_of_lt hless]

/-- The entries of the chains from `i` on. -/
def Table.chainsFrom (k : KeyClass K) (s : Table) (q : List Entry) (i : Nat) : List Entry :=
  (List.range' i (s.fSize.toNat - i)).flatMap (s.chain k q)

theorem Table.chainsFrom_of_lt (h : i < s.fSize.toNat) : s.chainsFrom k q i = s.chain k q i ++ s.chainsFrom k q (i + 1) := by
  rw [chainsFrom, show s.fSize.toNat - i = s.fSize.toNat - (i + 1) + 1 by omega, List.range'_succ, List.flatMap_cons]
  rfl

theorem Table.chainsFrom_size : s.chainsFrom k q s.fSize.toNat = [] := by
  rw [chainsFrom, Nat.sub_self]
  rfl

/-- An entry is in the chains from its index on. -/
theorem Table.mem_chainsFrom : e ∈ s.chainsFrom k q i ↔ e ∈ q ∧ i ≤ s.index k e ∧ s.index k e < s.fSize.toNat := by
  simp only [chainsFrom, List.mem_flatMap, List.mem_range'_1, mem_chain]
  constructor
  · rintro ⟨j, hj, he, rfl⟩
    exact ⟨he, hj.1, by omega⟩
  · rintro ⟨he, hle, hlt⟩
    exact ⟨_, ⟨hle, by omega⟩, he, rfl⟩

theorem Table.chainsFrom_nodup (h : q.Nodup) : (s.chainsFrom k q i).Nodup := by
  refine List.nodup_flatMap.2 ⟨fun j _ => h.filter _, ?_⟩
  refine (List.nodup_range' 1 Nat.one_pos).imp ?_
  intro j j' hne e hj hj'
  exact hne ((mem_chain.1 hj).2.symm.trans (mem_chain.1 hj').2)

/-- The chains together hold every entry once. -/
theorem Represents.chainsFrom_perm (h : Represents k s q) : (s.chainsFrom k q 0).Perm q := by
  refine (List.perm_ext_iff_of_nodup (Table.chainsFrom_nodup h.nodup) h.nodup).2 fun e => ?_
  rw [Table.mem_chainsFrom]
  exact and_iff_left ⟨Nat.zero_le _, h.index_lt e⟩

/-- `rest` are the entries that an iterator has yet to visit. -/
def At (k : KeyClass K) (s : Table) (q : List Entry) (rest : List Entry) : UInt32 × Option Entry → Prop
  | (_, none) => rest = []
  | (fIndex, some e) =>
    fIndex < s.fSize ∧ ∃ l, Leads s.fNextHashEntry (some e) (e :: l) ∧ rest = e :: l ++ s.chainsFrom k q (fIndex.toNat + 1)

theorem Table.toNat_succ (hsize : s.fSize ≤ 2147483648) {fIndex : UInt32} (hlt : fIndex < s.fSize) :
    (fIndex + 1).toNat = fIndex.toNat + 1 := by
  have hlt := UInt32.lt_iff_toNat_lt.1 hlt
  have hsize : s.fSize.toNat ≤ 2147483648 := UInt32.le_iff_toNat_le.1 hsize
  rw [UInt32.toNat_add]
  exact Nat.mod_eq_of_lt (by change fIndex.toNat + 1 < 4294967296; omega)

/-- One turn of the loops of `First` and `Next`: past an empty chain, or out of the loop. -/
theorem Represents.seekTurn (h : Represents k s q) (hsize : s.fSize ≤ 2147483648) {fIndex : UInt32} (hle : fIndex ≤ s.fSize) :
    (s.seekTurn (fIndex, none) = .inl (fIndex + 1, none) ∧ fIndex < s.fSize ∧
      s.chainsFrom k q (fIndex.toNat + 1) = s.chainsFrom k q fIndex.toNat) ∨
    ∃ iter, s.seekTurn (fIndex, none) = .inr (some iter) ∧ At k s q (s.chainsFrom k q fIndex.toNat) iter := by
  by_cases hlt : fIndex < s.fSize
  · have hlt' := UInt32.lt_iff_toNat_lt.1 hlt
    have hsmall : fIndex.toNat < 2147483648 := Nat.lt_of_lt_of_le hlt' (UInt32.le_iff_toNat_le.1 hsize)
    have hentry := Table.getTableEntry_eq hsmall hlt'
    have hleads := h.leads _ hlt'
    rw [Table.chainsFrom_of_lt hlt']
    cases hchain : s.chain k q fIndex.toNat with
    | nil =>
      rw [hchain, leads_nil] at hleads
      exact Or.inl ⟨by simp [Table.seekTurn, hlt, hentry, hleads], hlt, rfl⟩
    | cons e l =>
      rw [hchain] at hleads
      refine Or.inr ⟨(fIndex, some e), by simp [Table.seekTurn, hlt, hentry, hleads.1], hlt, l, ?_, rfl⟩
      rw [← hleads.1]
      exact hleads
  · refine Or.inr ⟨(fIndex, none), by simp [Table.seekTurn, hlt], ?_⟩
    rw [At, UInt32.le_antisymm hle (UInt32.not_lt.1 hlt), Table.chainsFrom_size]

/-- The loops go to the next entry. -/
theorem Represents.seek (h : Represents k s q) (hsize : s.fSize ≤ 2147483648) {fIndex : UInt32}
    (hle : fIndex ≤ s.fSize) (hturns : s.fSize.toNat - fIndex.toNat < turns) :
    ∃ iter, s.seek turns fIndex = some iter ∧ At k s q (s.chainsFrom k q fIndex.toNat) iter := by
  induction turns generalizing fIndex with
  | zero => cases hturns
  | succ turns ih =>
    unfold Table.seek at ih ⊢
    rcases h.seekTurn hsize hle with ⟨hturn, hlt, hsame⟩ | ⟨iter, hturn, hat⟩
    · have hsucc := Table.toNat_succ hsize hlt
      have hlt := UInt32.lt_iff_toNat_lt.1 hlt
      rw [Loop.turns_succ_inl hturn, ← hsame, ← hsucc]
      refine ih ?_ (by omega)
      rw [UInt32.le_iff_toNat_le, hsucc]
      exact hlt
    · exact ⟨iter, by rw [Loop.turns_succ_inr hturn]; rfl, hat⟩

/-- `Next` leaves the entry behind. -/
theorem Represents.next (h : Represents k s q) (hsize : s.fSize ≤ 2147483648) {fIndex : UInt32} {rest : List Entry}
    (hat : At k s q rest (fIndex, some e)) (hturns : s.fSize.toNat < turns) :
    ∃ iter rest', s.next turns fIndex e = some iter ∧ rest = e :: rest' ∧ At k s q rest' iter := by
  obtain ⟨hlt, l, hleads, rfl⟩ := hat
  unfold Table.next
  cases l with
  | nil =>
    have hsucc := Table.toNat_succ hsize hlt
    have hle : fIndex + 1 ≤ s.fSize := by
      rw [UInt32.le_iff_toNat_le, hsucc]
      exact UInt32.lt_iff_toNat_lt.1 hlt
    obtain ⟨iter, hseek, hiter⟩ : ∃ iter, s.seek turns (fIndex + 1) = some iter ∧ _ := h.seek hsize hle (by omega)
    rw [hsucc] at hiter
    rw [leads_nil.1 hleads.2]
    exact ⟨iter, _, hseek, rfl, hiter⟩
  | cons x l =>
    rw [hleads.2.1]
    refine ⟨_, _, rfl, rfl, hlt, l, ?_, rfl⟩
    rw [← hleads.2.1]
    exact hleads.2

/-- An iterator visits what is left, and is done. -/
theorem Represents.visit (h : Represents k s q) (hsize : s.fSize ≤ 2147483648) (hturns : s.fSize.toNat < turns)
    {iter : UInt32 × Option Entry} {rest seen : List Entry} {n : Nat} (hat : At k s q rest iter) (hn : rest.length < n) :
    Loop.turns (s.visitTurn turns) n (iter, seen) = some (some (seen.reverse ++ rest)) := by
  induction n generalizing iter rest seen with
  | zero => cases hn
  | succ n ih =>
    obtain ⟨fIndex, _ | e⟩ := iter
    · obtain rfl : rest = [] := hat
      rw [List.append_nil]
      exact Loop.turns_succ_inr rfl
    · obtain ⟨iter, rest, hnext, rfl, hat'⟩ := h.next hsize hat hturns
      have hturn : s.visitTurn turns ((fIndex, some e), seen) = .inl (iter, e :: seen) := by simp [Table.visitTurn, hnext]
      rw [List.length_cons] at hn
      rw [Loop.turns_succ_inl hturn, ih hat' (Nat.lt_of_succ_lt_succ hn), List.reverse_cons, List.append_assoc]
      rfl

/-- **The iterator** visits every entry once, and is done. -/
theorem Represents.iterate (h : Represents k s q) (hsize : s.fSize ≤ 2147483648) (hturns : s.fSize.toNat + q.length < turns) :
    ∃ seen, s.iterate turns = some seen ∧ seen.Perm q := by
  have hperm := h.chainsFrom_perm
  obtain ⟨iter, hfirst, hat⟩ : ∃ iter, s.seek turns 0 = some iter ∧ At k s q (s.chainsFrom k q 0) iter :=
    h.seek hsize UInt32.zero_le (by omega)
  have hlength : (s.chainsFrom k q 0).length < turns := by
    rw [hperm.length_eq]
    omega
  have hvisit : Loop.turns (s.visitTurn turns) turns (iter, []) = _ := h.visit hsize (by omega) hat hlength
  refine ⟨_, ?_, hperm⟩
  rw [Table.iterate, Table.first, hfirst, Option.bind_some, hvisit]
  rfl

/-! ## What a call leaves alone -/

theorem Table.store_fSize {i : Int} (h : s.store i p = some s') : s'.fSize = s.fSize := by
  unfold store at h
  split at h
  · exact Option.some.inj h ▸ rfl
  · cases h

theorem Table.add_fSize (h : s.add k e = some s') : s'.fSize = s.fSize := by
  obtain ⟨head, -, h⟩ := Option.bind_eq_some_iff.1 h
  obtain ⟨s₁, hs, h⟩ := Option.bind_eq_some_iff.1 h
  have hsize := store_fSize hs
  exact Option.some.inj h ▸ hsize

theorem Table.remove_fSize (h : s.remove k turns e = some s') : s'.fSize = s.fSize := by
  obtain ⟨head, -, h⟩ := Option.bind_eq_some_iff.1 h
  obtain ⟨⟨_ | elem, _ | last⟩, -, h⟩ := Option.bind_eq_some_iff.1 h
  · exact Option.some.inj h ▸ rfl
  · exact Option.some.inj h ▸ rfl
  · obtain ⟨s₁, hs, h⟩ := Option.bind_eq_some_iff.1 h
    have hsize := store_fSize hs
    exact Option.some.inj h ▸ hsize
  · exact Option.some.inj h ▸ rfl

/-- The size of a table stays as it is. -/
theorem Table.call_fSize {op : Op K} {r : Result} (h : s.call k turns op = some (s', r)) : s'.fSize = s.fSize := by
  cases op with
  | add e =>
    obtain ⟨s₁, hs, heq⟩ := Option.map_eq_some_iff.1 h
    cases heq
    exact add_fSize hs
  | remove e =>
    obtain ⟨s₁, hs, heq⟩ := Option.map_eq_some_iff.1 h
    cases heq
    exact remove_fSize hs
  | map key =>
    obtain ⟨elem, -, heq⟩ := Option.map_eq_some_iff.1 h
    cases heq
    rfl
  | getNumEntries =>
    cases h
    rfl
  | iterate =>
    obtain ⟨seen, -, heq⟩ := Option.map_eq_some_iff.1 h
    cases heq
    rfl

/-! ## Large tables -/

/-- The index 2147483648 is negative as an `int`. -/
theorem Table.getTableEntry_large : s.getTableEntry (2147483648 : UInt32).toInt32 = none := by
  have hint : (2147483648 : UInt32).toInt32.toInt = -2147483648 := by decide
  rw [getTableEntry, hint, load, if_neg (by omega)]

/-- One turn in a large table. -/
theorem Table.seekTurn_large (hsize : 2147483648 < s.fSize) {fIndex : UInt32} (hle : fIndex ≤ 2147483648) :
    s.seekTurn (fIndex, p) = .inr none ∨ fIndex < 2147483648 ∧
      (s.seekTurn (fIndex, p) = .inl (fIndex + 1, none) ∨ ∃ e, s.seekTurn (fIndex, p) = .inr (some (fIndex, some e))) := by
  have hlt := UInt32.lt_of_le_of_lt hle hsize
  by_cases hlast : fIndex = 2147483648
  · subst hlast
    rw [seekTurn, if_pos hlt, getTableEntry_large]
    exact Or.inl rfl
  · have hsmall := UInt32.lt_of_le_of_ne hle hlast
    have hentry := getTableEntry_eq (UInt32.lt_iff_toNat_lt.1 hsmall) (UInt32.lt_iff_toNat_lt.1 hlt)
    refine Or.inr ⟨hsmall, ?_⟩
    cases hhead : s.fHashTable fIndex.toNat with
    | none => exact Or.inl (by simp [seekTurn, hlt, hentry, hhead])
    | some e => exact Or.inr ⟨e, by simp [seekTurn, hlt, hentry, hhead]⟩

theorem succ_le_large {fIndex : UInt32} (h : fIndex < 2147483648) : fIndex + 1 ≤ 2147483648 := by
  have hlt : fIndex.toNat < 2147483648 := UInt32.lt_iff_toNat_lt.1 h
  rw [UInt32.le_iff_toNat_le, UInt32.toNat_add]
  change (fIndex.toNat + 1) % 4294967296 ≤ 2147483648
  omega

/-- In a large table the loops find an entry, or leave the table. -/
theorem Table.seek_large (hsize : 2147483648 < s.fSize) {fIndex : UInt32} (hle : fIndex ≤ 2147483648)
    {iter : UInt32 × Option Entry} (h : s.seek turns fIndex = some iter) :
    ∃ i e, i < 2147483648 ∧ iter = (i, some e) := by
  refine Loop.turns_inv (I := fun at' : UInt32 × Option Entry => at'.1 ≤ 2147483648)
    (Q := fun r => ∀ iter, r = some iter → ∃ i e, i < 2147483648 ∧ iter = (i, some e)) ?_ ?_ (s := (fIndex, none)) hle
    (Option.join_eq_some_iff.1 h) iter rfl
  · rintro ⟨i, cur⟩ at' hle hturn
    rcases seekTurn_large hsize hle with hnone | ⟨hsmall, hnext | ⟨e, hfound⟩⟩
    · cases hnone.symm.trans hturn
    · cases hnext.symm.trans hturn
      exact succ_le_large hsmall
    · cases hfound.symm.trans hturn
  · rintro ⟨i, cur⟩ r hle hturn iter rfl
    rcases seekTurn_large hsize hle with hnone | ⟨hsmall, hnext | ⟨e, hfound⟩⟩
    · cases hnone.symm.trans hturn
    · cases hnext.symm.trans hturn
    · cases hfound.symm.trans hturn
      exact ⟨i, e, hsmall, rfl⟩

theorem Table.next_large (hsize : 2147483648 < s.fSize) {fIndex : UInt32} (hsmall : fIndex < 2147483648)
    {iter : UInt32 × Option Entry} (h : s.next turns fIndex e = some iter) :
    ∃ i e, i < 2147483648 ∧ iter = (i, some e) := by
  unfold next at h
  split at h
  · cases h
    exact ⟨fIndex, _, hsmall, rfl⟩
  · exact seek_large hsize (succ_le_large hsmall) h

/-- **An iterator** over a large table is never done. -/
theorem Table.iterate_large (hsize : 2147483648 < s.fSize) : s.iterate turns = none := by
  rw [Option.eq_none_iff_forall_ne_some]
  intro seen h
  obtain ⟨iter, hfirst, h⟩ := Option.bind_eq_some_iff.1 h
  refine Loop.turns_inv
    (I := fun at' : (UInt32 × Option Entry) × List Entry => ∃ i e, i < 2147483648 ∧ at'.1 = (i, some e))
    (Q := fun r => r ≠ some seen) ?_ ?_ (s := (iter, [])) (seek_large hsize (UInt32.zero_le) hfirst)
    (Option.join_eq_some_iff.1 h) rfl
  · rintro ⟨_, seen⟩ at' ⟨i, e, hsmall, rfl⟩ hturn
    cases hnext : s.next turns i e with
    | none => simp [visitTurn, hnext] at hturn
    | some iter =>
      have hiter := next_large hsize hsmall hnext
      simp only [visitTurn, hnext, Sum.inl.injEq] at hturn
      exact hturn ▸ hiter
  · rintro ⟨_, seen'⟩ r ⟨i, e, hsmall, rfl⟩ hturn
    cases hnext : s.next turns i e with
    | none =>
      simp only [visitTurn, hnext, Sum.inr.injEq] at hturn
      exact hturn ▸ (Option.some_ne_none _).symm
    | some iter => simp [visitTurn, hnext] at hturn

/-! ## Sequences of calls -/

/-- **One call** does what it is to do. -/
theorem Represents.call {op : Op K} (h : Represents k s q) (hfresh : Fresh q op)
    (hsmall : op = .iterate → s.fSize ≤ 2147483648) :
    ∃ turns s' r, s.call k turns op = some (s', r) ∧ Right k q s s' op r ∧ Represents k s' (present q op) := by
  have hturns : q.length < s.fSize.toNat + q.length + 1 := by omega
  refine ⟨s.fSize.toNat + q.length + 1, ?_⟩
  cases op with
  | add e =>
    obtain ⟨s', hs, h'⟩ := h.add hfresh
    exact ⟨s', .nothing, by simp [Table.call, hs], rfl, h'⟩
  | remove e =>
    by_cases he : e ∈ q
    · obtain ⟨s', hs, h'⟩ := h.remove he hturns
      exact ⟨s', .nothing, by simp [Table.call, hs], ⟨rfl, fun hout => absurd he hout⟩, h'⟩
    · have hs := h.remove_absent he hturns
      refine ⟨s, .nothing, by simp [Table.call, hs], ⟨rfl, fun _ => rfl⟩, ?_⟩
      rw [present, List.erase_of_not_mem he]
      exact h
  | map key => exact ⟨s, _, by rw [Table.call, h.map key hturns]; rfl, ⟨rfl, rfl⟩, h⟩
  | getNumEntries => exact ⟨s, _, rfl, ⟨⟨_, rfl, h.count⟩, rfl⟩, h⟩
  | iterate =>
    obtain ⟨seen, hseen, hperm⟩ := h.iterate (hsmall rfl) (Nat.lt_succ_self _)
    exact ⟨s, .entries seen, by simp [Table.call, hseen], ⟨⟨seen, rfl, hperm⟩, rfl⟩, h⟩

/-- A run in which the table is small, or has no iterator. -/
theorem Represents.agrees {ops : List (Op K)} (h : Represents k s q)
    (hlegal : Along (fun q op => some (present q op)) Fresh q ops)
    (hsmall : s.fSize ≤ 2147483648 ∨ .iterate ∉ ops) : Agrees k s q ops := by
  induction ops generalizing s q with
  | nil => exact h.below
  | cons op ops ih =>
    obtain ⟨turns, s', r, hcall, hright, h'⟩ := h.call hlegal.1 fun hop =>
      hsmall.resolve_right fun hout => hout (hop ▸ List.mem_cons_self)
    refine ⟨h.below, turns, s', r, hcall, hright, ih h' (hlegal.2 _ rfl) ?_⟩
    rw [Table.call_fSize hcall]
    exact hsmall.imp_right fun hout hin => hout (List.mem_cons_of_mem _ hin)

theorem not_agrees {ops : List (Op K)} (hsize : 2147483648 < s.fSize) (hin : .iterate ∈ ops) : ¬ Agrees k s q ops := by
  induction ops generalizing s q with
  | nil => cases hin
  | cons op ops ih =>
    rintro ⟨-, turns, s', r, hcall, -, hrest⟩
    rcases List.mem_cons.1 hin with rfl | hin
    · rw [Table.call, Table.iterate_large hsize] at hcall
      cases hcall
    · exact ih (by rwa [Table.call_fSize hcall]) hin hrest

end Represents

/-- **OSHashTable**: in every sequence of calls the table does what the list of the entries does exactly when it has at most
2147483648 chains, or no iterator. -/
theorem osHashTable_agrees_iff {K : Type*} (k : KeyClass K) (size : UInt32) (fNextHashEntry : Entry → Option Entry)
    (ops : List (Op K)) (hsize : 0 < size) (hlegal : Along (fun q op => some (present q op)) Fresh [] ops) :
    Agrees k (.new size fNextHashEntry) [] ops ↔ size ≤ 2147483648 ∨ .iterate ∉ ops := by
  refine ⟨fun hagrees => ?_, (represents_new hsize).agrees hlegal⟩
  by_contra hnot
  obtain ⟨hlarge, hin⟩ := not_or.1 hnot
  exact not_agrees (UInt32.not_le.1 hlarge) (not_not.1 hin) hagrees

/-- The key of an entry is the low half of its address. -/
def lowHalf : KeyClass UInt32 where
  key e := e.1.toUInt32
  getHashKey := id
  equal a b := a == b
  hash_eq h := eq_of_beq h

/-- Two entries with one key, in three chains. -/
theorem osHashTable_two_entries : Agrees lowHalf (.new 3 fun _ => none) []
    [.add ⟨5, by decide⟩, .add ⟨4294967301, by decide⟩, .map 5, .remove ⟨4294967301, by decide⟩, .map 5, .iterate] :=
  (osHashTable_agrees_iff lowHalf 3 _ _ (by decide) (by decide)).2 (Or.inl (by decide))

/-- An iterator over an empty table of 2147483649 chains. -/
theorem osHashTable_large : Along (fun q op => some (present q op)) Fresh [] [(.iterate : Op UInt32)] ∧
    ¬ Agrees lowHalf (.new 2147483649 fun _ => none) [] [.iterate] :=
  ⟨by decide, not_agrees (by decide) List.mem_cons_self⟩

end ToolLib.Tools.OSHashTable
