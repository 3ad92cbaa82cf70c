import Mathlib.Data.UInt
import ToolLib.Base.Chains
import ToolLib.Base.Logged

/-!
# OSRefTable

The table of OSRef.cpp: refs under the hash of their string, in the chains of OSHashTable.h. A step is a region under
`fMutex`. `UnRegister` gives the mutex up while it waits, so it is one region for every look at the count; that a waiting
thread looks again needs no `Signal` here, which covers those that wake up for another reason.

A ref keeps its string as long as it is used with a table (`Set` is not among the operations). PlatformHeader.h turns
`Assert` on: an operation whose assertion fails stops the program, and is no step. `UInt32` has 32 bits.
-/

namespace ToolLib.Common.Refs

open ToolLib.Base

/-! ## The hash table -/

/-- The string of an `OSRef` or of an `OSRefKey`: `HashString` asserts that there is one. -/
abbrev OSRefKey := { s : List UInt8 // s ≠ [] }

/-- `OSRefTableUtils::HashString`. -/
def hashString (inString : OSRefKey) : Nat :=
  let theData := inString.1
  let len := theData.length
  let quarterLen := len >>> 2
  let at' (i : Nat) : Nat := (theData.getD i 0).toNat
  len * (at' 0 + at' quarterLen + at' (quarterLen * 2) + at' (quarterLen * 3) + at' (len - 1)) % 4294967296

/-- `fMask`, as the constructor of `OSHashTable` computes it from a size of at least one. -/
def fMask (fSize : Nat) : Nat := if (fSize - 1) &&& fSize ≠ 0 then 0 else fSize - 1

/-- `OSHashTable::ComputeIndex`. -/
def computeIndex (fSize hashKey : Nat) : Nat :=
  if fMask fSize ≠ 0 then hashKey &&& fMask fSize else hashKey % fSize

section Table

variable {κ : Type*} (fSize : Nat) (fString : κ → OSRefKey)

/-- The chain of a string. -/
def chainOf (key : OSRefKey) : Nat := computeIndex fSize (hashString key)

/-- `OSHashTable::Map`: the first entry of the chain with this string. -/
def map (fHashTable : Nat → List κ) (key : OSRefKey) : Option κ :=
  (fHashTable (chainOf fSize key)).find? fun elem => fString elem == key

/-- `OSHashTable::Add`. -/
def add (fHashTable : Nat → List κ) (entry : κ) : Nat → List κ :=
  let theIndex := chainOf fSize (fString entry)
  Function.update fHashTable theIndex (entry :: fHashTable theIndex)

/-- `OSHashTable::Remove`: "sometimes remove is called 2x (swap, then un register)". -/
def remove [DecidableEq κ] (fHashTable : Nat → List κ) (entry : κ) : Nat → List κ :=
  let theIndex := chainOf fSize (fString entry)
  Function.update fHashTable theIndex ((fHashTable theIndex).erase entry)

/-- What a table should hold: refs in their own chains, each once, and no two with one string. -/
structure Sound (t : Nat → List κ) : Prop where
  placed : ∃ p, Placed t p ∧ ∀ c i, p c = some i → i = chainOf fSize (fString c)
  unique : ∀ i j c d, c ∈ t i → d ∈ t j → fString c = fString d → c = d

variable {fSize fString} {t : Nat → List κ} {c d : κ} {i : Nat} {key : OSRefKey}

theorem sound_empty : Sound fSize fString fun _ => [] :=
  ⟨⟨fun _ => none, placed_empty, by simp⟩, by simp⟩

namespace Sound

theorem chain (S : Sound fSize fString t) (hc : c ∈ t i) : i = chainOf fSize (fString c) := by
  obtain ⟨p, hp, hchain⟩ := S.placed
  exact hchain c i ((hp.mem_iff i c).1 hc)

/-- A search finds exactly the refs of the table. -/
theorem map_eq_some (S : Sound fSize fString t) : map fSize fString t key = some c ↔ (∃ i, c ∈ t i) ∧ fString c = key := by
  constructor
  · intro h
    have hkey := List.find?_some h
    exact ⟨⟨_, List.mem_of_find?_eq_some h⟩, eq_of_beq hkey⟩
  · rintro ⟨⟨i, hc⟩, rfl⟩
    rw [S.chain hc] at hc
    apply find?_eq_some_of_unique hc (by simp)
    intro d hd hkey
    exact S.unique _ _ d c hd hc (eq_of_beq hkey)

theorem map_eq_none (S : Sound fSize fString t) : map fSize fString t key = none ↔ ∀ c i, c ∈ t i → fString c ≠ key := by
  constructor
  · intro h c i hc hkey
    rw [S.map_eq_some.2 ⟨⟨i, hc⟩, hkey⟩] at h
    cases h
  · intro h
    cases hm : map fSize fString t key with
    | none => rfl
    | some c =>
      obtain ⟨⟨i, hc⟩, hkey⟩ := S.map_eq_some.1 hm
      exact absurd hkey (h c i hc)

theorem mem_add : d ∈ add fSize fString t c i ↔ d = c ∧ i = chainOf fSize (fString c) ∨ d ∈ t i := by
  rcases eq_or_ne i (chainOf fSize (fString c)) with rfl | hi
  · simp [add]
  · simp [add, hi]

variable [DecidableEq κ]

/-- A ref comes under a string that is free. -/
theorem add (S : Sound fSize fString t) (hfree : map fSize fString t (fString c) = none) :
    Sound fSize fString (add fSize fString t c) := by
  have hnew : ∀ i d, d ∈ t i → fString d ≠ fString c := fun i d => S.map_eq_none.1 hfree d i
  constructor
  · obtain ⟨p, hp, hchain⟩ := S.placed
    have hc : p c = none := by
      cases h : p c with
      | none => rfl
      | some i => exact absurd rfl (hnew i c ((hp.mem_iff i c).2 h))
    refine ⟨_, hp.push hc, fun d i hd => ?_⟩
    rcases eq_or_ne d c with rfl | hdc
    · rw [Function.update_self] at hd
      exact (Option.some.inj hd).symm
    · rw [Function.update_of_ne hdc] at hd
      exact hchain d i hd
  · intro i j d e hd he hkey
    rcases mem_add.1 hd with ⟨hdc, -⟩ | hd <;> rcases mem_add.1 he with ⟨hec, -⟩ | he
    · rw [hdc, hec]
    · rw [hdc] at hkey
      exact absurd hkey.symm (hnew j e he)
    · rw [hec] at hkey
      exact absurd hkey (hnew i d hd)
    · exact S.unique i j d e hd he hkey

theorem mem_remove (S : Sound fSize fString t) : d ∈ remove fSize fString t c i ↔ d ≠ c ∧ d ∈ t i := by
  obtain ⟨p, hp, hchain⟩ := S.placed
  rcases eq_or_ne i (chainOf fSize (fString c)) with rfl | hi
  · simp [remove, (hp.nodup _).mem_erase_iff]
  · rw [remove, Function.update_of_ne hi]
    refine (and_iff_right_of_imp ?_).symm
    rintro hd rfl
    exact hi (S.chain hd)

theorem remove (S : Sound fSize fString t) (c : κ) : Sound fSize fString (remove fSize fString t c) := by
  constructor
  · obtain ⟨p, hp, hchain⟩ := S.placed
    refine ⟨_, hp.erase (hchain c), fun d i hd => ?_⟩
    rcases eq_or_ne d c with rfl | hdc
    · simp at hd
    · rw [Function.update_of_ne hdc] at hd
      exact hchain d i hd
  · intro i j d e hd he hkey
    exact S.unique i j d e (S.mem_remove.1 hd).2 (S.mem_remove.1 he).2 hkey

end Sound

end Table

/-! ## The operations -/

inductive OSError
  | OS_NoErr
  | EPERM
  deriving DecidableEq

/-- `OSRefTable`, with the counts of the refs and the threads that wait in `UnRegister`. -/
structure OSRefTable (κ T : Type*) where
  fTable : Nat → List κ
  fRefCount : κ → Nat
  waiting : T → Option (κ × Nat)

/-- What a thread does next. -/
inductive RefAct (κ T : Type*)
  | register (inRef : κ)
  | registerOrResolve (inRef : κ)
  /-- The thread `a` calls `UnRegister`. -/
  | unRegister (a : T) (ref : κ) (refCount : Nat)
  /-- The thread `a` has waited. -/
  | wake (a : T)
  | tryUnRegister (ref : κ) (refCount : Nat)
  | resolve (inUniqueID : OSRefKey)
  | release (ref : κ)
  | swap (newRef : κ)

/-- What has happened to the count of a ref. -/
inductive RefNote (κ : Type*)
  | resolved (ref : κ)
  | released (ref : κ)
  deriving DecidableEq

namespace OSRefTable

variable {κ T : Type*} [DecidableEq κ]

def new : OSRefTable κ T where
  fTable _ := []
  fRefCount _ := 0
  waiting _ := none

section Operations

variable (fSize : Nat) (fString : κ → OSRefKey)

def register (s : OSRefTable κ T) (inRef : κ) : Option (OSError × OSRefTable κ T) :=
  if s.fRefCount inRef = 0 then
    match map fSize fString s.fTable (fString inRef) with
    | some _ => some (.EPERM, s)
    | none => some (.OS_NoErr, { s with fTable := add fSize fString s.fTable inRef })
  else none

def resolve (s : OSRefTable κ T) (inUniqueID : OSRefKey) : Option (Option κ × OSRefTable κ T) :=
  match map fSize fString s.fTable inUniqueID with
  | some ref =>
    let count := (s.fRefCount ref + 1) % 4294967296
    if 0 < count then some (some ref, { s with fRefCount := Function.update s.fRefCount ref count }) else none
  | none => some (none, s)

def registerOrResolve (s : OSRefTable κ T) (inRef : κ) : Option (Option κ × OSRefTable κ T) :=
  if s.fRefCount inRef = 0 then
    match resolve fSize fString s (fString inRef) with
    | some (some duplicateRef, s') => some (some duplicateRef, s')
    | some (none, s') => some (none, { s' with fTable := add fSize fString s'.fTable inRef })
    | none => none
  else none

/-- A region of `UnRegister`: `none` when the thread has to wait. -/
def unRegister (s : OSRefTable κ T) (ref : κ) (refCount : Nat) : Option (OSRefTable κ T) :=
  if s.fRefCount ref > refCount then none else some { s with fTable := remove fSize fString s.fTable ref }

def tryUnRegister (s : OSRefTable κ T) (ref : κ) (refCount : Nat) : Bool × OSRefTable κ T :=
  match unRegister fSize fString s ref refCount with
  | some s' => (true, s')
  | none => (false, s)

def release (s : OSRefTable κ T) (ref : κ) : Option (OSRefTable κ T) :=
  let count := (s.fRefCount ref + 4294967295) % 4294967296
  if count < 1048576 then some { s with fRefCount := Function.update s.fRefCount ref count } else none

def swap (s : OSRefTable κ T) (newRef : κ) : Option (OSRefTable κ T) :=
  match map fSize fString s.fTable (fString newRef) with
  | some oldRef => some { s with fTable := add fSize fString (remove fSize fString s.fTable oldRef) newRef }
  | none => none

variable [DecidableEq T]

def step (s : OSRefTable κ T) : RefAct κ T → Option (OSRefTable κ T)
  | .register inRef => (s.register fSize fString inRef).map Prod.snd
  | .registerOrResolve inRef => (s.registerOrResolve fSize fString inRef).map Prod.snd
  | .unRegister a ref refCount =>
    match s.waiting a with
    | some _ => none
    | none =>
      match s.unRegister fSize fString ref refCount with
      | some s' => some s'
      | none => some { s with waiting := Function.update s.waiting a (some (ref, refCount)) }
  | .wake a =>
    match s.waiting a with
    | some (ref, refCount) =>
      match s.unRegister fSize fString ref refCount with
      | some s' => some { s' with waiting := Function.update s.waiting a none }
      | none => some s
    | none => none
  | .tryUnRegister ref refCount => some (s.tryUnRegister fSize fString ref refCount).2
  | .resolve inUniqueID => (s.resolve fSize fString inUniqueID).map Prod.snd
  | .release ref => s.release ref
  | .swap newRef => s.swap fSize fString newRef

/-- The ref that a call of `Resolve` or `RegisterOrResolve` returns, or that is released. -/
def obs (s : OSRefTable κ T) : RefAct κ T → OSRefTable κ T → Option (RefNote κ)
  | .resolve inUniqueID, _ => ((s.resolve fSize fString inUniqueID).bind Prod.fst).map .resolved
  | .registerOrResolve inRef, _ => ((s.registerOrResolve fSize fString inRef).bind Prod.fst).map .resolved
  | .release ref, _ => some (.released ref)
  | _, _ => none

end Operations

/-! ## What a step does -/

section Steps

variable [DecidableEq T] {fSize : Nat} {fString : κ → OSRefKey} {s s' : OSRefTable κ T} {a : RefAct κ T} {c : κ} {n : Nat}

/-- The action looks whether it may take `c` out of the table, for the count `n`. -/
inductive Unregisters (s : OSRefTable κ T) : RefAct κ T → κ → Nat → Prop
  | unRegister {x : T} {c : κ} {n : Nat} : Unregisters s (.unRegister x c n) c n
  | wake {x : T} {c : κ} {n : Nat} (h : s.waiting x = some (c, n)) : Unregisters s (.wake x) c n
  | tryUnRegister {c : κ} {n : Nat} : Unregisters s (.tryUnRegister c n) c n

/-- What a step can do to the table. -/
inductive TableStep (fSize : Nat) (fString : κ → OSRefKey) (s : OSRefTable κ T) (a : RefAct κ T) : (Nat → List κ) → Prop
  | same (h : ∀ c, a ≠ .swap c) : TableStep fSize fString s a s.fTable
  | add {c : κ} (ha : a = .register c ∨ a = .registerOrResolve c) (hm : map fSize fString s.fTable (fString c) = none) :
    TableStep fSize fString s a (add fSize fString s.fTable c)
  | remove {c : κ} {n : Nat} (ha : Unregisters s a c n) (hn : s.fRefCount c ≤ n) :
    TableStep fSize fString s a (remove fSize fString s.fTable c)
  | swap {c d : κ} (ha : a = .swap c) (hm : map fSize fString s.fTable (fString c) = some d) :
    TableStep fSize fString s a (Refs.add fSize fString (Refs.remove fSize fString s.fTable d) c)

omit [DecidableEq T] in
theorem unRegister_eq_some : s.unRegister fSize fString c n = some s' ↔
    s.fRefCount c ≤ n ∧ { s with fTable := remove fSize fString s.fTable c } = s' := by
  simp only [unRegister]
  split
  · rename_i h
    simp only [reduceCtorEq, false_iff, not_and]
    omega
  · rename_i h
    simp only [Option.some.injEq, iff_and_self]
    omega

omit [DecidableEq T] in
theorem resolve_cases {key : OSRefKey} {r : Option κ} (h : s.resolve fSize fString key = some (r, s')) :
    r = map fSize fString s.fTable key ∧ s'.fTable = s.fTable ∧ s'.waiting = s.waiting ∧
      match r with
      | some d => 0 < (s.fRefCount d + 1) % 4294967296 ∧
        s'.fRefCount = Function.update s.fRefCount d ((s.fRefCount d + 1) % 4294967296)
      | none => s'.fRefCount = s.fRefCount := by
  simp only [resolve] at h
  split at h
  · rename_i d hm
    split at h
    · cases h
      exact ⟨hm.symm, rfl, rfl, ‹_›, rfl⟩
    · cases h
  · rename_i hm
    cases h
    exact ⟨hm.symm, rfl, rfl, rfl⟩

theorem step_table (h : s.step fSize fString a = some s') : TableStep fSize fString s a s'.fTable := by
  cases a with
  | register c =>
    simp only [step, register] at h
    split at h
    · split at h
      · cases h
        exact .same (by simp)
      · cases h
        exact .add (Or.inl rfl) ‹_›
    · cases h
  | registerOrResolve c =>
    simp only [step, registerOrResolve] at h
    split at h
    · split at h
      · rename_i hr
        cases h
        rw [(resolve_cases hr).2.1]
        exact .same (by simp)
      · rename_i hr
        cases h
        obtain ⟨hm, ht, -⟩ := resolve_cases hr
        rw [ht]
        exact .add (Or.inr rfl) hm.symm
      · cases h
    · cases h
  | unRegister x c n =>
    simp only [step] at h
    split at h
    · cases h
    · split at h
      · rename_i hu
        cases h
        obtain ⟨hn, rfl⟩ := unRegister_eq_some.1 hu
        exact .remove .unRegister hn
      · cases h
        exact .same (by simp)
  | wake x =>
    simp only [step] at h
    split at h
    · rename_i hw
      split at h
      · rename_i hu
        cases h
        obtain ⟨hn, rfl⟩ := unRegister_eq_some.1 hu
        exact .remove (.wake hw) hn
      · cases h
        exact .same (by simp)
    · cases h
  | tryUnRegister c n =>
    simp only [step, tryUnRegister, Option.some.injEq] at h
    split at h
    · rename_i hu
      cases h
      obtain ⟨hn, rfl⟩ := unRegister_eq_some.1 hu
      exact .remove .tryUnRegister hn
    · cases h
      exact .same (by simp)
  | resolve key =>
    obtain ⟨⟨r, s₁⟩, hr, rfl⟩ := Option.map_eq_some_iff.1 h
    show TableStep fSize fString s _ s₁.fTable
    rw [(resolve_cases hr).2.1]
    exact .same (by simp)
  | release c =>
    simp only [step, release] at h
    split at h
    · cases h
      exact .same (by simp)
    · cases h
  | swap c =>
    simp only [step, swap] at h
    split at h
    · cases h
      exact .swap rfl ‹_›
    · cases h

/-- What a step does to the counts. -/
theorem step_count (h : s.step fSize fString a = some s') :
    match s.obs fSize fString a s' with
    | some (.resolved c) => 0 < (s.fRefCount c + 1) % 4294967296 ∧
      s'.fRefCount = Function.update s.fRefCount c ((s.fRefCount c + 1) % 4294967296)
    | some (.released c) => a = .release c ∧
      s'.fRefCount = Function.update s.fRefCount c ((s.fRefCount c + 4294967295) % 4294967296)
    | none => s'.fRefCount = s.fRefCount := by
  cases a with
  | register c =>
    simp only [step, register] at h
    split at h
    · split at h <;> cases h <;> rfl
    · cases h
  | registerOrResolve c =>
    obtain ⟨⟨r, s₁⟩, hr, rfl⟩ := Option.map_eq_some_iff.1 h
    simp only [obs, hr, Option.bind_some]
    simp only [registerOrResolve] at hr
    split at hr
    · split at hr
      · rename_i hq
        cases hr
        exact (resolve_cases hq).2.2.2
      · rename_i hq
        cases hr
        exact (resolve_cases hq).2.2.2
      · cases hr
    · cases hr
  | unRegister x c n =>
    simp only [step] at h
    split at h
    · cases h
    · split at h
      · rename_i hu
        cases h
        obtain ⟨-, rfl⟩ := unRegister_eq_some.1 hu
        rfl
      · cases h
        rfl
  | wake x =>
    simp only [step] at h
    split at h
    · split at h
      · rename_i hu
        cases h
        obtain ⟨-, rfl⟩ := unRegister_eq_some.1 hu
        rfl
      · cases h
        rfl
    · cases h
  | tryUnRegister c n =>
    simp only [step, tryUnRegister, Option.some.injEq] at h
    split at h
    · rename_i hu
      cases h
      obtain ⟨-, rfl⟩ := unRegister_eq_some.1 hu
      rfl
    · cases h
      rfl
  | resolve key =>
    obtain ⟨⟨r, s₁⟩, hr, rfl⟩ := Option.map_eq_some_iff.1 h
    have hcount := (resolve_cases hr).2.2.2
    simp only [obs, hr, Option.bind_some]
    cases r with
    | none => exact hcount
    | some d => exact hcount
  | release c =>
    simp only [step, release] at h
    split at h
    · cases h
      exact ⟨rfl, rfl⟩
    · cases h
  | swap c =>
    simp only [step, swap] at h
    split at h
    · cases h
      rfl
    · cases h

end Steps

end OSRefTable

end ToolLib.Common.Refs
