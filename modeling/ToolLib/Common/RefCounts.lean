import ToolLib.Common.OSRef

/-!
# The law of the ref table

For every order of the operations of any number of threads, as long as each `Release` matches an earlier `Resolve`: the
table holds at most one ref for a string, the count of a ref is the number of its resolves less that of its releases, and
every step is `Lawful`: a ref leaves the table when an `UnRegister` finds its count low enough, or by a `Swap` with a ref
of its string; a string that is taken stays with its ref; and `Swap` changes what is found under one string only.

What a step can do to the table and to the counts (`step_table`, `step_count`) is all that the proofs use.
-/

namespace ToolLib.Common.Refs

open ToolLib.Base

namespace OSRefTable

variable {κ T : Type*} [DecidableEq κ] [DecidableEq T] {fSize : Nat} {fString : κ → OSRefKey}

def InTable (s : OSRefTable κ T) (c : κ) : Prop := ∃ i, c ∈ s.fTable i

/-- A `Release` matches a `Resolve` before it. -/
def Matched (x : Logged (OSRefTable κ T) (RefNote κ)) : RefAct κ T → Prop
  | .release ref => x.log.count (.released ref) < x.log.count (.resolved ref)
  | _ => True

instance (x : Logged (OSRefTable κ T) (RefNote κ)) : DecidablePred (Matched x) := fun a =>
  match a with
  | .release _ => inferInstanceAs (Decidable (_ < _))
  | .register _ | .registerOrResolve _ | .unRegister .. | .wake _ | .tryUnRegister .. | .resolve _ | .swap _ =>
    inferInstanceAs (Decidable True)

/-- What a step may do to the table. -/
structure Lawful (fSize : Nat) (fString : κ → OSRefKey) (s : OSRefTable κ T) (a : RefAct κ T) (s' : OSRefTable κ T) :
    Prop where
  /-- A ref is unregistered at a moment when its count is low enough, or swapped out. -/
  leaves : ∀ c, s.InTable c → ¬ s'.InTable c →
    (∃ n, Unregisters s a c n ∧ s.fRefCount c ≤ n) ∨ ∃ d, a = .swap d ∧ d ≠ c ∧ fString d = fString c
  /-- Nothing is registered under a string that is taken. -/
  taken : ∀ c, a = .register c ∨ a = .registerOrResolve c → map fSize fString s.fTable (fString c) ≠ none →
    s'.fTable = s.fTable
  /-- The new ref is found under its string, and the other strings keep their refs. -/
  swapped : ∀ c, a = .swap c → ∀ key,
    map fSize fString s'.fTable key = if key = fString c then some c else map fSize fString s.fTable key

/-- The table is sound, and the counts are right. -/
structure Counted (fSize : Nat) (fString : κ → OSRefKey) (x : Logged (OSRefTable κ T) (RefNote κ)) : Prop where
  sound : Sound fSize fString x.state.fTable
  small : ∀ c, x.state.fRefCount c < 4294967296
  count : ∀ c, x.state.fRefCount c + x.log.count (.released c) = x.log.count (.resolved c)

end OSRefTable

/-! ## One step -/

section Swap

variable {κ : Type*} [DecidableEq κ] {fSize : Nat} {fString : κ → OSRefKey} {t : Nat → List κ} {c d : κ} {key : OSRefKey}

/-- When the ref of a string is taken out, the string is free. -/
theorem Sound.map_remove (S : Sound fSize fString t) (hm : map fSize fString t (fString c) = some d) :
    map fSize fString (Refs.remove fSize fString t d) (fString c) = none := by
  obtain ⟨⟨i, hd⟩, hkey⟩ := S.map_eq_some.1 hm
  rw [(S.remove d).map_eq_none]
  intro e j he hke
  obtain ⟨hed, he⟩ := S.mem_remove.1 he
  exact hed (S.unique j i e d he hd (hke.trans hkey.symm))

theorem Sound.swap (S : Sound fSize fString t) (hm : map fSize fString t (fString c) = some d) :
    Sound fSize fString (Refs.add fSize fString (Refs.remove fSize fString t d) c) :=
  (S.remove d).add (S.map_remove hm)

theorem Sound.map_swap (S : Sound fSize fString t) (hm : map fSize fString t (fString c) = some d) :
    map fSize fString (Refs.add fSize fString (Refs.remove fSize fString t d) c) key =
      if key = fString c then some c else map fSize fString t key := by
  have S' := S.swap hm
  have hd := (S.map_eq_some.1 hm).2
  split
  · rename_i hkey
    rw [S'.map_eq_some]
    exact ⟨⟨_, Sound.mem_add.2 (Or.inl ⟨rfl, rfl⟩)⟩, hkey.symm⟩
  · rename_i hkey
    ext e
    rw [S'.map_eq_some, S.map_eq_some]
    refine and_congr_left fun he => exists_congr fun i => ?_
    rw [Sound.mem_add, S.mem_remove]
    constructor
    · rintro (⟨rfl, -⟩ | ⟨-, hmem⟩)
      · exact absurd he.symm hkey
      · exact hmem
    · intro hmem
      refine Or.inr ⟨?_, hmem⟩
      rintro rfl
      exact hkey (he.symm.trans hd)

end Swap

namespace OSRefTable

variable {κ T : Type*} [DecidableEq κ] [DecidableEq T] {fSize : Nat} {fString : κ → OSRefKey}
  {s s' : OSRefTable κ T} {a : RefAct κ T} {x : Logged (OSRefTable κ T) (RefNote κ)}

theorem sound_step (S : Sound fSize fString s.fTable) (h : s.step fSize fString a = some s') :
    Sound fSize fString s'.fTable := by
  have ht := step_table h
  generalize s'.fTable = t' at ht ⊢
  cases ht with
  | same _ => exact S
  | add _ hm => exact S.add hm
  | remove _ _ => exact S.remove _
  | swap _ hm => exact S.swap hm

theorem lawful_step (S : Sound fSize fString s.fTable) (h : s.step fSize fString a = some s') :
    Lawful fSize fString s a s' := by
  have ht := step_table h
  constructor
  · rintro c ⟨i, hc⟩ hout
    have hno : ∀ j, c ∉ s'.fTable j := fun j hj => hout ⟨j, hj⟩
    generalize s'.fTable = t' at ht hno
    cases ht with
    | same _ => exact absurd hc (hno i)
    | add _ _ => exact absurd (Sound.mem_add.2 (Or.inr hc)) (hno i)
    | @remove d n ha hn =>
      rcases eq_or_ne c d with rfl | hcd
      · exact Or.inl ⟨n, ha, hn⟩
      · exact absurd (S.mem_remove.2 ⟨hcd, hc⟩) (hno i)
    | @swap d e ha hm =>
      have hce : c = e := by
        by_contra hce
        exact hno i (Sound.mem_add.2 (Or.inr (S.mem_remove.2 ⟨hce, hc⟩)))
      refine Or.inr ⟨d, ha, ?_, ?_⟩
      · rintro rfl
        exact hno _ (Sound.mem_add.2 (Or.inl ⟨rfl, rfl⟩))
      · rw [hce, (S.map_eq_some.1 hm).2]
  · intro c ha htaken
    generalize s'.fTable = t' at ht
    cases ht with
    | same _ => rfl
    | @add d ha' hm =>
      have hcd : c = d := by
        rcases ha with rfl | rfl <;> rcases ha' with h | h <;> cases h <;> rfl
      rw [hcd] at htaken
      exact absurd hm htaken
    | remove ha' _ => rcases ha with rfl | rfl <;> cases ha'
    | swap ha' _ => rcases ha with rfl | rfl <;> cases ha'
  · intro c ha key
    generalize s'.fTable = t' at ht
    cases ht with
    | same hno => exact absurd ha (hno c)
    | add ha' _ => rcases ha' with h | h <;> rw [ha] at h <;> cases h
    | remove ha' _ => rw [ha] at ha'; cases ha'
    | swap ha' hm =>
      rw [ha] at ha'
      cases ha'
      exact S.map_swap hm

theorem counted_step (hx : Counted fSize fString x) (hm : Matched x a) (h : x.state.step fSize fString a = some s') :
    Counted fSize fString ⟨s', (x.state.obs fSize fString a s').toList ++ x.log⟩ := by
  have hcount := step_count h
  refine ⟨sound_step hx.sound h, ?_, ?_⟩
  · intro c
    have hc := hx.small c
    split at hcount
    · rename_i d _
      show s'.fRefCount c < _
      rw [hcount.2]
      rcases eq_or_ne c d with rfl | hcd
      · rw [Function.update_self]
        exact Nat.mod_lt _ (by decide)
      · rwa [Function.update_of_ne hcd]
    · rename_i d _
      show s'.fRefCount c < _
      rw [hcount.2]
      rcases eq_or_ne c d with rfl | hcd
      · rw [Function.update_self]
        exact Nat.mod_lt _ (by decide)
      · rwa [Function.update_of_ne hcd]
    · show s'.fRefCount c < _
      rwa [hcount]
  · intro c
    have hc := hx.count c
    have hlt := hx.small c
    generalize ho : x.state.obs fSize fString a s' = o at hcount ⊢
    match o with
    | none =>
      show s'.fRefCount c + x.log.count _ = x.log.count _
      rw [hcount]
      exact hc
    | some (.resolved d) =>
      obtain ⟨hpos, hcount⟩ := hcount
      show s'.fRefCount c + List.count _ (_ :: x.log) = List.count _ (_ :: x.log)
      rw [hcount]
      rcases eq_or_ne c d with rfl | hcd
      · rw [Function.update_self, List.count_cons_self, List.count_cons_of_ne (by simp)]
        omega
      · rw [Function.update_of_ne hcd, List.count_cons_of_ne (by simp), List.count_cons_of_ne (by simpa using hcd.symm)]
        exact hc
    | some (.released d) =>
      obtain ⟨rfl, hcount⟩ := hcount
      show s'.fRefCount c + List.count _ (_ :: x.log) = List.count _ (_ :: x.log)
      rw [hcount]
      rcases eq_or_ne c d with rfl | hcd
      · have hm : x.log.count (.released c) < x.log.count (.resolved c) := hm
        rw [Function.update_self, List.count_cons_self, List.count_cons_of_ne (by simp)]
        omega
      · rw [Function.update_of_ne hcd, List.count_cons_of_ne (by simpa using hcd.symm), List.count_cons_of_ne (by simp)]
        exact hc

/-! ## Every run -/

theorem counted_run {as : List (RefAct κ T)}
    (hC : Along (Logged.step (step fSize fString) (obs fSize fString)) Matched ⟨new, []⟩ as)
    (hr : run (Logged.step (step fSize fString) (obs fSize fString)) ⟨new, []⟩ as = some x) : Counted fSize fString x := by
  refine run_inv_along (fun x a x' hx hm hs => ?_) ⟨sound_empty, by simp [new], by simp [new]⟩ hC hr
  obtain ⟨s', h, rfl⟩ := Logged.step_eq_some.1 hs
  exact counted_step hx hm h

/-- **The law of the table**, for every order of the operations of any number of threads. -/
theorem refs_lawful {as : List (RefAct κ T)}
    (hC : Along (Logged.step (step fSize fString) (obs fSize fString)) Matched ⟨new, []⟩ as)
    (hr : run (Logged.step (step fSize fString) (obs fSize fString)) ⟨new, []⟩ as = some x) :
    (∀ c d, x.state.InTable c → x.state.InTable d → fString c = fString d → c = d) ∧
    (∀ c, (x.state.fRefCount c : Int) = x.log.count (.resolved c) - x.log.count (.released c)) ∧
    ∀ a s', x.state.step fSize fString a = some s' → Lawful fSize fString x.state a s' := by
  have hx := counted_run hC hr
  refine ⟨?_, ?_, fun a s' h => lawful_step hx.sound h⟩
  · rintro c d ⟨i, hc⟩ ⟨j, hd⟩ hkey
    exact hx.sound.unique i j c d hc hd hkey
  · intro c
    have hc := hx.count c
    omega

/-- Two refs under one string. A thread that unregisters the first has to wait for a `Release`, and meanwhile the second is
swapped in. -/
def handover : List (RefAct (Fin 2) Unit) :=
  [.register 0, .registerOrResolve 1, .unRegister () 0 0, .swap 1, .release 0, .wake (), .resolve ⟨[97], by decide⟩,
    .tryUnRegister 1 0, .release 1, .tryUnRegister 1 0]

def oneKey : Fin 2 → OSRefKey := fun _ => ⟨[97], by decide⟩

theorem refs_lawful_handover :
    ∃ x, run (Logged.step (step 1193 oneKey) (obs 1193 oneKey)) ⟨new, []⟩ handover = some x ∧
      (∀ c d, x.state.InTable c → x.state.InTable d → oneKey c = oneKey d → c = d) ∧
      (∀ c, (x.state.fRefCount c : Int) = x.log.count (.resolved c) - x.log.count (.released c)) ∧
      ∀ a s', x.state.step 1193 oneKey a = some s' → Lawful 1193 oneKey x.state a s' := by
  obtain ⟨x, hr⟩ : ∃ x, run (Logged.step (step 1193 oneKey) (obs 1193 oneKey)) ⟨new, []⟩ handover = some x :=
    Option.isSome_iff_exists.1 (by decide +kernel)
  exact ⟨x, hr, refs_lawful (by decide +kernel) hr⟩

end OSRefTable

end ToolLib.Common.Refs
