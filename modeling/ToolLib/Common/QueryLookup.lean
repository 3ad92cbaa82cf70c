import ToolLib.Common.QueryParamList

/-!
# Looking up a query parameter

`DoFindCGIValueForParam` goes through the list from `fHead` on, where the last pair of the query is, and compares names
with `EqualIgnoreCase`, whose table ends at 129.

A query string of encoded pairs gives the list of these pairs (`bulidList_query`), so `find_first_iff` can say when the
value that is found is that of the first pair with the name.
-/

namespace ToolLib.Common.QueryParamList

open ToolLib.Base
open ToolLib.Common.StringParser (consumeUntil)
open ToolLib.Common.StringTranslator (percent hexDigit)

/-! ## The search -/

/-- A letter in lower case. -/
def lower (c : UInt8) : UInt8 := if 65 ≤ c ∧ c ≤ 90 then c + 32 else c

/-- `sCaseInsensitiveMask[c]`; the table has 130 entries. -/
def sCaseInsensitiveMask (c : UInt8) : Option UInt8 := if c < 130 then some (lower c) else none

/-- The loop of `EqualIgnoreCase`; `none` when it looks behind the table. -/
def equalLoop : List UInt8 → List UInt8 → Option Bool
  | x :: Ptr, y :: compare =>
    match sCaseInsensitiveMask x, sCaseInsensitiveMask y with
    | some a, some b => if a ≠ b then some false else equalLoop Ptr compare
    | _, _ => none
  | _, _ => some true

def equalIgnoreCase (Ptr compare : List UInt8) : Option Bool :=
  if compare.length = Ptr.length then equalLoop Ptr compare else some false

/-- `ForEachUntil` with `CompareStrToName`. -/
def forEachUntil (name : List UInt8) : List QueryParamListElement → Option (Option QueryParamListElement)
  | [] => some none
  | nvPair :: next =>
    match equalIgnoreCase nvPair.mName name with
    | none => none
    | some true => some (some nvPair)
    | some false => forEachUntil name next

/-- `some none` is `NULL`. -/
def doFindCGIValueForParam (name : List UInt8) (list : List QueryParamListElement) : Option (Option (List UInt8)) :=
  (forEachUntil name list).map fun node => node.map QueryParamListElement.mValue

/-! ## What is looked for -/

/-- The same name, ignoring case. -/
def SameName (a b : List UInt8) : Prop := a.map lower = b.map lower

instance (a b : List UInt8) : Decidable (SameName a b) := inferInstanceAs (Decidable (_ = _))

/-- The value of the first pair with this name. -/
def firstValue (name : List UInt8) (pairs : List QueryParamListElement) : Option (List UInt8) :=
  (pairs.find? fun p => SameName p.mName name).map QueryParamListElement.mValue

/-- A byte from 130 on comes up before the names differ. -/
def Touches : List UInt8 → List UInt8 → Prop
  | x :: a, y :: b => (130 ≤ x ∨ 130 ≤ y) ∨ lower x = lower y ∧ Touches a b
  | _, _ => False

/-- The comparison looks behind the table. -/
def Touched (a b : List UInt8) : Prop := b.length = a.length ∧ Touches a b

section Compare

variable {a b name : List UInt8} {c d : UInt8} {l l₁ l₂ : List QueryParamListElement} {p : QueryParamListElement}

theorem mask_some (h : c < 130) : sCaseInsensitiveMask c = some (lower c) := if_pos h

theorem mask_none (h : ¬ c < 130) : sCaseInsensitiveMask c = none := if_neg h

theorem equalLoop_cons (hc : c < 130) (hd : d < 130) :
    equalLoop (c :: a) (d :: b) = if lower c ≠ lower d then some false else equalLoop a b := by
  rw [equalLoop, mask_some hc, mask_some hd]

theorem equalLoop_none (h : ¬ (c < 130 ∧ d < 130)) : equalLoop (c :: a) (d :: b) = none := by
  rw [equalLoop]
  by_cases hc : c < 130
  · rw [mask_none fun hd => h ⟨hc, hd⟩]
    cases sCaseInsensitiveMask c <;> rfl
  · rw [mask_none hc]

theorem touches_cons : Touches (c :: a) (d :: b) ↔ ¬ (c < 130 ∧ d < 130) ∨ lower c = lower d ∧ Touches a b := by
  rw [Touches, not_and_or, UInt8.not_lt, UInt8.not_lt]

theorem equalLoop_touches (h : Touches a b) : equalLoop a b = none := by
  induction a generalizing b with
  | nil => cases h
  | cons c a ih =>
    cases b with
    | nil => cases h
    | cons d b =>
      by_cases hin : c < 130 ∧ d < 130
      · obtain ⟨heq, hrest⟩ := (touches_cons.1 h).resolve_left (not_not.2 hin)
        rw [equalLoop_cons hin.1 hin.2, if_neg (not_not.2 heq), ih hrest]
      · exact equalLoop_none hin

theorem equalLoop_eq (hlen : b.length = a.length) (h : ¬ Touches a b) : equalLoop a b = some (decide (SameName a b)) := by
  induction a generalizing b with
  | nil =>
    rw [List.length_eq_zero_iff.1 hlen]
    rfl
  | cons c a ih =>
    obtain ⟨d, b, rfl⟩ := List.exists_cons_of_length_eq_add_one hlen
    obtain ⟨hin, hrest⟩ := not_or.1 fun ht => h (touches_cons.2 ht)
    obtain ⟨hc, hd⟩ := not_not.1 hin
    rw [equalLoop_cons hc hd]
    by_cases heq : lower c = lower d
    · rw [if_neg (not_not.2 heq), ih (Nat.succ.inj hlen) fun ht => hrest ⟨heq, ht⟩]
      exact congrArg some (decide_eq_decide.2 (by simp [SameName, heq]))
    · rw [if_pos heq, decide_eq_false (by simp [SameName, heq])]

theorem equalIgnoreCase_touched (h : Touched a b) : equalIgnoreCase a b = none := by
  rw [equalIgnoreCase, if_pos h.1, equalLoop_touches h.2]

theorem equalIgnoreCase_eq (h : ¬ Touched a b) : equalIgnoreCase a b = some (decide (SameName a b)) := by
  unfold equalIgnoreCase
  split
  next hlen => exact equalLoop_eq hlen fun ht => h ⟨hlen, ht⟩
  next hlen =>
    have hdiff : ¬ SameName a b := fun hsame => hlen (by simpa using (congrArg List.length hsame).symm)
    rw [decide_eq_false hdiff]

/-- The search from the head on. -/
theorem forEachUntil_eq
    (h : ∀ l₁ p l₂, l = l₁ ++ p :: l₂ → (∀ q ∈ l₁, ¬ SameName q.mName name) → ¬ Touched p.mName name) :
    forEachUntil name l = some (l.find? fun p => SameName p.mName name) := by
  induction l with
  | nil => rfl
  | cons p l ih =>
    rw [forEachUntil, equalIgnoreCase_eq (h [] p l rfl (by simp)), List.find?_cons]
    by_cases hsame : SameName p.mName name
    · rw [decide_eq_true hsame]
    · rw [decide_eq_false hsame]
      refine ih fun l₁ q l₂ heq hbefore => h (p :: l₁) q l₂ (by rw [heq]; rfl) ?_
      exact List.forall_mem_cons.2 ⟨hsame, hbefore⟩

theorem forEachUntil_touched (hbefore : ∀ q ∈ l₁, ¬ SameName q.mName name) (h : Touched p.mName name) :
    forEachUntil name (l₁ ++ p :: l₂) = none := by
  induction l₁ with
  | nil => rw [List.nil_append, forEachUntil, equalIgnoreCase_touched h]
  | cons q l₁ ih =>
    obtain ⟨hq, hrest⟩ := List.forall_mem_cons.1 hbefore
    rw [List.cons_append, forEachUntil]
    by_cases ht : Touched q.mName name
    · rw [equalIgnoreCase_touched ht]
    · rw [equalIgnoreCase_eq ht, decide_eq_false hq]
      exact ih hrest

end Compare

/-! ## Queries -/

/-- `e` encodes `x`: as it is, a space as `'+'`, or any byte as an escape. No byte of `x` is 0, and `stop` is not in
`e`. -/
inductive Encodes (stop : UInt8) : List UInt8 → List UInt8 → Prop
  | nil : Encodes stop [] []
  | literal {c : UInt8} {e x : List UInt8} (hc : c ≠ percent ∧ c ≠ plus ∧ c ≠ stop ∧ c ≠ 0) (h : Encodes stop e x) :
      Encodes stop (c :: e) (c :: x)
  | space {e x : List UInt8} (h : Encodes stop e x) : Encodes stop (plus :: e) (space :: x)
  | escape {high low a b : UInt8} {e x : List UInt8} (hhigh : hexDigit high = some a) (hlow : hexDigit low = some b)
      (hne : 16 * a + b ≠ 0) (h : Encodes stop e x) : Encodes stop (percent :: high :: low :: e) ((16 * a + b) :: x)

/-- A name and a value, and what stands for them in a query. -/
structure Pair where
  name : List UInt8
  value : List UInt8
  encName : List UInt8
  encValue : List UInt8
  name_ne_nil : name ≠ []
  encodes_name : Encodes equals encName name
  encodes_value : Encodes ampersand encValue value

namespace Pair

def text (p : Pair) : List UInt8 := p.encName ++ equals :: p.encValue

def element (p : Pair) : QueryParamListElement := ⟨p.name, p.value⟩

end Pair

/-- `n1=v1&...&nk=vk` -/
def query : List Pair → List UInt8
  | [] => []
  | [p] => p.text
  | p :: q :: rest => p.text ++ ampersand :: query (q :: rest)

section Decode

variable {stop c : UInt8} {e x : List UInt8}

theorem Encodes.not_mem (h : Encodes stop e x) (hstop : c = stop ∨ c = 0) (hdigit : hexDigit c = none)
    (hpercent : c ≠ percent) (hplus : c ≠ plus) : c ∉ e := by
  induction h with
  | nil => exact List.not_mem_nil
  | literal hc h ih =>
    refine List.not_mem_cons_of_ne_of_not_mem ?_ ih
    rcases hstop with rfl | rfl
    · exact Ne.symm hc.2.2.1
    · exact Ne.symm hc.2.2.2
  | space h ih => exact List.not_mem_cons_of_ne_of_not_mem hplus ih
  | escape hhigh hlow hne h ih =>
    -- digits are no separators
    refine List.not_mem_cons_of_ne_of_not_mem hpercent (List.not_mem_cons_of_ne_of_not_mem ?_
      (List.not_mem_cons_of_ne_of_not_mem ?_ ih))
    · rintro rfl
      rw [hhigh] at hdigit
      cases hdigit
    · rintro rfl
      rw [hlow] at hdigit
      cases hdigit

theorem Encodes.not_zero (h : Encodes stop e x) : 0 ∉ x := by
  induction h with
  | nil => exact List.not_mem_nil
  | literal hc h ih => exact List.not_mem_cons_of_ne_of_not_mem (Ne.symm hc.2.2.2) ih
  | space h ih => exact List.not_mem_cons_of_ne_of_not_mem (by decide) ih
  | escape hhigh hlow hne h ih => exact List.not_mem_cons_of_ne_of_not_mem (Ne.symm hne) ih

theorem cString_eq (h : 0 ∉ x) : cString x = x := by
  refine List.takeWhile_eq_self_iff.2 fun c hc => decide_eq_true fun heq => h (heq ▸ hc)

/-- What has been encoded is decoded. -/
theorem Encodes.decodeLoop_eq (h : Encodes stop e x) : decodeLoop .kLastWasText e = x := by
  induction h with
  | nil => rfl
  | literal hc h ih => rw [decodeLoop, if_neg hc.1, if_neg hc.2.1, ih]
  | space h ih => rw [decodeLoop, if_neg (by decide), if_pos rfl, ih]
  | escape hhigh hlow hne h ih =>
    rename_i high low a b e x
    have hno : high ≠ percent := by
      rintro rfl
      cases hhigh
    rw [decodeLoop, if_pos rfl, decodeLoop, if_neg hno, if_pos (by rw [hhigh]; rfl), decodeLoop, hhigh, hlow]
    exact congrArg _ ih

theorem Encodes.decodeArg_eq (h : Encodes stop e x) : decodeArg (cString e) = x := by
  rw [cString_eq (h.not_mem (Or.inr rfl) rfl (by decide) (by decide)), decodeArg, h.decodeLoop_eq, cString_eq h.not_zero]

theorem Encodes.ne_nil (h : Encodes stop e x) (hx : x ≠ []) : e ≠ [] := by
  rintro rfl
  cases h
  exact hx rfl

end Decode

section Query

variable {name : List UInt8} {pairs : List Pair} {list : List QueryParamListElement} {p : Pair}

theorem Pair.encName_equals (p : Pair) : equals ∉ p.encName :=
  p.encodes_name.not_mem (Or.inl rfl) rfl (by decide) (by decide)

theorem Pair.encValue_ampersand (p : Pair) : ampersand ∉ p.encValue :=
  p.encodes_value.not_mem (Or.inl rfl) rfl (by decide) (by decide)

theorem Pair.add_eq (p : Pair) :
    addNameValuePairToList (cString p.encName) (cString p.encValue) list = p.element :: list := by
  rw [addNameValuePairToList, p.encodes_name.decodeArg_eq, p.encodes_value.decodeArg_eq]
  rfl

/-- The pairs of a query go into the list, the last one first. -/
theorem bulidList_query : ∀ {pairs : List Pair} {list : List QueryParamListElement},
    (∀ p ∈ pairs.getLast?, p.value ≠ []) →
    Loop.Ends turn ⟨query pairs, list⟩ ⟨[], (pairs.map Pair.element).reverse ++ list⟩
  | [], _, _ => Loop.ends_inr rfl
  | [p], list, hlast => by
    have hvalue := p.encodes_value.ne_nil (hlast p rfl)
    have hturn := turn_pair list p.encName_equals hvalue
    rw [consumeUntil_of_not_mem p.encValue_ampersand, p.add_eq] at hturn
    exact (Loop.ends_inl hturn).2 (Loop.ends_inr rfl)
  | p :: q :: rest, list, hlast => by
    have hturn := turn_pair list p.encName_equals (show p.encValue ++ ampersand :: query (q :: rest) ≠ [] by simp)
    rw [consumeUntil_append p.encValue_ampersand, p.add_eq, ← List.cons_append, ← List.append_assoc] at hturn
    have hrest : Loop.Ends turn ⟨query (q :: rest), p.element :: list⟩ _ := bulidList_query hlast
    rw [List.map_cons, List.reverse_cons, List.append_assoc]
    exact (Loop.ends_inl hturn).2 hrest

end Query

/-- **`DoFindCGIValueForParam`** gives the value of the first pair with the name exactly when the last pair with it has
the same value, and the comparisons up to there, from the last pair of the query on, do not look behind the table. -/
theorem find_first_iff (name : List UInt8) (pairs : List Pair) (hlast : ∀ p ∈ pairs.getLast?, p.value ≠ []) :
    (∃ s, Loop.Ends turn ⟨query pairs, []⟩ s ∧
        doFindCGIValueForParam name s.list = some (firstValue name (pairs.map Pair.element))) ↔
      (∀ l₁ p l₂, pairs.map Pair.element = l₁ ++ p :: l₂ → (∀ q ∈ l₂, ¬ SameName q.mName name) → ¬ Touched p.mName name) ∧
        firstValue name (pairs.map Pair.element).reverse = firstValue name (pairs.map Pair.element) := by
  have hends : Loop.Ends turn ⟨query pairs, []⟩ _ := bulidList_query hlast
  rw [List.append_nil] at hends
  have hleft : (∃ s, Loop.Ends turn ⟨query pairs, []⟩ s ∧
      doFindCGIValueForParam name s.list = some (firstValue name (pairs.map Pair.element))) ↔
      doFindCGIValueForParam name (pairs.map Pair.element).reverse = some (firstValue name (pairs.map Pair.element)) := by
    constructor
    · rintro ⟨s, hs, hfind⟩
      obtain rfl := hs.unique hends
      exact hfind
    · exact fun hfind => ⟨_, hends, hfind⟩
  rw [hleft]
  by_cases htable : ∀ l₁ p l₂, pairs.map Pair.element = l₁ ++ p :: l₂ → (∀ q ∈ l₂, ¬ SameName q.mName name) →
      ¬ Touched p.mName name
  · rw [doFindCGIValueForParam, forEachUntil_eq, and_iff_right htable]
    · exact Option.some_inj
    · intro l₁ p l₂ heq hbefore
      refine htable l₂.reverse p l₁.reverse ?_ fun q hq => hbefore q (List.mem_reverse.1 hq)
      rw [← List.reverse_reverse (pairs.map Pair.element), heq]
      simp
  · refine iff_of_false (fun hfind => ?_) fun h => htable h.1
    simp only [not_forall, not_not] at htable
    obtain ⟨l₁, p, l₂, heq, hbefore, htouched⟩ := htable
    rw [heq, List.reverse_append, List.reverse_cons, List.append_assoc, List.singleton_append, doFindCGIValueForParam,
      forEachUntil_touched (fun q hq => hbefore q (List.mem_reverse.1 hq)) htouched] at hfind
    cases hfind

/-- A name and a value of one character each. -/
def plainPair (n v : UInt8) (hn : n ≠ percent ∧ n ≠ plus ∧ n ≠ equals ∧ n ≠ 0)
    (hv : v ≠ percent ∧ v ≠ plus ∧ v ≠ ampersand ∧ v ≠ 0) : Pair :=
  ⟨[n], [v], [n], [v], List.cons_ne_nil _ _, .literal hn .nil, .literal hv .nil⟩

/-- `a=1&a=2` -/
def twoValues : List Pair := [plainPair 97 49 (by decide) (by decide), plainPair 97 50 (by decide) (by decide)]

theorem find_first_iff_two : (∀ p ∈ twoValues.getLast?, p.value ≠ []) ∧
    ((∃ s, Loop.Ends turn ⟨query twoValues, []⟩ s ∧
        doFindCGIValueForParam [98] s.list = some (firstValue [98] (twoValues.map Pair.element))) ↔
      (∀ l₁ p l₂, twoValues.map Pair.element = l₁ ++ p :: l₂ → (∀ q ∈ l₂, ¬ SameName q.mName [98]) →
          ¬ Touched p.mName [98]) ∧
        firstValue [98] (twoValues.map Pair.element).reverse = firstValue [98] (twoValues.map Pair.element)) := by
  have hlast : ∀ p ∈ twoValues.getLast?, p.value ≠ [] := by
    intro p hp
    cases hp
    exact List.cons_ne_nil _ _
  exact ⟨hlast, find_first_iff [98] twoValues hlast⟩

/-- The second value is found. -/
theorem find_last : ∃ s, Loop.Ends turn ⟨query twoValues, []⟩ s ∧ doFindCGIValueForParam [97] s.list = some (some [50]) ∧
    firstValue [97] (twoValues.map Pair.element) = some [49] :=
  ⟨_, ⟨3, rfl⟩, rfl, rfl⟩

end ToolLib.Common.QueryParamList
