import Mathlib.Data.UInt
import ToolLib.Base.Blocks

/-!
# FindStringCase

`StrPtr::FindStringCase` of CommonTools searches a source that need not be terminated: it makes a copy with a terminator
and, when case does not matter, upper-cased copies of both strings, and searches those. What it returns is mapped back to
the source. Memory is in blocks (`Base.Blocks`), a pointer into one is its distance from the start; `new` and `strdup`
always find memory. Lengths are `unsigned int`.

`findStringCase_iff`: the result is right for every source, unless the length of the copy wraps to 0.
-/

namespace ToolLib.Tools.FindString

open ToolLib.Base

inductive Block
  | source
  | query
  | editSource
  | dupSourceString
  | dupQueryString
  deriving DecidableEq

abbrev Heap := Blocks Block UInt8

/-- `toupper`, for ASCII. -/
def toupper (c : UInt8) : UInt8 := if 97 ≤ c ∧ c ≤ 122 then c - 32 else c

/-- `strstr`: where the needle begins for the first time. -/
def strstr : List UInt8 → List UInt8 → Option Nat
  | [], needle => if needle = [] then some 0 else none
  | c :: haystack, needle =>
    if needle.isPrefixOf (c :: haystack) then some 0 else (strstr haystack needle).map (· + 1)

/-- `strdup` -/
def strdup (h : Heap) (from' to' : Block) : Option Heap :=
  (h.string from').map fun s => h.alloc to' (s ++ [0])

/-- `StrPtr(str).ToUpper()` -/
def toUpper (h : Heap) (b : Block) : Option Heap :=
  (h.string b).bind fun s => h.write b 0 ((s.take (s.length % 4294967296)).map toupper)

/-- "a copy of the source ptr and len 0 terminated", when the last character of the source is not the terminator. `junk`
is what is in the new block. -/
def terminated (junk : Nat → UInt8) (h : Heap) (Len : Nat) : Option (Heap × Block) :=
  (h.load .source (Len - 1) 1).bind fun lastSourceChar =>
    if lastSourceChar ≠ [0] then
      let h := h.alloc .editSource ((List.range ((Len + 1) % 4294967296)).map junk)
      (h.load .source 0 Len).bind fun bytes =>
        (h.write .editSource 0 bytes).bind fun h => (h.write .editSource Len [0]).map fun h => (h, .editSource)
    else some (h, .source)

/-- The search, in the copies when case does not matter; they are freed again. The result is the distance from the start
of the string that has been searched. -/
def search (h : Heap) (sourceString : Block) (caseSensitive : Bool) : Option (Heap × Option Nat) :=
  if caseSensitive then
    (h.string sourceString).bind fun source => (h.string .query).map fun query => (h, strstr source query)
  else
    (strdup h sourceString .dupSourceString).bind fun h => (strdup h .query .dupQueryString).bind fun h =>
      (toUpper h .dupSourceString).bind fun h => (toUpper h .dupQueryString).bind fun h =>
        (h.string .dupSourceString).bind fun source => (h.string .dupQueryString).map fun query =>
          ((h.free .dupSourceString).free .dupQueryString, strstr source query)

/-- What is returned, what `resultStr` is set to, and memory. -/
structure Outcome where
  resultChar : Option Nat
  resultStr : Option Nat × Nat
  heap : Heap

/-- `FindStringCase`; a pointer is `NULL` when there is no block. -/
def findStringCase (junk : Nat → UInt8) (h : Heap) (Len : Nat) (caseSensitive : Bool) : Option Outcome :=
  if h .query = none ∨ h .source = none ∨ Len = 0 then some ⟨none, (none, 0), h⟩
  else
    (h.string .query).bind fun queryStr => (terminated junk h Len).bind fun (h, sourceString) =>
      (search h sourceString caseSensitive).map fun (h, resultChar) =>
        let resultChar := resultChar.bind fun offset =>
          let foundLen := offset % 4294967296
          -- "make sure it is in the buffer"
          if Len < foundLen then none else some foundLen
        let h := if sourceString = .editSource then h.free .editSource else h
        ⟨resultChar, if resultChar = none then (none, 0) else (resultChar, queryStr.length % 4294967296), h⟩

/-! ## What is looked for -/

/-- The query is at `i`, all of it in the source, when characters are compared as `fold` maps them. -/
def Occurs (fold : UInt8 → UInt8) (source query : List UInt8) (i : Nat) : Prop :=
  i + query.length ≤ source.length ∧ ((source.drop i).take query.length).map fold = query.map fold

/-- The first occurrence is returned and described, and memory is as it was. -/
structure Finds (fold : UInt8 → UInt8) (source query : List UInt8) (h : Heap) (o : Outcome) : Prop where
  resultChar : ∀ i, o.resultChar = some i ↔ Occurs fold source query i ∧ ∀ j < i, ¬ Occurs fold source query j
  resultStr : o.resultStr = if o.resultChar = none then (none, 0) else (o.resultChar, query.length)
  heap : o.heap = h

/-- The source, which need not be terminated, and the query with its terminator. -/
def given (source query : List UInt8) : Heap
  | .source => some source
  | .query => some (query ++ [0])
  | _ => none

section Search

variable {fold : UInt8 → UInt8} {source query haystack needle : List UInt8} {i n : Nat} {h : Heap} {b : Block}

theorem strstr_eq_some : strstr haystack needle = some i ↔
    (i ≤ haystack.length ∧ needle <+: haystack.drop i) ∧ ∀ j < i, ¬ needle <+: haystack.drop j := by
  induction haystack generalizing i with
  | nil =>
    unfold strstr
    by_cases hnil : needle = []
    · rw [if_pos hnil, hnil]
      cases i <;> simp
    · rw [if_neg hnil]
      simp [hnil]
  | cons c haystack ih =>
    unfold strstr
    by_cases hhere : needle <+: c :: haystack
    · rw [if_pos (List.isPrefixOf_iff_prefix.2 hhere)]
      cases i with
      | zero => simpa using hhere
      | succ i => exact iff_of_false (by simp) fun h => h.2 0 (Nat.succ_pos i) hhere
    · rw [if_neg fun hp => hhere (List.isPrefixOf_iff_prefix.1 hp), Option.map_eq_some_iff]
      cases i with
      | zero => exact iff_of_false (by simp) fun h => hhere h.1.2
      | succ i =>
        simp only [Nat.add_right_cancel_iff, exists_eq_right, ih, List.length_cons, Nat.add_le_add_iff_right,
          List.drop_succ_cons]
        refine and_congr_right fun _ => ⟨fun h j hj => ?_, fun h j hj => h (j + 1) (by omega)⟩
        cases j with
        | zero => exact hhere
        | succ j => exact h j (by omega)

theorem prefix_drop_iff : (i ≤ source.length ∧ query.map fold <+: (source.map fold).drop i) ↔
    Occurs fold source query i := by
  rw [List.prefix_iff_eq_take, List.length_map, ← List.map_drop, ← List.map_take]
  constructor
  · rintro ⟨hi, heq⟩
    have hlen := congrArg List.length heq
    rw [List.length_map, List.length_map, List.length_take, List.length_drop] at hlen
    exact ⟨by omega, heq.symm⟩
  · rintro ⟨hin, heq⟩
    exact ⟨by omega, heq.symm⟩

/-- The search in the strings as they are compared gives the first occurrence. -/
theorem strstr_iff : strstr (source.map fold) (query.map fold) = some i ↔
    Occurs fold source query i ∧ ∀ j < i, ¬ Occurs fold source query j := by
  rw [strstr_eq_some, List.length_map, prefix_drop_iff]
  refine and_congr_right fun hi => forall_congr' fun j => forall_congr' fun hj => not_congr ?_
  have hle := hi.1
  rw [← prefix_drop_iff]
  exact ⟨fun h => ⟨by omega, h⟩, fun h => h.2⟩

theorem strstr_none_of_length (h : haystack.length < needle.length) : strstr haystack needle = none := by
  cases hfound : strstr haystack needle with
  | none => rfl
  | some i =>
    have hle := (strstr_eq_some.1 hfound).1.2.length_le
    rw [List.length_drop] at hle
    omega

theorem toupper_zero (hn : 0 ∉ source) : 0 ∉ source.map toupper := by
  intro hmem
  obtain ⟨c, hc, hzero⟩ := List.mem_map.1 hmem
  have hc0 : c = 0 := by
    by_contra hne
    unfold toupper at hzero
    split at hzero
    next hin =>
      have h97 := UInt8.le_iff_toNat_le.1 hin.1
      have hsub := congrArg UInt8.toNat hzero
      rw [UInt8.toNat_sub_of_le _ _ (UInt8.le_iff_toNat_le.2 (Nat.le_trans (by decide) h97))] at hsub
      have h32 : (32 : UInt8).toNat = 32 := rfl
      have h97' : (97 : UInt8).toNat = 97 := rfl
      have hz : (0 : UInt8).toNat = 0 := rfl
      omega
    next => exact hne hzero
  exact hn (hc0 ▸ hc)

end Search

/-! ## The copies -/

/-- The upper-cased string; only as many characters are as an `unsigned int` counts. -/
def upper (s : List UInt8) : List UInt8 :=
  (s.take (s.length % 4294967296)).map toupper ++ s.drop (s.length % 4294967296)

section Copies

variable {source query s : List UInt8} {junk : Nat → UInt8} {h : Heap} {b : Block}

theorem upper_eq (hs : s.length < 4294967296) : upper s = s.map toupper := by
  rw [upper, Nat.mod_eq_of_lt hs, List.take_length, List.drop_length, List.append_nil]

theorem length_upper (s : List UInt8) : (upper s).length = s.length := by
  rw [upper, List.length_append, List.length_map, ← List.length_append, List.take_append_drop]

theorem upper_zero (hs : 0 ∉ s) : 0 ∉ upper s := by
  rw [upper, List.mem_append, not_or]
  exact ⟨toupper_zero fun h => hs (List.mem_of_mem_take h), fun h => hs (List.mem_of_mem_drop h)⟩

theorem toUpper_eq (hb : h b = some (s ++ [0])) (hs : 0 ∉ s) : toUpper h b = some (h.alloc b (upper s ++ [0])) := by
  have hmod : s.length % 4294967296 ≤ s.length := Nat.mod_le _ _
  have hlen : ((s.take (s.length % 4294967296)).map toupper).length = s.length % 4294967296 := by
    rw [List.length_map, List.length_take, Nat.min_eq_left hmod]
  rw [toUpper, Blocks.string_eq hb hs, Option.bind_some,
    Blocks.write_eq hb (by rw [hlen, List.length_append]; omega), hlen, List.take_zero, List.nil_append, Nat.zero_add,
    List.drop_append_of_le_length hmod, ← List.append_assoc]
  rfl

/-- The last character of the source is not the terminator. -/
theorem last_ne (hs : 0 ∉ source) : (source.drop (source.length - 1)).take 1 ≠ [0] := by
  intro heq
  have hmem : (0 : UInt8) ∈ (source.drop (source.length - 1)).take 1 := heq ▸ List.mem_cons_self
  exact hs (List.mem_of_mem_drop (List.mem_of_mem_take hmem))

/-- The terminated copy of the source. -/
theorem terminated_eq (hne : source ≠ []) (hs : 0 ∉ source) (hlen : source.length + 1 < 4294967296) :
    terminated junk (given source query) source.length =
      some ((given source query).alloc .editSource (source ++ [0]), .editSource) := by
  have hpos := List.length_pos_iff.2 hne
  have hsource : given source query .source = some source := rfl
  rw [terminated, Blocks.load_eq hsource (by omega), Option.bind_some, if_pos (last_ne hs)]
  dsimp only
  rw [Blocks.load_eq (by rw [Blocks.alloc_of_ne (by decide)]; exact hsource) (by omega), Option.bind_some,
    List.drop_zero, List.take_length, Nat.mod_eq_of_lt hlen, Blocks.write_alloc (by simp), Option.bind_some,
    Blocks.write_alloc (by simp), Option.map_some]
  simp [List.drop_eq_nil_of_le]

/-- The length of the copy has wrapped to 0. -/
theorem terminated_none (hs : 0 ∉ source) (hlen : source.length = 4294967295) :
    terminated junk (given source query) source.length = none := by
  have hsource : given source query .source = some source := rfl
  rw [terminated, Blocks.load_eq hsource (by omega), Option.bind_some, if_pos (last_ne hs)]
  dsimp only
  rw [Blocks.load_eq (by rw [Blocks.alloc_of_ne (by decide)]; exact hsource) (by omega), Option.bind_some,
    List.drop_zero, List.take_length, Blocks.write_eq_none Blocks.alloc_self (by simp [hlen]), Option.bind_none]

/-- The search in a terminated copy leaves memory as it was. -/
theorem search_eq (caseSensitive : Bool) (hsource : 0 ∉ source) (hquery : 0 ∉ query)
    (hlen : source.length < 4294967296) :
    search ((given source query).alloc .editSource (source ++ [0])) .editSource caseSensitive =
      some ((given source query).alloc .editSource (source ++ [0]),
        if caseSensitive then strstr source query else strstr (source.map toupper) (upper query)) := by
  have hgiven : (given source query).alloc .editSource (source ++ [0]) .query = some (query ++ [0]) := rfl
  have hedit : ((given source query).alloc .editSource (source ++ [0])).string .editSource = some source :=
    Blocks.string_eq Blocks.alloc_self hsource
  cases caseSensitive with
  | true =>
    rw [search, if_pos rfl, if_pos rfl, hedit, Option.bind_some, Blocks.string_eq hgiven hquery, Option.map_some]
  | false =>
    have hdup := Blocks.string_eq (h := ((given source query).alloc .editSource (source ++ [0])).alloc .dupSourceString
      (source ++ [0])) (b := .query) hgiven hquery
    rw [search, if_neg (by decide), if_neg (by decide), strdup, hedit, Option.map_some, Option.bind_some, strdup, hdup,
      Option.map_some, Option.bind_some, toUpper_eq (s := source) rfl hsource, Option.bind_some,
      toUpper_eq (s := query) rfl hquery, Option.bind_some]
    have hfirst := Blocks.string_eq (h := ((((((given source query).alloc .editSource (source ++ [0])).alloc
      .dupSourceString (source ++ [0])).alloc .dupQueryString (query ++ [0])).alloc .dupSourceString
        (upper source ++ [0])).alloc .dupQueryString (upper query ++ [0]))) (b := .dupSourceString) rfl (upper_zero hsource)
    rw [hfirst, Option.bind_some, Blocks.string_eq Blocks.alloc_self (upper_zero hquery),
      Option.map_some, upper_eq hlen]
    congr 2
    funext b
    cases b <;> rfl

end Copies

/-! ## FindStringCase -/

/-- How characters are compared. -/
def folded (caseSensitive : Bool) : UInt8 → UInt8 := if caseSensitive then id else toupper

section Finds

variable {source query : List UInt8} {junk : Nat → UInt8} {caseSensitive : Bool} {i : Nat}

/-- What is searched for is found in the copies as it is in the source. -/
theorem found_iff (hlen : source.length < 4294967296) :
    (if caseSensitive then strstr source query else strstr (source.map toupper) (upper query)) = some i ↔
      Occurs (folded caseSensitive) source query i ∧ ∀ j < i, ¬ Occurs (folded caseSensitive) source query j := by
  cases caseSensitive with
  | true =>
    have hsame : strstr (source.map id) (query.map id) = some i ↔
        Occurs id source query i ∧ ∀ j < i, ¬ Occurs id source query j := strstr_iff
    rw [List.map_id, List.map_id] at hsame
    exact hsame
  | false =>
    rw [if_neg (by decide), folded, if_neg (by decide)]
    by_cases hquery : query.length < 4294967296
    · rw [upper_eq hquery, strstr_iff]
    · -- the query is longer than the source
      rw [strstr_none_of_length (by rw [List.length_map, length_upper]; omega)]
      refine iff_of_false (by simp) fun h => ?_
      have hin := h.1.1
      omega

/-- No pointer is `NULL`, and the source is not empty. -/
theorem not_null (hne : source ≠ []) :
    ¬ (given source query .query = none ∨ given source query .source = none ∨ source.length = 0) := by
  have hpos := List.length_pos_iff.2 hne
  rintro (h | h | h)
  · cases h
  · cases h
  · omega

theorem string_query (hquery : 0 ∉ query) : (given source query).string .query = some query :=
  Blocks.string_eq rfl hquery

/-- The copy has no room for the source. -/
theorem findStringCase_none (hne : source ≠ []) (hsource : 0 ∉ source) (hquery : 0 ∉ query)
    (hlen : source.length = 4294967295) :
    findStringCase junk (given source query) source.length caseSensitive = none := by
  rw [findStringCase, if_neg (not_null hne), string_query hquery, Option.bind_some,
    terminated_none hsource hlen, Option.bind_none]

theorem findStringCase_finds (hne : source ≠ []) (hsource : 0 ∉ source) (hquery : 0 ∉ query)
    (hlen : source.length + 1 < 4294967296) :
    ∃ o, findStringCase junk (given source query) source.length caseSensitive = some o ∧
      Finds (folded caseSensitive) source query (given source query) o := by
  rw [findStringCase, if_neg (not_null hne), string_query hquery, Option.bind_some,
    terminated_eq hne hsource hlen, Option.bind_some]
  dsimp only
  rw [search_eq caseSensitive hsource hquery (by omega), Option.map_some]
  dsimp only
  rw [if_pos rfl, Blocks.free_alloc rfl]
  -- the distance fits, and is inside the source
  have hfound (i : Nat) :
      (if caseSensitive then strstr source query else strstr (source.map toupper) (upper query)) = some i ↔
        Occurs (folded caseSensitive) source query i ∧ ∀ j < i, ¬ Occurs (folded caseSensitive) source query j :=
    found_iff (by omega)
  generalize (if caseSensitive then strstr source query else strstr (source.map toupper) (upper query)) = r at hfound ⊢
  have hmapped : (r.bind fun offset => if source.length < offset % 4294967296 then none
      else some (offset % 4294967296)) = r := by
    cases r with
    | none => rfl
    | some i =>
      have hin := ((hfound i).1 rfl).1.1
      rw [Option.bind_some, Nat.mod_eq_of_lt (by omega), if_neg (by omega)]
  rw [hmapped]
  refine ⟨_, rfl, hfound, ?_, rfl⟩
  cases r with
  | none => rfl
  | some i =>
    have hin := ((hfound i).1 rfl).1.1
    rw [Nat.mod_eq_of_lt (by omega)]

end Finds

/-- **`FindStringCase`** returns the first occurrence that is inside the source, describes it in `resultStr`, and leaves
the source as it was, exactly when `Len + 1` is an `unsigned int`: otherwise the copy has no room for the source. -/
theorem findStringCase_iff (junk : Nat → UInt8) (source query : List UInt8) (caseSensitive : Bool)
    (hne : source ≠ []) (hsource : 0 ∉ source) (hlen : source.length < 4294967296) (hquery : 0 ∉ query) :
    (∃ o, findStringCase junk (given source query) source.length caseSensitive = some o ∧
      Finds (folded caseSensitive) source query (given source query) o) ↔ source.length ≠ 4294967295 := by
  constructor
  · rintro ⟨o, ho, -⟩ hwraps
    rw [findStringCase_none hne hsource hquery hwraps] at ho
    cases ho
  · intro hfits
    exact findStringCase_finds hne hsource hquery (by omega)

/-- `"ab"` in `"xAb"`, when case does not matter. -/
theorem findStringCase_iff_ab :
    (∃ o, findStringCase (fun _ => 0) (given [120, 65, 98] [97, 98]) 3 false = some o ∧
      Finds (folded false) [120, 65, 98] [97, 98] (given [120, 65, 98] [97, 98]) o) ↔
    [(120 : UInt8), 65, 98].length ≠ 4294967295 :=
  findStringCase_iff (fun _ => 0) [120, 65, 98] [97, 98] false (by decide) (by decide) (by decide) (by decide)

/-- `"a"` in `2^32 - 1` characters `'a'`. -/
theorem findStringCase_wraps :
    ¬ ∃ o, findStringCase (fun _ => 0) (given (List.replicate 4294967295 97) [97])
      (List.replicate 4294967295 (97 : UInt8)).length true = some o ∧
      Finds (folded true) (List.replicate 4294967295 97) [97] (given (List.replicate 4294967295 97) [97]) o := by
  rintro ⟨o, ho, -⟩
  have hlen : (List.replicate 4294967295 (97 : UInt8)).length = 4294967295 := List.length_replicate
  have hne : List.replicate 4294967295 (97 : UInt8) ≠ [] := by
    intro hnil
    rw [hnil] at hlen
    cases hlen
  have hfree : (0 : UInt8) ∉ List.replicate 4294967295 97 := fun h => absurd (List.eq_of_mem_replicate h) (by decide)
  rw [findStringCase_none hne hfree (by decide) hlen] at ho
  cases ho

end ToolLib.Tools.FindString
