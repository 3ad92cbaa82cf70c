import ToolLib.Common.SDPLines

/-!
# What the sorter leaves out

`SortedCopy stream kept result` says what a sorted copy is: the session lines that are kept in the order of the types, the
lines of one type in the order of the text, then the lines from the first one for a medium on; a line that is left out is
`Droppable`, a later one of a type of which there is only one, or a later range line. Here the type of a line is its first
character that is not a blank, as for `Parse`; the sorter looks at the first character.

`getSortedSDPCopy_iff` says when the sorter gives such a copy that it does not change any more: `Sortable`.
-/

namespace ToolLib.Common.SDP

open ToolLib.Base StringParser

/-! ## A sorted copy -/

/-- The type of a line: its first character that is not a blank. -/
def lineType (line : List UInt8) : UInt8 := (line.dropWhile (!sWhitespaceMask ·)).headD 0

/-- The accepted lines before the first one for a medium. -/
def sessionPart (stream : List UInt8) : List (List UInt8) :=
  ((completeLines stream).filter fun line => checkLine line = .add).takeWhile fun line =>
    !decide (lineType line = mediaType)

/-- The lines from there on. -/
def mediaPart (stream : List UInt8) : List (List UInt8) :=
  (completeLines stream).dropWhile fun line => !decide (lineType line = mediaType)

/-- A line with the attribute range. -/
def IsRange (line : List UInt8) : Prop := rangeTag <+: line.dropWhile (!sWhitespaceMask ·)

instance (line : List UInt8) : Decidable (IsRange line) := inferInstanceAs (Decidable (_ <+: _))

/-- A line that may be left out when there have been the lines `earlier`. -/
def Droppable (earlier : List (List UInt8)) (line : List UInt8) : Prop :=
  lineType line ∈ sessionSingleLines ∧ (∃ l ∈ earlier, lineType l = lineType line) ∨
    IsRange line ∧ ∃ l ∈ earlier, IsRange l

instance (earlier : List (List UInt8)) (line : List UInt8) : Decidable (Droppable earlier line) :=
  inferInstanceAs (Decidable (_ ∨ _))

/-- The order of the types; the lines of one type in the order of the text. -/
def Before (p q : List UInt8 × Nat) : Prop :=
  sSessionOrderedLines.idxOf (lineType p.1) < sSessionOrderedLines.idxOf (lineType q.1) ∨
    lineType p.1 = lineType q.1 ∧ p.2 < q.2

/-- What a sorted copy is, `kept` being the session lines that are kept, each with its place in the text. -/
structure SortedCopy (stream : List UInt8) (kept : List (List UInt8 × Nat)) (result : List UInt8) : Prop where
  sub : kept ⊆ (sessionPart stream).zipIdx
  order : kept.Pairwise Before
  dropped : ∀ p ∈ (sessionPart stream).zipIdx, p ∉ kept → Droppable ((sessionPart stream).take p.2) p.1
  result_eq : result = text (kept.map Prod.fst) ++ text (mediaPart stream)

/-- The lines, each with its place, in the order of their first characters, of some only the first one. -/
def candidates (lines : List (List UInt8)) : List (List UInt8 × Nat) :=
  byKind (head ∘ Prod.fst) (fun fieldType => decide (fieldType ∈ sessionSingleLines)) sSessionOrderedLines lines.zipIdx

/-- When the sorter gives a sorted copy. -/
structure Sortable (stream : List UInt8) : Prop where
  /-- The index of a session line does not wrap around. -/
  count : (sessionPart stream).length ≤ 32767
  /-- The first line for a medium does not begin with a blank. -/
  media : ∀ line ∈ (mediaPart stream).head?, head line = mediaType
  /-- A session line that begins with a blank may be left out. -/
  blanks : ∀ p ∈ (sessionPart stream).zipIdx, sWhitespaceMask (head p.1) = false →
    Droppable ((sessionPart stream).take p.2) p.1
  /-- An attribute with "a=range" in it that comes after lines with "a=range" in them may be left out. -/
  ranges : ∀ before p after, candidates (sessionPart stream) = before ++ p :: after → head p.1 = attributeType →
    FindString rangeTag p.1 → FindString rangeTag (text (before.map Prod.fst)) →
    Droppable ((sessionPart stream).take p.2) p.1
  /-- A session line with a 0 in it may be left out. -/
  zeros : ∀ p ∈ (sessionPart stream).zipIdx, (0 : UInt8) ∈ p.1 → Droppable ((sessionPart stream).take p.2) p.1
  /-- No line from the first one for a medium on has a 0 in it. -/
  mediaZeros : ∀ line ∈ mediaPart stream, (0 : UInt8) ∉ line

/-! ## Types -/

section Types

variable {stream line : List UInt8}

theorem lineType_eq_head (h : sWhitespaceMask (head line) = true) : lineType line = head line := by
  cases line with
  | nil => rfl
  | cons c line =>
    have hc : sWhitespaceMask c = true := h
    rw [lineType, List.dropWhile_cons_of_neg (p := (!sWhitespaceMask ·)) (by simp [hc])]
    rfl

/-- No type is a blank. -/
theorem stop_of_ordered {c : UInt8} (h : c ∈ sSessionOrderedLines) : sWhitespaceMask c = true :=
  List.all_eq_true.1 (show sSessionOrderedLines.all sWhitespaceMask = true from rfl) c h

theorem lineType_of_head_mem (h : head line ∈ sSessionOrderedLines) : lineType line = head line :=
  lineType_eq_head (stop_of_ordered h)

theorem lineType_of_head_media (h : head line = mediaType) : lineType line = mediaType := by
  have hstop : sWhitespaceMask mediaType = true := by decide
  rw [lineType_eq_head (by rw [h]; exact hstop), h]

/-- A line that is skipped has no type. -/
theorem lineType_of_skip (h : checkLine line = .skip) : lineType line = 0 := by
  rw [checkLine] at h
  simp only [] at h
  split at h
  · rename_i hempty
    rcases hempty with hlen | hzero
    · exact congrArg (List.headD · 0) (List.length_eq_zero_iff.1 hlen)
    · exact hzero
  · split at h
    · cases h
    · split at h
      · cases h
      · split at h <;> cases h

theorem headD_takeWhile {p : UInt8 → Bool} {l : List UInt8} (h : (l.takeWhile p).length ≠ 0) :
    (l.takeWhile p).headD 0 = l.headD 0 := by
  cases l with
  | nil => rfl
  | cons c l =>
    by_cases hc : p c = true
    · rw [List.takeWhile_cons_of_pos hc]
      rfl
    · rw [List.takeWhile_cons_of_neg hc] at h
      exact absurd rfl h

/-- A line that is added has a type. -/
theorem lineType_of_add (h : checkLine line = .add) : lineType line ∈ validChars := by
  rw [checkLine] at h
  simp only [] at h
  split at h
  · cases h
  · split at h
    · cases h
    · rename_i hfield
      obtain ⟨hlen, hvalid⟩ := not_or.1 hfield
      have hone := not_not.1 hlen
      have hhead := headD_takeWhile (l := (consumeUntil sWhitespaceMask line).2) (by
        intro hzero
        rw [consumeUntil, hzero] at hone
        cases hone)
      rw [lineType]
      exact hhead ▸ not_not.1 hvalid

theorem sessionPart_mem (h : line ∈ sessionPart stream) : checkLine line = .add ∧ lineType line ≠ mediaType := by
  have hadd := (List.takeWhile_prefix _).subset h
  have htype := List.mem_takeWhile_imp h
  exact ⟨by simpa using (List.mem_filter.1 hadd).2, by simpa using htype⟩

theorem complete_of_session (h : line ∈ sessionPart stream) : line ∈ completeLines stream :=
  (List.mem_filter.1 ((List.takeWhile_prefix _).subset h)).1

theorem complete_of_media (h : line ∈ mediaPart stream) : line ∈ completeLines stream :=
  (List.dropWhile_suffix _).subset h

/-- A session line that does not begin with a blank begins with its type. -/
theorem head_mem_of_session (h : line ∈ sessionPart stream) (hblank : sWhitespaceMask (head line) = true) :
    head line ∈ sSessionOrderedLines := by
  obtain ⟨hadd, hmedia⟩ := sessionPart_mem h
  have hvalid : lineType line ∈ sSessionOrderedLines ++ [mediaType] := lineType_of_add hadd
  rw [← lineType_eq_head hblank]
  exact (List.mem_append.1 hvalid).resolve_right (by simpa using hmedia)

end Types

/-! ## Where the media begin -/

section Media

variable {α : Type*} {p q f : α → Bool} {l : List α} {stream : List UInt8}

theorem of_head?_dropWhile {x : α} (h : (l.dropWhile p).head? = some x) : p x = false := by
  have hstop := List.head?_dropWhile_not p l
  rw [h] at hstop
  exact hstop

theorem dropWhile_dropWhile (himp : ∀ x, p x = true → q x = true) : (l.dropWhile p).dropWhile q = l.dropWhile q := by
  induction l with
  | nil => rfl
  | cons x l ih =>
    by_cases hp : p x = true
    · rw [List.dropWhile_cons_of_pos hp, List.dropWhile_cons_of_pos (himp x hp), ih]
    · rw [List.dropWhile_cons_of_neg hp]

/-- What stops is not filtered out. -/
theorem dropWhile_filter (hf : ∀ x ∈ l, ¬p x = true → f x = true) :
    (l.filter f).dropWhile p = (l.dropWhile p).filter f := by
  induction l with
  | nil => rfl
  | cons x l ih =>
    have hl := ih fun y hy => hf y (List.mem_cons_of_mem _ hy)
    by_cases hp : p x = true
    · rw [List.dropWhile_cons_of_pos hp, ← hl, List.filter_cons]
      split
      · exact List.dropWhile_cons_of_pos hp
      · rfl
    · have hx := hf x List.mem_cons_self hp
      rw [List.dropWhile_cons_of_neg hp, List.filter_cons_of_pos hx, List.dropWhile_cons_of_neg hp]

/-- The sorter begins the media no earlier. -/
theorem rawMedia_eq : rawMedia stream = (mediaPart stream).dropWhile fun line => !decide (head line = mediaType) := by
  refine (dropWhile_dropWhile fun line hline => ?_).symm
  have hne : lineType line ≠ mediaType := by simpa using hline
  have hhead : head line ≠ mediaType := fun h => hne (lineType_of_head_media h)
  simpa using hhead

theorem rawMedia_suffix : rawMedia stream <:+ mediaPart stream := by
  rw [rawMedia_eq]
  exact List.dropWhile_suffix _

theorem rawMedia_of_head (h : ∀ line ∈ (mediaPart stream).head?, head line = mediaType) :
    rawMedia stream = mediaPart stream := by
  rw [rawMedia_eq]
  cases hmedia : mediaPart stream with
  | nil => rfl
  | cons line rest =>
    have hhead : head line = mediaType := h line (by rw [hmedia]; rfl)
    exact List.dropWhile_cons_of_neg (by simp [hhead])

/-- The accepted lines are those of the session, and those from the first one for a medium on. -/
theorem accepted_eq (hclean : Clean stream) : ((completeLines stream).filter fun line => checkLine line = .add) =
    sessionPart stream ++ (mediaPart stream).filter fun line => checkLine line = .add := by
  have hmedia : ∀ line ∈ completeLines stream, ¬(!decide (lineType line = mediaType)) = true →
      decide (checkLine line = .add) = true := by
    intro line hline htype
    have htype' : lineType line = mediaType := by simpa using htype
    cases hcheck : checkLine line with
    | add => rfl
    | invalid => exact absurd hcheck (hclean line hline)
    | skip =>
      rw [lineType_of_skip hcheck] at htype'
      exact absurd htype' (by decide)
  rw [mediaPart, ← dropWhile_filter hmedia]
  exact List.takeWhile_append_dropWhile.symm

/-- No accepted line from there on comes before the first one that begins with the type. -/
theorem takeWhile_media (hclean : Clean stream) (h : ∀ line ∈ (mediaPart stream).head?, head line = mediaType) :
    (((mediaPart stream).filter fun line => checkLine line = .add).takeWhile fun line =>
      !decide (head line = mediaType)) = [] := by
  cases hmedia : mediaPart stream with
  | nil => rfl
  | cons line rest =>
    have hhead : head line = mediaType := h line (by rw [hmedia]; rfl)
    have hmem : line ∈ mediaPart stream := by
      rw [hmedia]
      exact List.mem_cons_self
    have hadd : checkLine line = .add := by
      cases hcheck : checkLine line with
      | add => rfl
      | invalid => exact absurd hcheck (hclean line (complete_of_media hmem))
      | skip => exact absurd hhead (head_of_skip hcheck)
    rw [List.filter_cons_of_pos (by simp [hadd]), List.takeWhile_cons_of_neg (by simp [hhead])]

theorem rawSession_of_head (hclean : Clean stream) (h : ∀ line ∈ (mediaPart stream).head?, head line = mediaType) :
    rawSession stream = sessionPart stream := by
  have hsession : ∀ line ∈ sessionPart stream, (!decide (head line = mediaType)) = true := by
    intro line hline
    have hne := fun hhead => (sessionPart_mem hline).2 (lineType_of_head_media hhead)
    simpa using hne
  rw [rawSession, accepted_eq hclean, List.takeWhile_append_of_pos hsession, takeWhile_media hclean h, List.append_nil]

end Media

/-! ## The lines that are put -/

/-- The lines that are put, each with its place. -/
def keptLines (lines : List (List UInt8)) : List (List UInt8 × Nat) :=
  keeping (fun kept p => passes (kept.map Prod.fst) p.1) (candidates lines)

section Kept

variable {lines l l' : List (List UInt8)} {line : List UInt8}
variable {before after : List (List UInt8 × Nat)} {p q : List UInt8 × Nat}

theorem put_eq : put lines = (keptLines lines).map Prod.fst := by
  have hsorted : sorted lines = (candidates lines).map Prod.fst := by
    rw [sorted, candidates, ← byKind_map, List.zipIdx_map_fst]
  rw [put, hsorted, keeping_map]
  rfl

theorem candidate_mem (h : p ∈ candidates lines) : p ∈ lines.zipIdx ∧ head p.1 ∈ sSessionOrderedLines :=
  mem_of_mem_byKind h

theorem kept_sublist : (keptLines lines).Sublist (candidates lines) := keeping_sublist

theorem head_of_put (h : line ∈ put lines) : head line ∈ sSessionOrderedLines := by
  rw [put_eq] at h
  obtain ⟨p, hp, rfl⟩ := List.mem_map.1 h
  exact (candidate_mem (kept_sublist.subset hp)).2

theorem mem_of_mem_put (h : line ∈ put lines) : line ∈ lines := by
  rw [put_eq] at h
  obtain ⟨p, hp, rfl⟩ := List.mem_map.1 h
  exact List.fst_mem_of_mem_zipIdx (candidate_mem (kept_sublist.subset hp)).1

/-- What is put is put again. -/
theorem put_put : put (put lines) = put lines := by
  have hsorted : sorted (put lines) = put lines := byKind_self (by decide) keeping_sublist
  rw [put, hsorted]
  exact keeping_keeping

theorem pairwise_zipIdx (lines : List (List UInt8)) : lines.zipIdx.Pairwise fun p q => p.2 < q.2 := by
  have hlt : (lines.zipIdx.map Prod.snd).Pairwise (· < ·) := by
    rw [List.zipIdx_map_snd]
    exact List.pairwise_lt_range'
  exact List.pairwise_map.1 hlt

/-- The candidates stand in order. -/
theorem candidates_order : (candidates lines).Pairwise Before := by
  have hheads : (candidates lines).Pairwise fun p q =>
      sSessionOrderedLines.idxOf (head p.1) < sSessionOrderedLines.idxOf (head q.1) ∨ head p.1 = head q.1 ∧ p.2 < q.2 := by
    refine pairwise_byKind ?_ ((pairwise_zipIdx lines).imp fun hlt hhead => .inr ⟨hhead, hlt⟩)
    have hkinds : sSessionOrderedLines.Pairwise fun k k' =>
        sSessionOrderedLines.idxOf k < sSessionOrderedLines.idxOf k' := by decide
    refine hkinds.imp ?_
    rintro _ _ hlt p q rfl rfl
    exact .inl hlt
  refine hheads.imp_of_mem fun {p q} hp hq hpq => ?_
  rw [Before, lineType_of_head_mem (candidate_mem hp).2, lineType_of_head_mem (candidate_mem hq).2]
  exact hpq

theorem Before.ne (h : Before p q) : p ≠ q := by
  rintro rfl
  rcases h with hlt | ⟨-, hlt⟩
  · exact Nat.lt_irrefl _ hlt
  · exact Nat.lt_irrefl _ hlt

theorem candidates_nodup : (candidates lines).Nodup := candidates_order.imp Before.ne

theorem length_put_le : (put lines).length ≤ lines.length := by
  have hsub : keptLines lines ⊆ lines.zipIdx := fun p hp => (candidate_mem (kept_sublist.subset hp)).1
  have hlen := (List.subperm_of_subset (candidates_nodup.sublist kept_sublist) hsub).length_le
  rw [put_eq, List.length_map]
  exact hlen.trans_eq List.length_zipIdx

/-! ### Range lines -/

theorem findString_mono {query : List UInt8} (h : l <+: l') (hfind : FindString query (text l)) :
    FindString query (text l') := by
  obtain ⟨rest, rfl⟩ := h
  have hprefix : (text l).takeWhile (· ≠ 0) <+: (text (l ++ rest)).takeWhile (· ≠ 0) := by
    rw [text_append, List.takeWhile_append]
    split
    · exact (List.takeWhile_prefix _).trans (List.prefix_append ..)
    · exact List.prefix_refl _
  exact hfind.trans hprefix.isInfix

/-- A line fails when it is an attribute with "a=range" in it, and there has been "a=range". -/
theorem passes_false (hline : line ≠ []) : passes l line = false ↔
    head line = attributeType ∧ FindString rangeTag line ∧ FindString rangeTag (text l) := by
  have hlen : ¬line.length = 0 := fun h => hline (List.length_eq_zero_iff.1 h)
  rw [passes, validateSessionHeader, if_neg hlen]
  split
  · rename_i h
    exact iff_of_true rfl h
  · rename_i h
    exact iff_of_false (by simp) h

theorem candidate_ne_nil (h : p ∈ candidates lines) : p.1 ≠ [] := by
  have hzero : (0 : UInt8) ∉ sSessionOrderedLines := by decide
  intro hnil
  have hmem := (candidate_mem h).2
  rw [hnil] at hmem
  exact hzero hmem

/-- "a=range" is in the lines that are put as soon as it is in the lines that come. -/
theorem range_put (hbefore : before <+: candidates lines) :
    FindString rangeTag (text ((keeping (fun kept p => passes (kept.map Prod.fst) p.1) before).map Prod.fst)) ↔
      FindString rangeTag (text (before.map Prod.fst)) := by
  refine seen_keeping (fun ps => FindString rangeTag (text (ps.map Prod.fst))) ?_ ?_
  · exact fun ps ps' hps hfind => findString_mono (hps.map Prod.fst) hfind
  · intro p hp kept hfail
    exact ((passes_false (candidate_ne_nil (hbefore.subset hp))).1 hfail).2.2

/-- A candidate that is not put is an attribute with "a=range" in it, and "a=range" is in the lines before it. -/
theorem range_of_not_kept (hp : p ∈ candidates lines) (hnot : p ∉ keptLines lines) : ∃ before after,
    candidates lines = before ++ p :: after ∧ head p.1 = attributeType ∧ FindString rangeTag p.1 ∧
      FindString rangeTag (text (before.map Prod.fst)) := by
  obtain ⟨before, after, hsplit, hfail⟩ := not_mem_keeping hp hnot
  obtain ⟨hhead, hfind, hseen⟩ := (passes_false (candidate_ne_nil hp)).1 hfail
  have hbefore : before <+: candidates lines := ⟨p :: after, hsplit.symm⟩
  exact ⟨before, after, hsplit, hhead, hfind, (range_put hbefore).1 hseen⟩

theorem not_kept_of_range (hsplit : candidates lines = before ++ p :: after) (hhead : head p.1 = attributeType)
    (hfind : FindString rangeTag p.1) (hseen : FindString rangeTag (text (before.map Prod.fst))) :
    p ∉ keptLines lines := by
  have hbefore : before <+: candidates lines := ⟨p :: after, hsplit.symm⟩
  have hp : p ∈ candidates lines := by
    rw [hsplit]
    exact List.mem_append_right _ List.mem_cons_self
  rw [keptLines, hsplit]
  refine not_mem_keeping_of_not_ok (hsplit ▸ candidates_nodup) ?_
  exact (passes_false (candidate_ne_nil hp)).2 ⟨hhead, hfind, (range_put hbefore).2 hseen⟩

theorem fst_mem_take {i : Nat} (hp : p ∈ lines.zipIdx) (hlt : p.2 < i) : p.1 ∈ lines.take i := by
  refine List.mem_of_getElem? (i := p.2) ?_
  rw [List.getElem?_take_of_lt hlt]
  exact List.mem_zipIdx_iff_getElem?.1 hp

/-- A line that is no candidate, and does not begin with a blank, is a later one of a type of which there is only one. -/
theorem droppable_of_not_candidate (hp : p ∈ lines.zipIdx) (hhead : head p.1 ∈ sSessionOrderedLines)
    (hnot : p ∉ candidates lines) : Droppable (lines.take p.2) p.1 := by
  obtain ⟨hsingle, before, after, q, hsplit, hq, hkind⟩ := not_mem_byKind hp hhead hnot
  have hkind' : head q.1 = head p.1 := hkind
  have hpair := hsplit ▸ pairwise_zipIdx lines
  have hlt : q.2 < p.2 := (List.pairwise_append.1 hpair).2.2 q hq p List.mem_cons_self
  have hmem : q ∈ lines.zipIdx := by
    rw [hsplit]
    exact List.mem_append_left _ hq
  refine .inl ⟨?_, q.1, fst_mem_take hmem hlt, ?_⟩
  · rw [lineType_of_head_mem hhead]
    exact of_decide_eq_true hsingle
  · rw [lineType_of_head_mem hhead, lineType_of_head_mem (hkind'.symm ▸ hhead), hkind']

/-! ### Zeros -/

/-- A string of lines goes on to its end when there is no 0 in them. -/
theorem takeWhile_text (h : ∀ line ∈ lines, (0 : UInt8) ∉ line) : (text lines).takeWhile (· ≠ 0) = text lines := by
  refine List.takeWhile_eq_self_iff.2 fun c hc => decide_eq_true ?_
  obtain ⟨line, hline, hc⟩ := List.mem_flatMap.1 hc
  rcases List.mem_append.1 hc with hc | hc
  · exact fun hzero => h line hline (hzero ▸ hc)
  · have hend : ∀ c ∈ sEOL, c ≠ 0 := by simp [sEOL, carriageReturn, lineFeed]
    exact hend c hc

theorem takeWhile_rangeTag (rest : List UInt8) : rangeTag <+: (rangeTag ++ rest).takeWhile (· ≠ 0) := by
  rw [List.takeWhile_append_of_pos (by simp [rangeTag])]
  exact List.prefix_append ..

theorem mem_text {c : UInt8} (hline : line ∈ lines) (hc : c ∈ line) : c ∈ text lines :=
  List.mem_flatMap.2 ⟨line, hline, List.mem_append_left _ hc⟩

theorem rangeTag_prefix (h : IsRange line) (hhead : head line = attributeType) : rangeTag <+: line := by
  have hstop : sWhitespaceMask (head line) = true := by
    rw [hhead]
    decide
  cases line with
  | nil => cases hhead
  | cons c line =>
    have hc : sWhitespaceMask c = true := hstop
    rwa [IsRange, List.dropWhile_cons_of_neg (by simp [hc])] at h

theorem findString_of_isRange (h : IsRange line) (hhead : head line = attributeType) : FindString rangeTag line := by
  obtain ⟨rest, hrest⟩ := rangeTag_prefix h hhead
  rw [FindString, ← hrest]
  exact (takeWhile_rangeTag rest).isInfix

theorem lineType_of_isRange (h : IsRange line) : lineType line = attributeType := by
  obtain ⟨rest, hrest⟩ := h
  rw [lineType, ← hrest]
  rfl

theorem lines_before {i : Nat} (h : line ∈ lines.take i) : ∃ p ∈ lines.zipIdx, p.1 = line ∧ p.2 < i := by
  obtain ⟨k, hk⟩ := List.getElem?_of_mem h
  have hlt : k < i := by
    by_contra hge
    rw [List.getElem?_eq_none ((List.length_take_le _ _).trans (Nat.not_lt.1 hge))] at hk
    cases hk
  rw [List.getElem?_take_of_lt hlt] at hk
  exact ⟨(line, k), List.mem_zipIdx_iff_getElem?.2 hk, rfl, hlt⟩

/-- Of two candidates of one type the earlier line comes first. -/
theorem mem_before_of_lt (hsplit : candidates lines = before ++ p :: after) (hq : q ∈ candidates lines)
    (htype : lineType q.1 = lineType p.1) (hlt : q.2 < p.2) : q ∈ before := by
  have horder := @candidates_order lines
  rw [hsplit] at hq horder
  rcases List.mem_append.1 hq with hq | hq
  · exact hq
  · rcases List.mem_cons.1 hq with rfl | hq
    · exact absurd hlt (Nat.lt_irrefl _)
    · rcases (List.pairwise_cons.1 (List.pairwise_append.1 horder).2.1).1 q hq with hidx | ⟨-, hlt'⟩
      · rw [htype] at hidx
        exact absurd hidx (Nat.lt_irrefl _)
      · exact absurd hlt (Nat.lt_asymm hlt')

/-- When lines that begin with a blank may be left out, there is another one before them that does not. -/
theorem exists_unblanked {P : List UInt8 → Prop}
    (hblanks : ∀ p ∈ lines.zipIdx, sWhitespaceMask (head p.1) = false → Droppable (lines.take p.2) p.1)
    (hP : ∀ earlier line, P line → Droppable earlier line → ∃ l ∈ earlier, P l) :
    ∀ n p, p ∈ lines.zipIdx → p.2 = n → P p.1 → ∃ q ∈ lines.zipIdx, q.2 ≤ n ∧ P q.1 ∧ sWhitespaceMask (head q.1) = true := by
  intro n
  induction n using Nat.strong_induction_on with
  | _ n ih =>
    intro p hp hn hPp
    cases hblank : sWhitespaceMask (head p.1) with
    | true => exact ⟨p, hp, hn.le, hPp, hblank⟩
    | false =>
      obtain ⟨l, hl, hPl⟩ := hP _ _ hPp (hblanks p hp hblank)
      obtain ⟨r, hr, rfl, hlt⟩ := lines_before hl
      obtain ⟨q, hq, hle, hPq⟩ := ih r.2 (hn ▸ hlt) r hr rfl hPl
      exact ⟨q, hq, hle.trans (hn ▸ hlt.le), hPq⟩

end Kept

/-! ## When the copy is sorted -/

section Copy

variable {stream result line : List UInt8} {kept : List (List UInt8 × Nat)}

variable {p : List UInt8 × Nat}

/-- A candidate is the first line of its type, when there may be only one. -/
theorem Sortable.first_candidate (h : Sortable stream) (hp : p ∈ candidates (sessionPart stream))
    (hsingle : lineType p.1 ∈ sessionSingleLines) : ∀ l ∈ (sessionPart stream).take p.2, lineType l ≠ lineType p.1 := by
  intro l hl htype
  obtain ⟨r, hr, rfl, hlt⟩ := lines_before hl
  -- a range line is of a type of which there may be several
  have hrange : ∀ line, lineType line = lineType p.1 → ¬IsRange line := by
    intro line hline hrange
    rw [← hline, lineType_of_isRange hrange] at hsingle
    exact absurd hsingle (by decide)
  obtain ⟨q, hq, hle, hqtype, hstop⟩ := exists_unblanked (P := fun l => lineType l = lineType p.1) h.blanks (by
    rintro earlier line hline (⟨-, l, hl, heq⟩ | ⟨hr, -⟩)
    · exact ⟨l, hl, heq.trans hline⟩
    · exact absurd hr (hrange line hline)) r.2 r hr rfl htype
  have hheadp := (candidate_mem hp).2
  have hhead : head q.1 = head p.1 := by
    rw [← lineType_eq_head hstop, hqtype, lineType_of_head_mem hheadp]
  have hone : decide (head p.1 ∈ sessionSingleLines) = true := by
    rw [← lineType_of_head_mem hheadp]
    exact decide_eq_true hsingle
  rcases first_of_single (pairwise_zipIdx (sessionPart stream)) hp hone hq hhead with rfl | hlt'
  · omega
  · omega

/-- Before a candidate that is a later range line, "a=range" is in the candidates. -/
theorem Sortable.range_seen (h : Sortable stream) {before after : List (List UInt8 × Nat)}
    (hsplit : candidates (sessionPart stream) = before ++ p :: after) (hrange : IsRange p.1)
    (hearlier : ∃ l ∈ (sessionPart stream).take p.2, IsRange l) : FindString rangeTag (text (before.map Prod.fst)) := by
  obtain ⟨l, hl, hlrange⟩ := hearlier
  obtain ⟨r, hr, rfl, hlt⟩ := lines_before hl
  obtain ⟨q, hq, hle, hqrange, hstop⟩ := exists_unblanked (P := IsRange) h.blanks (by
    rintro earlier line hline (⟨hsingle, -⟩ | ⟨-, hex⟩)
    · rw [lineType_of_isRange hline] at hsingle
      exact absurd hsingle (by decide)
    · exact hex) r.2 r hr rfl hlrange
  have hqtype := lineType_of_isRange hqrange
  have hqcand : q ∈ candidates (sessionPart stream) := by
    have hqhead : head q.1 = attributeType := by rw [← lineType_eq_head hstop, hqtype]
    by_contra hnot
    obtain ⟨hsingle, -⟩ := not_mem_byKind hq (show head q.1 ∈ _ by rw [hqhead]; decide) hnot
    have hmem : head q.1 ∈ sessionSingleLines := of_decide_eq_true hsingle
    rw [hqhead] at hmem
    exact absurd hmem (by decide)
  have hbefore : q ∈ before := mem_before_of_lt hsplit hqcand (by rw [hqtype, lineType_of_isRange hrange]) (by omega)
  -- before the first of the range lines there is no 0
  obtain ⟨b, f, s, hfirst, hf, hb⟩ := exists_first (P := fun p : List UInt8 × Nat => IsRange p.1) ⟨q, hbefore, hqrange⟩
  have hmem : ∀ z ∈ before, z ∈ candidates (sessionPart stream) := by
    intro z hz
    rw [hsplit]
    exact List.mem_append_left _ hz
  have hzero : ∀ line ∈ b.map Prod.fst, (0 : UInt8) ∉ line := by
    intro line hline hzero
    obtain ⟨z, hz, rfl⟩ := List.mem_map.1 hline
    have hzcand := hmem z (hfirst ▸ List.mem_append_left _ hz)
    rcases h.zeros z (candidate_mem hzcand).1 hzero with ⟨hsingle, l, hl, htype⟩ | ⟨hzrange, -⟩
    · exact h.first_candidate hzcand hsingle l hl htype
    · exact hb z hz hzrange
  have hfcand := hmem f (hfirst ▸ List.mem_append_right _ List.mem_cons_self)
  have hfhead : head f.1 = attributeType := by
    rw [← lineType_of_head_mem (candidate_mem hfcand).2, lineType_of_isRange hf]
  obtain ⟨rest, hrest⟩ := rangeTag_prefix hf hfhead
  have htext : text (before.map Prod.fst) = text (b.map Prod.fst) ++ (rangeTag ++ (rest ++ sEOL ++ text (s.map Prod.fst))) := by
    rw [hfirst, List.map_append, text_append, List.map_cons, text, text, text, List.flatMap_cons, ← hrest]
    simp only [List.append_assoc]
  rw [FindString, htext, List.takeWhile_append_of_pos fun c hc => ?_]
  · exact (takeWhile_rangeTag _).isInfix.trans (List.suffix_append ..).isInfix
  · rw [← takeWhile_text hzero] at hc
    exact List.mem_takeWhile_imp (p := fun c : UInt8 => decide (c ≠ 0)) hc

/-- A line with a 0 in it is not put. -/
theorem Sortable.not_kept_of_zero (h : Sortable stream) (hp : p ∈ candidates (sessionPart stream))
    (hzero : (0 : UInt8) ∈ p.1) : p ∉ keptLines (sessionPart stream) := by
  rcases h.zeros p (candidate_mem hp).1 hzero with ⟨hsingle, l, hl, htype⟩ | ⟨hrange, hearlier⟩
  · exact absurd htype (h.first_candidate hp hsingle l hl)
  · obtain ⟨before, after, hsplit⟩ := List.append_of_mem hp
    have htype := lineType_of_isRange hrange
    have hhead : head p.1 = attributeType := by rw [← lineType_of_head_mem (candidate_mem hp).2, htype]
    exact not_kept_of_range hsplit hhead (findString_of_isRange hrange hhead) (h.range_seen hsplit hrange hearlier)

theorem Sortable.no_zero (h : Sortable stream) : ∀ line ∈ put (sessionPart stream) ++ mediaPart stream, (0 : UInt8) ∉ line := by
  intro line hline
  rcases List.mem_append.1 hline with hline | hline
  · rw [put_eq] at hline
    obtain ⟨p, hp, rfl⟩ := List.mem_map.1 hline
    exact fun hzero => h.not_kept_of_zero (kept_sublist.subset hp) hzero hp
  · exact h.mediaZeros line hline

theorem copy_of_sortable (hclean : Clean stream) (h : Sortable stream) : getSortedSDPCopy (setSDPBuffer stream) =
    some (text ((keptLines (sessionPart stream)).map Prod.fst) ++ text (mediaPart stream)) := by
  rw [getSortedSDPCopy_eq hclean, rawSession_of_head hclean h.media, rawMedia_of_head h.media, takeWhile_text h.no_zero,
    text_append, put_eq, if_neg (Nat.not_lt.2 h.count)]

/-- Only lines that may be left out are left out. -/
theorem sortedCopy_of_sortable (h : Sortable stream) : SortedCopy stream (keptLines (sessionPart stream))
    (text ((keptLines (sessionPart stream)).map Prod.fst) ++ text (mediaPart stream)) where
  sub := fun _ hp => (candidate_mem (kept_sublist.subset hp)).1
  order := candidates_order.sublist kept_sublist
  dropped := by
    intro p hp hnot
    by_cases hcand : p ∈ candidates (sessionPart stream)
    · obtain ⟨before, after, hsplit, hhead, hfind, hseen⟩ := range_of_not_kept hcand hnot
      exact h.ranges before p after hsplit hhead hfind hseen
    · cases hblank : sWhitespaceMask (head p.1) with
      | false => exact h.blanks p hp hblank
      | true => exact droppable_of_not_candidate hp (head_mem_of_session (List.fst_mem_of_mem_zipIdx hp) hblank) hcand
  result_eq := rfl

theorem mem_of_mem_copy (h : line ∈ put (sessionPart stream) ++ mediaPart stream) : line ∈ completeLines stream := by
  rcases List.mem_append.1 h with h | h
  · exact complete_of_session (mem_of_mem_put h)
  · exact complete_of_media h

/-- The lines of the copy. -/
theorem completeLines_copy : completeLines (text (put (sessionPart stream)) ++ text (mediaPart stream)) =
    put (sessionPart stream) ++ mediaPart stream := by
  have hread := completeLines_text [] fun line hline => noEOL_of_mem (@mem_of_mem_copy stream line hline)
  rw [completeLines_nil, List.append_nil, List.append_nil, text_append] at hread
  exact hread

/-- The copy is sorted already. -/
theorem copy_of_copy (hclean : Clean stream) (h : Sortable stream) :
    getSortedSDPCopy (setSDPBuffer (text (put (sessionPart stream)) ++ text (mediaPart stream))) =
      some (text (put (sessionPart stream)) ++ text (mediaPart stream)) := by
  have hcopy : Clean (text (put (sessionPart stream)) ++ text (mediaPart stream)) := by
    intro line hline
    rw [completeLines_copy] at hline
    exact hclean line (mem_of_mem_copy hline)
  have hhead : ∀ line ∈ put (sessionPart stream), (!decide (head line = mediaType)) = true := by
    have hmedia : mediaType ∉ sSessionOrderedLines := by decide
    intro line hline
    have hne : head line ≠ mediaType := fun heq => hmedia (heq ▸ head_of_put hline)
    simpa using hne
  have hadd : (put (sessionPart stream)).filter (fun line => checkLine line = .add) = put (sessionPart stream) := by
    refine List.filter_eq_self.2 fun line hline => ?_
    exact decide_eq_true (sessionPart_mem (mem_of_mem_put hline)).1
  have hsession : rawSession (text (put (sessionPart stream)) ++ text (mediaPart stream)) = put (sessionPart stream) := by
    rw [rawSession, completeLines_copy, List.filter_append, hadd, List.takeWhile_append_of_pos hhead,
      takeWhile_media hclean h.media, List.append_nil]
  have hmedia : rawMedia (text (put (sessionPart stream)) ++ text (mediaPart stream)) = mediaPart stream := by
    rw [rawMedia, completeLines_copy, List.dropWhile_append_of_pos hhead, ← rawMedia_eq, rawMedia_of_head h.media]
  have hcount : ¬32767 < (put (sessionPart stream)).length := Nat.not_lt.2 (length_put_le.trans h.count)
  rw [getSortedSDPCopy_eq hcopy, hsession, hmedia, put_put, if_neg hcount, takeWhile_text h.no_zero, text_append]

/-- When a string of lines that is cut off at its first 0 is a string of lines, there is no 0, or the cut is between two
lines, where one begins with 0. -/
theorem lines_of_cut {lines lines' : List (List UInt8)} (h : ∀ line ∈ lines, NoEOL line) (h' : ∀ line ∈ lines', NoEOL line)
    (hcut : (text lines).takeWhile (· ≠ 0) = text lines') :
    lines = lines' ∨ ∃ line rest, lines = lines' ++ line :: rest ∧ (0 : UInt8) ∈ line ∧ head line = 0 := by
  have hsplit : text lines = text lines' ++ (text lines).dropWhile (· ≠ 0) := by
    rw [← hcut, List.takeWhile_append_dropWhile]
  have hread := completeLines_text [] h
  rw [List.append_nil, completeLines_nil, List.append_nil, hsplit, completeLines_text _ h'] at hread
  cases hrest : completeLines ((text lines).dropWhile (· ≠ 0)) with
  | nil =>
    rw [hrest, List.append_nil] at hread
    exact .inl hread.symm
  | cons line rest =>
    rw [hrest] at hread
    refine .inr ⟨line, rest, hread.symm, ?_⟩
    rw [← hread, text_append] at hsplit
    have hdrop := List.append_cancel_left hsplit
    have hstop : ∀ c ∈ (text (line :: rest)).head?, decide (c ≠ 0) = false := by
      intro c hc
      rw [hdrop] at hc
      exact of_head?_dropWhile (p := fun c : UInt8 => decide (c ≠ 0)) hc
    cases line with
    | nil => exact absurd (hstop carriageReturn rfl) (by decide)
    | cons c line =>
      obtain rfl : c = 0 := by simpa using hstop c rfl
      exact ⟨List.mem_cons_self, rfl⟩

/-- The lines of a sorted copy. -/
theorem lines_of_sortedCopy (hclean : Clean stream) (hresult : getSortedSDPCopy (setSDPBuffer stream) = some result)
    (h : SortedCopy stream kept result) : (rawSession stream).length ≤ 32767 ∧
      put (rawSession stream) ++ rawMedia stream = kept.map Prod.fst ++ mediaPart stream ∧
      ∀ line ∈ kept.map Prod.fst ++ mediaPart stream, (0 : UInt8) ∉ line := by
  rw [getSortedSDPCopy_eq hclean] at hresult
  split at hresult
  · cases hresult
  · rename_i hcount
    have htext := (Option.some.inj hresult).trans h.result_eq
    have hraw : ∀ line ∈ put (rawSession stream) ++ rawMedia stream, NoEOL line := by
      intro line hline
      rcases List.mem_append.1 hline with hline | hline
      · exact noEOL_of_mem (complete_of_raw (mem_of_mem_put hline))
      · exact noEOL_of_mem ((List.dropWhile_suffix _).subset hline)
    have hkept : ∀ line ∈ kept.map Prod.fst ++ mediaPart stream, NoEOL line := by
      intro line hline
      rcases List.mem_append.1 hline with hline | hline
      · obtain ⟨p, hp, rfl⟩ := List.mem_map.1 hline
        exact noEOL_of_mem (complete_of_session (List.fst_mem_of_mem_zipIdx (h.sub hp)))
      · exact noEOL_of_mem (complete_of_media hline)
    rw [← text_append] at htext
    have hzero : ∀ line ∈ kept.map Prod.fst ++ mediaPart stream, (0 : UInt8) ∉ line := by
      intro line hline hzero
      have hmem := mem_text hline hzero
      rw [← htext] at hmem
      exact absurd (List.mem_takeWhile_imp hmem) (by decide)
    rcases lines_of_cut hraw hkept htext with hlines | ⟨line, rest, hlines, hhead⟩
    · exact ⟨Nat.not_lt.1 hcount, hlines, hzero⟩
    · -- a line that begins with 0 is not put, so the copy has been cut within the media
      have hline : line ∈ put (rawSession stream) ++ rawMedia stream := by
        rw [hlines]
        exact List.mem_append_right _ List.mem_cons_self
      rcases List.mem_append.1 hline with hline | hline
      · have hput := head_of_put hline
        rw [hhead.2] at hput
        exact absurd hput (by decide)
      · exact absurd hhead.1 (hzero line (List.mem_append_right _ (rawMedia_suffix.subset hline)))

/-- The first line for a medium is not among the lines that are put. -/
theorem media_of_sortedCopy
    (hlines : put (rawSession stream) ++ rawMedia stream = kept.map Prod.fst ++ mediaPart stream) :
    ∀ line ∈ (mediaPart stream).head?, head line = mediaType := by
  intro line hline
  have htype : lineType line = mediaType := by simpa using of_head?_dropWhile hline
  obtain ⟨skipped, hmedia⟩ := @rawMedia_suffix stream
  rw [← hmedia] at hline
  cases skipped with
  | nil => simpa using of_head?_dropWhile (show (rawMedia stream).head? = some line from hline)
  | cons first skipped =>
    cases (Option.some.inj hline : first = line)
    rw [← hmedia, ← List.append_assoc] at hlines
    have hput := List.append_cancel_right hlines
    have hmem : head line ∈ sSessionOrderedLines := by
      refine @head_of_put (rawSession stream) line ?_
      rw [hput]
      exact List.mem_append_right _ List.mem_cons_self
    have hnot : mediaType ∉ sSessionOrderedLines := by decide
    rw [← lineType_of_head_mem hmem, htype] at hmem
    exact absurd hmem hnot

variable {p : List UInt8 × Nat}

/-- Another line with the same text may be in a copy, then it comes before. -/
theorem droppable_of_range {before after : List (List UInt8 × Nat)} (h : SortedCopy stream kept result)
    (hput : put (sessionPart stream) = kept.map Prod.fst) (hsplit : candidates (sessionPart stream) = before ++ p :: after)
    (hhead : head p.1 = attributeType) (hfind : FindString rangeTag p.1)
    (hseen : FindString rangeTag (text (before.map Prod.fst))) : Droppable ((sessionPart stream).take p.2) p.1 := by
  have hp : p ∈ candidates (sessionPart stream) := by
    rw [hsplit]
    exact List.mem_append_right _ List.mem_cons_self
  have hnot := not_kept_of_range hsplit hhead hfind hseen
  by_cases hkept : p ∈ kept
  · rw [put_eq] at hput
    obtain ⟨q, hq, hqkept, hqp⟩ := exists_of_map_eq (candidates_nodup.sublist kept_sublist) hput hkept hnot
    have hqcand := kept_sublist.subset hq
    have hrange : IsRange p.1 := by
      rcases h.dropped q (candidate_mem hqcand).1 hqkept with ⟨hsingle, -⟩ | ⟨hrange, -⟩
      · rw [hqp, lineType_of_head_mem (candidate_mem hp).2, hhead] at hsingle
        exact absurd hsingle (by decide)
      · exact hqp ▸ hrange
    have hqbefore : q ∈ before := by
      rw [hsplit] at hqcand
      rcases List.mem_append.1 hqcand with hqbefore | hqafter
      · exact hqbefore
      · rcases List.mem_cons.1 hqafter with rfl | hqafter
        · exact absurd hq hnot
        · obtain ⟨s, t, rfl⟩ := List.append_of_mem hqafter
          have hsplit' : candidates (sessionPart stream) = (before ++ p :: s) ++ q :: t := by
            rw [hsplit, List.append_assoc, List.cons_append]
          have hseen' : FindString rangeTag (text ((before ++ p :: s).map Prod.fst)) := by
            rw [List.map_append]
            exact findString_mono (List.prefix_append ..) hseen
          exact absurd hq (not_kept_of_range hsplit' (hqp ▸ hhead) (hqp ▸ hfind) hseen')
    have hlt : q.2 < p.2 := by
      have horder := @candidates_order (sessionPart stream)
      rw [hsplit] at horder
      rcases (List.pairwise_append.1 horder).2.2 q hqbefore p List.mem_cons_self with hlt | ⟨-, hlt⟩
      · rw [hqp] at hlt
        exact absurd hlt (Nat.lt_irrefl _)
      · exact hlt
    exact .inr ⟨hrange, q.1, fst_mem_take (candidate_mem hqcand).1 hlt, hqp ▸ hrange⟩
  · exact h.dropped p (candidate_mem hp).1 hkept

/-- The sorter gives a sorted copy only then. -/
theorem sortable_of_sortedCopy (hclean : Clean stream) (hresult : getSortedSDPCopy (setSDPBuffer stream) = some result)
    (h : SortedCopy stream kept result) : Sortable stream := by
  obtain ⟨hcount, hlines, hzero⟩ := lines_of_sortedCopy hclean hresult h
  have hmedia := media_of_sortedCopy hlines
  rw [rawSession_of_head hclean hmedia] at hcount
  rw [rawSession_of_head hclean hmedia, rawMedia_of_head hmedia] at hlines
  have hput := List.append_cancel_right hlines
  refine ⟨hcount, hmedia, fun p hp hblank => h.dropped p hp fun hkept => ?_, ?_, fun p hp hmem => h.dropped p hp fun hkept => ?_,
    fun line hline => hzero line (List.mem_append_right _ hline)⟩
  · have hmem : p.1 ∈ put (sessionPart stream) := by
      rw [hput]
      exact List.mem_map_of_mem hkept
    rw [stop_of_ordered (head_of_put hmem)] at hblank
    cases hblank
  · intro before p after hsplit hhead hfind hseen
    exact droppable_of_range h hput hsplit hhead hfind hseen
  · exact hzero p.1 (List.mem_append_left _ (List.mem_map_of_mem hkept)) hmem

end Copy

/-- The lines "s=x", "v=0" and "m=a 1". -/
def shortText : List UInt8 := [115, 61, 120, 10, 118, 61, 48, 10, 109, 61, 97, 32, 49, 10]

/-- The lines "v=0" and " s=x". -/
def blankText : List UInt8 := [118, 61, 48, 10, 32, 115, 61, 120, 10]

end ToolLib.Common.SDP
