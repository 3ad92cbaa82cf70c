import ToolLib.Base.Sections
import ToolLib.Common.SDPContainer

/-!
# Lines inserted by the sorter

`SDPLineSorter` with a container of lines to insert and an adjustment of the bandwidth: `bandwidthLine` is what is put
for a line of the type b (the line itself for an adjustment of 1.0).

`Inserted` says what the media part should be: in each section the inserted lines before the first line with "a=", each
with its end. `sorter_inserts_iff` says when it is: the sorter puts no ends behind the lines of the container, and gets
to the second one only for the first section, and from where the cursor of the container stands.
-/

namespace ToolLib.Common.SDPInsert

open ToolLib.Base StringParser SDP SDPContainer

abbrev bandwidthType : UInt8 := 98

theorem length_getNextLine_lt {c c' : Container} {l : SDPLine} (h : c.getNextLine = (some l, c')) :
    c'.fNumUsedLines - c'.fCurrentLine < c.fNumUsedLines - c.fCurrentLine := by
  unfold Container.getNextLine at h
  split at h
  next hlt =>
    cases h
    dsimp only
    omega
  next => cases h

/-- The lines that `GetNextLine` gives up to `NULL`. -/
def putNextLines (c : Container) : List UInt8 × Container :=
  match _h : c.getNextLine with
  | (none, c) => ([], c)
  | (some insertLine, c) => (insertLine.bytes ++ (putNextLines c).1, (putNextLines c).2)
  termination_by c.fNumUsedLines - c.fCurrentLine
  decreasing_by all_goals exact length_getNextLine_lt (by assumption)

/-- The loop that puts the lines of the container. -/
def putInsertLines (c : Container) : List UInt8 × Container :=
  match c.getLine 0 with
  | none => ([], c)
  | some insertLine => (insertLine.bytes ++ (putNextLines c).1, (putNextLines c).2)

/-- What is put for a line. -/
def putMediaLine (bandwidthLine : List UInt8 → List UInt8) (sdpLine : List UInt8) : List UInt8 :=
  (if head sdpLine = bandwidthType then bandwidthLine sdpLine else sdpLine) ++ sEOL

/-- The loop over the lines from the first line for a medium on. -/
def insertLoop (bandwidthLine : List UInt8 → List UInt8) (insertMediaLinesArray : Container) (newMediaSection : Bool)
    (stream : List UInt8) : List UInt8 :=
  if stream.length = 0 then []
  else if _h : (getThruEOL stream).2.1 = true then
    let sdpLine := (getThruEOL stream).1
    let newMediaSection := if head sdpLine = mediaType then true else newMediaSection
    if newMediaSection = true ∧ head sdpLine = attributeType then
      (putInsertLines insertMediaLinesArray).1 ++ putMediaLine bandwidthLine sdpLine ++
        insertLoop bandwidthLine (putInsertLines insertMediaLinesArray).2 false (getThruEOL stream).2.2
    else
      putMediaLine bandwidthLine sdpLine ++
        insertLoop bandwidthLine insertMediaLinesArray newMediaSection (getThruEOL stream).2.2
  else []
  termination_by stream.length
  decreasing_by all_goals exact length_getThruEOL_lt (by assumption)

/-- `fMediaHeaders`. The container is as the loop finds it: if it is the one with the text, its cursor is at the first
line for a medium. -/
def mediaHeaders (bandwidthLine : List UInt8 → List UInt8) (c : SDP.SDPContainer) (insertMediaLinesArray : Container) :
    List UInt8 :=
  match (c.findHeaderLineType mediaType).bind fun i => c.fSDPLineArray[i]? with
  | none => []
  | some theMediaStart => insertLoop bandwidthLine insertMediaLinesArray true theMediaStart.Ptr

/-! ## What should be put -/

/-- An a= line begins with "a=", and a section with a line that begins with "m=": the bytes count, blanks and all, as for
`GetHeaderType`. -/
def isAttribute (line : List UInt8) : Bool := decide ([attributeType, nameValueSeparator] <+: line)
def isMedia (line : List UInt8) : Bool := decide ([mediaType, nameValueSeparator] <+: line)

/-- A line with its end. -/
def withEOL (line : List UInt8) : List UInt8 := if sEOL <:+ line then line else line ++ sEOL

/-- The lines of the container. -/
def insertLines (c : Container) : List (List UInt8) := c.usedLines.map SDPLine.bytes

/-- The media part with the lines inserted in each section that has an attribute, before the first one. -/
def Inserted (bandwidthLine : List UInt8 → List UInt8) (stream : List UInt8) (c : Container) (result : List UInt8) : Prop :=
  result = (sections isMedia (rawMedia stream)).flatMap
    (withInsert isAttribute (putMediaLine bandwidthLine) ((insertLines c).flatMap withEOL))

/-- The number of sections that have an attribute. -/
def attributeSections (stream : List UInt8) : Nat := marked isAttribute (sections isMedia (rawMedia stream))

/-- No section has an attribute; or the lines of the container have their own ends, and there is only one of them, or
only one section with an attribute and the cursor is at the first line. -/
def Fits (stream : List UInt8) (c : Container) : Prop :=
  attributeSections stream = 0 ∨
    (∀ line ∈ insertLines c, sEOL <:+ line) ∧
      ((insertLines c).length = 1 ∨ attributeSections stream = 1 ∧ c.fCurrentLine = 0)

section Container

variable {c : Container} {line first stream : List UInt8} {lines rest : List (List UInt8)} {i : Nat} {new : Bool}
  {bandwidthLine : List UInt8 → List UInt8}

/-! ## The lines of the container -/

/-- What is put when the container's cursor is at the line `cursor`. -/
def piece (first : List UInt8) (rest : List (List UInt8)) (cursor : Nat) : List UInt8 := first ++ (rest.drop cursor).flatten

theorem usedLines_length (hc : Sound c) : c.usedLines.length = c.fNumUsedLines := by
  have hroom := hc.room
  rw [Container.usedLines, List.length_take, hc.length]
  omega

theorem getD_bytes (hc : Sound c) : (c.fSDPLineArray.getD i noLine).bytes = (insertLines c).getD i [] := by
  rw [insertLines, Container.usedLines, List.getD_eq_getElem?_getD, List.getD_eq_getElem?_getD, List.getElem?_map,
    List.getElem?_take]
  split
  next hlt => cases c.fSDPLineArray[i]? <;> rfl
  next hout =>
    have hunused := hc.unused i (Nat.not_lt.1 hout)
    rw [List.getD_eq_getElem?_getD] at hunused
    rw [hunused]
    rfl

/-- The container with its cursor somewhere else. -/
def atLine (c : Container) (i : Nat) : Container := { c with fCurrentLine := i }

theorem sound_atLine (hc : Sound c) (h : i ≤ c.fNumUsedLines) : Sound (atLine c i) :=
  ⟨hc.length, hc.room, hc.unused, h⟩

theorem putNextLines_next (h : c.fCurrentLine < c.fNumUsedLines) : putNextLines c =
    ((c.fSDPLineArray.getD (c.fCurrentLine + 1) noLine).bytes ++ (putNextLines (atLine c (c.fCurrentLine + 1))).1,
      (putNextLines (atLine c (c.fCurrentLine + 1))).2) := by
  have hnext : c.getNextLine =
      (some (c.fSDPLineArray.getD (c.fCurrentLine + 1) noLine), atLine c (c.fCurrentLine + 1)) := if_pos h
  rw [putNextLines]
  split
  next h' =>
    rw [hnext] at h'
    cases h'
  next h' =>
    rw [hnext] at h'
    cases h'
    rfl

theorem putNextLines_last (h : ¬c.fCurrentLine < c.fNumUsedLines) : putNextLines c = ([], c) := by
  have hnext : c.getNextLine = (none, c) := if_neg h
  rw [putNextLines]
  split
  next h' =>
    rw [hnext] at h'
    cases h'
    rfl
  next h' =>
    rw [hnext] at h'
    cases h'

theorem getD_append_drop : lines.getD i [] ++ (lines.drop (i + 1)).flatten = (lines.drop i).flatten := by
  by_cases h : i < lines.length
  · rw [List.drop_eq_getElem_cons h, List.flatten_cons, List.getD_eq_getElem?_getD, List.getElem?_eq_getElem h]
    rfl
  · rw [List.getD_eq_getElem?_getD, List.getElem?_eq_none (Nat.not_lt.1 h), List.drop_of_length_le (by omega),
      List.drop_of_length_le (by omega)]
    rfl

theorem insertLines_length (hc : Sound c) : (insertLines c).length = c.fNumUsedLines := by
  rw [insertLines, List.length_map, usedLines_length hc]

/-- `GetNextLine` goes on to the line behind the last one, which is empty. -/
theorem putNextLines_eq (hc : Sound c) : putNextLines c =
    (((insertLines c).drop (c.fCurrentLine + 1)).flatten, atLine c c.fNumUsedLines) := by
  generalize hleft : c.fNumUsedLines - c.fCurrentLine = left
  have hcursor := hc.cursor
  induction left generalizing c with
  | zero =>
    have hlast : c.fCurrentLine = c.fNumUsedLines := by omega
    rw [putNextLines_last (by omega), List.drop_of_length_le]
    · exact Prod.ext rfl (by rw [← hlast]; rfl)
    · rw [insertLines_length hc]
      omega
  | succ left ih =>
    have hlt : c.fCurrentLine < c.fNumUsedLines := by omega
    have hnext := ih (sound_atLine hc (i := c.fCurrentLine + 1) hlt) (by simp only [atLine]; omega) hlt
    rw [putNextLines_next hlt, hnext, getD_bytes hc]
    exact Prod.ext getD_append_drop rfl

/-- **The lines that are put**: the first one, then those behind the cursor; the cursor is left at the end. -/
theorem putInsertLines_eq (hc : Sound c) (hlines : insertLines c = first :: rest) : putInsertLines c =
    (piece first rest c.fCurrentLine, atLine c c.fNumUsedLines) := by
  have hpos : 0 < c.fNumUsedLines := by
    have hlen := insertLines_length hc
    rw [hlines, List.length_cons] at hlen
    omega
  have hget : c.getLine 0 = some (c.fSDPLineArray.getD 0 noLine) := if_pos ⟨by decide, by omega⟩
  rw [putInsertLines, hget, putNextLines_eq hc]
  simp only [getD_bytes hc, hlines]
  rfl

/-- What is put, one insertion after the other. -/
def insertions (c : Container) : Nat → List UInt8
  | 0 => (putInsertLines c).1
  | i + 1 => insertions (putInsertLines c).2 i

/-- After the first insertion the cursor is at the end. -/
theorem insertions_eq (hc : Sound c) (hlines : insertLines c = first :: rest) :
    insertions c i = piece first rest (if i = 0 then c.fCurrentLine else c.fNumUsedLines) := by
  induction i generalizing c with
  | zero => rw [insertions, putInsertLines_eq hc hlines, if_pos rfl]
  | succ i ih =>
    have hagain : insertions (atLine c c.fNumUsedLines) i =
        piece first rest (if i = 0 then c.fNumUsedLines else c.fNumUsedLines) :=
      ih (sound_atLine hc (Nat.le_refl _)) hlines
    rw [insertions, putInsertLines_eq hc hlines, hagain, ite_self, if_neg (Nat.succ_ne_zero i)]

/-! ## The loop -/

theorem insertLoop_end (h : ¬(getThruEOL stream).2.1 = true) : insertLoop bandwidthLine c new stream = [] := by
  rw [insertLoop, dif_neg h, ite_self]

/-- One line of the loop. -/
theorem insertLoop_found (h : (getThruEOL stream).2.1 = true) : insertLoop bandwidthLine c new stream =
    if (decide (head (getThruEOL stream).1 = mediaType) || new) && decide (head (getThruEOL stream).1 = attributeType) then
      (putInsertLines c).1 ++ putMediaLine bandwidthLine (getThruEOL stream).1 ++
        insertLoop bandwidthLine (putInsertLines c).2 false (getThruEOL stream).2.2
    else
      putMediaLine bandwidthLine (getThruEOL stream).1 ++ insertLoop bandwidthLine c
        (decide (head (getThruEOL stream).1 = mediaType) || new) (getThruEOL stream).2.2 := by
  have hne : stream.length ≠ 0 := by
    have hlt := length_getThruEOL_lt h
    omega
  have hflag : (if head (getThruEOL stream).1 = mediaType then true else new) =
      (decide (head (getThruEOL stream).1 = mediaType) || new) := by
    by_cases hm : head (getThruEOL stream).1 = mediaType <;> simp [hm]
  rw [insertLoop, if_neg hne, dif_pos h]
  dsimp only
  rw [hflag]
  exact if_congr (by simp) rfl rfl

/-- The loop passes over the lines. -/
theorem insertLoop_eq : insertLoop bandwidthLine c new stream =
    putItems (fun line => decide (head line = mediaType)) (fun line => decide (head line = attributeType))
      (putMediaLine bandwidthLine) (insertions c) new (completeLines stream) := by
  induction stream using lines_induct generalizing c new with
  | hend stream hfound => rw [insertLoop_end hfound, completeLines_not_found hfound, putItems]
  | hline stream hfound ih =>
    rw [insertLoop_found hfound, completeLines_found hfound, putItems, ih, ih]
    rfl

/-- In an accepted text a line that begins with the letter of a type, a visible character, has "=" behind it. -/
theorem separator_of_head {c : UInt8} (hvalid : checkLine line ≠ .invalid) (hc : sWhitespaceMask c = true) (hne : c ≠ 0)
    (hsep : c ≠ nameValueSeparator) : head line = c ↔ [c, nameValueSeparator] <+: line := by
  constructor
  · intro hhead
    cases line with
    | nil => exact absurd hhead.symm hne
    | cons x line =>
      obtain rfl : x = c := hhead
      cases line with
      | nil => simp [checkLine, consumeUntil, expect, hc, hne, hsep] at hvalid
      | cons y line =>
        by_cases hy : y = nameValueSeparator
        · rw [hy]
          exact ⟨line, rfl⟩
        · simp [checkLine, consumeUntil, hc, hne, hsep, hy] at hvalid
  · rintro ⟨rest, rfl⟩
    rfl

/-- **The media part** is the sections with what is put in each of them. -/
theorem mediaHeaders_eq (hclean : Clean stream) : mediaHeaders bandwidthLine (SDP.setSDPBuffer stream) c =
    putSections isAttribute (putMediaLine bandwidthLine) (insertions c) (sections isMedia (rawMedia stream)) := by
  have hraw : mediaHeaders bandwidthLine (SDP.setSDPBuffer stream) c =
      putItems (fun line => decide (head line = mediaType)) (fun line => decide (head line = attributeType))
        (putMediaLine bandwidthLine) (insertions c) true (rawMedia stream) := by
    obtain ⟨-, -, hbind⟩ := findIdx?_spec (fun l : SDPLine => decide (l.getHeaderType = mediaType)) (SDP.parse stream).1
    have hmedia := parse_media hclean
    rw [mediaHeaders, SDP.SDPContainer.findHeaderLineType, SDP.setSDPBuffer, hbind]
    split
    next hnone =>
      rw [hnone] at hmedia
      rw [rawMedia, hmedia, putItems]
    next l hsome =>
      rw [hsome] at hmedia
      rw [rawMedia, insertLoop_eq]
      exact congrArg _ hmedia
  rw [hraw, ← putItems_eq]
  refine putItems_congr fun line hline => ?_
  have hvalid := hclean line ((List.dropWhile_suffix _).subset hline)
  have hmedia := separator_of_head hvalid (c := mediaType) (by decide) (by decide) (by decide)
  have hattribute := separator_of_head hvalid (c := attributeType) (by decide) (by decide) (by decide)
  exact ⟨decide_eq_decide.2 hmedia, decide_eq_decide.2 hattribute⟩

end Container

/-! ## When the lines fit -/

section Fits

variable {c : Container} {line first stream : List UInt8} {lines rest : List (List UInt8)} {cursor : Nat}
  {bandwidthLine : List UInt8 → List UInt8}

theorem length_le_withEOL (line : List UInt8) : line.length ≤ (withEOL line).length := by
  rw [withEOL]
  split
  · exact Nat.le_refl _
  · rw [List.length_append]
    exact Nat.le_add_right ..

theorem two_le_withEOL (line : List UInt8) : 2 ≤ (withEOL line).length := by
  rw [withEOL]
  split
  next h => exact h.length_le
  next =>
    rw [List.length_append]
    exact Nat.le_add_left ..

theorem suffix_of_length (h : (withEOL line).length ≤ line.length) : sEOL <:+ line := by
  by_contra hnot
  rw [withEOL, if_neg hnot, List.length_append] at h
  exact absurd h (by simp [sEOL])

theorem length_flatten_le (lines : List (List UInt8)) : lines.flatten.length ≤ (lines.flatMap withEOL).length := by
  induction lines with
  | nil => exact Nat.le_refl _
  | cons line lines ih =>
    have hline := length_le_withEOL line
    rw [List.flatten_cons, List.flatMap_cons, List.length_append, List.length_append]
    omega

theorem two_mul_length_le (lines : List (List UInt8)) : 2 * lines.length ≤ (lines.flatMap withEOL).length := by
  induction lines with
  | nil => exact Nat.le_refl _
  | cons line lines ih =>
    have hline := two_le_withEOL line
    rw [List.flatMap_cons, List.length_append, List.length_cons]
    omega

/-- Lines without ends of their own are too short. -/
theorem suffix_of_flatten (h : (lines.flatMap withEOL).length ≤ lines.flatten.length) : ∀ line ∈ lines, sEOL <:+ line := by
  induction lines with
  | nil => simp
  | cons line lines ih =>
    have hline := length_le_withEOL line
    have hlines := length_flatten_le lines
    rw [List.flatten_cons, List.flatMap_cons, List.length_append, List.length_append] at h
    exact List.forall_mem_cons.2 ⟨suffix_of_length (by omega), ih (by omega)⟩

theorem flatMap_withEOL (h : ∀ line ∈ lines, sEOL <:+ line) : lines.flatMap withEOL = lines.flatten := by
  rw [List.flatMap_def]
  refine congrArg List.flatten ((List.map_congr_left fun line hline => ?_).trans (List.map_id lines))
  exact if_pos (h line hline)

theorem length_split (rest : List (List UInt8)) (cursor : Nat) : (rest.flatMap withEOL).length =
    ((rest.take cursor).flatMap withEOL).length + ((rest.drop cursor).flatMap withEOL).length := by
  rw [← List.length_append, ← List.flatMap_append, List.take_append_drop]

theorem length_piece_le : (piece first rest cursor).length ≤ ((first :: rest).flatMap withEOL).length := by
  have hfirst := length_le_withEOL first
  have hrest := length_flatten_le (rest.drop cursor)
  rw [piece, List.flatMap_cons, List.length_append, List.length_append, length_split rest cursor]
  omega

/-- Nothing is passed over. -/
theorem drop_eq_self (h : rest = [] ∨ cursor = 0) : rest.drop cursor = rest := by
  rcases h with rfl | rfl
  · exact List.drop_nil
  · rfl

theorem piece_eq (hends : ∀ line ∈ first :: rest, sEOL <:+ line) (h : rest = [] ∨ cursor = 0) :
    piece first rest cursor = (first :: rest).flatMap withEOL := by
  rw [flatMap_withEOL hends, piece, drop_eq_self h]
  rfl

/-- A piece is all there is when the lines have their ends and none is passed over. -/
theorem piece_full_iff : (piece first rest cursor).length = ((first :: rest).flatMap withEOL).length ↔
    (∀ line ∈ first :: rest, sEOL <:+ line) ∧ (rest = [] ∨ cursor = 0) := by
  constructor
  · intro h
    have hfirst := length_le_withEOL first
    have hpassed := two_mul_length_le (rest.take cursor)
    have hrest := length_flatten_le (rest.drop cursor)
    rw [piece, List.flatMap_cons, List.length_append, List.length_append, length_split rest cursor] at h
    rw [List.length_take] at hpassed
    have hnone : rest = [] ∨ cursor = 0 := by
      rw [← List.length_eq_zero_iff]
      omega
    rw [drop_eq_self hnone] at h hrest
    exact ⟨List.forall_mem_cons.2 ⟨suffix_of_length (by omega), suffix_of_flatten (by omega)⟩, hnone⟩
  · rintro ⟨hends, hnone⟩
    rw [piece_eq hends hnone]

/-- What is inserted is all there is, each time. -/
theorem insertions_full_iff {n : Nat} (hc : Sound c) (hlines : insertLines c = first :: rest) :
    (∀ i < n, (insertions c i).length = ((first :: rest).flatMap withEOL).length) ↔
      n = 0 ∨ (∀ line ∈ first :: rest, sEOL <:+ line) ∧ (rest = [] ∨ n = 1 ∧ c.fCurrentLine = 0) := by
  simp only [insertions_eq hc hlines, piece_full_iff]
  have hlen := insertLines_length hc
  rw [hlines, List.length_cons] at hlen
  constructor
  · intro h
    by_cases hn : n = 0
    · exact Or.inl hn
    · obtain ⟨hends, hfirst⟩ := h 0 (Nat.pos_of_ne_zero hn)
      refine Or.inr ⟨hends, ?_⟩
      by_cases hone : n = 1
      · exact hfirst.imp id fun hcur => ⟨hone, hcur⟩
      · -- At the second insertion the cursor is at the end.
        refine Or.inl ((h 1 (by omega)).2.resolve_right ?_)
        rw [if_neg Nat.one_ne_zero]
        omega
  · rintro (rfl | ⟨hends, hrest⟩) i hi
    · exact absurd hi (Nat.not_lt_zero i)
    · refine ⟨hends, hrest.imp id ?_⟩
      rintro ⟨rfl, hcur⟩
      rw [if_pos (Nat.lt_one_iff.1 hi), hcur]

/-- **Inserted lines**: the media part is as it should be exactly when the lines fit. -/
theorem mediaHeaders_inserted_iff (h : (SDP.setSDPBuffer stream).fValid = true) (hc : Sound c)
    (hlines : insertLines c ≠ []) :
    Inserted bandwidthLine stream c (mediaHeaders bandwidthLine (SDP.setSDPBuffer stream) c) ↔ Fits stream c := by
  obtain ⟨first, rest, heq⟩ := List.exists_cons_of_ne_nil hlines
  have hone : (first :: rest).length = 1 ↔ rest = [] := by
    rw [List.length_cons, Nat.add_eq_right, List.length_eq_zero_iff]
  have hcond : Fits stream c ↔ ∀ i < attributeSections stream,
      (insertions c i).length = ((first :: rest).flatMap withEOL).length := by
    rw [insertions_full_iff hc heq, Fits, heq, hone]
  have hle : ∀ i, (insertions c i).length ≤ ((first :: rest).flatMap withEOL).length := by
    intro i
    rw [insertions_eq hc heq]
    exact length_piece_le
  rw [hcond, Inserted, heq, mediaHeaders_eq (clean_of_valid h), ← putSections_const]
  constructor
  · exact fun hsame => full_of_length hle (Nat.le_of_eq (congrArg List.length hsame.symm))
  · intro hfull
    refine putSections_congr fun i hi => ?_
    have hpiece := hfull i hi
    rw [insertions_eq hc heq] at hpiece ⊢
    obtain ⟨hends, hnone⟩ := piece_full_iff.1 hpiece
    exact piece_eq hends hnone

end Fits

/-- The lines "v=0", "m=a" and "a=b". -/
def oneMedium : List UInt8 := [118, 61, 48, 13, 10, 109, 61, 97, 13, 10, 97, 61, 98, 13, 10]

/-- The lines "a=x" and "a=y". -/
def twoAttributes : List UInt8 := [97, 61, 120, 13, 10, 97, 61, 121, 13, 10]

/-- A line that has its end. -/
def ended : SDPLine := ⟨[97, 61, 120, 13, 10], 5⟩

end ToolLib.Common.SDPInsert
