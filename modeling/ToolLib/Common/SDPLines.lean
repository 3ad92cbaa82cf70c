import ToolLib.Base.Selected
import ToolLib.Common.SDPUtils

/-!
# The lines of an SDP text

`completeLines` are the lines of a buffer that have an end, and `text` is a text from lines. When no line is invalid, the
lines that `Parse` adds are those that have a type (`parse_bytes`), and the sorter's two parts come from them:
`getSortedSDPCopy_eq` says what it gives in terms of lines.
-/

namespace ToolLib.Common.SDP

open ToolLib.Base StringParser

/-- The lines of a buffer that have an end. -/
def completeLines (stream : List UInt8) : List (List UInt8) :=
  if stream.length = 0 then []
  else if _h : (getThruEOL stream).2.1 = true then (getThruEOL stream).1 :: completeLines (getThruEOL stream).2.2
  else []
  termination_by stream.length
  decreasing_by exact length_getThruEOL_lt (by assumption)

/-- A text from lines. -/
def text (lines : List (List UInt8)) : List UInt8 := lines.flatMap (· ++ sEOL)

/-- The first character of a line, 0 when it has none. -/
def head (line : List UInt8) : UInt8 := line.headD 0

/-- There is no end of a line in a line. -/
def NoEOL (line : List UInt8) : Prop := ∀ c ∈ line, sEOLMask c = false

/-- No complete line is invalid. -/
def Clean (stream : List UInt8) : Prop := ∀ line ∈ completeLines stream, checkLine line ≠ .invalid

section Lines

variable {stream line : List UInt8} {lines : List (List UInt8)}

theorem completeLines_nil : completeLines [] = [] := by
  rw [completeLines]
  rfl

/-- The first line, when it has an end. -/
theorem completeLines_found (h : (getThruEOL stream).2.1 = true) :
    completeLines stream = (getThruEOL stream).1 :: completeLines (getThruEOL stream).2.2 := by
  have hne : stream.length ≠ 0 := by
    have hlt := length_getThruEOL_lt h
    omega
  rw [completeLines, if_neg hne, dif_pos h]

theorem completeLines_not_found (h : ¬(getThruEOL stream).2.1 = true) : completeLines stream = [] := by
  rw [completeLines, dif_neg h, ite_self]

/-- The rule for the lines of a buffer: the first line, and what is left. -/
theorem lines_induct {P : List UInt8 → Prop} (hend : ∀ stream, ¬(getThruEOL stream).2.1 = true → P stream)
    (hline : ∀ stream, (getThruEOL stream).2.1 = true → P (getThruEOL stream).2.2 → P stream) (stream : List UInt8) :
    P stream := by
  by_cases h : (getThruEOL stream).2.1 = true
  · exact hline stream h (lines_induct hend hline (getThruEOL stream).2.2)
  · exact hend stream h
  termination_by stream.length
  decreasing_by exact length_getThruEOL_lt h

theorem mediaLoop_eq : mediaLoop stream = text (completeLines stream) := by
  induction stream using lines_induct with
  | hend stream h =>
    rw [completeLines_not_found h, mediaLoop, dif_neg h, ite_self]
    rfl
  | hline stream h ih =>
    have hne : stream.length ≠ 0 := by
      have hlt := length_getThruEOL_lt h
      omega
    rw [mediaLoop, if_neg hne, dif_pos h, completeLines_found h, ih]
    rfl

theorem noEOL_takeWhile : NoEOL (getThruEOL stream).1 := by
  intro c hc
  have hc' : c ∈ stream.takeWhile (!sEOLMask ·) := hc
  simpa using List.mem_takeWhile_imp hc'

theorem noEOL_of_mem (h : line ∈ completeLines stream) : NoEOL line := by
  induction stream using lines_induct with
  | hend stream hfound =>
    rw [completeLines_not_found hfound] at h
    cases h
  | hline stream hfound ih =>
    rw [completeLines_found hfound, List.mem_cons] at h
    rcases h with rfl | h
    · exact noEOL_takeWhile
    · exact ih h

/-- A line with its end is read as that line. -/
theorem getThruEOL_line (stream : List UInt8) (h : NoEOL line) :
    getThruEOL (line ++ sEOL ++ stream) = (line, true, stream) := by
  have hline : ∀ c ∈ line, (!sEOLMask c) = true := by simpa [NoEOL] using h
  have htake : (line ++ (sEOL ++ stream)).takeWhile (!sEOLMask ·) = line := by
    rw [List.takeWhile_append_of_pos hline]
    exact List.append_nil line
  have hdrop : (line ++ (sEOL ++ stream)).dropWhile (!sEOLMask ·) = sEOL ++ stream := by
    rw [List.dropWhile_append_of_pos hline]
    rfl
  rw [List.append_assoc, getThruEOL, consumeUntil, htake, hdrop]
  rfl

/-- A text is read as its lines. -/
theorem completeLines_text (stream : List UInt8) (h : ∀ line ∈ lines, NoEOL line) :
    completeLines (text lines ++ stream) = lines ++ completeLines stream := by
  induction lines with
  | nil => rfl
  | cons line lines ih =>
    have hread := getThruEOL_line (text lines ++ stream) (h line List.mem_cons_self)
    have htext : text (line :: lines) ++ stream = line ++ sEOL ++ (text lines ++ stream) := by
      rw [text, List.flatMap_cons, List.append_assoc]
      rfl
    rw [htext, completeLines_found (by rw [hread]), hread, List.cons_append]
    rw [ih fun l hl => h l (List.mem_cons_of_mem _ hl)]

theorem text_append (lines lines' : List (List UInt8)) : text (lines ++ lines') = text lines ++ text lines' :=
  List.flatMap_append

end Lines

/-! ## Parse -/

section Parse

variable {stream : List UInt8} {l : SDPLine}

theorem getHeaderType_eq : l.getHeaderType = head l.bytes := by
  obtain ⟨Ptr, Len⟩ := l
  cases Len with
  | zero => rfl
  | succ n =>
    cases Ptr with
    | nil => rfl
    | cons c Ptr => rfl

theorem bytes_line (h : (getThruEOL stream).2.1 = true) :
    SDPLine.bytes ⟨stream, (getThruEOL stream).1.length⟩ = (getThruEOL stream).1 := by
  obtain ⟨eol, -, hsplit⟩ := getThruEOL_found h
  rw [List.append_assoc] at hsplit
  have htake := congrArg (List.take (getThruEOL stream).1.length) hsplit
  rw [List.take_left] at htake
  exact htake.symm

theorem Clean.first (hclean : Clean stream) (h : (getThruEOL stream).2.1 = true) :
    checkLine (getThruEOL stream).1 ≠ .invalid := by
  refine hclean _ ?_
  rw [completeLines_found h]
  exact List.mem_cons_self

theorem Clean.rest (hclean : Clean stream) (h : (getThruEOL stream).2.1 = true) : Clean (getThruEOL stream).2.2 := by
  intro line hline
  refine hclean line ?_
  rw [completeLines_found h]
  exact List.mem_cons_of_mem _ hline

theorem parse_end (h : ¬(getThruEOL stream).2.1 = true) : parse stream = ([], true) := by
  rw [parse, dif_neg h, ite_self]

/-- One line of `Parse`. -/
theorem parse_found (h : (getThruEOL stream).2.1 = true) : parse stream =
    match checkLine (getThruEOL stream).1 with
    | .skip => parse (getThruEOL stream).2.2
    | .add =>
      (⟨stream, (getThruEOL stream).1.length⟩ :: (parse (getThruEOL stream).2.2).1, (parse (getThruEOL stream).2.2).2)
    | .invalid => ([], false) := by
  have hne : stream.length ≠ 0 := by
    have hlt := length_getThruEOL_lt h
    omega
  rw [parse, if_neg hne]
  refine (dif_pos h).trans ?_
  cases checkLine (getThruEOL stream).1 with
  | skip => rfl
  | add => rfl
  | invalid => rfl

theorem clean_of_valid (h : (setSDPBuffer stream).fValid = true) : Clean stream := by
  have hvalid : (parse stream).2 = true := by
    rw [setSDPBuffer] at h
    simp only [] at h
    split at h
    · cases h
    · exact h
  clear h
  induction stream using lines_induct with
  | hend stream hfound =>
    intro line hline
    rw [completeLines_not_found hfound] at hline
    cases hline
  | hline stream hfound ih =>
    intro line hline
    rw [parse_found hfound] at hvalid
    rw [completeLines_found hfound, List.mem_cons] at hline
    cases hcheck : checkLine (getThruEOL stream).1 with
    | invalid =>
      rw [hcheck] at hvalid
      cases hvalid
    | skip =>
      rw [hcheck] at hvalid
      rcases hline with rfl | hline
      · rw [hcheck]
        simp
      · exact ih hvalid line hline
    | add =>
      rw [hcheck] at hvalid
      rcases hline with rfl | hline
      · rw [hcheck]
        simp
      · exact ih hvalid line hline

/-- The lines that `Parse` adds. -/
theorem parse_bytes (hclean : Clean stream) :
    (parse stream).1.map SDPLine.bytes = (completeLines stream).filter fun line => checkLine line = .add := by
  induction stream using lines_induct with
  | hend stream hfound =>
    rw [completeLines_not_found hfound, parse_end hfound]
    rfl
  | hline stream hfound ih =>
    have hrest := ih (hclean.rest hfound)
    have hfirst := hclean.first hfound
    rw [completeLines_found hfound, parse_found hfound, List.filter_cons]
    cases hcheck : checkLine (getThruEOL stream).1 with
    | invalid => exact absurd hcheck hfirst
    | skip => simpa using hrest
    | add => simpa [bytes_line hfound] using hrest

/-- A line that begins with the type of a medium is not skipped. -/
theorem head_of_skip {line : List UInt8} (h : checkLine line = .skip) : head line ≠ mediaType := by
  rintro hhead
  obtain ⟨c, line, rfl⟩ := List.exists_cons_of_ne_nil (l := line) (by rintro rfl; exact absurd hhead (by decide))
  cases (show c = mediaType from hhead)
  have hdrop : (consumeUntil sWhitespaceMask (mediaType :: line)).2 = mediaType :: line := rfl
  have hnot : ¬((mediaType :: line).length = 0 ∨ (mediaType :: line).headD 0 = 0) := by
    rintro (hlen | hzero)
    · cases hlen
    · exact absurd (show mediaType = 0 from hzero) (by decide)
  rw [checkLine, hdrop] at h
  simp only [] at h
  rw [if_neg hnot] at h
  split at h
  · cases h
  · split at h
    · cases h
    · split at h <;> cases h

/-- Where the lines for the media begin. -/
theorem parse_media (hclean : Clean stream) :
    match ((parse stream).1.dropWhile fun l => !decide (l.getHeaderType = mediaType)).head? with
    | none => (completeLines stream).dropWhile (fun line => !decide (head line = mediaType)) = []
    | some l => completeLines l.Ptr = (completeLines stream).dropWhile fun line => !decide (head line = mediaType) := by
  induction stream using lines_induct with
  | hend stream hfound =>
    rw [completeLines_not_found hfound, parse_end hfound]
    rfl
  | hline stream hfound ih =>
    have hrest := ih (hclean.rest hfound)
    have hfirst := hclean.first hfound
    rw [completeLines_found hfound, parse_found hfound]
    cases hcheck : checkLine (getThruEOL stream).1 with
    | invalid => exact absurd hcheck hfirst
    | skip =>
      rw [List.dropWhile_cons_of_pos (by simp [head_of_skip hcheck])]
      exact hrest
    | add =>
      have htype : SDPLine.getHeaderType ⟨stream, (getThruEOL stream).1.length⟩ = head (getThruEOL stream).1 := by
        rw [getHeaderType_eq, bytes_line hfound]
      by_cases hm : head (getThruEOL stream).1 = mediaType
      · rw [List.dropWhile_cons_of_neg (by simp [htype, hm]), List.dropWhile_cons_of_neg (by simp [hm])]
        exact completeLines_found hfound
      · rw [List.dropWhile_cons_of_pos (by simp [htype, hm]), List.dropWhile_cons_of_pos (by simp [hm])]
        exact hrest

end Parse

/-! ## The sorter -/

/-- The lines in the order of their types, of some types only the first one. -/
def sorted (lines : List (List UInt8)) : List (List UInt8) :=
  byKind head (fun fieldType => decide (fieldType ∈ sessionSingleLines)) sSessionOrderedLines lines

/-- `ValidateSessionHeader`, in terms of the lines put before. -/
def passes (kept : List (List UInt8)) (line : List UInt8) : Bool := validateSessionHeader (text kept) line

/-- The lines that are put. -/
def put (lines : List (List UInt8)) : List (List UInt8) := keeping passes (sorted lines)

/-- The lines before the first one that begins with the type of a medium. -/
def rawSession (stream : List UInt8) : List (List UInt8) :=
  ((completeLines stream).filter fun line => checkLine line = .add).takeWhile fun line => !decide (head line = mediaType)

/-- The lines from there on. -/
def rawMedia (stream : List UInt8) : List (List UInt8) :=
  (completeLines stream).dropWhile fun line => !decide (head line = mediaType)

section Sorter

variable {stream headers line : List UInt8} {lines kept : List (List UInt8)} {fieldType : UInt8}

theorem complete_of_raw (h : line ∈ rawSession stream) : line ∈ completeLines stream :=
  (List.mem_filter.1 ((List.takeWhile_prefix _).subset h)).1

/-- A line is put when it passes. -/
def putLine (fSDPSessionHeaders line : List UInt8) : List UInt8 :=
  if validateSessionHeader fSDPSessionHeaders line then fSDPSessionHeaders ++ line ++ sEOL else fSDPSessionHeaders

theorem putType_eq (ls : List SDPLine) : putType fieldType ls headers =
    (ofKind head (fun t => decide (t ∈ sessionSingleLines)) (ls.map SDPLine.bytes) fieldType).foldl putLine headers := by
  rw [ofKind]
  induction ls generalizing headers with
  | nil =>
    rw [putType]
    split <;> rfl
  | cons l ls ih =>
    rw [putType, List.map_cons, List.filter_cons, getHeaderType_eq]
    by_cases htype : head l.bytes = fieldType
    · rw [if_pos htype, if_pos (decide_eq_true htype)]
      by_cases hsingle : fieldType ∈ sessionSingleLines
      · rw [if_pos hsingle, if_pos (decide_eq_true hsingle)]
        rfl
      · have ih' := @ih (putLine headers l.bytes)
        have hmany : ¬decide (fieldType ∈ sessionSingleLines) = true := by simpa using hsingle
        rw [if_neg hmany] at ih'
        rw [if_neg hsingle, if_neg hmany]
        exact ih'
    · have hother : ¬decide (head l.bytes = fieldType) = true := by simpa using htype
      rw [if_neg htype, if_neg hother]
      exact ih

theorem foldl_putLine : lines.foldl putLine (text kept) =
    text (lines.foldl (fun kept line => if passes kept line then kept ++ [line] else kept) kept) := by
  induction lines generalizing kept with
  | nil => rfl
  | cons line lines ih =>
    rw [List.foldl_cons, List.foldl_cons, ← ih]
    refine congrArg (List.foldl putLine · lines) ?_
    rw [putLine, passes]
    split
    · rw [text_append, List.append_assoc, text, text]
      simp
    · rfl

/-- What is put, as lines. -/
theorem sessionHeaders_eq (ls : List SDPLine) : sessionHeaders ls = text (put (ls.map SDPLine.bytes)) := by
  have htype : (fun headers fieldType => putType fieldType ls headers) = fun headers fieldType =>
      (ofKind head (fun t => decide (t ∈ sessionSingleLines)) (ls.map SDPLine.bytes) fieldType).foldl putLine headers :=
    funext fun headers => funext fun fieldType => putType_eq ls
  rw [sessionHeaders, htype, ← List.foldl_flatMap]
  exact @foldl_putLine _ []

/-- The first item that satisfies `p`, and those before it. -/
theorem findIdx?_spec {α : Type*} (p : α → Bool) (xs : List α) :
    xs.take ((xs.findIdx? p).getD xs.length) = xs.takeWhile (!p ·) ∧
      (xs.findIdx? p).getD xs.length = (xs.takeWhile (!p ·)).length ∧
      (xs.findIdx? p).bind (xs[·]?) = (xs.dropWhile (!p ·)).head? := by
  induction xs with
  | nil => simp
  | cons x xs ih =>
    rw [List.findIdx?_cons]
    cases hp : p x with
    | true => simp [hp]
    | false =>
      obtain ⟨htake, hlen, hbind⟩ := ih
      rw [List.takeWhile_cons_of_pos (by simp [hp]), List.dropWhile_cons_of_pos (by simp [hp]), ← hbind]
      cases hfind : xs.findIdx? p with
      | none =>
        rw [hfind] at hlen htake
        exact ⟨congrArg (x :: ·) htake, congrArg (· + 1) hlen, rfl⟩
      | some i =>
        rw [hfind] at hlen htake
        exact ⟨congrArg (x :: ·) htake, congrArg (· + 1) hlen, rfl⟩

theorem sessionLineCount_eq (hclean : Clean stream) :
    sessionLineCount (setSDPBuffer stream) = (rawSession stream).length := by
  obtain ⟨-, hlen, -⟩ := findIdx?_spec (fun l : SDPLine => decide (l.getHeaderType = mediaType)) (parse stream).1
  rw [rawSession, ← parse_bytes hclean, List.takeWhile_map, List.length_map]
  refine hlen.trans (congrArg List.length (congrArg (List.takeWhile · _) (funext fun l => ?_)))
  rw [getHeaderType_eq]
  rfl

theorem sessionLines_eq (hclean : Clean stream) :
    ((setSDPBuffer stream).fSDPLineArray.take (sessionLineCount (setSDPBuffer stream))).map SDPLine.bytes =
      rawSession stream := by
  obtain ⟨htake, -, -⟩ := findIdx?_spec (fun l : SDPLine => decide (l.getHeaderType = mediaType)) (parse stream).1
  rw [rawSession, ← parse_bytes hclean, List.takeWhile_map]
  refine congrArg (List.map SDPLine.bytes) (htake.trans (congrArg (List.takeWhile · _) (funext fun l => ?_)))
  rw [getHeaderType_eq]
  rfl

theorem mediaHeaders_eq (hclean : Clean stream) : mediaHeaders (setSDPBuffer stream) = text (rawMedia stream) := by
  obtain ⟨-, -, hbind⟩ := findIdx?_spec (fun l : SDPLine => decide (l.getHeaderType = mediaType)) (parse stream).1
  have hmedia := parse_media hclean
  rw [mediaHeaders, SDPContainer.findHeaderLineType, setSDPBuffer, hbind]
  split
  · rename_i hnone
    rw [hnone] at hmedia
    rw [rawMedia, hmedia]
    rfl
  · rename_i l hsome
    rw [hsome] at hmedia
    rw [rawMedia, mediaLoop_eq]
    exact congrArg text hmedia

/-- **What the sorter gives**, in terms of lines. -/
theorem getSortedSDPCopy_eq (hclean : Clean stream) : getSortedSDPCopy (setSDPBuffer stream) =
    if 32767 < (rawSession stream).length then none
    else some ((text (put (rawSession stream) ++ rawMedia stream)).takeWhile (· ≠ 0)) := by
  rw [getSortedSDPCopy, fullbuffCopy, sessionLines, sessionLineCount_eq hclean]
  split
  · rfl
  · rw [Option.map_some, Option.map_some, sessionHeaders_eq, ← sessionLineCount_eq hclean, sessionLines_eq hclean,
      mediaHeaders_eq hclean, text_append]

end Sorter

end ToolLib.Common.SDP
