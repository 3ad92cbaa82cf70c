import Mathlib.Data.List.TakeWhile
import ToolLib.Common.StringTranslator

/-!
# The dot segments of a URL

While `DecodeURL` writes a path, what is in `ioDest` is a finished part without dot segments and the segment that is being
written, and `numDotChars` is the length of that segment as long as it has dots only (`Walked`). So the path that comes out
has the segments of the decoded source, less the dot segments.

The strip at the end of `DecodeURL` is meant for the path. It is also made when a query has been written after the path,
and then takes the last bytes of the query: `decode_stripped_iff` says when.
-/

namespace ToolLib.Common.StringTranslator

def isDotSegment (seg : List UInt8) : Bool := seg = [dot] || seg = [dot, dot]

/-- No segment between two slashes is a dot segment. -/
def NoDotSegment (path : List UInt8) : Prop := ∀ seg ∈ path.splitOn slash, isDotSegment seg = false

instance (path : List UInt8) : Decidable (NoDotSegment path) :=
  inferInstanceAs (Decidable (∀ seg ∈ path.splitOn slash, isDotSegment seg = false))

/-- There are dots only. -/
def allDots (seg : List UInt8) : Bool := seg.all (· = dot)

section Segments

variable {path seg : List UInt8}

theorem allDots_iff : allDots seg = true ↔ ∀ c ∈ seg, c = dot := by
  simp [allDots]

theorem splitOn_snoc (h : slash ∉ seg) : (path ++ slash :: seg).splitOn slash = path.splitOn slash ++ [seg] := by
  rw [List.splitOn_append_cons_self, List.splitOn_eq_singleton h]

theorem noDotSegment_snoc (h : slash ∉ seg) :
    NoDotSegment (path ++ slash :: seg) ↔ NoDotSegment path ∧ isDotSegment seg = false := by
  simp only [NoDotSegment, splitOn_snoc h, List.forall_mem_append, List.forall_mem_singleton]

theorem isDotSegment_iff : isDotSegment seg = true ↔ (∀ c ∈ seg, c = dot) ∧ 0 < seg.length ∧ seg.length ≤ 2 := by
  rcases seg with _ | ⟨a, _ | ⟨b, _ | ⟨c, seg⟩⟩⟩ <;> simp [isDotSegment]

end Segments

namespace Decoding

/-- `bytes` have been put: the finished part of `ioDest` has their segments without the dot segments, and the last segment is
as it was put. -/
structure Walked (bytes : List UInt8) (d : Decoding) (before path seg : List UInt8) : Prop where
  bytes_eq : bytes = before ++ slash :: seg
  written : d.written = (path ++ slash :: seg).reverse
  no_slash : slash ∉ seg
  splitOn : path.splitOn slash = (before.splitOn slash).filter (!isDotSegment ·)
  dots : d.numDotChars = if allDots seg then seg.length else 0

namespace Walked

variable {bytes before path seg : List UInt8} {d : Decoding} {c : UInt8}

theorem written_eq (h : Walked bytes d before path seg) : d.written = seg.reverse ++ slash :: path.reverse := by
  simp [h.written]

theorem drop (h : Walked bytes d before path seg) : d.written.drop seg.length = slash :: path.reverse := by
  rw [h.written_eq, List.drop_left' (List.length_reverse ..)]

/-- The counter says whether the last segment is a dot segment. -/
theorem dots_iff (h : Walked bytes d before path seg) :
    (d.numDotChars ≤ 2 ∧ 0 < d.numDotChars) ↔ isDotSegment seg = true := by
  rw [isDotSegment_iff, h.dots, ← allDots_iff]
  split
  · rename_i hall
    exact ⟨fun hn => ⟨hall, hn.2, hn.1⟩, fun hn => ⟨hn.2.2, hn.2.1⟩⟩
  · rename_i hall
    exact ⟨fun hn => absurd hn.2 (Nat.lt_irrefl 0), fun hn => absurd hn.1 hall⟩

theorem dots_eq (h : Walked bytes d before path seg) (hd : isDotSegment seg = true) : d.numDotChars = seg.length := by
  rw [h.dots, if_pos (allDots_iff.2 (isDotSegment_iff.1 hd).1)]

/-- The first slash. -/
theorem first : Walked [slash] (Decoding.new.put slash) [] [] [] where
  bytes_eq := rfl
  written := rfl
  no_slash := List.not_mem_nil
  splitOn := rfl
  dots := rfl

/-- A slash ends the segment, and a dot segment is taken back. -/
theorem step_slash (h : Walked bytes d before path seg) :
    ∃ path', Walked (bytes ++ [slash]) (d.put slash) bytes path' [] := by
  by_cases hd : isDotSegment seg = true
  · refine ⟨path, rfl, ?_, List.not_mem_nil, ?_, put_slash_dots⟩
    · have hdrop : d.written.drop (d.numDotChars + 1) = path.reverse := by
        rw [h.dots_eq hd, ← List.drop_drop, h.drop]
        rfl
      rw [put_slash_strip (h.dots_iff.2 hd), hdrop]
      simp
    · rw [h.bytes_eq, splitOn_snoc h.no_slash, List.filter_append, h.splitOn]
      simp [hd]
  · refine ⟨path ++ slash :: seg, rfl, ?_, List.not_mem_nil, ?_, put_slash_dots⟩
    · rw [put_slash_keep fun hn => hd (h.dots_iff.1 hn), h.written]
      simp
    · rw [h.bytes_eq, splitOn_snoc h.no_slash, splitOn_snoc h.no_slash, List.filter_append, h.splitOn]
      simp [hd]

/-- The last byte of the segment is the one before `ioDest`. -/
theorem head? (h : Walked bytes d before path seg) : d.written.head? = some (seg.getLast?.getD slash) := by
  rw [h.written_eq, List.head?_append, List.head?_reverse]
  cases seg.getLast? <;> rfl

/-- A dot is counted after a slash or after dots that are. -/
theorem step_dot (h : Walked bytes d before path seg) : Walked (bytes ++ [dot]) (d.put dot) before path (seg ++ [dot]) where
  bytes_eq := by simp [h.bytes_eq]
  written := by simp [put_dot_written, h.written]
  no_slash := by simpa [h.no_slash] using (by decide : slash ≠ dot)
  splitOn := h.splitOn
  dots := by
    have hall : allDots (seg ++ [dot]) = allDots seg := by
      simp [allDots]
    rw [put_dot_dots, h.dots, h.head?, hall]
    split
    · rename_i hdots
      rcases List.eq_nil_or_concat seg with rfl | ⟨init, last, rfl⟩
      · rfl
      · obtain rfl : last = dot := allDots_iff.1 hdots last (by simp)
        simp
    · rename_i hdots
      have hne : seg ≠ [] := by
        rintro rfl
        exact hdots rfl
      have hlast : seg.getLast?.getD slash ≠ slash := by
        rw [List.getLast?_eq_some_getLast hne]
        exact fun he => h.no_slash (he ▸ List.getLast_mem hne)
      simp [hlast]

/-- Any other byte stops the count. -/
theorem step_char (h : Walked bytes d before path seg) (hs : c ≠ slash) (hd : c ≠ dot) :
    Walked (bytes ++ [c]) (d.put c) before path (seg ++ [c]) where
  bytes_eq := by simp [h.bytes_eq]
  written := by simp [put_char hs hd, h.written]
  no_slash := by simpa [h.no_slash] using hs.symm
  splitOn := h.splitOn
  dots := by
    rw [put_char hs hd, if_neg fun hall => hd (allDots_iff.1 hall c (by simp))]

theorem step (h : Walked bytes d before path seg) :
    ∃ before' path' seg', Walked (bytes ++ [c]) (d.put c) before' path' seg' := by
  by_cases hs : c = slash
  · subst hs
    obtain ⟨path', h'⟩ := h.step_slash
    exact ⟨_, path', _, h'⟩
  · by_cases hd : c = dot
    · subst hd
      exact ⟨_, _, _, h.step_dot⟩
    · exact ⟨_, _, _, h.step_char hs hd⟩

theorem puts {more : List UInt8} (h : Walked bytes d before path seg) :
    ∃ before' path' seg', Walked (bytes ++ more) (d.puts more) before' path' seg' := by
  induction more generalizing bytes d before path seg with
  | nil => exact ⟨before, path, seg, by rwa [List.append_nil]⟩
  | cons c more ih =>
    obtain ⟨before', path', seg', h'⟩ := h.step (c := c)
    rw [← List.singleton_append, ← List.append_assoc]
    exact ih h'

/-- The strip at the end takes back as many bytes as the last segment of the path has, when it is a dot segment. -/
theorem finish_eq (h : Walked bytes d before path seg) (w : List UInt8) :
    ({ d with written := w } : Decoding).finish = (w.drop (if isDotSegment seg then seg.length else 0)).reverse := by
  by_cases hd : isDotSegment seg = true
  · have hle := (h.dots_iff.2 hd).1
    rw [if_pos hd, ← h.dots_eq hd]
    simp only [finish, if_pos hle]
  · rw [if_neg hd, List.drop_zero]
    by_cases hle : d.numDotChars ≤ 2
    · have hzero : d.numDotChars = 0 := by
        by_contra hn
        exact hd (h.dots_iff.1 ⟨hle, Nat.pos_of_ne_zero hn⟩)
      simp only [finish, hzero, Nat.zero_le, if_true, List.drop_zero]
    · simp only [finish, if_neg hle]

/-- The finished part has no dot segments. -/
theorem noDotSegment (h : Walked bytes d before path seg) : NoDotSegment path := by
  intro s hs
  rw [h.splitOn] at hs
  simpa using (List.mem_filter.1 hs).2

theorem getLast? (h : Walked bytes d before path seg) : (bytes.splitOn slash).getLast? = some seg := by
  rw [h.bytes_eq, splitOn_snoc h.no_slash, List.getLast?_concat]

end Walked

/-- A path that starts with a slash, after it has been put. -/
theorem walked_new {bytes : List UInt8} (h : bytes.head? = some slash) :
    ∃ before path seg, Walked bytes (new.puts bytes) before path seg := by
  cases bytes with
  | nil => cases h
  | cons c bytes =>
    cases h
    exact Walked.first.puts

end Decoding

theorem head?_unescape {bytes : List UInt8} (h : bytes.head? = some slash) : (unescape bytes).head? = some slash := by
  cases bytes with
  | nil => cases h
  | cons c bytes =>
    cases h
    rw [unescape_cons (by decide)]
    rfl

/-- What the guard promises: the path has no dot segments, and the query is complete. -/
def Stripped (inSrc out : List UInt8) : Prop :=
  match inSrc.dropWhile (· != queryMark) with
  | [] => NoDotSegment out
  | _ :: query => ∃ path, out = path ++ queryMark :: unescape query ∧ NoDotSegment path

section Strip

variable {inSrc out p q : List UInt8} {inDestLen : Int}

/-- A path alone comes out without dot segments. -/
theorem noDotSegment_of_path (hp : queryMark ∉ p) (h : decodeURL p inDestLen = .ok out) : NoDotSegment out := by
  obtain ⟨hslash, rfl⟩ := decode_eq_of_path hp h
  obtain ⟨before, path, seg, hw⟩ := Decoding.walked_new (head?_unescape hslash)
  rw [hw.finish_eq (Decoding.new.puts (unescape p)).written, hw.written_eq]
  split
  · rw [List.drop_left' (List.length_reverse ..)]
    have hnil : slash ∉ ([] : List UInt8) := List.not_mem_nil
    simpa using (noDotSegment_snoc hnil).2 ⟨hw.noDotSegment, rfl⟩
  · rename_i hd
    simpa using (noDotSegment_snoc hw.no_slash).2 ⟨hw.noDotSegment, by simpa using hd⟩

/-- When the strip takes back bytes of the query, the query is not complete: where its query mark would have to be, there is
the first dot. -/
theorem not_complete {written path path' seg : List UInt8} (hdots : ∀ c ∈ seg, c = dot) (hpos : 0 < seg.length)
    (hw : written = (path ++ slash :: seg).reverse)
    (heq : ((q.reverse ++ queryMark :: written).drop seg.length).reverse = path' ++ queryMark :: q) : False := by
  obtain ⟨seg, rfl⟩ : ∃ seg', seg = dot :: seg' := by
    cases seg with
    | nil => exact absurd hpos (Nat.lt_irrefl 0)
    | cons c seg => exact ⟨seg, by rw [hdots c List.mem_cons_self]⟩
  have hsplit := congrArg List.reverse (List.take_append_drop (dot :: seg).length (q.reverse ++ queryMark :: written))
  rw [List.reverse_append, heq, hw] at hsplit
  have hlen := congrArg List.length hsplit
  simp only [List.length_append, List.length_reverse, List.length_cons, List.length_take] at hlen
  have happ : path' ++ (queryMark :: (q ++ (List.take (dot :: seg).length
      (q.reverse ++ queryMark :: (path ++ slash :: dot :: seg).reverse)).reverse)) =
      (path ++ [slash]) ++ (dot :: (seg ++ queryMark :: q)) := by
    simpa using hsplit
  have hpath : path'.length = (path ++ [slash]).length := by
    simp only [List.length_append, List.length_cons, List.length_nil]
    omega
  have hbad := (List.append_inj happ hpath).2
  cases hbad

/-- With a query after it the path does when its last segment is no dot segment, and the query is complete then too. -/
theorem stripped_of_query (hp : queryMark ∉ p) (h : decodeURL (p ++ queryMark :: q) inDestLen = .ok out) :
    (∃ path, out = path ++ queryMark :: unescape q ∧ NoDotSegment path) ↔
      ∀ seg ∈ ((unescape p).splitOn slash).getLast?, isDotSegment seg = false := by
  obtain ⟨hslash, rfl⟩ := decode_eq_of_query hp h
  obtain ⟨before, path, seg, hw⟩ := Decoding.walked_new (head?_unescape hslash)
  rw [hw.finish_eq, hw.getLast?]
  simp only [Option.mem_def, Option.some.injEq, forall_eq']
  constructor
  · rintro ⟨path', heq, -⟩
    by_contra hd
    rw [Bool.not_eq_false] at hd
    rw [if_pos hd] at heq
    obtain ⟨hdots, hpos, -⟩ := isDotSegment_iff.1 hd
    exact not_complete hdots hpos hw.written heq
  · intro hd
    refine ⟨path ++ slash :: seg, ?_, (noDotSegment_snoc hw.no_slash).2 ⟨hw.noDotSegment, hd⟩⟩
    rw [if_neg (by simp [hd]), hw.written]
    simp

/-- **The guard against dot segments.** It is kept unless a query follows a path that ends in a dot segment. -/
theorem decode_stripped_iff (h : decodeURL inSrc inDestLen = .ok out) :
    Stripped inSrc out ↔ (queryMark ∈ inSrc →
      ∀ seg ∈ ((unescape (inSrc.takeWhile (· != queryMark))).splitOn slash).getLast?, isDotSegment seg = false) := by
  have hp : queryMark ∉ inSrc.takeWhile (· != queryMark) := by
    intro hmem
    simpa using List.mem_takeWhile_imp hmem
  have hsplit := List.takeWhile_append_dropWhile (p := (· != queryMark)) (l := inSrc)
  cases hrest : inSrc.dropWhile (· != queryMark) with
  | nil =>
    rw [hrest, List.append_nil] at hsplit
    have hmem : queryMark ∉ inSrc := by rwa [hsplit] at hp
    rw [Stripped, hrest]
    exact iff_of_true (noDotSegment_of_path hmem h) fun hq => absurd hq hmem
  | cons c query =>
    have hc : c = queryMark := by
      have hhead := List.head?_dropWhile_not (· != queryMark) inSrc
      rw [hrest] at hhead
      simpa using hhead
    subst hc
    rw [hrest] at hsplit
    have hmem : queryMark ∈ inSrc := hsplit ▸ List.mem_append_right _ List.mem_cons_self
    rw [Stripped, hrest]
    rw [← hsplit] at h
    exact (stripped_of_query hp h).trans ⟨fun hd _ => hd, fun hd => hd hmem⟩

theorem decode_stripped_iff_query :
    Stripped [slash, 97, slash, dot, dot, slash, queryMark, dot, dot] [slash, 97, slash, queryMark, dot, dot] ↔
      (queryMark ∈ [slash, 97, slash, dot, dot, slash, queryMark, dot, dot] →
        ∀ seg ∈ ((unescape ([slash, 97, slash, dot, dot, slash, queryMark, dot, dot].takeWhile (· != queryMark))).splitOn
          slash).getLast?, isDotSegment seg = false) :=
  decode_stripped_iff (show decodeURL [slash, 97, slash, dot, dot, slash, queryMark, dot, dot] 9 = .ok _ by decide +kernel)

/-- `/..?abc` gives `/..?a`: the last two bytes of the query are stripped, and the dots stay. -/
theorem dots_before_query :
    decodeURL [slash, dot, dot, queryMark, 97, 98, 99] 9 = .ok [slash, dot, dot, queryMark, 97] ∧
      ¬Stripped [slash, dot, dot, queryMark, 97, 98, 99] [slash, dot, dot, queryMark, 97] := by
  have hrun : decodeURL [slash, dot, dot, queryMark, 97, 98, 99] 9 = .ok [slash, dot, dot, queryMark, 97] := by
    decide +kernel
  refine ⟨hrun, ?_⟩
  rintro ⟨path, heq, -⟩
  have hquery : unescape [97, 98, 99] = [97, 98, 99] := by decide +kernel
  have hlast := congrArg List.getLast? heq
  rw [hquery] at hlast
  simp at hlast

end Strip

end ToolLib.Common.StringTranslator
