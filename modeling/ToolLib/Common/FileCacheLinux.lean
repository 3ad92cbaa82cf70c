import ToolLib.Common.FileCacheReads

/-!
# The file cache of the other library

`FillBuffer` of CommonUtilitiesLib-linux multiplies the index and the size of a block as 32-bit numbers. As long as the last
block of every read begins below 4 GB, every turn is the same in both copies (`turn_linux`), so are the reads (`read_linux`),
and the two give the same; when a block begins at 4 GB or later, it is filled from somewhere else (`linux_agrees_iff`).
-/

namespace ToolLib.Common.FileSource

open ToolLib.Base

namespace OSFileSource

/-- Every block up to the last one of a `Read` is filled from where it begins. -/
def FillsInPlace (p : Platform) (s : OSFileSource) : Call → Prop
  | .Read inPosition inLength _ => s.Copies inPosition.toNat inLength.toNat →
    ∀ i ≤ s.getBuffIndex (endPosition inPosition.toNat inLength.toNat),
      p.startPos i s.fFileMap.fDataBufferSize = i * s.fFileMap.fDataBufferSize
  | _ => True

/-- The block in which a `Read` ends begins below 4 GB. -/
def EndsBelow4GB (s : OSFileSource) : Call → Prop
  | .Read inPosition inLength _ => s.Copies inPosition.toNat inLength.toNat →
    s.getBuffIndex (endPosition inPosition.toNat inLength.toNat) * s.fFileMap.fDataBufferSize < 4294967296
  | _ => True

section Linux

variable {S : Option File → Prop} {s : OSFileSource} {c : Copying} {array : Nat → Option Nat} {f : File} {a : Call}
  {fails : Nat → Bool} {sizeofPointer pos len n i fBufferInc : Nat} {calls : List Call}
  {inUnitSizeInK bufferSizeUnits incBuffers inMaxBitRateBuffSizeInBlocks inBitRate : UInt32}

theorem startPos_linux {size : Nat} (h : i * size < 4294967296) :
    (linux sizeofPointer).startPos i size = (linuxWindows (long32 sizeofPointer)).startPos i size := by
  have h' : i * size < 18446744073709551616 := Nat.lt_trans h (by decide)
  exact (Nat.mod_eq_of_lt h).trans (Nat.mod_eq_of_lt h').symm

/-- Below 4 GB a turn is the same. -/
theorem turn_linux (sizeofPointer : Nat) (fails : Nat → Bool) (hv : Valid S c.source array)
    (hi : c.buffIndex < c.source.fFileMap.fMapArraySize) (hmax : 0 < c.source.fFileMap.fBlockPool.fMaxBuffers)
    (hstart : c.buffIndex * c.source.fFileMap.fDataBufferSize < 4294967296) :
    turn (linux sizeofPointer) fails c = turn (linuxWindows (long32 sizeofPointer)) fails c := by
  obtain ⟨m, array', e, fillBuff, hget, got⟩ := FileMap.getBuffer_spec hv.linked hi hv.small hmax
  have hfill : fillBuffer (linux sizeofPointer) { c.source with fFileMap := m } e c.buffIndex (fails c.buffIndex) =
      fillBuffer (linuxWindows (long32 sizeofPointer)) { c.source with fFileMap := m } e c.buffIndex (fails c.buffIndex) := by
    have hsize : m.fDataBufferSize = c.source.fFileMap.fDataBufferSize := got.alike.size
    rw [fillBuffer, fillBuffer, startPos_linux (hsize ▸ hstart)]
  have hcopy : copyFrom (linux sizeofPointer) = copyFrom (linuxWindows (long32 sizeofPointer)) := rfl
  simp only [turn, fetch, hget, Option.map_some, hfill, hcopy]

/-- The loop is the same when its last block begins below 4 GB. -/
theorem copyLoop_linux (hv : Valid S c.source array) (hfile : c.source.fFile = some f)
    (hmax : 0 < c.source.fFileMap.fBlockPool.fMaxBuffers) (hend : c.buffIndex + n = i + 1)
    (hmap : i < c.source.fFileMap.fMapArraySize) (hS : S (some f)) (hfails : ∀ i, fails i = true → S none)
    (hstart : i * c.source.fFileMap.fDataBufferSize < 4294967296) :
    copyLoop (linux sizeofPointer) fails n c = copyLoop (linuxWindows (long32 sizeofPointer)) fails n c ∧
      ∀ s' r, copyLoop (linuxWindows (long32 sizeofPointer)) fails n c = some (s', r) →
        (∃ array', Valid S s' array') ∧ Same c.source s' := by
  induction n generalizing c array with
  | zero =>
    refine ⟨rfl, fun s' r h => ?_⟩
    cases h
    exact ⟨⟨array, hv⟩, Same.refl _⟩
  | succ n ih =>
    have hle : c.buffIndex * c.source.fFileMap.fDataBufferSize ≤ i * c.source.fFileMap.fDataBufferSize :=
      Nat.mul_le_mul_right _ (by omega)
    have hturn := turn_linux sizeofPointer fails hv (by omega) hmax (Nat.lt_of_le_of_lt hle hstart)
    rw [copyLoop, copyLoop, hturn]
    cases ht : turn (linuxWindows (long32 sizeofPointer)) fails c with
    | none => exact ⟨rfl, by simp⟩
    | some t =>
      have hkeeps := turn_keeps hv hfile (by omega) hmax hS hfails ht
      cases t with
      | done s' r =>
        refine ⟨rfl, fun s'' r' h => ?_⟩
        cases h
        exact hkeeps
      | next c' =>
        obtain ⟨⟨array', hv'⟩, hsame, hindex⟩ := hkeeps
        obtain ⟨heq, hrest⟩ := ih hv' (hsame.file.trans hfile) (hsame.alike.limit ▸ hmax) (by omega)
          (hsame.alike.blocks ▸ hmap) (hsame.alike.size ▸ hstart)
        refine ⟨heq, fun s' r h => ?_⟩
        obtain ⟨hvalid, hsame'⟩ := hrest s' r h
        exact ⟨hvalid, hsame.trans hsame'⟩

/-- A `Read` is the same when the last block that it goes to begins below 4 GB. -/
theorem read_linux (sizeofPointer : Nat) (fails : Nat → Bool) (hv : Valid S s array) (hopen : Opened f s)
    (hmax : 0 < s.fFileMap.fBlockPool.fMaxBuffers)
    (hlen : len < 4294967296) (hS : S (some f)) (hfails : ∀ i, fails i = true → S none)
    (hstart : s.Copies pos len → s.getBuffIndex (endPosition pos len) * s.fFileMap.fDataBufferSize < 4294967296) :
    s.read (linux sizeofPointer) fails pos len = s.read (linuxWindows (long32 sizeofPointer)) fails pos len ∧
      ∀ s' r, s.read (linuxWindows (long32 sizeofPointer)) fails pos len = some (s', r) →
        (∃ array', Valid S s' array') ∧ Same s s' := by
  by_cases hcopies : s.Copies pos len
  · have hpos : pos < f.length := hopen.length ▸ hcopies.2
    obtain ⟨hend, hmap, -⟩ := turns_spec hpos hlen hcopies.1
    have hstart' : (pos + len) / s.fFileMap.fDataBufferSize * s.fFileMap.fDataBufferSize < 4294967296 := by
      have h := hstart hcopies
      rwa [getBuffIndex, endPosition_eq hpos hlen] at h
    rw [read_copies hopen hlen hcopies, read_copies hopen hlen hcopies]
    exact copyLoop_linux (c := s.beginCopy pos len) hv hopen.file hmax hend hmap hS hfails hstart'
  · rw [read_stays hcopies, read_stays hcopies]
    refine ⟨rfl, fun s' r h => ?_⟩
    cases h
    exact ⟨⟨array, hv⟩, Same.refl s⟩

theorem call_linux (hv : Valid (fun _ => True) s array) (hopen : Opened f s)
    (hmax : 0 < s.fFileMap.fBlockPool.fMaxBuffers) (ha : a.IsRead) (hstart : EndsBelow4GB s a) :
    call (linux sizeofPointer) s a = call (linuxWindows (long32 sizeofPointer)) s a ∧
      ∀ s' r, call (linux sizeofPointer) s a = some (s', r) →
        (∃ array', Valid (fun _ => True) s' array') ∧ Opened f s' ∧ 0 < s'.fFileMap.fBlockPool.fMaxBuffers := by
  cases a with
  | Set | AllocateFileCache | EnableFileCache | IncMaxBuffers | DecMaxBuffers => cases ha
  | Read inPosition inLength fails =>
    obtain ⟨heq, hkeeps⟩ := read_linux sizeofPointer fails hv hopen hmax inLength.toNat_lt trivial
      (fun _ _ => trivial) hstart
    rw [call, call, heq]
    refine ⟨rfl, fun s' r hread => ?_⟩
    obtain ⟨⟨s'', r'⟩, hread, hr⟩ := Option.map_eq_some_iff.1 hread
    obtain ⟨hvalid, hsame⟩ := hkeeps s'' r' hread
    cases hr
    exact ⟨hvalid, hopen.same hsame, hsame.alike.limit ▸ hmax⟩

/-- Until the first `Read` there is no difference. -/
theorem run_setup_linux (s : OSFileSource) :
    run (quiet (call (linux sizeofPointer))) s (setup f inUnitSizeInK bufferSizeUnits incBuffers
        inMaxBitRateBuffSizeInBlocks inBitRate) =
      run (quiet (call (linuxWindows (long32 sizeofPointer)))) s (setup f inUnitSizeInK bufferSizeUnits incBuffers
        inMaxBitRateBuffSizeInBlocks inBitRate) := by
  simp only [setup, run, quiet, call, linux, linuxWindows]

theorem fillsInPlace_iff : FillsInPlace (linux sizeofPointer) s a ↔ EndsBelow4GB s a := by
  cases a with
  | Set | AllocateFileCache | EnableFileCache | IncMaxBuffers | DecMaxBuffers => exact Iff.rfl
  | Read inPosition inLength fails =>
    refine forall_congr' fun hcopies => ⟨fun h => ?_, fun h i hi => ?_⟩
    · rw [← h _ (Nat.le_refl _)]
      exact Nat.mod_lt _ (by decide)
    · exact Nat.mod_eq_of_lt (Nat.lt_of_le_of_lt (Nat.mul_le_mul_right _ hi) h)

/-- **The two libraries give the same** in a run of reads, and every block is filled from where it begins, exactly when every
block that is read begins below 4 GB. -/
theorem linux_agrees_iff {s' : OSFileSource}
    (h : run (quiet (call (linux sizeofPointer))) (new fBufferInc) (setup f inUnitSizeInK bufferSizeUnits incBuffers
      inMaxBitRateBuffSizeInBlocks inBitRate) = some s)
    (h' : run (quiet (call (linuxWindows (long32 sizeofPointer)))) (new fBufferInc) (setup f inUnitSizeInK
      bufferSizeUnits incBuffers inMaxBitRateBuffSizeInBlocks inBitRate) = some s') (hcalls : ∀ a ∈ calls, a.IsRead) :
    Along (quiet (call (linux sizeofPointer))) (FillsInPlace (linux sizeofPointer)) s calls ∧
        outputs (call (linux sizeofPointer)) s calls = outputs (call (linuxWindows (long32 sizeofPointer))) s' calls ↔
      Along (quiet (call (linux sizeofPointer))) EndsBelow4GB s calls := by
  have hs : s = s' := by
    rw [run_setup_linux, h'] at h
    exact (Option.some.inj h).symm
  subst hs
  obtain ⟨hv, hopen, hmax⟩ := setup_spec (S := fun _ => True) h
  refine ⟨fun hboth => hboth.1.mono fun _ _ => fillsInPlace_iff.1, fun hbelow => ?_⟩
  refine ⟨hbelow.mono fun _ _ => fillsInPlace_iff.2, ?_⟩
  refine outputs_eq_of_along (I := fun s => (∃ array, Valid (fun _ => True) s array) ∧ Opened f s ∧
    0 < s.fFileMap.fBlockPool.fMaxBuffers) ?_ ⟨⟨_, hv⟩, hopen, hmax⟩ (hbelow.and_forall hcalls)
  rintro s a ⟨⟨array, hv⟩, hopen, hmax⟩ ⟨ha, hstart⟩
  exact call_linux hv hopen hmax ha hstart

/-- Copying one byte from the start of a buffer. -/
theorem copyFrom_byte {p : Platform} {e : Nat} (hsize : 1 < s.fFileMap.fDataBufferSize)
    (hfill : 1 ≤ (s.fFileMap.buffers e).fBufferFillSize) (hpos : c.buffPos = 0) (hleft : c.bytesToCopy = 1) :
    copyFrom p c s e = some (.next ⟨s, c.buffIndex + 1, 0, 0, c.copied ++ [(s.fFileMap.buffers e).fDataBuffer 0]⟩) := by
  have hshort : ¬(c.buffPos = 0 ∧ c.bytesToCopy ≤ s.fFileMap.fDataBufferSize ∧
      (s.fFileMap.buffers e).fBufferFillSize < c.bytesToCopy) := by omega
  have hlen : (if ((s.fFileMap.buffers e).fBufferFillSize : Int) - c.buffPos ≤ c.bytesToCopy then
      ((s.fFileMap.buffers e).fBufferFillSize : Int) - c.buffPos else c.bytesToCopy) = 1 := by
    split <;> omega
  have hcopy : s.memcpy e c.buffPos 1 = some [(s.fFileMap.buffers e).fDataBuffer 0] := by
    rw [memcpy, if_pos (by omega), hpos]
    rfl
  rw [copyFrom]
  simp only []
  rw [if_neg hshort, hlen, if_pos (by omega), hcopy, hleft]
  rfl

/-- The first fetch of a block, with a new map: it is filled from where the platform says. -/
theorem fetch_fresh {p : Platform} (hv : Valid S s fun _ => none) (hfile : s.fFile = some f)
    (hi : i < s.fFileMap.fMapArraySize) (hmax : 0 < s.fFileMap.fBlockPool.fMaxBuffers)
    (hstart : p.startPos i s.fFileMap.fDataBufferSize < f.length) :
    ∃ s' e, fetch p (fun _ => false) s i = some (s', e, true) ∧
      s'.fFileMap.fDataBufferSize = s.fFileMap.fDataBufferSize ∧ 1 ≤ (s'.fFileMap.buffers e).fBufferFillSize ∧
      (s'.fFileMap.buffers e).fDataBuffer 0 = f.byte (p.startPos i s.fFileMap.fDataBufferSize) := by
  have hsmall := f.small
  have hpos := hv.size_pos
  have hlt := hv.size_lt
  obtain ⟨m, array', e, fillBuff, hget, got⟩ := FileMap.getBuffer_spec hv.linked hi hv.small hmax
  have hnew : fillBuff = true := by
    cases fillBuff with
    | true => rfl
    | false =>
      have hnone := (got.found rfl).1
      cases hnone
  have hsize : m.fDataBufferSize = s.fFileMap.fDataBufferSize := got.alike.size
  have hread : ({ s with fFileMap := m } : OSFileSource).readFromPos (p.startPos i m.fDataBufferSize) m.fDataBufferSize =
      .ok (f.read (p.startPos i s.fFileMap.fDataBufferSize) s.fFileMap.fDataBufferSize) := by
    rw [hsize, readFromPos]
    simp only [hfile]
    rw [if_neg]
    rw [length_read]
    omega
  generalize hb : (m.buffers e).filled (f.read (p.startPos i s.fFileMap.fDataBufferSize) s.fFileMap.fDataBufferSize)
    (some f) = b
  have hbuffer : (({ s with fFileMap := m } : OSFileSource).withBuffer e b).fFileMap.buffers e = b :=
    Function.update_self ..
  refine ⟨({ s with fFileMap := m } : OSFileSource).withBuffer e b, e, ?_, hsize, ?_, ?_⟩
  · simp only [fetch, hget, Option.map_some, hnew, if_true, fillBuffer, Bool.false_eq_true, if_false, hread]
    rw [← hb, hfile]
  · rw [hbuffer, ← hb]
    show 1 ≤ (f.read _ _).length
    rw [length_read]
    omega
  · have hmin : 0 < min s.fFileMap.fDataBufferSize (f.length - p.startPos i s.fFileMap.fDataBufferSize) := by omega
    rw [hbuffer]
    simp [← hb, FileBlockBuffer.filled, File.read, List.getD_eq_getElem?_getD, List.getElem?_range hmin]

/-- The first read of the first byte of a block, with a new map. -/
theorem read_fresh_byte {p : Platform} (hv : Valid S s fun _ => none) (hopen : Opened f s)
    (hmax : 0 < s.fFileMap.fBlockPool.fMaxBuffers) (hcopies : s.Copies (i * s.fFileMap.fDataBufferSize) 1)
    (hsize : 1 < s.fFileMap.fDataBufferSize)
    (hstart : p.startPos i s.fFileMap.fDataBufferSize < f.length) : ∃ s',
      s.read p (fun _ => false) (i * s.fFileMap.fDataBufferSize) 1 =
        some (s', .ok [f.byte (p.startPos i s.fFileMap.fDataBufferSize)]) := by
  have hpos : i * s.fFileMap.fDataBufferSize < f.length := hopen.length ▸ hcopies.2
  obtain ⟨hend, hmap, -⟩ := turns_spec hpos (by decide) hcopies.1
  have hfirst : s.getBuffIndex (i * s.fFileMap.fDataBufferSize) = i := Nat.mul_div_cancel _ (Nat.lt_of_succ_lt hsize)
  have hlast : (i * s.fFileMap.fDataBufferSize + 1) / s.fFileMap.fDataBufferSize = i := by
    rw [Nat.mul_comm, Nat.mul_add_div (Nat.lt_of_succ_lt hsize), Nat.div_eq_of_lt hsize, Nat.add_zero]
  have hbegin : s.beginCopy (i * s.fFileMap.fDataBufferSize) 1 = ⟨s, i, 0, 1, []⟩ := by
    rw [beginCopy, hfirst, Nat.sub_self]
    rfl
  rw [hbegin, hlast] at hend
  rw [hlast] at hmap
  have hturns : s.turns (i * s.fFileMap.fDataBufferSize) 1 = 1 := by
    simp only [] at hend
    omega
  obtain ⟨s', e, hfetch, hsize', hfill, hbyte⟩ := fetch_fresh hv hopen.file hmap hmax hstart
  have hcopy := copyFrom_byte (p := p) (c := ⟨s, i, 0, 1, []⟩) (hsize'.symm ▸ hsize) hfill rfl rfl
  rw [hbyte] at hcopy
  have hturn : turn p (fun _ => false) ⟨s, i, 0, 1, []⟩ =
      some (.next ⟨s', i + 1, 0, 0, [f.byte (p.startPos i s.fFileMap.fDataBufferSize)]⟩) := by
    rw [turn, hfetch, Option.bind_some]
    exact hcopy
  refine ⟨s', ?_⟩
  rw [read_copies hopen (by decide) hcopies, hturns, hbegin, copyLoop, hturn]
  rfl

theorem outputs_fresh_byte (p : Platform) (inPosition : UInt64) (i size : Nat) (hv : Valid S s fun _ => none)
    (hopen : Opened f s) (hmax : 0 < s.fFileMap.fBlockPool.fMaxBuffers) (hsize : s.fFileMap.fDataBufferSize = size)
    (hone : 1 < size)
    (hpos : inPosition.toNat = i * size) (hcopies : s.Copies (i * size) 1) (hstart : p.startPos i size < f.length) :
    outputs (call p) s [.Read inPosition 1 fun _ => false] = some [some (.ok [f.byte (p.startPos i size)])] := by
  subst hsize
  obtain ⟨s', hread⟩ := read_fresh_byte hv hopen hmax hcopies hone hstart
  have hcall : call p s (.Read inPosition 1 fun _ => false) =
      some (s', some (.ok [f.byte (p.startPos i s.fFileMap.fDataBufferSize)])) := by
    rw [call, hpos]
    exact congrArg (Option.map _) hread
  rw [outputs, hcall]
  rfl

/-- A file of more than 4 GB: all bytes are 0 but the last one. -/
def bigFile : File := ⟨4294967297, fun i => if i = 4294967296 then 1 else 0, by decide⟩

instance (s : OSFileSource) (a : Call) : Decidable (EndsBelow4GB s a) :=
  match a with
  | .Set _ | .AllocateFileCache .. | .EnableFileCache _ | .IncMaxBuffers | .DecMaxBuffers => isTrue trivial
  | .Read inPosition inLength _ => inferInstanceAs (Decidable (s.Copies inPosition.toNat inLength.toNat →
      s.getBuffIndex (endPosition inPosition.toNat inLength.toNat) * s.fFileMap.fDataBufferSize < 4294967296))

theorem linux_agrees_byte : ∃ s,
    run (quiet (call (linux 4))) (new 0) (setup (byteFile 65) 32 1 1 8 0) = some s ∧
      outputs (call (linux 4)) s [.Read 0 1 fun _ => false, .Read 0 5 fun _ => false] =
        outputs (call (linuxWindows (long32 4))) s [.Read 0 1 fun _ => false, .Read 0 5 fun _ => false] := by
  have hsetup : run (quiet (call (linux 4))) (new 0) (setup (byteFile 65) 32 1 1 8 0) = some _ := rfl
  refine ⟨_, hsetup, ((linux_agrees_iff hsetup rfl ?_).2 (by decide +kernel)).2⟩
  simp [Call.IsRead]

/-- The last byte of the big file is 1, and a read through the other cache gives 0. -/
theorem last_byte_wraps : ∃ s, run (quiet (call (linux 4))) (new 0) (setup bigFile 32 1 1 8 0) = some s ∧
    run (quiet (call (linuxWindows (long32 4)))) (new 0) (setup bigFile 32 1 1 8 0) = some s ∧
      outputs (call (linux 4)) s [.Read 4294967296 1 fun _ => false] = some [some (.ok [0])] ∧
        outputs (call (linuxWindows (long32 4))) s [.Read 4294967296 1 fun _ => false] = some [some (.ok [1])] := by
  have hsetup : run (quiet (call (linux 4))) (new 0) (setup bigFile 32 1 1 8 0) = some _ := rfl
  refine ⟨_, hsetup, rfl, ?_⟩
  obtain ⟨hv, hopen, hmax⟩ := setup_spec (S := fun _ => True) hsetup
  constructor
  · have hread := outputs_fresh_byte (linux 4) 4294967296 131072 32768 hv hopen hmax rfl
      (by decide) (by decide) (by decide) (by decide)
    have hbyte : bigFile.byte ((linux 4).startPos 131072 32768) = 0 := rfl
    rw [hbyte] at hread
    exact hread
  · have hread := outputs_fresh_byte (linuxWindows (long32 4)) 4294967296 131072 32768 hv hopen hmax
      rfl (by decide) (by decide) (by decide) (by decide)
    have hbyte : bigFile.byte ((linuxWindows (long32 4)).startPos 131072 32768) = 1 := rfl
    rw [hbyte] at hread
    exact hread

end Linux

end OSFileSource

end ToolLib.Common.FileSource
