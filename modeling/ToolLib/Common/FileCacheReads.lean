import ToolLib.Common.FileCache

/-!
# Reads of a file that does not change

A file is opened, a map is allocated and the cache is enabled (`setup`); then come reads, and changes of the number of
buffers. `read_spec` says what one read gives. Without errors, as long as the limit of the pool is not 0 and the assertion at
the end of the file holds, a read gives what `ReadFromPos` gives (`reads_equal_file`).
-/

namespace ToolLib.Common.FileSource

open ToolLib.Base

namespace OSFileSource

/-- The file is open. -/
structure Opened (f : File) (s : OSFileSource) : Prop where
  file : s.fFile = some f
  length : s.fLength = f.length

/-- A `Read` that goes to the cache and does not begin at the end of the file. -/
def Copies (s : OSFileSource) (inPosition inLength : Nat) : Prop := s.Cached inPosition inLength ∧ inPosition < s.fLength

instance (s : OSFileSource) (inPosition inLength : Nat) : Decidable (s.Copies inPosition inLength) :=
  inferInstanceAs (Decidable (_ ∧ _))

/-- `G` holds at every turn of a `Read`. -/
def ReadTurns (p : Platform) (G : Copying → Prop) (fails : Nat → Bool) (s : OSFileSource) (inPosition inLength : Nat) :
    Prop :=
  s.Copies inPosition inLength → EveryTurn p fails G (s.turns inPosition inLength) (s.beginCopy inPosition inLength)

instance (p : Platform) (G : Copying → Prop) [DecidablePred G] (fails : Nat → Bool) (s : OSFileSource)
    (inPosition inLength : Nat) : Decidable (s.ReadTurns p G fails inPosition inLength) :=
  inferInstanceAs (Decidable (_ → _))

/-- A `Read` has to fill a buffer and cannot. -/
def ReadFails (p : Platform) (fails : Nat → Bool) (s : OSFileSource) (inPosition inLength : Nat) : Prop :=
  s.Copies inPosition inLength ∧ FillFails p fails (s.turns inPosition inLength) (s.beginCopy inPosition inLength)

section Read

variable {S : Option File → Prop} {G : Copying → Prop} {s s' : OSFileSource} {array : Nat → Option Nat} {f : File}
  {fails : Nat → Bool} {abi : Abi} {pos len : Nat}

theorem Opened.same (h : Opened f s) (hsame : Same s s') : Opened f s' :=
  ⟨hsame.file.trans h.file, hsame.length.trans h.length⟩

/-- Inside of the file the end of a read is no larger than a `UInt64`. -/
theorem endPosition_eq (hpos : pos < f.length) (hlen : len < 4294967296) : endPosition pos len = pos + len := by
  have hsmall := f.small
  exact Nat.mod_eq_of_lt (by omega)

/-- How the loop begins and ends. -/
theorem turns_spec (hpos : pos < f.length) (hlen : len < 4294967296) (hcached : s.Cached pos len) :
    (s.beginCopy pos len).buffIndex + s.turns pos len = (pos + len) / s.fFileMap.fDataBufferSize + 1 ∧
      (pos + len) / s.fFileMap.fDataBufferSize < s.fFileMap.fMapArraySize ∧
      ¬(s.getBuffIndex (endPosition pos len) < s.getBuffIndex pos ∨
        s.getMaxBuffIndex < s.getBuffIndex (endPosition pos len)) := by
  have hle : pos / s.fFileMap.fDataBufferSize ≤ (pos + len) / s.fFileMap.fDataBufferSize :=
    Nat.div_le_div_right (Nat.le_add_right pos len)
  have hmax := hcached.2.2
  simp only [beginCopy, turns, getBuffIndex, getMaxBuffIndex, endPosition_eq hpos hlen] at hmax ⊢
  omega

/-- A `Read` that copies from the cache. -/
theorem read_copies {p : Platform} (hopen : Opened f s) (hlen : len < 4294967296) (hcopies : s.Copies pos len) :
    s.read p fails pos len = copyLoop p fails (s.turns pos len) (s.beginCopy pos len) := by
  have hpos : pos < f.length := hopen.length ▸ hcopies.2
  rw [read, if_pos hcopies.1, readFromCache, if_neg (Nat.not_le.2 hcopies.2),
    if_neg (turns_spec hpos hlen hcopies.1).2.2]

/-- A `Read` that does not: the cache stays as it is. -/
theorem read_stays {p : Platform} (hcopies : ¬s.Copies pos len) :
    s.read p fails pos len = some (s, if s.Cached pos len then .ok [] else s.readFromPos pos len) := by
  rw [read]
  split
  next hcached =>
    have hpast : s.fLength ≤ pos := Nat.le_of_not_lt fun hpos => hcopies ⟨hcached, hpos⟩
    rw [readFromCache, if_pos hpast]
  next => rfl

/-- The loop at its beginning. -/
theorem beginCopy_midway (hv : Valid S s array) (hopen : Opened f s) (hmax : 0 < s.fFileMap.fBlockPool.fMaxBuffers)
    (hpos : pos < f.length) (hlen : len < 4294967296) (hcached : s.Cached pos len) :
    Midway S f s.fFileMap.fDataBufferSize pos len array (s.beginCopy pos len) := by
  have hfirst : pos / s.fFileMap.fDataBufferSize * s.fFileMap.fDataBufferSize ≤ pos := Nat.div_mul_le_self ..
  have hindex : (s.beginCopy pos len).buffIndex = pos / s.fFileMap.fDataBufferSize := rfl
  have hnone : before f.length s.fFileMap.fDataBufferSize pos len (s.beginCopy pos len).buffIndex = 0 := by
    rw [hindex, before, max_eq_left hfirst]
    omega
  refine ⟨hv, hopen.file, rfl, hmax, (turns_spec hpos hlen hcached).2.1, ?_, rfl, ?_, ?_⟩
  · have hdiv := Nat.lt_mul_div_succ pos hv.size_pos
    rw [hindex, Nat.mul_comm]
    exact hdiv
  · rw [hnone]
    rfl
  · rw [hnone]
    simp [beginCopy, File.read]

/-- **The spec of `Read`**: what comes from the cache is what is in the file, unless a fill fails. -/
theorem read_spec (abi : Abi) (pos len : Nat) (hG : Serves S f G) (hv : Valid S s array) (hopen : Opened f s)
    (hlen : len < 4294967296) (hmax : s.Copies pos len → 0 < s.fFileMap.fBlockPool.fMaxBuffers)
    (hpasses : s.Copies pos len → Passes abi fails s.fLength s.fFileMap.fDataBufferSize pos len G) (hS : S (some f))
    (hfails : ∀ i, fails i = true → S none) (hturns : s.ReadTurns (linuxWindows abi) G fails pos len) :
    ∃ s' array' r, s.read (linuxWindows abi) fails pos len = some (s', r) ∧ Valid S s' array' ∧ Same s s' ∧
      (s.ReadFails (linuxWindows abi) fails pos len ∧ (∃ i, fails i = true) ∧ r = .error ∨
        ¬s.ReadFails (linuxWindows abi) fails pos len ∧
          r = if s.Cached pos len then .ok (f.read pos len) else s.readFromPos pos len) := by
  by_cases hcopies : s.Copies pos len
  · have hpos : pos < f.length := hopen.length ▸ hcopies.2
    rw [read_copies hopen hlen hcopies, if_pos hcopies.1]
    obtain ⟨s', array', r, hloop, hv', hsame, hr⟩ := copyLoop_spec (c := s.beginCopy pos len) abi hG
      (beginCopy_midway hv hopen (hmax hcopies) hpos hlen hcopies.1) hpos (turns_spec hpos hlen hcopies.1).1 hS hfails
      (hopen.length ▸ hpasses hcopies) (hturns hcopies)
    refine ⟨s', array', r, hloop, hv', hsame, ?_⟩
    rcases hr with ⟨hf, hr⟩ | ⟨hf, hr⟩
    · exact Or.inl ⟨⟨hcopies, hf⟩, hr⟩
    · exact Or.inr ⟨fun hf' => hf hf'.2, hr⟩
  · refine ⟨s, array, _, read_stays hcopies, hv, Same.refl s, Or.inr ⟨fun hf => hcopies hf.1, ?_⟩⟩
    split
    next hcached =>
      have hpast : f.length ≤ pos := hopen.length ▸ Nat.le_of_not_lt fun hpos => hcopies ⟨hcached, hpos⟩
      rw [File.read, Nat.sub_eq_zero_of_le hpast, Nat.min_zero]
      rfl
    next => rfl

/-- **The assertion stops a `Read`**. -/
theorem read_asserts (hG : Serves S f G) (hv : Valid S s array) (hopen : Opened f s) (hlen : len < 4294967296)
    (hmax : 0 < s.fFileMap.fBlockPool.fMaxBuffers) (hS : S (some f)) (hfails : ∀ i, fails i = false)
    (hturns : s.ReadTurns (linuxWindows abi) G fails pos len) (hcopies : s.Copies pos len)
    (hread : s.read (linuxWindows abi) fails pos len ≠ none) :
    Asserts abi s.fLength s.fFileMap.fDataBufferSize pos len := by
  intro i hi hends
  by_contra hlarge
  have hpos : pos < f.length := hopen.length ▸ hcopies.2
  have hfirst : pos / s.fFileMap.fDataBufferSize ≤ i := Nat.div_le_of_le_mul (Nat.mul_comm _ i ▸ hends.1)
  rw [hopen.length] at hends hlarge
  refine hread ?_
  rw [read_copies hopen hlen hcopies]
  exact copyLoop_stops hG (beginCopy_midway hv hopen hmax hpos hlen hcopies.1) hpos (turns_spec hpos hlen hcopies.1).1 hS
    hfails (hturns hcopies) ⟨hfirst, hi⟩ hends hlarge

/-- When `Read` does not fail and `ReadFromPos` does not either, they give the same. -/
theorem readFromPos_eq {bytes : List UInt8} (hopen : Opened f s) (h : s.readFromPos pos len = .ok bytes) :
    bytes = f.read pos len := by
  rw [readFromPos, hopen.file] at h
  simp only [] at h
  split at h
  · cases h
  · exact (ReadResult.ok.inj h).symm

end Read

/-! ## Maps -/

section Maps

variable {S : Option File → Prop} {s s' : OSFileSource} {f : File} {m m' : FileMap}
  {sizeofPointer unitK units incBuffers maxBlocks rate fileLen : Nat}

theorem dataBufferSize_lt : FileMap.dataBufferSize units < 4294967295 := by
  rw [FileMap.dataBufferSize, FileBlockPool.kBufferUnitSize]
  omega

/-- A new map. -/
theorem makeMap_valid (hmap : s.fFileMap = m.makeMap units incBuffers fileLen) (hsize : FileMap.dataBufferSize units ≠ 0)
    (hfits : fileLen / FileMap.dataBufferSize units + 1 + 1 < 2147483648) : Valid S s fun _ => none := by
  refine ⟨hmap ▸ FileMap.linked_makeMap, ?_, ?_, ?_, ?_, ?_⟩
  · rw [hmap]
    exact Nat.pos_of_ne_zero hsize
  · rw [hmap]
    exact dataBufferSize_lt
  · rw [hmap]
    exact Nat.lt_of_succ_lt hfits
  · simp
  · simp

end Maps

/-! ## Runs -/

/-- The file is opened, a map is allocated and the cache is enabled. -/
def setup (f : File) (inUnitSizeInK bufferSizeUnits incBuffers inMaxBitRateBuffSizeInBlocks inBitRate : UInt32) :
    List Call :=
  [.Set (some f), .AllocateFileCache inUnitSizeInK bufferSizeUnits incBuffers inMaxBitRateBuffSizeInBlocks inBitRate,
    .EnableFileCache true]

/-- The call is a `Read`, or one that changes the number of buffers; no block fails to be read. -/
def Call.ReadOrResize : Call → Prop
  | .Read _ _ fails => ∀ i, fails i = false
  | .IncMaxBuffers => True
  | .DecMaxBuffers => True
  | _ => False

/-- The call is a `Read`. -/
def Call.IsRead : Call → Prop
  | .Read .. => True
  | _ => False

section Setup

variable {S : Option File → Prop} {p : Platform} {s s' : OSFileSource} {f : File} {fBufferInc : Nat}
  {inUnitSizeInK bufferSizeUnits incBuffers inMaxBitRateBuffSizeInBlocks inBitRate : UInt32}

/-- The state in which the reads begin. -/
theorem setup_spec (h : run (quiet (call p)) (new fBufferInc) (setup f inUnitSizeInK bufferSizeUnits incBuffers
    inMaxBitRateBuffSizeInBlocks inBitRate) = some s) :
    Valid S s (fun _ => none) ∧ Opened f s ∧ 0 < s.fFileMap.fBlockPool.fMaxBuffers := by
  obtain ⟨s₁, h₁, h⟩ := run_cons_eq_some.1 h
  obtain ⟨s₂, h₂, h⟩ := run_cons_eq_some.1 h
  rw [run_one] at h
  cases h₁
  simp only [quiet, call, Option.map_map, Option.map_eq_some_iff] at h₂
  obtain ⟨m, hm, rfl⟩ := h₂
  cases h
  rcases FileMap.allocateBufferMap_eq_some hm with ⟨hkeeps, -⟩ | ⟨units, rfl, hsize, hfits⟩
  · exact absurd hkeeps.1 (by simp [set, new])
  · exact ⟨makeMap_valid rfl hsize hfits, ⟨rfl, rfl⟩, (FileMap.makeMap_queue ..).2.2⟩

end Setup

/-! ## Without errors -/

/-- `Read` gives what `ReadFromPos` gives. -/
def SameAsFile (_past : List Call) (s : OSFileSource) : Call → Option ReadResult → Prop
  | .Read inPosition inLength _, r =>
    ∀ bytes, s.readFromPos inPosition.toNat inLength.toNat = .ok bytes → r = some (.ok bytes)
  | _, _ => True

/-- The limit of the pool is not 0 when buffers are needed, and the assertion at the end of the file holds. -/
def ReadsThrough (abi : Abi) (s : OSFileSource) : Call → Prop
  | .Read inPosition inLength _ => s.Copies inPosition.toNat inLength.toNat → s.fFileMap.fBlockPool.fMaxBuffers ≠ 0 ∧
    Asserts abi s.fLength s.fFileMap.fDataBufferSize inPosition.toNat inLength.toNat
  | _ => True

section NoErrors

variable {S : Option File → Prop} {p : Platform} {s : OSFileSource} {array : Nat → Option Nat} {f : File}
  {fails : Nat → Bool} {abi : Abi} {pos len fBufferInc : Nat} {calls : List Call}
  {inUnitSizeInK bufferSizeUnits incBuffers inMaxBitRateBuffSizeInBlocks inBitRate : UInt32}

/-- When all buffers have come from the file, every buffer in the map is right. -/
theorem serves_file : Serves (· = some f) f fun _ => True := by
  intro c b _ _ _ hsound horigin
  rw [Sound, horigin] at hsound
  exact hsound

/-- Without a buffer a read stops. -/
theorem read_stops (hv : Valid S s array) (hopen : Opened f s) (hlen : len < 4294967296) (hcopies : s.Copies pos len)
    (hzero : s.fFileMap.fBlockPool.fMaxBuffers = 0) : s.read p fails pos len = none := by
  have hpos : pos < f.length := hopen.length ▸ hcopies.2
  have hend := (turns_spec hpos hlen hcopies.1).1
  have hle : pos / s.fFileMap.fDataBufferSize ≤ (pos + len) / s.fFileMap.fDataBufferSize :=
    Nat.div_le_div_right (Nat.le_add_right pos len)
  have hbegin : (s.beginCopy pos len).buffIndex = pos / s.fFileMap.fDataBufferSize := rfl
  obtain ⟨n, hn⟩ : ∃ n, s.turns pos len = n + 1 := ⟨s.turns pos len - 1, by omega⟩
  have hturn : turn p fails (s.beginCopy pos len) = none := by
    rw [turn, fetch, show (s.beginCopy pos len).source = s from rfl, FileMap.getBuffer_none hv.linked hzero]
    rfl
  rw [read_copies hopen hlen hcopies, hn, copyLoop, hturn]

/-- The limit of the pool does not matter for what is in the buffers. -/
theorem Valid.limit (hv : Valid S s array) (fMaxBuffers : Nat) :
    Valid S { s with fFileMap := { s.fFileMap with
      fBlockPool := { s.fFileMap.fBlockPool with fMaxBuffers := fMaxBuffers } } } array :=
  ⟨hv.linked.limit fMaxBuffers, hv.size_pos, hv.size_lt, hv.small, hv.sound, hv.origin⟩

theorem call_resize (hv : Valid S s array) (hopen : Opened f s) {a : Call}
    (ha : a = .IncMaxBuffers ∨ a = .DecMaxBuffers) :
    ∃ s', call p s a = some (s', none) ∧ Valid S s' array ∧ Opened f s' := by
  rcases ha with rfl | rfl
  · exact ⟨_, rfl, hv.limit _, hopen.file, hopen.length⟩
  · obtain ⟨fMaxBuffers, hdec⟩ := s.fFileMap.fBlockPool.decMaxBuffers_eq
    refine ⟨_, rfl, ?_, hopen.file, hopen.length⟩
    rw [hdec]
    exact hv.limit fMaxBuffers

/-- A call without errors. -/
theorem call_spec (hv : Valid (· = some f) s array) (hopen : Opened f s) {a : Call} (ha : a.ReadOrResize)
    (hpool : ReadsThrough abi s a) (past : List Call) : ∃ s' r, call (linuxWindows abi) s a = some (s', r) ∧
      SameAsFile past s a r ∧ (∃ array', Valid (· = some f) s' array') ∧ Opened f s' := by
  cases a with
  | Set | AllocateFileCache | EnableFileCache => cases ha
  | IncMaxBuffers =>
    obtain ⟨s', hcall, hv', hopen'⟩ := call_resize (p := linuxWindows abi) hv hopen (Or.inl rfl)
    exact ⟨s', none, hcall, trivial, ⟨array, hv'⟩, hopen'⟩
  | DecMaxBuffers =>
    obtain ⟨s', hcall, hv', hopen'⟩ := call_resize (p := linuxWindows abi) hv hopen (Or.inr rfl)
    exact ⟨s', none, hcall, trivial, ⟨array, hv'⟩, hopen'⟩
  | Read inPosition inLength fails =>
    have hnot (i : Nat) : ¬fails i = true := by
      rw [ha i]
      exact Bool.false_ne_true
    obtain ⟨s', array', r, hread, hv', hsame, hr⟩ := read_spec abi inPosition.toNat inLength.toNat
      serves_file hv hopen inLength.toNat_lt (fun hcopies => Nat.pos_of_ne_zero (hpool hcopies).1)
      (fun hcopies c _ _ _ hle _ => (hpool hcopies).2 c.buffIndex hle) rfl (fun i hi => absurd hi (hnot i)) fun _ => everyTurn_of_forall fun _ => trivial
    refine ⟨s', some r, ?_, ?_, ⟨array', hv'⟩, hopen.same hsame⟩
    · rw [call, hread]
      rfl
    · intro bytes hbytes
      rcases hr with ⟨-, ⟨i, hi⟩, -⟩ | ⟨-, hr⟩
      · exact absurd hi (hnot i)
      · rw [hr, hbytes, readFromPos_eq hopen hbytes, ite_self]

/-- **Reading through the cache is reading from the file**: in a run of reads without errors and changes of the number of
buffers, every read gives what `ReadFromPos` gives exactly when no read needs a buffer while the limit of the pool is 0, or
comes to the end of the file where the assertion does not hold. -/
theorem reads_equal_file (h : run (quiet (call (linuxWindows abi))) (new fBufferInc) (setup f inUnitSizeInK
      bufferSizeUnits incBuffers inMaxBitRateBuffSizeInBlocks inBitRate) = some s) (hcalls : ∀ a ∈ calls, a.ReadOrResize) :
    Meets (call (linuxWindows abi)) SameAsFile [] s calls ↔
      Along (quiet (call (linuxWindows abi))) (ReadsThrough abi) s calls := by
  obtain ⟨hv, hopen, -⟩ := setup_spec (S := (· = some f)) h
  refine meets_iff_along (I := fun _ s => (∃ array, Valid (· = some f) s array) ∧ Opened f s) ?_ ?_ ⟨⟨_, hv⟩, hopen⟩ hcalls
  · rintro past s a ⟨⟨array, hv⟩, hopen⟩ ha hpool
    exact call_spec hv hopen ha hpool past
  · rintro past s a s' r ⟨⟨array, hv⟩, hopen⟩ ha hcall -
    cases a with
    | Set | AllocateFileCache | EnableFileCache | IncMaxBuffers | DecMaxBuffers => trivial
    | Read inPosition inLength fails =>
      intro hcopies
      have hread : s.read (linuxWindows abi) fails inPosition.toNat inLength.toNat ≠ none := by
        intro hstops
        rw [call, hstops] at hcall
        cases hcall
      have hlimit : s.fFileMap.fBlockPool.fMaxBuffers ≠ 0 := fun hzero =>
        hread (read_stops hv hopen inLength.toNat_lt hcopies hzero)
      exact ⟨hlimit, read_asserts serves_file hv hopen inLength.toNat_lt (Nat.pos_of_ne_zero hlimit) rfl ha
        (fun _ => everyTurn_of_forall fun _ => trivial) hcopies hread⟩

/-- A file with one byte. -/
def byteFile (byte : UInt8) : File := ⟨1, fun _ => byte, by decide⟩

/-- A file with two blocks. -/
def twoBlocks : File := ⟨40000, fun i => if i < 32768 then 65 else 66, by decide⟩

instance (abi : Abi) (s : OSFileSource) (a : Call) : Decidable (ReadsThrough abi s a) :=
  match a with
  | .Set _ | .AllocateFileCache .. | .EnableFileCache _ | .IncMaxBuffers | .DecMaxBuffers => isTrue trivial
  | .Read _ _ _ => inferInstanceAs (Decidable (_ → _ ∧ _))

/-- The last read begins at the end of the file. -/
theorem reads_equal_file_byte : ∃ s,
    run (quiet (call (linuxWindows lp64))) (new 0) (setup (byteFile 65) 32 1 1 8 0) = some s ∧
      Meets (call (linuxWindows lp64)) SameAsFile [] s
        [.Read 0 1 fun _ => false, .IncMaxBuffers, .Read 0 0 fun _ => false, .Read 1 5 fun _ => false] := by
  have hsetup : run (quiet (call (linuxWindows lp64))) (new 0) (setup (byteFile 65) 32 1 1 8 0) = some _ := rfl
  refine ⟨_, hsetup, (reads_equal_file hsetup ?_).2 (by decide +kernel)⟩
  simp [Call.ReadOrResize]

/-- The number of buffers has no bound: adding 2147483648 to 2147483648 leaves none. -/
theorem limit_wraps : ∃ s,
    run (quiet (call (linuxWindows lp64))) (new 0) (setup (byteFile 65) 32 1 2147483648 8 0) = some s ∧
      ¬Meets (call (linuxWindows lp64)) SameAsFile [] s [.IncMaxBuffers, .Read 0 1 fun _ => false] := by
  refine ⟨_, rfl, ?_⟩
  rintro ⟨s₁, r₁, h₁, -, s₂, r₂, h₂, -⟩
  cases h₁
  have hstops : none = some (s₂, r₂) := h₂
  cases hstops

/-- A read past the end of the file stops where `unsigned long` has 64 bits. -/
example : (run (quiet (call (linuxWindows lp64))) (new 0) (setup (byteFile 65) 32 1 1 8 0)).bind (fun s =>
    outputs (call (linuxWindows lp64)) s [.Read 0 5 fun _ => false]) = none := by decide +kernel

end NoErrors

end OSFileSource

end ToolLib.Common.FileSource
