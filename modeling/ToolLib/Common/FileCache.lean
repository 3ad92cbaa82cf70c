import ToolLib.Common.FilePool

/-!
# Reading through the block cache

A buffer is right for a block of a file when it has the bytes that the file has there (`Right`), and every buffer in the map
is right for the file it was filled from, or empty because that failed (`Valid`). When the loop of `ReadFromCache` gets right
buffers only (`Serves`), it copies what a read from the file gives: `Midway` says how far it has come, `turn_spec` is one
turn, and `copyLoop_spec` the whole loop. At the end of the file there is an assertion (`EndsAt`, `Asserts`), which can stop
it (`copyLoop_stops`).
-/

namespace ToolLib.Common.FileSource

/-! ## Files -/

section Files

variable {f : File} {pos n k : Nat}

theorem length_read : (f.read pos n).length = min n (f.length - pos) := by
  simp [File.read]

/-- Reading on. -/
theorem read_append (h : pos + n ≤ f.length) : f.read pos n ++ f.read (pos + n) k = f.read pos (n + k) := by
  have hmin : min (n + k) (f.length - pos) = min n (f.length - pos) + min k (f.length - (pos + n)) := by omega
  have hn : min n (f.length - pos) = n := by omega
  rw [File.read, File.read, File.read, hmin, List.range_add, List.map_append, List.map_map, hn]
  refine congrArg _ (List.map_congr_left fun i _ => ?_)
  exact congrArg f.byte (Nat.add_assoc pos n i)

/-- There is nothing after the end. -/
theorem read_past (h : f.length ≤ pos + n) (hk : n ≤ k) : f.read pos k = f.read pos n := by
  have hmin : min k (f.length - pos) = min n (f.length - pos) := by omega
  rw [File.read, File.read, hmin]

/-- Reading stops at the end. -/
theorem read_past_min (h : n = min k (f.length - pos)) : f.read pos k = f.read pos n := by
  have hmin : min n (f.length - pos) = min k (f.length - pos) := by omega
  rw [File.read, File.read, hmin]

end Files

/-- A buffer has what the file has in the block `i` of size `size`. -/
structure Right (f : File) (size i : Nat) (b : FileBlockBuffer) : Prop where
  fill : b.fBufferFillSize = min size (f.length - i * size)
  data : ∀ k < b.fBufferFillSize, b.fDataBuffer k = f.byte (i * size + k)

/-- A buffer has what its last fill has read. -/
def Sound (size i : Nat) (b : FileBlockBuffer) : Prop :=
  match b.filledFrom with
  | none => b.fBufferFillSize = 0
  | some f => Right f size i b

namespace OSFileSource

/-- The state of an object whose map is allocated; `S` says where its buffers may have been filled from. -/
structure Valid (S : Option File → Prop) (s : OSFileSource) (array : Nat → Option Nat) : Prop where
  linked : s.fFileMap.Linked array
  size_pos : 0 < s.fFileMap.fDataBufferSize
  size_lt : s.fFileMap.fDataBufferSize < 4294967295
  small : s.fFileMap.fMapArraySize < 2147483648
  sound : ∀ i e, array i = some e → Sound s.fFileMap.fDataBufferSize i (s.fFileMap.buffers e)
  origin : ∀ i e, array i = some e → S (s.fFileMap.buffers e).filledFrom

/-- The file and the geometry are the same. -/
structure Same (s s' : OSFileSource) : Prop where
  file : s'.fFile = s.fFile
  length : s'.fLength = s.fLength
  enabled : s'.fCacheEnabled = s.fCacheEnabled
  alike : s.fFileMap.Alike s'.fFileMap

theorem Same.refl (s : OSFileSource) : Same s s := ⟨rfl, rfl, rfl, FileMap.Alike.refl _⟩

theorem Same.trans {s s' s'' : OSFileSource} (h : Same s s') (h' : Same s' s'') : Same s s'' :=
  ⟨h'.file.trans h.file, h'.length.trans h.length, h'.enabled.trans h.enabled, h.alike.trans h'.alike⟩

section Fetch

variable {S : Option File → Prop} {s s' : OSFileSource} {array array' : Nat → Option Nat} {f : File} {e i : Nat}
  {fails : Nat → Bool} {b : FileBlockBuffer} {abi : Abi}

/-- What is read into a buffer is right. -/
theorem right_filled {size : Nat} : Right f size i (b.filled (f.read (i * size) size) (some f)) where
  fill := length_read
  data k hk := by
    have hk : k < (f.read (i * size) size).length := hk
    rw [length_read] at hk
    simp [FileBlockBuffer.filled, File.read, List.getD_eq_getElem?_getD, hk]

/-- Where a block of the map begins, and that it can be read. -/
theorem readFromPos_block (hfile : s.fFile = some f) (hi : i < 2147483648)
    (hsize : s.fFileMap.fDataBufferSize < 4294967295) :
    s.readFromPos ((linuxWindows abi).startPos i s.fFileMap.fDataBufferSize) s.fFileMap.fDataBufferSize =
      .ok (f.read (i * s.fFileMap.fDataBufferSize) s.fFileMap.fDataBufferSize) := by
  have hprod : i * s.fFileMap.fDataBufferSize < 9223372036854775808 := by
    calc i * s.fFileMap.fDataBufferSize
        ≤ 2147483648 * s.fFileMap.fDataBufferSize := Nat.mul_le_mul_right _ (Nat.le_of_lt hi)
      _ < 9223372036854775808 := by omega
  have hstart : (linuxWindows abi).startPos i s.fFileMap.fDataBufferSize = i * s.fFileMap.fDataBufferSize :=
    Nat.mod_eq_of_lt (Nat.lt_trans hprod (by decide))
  have hlen : (f.read (i * s.fFileMap.fDataBufferSize) s.fFileMap.fDataBufferSize).length ≠ 4294967295 := by
    rw [length_read]
    omega
  rw [hstart, readFromPos, hfile]
  exact if_neg fun h => h.elim (Nat.not_le.2 hprod) hlen

/-- `FillBuffer`. -/
theorem fillBuffer_spec (abi : Abi) (hfile : s.fFile = some f) (hi : i < 2147483648) (hsize : s.fFileMap.fDataBufferSize < 4294967295)
    (fail : Bool) : ∃ b', s.fillBuffer (linuxWindows abi) e i fail = (s.withBuffer e b', !fail) ∧
      b'.fArrayIndex = (s.fFileMap.buffers e).fArrayIndex ∧ Sound s.fFileMap.fDataBufferSize i b' ∧
      b'.filledFrom = if fail then none else some f := by
  cases fail with
  | true => exact ⟨_, rfl, rfl, rfl, rfl⟩
  | false =>
    refine ⟨(s.fFileMap.buffers e).filled (f.read (i * s.fFileMap.fDataBufferSize) s.fFileMap.fDataBufferSize) (some f), ?_,
      rfl, right_filled, rfl⟩
    rw [fillBuffer, if_neg Bool.false_ne_true, readFromPos_block hfile hi hsize, hfile]
    rfl

/-- The state after a block has got a buffer that is right for the file it comes from. -/
theorem Valid.place {m : FileMap} {fillBuff : Bool} {b' : FileBlockBuffer} (h : Valid S s array)
    (got : s.fFileMap.Got array i m array' e fillBuff) (hindex : b'.fArrayIndex = (m.buffers e).fArrayIndex)
    (hsound : Sound s.fFileMap.fDataBufferSize i b') (horigin : S b'.filledFrom) :
    Valid S (({ s with fFileMap := m } : OSFileSource).withBuffer e b') array' := by
  have hbuffer (j x : Nat) (hx : array' j = some x) : j = i ∧ Function.update m.buffers e b' x = b' ∨
      array j = some x ∧ Function.update m.buffers e b' x = s.fFileMap.buffers x := by
    by_cases hj : j = i
    · subst hj
      cases got.entry.symm.trans hx
      exact Or.inl ⟨rfl, Function.update_self ..⟩
    · obtain ⟨hold, hsame⟩ := got.others j x hj hx
      have hxe : x ≠ e := by
        rintro rfl
        have hj' := ((got.linked.entry_iff j x).1 hx).2
        have hi' := ((got.linked.entry_iff i x).1 got.entry).2
        exact hj (Int.ofNat.inj (hj'.symm.trans hi'))
      exact Or.inr ⟨hold, (Function.update_of_ne hxe ..).trans hsame⟩
  have hindexes (x : Nat) : (Function.update m.buffers e b' x).fArrayIndex = (m.buffers x).fArrayIndex := by
    by_cases hx : x = e
    · subst hx
      rw [Function.update_self, hindex]
    · rw [Function.update_of_ne hx]
  refine ⟨⟨got.linked.map, got.linked.nodup, got.linked.count, got.linked.fresh, ?_, ?_⟩, ?_, ?_, ?_, ?_, ?_⟩
  · intro x hx
    obtain ⟨k, hk, hxk⟩ := got.linked.bound x hx
    exact ⟨k, hk, (hindexes x).trans hxk⟩
  · intro k x
    exact (got.linked.entry_iff k x).trans (and_congr_right' (by rw [← hindexes x]; rfl))
  · exact got.alike.size ▸ h.size_pos
  · exact got.alike.size ▸ h.size_lt
  · exact got.alike.blocks ▸ h.small
  · intro j x hx
    have hsize : (({ s with fFileMap := m } : OSFileSource).withBuffer e b').fFileMap.fDataBufferSize =
        s.fFileMap.fDataBufferSize := got.alike.size
    have hbuff : (({ s with fFileMap := m } : OSFileSource).withBuffer e b').fFileMap.buffers x =
        Function.update m.buffers e b' x := rfl
    rw [hsize, hbuff]
    rcases hbuffer j x hx with ⟨rfl, hb⟩ | ⟨hold, hb⟩
    · rw [hb]
      exact hsound
    · rw [hb]
      exact h.sound j x hold
  · intro j x hx
    have hbuff : (({ s with fFileMap := m } : OSFileSource).withBuffer e b').fFileMap.buffers x =
        Function.update m.buffers e b' x := rfl
    rw [hbuff]
    rcases hbuffer j x hx with ⟨-, hb⟩ | ⟨hold, hb⟩
    · rw [hb]
      exact horigin
    · rw [hb]
      exact h.origin j x hold

/-- What a block of the map has when it has been fetched: the buffer that `GetBuffer` has found, or one that is right unless
the fill has failed. -/
theorem fetch_spec (abi : Abi) (h : Valid S s array) (hfile : s.fFile = some f) (hi : i < s.fFileMap.fMapArraySize)
    (hpos : 0 < s.fFileMap.fBlockPool.fMaxBuffers) (hS : S (some f)) (hfails : fails i = true → S none) :
    ∃ s' array' e ok, fetch (linuxWindows abi) fails s i = some (s', e, ok) ∧ Valid S s' array' ∧ Same s s' ∧
      ((s.fFileMap.getBuffer i = some (s'.fFileMap, e, false) ∧ ok = true ∧
          Sound s.fFileMap.fDataBufferSize i (s'.fFileMap.buffers e) ∧ S (s'.fFileMap.buffers e).filledFrom) ∨
        ok = !fails i ∧ (ok = true → Right f s'.fFileMap.fDataBufferSize i (s'.fFileMap.buffers e))) := by
  obtain ⟨m, array', e, fillBuff, hget, got⟩ := FileMap.getBuffer_spec h.linked hi h.small hpos
  cases fillBuff with
  | false =>
    obtain ⟨hold, hsame⟩ := got.found rfl
    have hsound : Sound s.fFileMap.fDataBufferSize i (m.buffers e) := hsame ▸ h.sound i e hold
    have horigin : S (m.buffers e).filledFrom := hsame ▸ h.origin i e hold
    have hplace : Valid S (({ s with fFileMap := m } : OSFileSource).withBuffer e (m.buffers e)) array' :=
      h.place got rfl hsound horigin
    refine ⟨{ s with fFileMap := m }, array', e, true, ?_, ?_, ⟨rfl, rfl, rfl, got.alike⟩,
      Or.inl ⟨hget, rfl, hsound, horigin⟩⟩
    · rw [fetch, hget]
      rfl
    · rw [OSFileSource.withBuffer, Function.update_eq_self] at hplace
      exact hplace
  | true =>
    have hsize : m.fDataBufferSize = s.fFileMap.fDataBufferSize := got.alike.size
    obtain ⟨b', hfill, hindex, hsound, horigin⟩ := fillBuffer_spec (s := { s with fFileMap := m }) (e := e) abi hfile
      (Nat.lt_trans hi h.small) (hsize ▸ h.size_lt) (fails i)
    have hsound : Sound m.fDataBufferSize i b' := hsound
    refine ⟨_, array', e, !fails i, ?_, h.place got hindex (hsize ▸ hsound) ?_, ⟨rfl, rfl, rfl, ?_⟩, Or.inr ⟨rfl, ?_⟩⟩
    · rw [fetch, hget, Option.map_some]
      simp only [if_true]
      rw [hfill]
    · rw [horigin]
      split
      · exact hfails (by assumption)
      · exact hS
    · exact ⟨got.alike.size, got.alike.blocks, got.alike.units, got.alike.limit, got.alike.inc⟩
    · intro hok
      have hnot : fails i = false := by simpa using hok
      rw [hnot, if_neg Bool.false_ne_true] at horigin
      rw [Sound, horigin] at hsound
      have hbuff : (({ s with fFileMap := m } : OSFileSource).withBuffer e b').fFileMap.buffers e = b' :=
        Function.update_self ..
      rw [hbuff]
      exact hsound

end Fetch

/-! ## One turn -/

/-- How many bytes of a read of `len` bytes at `pos` are in the file before the block `i`. -/
def before (length size pos len i : Nat) : Nat := min len (min length (max pos (i * size)) - pos)

/-- How many bytes the file has in the block `i`. -/
def blockLength (length size i : Nat) : Nat := min size (length - i * size)

/-- "that's all there is in the file": a read begins with the block `i` when no more than a block is left to copy, and more than
the file has in it. -/
def EndsAt (length size pos len i : Nat) : Prop :=
  pos ≤ i * size ∧ len - before length size pos len i ≤ size ∧
    blockLength length size i < len - before length size pos len i

instance (length size pos len i : Nat) : Decidable (EndsAt length size pos len i) := inferInstanceAs (Decidable (_ ∧ _ ∧ _))

/-- "Assert(buffSize <= (SInt64) kUInt32_Max)" holds at every block of a read. -/
def Asserts (abi : Abi) (length size pos len : Nat) : Prop :=
  ∀ i ≤ (pos + len) / size, EndsAt length size pos len i → (blockLength length size i : Int) ≤ abi.maxLength

instance (abi : Abi) (length size pos len : Nat) : Decidable (Asserts abi length size pos len) :=
  decidable_of_iff (∀ i < (pos + len) / size + 1, EndsAt length size pos len i →
    (blockLength length size i : Int) ≤ abi.maxLength) (forall_congr' fun _ => imp_congr_left Nat.lt_succ_iff)

/-- How far a read of `len` bytes at `pos` has come. -/
structure Progress (f : File) (size pos len : Nat) (c : Copying) : Prop where
  place : c.buffPos = pos - c.buffIndex * size
  left : c.bytesToCopy = (len - before f.length size pos len c.buffIndex : Nat)
  copied : c.copied = f.read pos (before f.length size pos len c.buffIndex)

section Turn

variable {f : File} {s : OSFileSource} {c : Copying} {p : Platform} {e size pos len i n buffPos : Nat}

/-- Later blocks have no more bytes. -/
theorem blockLength_le {length j : Nat} (hij : i ≤ j) : blockLength length size j ≤ blockLength length size i := by
  have hmul : i * size ≤ j * size := Nat.mul_le_mul_right size hij
  rw [blockLength, blockLength]
  omega

/-- What comes from the block `i`: `n` bytes, at the place that the read has come to. -/
theorem before_succ {length : Nat} (len : Nat) (hpos : pos < length) (hlt : pos < (i + 1) * size) (hle : i * size ≤ pos + len) :
    ∃ n, before length size pos len (i + 1) = before length size pos len i + n ∧
      (n = len - before length size pos len i ∨
        n < len - before length size pos len i ∧ pos - i * size + n = blockLength length size i) ∧
      pos - i * size + n ≤ blockLength length size i ∧
      (n = 0 ∨ pos + before length size pos len i = i * size + (pos - i * size) ∧
        i * size + (pos - i * size) ≤ length) := by
  have hmul : (i + 1) * size = i * size + size := Nat.succ_mul ..
  rw [blockLength]
  generalize hnext : before length size pos len (i + 1) = next
  rw [before, hmul, max_eq_right (hmul ▸ Nat.le_of_lt hlt)] at hnext
  by_cases hin : i * size ≤ pos
  · have hzero : before length size pos len i = 0 := by
      rw [before, max_eq_left hin]
      omega
    exact ⟨next, by omega, by omega, by omega, by omega⟩
  · by_cases hend : length ≤ i * size
    · have hall : before length size pos len i = next := by
        rw [before]
        omega
      exact ⟨0, by omega, by omega, by omega, by omega⟩
    · have hat : before length size pos len i = i * size - pos := by
        rw [before]
        omega
      exact ⟨next - (i * size - pos), by omega, by omega, by omega, by omega⟩

/-- Copying from a buffer that is right. -/
theorem memcpy_right (hsize : s.fFileMap.fDataBufferSize = size) (hright : Right f size i (s.fFileMap.buffers e))
    (h : buffPos + n ≤ (s.fFileMap.buffers e).fBufferFillSize) :
    s.memcpy e buffPos n = some (f.read (i * size + buffPos) n) := by
  have hfill := hright.fill
  have hbound : 0 ≤ (n : Int) ∧ (buffPos : Int) + n ≤ s.fFileMap.fDataBufferSize := by omega
  have hlen : min n (f.length - (i * size + buffPos)) = n := by omega
  rw [memcpy, if_pos hbound, File.read, hlen, Int.toNat_natCast]
  refine congrArg some (List.map_congr_left fun j hj => ?_)
  have hj := List.mem_range.1 hj
  rw [hright.data (buffPos + j) (by omega), Nat.add_assoc]

/-- The last branch of a turn: `n` bytes are copied, and the loop goes on. -/
theorem copyFrom_goes (hshort : ¬(c.buffPos = 0 ∧ c.bytesToCopy ≤ s.fFileMap.fDataBufferSize ∧
      (s.fFileMap.buffers e).fBufferFillSize < c.bytesToCopy))
    (hlen : (if ((s.fFileMap.buffers e).fBufferFillSize : Int) - c.buffPos ≤ c.bytesToCopy then
      ((s.fFileMap.buffers e).fBufferFillSize : Int) - c.buffPos else c.bytesToCopy) = (n : Nat))
    (hle : n ≤ (s.fFileMap.buffers e).fBufferFillSize) {bytes : List UInt8}
    (hcopy : s.memcpy e c.buffPos n = some bytes) :
    copyFrom p c s e = some (.next ⟨s, c.buffIndex + 1, 0, c.bytesToCopy - n, c.copied ++ bytes⟩) := by
  rw [copyFrom]
  simp only []
  rw [if_neg hshort, hlen, if_pos (by omega), hcopy]
  rfl

/-- When nothing is left to copy, nothing is copied from any buffer. -/
theorem copyFrom_nothing (hc : Progress f size pos len c) (hlt : pos < (c.buffIndex + 1) * size) (hpos : c.buffPos = 0)
    (hleft : c.bytesToCopy = 0) :
    ∃ c', copyFrom p c s e = some (.next c') ∧ Progress f size pos len c' ∧ c'.source = s ∧
      c'.buffIndex = c.buffIndex + 1 := by
  have hzero := hc.left
  have hmul : (c.buffIndex + 1) * size = c.buffIndex * size + size := Nat.succ_mul ..
  have hall : before f.length size pos len (c.buffIndex + 1) = before f.length size pos len c.buffIndex := by
    rw [before] at hzero ⊢
    rw [before]
    omega
  have hcopy : s.memcpy e c.buffPos (0 : Nat) = some [] := by
    rw [memcpy, if_pos (by omega)]
    rfl
  refine ⟨_, copyFrom_goes (n := 0) (by omega) ?_ (Nat.zero_le _) hcopy, ⟨?_, ?_, ?_⟩, rfl, rfl⟩
  · split <;> omega
  · exact (Nat.sub_eq_zero_of_le (Nat.le_of_lt hlt)).symm
  · show c.bytesToCopy - (0 : Nat) = _
    rw [hall]
    omega
  · show c.copied ++ [] = _
    rw [hall, List.append_nil, hc.copied]

/-- "that's all there is in the file" -/
theorem copyFrom_last (hc : Progress f size pos len c) (hpos : pos < f.length) (hle : c.buffIndex * size ≤ pos + len)
    (hsize : s.fFileMap.fDataBufferSize = size) (hright : Right f size c.buffIndex (s.fFileMap.buffers e))
    (hends : EndsAt f.length size pos len c.buffIndex) :
    copyFrom p c s e = if (blockLength f.length size c.buffIndex : Int) ≤ p.maxLength then
      some (.done s (.ok (f.read pos len))) else none := by
  obtain ⟨hstart, hmost, hmore⟩ := hends
  have hfill : (s.fFileMap.buffers e).fBufferFillSize = blockLength f.length size c.buffIndex := hright.fill
  have hplace := hc.place
  have hleft := hc.left
  have hshort : c.buffPos = 0 ∧ c.bytesToCopy ≤ s.fFileMap.fDataBufferSize ∧
      (s.fFileMap.buffers e).fBufferFillSize < c.bytesToCopy := by
    refine ⟨by omega, by omega, ?_⟩
    rw [hfill, hleft]
    exact_mod_cast hmore
  have hcopy : s.memcpy e 0 (s.fFileMap.buffers e).fBufferFillSize =
      some (f.read (c.buffIndex * size + 0) (s.fFileMap.buffers e).fBufferFillSize) :=
    memcpy_right hsize hright (Nat.le_of_eq (Nat.zero_add _))
  have hbytes : c.copied ++ f.read (c.buffIndex * size + 0) (s.fFileMap.buffers e).fBufferFillSize = f.read pos len := by
    rw [hc.copied, hfill]
    by_cases hend : f.length ≤ c.buffIndex * size
    · have hzero : blockLength f.length size c.buffIndex = 0 := by
        rw [blockLength]
        omega
      rw [hzero, read_past (n := before f.length size pos len c.buffIndex) (k := len) ?_ (Nat.min_le_left ..)]
      · simp [File.read]
      · rw [before] at hmore ⊢
        omega
    · have hat : c.buffIndex * size + 0 = pos + before f.length size pos len c.buffIndex := by
        rw [before]
        omega
      rw [hat, read_append (by omega)]
      refine (read_past ?_ (by omega)).symm
      rw [blockLength] at hmore ⊢
      omega
  rw [copyFrom]
  simp only []
  rw [if_pos hshort, hshort.1, hcopy, Option.map_some, hbytes, hfill]

/-- A turn that goes on. -/
theorem copyFrom_next (hc : Progress f size pos len c) (hpos : pos < f.length) (hlt : pos < (c.buffIndex + 1) * size)
    (hle : c.buffIndex * size ≤ pos + len) (hsize : s.fFileMap.fDataBufferSize = size)
    (hright : Right f size c.buffIndex (s.fFileMap.buffers e)) (hends : ¬EndsAt f.length size pos len c.buffIndex) :
    ∃ c', copyFrom p c s e = some (.next c') ∧ Progress f size pos len c' ∧ c'.source = s ∧
      c'.buffIndex = c.buffIndex + 1 := by
  have hfill : (s.fFileMap.buffers e).fBufferFillSize = blockLength f.length size c.buffIndex := hright.fill
  have hplace := hc.place
  have hleft := hc.left
  have hmul : (c.buffIndex + 1) * size = c.buffIndex * size + size := Nat.succ_mul ..
  have hshort : ¬(c.buffPos = 0 ∧ c.bytesToCopy ≤ s.fFileMap.fDataBufferSize ∧
      (s.fFileMap.buffers e).fBufferFillSize < c.bytesToCopy) := by
    rintro ⟨hstart, hmost, hmore⟩
    rw [hfill, hleft] at hmore
    exact hends ⟨by omega, by omega, by exact_mod_cast hmore⟩
  -- `n` bytes come from this buffer
  obtain ⟨n, hnext, hmost, hin, hat⟩ := before_succ len hpos hlt hle
  rw [← hplace] at hmost hin hat
  have hlen : (if ((s.fFileMap.buffers e).fBufferFillSize : Int) - c.buffPos ≤ c.bytesToCopy then
      ((s.fFileMap.buffers e).fBufferFillSize : Int) - c.buffPos else c.bytesToCopy) = n := by
    rw [hfill, hleft]
    split <;> omega
  have hcopy : s.memcpy e c.buffPos n = some (f.read (c.buffIndex * size + c.buffPos) n) :=
    memcpy_right hsize hright (hfill ▸ hin)
  have hbytes : c.copied ++ f.read (c.buffIndex * size + c.buffPos) n =
      f.read pos (before f.length size pos len (c.buffIndex + 1)) := by
    rw [hc.copied, hnext]
    rcases hat with rfl | ⟨hat, hend⟩
    · simp [File.read]
    · rw [← hat, read_append (hat ▸ hend)]
  refine ⟨_, copyFrom_goes hshort hlen (by omega) hcopy, ⟨?_, ?_, hbytes⟩, rfl, rfl⟩
  · exact (Nat.sub_eq_zero_of_le (Nat.le_of_lt hlt)).symm
  · show c.bytesToCopy - n = _
    rw [hnext, hleft]
    omega

end Turn

/-! ## The loop -/

/-- The buffer that a turn finds in the map and copies something from. -/
def served (c : Copying) : Option FileBlockBuffer :=
  if c.buffPos = 0 ∧ c.bytesToCopy = 0 then none
  else (c.source.fFileMap.getBuffer c.buffIndex).bind fun (m, buff, fillBuff) =>
    if fillBuff then none else some (m.buffers buff)

/-- `G` holds at the start of every turn. -/
def EveryTurn (p : Platform) (fails : Nat → Bool) (G : Copying → Prop) : Nat → Copying → Prop
  | 0, _ => True
  | n + 1, c => G c ∧ ∀ c', turn p fails c = some (.next c') → EveryTurn p fails G n c'

/-- Some turn has to fill a buffer and cannot. -/
def FillFails (p : Platform) (fails : Nat → Bool) : Nat → Copying → Prop
  | 0, _ => False
  | n + 1, c => (∃ s buff, fetch p fails c.source c.buffIndex = some (s, buff, false)) ∨
      ∃ c', turn p fails c = some (.next c') ∧ FillFails p fails n c'

instance EveryTurn.decidable (p : Platform) (fails : Nat → Bool) (G : Copying → Prop) [DecidablePred G] :
    ∀ (n : Nat) (c : Copying), Decidable (EveryTurn p fails G n c)
  | 0, _ => isTrue trivial
  | n + 1, c =>
    match h : turn p fails c with
    | some (.next c') =>
      have := EveryTurn.decidable p fails G n c'
      decidable_of_iff (G c ∧ EveryTurn p fails G n c') ⟨fun hG => ⟨hG.1, fun c'' hc => by
        rw [h] at hc
        cases hc
        exact hG.2⟩, fun hG => ⟨hG.1, hG.2 c' h⟩⟩
    | some (.done _ _) => decidable_of_iff (G c) ⟨fun hG => ⟨hG, fun c'' hc => by
        rw [h] at hc
        cases hc⟩, And.left⟩
    | none => decidable_of_iff (G c) ⟨fun hG => ⟨hG, fun c'' hc => by
        rw [h] at hc
        cases hc⟩, And.left⟩

/-- A condition that makes every buffer that is served right for the file. -/
def Serves (S : Option File → Prop) (f : File) (G : Copying → Prop) : Prop :=
  ∀ c b, c.source.fFile = some f → G c → served c = some b → Sound c.source.fFileMap.fDataBufferSize c.buffIndex b →
    S b.filledFrom → Right f c.source.fFileMap.fDataBufferSize c.buffIndex b

/-- A condition that makes the assertion at the end of the file hold. -/
def Passes (abi : Abi) (fails : Nat → Bool) (length size pos len : Nat) (G : Copying → Prop) : Prop :=
  ∀ c s buff, G c → c.buffIndex ≤ (pos + len) / size →
    fetch (linuxWindows abi) fails c.source c.buffIndex = some (s, buff, true) → EndsAt length size pos len c.buffIndex →
    (blockLength length size c.buffIndex : Int) ≤ abi.maxLength

/-- The loop in the middle of a read of `len` bytes at `pos`. -/
structure Midway (S : Option File → Prop) (f : File) (size pos len : Nat) (array : Nat → Option Nat) (c : Copying) : Prop where
  valid : Valid S c.source array
  file : c.source.fFile = some f
  geometry : c.source.fFileMap.fDataBufferSize = size
  limit : 0 < c.source.fFileMap.fBlockPool.fMaxBuffers
  map : (pos + len) / size < c.source.fFileMap.fMapArraySize
  begun : pos < (c.buffIndex + 1) * size
  progress : Progress f size pos len c

section Loop

variable {S : Option File → Prop} {G : Copying → Prop} {s : OSFileSource} {array : Nat → Option Nat} {f : File}
  {c : Copying} {fails : Nat → Bool} {abi : Abi} {size pos len n : Nat}

theorem Midway.same (h : Midway S f size pos len array c) {array' : Nat → Option Nat} {c' : Copying}
    (hv : Valid S c'.source array') (hsame : Same c.source c'.source) (hindex : c'.buffIndex = c.buffIndex + 1)
    (hprogress : Progress f size pos len c') : Midway S f size pos len array' c' where
  valid := hv
  file := hsame.file.trans h.file
  geometry := hsame.alike.size.trans h.geometry
  limit := hsame.alike.limit ▸ h.limit
  map := hsame.alike.blocks ▸ h.map
  begun := by
    have hbegun := h.begun
    rw [hindex, Nat.succ_mul]
    exact Nat.lt_add_right size hbegun
  progress := hprogress

theorem everyTurn_of_forall {p : Platform} (hG : ∀ c, G c) : EveryTurn p fails G n c := by
  induction n generalizing c with
  | zero => trivial
  | succ n ih => exact ⟨hG c, fun _ _ => ih⟩

/-- What one turn does. -/
theorem turn_spec (abi : Abi) (hG : Serves S f G) (h : Midway S f size pos len array c) (hpos : pos < f.length)
    (hle : c.buffIndex ≤ (pos + len) / size) (hS : S (some f)) (hfails : ∀ i, fails i = true → S none) (hturn : G c) :
    ∃ s' array' e ok, fetch (linuxWindows abi) fails c.source c.buffIndex = some (s', e, ok) ∧ Valid S s' array' ∧
      Same c.source s' ∧
      (ok = false ∧ (∃ i, fails i = true) ∧ turn (linuxWindows abi) fails c = some (.done s' .error) ∨
        ok = true ∧ EndsAt f.length size pos len c.buffIndex ∧ turn (linuxWindows abi) fails c =
          (if (blockLength f.length size c.buffIndex : Int) ≤ abi.maxLength then some (.done s' (.ok (f.read pos len)))
            else none) ∨
        ok = true ∧ ¬EndsAt f.length size pos len c.buffIndex ∧ ∃ c', turn (linuxWindows abi) fails c = some (.next c') ∧
          Midway S f size pos len array' c' ∧ c'.source = s' ∧ c'.buffIndex = c.buffIndex + 1) := by
  have hindex := Nat.lt_of_le_of_lt hle h.map
  have hmul : c.buffIndex * size ≤ pos + len := Nat.mul_le_of_le_div _ _ _ hle
  obtain ⟨s', array', e, ok, hfetch, hv', hsame, hbuffer⟩ :=
    fetch_spec abi h.valid h.file hindex h.limit hS (hfails c.buffIndex)
  refine ⟨s', array', e, ok, hfetch, hv', hsame, ?_⟩
  have hsize : s'.fFileMap.fDataBufferSize = size := hsame.alike.size.trans h.geometry
  have hturn' : turn (linuxWindows abi) fails c =
      if ok then copyFrom (linuxWindows abi) c s' e else some (.done s' .error) := by
    rw [turn, hfetch]
    rfl
  have hgoes (c' : Copying) (hprogress : Progress f size pos len c') (hsource : c'.source = s')
      (hnext : c'.buffIndex = c.buffIndex + 1) : Midway S f size pos len array' c' :=
    h.same (hsource ▸ hv') (hsource ▸ hsame) hnext hprogress
  cases ok with
  | false =>
    refine Or.inl ⟨rfl, ⟨c.buffIndex, ?_⟩, hturn'⟩
    rcases hbuffer with ⟨-, hok, -, -⟩ | ⟨hok, -⟩
    · cases hok
    · simpa using hok.symm
  | true =>
    refine Or.inr ?_
    rw [hturn', if_pos rfl]
    have hright : (c.buffPos = 0 ∧ c.bytesToCopy = 0) ∨ Right f size c.buffIndex (s'.fFileMap.buffers e) := by
      rcases hbuffer with ⟨hget, -, hsound, horigin⟩ | ⟨-, hfilled⟩
      · by_cases hnothing : c.buffPos = 0 ∧ c.bytesToCopy = 0
        · exact Or.inl hnothing
        · refine Or.inr (h.geometry ▸ hG c _ h.file hturn ?_ hsound horigin)
          rw [served, if_neg hnothing, hget]
          rfl
      · exact Or.inr (hsize ▸ hfilled rfl)
    rcases hright with ⟨hstart, hleft⟩ | hright
    · obtain ⟨c', hcopy, hprogress, hsource, hnext⟩ :=
        copyFrom_nothing (p := linuxWindows abi) (s := s') (e := e) h.progress h.begun hstart hleft
      refine Or.inr ⟨rfl, fun hends => ?_, c', hcopy, hgoes c' hprogress hsource hnext, hsource, hnext⟩
      have hmore := hends.2.2
      have hzero := h.progress.left
      omega
    · by_cases hends : EndsAt f.length size pos len c.buffIndex
      · exact Or.inl ⟨rfl, hends, copyFrom_last h.progress hpos hmul hsize hright hends⟩
      · obtain ⟨c', hcopy, hprogress, hsource, hnext⟩ := copyFrom_next (p := linuxWindows abi) h.progress hpos h.begun hmul
          hsize hright hends
        exact Or.inr ⟨rfl, hends, c', hcopy, hgoes c' hprogress hsource hnext, hsource, hnext⟩

/-- **What the loop does**: it copies what a read from the file gives, or it fails because a fill has failed. -/
theorem copyLoop_spec (abi : Abi) (hG : Serves S f G) (h : Midway S f size pos len array c) (hpos : pos < f.length)
    (hend : c.buffIndex + n = (pos + len) / size + 1) (hS : S (some f)) (hfails : ∀ i, fails i = true → S none)
    (hpasses : Passes abi fails f.length size pos len G) (hturns : EveryTurn (linuxWindows abi) fails G n c) :
    ∃ s' array' r, copyLoop (linuxWindows abi) fails n c = some (s', r) ∧ Valid S s' array' ∧ Same c.source s' ∧
      (FillFails (linuxWindows abi) fails n c ∧ (∃ i, fails i = true) ∧ r = .error ∨
        ¬FillFails (linuxWindows abi) fails n c ∧ r = .ok (f.read pos len)) := by
  induction n generalizing c array with
  | zero =>
    refine ⟨c.source, array, _, rfl, h.valid, Same.refl _, Or.inr ⟨id, congrArg ReadResult.ok ?_⟩⟩
    have hsize : 0 < size := h.geometry ▸ h.valid.size_pos
    -- the last block that the read goes to is behind
    have hlast : pos + len < c.buffIndex * size := by
      have hdiv := Nat.lt_mul_div_succ (pos + len) hsize
      rw [show c.buffIndex = (pos + len) / size + 1 from hend, Nat.mul_comm]
      exact hdiv
    rw [h.progress.copied]
    refine (read_past_min ?_).symm
    rw [before]
    omega
  | succ n ih =>
    obtain ⟨s', array', e, ok, hfetch, hv', hsame, hturn⟩ :=
      turn_spec abi hG h hpos (by omega) hS hfails hturns.1
    have hfetched (hf : FillFails (linuxWindows abi) fails (n + 1) c) (hok : ok = true) :
        ∃ c', turn (linuxWindows abi) fails c = some (.next c') ∧ FillFails (linuxWindows abi) fails n c' := by
      rcases hf with ⟨s'', e', hfetch'⟩ | hf
      · rw [hfetch, hok] at hfetch'
        cases hfetch'
      · exact hf
    rcases hturn with ⟨hok, hfail, hturn⟩ | ⟨hok, hends, hturn⟩ | ⟨hok, -, c', hturn, hmidway, rfl, hindex⟩
    · refine ⟨s', array', .error, ?_, hv', hsame, Or.inl ⟨Or.inl ⟨s', e, hok ▸ hfetch⟩, hfail, rfl⟩⟩
      rw [copyLoop, hturn]
    · rw [if_pos (hpasses c s' e hturns.1 (by omega) (hok ▸ hfetch) hends)] at hturn
      refine ⟨s', array', _, ?_, hv', hsame, Or.inr ⟨fun hf => ?_, rfl⟩⟩
      · rw [copyLoop, hturn]
      · obtain ⟨c', hturn', -⟩ := hfetched hf hok
        rw [hturn] at hturn'
        cases hturn'
    · obtain ⟨s'', array'', r, hloop, hv'', hsame', hr⟩ := ih hmidway (by omega) (hturns.2 c' hturn)
      refine ⟨s'', array'', r, ?_, hv'', hsame.trans hsame', ?_⟩
      · rw [copyLoop, hturn]
        exact hloop
      · rcases hr with ⟨hf, hfail, hr⟩ | ⟨hf, hr⟩
        · exact Or.inl ⟨Or.inr ⟨c', hturn, hf⟩, hfail, hr⟩
        · refine Or.inr ⟨fun hf' => ?_, hr⟩
          obtain ⟨c'', hturn', hf''⟩ := hfetched hf' hok
          rw [hturn] at hturn'
          cases hturn'
          exact hf hf''

/-- **The assertion stops the loop**, when no fill fails before. -/
theorem copyLoop_stops (hG : Serves S f G) (h : Midway S f size pos len array c) (hpos : pos < f.length)
    (hend : c.buffIndex + n = (pos + len) / size + 1) (hS : S (some f)) (hfails : ∀ i, fails i = false)
    (hturns : EveryTurn (linuxWindows abi) fails G n c) {i : Nat} (hi : c.buffIndex ≤ i ∧ i ≤ (pos + len) / size)
    (hends : EndsAt f.length size pos len i) (hlarge : ¬(blockLength f.length size i : Int) ≤ abi.maxLength) :
    copyLoop (linuxWindows abi) fails n c = none := by
  induction n generalizing c array with
  | zero => omega
  | succ n ih =>
    obtain ⟨s', array', e, ok, -, -, -, hturn⟩ :=
      turn_spec abi hG h hpos (by omega) hS (fun i hi => absurd hi (hfails i ▸ Bool.false_ne_true)) hturns.1
    rcases hturn with ⟨-, ⟨j, hj⟩, -⟩ | ⟨-, -, hturn⟩ | ⟨-, hgoes, c', hturn, hmidway, -, hindex⟩
    · exact absurd hj (hfails j ▸ Bool.false_ne_true)
    · have hless : blockLength f.length size i ≤ blockLength f.length size c.buffIndex := blockLength_le hi.1
      rw [if_neg (by omega)] at hturn
      rw [copyLoop, hturn]
    · have hne : c.buffIndex ≠ i := fun heq => hgoes (heq ▸ hends)
      rw [copyLoop, hturn]
      exact ih hmidway (by omega) (hturns.2 c' hturn) (by omega)

theorem EveryTurn.mono {p : Platform} {H : Copying → Prop} (hGH : ∀ c, G c → H c) (h : EveryTurn p fails G n c) :
    EveryTurn p fails H n c := by
  induction n generalizing c with
  | zero => trivial
  | succ n ih => exact ⟨hGH c h.1, fun c' hturn => ih (h.2 c' hturn)⟩

/-- At every turn it has copied what is in the file, and no more than it was asked for. -/
theorem everyTurn_progress (hG : Serves S f G) (h : Midway S f size pos len array c) (hpos : pos < f.length)
    (hend : c.buffIndex + n = (pos + len) / size + 1) (hS : S (some f)) (hfails : ∀ i, fails i = true → S none)
    (hturns : EveryTurn (linuxWindows abi) fails G n c) :
    EveryTurn (linuxWindows abi) fails (Progress f size pos len) n c := by
  induction n generalizing c array with
  | zero => trivial
  | succ n ih =>
    refine ⟨h.progress, fun c' hnext => ?_⟩
    obtain ⟨s', array', e, ok, -, -, -, hturn⟩ := turn_spec abi hG h hpos (by omega) hS hfails hturns.1
    rcases hturn with ⟨-, -, hturn⟩ | ⟨-, -, hturn⟩ | ⟨-, -, c'', hturn, hmidway, -, hindex⟩
    · rw [hturn] at hnext
      cases hnext
    · rw [hturn] at hnext
      split at hnext <;> cases hnext
    · rw [hturn] at hnext
      cases hnext
      exact ih hmidway (by omega) (hturns.2 _ hturn)

/-- A turn goes on in the state in which it copies, or it is the last one. -/
theorem copyFrom_source {p : Platform} {t : Turn} {e : Nat} (h : copyFrom p c s e = some t) :
    match t with
    | .next c' => c'.source = s ∧ c'.buffIndex = c.buffIndex + 1
    | .done s' _ => s' = s := by
  by_cases hshort : c.buffPos = 0 ∧ c.bytesToCopy ≤ s.fFileMap.fDataBufferSize ∧
      (s.fFileMap.buffers e).fBufferFillSize < c.bytesToCopy
  · rw [copyFrom] at h
    simp only [] at h
    rw [if_pos hshort] at h
    split at h
    · obtain ⟨bytes, -, rfl⟩ := Option.map_eq_some_iff.1 h
      rfl
    · cases h
  · rw [copyFrom] at h
    simp only [] at h
    rw [if_neg hshort] at h
    generalize (if ((s.fFileMap.buffers e).fBufferFillSize : Int) - c.buffPos ≤ c.bytesToCopy then
      ((s.fFileMap.buffers e).fBufferFillSize : Int) - c.buffPos else c.bytesToCopy) = buffCopyLen at h
    split at h
    · obtain ⟨bytes, -, rfl⟩ := Option.map_eq_some_iff.1 h
      exact ⟨rfl, rfl⟩
    · cases h

/-- What every turn keeps, whatever it copies. -/
theorem turn_keeps {t : Turn} (hv : Valid S c.source array) (hfile : c.source.fFile = some f)
    (hi : c.buffIndex < c.source.fFileMap.fMapArraySize) (hmax : 0 < c.source.fFileMap.fBlockPool.fMaxBuffers)
    (hS : S (some f)) (hfails : ∀ i, fails i = true → S none)
    (hturn : turn (linuxWindows abi) fails c = some t) :
    match t with
    | .next c' => (∃ array', Valid S c'.source array') ∧ Same c.source c'.source ∧ c'.buffIndex = c.buffIndex + 1
    | .done s' _ => (∃ array', Valid S s' array') ∧ Same c.source s' := by
  obtain ⟨s', array', e, ok, hfetch, hv', hsame, -⟩ :=
    fetch_spec abi hv hfile hi hmax hS (hfails c.buffIndex)
  rw [turn, hfetch, Option.bind_some] at hturn
  cases ok with
  | false =>
    cases hturn
    exact ⟨⟨array', hv'⟩, hsame⟩
  | true =>
    have hcopy : copyFrom (linuxWindows abi) c s' e = some t := hturn
    cases t with
    | next c' =>
      obtain ⟨hsource, hindex⟩ := copyFrom_source hcopy
      exact ⟨⟨array', hsource ▸ hv'⟩, hsource ▸ hsame, hindex⟩
    | done s'' r =>
      have hsource : s'' = s' := copyFrom_source hcopy
      exact ⟨⟨array', hsource ▸ hv'⟩, hsource ▸ hsame⟩

end Loop

end OSFileSource

end ToolLib.Common.FileSource
