import ToolLib.Common.FileCacheHistory

/-!
# One object for several files

`Set` opens another file and leaves the map and the buffers as they are, and `AllocateBufferMap` keeps the map when its
parameters look unchanged. So a `Read` gives the bytes of the file that was opened last as long as the blocks that it goes to
were not brought into the cache by reads of another one, and the map is large enough as long as the file has no more blocks
than the one that was open when the map was made (`reads_last_set`).
-/

namespace ToolLib.Common.FileSource

open ToolLib.Base

namespace OSFileSource

/-- The file of the most recent `Set`; the last call comes first. -/
def lastSet : List Call → Option File
  | [] => none
  | .Set file :: _ => file
  | _ :: past => lastSet past

/-- What there is to read in a file that may not be open. -/
def bytesOf (file : Option File) (inPosition inLength : Nat) : List UInt8 :=
  match file with
  | none => []
  | some f => f.read inPosition inLength

/-- A cached `Read` gives the bytes of the file of the most recent `Set`, or an error when it cannot fill a buffer, and the
map has an entry for every block of the file. -/
def FromLastSet (abi : Abi) (past : List Call) (s : OSFileSource) : Call → Option ReadResult → Prop
  | .Read inPosition inLength fails, r => s.Cached inPosition.toNat inLength.toNat →
    (s.ReadFails (linuxWindows abi) fails inPosition.toNat inLength.toNat ∧ r = some .error ∨
        r = some (.ok (bytesOf (lastSet past) inPosition.toNat inLength.toNat))) ∧
      (s.getBuffIndex (lengthOf (lastSet past)) : Int) ≤ s.getMaxBuffIndex
  | _, _ => True

/-- The call does not change the number of buffers. -/
def Call.Reuses : Call → Prop
  | .IncMaxBuffers => False
  | .DecMaxBuffers => False
  | _ => True

/-- A `Read` goes to the cache while the open file has no more blocks than the one that was open when the map was made. -/
def History.Covers (q : History) : Call → Prop
  | .Read inPosition inLength _ => ∀ g ∈ q.map, q.enabled = true →
    endPosition inPosition.toNat inLength.toNat / g.size ≤ g.made / g.size → lengthOf q.file / g.size ≤ g.made / g.size
  | _ => True

section Reuse

variable {q : History} {s : OSFileSource} {a : Call} {past calls : List Call} {abi : Abi} {pos len fBufferInc : Nat}

/-- The map is large enough. -/
theorem Follows.covers (h : Follows q s) {inPosition : UInt64} {inLength : UInt32} {fails : Nat → Bool}
    (hcached : s.Cached inPosition.toNat inLength.toNat) (hcovers : q.Covers (.Read inPosition inLength fails)) :
    (s.getBuffIndex (lengthOf q.file) : Int) ≤ s.getMaxBuffIndex := by
  have hmap := h.map
  cases hg : q.map with
  | none =>
    rw [hg] at hmap
    have hsome := hcached.1
    rw [hmap] at hsome
    cases hsome
  | some g =>
    rw [hg] at hmap
    obtain ⟨array, hmapped⟩ := hmap
    have hend := hcached.2.2
    simp only [getBuffIndex, getMaxBuffIndex, hmapped.count, hmapped.size] at hend ⊢
    have hblocks := hcovers g hg (h.enabled ▸ hcached.2.1) (by omega)
    omega

theorem call_reuse (h : Follows q s) (hfile : q.file = lastSet past) (ha : a.Reuses)
    (hcurrent : q.Allows abi a ∧ q.Covers a) :
    ∃ s' r, call (linuxWindows abi) s a = some (s', r) ∧ FromLastSet abi past s a r ∧ Follows (q.step a) s' ∧
      (q.step a).file = lastSet (a :: past) := by
  cases a with
  | IncMaxBuffers | DecMaxBuffers => cases ha
  | Set file =>
    refine ⟨s.set file, none, rfl, trivial, ?_, rfl⟩
    cases file with
    | none => exact h.of_map rfl rfl rfl h.enabled rfl rfl
    | some f => exact h.of_map rfl rfl rfl h.enabled rfl rfl
  | EnableFileCache enabled => exact ⟨_, none, rfl, trivial, h.of_map rfl h.file h.length rfl rfl rfl, hfile⟩
  | AllocateFileCache inUnitSizeInK bufferSizeUnits incBuffers inMaxBitRateBuffSizeInBlocks inBitRate =>
    obtain ⟨s', hcall, hfollows⟩ := h.allocate hcurrent.1
    refine ⟨s', none, hcall, trivial, hfollows, ?_⟩
    rw [History.step]
    split <;> exact hfile
  | Read inPosition inLength fails =>
    obtain ⟨s', res, hread, hfollows, hres⟩ := h.read inLength.toNat_lt hcurrent.1
    refine ⟨s', some res, ?_, fun hcached => ⟨?_, ?_⟩, hfollows, hfile⟩
    · rw [call, hread]
      rfl
    · rcases hres with ⟨hcopies, rfl⟩ | ⟨-, ⟨hfails, rfl⟩ | ⟨-, f, hopen, rfl⟩, -⟩
      · rw [if_pos hcached]
        refine Or.inr (congrArg (fun bytes => some (ReadResult.ok bytes)) ?_)
        have hpast : lengthOf q.file ≤ inPosition.toNat :=
          h.length ▸ Nat.le_of_not_lt fun hpos => hcopies ⟨hcached, hpos⟩
        rw [← hfile]
        cases hopen : q.file with
        | none => rfl
        | some f =>
          rw [hopen] at hpast
          have hpast : f.length ≤ inPosition.toNat := hpast
          rw [bytesOf, File.read, Nat.sub_eq_zero_of_le hpast, Nat.min_zero]
          rfl
      · exact Or.inl ⟨hfails, rfl⟩
      · rw [← hfile, hopen]
        exact Or.inr rfl
    · rw [← hfile]
      exact h.covers hcached hcurrent.2

/-- **One object for several files**: every cached `Read` that succeeds gives the bytes of the file of the most recent `Set`,
from a map that is large enough for it, as long as the blocks that it finds in the cache were not read from another file (or
read in vain), and the file has no more blocks than the one that was open when the map was made. -/
theorem reads_last_set (hcalls : ∀ a ∈ calls, a.Reuses)
    (hcurrent : Along History.next (fun q a => q.Allows abi a ∧ q.Covers a) .new calls) :
    Meets (call (linuxWindows abi)) (FromLastSet abi) [] (new fBufferInc) calls := by
  refine meets_of_along_beside (R := fun past s q => Follows q s ∧ q.file = lastSet past) ?_ ⟨follows_new, rfl⟩
    (hcurrent.and_forall hcalls)
  rintro past s q a ⟨hfollows, hfile⟩ ⟨ha, hcurrent⟩
  obtain ⟨s', r, hcall, hmeets, hfollows', hfile'⟩ := call_reuse hfollows hfile ha hcurrent
  exact ⟨s', r, _, hcall, rfl, hmeets, hfollows', hfile'⟩

/-- Two files take turns; no block is read from both. -/
theorem reads_last_set_turns : Meets (call (linuxWindows lp64)) (FromLastSet lp64) [] (new 0)
    (setup twoBlocks 32 1 2 8 0 ++ [.Read 39999 1 fun _ => false, .Set (some (byteFile 66)), .Read 0 1 fun _ => false,
      .Set (some twoBlocks), .Read 39999 1 fun _ => false]) := by
  refine reads_last_set (by simp [setup, Call.Reuses]) ?_
  refine ⟨⟨trivial, trivial⟩, fun q hq => ?_⟩
  cases hq
  refine ⟨⟨Or.inr (by decide), trivial⟩, fun q hq => ?_⟩
  cases hq
  refine ⟨⟨trivial, trivial⟩, fun q hq => ?_⟩
  cases hq
  -- the second block of the first file
  refine ⟨⟨fun r hr => ?_, fun g hg => ?_⟩, fun q hq => ?_⟩
  · cases hr
    exact Or.inr ⟨fun hends => absurd hends (by decide), fun _ => trivial⟩
  · cases hg
    exact fun _ _ => by decide
  cases hq
  refine ⟨⟨trivial, trivial⟩, fun q hq => ?_⟩
  cases hq
  -- the first block of the second file
  refine ⟨⟨fun r hr => ?_, fun g hg => ?_⟩, fun q hq => ?_⟩
  · cases hr
    exact Or.inr ⟨fun hends => absurd hends (by decide), fun _ => trivial⟩
  · cases hg
    exact fun _ _ => by decide
  cases hq
  refine ⟨⟨trivial, trivial⟩, fun q hq => ?_⟩
  cases hq
  -- the block of the first file is still there
  refine ⟨⟨fun r hr => ?_, fun g hg => ?_⟩, fun q hq => trivial⟩
  · cases hr
    exact ⟨Or.inl rfl, fun hends => absurd hends (by decide), fun _ => trivial⟩
  · cases hg
    exact fun _ _ => by decide

/-- The byte of the first file comes back for the second one. -/
theorem old_byte_returned :
    outputs (call (linuxWindows lp64)) (new 0) (setup (byteFile 65) 32 1 1 8 0 ++
        [.Read 0 1 fun _ => false, .Set (some (byteFile 66)), .Read 0 1 fun _ => false]) =
      some [none, none, none, some (.ok [65]), none, some (.ok [65])] ∧
    ¬Meets (call (linuxWindows lp64)) (FromLastSet lp64) [] (new 0) (setup (byteFile 65) 32 1 1 8 0 ++
      [.Read 0 1 fun _ => false, .Set (some (byteFile 66)), .Read 0 1 fun _ => false]) := by
  refine ⟨by decide +kernel, fun h => ?_⟩
  obtain ⟨s, r, hread, hlast⟩ := Meets.last (setup (byteFile 65) 32 1 1 8 0 ++
    [.Read 0 1 fun _ => false, .Set (some (byteFile 66))]) h rfl
  have hr : some (.ok [65]) = r := by
    cases hread
    rfl
  subst hr
  have hbytes := (hlast (by decide)).1
  rcases hbytes with ⟨-, herror⟩ | hbytes
  · cases herror
  · revert hbytes
    decide

end Reuse

end OSFileSource

end ToolLib.Common.FileSource
