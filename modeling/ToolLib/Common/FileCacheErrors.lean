import ToolLib.Common.FileCacheHistory

/-!
# The block cache after errors

`GetBuffer` puts a buffer into the map before it is filled, and when the read from disk fails, the buffer stays there with a
fill size of 0. A later `Read` finds it and takes it for a block that has nothing in it. As long as no `Read` goes to a block
that has bytes after a read from disk has failed for it, while it is still in the cache, every read gives an error or the bytes
of the file (`reads_after_errors`).
-/

namespace ToolLib.Common.FileSource

open ToolLib.Base

namespace OSFileSource

/-- A `Read` that cannot fill a buffer gives an error, and every `Read` gives an error or the bytes of the file; nothing is
copied that was not asked for. -/
def ErrorOrFile (f : File) (abi : Abi) (_past : List Call) (s : OSFileSource) : Call → Option ReadResult → Prop
  | .Read inPosition inLength fails, r =>
    (s.ReadFails (linuxWindows abi) fails inPosition.toNat inLength.toNat → r = some .error) ∧
      (r = some .error ∨ r = some (.ok (f.read inPosition.toNat inLength.toNat))) ∧
        s.ReadTurns (linuxWindows abi) (Bounded inLength.toNat) fails inPosition.toNat inLength.toNat
  | _, _ => True

section Errors

variable {q : History} {s : OSFileSource} {f : File} {a : Call} {abi : Abi} {fBufferInc : Nat} {calls : List Call}
  {inUnitSizeInK bufferSizeUnits incBuffers inMaxBitRateBuffSizeInBlocks inBitRate : UInt32}

theorem call_errors (past : List Call) (h : Follows q s) (hfile : q.file = some f) (ha : a.IsRead) (hallows : q.Allows abi a) :
    ∃ s' r, call (linuxWindows abi) s a = some (s', r) ∧ ErrorOrFile f abi past s a r ∧ Follows (q.step a) s' ∧
      (q.step a).file = some f := by
  cases a with
  | Set | AllocateFileCache | EnableFileCache | IncMaxBuffers | DecMaxBuffers => cases ha
  | Read inPosition inLength fails =>
    have hopen : Opened f s := ⟨h.file.trans hfile, by rw [h.length, hfile]; rfl⟩
    obtain ⟨s', res, hread, hfollows, hres⟩ := h.read inLength.toNat_lt hallows
    refine ⟨s', some res, ?_, ?_, hfollows, hfile⟩
    · rw [call, hread]
      rfl
    · rcases hres with ⟨hcopies, rfl⟩ | ⟨-, ⟨hfails, rfl⟩ | ⟨hnot, f', hfile', rfl⟩, hturns⟩
      · refine ⟨fun hfails => absurd hfails.1 hcopies, ?_, fun hyes => absurd hyes hcopies⟩
        by_cases hcached : s.Cached inPosition.toNat inLength.toNat
        · have hpast : f.length ≤ inPosition.toNat :=
            hopen.length ▸ Nat.le_of_not_lt fun hpos => hcopies ⟨hcached, hpos⟩
          rw [if_pos hcached, File.read, Nat.sub_eq_zero_of_le hpast, Nat.min_zero]
          exact Or.inr rfl
        · rw [if_neg hcached]
          cases hpos : s.readFromPos inPosition.toNat inLength.toNat with
          | error => exact Or.inl rfl
          | ok bytes => exact Or.inr (by rw [readFromPos_eq hopen hpos])
      · exact ⟨fun _ => rfl, Or.inl rfl, fun _ => hturns⟩
      · cases hfile.symm.trans hfile'
        exact ⟨fun hyes => absurd hyes hnot, Or.inr rfl, fun _ => hturns⟩

/-- **After errors**: in a run of reads in which blocks cannot be read from disk, every read gives an error or the bytes of
the file, as long as no read comes upon a block that has bytes and could not be read from disk, before that block is out of
the cache. -/
theorem reads_after_errors (h : run (quiet (call (linuxWindows abi))) (new fBufferInc) (setup f inUnitSizeInK
      bufferSizeUnits incBuffers inMaxBitRateBuffSizeInBlocks inBitRate) = some s) (hcalls : ∀ a ∈ calls, a.IsRead)
    (hallows : Along History.next (History.Allows abi) ((setup f inUnitSizeInK bufferSizeUnits incBuffers
      inMaxBitRateBuffSizeInBlocks inBitRate).foldl History.step .new) calls) :
    Meets (call (linuxWindows abi)) (ErrorOrFile f abi) [] s calls := by
  have hfile : ((setup f inUnitSizeInK bufferSizeUnits incBuffers inMaxBitRateBuffSizeInBlocks inBitRate).foldl
      History.step .new).file = some f := by
    simp only [setup, List.foldl_cons, List.foldl_nil, History.step]
    split <;> rfl
  refine meets_of_along_beside (R := fun _ s q => Follows q s ∧ q.file = some f) ?_ ⟨follows_setup h, hfile⟩
    (hallows.and_forall hcalls)
  rintro past s q a ⟨hfollows, hfile⟩ ⟨ha, hallows⟩
  obtain ⟨s', r, hcall, hmeets, hfollows', hfile'⟩ := call_errors past hfollows hfile ha hallows
  exact ⟨s', r, _, hcall, rfl, hmeets, hfollows', hfile'⟩

/-- There is one buffer: the first block cannot be read, the second one takes its buffer, and the first one is read again. -/
theorem reads_after_errors_again : ∃ s,
    run (quiet (call (linuxWindows lp64))) (new 0) (setup twoBlocks 32 1 1 8 0) = some s ∧
      Meets (call (linuxWindows lp64)) (ErrorOrFile twoBlocks lp64) [] s
        [.Read 0 1 fun _ => true, .Read 39999 1 fun _ => false, .Read 0 1 fun _ => false] := by
  have hsetup : run (quiet (call (linuxWindows lp64))) (new 0) (setup twoBlocks 32 1 1 8 0) = some _ := rfl
  refine ⟨_, hsetup, reads_after_errors hsetup ?_ ?_⟩
  · simp [Call.IsRead]
  refine ⟨fun r hr => ?_, fun q hq => ?_⟩
  · cases hr
    exact Or.inl rfl
  cases hq
  refine ⟨fun r hr => ?_, fun q hq => ?_⟩
  · cases hr
    exact Or.inr ⟨fun hends => absurd hends (by decide), fun _ => trivial⟩
  cases hq
  refine ⟨fun r hr => ?_, fun q hq => trivial⟩
  cases hr
  exact Or.inr ⟨fun hends => absurd hends (by decide), fun _ => trivial⟩

/-- The first read gives an error, and the same read afterwards gives no bytes and no error, where `unsigned long` has 32
bits. -/
theorem error_then_nothing : ∃ s,
    run (quiet (call (linuxWindows (long32 4)))) (new 0) (setup (byteFile 65) 32 1 1 8 0) = some s ∧
      outputs (call (linuxWindows (long32 4))) s [.Read 0 1 fun _ => true, .Read 0 1 fun _ => false] =
        some [some .error, some (.ok [])] ∧
      ¬Meets (call (linuxWindows (long32 4))) (ErrorOrFile (byteFile 65) (long32 4)) [] s
        [.Read 0 1 fun _ => true, .Read 0 1 fun _ => false] := by
  refine ⟨_, rfl, by decide +kernel, ?_⟩
  rintro ⟨s₁, r₁, h₁, -, s₂, r₂, h₂, ⟨-, hr, -⟩, -⟩
  cases h₁
  have hr₂ : r₂ = some (.ok []) := by
    cases h₂
    rfl
  rw [hr₂] at hr
  revert hr
  decide

end Errors

end OSFileSource

end ToolLib.Common.FileSource
