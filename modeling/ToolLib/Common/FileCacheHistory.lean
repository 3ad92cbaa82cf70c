import ToolLib.Common.FileBlocks
import ToolLib.Common.FileCacheReads

/-!
# What the calls say about the block cache

Which blocks are in the cache, and which file each of them was read from, follows from the calls alone (`History`): the blocks
that reads go to come into the cache, and when it is full the least recently used one goes. The buffers of the queue are
these blocks, in the same order (`Follows`). So a condition on the calls tells that a read comes upon no buffer that is wrong
for the open file (`Unspoiled`), and `read_follows` says what the read gives then.
-/

namespace ToolLib.Common.FileSource

open ToolLib.Base FileMap FileBlocks

/-- The blocks in a cache, the least recently used one first, with the file that each was read from, `none` when that
failed. -/
abbrev Blocks := List (Nat × Option File)

/-- A `Read` that goes to the cache: the open file, the geometry of the map, and which blocks cannot be read from disk. -/
structure Reading where
  file : File
  limit : Nat
  size : Nat
  pos : Nat
  len : Nat
  fails : Nat → Bool

namespace Reading

/-- Whether a block in the cache is good for the read: it was read from the same file, or the file has nothing there, or the
read has nothing left to copy. -/
def Serves (r : Reading) (i : Nat) (origin : Option File) : Prop :=
  origin = some r.file ∨ origin = none ∧ r.file.length ≤ i * r.size ∨
    r.pos ≤ i * r.size ∧ OSFileSource.before r.file.length r.size r.pos r.len i = r.len

/-- The read ends with the block `i`, as that is all there is in the file. -/
def Ends (r : Reading) (i : Nat) : Prop := OSFileSource.EndsAt r.file.length r.size r.pos r.len i

instance (r : Reading) (i : Nat) : Decidable (r.Ends i) := inferInstanceAs (Decidable (OSFileSource.EndsAt ..))

/-- The assertion that is made then. -/
def Asserts (abi : Abi) (r : Reading) (i : Nat) : Prop :=
  r.Ends i → (OSFileSource.blockLength r.file.length r.size i : Int) ≤ abi.maxLength

/-- The `n` blocks from `i` on: each that is in the cache is good for the read, which ends with the first that has to be read
from disk and cannot be. -/
def Unspoiled (abi : Abi) (r : Reading) : Nat → Nat → Blocks → Prop
  | 0, _, _ => True
  | n + 1, i, blocks =>
    match entry blocks i with
    | some x => r.Serves i x.2 ∧ r.Asserts abi i ∧
        (¬r.Ends i → Unspoiled abi r n (i + 1) (use r.limit blocks i (some r.file)))
    | none => r.fails i = true ∨ r.Asserts abi i ∧
        (¬r.Ends i → Unspoiled abi r n (i + 1) (use r.limit blocks i (some r.file)))

/-- The cache after the `n` blocks from `i` on. -/
def after (r : Reading) : Nat → Nat → Blocks → Blocks
  | 0, _, blocks => blocks
  | n + 1, i, blocks =>
    if entry blocks i = none ∧ r.fails i = true then use r.limit blocks i none
    else if r.Ends i then use r.limit blocks i (some r.file)
    else after r n (i + 1) (use r.limit blocks i (some r.file))

end Reading

/-! ## The queue and the blocks -/

namespace FileMap

/-- The block that a buffer of the queue is for, and where it was filled from. -/
def label (m : FileMap) (e : Nat) : Nat × Option File := ((m.buffers e).fArrayIndex.toNat, (m.buffers e).filledFrom)

/-- The blocks that have buffers. -/
def blocks (m : FileMap) : Blocks := m.fBlockPool.fQueue.map m.label

section Blocks

variable {m m' : FileMap} {array array' : Nat → Option Nat} {e i n x : Nat} {fillBuff : Bool}

theorem Linked.label_eq (h : m.Linked array) (hi : array i = some e) : m.label e = (i, (m.buffers e).filledFrom) := by
  rw [label, ((h.entry_iff i e).1 hi).2, Int.toNat_natCast]

/-- The block of a buffer of the queue. -/
theorem Linked.mapped (h : m.Linked array) (hx : x ∈ m.fBlockPool.fQueue) : array (m.label x).1 = some x := by
  obtain ⟨j, -, hj⟩ := h.bound x hx
  have hentry := (h.entry_iff j x).2 ⟨hx, hj⟩
  rwa [h.label_eq hentry]

theorem Linked.label_inj (h : m.Linked array) (he : e ∈ m.fBlockPool.fQueue) :
    ∀ x ∈ m.fBlockPool.fQueue, (m.label x).1 = (m.label e).1 → x = e := by
  intro x hx heq
  exact Option.some.inj ((h.mapped hx).symm.trans (heq ▸ h.mapped he))

theorem deletedBuffs_nil (hcount : m.fBlockPool.fNumCurrentBuffers ≤ m.fBlockPool.fMaxBuffers) : deletedBuffs n m = [] := by
  cases n with
  | zero => rfl
  | succ n => rw [deletedBuffs, if_neg (Nat.not_lt.2 hcount)]

theorem deleteOldBuffs_self (hcount : m.fBlockPool.fNumCurrentBuffers ≤ m.fBlockPool.fMaxBuffers) :
    deleteOldBuffs n m = some m := by
  cases n with
  | zero => rfl
  | succ n => rw [deleteOldBuffs, if_neg (Nat.not_lt.2 hcount)]

/-- A block that has a buffer gets it, and it does not have to be filled. -/
theorem getBuffer_found (h : m.Linked array) (hcount : m.fBlockPool.fNumCurrentBuffers ≤ m.fBlockPool.fMaxBuffers)
    (hget : m.getBuffer i = some (m', e, fillBuff)) (hentry : array i = some x) : fillBuff = false := by
  obtain ⟨m₁, hplace, -⟩ := placeBuffer_found h hentry
  rw [getBuffer, deleteOldBuffs_self hcount, Option.bind_some] at hget
  split at hget
  · rw [findBuffer, h.map, Option.bind_some, hentry, Option.bind_some] at hget
    have hget : m.placeBuffer x i = some (m', e, fillBuff) := hget
    rw [hplace] at hget
    cases hget
    rfl
  · cases hget

/-- **The blocks after `GetBuffer`**, when the buffer `e` that it gives says afterwards that it comes from `origin`. -/
theorem getBuffer_blocks (h : m.Linked array) (hcount : m.fBlockPool.fNumCurrentBuffers ≤ m.fBlockPool.fMaxBuffers)
    (hget : m.getBuffer i = some (m', e, fillBuff)) (got : m.Got array i m' array' e fillBuff) (origin : Option File)
    (hfilled : fillBuff = false → origin = (m.buffers e).filledFrom) :
    m'.fBlockPool.fNumCurrentBuffers ≤ m.fBlockPool.fMaxBuffers ∧
      m'.fBlockPool.fQueue.map (fun x => if x = e then (i, origin) else m'.label x) =
        use m.fBlockPool.fMaxBuffers m.blocks i origin ∧
      (fillBuff = true ↔ entry m.blocks i = none) ∧
      (fillBuff = false → entry m.blocks i = some (i, (m.buffers e).filledFrom)) := by
  obtain ⟨rest, hrest, hlength, hqueue, hsource⟩ := getBuffer_queue h hget
  rw [deletedBuffs_nil hcount, List.nil_append] at hrest
  subst hrest
  have hlabel : ∀ x ∈ m'.fBlockPool.fQueue, x ≠ e → m'.label x = m.label x := by
    intro x hx hne
    have hentry := got.linked.mapped hx
    have hsame := (got.others _ x (fun hi => hne (Option.some.inj ((hi ▸ hentry).symm.trans got.entry))) hentry).2
    rw [label, label, hsame]
  cases hfill : fillBuff with
  | false =>
    subst hfill
    obtain ⟨hentry, -⟩ := got.found rfl
    have he : e ∈ m.fBlockPool.fQueue := ((h.entry_iff i e).1 hentry).1
    have hkey := h.label_eq hentry
    have hin : entry m.blocks i = some (i, (m.buffers e).filledFrom) := by
      have hmap := entry_map (h.label_inj he) he
      rwa [hkey] at hmap
    refine ⟨?_, ?_, by simp [hin], fun _ => hin⟩
    · rw [got.linked.count, hqueue, length_touch_of_mem he]
      exact hlength
    · have htouch := map_touch m.fBlockPool.fMaxBuffers origin h.nodup (h.label_inj he) he
      rw [hkey] at htouch
      rw [blocks, ← htouch, ← hqueue]
      refine List.map_congr_left fun x hx => ?_
      split
      next heq => rw [heq, hkey, hfilled rfl]
      next hne => exact hlabel x hx hne
  | true =>
    subst hfill
    have hnone : array i = none := by
      cases hentry : array i with
      | none => rfl
      | some x => exact absurd (getBuffer_found h hcount hget hentry).symm Bool.false_ne_true
    have hin : entry m.blocks i = none := by
      refine entry_map_eq_none fun x hx hkey => ?_
      have hentry := h.mapped hx
      rw [hkey, hnone] at hentry
      cases hentry
    refine ⟨?_, ?_, by simp [hin], fun hno => absurd hno.symm Bool.false_ne_true⟩
    · rw [got.linked.count, hqueue]
      cases hsource with
      | created hnew hless _ =>
        rw [touch_of_notMem fun he => Nat.lt_irrefl _ (h.fresh _ (hnew ▸ he)), List.length_append]
        exact hless
      | recycled _ hhead _ _ =>
        rw [length_touch_of_mem (List.mem_of_head? hhead)]
        exact hlength
    · have hrest : ∀ q : List Nat, e ∉ q → (∀ x ∈ q, x ∈ m'.fBlockPool.fQueue) →
          q.map (fun x => if x = e then (i, origin) else m'.label x) = q.map m.label := by
        intro q hout hsub
        refine List.map_congr_left fun x hx => ?_
        have hne : x ≠ e := fun heq => hout (heq ▸ hx)
        rw [if_neg hne, hlabel x (hsub x hx) hne]
      rw [use_of_none hin, blocks, List.length_map]
      cases hsource with
      | created hnew hless _ =>
        have hout : e ∉ m.fBlockPool.fQueue := fun he => Nat.lt_irrefl _ (h.fresh _ (hnew ▸ he))
        rw [touch_of_notMem hout] at hqueue
        rw [hqueue, List.map_append, hrest _ hout fun x hx => hqueue ▸ List.mem_append_left _ hx, if_pos hless]
        simp
      | recycled _ hhead hfull _ =>
        obtain ⟨tail, htail⟩ := List.head?_eq_some_iff.1 hhead
        have hout : e ∉ tail := (List.nodup_cons.1 (htail ▸ h.nodup)).1
        rw [htail, touch, List.erase_cons_head] at hqueue
        rw [hqueue, List.map_append, hrest _ hout fun x hx => hqueue ▸ List.mem_append_left _ hx, if_neg hfull, htail]
        simp

end Blocks

end FileMap

/-! ## A read -/

namespace OSFileSource

section Read

variable {s s' : OSFileSource} {c : Copying} {array : Nat → Option Nat} {f : File} {fails : Nat → Bool} {abi : Abi}
  {size pos len e i n : Nat} {ok : Bool}

/-- The blocks in the cache after a fetch: one that cannot be filled stays in it. -/
theorem fetch_blocks (hv : Valid (fun _ => True) s array) (hfile : s.fFile = some f) (hi : i < s.fFileMap.fMapArraySize)
    (hpos : 0 < s.fFileMap.fBlockPool.fMaxBuffers)
    (hcount : s.fFileMap.fBlockPool.fNumCurrentBuffers ≤ s.fFileMap.fBlockPool.fMaxBuffers)
    (hfetch : fetch (linuxWindows abi) fails s i = some (s', e, ok)) :
    s'.fFileMap.fBlockPool.fNumCurrentBuffers ≤ s'.fFileMap.fBlockPool.fMaxBuffers ∧
      s'.fFileMap.blocks =
        use s.fFileMap.fBlockPool.fMaxBuffers s.fFileMap.blocks i (if ok then some f else none) ∧
      (ok = false ↔ entry s.fFileMap.blocks i = none ∧ fails i = true) ∧
      (∀ m buff, s.fFileMap.getBuffer i = some (m, buff, false) →
        entry s.fFileMap.blocks i = some (i, (m.buffers buff).filledFrom)) := by
  obtain ⟨m, array', buff, fillBuff, hget, got⟩ := getBuffer_spec hv.linked hi hv.small hpos
  have hlimit : m.fBlockPool.fMaxBuffers = s.fFileMap.fBlockPool.fMaxBuffers := got.alike.limit
  have hindex : (m.buffers buff).fArrayIndex = i := ((got.linked.entry_iff i buff).1 got.entry).2
  rw [fetch, hget, Option.map_some] at hfetch
  cases hfill : fillBuff with
  | false =>
    subst hfill
    have hsame := (got.found rfl).2
    obtain ⟨hcount', hblocks, hnone, hfound⟩ := getBuffer_blocks hv.linked hcount hget got (m.buffers buff).filledFrom
      fun _ => by rw [hsame]
    have hentry := hfound rfl
    cases hfetch
    have hlabel : (fun x => if x = e then (i, (m.buffers e).filledFrom) else m.label x) = m.label := by
      funext x
      split
      next heq => rw [heq, label, hindex, Int.toNat_natCast]
      next => rfl
    rw [hlabel] at hblocks
    refine ⟨hlimit ▸ hcount', ?_, by simp [hentry], fun m' buff' hget' => ?_⟩
    · show m.blocks = _
      rw [blocks, hblocks, use_of_some hentry, use_of_some hentry]
    · rw [hget] at hget'
      cases hget'
      rw [hentry, hsame]
  | true =>
    subst hfill
    obtain ⟨b', hb, hb', -, horigin⟩ := fillBuffer_spec (s := { s with fFileMap := m }) (e := buff) abi hfile
      (Nat.lt_trans hi hv.small) (got.alike.size ▸ hv.size_lt) (fails i)
    simp only [if_true, hb] at hfetch
    cases hfetch
    obtain ⟨hcount', hblocks, hnone, -⟩ := getBuffer_blocks hv.linked hcount hget got b'.filledFrom
      fun hno => absurd hno.symm Bool.false_ne_true
    have hentry := hnone.1 rfl
    refine ⟨hlimit ▸ hcount', ?_, by simp [hentry], fun m' buff' hget' => ?_⟩
    · have hlabel : FileMap.label { m with buffers := Function.update m.buffers e b' } =
          fun x => if x = e then (i, b'.filledFrom) else m.label x := by
        funext x
        split
        next heq =>
          subst heq
          rw [label]
          simp only [Function.update_self]
          rw [hb']
          show ((m.buffers x).fArrayIndex.toNat, _) = _
          rw [hindex, Int.toNat_natCast]
        next hne =>
          rw [label]
          simp only [Function.update_of_ne hne]
          rfl
      show m.fBlockPool.fQueue.map (FileMap.label { m with buffers := Function.update m.buffers e b' }) = _
      rw [hlabel, hblocks, horigin]
      cases fails i <;> rfl
    · rw [hget] at hget'
      cases hget'

/-- A turn comes upon no buffer that is wrong for the file, and passes the assertion. -/
def Unspoiled (abi : Abi) (r : Reading) (c : Copying) : Prop :=
  (∀ b ∈ served c, b.filledFrom = some r.file ∨
    b.filledFrom = none ∧ r.file.length ≤ c.buffIndex * c.source.fFileMap.fDataBufferSize) ∧
  ∀ s buff, fetch (linuxWindows abi) r.fails c.source c.buffIndex = some (s, buff, true) → r.Asserts abi c.buffIndex

theorem serves_unspoiled {r : Reading} : Serves (fun _ => True) r.file (Unspoiled abi r) := by
  intro c b hfile hG hserved hsound _
  rcases hG.1 b hserved with hfrom | ⟨hnone, hend⟩
  · rw [Sound, hfrom] at hsound
    exact hsound
  · rw [Sound, hnone] at hsound
    refine ⟨?_, fun k hk => ?_⟩
    · rw [Nat.sub_eq_zero_of_le hend, Nat.min_zero]
      exact hsound
    · rw [hsound] at hk
      exact absurd hk (Nat.not_lt_zero k)

theorem passes_unspoiled {r : Reading} :
    Passes abi r.fails r.file.length r.size r.pos r.len (Unspoiled abi r) :=
  fun _ s buff hG _ hfetch hends => hG.2 s buff hfetch hends

variable {r : Reading}

/-- The turn for a block that is good for the read. -/
theorem turn_unspoiled (h : Midway (fun _ => True) r.file r.size r.pos r.len array c)
    (hok : ∀ s e, fetch (linuxWindows abi) r.fails c.source c.buffIndex = some (s, e, true) →
      ¬(entry c.source.fFileMap.blocks c.buffIndex = none ∧ r.fails c.buffIndex = true))
    (hfound : ∀ m buff, c.source.fFileMap.getBuffer c.buffIndex = some (m, buff, false) →
      entry c.source.fFileMap.blocks c.buffIndex = some (c.buffIndex, (m.buffers buff).filledFrom))
    (hgood : r.Unspoiled abi (n + 1) c.buffIndex c.source.fFileMap.blocks) : Unspoiled abi r c := by
  rw [Reading.Unspoiled] at hgood
  constructor
  · intro b hb
    rw [served] at hb
    split at hb
    · cases hb
    next hleft =>
      obtain ⟨⟨m, buff, fillBuff⟩, hget, hb⟩ := Option.bind_eq_some_iff.1 hb
      cases fillBuff with
      | true => cases hb
      | false =>
        cases hb
        rw [hfound m buff hget] at hgood
        rcases hgood.1 with hfrom | ⟨hnone, hend⟩ | ⟨hstart, hall⟩
        · exact Or.inl hfrom
        · exact Or.inr ⟨hnone, h.geometry ▸ hend⟩
        · have hplace := h.progress.place
          have hrest := h.progress.left
          exact absurd ⟨by omega, by omega⟩ hleft
  · intro s buff hfetch
    cases hentry : entry c.source.fFileMap.blocks c.buffIndex with
    | some x =>
      rw [hentry] at hgood
      exact hgood.2.1
    | none =>
      rw [hentry] at hgood
      exact (hgood.resolve_left fun hfails => hok s buff hfetch ⟨hentry, hfails⟩).1

/-- **The loop of a read follows the history**: it comes upon no buffer that is wrong for the file, and leaves the blocks that
the history says. -/
theorem loop_follows (h : Midway (fun _ => True) r.file r.size r.pos r.len array c)
    (hlimit : c.source.fFileMap.fBlockPool.fMaxBuffers = r.limit)
    (hcount : c.source.fFileMap.fBlockPool.fNumCurrentBuffers ≤ c.source.fFileMap.fBlockPool.fMaxBuffers)
    (hpos : r.pos < r.file.length) (hend : c.buffIndex + n = (r.pos + r.len) / r.size + 1)
    (hgood : r.Unspoiled abi n c.buffIndex c.source.fFileMap.blocks) :
    EveryTurn (linuxWindows abi) r.fails (Unspoiled abi r) n c ∧
      ∀ s' res, copyLoop (linuxWindows abi) r.fails n c = some (s', res) →
        s'.fFileMap.blocks = r.after n c.buffIndex c.source.fFileMap.blocks ∧
          s'.fFileMap.fBlockPool.fNumCurrentBuffers ≤ s'.fFileMap.fBlockPool.fMaxBuffers := by
  induction n generalizing c array with
  | zero =>
    refine ⟨trivial, fun s' res hloop => ?_⟩
    cases hloop
    exact ⟨rfl, hcount⟩
  | succ n ih =>
    have hi : c.buffIndex < c.source.fFileMap.fMapArraySize := Nat.lt_of_le_of_lt (by omega) h.map
    have hfound (m : FileMap) (buff : Nat) (hget : c.source.fFileMap.getBuffer c.buffIndex = some (m, buff, false)) :
        entry c.source.fFileMap.blocks c.buffIndex = some (c.buffIndex, (m.buffers buff).filledFrom) := by
      obtain ⟨s', array', e, ok, hfetch, -⟩ := fetch_spec abi h.valid h.file hi h.limit trivial
        fun (_ : r.fails c.buffIndex = true) => trivial
      exact (fetch_blocks h.valid h.file hi h.limit hcount hfetch).2.2.2 m buff hget
    have hturn := turn_unspoiled (n := n) h (fun s e hfetch hno => by
      have hok := (fetch_blocks h.valid h.file hi h.limit hcount hfetch).2.2.1.2 hno
      cases hok) hfound hgood
    obtain ⟨s', array', e, ok, hfetch, -, hsame, hcases⟩ := turn_spec abi serves_unspoiled h hpos (by omega) trivial
      (fun _ _ => trivial) hturn
    obtain ⟨hcount', hblocks, hok, -⟩ := fetch_blocks h.valid h.file hi h.limit hcount hfetch
    rw [hlimit] at hblocks
    rw [Reading.after, copyLoop]
    rcases hcases with ⟨rfl, -, hturn'⟩ | ⟨rfl, hends, hturn'⟩ | ⟨rfl, hgoes, c', hturn', hmidway, rfl, hindex⟩
    · rw [if_pos (hok.1 rfl), EveryTurn, hturn']
      refine ⟨⟨hturn, fun c' hno => by cases hno⟩, fun s'' res hloop => ?_⟩
      cases hloop
      exact ⟨hblocks, hcount'⟩
    · have hmiss : ¬(entry c.source.fFileMap.blocks c.buffIndex = none ∧ r.fails c.buffIndex = true) := fun hno => by
        cases hok.2 hno
      have hends : r.Ends c.buffIndex := hends
      rw [if_pos (hturn.2 s' e hfetch hends)] at hturn'
      rw [if_neg hmiss, if_pos hends, EveryTurn, hturn']
      refine ⟨⟨hturn, fun c' hno => by cases hno⟩, fun s'' res hloop => ?_⟩
      cases hloop
      exact ⟨hblocks, hcount'⟩
    · have hmiss : ¬(entry c.source.fFileMap.blocks c.buffIndex = none ∧ r.fails c.buffIndex = true) := fun hno => by
        cases hok.2 hno
      have hgoes : ¬r.Ends c.buffIndex := hgoes
      have hrest : r.Unspoiled abi n c'.buffIndex c'.source.fFileMap.blocks := by
        rw [Reading.Unspoiled] at hgood
        rw [hindex, hblocks]
        cases hentry : entry c.source.fFileMap.blocks c.buffIndex with
        | some x =>
          rw [hentry] at hgood
          exact hgood.2.2 hgoes
        | none =>
          rw [hentry] at hgood
          exact (hgood.resolve_left fun hfails => hmiss ⟨hentry, hfails⟩).2 hgoes
      obtain ⟨hturns, hafter⟩ := ih hmidway (hsame.alike.limit.trans hlimit) hcount' (by omega) hrest
      rw [if_neg hmiss, if_neg hgoes, EveryTurn, hturn']
      refine ⟨⟨hturn, fun c'' hnext => ?_⟩, fun s'' res hloop => ?_⟩
      · cases hnext
        exact hturns
      · rw [hindex, hblocks] at hafter
        exact hafter s'' res hloop

end Read

/-! ## The calls -/

/-- The length of a file that may not be open. -/
def lengthOf (file : Option File) : Nat :=
  match file with
  | none => 0
  | some f => f.length

/-- The geometry of a map, and the length of the file that was open when it was made. -/
structure Geometry where
  units : Nat
  limit : Nat
  size : Nat
  made : Nat

/-- What the calls so far say: the file of the last `Set`, whether the cache is enabled, the map that was made last, and the
blocks that reads have brought into it. -/
structure History where
  file : Option File
  enabled : Bool
  map : Option Geometry
  blocks : Blocks

namespace History

def new : History := ⟨none, false, none, []⟩

/-- The map is kept. -/
def Keeps (q : History) (bufferSizeUnits incBuffers : Nat) : Prop :=
  ∃ g ∈ q.map, g.units = bufferSizeUnits ∧ incBuffers = g.limit

instance (q : History) (bufferSizeUnits incBuffers : Nat) : Decidable (q.Keeps bufferSizeUnits incBuffers) :=
  inferInstanceAs (Decidable (∃ g ∈ q.map, _))

/-- A map with buffers of so many units is made. -/
def allocate (q : History) (units incBuffers : Nat) : History :=
  { q with map := some ⟨units, max 1 incBuffers, FileMap.dataBufferSize units, lengthOf q.file⟩, blocks := [] }

/-- A `Read` that goes to the cache and begins before the end of the file. -/
def reading (q : History) (pos len : Nat) (fails : Nat → Bool) : Option Reading :=
  q.file.bind fun f => q.map.bind fun g =>
    if q.enabled = true ∧ endPosition pos len / g.size ≤ g.made / g.size ∧ pos < f.length then
      some ⟨f, g.limit, g.size, pos, len, fails⟩
    else none

/-- The blocks after a read. -/
def read (q : History) (pos len : Nat) (fails : Nat → Bool) : Blocks :=
  match q.reading pos len fails with
  | none => q.blocks
  | some r => r.after ((pos + len) / r.size + 1 - pos / r.size) (pos / r.size) q.blocks

/-- A call; the number of buffers is not changed here. -/
def step (q : History) : Call → History
  | .Set file => { q with file := file }
  | .AllocateFileCache inUnitSizeInK bufferSizeUnits incBuffers inMaxBitRateBuffSizeInBlocks inBitRate =>
    if q.Keeps bufferSizeUnits.toNat incBuffers.toNat then q
    else q.allocate (numBuffSizeUnits inUnitSizeInK.toNat bufferSizeUnits.toNat inMaxBitRateBuffSizeInBlocks.toNat
      inBitRate.toNat) incBuffers.toNat
  | .EnableFileCache enabled => { q with enabled := enabled }
  | .IncMaxBuffers | .DecMaxBuffers => q
  | .Read inPosition inLength fails => { q with blocks := q.read inPosition.toNat inLength.toNat fails }

/-- The condition on a call: a map that is made fits; the blocks that a read finds in the cache are good for it. -/
def Allows (abi : Abi) (q : History) : Call → Prop
  | .AllocateFileCache inUnitSizeInK bufferSizeUnits incBuffers inMaxBitRateBuffSizeInBlocks inBitRate =>
    q.Keeps bufferSizeUnits.toNat incBuffers.toNat ∨ FileMap.Fits abi.sizeofPointer inUnitSizeInK.toNat
      bufferSizeUnits.toNat inMaxBitRateBuffSizeInBlocks.toNat (lengthOf q.file) inBitRate.toNat
  | .Read inPosition inLength fails => ∀ r ∈ q.reading inPosition.toNat inLength.toNat fails,
    r.Unspoiled abi ((r.pos + r.len) / r.size + 1 - r.pos / r.size) (r.pos / r.size) q.blocks
  | _ => True

end History

/-- The map of the history. -/
structure Mapped (g : Geometry) (s : OSFileSource) (array : Nat → Option Nat) : Prop where
  valid : Valid (fun _ => True) s array
  units : s.fFileMap.fNumBuffSizeUnits = g.units
  limit : s.fFileMap.fBlockPool.fMaxBuffers = g.limit
  size : s.fFileMap.fDataBufferSize = g.size
  count : s.fFileMap.fMapArraySize = g.made / g.size + 1

/-- The object is as the calls say. -/
structure Follows (q : History) (s : OSFileSource) : Prop where
  file : s.fFile = q.file
  length : s.fLength = lengthOf q.file
  enabled : s.fCacheEnabled = q.enabled
  blocks : s.fFileMap.blocks = q.blocks
  buffers : s.fFileMap.fBlockPool.fNumCurrentBuffers ≤ s.fFileMap.fBlockPool.fMaxBuffers
  limit : 0 < s.fFileMap.fBlockPool.fMaxBuffers
  map : match q.map with
    | none => s.fFileMap.fFileMapArray = none
    | some g => ∃ array, Mapped g s array

section History

variable {q : History} {g : Geometry} {s s' : OSFileSource} {array : Nat → Option Nat} {f : File} {fails : Nat → Bool}
  {abi : Abi} {pos len fBufferInc : Nat}

theorem follows_new : Follows .new (new fBufferInc) := ⟨rfl, rfl, rfl, rfl, Nat.zero_le _, Nat.one_pos, rfl⟩

/-- What is in the map does not depend on the file that is open. -/
theorem Mapped.of_map (h : Mapped g s array) (hmap : s'.fFileMap = s.fFileMap) : Mapped g s' array := by
  obtain ⟨fFile, fLength, fFileMap, fCacheEnabled⟩ := s'
  cases hmap
  exact ⟨⟨h.valid.linked, h.valid.size_pos, h.valid.size_lt, h.valid.small, h.valid.sound, h.valid.origin⟩, h.units, h.limit,
    h.size, h.count⟩

/-- `Set` and `EnableFileCache`. -/
theorem Follows.of_map (h : Follows q s) {q' : History} (hmap : s'.fFileMap = s.fFileMap) (hfile : s'.fFile = q'.file)
    (hlength : s'.fLength = lengthOf q'.file) (henabled : s'.fCacheEnabled = q'.enabled) (hq : q'.map = q.map)
    (hblocks : q'.blocks = q.blocks) : Follows q' s' where
  file := hfile
  length := hlength
  enabled := henabled
  blocks := by rw [hmap, hblocks, h.blocks]
  buffers := hmap ▸ h.buffers
  limit := hmap ▸ h.limit
  map := by
    have hold := h.map
    rw [hq]
    cases hg : q.map with
    | none =>
      rw [hg] at hold
      exact hmap ▸ hold
    | some g =>
      rw [hg] at hold
      obtain ⟨array, hmapped⟩ := hold
      exact ⟨array, hmapped.of_map hmap⟩

theorem Follows.keeps_iff (h : Follows q s) {units incBuffers : Nat} :
    s.fFileMap.Keeps units incBuffers ↔ q.Keeps units incBuffers := by
  have hmap := h.map
  rw [FileMap.Keeps, History.Keeps]
  cases hg : q.map with
  | none =>
    rw [hg] at hmap
    simp [hmap]
  | some g =>
    rw [hg] at hmap
    obtain ⟨array, hmapped⟩ := hmap
    simp [hmapped.valid.linked.map, hmapped.units, hmapped.limit]

/-- `AllocateFileCache`. -/
theorem Follows.allocate (h : Follows q s) {inUnitSizeInK bufferSizeUnits incBuffers inMaxBitRateBuffSizeInBlocks inBitRate :
    UInt32} (hallows : q.Allows abi
      (.AllocateFileCache inUnitSizeInK bufferSizeUnits incBuffers inMaxBitRateBuffSizeInBlocks inBitRate)) :
    ∃ s', call (linuxWindows abi) s
        (.AllocateFileCache inUnitSizeInK bufferSizeUnits incBuffers inMaxBitRateBuffSizeInBlocks inBitRate) =
          some (s', none) ∧
      Follows (q.step (.AllocateFileCache inUnitSizeInK bufferSizeUnits incBuffers inMaxBitRateBuffSizeInBlocks inBitRate))
        s' := by
  rw [call, FileMap.allocateBufferMap, History.step]
  by_cases hkeeps : q.Keeps bufferSizeUnits.toNat incBuffers.toNat
  · rw [if_pos (h.keeps_iff.2 hkeeps), if_pos hkeeps]
    exact ⟨s, rfl, h⟩
  · have hfits : FileMap.Fits (linuxWindows abi).sizeofPointer inUnitSizeInK.toNat bufferSizeUnits.toNat
        inMaxBitRateBuffSizeInBlocks.toNat s.fLength inBitRate.toNat := h.length ▸ hallows.resolve_left hkeeps
    rw [if_neg (mt h.keeps_iff.1 hkeeps), if_neg hkeeps, if_pos hfits]
    obtain ⟨hqueue, hcount, hlimit⟩ := s.fFileMap.makeMap_queue (numBuffSizeUnits inUnitSizeInK.toNat bufferSizeUnits.toNat
      inMaxBitRateBuffSizeInBlocks.toNat inBitRate.toNat) incBuffers.toNat s.fLength
    refine ⟨_, rfl, h.file, h.length, h.enabled, ?_, ?_, hlimit, _, makeMap_valid rfl hfits.2.1 hfits.2.2.1, rfl,
      FileMap.makeMap_limit, rfl, ?_⟩
    · show FileMap.blocks _ = []
      rw [FileMap.blocks, hqueue]
      rfl
    · show FileBlockPool.fNumCurrentBuffers _ ≤ _
      rw [hcount]
      exact Nat.zero_le _
    · show s.fLength / _ + 1 = _
      rw [h.length]

/-! ### Reads -/

/-- What has been copied and what is left to copy is not more than what was asked for. -/
def Bounded (inLength : Nat) (c : Copying) : Prop := 0 ≤ c.bytesToCopy ∧ c.copied.length + c.bytesToCopy ≤ inLength

/-- The read of the history is the one that copies. -/
theorem Follows.reading_eq (h : Follows q s) (hfile : q.file = some f) (hmap : q.map = some g) :
    q.reading pos len fails = if s.Copies pos len then some ⟨f, g.limit, g.size, pos, len, fails⟩ else none := by
  have hmapped := h.map
  rw [hmap] at hmapped
  obtain ⟨array, hmapped⟩ := hmapped
  have hcopies : s.Copies pos len ↔ q.enabled = true ∧ endPosition pos len / g.size ≤ g.made / g.size ∧ pos < f.length := by
    have hlength : s.fLength = f.length := by
      rw [h.length, hfile]
      rfl
    rw [Copies, Cached, getBuffIndex, getMaxBuffIndex, hmapped.valid.linked.map, hmapped.size, hmapped.count, h.enabled,
      hlength]
    simp only [Option.isSome_some, true_and, and_assoc]
    refine and_congr_right fun _ => and_congr_left' ?_
    omega
  rw [History.reading, hfile, hmap]
  exact if_congr hcopies.symm rfl rfl

/-- A read that does not go to the cache, or has nothing to copy. -/
theorem Follows.stays (h : Follows q s) (hcopies : ¬s.Copies pos len) : q.read pos len fails = q.blocks := by
  have hnone : q.reading pos len fails = none := by
    cases hfile : q.file with
    | none => rw [History.reading, hfile, Option.bind_none]
    | some f =>
      cases hmap : q.map with
      | none => rw [History.reading, hfile, hmap, Option.bind_some, Option.bind_none]
      | some g => rw [h.reading_eq hfile hmap, if_neg hcopies]
  rw [History.read, hnone]

/-- **A read that copies**, when the blocks that it finds in the cache are good for it. -/
theorem Follows.copies (h : Follows q s) (hfile : q.file = some f) (hlen : len < 4294967296)
    (hallows : ∀ r ∈ q.reading pos len fails,
      r.Unspoiled abi ((r.pos + r.len) / r.size + 1 - r.pos / r.size) (r.pos / r.size) q.blocks)
    (hcopies : s.Copies pos len) :
    ∃ s' res, s.read (linuxWindows abi) fails pos len = some (s', res) ∧
      Follows { q with blocks := q.read pos len fails } s' ∧
      (s.ReadFails (linuxWindows abi) fails pos len ∧ res = .error ∨
        ¬s.ReadFails (linuxWindows abi) fails pos len ∧ res = .ok (f.read pos len)) ∧
      EveryTurn (linuxWindows abi) fails (Bounded len) (s.turns pos len) (s.beginCopy pos len) := by
  have hopen : Opened f s := ⟨h.file.trans hfile, by rw [h.length, hfile]; rfl⟩
  have hpos : pos < f.length := hopen.length ▸ hcopies.2
  obtain ⟨g, hmap⟩ : ∃ g, q.map = some g := by
    cases hmap : q.map with
    | none =>
      have hnone := h.map
      rw [hmap] at hnone
      have hsome := hcopies.1.1
      rw [hnone] at hsome
      cases hsome
    | some g => exact ⟨g, rfl⟩
  have hmapped := h.map
  rw [hmap] at hmapped
  obtain ⟨array, hmapped⟩ := hmapped
  have hreading : q.reading pos len fails = some ⟨f, g.limit, g.size, pos, len, fails⟩ := by
    rw [h.reading_eq hfile hmap, if_pos hcopies]
  obtain ⟨hend, -, -⟩ := turns_spec hpos hlen hcopies.1
  have hmidway := beginCopy_midway hmapped.valid hopen h.limit hpos hlen hcopies.1
  rw [hmapped.size] at hend hmidway
  have hfirst : (s.beginCopy pos len).buffIndex = pos / g.size := by
    rw [← hmapped.size]
    rfl
  have hturns : s.turns pos len = (pos + len) / g.size + 1 - pos / g.size := by omega
  have hgood := hallows _ hreading
  rw [← hturns, ← hfirst, ← h.blocks] at hgood
  obtain ⟨heach, hafter⟩ := loop_follows (c := s.beginCopy pos len) (r := ⟨f, g.limit, g.size, pos, len, fails⟩) hmidway
    hmapped.limit h.buffers hpos hend hgood
  obtain ⟨s', array', res, hloop, hv', hsame, hres⟩ := copyLoop_spec abi serves_unspoiled hmidway hpos hend trivial
    (fun _ _ => trivial) passes_unspoiled heach
  obtain ⟨hblocks, hbuffers⟩ := hafter s' res hloop
  refine ⟨s', res, ?_, ⟨?_, ?_, ?_, ?_, hbuffers, ?_, ?_⟩, ?_, ?_⟩
  · rw [read_copies hopen hlen hcopies]
    exact hloop
  · exact hsame.file.trans h.file
  · exact hsame.length.trans h.length
  · exact hsame.enabled.trans h.enabled
  · show s'.fFileMap.blocks = q.read pos len fails
    rw [hblocks, History.read, hreading]
    simp only []
    rw [← hturns, ← hfirst, ← h.blocks]
    rfl
  · exact hsame.alike.limit ▸ h.limit
  · show match q.map with
      | none => s'.fFileMap.fFileMapArray = none
      | some g => ∃ array, Mapped g s' array
    rw [hmap]
    exact ⟨array', hv', hsame.alike.units.trans hmapped.units, hsame.alike.limit.trans hmapped.limit,
      hsame.alike.size.trans hmapped.size, hsame.alike.blocks.trans hmapped.count⟩
  · rcases hres with ⟨hf, -, hres⟩ | ⟨hf, hres⟩
    · exact Or.inl ⟨⟨hcopies, hf⟩, hres⟩
    · exact Or.inr ⟨fun hf' => hf hf'.2, hres⟩
  · refine (everyTurn_progress serves_unspoiled hmidway hpos hend trivial (fun _ _ => trivial) heach).mono fun c hc => ?_
    have hleft : c.bytesToCopy = (len - before f.length g.size pos len c.buffIndex : Nat) := hc.left
    have hlength : c.copied.length ≤ before f.length g.size pos len c.buffIndex := by
      rw [hc.copied, length_read]
      exact Nat.min_le_left ..
    have hmost : before f.length g.size pos len c.buffIndex ≤ len := Nat.min_le_left ..
    exact ⟨by omega, by omega⟩

/-- **A `Read` of an object that is as the calls say.** -/
theorem Follows.read (h : Follows q s) (hlen : len < 4294967296)
    (hallows : ∀ r ∈ q.reading pos len fails,
      r.Unspoiled abi ((r.pos + r.len) / r.size + 1 - r.pos / r.size) (r.pos / r.size) q.blocks) :
    ∃ s' res, s.read (linuxWindows abi) fails pos len = some (s', res) ∧
      Follows { q with blocks := q.read pos len fails } s' ∧
      (¬s.Copies pos len ∧ res = (if s.Cached pos len then .ok [] else s.readFromPos pos len) ∨
        s.Copies pos len ∧
          (s.ReadFails (linuxWindows abi) fails pos len ∧ res = .error ∨
            ¬s.ReadFails (linuxWindows abi) fails pos len ∧ ∃ f, q.file = some f ∧ res = .ok (f.read pos len)) ∧
          EveryTurn (linuxWindows abi) fails (Bounded len) (s.turns pos len) (s.beginCopy pos len)) := by
  by_cases hcopies : s.Copies pos len
  · obtain ⟨f, hfile⟩ : ∃ f, q.file = some f := by
      cases hfile : q.file with
      | none =>
        have hlength : s.fLength = 0 := by
          rw [h.length, hfile]
          rfl
        exact absurd (hlength ▸ hcopies.2) (Nat.not_lt_zero pos)
      | some f => exact ⟨f, rfl⟩
    obtain ⟨s', res, hread, hfollows, hres, hturns⟩ := h.copies hfile hlen hallows hcopies
    exact ⟨s', res, hread, hfollows,
      Or.inr ⟨hcopies, hres.imp_right (And.imp_right fun hres => ⟨f, hfile, hres⟩), hturns⟩⟩
  · refine ⟨s, _, read_stays hcopies, ?_, Or.inl ⟨hcopies, rfl⟩⟩
    rw [h.stays hcopies]
    exact h

/-- The history of calls that have been made. -/
def History.next (q : History) (a : Call) : Option History := some (q.step a)

/-- The state in which reads begin. -/
theorem follows_setup {inUnitSizeInK bufferSizeUnits incBuffers inMaxBitRateBuffSizeInBlocks inBitRate : UInt32}
    (hrun : run (quiet (call (linuxWindows abi))) (OSFileSource.new fBufferInc) (setup f inUnitSizeInK bufferSizeUnits
      incBuffers inMaxBitRateBuffSizeInBlocks inBitRate) = some s) :
    Follows ((setup f inUnitSizeInK bufferSizeUnits incBuffers inMaxBitRateBuffSizeInBlocks inBitRate).foldl
      History.step .new) s := by
  obtain ⟨s₁, h₁, hrest⟩ := run_cons_eq_some.1 hrun
  obtain ⟨s₂, h₂, h₃⟩ := run_cons_eq_some.1 hrest
  rw [run_one] at h₃
  cases h₁
  cases h₃
  have hset : Follows (History.step .new (.Set (some f))) ((OSFileSource.new fBufferInc).set (some f)) :=
    follows_new.of_map rfl rfl rfl rfl rfl rfl
  have hfits : FileMap.Fits abi.sizeofPointer inUnitSizeInK.toNat bufferSizeUnits.toNat
      inMaxBitRateBuffSizeInBlocks.toNat f.length inBitRate.toNat := by
    by_contra hno
    have hkeeps : ¬(OSFileSource.new fBufferInc).fFileMap.Keeps bufferSizeUnits.toNat incBuffers.toNat :=
      fun hkeeps => Bool.false_ne_true hkeeps.1
    have hnone : call (linuxWindows abi) ((OSFileSource.new fBufferInc).set (some f))
        (.AllocateFileCache inUnitSizeInK bufferSizeUnits incBuffers inMaxBitRateBuffSizeInBlocks inBitRate) = none := by
      rw [call, FileMap.allocateBufferMap]
      exact congrArg (Option.map _) ((if_neg hkeeps).trans (if_neg hno))
    rw [quiet, hnone] at h₂
    cases h₂
  have hallows : History.Allows abi (History.step .new (.Set (some f)))
      (.AllocateFileCache inUnitSizeInK bufferSizeUnits incBuffers inMaxBitRateBuffSizeInBlocks inBitRate) := Or.inr hfits
  obtain ⟨s', hcall, hallocated⟩ := hset.allocate hallows
  rw [quiet_eq_some hcall] at h₂
  cases h₂
  exact hallocated.of_map rfl hallocated.file hallocated.length rfl rfl rfl

end History

end OSFileSource

end ToolLib.Common.FileSource
