import ToolLib.Base.Recency
import ToolLib.Common.FilePool

/-!
# FileMap and FileBlockPool in any run

A file map from its constructor on: maps are allocated for it, the number of buffers goes up and down, and `GetBuffer` is
called for the blocks of the map. Beside the map stands which buffers have been deleted, and when each one was used last.

- `Consistent`: the entries of the map and the buffers of the pool belong together, and the queue holds the pool;
- the queue after `GetBuffer` (`getBuffer_queue`): what `DeleteOldBuffs` leaves, with the buffer it gives at the end;
- `fileMap_serves_iff`: the map is consistent, and `GetBuffer` gives the buffer it is to give, exactly when no map is
  allocated that does not fit, and `GetBuffer` is not called while `fMaxBuffers` is 0.
-/

namespace ToolLib.Common.FileBlocks

open ToolLib.Base FileSource FileMap

/-- A file map, and what has become of its buffers. -/
structure World where
  map : FileMap
  /-- Not in the code: the buffers that have been deleted. -/
  deleted : List Nat
  /-- Not in the code: when a buffer was given by `GetBuffer` last. -/
  lastUsed : Nat → Nat
  now : Nat

/-- The constructor. `fBufferInc` is not set there. -/
def World.new (fBufferInc : Nat) : World := ⟨(OSFileSource.new fBufferInc).fFileMap, [], fun _ => 0, 0⟩

inductive Call
  | AllocateBufferMap (inUnitSizeInK inNumBuffSizeUnits inBufferIncCount inMaxBitRateBuffSizeInBlocks : UInt32)
    (fileLen : UInt64) (inBitRate : UInt32)
  | GetBuffer (buffIndex : Nat)
  | IncMaxBuffers
  | DecMaxBuffers

/-- The buffers that `DeleteOldBuffs` deletes. -/
def deletedBuffs : Nat → FileMap → List Nat
  | 0, _ => []
  | n + 1, m =>
    if m.fBlockPool.fMaxBuffers < m.fBlockPool.fNumCurrentBuffers then
      m.getBufferElement.elim [] fun (m, theElem) =>
        theElem :: (m.setEntry (m.buffers theElem).fArrayIndex none).elim [] fun m =>
          deletedBuffs n { m with fBlockPool := { m.fBlockPool with fNumCurrentBuffers := m.fBlockPool.fNumCurrentBuffers - 1 } }
    else []

/-- A call, with the number of the buffer and `outFillBuff` that `GetBuffer` gives. -/
def call (sizeofPointer : Nat) (w : World) : Call → Option (World × Option (Nat × Bool))
  | .AllocateBufferMap inUnitSizeInK inNumBuffSizeUnits inBufferIncCount inMaxBitRateBuffSizeInBlocks fileLen inBitRate =>
    (w.map.allocateBufferMap sizeofPointer inUnitSizeInK.toNat inNumBuffSizeUnits.toNat inBufferIncCount.toNat
      inMaxBitRateBuffSizeInBlocks.toNat fileLen.toNat inBitRate.toNat).map fun map =>
        -- `DeleteBlockPool` deletes what is in the queue
        ({ w with
          map := map
          deleted := if w.map.Keeps inNumBuffSizeUnits.toNat inBufferIncCount.toNat then w.deleted
            else w.map.fBlockPool.fQueue ++ w.deleted }, none)
  | .GetBuffer buffIndex =>
    (w.map.getBuffer buffIndex).map fun (map, theElem, fillBuff) =>
      (⟨map, deletedBuffs w.map.fBlockPool.fNumCurrentBuffers w.map ++ w.deleted,
        Function.update w.lastUsed theElem w.now, w.now + 1⟩, some (theElem, fillBuff))
  | .IncMaxBuffers => some ({ w with map := { w.map with fBlockPool := w.map.fBlockPool.incMaxBuffers } }, none)
  | .DecMaxBuffers => some ({ w with map := { w.map with fBlockPool := w.map.fBlockPool.decMaxBuffers } }, none)

/-- A buffer is in the pool from when it is allocated until it is deleted. -/
def InPool (w : World) (e : Nat) : Prop := e < w.map.allocated ∧ e ∉ w.deleted

instance (w : World) (e : Nat) : Decidable (InPool w e) := inferInstanceAs (Decidable (_ ∧ _))

/-- `fFileMapArray[i]` is the buffer `e`. -/
def Mapped (w : World) (i e : Nat) : Prop := w.map.fFileMapArray.bind (· i) = some e

/-- The entries of the map are the buffers of the pool for these blocks, and the queue holds every buffer of the pool once. -/
structure Consistent (w : World) : Prop where
  mapped_iff : ∀ i < w.map.fMapArraySize, ∀ e, Mapped w i e ↔ InPool w e ∧ (w.map.buffers e).fArrayIndex = i
  queue : ∀ e, w.map.fBlockPool.fQueue.count e = if InPool w e then 1 else 0
  length : w.map.fBlockPool.fQueue.length = w.map.fBlockPool.fNumCurrentBuffers

/-- What `GetBuffer` is to do for the block `i`: `w'` is afterwards. -/
structure Gives (w w' : World) (i e : Nat) (fillBuff : Bool) : Prop where
  mapped : Mapped w' i e
  fillBuff_iff : fillBuff = false ↔ Mapped w i e
  limit : w'.map.fBlockPool.fNumCurrentBuffers ≤ max 1 w'.map.fBlockPool.fMaxBuffers
  recycled : fillBuff = true → InPool w e → ∀ x, InPool w' x → x ≠ e → w.lastUsed e < w.lastUsed x

/-- What a call is to do. -/
def Right (w w' : World) : Call → Option (Nat × Bool) → Prop
  | .GetBuffer buffIndex, r => ∃ e fillBuff, r = some (e, fillBuff) ∧ Gives w w' buffIndex e fillBuff
  | _, _ => True

/-- All calls return, do what they are to do, and the map is consistent all the time. -/
def Serves (sizeofPointer : Nat) : World → List Call → Prop
  | w, [] => Consistent w
  | w, c :: calls =>
    Consistent w ∧ ∃ w' r, call sizeofPointer w c = some (w', r) ∧ Right w w' c r ∧ Serves sizeofPointer w' calls

/-- A buffer increment is positive, and a block is one of the map. -/
def Legal (w : World) : Call → Prop
  | .AllocateBufferMap _ _ inBufferIncCount _ _ _ => 0 < inBufferIncCount
  | .GetBuffer buffIndex => buffIndex < w.map.fMapArraySize
  | .IncMaxBuffers | .DecMaxBuffers => True

/-- A map is kept, or the new one fits; there may be a buffer for a block. -/
def Ready (sizeofPointer : Nat) (w : World) : Call → Prop
  | .AllocateBufferMap inUnitSizeInK inNumBuffSizeUnits inBufferIncCount inMaxBitRateBuffSizeInBlocks fileLen inBitRate =>
    w.map.Keeps inNumBuffSizeUnits.toNat inBufferIncCount.toNat ∨
      Fits sizeofPointer inUnitSizeInK.toNat inNumBuffSizeUnits.toNat inMaxBitRateBuffSizeInBlocks.toNat fileLen.toNat
        inBitRate.toNat
  | .GetBuffer _ => w.map.fBlockPool.fMaxBuffers ≠ 0
  | .IncMaxBuffers | .DecMaxBuffers => True

instance (w : World) : (c : Call) → Decidable (Legal w c)
  | .AllocateBufferMap _ _ inBufferIncCount _ _ _ => inferInstanceAs (Decidable (0 < inBufferIncCount))
  | .GetBuffer buffIndex => inferInstanceAs (Decidable (buffIndex < w.map.fMapArraySize))
  | .IncMaxBuffers | .DecMaxBuffers => isTrue trivial

instance (sizeofPointer : Nat) (w : World) : (c : Call) → Decidable (Ready sizeofPointer w c)
  | .AllocateBufferMap .. => inferInstanceAs (Decidable (_ ∨ _))
  | .GetBuffer _ => inferInstanceAs (Decidable (_ ≠ _))
  | .IncMaxBuffers | .DecMaxBuffers => isTrue trivial

/-! ## The queue -/

section Queue

variable {m m' m'' : FileMap} {array : Nat → Option Nat} {rest q : List Nat} {p : Option Nat} {e i n : Nat} {index : Int}
  {fillBuff : Bool}

/-- The map alone changes. -/
structure SamePool (m m' : FileMap) : Prop where
  pool : m'.fBlockPool = m.fBlockPool
  allocated : m'.allocated = m.allocated

theorem SamePool.trans (h : SamePool m m') (h' : SamePool m' m'') : SamePool m m'' :=
  ⟨h'.pool.trans h.pool, h'.allocated.trans h.allocated⟩

theorem setEntry_samePool (h : m.setEntry index p = some m') : SamePool m m' := by
  obtain ⟨array, -, h⟩ := Option.bind_eq_some_iff.1 h
  split at h
  · cases h
    exact ⟨rfl, rfl⟩
  · cases h

theorem moveBuffer_samePool (h : m.moveBuffer e i = some m') : SamePool m m' := by
  obtain ⟨m₁, h₁, h⟩ := Option.bind_eq_some_iff.1 h
  obtain ⟨m₂, h₂, h⟩ := Option.map_eq_some_iff.1 h
  have hfirst : SamePool m m₁ := by
    split at h₁
    · exact setEntry_samePool h₁
    · cases h₁
      exact ⟨rfl, rfl⟩
  have hsecond := hfirst.trans (setEntry_samePool h₂)
  cases h
  exact ⟨hsecond.pool, hsecond.allocated⟩

/-- The buffer that is placed is given, and does not have to be filled when it was for the block before. -/
theorem placeBuffer_pool {e' : Nat} (h : m.placeBuffer e i = some (m', e', fillBuff)) :
    e' = e ∧ SamePool (m.markUsed e) m' ∧ (fillBuff = false ↔ (m.buffers e).fArrayIndex = i) := by
  obtain ⟨q, hq⟩ := markUsed_eq m e
  have hbuffers : (m.markUsed e).buffers = m.buffers := by
    rw [hq]
    rfl
  unfold placeBuffer at h
  dsimp only at h
  rw [hbuffers] at h
  split at h
  · rename_i hindex
    cases h
    exact ⟨rfl, ⟨rfl, rfl⟩, iff_of_true rfl hindex⟩
  · rename_i hindex
    obtain ⟨m₁, h₁, h⟩ := Option.map_eq_some_iff.1 h
    cases h
    exact ⟨rfl, moveBuffer_samePool h₁, iff_of_false Bool.false_ne_true.symm hindex⟩

theorem markUsed_queue (h : m.fBlockPool.fQueue.Nodup) :
    (m.markUsed e).fBlockPool.fQueue = touch m.fBlockPool.fQueue e ∧ (m.markUsed e).allocated = m.allocated := by
  unfold markUsed
  split
  · rename_i hlast
    exact ⟨(touch_last h hlast).symm, rfl⟩
  · exact ⟨rfl, rfl⟩

/-- `DeleteOldBuffs` deletes buffers from the head of the queue. -/
theorem deleteOldBuffs_queue (h : deleteOldBuffs n m = some m') :
    m.fBlockPool.fQueue = deletedBuffs n m ++ m'.fBlockPool.fQueue ∧ m'.allocated = m.allocated := by
  induction n generalizing m with
  | zero =>
    cases h
    exact ⟨rfl, rfl⟩
  | succ n ih =>
    rw [deleteOldBuffs] at h
    rw [deletedBuffs]
    split at h
    · rename_i hlimit
      obtain ⟨⟨m₁, theElem⟩, helem, h⟩ := Option.bind_eq_some_iff.1 h
      obtain ⟨m₂, hset, h⟩ := Option.bind_eq_some_iff.1 h
      obtain ⟨hpool, hallocated⟩ := setEntry_samePool hset
      obtain ⟨hqueue, hallocated'⟩ := ih h
      rw [if_pos hlimit, helem, Option.elim_some]
      dsimp only
      rw [hset, Option.elim_some, List.cons_append, ← hqueue]
      rw [getBufferElement, if_neg (Nat.not_lt_of_gt hlimit)] at helem
      split at helem
      · cases helem
      · rename_i hhead
        cases helem
        dsimp only at hpool hallocated hallocated' ⊢
        rw [hpool, hallocated', hallocated, hhead]
        exact ⟨rfl, rfl⟩
    · rename_i hlimit
      cases h
      rw [if_neg hlimit]
      exact ⟨rfl, rfl⟩

/-- Where the buffer for the block `i` comes from, when `rest` is the queue. -/
inductive Source (m : FileMap) (array : Nat → Option Nat) (rest : List Nat) (i : Nat) (m' : FileMap) (e : Nat) : Bool → Prop
  | found (hentry : array i = some e) (hin : e ∈ rest) (hallocated : m'.allocated = m.allocated) :
      Source m array rest i m' e false
  | created (hnew : e = m.allocated) (hless : rest.length < m.fBlockPool.fMaxBuffers)
      (hallocated : m'.allocated = m.allocated + 1) : Source m array rest i m' e true
  | recycled (hentry : array i ≠ some e) (hhead : rest.head? = some e) (hfull : ¬rest.length < m.fBlockPool.fMaxBuffers)
      (hallocated : m'.allocated = m.allocated) : Source m array rest i m' e true

/-- The queue after a buffer has been found and placed. -/
theorem findBuffer_queue (h : m.Linked array)
    (hplace : ((m.findBuffer i).bind fun r => r.1.placeBuffer r.2 i) = some (m', e, fillBuff)) :
    m'.fBlockPool.fQueue = touch m.fBlockPool.fQueue e ∧ Source m array m.fBlockPool.fQueue i m' e fillBuff := by
  rw [findBuffer, h.map, Option.bind_some] at hplace
  cases hentry : array i with
  | some e₀ =>
    obtain ⟨hin, hindex⟩ := (h.entry_iff i e₀).1 hentry
    rw [hentry] at hplace
    obtain ⟨rfl, hpool, hfill⟩ := placeBuffer_pool hplace
    obtain rfl := hfill.2 hindex
    obtain ⟨hqueue, hallocated⟩ := markUsed_queue (e := e) h.nodup
    exact ⟨hpool.pool ▸ hqueue, .found hentry hin (hpool.allocated.trans hallocated)⟩
  | none =>
    rw [hentry] at hplace
    dsimp only at hplace
    by_cases hlimit : m.fBlockPool.fNumCurrentBuffers < m.fBlockPool.fMaxBuffers
    · have hnew : m.allocated ∉ m.fBlockPool.fQueue := fun he => Nat.lt_irrefl _ (h.fresh _ he)
      rw [getBufferElement_new hlimit] at hplace
      obtain ⟨rfl, hpool, hfill⟩ := placeBuffer_pool hplace
      rw [markUsed_last List.getLast?_concat] at hpool
      have hfill : fillBuff = true := by
        rw [← Bool.not_eq_false, hfill]
        simp [newBuffer]
      subst hfill
      refine ⟨?_, .created rfl (h.count ▸ hlimit) hpool.allocated⟩
      rw [hpool.pool, touch_of_notMem hnew]
      rfl
    · cases hqueue : m.fBlockPool.fQueue with
      | nil =>
        rw [getBufferElement, if_neg hlimit, hqueue] at hplace
        cases hplace
      | cons e₀ q =>
        have hout : e₀ ∉ q := (List.nodup_cons.1 (hqueue ▸ h.nodup)).1
        rw [getBufferElement_old hlimit hqueue] at hplace
        obtain ⟨rfl, hpool, hfill⟩ := placeBuffer_pool hplace
        have hmark : (m.withQueue q).markUsed e = (m.withQueue q).withQueue (q ++ [e]) := markUsed_gone hout
        rw [hmark] at hpool
        have hfill : fillBuff = true := by
          rw [← Bool.not_eq_false, hfill]
          intro hindex
          cases hentry.symm.trans ((h.entry_iff i e).2 ⟨hqueue ▸ List.mem_cons_self, hindex⟩)
        subst hfill
        refine ⟨?_, .recycled (by simp [hentry]) rfl (hqueue ▸ h.count ▸ hlimit) hpool.allocated⟩
        rw [hpool.pool, touch, List.erase_cons_head]
        rfl

/-- **The queue after `GetBuffer`.** -/
theorem getBuffer_queue (h : m.Linked array) (hget : m.getBuffer i = some (m', e, fillBuff)) :
    ∃ rest, m.fBlockPool.fQueue = deletedBuffs m.fBlockPool.fNumCurrentBuffers m ++ rest ∧
      rest.length ≤ m.fBlockPool.fMaxBuffers ∧ m'.fBlockPool.fQueue = touch rest e ∧
      Source m array rest i m' e fillBuff := by
  obtain ⟨m₁, array₁, hdelete, h₁, halike, hsub, hbuffers, hcount⟩ :=
    deleteOldBuffs_spec (n := m.fBlockPool.fNumCurrentBuffers) h
  obtain ⟨hqueue, hallocated⟩ := deleteOldBuffs_queue hdelete
  rw [getBuffer, hdelete, Option.bind_some] at hget
  split at hget
  · obtain ⟨hqueue', hsource⟩ := findBuffer_queue h₁ hget
    refine ⟨m₁.fBlockPool.fQueue, hqueue, ?_, hqueue', ?_⟩
    · rw [← h₁.count]
      omega
    · cases hsource with
      | found hentry hin hsame => exact .found (hsub i e hentry) hin (hsame.trans hallocated)
      | created hnew hless hsame =>
        exact .created (hnew.trans hallocated) (halike.limit ▸ hless) (by rw [hsame, hallocated])
      | recycled hentry hhead hfull hsame =>
        refine .recycled (fun hmapped => hentry ?_) hhead (halike.limit ▸ hfull) (hsame.trans hallocated)
        have hindex := ((h.entry_iff i e).1 hmapped).2
        rw [← hbuffers] at hindex
        exact (h₁.entry_iff i e).2 ⟨List.mem_of_head? hhead, hindex⟩
  · cases hget

end Queue

/-! ## The invariant -/

section Inv

variable {w w' : World} {c : Call} {calls : List Call} {array : Nat → Option Nat} {sizeofPointer e i : Nat} {fillBuff : Bool}

/-- The map does not exist yet, or its entries and the queue belong together; the queue holds the pool in the order of use. -/
structure Inv (w : World) : Prop where
  map : w.map.fFileMapArray = none ∧ w.map.fMapArraySize = 0 ∧ w.map.fBlockPool.fQueue = [] ∧
      w.map.fBlockPool.fNumCurrentBuffers = 0 ∨
    w.map.fMapArraySize < 2147483648 ∧ ∃ array, w.map.Linked array
  pool : ∀ e, e ∈ w.map.fBlockPool.fQueue ↔ InPool w e
  gone : ∀ e ∈ w.deleted, e < w.map.allocated
  recent : Recency w.lastUsed w.now w.map.fBlockPool.fQueue

theorem inv_new (fBufferInc : Nat) : Inv (.new fBufferInc) := by
  refine ⟨Or.inl ⟨rfl, rfl, rfl, rfl⟩, fun e => ?_, fun e he => ?_, .nil⟩
  · exact iff_of_false List.not_mem_nil fun h => Nat.not_lt_zero _ h.1
  · cases he

theorem Inv.consistent (h : Inv w) : Consistent w := by
  have hqueue : ∀ e, w.map.fBlockPool.fQueue.count e = if InPool w e then 1 else 0 := by
    intro e
    split
    · rename_i he
      exact List.count_eq_one_of_mem h.recent.nodup ((h.pool e).2 he)
    · rename_i he
      exact List.count_eq_zero.2 fun hin => he ((h.pool e).1 hin)
  rcases h.map with ⟨hmap, hsize, hempty, hcount⟩ | ⟨-, array, hlinked⟩
  · refine ⟨fun i hi => ?_, hqueue, by rw [hempty, hcount]; rfl⟩
    rw [hsize] at hi
    cases hi
  · refine ⟨fun i _ e => ?_, hqueue, hlinked.count.symm⟩
    rw [Mapped, hlinked.map, Option.bind_some, hlinked.entry_iff, h.pool]

section GetBuffer

variable {m' : FileMap} {rest D : List Nat} {x : Nat}

/-- What is left of the pool when the buffers `D` are deleted. -/
theorem Inv.mem_rest (h : Inv w) (hqueue : w.map.fBlockPool.fQueue = D ++ rest) : x ∈ rest ↔ InPool w x ∧ x ∉ D := by
  have hnodup := h.recent.nodup
  rw [← h.pool x]
  rw [hqueue] at hnodup ⊢
  constructor
  · exact fun hx => ⟨List.mem_append_right _ hx, fun hin => (List.nodup_append.1 hnodup).2.2 x hin x hx rfl⟩
  · exact fun hx => (List.mem_append.1 hx.1).resolve_left hx.2

theorem Inv.notMem_rest (h : Inv w) (hqueue : w.map.fBlockPool.fQueue = D ++ rest) : w.map.allocated ∉ rest :=
  fun hin => Nat.lt_irrefl _ ((h.mem_rest hqueue).1 hin).1.1

theorem Source.le (h : Source w.map array rest i m' e fillBuff) : w.map.allocated ≤ m'.allocated := by
  cases h with
  | found _ _ hallocated => exact Nat.le_of_eq hallocated.symm
  | created _ _ hallocated => exact hallocated ▸ Nat.le_succ _
  | recycled _ _ _ hallocated => exact Nat.le_of_eq hallocated.symm

/-- The deleted buffers have been allocated. -/
theorem Inv.deleted_lt (h : Inv w) (hqueue : w.map.fBlockPool.fQueue = D ++ rest) (hx : x ∈ D ++ w.deleted) :
    x < w.map.allocated := by
  rcases List.mem_append.1 hx with hx | hx
  · exact ((h.pool x).1 (hqueue ▸ List.mem_append_left _ hx)).1
  · exact h.gone x hx

/-- The pool afterwards: what is left, and the buffer that is given. -/
theorem Inv.mem_touch (h : Inv w) (hqueue : w.map.fBlockPool.fQueue = D ++ rest)
    (hsource : Source w.map array rest i m' e fillBuff) : x ∈ touch rest e ↔ x < m'.allocated ∧ x ∉ D ++ w.deleted := by
  have hkept : x ∈ rest ↔ x < w.map.allocated ∧ x ∉ D ++ w.deleted := by
    rw [h.mem_rest hqueue, InPool, List.mem_append, not_or, and_assoc, and_comm (a := x ∉ D)]
  have hin : e ∈ rest → (x ∈ touch rest e ↔ x ∈ rest) := by
    intro he
    rw [Base.mem_touch]
    exact or_iff_left_of_imp fun hx => hx ▸ he
  cases hsource with
  | found _ he hallocated => rw [hin he, hkept, hallocated]
  | recycled _ hhead _ hallocated => rw [hin (List.mem_of_head? hhead), hkept, hallocated]
  | created hnew _ hallocated =>
    rw [Base.mem_touch, hkept, hallocated, hnew, Nat.lt_succ_iff_lt_or_eq, or_and_right]
    refine or_congr_right ⟨fun hx => ⟨hx, fun hout => ?_⟩, And.left⟩
    exact Nat.ne_of_lt (h.deleted_lt hqueue hout) hx

/-- The queue is not longer than the limit. -/
theorem Inv.length_touch (h : Inv w) (hqueue : w.map.fBlockPool.fQueue = D ++ rest)
    (hlength : rest.length ≤ w.map.fBlockPool.fMaxBuffers) (hsource : Source w.map array rest i m' e fillBuff) :
    (touch rest e).length ≤ w.map.fBlockPool.fMaxBuffers := by
  cases hsource with
  | found _ he _ => rwa [length_touch_of_mem he]
  | recycled _ hhead _ _ => rwa [length_touch_of_mem (List.mem_of_head? hhead)]
  | created hnew hless _ =>
    rw [hnew, touch_of_notMem (h.notMem_rest hqueue), List.length_append]
    exact hless

/-- The buffer was in the map for the block before exactly when it has been found there. -/
theorem Inv.fillBuff_iff (h : Inv w) (hlinked : w.map.Linked array) (hsource : Source w.map array rest i m' e fillBuff) :
    fillBuff = false ↔ array i = some e := by
  cases hsource with
  | found hentry _ _ => exact iff_of_true rfl hentry
  | recycled hentry _ _ _ => exact iff_of_false Bool.false_ne_true.symm hentry
  | created hnew _ _ =>
    refine iff_of_false Bool.false_ne_true.symm fun hentry => ?_
    rw [hlinked.entry_iff, h.pool, hnew] at hentry
    exact Nat.lt_irrefl _ hentry.1.1

/-- The head of what is left is the least recently used buffer. -/
theorem Inv.recycled_lt (h : Inv w) (hqueue : w.map.fBlockPool.fQueue = D ++ rest)
    (hsource : Source w.map array rest i m' e true) (he : InPool w e) (hx : x ∈ touch rest e) (hne : x ≠ e) :
    w.lastUsed e < w.lastUsed x := by
  cases hsource with
  | created hnew _ _ => exact absurd (hnew ▸ he.1) (Nat.lt_irrefl _)
  | recycled _ hhead _ _ =>
    obtain ⟨l, rfl⟩ := List.head?_eq_some_iff.1 hhead
    have hrest := h.recent.sublist (hqueue ▸ List.sublist_append_right D (e :: l))
    exact hrest.head_lt ((Base.mem_touch.1 hx).resolve_right hne) hne

/-- A call of `GetBuffer` when the pool may have a buffer. -/
theorem Inv.getBuffer (h : Inv w) (sizeofPointer : Nat) (hi : i < w.map.fMapArraySize)
    (hlimit : w.map.fBlockPool.fMaxBuffers ≠ 0) :
    ∃ w' e fillBuff, call sizeofPointer w (.GetBuffer i) = some (w', some (e, fillBuff)) ∧ Gives w w' i e fillBuff ∧
      Inv w' := by
  rcases h.map with ⟨-, hsize, -⟩ | ⟨hsmall, array, hlinked⟩
  · rw [hsize] at hi
    cases hi
  obtain ⟨m', array', e, fillBuff, hget, got⟩ := getBuffer_spec hlinked hi hsmall (Nat.pos_of_ne_zero hlimit)
  obtain ⟨rest, hqueue, hlength, hqueue', hsource⟩ := getBuffer_queue hlinked hget
  have hpool : ∀ x, x ∈ m'.fBlockPool.fQueue ↔
      x < m'.allocated ∧ x ∉ deletedBuffs w.map.fBlockPool.fNumCurrentBuffers w.map ++ w.deleted := by
    intro x
    rw [hqueue']
    exact h.mem_touch hqueue hsource
  refine ⟨_, e, fillBuff, by rw [call, hget]; rfl, ⟨?_, ?_, ?_, ?_⟩, Or.inr ⟨?_, array', got.linked⟩, hpool, ?_, ?_⟩
  · rw [Mapped, got.linked.map]
    exact got.entry
  · rw [Mapped, hlinked.map]
    exact h.fillBuff_iff hlinked hsource
  · dsimp only
    rw [got.linked.count, hqueue', got.alike.limit]
    exact Nat.le_trans (h.length_touch hqueue hlength hsource) (Nat.le_max_right _ _)
  · rintro rfl he x hx hne
    exact h.recycled_lt hqueue hsource he (hqueue' ▸ (hpool x).2 hx) hne
  · rw [got.alike.blocks]
    exact hsmall
  · exact fun x hx => Nat.lt_of_lt_of_le (h.deleted_lt hqueue hx) hsource.le
  · rw [hqueue']
    exact (h.recent.sublist (hqueue ▸ List.sublist_append_right _ rest)).touch e

end GetBuffer

/-- A new map: what was in the queue is deleted. -/
theorem Inv.makeMap (h : Inv w) {units incBuffers fileLen : Nat} (hsmall : fileLen / dataBufferSize units + 1 < 2147483648) :
    Inv { w with map := w.map.makeMap units incBuffers fileLen, deleted := w.map.fBlockPool.fQueue ++ w.deleted } := by
  have hqueue : (w.map.makeMap units incBuffers fileLen).fBlockPool.fQueue = [] := (w.map.makeMap_queue ..).1
  refine ⟨Or.inr ⟨hsmall, _, linked_makeMap⟩, fun e => ?_, fun e he => ?_, ?_⟩
  · rw [hqueue]
    refine iff_of_false List.not_mem_nil fun he => ?_
    obtain ⟨hin, hout⟩ := not_or.1 (mt List.mem_append.2 he.2)
    exact hin ((h.pool e).2 ⟨he.1, hout⟩)
  · rcases List.mem_append.1 he with he | he
    · exact ((h.pool e).1 he).1
    · exact h.gone e he
  · rw [hqueue]
    exact .nil

/-- Another limit. -/
theorem Inv.limit (h : Inv w) (fMaxBuffers : Nat) :
    Inv { w with map := { w.map with fBlockPool := { w.map.fBlockPool with fMaxBuffers := fMaxBuffers } } } := by
  refine ⟨?_, h.pool, h.gone, h.recent⟩
  rcases h.map with hnone | ⟨hsmall, array, hlinked⟩
  · exact Or.inl hnone
  · exact Or.inr ⟨hsmall, array, hlinked.limit fMaxBuffers⟩

/-- **One call** returns and does what it is to do. -/
theorem Inv.call (h : Inv w) (hlegal : Legal w c) (hready : Ready sizeofPointer w c) :
    ∃ w' r, call sizeofPointer w c = some (w', r) ∧ Right w w' c r ∧ Inv w' := by
  cases c with
  | AllocateBufferMap unitK units incBuffers maxBlocks fileLen rate =>
    rw [FileBlocks.call, allocateBufferMap]
    by_cases hkeeps : w.map.Keeps units.toNat incBuffers.toNat
    · rw [if_pos hkeeps, if_pos hkeeps]
      exact ⟨w, none, rfl, trivial, h⟩
    · have hfits := hready.resolve_left hkeeps
      rw [if_neg hkeeps, if_neg hkeeps, if_pos hfits]
      exact ⟨_, none, rfl, trivial, h.makeMap (Nat.lt_of_succ_lt hfits.2.2.1)⟩
  | GetBuffer i =>
    obtain ⟨w', e, fillBuff, hcall, hgives, h'⟩ := h.getBuffer sizeofPointer hlegal hready
    exact ⟨w', _, hcall, ⟨e, fillBuff, rfl, hgives⟩, h'⟩
  | IncMaxBuffers => exact ⟨_, none, rfl, trivial, h.limit _⟩
  | DecMaxBuffers =>
    obtain ⟨fMaxBuffers, hdec⟩ := w.map.fBlockPool.decMaxBuffers_eq
    refine ⟨_, none, rfl, trivial, ?_⟩
    rw [hdec]
    exact h.limit fMaxBuffers

/-- A call that is not ready stops. -/
theorem Inv.stops (h : Inv w) (hlegal : Legal w c) (hready : ¬ Ready sizeofPointer w c) :
    FileBlocks.call sizeofPointer w c = none := by
  cases c with
  | AllocateBufferMap unitK units incBuffers maxBlocks fileLen rate =>
    obtain ⟨hkeeps, hfits⟩ := not_or.1 hready
    rw [FileBlocks.call, allocateBufferMap, if_neg hkeeps, if_neg hkeeps, if_neg hfits]
    rfl
  | GetBuffer i =>
    rcases h.map with ⟨-, hsize, -⟩ | ⟨-, array, hlinked⟩
    · rw [Legal, hsize] at hlegal
      cases hlegal
    · rw [FileBlocks.call, getBuffer_none hlinked (not_not.1 hready)]
      rfl
  | IncMaxBuffers | DecMaxBuffers => exact absurd trivial hready

/-- The rule for runs. -/
theorem Inv.serves_iff (h : Inv w) (hlegal : Along (quiet (FileBlocks.call sizeofPointer)) Legal w calls) :
    Serves sizeofPointer w calls ↔ Along (quiet (FileBlocks.call sizeofPointer)) (Ready sizeofPointer) w calls := by
  induction calls generalizing w with
  | nil => exact iff_of_true h.consistent trivial
  | cons c calls ih =>
    by_cases hready : Ready sizeofPointer w c
    · obtain ⟨w', r, hcall, hright, h'⟩ := h.call hlegal.1 hready
      have hquiet := quiet_eq_some hcall
      have hiff := ih h' (hlegal.2 w' hquiet)
      constructor
      · rintro ⟨-, w₁, r₁, hcall₁, -, hrest⟩
        cases hcall.symm.trans hcall₁
        refine ⟨hready, fun w₂ hquiet₂ => ?_⟩
        cases hquiet.symm.trans hquiet₂
        exact hiff.1 hrest
      · exact fun hAlong => ⟨h.consistent, w', r, hcall, hright, hiff.2 (hAlong.2 w' hquiet)⟩
    · refine iff_of_false ?_ fun hAlong => hready hAlong.1
      rintro ⟨-, w', r, hcall, -⟩
      rw [h.stops hlegal.1 hready] at hcall
      cases hcall

end Inv

/-- **FileMap and FileBlockPool**: in every run from the constructor, with positive increments and for the blocks of the map,
the map is consistent and `GetBuffer` gives the buffer it is to give exactly when every new map fits, and there may be a buffer
whenever `GetBuffer` is called. -/
theorem fileMap_serves_iff (sizeofPointer fBufferInc : Nat) (calls : List Call)
    (hlegal : Along (quiet (call sizeofPointer)) Legal (.new fBufferInc) calls) :
    Serves sizeofPointer (.new fBufferInc) calls ↔
      Along (quiet (call sizeofPointer)) (Ready sizeofPointer) (.new fBufferInc) calls :=
  (inv_new fBufferInc).serves_iff hlegal

/-- Three blocks and two buffers, then one buffer. -/
theorem fileMap_three_blocks : Serves 8 (.new 0)
    [.AllocateBufferMap 32 1 1 8 100000 0, .IncMaxBuffers, .GetBuffer 0, .GetBuffer 1, .GetBuffer 0, .GetBuffer 2,
      .DecMaxBuffers, .GetBuffer 3] :=
  (fileMap_serves_iff 8 0 _ (by decide +kernel)).2 (by decide +kernel)

/-- Adding 2147483648 to 2147483648 buffers leaves none. -/
theorem fileMap_limit_wraps :
    Along (quiet (call 8)) Legal (.new 0) [.AllocateBufferMap 32 1 2147483648 8 1 0, .IncMaxBuffers, .GetBuffer 0] ∧
      ¬ Serves 8 (.new 0) [.AllocateBufferMap 32 1 2147483648 8 1 0, .IncMaxBuffers, .GetBuffer 0] := by
  have hlegal : Along (quiet (call 8)) Legal (.new 0)
      [.AllocateBufferMap 32 1 2147483648 8 1 0, .IncMaxBuffers, .GetBuffer 0] := by decide +kernel
  refine ⟨hlegal, ?_⟩
  rw [(inv_new 0).serves_iff hlegal]
  decide +kernel

end ToolLib.Common.FileBlocks
