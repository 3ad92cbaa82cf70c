import Mathlib.Data.List.Nodup
import ToolLib.Common.OSFileSource

/-!
# The map and the pool of the block cache

Every buffer of the queue is in the map for exactly one block, the one it says (`Linked`). `GetBuffer` keeps this when the
pool may have a buffer: it gives the block's own buffer, a new one, or the least recently used one, which it takes out of
the map for its old block (`getBuffer_spec`).
-/

namespace ToolLib.Common.FileSource

namespace FileMap

/-- The buffers of the queue and the entries of the map belong together. -/
structure Linked (m : FileMap) (array : Nat → Option Nat) : Prop where
  map : m.fFileMapArray = some array
  nodup : m.fBlockPool.fQueue.Nodup
  count : m.fBlockPool.fNumCurrentBuffers = m.fBlockPool.fQueue.length
  fresh : ∀ e ∈ m.fBlockPool.fQueue, e < m.allocated
  bound : ∀ e ∈ m.fBlockPool.fQueue, ∃ i : Nat, i < m.fMapArraySize ∧ (m.buffers e).fArrayIndex = i
  entry_iff : ∀ i e, array i = some e ↔ e ∈ m.fBlockPool.fQueue ∧ (m.buffers e).fArrayIndex = i

/-- The geometry and the limits are the same. -/
structure Alike (m m' : FileMap) : Prop where
  size : m'.fDataBufferSize = m.fDataBufferSize
  blocks : m'.fMapArraySize = m.fMapArraySize
  units : m'.fNumBuffSizeUnits = m.fNumBuffSizeUnits
  limit : m'.fBlockPool.fMaxBuffers = m.fBlockPool.fMaxBuffers
  inc : m'.fBlockPool.fBufferInc = m.fBlockPool.fBufferInc

theorem Alike.refl (m : FileMap) : Alike m m := ⟨rfl, rfl, rfl, rfl, rfl⟩

theorem Alike.trans {m m' m'' : FileMap} (h : Alike m m') (h' : Alike m' m'') : Alike m m'' :=
  ⟨h'.size.trans h.size, h'.blocks.trans h.blocks, h'.units.trans h.units, h'.limit.trans h.limit, h'.inc.trans h.inc⟩

section Pool

variable {m m' : FileMap} {array array' : Nat → Option Nat} {i e buffIndex n : Nat} {q : List Nat}

theorem setEntry_of_lt {entry : Option Nat} (hmap : m.fFileMapArray = some array) (hi : i < m.fMapArraySize) :
    m.setEntry i entry = some { m with fFileMapArray := some (Function.update array i entry) } := by
  rw [setEntry, hmap, Option.bind_some, if_pos (by omega), Int.toNat_natCast]

theorem getBufferElement_new (h : m.fBlockPool.fNumCurrentBuffers < m.fBlockPool.fMaxBuffers) :
    m.getBufferElement = some (m.newBuffer, m.allocated) :=
  if_pos h

theorem getBufferElement_old (h : ¬m.fBlockPool.fNumCurrentBuffers < m.fBlockPool.fMaxBuffers)
    (hq : m.fBlockPool.fQueue = e :: q) : m.getBufferElement = some (m.withQueue q, e) := by
  rw [getBufferElement, if_neg h, hq]

theorem newBuffer_buffers (h : e ≠ m.allocated) : m.newBuffer.buffers e = m.buffers e := Function.update_of_ne h ..

/-- A buffer that has been taken out of the queue and of the map. -/
theorem Linked.drop (h : m.Linked array) (hq : m.fBlockPool.fQueue = e :: q) (hi : (m.buffers e).fArrayIndex = (i : Nat)) :
    Linked { m with
      fFileMapArray := some (Function.update array i none)
      fBlockPool := { m.fBlockPool with fQueue := q, fNumCurrentBuffers := m.fBlockPool.fNumCurrentBuffers - 1 } }
      (Function.update array i none) where
  map := rfl
  nodup := (List.nodup_cons.1 (hq ▸ h.nodup)).2
  count := by
    have hcount := h.count
    rw [hq, List.length_cons] at hcount
    exact Nat.sub_eq_of_eq_add hcount
  fresh x hx := h.fresh x (hq ▸ List.mem_cons_of_mem _ hx)
  bound x hx := h.bound x (hq ▸ List.mem_cons_of_mem _ hx)
  entry_iff j x := by
    have hnew : e ∉ q := (List.nodup_cons.1 (hq ▸ h.nodup)).1
    have hentry := h.entry_iff j x
    rw [hq, List.mem_cons] at hentry
    by_cases hj : j = i
    · subst hj
      rw [Function.update_self]
      refine iff_of_false (by simp) ?_
      rintro ⟨hx, hxi⟩
      have he : array j = some e := (h.entry_iff j e).2 ⟨hq ▸ List.mem_cons_self, hi⟩
      have hx' : array j = some x := hentry.2 ⟨Or.inr hx, hxi⟩
      cases he.symm.trans hx'
      exact hnew hx
    · rw [Function.update_of_ne hj, hentry]
      constructor
      · rintro ⟨rfl | hx, hxj⟩
        · exact absurd (Int.ofNat.inj (hxj.symm.trans hi)) hj
        · exact ⟨hx, hxj⟩
      · exact fun hx => ⟨Or.inr hx.1, hx.2⟩

/-- What the deletion of old buffers leaves. -/
theorem deleteOldBuffs_spec (h : m.Linked array) : ∃ m' array', deleteOldBuffs n m = some m' ∧ m'.Linked array' ∧ Alike m m' ∧
    (∀ j x, array' j = some x → array j = some x) ∧ m'.buffers = m.buffers ∧
    m'.fBlockPool.fNumCurrentBuffers ≤ max m.fBlockPool.fMaxBuffers (m.fBlockPool.fNumCurrentBuffers - n) := by
  induction n generalizing m array with
  | zero => exact ⟨m, array, rfl, h, Alike.refl m, fun _ _ => id, rfl, by omega⟩
  | succ n ih =>
    rw [deleteOldBuffs]
    by_cases hlimit : m.fBlockPool.fMaxBuffers < m.fBlockPool.fNumCurrentBuffers
    · obtain ⟨e, q, hq⟩ : ∃ e q, m.fBlockPool.fQueue = e :: q := by
        apply List.exists_cons_of_ne_nil
        rintro hnil
        rw [h.count, hnil] at hlimit
        exact Nat.not_lt_zero _ hlimit
      obtain ⟨i, hi, hindex⟩ := h.bound e (hq ▸ List.mem_cons_self)
      rw [if_pos hlimit, getBufferElement_old (Nat.not_lt_of_gt hlimit) hq]
      have hset : (m.withQueue q).setEntry i none = _ := setEntry_of_lt h.map hi
      have hindex' : ((m.withQueue q).buffers e).fArrayIndex = i := hindex
      simp only [Option.bind_some, hindex']
      rw [hset, Option.bind_some]
      obtain ⟨m', array', heq, hlinked, halike, hsub, hbuffers, hcount⟩ := ih (h.drop hq hindex)
      refine ⟨m', array', heq, hlinked, ⟨halike.size, halike.blocks, halike.units, halike.limit, halike.inc⟩, ?_,
        hbuffers, ?_⟩
      swap
      · simp only [] at hcount
        omega
      intro j x hx
      have hold := hsub j x hx
      by_cases hj : j = i
      · subst hj
        rw [Function.update_self] at hold
        cases hold
      · rwa [Function.update_of_ne hj] at hold
    · rw [if_neg hlimit]
      exact ⟨m, array, rfl, h, Alike.refl m, fun _ _ => id, rfl, by omega⟩

/-- The queue in another order. -/
theorem Linked.reorder (h : m.Linked array) (hperm : q.Perm m.fBlockPool.fQueue) : (m.withQueue q).Linked array where
  map := h.map
  nodup := hperm.nodup_iff.2 h.nodup
  count := h.count.trans hperm.length_eq.symm
  fresh e he := h.fresh e (hperm.mem_iff.1 he)
  bound e he := h.bound e (hperm.mem_iff.1 he)
  entry_iff i e := (h.entry_iff i e).trans (and_congr_left' hperm.mem_iff.symm)

theorem Linked.markUsed (h : m.Linked array) (he : e ∈ m.fBlockPool.fQueue) : (m.markUsed e).Linked array := by
  rw [FileMap.markUsed]
  split
  · exact h
  · exact h.reorder ((List.perm_append_comm).trans (List.perm_cons_erase he).symm)

/-- A buffer at the tail of the queue that is for no other block any more is put into the map for a block that has none. -/
theorem Linked.install (h : m.Linked array) (hi : i < m.fMapArraySize)
    (hnone : array i = none) (hmap : m'.fFileMapArray = some (Function.update array' i (some e)))
    (hblocks : m'.fMapArraySize = m.fMapArraySize)
    (hqueue : m'.fBlockPool.fQueue = q ++ [e]) (hq : ∀ x, x ∈ q ↔ x ∈ m.fBlockPool.fQueue ∧ x ≠ e) (hnodup : q.Nodup)
    (hcount : m'.fBlockPool.fNumCurrentBuffers = q.length + 1) (hfresh : e < m'.allocated) (hle : m.allocated ≤ m'.allocated)
    (hself : (m'.buffers e).fArrayIndex = i) (hother : ∀ x ≠ e, m'.buffers x = m.buffers x)
    (hentry : ∀ j x, array' j = some x ↔ array j = some x ∧ x ≠ e) : m'.Linked (Function.update array' i (some e)) where
  map := hmap
  nodup := by
    rw [hqueue]
    exact List.nodup_append.2 ⟨hnodup, List.nodup_singleton e, fun x hx y hy => by
      rw [List.mem_singleton.1 hy]
      exact ((hq x).1 hx).2⟩
  count := by rw [hcount, hqueue, List.length_append, List.length_singleton]
  fresh x hx := by
    rw [hqueue, List.mem_append, List.mem_singleton] at hx
    rcases hx with hx | rfl
    · exact Nat.lt_of_lt_of_le (h.fresh x ((hq x).1 hx).1) hle
    · exact hfresh
  bound x hx := by
    rw [hqueue, List.mem_append, List.mem_singleton] at hx
    rcases hx with hx | rfl
    · rw [hother x ((hq x).1 hx).2, hblocks]
      exact h.bound x ((hq x).1 hx).1
    · exact ⟨i, hblocks ▸ hi, hself⟩
  entry_iff j x := by
    rw [hqueue, List.mem_append, List.mem_singleton, hq]
    by_cases hx : x = e
    · subst hx
      rw [hself]
      by_cases hj : j = i
      · subst hj
        simp
      · have hindex : ¬(i : Int) = j := fun heq => hj (Int.ofNat.inj heq).symm
        rw [Function.update_of_ne hj, hentry]
        simp [hindex]
    · rw [hother x hx]
      by_cases hj : j = i
      · subst hj
        have hno : ¬(x ∈ m.fBlockPool.fQueue ∧ (m.buffers x).fArrayIndex = j) := by
          rw [← h.entry_iff, hnone]
          simp
        rw [Function.update_self]
        simpa [hx, Ne.symm hx] using hno
      · rw [Function.update_of_ne hj, hentry, h.entry_iff]
        simp [hx]

/-- What `GetBuffer` does for a block of the map: the buffer it gives is the one of the block afterwards, and the other blocks
that still have buffers have those they had. -/
structure Got (m : FileMap) (array : Nat → Option Nat) (i : Nat) (m' : FileMap) (array' : Nat → Option Nat) (e : Nat)
    (fillBuff : Bool) : Prop where
  linked : m'.Linked array'
  alike : Alike m m'
  entry : array' i = some e
  others : ∀ j x, j ≠ i → array' j = some x → array j = some x ∧ m'.buffers x = m.buffers x
  found : fillBuff = false → array i = some e ∧ m'.buffers e = m.buffers e

theorem markUsed_eq (m : FileMap) (e : Nat) :
    ∃ q, m.markUsed e = m.withQueue q := by
  rw [markUsed]
  split
  · exact ⟨m.fBlockPool.fQueue, rfl⟩
  · exact ⟨_, rfl⟩

theorem markUsed_last (h : m.fBlockPool.fQueue.getLast? = some e) : m.markUsed e = m := if_pos h

theorem markUsed_gone (h : e ∉ m.fBlockPool.fQueue) :
    m.markUsed e = m.withQueue (m.fBlockPool.fQueue ++ [e]) := by
  rw [markUsed, if_neg fun hlast => h (List.mem_of_getLast? hlast), List.erase_of_not_mem h]

theorem placeBuffer_found (h : m.Linked array) (hentry : array i = some e) :
    ∃ m', m.placeBuffer e i = some (m', e, false) ∧ Got m array i m' array e false := by
  obtain ⟨he, hindex⟩ := (h.entry_iff i e).1 hentry
  have hlinked := h.markUsed he
  obtain ⟨q, hq⟩ := markUsed_eq m e
  rw [hq] at hlinked
  refine ⟨_, ?_, hlinked, ⟨rfl, rfl, rfl, rfl, rfl⟩, hentry, fun j x _ hx => ⟨hx, rfl⟩, fun _ => ⟨hentry, rfl⟩⟩
  simp only [placeBuffer, hq]
  exact if_pos hindex

/-- A buffer that was in the map for no block. -/
theorem moveBuffer_free (hmap : m.fFileMapArray = some array) (hi : i < m.fMapArraySize)
    (hindex : (m.buffers e).fArrayIndex = -1) :
    m.moveBuffer e i = some { m with
      fFileMapArray := some (Function.update array i (some e))
      buffers := Function.update m.buffers e { m.buffers e with fArrayIndex := i } } := by
  have hneg : ¬0 ≤ (m.buffers e).fArrayIndex := by
    rw [hindex]
    decide
  rw [moveBuffer, if_neg hneg, Option.bind_some, setEntry_of_lt hmap hi, Option.map_some]

/-- A buffer that was in the map for another block. -/
theorem moveBuffer_bound {j : Nat} (hmap : m.fFileMapArray = some array) (hi : i < m.fMapArraySize) (hj : j < m.fMapArraySize)
    (hindex : (m.buffers e).fArrayIndex = j) :
    m.moveBuffer e i = some { m with
      fFileMapArray := some (Function.update (Function.update array j none) i (some e))
      buffers := Function.update m.buffers e { m.buffers e with fArrayIndex := i } } := by
  have hpos : 0 ≤ (m.buffers e).fArrayIndex := by
    rw [hindex]
    exact Int.natCast_nonneg j
  rw [moveBuffer, if_pos hpos, hindex, setEntry_of_lt hmap hj, Option.bind_some]
  have hset : FileMap.setEntry { m with fFileMapArray := some (Function.update array j none) } i (some e) = _ :=
    setEntry_of_lt rfl hi
  rw [hset, Option.map_some]

theorem placeBuffer_new (h : m.Linked array) (hi : i < m.fMapArraySize) (hnone : array i = none)
    (hlimit : m.fBlockPool.fNumCurrentBuffers < m.fBlockPool.fMaxBuffers) :
    ∃ m' array' e, (m.getBufferElement.bind fun r => r.1.placeBuffer r.2 i) = some (m', e, true) ∧
      Got m array i m' array' e true := by
  have hnew : m.allocated ∉ m.fBlockPool.fQueue := fun he => Nat.lt_irrefl _ (h.fresh _ he)
  have hne (x : Nat) (hx : x ∈ m.fBlockPool.fQueue) : x ≠ m.allocated := fun heq => hnew (heq ▸ hx)
  have hentry (j x : Nat) (hx : array j = some x) : x ≠ m.allocated := hne x ((h.entry_iff j x).1 hx).1
  have hfree : (m.newBuffer.buffers m.allocated).fArrayIndex = -1 := by simp [newBuffer]
  have hindex : ¬(m.newBuffer.buffers m.allocated).fArrayIndex = i := by omega
  have hlast : m.newBuffer.markUsed m.allocated = m.newBuffer := markUsed_last List.getLast?_concat
  have hmove : m.newBuffer.moveBuffer m.allocated i = _ := moveBuffer_free h.map hi hfree
  rw [getBufferElement_new hlimit, Option.bind_some]
  simp only [placeBuffer, hlast]
  rw [if_neg hindex, hmove, Option.map_some]
  refine ⟨_, Function.update array i (some m.allocated), m.allocated, rfl, ?_, ⟨rfl, rfl, rfl, rfl, rfl⟩,
    Function.update_self .., ?_, by simp⟩
  · refine h.install (q := m.fBlockPool.fQueue) hi hnone rfl rfl rfl (fun x => ⟨fun hx => ⟨hx, hne x hx⟩, And.left⟩) h.nodup
      (congrArg (· + 1) h.count) (Nat.lt_succ_self _) (Nat.le_succ _) ?_ ?_
      fun j x => ⟨fun hx => ⟨hx, hentry j x hx⟩, And.left⟩
    · simp only [Function.update_self]
    · intro x hx
      exact (Function.update_of_ne hx ..).trans (newBuffer_buffers hx)
  · intro j x hj hx
    rw [Function.update_of_ne hj] at hx
    have hxne := hentry j x hx
    exact ⟨hx, (Function.update_of_ne hxne ..).trans (newBuffer_buffers hxne)⟩

theorem placeBuffer_old (h : m.Linked array) (hi : i < m.fMapArraySize) (hnone : array i = none)
    (hlimit : ¬m.fBlockPool.fNumCurrentBuffers < m.fBlockPool.fMaxBuffers) (hpos : 0 < m.fBlockPool.fMaxBuffers) :
    ∃ m' array' e, (m.getBufferElement.bind fun r => r.1.placeBuffer r.2 i) = some (m', e, true) ∧
      Got m array i m' array' e true := by
  obtain ⟨e, q, hq⟩ : ∃ e q, m.fBlockPool.fQueue = e :: q := by
    apply List.exists_cons_of_ne_nil
    intro hnil
    rw [h.count, hnil] at hlimit
    exact hlimit hpos
  obtain ⟨j, hj, hindex⟩ := h.bound e (hq ▸ List.mem_cons_self)
  have hej : array j = some e := (h.entry_iff j e).2 ⟨hq ▸ List.mem_cons_self, hindex⟩
  have hji : j ≠ i := by
    rintro rfl
    rw [hnone] at hej
    cases hej
  have hnodup := List.nodup_cons.1 (hq ▸ h.nodup)
  have hindex' : ¬(((m.withQueue q).withQueue (q ++ [e])).buffers e).fArrayIndex = i := by
    have hindex : (((m.withQueue q).withQueue (q ++ [e])).buffers e).fArrayIndex = j := hindex
    rw [hindex]
    exact fun heq => hji (Int.ofNat.inj heq)
  have hmark : (m.withQueue q).markUsed e = (m.withQueue q).withQueue (q ++ [e]) := markUsed_gone hnodup.1
  have hmove : ((m.withQueue q).withQueue (q ++ [e])).moveBuffer e i = _ := moveBuffer_bound h.map hi hj hindex
  rw [getBufferElement_old hlimit hq, Option.bind_some]
  simp only [placeBuffer, hmark]
  rw [if_neg hindex', hmove, Option.map_some]
  have hentry (k x : Nat) : Function.update array j none k = some x ↔ array k = some x ∧ x ≠ e := by
    by_cases hk : k = j
    · subst hk
      rw [Function.update_self, hej]
      simp [eq_comm]
    · rw [Function.update_of_ne hk]
      refine ⟨fun hx => ⟨hx, ?_⟩, And.left⟩
      rintro rfl
      exact hk (Int.ofNat.inj (((h.entry_iff k x).1 hx).2.symm.trans hindex))
  refine ⟨_, Function.update (Function.update array j none) i (some e), e, rfl, ?_, ⟨rfl, rfl, rfl, rfl, rfl⟩,
    Function.update_self .., ?_, by simp⟩
  · refine h.install (q := q) hi hnone rfl rfl rfl ?_ hnodup.2 ?_ (h.fresh e (hq ▸ List.mem_cons_self)) (Nat.le_refl _) ?_ ?_
      hentry
    · intro x
      rw [hq, List.mem_cons]
      refine ⟨fun hx => ⟨Or.inr hx, fun heq => hnodup.1 (heq ▸ hx)⟩, fun hx => hx.1.resolve_left hx.2⟩
    · exact h.count.trans (congrArg List.length hq)
    · simp only [Function.update_self]
    · intro x hx
      exact Function.update_of_ne hx ..
  · intro k x hk hx
    rw [Function.update_of_ne hk] at hx
    obtain ⟨hx, hxe⟩ := (hentry k x).1 hx
    exact ⟨hx, Function.update_of_ne hxe ..⟩

/-- **The spec of `GetBuffer`**, for a pool that may have a buffer. -/
theorem getBuffer_spec (h : m.Linked array) (hi : i < m.fMapArraySize) (hsmall : m.fMapArraySize < 2147483648)
    (hpos : 0 < m.fBlockPool.fMaxBuffers) :
    ∃ m' array' e fillBuff, m.getBuffer i = some (m', e, fillBuff) ∧ Got m array i m' array' e fillBuff := by
  obtain ⟨m₁, array₁, hdelete, h₁, halike, hsub, hbuffers, -⟩ :=
    deleteOldBuffs_spec (n := m.fBlockPool.fNumCurrentBuffers) h
  have hi₁ : i < m₁.fMapArraySize := halike.blocks ▸ hi
  have hcast : toSInt32 m₁.fMapArraySize = m₁.fMapArraySize := by
    rw [halike.blocks, toSInt32, Nat.mod_eq_of_lt (by omega), if_pos hsmall]
  have hle : (i : Int) < toSInt32 m₁.fMapArraySize := by
    rw [hcast]
    exact_mod_cast hi₁
  obtain ⟨m', array', e, fillBuff, hplace, got⟩ : ∃ m' array' e fillBuff,
      ((m₁.findBuffer i).bind fun r => r.1.placeBuffer r.2 i) = some (m', e, fillBuff) ∧
        Got m₁ array₁ i m' array' e fillBuff := by
    rw [findBuffer, h₁.map, Option.bind_some]
    cases hentry : array₁ i with
    | some e =>
      obtain ⟨m', hplace, got⟩ := placeBuffer_found h₁ hentry
      exact ⟨m', array₁, e, false, hplace, got⟩
    | none =>
      by_cases hlimit : m₁.fBlockPool.fNumCurrentBuffers < m₁.fBlockPool.fMaxBuffers
      · obtain ⟨m', array', e, hplace, got⟩ := placeBuffer_new h₁ hi₁ hentry hlimit
        exact ⟨m', array', e, true, hplace, got⟩
      · obtain ⟨m', array', e, hplace, got⟩ := placeBuffer_old h₁ hi₁ hentry hlimit (halike.limit ▸ hpos)
        exact ⟨m', array', e, true, hplace, got⟩
  refine ⟨m', array', e, fillBuff, ?_, got.linked, halike.trans got.alike, got.entry, ?_, ?_⟩
  · rw [getBuffer, hdelete, Option.bind_some, if_pos hle]
    exact hplace
  · intro j x hj hx
    obtain ⟨hold, hsame⟩ := got.others j x hj hx
    exact ⟨hsub j x hold, by rw [hsame, hbuffers]⟩
  · intro hfill
    obtain ⟨hold, hsame⟩ := got.found hfill
    exact ⟨hsub i e hold, by rw [hsame, hbuffers]⟩

/-- `GetBuffer` of a pool that may have no buffer: it deletes those that it has, and there is none for the block. -/
theorem getBuffer_none (h : m.Linked array) (hzero : m.fBlockPool.fMaxBuffers = 0) : m.getBuffer i = none := by
  obtain ⟨m', array', hdelete, h', halike, -, -, hcount⟩ := deleteOldBuffs_spec (n := m.fBlockPool.fNumCurrentBuffers) h
  have hcount' : m'.fBlockPool.fNumCurrentBuffers = 0 := by omega
  have hqueue : m'.fBlockPool.fQueue = [] := List.eq_nil_of_length_eq_zero (h'.count.symm.trans hcount')
  have hentry : array' i = none := by
    cases hi : array' i with
    | none => rfl
    | some e =>
      have he := ((h'.entry_iff i e).1 hi).1
      rw [hqueue] at he
      cases he
  have hempty : m'.getBufferElement = none := by
    rw [getBufferElement, hqueue, halike.limit, hzero]
    exact if_neg (Nat.not_lt_zero _)
  have hfind : m'.findBuffer i = none := by
    rw [findBuffer, h'.map, Option.bind_some, hentry]
    exact hempty
  rw [getBuffer, hdelete, Option.bind_some, hfind]
  split <;> rfl

end Pool

/-! ## Allocation, and the limit of the pool -/

section Limit

variable {m m' : FileMap} {array : Nat → Option Nat} {sizeofPointer unitK units incBuffers maxBlocks rate fileLen : Nat}

/-- Either the map is kept, or there is a new one, of a size that fits. -/
theorem allocateBufferMap_eq_some
    (h : m.allocateBufferMap sizeofPointer unitK units incBuffers maxBlocks fileLen rate = some m') :
    m.Keeps units incBuffers ∧ m' = m ∨ ∃ units', m' = m.makeMap units' incBuffers fileLen ∧
      dataBufferSize units' ≠ 0 ∧ fileLen / dataBufferSize units' + 1 + 1 < 2147483648 := by
  rw [allocateBufferMap] at h
  split at h
  · cases h
    exact Or.inl ⟨by assumption, rfl⟩
  · split at h
    · cases h
      have hfits : Fits sizeofPointer unitK units maxBlocks fileLen rate := by assumption
      exact Or.inr ⟨_, rfl, hfits.2.1, hfits.2.2.1⟩
    · cases h

theorem makeMap_queue (m : FileMap) (units incBuffers fileLen : Nat) :
    (m.makeMap units incBuffers fileLen).fBlockPool.fQueue = [] ∧
    (m.makeMap units incBuffers fileLen).fBlockPool.fNumCurrentBuffers = 0 ∧
    0 < (m.makeMap units incBuffers fileLen).fBlockPool.fMaxBuffers := by
  simp only [makeMap, FileBlockPool.setBuffIncValue, FileBlockPool.setMaxBuffers, FileBlockPool.deleteBlockPool]
  split
  · exact ⟨rfl, rfl, by assumption⟩
  · exact ⟨rfl, rfl, Nat.one_pos⟩

theorem makeMap_limit : (m.makeMap units incBuffers fileLen).fBlockPool.fMaxBuffers = max 1 incBuffers := by
  simp only [makeMap, FileBlockPool.setBuffIncValue, FileBlockPool.setMaxBuffers]
  by_cases hinc : 0 < incBuffers
  · rw [if_pos hinc, if_pos hinc]
    exact (max_eq_right hinc).symm
  · rw [if_neg hinc, if_neg hinc, Nat.eq_zero_of_not_pos hinc]
    rfl

/-- A new map has no buffers. -/
theorem linked_makeMap : (m.makeMap units incBuffers fileLen).Linked fun _ => none := by
  have hqueue : (m.makeMap units incBuffers fileLen).fBlockPool.fQueue = [] := (m.makeMap_queue ..).1
  refine ⟨rfl, ?_, ?_, ?_, ?_, ?_⟩
  · rw [hqueue]
    exact List.nodup_nil
  · rw [hqueue, (m.makeMap_queue ..).2.1]
    rfl
  · simp [hqueue]
  · simp [hqueue]
  · simp [hqueue]

/-- The limit of the pool does not matter for what is in the map. -/
theorem Linked.limit (h : m.Linked array) (fMaxBuffers : Nat) :
    Linked { m with fBlockPool := { m.fBlockPool with fMaxBuffers := fMaxBuffers } } array :=
  ⟨h.map, h.nodup, h.count, h.fresh, h.bound, h.entry_iff⟩

end Limit

end FileMap

theorem FileBlockPool.decMaxBuffers_eq (p : FileBlockPool) :
    ∃ fMaxBuffers, p.decMaxBuffers = { p with fMaxBuffers := fMaxBuffers } := by
  unfold decMaxBuffers
  split
  · exact ⟨_, rfl⟩
  · exact ⟨p.fMaxBuffers, rfl⟩

end ToolLib.Common.FileSource
