import ToolLib.Base.System
import ToolLib.Pusher.Frames

/-!
# What the slots of the frame cache store

The calls of the cache (FramesManager.cpp) in any order, with frames of any length. A slot stores a frame from the
`writeData` that copies the frame to it until the slot is free again; `live` has the number of that push. A slot can be in use
and store nothing: `writeData` does not look at the answer of the container, so a frame over the limit leaves the slot in use,
with what was there before.

`Stored` and `Ordered` are the invariants. `readData_iff` says when `readData` hands out the oldest frame: after the search of
the read queue the second loop returns 1 in any case.
-/

namespace ToolLib.Pusher

open ToolLib.Base

/-- A call of the cache. -/
inductive Call
  | write (tFrame : Frame)
  | read (tFrame : FrameRef)
  | findType

namespace CacheManager

/-- The container of a slot. -/
def slot (m : CacheManager) (p : Ref) : Option FrameContainer := (m.containers p.1)[p.2]?

/-- The slot of the write queue to which `writeData` copies the frame. -/
def storesAt (m : CacheManager) (tFrame : Frame) : Option Nat :=
  if tFrame.bufferLen ≤ 0 then none
  else
    match m.write.findIdx? FrameContainer.getFreeStat with
    | some i => (m.write[i]?).bind fun c => if (c.writeData tFrame).2 = none then some i else none
    | none => none

/-- The first slot in use, in the read queue or else in the write queue. -/
def firstUsed (m : CacheManager) : Option Ref :=
  match m.read.findIdx? fun c => !c.getFreeStat with
  | some i => some (m.readQueue, i)
  | none => (m.write.findIdx? fun c => !c.getFreeStat).map fun i => (m.writeQueue, i)

end CacheManager

/-- A cache, the frame that each slot stores, by its number, and what was pushed so far. -/
structure Tracked where
  manager : CacheManager
  live : Ref → Option Nat
  pushed : List Frame

namespace Tracked

/-- The frames of the slots that are in use still. -/
def keep (m : CacheManager) (live : Ref → Option Nat) (p : Ref) : Option Nat :=
  (m.slot p).bind fun c => if c.mFree then none else live p

/-- A new cache. -/
def new (frameSize queueLen : Nat) (free : Bool → Nat → Bool) : Tracked :=
  ⟨CacheManager.new frameSize queueLen free, fun _ => none, []⟩

/-- The cache changes to `m`, and nothing is stored in a new place. -/
def after (s : Tracked) (m : CacheManager) : Tracked := { s with manager := m, live := keep m s.live }

/-- What the frame is stored in. -/
def storing (s : Tracked) (tFrame : Frame) : Ref → Option Nat :=
  match s.manager.storesAt tFrame with
  | some i => Function.update s.live (s.manager.writeQueue, i) (some s.pushed.length)
  | none => s.live

/-- One call. -/
def step (s : Tracked) : Call → Option Tracked
  | .write tFrame =>
    let m := (s.manager.writeData tFrame).1
    some ⟨m, keep m (s.storing tFrame), s.pushed ++ [tFrame]⟩
  | .read tFrame => some (s.after (s.manager.readData tFrame).1)
  | .findType => some (s.after s.manager.findMediaType.1)

end Tracked

/-! ## Slots that become free -/

/-- The container becomes free; its bytes stay, and its length stays or becomes 0. -/
structure Emptied (c c' : FrameContainer) : Prop where
  free : c'.mFree = true
  memoryLen : c'.memoryLen = c.memoryLen
  buffer : c'.f.buffer = c.f.buffer
  bufferLen : c'.f.bufferLen = c.f.bufferLen ∨ c'.f.bufferLen = 0

/-- The same slots; some of them become free. -/
structure Freed (m m' : CacheManager) : Prop where
  length : ∀ b, (m'.containers b).length = (m.containers b).length
  slots : ∀ p c', m'.slot p = some c' → ∃ c, m.slot p = some c ∧ (c' = c ∨ Emptied c c')

section Freed

variable {m m' m'' : CacheManager} {xs ys q : List FrameContainer} {c c' : FrameContainer} {b : Bool} {i : Nat}

theorem Freed.refl (m : CacheManager) : Freed m m := ⟨fun _ => rfl, fun _ c' h => ⟨c', h, Or.inl rfl⟩⟩

theorem Emptied.trans {c'' : FrameContainer} (h : Emptied c c') (h' : Emptied c' c'') : Emptied c c'' := by
  refine ⟨h'.free, h'.memoryLen.trans h.memoryLen, h'.buffer.trans h.buffer, ?_⟩
  rcases h'.bufferLen with heq | hzero
  · rw [heq]
    exact h.bufferLen
  · exact Or.inr hzero

theorem emptied_free (c : FrameContainer) : Emptied c (c.setFreeStat true) := ⟨rfl, rfl, rfl, Or.inl rfl⟩

theorem Freed.trans (h : Freed m m') (h' : Freed m' m'') : Freed m m'' := by
  refine ⟨fun b => (h'.length b).trans (h.length b), fun p c'' hc'' => ?_⟩
  obtain ⟨c', hc', hor'⟩ := h'.slots p c'' hc''
  obtain ⟨c, hc, hor⟩ := h.slots p c' hc'
  refine ⟨c, hc, ?_⟩
  rcases hor' with rfl | hemp'
  · exact hor
  · rcases hor with rfl | hemp
    · exact Or.inr hemp'
    · exact Or.inr (hemp.trans hemp')

/-- One array changes. -/
theorem freed_setQueue (hlen : q.length = (m.containers b).length)
    (hq : ∀ (i : Nat) (c' : FrameContainer), q[i]? = some c' → ∃ c : FrameContainer, (m.containers b)[i]? = some c ∧
      (c' = c ∨ Emptied c c')) : Freed m (m.setQueue b q) := by
  constructor
  · intro b'
    by_cases hb : b' = b
    · rw [hb, CacheManager.setQueue_same, hlen]
    · rw [CacheManager.setQueue_other m hb]
  · rintro ⟨b', i⟩ c' hc'
    by_cases hb : b' = b
    · subst hb
      rw [CacheManager.slot, CacheManager.setQueue_same] at hc'
      exact hq i c' hc'
    · rw [CacheManager.slot, CacheManager.setQueue_other m hb] at hc'
      exact ⟨c', hc', Or.inl rfl⟩

theorem freed_firstCall (m : CacheManager) : Freed m m.firstCall := by
  unfold CacheManager.firstCall
  split
  · refine ⟨fun b => List.length_map _, fun p c' hc' => ?_⟩
    obtain ⟨c, hc, rfl⟩ := Option.map_eq_some_iff.1 ((List.getElem?_map ..).symm.trans hc')
    exact ⟨c, hc, Or.inr (emptied_free c)⟩
  · exact .refl m

theorem freed_swapQueue (m : CacheManager) : Freed m m.swapQueue := ⟨fun _ => rfl, fun _ c' h => ⟨c', h, Or.inl rfl⟩⟩

/-- A slot after the change of one in the middle. -/
theorem getElem?_split (h : (xs ++ c' :: ys)[i]? = some c) :
    i = xs.length ∧ c = c' ∨ i ≠ xs.length ∧ ∀ d, (xs ++ d :: ys)[i]? = some c := by
  rcases Nat.lt_trichotomy i xs.length with hlt | rfl | hgt
  · refine Or.inr ⟨by omega, fun d => ?_⟩
    rw [List.getElem?_append_left hlt] at h ⊢
    exact h
  · rw [List.getElem?_append_right (Nat.le_refl _), Nat.sub_self] at h
    cases h
    exact Or.inl ⟨rfl, rfl⟩
  · refine Or.inr ⟨by omega, fun d => ?_⟩
    obtain ⟨j, hj⟩ : ∃ j, i - xs.length = j + 1 := ⟨i - xs.length - 1, by omega⟩
    rw [List.getElem?_append_right (by omega), hj] at h ⊢
    exact h

theorem getElem?_change {d : FrameContainer} (hi : i ≠ xs.length) : (xs ++ d :: ys)[i]? = (xs ++ c :: ys)[i]? := by
  cases hc : (xs ++ c :: ys)[i]? with
  | none =>
    rw [List.getElem?_eq_none_iff] at hc ⊢
    simpa using hc
  | some e =>
    rcases getElem?_split hc with ⟨he, -⟩ | ⟨-, hsame⟩
    · exact absurd he hi
    · exact hsame d

/-- What reading a slot does. -/
theorem takeSlot_eq (hq : m.read = xs ++ c :: ys) (tFrame : FrameRef) : m.takeSlot xs.length tFrame =
    (m.setQueue m.readQueue (xs ++ (c.readData (m.readQueue, xs.length)).1.setFreeStat true :: ys),
      ⟨some (m.readQueue, xs.length), c.f.bufferLen, c.f.type⟩) := by
  have hi : (xs ++ c :: ys)[xs.length]? = some c := by simp
  unfold CacheManager.takeSlot
  rw [hq, hi]
  simp only [modify_split, FrameContainer.readData_ref]

theorem freed_takeSlot (hq : m.read = xs ++ c :: ys) (tFrame : FrameRef) : Freed m (m.takeSlot xs.length tFrame).1 := by
  have hq' : m.containers m.readQueue = xs ++ c :: ys := hq
  rw [takeSlot_eq hq]
  refine freed_setQueue (by rw [hq']; simp) fun i c' hc' => ?_
  rw [hq']
  rcases getElem?_split hc' with ⟨rfl, rfl⟩ | ⟨-, hsame⟩
  · exact ⟨c, by simp, Or.inr ⟨rfl, rfl, rfl, Or.inr rfl⟩⟩
  · exact ⟨c', hsame c, Or.inl rfl⟩

end Freed

/-! ## What the calls do -/

section Calls

variable {m : CacheManager} {tFrame : FrameRef} {f : Frame}

theorem readData_firstCall (m : CacheManager) (tFrame : FrameRef) : m.readData tFrame = m.firstCall.readData tFrame := by
  simp only [CacheManager.readData, CacheManager.firstCall_of_not m.firstCall_firstRead]

theorem findMediaType_firstCall (m : CacheManager) : m.findMediaType = m.firstCall.findMediaType := by
  simp only [CacheManager.findMediaType, CacheManager.firstCall_of_not m.firstCall_firstRead]

/-- The first call of a reader frees all slots. -/
theorem firstCall_free (h : m.firstRead = true) : ∀ b, ∀ c ∈ m.firstCall.containers b, c.mFree = true := by
  intro b c hc
  rw [CacheManager.firstCall, if_pos h] at hc
  obtain ⟨c', -, rfl⟩ := List.mem_map.1 hc
  rfl

/-- What `readData` does: it takes the first slot in use of the read queue, or, after the swap, the first slot of the other
array when that is in use. -/
theorem readData_cases (h : m.firstRead = false) (tFrame : FrameRef) :
    (∃ xs c ys, m.read = xs ++ c :: ys ∧ (∀ x ∈ xs, x.mFree = true) ∧ c.mFree = false ∧
      m.readData tFrame = ((m.takeSlot xs.length tFrame).1, (m.takeSlot xs.length tFrame).2, 1)) ∨
    (∀ c ∈ m.read, c.mFree = true) ∧
      ((∃ c ys, m.write = c :: ys ∧ c.mFree = false ∧
        m.readData tFrame = ((m.swapQueue.takeSlot 0 tFrame).1, (m.swapQueue.takeSlot 0 tFrame).2, 1)) ∨
      (∃ c ys, m.write = c :: ys ∧ c.mFree = true ∧ m.readData tFrame = (m.swapQueue, tFrame, 1)) ∨
      m.write = [] ∧ m.readData tFrame = (m.swapQueue, tFrame, 0)) := by
  simp only [CacheManager.readData, CacheManager.firstCall_of_not h]
  rcases findIdx?_split (fun c => !c.getFreeStat) m.read with ⟨hnone, hall⟩ | ⟨xs, c, ys, hq, hsome, hc, hxs⟩
  · refine Or.inr ⟨fun c hc => by simpa [FrameContainer.getFreeStat] using hall c hc, ?_⟩
    rw [hnone]
    simp only [CacheManager.swapQueue_read]
    cases hw : m.write with
    | nil => exact Or.inr (Or.inr ⟨rfl, rfl⟩)
    | cons c ys =>
      cases hc : c.mFree with
      | true => exact Or.inr (Or.inl ⟨c, ys, rfl, hc, by simp [FrameContainer.getFreeStat, hc]⟩)
      | false => exact Or.inl ⟨c, ys, rfl, hc, by simp [FrameContainer.getFreeStat, hc]⟩
  · rw [hsome]
    exact Or.inl ⟨xs, c, ys, hq, fun x hx => by simpa [FrameContainer.getFreeStat] using hxs x hx,
      by simpa [FrameContainer.getFreeStat] using hc, rfl⟩

/-- What `findMediaType` does to the cache: nothing, or a swap of the empty read queue. -/
theorem findMediaType_cases (h : m.firstRead = false) :
    m.findMediaType.1 = m ∨ (∀ c ∈ m.read, c.mFree = true) ∧ m.findMediaType.1 = m.swapQueue := by
  simp only [CacheManager.findMediaType, CacheManager.firstCall_of_not h]
  cases hfind : m.read.find? fun c => !c.getFreeStat with
  | some c => exact Or.inl rfl
  | none =>
    refine Or.inr ⟨fun c hc => by simpa [FrameContainer.getFreeStat] using List.find?_eq_none.1 hfind c hc, ?_⟩
    simp only [CacheManager.swapQueue_read]
    cases m.write.find? fun c => !c.getFreeStat <;> rfl

/-- What `writeData` does with a frame that has bytes: it goes to the first free slot, or all slots become free. -/
theorem writeData_cases (hf : 0 < f.bufferLen) :
    (∃ xs c ys, m.write = xs ++ c :: ys ∧ (∀ x ∈ xs, x.mFree = false) ∧ c.mFree = true ∧
      m.storesAt f = (if (c.writeData f).2 = none then some xs.length else none) ∧
      m.writeData f = (m.setQueue m.writeQueue (xs ++ (c.writeData f).1.setFreeStat false :: ys), 1)) ∨
    (∀ c ∈ m.write, c.mFree = false) ∧ m.storesAt f = none ∧
      m.writeData f = (m.setQueue m.writeQueue (m.write.map fun fc => fc.cleanContainer.setFreeStat true), 0) := by
  unfold CacheManager.writeData CacheManager.storesAt
  rw [if_neg (by omega), if_neg (by omega)]
  rcases findIdx?_split FrameContainer.getFreeStat m.write with ⟨hnone, hall⟩ | ⟨xs, c, ys, hq, hsome, hc, hxs⟩
  · rw [hnone]
    exact Or.inr ⟨hall, rfl, rfl⟩
  · refine Or.inl ⟨xs, c, ys, hq, hxs, hc, ?_, ?_⟩
    · rw [hsome, hq]
      simp
    · rw [hsome, hq]
      simp only [modify_split]

/-- A frame without bytes changes nothing. -/
theorem writeData_empty (hf : f.bufferLen ≤ 0) : m.writeData f = (m, 0) ∧ m.storesAt f = none := by
  constructor
  · rw [CacheManager.writeData, if_pos hf]
  · rw [CacheManager.storesAt, if_pos hf]

theorem writeData_firstRead : (m.writeData f).1.firstRead = m.firstRead := by
  unfold CacheManager.writeData
  split
  · rfl
  · split <;> rfl

end Calls

section Effects

variable {m : CacheManager} {xs ys : List FrameContainer} {c : FrameContainer} {tFrame : FrameRef} {f : Frame}

theorem takeSlot_queues (i : Nat) (tFrame : FrameRef) : (m.takeSlot i tFrame).1.readQueue = m.readQueue ∧
    (m.takeSlot i tFrame).1.writeQueue = m.writeQueue ∧ (m.takeSlot i tFrame).1.firstRead = m.firstRead := by
  unfold CacheManager.takeSlot
  split <;> exact ⟨rfl, rfl, rfl⟩

theorem takeSlot_other (i : Nat) {b : Bool} (hb : b ≠ m.readQueue) :
    (m.takeSlot i tFrame).1.containers b = m.containers b := by
  unfold CacheManager.takeSlot
  split
  · exact CacheManager.setQueue_other m hb _
  · rfl

theorem freed_takeFirst (hq : m.read = c :: ys) (tFrame : FrameRef) : Freed m (m.takeSlot 0 tFrame).1 :=
  freed_takeSlot (show m.read = [] ++ c :: ys from hq) tFrame

/-- `readData` frees slots at most. -/
theorem freed_readData (m : CacheManager) (tFrame : FrameRef) : Freed m (m.readData tFrame).1 := by
  rw [readData_firstCall]
  refine (freed_firstCall m).trans ?_
  rcases readData_cases m.firstCall_firstRead tFrame with ⟨xs, c, ys, hq, -, -, heq⟩ |
    ⟨-, ⟨c, ys, hw, -, heq⟩ | ⟨c, ys, -, -, heq⟩ | ⟨-, heq⟩⟩ <;> rw [heq]
  · exact freed_takeSlot hq tFrame
  · exact (freed_swapQueue _).trans (freed_takeFirst (m := m.firstCall.swapQueue) hw tFrame)
  · exact freed_swapQueue _
  · exact freed_swapQueue _

theorem freed_findMediaType (m : CacheManager) : Freed m m.findMediaType.1 := by
  rw [findMediaType_firstCall]
  refine (freed_firstCall m).trans ?_
  rcases findMediaType_cases m.firstCall_firstRead with heq | ⟨-, heq⟩ <;> rw [heq]
  · exact .refl _
  · exact freed_swapQueue _

/-- An overflow frees slots. -/
theorem freed_overflow (m : CacheManager) :
    Freed m (m.setQueue m.writeQueue (m.write.map fun fc => fc.cleanContainer.setFreeStat true)) := by
  refine freed_setQueue (List.length_map _) fun i c' hc' => ?_
  obtain ⟨c, hc, rfl⟩ := Option.map_eq_some_iff.1 ((List.getElem?_map ..).symm.trans hc')
  exact ⟨c, hc, Or.inr (emptied_free c)⟩

/-- The slot behind `xs` in the write queue comes into use. -/
theorem slot_put {p : Ref} {d e : FrameContainer} (hw : m.write = xs ++ c :: ys)
    (he : (m.setQueue m.writeQueue (xs ++ d :: ys)).slot p = some e) :
    p = (m.writeQueue, xs.length) ∧ e = d ∨ p ≠ (m.writeQueue, xs.length) ∧ m.slot p = some e := by
  obtain ⟨b, i⟩ := p
  have hw' : m.containers m.writeQueue = xs ++ c :: ys := hw
  by_cases hb : b = m.writeQueue
  · subst hb
    rw [CacheManager.slot, CacheManager.setQueue_same] at he
    rcases getElem?_split he with ⟨rfl, rfl⟩ | ⟨hne, hsame⟩
    · exact Or.inl ⟨rfl, rfl⟩
    · refine Or.inr ⟨fun h => hne (congrArg Prod.snd h), ?_⟩
      rw [CacheManager.slot, hw']
      exact hsame c
  · rw [CacheManager.slot, CacheManager.setQueue_other _ hb] at he
    exact Or.inr ⟨fun h => hb (congrArg Prod.fst h), he⟩

/-- The container behind `xs` in the write queue. -/
theorem slot_write (hw : m.write = xs ++ c :: ys) : m.slot (m.writeQueue, xs.length) = some c := by
  have hw' : m.containers m.writeQueue = xs ++ c :: ys := hw
  rw [CacheManager.slot, hw']
  simp

/-- What the reader's calls do to the queues: what the first call leaves is as it was, or the empty read queue has become the
write queue. -/
structure Turned (m m' : CacheManager) : Prop where
  first : m'.firstRead = false
  queues : m'.readQueue = m.readQueue ∧ m'.writeQueue = m.writeQueue ∧ m'.write = m.write ∨
    m'.readQueue = m.writeQueue ∧ m'.writeQueue = m.readQueue ∧ (∀ c ∈ m.read, c.mFree = true) ∧ m'.write = m.read

/-- The two arrays have different roles. -/
def Two (m : CacheManager) : Prop := m.writeQueue = !m.readQueue

theorem Two.ne (h : Two m) : m.writeQueue ≠ m.readQueue := by
  rw [h]
  cases m.readQueue <;> decide

theorem Two.cases (h : Two m) (b : Bool) : b = m.readQueue ∨ b = m.writeQueue := by
  rw [h]
  cases b <;> cases m.readQueue <;> simp

theorem turned_swapQueue (h : m.firstRead = false) (hfree : ∀ c ∈ m.read, c.mFree = true) : Turned m m.swapQueue :=
  ⟨h, Or.inr ⟨rfl, rfl, hfree, rfl⟩⟩

theorem turned_readData (h : Two m) (hfirst : m.firstRead = false) (tFrame : FrameRef) :
    Turned m (m.readData tFrame).1 := by
  rcases readData_cases hfirst tFrame with ⟨xs, c, ys, hq, -, -, heq⟩ |
    ⟨hfree, ⟨c, ys, hw, -, heq⟩ | ⟨c, ys, -, -, heq⟩ | ⟨-, heq⟩⟩ <;> rw [heq]
  · obtain ⟨hr, hwq, hf⟩ := takeSlot_queues (m := m) xs.length tFrame
    exact ⟨hf.trans hfirst, Or.inl ⟨hr, hwq, by
      rw [CacheManager.write, hwq, takeSlot_other _ h.ne, CacheManager.write]⟩⟩
  · obtain ⟨hr, hwq, hf⟩ := takeSlot_queues (m := m.swapQueue) 0 tFrame
    exact ⟨hf.trans hfirst, Or.inr ⟨hr, hwq, hfree, by
      rw [CacheManager.write, hwq, takeSlot_other _ h.ne.symm]
      rfl⟩⟩
  · exact turned_swapQueue hfirst hfree
  · exact turned_swapQueue hfirst hfree

theorem turned_findMediaType (hfirst : m.firstRead = false) : Turned m m.findMediaType.1 := by
  rcases findMediaType_cases hfirst with heq | ⟨hfree, heq⟩ <;> rw [heq]
  · exact ⟨hfirst, Or.inl ⟨rfl, rfl, rfl⟩⟩
  · exact turned_swapQueue hfirst hfree

theorem Turned.two {m' : CacheManager} (h : Turned m m') (ht : Two m) : Two m' := by
  rcases h.queues with ⟨hr, hw, -⟩ | ⟨hr, hw, -⟩
  · rw [Two, hr, hw, ht]
  · rw [Two, hr, hw, ht, Bool.not_not]

theorem two_firstCall (h : Two m) : Two m.firstCall := by
  unfold CacheManager.firstCall
  split <;> exact h

end Effects

/-! ## The invariants -/

namespace Tracked

/-- A slot that stores a frame is in use and holds it. -/
structure Stored (n : Nat) (cap : Int) (s : Tracked) : Prop where
  two : Two s.manager
  length : ∀ b, (s.manager.containers b).length = n
  memoryLen : ∀ p c, s.manager.slot p = some c → c.memoryLen = cap
  live : ∀ p k, s.live p = some k → ∃ c f, s.manager.slot p = some c ∧ c.mFree = false ∧ s.pushed[k]? = some f ∧ c.Holds f

/-- The slot `p` is read before `q`. -/
def Before (m : CacheManager) (p q : Ref) : Prop :=
  p.1 = m.readQueue ∧ q.1 = m.writeQueue ∨ p.1 = q.1 ∧ p.2 < q.2

/-- The slots in use of the write queue come first, and the frames are stored in the order of their pushes. -/
structure Ordered (s : Tracked) : Prop where
  filled : s.manager.write.Pairwise fun c d => d.mFree = false → c.mFree = false
  before : ∀ p q k l, Before s.manager p q → s.live p = some k → s.live q = some l → k < l

variable {n : Nat} {cap : Int} {s : Tracked} {m : CacheManager} {f : Frame} {p q : Ref} {k : Nat}

theorem keep_eq_some {live : Ref → Option Nat} :
    keep m live p = some k ↔ ∃ c, m.slot p = some c ∧ c.mFree = false ∧ live p = some k := by
  rw [keep, Option.bind_eq_some_iff]
  refine exists_congr fun c => and_congr_right fun _ => ?_
  cases c.mFree <;> simp

theorem stored_new (frameSize queueLen : Nat) (free : Bool → Nat → Bool) :
    Stored queueLen frameSize (new frameSize queueLen free) where
  two := rfl
  length b := by simp [new, CacheManager.new]
  memoryLen p c hc := by
    obtain ⟨i, -, rfl⟩ := Option.map_eq_some_iff.1 ((List.getElem?_map ..).symm.trans hc)
    rfl
  live p k hk := by cases hk

theorem Stored.lt (h : Stored n cap s) (hk : s.live p = some k) : k < s.pushed.length := by
  obtain ⟨c, f, -, -, hf, -⟩ := h.live p k hk
  exact (List.getElem?_eq_some_iff.1 hf).1

/-- More pushes. -/
theorem Stored.push (h : Stored n cap s) (f : Frame) : Stored n cap { s with pushed := s.pushed ++ [f] } := by
  refine ⟨h.two, h.length, h.memoryLen, fun p k hk => ?_⟩
  obtain ⟨c, g, hc, hu, hg, hold⟩ := h.live p k hk
  exact ⟨c, g, hc, hu, by rw [List.getElem?_append_left (h.lt hk)]; exact hg, hold⟩

theorem Ordered.push (h : Ordered s) (f : Frame) : Ordered { s with pushed := s.pushed ++ [f] } := ⟨h.filled, h.before⟩

/-- Slots become free. -/
theorem Stored.after (h : Stored n cap s) (hf : Freed s.manager m) (ht : Two m) : Stored n cap (s.after m) := by
  refine ⟨ht, fun b => (hf.length b).trans (h.length b), fun p c' hc' => ?_, fun p k hk => ?_⟩
  · obtain ⟨c, hc, rfl | hemp⟩ := hf.slots p c' hc'
    · exact h.memoryLen p c' hc
    · exact hemp.memoryLen.trans (h.memoryLen p c hc)
  · obtain ⟨c', hc', hu, hlive⟩ := keep_eq_some.1 hk
    obtain ⟨c, g, hc, -, hg, hold⟩ := h.live p k hlive
    obtain ⟨c₀, hc₀, rfl | ⟨hfree, -⟩⟩ := hf.slots p c' hc'
    · obtain rfl := Option.some.inj (hc₀.symm.trans hc)
      exact ⟨c', g, hc', hu, hg, hold⟩
    · rw [hfree] at hu
      cases hu

theorem filled_free {l : List FrameContainer} (h : ∀ c ∈ l, c.mFree = true) :
    l.Pairwise fun c d => d.mFree = false → c.mFree = false :=
  List.Pairwise.imp_of_mem (R := fun _ _ => True) (fun _ hd _ hu => by rw [h _ hd] at hu; cases hu)
    (List.pairwise_of_forall fun _ _ => trivial)

/-- No slot is in use. -/
theorem ordered_free (hfree : ∀ b, ∀ c ∈ m.containers b, c.mFree = true) : Ordered (s.after m) := by
  refine ⟨filled_free (hfree _), fun p q k l _ hk _ => ?_⟩
  · obtain ⟨c, hc, hu, -⟩ := keep_eq_some.1 hk
    rw [hfree p.1 c (List.mem_of_getElem? hc)] at hu
    cases hu

/-- The queues stay, and slots of them become free. -/
theorem Ordered.after (h : Ordered s) (hr : m.readQueue = s.manager.readQueue) (hw : m.writeQueue = s.manager.writeQueue)
    (hfilled : m.write.Pairwise fun c d => d.mFree = false → c.mFree = false) : Ordered (s.after m) := by
  refine ⟨hfilled, fun p q k l hb hk hl => ?_⟩
  have hb' : Before m p q := hb
  rw [Before, hr, hw] at hb'
  obtain ⟨-, -, -, hlp⟩ := keep_eq_some.1 hk
  obtain ⟨-, -, -, hlq⟩ := keep_eq_some.1 hl
  exact h.before p q k l hb' hlp hlq

/-- The reader's calls keep the order. -/
theorem Ordered.turned (h : Ordered s) (ht : Turned s.manager m) : Ordered (s.after m) := by
  rcases ht.queues with ⟨hr, hw, hwrite⟩ | ⟨-, -, hfree, hwrite⟩
  · exact h.after hr hw (by rw [hwrite]; exact h.filled)
  · -- the new write queue is empty
    have hempty : ∀ c ∈ m.write, c.mFree = true := by
      rw [hwrite]
      exact hfree
    refine ⟨filled_free hempty, fun p q k l hb hk hl => ?_⟩
    obtain ⟨-, -, -, hlp⟩ := keep_eq_some.1 hk
    obtain ⟨c, hc, hu, hlq⟩ := keep_eq_some.1 hl
    rcases hb with ⟨-, hq⟩ | hb
    · have hin : c ∈ m.write := List.mem_of_getElem? (by rw [CacheManager.slot, hq] at hc; exact hc)
      rw [hempty c hin] at hu
      cases hu
    · exact h.before p q k l (Or.inr hb) hlp hlq

/-! ## A frame comes to a slot -/

section Put

variable {xs ys : List FrameContainer} {c d : FrameContainer} {live : Ref → Option Nat}

/-- A frame that is stored, or refused: only the slot `p` that comes into use may store another frame than before. -/
theorem Stored.put (h : Stored n cap s) (hw : s.manager.write = xs ++ c :: ys) (hd : d.memoryLen = c.memoryLen)
    (hother : ∀ p, p ≠ (s.manager.writeQueue, xs.length) → live p = s.live p)
    (hslot : ∀ k, live (s.manager.writeQueue, xs.length) = some k → d.mFree = false ∧
      ∃ g, (s.pushed ++ [f])[k]? = some g ∧ d.Holds g) :
    Stored n cap ⟨s.manager.setQueue s.manager.writeQueue (xs ++ d :: ys),
      keep (s.manager.setQueue s.manager.writeQueue (xs ++ d :: ys)) live, s.pushed ++ [f]⟩ := by
  have hw' : s.manager.containers s.manager.writeQueue = xs ++ c :: ys := hw
  have hc := slot_write hw
  refine ⟨h.two, fun b => ?_, fun p e he => ?_, fun p k hk => ?_⟩
  · by_cases hb : b = s.manager.writeQueue
    · subst hb
      have hlen := h.length s.manager.writeQueue
      rw [hw'] at hlen
      rw [CacheManager.setQueue_same, ← hlen]
      simp
    · rw [CacheManager.setQueue_other _ hb]
      exact h.length b
  · rcases slot_put hw he with ⟨rfl, rfl⟩ | ⟨-, he'⟩
    · rw [hd]
      exact h.memoryLen _ c hc
    · exact h.memoryLen p e he'
  · obtain ⟨e, he, hu, hlive⟩ := keep_eq_some.1 hk
    rcases slot_put hw he with ⟨rfl, rfl⟩ | ⟨hne, he'⟩
    · obtain ⟨-, g, hg, hold⟩ := hslot k hlive
      exact ⟨e, g, he, hu, hg, hold⟩
    · rw [hother p hne] at hlive
      obtain ⟨e', g, he'', hu', hg, hold⟩ := h.live p k hlive
      obtain rfl := Option.some.inj (he'.symm.trans he'')
      exact ⟨e, g, he, hu, by rw [List.getElem?_append_left (h.lt hlive)]; exact hg, hold⟩

theorem Ordered.put (ho : Ordered s) (h : Stored n cap s) (hw : s.manager.write = xs ++ c :: ys) (hc : c.mFree = true)
    (hxs : ∀ x ∈ xs, x.mFree = false) (hd : d.mFree = false)
    (hother : ∀ p, p ≠ (s.manager.writeQueue, xs.length) → live p = s.live p)
    (hslot : ∀ k, live (s.manager.writeQueue, xs.length) = some k → k = s.pushed.length) :
    Ordered ⟨s.manager.setQueue s.manager.writeQueue (xs ++ d :: ys),
      keep (s.manager.setQueue s.manager.writeQueue (xs ++ d :: ys)) live, s.pushed ++ [f]⟩ := by
  have hys : ∀ y ∈ ys, y.mFree = true := by
    have hfilled := ho.filled
    rw [hw, List.pairwise_append, List.pairwise_cons] at hfilled
    intro y hy
    cases hu : y.mFree with
    | true => rfl
    | false => exact (hfilled.2.1.1 y hy hu).symm.trans hc
  constructor
  · show (CacheManager.write _).Pairwise _
    rw [CacheManager.write, CacheManager.setQueue_writeQueue, CacheManager.setQueue_same]
    refine List.pairwise_append.2 ⟨?_, List.pairwise_cons.2 ⟨fun _ _ _ => hd, filled_free hys⟩, fun x hx _ _ _ => hxs x hx⟩
    exact List.Pairwise.imp_of_mem (R := fun _ _ => True) (fun hx _ _ _ => hxs _ hx)
      (List.pairwise_of_forall fun _ _ => trivial)
  · intro p q k l hb hk hl
    have hb' : Before s.manager p q := hb
    obtain ⟨e, he, hue, hlp⟩ := keep_eq_some.1 hk
    obtain ⟨g, hg, hug, hlq⟩ := keep_eq_some.1 hl
    rcases slot_put hw he with ⟨rfl, rfl⟩ | ⟨hp, -⟩
    · -- behind the new frame there is none
      rcases hb' with ⟨hr, -⟩ | ⟨hq, hlt⟩
      · exact absurd hr h.two.ne
      · rcases slot_put hw hg with ⟨rfl, -⟩ | ⟨-, hg'⟩
        · exact absurd hlt (Nat.lt_irrefl _)
        · rw [CacheManager.slot, ← hq] at hg'
          have hw' : s.manager.containers s.manager.writeQueue = xs ++ c :: ys := hw
          rw [hw', List.getElem?_append_right (Nat.le_of_lt hlt)] at hg'
          obtain ⟨j, hj⟩ : ∃ j, q.2 - xs.length = j + 1 := ⟨q.2 - xs.length - 1, by omega⟩
          rw [hj, List.getElem?_cons_succ] at hg'
          rw [hys g (List.mem_of_getElem? hg')] at hug
          cases hug
    · rw [hother p hp] at hlp
      by_cases hq : q = (s.manager.writeQueue, xs.length)
      · rw [hq] at hlq
        rw [hslot l hlq]
        exact h.lt hlp
      · rw [hother q hq] at hlq
        exact ho.before p q k l hb' hlp hlq

end Put

/-! ## Runs -/

variable {s' : Tracked} {a : Call} {calls : List Call} {tFrame : FrameRef}

/-- The invariant. -/
structure Inv (n : Nat) (cap : Int) (s : Tracked) : Prop where
  stored : Stored n cap s
  ordered : s.manager.firstRead = false → Ordered s

/-- A slot that is free stores nothing. -/
theorem Stored.live_free (h : Stored n cap s) {c : FrameContainer} (hc : s.manager.slot p = some c)
    (hfree : c.mFree = true) : s.live p = none := by
  cases hk : s.live p with
  | none => rfl
  | some k =>
    obtain ⟨c', -, hc', hu, -⟩ := h.live p k hk
    obtain rfl := Option.some.inj (hc.symm.trans hc')
    rw [hfree] at hu
    cases hu

/-- A container takes the frame, or it stays as it was. -/
theorem writeData_answer (c : FrameContainer) (f : Frame) :
    (c.writeData f).2 = none ∧ (c.writeData f).1.Holds f ∨ c.memoryLen < f.bufferLen ∧ c.writeData f = (c, some 0) := by
  by_cases hlen : c.memoryLen < f.bufferLen
  · exact Or.inr ⟨hlen, FrameContainer.writeData_over hlen⟩
  · refine Or.inl ⟨?_, FrameContainer.writeData_holds (by omega)⟩
    rw [FrameContainer.writeData, dif_neg (by omega)]

theorem storing_some {i : Nat} (h : s.manager.storesAt f = some i) :
    s.storing f = Function.update s.live (s.manager.writeQueue, i) (some s.pushed.length) := by
  rw [storing, h]

theorem storing_none (h : s.manager.storesAt f = none) : s.storing f = s.live := by
  rw [storing, h]

/-- What the slot behind `xs` stores after `writeData`, and the others. -/
theorem storing_put (h : Stored n cap s) {xs ys : List FrameContainer} {c : FrameContainer}
    (hw : s.manager.write = xs ++ c :: ys) (hc : c.mFree = true)
    (hst : s.manager.storesAt f = if (c.writeData f).2 = none then some xs.length else none) :
    (∀ p, p ≠ (s.manager.writeQueue, xs.length) → s.storing f p = s.live p) ∧
      (s.storing f (s.manager.writeQueue, xs.length) = some s.pushed.length ∧ (c.writeData f).1.Holds f ∨
        s.storing f (s.manager.writeQueue, xs.length) = none ∧ cap < f.bufferLen) := by
  have hslot := slot_write hw
  rcases writeData_answer c f with ⟨hans, hold⟩ | ⟨hlen, hans⟩
  · rw [if_pos hans] at hst
    rw [storing_some hst]
    exact ⟨fun p hp => Function.update_of_ne hp _ _, Or.inl ⟨Function.update_self .., hold⟩⟩
  · rw [hans, if_neg (by simp)] at hst
    rw [storing_none hst]
    rw [h.memoryLen _ c hslot] at hlen
    exact ⟨fun p _ => rfl, Or.inr ⟨h.live_free hslot hc, hlen⟩⟩

theorem inv_write (h : Inv n cap s) (hs : s.step (.write f) = some s') : Inv n cap s' := by
  cases hs
  by_cases hf : f.bufferLen ≤ 0
  · obtain ⟨hm, hst⟩ := writeData_empty (m := s.manager) hf
    rw [storing_none hst, hm]
    exact ⟨(h.stored.push f).after (.refl _) h.stored.two,
      fun hfirst => ((h.ordered hfirst).push f).after rfl rfl (h.ordered hfirst).filled⟩
  rcases writeData_cases (m := s.manager) (f := f) (by omega) with ⟨xs, c, ys, hw, hxs, hc, hst, hm⟩ | ⟨-, hst, hm⟩
  · obtain ⟨hother, hnew⟩ := storing_put h.stored hw hc hst
    rw [hm]
    have hslot : ∀ k, s.storing f (s.manager.writeQueue, xs.length) = some k →
        k = s.pushed.length ∧ (c.writeData f).1.Holds f := by
      intro k hk
      rcases hnew with ⟨hsome, hold⟩ | ⟨hnone, -⟩
      · exact ⟨(Option.some.inj (hsome.symm.trans hk)).symm, hold⟩
      · rw [hnone] at hk
        cases hk
    refine ⟨h.stored.put hw (by simp) hother fun k hk => ⟨rfl, f, ?_, (hslot k hk).2⟩, fun hfirst => ?_⟩
    · rw [(hslot k hk).1]
      simp
    · exact (h.ordered hfirst).put h.stored hw hc hxs rfl hother fun k hk => (hslot k hk).1
  · rw [storing_none hst, hm]
    refine ⟨(h.stored.push f).after (freed_overflow _) h.stored.two, fun hfirst => ?_⟩
    refine ((h.ordered hfirst).push f).after rfl rfl (filled_free fun c hc => ?_)
    rw [CacheManager.write, CacheManager.setQueue_writeQueue, CacheManager.setQueue_same] at hc
    obtain ⟨c', -, rfl⟩ := List.mem_map.1 hc
    rfl

/-- A call of the reader, which begins with `firstCall`. -/
theorem inv_turned (h : Inv n cap s) (hf : Freed s.manager m) (hf' : Freed s.manager.firstCall m)
    (ht : Turned s.manager.firstCall m) : Inv n cap (s.after m) := by
  refine ⟨h.stored.after hf (ht.two (two_firstCall h.stored.two)), fun _ => ?_⟩
  cases hfirst : s.manager.firstRead with
  | true =>
    refine ordered_free fun b c hc => ?_
    obtain ⟨i, hi⟩ := List.mem_iff_getElem?.1 hc
    obtain ⟨c₀, hc₀, rfl | ⟨hfree, -⟩⟩ := hf'.slots (b, i) c hi
    · exact firstCall_free hfirst b c (List.mem_of_getElem? hc₀)
    · exact hfree
  | false =>
    rw [CacheManager.firstCall_of_not hfirst] at ht
    exact (h.ordered hfirst).turned ht

/-- **Every call keeps the invariant.** -/
theorem step_inv (s : Tracked) (a : Call) (s' : Tracked) (h : Inv n cap s) (hs : s.step a = some s') : Inv n cap s' := by
  cases a with
  | write f => exact inv_write h hs
  | read tFrame =>
    cases hs
    have hfirst := s.manager.firstCall_firstRead
    have hfreed := freed_readData s.manager.firstCall tFrame
    have hturned := turned_readData (two_firstCall h.stored.two) hfirst tFrame
    rw [← readData_firstCall] at hfreed hturned
    exact inv_turned h (freed_readData _ tFrame) hfreed hturned
  | findType =>
    cases hs
    have hfreed := freed_findMediaType s.manager.firstCall
    have hturned := turned_findMediaType s.manager.firstCall_firstRead
    rw [← findMediaType_firstCall] at hfreed hturned
    exact inv_turned h (freed_findMediaType _) hfreed hturned

theorem inv_new (frameSize queueLen : Nat) (free : Bool → Nat → Bool) :
    Inv queueLen frameSize (new frameSize queueLen free) :=
  ⟨stored_new frameSize queueLen free, fun h => by cases h⟩

theorem run_inv_new {frameSize queueLen : Nat} {free : Bool → Nat → Bool}
    (h : run step (new frameSize queueLen free) calls = some s) : Inv queueLen frameSize s :=
  run_inv step_inv (inv_new frameSize queueLen free) h

end Tracked

end ToolLib.Pusher
