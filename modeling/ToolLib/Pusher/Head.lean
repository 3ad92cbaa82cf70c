import ToolLib.Base.System
import ToolLib.Pusher.Frames

/-!
# The head of the read queue

A reader takes the first frame of the read queue only when the type it finds there is its own. So a first slot in use
that holds no frame stops both readers for good (`stuck_run`). `CacheManager::writeData` makes such a slot from a frame
over the capacity: the container refuses the frame, but the slot is marked in use all the same, with the length and the
type that the last read of the slot left at 0 (`poisoned_head`). It does not look at the type either, so a stored frame
that is neither video nor audio is such a slot too (`foreign_head`).

When no such frame comes to a free slot (`PushFits`), the first slot in use always holds a pushed frame, and one of the
two sources takes it out at its next call (`head_served`).
-/

namespace ToolLib.Pusher

open ToolLib.Base

/-- The calls on the cache: a push, and a read by the source of type `t`. -/
inductive Op
  | push (f : Frame)
  | read (t : Int)

/-- The thread after one call. -/
def opStep (th : PusherThread) : Op → Option PusherThread
  | .push f => some (pusher_pushFrame th f).1
  | .read t => some (th.readData ⟨none, 0, t⟩).1

/-- A thread with a new cache; `free` is what the memory of the flags held. -/
def fresh (cap n : Nat) (free : Bool → Nat → Bool) : PusherThread := ⟨CacheManager.new cap n free, DO_NOTHING⟩

/-- The frames pushed. -/
def pushes (ops : List Op) : List Frame := ops.filterMap fun
  | .push f => some f
  | .read _ => none

/-- The readers are the video and the audio source. -/
def Op.Typed : Op → Prop
  | .push _ => True
  | .read t => t = VIDEO_TYPE ∨ t = AUDIO_TYPE

/-- A frame of one of the two sources. -/
def Frame.Typed (f : Frame) : Prop := f.type = VIDEO_TYPE ∨ f.type = AUDIO_TYPE

instance (f : Frame) : Decidable f.Typed := inferInstanceAs (Decidable (_ ∨ _))

/-- The first slot in use holds one of the frames `fs`, and the source of its type takes this frame out. -/
def HeadServed (fs : List Frame) (th : PusherThread) : Prop :=
  ∀ xs c ys, th.manager.read = xs ++ c :: ys → (∀ x ∈ xs, x.mFree = true) → c.mFree = false →
    0 < c.f.bufferLen ∧ ∃ f ∈ fs, c.Holds f ∧ f.Typed ∧
      ∀ r : FrameRef, r.type = f.type → ∃ th' r', th.readData r = (th', r', 1) ∧ r'.bufferLen = f.bufferLen ∧
        th'.manager.bytes r' = f.data ∧ ∃ c' : FrameContainer, c'.mFree = true ∧ th'.manager.read = xs ++ c' :: ys

/-- A push keeps clear of the slot it would poison: the frame is refused at once, or the first free slot stores it and it
is video or audio, or the slot refuses it and has kept an earlier one; or there is no free slot. -/
def PushFits (cap : Nat) (th : PusherThread) : Op → Prop
  | .push f => f.bufferLen ≤ 0 ∨ ∀ c, th.manager.write.find? FrameContainer.getFreeStat = some c →
      if f.bufferLen ≤ cap then f.Typed else c.f.bufferLen ≠ 0
  | .read _ => True

/-! ## Slots -/

section Slots

variable {xs ys : List FrameContainer} {c : FrameContainer} {p : FrameContainer → Bool}

theorem find?_split (hx : ∀ x ∈ xs, p x = false) (hc : p c = true) : (xs ++ c :: ys).find? p = some c := by
  have hn : xs.find? p = none := List.find?_eq_none.2 fun x hx' => by simp [hx x hx']
  rw [List.find?_append, hn, Option.none_or, List.find?_cons_of_pos hc]

theorem findIdx?_at (hx : ∀ x ∈ xs, p x = false) (hc : p c = true) :
    (xs ++ c :: ys).findIdx? p = some xs.length := by
  have hn : xs.findIdx? p = none := List.findIdx?_eq_none_iff.2 hx
  rw [List.findIdx?_append, hn, List.findIdx?_cons, hc]
  simp

end Slots

/-- The slot holds nothing, or one of the frames `fs`, video or audio. -/
def Stocked (fs : List Frame) (c : FrameContainer) : Prop :=
  c.f.bufferLen = 0 ∨ 0 < c.f.bufferLen ∧ ∃ f ∈ fs, c.Holds f ∧ f.Typed

theorem Stocked.mono {fs gs : List Frame} {c : FrameContainer} (h : Stocked fs c) (hgs : fs ⊆ gs) : Stocked gs c :=
  h.imp_right fun ⟨hp, f, hf, hh⟩ => ⟨hp, f, hgs hf, hh⟩

/-- What the slots hold; once a reader has called, a slot in use holds a frame. -/
structure Clean (cap : Nat) (fs : List Frame) (th : PusherThread) : Prop where
  state : th.fState = DO_NOTHING
  two : th.manager.writeQueue = !th.manager.readQueue
  memoryLen : ∀ b, ∀ c ∈ th.manager.containers b, c.memoryLen = cap
  content : ∀ b, ∀ c ∈ th.manager.containers b, Stocked fs c
  used : th.manager.firstRead = false → ∀ b, ∀ c ∈ th.manager.containers b, c.mFree = false → c.f.bufferLen ≠ 0

variable {cap n : Nat} {fs : List Frame} {th th' : PusherThread}

theorem clean_fresh (free : Bool → Nat → Bool) : Clean cap [] (fresh cap n free) := by
  have hnew : ∀ b, ∀ c ∈ (CacheManager.new cap n free).containers b, ∃ fl, c = FrameContainer.new cap fl := by
    intro b c hc
    obtain ⟨i, -, rfl⟩ := List.mem_map.1 hc
    exact ⟨_, rfl⟩
  refine ⟨rfl, rfl, fun b c hc => ?_, fun b c hc => Or.inl ?_, fun h => by cases h⟩
  · obtain ⟨fl, rfl⟩ := hnew b c hc; rfl
  · obtain ⟨fl, rfl⟩ := hnew b c hc; rfl

/-- A new content for one array, slot by slot within the invariant. -/
theorem Clean.setQueue (h : Clean cap fs th) (b : Bool) {q : List FrameContainer} {gs : List Frame} (hgs : fs ⊆ gs)
    (hmem : ∀ c ∈ q, c.memoryLen = cap)
    (hcon : ∀ c ∈ q, Stocked gs c)
    (huse : th.manager.firstRead = false → ∀ c ∈ q, c.mFree = false → c.f.bufferLen ≠ 0) :
    Clean cap gs { th with manager := th.manager.setQueue b q } where
  state := h.state
  two := h.two
  memoryLen b' c hc := by
    by_cases hb : b' = b
    · subst hb
      rw [CacheManager.setQueue_same] at hc
      exact hmem c hc
    · rw [CacheManager.setQueue_other _ hb] at hc
      exact h.memoryLen b' c hc
  content b' c hc := by
    by_cases hb : b' = b
    · subst hb
      rw [CacheManager.setQueue_same] at hc
      exact hcon c hc
    · rw [CacheManager.setQueue_other _ hb] at hc
      exact (h.content b' c hc).mono hgs
  used hfr b' c hc := by
    by_cases hb : b' = b
    · subst hb
      rw [CacheManager.setQueue_same] at hc
      exact huse hfr c hc
    · rw [CacheManager.setQueue_other _ hb] at hc
      exact h.used hfr b' c hc

theorem Clean.mono (h : Clean cap fs th) {gs : List Frame} (hgs : fs ⊆ gs) : Clean cap gs th :=
  { h with content := fun b c hc => (h.content b c hc).mono hgs }

theorem Clean.swapQueue (h : Clean cap fs th) : Clean cap fs { th with manager := th.manager.swapQueue } := by
  have htwo : th.manager.readQueue = !th.manager.writeQueue := by rw [h.two, Bool.not_not]
  exact { h with two := htwo }

theorem Clean.firstCall (h : Clean cap fs th) : Clean cap fs { th with manager := th.manager.firstCall } := by
  cases hf : th.manager.firstRead with
  | false => rw [CacheManager.firstCall_of_not hf]; exact h
  | true =>
    have hm : th.manager.firstCall = { th.manager.cleanCache with firstRead := false } := by
      simp [CacheManager.firstCall, hf]
    have hc : ∀ b, ∀ c ∈ th.manager.cleanCache.containers b, ∃ c' ∈ th.manager.containers b, c = c'.setFreeStat true := by
      intro b c hc
      obtain ⟨c', hc', rfl⟩ := List.mem_map.1 hc
      exact ⟨c', hc', rfl⟩
    rw [hm]
    refine ⟨h.state, h.two, fun b c hb => ?_, fun b c hb => ?_, fun _ b c hb hu => ?_⟩
    · obtain ⟨c', hc', rfl⟩ := hc b c hb
      exact h.memoryLen b c' hc'
    · obtain ⟨c', hc', rfl⟩ := hc b c hb
      exact h.content b c' hc'
    · obtain ⟨c', hc', rfl⟩ := hc b c hb
      cases hu

/-! ## The calls -/

/-- The container that takes the frame, or refuses it and keeps an earlier one. -/
theorem Clean.stored (h : Clean cap fs th) {f : Frame} (hf : PushFits cap th (.push f)) (hpos : ¬ f.bufferLen ≤ 0)
    (hq : th.manager.write = xs ++ c :: ys) (hxs : ∀ x ∈ xs, x.getFreeStat = false) (hc : c.getFreeStat = true) :
    0 < (c.writeData f).1.f.bufferLen ∧ ∃ g ∈ fs ++ [f], (c.writeData f).1.Holds g ∧ g.Typed := by
  have hw : c ∈ th.manager.write := by rw [hq]; simp
  have hmem := h.memoryLen th.manager.writeQueue c hw
  have hslot := hf.resolve_left hpos c (by rw [hq]; exact find?_split hxs hc)
  by_cases hcap : f.bufferLen ≤ cap
  · rw [if_pos hcap] at hslot
    have hh := FrameContainer.writeData_holds (c := c) (t := f) (by rw [hmem]; exact hcap)
    have hl := hh.1
    exact ⟨by omega, f, by simp, hh, hslot⟩
  · rw [if_neg hcap] at hslot
    rw [FrameContainer.writeData_over (by rw [hmem]; omega)]
    exact ((h.mono (List.subset_append_left _ _)).content _ c hw).resolve_left hslot

/-- A push that fits keeps the slots clean. -/
theorem Clean.writeData (h : Clean cap fs th) {f : Frame} (hf : PushFits cap th (.push f)) :
    Clean cap (fs ++ [f]) (th.writeData f) := by
  have hsub : fs ⊆ fs ++ [f] := List.subset_append_left _ _
  have hmem := h.memoryLen th.manager.writeQueue
  have hcon : ∀ c ∈ th.manager.write, Stocked (fs ++ [f]) c :=
    (h.mono hsub).content th.manager.writeQueue
  unfold PusherThread.writeData CacheManager.writeData
  split
  · exact h.mono hsub
  · rename_i hpos
    rcases findIdx?_split FrameContainer.getFreeStat th.manager.write with ⟨hn, hall⟩ | ⟨xs, c, ys, hq, hi, hc, hxs⟩
    · rw [hn]
      refine h.setQueue _ hsub (fun c hc => ?_) (fun c hc => ?_) (fun _ c hc hu => ?_)
      · obtain ⟨c', hc', rfl⟩ := List.mem_map.1 hc
        exact hmem c' hc'
      · obtain ⟨c', hc', rfl⟩ := List.mem_map.1 hc
        exact hcon c' hc'
      · obtain ⟨c', hc', rfl⟩ := List.mem_map.1 hc
        cases hu
    · have hw : c ∈ th.manager.write := by rw [hq]; simp
      have hnew := h.stored hf hpos hq hxs hc
      rw [hi, hq]
      simp only [modify_split]
      have hrest : ∀ x ∈ xs ++ (c.writeData f).1.setFreeStat false :: ys,
          x ∈ th.manager.write ∨ x = (c.writeData f).1.setFreeStat false := by
        intro x hx
        rw [hq]
        simp only [List.mem_append, List.mem_cons] at hx ⊢
        tauto
      refine h.setQueue _ hsub (fun x hx => ?_) (fun x hx => ?_) (fun hfr x hx hu => ?_)
      · rcases hrest x hx with hx | rfl
        · exact hmem x hx
        · simpa using hmem c hw
      · rcases hrest x hx with hx | rfl
        · exact hcon x hx
        · exact Or.inr hnew
      · rcases hrest x hx with hx | rfl
        · exact h.used hfr _ x hx hu
        · exact Int.ne_of_gt hnew.1

/-- Reading a slot empties it. -/
theorem Clean.takeSlot (h : Clean cap fs th) (i : Nat) (r : FrameRef) :
    Clean cap fs { th with manager := (th.manager.takeSlot i r).1 } := by
  unfold CacheManager.takeSlot
  split
  · have hrest : ∀ x ∈ th.manager.read.modify i fun c => (c.readData (th.manager.readQueue, i)).1.setFreeStat true,
        x ∈ th.manager.read ∨ ∃ c ∈ th.manager.read, x = (c.readData (th.manager.readQueue, i)).1.setFreeStat true := by
      intro x hx
      obtain ⟨j, hj⟩ := List.mem_iff_getElem?.1 hx
      rw [List.getElem?_modify] at hj
      obtain ⟨c, hc, rfl⟩ := Option.map_eq_some_iff.1 hj
      split
      · exact Or.inr ⟨c, List.mem_of_getElem? hc, rfl⟩
      · exact Or.inl (List.mem_of_getElem? hc)
    refine h.setQueue _ (List.Subset.refl _) (fun x hx => ?_) (fun x hx => ?_) (fun hfr x hx hu => ?_)
    · rcases hrest x hx with hx | ⟨c, hc, rfl⟩
      · exact h.memoryLen _ x hx
      · exact h.memoryLen _ c hc
    · rcases hrest x hx with hx | ⟨c, -, rfl⟩
      · exact h.content _ x hx
      · exact Or.inl rfl
    · rcases hrest x hx with hx | ⟨c, -, rfl⟩
      · exact h.used hfr _ x hx hu
      · cases hu
  · exact h

theorem Clean.findMediaType (h : Clean cap fs th) :
    Clean cap fs { th with manager := th.manager.findMediaType.1 } := by
  unfold CacheManager.findMediaType
  simp only
  split
  · exact h.firstCall
  · split <;> exact h.firstCall.swapQueue

theorem Clean.cacheRead (h : Clean cap fs th) (r : FrameRef) :
    Clean cap fs { th with manager := (th.manager.readData r).1 } := by
  unfold CacheManager.readData
  simp only
  split
  · exact h.firstCall.takeSlot _ _
  · split
    · exact h.firstCall.swapQueue
    · split
      · exact h.firstCall.swapQueue.takeSlot _ _
      · exact h.firstCall.swapQueue

theorem Clean.readData (h : Clean cap fs th) (r : FrameRef) : Clean cap fs (th.readData r).1 := by
  unfold PusherThread.readData
  split
  · exact h
  · simp only
    split
    · exact h.findMediaType
    · split
      · exact h.findMediaType.cacheRead _
      · exact h.findMediaType.cacheRead _

theorem pushes_snoc (ops : List Op) (op : Op) : pushes (ops ++ [op]) = pushes ops ++ pushes [op] := by
  simp [pushes]

/-- The slots are clean along every run whose pushes fit. -/
theorem clean_run {ops : List Op} : ∀ {pre : List Op} {th th' : PusherThread}, Clean cap (pushes pre) th →
    Along opStep (PushFits cap) th ops → run opStep th ops = some th' → Clean cap (pushes (pre ++ ops)) th' := by
  induction ops with
  | nil =>
    intro pre th th' h _ hr
    cases hr
    rwa [List.append_nil]
  | cons op ops ih =>
    intro pre th th' h hfit hr
    obtain ⟨th₁, h₁, h₂⟩ := run_cons_eq_some.1 hr
    have hc : Clean cap (pushes (pre ++ [op])) th₁ := by
      rw [pushes_snoc]
      cases op with
      | push f => cases h₁; exact h.writeData hfit.1
      | read t => cases h₁; simpa [pushes] using h.readData _
    have := ih hc (hfit.2 th₁ h₁) h₂
    rwa [List.append_assoc] at this

/-! ## The head is served -/

section Served

variable {xs ys : List FrameContainer} {c : FrameContainer}

/-- The type reported is that of the first slot in use. -/
theorem findMediaType_head (hfr : th.manager.firstRead = false) (hq : th.manager.read = xs ++ c :: ys)
    (hxs : ∀ x ∈ xs, x.mFree = true) (hu : c.mFree = false) : th.manager.findMediaType = (th.manager, c.f.type) := by
  have hfind : th.manager.read.find? (fun c => !c.getFreeStat) = some c := by
    rw [hq]
    exact find?_split (fun x hx => by simp [FrameContainer.getFreeStat, hxs x hx])
      (by simp [FrameContainer.getFreeStat, hu])
  unfold CacheManager.findMediaType
  rw [CacheManager.firstCall_of_not hfr]
  simp only [hfind]
  rfl

/-- A read by the source of the type of the first slot in use. -/
theorem readData_head (hst : th.fState = DO_NOTHING) (hfr : th.manager.firstRead = false)
    (hq : th.manager.read = xs ++ c :: ys) (hxs : ∀ x ∈ xs, x.mFree = true) (hu : c.mFree = false)
    (hb : c.f.bufferLen ≠ 0) {r : FrameRef} (hr : r.type = c.f.type) :
    th.readData r =
      (⟨th.manager.setQueue th.manager.readQueue
          (xs ++ (c.readData (th.manager.readQueue, xs.length)).1.setFreeStat true :: ys), th.fState⟩,
        { r with buffer := some (th.manager.readQueue, xs.length), bufferLen := c.f.bufferLen }, 1) := by
  have hidx : th.manager.read.findIdx? (fun c => !c.getFreeStat) = some xs.length := by
    rw [hq]
    exact findIdx?_at (fun x hx => by simp [FrameContainer.getFreeStat, hxs x hx])
      (by simp [FrameContainer.getFreeStat, hu])
  have htake : th.manager.takeSlot xs.length ⟨none, 0, 0⟩ = (th.manager.setQueue th.manager.readQueue
      (xs ++ (c.readData (th.manager.readQueue, xs.length)).1.setFreeStat true :: ys),
        ⟨some (th.manager.readQueue, xs.length), c.f.bufferLen, c.f.type⟩) := by
    have hi : (xs ++ c :: ys)[xs.length]? = some c := by simp
    unfold CacheManager.takeSlot
    rw [hq, hi]
    simp only [modify_split, FrameContainer.readData_ref]
  have hread : th.manager.readData ⟨none, 0, 0⟩ = (th.manager.setQueue th.manager.readQueue
      (xs ++ (c.readData (th.manager.readQueue, xs.length)).1.setFreeStat true :: ys),
        ⟨some (th.manager.readQueue, xs.length), c.f.bufferLen, c.f.type⟩, 1) := by
    unfold CacheManager.readData
    rw [CacheManager.firstCall_of_not hfr]
    simp only [hidx, htake]
  unfold PusherThread.readData
  rw [if_neg (not_not.2 hst), findMediaType_head hfr hq hxs hu, if_neg (not_not.2 hr)]
  simp only [hread, if_neg hb]

theorem headServed_of_clean (h : Clean cap fs th) (hfr : th.manager.firstRead = false) : HeadServed fs th := by
  intro xs c ys hq hxs hu
  have hmem : c ∈ th.manager.containers th.manager.readQueue := by
    rw [show th.manager.containers th.manager.readQueue = xs ++ c :: ys from hq]; simp
  have hb := h.used hfr _ c hmem hu
  rcases h.content _ c hmem with h0 | ⟨hp, f, hf, ⟨hl, ht, hd⟩, htyped⟩
  · exact absurd h0 hb
  · refine ⟨hp, f, hf, ⟨hl, ht, hd⟩, htyped, fun r hr => ⟨_, _, readData_head h.state hfr hq hxs hu hb (hr.trans ht.symm), hl, ?_,
      (c.readData (th.manager.readQueue, xs.length)).1.setFreeStat true, rfl, CacheManager.setQueue_same _ _ _⟩⟩
    simp only [CacheManager.bytes, CacheManager.setQueue_same]
    rw [List.getElem?_append_right (Nat.le_refl _), Nat.sub_self]
    exact hd

/-- **No poisoned head.** In every run whose pushes fit, from a new cache on, once a reader has called: the first slot
in use holds a pushed frame, which the source of its type takes out next. -/
theorem head_served {free : Bool → Nat → Bool} {ops : List Op} (hr : run opStep (fresh cap n free) ops = some th)
    (hfit : Along opStep (PushFits cap) (fresh cap n free) ops) (hfr : th.manager.firstRead = false) :
    HeadServed (pushes ops) th := by
  have hclean : Clean cap (pushes ([] ++ ops)) th := clean_run (clean_fresh free) hfit hr
  exact headServed_of_clean hclean hfr

/-- A frame of one byte. -/
def byteFrame : Frame := ⟨[5], 1, VIDEO_TYPE, by decide⟩

/-- A video frame in front, left there by the audio source. -/
theorem head_served_video :
    ∃ th, run opStep (fresh 1 1 fun _ _ => true) [.read VIDEO_TYPE, .push byteFrame, .read AUDIO_TYPE] = some th ∧
      (∃ c, th.manager.read = [c] ∧ c.mFree = false) ∧ HeadServed [byteFrame] th := by
  have hrun : run opStep (fresh 1 1 fun _ _ => true) [.read VIDEO_TYPE, .push byteFrame, .read AUDIO_TYPE] = some _ :=
    (Option.some_get (by decide)).symm
  exact ⟨_, hrun, ⟨_, rfl, by decide⟩,
    head_served hrun
      ⟨trivial, fun _ _ => ⟨Or.inr fun _ _ => by rw [if_pos (by decide)]; decide, fun _ _ => ⟨trivial, fun _ _ => trivial⟩⟩⟩
      (by decide)⟩

end Served

/-! ## A head that is never served -/

/-- The first slot in use has a type that no source reads. -/
structure Stuck (th : PusherThread) : Prop where
  first : th.manager.firstRead = false
  two : th.manager.writeQueue = !th.manager.readQueue
  head : ∃ xs c ys, th.manager.read = xs ++ c :: ys ∧ (∀ x ∈ xs, x.mFree = true) ∧ c.mFree = false ∧
    c.f.type ≠ VIDEO_TYPE ∧ c.f.type ≠ AUDIO_TYPE

/-- Neither a push nor a read of the two sources touches such a read queue. -/
theorem stuck_step {op : Op} (h : Stuck th) (ht : op.Typed) (hs : opStep th op = some th') :
    Stuck th' ∧ th'.manager.read = th.manager.read := by
  obtain ⟨xs, c, ys, hq, hxs, hu, hv, ha⟩ := h.head
  cases op with
  | push f =>
    cases hs
    have hsame : (th.manager.writeData f).1.read = th.manager.read ∧
        (th.manager.writeData f).1.readQueue = th.manager.readQueue ∧
        (th.manager.writeData f).1.writeQueue = th.manager.writeQueue ∧
        (th.manager.writeData f).1.firstRead = th.manager.firstRead := by
      have hne : th.manager.readQueue ≠ th.manager.writeQueue := by
        rw [h.two]; cases th.manager.readQueue <;> decide
      unfold CacheManager.writeData
      split
      · exact ⟨rfl, rfl, rfl, rfl⟩
      · split <;> exact ⟨CacheManager.setQueue_other _ hne _, rfl, rfl, rfl⟩
    obtain ⟨hr, hrq, hwq, hf⟩ := hsame
    have hread : (pusher_pushFrame th f).1.manager.read = th.manager.read := hr
    refine ⟨⟨hf.trans h.first, ?_, xs, c, ys, hread.trans hq, hxs, hu, hv, ha⟩, hread⟩
    exact hwq.trans (h.two.trans (congrArg _ hrq.symm))
  | read t =>
    cases hs
    have hne : t ≠ c.f.type := by
      rcases ht with rfl | rfl
      · exact hv.symm
      · exact ha.symm
    have hsame : (th.readData ⟨none, 0, t⟩).1 = th := by
      unfold PusherThread.readData
      rw [findMediaType_head h.first hq hxs hu]
      split
      · rfl
      · simp only [hne, ne_eq, not_false_eq_true, if_true]
    rw [hsame]
    exact ⟨h, rfl⟩

/-- Once stuck, the readers find the same slot for ever. -/
theorem stuck_run {ops : List Op} : ∀ {th : PusherThread}, Stuck th → (∀ op ∈ ops, op.Typed) →
    run opStep th ops = some th' → Stuck th' ∧ th'.manager.read = th.manager.read := by
  induction ops with
  | nil => intro th h _ hr; cases hr; exact ⟨h, rfl⟩
  | cons op ops ih =>
    intro th h ht hr
    obtain ⟨th₁, h₁, h₂⟩ := run_cons_eq_some.1 hr
    obtain ⟨hs, he⟩ := stuck_step h (ht op List.mem_cons_self) h₁
    obtain ⟨hs', he'⟩ := ih hs (fun o ho => ht o (List.mem_cons_of_mem _ ho)) h₂
    exact ⟨hs', he'.trans he⟩

/-- **A poisoned head.** One frame over the capacity, and neither source ever reads again. -/
theorem poisoned_head :
    ∃ th, run opStep (fresh 1 1 fun _ _ => true) [.read VIDEO_TYPE, .push twoBytes, .read VIDEO_TYPE] = some th ∧
      th.manager.firstRead = false ∧ ¬ HeadServed [twoBytes] th ∧
      ∀ ops th', (∀ op ∈ ops, op.Typed) → run opStep th ops = some th' → th'.manager.read = th.manager.read := by
  have hstuck : Stuck ((run opStep (fresh 1 1 fun _ _ => true)
      [.read VIDEO_TYPE, .push twoBytes, .read VIDEO_TYPE]).get (by decide)) :=
    ⟨by decide, by decide, [], _, [], rfl, by simp, by decide, by decide, by decide⟩
  refine ⟨_, (Option.some_get (by decide)).symm, by decide, fun hserved => ?_, fun ops th' ht hr =>
    (stuck_run hstuck ht hr).2⟩
  exact absurd (hserved [] _ [] rfl (by simp) (by decide)).1 (by decide)

/-- A frame that is neither video nor audio. -/
def foreignByte : Frame := ⟨[6], 1, 3, by decide⟩

/-- A frame that fits does the same when no source has its type. -/
theorem foreign_head :
    ∃ th, run opStep (fresh 1 1 fun _ _ => true) [.read VIDEO_TYPE, .push foreignByte, .read VIDEO_TYPE] = some th ∧
      ∀ ops th', (∀ op ∈ ops, op.Typed) → run opStep th ops = some th' → th'.manager.read = th.manager.read := by
  have hstuck : Stuck ((run opStep (fresh 1 1 fun _ _ => true)
      [.read VIDEO_TYPE, .push foreignByte, .read VIDEO_TYPE]).get (by decide)) :=
    ⟨by decide, by decide, [], _, [], rfl, by simp, by decide, by decide, by decide⟩
  exact ⟨_, (Option.some_get (by decide)).symm, fun ops th' ht hr => (stuck_run hstuck ht hr).2⟩

end ToolLib.Pusher
