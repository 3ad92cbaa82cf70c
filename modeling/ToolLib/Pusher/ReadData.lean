import ToolLib.Pusher.Stored

/-!
# What readData returns

`CacheManager::readData` against what the two queues store (`Stored`). It returns 1 exactly when it has taken the oldest
frame only if there is a slot in use, and the first one stores a frame: the `return 1` of the second loop stands outside
the test, so on empty queues it returns 1 as well and leaves `*tFrame` as it was.
-/

namespace ToolLib.Pusher

open ToolLib.Base

namespace Tracked

variable {n : Nat} {cap : Int} {s : Tracked} {m : CacheManager} {xs ys : List FrameContainer} {c : FrameContainer}
  {tFrame : FrameRef} {k : Nat} {calls : List Call}

/-- `*tFrame` is the oldest stored frame, its slot has become free, and the other slots are as they were. -/
def TakesOldest (s : Tracked) (r : CacheManager × FrameRef × Int) : Prop :=
  ∃ p k f c, s.live p = some k ∧ (∀ q l, s.live q = some l → k ≤ l) ∧ s.pushed[k]? = some f ∧
    r.2.1 = ⟨some p, f.bufferLen, f.type⟩ ∧ r.1.bytes r.2.1 = f.data ∧ r.1.slot p = some c ∧ c.mFree = true ∧
    ∀ q, q ≠ p → r.1.slot q = s.manager.slot q

/-- **What `readData` should do**, whatever `*tFrame` was: it returns 1 exactly when it takes the oldest frame, and else 0
with nothing changed. -/
def ReadsOldest (s : Tracked) : Prop :=
  ∀ tFrame, let r := s.manager.readData tFrame
    (r.2.2 = 1 ↔ TakesOldest s r) ∧
      (r.2.2 ≠ 1 → r.2.2 = 0 ∧ r.2.1 = tFrame ∧ ∀ q k, s.live q = some k → r.1.slot q = s.manager.slot q)

/-- A video frame of one byte. -/
def oneVideo : Frame := ⟨[9], 1, VIDEO_TYPE, by decide⟩

/-! ## The first slot in use -/

theorem findIdx?_free {l : List FrameContainer} (h : ∀ c ∈ l, c.mFree = true) :
    l.findIdx? (fun c => !c.getFreeStat) = none :=
  List.findIdx?_eq_none_iff.2 fun c hc => by simp [FrameContainer.getFreeStat, h c hc]

theorem firstUsed_read (hq : m.read = xs ++ c :: ys) (hxs : ∀ x ∈ xs, x.mFree = true) (hc : c.mFree = false) :
    m.firstUsed = some (m.readQueue, xs.length) := by
  have hi : (xs ++ c :: ys).findIdx? (fun c => !c.getFreeStat) = some xs.length := by
    rw [List.findIdx?_append, findIdx?_free hxs, List.findIdx?_cons]
    simp [FrameContainer.getFreeStat, hc]
  rw [CacheManager.firstUsed, hq, hi]

theorem firstUsed_write (hfree : ∀ c ∈ m.read, c.mFree = true) (hw : m.write = c :: ys) (hc : c.mFree = false) :
    m.firstUsed = some (m.writeQueue, 0) := by
  rw [CacheManager.firstUsed, findIdx?_free hfree, hw]
  simp [List.findIdx?_cons, FrameContainer.getFreeStat, hc]

theorem firstUsed_none (hfree : ∀ c ∈ m.read, c.mFree = true) (hw : ∀ c ∈ m.write, c.mFree = true) :
    m.firstUsed = none := by
  rw [CacheManager.firstUsed, findIdx?_free hfree, findIdx?_free hw]
  rfl

/-- A slot that stores a frame is in use. -/
theorem Stored.used (h : Stored n cap s) {q : Ref} {l : Nat} (hl : s.live q = some l) :
    ∃ d, (s.manager.containers q.1)[q.2]? = some d ∧ d.mFree = false := by
  obtain ⟨d, -, hd, hu, -⟩ := h.live q l hl
  exact ⟨d, hd, hu⟩

/-- The first slot in use is read before all others that store a frame. -/
theorem Inv.oldest (h : Inv n cap s) (hfirst : s.manager.firstRead = false) {p : Ref} (hlive : s.live p = some k)
    (hp : ∀ q l, s.live q = some l → q = p ∨ Before s.manager p q) : ∀ q l, s.live q = some l → k ≤ l := by
  intro q l hl
  rcases hp q l hl with rfl | hb
  · exact Nat.le_of_eq (Option.some.inj (hlive.symm.trans hl))
  · exact Nat.le_of_lt ((h.ordered hfirst).before p q k l hb hlive hl)

/-- Nothing is stored in the slots before the first one in use. -/
theorem first_read (h : Stored n cap s) (hq : s.manager.read = xs ++ c :: ys) (hxs : ∀ x ∈ xs, x.mFree = true) :
    ∀ q l, s.live q = some l →
      q = (s.manager.readQueue, xs.length) ∨ Before s.manager (s.manager.readQueue, xs.length) q := by
  rintro ⟨b, i⟩ l hl
  rcases h.two.cases b with rfl | rfl
  · obtain ⟨d, hd, hu⟩ := h.used hl
    have hq' : s.manager.containers s.manager.readQueue = xs ++ c :: ys := hq
    rcases Nat.lt_trichotomy i xs.length with hlt | rfl | hgt
    · rw [hq', List.getElem?_append_left hlt] at hd
      rw [hxs d (List.mem_of_getElem? hd)] at hu
      cases hu
    · exact Or.inl rfl
    · exact Or.inr (Or.inr ⟨rfl, hgt⟩)
  · exact Or.inr (Or.inl ⟨rfl, rfl⟩)

theorem first_write (h : Stored n cap s) (hfree : ∀ c ∈ s.manager.read, c.mFree = true) :
    ∀ q l, s.live q = some l → q = (s.manager.writeQueue, 0) ∨ Before s.manager (s.manager.writeQueue, 0) q := by
  rintro ⟨b, i⟩ l hl
  rcases h.two.cases b with rfl | rfl
  · obtain ⟨d, hd, hu⟩ := h.used hl
    rw [hfree d (List.mem_of_getElem? hd)] at hu
    cases hu
  · cases i with
    | zero => exact Or.inl rfl
    | succ i => exact Or.inr (Or.inr ⟨rfl, Nat.succ_pos i⟩)

/-! ## The two loops -/

/-- A slot that stores the oldest frame is read. -/
theorem takes_of_take (h : Stored n cap s) (hm : m.containers = s.manager.containers) (hq : m.read = xs ++ c :: ys)
    (hlive : s.live (m.readQueue, xs.length) = some k) (hold : ∀ q l, s.live q = some l → k ≤ l) (r : Int) :
    TakesOldest s ((m.takeSlot xs.length tFrame).1, (m.takeSlot xs.length tFrame).2, r) := by
  have hq' : m.containers m.readQueue = xs ++ c :: ys := hq
  obtain ⟨d, f, hd, -, hf, hlen, htype, hdata⟩ := h.live _ k hlive
  have hdc : d = c := by
    rw [CacheManager.slot, ← hm, hq'] at hd
    simpa using hd.symm
  subst hdc
  rw [takeSlot_eq hq]
  refine ⟨(m.readQueue, xs.length), k, f, (d.readData (m.readQueue, xs.length)).1.setFreeStat true, hlive, hold, hf,
    by rw [hlen, htype], ?_, ?_, rfl, fun q hne => ?_⟩
  · simp only [CacheManager.bytes, CacheManager.setQueue_same]
    rw [List.getElem?_append_right (Nat.le_refl _), Nat.sub_self]
    exact hdata
  · rw [CacheManager.slot, CacheManager.setQueue_same]
    simp
  · obtain ⟨b, i⟩ := q
    rw [CacheManager.slot, CacheManager.slot, ← hm]
    by_cases hb : b = m.readQueue
    · subst hb
      have hi : i ≠ xs.length := fun hi => hne (by rw [hi])
      rw [CacheManager.setQueue_same, hq']
      exact getElem?_change hi
    · rw [CacheManager.setQueue_other m hb]

/-- On queues of at least one slot `readData` returns 1. -/
theorem readData_one (h : Stored n cap s) (hn : 1 ≤ n) (tFrame : FrameRef) : (s.manager.readData tFrame).2.2 = 1 := by
  rw [readData_firstCall]
  rcases readData_cases s.manager.firstCall_firstRead tFrame with ⟨xs, c, ys, -, -, -, heq⟩ |
    ⟨-, ⟨c, ys, -, -, heq⟩ | ⟨c, ys, -, -, heq⟩ | ⟨hw, -⟩⟩
  · rw [heq]
  · rw [heq]
  · rw [heq]
  · have hlen := (freed_firstCall s.manager).length s.manager.firstCall.writeQueue
    have hw' : s.manager.firstCall.containers s.manager.firstCall.writeQueue = [] := hw
    rw [hw', h.length] at hlen
    simp at hlen
    omega

/-- The first slot in use stores a frame, and `readData` takes it. -/
theorem takes_first (h : Inv n cap s) (hfirst : s.manager.firstRead = false) {p : Ref} (hp : s.manager.firstUsed = some p)
    (hlive : s.live p = some k) (tFrame : FrameRef) : TakesOldest s (s.manager.readData tFrame) := by
  rcases readData_cases hfirst tFrame with ⟨xs, c, ys, hq, hxs, hu, heq⟩ |
    ⟨hfree, ⟨c, ys, hw, hu, heq⟩ | ⟨c, ys, hw, hu, -⟩ | ⟨hw, -⟩⟩
  · rw [firstUsed_read hq hxs hu] at hp
    cases hp
    rw [heq]
    exact takes_of_take h.stored rfl hq hlive (h.oldest hfirst hlive (first_read h.stored hq hxs)) 1
  · rw [firstUsed_write hfree hw hu] at hp
    cases hp
    rw [heq]
    have hw' : s.manager.swapQueue.read = [] ++ c :: ys := hw
    exact takes_of_take (m := s.manager.swapQueue) h.stored rfl hw' hlive
      (h.oldest hfirst hlive (first_write h.stored hfree)) 1
  · -- behind a free slot of the write queue there are only free ones
    have hall : ∀ d ∈ s.manager.write, d.mFree = true := by
      have hfilled := (h.ordered hfirst).filled
      rw [hw, List.pairwise_cons] at hfilled
      intro d hd
      rw [hw] at hd
      rcases List.mem_cons.1 hd with rfl | hd
      · exact hu
      · cases hdu : d.mFree with
        | true => rfl
        | false => exact (hfilled.1 d hd hdu).symm.trans hu
    rw [firstUsed_none hfree hall] at hp
    cases hp
  · rw [firstUsed_none hfree (by rw [hw]; simp)] at hp
    cases hp

/-- `readData` fills `*tFrame` from the first slot in use, or not at all. -/
theorem readData_fills (s : Tracked) (tFrame : FrameRef) : (s.manager.readData tFrame).2.1 = tFrame ∨
    s.manager.firstRead = false ∧ ∃ p c, s.manager.firstUsed = some p ∧ s.manager.slot p = some c ∧ c.mFree = false ∧
      (s.manager.readData tFrame).2.1 = ⟨some p, c.f.bufferLen, c.f.type⟩ := by
  cases hfirst : s.manager.firstRead with
  | true =>
    -- the first call leaves nothing to take
    rw [readData_firstCall]
    have hfree := firstCall_free hfirst
    rcases readData_cases s.manager.firstCall_firstRead tFrame with ⟨xs, c, ys, hq, -, hu, -⟩ |
      ⟨-, ⟨c, ys, hw, hu, -⟩ | ⟨c, ys, -, -, heq⟩ | ⟨-, heq⟩⟩
    · rw [hfree _ c (by rw [show s.manager.firstCall.containers _ = xs ++ c :: ys from hq]; simp)] at hu
      cases hu
    · rw [hfree _ c (by rw [show s.manager.firstCall.containers _ = c :: ys from hw]; simp)] at hu
      cases hu
    · exact Or.inl (by rw [heq])
    · exact Or.inl (by rw [heq])
  | false =>
    rcases readData_cases hfirst tFrame with ⟨xs, c, ys, hq, hxs, hu, heq⟩ |
      ⟨hfree, ⟨c, ys, hw, hu, heq⟩ | ⟨c, ys, -, -, heq⟩ | ⟨-, heq⟩⟩
    · have hq' : s.manager.containers s.manager.readQueue = xs ++ c :: ys := hq
      refine Or.inr ⟨rfl, _, c, firstUsed_read hq hxs hu, by rw [CacheManager.slot, hq']; simp, hu, ?_⟩
      rw [heq, takeSlot_eq hq]
    · have hw' : s.manager.containers s.manager.writeQueue = c :: ys := hw
      have hw'' : s.manager.swapQueue.read = [] ++ c :: ys := hw
      have htake := takeSlot_eq hw'' tFrame
      rw [List.length_nil] at htake
      refine Or.inr ⟨rfl, _, c, firstUsed_write hfree hw hu, by rw [CacheManager.slot, hw']; rfl, hu, ?_⟩
      rw [heq, htake]
      rfl
    · exact Or.inl (by rw [heq])
    · exact Or.inl (by rw [heq])

/-- **`readData` reads the oldest frame**, or says that there is none, exactly when a reader has called before and the first
slot in use stores a frame. -/
theorem readsOldest_iff {frameSize : Nat} {free : Bool → Nat → Bool} (hn : 1 ≤ n)
    (h : run step (new frameSize n free) calls = some s) :
    ReadsOldest s ↔ s.manager.firstRead = false ∧ ∃ p k, s.manager.firstUsed = some p ∧ s.live p = some k := by
  have hinv := run_inv_new h
  constructor
  · intro hread
    obtain ⟨p, k, f, c, hlive, -, -, hfill, -⟩ := (hread ⟨none, 0, 0⟩).1.1 (readData_one hinv.stored hn _)
    have hbuf := congrArg FrameRef.buffer hfill
    rcases readData_fills s ⟨none, 0, 0⟩ with hsame | ⟨hfirst, q, d, hq, -, -, hfill'⟩
    · rw [hsame] at hbuf
      cases hbuf
    · rw [hfill'] at hbuf
      cases hbuf
      exact ⟨hfirst, p, k, hq, hlive⟩
  · rintro ⟨hfirst, p, k, hp, hlive⟩ tFrame
    have hone := readData_one hinv.stored hn tFrame
    exact ⟨⟨fun _ => takes_first hinv hfirst hp hlive tFrame, fun _ => hone⟩, fun hno => absurd hone hno⟩

/-- A frame that fits, pushed behind the first call of the reader, is read. -/
theorem readsOldest_iff_pushed : ∃ s, run step (new 1 2 fun _ _ => true) [.findType, .write oneVideo] = some s ∧
    ReadsOldest s := by
  have hrun : run step (new 1 2 fun _ _ => true) [.findType, .write oneVideo] = some _ := rfl
  exact ⟨_, hrun, (readsOldest_iff (by decide) hrun).2 ⟨rfl, (false, 0), 0, by decide, by decide⟩⟩

/-- Both queues are empty, and `readData` returns 1. -/
theorem one_without_frame : ¬ ∀ (frameSize n : Nat) (free : Bool → Nat → Bool) (calls : List Call) (s : Tracked), 1 ≤ n →
    run step (new frameSize n free) calls = some s → ReadsOldest s := by
  intro h
  have hread := h 1 1 (fun _ _ => true) [.findType] _ (by omega) rfl
  obtain ⟨p, k, f, c, -, -, -, hfill, -⟩ := (hread ⟨none, 0, 0⟩).1.1 (by decide)
  have hbuf := congrArg FrameRef.buffer hfill
  cases hbuf

end Tracked

end ToolLib.Pusher
