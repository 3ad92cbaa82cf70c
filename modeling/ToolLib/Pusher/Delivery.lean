import ToolLib.Pusher.Threads

/-!
# Delivery order of the frame cache

Starting from empty queues, with pushes of frames that fit and reads by the two sources, the cache is a queue in two
stages (`Base.TwoStage`): a push appends to the write queue or overflows, `swapQueue` runs only when the read queue is
empty, and a read takes the first frame of the read queue (`step_sim`, `refines`). The invariant `Inv` says why:

- the slots in use of the write queue come before its free slots, so a push goes behind the frames already there;
- every slot in use holds the frame pushed under its number;
- what the reader has seen of its queue is still true, because pushes touch the other array only (`ReaderOk`).

`delivery_order` puts the two together.
-/

namespace ToolLib.Pusher

open ToolLib.Base

/-! ## Slots in use -/

section Used

variable {xs ys : List FrameContainer} {us vs : List Nat} {c : FrameContainer} {u : Nat}

theorem usedTags_append (p q : List (FrameContainer × Nat)) : usedTags (p ++ q) = usedTags p ++ usedTags q :=
  List.filterMap_append

theorem usedTags_free {q : List (FrameContainer × Nat)} (h : ∀ p ∈ q, p.1.mFree = true) : usedTags q = [] :=
  List.filterMap_eq_nil_iff.2 fun p hp => by simp [h p hp]

theorem usedTags_zip_free (h : ∀ c ∈ xs, c.mFree = true) : usedTags (xs.zip us) = [] :=
  usedTags_free fun _ hp => h _ (List.of_mem_zip hp).1

/-- The slots in use around one slot. -/
theorem usedTags_split (hl : xs.length = us.length) :
    usedTags ((xs ++ c :: ys).zip (us ++ u :: vs)) =
      usedTags (xs.zip us) ++ ((if c.mFree then [] else [u]) ++ usedTags (ys.zip vs)) := by
  rw [List.zip_append hl, usedTags_append, List.zip_cons_cons]
  cases h : c.mFree <;> simp [usedTags, h]

theorem mem_zip_split (hl : xs.length = us.length) {p : FrameContainer × Nat} :
    p ∈ (xs ++ c :: ys).zip (us ++ u :: vs) ↔ p ∈ xs.zip us ∨ p = (c, u) ∨ p ∈ ys.zip vs := by
  rw [List.zip_append hl, List.mem_append, List.zip_cons_cons, List.mem_cons]

/-- One container is written or read: the memory of all stays what it was. -/
theorem memoryLen_split {c' : FrameContainer} {cap : Int} (h : ∀ x ∈ xs ++ c :: ys, x.memoryLen = cap)
    (hc : c'.memoryLen = c.memoryLen) : ∀ x ∈ xs ++ c' :: ys, x.memoryLen = cap := by
  intro x hx
  rcases List.mem_append.1 hx with hx | hx
  · exact h x (List.mem_append_left _ hx)
  · rcases List.mem_cons.1 hx with rfl | hx
    · rw [hc]
      exact h c (List.mem_append_right _ List.mem_cons_self)
    · exact h x (List.mem_append_right _ (List.mem_cons_of_mem _ hx))

/-- The tags split where the containers do. -/
theorem tags_split {ts : List Nat} (h : ts.length = (xs ++ c :: ys).length) :
    ∃ us u vs, ts = us ++ u :: vs ∧ xs.length = us.length := by
  have hx : xs.length < ts.length := by simp at h; omega
  exact ⟨ts.take xs.length, ts[xs.length], ts.drop (xs.length + 1), by simp, by simp; omega⟩

end Used

/-! ## The invariant -/

/-- The slots before `i` of the read queue are free. -/
def FreeBefore (m : CacheManager) (i : Nat) : Prop := ∀ c ∈ m.read.take i, c.mFree = true

/-- The first slot in use of the read queue is not before `i`, and its frame has type `t`. -/
def Ready (m : CacheManager) (t : Int) (i : Nat) : Prop :=
  ∃ xs c ys, m.read = xs ++ c :: ys ∧ (∀ x ∈ xs, x.mFree = true) ∧ c.mFree = false ∧ c.f.type = t ∧ i ≤ xs.length

/-- What the reading thread knows where it is. -/
def ReaderOk (m : CacheManager) (pushed : List Frame) : Reader → Prop
  | .idle => True
  | .find t i => t ≠ 0 ∧ FreeBefore m i
  | .findSwap t => t ≠ 0 ∧ ∀ c ∈ m.read, c.mFree = true
  | .findAgain t i => t ≠ 0 ∧ FreeBefore m i
  | .read t i => Ready m t i
  | .readSwap _ => False
  | .readAgain _ => False
  | .got t tFrame k => ∃ f j, pushed[k]? = some f ∧ t = f.type ∧ tFrame.bufferLen = f.bufferLen ∧
      tFrame.buffer = some (m.readQueue, j) ∧ m.bytes tFrame = f.data

/-- A delivery is a pushed frame, for the source of its type. -/
def Delivery.Good (pushed : List Frame) (d : Delivery) : Prop :=
  ∃ f, pushed[d.serial]? = some f ∧ d.mediaType = f.type ∧ d.bufferLen = f.bufferLen ∧ d.bytes = f.data

/-- The invariant of the two threads. -/
structure Inv (cap : Nat) (s : Sys) : Prop where
  first : s.manager.firstRead = false
  two : s.manager.writeQueue = !s.manager.readQueue
  tags : ∀ b, (s.tags b).length = (s.manager.containers b).length
  memoryLen : ∀ b, ∀ c ∈ s.manager.containers b, c.memoryLen = cap
  bytes : ∀ f ∈ s.pushed, 1 ≤ f.bufferLen
  written : ∃ os fs, s.manager.write = os ++ fs ∧ (∀ c ∈ os, c.mFree = false) ∧ ∀ c ∈ fs, c.mFree = true
  slots : ∀ b, ∀ p ∈ s.tagged b, p.1.mFree = false → ∃ f, s.pushed[p.2]? = some f ∧ p.1.Holds f
  reader : ReaderOk s.manager s.pushed s.reader
  delivered : ∀ d ∈ s.delivered, d.Good s.pushed

variable {cap n : Nat} {s s' : Sys}

theorem Inv.read_ne_write (h : Inv cap s) : s.manager.readQueue ≠ s.manager.writeQueue := by
  rw [h.two]; cases s.manager.readQueue <;> decide

theorem inv_start (h : Start n cap s) : Inv cap s where
  first := h.first
  two := h.two
  tags b := by rw [h.tags, h.length]
  memoryLen := h.memoryLen
  bytes f hf := by rw [h.pushed] at hf; cases hf
  written := ⟨[], s.manager.write, rfl, by simp, fun c hc => h.free _ c hc⟩
  slots b p hp hu := by
    rw [h.free b p.1 (List.of_mem_zip hp).1] at hu; cases hu
  reader := by rw [h.idle]; trivial
  delivered d hd := by rw [h.delivered] at hd; cases hd

theorem getElem?_snoc {pushed more : List Frame} {k : Nat} {f : Frame} (h : pushed[k]? = some f) :
    (pushed ++ more)[k]? = some f := by
  rw [List.getElem?_append_left (List.getElem?_eq_some_iff.1 h).1]; exact h

/-- More pushes, and the same array read: the reader knows what it knew. -/
theorem ReaderOk.mono {m m' : CacheManager} {pushed more : List Frame} (hq : m'.readQueue = m.readQueue)
    (hc : m'.containers m.readQueue = m.containers m.readQueue) {r : Reader} (h : ReaderOk m pushed r) :
    ReaderOk m' (pushed ++ more) r := by
  have hr : m'.read = m.read := by unfold CacheManager.read; rw [hq, hc]
  cases r with
  | got t tFrame k =>
    obtain ⟨f, j, hf, ht, hl, hb, hd⟩ := h
    refine ⟨f, j, getElem?_snoc hf, ht, hl, by rw [hb, hq], ?_⟩
    rw [← hd]
    simp only [CacheManager.bytes, hb, hc]
  | idle | readSwap | readAgain => exact h
  | find | findSwap | findAgain | read => simpa only [ReaderOk, FreeBefore, Ready, hr] using h

theorem Delivery.Good.mono {pushed more : List Frame} {d : Delivery} (h : d.Good pushed) : d.Good (pushed ++ more) := by
  obtain ⟨f, hf, h⟩ := h
  exact ⟨f, getElem?_snoc hf, h⟩

/-! ## Pushes -/

/-- `s` after a push of `f` that leaves `q` in the array written, with the tags `ts`. -/
def Sys.written (s : Sys) (f : Frame) (q : List FrameContainer) (ts lost : List Nat) : Sys :=
  { s.setManager (s.manager.setQueue s.manager.writeQueue q) with
    tags := Function.update s.tags s.manager.writeQueue ts, pushed := s.pushed ++ [f], lost := lost }

section Written

variable {f : Frame} {q : List FrameContainer} {ts lost : List Nat}

theorem written_manager : (s.written f q ts lost).manager = s.manager.setQueue s.manager.writeQueue q := rfl

theorem written_tags : (s.written f q ts lost).tags = Function.update s.tags s.manager.writeQueue ts := rfl

theorem written_tagged_write : (s.written f q ts lost).tagged s.manager.writeQueue = q.zip ts := by
  unfold Sys.tagged
  rw [written_manager, written_tags, CacheManager.setQueue_same, Function.update_self]

theorem written_tagged_other {b : Bool} (hb : b ≠ s.manager.writeQueue) :
    (s.written f q ts lost).tagged b = s.tagged b := by
  unfold Sys.tagged
  rw [written_manager, written_tags, CacheManager.setQueue_other _ hb, Function.update_of_ne hb]

theorem written_write : (s.written f q ts lost).manager.write = q := by
  simp [written_manager, CacheManager.write]

/-- The other array, the reader and what was delivered do not change. -/
theorem inv_written (h : Inv cap s) (hf : 1 ≤ f.bufferLen) (hlen : ts.length = q.length)
    (hmem : ∀ c ∈ q, c.memoryLen = cap)
    (hpre : ∃ os fs, q = os ++ fs ∧ (∀ c ∈ os, c.mFree = false) ∧ ∀ c ∈ fs, c.mFree = true)
    (hslots : ∀ p ∈ q.zip ts, p.1.mFree = false → ∃ g, (s.pushed ++ [f])[p.2]? = some g ∧ p.1.Holds g) :
    Inv cap (s.written f q ts lost) where
  first := h.first
  two := h.two
  tags b := by
    by_cases hb : b = s.manager.writeQueue
    · subst hb
      rw [written_manager, written_tags, CacheManager.setQueue_same, Function.update_self, hlen]
    · rw [written_manager, written_tags, CacheManager.setQueue_other _ hb, Function.update_of_ne hb]
      exact h.tags b
  memoryLen b c hc := by
    by_cases hb : b = s.manager.writeQueue
    · subst hb
      rw [written_manager, CacheManager.setQueue_same] at hc
      exact hmem c hc
    · rw [written_manager, CacheManager.setQueue_other _ hb] at hc
      exact h.memoryLen b c hc
  bytes g hg := by
    rcases List.mem_append.1 hg with hg | hg
    · exact h.bytes g hg
    · rw [List.mem_singleton.1 hg]; exact hf
  written := by rw [written_write]; exact hpre
  slots b p hp hu := by
    by_cases hb : b = s.manager.writeQueue
    · subst hb
      rw [written_tagged_write] at hp
      exact hslots p hp hu
    · rw [written_tagged_other hb] at hp
      obtain ⟨g, hg, hh⟩ := h.slots b p hp hu
      exact ⟨g, getElem?_snoc hg, hh⟩
  reader := by
    have hq : (s.manager.setQueue s.manager.writeQueue q).readQueue = s.manager.readQueue := rfl
    exact h.reader.mono hq (CacheManager.setQueue_other _ h.read_ne_write _)
  delivered d hd := (h.delivered d hd).mono

theorem written_abs (h : Inv cap s) : (s.written f q ts lost).abs =
    { s.abs with pushed := s.pushed ++ [f], back := usedTags (q.zip ts), lost := lost } := by
  have hfront : (s.written f q ts lost).front = s.front := congrArg usedTags (written_tagged_other h.read_ne_write)
  have hback : (s.written f q ts lost).back = usedTags (q.zip ts) := congrArg usedTags written_tagged_write
  simp only [Sys.abs, hfront, hback]
  rfl

end Written

section Push

variable {f : Frame} {os fs : List FrameContainer} {c : FrameContainer} {us vs : List Nat} {u : Nat}

/-- A push that finds a free slot. -/
theorem push_stored (hf : 0 < f.bufferLen) (hw : s.manager.write = os ++ c :: fs) (ho : ∀ x ∈ os, x.mFree = false)
    (hc : c.mFree = true) (ht : s.tags s.manager.writeQueue = us ++ u :: vs) (hl : os.length = us.length) :
    (s.manager.writeData f).2 = 1 ∧ s.push f =
      s.written f (os ++ (c.writeData f).1.setFreeStat false :: fs) (us ++ s.pushed.length :: vs) s.lost := by
  have hi : (os ++ c :: fs).findIdx? FrameContainer.getFreeStat = some os.length := by
    have hos : os.findIdx? FrameContainer.getFreeStat = none := List.findIdx?_eq_none_iff.2 ho
    rw [List.findIdx?_append, hos, List.findIdx?_cons]
    simp [FrameContainer.getFreeStat, hc]
  have hm : s.manager.writeData f = (s.manager.setQueue s.manager.writeQueue
      (os ++ (c.writeData f).1.setFreeStat false :: fs), 1) := by
    unfold CacheManager.writeData
    rw [if_neg (by omega), hw, hi]
    simp only [modify_split]
  refine ⟨by rw [hm], ?_⟩
  have hth : (pusher_pushFrame s.th f).1 = { s.th with manager := (s.manager.writeData f).1 } := rfl
  unfold Sys.push
  simp only [hth, hm, if_true, hw, hi, ht, hl, modify_split]
  rfl

/-- A push that finds no free slot. -/
theorem push_full (hf : 0 < f.bufferLen) (hw : ∀ c ∈ s.manager.write, c.mFree = false) :
    (s.manager.writeData f).2 = 0 ∧ s.push f =
      s.written f (s.manager.write.map fun fc => fc.cleanContainer.setFreeStat true) (s.tags s.manager.writeQueue)
        (s.lost ++ (s.back ++ [s.pushed.length])) := by
  have hi : s.manager.write.findIdx? FrameContainer.getFreeStat = none := List.findIdx?_eq_none_iff.2 hw
  have hm : s.manager.writeData f = (s.manager.setQueue s.manager.writeQueue
      (s.manager.write.map fun fc => fc.cleanContainer.setFreeStat true), 0) := by
    unfold CacheManager.writeData
    rw [if_neg (by omega), hi]
  refine ⟨by rw [hm], ?_⟩
  have hth : (pusher_pushFrame s.th f).1 = { s.th with manager := (s.manager.writeData f).1 } := rfl
  unfold Sys.push
  simp only [hth, hm, if_neg (show ¬ (0 : Int) = 1 by decide), if_neg (show ¬ f.bufferLen ≤ 0 by omega), Sys.written,
    Function.update_eq_self]
  rfl

/-- A push appends to the write queue or, when that is full, throws it away. -/
theorem push_cases (h : Inv cap s) (hf : 1 ≤ f.bufferLen) (hcap : f.bufferLen ≤ cap) :
    Inv cap (s.push f) ∧
      ((s.manager.writeData f).2 = 1 ∧
          (s.push f).abs = { s.abs with pushed := s.pushed ++ [f], back := s.back ++ [s.pushed.length] } ∨
        (s.manager.writeData f).2 = 0 ∧ (∀ c ∈ s.manager.write, c.mFree = false) ∧
          (∀ c ∈ (s.push f).manager.write, c.mFree = true) ∧
          (s.push f).abs = { s.abs with
            pushed := s.pushed ++ [f], back := [], lost := s.lost ++ (s.back ++ [s.pushed.length]) }) := by
  have hlen := h.tags s.manager.writeQueue
  have hmem : ∀ c ∈ s.manager.write, c.memoryLen = cap := h.memoryLen _
  obtain ⟨os, fs, hw, ho, hfs⟩ := h.written
  cases fs with
  | nil =>
    rw [List.append_nil] at hw
    have hall : ∀ c ∈ s.manager.write, c.mFree = false := hw ▸ ho
    obtain ⟨hret, hp⟩ := push_full (f := f) (by omega) hall
    have hfree : ∀ c ∈ s.manager.write.map fun fc => fc.cleanContainer.setFreeStat true, c.mFree = true := by
      intro c hc
      obtain ⟨c', -, rfl⟩ := List.mem_map.1 hc
      rfl
    rw [hp]
    refine ⟨inv_written h hf (by simpa [CacheManager.write] using hlen) ?_ ⟨[], _, rfl, by simp, hfree⟩ ?_,
      Or.inr ⟨hret, hall, by rw [written_write]; exact hfree, by rw [written_abs h, usedTags_zip_free hfree]⟩⟩
    · intro c hc
      obtain ⟨c', hc', rfl⟩ := List.mem_map.1 hc
      exact hmem c' hc'
    · intro p hp' hu
      rw [hfree p.1 (List.of_mem_zip hp').1] at hu
      cases hu
  | cons c fs =>
    have hc : c.mFree = true := hfs c List.mem_cons_self
    have hw' : s.manager.containers s.manager.writeQueue = os ++ c :: fs := hw
    rw [hw'] at hlen
    obtain ⟨us, u, vs, ht, hl⟩ := tags_split hlen
    obtain ⟨hret, hp⟩ := push_stored (f := f) (by omega) hw ho hc ht hl
    have hfree : usedTags (fs.zip vs) = [] := usedTags_zip_free fun x hx => hfs x (List.mem_cons_of_mem _ hx)
    have htag : s.tagged s.manager.writeQueue = (os ++ c :: fs).zip (us ++ u :: vs) := by
      unfold Sys.tagged; rw [ht, hw']
    have hback : s.back = usedTags (os.zip us) := by
      unfold Sys.back
      rw [htag, usedTags_split hl, hfree]
      simp [hc]
    have hnew : usedTags ((os ++ (c.writeData f).1.setFreeStat false :: fs).zip (us ++ s.pushed.length :: vs)) =
        s.back ++ [s.pushed.length] := by
      rw [usedTags_split hl, hfree, hback]; simp
    rw [hp]
    rw [hw] at hmem
    refine ⟨inv_written h hf (by rw [ht] at hlen; simpa using hlen) (memoryLen_split hmem (by simp))
      ⟨os ++ [(c.writeData f).1.setFreeStat false], fs, by simp, ?_, fun x hx => hfs x (List.mem_cons_of_mem _ hx)⟩ ?_,
      Or.inl ⟨hret, by rw [written_abs h, hnew]; rfl⟩⟩
    · intro x hx
      rcases List.mem_append.1 hx with hx | hx
      · exact ho x hx
      · rw [List.mem_singleton.1 hx]; rfl
    · intro p hp' hu
      have old : p ∈ s.tagged s.manager.writeQueue → ∃ g, (s.pushed ++ [f])[p.2]? = some g ∧ p.1.Holds g := by
        intro hm
        obtain ⟨g, hg, hh⟩ := h.slots _ p hm hu
        exact ⟨g, getElem?_snoc hg, hh⟩
      rw [htag, mem_zip_split hl] at old
      rcases (mem_zip_split hl).1 hp' with hm | rfl | hm
      · exact old (Or.inl hm)
      · exact ⟨f, by simp, FrameContainer.writeData_holds (by rw [hmem c (by simp)]; exact hcap)⟩
      · exact old (Or.inr (Or.inr hm))

end Push

/-! ## The reading thread -/

section Reading

variable {t : Int} {i k : Nat} {c : FrameContainer} {xs ys : List FrameContainer} {tFrame : FrameRef} {r : Reader}

/-- Only the place of the reader changes. -/
theorem inv_reader (h : Inv cap s) (hr : ReaderOk s.manager s.pushed r) : Inv cap { s with reader := r } :=
  { h with reader := hr }

theorem freeBefore_succ (hb : FreeBefore s.manager i) (hc : s.manager.read[i]? = some c) (hf : c.mFree = true) :
    FreeBefore s.manager (i + 1) := by
  intro x hx
  rw [List.take_add_one, hc, Option.toList_some, List.mem_append, List.mem_singleton] at hx
  rcases hx with hx | rfl
  · exact hb x hx
  · exact hf

theorem freeBefore_end (hb : FreeBefore s.manager i) (hc : s.manager.read[i]? = none) :
    ∀ c ∈ s.manager.read, c.mFree = true := by
  intro x hx
  exact hb x (by rwa [List.take_of_length_le (List.getElem?_eq_none_iff.1 hc)])

/-- The first slot in use decides who may read. -/
theorem compare_ok (hb : FreeBefore s.manager i) (hc : s.manager.read[i]? = some c) (hu : c.mFree = false) :
    ReaderOk s.manager s.pushed (Sys.compare t c.getMediaType) := by
  unfold Sys.compare
  split
  · trivial
  · rename_i ht
    obtain ⟨hi, he⟩ := List.getElem?_eq_some_iff.1 hc
    refine ⟨s.manager.read.take i, c, s.manager.read.drop (i + 1), ?_, hb, hu, (not_ne_iff.1 ht).symm, Nat.zero_le _⟩
    rw [← he, List.getElem_cons_drop, List.take_append_drop]

theorem compare_inFlight (t type : Int) : (Sys.compare t type).inFlight = [] := by
  unfold Sys.compare; split <;> rfl

/-- The queues change places when the read queue is empty. -/
theorem inv_swap (h : Inv cap s) (hall : ∀ c ∈ s.manager.read, c.mFree = true) (ht : t ≠ 0) :
    Inv cap { s.setManager s.manager.swapQueue with reader := .findAgain t 0 } where
  first := h.first
  two := by
    have := h.two
    show s.manager.readQueue = !s.manager.writeQueue
    rw [this, Bool.not_not]
  tags := h.tags
  memoryLen := h.memoryLen
  bytes := h.bytes
  written := ⟨[], s.manager.read, rfl, by simp, hall⟩
  slots := h.slots
  reader := ⟨ht, by intro c hc; simp at hc⟩
  delivered := h.delivered

theorem abs_swap (hall : ∀ c ∈ s.manager.read, c.mFree = true) (hr : s.reader.inFlight = []) :
    TwoStage.step s.abs .swap = some (Sys.abs { s.setManager s.manager.swapQueue with reader := .findAgain t 0 }) := by
  have hfront : s.front = [] := usedTags_zip_free hall
  have hback : Sys.back { s.setManager s.manager.swapQueue with reader := .findAgain t 0 } = s.front := rfl
  have hnew : Sys.front { s.setManager s.manager.swapQueue with reader := .findAgain t 0 } = s.back := rfl
  simp only [TwoStage.step, Sys.abs, hback, hnew, hfront, if_true, hr]
  rfl

/-- `s` after a read that leaves `q` in the array read, and the reader at `r`. -/
def Sys.taken (s : Sys) (q : List FrameContainer) (r : Reader) : Sys :=
  { s.setManager (s.manager.setQueue s.manager.readQueue q) with reader := r }

section Taken

variable {q : List FrameContainer}

theorem taken_manager : (s.taken q r).manager = s.manager.setQueue s.manager.readQueue q := rfl

theorem taken_tagged_read : (s.taken q r).tagged s.manager.readQueue = q.zip (s.tags s.manager.readQueue) := by
  unfold Sys.tagged
  rw [taken_manager, CacheManager.setQueue_same]
  rfl

theorem taken_tagged_other {b : Bool} (hb : b ≠ s.manager.readQueue) : (s.taken q r).tagged b = s.tagged b := by
  unfold Sys.tagged
  rw [taken_manager, CacheManager.setQueue_other _ hb]
  rfl

/-- The other array and what was delivered do not change. -/
theorem inv_taken (h : Inv cap s) (hlen : q.length = (s.manager.containers s.manager.readQueue).length)
    (hmem : ∀ c ∈ q, c.memoryLen = cap)
    (hslots : ∀ p ∈ q.zip (s.tags s.manager.readQueue), p.1.mFree = false → p ∈ s.tagged s.manager.readQueue)
    (hr : ReaderOk (s.taken q r).manager s.pushed r) : Inv cap (s.taken q r) where
  first := h.first
  two := h.two
  tags b := by
    by_cases hb : b = s.manager.readQueue
    · subst hb
      rw [taken_manager, CacheManager.setQueue_same, hlen]
      exact h.tags _
    · rw [taken_manager, CacheManager.setQueue_other _ hb]
      exact h.tags b
  memoryLen b c hc := by
    by_cases hb : b = s.manager.readQueue
    · subst hb
      rw [taken_manager, CacheManager.setQueue_same] at hc
      exact hmem c hc
    · rw [taken_manager, CacheManager.setQueue_other _ hb] at hc
      exact h.memoryLen b c hc
  bytes := h.bytes
  written := by
    have hw : (s.taken q r).manager.write = s.manager.write := CacheManager.setQueue_other _ h.read_ne_write.symm _
    rw [hw]
    exact h.written
  slots b p hp hu := by
    by_cases hb : b = s.manager.readQueue
    · subst hb
      rw [taken_tagged_read] at hp
      exact h.slots _ p (hslots p hp hu) hu
    · rw [taken_tagged_other hb] at hp
      exact h.slots b p hp hu
  reader := hr
  delivered := h.delivered

theorem taken_abs (h : Inv cap s) : (s.taken q r).abs =
    { s.abs with out := s.delivered.map Delivery.serial ++ r.inFlight,
                 front := usedTags (q.zip (s.tags s.manager.readQueue)) } := by
  have hfront : (s.taken q r).front = usedTags (q.zip (s.tags s.manager.readQueue)) :=
    congrArg usedTags taken_tagged_read
  have hback : (s.taken q r).back = s.back := congrArg usedTags (taken_tagged_other h.read_ne_write.symm)
  simp only [Sys.abs, hfront, hback]
  rfl

end Taken

/-- What reading the first slot in use does. -/
theorem take_eq {us vs : List Nat} {u : Nat} (hq : s.manager.read = xs ++ c :: ys)
    (ht : s.tags s.manager.readQueue = us ++ u :: vs) (hl : xs.length = us.length) (hb : c.f.bufferLen ≠ 0) :
    s.take t xs.length =
      s.taken (xs ++ (c.readData (s.manager.readQueue, xs.length)).1.setFreeStat true :: ys)
        (.got t ⟨some (s.manager.readQueue, xs.length), c.f.bufferLen, c.f.type⟩ u) := by
  have hi : (xs ++ c :: ys)[xs.length]? = some c := by simp
  have hm : s.manager.takeSlot xs.length ⟨none, 0, 0⟩ = (s.manager.setQueue s.manager.readQueue
      (xs ++ (c.readData (s.manager.readQueue, xs.length)).1.setFreeStat true :: ys),
        ⟨some (s.manager.readQueue, xs.length), c.f.bufferLen, c.f.type⟩) := by
    unfold CacheManager.takeSlot
    rw [hq, hi]
    simp only [modify_split, FrameContainer.readData_ref]
  have hk : ((s.tags s.manager.readQueue)[xs.length]?).getD 0 = u := by rw [ht, hl]; simp
  unfold Sys.take
  simp only [hm, hk, if_neg hb]
  rfl

/-- The first slot in use holds the frame of its number, and reading it hands that frame out. -/
theorem take_step (h : Inv cap s) (hrd : s.reader = .read t xs.length) (hq : s.manager.read = xs ++ c :: ys)
    (hxs : ∀ x ∈ xs, x.mFree = true) (hu : c.mFree = false) (ht : c.f.type = t) :
    Inv cap (s.take t xs.length) ∧ TwoStage.step s.abs .take = some (s.take t xs.length).abs := by
  have hq' : s.manager.containers s.manager.readQueue = xs ++ c :: ys := hq
  have hlen := h.tags s.manager.readQueue
  rw [hq'] at hlen
  obtain ⟨us, u, vs, hts, hl⟩ := tags_split hlen
  have htag : s.tagged s.manager.readQueue = (xs ++ c :: ys).zip (us ++ u :: vs) := by
    unfold Sys.tagged; rw [hts, hq']
  obtain ⟨f, hf, hlenf, htypef, hdataf⟩ :=
    h.slots s.manager.readQueue (c, u) (by rw [htag, mem_zip_split hl]; exact Or.inr (Or.inl rfl)) hu
  have hone := h.bytes f (List.mem_of_getElem? hf)
  have hb : c.f.bufferLen ≠ 0 := by simp only at hlenf; omega
  have hmem := h.memoryLen s.manager.readQueue
  rw [hq'] at hmem
  rw [take_eq hq hts hl hb]
  constructor
  · refine inv_taken h (by rw [hq']; simp) (memoryLen_split hmem (by simp)) (fun p hp hup => ?_) ?_
    · rw [hts, mem_zip_split hl] at hp
      rw [htag, mem_zip_split hl]
      rcases hp with hp | rfl | hp
      · exact Or.inl hp
      · cases hup
      · exact Or.inr (Or.inr hp)
    · refine ⟨f, xs.length, hf, ht.symm.trans htypef, hlenf, rfl, ?_⟩
      simp only [CacheManager.bytes, taken_manager, CacheManager.setQueue_same]
      rw [List.getElem?_append_right (Nat.le_refl _), Nat.sub_self]
      exact hdataf
  · have hfront : s.front = u :: usedTags (ys.zip vs) := by
      unfold Sys.front
      rw [htag, usedTags_split hl, usedTags_zip_free hxs]
      simp [hu]
    have hnew : usedTags ((xs ++ (c.readData (s.manager.readQueue, xs.length)).1.setFreeStat true :: ys).zip
        (s.tags s.manager.readQueue)) = usedTags (ys.zip vs) := by
      rw [hts, usedTags_split hl, usedTags_zip_free hxs]
      simp
    rw [taken_abs h, hnew]
    simp only [TwoStage.step, Sys.abs, hfront, hrd, Reader.inFlight, List.append_nil]

/-- The source comes to the frame it was handed. -/
theorem deliver_step (h : Inv cap s) (hr : s.reader = .got t tFrame k) :
    Inv cap (s.deliver t tFrame k) ∧ (s.deliver t tFrame k).abs = s.abs := by
  have hok := h.reader
  rw [hr] at hok
  obtain ⟨f, j, hf, ht, hl, -, hd⟩ := hok
  refine ⟨{ h with reader := trivial, delivered := fun d hm => ?_ }, ?_⟩
  · rcases List.mem_append.1 hm with hm | hm
    · exact h.delivered d hm
    · rw [List.mem_singleton.1 hm]
      exact ⟨f, hf, ht, hl, hd⟩
  · simp only [Sys.abs, Sys.deliver, hr, Reader.inFlight, List.map_append, List.map_cons, List.map_nil, List.append_nil]
    rfl

end Reading

/-! ## Steps and runs -/

/-- What a step does to the account: nothing, or one step of the queue in two stages. -/
def Simulated (cap : Nat) (s s' : Sys) : Prop :=
  Inv cap s' ∧ (s'.abs = s.abs ∨ ∃ b, TwoStage.step s.abs b = some s'.abs)

/-- The reader goes on. -/
theorem reader_step {r : Reader} (h : Inv cap s) (hr : ReaderOk s.manager s.pushed r)
    (hin : r.inFlight = s.reader.inFlight) : Simulated cap s { s with reader := r } :=
  ⟨inv_reader h hr, Or.inl (Sys.abs_reader s r hin)⟩

/-- A loop of `findMediaType` looks at a slot: it goes on behind a free one, and compares the type of another. -/
theorem look_step {t : Int} {i : Nat} {c : FrameContainer} {loop : Reader} (h : Inv cap s)
    (hb : FreeBefore s.manager i) (hc : s.manager.read[i]? = some c) (hin : s.reader.inFlight = [])
    (hloop : loop.inFlight = []) (hok : FreeBefore s.manager (i + 1) → ReaderOk s.manager s.pushed loop) :
    Simulated cap s { s with reader := if c.getFreeStat then loop else Sys.compare t c.getMediaType } := by
  cases hf : c.getFreeStat with
  | true => exact reader_step h (hok (freeBefore_succ hb hc hf)) (hloop.trans hin.symm)
  | false => exact reader_step h (compare_ok hb hc hf) ((compare_inFlight t _).trans hin.symm)

theorem readerStep_sim (h : Inv cap s) (hs : s.readerStep = some s') : Simulated cap s s' := by
  have hok := h.reader
  unfold Sys.readerStep at hs
  cases hr : s.reader with
  | idle => rw [hr] at hs; cases hs
  | find t i =>
    rw [hr] at hs hok
    obtain ⟨ht, hb⟩ := hok
    cases hc : s.manager.read[i]? with
    | none =>
      simp only [hc] at hs
      cases hs
      exact reader_step h ⟨ht, freeBefore_end hb hc⟩ (by rw [hr]; rfl)
    | some c =>
      simp only [hc] at hs
      cases hs
      exact look_step h hb hc (by rw [hr]; rfl) rfl fun hb' => ⟨ht, hb'⟩
  | findSwap t =>
    rw [hr] at hs hok
    cases hs
    exact ⟨inv_swap h hok.2 hok.1, Or.inr ⟨.swap, abs_swap hok.2 (by rw [hr]; rfl)⟩⟩
  | findAgain t i =>
    rw [hr] at hs hok
    obtain ⟨ht, hb⟩ := hok
    cases hc : s.manager.read[i]? with
    | none =>
      simp only [hc] at hs
      cases hs
      have hidle : Sys.compare t 0 = .idle := if_pos ht
      rw [hidle]
      exact reader_step h trivial (by rw [hr]; rfl)
    | some c =>
      simp only [hc] at hs
      cases hs
      exact look_step h hb hc (by rw [hr]; rfl) rfl fun hb' => ⟨ht, hb'⟩
  | read t i =>
    rw [hr] at hs hok
    obtain ⟨xs, c, ys, hq, hxs, hu, ht, hi⟩ := hok
    rcases Nat.lt_or_eq_of_le hi with hi | rfl
    · -- a free slot before the frame
      have hc : s.manager.read[i]? = some xs[i] := by
        rw [hq, List.getElem?_append_left hi, List.getElem?_eq_getElem hi]
      have hf : xs[i].getFreeStat = true := hxs _ (List.getElem_mem hi)
      simp only [hc, hf, if_true] at hs
      cases hs
      exact reader_step h ⟨xs, c, ys, hq, hxs, hu, ht, hi⟩ (by rw [hr]; rfl)
    · have hc : s.manager.read[xs.length]? = some c := by rw [hq]; simp
      have hf : c.getFreeStat = false := hu
      simp only [hc, hf] at hs
      cases hs
      obtain ⟨hinv, habs⟩ := take_step h hr hq hxs hu ht
      exact ⟨hinv, Or.inr ⟨.take, habs⟩⟩
  | readSwap t => rw [hr] at hok; exact hok.elim
  | readAgain t => rw [hr] at hok; exact hok.elim
  | got t tFrame k =>
    rw [hr] at hs
    cases hs
    obtain ⟨hinv, habs⟩ := deliver_step h hr
    exact ⟨hinv, Or.inl habs⟩

/-- Every step keeps the invariant and is at most one step of the queue in two stages. -/
theorem step_sim {a : Act} (h : Inv cap s) (ha : a.Typed cap) (hs : s.step a = some s') : Simulated cap s s' := by
  cases a with
  | push f =>
    cases hs
    obtain ⟨hinv, ⟨-, habs⟩ | ⟨-, -, -, habs⟩⟩ := push_cases h ha.1 ha.2.1
    · exact ⟨hinv, Or.inr ⟨.push f, by rw [habs]; rfl⟩⟩
    · exact ⟨hinv, Or.inr ⟨.overflow f, by rw [habs]; rfl⟩⟩
  | begin t =>
    have ht : t ≠ 0 := by rcases ha with rfl | rfl <;> decide
    simp only [Sys.step] at hs
    split at hs
    · rename_i hidle
      split at hs
      · cases hs; exact ⟨h, Or.inl rfl⟩
      · cases hs
        have hm : s.setManager s.manager.firstCall = s := by rw [CacheManager.firstCall_of_not h.first]; rfl
        rw [hm]
        exact reader_step h ⟨ht, by intro c hc; simp at hc⟩ (by rw [hidle]; rfl)
    · cases hs
  | next => exact readerStep_sim h hs

theorem step_inv (s : Sys) (a : Act) (s' : Sys) (h : Inv cap s) (ha : a.Typed cap) (hs : Sys.step s a = some s') :
    Inv cap s' :=
  (step_sim h ha hs).1

/-- The invariant along a run. -/
theorem run_cache_inv {as : List Act} (h : Inv cap s) (ha : ∀ a ∈ as, a.Typed cap) (hr : run Sys.step s as = some s') :
    Inv cap s' :=
  run_inv_along step_inv h (along_of_forall ha) hr

/-- **Refinement**: every run of the two threads is a run of a queue in two stages. -/
theorem refines {as : List Act} (h : Inv cap s) (ha : ∀ a ∈ as, a.Typed cap) (hr : run Sys.step s as = some s') :
    ∃ bs, run TwoStage.step s.abs bs = some s'.abs := by
  refine run_sim step_inv (fun s a s₁ h ha hs => ?_) h (along_of_forall ha) hr
  rcases (step_sim h ha hs).2 with habs | ⟨b, hb⟩
  · exact ⟨[], by rw [habs]; rfl⟩
  · exact ⟨[b], by rw [run_one]; exact hb⟩

/-- The account is kept from the start. -/
theorem run_account {as : List Act} (h : Start n cap s) (ha : ∀ a ∈ as, a.Typed cap)
    (hr : run Sys.step s as = some s') : TwoStage.Ok s'.abs := by
  obtain ⟨bs, hb⟩ := refines (inv_start h) ha hr
  have h0 : s.abs = ⟨[], [], [], [], []⟩ := by
    have hq : ∀ b, usedTags (s.tagged b) = [] := fun b => usedTags_zip_free (h.free b)
    simp only [Sys.abs, Sys.front, Sys.back, h.pushed, h.lost, h.delivered, h.idle, hq]
    rfl
  exact TwoStage.run_ok (h0 ▸ TwoStage.ok_empty) hb

/-- Only a push changes what is lost. -/
theorem readerStep_lost (hs : s.readerStep = some s') : s'.lost = s.lost := by
  unfold Sys.readerStep at hs
  repeat' split at hs
  all_goals first
    | (cases hs; rfl)
    | cases hs

/-! ## Delivery order -/

/-- What the sources have received so far, against what was pushed. -/
structure InOrder (s : Sys) : Prop where
  /-- A source gets frames of its own type, with the bytes and the length pushed. -/
  own : ∀ d ∈ s.delivered, d.Good s.pushed
  /-- In push order, none twice. -/
  order : (s.delivered.map Delivery.serial).Pairwise (· < ·)
  subsequence : (s.delivered.map fun d => (d.mediaType, d.bufferLen, d.bytes)).Sublist
    (s.pushed.map fun f => (f.type, f.bufferLen, f.data))
  /-- What is not delivered is on its way, stored, or lost. -/
  account : ∀ k, k < s.pushed.length ↔
    k ∈ s.delivered.map Delivery.serial ∨ k ∈ s.reader.inFlight ∨ k ∈ s.front ∨ k ∈ s.back ∨ k ∈ s.lost
  missing : ∀ k ∈ s.lost, k ∉ s.delivered.map Delivery.serial ∧ k ∉ s.reader.inFlight ∧ k ∉ s.front ∧ k ∉ s.back

/-- What a step loses: nothing, or the whole write queue and the frame that did not fit, by a push that returns 0. -/
def LosesOnOverflow (s : Sys) (a : Act) (s' : Sys) : Prop :=
  match a with
  | .push f =>
    (s.manager.writeData f).2 = 1 ∧ s'.lost = s.lost ∧ s'.back = s.back ++ [s.pushed.length] ∨
      (s.manager.writeData f).2 = 0 ∧ (∀ c ∈ s.manager.write, c.mFree = false) ∧
        (∀ c ∈ s'.manager.write, c.mFree = true) ∧ s'.front = s.front ∧
        s'.lost = s.lost ++ (s.back ++ [s.pushed.length])
  | _ => s'.lost = s.lost

theorem inOrder_of_account (h : Inv cap s) (hok : TwoStage.Ok s.abs) : InOrder s where
  own := h.delivered
  order := (List.pairwise_append.1 (List.pairwise_append.1 (List.pairwise_append.1 hok.sorted).1).1).1
  subsequence := by
    have hsort := (List.pairwise_append.1 (List.pairwise_append.1 (List.pairwise_append.1 hok.sorted).1).1).1
    have hsub := TwoStage.sublist_of_sorted (s.pushed.map fun f => (f.type, f.bufferLen, f.data)) _ hsort
    have heq : ((s.delivered.map Delivery.serial).filterMap fun k =>
        (s.pushed.map fun f => (f.type, f.bufferLen, f.data))[k]?) =
        s.delivered.map fun d => (d.mediaType, d.bufferLen, d.bytes) := by
      rw [List.filterMap_map]
      calc
        _ = s.delivered.filterMap (some ∘ fun d => (d.mediaType, d.bufferLen, d.bytes)) := by
          refine List.filterMap_congr fun d hd => ?_
          obtain ⟨f, hf, ht, hl, hb⟩ := h.delivered d hd
          simp [hf, ht, hl, hb]
        _ = _ := congrFun List.filterMap_eq_map _
    rw [heq] at hsub
    exact hsub
  account k := by
    have := hok.cover k
    simp only [TwoStage.kept, Sys.abs, List.mem_append, or_assoc] at this
    exact this
  missing k hk := by
    have hap : k ∉ TwoStage.kept s.abs := fun hm => hok.apart k hm hk
    simp only [TwoStage.kept, Sys.abs, List.mem_append, not_or] at hap
    exact ⟨hap.1.1.1, hap.1.1.2, hap.1.2, hap.2⟩

/-- **Delivery order.** Over every interleaving of pushes of frames that fit and reads by the two sources, starting
from empty queues of any length. -/
theorem delivery_order {as : List Act} (h : Start n cap s) (ha : ∀ a ∈ as, a.Typed cap)
    (hr : run Sys.step s as = some s') :
    InOrder s' ∧ ∀ a s'', a.Typed cap → s'.step a = some s'' → LosesOnOverflow s' a s'' := by
  have hinv := run_cache_inv (inv_start h) ha hr
  refine ⟨inOrder_of_account hinv (run_account h ha hr), fun a s'' hty hs => ?_⟩
  cases a with
  | push f =>
    cases hs
    obtain ⟨-, ⟨hret, habs⟩ | ⟨hret, hfull, hfree, habs⟩⟩ := push_cases hinv hty.1 hty.2.1
    · exact Or.inl ⟨hret, congrArg TwoStage.lost habs, congrArg TwoStage.back habs⟩
    · exact Or.inr ⟨hret, hfull, hfree, congrArg TwoStage.front habs, congrArg TwoStage.lost habs⟩
  | begin t =>
    simp only [Sys.step] at hs
    split at hs
    · split at hs <;> (cases hs; rfl)
    · cases hs
  | next => exact readerStep_lost hs

/-- A video frame of one byte. -/
def oneByte : Frame := ⟨[7], 1, VIDEO_TYPE, by decide⟩

/-- One slot: the second push overflows, the third is delivered. -/
theorem delivery_order_one_slot :
    ∃ s, run Sys.step
        ⟨⟨(CacheManager.new 2 1 fun _ _ => true).firstCall, DO_NOTHING⟩, .idle, fun _ => List.replicate 1 0, [], [], []⟩
        [.push oneByte, .push oneByte, .push oneByte, .begin VIDEO_TYPE, .next, .next, .next, .next, .next, .next] =
          some s ∧
      s.lost = [0, 1] ∧ s.delivered = [⟨2, VIDEO_TYPE, 1, [7]⟩] ∧ InOrder s := by
  refine ⟨_, (Option.some_get (by decide)).symm, by decide, by decide,
    (delivery_order (start_new 2 1 fun _ _ => true) (fun a ha => ?_) (Option.some_get (by decide)).symm).1⟩
  simp only [List.mem_cons, List.not_mem_nil, or_false] at ha
  rcases ha with rfl | rfl | rfl | rfl | rfl | rfl | rfl | rfl | rfl | rfl <;> simp [Act.Typed, oneByte]

end ToolLib.Pusher
