import ToolLib.Pusher.Stored
import ToolLib.Pusher.Threads

/-!
# The frame that a source copies

The two threads over the cache (`Threads`), from a new cache, with pushes of any length. `last` has the number of the
frame that was copied last to each container. A source is handed a pointer into a container of the read queue, whose slot
is free already; pushes go to the other array, so the container stays as it is until the reading thread looks at the cache
again (`handoff`). The copy of `doReadFromCacheBuffer` is limited by `fMaxSize`, so a longer frame is cut.
-/

namespace ToolLib.Pusher

open ToolLib.Base

/-- The two threads, and the frame that was copied last to each container. -/
structure Noted where
  sys : Sys
  last : Ref → Option Nat

namespace Noted

/-- Before the first call. -/
def new (frameSize queueLen : Nat) (free : Bool → Nat → Bool) (fState : Int) : Noted :=
  ⟨⟨⟨CacheManager.new frameSize queueLen free, fState⟩, .idle, fun _ => List.replicate queueLen 0, [], [], []⟩, fun _ => none⟩

/-- What a push copies. -/
def noting (x : Noted) (f : Frame) : Ref → Option Nat :=
  match x.sys.manager.storesAt f with
  | some i => Function.update x.last (x.sys.manager.writeQueue, i) (some x.sys.pushed.length)
  | none => x.last

/-- One step of the two threads. -/
def step (x : Noted) (a : Act) : Option Noted :=
  (x.sys.step a).map fun s => ⟨s, match a with
    | .push f => x.noting f
    | _ => x.last⟩

end Noted

/-- `PusherByteStreamSource::doReadFromCacheBuffer`, when `readData` has returned `theErr`: the bytes it copies to `fTo` and
the `fFrameSize`, or nothing when it tries again later. -/
def doReadFromCacheBuffer (m : CacheManager) (theErr : Int) (tFrame : FrameRef) (fMaxSize : Nat) :
    Option (List UInt8 × Nat) :=
  let copy (n : Nat) : List UInt8 := ((tFrame.buffer.bind m.slot).map fun c => c.f.buffer.take n).getD []
  if theErr ≠ 1 ∨ tFrame.bufferLen ≤ 0 ∨ tFrame.bufferLen > 2 * 1024 * 1024 then none
  else if tFrame.bufferLen > fMaxSize then some (copy fMaxSize, fMaxSize)
  else some (copy tFrame.bufferLen.toNat, tFrame.bufferLen.toNat)

namespace Noted

variable {x x' : Noted} {m : CacheManager} {a : Act} {as : List Act} {f : Frame} {p : Ref} {c : FrameContainer} {k : Nat}
  {t : Int} {tFrame : FrameRef}

/-! ## The invariant -/

/-- The container has the bytes of the frame, and its length or none. -/
structure Copy (pushed : List Frame) (c : FrameContainer) (k : Nat) (f : Frame) : Prop where
  pushed : pushed[k]? = some f
  pos : 0 < f.bufferLen
  bytes : c.f.buffer.take f.bufferLen.toNat = f.data
  bufferLen : c.f.bufferLen = f.bufferLen ∨ c.f.bufferLen = 0

/-- Every container has the frame that was copied last to it, and no length before the first one. -/
def Copies (m : CacheManager) (last : Ref → Option Nat) (pushed : List Frame) : Prop :=
  ∀ p c, m.slot p = some c → (last p = none ∧ c.f.bufferLen = 0) ∨ ∃ k f, last p = some k ∧ Copy pushed c k f

/-- A source is handed the length of the frame copied last to a container of the read queue. -/
def Handed (m : CacheManager) (last : Ref → Option Nat) (pushed : List Frame) (tFrame : FrameRef) : Prop :=
  ∃ p c k f, tFrame.buffer = some p ∧ p.1 = m.readQueue ∧ m.slot p = some c ∧ last p = some k ∧ Copy pushed c k f ∧
    tFrame.bufferLen = f.bufferLen

structure Inv (x : Noted) : Prop where
  two : Two x.sys.manager
  copies : Copies x.sys.manager x.last x.sys.pushed
  handed : ∀ t tFrame k, x.sys.reader = .got t tFrame k → Handed x.sys.manager x.last x.sys.pushed tFrame

theorem inv_new (frameSize queueLen : Nat) (free : Bool → Nat → Bool) (fState : Int) :
    Inv (new frameSize queueLen free fState) where
  two := rfl
  copies p c hc := by
    obtain ⟨i, -, rfl⟩ := Option.map_eq_some_iff.1 ((List.getElem?_map ..).symm.trans hc)
    exact Or.inl ⟨rfl, rfl⟩
  handed t tFrame k hr := by cases hr

theorem Copy.more {pushed : List Frame} (h : Copy pushed c k f) (more : List Frame) : Copy (pushed ++ more) c k f :=
  ⟨by rw [List.getElem?_append_left (List.getElem?_eq_some_iff.1 h.pushed).1]; exact h.pushed, h.pos, h.bytes, h.bufferLen⟩

theorem Copy.flag {pushed : List Frame} (h : Copy pushed c k f) (tFree : Bool) : Copy pushed (c.setFreeStat tFree) k f :=
  ⟨h.pushed, h.pos, h.bytes, h.bufferLen⟩

/-- Slots that become free keep their bytes. -/
theorem Copies.freed {m m' : CacheManager} {last : Ref → Option Nat} {pushed : List Frame} (h : Copies m last pushed)
    (hf : Freed m m') : Copies m' last pushed := by
  intro p c' hc'
  obtain ⟨c, hc, rfl | hemp⟩ := hf.slots p c' hc'
  · exact h p c' hc
  · rcases h p c hc with ⟨hl, hz⟩ | ⟨k, f, hl, hcopy⟩
    · exact Or.inl ⟨hl, hemp.bufferLen.elim (fun he => he.trans hz) id⟩
    · refine Or.inr ⟨k, f, hl, hcopy.pushed, hcopy.pos, by rw [hemp.buffer]; exact hcopy.bytes, ?_⟩
      rcases hemp.bufferLen with he | he
      · rw [he]
        exact hcopy.bufferLen
      · exact Or.inr he

/-! ## Pushes -/

theorem push_eq (s : Sys) (f : Frame) : (s.push f).manager = (s.manager.writeData f).1 ∧
    (s.push f).pushed = s.pushed ++ [f] ∧ (s.push f).reader = s.reader := by
  unfold Sys.push
  split
  · split <;> exact ⟨rfl, rfl, rfl⟩
  · exact ⟨rfl, rfl, rfl⟩

/-- What a push copies, and to which container. -/
theorem noting_cases (x : Noted) (f : Frame) :
    (x.noting f = x.last ∧ Freed x.sys.manager (x.sys.manager.writeData f).1) ∨
      ∃ xs c ys, x.sys.manager.write = xs ++ c :: ys ∧ 0 < f.bufferLen ∧ (x.sys.manager.writeData f).1 =
        x.sys.manager.setQueue x.sys.manager.writeQueue (xs ++ (c.writeData f).1.setFreeStat false :: ys) ∧
        (x.noting f = Function.update x.last (x.sys.manager.writeQueue, xs.length) (some x.sys.pushed.length) ∧
            (c.writeData f).1.Holds f ∨
          x.noting f = x.last ∧ (c.writeData f).1 = c) := by
  by_cases hf : f.bufferLen ≤ 0
  · obtain ⟨hm, hst⟩ := writeData_empty (m := x.sys.manager) hf
    refine Or.inl ⟨by rw [noting, hst], ?_⟩
    rw [hm]
    exact .refl _
  rcases writeData_cases (m := x.sys.manager) (f := f) (by omega) with ⟨xs, c, ys, hw, -, -, hst, hm⟩ | ⟨-, hst, hm⟩
  · refine Or.inr ⟨xs, c, ys, hw, by omega, by rw [hm], ?_⟩
    rcases Tracked.writeData_answer c f with ⟨hans, hold⟩ | ⟨-, hans⟩
    · rw [if_pos hans] at hst
      exact Or.inl ⟨by rw [noting, hst], hold⟩
    · rw [hans, if_neg (by simp)] at hst
      exact Or.inr ⟨by rw [noting, hst], by rw [hans]⟩
  · refine Or.inl ⟨by rw [noting, hst], ?_⟩
    rw [hm]
    exact freed_overflow _

/-- A push leaves the array that is read as it is. -/
theorem push_read (h : Two x.sys.manager) (hp : p.1 = x.sys.manager.readQueue) (f : Frame) :
    (x.sys.manager.writeData f).1.slot p = x.sys.manager.slot p ∧ x.noting f p = x.last p := by
  have hne : p.1 ≠ x.sys.manager.writeQueue := by rw [hp]; exact h.ne.symm
  have hother : ∀ q, (x.sys.manager.setQueue x.sys.manager.writeQueue q).slot p = x.sys.manager.slot p := fun q => by
    rw [CacheManager.slot, CacheManager.setQueue_other _ hne, CacheManager.slot]
  constructor
  · unfold CacheManager.writeData
    split
    · rfl
    · split <;> exact hother _
  · cases hst : x.sys.manager.storesAt f with
    | none => rw [noting, hst]
    | some i =>
      rw [noting, hst]
      exact Function.update_of_ne (fun he => hne (by rw [he])) _ _

theorem writeData_queues (m : CacheManager) (f : Frame) :
    (m.writeData f).1.readQueue = m.readQueue ∧ (m.writeData f).1.writeQueue = m.writeQueue := by
  unfold CacheManager.writeData
  split
  · exact ⟨rfl, rfl⟩
  · split <;> exact ⟨rfl, rfl⟩

theorem Copies.push (h : Copies x.sys.manager x.last x.sys.pushed) (f : Frame) :
    Copies (x.sys.manager.writeData f).1 (x.noting f) (x.sys.pushed ++ [f]) := by
  have hmore : Copies x.sys.manager x.last (x.sys.pushed ++ [f]) := fun p c hc =>
    (h p c hc).imp_right fun ⟨k, g, hl, hcopy⟩ => ⟨k, g, hl, hcopy.more [f]⟩
  rcases noting_cases x f with ⟨hn, hfreed⟩ | ⟨xs, c, ys, hw, hpos, hm, hcase⟩
  · rw [hn]
    exact hmore.freed hfreed
  · rw [hm]
    intro p e he
    have hslot := slot_write hw
    rcases slot_put hw he with ⟨rfl, rfl⟩ | ⟨hne, he'⟩
    · rcases hcase with ⟨hn, hlen, -, hdata⟩ | ⟨hn, hsame⟩ <;> rw [hn]
      · refine Or.inr ⟨x.sys.pushed.length, f, Function.update_self .., by simp, hpos, ?_, Or.inl hlen⟩
        have hdata' : (c.writeData f).1.f.buffer.take (c.writeData f).1.f.bufferLen.toNat = f.data := hdata
        rw [hlen] at hdata'
        exact hdata'
      · rw [hsame]
        exact (hmore _ c hslot).imp_right fun ⟨k, g, hl, hcopy⟩ => ⟨k, g, hl, hcopy.flag false⟩
    · have hlast : x.noting f p = x.last p := by
        rcases hcase with ⟨hn, -⟩ | ⟨hn, -⟩ <;> rw [hn]
        exact Function.update_of_ne hne _ _
      rw [hlast]
      exact hmore p e he'

/-! ## The reading thread -/

/-- Not in the hands of a source. -/
def Loose : Reader → Prop
  | .got _ _ _ => False
  | _ => True

theorem Loose.ne {r : Reader} (h : Loose r) (t : Int) (tFrame : FrameRef) (k : Nat) : r ≠ .got t tFrame k := by
  rintro rfl
  exact h

theorem loose_compare (t type : Int) : Loose (Sys.compare t type) := by
  unfold Sys.compare
  split <;> trivial

theorem loose_look {b : Bool} {r : Reader} (h : Loose r) (t type : Int) :
    Loose (if b then r else Sys.compare t type) := by
  cases b
  · exact loose_compare t type
  · exact h

/-- What a step of the reading thread can be: it goes on, swaps the queues, takes a slot, or lets the source copy. -/
theorem readerStep_cases {s s' : Sys} (hs : s.readerStep = some s') :
    (∃ r, Loose r ∧ (s' = { s with reader := r } ∨ s' = { s.setManager s.manager.swapQueue with reader := r })) ∨
      (∃ t i, s' = s.take t i) ∨ ∃ t tFrame k, s.reader = .got t tFrame k ∧ s' = s.deliver t tFrame k := by
  unfold Sys.readerStep at hs
  split at hs
  next => cases hs
  next t i _ =>
    split at hs <;> cases hs
    · exact Or.inl ⟨_, loose_look (r := .find t (i + 1)) trivial t _, Or.inl rfl⟩
    · exact Or.inl ⟨.findSwap t, trivial, Or.inl rfl⟩
  next t _ =>
    cases hs
    exact Or.inl ⟨.findAgain t 0, trivial, Or.inr rfl⟩
  next t i _ =>
    split at hs <;> cases hs
    · exact Or.inl ⟨_, loose_look (r := .findAgain t (i + 1)) trivial t _, Or.inl rfl⟩
    · exact Or.inl ⟨_, loose_compare t 0, Or.inl rfl⟩
  next t i _ =>
    split at hs <;> cases hs
    · split
      · exact Or.inl ⟨.read t (i + 1), trivial, Or.inl rfl⟩
      · exact Or.inr (Or.inl ⟨t, i, rfl⟩)
    · exact Or.inl ⟨.readSwap t, trivial, Or.inl rfl⟩
  next t _ =>
    cases hs
    exact Or.inl ⟨.readAgain t, trivial, Or.inr rfl⟩
  next t _ =>
    split at hs <;> cases hs
    · split
      · exact Or.inl ⟨.idle, trivial, Or.inl rfl⟩
      · exact Or.inr (Or.inl ⟨t, 0, rfl⟩)
    · exact Or.inl ⟨.idle, trivial, Or.inl rfl⟩
  next t tFrame k hr =>
    cases hs
    exact Or.inr (Or.inr ⟨t, tFrame, k, hr, rfl⟩)

/-- A slot of the read queue is read. -/
theorem inv_take (h : Inv x) (t : Int) (i : Nat) : Inv ⟨x.sys.take t i, x.last⟩ := by
  have hman : (x.sys.take t i).manager = (x.sys.manager.takeSlot i ⟨none, 0, 0⟩).1 := rfl
  obtain ⟨hr, hw, -⟩ := takeSlot_queues (m := x.sys.manager) i ⟨none, 0, 0⟩
  have htwo : Two (x.sys.manager.takeSlot i ⟨none, 0, 0⟩).1 := by
    rw [Two, hr, hw]
    exact h.two
  cases hi : x.sys.manager.read[i]? with
  | none =>
    have hsame : x.sys.manager.takeSlot i ⟨none, 0, 0⟩ = (x.sys.manager, ⟨none, 0, 0⟩) := by
      unfold CacheManager.takeSlot
      rw [hi]
    refine ⟨by rw [hman]; exact htwo, ?_, fun t' tFrame k hgot => ?_⟩
    · show Copies (x.sys.take t i).manager x.last x.sys.pushed
      rw [hman, hsame]
      exact h.copies
    · have hidle : (x.sys.take t i).reader = .idle := by
        unfold Sys.take
        rw [hsame]
        rfl
      rw [hidle] at hgot
      cases hgot
  | some c =>
    obtain ⟨xs, ys, hq, rfl⟩ : ∃ xs ys, x.sys.manager.read = xs ++ c :: ys ∧ xs.length = i := by
      obtain ⟨hlt, hc⟩ := List.getElem?_eq_some_iff.1 hi
      exact ⟨x.sys.manager.read.take i, x.sys.manager.read.drop (i + 1),
        by rw [← hc, ← List.drop_eq_getElem_cons hlt, List.take_append_drop], List.length_take_of_le (Nat.le_of_lt hlt)⟩
    have hq' : x.sys.manager.containers x.sys.manager.readQueue = xs ++ c :: ys := hq
    have hslot : x.sys.manager.slot (x.sys.manager.readQueue, xs.length) = some c := by
      rw [CacheManager.slot, hq']
      simp
    have htake := takeSlot_eq hq ⟨none, 0, 0⟩
    have hcopies : Copies (x.sys.take t xs.length).manager x.last x.sys.pushed := by
      rw [hman]
      exact h.copies.freed (freed_takeSlot hq _)
    refine ⟨by rw [hman]; exact htwo, hcopies, fun t' tFrame k hgot => ?_⟩
    unfold Sys.take at hgot
    rw [htake] at hgot
    simp only at hgot
    split at hgot
    · cases hgot
    next hne =>
      cases hgot
      rcases h.copies _ c hslot with ⟨-, hz⟩ | ⟨k, f, hl, hcopy⟩
      · exact absurd hz hne
      · refine ⟨(x.sys.manager.readQueue, xs.length), (c.readData (x.sys.manager.readQueue, xs.length)).1.setFreeStat true,
          k, f, rfl, ?_, ?_, hl, ⟨hcopy.pushed, hcopy.pos, hcopy.bytes, Or.inr rfl⟩, hcopy.bufferLen.resolve_right hne⟩
        · show _ = (x.sys.take t xs.length).manager.readQueue
          rw [hman]
          exact hr.symm
        · show (x.sys.take t xs.length).manager.slot _ = _
          rw [hman, htake, CacheManager.slot, CacheManager.setQueue_same]
          simp

/-- A step of the reader without a frame: the slots keep their bytes. -/
theorem inv_loose (h : Inv x) {s : Sys} (hf : Freed x.sys.manager s.manager) (ht : Two s.manager)
    (hp : s.pushed = x.sys.pushed) (hr : Loose s.reader) : Inv ⟨s, x.last⟩ := by
  refine ⟨ht, ?_, fun t tFrame k hgot => absurd hgot (hr.ne t tFrame k)⟩
  show Copies s.manager x.last s.pushed
  rw [hp]
  exact h.copies.freed hf

theorem two_swapQueue (h : Two m) : Two m.swapQueue := by
  show m.readQueue = !m.writeQueue
  rw [h, Bool.not_not]

/-- **One step** of the two threads. -/
theorem step_inv (x : Noted) (a : Act) (x' : Noted) (h : Inv x) (hs : x.step a = some x') : Inv x' := by
  obtain ⟨s, hstep, rfl⟩ := Option.map_eq_some_iff.1 hs
  cases a with
  | push f =>
    cases hstep
    obtain ⟨hm, hp, hr⟩ := push_eq x.sys f
    obtain ⟨hrq, hwq⟩ := writeData_queues x.sys.manager f
    refine ⟨?_, ?_, fun t tFrame k hgot => ?_⟩
    · show Two (x.sys.push f).manager
      rw [hm, Two, hrq, hwq]
      exact h.two
    · show Copies (x.sys.push f).manager (x.noting f) (x.sys.push f).pushed
      rw [hm, hp]
      exact h.copies.push f
    · obtain ⟨p, c, j, g, hb, hq, hslot, hl, hcopy, hlen⟩ := h.handed t tFrame k (hr.symm.trans hgot)
      obtain ⟨hslot', hl'⟩ := push_read h.two hq f
      show Handed (x.sys.push f).manager (x.noting f) (x.sys.push f).pushed tFrame
      rw [hm, hp]
      exact ⟨p, c, j, g, hb, hq.trans hrq.symm, hslot'.trans hslot, hl'.trans hl, hcopy.more [f], hlen⟩
  | begin t =>
    simp only [Sys.step] at hstep
    split at hstep
    · split at hstep
      · cases hstep
        exact h
      · cases hstep
        exact inv_loose h (freed_firstCall _) (two_firstCall h.two) rfl trivial
    · cases hstep
  | next =>
    rcases readerStep_cases hstep with ⟨r, hr, rfl | rfl⟩ | ⟨t, i, rfl⟩ | ⟨t, tFrame, k, -, rfl⟩
    · exact inv_loose h (.refl _) h.two rfl hr
    · exact inv_loose h (freed_swapQueue _) (two_swapQueue h.two) rfl hr
    · exact inv_take h t i
    · exact inv_loose h (.refl _) h.two rfl trivial

/-! ## What a source copies -/

/-- The source has been handed the container `c` of the slot `p`, and the reading thread has not called again. -/
structure Holding (p : Ref) (c : FrameContainer) (t : Int) (tFrame : FrameRef) (k : Nat) (x : Noted) : Prop where
  two : Two x.sys.manager
  reader : x.sys.reader = .got t tFrame k ∨ x.sys.reader = .idle
  read : p.1 = x.sys.manager.readQueue
  slot : x.sys.manager.slot p = some c

/-- Neither a push nor the copy of the source touches the container. -/
theorem Holding.step {x x' : Noted} (h : Holding p c t tFrame k x) (ha : ∀ t', a ≠ .begin t') (hs : x.step a = some x') :
    Holding p c t tFrame k x' := by
  obtain ⟨s, hstep, rfl⟩ := Option.map_eq_some_iff.1 hs
  cases a with
  | push f =>
    cases hstep
    obtain ⟨hm, -, hr⟩ := push_eq x.sys f
    obtain ⟨hrq, hwq⟩ := writeData_queues x.sys.manager f
    refine ⟨?_, h.reader.imp hr.trans hr.trans, ?_, ?_⟩
    · show Two (x.sys.push f).manager
      rw [hm, Two, hrq, hwq]
      exact h.two
    · show p.1 = (x.sys.push f).manager.readQueue
      rw [hm, hrq]
      exact h.read
    · show (x.sys.push f).manager.slot p = some c
      rw [hm]
      exact (push_read h.two h.read f).1.trans h.slot
  | begin t' => exact absurd rfl (ha t')
  | next =>
    obtain hgot | hidle := h.reader
    · have hdeliver : s = x.sys.deliver t tFrame k := by
        rw [Sys.step, Sys.readerStep, hgot] at hstep
        exact (Option.some.inj hstep).symm
      subst hdeliver
      exact ⟨h.two, Or.inr rfl, h.read, h.slot⟩
    · rw [Sys.step, Sys.readerStep, hidle] at hstep
      cases hstep

/-- The copy from a container that has the bytes of a frame. -/
theorem copy_eq (hb : tFrame.buffer = some p) (hslot : m.slot p = some c) (hlen : tFrame.bufferLen = f.bufferLen)
    (hpos : 0 < f.bufferLen) (hbytes : c.f.buffer.take f.bufferLen.toNat = f.data) (fMaxSize : Nat) :
    doReadFromCacheBuffer m 1 tFrame fMaxSize = if f.bufferLen > 2 * 1024 * 1024 then none
      else some (f.data.take fMaxSize, min f.bufferLen.toNat fMaxSize) := by
  unfold doReadFromCacheBuffer
  simp only [hb, hlen, Option.bind_some, hslot, Option.map_some, Option.getD_some]
  by_cases hbig : f.bufferLen > 2 * 1024 * 1024
  · rw [if_pos (Or.inr (Or.inr hbig)), if_pos hbig]
  · rw [if_neg (by omega), if_neg hbig]
    by_cases hmax : f.bufferLen > fMaxSize
    · rw [if_pos hmax, ← hbytes, List.take_take, Nat.min_eq_left (by omega), Nat.min_eq_right (by omega)]
    · have hdata : f.data.take fMaxSize = f.data := by
        refine List.take_of_length_le ?_
        rw [Frame.data, List.length_take]
        omega
      rw [if_neg hmax, hbytes, hdata, Nat.min_eq_left (by omega)]

/-- **The hand-off**: whatever is pushed until the reading thread calls `findMediaType` or `readData` again, before the copy
of the source and after it, the container that it was handed stays as it is, and the source copies the beginning of the
frame that was copied last to it, up to `fMaxSize` bytes. -/
theorem handoff {frameSize n : Nat} {free : Bool → Nat → Bool} {fState : Int}
    (h : run step (new frameSize n free fState) as = some x) (hr : x.sys.reader = .got t tFrame k) :
    ∃ p j f c, tFrame.buffer = some p ∧ x.last p = some j ∧ x.sys.pushed[j]? = some f ∧ x.sys.manager.slot p = some c ∧
      ∀ bs x', (∀ b ∈ bs, ∀ t', b ≠ .begin t') → run step x bs = some x' → x'.sys.manager.slot p = some c ∧
        ∀ fMaxSize, doReadFromCacheBuffer x'.sys.manager 1 tFrame fMaxSize =
          if f.bufferLen > 2 * 1024 * 1024 then none else some (f.data.take fMaxSize, min f.bufferLen.toNat fMaxSize) := by
  have hinv : Inv x := run_inv step_inv (inv_new frameSize n free fState) h
  obtain ⟨p, c, j, f, hb, hq, hslot, hl, hcopy, hlen⟩ := hinv.handed t tFrame k hr
  refine ⟨p, j, f, c, hb, hl, hcopy.pushed, hslot, fun bs x' hbs hrun => ?_⟩
  have hhold : Holding p c t tFrame k x' := run_inv_along (fun _ _ _ h ha hs => h.step ha hs)
    ⟨hinv.two, Or.inl hr, hq, hslot⟩ (along_of_forall hbs) hrun
  exact ⟨hhold.slot, copy_eq hb hhold.slot hlen hcopy.pos hcopy.bytes⟩

/-- The source is handed the frame; two pushes overflow the other queue, before the copy and after it. -/
theorem handoff_overflow : ∃ x p, x.sys.reader = .got VIDEO_TYPE ⟨some p, 2, VIDEO_TYPE⟩ 0 ∧
    ∃ c, x.sys.manager.slot p = some c ∧ ∀ x', run step x [.push twoBytes, .next, .push twoBytes] = some x' → x'.sys.manager.slot p = some c := by
  have hrun : run step (new 2 1 (fun _ _ => true) DO_NOTHING)
      [.begin VIDEO_TYPE, .push twoBytes, .next, .next, .next, .next, .next] = some _ := rfl
  obtain ⟨p, j, f, c, hb, -, -, hslot, hall⟩ := handoff hrun rfl
  cases hb
  refine ⟨_, _, rfl, c, hslot, fun x' hrun' => (hall _ x' (fun b hb => ?_) hrun').1⟩
  simp only [List.mem_cons, List.not_mem_nil, or_false] at hb
  rcases hb with rfl | rfl | rfl <;> (intro t' he; cases he)

/-- A source with room for one byte copies one byte of a frame of two. -/
theorem cut_by_fMaxSize : ¬ ∀ (frameSize n : Nat) (free : Bool → Nat → Bool) (fState : Int) (as : List Act) (x : Noted)
    (t : Int) (tFrame : FrameRef) (k fMaxSize : Nat), run step (new frameSize n free fState) as = some x →
    x.sys.reader = .got t tFrame k → ∃ (j : Nat) (f : Frame), x.sys.pushed[j]? = some f ∧
      doReadFromCacheBuffer x.sys.manager 1 tFrame fMaxSize = some (f.data, f.bufferLen.toNat) := by
  intro h
  obtain ⟨j, f, hf, hcopy⟩ := h 2 1 (fun _ _ => true) DO_NOTHING
    [.begin VIDEO_TYPE, .push twoBytes, .next, .next, .next, .next, .next] _ VIDEO_TYPE ⟨some (true, 0), 2, VIDEO_TYPE⟩
    0 1 rfl rfl
  have hpushed : j = 0 ∧ f = twoBytes := by
    obtain ⟨hlt, hj⟩ := List.getElem?_eq_some_iff.1 hf
    have hlen : j < 1 := hlt
    obtain rfl : j = 0 := by omega
    exact ⟨rfl, hj.symm⟩
  rw [hpushed.2] at hcopy
  revert hcopy
  decide

end Noted

end ToolLib.Pusher
