import ToolLib.Pusher.ReadData

/-!
# Frames that the cache should refuse

A frame without bytes, or over the limit of the containers. `CacheManager::writeData` refuses the first kind itself; for the
second it goes to a free slot like any other frame, or throws the full queue away (`writeData_over`), and a slot in use that
stores nothing is what a later read finds. `wellRefused_iff` is the exact condition for a whole run.
-/

namespace ToolLib.Pusher

open ToolLib.Base

namespace Tracked

variable {n cap : Nat} {s s' : Tracked} {m : CacheManager} {a : Call} {calls : List Call} {f : Frame} {tFrame : FrameRef}

/-- `*tFrame` is a frame that is stored. -/
def TakesStored (s : Tracked) (r : CacheManager × FrameRef × Int) : Prop :=
  ∃ p k f, s.live p = some k ∧ s.pushed[k]? = some f ∧ r.2.1 = ⟨some p, f.bufferLen, f.type⟩ ∧ r.1.bytes r.2.1 = f.data

/-- **What a call should do**: a frame without bytes or over the limit is refused, with nothing changed; and a read fills
`*tFrame` with a frame that is stored, or not at all. -/
def WellRefused (cap : Nat) (s : Tracked) : Call → Prop
  | .write f => f.bufferLen ≤ 0 ∨ (cap : Int) < f.bufferLen → s.manager.writeData f = (s.manager, 0)
  | .read tFrame => (s.manager.readData tFrame).2.1 = tFrame ∨ TakesStored s (s.manager.readData tFrame)
  | .findType => True

/-- The frames that are not over the limit; in queues without slots there is nothing to disturb. -/
def Fits (cap n : Nat) : Call → Prop
  | .write f => f.bufferLen ≤ cap ∨ n = 0
  | _ => True

/-- Every slot in use stores a frame, once a reader has called. -/
structure Sound (n cap : Nat) (s : Tracked) : Prop where
  inv : Inv n cap s
  used : s.manager.firstRead = false → ∀ p c, s.manager.slot p = some c → c.mFree = false → ∃ k, s.live p = some k

/-! ## A frame over the limit -/

theorem slot_none (h : Stored 0 cap s) (p : Ref) : s.manager.slot p = none := by
  rw [CacheManager.slot, List.getElem?_eq_none_iff, h.length]
  exact Nat.zero_le _

theorem write_nil (h : Stored 0 cap s) : s.manager.write = [] := List.length_eq_zero_iff.1 (h.length _)

/-- Without slots a frame is refused. -/
theorem writeData_nil (h : Stored 0 cap s) (f : Frame) : s.manager.writeData f = (s.manager, 0) := by
  have hw := write_nil h
  unfold CacheManager.writeData
  split
  · rfl
  · rw [hw]
    simp only [List.findIdx?_nil, List.map_nil]
    have hsame : s.manager.setQueue s.manager.writeQueue [] = s.manager := by
      rw [CacheManager.setQueue, Function.update_eq_self_iff.2 hw.symm]
    rw [hsame]

/-- With slots a frame over the limit is not refused. -/
theorem writeData_over (h : Stored n cap s) (hn : n ≠ 0) (hf : 0 < f.bufferLen) : s.manager.writeData f ≠ (s.manager, 0) := by
  intro heq
  rcases writeData_cases (m := s.manager) hf with ⟨xs, c, ys, -, -, -, -, hm⟩ | ⟨hused, -, hm⟩ <;> rw [hm] at heq
  · exact absurd (congrArg Prod.snd heq) (Int.zero_ne_one).symm
  · have hlen := h.length s.manager.writeQueue
    have hwrite := congrArg (fun r => CacheManager.write r.1) heq
    simp only [CacheManager.write, CacheManager.setQueue_writeQueue, CacheManager.setQueue_same] at hwrite
    cases hw : s.manager.containers s.manager.writeQueue with
    | nil =>
      rw [hw] at hlen
      exact hn hlen.symm
    | cons c ys =>
      rw [hw, List.map_cons] at hwrite
      have hfree := congrArg FrameContainer.mFree (List.cons.inj hwrite).1
      rw [hused c (by rw [CacheManager.write, hw]; exact List.mem_cons_self)] at hfree
      cases hfree

/-- A call of the cache refuses what it should exactly when the frame fits. -/
theorem wellRefused_step (h : Sound n cap s) : WellRefused cap s a ↔ Fits cap n a := by
  cases a with
  | findType => exact Iff.rfl
  | write f =>
    constructor
    · intro hwell
      by_contra hno
      obtain ⟨hcap, hn⟩ := not_or.1 hno
      exact writeData_over h.inv.stored hn (by omega) (hwell (Or.inr (by omega)))
    · rintro (hfit | rfl) hbad
      · exact (writeData_empty (by omega)).1
      · exact writeData_nil h.inv.stored f
  | read tFrame =>
    refine ⟨fun _ => trivial, fun _ => ?_⟩
    rcases readData_fills s tFrame with hsame | ⟨hfirst, p, c, hp, hslot, hu, -⟩
    · exact Or.inl hsame
    · obtain ⟨k, hlive⟩ := h.used hfirst p c hslot hu
      obtain ⟨p, k, f, -, hlive, -, hf, hfill, hdata, -⟩ := takes_first h.inv hfirst hp hlive tFrame
      exact Or.inr ⟨p, k, f, hlive, hf, hfill, hdata⟩

/-! ## Runs -/

/-- Slots become free, and the others store what they did. -/
theorem Sound.after (h : Sound n cap s) (hf : Freed s.manager m) (hf' : Freed s.manager.firstCall m)
    (hinv : Inv n cap (s.after m)) : Sound n cap (s.after m) := by
  refine ⟨hinv, fun _ p c' hc' hu => ?_⟩
  cases hfirst : s.manager.firstRead with
  | true =>
    obtain ⟨c, hc, rfl | ⟨hfree, -⟩⟩ := hf'.slots p c' hc'
    · rw [firstCall_free hfirst p.1 c' (List.mem_of_getElem? hc)] at hu
      cases hu
    · rw [hfree] at hu
      cases hu
  | false =>
    obtain ⟨c, hc, rfl | ⟨hfree, -⟩⟩ := hf.slots p c' hc'
    · obtain ⟨k, hk⟩ := h.used hfirst p c' hc hu
      exact ⟨k, keep_eq_some.2 ⟨c', hc', hu, hk⟩⟩
    · rw [hfree] at hu
      cases hu

/-- A frame that fits goes to a slot that stores it. -/
theorem sound_write (h : Sound n cap s) (hfit : Fits cap n (.write f)) (hs : s.step (.write f) = some s') :
    Sound n cap s' := by
  refine ⟨inv_write h.inv hs, fun hfirst p e he hu => ?_⟩
  cases hs
  have hsame : s.storing f = s.live → s.manager.slot p = some e →
      ∃ k, keep (s.manager.writeData f).1 (s.storing f) p = some k := by
    intro hst hslot
    obtain ⟨k, hk⟩ := h.used (writeData_firstRead.symm.trans hfirst) p e hslot hu
    exact ⟨k, keep_eq_some.2 ⟨e, he, hu, by rw [hst]; exact hk⟩⟩
  by_cases hf : f.bufferLen ≤ 0
  · obtain ⟨hm, hst⟩ := writeData_empty (m := s.manager) hf
    refine hsame (storing_none hst) ?_
    rw [hm] at he
    exact he
  have hn : n ≠ 0 := by
    rintro rfl
    rw [writeData_nil h.inv.stored f] at he
    rw [slot_none h.inv.stored p] at he
    cases he
  rcases writeData_cases (m := s.manager) (f := f) (by omega) with ⟨xs, c, ys, hw, -, hc, hst, hm⟩ | ⟨-, hst, hm⟩
  · obtain ⟨hother, ⟨hsome, -⟩ | ⟨-, hlen⟩⟩ := storing_put h.inv.stored hw hc hst
    · rw [hm] at he
      rcases slot_put hw he with ⟨rfl, -⟩ | ⟨hne, hslot⟩
      · exact ⟨_, keep_eq_some.2 ⟨e, by rw [hm]; exact he, hu, hsome⟩⟩
      · obtain ⟨k, hk⟩ := h.used (writeData_firstRead.symm.trans hfirst) p e hslot hu
        exact ⟨k, keep_eq_some.2 ⟨e, by rw [hm]; exact he, hu, by rw [hother p hne]; exact hk⟩⟩
    · have hle : f.bufferLen ≤ cap := hfit.resolve_right hn
      omega
  · rw [hm] at he
    obtain ⟨c, hc, rfl | ⟨hfree, -⟩⟩ := (freed_overflow s.manager).slots p e he
    · exact hsame (storing_none hst) hc
    · rw [hfree] at hu
      cases hu

theorem sound_step (s : Tracked) (a : Call) (s' : Tracked) (h : Sound n cap s) (hfit : Fits cap n a)
    (hs : s.step a = some s') : Sound n cap s' := by
  have hinv := step_inv s a s' h.inv hs
  cases a with
  | write f => exact sound_write h hfit hs
  | read tFrame =>
    cases hs
    have hfreed := freed_readData s.manager.firstCall tFrame
    rw [← readData_firstCall] at hfreed
    exact h.after (freed_readData _ tFrame) hfreed hinv
  | findType =>
    cases hs
    have hfreed := freed_findMediaType s.manager.firstCall
    rw [← findMediaType_firstCall] at hfreed
    exact h.after (freed_findMediaType _) hfreed hinv

/-- **A run refuses what it should, and reads what is stored**, exactly when no frame is over the limit of the containers,
or there are no containers. -/
theorem wellRefused_iff {free : Bool → Nat → Bool} (h : run step (new cap n free) calls = some s) :
    Along step (WellRefused cap) (new cap n free) calls ↔ ∀ a ∈ calls, Fits cap n a :=
  (along_iff_along sound_step (fun _ _ hs => wellRefused_step hs)
    ⟨inv_new cap n free, fun hfirst => by cases hfirst⟩).trans (along_forall_iff h)

/-- Frames that fit, an overflow, and a frame without bytes. -/
theorem wellRefused_iff_overflow : Along step (WellRefused 1) (new 1 1 fun _ _ => true)
    [.findType, .write oneVideo, .write oneVideo, .write ⟨[], 0, VIDEO_TYPE, by decide⟩, .write oneVideo,
      .read ⟨none, 0, 0⟩] := by
  have hrun : run step (new 1 1 fun _ _ => true) [.findType, .write oneVideo, .write oneVideo,
    .write ⟨[], 0, VIDEO_TYPE, by decide⟩, .write oneVideo, .read ⟨none, 0, 0⟩] = some _ := rfl
  refine (wellRefused_iff hrun).2 fun a ha => ?_
  simp only [List.mem_cons, List.not_mem_nil, or_false] at ha
  rcases ha with rfl | rfl | rfl | rfl | rfl | rfl <;> simp [Fits, oneVideo]

/-- Two bytes for a container of one byte: `writeData` returns 1. -/
theorem stored_over_limit : ¬ ∀ (cap n : Nat) (free : Bool → Nat → Bool) (calls : List Call) (s : Tracked),
    run step (new cap n free) calls = some s → Along step (WellRefused cap) (new cap n free) calls := by
  intro h
  have hwell := (h 1 1 (fun _ _ => true) [.write twoBytes] _ rfl).1 (Or.inr (by decide))
  exact absurd (congrArg Prod.snd hwell) (by decide)

end Tracked

end ToolLib.Pusher
