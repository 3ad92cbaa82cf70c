import Mathlib.Logic.Function.Basic
import ToolLib.Base.System
import ToolLib.Simple.ObjectQueue

/-!
# The select sets of the engine

`Engine::addEvent` and `Engine::delEvent` (Engine.cpp) keep three descriptor sets and the bound `fMaxNumSockets` that
`select` is called with. The bound is never computed again: it only grows to a new descriptor, and goes down by one when
the job at the top leaves. Since the descriptors of registered jobs differ, it stays above all the others
(`Inv.below`), and the sets hold exactly what the last `addEvent` of each registered job asked for (`select_sets`).
-/

namespace ToolLib.Simple

open ToolLib.Base

abbrev FD_SETSIZE : Nat := 1024

/-- `fd_set`, one bit for each descriptor. -/
abbrev FdSet := BitVec FD_SETSIZE

namespace FdSet

/-- `FD_SET` -/
def set (fd : Int) (s : FdSet) : FdSet := s ||| BitVec.twoPow FD_SETSIZE fd.toNat

/-- `FD_CLR` -/
def clr (fd : Int) (s : FdSet) : FdSet := s &&& ~~~BitVec.twoPow FD_SETSIZE fd.toNat

/-- `FD_ISSET` -/
def isSet (fd : Int) (s : FdSet) : Bool := s.getLsbD fd.toNat

variable {fd fd' : Int} {s : FdSet}

theorem isSet_set (h : 0 ≤ fd) (hlt : fd < FD_SETSIZE) (h' : 0 ≤ fd') :
    isSet fd' (set fd s) = (isSet fd' s || decide (fd' = fd)) := by
  have hw : fd.toNat < FD_SETSIZE := by simp only [FD_SETSIZE] at hlt ⊢; omega
  have he : (fd.toNat = fd'.toNat) ↔ (fd' = fd) := by omega
  simp [isSet, set, BitVec.getLsbD_twoPow, hw, he]

theorem isSet_clr (h : 0 ≤ fd) (h' : 0 ≤ fd') : isSet fd' (clr fd s) = (isSet fd' s && decide (fd' ≠ fd)) := by
  have he : fd'.toNat = fd.toNat ↔ fd' = fd := by omega
  by_cases hlt : fd'.toNat < FD_SETSIZE
  · simp [isSet, clr, hlt, he]
  · have hout : ∀ x : FdSet, isSet fd' x = false := fun x => BitVec.getLsbD_of_ge _ _ (by omega)
    rw [hout, hout, Bool.false_and]

@[simp] theorem isSet_zero : isSet fd (BitVec.ofNat FD_SETSIZE 0) = false := BitVec.getLsbD_zero

end FdSet

/-- The three kinds of readiness. -/
inductive Cond
  | read
  | write
  | exception
  deriving DecidableEq

def SOCKET_READABLE : UInt32 := (1 : UInt32) <<< 1
def SOCKET_WRITABLE : UInt32 := (1 : UInt32) <<< 2
def SOCKET_EXCEPTION : UInt32 := (1 : UInt32) <<< 3

/-- The bit of a condition mask. -/
def Cond.bit : Cond → UInt32
  | .read => SOCKET_READABLE
  | .write => SOCKET_WRITABLE
  | .exception => SOCKET_EXCEPTION

/-- The members of `Engine` that jobs with sockets use. -/
structure Engine (ι : Type*) where
  fReadSet : FdSet
  fWriteSet : FdSet
  fExceptionSet : FdSet
  fMaxNumSockets : Int
  runFlags : Bool
  eventQueue : List ι

namespace Engine

variable {ι : Type*} [DecidableEq ι]

/-- The constructor. -/
def new : Engine ι := ⟨0, 0, 0, 0, false, []⟩

/-- The descriptor set of a condition. -/
def fSet (e : Engine ι) : Cond → FdSet
  | .read => e.fReadSet
  | .write => e.fWriteSet
  | .exception => e.fExceptionSet

/-- `FD_CLR`, then `FD_SET` when the mask has the condition. -/
def watch (conditionSet : UInt32) (sockFd : Int) (c : Cond) (s : FdSet) : FdSet :=
  if conditionSet &&& c.bit ≠ 0 then FdSet.set sockFd (FdSet.clr sockFd s) else FdSet.clr sockFd s

/-- `addEvent`; `fd` reads the descriptor of a job. -/
def addEvent (e : Engine ι) (fd : ι → Int) (theJob : ι) (conditionSet : UInt32) : Engine ι × Int :=
  let sockFd := fd theJob
  if sockFd < 0 then (e, 0)
  else
    ({ e with
        fReadSet := watch conditionSet sockFd .read e.fReadSet
        fWriteSet := watch conditionSet sockFd .write e.fWriteSet
        fExceptionSet := watch conditionSet sockFd .exception e.fExceptionSet
        fMaxNumSockets := if sockFd + 1 ≥ e.fMaxNumSockets then sockFd + 1 else e.fMaxNumSockets
        eventQueue := ObjectQueue.enQueue e.eventQueue theJob }, 1)

/-- The bit is cleared when it is set. -/
def unwatch (sockFd : Int) (s : FdSet) : FdSet := if FdSet.isSet sockFd s then FdSet.clr sockFd s else s

/-- `delEvent`; when it returns 1 the job has been deleted. -/
def delEvent (e : Engine ι) (fd : ι → Int) (theJob : ι) : Engine ι × Int :=
  let sockFd := fd theJob
  if sockFd < 0 then (e, 0)
  else
    ({ e with
        fReadSet := unwatch sockFd e.fReadSet
        fWriteSet := unwatch sockFd e.fWriteSet
        fExceptionSet := unwatch sockFd e.fExceptionSet
        fMaxNumSockets := if sockFd + 1 = e.fMaxNumSockets then e.fMaxNumSockets - 1 else e.fMaxNumSockets
        eventQueue := ObjectQueue.remove e.eventQueue theJob }, 1)

variable {e : Engine ι} {fd : ι → Int} {j : ι} {m : UInt32}

theorem addEvent_neg (h : fd j < 0) : e.addEvent fd j m = (e, 0) := if_pos h

theorem addEvent_fSet (h : 0 ≤ fd j) (c : Cond) : (e.addEvent fd j m).1.fSet c = watch m (fd j) c (e.fSet c) := by
  unfold addEvent
  rw [if_neg (by omega)]
  cases c <;> rfl

theorem addEvent_eventQueue (h : 0 ≤ fd j) :
    (e.addEvent fd j m).1.eventQueue = ObjectQueue.enQueue e.eventQueue j := by
  unfold addEvent
  rw [if_neg (by omega)]

theorem addEvent_fMaxNumSockets (h : 0 ≤ fd j) :
    (e.addEvent fd j m).1.fMaxNumSockets = max (fd j + 1) e.fMaxNumSockets := by
  unfold addEvent
  rw [if_neg (by omega)]
  show (if fd j + 1 ≥ e.fMaxNumSockets then fd j + 1 else e.fMaxNumSockets) = _
  split <;> omega

theorem delEvent_fSet (h : 0 ≤ fd j) (c : Cond) : (e.delEvent fd j).1.fSet c = unwatch (fd j) (e.fSet c) := by
  unfold delEvent
  rw [if_neg (by omega)]
  cases c <;> rfl

theorem delEvent_eventQueue (h : 0 ≤ fd j) : (e.delEvent fd j).1.eventQueue = ObjectQueue.remove e.eventQueue j := by
  unfold delEvent
  rw [if_neg (by omega)]

theorem delEvent_fMaxNumSockets (h : 0 ≤ fd j) : (e.delEvent fd j).1.fMaxNumSockets =
    if fd j + 1 = e.fMaxNumSockets then e.fMaxNumSockets - 1 else e.fMaxNumSockets := by
  unfold delEvent
  rw [if_neg (by omega)]

theorem delEvent_ret (h : 0 ≤ fd j) : (e.delEvent fd j).2 = 1 := by
  unfold delEvent
  rw [if_neg (by omega)]

/-- A bit after `addEvent`: that of the job follows the mask, the others stay. -/
theorem isSet_watch {sockFd n : Int} {c : Cond} {s : FdSet} (h : 0 ≤ sockFd) (hlt : sockFd < FD_SETSIZE) (hn : 0 ≤ n) :
    FdSet.isSet n (watch m sockFd c s) = true ↔
      n = sockFd ∧ m &&& c.bit ≠ 0 ∨ n ≠ sockFd ∧ FdSet.isSet n s = true := by
  unfold watch
  by_cases hm : m &&& c.bit ≠ 0
  · rw [if_pos hm, FdSet.isSet_set h hlt hn, FdSet.isSet_clr h hn]
    by_cases hf : n = sockFd <;> simp [hf, hm]
  · rw [if_neg hm, FdSet.isSet_clr h hn]
    by_cases hf : n = sockFd <;> simp [hf, hm]

/-- A bit after `delEvent`. -/
theorem isSet_unwatch {sockFd n : Int} {s : FdSet} (h : 0 ≤ sockFd) (hn : 0 ≤ n) :
    FdSet.isSet n (unwatch sockFd s) = true ↔ n ≠ sockFd ∧ FdSet.isSet n s = true := by
  unfold unwatch
  split
  · rw [FdSet.isSet_clr h hn]
    by_cases hf : n = sockFd <;> simp [hf]
  · rename_i hs
    constructor
    · intro ht
      exact ⟨fun hf => hs (hf ▸ ht), ht⟩
    · exact fun ht => ht.2

end Engine

/-! ## Runs of calls -/

section Calls

variable {ι : Type*} [DecidableEq ι]

/-- The engine and the descriptors of the jobs; `lastMask` is the mask of the last `addEvent` of each job, which the code
does not keep. -/
structure Sys (ι : Type*) where
  engine : Engine ι
  sockFd : ι → Int
  lastMask : ι → UInt32

/-- What users do: give a job its socket, register a job or register it again, delete it. -/
inductive Call (ι : Type*)
  | setSocket (j : ι) (fd : Int)
  | addEvent (j : ι) (conditionSet : UInt32)
  | delEvent (j : ι)

def Sys.step (s : Sys ι) : Call ι → Option (Sys ι)
  | .setSocket j fd => some { s with sockFd := Function.update s.sockFd j fd }
  | .addEvent j m =>
    some ⟨(s.engine.addEvent s.sockFd j m).1, s.sockFd, Function.update s.lastMask j m⟩
  | .delEvent j => some { s with engine := (s.engine.delEvent s.sockFd j).1 }

/-- A registered job keeps its socket, a job is registered with a descriptor below `FD_SETSIZE` that no other registered
job has, and only registered jobs are deleted. A negative descriptor is what `addEvent` refuses. -/
def Call.Allowed (s : Sys ι) : Call ι → Prop
  | .setSocket j _ => j ∉ s.engine.eventQueue
  | .addEvent j _ =>
    s.sockFd j < FD_SETSIZE ∧ ∀ k ∈ s.engine.eventQueue, k ≠ j → s.sockFd k ≠ s.sockFd j
  | .delEvent j => j ∈ s.engine.eventQueue

instance (s : Sys ι) : ∀ a : Call ι, Decidable (a.Allowed s)
  | .setSocket j _ => inferInstanceAs (Decidable (j ∉ s.engine.eventQueue))
  | .addEvent j _ =>
    inferInstanceAs (Decidable (s.sockFd j < FD_SETSIZE ∧ ∀ k ∈ s.engine.eventQueue, k ≠ j → s.sockFd k ≠ s.sockFd j))
  | .delEvent j => inferInstanceAs (Decidable (j ∈ s.engine.eventQueue))

/-- The registered jobs, the bound and the three sets. -/
structure Inv (s : Sys ι) : Prop where
  nodup : s.engine.eventQueue.Nodup
  nonneg : ∀ j ∈ s.engine.eventQueue, 0 ≤ s.sockFd j
  below : ∀ j ∈ s.engine.eventQueue, s.sockFd j < s.engine.fMaxNumSockets
  inj : ∀ j ∈ s.engine.eventQueue, ∀ k ∈ s.engine.eventQueue, s.sockFd j = s.sockFd k → j = k
  bits : ∀ c n, 0 ≤ n → (FdSet.isSet n (s.engine.fSet c) = true ↔
    ∃ j ∈ s.engine.eventQueue, s.sockFd j = n ∧ s.lastMask j &&& c.bit ≠ 0)

variable {s s' : Sys ι} {j : ι} {m : UInt32}

omit [DecidableEq ι] in
theorem inv_new (fd : ι → Int) (mask : ι → UInt32) : Inv ⟨Engine.new, fd, mask⟩ where
  nodup := List.nodup_nil
  nonneg j hj := by cases hj
  below j hj := by cases hj
  inj j hj := by cases hj
  bits c n _ := by cases c <;> simp [Engine.fSet, Engine.new]

theorem Inv.setSocket (h : Inv s) (hj : j ∉ s.engine.eventQueue) (fd : Int) :
    Inv { s with sockFd := Function.update s.sockFd j fd } := by
  have hsame : ∀ k ∈ s.engine.eventQueue, Function.update s.sockFd j fd k = s.sockFd k := fun k hk =>
    Function.update_of_ne (fun he : k = j => hj (he ▸ hk)) _ _
  refine ⟨h.nodup, fun k hk => ?_, fun k hk => ?_, fun k hk l hl he => ?_, fun c n hn => ?_⟩
  · show 0 ≤ Function.update s.sockFd j fd k
    rw [hsame k hk]; exact h.nonneg k hk
  · show Function.update s.sockFd j fd k < _
    rw [hsame k hk]; exact h.below k hk
  · refine h.inj k hk l hl ?_
    rw [← hsame k hk, ← hsame l hl]; exact he
  · rw [h.bits c n hn]
    refine exists_congr fun k => and_congr_right fun hk => ?_
    show _ ↔ Function.update s.sockFd j fd k = n ∧ _
    rw [hsame k hk]

/-- `addEvent` refuses a negative descriptor. The job is not registered, so its mask does not matter. -/
theorem Inv.addEvent_neg (h : Inv s) (hneg : s.sockFd j < 0) :
    Inv ⟨(s.engine.addEvent s.sockFd j m).1, s.sockFd, Function.update s.lastMask j m⟩ := by
  have hj : ∀ k ∈ s.engine.eventQueue, k ≠ j := by
    rintro k hk rfl
    have := h.nonneg k hk
    omega
  rw [Engine.addEvent_neg hneg]
  refine ⟨h.nodup, h.nonneg, h.below, h.inj, fun c n hn => ?_⟩
  rw [h.bits c n hn]
  refine exists_congr fun k => and_congr_right fun hk => ?_
  show _ ↔ _ ∧ Function.update s.lastMask j m k &&& _ ≠ 0
  rw [Function.update_of_ne (hj k hk)]

theorem Inv.addEvent (h : Inv s) (ha : (Call.addEvent j m).Allowed s) :
    Inv ⟨(s.engine.addEvent s.sockFd j m).1, s.sockFd, Function.update s.lastMask j m⟩ := by
  obtain ⟨hlt, hdist⟩ := ha
  by_cases hneg : s.sockFd j < 0
  · exact h.addEvent_neg hneg
  have h0 : 0 ≤ s.sockFd j := by omega
  have hmem : ∀ k, k ∈ (s.engine.addEvent s.sockFd j m).1.eventQueue ↔ k ∈ s.engine.eventQueue ∨ k = j := by
    intro k
    rw [Engine.addEvent_eventQueue h0]
    exact ObjectQueue.mem_enQueue
  refine ⟨?_, fun k hk => ?_, fun k hk => ?_, fun k hk l hl he => ?_, fun c n hn => ?_⟩
  · rw [Engine.addEvent_eventQueue h0]
    exact ObjectQueue.nodup_enQueue h.nodup
  · rcases (hmem k).1 hk with hk | rfl
    · exact h.nonneg k hk
    · exact h0
  · rw [Engine.addEvent_fMaxNumSockets h0]
    rcases (hmem k).1 hk with hk | rfl
    · have := h.below k hk
      show s.sockFd k < _
      omega
    · show s.sockFd k < _
      omega
  · by_cases hkj : k = j
    · by_cases hlj : l = j
      · rw [hkj, hlj]
      · rcases (hmem l).1 hl with hl | hl
        · exact absurd (hkj ▸ he).symm (hdist l hl hlj)
        · exact absurd hl hlj
    · rcases (hmem k).1 hk with hk | hk
      · by_cases hlj : l = j
        · exact absurd (hlj ▸ he) (hdist k hk hkj)
        · rcases (hmem l).1 hl with hl | hl
          · exact h.inj k hk l hl he
          · exact absurd hl hlj
      · exact absurd hk hkj
  · rw [Engine.addEvent_fSet h0, Engine.isSet_watch h0 hlt hn]
    constructor
    · rintro (⟨rfl, hm⟩ | ⟨hne, hs⟩)
      · exact ⟨j, (hmem j).2 (Or.inr rfl), rfl, by simpa using hm⟩
      · obtain ⟨k, hk, hf, hm⟩ := (h.bits c n hn).1 hs
        have hkj : k ≠ j := fun he => hne (by rw [← hf, he])
        exact ⟨k, (hmem k).2 (Or.inl hk), hf, by simpa [Function.update_of_ne hkj] using hm⟩
    · rintro ⟨k, hk, hf, hm⟩
      by_cases hkj : k = j
      · subst hkj
        exact Or.inl ⟨hf.symm, by simpa using hm⟩
      · rcases (hmem k).1 hk with hk | hk
        · refine Or.inr ⟨fun he => hdist k hk hkj (hf.trans he), (h.bits c n hn).2 ⟨k, hk, hf, ?_⟩⟩
          simpa [Function.update_of_ne hkj] using hm
        · exact absurd hk hkj

/-- The bound goes down by one only when the job at the top leaves, and no other job has that descriptor. -/
theorem Inv.delEvent (h : Inv s) (hj : j ∈ s.engine.eventQueue) :
    Inv { s with engine := (s.engine.delEvent s.sockFd j).1 } := by
  have h0 := h.nonneg j hj
  have hmem : ∀ k, k ∈ (s.engine.delEvent s.sockFd j).1.eventQueue ↔ k ≠ j ∧ k ∈ s.engine.eventQueue := by
    intro k
    rw [Engine.delEvent_eventQueue h0]
    exact ObjectQueue.mem_remove h.nodup
  have hne : ∀ k ∈ s.engine.eventQueue, k ≠ j → s.sockFd k ≠ s.sockFd j := fun k hk hkj he => hkj (h.inj k hk j hj he)
  refine ⟨?_, fun k hk => h.nonneg k ((hmem k).1 hk).2, fun k hk => ?_, fun k hk l hl he => ?_, fun c n hn => ?_⟩
  · rw [Engine.delEvent_eventQueue h0]
    exact ObjectQueue.nodup_remove h.nodup
  · obtain ⟨hkj, hk⟩ := (hmem k).1 hk
    have hb := h.below k hk
    have hd := hne k hk hkj
    rw [Engine.delEvent_fMaxNumSockets h0]
    show s.sockFd k < _
    split <;> omega
  · exact h.inj k ((hmem k).1 hk).2 l ((hmem l).1 hl).2 he
  · rw [Engine.delEvent_fSet h0, Engine.isSet_unwatch h0 hn, h.bits c n hn]
    constructor
    · rintro ⟨hnj, k, hk, hf, hm⟩
      exact ⟨k, (hmem k).2 ⟨fun he => hnj (by rw [← hf, he]), hk⟩, hf, hm⟩
    · rintro ⟨k, hk, hf, hm⟩
      obtain ⟨hkj, hk⟩ := (hmem k).1 hk
      exact ⟨fun he => hne k hk hkj (hf.trans he), k, hk, hf, hm⟩

theorem inv_step {a : Call ι} (h : Inv s) (ha : a.Allowed s) (hs : s.step a = some s') : Inv s' := by
  cases a with
  | setSocket j fd => cases hs; exact h.setSocket ha fd
  | addEvent j m => cases hs; exact h.addEvent ha
  | delEvent j => cases hs; exact h.delEvent ha

/-- **The select sets.** After any allowed calls on a new engine, every descriptor in one of the sets is below
`fMaxNumSockets`, and a descriptor is in the set of a condition exactly when a registered job has it and was last added
with that condition. -/
theorem select_sets {fd : ι → Int} {mask : ι → UInt32} {as : List (Call ι)}
    (ha : Along Sys.step (fun s a => a.Allowed s) ⟨Engine.new, fd, mask⟩ as)
    (hr : run Sys.step ⟨Engine.new, fd, mask⟩ as = some s) :
    (∀ c n, 0 ≤ n → FdSet.isSet n (s.engine.fSet c) = true → n < s.engine.fMaxNumSockets) ∧
      ∀ c n, 0 ≤ n → (FdSet.isSet n (s.engine.fSet c) = true ↔
        ∃ j ∈ s.engine.eventQueue, s.sockFd j = n ∧ s.lastMask j &&& c.bit ≠ 0) := by
  have h : Inv s := run_inv_along (fun _ _ _ => inv_step) (inv_new fd mask) ha hr
  refine ⟨fun c n hn hs => ?_, h.bits⟩
  obtain ⟨j, hj, rfl, -⟩ := (h.bits c n hn).1 hs
  exact h.below j hj

/-- Two jobs, the second at the top of the sets, deleted after the first changed its mask. -/
theorem select_sets_two_jobs :
    ∃ s : Sys Bool, run Sys.step ⟨Engine.new, fun _ => -1, fun _ => 0⟩
        [.setSocket false 3, .addEvent false SOCKET_READABLE, .setSocket true 7, .addEvent true SOCKET_EXCEPTION,
          .addEvent false SOCKET_WRITABLE, .delEvent true] = some s ∧
      (FdSet.isSet 3 s.engine.fReadSet = false ∧ FdSet.isSet 3 s.engine.fWriteSet = true) ∧
      3 < s.engine.fMaxNumSockets := by
  have hr : run Sys.step (⟨Engine.new, fun _ => -1, fun _ => 0⟩ : Sys Bool)
      [.setSocket false 3, .addEvent false SOCKET_READABLE, .setSocket true 7, .addEvent true SOCKET_EXCEPTION,
        .addEvent false SOCKET_WRITABLE, .delEvent true] = some _ := rfl
  exact ⟨_, hr, by decide +kernel, (select_sets (by decide +kernel) hr).1 .write 3 (by decide) (by decide +kernel)⟩

end Calls

end ToolLib.Simple
