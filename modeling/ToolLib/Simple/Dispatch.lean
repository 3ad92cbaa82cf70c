import ToolLib.Simple.Engine

/-!
# The dispatch loop and the life cycle of a job

`Engine::dispatch` (Engine.cpp), one action for each point at which something outside the loop decides: the result of
`select`, the return of `Processor`, and whatever a timer or a running `Processor` does to the engine meanwhile.

A job is to go exactly when its `Processor` returns 0 (Job.h). The branch for reading tests for that. The branches for
writing and for exceptions test `!(theJob->Processor())==0`, which is true of every result but 0, so there each result
does what the other should (`stays_when_finished`). `life_cycle`: a run keeps the contract exactly when every call was
made for reading; in every run a deleted job is never run again.
-/

namespace ToolLib.Simple

open ToolLib.Base

variable {ι : Type*} [DecidableEq ι]

/-- Where the loop is. `test j c` is in front of the branch for `c` of the job `j`; in `running j c` that branch has
called `Processor`. -/
inductive Pc (ι : Type*)
  | top
  | timers
  | test (j : ι) (c : Cond)
  | running (j : ι) (c : Cond)
  | done
  deriving DecidableEq

/-- A `Processor` that runs does so for reading. -/
def Pc.reads : Pc ι → Bool
  | .running _ c => c == .read
  | _ => true

/-- The loop with its engine. `ready` are the sets as `select` left them and `deleted` the jobs deleted so far; `before`
and `calls` are what was deleted before this round and the results of the calls in it, at which the code does not look. -/
structure Dispatch (ι : Type*) where
  engine : Engine ι
  sockFd : ι → Int
  ready : Cond → FdSet
  pc : Pc ι
  deleted : List ι
  before : List ι
  calls : List (ι × Int)

inductive Act (ι : Type*)
  /-- The test of `runFlags`. -/
  | loop
  /-- What a timer or a `Processor` may do: give a new job its socket, `Signal` a job, call `end`. -/
  | setSocket (j : ι) (fd : Int)
  | signal (j : ι) (conditionSet : UInt32)
  | stop
  | select (selectResult : Int) (ready : Cond → FdSet)
  | branch
  /-- `Processor` returns. -/
  | ret (v : Int)

/-- `!v` in C. -/
def cNot (v : Int) : Int := if v = 0 then 1 else 0

/-- The test each branch makes on the result of `Processor`. -/
def finished : Cond → Int → Bool
  | .read, v => v == 0
  | .write, v => cNot v == 0
  | .exception, v => cNot v == 0

namespace Dispatch

/-- Code of the user is running. -/
def Open (s : Dispatch ι) : Prop := s.pc = .timers ∨ ∃ j c, s.pc = .running j c

instance (s : Dispatch ι) : Decidable s.Open :=
  match h : s.pc with
  | .timers => isTrue (Or.inl h)
  | .running j c => isTrue (Or.inr ⟨j, c, h⟩)
  | .top | .test _ _ | .done => isFalse (by rintro (h' | ⟨j, c, h'⟩) <;> rw [h] at h' <;> cases h')

/-- The two tests in front of a branch. -/
def isReady (s : Dispatch ι) (j : ι) (c : Cond) : Bool :=
  FdSet.isSet (s.sockFd j) (s.ready c) && FdSet.isSet (s.sockFd j) (s.engine.fSet c)

/-- The next branch, or the next job. -/
def advance (s : Dispatch ι) (j : ι) : Cond → Pc ι
  | .read => .test j .write
  | .write => .test j .exception
  | .exception => (ObjectQueue.next s.engine.eventQueue j).elim .top fun k => .test k .read

/-- `delEvent`, with the deletion of the job. -/
def delEvent (s : Dispatch ι) (j : ι) : Dispatch ι :=
  let r := s.engine.delEvent s.sockFd j
  { s with engine := r.1, deleted := if r.2 = 1 then j :: s.deleted else s.deleted }

def step (s : Dispatch ι) : Act ι → Option (Dispatch ι)
  | .loop =>
    match s.pc with
    | .top =>
      some (if s.engine.runFlags then { s with pc := .timers, before := s.deleted, calls := [] } else { s with pc := .done })
    | _ => none
  -- a deleted job is not signalled, and a registered one keeps its socket
  | .setSocket j fd =>
    if s.Open ∧ j ∉ s.engine.eventQueue then some { s with sockFd := Function.update s.sockFd j fd } else none
  | .signal j m =>
    if s.Open ∧ j ∉ s.deleted then some { s with engine := (s.engine.addEvent s.sockFd j m).1 } else none
  | .stop => if s.Open then some { s with engine := { s.engine with runFlags := false } } else none
  | .select selectResult ready =>
    match s.pc with
    | .timers =>
      some { s with
        ready := ready
        pc := if selectResult > 0 then (ObjectQueue.getHead s.engine.eventQueue).elim .top fun j => .test j .read
          else .top }
    | _ => none
  | .branch =>
    match s.pc with
    | .test j c => some { s with pc := if s.isReady j c then .running j c else s.advance j c }
    | _ => none
  | .ret v =>
    match s.pc with
    | .running j c =>
      let s' := { s with calls := s.calls ++ [(j, v)] }
      -- break out of the walk over the queue
      some (if finished c v then { s'.delEvent j with pc := .top } else { s' with pc := s.advance j c })
    | _ => none

/-- The job has been removed from the queue and deleted in this round. -/
def Removed (s : Dispatch ι) (j : ι) : Prop := j ∈ s.deleted ∧ j ∉ s.before ∧ j ∉ s.engine.eventQueue

/-- The contract of Job.h: exactly the jobs with a call that returned 0 are gone. -/
def Contract (s : Dispatch ι) : Prop := ∀ j, s.Removed j ↔ (j, 0) ∈ s.calls

/-- Whatever happens, a job deleted by now is not run. -/
def NeverAgain (s : Dispatch ι) : Prop :=
  ∀ j ∈ s.deleted, ∀ as s' c, run step s as = some s' → s'.pc ≠ .running j c

/-- Before the loop: some registered jobs, none deleted. -/
structure Start (s : Dispatch ι) : Prop where
  pc : s.pc = .top
  nodup : s.engine.eventQueue.Nodup
  nonneg : ∀ j ∈ s.engine.eventQueue, 0 ≤ s.sockFd j
  deleted : s.deleted = []
  before : s.before = []
  calls : s.calls = []

/-- The call that returns was made for reading. -/
def ForRead (s : Dispatch ι) : Act ι → Prop
  | .ret _ => s.pc.reads = true
  | _ => True

instance (s : Dispatch ι) : ∀ a : Act ι, Decidable (s.ForRead a)
  | .ret _ => inferInstanceAs (Decidable (s.pc.reads = true))
  | .loop | .setSocket _ _ | .signal _ _ | .stop | .select _ _ | .branch => isTrue trivial

/-- Deleted jobs are not in the queue, and the job at hand is. -/
structure Inv (s : Dispatch ι) : Prop where
  nodup : s.engine.eventQueue.Nodup
  nonneg : ∀ j ∈ s.engine.eventQueue, 0 ≤ s.sockFd j
  dead : ∀ j ∈ s.deleted, j ∉ s.engine.eventQueue
  before : s.before ⊆ s.deleted
  current : ∀ j c, s.pc = .test j c ∨ s.pc = .running j c → j ∈ s.engine.eventQueue

variable {s s' : Dispatch ι} {j : ι} {c : Cond}

omit [DecidableEq ι] in
theorem inv_start (h : Start s) : Inv s where
  nodup := h.nodup
  nonneg := h.nonneg
  dead j hj := by rw [h.deleted] at hj; cases hj
  before := by rw [h.before]; exact List.nil_subset _
  current j c hpc := by rw [h.pc] at hpc; rcases hpc with hpc | hpc <;> cases hpc

omit [DecidableEq ι] in
/-- A new place in the code, with a current job of the queue. -/
theorem Inv.move (h : Inv s) {pc : Pc ι} (ready : Cond → FdSet) (calls : List (ι × Int))
    (hpc : ∀ j c, pc = .test j c ∨ pc = .running j c → j ∈ s.engine.eventQueue) :
    Inv { s with pc := pc, ready := ready, calls := calls } :=
  ⟨h.nodup, h.nonneg, h.dead, h.before, hpc⟩

theorem advance_mem (hj : j ∈ s.engine.eventQueue) (k : ι) (d : Cond)
    (hk : s.advance j c = .test k d ∨ s.advance j c = .running k d) : k ∈ s.engine.eventQueue := by
  cases c with
  | read => rcases hk with hk | hk <;> cases hk; exact hj
  | write => rcases hk with hk | hk <;> cases hk; exact hj
  | exception =>
    simp only [Dispatch.advance] at hk
    cases hn : ObjectQueue.next s.engine.eventQueue j with
    | none => rw [hn] at hk; rcases hk with hk | hk <;> cases hk
    | some l =>
      rw [hn] at hk
      rcases hk with hk | hk <;> cases hk
      exact ObjectQueue.next_mem hn

theorem Inv.signal (h : Inv s) (hj : j ∉ s.deleted) (m : UInt32) :
    Inv { s with engine := (s.engine.addEvent s.sockFd j m).1 } := by
  by_cases hneg : s.sockFd j < 0
  · rw [Engine.addEvent_neg hneg]; exact h
  · have hq := Engine.addEvent_eventQueue (e := s.engine) (m := m) (show 0 ≤ s.sockFd j by omega)
    refine ⟨?_, fun k hk => ?_, fun k hk hkq => ?_, h.before, fun k c hpc => ?_⟩
    · rw [hq]; exact ObjectQueue.nodup_enQueue h.nodup
    · rw [hq, ObjectQueue.mem_enQueue] at hk
      rcases hk with hk | rfl
      · exact h.nonneg k hk
      · show 0 ≤ s.sockFd k
        omega
    · rw [hq, ObjectQueue.mem_enQueue] at hkq
      rcases hkq with hkq | rfl
      · exact h.dead k hk hkq
      · exact hj hk
    · rw [hq, ObjectQueue.mem_enQueue]
      exact Or.inl (h.current k c hpc)

theorem Inv.setSocket (h : Inv s) (hj : j ∉ s.engine.eventQueue) (fd : Int) :
    Inv { s with sockFd := Function.update s.sockFd j fd } := by
  refine ⟨h.nodup, fun k hk => ?_, h.dead, h.before, h.current⟩
  show 0 ≤ Function.update s.sockFd j fd k
  rw [Function.update_of_ne (fun he : k = j => hj (he ▸ hk))]
  exact h.nonneg k hk

/-- The deletion of a registered job. -/
theorem delEvent_eq (h : Inv s) (hj : j ∈ s.engine.eventQueue) :
    (s.delEvent j).deleted = j :: s.deleted ∧
      (s.delEvent j).engine.eventQueue = ObjectQueue.remove s.engine.eventQueue j := by
  have h0 := h.nonneg j hj
  refine ⟨?_, Engine.delEvent_eventQueue h0⟩
  simp [Dispatch.delEvent, Engine.delEvent_ret h0]

theorem Inv.delEvent (h : Inv s) (hj : j ∈ s.engine.eventQueue) (calls : List (ι × Int)) :
    Inv { (Dispatch.delEvent { s with calls := calls } j) with pc := .top } := by
  obtain ⟨hd, hq⟩ := delEvent_eq h hj
  refine ⟨?_, fun k hk => ?_, fun k hk hkq => ?_, ?_, fun k c hpc => ?_⟩
  · show (s.delEvent j).engine.eventQueue.Nodup
    rw [hq]; exact ObjectQueue.nodup_remove h.nodup
  · change k ∈ (s.delEvent j).engine.eventQueue at hk
    rw [hq, ObjectQueue.mem_remove h.nodup] at hk
    exact h.nonneg k hk.2
  · change k ∈ (s.delEvent j).deleted at hk
    change k ∈ (s.delEvent j).engine.eventQueue at hkq
    rw [hd] at hk
    rw [hq, ObjectQueue.mem_remove h.nodup] at hkq
    rcases List.mem_cons.1 hk with rfl | hk
    · exact hkq.1 rfl
    · exact h.dead k hk hkq.2
  · show s.before ⊆ (s.delEvent j).deleted
    rw [hd]; exact List.subset_cons_of_subset j h.before
  · rcases hpc with hpc | hpc <;> cases hpc

theorem inv_step {a : Act ι} (h : Inv s) (hs : s.step a = some s') : Inv s' := by
  cases a with
  | loop =>
    cases hpc : s.pc <;> simp only [step, hpc] at hs <;> try cases hs
    split
    · exact ⟨h.nodup, h.nonneg, h.dead, List.Subset.refl _, fun k c hk => by rcases hk with hk | hk <;> cases hk⟩
    · exact h.move _ _ fun k c hk => by rcases hk with hk | hk <;> cases hk
  | setSocket j fd =>
    simp only [step] at hs
    split at hs
    · rename_i hc; cases hs; exact h.setSocket hc.2 fd
    · cases hs
  | signal j m =>
    simp only [step] at hs
    split at hs
    · rename_i hc; cases hs; exact h.signal hc.2 m
    · cases hs
  | stop =>
    simp only [step] at hs
    split at hs
    · cases hs; exact ⟨h.nodup, h.nonneg, h.dead, h.before, h.current⟩
    · cases hs
  | select res ready =>
    cases hpc : s.pc <;> simp only [step, hpc] at hs <;> try cases hs
    refine h.move _ _ fun k c hk => ?_
    split at hk
    · cases hq : ObjectQueue.getHead s.engine.eventQueue with
      | none => rw [hq] at hk; rcases hk with hk | hk <;> cases hk
      | some l =>
        rw [hq] at hk
        rcases hk with hk | hk <;> cases hk
        exact List.mem_of_mem_head? hq
    · rcases hk with hk | hk <;> cases hk
  | branch =>
    cases hpc : s.pc <;> simp only [step, hpc] at hs <;> try cases hs
    rename_i j c
    have hj := h.current j c (Or.inl hpc)
    refine h.move _ _ fun k d hk => ?_
    split at hk
    · rcases hk with hk | hk <;> cases hk; exact hj
    · exact advance_mem hj k d hk
  | ret v =>
    cases hpc : s.pc <;> simp only [step, hpc] at hs <;> try cases hs
    rename_i j c
    have hj := h.current j c (Or.inr hpc)
    split
    · exact h.delEvent hj _
    · exact h.move _ _ (advance_mem hj)

/-! ## The contract -/

omit [DecidableEq ι] in
theorem contract_start (h : Start s) : Contract s := by
  intro j
  rw [Removed, h.deleted, h.calls]
  simp

omit [DecidableEq ι] in
/-- A call that did not end the job, with the result the contract asks for. -/
theorem Contract.stay (h : Contract s) {v : Int} (hv : v ≠ 0) (pc : Pc ι) :
    Contract { s with calls := s.calls ++ [(j, v)], pc := pc } := by
  intro k
  rw [show ((k, 0) ∈ s.calls ++ [(j, v)]) ↔ (k, 0) ∈ s.calls by simp [hv.symm]]
  exact h k

/-- A call that ended the job. -/
theorem Contract.leave (h : Contract s) (hi : Inv s) (hj : j ∈ s.engine.eventQueue) :
    Contract { (Dispatch.delEvent { s with calls := s.calls ++ [(j, 0)] } j) with pc := .top } := by
  intro k
  obtain ⟨hd, hq⟩ := delEvent_eq hi hj
  have hremoved : (k ∈ (s.delEvent j).deleted ∧ k ∉ s.before ∧ k ∉ (s.delEvent j).engine.eventQueue) ↔
      k = j ∨ s.Removed k := by
    rw [hd, hq, ObjectQueue.mem_remove hi.nodup, List.mem_cons]
    have hjb : j ∉ s.before := fun hb => hi.dead j (hi.before hb) hj
    constructor
    · rintro ⟨hk | hk, hb, hn⟩
      · exact Or.inl hk
      · exact Or.inr ⟨hk, hb, hi.dead k hk⟩
    · rintro (rfl | ⟨hk, hb, hn⟩)
      · exact ⟨Or.inl rfl, hjb, fun hn => hn.1 rfl⟩
      · exact ⟨Or.inr hk, hb, fun hn' => hn hn'.2⟩
  show (k ∈ (s.delEvent j).deleted ∧ k ∉ s.before ∧ k ∉ (s.delEvent j).engine.eventQueue) ↔
    (k, 0) ∈ s.calls ++ [(j, 0)]
  rw [hremoved, h k]
  simp [or_comm]

/-- What a step does to the record of a round: nothing, a new one, or the return of a call. -/
theorem step_cases {a : Act ι} (hs : s.step a = some s') :
    (s'.deleted = s.deleted ∧ s'.before = s.before ∧ s'.calls = s.calls) ∨
    (s'.deleted = s.deleted ∧ s'.before = s.deleted ∧ s'.calls = []) ∨
    ∃ v j c, a = .ret v ∧ s.pc = .running j c ∧
      s' = if finished c v then { (Dispatch.delEvent { s with calls := s.calls ++ [(j, v)] } j) with pc := .top }
        else { s with calls := s.calls ++ [(j, v)], pc := s.advance j c } := by
  cases a with
  | loop =>
    cases hpc : s.pc <;> simp only [step, hpc] at hs <;> try cases hs
    split
    · exact Or.inr (Or.inl ⟨rfl, rfl, rfl⟩)
    · exact Or.inl ⟨rfl, rfl, rfl⟩
  | setSocket j fd =>
    simp only [step] at hs
    split at hs <;> cases hs
    exact Or.inl ⟨rfl, rfl, rfl⟩
  | signal j m =>
    simp only [step] at hs
    split at hs <;> cases hs
    exact Or.inl ⟨rfl, rfl, rfl⟩
  | stop =>
    simp only [step] at hs
    split at hs <;> cases hs
    exact Or.inl ⟨rfl, rfl, rfl⟩
  | select res ready =>
    cases hpc : s.pc <;> simp only [step, hpc] at hs <;> try cases hs
    exact Or.inl ⟨rfl, rfl, rfl⟩
  | branch =>
    cases hpc : s.pc <;> simp only [step, hpc] at hs <;> try cases hs
    exact Or.inl ⟨rfl, rfl, rfl⟩
  | ret v =>
    cases hpc : s.pc <;> simp only [step, hpc] at hs <;> try cases hs
    exact Or.inr (Or.inr ⟨v, _, _, rfl, rfl, rfl⟩)

theorem contract_step {a : Act ι} (h : Contract s) (hi : Inv s) (ha : s.ForRead a) (hs : s.step a = some s') :
    Contract s' := by
  have hi' := inv_step hi hs
  rcases step_cases hs with ⟨hd, hb, hc⟩ | ⟨hd, hb, hc⟩ | ⟨v, j, c, rfl, hpc, rfl⟩
  · intro k
    rw [Removed, hd, hb, hc, ← h k]
    refine ⟨fun hk => ⟨hk.1, hk.2.1, hi.dead k hk.1⟩, fun hk => ⟨hk.1, hk.2.1, hi'.dead k ?_⟩⟩
    rw [hd]; exact hk.1
  · intro k
    rw [Removed, hd, hb, hc]
    exact ⟨fun hk => absurd hk.1 hk.2.1, fun hk => by cases hk⟩
  · obtain rfl : c = .read := by simpa [ForRead, hpc, Pc.reads] using ha
    by_cases hv : v = 0
    · subst hv
      exact h.leave hi (hi.current j _ (Or.inr hpc))
    · have hf : finished .read v = false := by simpa [finished] using hv
      rw [hf]
      exact h.stay hv _

/-- A call for writing or for an exception breaks the contract, whatever it returns. -/
theorem not_contract {v : Int} (h : Contract s) (hi : Inv s) (hpc : s.pc = .running j c) (hc : c ≠ .read)
    (hs : s.step (.ret v) = some s') : ¬ Contract s' := by
  intro h'
  have hj := hi.current j c (Or.inr hpc)
  have hcalls : (j, 0) ∉ s.calls := fun hm => ((h j).2 hm).2.2 hj
  have hbefore : j ∉ s.before := fun hb => hi.dead j (hi.before hb) hj
  have hfin : finished c v = !(v == 0) := by
    cases c with
    | read => exact absurd rfl hc
    | write | exception => by_cases hv : v = 0 <;> simp [finished, cNot, hv]
  simp only [step, hpc, Option.some.injEq] at hs
  by_cases hv : v = 0
  · rw [hfin, hv] at hs
    subst hs
    have hin : (j, (0 : Int)) ∈ s.calls ++ [(j, 0)] := List.mem_append_right _ List.mem_cons_self
    exact ((h' j).2 hin).2.2 hj
  · rw [hfin, beq_eq_false_iff_ne.2 hv] at hs
    subst hs
    obtain ⟨hd, hq⟩ := delEvent_eq hi hj
    have hgone : j ∉ (s.delEvent j).engine.eventQueue := by
      rw [hq, ObjectQueue.mem_remove hi.nodup]; exact fun hn => hn.1 rfl
    have hdel : j ∈ (s.delEvent j).deleted := by rw [hd]; exact List.mem_cons_self
    rcases List.mem_append.1 ((h' j).1 ⟨hdel, hbefore, hgone⟩) with hm | hm
    · exact hcalls hm
    · exact hv (by simpa using (List.mem_singleton.1 hm).symm)

/-- Deleted jobs stay deleted. -/
theorem deleted_mono {a : Act ι} (hs : s.step a = some s') : s.deleted ⊆ s'.deleted := by
  rcases step_cases hs with ⟨hd, -, -⟩ | ⟨hd, -, -⟩ | ⟨v, j, c, -, -, rfl⟩
  · rw [hd]; exact List.Subset.refl _
  · rw [hd]; exact List.Subset.refl _
  · split
    · simp only [Dispatch.delEvent]
      split
      · exact List.subset_cons_self _ _
      · exact List.Subset.refl _
    · exact List.Subset.refl _

theorem neverAgain (h : Inv s) : NeverAgain s := by
  intro j hj as s' c hr hpc
  have hi : Inv s' := run_inv (fun _ _ _ => inv_step) h hr
  have hmono : s.deleted ⊆ s'.deleted :=
    run_rel (R := fun s t : Dispatch ι => s.deleted ⊆ t.deleted) (fun _ => List.Subset.refl _)
      (fun _ _ _ => List.Subset.trans) (fun _ _ _ => deleted_mono) hr
  exact hi.dead j (hmono hj) (hi.current j c (Or.inr hpc))

/-- **The life cycle of a job.** A run keeps the contract in all its states exactly when every call that returned was
made for reading; and in no run is a deleted job run again. -/
theorem life_cycle {as : List (Act ι)} (h : Start s) (hr : run step s as = some s') :
    (Always step Contract s as ↔ Along step ForRead s as) ∧ Always step NeverAgain s as := by
  constructor
  · refine always_iff_along (I := fun s => Inv s ∧ Contract s) (fun s a s' hi ha hs => ?_) (fun s hi => hi.2)
      (fun s a s' hi hs hp => ?_) ⟨inv_start h, contract_start h⟩ hr
    · exact ⟨inv_step hi.1 hs, contract_step hi.2 hi.1 ha hs⟩
    · cases a with
      | ret v =>
        show s.pc.reads = true
        cases hpc : s.pc with
        | running j c =>
          by_contra hc
          exact not_contract hi.2 hi.1 hpc (by simpa [Pc.reads] using hc) hs hp
        | _ => rfl
      | _ => trivial
  · have hall : Along step (fun _ _ => True) s as := along_of_forall fun _ _ => trivial
    exact always_of_along (fun s a s' hi _ hs => inv_step hi hs) (fun s => neverAgain) (inv_start h) hall

/-- One job with descriptor 4, added with the mask `m`. -/
def oneJob (m : UInt32) : Dispatch Unit :=
  { engine := { (Engine.new.addEvent (fun _ => 4) () m).1 with runFlags := true }
    sockFd := fun _ => 4
    ready := fun _ => 0
    pc := .top
    deleted := []
    before := []
    calls := [] }

/-- `select` reports descriptor 4 for `c`. -/
def onlyReady (c : Cond) : Cond → FdSet := fun d => if d = c then FdSet.set 4 0 else 0

theorem oneJob_start (m : UInt32) : Start (oneJob m) where
  pc := rfl
  nodup := List.nodup_singleton ()
  nonneg _ _ := show (0 : Int) ≤ 4 by decide
  deleted := rfl
  before := rfl
  calls := rfl

/-- A listener that reads, is run again, and finishes in the next round. -/
theorem life_cycle_reader :
    Along step ForRead (oneJob SOCKET_READABLE) [.loop, .select 1 (onlyReady .read), .branch, .ret 5, .branch, .branch,
      .loop, .select 1 (onlyReady .read), .branch, .ret 0] ∧
    Always step Contract (oneJob SOCKET_READABLE) [.loop, .select 1 (onlyReady .read), .branch, .ret 5, .branch, .branch,
      .loop, .select 1 (onlyReady .read), .branch, .ret 0] := by
  have hsome : (run step (oneJob SOCKET_READABLE) [.loop, .select 1 (onlyReady .read), .branch, .ret 5, .branch, .branch,
      .loop, .select 1 (onlyReady .read), .branch, .ret 0]).isSome := by decide +kernel
  have halong : Along step ForRead (oneJob SOCKET_READABLE) [.loop, .select 1 (onlyReady .read), .branch, .ret 5,
      .branch, .branch, .loop, .select 1 (onlyReady .read), .branch, .ret 0] := by decide +kernel
  exact ⟨halong, (life_cycle (oneJob_start _) (Option.some_get hsome).symm).1.2 halong⟩

/-- **The test turned round.** A job run for writing stays when it returns 0, and is deleted when it returns 1. -/
theorem stays_when_finished :
    Start (oneJob SOCKET_WRITABLE) ∧
    (∃ s, run step (oneJob SOCKET_WRITABLE) [.loop, .select 1 (onlyReady .write), .branch, .branch, .ret 0] = some s ∧
      ((), 0) ∈ s.calls ∧ s.deleted = [] ∧ () ∈ s.engine.eventQueue ∧ ¬ s.Contract) ∧
    ∃ s, run step (oneJob SOCKET_WRITABLE) [.loop, .select 1 (onlyReady .write), .branch, .branch, .ret 1] = some s ∧
      s.calls = [((), 1)] ∧ s.deleted = [()] ∧ s.engine.eventQueue = [] ∧ ¬ s.Contract := by
  have h0 : (run step (oneJob SOCKET_WRITABLE) [.loop, .select 1 (onlyReady .write), .branch, .branch, .ret 0]).map
      (fun s => (s.calls, s.deleted, s.engine.eventQueue)) = some ([((), 0)], [], [()]) := by decide +kernel
  have h1 : (run step (oneJob SOCKET_WRITABLE) [.loop, .select 1 (onlyReady .write), .branch, .branch, .ret 1]).map
      (fun s => (s.calls, s.deleted, s.before, s.engine.eventQueue)) = some ([((), 1)], [()], [], []) := by decide +kernel
  obtain ⟨s, hs, he⟩ := Option.map_eq_some_iff.1 h0
  obtain ⟨t, ht, hf⟩ := Option.map_eq_some_iff.1 h1
  simp only [Prod.mk.injEq] at he hf
  refine ⟨oneJob_start _, ⟨s, hs, by simp [he.1], he.2.1, by simp [he.2.2], fun hc => ?_⟩,
    t, ht, hf.1, hf.2.1, hf.2.2.2, fun hc => ?_⟩
  · have hin : ((), (0 : Int)) ∈ s.calls := by simp [he.1]
    have hgone := ((hc ()).2 hin).1
    rw [he.2.1] at hgone
    cases hgone
  · have hgone : t.Removed () := by simp [Removed, hf.2.1, hf.2.2.1, hf.2.2.2]
    have hin := (hc ()).1 hgone
    rw [hf.1] at hin
    simp at hin

end Dispatch

end ToolLib.Simple
