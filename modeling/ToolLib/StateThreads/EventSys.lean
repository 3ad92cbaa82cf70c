import Mathlib.Data.Finset.Filter
import Mathlib.Data.Finset.Lattice.Lemmas
import Mathlib.Data.Int.Order.Basic
import ToolLib.Base.Refs
import ToolLib.Base.Trace

/-!
# Event systems

`st_poll` hands its descriptors to the event system, waits on the io queue, and takes the descriptors back when it is woken
by something else than an event. The idle thread calls `dispatch`, which asks the kernel and wakes the threads with events.
`event.c` has several event systems behind one table of functions (`EventsysOps`); each keeps data of its own about the
descriptors that are waited for.

What all of them are for is said by `Waiting.step`: a list of requests without any further data. A dispatch takes out the
requests with a descriptor for which the kernel reports something that was asked for (`report`). An event system refines it
(`Refines`) when it keeps its data in agreement with the io queue (`Sound`) and gives the same results; then so does every run
(`Refines.run`).
-/

namespace ToolLib.StateThreads

open Base

/-- The flags of `events` and `revents`; `EPOLLIN` is `POLLIN`, and so on. -/
inductive Flag
  | pollin
  | pollpri
  | pollout
  | pollerr
  | pollhup
  | pollnval
  | other (n : Fin 10)
  deriving DecidableEq

/-- A word of flags. -/
abbrev Flags := Finset Flag

/-- The flags that a request may ask for, in the order in which the code looks at them. -/
def ioFlags : List Flag := [.pollin, .pollout, .pollpri]

/-- The flags that `poll` reports whether they were asked for or not. -/
def errorFlags : Flags := {.pollerr, .pollhup, .pollnval}

structure Pollfd where
  fd : Int
  events : Flags
  revents : Flags
  deriving DecidableEq

/-- `_st_pollq_t`. -/
structure Pollq (ν : Type) where
  thread : ν
  pds : List Pollfd
  deriving DecidableEq

/-- What is so for each descriptor when the kernel is asked. -/
abbrev Readiness := Int → Flags

/-- The values of `errno`. -/
inductive IoErrno
  | EINVAL
  | EBUSY
  | EMFILE
  | ENOMEM
  | EBADF
  | EEXIST
  | ENOENT
  | other (n : Nat)
  deriving DecidableEq

/-- `_st_eventsys_t`, for an event system with data of type `δ`. What the kernel and the allocator do is of type `ψ` in
`pollset_add` and `fd_new`, and of type `ρ` in `dispatch`, which gives the io queue that is left and the requests that it has
taken out. The result `none` is a fault: an `ST_ASSERT` that fails or an access outside of an array. -/
structure EventsysOps (ν δ ψ ρ : Type) where
  pollsetAdd : ψ → δ → List Pollfd → Option (δ × Option IoErrno)
  pollsetDel : δ → List Pollfd → Option δ
  dispatch : ρ → δ → List (Pollq ν) → Option (δ × List (Pollq ν) × List (Pollq ν))
  fdNew : ψ → δ → Int → δ × Option IoErrno
  fdClose : δ → Int → Option (Option IoErrno)

/-- An event system with the io queue. -/
structure IoState (ν δ : Type) where
  data : δ
  ioQ : List (Pollq ν)

/-- The calls of an event system. -/
inductive IoCall (ν ψ ρ : Type)
  /-- `st_poll`, up to the switch to another thread -/
  | add (pq : Pollq ν) (answer : ψ)
  /-- the rest of `st_poll`, when the request is still on the io queue -/
  | del (thread : ν)
  | dispatch (answer : ρ)
  | fdNew (fd : Int) (answer : ψ)
  | fdClose (fd : Int)

/-- The result of a call: an error, or the requests that have been taken out. -/
inductive IoResult (ν : Type)
  | ret (e : Option IoErrno)
  | woken (l : List (Pollq ν))
  deriving DecidableEq

variable {ν δ ψ ρ : Type}

/-! ## The loops over descriptors and requests -/

/-- `if (pd->events & POLLIN) … if (pd->events & POLLOUT) … if (pd->events & POLLPRI) …`: what is done for a descriptor and each
flag that is asked for. -/
def forEvents {σ : Type} (f : σ → Flag × Int → σ) (s : σ) (pd : Pollfd) : σ :=
  ioFlags.foldl (fun s b => if b ∈ pd.events then f s (b, pd.fd) else s) s

/-- The flags of a descriptor that it asks for and that satisfy `p`. -/
def revents (p : Flag → Bool) (pd : Pollfd) : Flags := (ioFlags.filter fun b => b ∈ pd.events ∧ p b).toFinset

/-- The loop of `dispatch` over the io queue: `look` is what is stored in `revents` of a descriptor; `take` is done for a
request with events, which is taken out of the queue, and `keep` for the others. -/
def sweep (look : δ → Pollfd → Option Flags) (take keep : δ → List Pollfd → Option δ) :
    List (Pollq ν) → δ → Option (δ × List (Pollq ν) × List (Pollq ν))
  | [], s => some (s, [], [])
  | pq :: q, s => do
    let pds ← pq.pds.mapM fun pd => (look s pd).map fun r => { pd with revents := r }
    if pds.any fun pd => pd.revents ≠ ∅ then do
      let s ← take s pds
      let (s, left, woken) ← sweep look take keep q s
      some (s, left, { pq with pds := pds } :: woken)
    else do
      let s ← keep s pds
      let (s, left, woken) ← sweep look take keep q s
      some (s, { pq with pds := pds } :: left, woken)

/-! ## Runs -/

section Step

variable [DecidableEq ν]

def EventsysOps.step (ops : EventsysOps ν δ ψ ρ) (s : IoState ν δ) : IoCall ν ψ ρ → Option (IoState ν δ × IoResult ν)
  | .add pq answer => do
    let (data, e) ← ops.pollsetAdd answer s.data pq.pds
    some (⟨data, if e = none then s.ioQ ++ [pq] else s.ioQ⟩, .ret e)
  | .del thread => do
    let pq ← s.ioQ.find? (·.thread = thread)
    let data ← ops.pollsetDel s.data pq.pds
    some (⟨data, s.ioQ.eraseP (·.thread = thread)⟩, .ret none)
  | .dispatch answer => do
    let (data, left, woken) ← ops.dispatch answer s.data s.ioQ
    some (⟨data, left⟩, .woken woken)
  | .fdNew fd answer =>
    let (data, e) := ops.fdNew answer s.data fd
    some (⟨data, s.ioQ⟩, .ret e)
  | .fdClose fd => do
    let e ← ops.fdClose s.data fd
    some (s, .ret e)

end Step

/-! ## What an event system is for -/

/-- The request without what has been stored in `revents`. -/
def Pollq.asked (pq : Pollq ν) : Pollq ν := { pq with pds := pq.pds.map fun pd => { pd with revents := ∅ } }

/-- What is reported for a descriptor: what was asked for, and errors. -/
def report (k : Readiness) (pd : Pollfd) : Flags := k pd.fd ∩ (pd.events ∪ errorFlags)

def reported (k : Readiness) (pq : Pollq ν) : Pollq ν :=
  { pq with pds := pq.pds.map fun pd => { pd with revents := report k pd } }

/-- The request has a descriptor with events. -/
def HasEvents (k : Readiness) (pq : Pollq ν) : Prop := ∃ pd ∈ pq.pds, report k pd ≠ ∅

instance (k : Readiness) (pq : Pollq ν) : Decidable (HasEvents k pq) := inferInstanceAs (Decidable (∃ pd ∈ pq.pds, _))

/-- Some request waits for the descriptor. -/
def Watched (q : List (Pollq ν)) (fd : Int) : Prop := ∃ pq ∈ q, ∃ pd ∈ pq.pds, pd.fd = fd

instance (q : List (Pollq ν)) (fd : Int) : Decidable (Watched q fd) :=
  inferInstanceAs (Decidable (∃ pq ∈ q, ∃ pd ∈ pq.pds, pd.fd = fd))

/-- The requests that wait, and nothing else. A call has with it whether it is refused, and a dispatch what the kernel reports;
`checks` says whether a descriptor that is waited for may not be closed. -/
def Waiting.step [DecidableEq ν] (checks : Bool) (q : List (Pollq ν)) :
    IoCall ν (Option IoErrno) Readiness → Option (List (Pollq ν) × IoResult ν)
  | .add pq none => some (q ++ [pq.asked], .ret none)
  | .add _ (some e) => some (q, .ret (some e))
  | .del thread => (q.find? (·.thread = thread)).map fun _ => (q.eraseP (·.thread = thread), .ret none)
  | .dispatch k => some (q.filter fun pq => ¬ HasEvents k pq, .woken ((q.filter fun pq => HasEvents k pq).map (reported k)))
  | .fdNew _ e => some (q, .ret e)
  | .fdClose fd => some (q, .ret (if checks ∧ Watched q fd then some .EBUSY else none))

/-! ## Lemmas about requests -/

section Lemmas

variable {k : Readiness} {pd : Pollfd} {pq : Pollq ν} {q : List (Pollq ν)}

/-- The flags with the descriptor that a descriptor of a request asks for. -/
def keysOf (pd : Pollfd) : List (Flag × Int) := (ioFlags.filter (· ∈ pd.events)).map (·, pd.fd)

/-- What all descriptors of the requests ask for. -/
def keys (q : List (Pollq ν)) : List (Flag × Int) := q.flatMap fun pq => pq.pds.flatMap keysOf

theorem forEvents_eq {σ : Type} (f : σ → Flag × Int → σ) (s : σ) (pd : Pollfd) :
    forEvents f s pd = (keysOf pd).foldl f s := by
  rw [keysOf, List.foldl_map, List.foldl_filter]
  simp only [decide_eq_true_eq]
  rfl

theorem mem_keysOf {b : Flag} {fd : Int} : (b, fd) ∈ keysOf pd ↔ b ∈ ioFlags ∧ b ∈ pd.events ∧ pd.fd = fd := by
  simp only [keysOf, List.mem_map, List.mem_filter, decide_eq_true_eq, Prod.mk.injEq]
  constructor
  · rintro ⟨c, ⟨hio, hc⟩, rfl, hfd⟩
    exact ⟨hio, hc, hfd⟩
  · rintro ⟨hio, hb, hfd⟩
    exact ⟨b, ⟨hio, hb⟩, rfl, hfd⟩

theorem keys_nil : keys ([] : List (Pollq ν)) = [] := rfl

theorem keys_append (q r : List (Pollq ν)) : keys (q ++ r) = keys q ++ keys r := List.flatMap_append

theorem keys_cons (pq : Pollq ν) (q : List (Pollq ν)) : keys (pq :: q) = pq.pds.flatMap keysOf ++ keys q := List.flatMap_cons

theorem flatMap_reported : (reported k pq).pds.flatMap keysOf = pq.pds.flatMap keysOf := by
  rw [reported, List.flatMap_map]
  rfl

/-- The keys of a request that comes last, or between others, can be counted first. -/
theorem keys_concat (pq : Pollq ν) (q : List (Pollq ν)) : (keys (q ++ [pq])).Perm (pq.pds.flatMap keysOf ++ keys q) := by
  rw [keys_append, keys_cons, keys_nil, List.append_nil]
  exact List.perm_append_comm

theorem keys_append_cons (pq : Pollq ν) (l r : List (Pollq ν)) :
    (keys (l ++ pq :: r)).Perm (pq.pds.flatMap keysOf ++ keys (l ++ r)) := by
  rw [keys_append, keys_append, keys_cons]
  exact List.perm_append_comm_assoc ..

/-- A request keeps its keys when what is reported is stored. -/
theorem keys_reported (l r : List (Pollq ν)) : keys (l ++ [reported k pq] ++ r) = keys (l ++ pq :: r) := by
  rw [List.append_assoc, keys_append, List.singleton_append, keys_cons, flatMap_reported, ← keys_cons, ← keys_append]

@[simp] theorem asked_reported : (reported k pq).asked = pq.asked := by
  simp [Pollq.asked, reported, Function.comp_def]

@[simp] theorem reported_asked : reported k pq.asked = reported k pq := by
  simp [Pollq.asked, reported, report, Function.comp_def]

@[simp] theorem hasEvents_asked : HasEvents k pq.asked ↔ HasEvents k pq := by
  simp [Pollq.asked, HasEvents, report]

@[simp] theorem watched_asked {fd : Int} : Watched (q.map Pollq.asked) fd ↔ Watched q fd := by
  simp [Pollq.asked, Watched]

/-- No flag that can be asked for is one of the errors. -/
theorem not_mem_errorFlags {b : Flag} (h : b ∈ ioFlags) : b ∉ errorFlags := by
  revert b h
  decide

/-- Without events nothing is reported. -/
theorem not_hasEvents_empty : ¬ HasEvents (fun _ => ∅) pq := by
  rintro ⟨pd, -, h⟩
  exact h (Finset.empty_inter _)

/-- The requests that a dispatch leaves and takes out are the same with and without what has been stored before. -/
theorem asked_left : ((q.filter fun pq => ¬ HasEvents k pq).map (reported k)).map Pollq.asked =
    (q.map Pollq.asked).filter fun pq => ¬ HasEvents k pq := by
  simp only [List.map_map, List.filter_map, Function.comp_def, asked_reported, hasEvents_asked]

theorem asked_woken : (q.filter fun pq => HasEvents k pq).map (reported k) =
    ((q.map Pollq.asked).filter fun pq => HasEvents k pq).map (reported k) := by
  simp only [List.map_map, List.filter_map, Function.comp_def, reported_asked, hasEvents_asked]

theorem asked_filter : (q.filter fun pq => ¬ HasEvents k pq).map Pollq.asked =
    (q.map Pollq.asked).filter fun pq => ¬ HasEvents k pq := by
  simp only [List.filter_map, Function.comp_def, hasEvents_asked]

/-- A dispatch that leaves all requests. -/
theorem dispatch_none (s : δ) (h : ∀ pq ∈ q, ¬ HasEvents k pq) :
    some (s, q, []) = some (s, q, (q.filter fun pq => HasEvents k pq).map (reported k)) ∧
      q.map Pollq.asked = (q.map Pollq.asked).filter fun pq => ¬ HasEvents k pq := by
  have hwoken : (q.filter fun pq => HasEvents k pq) = [] := by
    rw [List.filter_eq_nil_iff]
    simpa using h
  have hleft : (q.filter fun pq => ¬ HasEvents k pq) = q := by
    rw [List.filter_eq_self]
    simpa using h
  exact ⟨by rw [hwoken, List.map_nil], by rw [← asked_filter, hleft]⟩

/-- A request with an event is woken. -/
theorem filter_cons_woken (hev : HasEvents k pq) :
    ((pq :: q).filter fun pq => ¬ HasEvents k pq) = (q.filter fun pq => ¬ HasEvents k pq) ∧
      ((pq :: q).filter fun pq => HasEvents k pq) = pq :: q.filter fun pq => HasEvents k pq :=
  ⟨List.filter_cons_of_neg (by simpa using hev), List.filter_cons_of_pos (by simpa using hev)⟩

/-- A request without an event stays. -/
theorem filter_cons_left (hev : ¬ HasEvents k pq) :
    ((pq :: q).filter fun pq => ¬ HasEvents k pq) = pq :: (q.filter fun pq => ¬ HasEvents k pq) ∧
      ((pq :: q).filter fun pq => HasEvents k pq) = q.filter fun pq => HasEvents k pq :=
  ⟨List.filter_cons_of_pos (by simpa using hev), List.filter_cons_of_neg (by simpa using hev)⟩

theorem mapM_eq_some {α β : Type} {f : α → Option β} {g : α → β} {l : List α} (h : ∀ x ∈ l, f x = some (g x)) :
    l.mapM f = some (l.map g) := by
  induction l with
  | nil => rfl
  | cons x l ih =>
    obtain ⟨hx, hl⟩ := List.forall_mem_cons.1 h
    rw [List.mapM_cons, hx, ih hl]
    rfl

theorem any_reported : ((reported k pq).pds.any fun pd => pd.revents ≠ ∅) = decide (HasEvents k pq) := by
  rw [Bool.eq_iff_iff, List.any_eq_true, decide_eq_true_eq, reported, HasEvents]
  simp

end Lemmas

/-- **The loop over the io queue**, when what it stores is what the kernel reports, and `Inv` holds of the requests that have been
kept and of those to come. -/
theorem sweep_eq (look : δ → Pollfd → Option Flags) (take keep : δ → List Pollfd → Option δ) (k : Readiness)
    (Inv : δ → List (Pollq ν) → List (Pollq ν) → Prop)
    (hlook : ∀ s kept pq q, Inv s kept (pq :: q) → ∀ pd ∈ pq.pds, look s pd = some (report k pd))
    (htake : ∀ s kept pq q, Inv s kept (pq :: q) → HasEvents k pq →
      ∃ s', take s (reported k pq).pds = some s' ∧ Inv s' kept q)
    (hkeep : ∀ s kept pq q, Inv s kept (pq :: q) → ¬ HasEvents k pq →
      ∃ s', keep s (reported k pq).pds = some s' ∧ Inv s' (kept ++ [reported k pq]) q) {q : List (Pollq ν)} :
    ∀ (s : δ) (kept : List (Pollq ν)), Inv s kept q →
      ∃ s', sweep look take keep q s = some (s', (q.filter fun pq => ¬ HasEvents k pq).map (reported k),
        (q.filter fun pq => HasEvents k pq).map (reported k)) ∧
          Inv s' (kept ++ (q.filter fun pq => ¬ HasEvents k pq).map (reported k)) [] := by
  induction q with
  | nil =>
    intro s kept h
    exact ⟨s, rfl, by simpa using h⟩
  | cons pq q ih =>
    intro s kept h
    have hpds : (pq.pds.mapM fun pd => (look s pd).map fun r => { pd with revents := r }) = some (reported k pq).pds :=
      mapM_eq_some fun pd hpd => by rw [hlook s kept pq q h pd hpd, Option.map_some]
    rw [sweep, hpds, Option.bind_eq_bind, Option.bind_some, any_reported]
    by_cases hev : HasEvents k pq
    · obtain ⟨s₁, hs₁, h₁⟩ := htake s kept pq q h hev
      obtain ⟨s', hs', h'⟩ := ih _ _ h₁
      obtain ⟨hleft, hwoken⟩ := filter_cons_woken (q := q) hev
      refine ⟨s', ?_, ?_⟩
      · rw [if_pos (decide_eq_true hev), hs₁, hleft, hwoken]
        simp only [Option.bind_eq_bind, Option.bind_some, hs']
        rfl
      · rwa [hleft]
    · obtain ⟨s₁, hs₁, h₁⟩ := hkeep s kept pq q h hev
      obtain ⟨s', hs', h'⟩ := ih _ _ h₁
      obtain ⟨hleft, hwoken⟩ := filter_cons_left (q := q) hev
      refine ⟨s', ?_, ?_⟩
      · rw [if_neg (by simpa using hev), hs₁, hleft, hwoken]
        simp only [Option.bind_eq_bind, Option.bind_some, hs']
        rfl
      · rw [hleft, List.map_cons]
        rwa [List.append_assoc] at h'

/-! ## Refinement -/

/-- **An event system does what it is for**: `Sound` says that its data agree with the io queue, `Fine` which calls the callers and
the kernel may make. `refusal` is the error of a `pollset_add`, and `seen` what the kernel reports to a dispatch. -/
structure Refines (ops : EventsysOps ν δ ψ ρ) (checks : Bool) (Sound : δ → List (Pollq ν) → Prop)
    (Fine : IoState ν δ → IoCall ν ψ ρ → Prop) (refusal : ψ → δ → List Pollfd → Option IoErrno)
    (seen : ρ → δ → Readiness) : Prop where
  add : ∀ d q pq answer, Sound d q → Fine ⟨d, q⟩ (.add pq answer) →
    ∃ d', ops.pollsetAdd answer d pq.pds = some (d', refusal answer d pq.pds) ∧
      Sound d' (if refusal answer d pq.pds = none then q ++ [pq] else q)
  del : ∀ d l pq r, Sound d (l ++ pq :: r) → ∃ d', ops.pollsetDel d pq.pds = some d' ∧ Sound d' (l ++ r)
  dispatch : ∀ d q answer, Sound d q → Fine ⟨d, q⟩ (.dispatch answer) →
    ∃ d' left, ops.dispatch answer d q =
        some (d', left, (q.filter fun pq => HasEvents (seen answer d) pq).map (reported (seen answer d))) ∧
      left.map Pollq.asked = (q.map Pollq.asked).filter (fun pq => ¬ HasEvents (seen answer d) pq) ∧ Sound d' left
  fdNew : ∀ d q fd answer, Sound d q → Sound (ops.fdNew answer d fd).1 q
  fdClose : ∀ d q fd, Sound d q → Fine ⟨d, q⟩ (.fdClose fd) →
    ops.fdClose d fd = some (if checks ∧ Watched q fd then some .EBUSY else none)

namespace Refines

variable [DecidableEq ν] {ops : EventsysOps ν δ ψ ρ} {checks : Bool} {Sound : δ → List (Pollq ν) → Prop}
  {Fine : IoState ν δ → IoCall ν ψ ρ → Prop} {refusal : ψ → δ → List Pollfd → Option IoErrno}
  {seen : ρ → δ → Readiness} {s : IoState ν δ}

/-- The call of the plain queue that a call of the event system is. -/
def view (ops : EventsysOps ν δ ψ ρ) (refusal : ψ → δ → List Pollfd → Option IoErrno) (seen : ρ → δ → Readiness)
    (s : IoState ν δ) : IoCall ν ψ ρ → IoCall ν (Option IoErrno) Readiness
  | .add pq answer => .add pq (refusal answer s.data pq.pds)
  | .del thread => .del thread
  | .dispatch answer => .dispatch (seen answer s.data)
  | .fdNew fd answer => .fdNew fd (ops.fdNew answer s.data fd).2
  | .fdClose fd => .fdClose fd

/-- A thread takes its descriptors back while it is on the io queue. -/
def OnQueue (s : IoState ν δ) : IoCall ν ψ ρ → Prop
  | .del thread => ∃ pq ∈ s.ioQ, pq.thread = thread
  | _ => True

instance : ∀ (s : IoState ν δ) (c : IoCall ν ψ ρ), Decidable (OnQueue s c)
  | s, .del thread => inferInstanceAs (Decidable (∃ pq ∈ s.ioQ, pq.thread = thread))
  | _, .add .. | _, .dispatch _ | _, .fdNew .. | _, .fdClose _ => inferInstanceAs (Decidable True)

theorem step (h : Refines ops checks Sound Fine refusal seen) {c : IoCall ν ψ ρ} (hs : Sound s.data s.ioQ) (hf : Fine s c)
    (hq : OnQueue s c) : ∃ s' o, ops.step s c = some (s', o) ∧ Sound s'.data s'.ioQ ∧
      Waiting.step checks (s.ioQ.map Pollq.asked) (view ops refusal seen s c) = some (s'.ioQ.map Pollq.asked, o) := by
  obtain ⟨d, q⟩ := s
  cases c with
  | add pq answer =>
    obtain ⟨d', hadd, hs'⟩ := h.add d q pq answer hs hf
    refine ⟨_, _, by rw [EventsysOps.step, hadd]; rfl, hs', ?_⟩
    rw [view]
    cases hr : refusal answer d pq.pds with
    | none => simp [Waiting.step]
    | some e => simp [Waiting.step]
  | del thread =>
    obtain ⟨pq, hfind⟩ : ∃ pq, q.find? (·.thread = thread) = some pq :=
      Option.isSome_iff_exists.1 (List.find?_isSome.2 (by simpa [OnQueue] using hq))
    obtain ⟨hthread, l, r, rfl, hl⟩ := List.find?_eq_some_iff_append.1 hfind
    obtain ⟨d', hdel, hs'⟩ := h.del d l pq r hs
    have herase : (l ++ pq :: r).eraseP (·.thread = thread) = l ++ r := by
      rw [List.eraseP_append_right _ (by simpa using hl), List.eraseP_cons_of_pos (by simpa using hthread)]
    refine ⟨⟨d', l ++ r⟩, .ret none, ?_, hs', ?_⟩
    · simp only [EventsysOps.step, hfind, hdel, herase, Option.bind_eq_bind, Option.bind_some]
    · have herase' : ((l ++ pq :: r).map Pollq.asked).eraseP (·.thread = thread) = (l ++ r).map Pollq.asked := by
        rw [List.eraseP_map, ← herase]
        rfl
      have hfind' : ((l ++ pq :: r).map Pollq.asked).find? (·.thread = thread) = some pq.asked := by
        rw [List.find?_map]
        exact congrArg (Option.map Pollq.asked) hfind
      simp only [view, Waiting.step, hfind', herase', Option.map_some]
  | dispatch answer =>
    obtain ⟨d', left, hd, hleft, hs'⟩ := h.dispatch d q answer hs hf
    refine ⟨_, _, by rw [EventsysOps.step, hd]; rfl, hs', ?_⟩
    rw [asked_woken]
    simp only [view, Waiting.step, hleft]
  | fdNew fd answer => exact ⟨_, _, rfl, h.fdNew d q fd answer hs, rfl⟩
  | fdClose fd =>
    refine ⟨_, _, by rw [EventsysOps.step, h.fdClose d q fd hs hf]; rfl, hs, ?_⟩
    simp only [view, Waiting.step, watched_asked]

/-- **Every run of the event system is a run of the plain queue**, with the same results. -/
theorem run (h : Refines ops checks Sound Fine refusal seen) {calls : List (IoCall ν ψ ρ)} (hs : Sound s.data s.ioQ)
    (hc : Along (quiet ops.step) (fun s c => Fine s c ∧ OnQueue s c) s calls) :
    ∃ s' l, Base.run (quiet ops.step) s calls = some s' ∧ Sound s'.data s'.ioQ ∧ outputs ops.step s calls = some l ∧
      outputs (Waiting.step checks) (s.ioQ.map Pollq.asked) (trace (quiet ops.step) (view ops refusal seen) s calls) = some l :=
  outputs_trace (I := fun s => Sound s.data s.ioQ)
    (fun _ _ hs hf => h.step hs hf.1 hf.2) hs hc

end Refines

end ToolLib.StateThreads
