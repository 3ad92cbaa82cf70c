import ToolLib.StateThreads.EventSys

/-!
# The poll event system

`_st_poll_dispatch` gathers the descriptors of all requests in one array for `poll`; `fdcnt` is the number of entries it hands
over. The only data are this number and the size of the array.
-/

namespace ToolLib.StateThreads

open Base

/-- `struct _st_polldata`, without the entries. -/
structure PollSys where
  pollfdsSize : Int
  fdcnt : Int

namespace PollSys

variable {ν : Type}

/-- `_st_poll_init`, with `ST_MIN_POLLFDS_SIZE`. -/
def init : PollSys := ⟨64, 0⟩

/-- What `poll` does: it fails, or it says which flags hold of which descriptor. -/
inductive Answer
  | failed
  | ready (k : Readiness)

/-- `_st_poll_pollset_add`. -/
def pollsetAdd (s : PollSys) (pds : List Pollfd) : PollSys × Option IoErrno :=
  if pds.any fun pd => pd.fd < 0 ∨ pd.events = ∅ then (s, some .EINVAL) else ({ s with fdcnt := s.fdcnt + pds.length }, none)

/-- `_st_poll_pollset_del`. -/
def pollsetDel (s : PollSys) (pds : List Pollfd) : Option PollSys :=
  if 0 ≤ s.fdcnt - pds.length then some { s with fdcnt := s.fdcnt - pds.length } else none

/-- `poll`, for the array of descriptors. -/
def poll (pollfds : List Pollfd) : Answer → List Pollfd × Bool
  | .failed => (pollfds, false)
  | .ready k =>
    let pollfds := pollfds.map fun pd => { pd with revents := report k pd }
    (pollfds, pollfds.any fun pd => pd.revents ≠ ∅)

/-- The loop over the io queue, with the entries of the array that are left. -/
def dispatchFrom : List Pollfd → List (Pollq ν) → PollSys → Option (PollSys × List (Pollq ν) × List (Pollq ν))
  | _, [], s => some (s, [], [])
  | pollfds, pq :: q, s =>
    let pds := pollfds.take pq.pds.length
    if pds.any fun pd => pd.revents ≠ ∅ then do
      let s ← s.pollsetDel pq.pds
      let (s, left, woken) ← dispatchFrom (pollfds.drop pq.pds.length) q s
      some (s, left, { pq with pds := pds } :: woken)
    else do
      let (s, left, woken) ← dispatchFrom (pollfds.drop pq.pds.length) q s
      some (s, pq :: left, woken)

/-- If the existing array is not big enough, release it and allocate a new one. That `malloc` finds memory, which the source asserts,
is left out, and `fdcnt` has no bound where the source has an `int`. -/
def grow (s : PollSys) : PollSys := if s.pollfdsSize < s.fdcnt then { s with pollfdsSize := s.fdcnt + 10 } else s

/-- `_st_poll_dispatch`. -/
def dispatch (s : PollSys) (answer : Answer) (q : List (Pollq ν)) : Option (PollSys × List (Pollq ν) × List (Pollq ν)) :=
  if s.fdcnt < 0 then none
  else
    let s := s.grow
    -- Gather all descriptors into one array
    let pollfds := q.flatMap Pollq.pds
    -- what `poll` is given has to be there, and the array has to be large enough
    if s.pollfdsSize < (pollfds.length : Int) ∨ (pollfds.length : Int) < s.fdcnt then none
    else
      let (answered, events) := poll (pollfds.take s.fdcnt.toNat) answer
      if events then dispatchFrom (answered ++ pollfds.drop s.fdcnt.toNat) q s else some (s, q, [])

def ops : EventsysOps ν PollSys Unit Answer where
  pollsetAdd _ s pds := some (s.pollsetAdd pds)
  pollsetDel := pollsetDel
  dispatch answer s q := s.dispatch answer q
  fdNew _ s _ := (s, none)
  fdClose _ _ := some none

/-! ## Refinement -/

/-- The number of descriptors is that of the requests. -/
def Sound (s : PollSys) (q : List (Pollq ν)) : Prop := s.fdcnt = (q.flatMap Pollq.pds).length

/-- `pollset_add` takes requests with descriptors and flags only. -/
def refusal (pds : List Pollfd) : Option IoErrno :=
  if ∃ pd ∈ pds, pd.fd < 0 ∨ pd.events = ∅ then some .EINVAL else none

def seen : Answer → Readiness
  | .failed => fun _ => ∅
  | .ready k => k

variable {s : PollSys} {k : Readiness} {q : List (Pollq ν)}

/-- The entries of a request are the first ones of the array, with what the kernel reports. -/
theorem take_reported (pq : Pollq ν) (q : List (Pollq ν)) :
    (((pq :: q).flatMap Pollq.pds).map fun pd => { pd with revents := report k pd }).take pq.pds.length = (reported k pq).pds ∧
      (((pq :: q).flatMap Pollq.pds).map fun pd => { pd with revents := report k pd }).drop pq.pds.length =
        (q.flatMap Pollq.pds).map fun pd => { pd with revents := report k pd } := by
  rw [List.flatMap_cons, List.map_append]
  have hlen : pq.pds.length = (pq.pds.map fun pd => ({ pd with revents := report k pd } : Pollfd)).length :=
    (List.length_map ..).symm
  exact ⟨by rw [hlen, List.take_left]; rfl, by rw [hlen, List.drop_left]⟩

theorem dispatchFrom_eq {n : Nat} (h : s.fdcnt = n + (q.flatMap Pollq.pds).length) :
    ∃ s', dispatchFrom ((q.flatMap Pollq.pds).map fun pd => { pd with revents := report k pd }) q s =
        some (s', q.filter (fun pq => ¬ HasEvents k pq), (q.filter fun pq => HasEvents k pq).map (reported k)) ∧
      s'.fdcnt = n + ((q.filter fun pq => ¬ HasEvents k pq).flatMap Pollq.pds).length := by
  induction q generalizing s n with
  | nil => exact ⟨s, rfl, h⟩
  | cons pq q ih =>
    obtain ⟨htake, hdrop⟩ := take_reported (k := k) pq q
    rw [List.flatMap_cons, List.length_append] at h
    rw [dispatchFrom]
    simp only [htake, hdrop, any_reported]
    by_cases hev : HasEvents k pq
    · have hdel : s.pollsetDel pq.pds = some { s with fdcnt := s.fdcnt - pq.pds.length } := if_pos (by omega)
      obtain ⟨s', hs', hcnt⟩ := ih (s := { s with fdcnt := s.fdcnt - pq.pds.length }) (n := n) (by dsimp only; omega)
      obtain ⟨hleft, hwoken⟩ := filter_cons_woken (q := q) hev
      refine ⟨s', ?_, ?_⟩
      · rw [if_pos (decide_eq_true hev), hdel, hleft, hwoken]
        simp only [Option.bind_eq_bind, Option.bind_some, hs']
        rfl
      · rwa [hleft]
    · obtain ⟨s', hs', hcnt⟩ := ih (s := s) (n := n + pq.pds.length) (by omega)
      obtain ⟨hleft, hwoken⟩ := filter_cons_left (q := q) hev
      refine ⟨s', ?_, ?_⟩
      · rw [if_neg (by simpa using hev), hleft, hwoken]
        simp only [Option.bind_eq_bind, Option.bind_some, hs']
      · rw [hleft, List.flatMap_cons, List.length_append, hcnt]
        omega

theorem grow_fdcnt (s : PollSys) : s.grow.fdcnt = s.fdcnt ∧ s.fdcnt ≤ s.grow.pollfdsSize := by
  rw [grow]
  split
  · exact ⟨rfl, by dsimp only; omega⟩
  · exact ⟨rfl, by omega⟩

theorem dispatch_eq (h : Sound s q) (answer : Answer) :
    ∃ s' left, s.dispatch answer q = some (s', left, (q.filter fun pq => HasEvents (seen answer) pq).map (reported (seen answer))) ∧
      left.map Pollq.asked = (q.map Pollq.asked).filter (fun pq => ¬ HasEvents (seen answer) pq) ∧ Sound s' left := by
  have hcnt : s.fdcnt = (q.flatMap Pollq.pds).length := h
  obtain ⟨hgrow, hsize⟩ := s.grow_fdcnt
  have htake : (q.flatMap Pollq.pds).take s.grow.fdcnt.toNat = q.flatMap Pollq.pds := List.take_of_length_le (by omega)
  have hdrop : (q.flatMap Pollq.pds).drop s.grow.fdcnt.toNat = [] := List.drop_eq_nil_of_le (by omega)
  rw [dispatch, if_neg (by omega)]
  dsimp only
  rw [if_neg (by omega), htake, hdrop, List.append_nil]
  cases answer with
  | failed =>
    obtain ⟨hs', hleft⟩ := dispatch_none (q := q) (k := fun _ => ∅) s.grow fun _ _ => not_hasEvents_empty
    exact ⟨s.grow, q, hs', hleft, hgrow.trans hcnt⟩
  | ready k =>
    dsimp only [poll, seen]
    by_cases hev : (((q.flatMap Pollq.pds).map fun pd => ({ pd with revents := report k pd } : Pollfd)).any
        fun pd => decide (pd.revents ≠ ∅)) = true
    · obtain ⟨s', hs', hcnt'⟩ := dispatchFrom_eq (n := 0) (k := k) (q := q) (s := s.grow) (by omega)
      simp only [hev, if_true]
      exact ⟨s', _, hs', asked_filter, by rw [Sound, hcnt']; omega⟩
    · -- when nothing is reported, all requests are left
      have hnone : ∀ pq ∈ q, ¬ HasEvents k pq := by
        rintro pq hpq ⟨pd, hpd, hev'⟩
        exact hev (List.any_eq_true.2 ⟨_, List.mem_map.2 ⟨pd, List.mem_flatMap.2 ⟨pq, hpq, hpd⟩, rfl⟩, by simpa using hev'⟩)
      obtain ⟨hs', hleft⟩ := dispatch_none s.grow hnone
      simp only [hev, if_false, Bool.false_eq_true]
      exact ⟨s.grow, q, hs', hleft, hgrow.trans hcnt⟩

theorem refines : Refines (ops (ν := ν)) false Sound (fun _ _ => True) (fun _ _ => refusal) (fun answer _ => seen answer) where
  add d q pq _ h _ := by
    have hcnt : d.fdcnt = (q.flatMap Pollq.pds).length := h
    simp only [ops, pollsetAdd, refusal, List.any_eq_true, decide_eq_true_eq]
    split
    · exact ⟨d, rfl, h⟩
    · refine ⟨{ d with fdcnt := d.fdcnt + pq.pds.length }, rfl, ?_⟩
      rw [if_pos rfl, Sound, List.flatMap_append, List.length_append, List.flatMap_singleton]
      dsimp only
      omega
  del d l pq r h := by
    have hcnt : d.fdcnt = ((l ++ pq :: r).flatMap Pollq.pds).length := h
    rw [List.flatMap_append, List.flatMap_cons, List.length_append, List.length_append] at hcnt
    refine ⟨{ d with fdcnt := d.fdcnt - pq.pds.length }, if_pos (by omega), ?_⟩
    rw [Sound, List.flatMap_append, List.length_append]
    dsimp only
    omega
  dispatch d q answer h _ := dispatch_eq h answer
  fdNew d q fd _ h := h
  fdClose d q fd _ _ := rfl

section Runs

variable [DecidableEq ν]

/-- **The poll event system does what it is for**, in every run: no assertion fails, what `poll` is given is what the requests
ask for, and the results are those of the plain queue. -/
theorem poll_refines {calls : List (IoCall ν Unit Answer)} (hc : Along (quiet ops.step) Refines.OnQueue ⟨init, []⟩ calls) :
    ∃ s' l, run (quiet ops.step) ⟨init, []⟩ calls = some s' ∧ s'.data.fdcnt = (s'.ioQ.flatMap Pollq.pds).length ∧
      outputs ops.step ⟨init, []⟩ calls = some l ∧
      outputs (Waiting.step false) []
        (trace (quiet ops.step) (Refines.view ops (fun _ _ => refusal) fun answer _ => seen answer) ⟨init, []⟩ calls) = some l :=
  refines.run (s := ⟨init, []⟩) rfl (hc.mono fun _ _ h => ⟨trivial, h⟩)

end Runs

/-- One thread waits for its descriptor to become readable, and another one for the same descriptor or a second one. -/
theorem poll_refines_two :
    let calls : List (IoCall Nat Unit Answer) :=
      [.add ⟨1, [⟨3, {.pollin}, ∅⟩]⟩ (), .add ⟨2, [⟨3, {.pollout}, ∅⟩, ⟨4, {.pollin}, ∅⟩]⟩ (), .add ⟨3, [⟨4, ∅, ∅⟩]⟩ (),
        .dispatch (.ready fun fd => if fd = 3 then {.pollin} else ∅), .fdClose 4, .dispatch .failed, .del 2]
    ∃ s' l, run (quiet ops.step) ⟨init, []⟩ calls = some s' ∧ s'.data.fdcnt = (s'.ioQ.flatMap Pollq.pds).length ∧
      outputs ops.step ⟨init, []⟩ calls = some l ∧
      outputs (Waiting.step false) []
        (trace (quiet ops.step) (Refines.view ops (fun _ _ => refusal) fun answer _ => seen answer) ⟨init, []⟩ calls) = some l :=
  poll_refines (by decide +kernel)

end PollSys

end ToolLib.StateThreads
