import ToolLib.StateThreads.EventSys

/-!
# The select event system

One `fd_set` for each of the three kinds of events, with the number of requests for each descriptor (`fd_ref_cnts`): together
they are reference counts for the pairs of a flag and a descriptor. `select` is given the sets up to the largest descriptor,
which is found anew in every dispatch that wakes threads. When `select` refuses a descriptor, `_st_select_find_bad_fd` looks for
the requests with descriptors that have been closed.
-/

namespace ToolLib.StateThreads

open Base

/-- `FD_SETSIZE` -/
def fdSetsize : Int := 1024

/-- `struct _st_seldata`: `refs` has `fd_ref_cnts`, and the three sets. -/
structure SelectSys where
  refs : Refs (Flag × Int)
  maxfd : Int

namespace SelectSys

variable {ν : Type}

/-- `_st_select_init` -/
def init : SelectSys := ⟨Refs.empty, -1⟩

/-- What `select` does: it fails; it says which flags hold of which descriptor; or it fails with `EBADF`, and then `fcntl` says
which descriptors are closed. -/
inductive Answer
  | failed
  | ready (k : Readiness)
  | badFd (closed : Int → Bool)

/-- A descriptor that `pollset_add` takes. -/
def Valid (pd : Pollfd) : Prop := 0 ≤ pd.fd ∧ pd.fd < fdSetsize ∧ pd.events ≠ ∅ ∧ pd.events ⊆ ioFlags.toFinset

instance (pd : Pollfd) : Decidable (Valid pd) := inferInstanceAs (Decidable (_ ∧ _ ∧ _ ∧ _))

/-- The sets and counters have room for what is looked at. -/
def Inside (pd : Pollfd) : Prop := ∀ key ∈ keysOf pd, 0 ≤ key.2 ∧ key.2 < fdSetsize

instance (pd : Pollfd) : Decidable (Inside pd) := inferInstanceAs (Decidable (∀ key ∈ keysOf pd, _))

/-- `_st_select_pollset_add` -/
def pollsetAdd (s : SelectSys) (pds : List Pollfd) : SelectSys × Option IoErrno :=
  -- Do checks up front
  if ∃ pd ∈ pds, ¬ Valid pd then (s, some .EINVAL)
  else
    (pds.foldl (fun s pd =>
      ⟨forEvents Refs.take s.refs pd, if s.maxfd < pd.fd then pd.fd else s.maxfd⟩) s, none)

/-- `_st_select_pollset_del`, and the same loop in the two functions below -/
def pollsetDel (s : SelectSys) (pds : List Pollfd) : Option SelectSys :=
  if ∀ pd ∈ pds, Inside pd then some { s with refs := pds.foldl (forEvents Refs.give) s.refs } else none

/-- `pq_max_osfd`, over the descriptors that satisfy `p` -/
def pqMaxOsfd (p : Pollfd → Bool) (pds : List Pollfd) : Int :=
  pds.foldl (fun m pd => if p pd ∧ m < pd.fd then pd.fd else m) (-1)

/-- What is done for a request without events. -/
def keepMax (p : Pollfd → Bool) (s : SelectSys) (pds : List Pollfd) : Option SelectSys :=
  some { s with maxfd := if s.maxfd < pqMaxOsfd p pds then pqMaxOsfd p pds else s.maxfd }

/-- `_st_select_find_bad_fd` -/
def findBadFd (closed : Int → Bool) (s : SelectSys) (q : List (Pollq ν)) :
    Option (SelectSys × List (Pollq ν) × List (Pollq ν)) :=
  sweep (fun _ pd => some (if pd.events ≠ ∅ ∧ closed pd.fd then {.pollnval} else ∅)) pollsetDel
    (keepMax fun pd => pd.events ≠ ∅) q { s with maxfd := -1 }

/-- What `select` leaves in the three sets. -/
def select (s : SelectSys) (k : Readiness) : Finset (Flag × Int) :=
  s.refs.set.filter fun key => key.2 ≤ s.maxfd ∧ key.1 ∈ k key.2

/-- `_st_select_dispatch` -/
def dispatch (s : SelectSys) (answer : Answer) (q : List (Pollq ν)) :
    Option (SelectSys × List (Pollq ν) × List (Pollq ν)) :=
  match answer with
  | .failed => some (s, q, [])
  | .badFd closed => findBadFd closed s q
  | .ready k =>
    let r := s.select k
    if r = ∅ then some (s, q, [])
    else
      sweep (fun _ pd => if Inside pd then some (revents (fun b => (b, pd.fd) ∈ r) pd) else none) pollsetDel
        (keepMax fun _ => true) q { s with maxfd := -1 }

/-- `_st_select_fd_new` -/
def fdNew (fd : Int) : Option IoErrno := if fdSetsize ≤ fd then some .EMFILE else none

/-- `_st_select_fd_close` -/
def fdClose (s : SelectSys) (fd : Int) : Option (Option IoErrno) :=
  if 0 ≤ fd ∧ fd < fdSetsize then some (if ∃ b ∈ ioFlags, s.refs.cnt (b, fd) ≠ 0 then some .EBUSY else none) else none

def ops : EventsysOps ν SelectSys Unit Answer where
  pollsetAdd _ s pds := some (s.pollsetAdd pds)
  pollsetDel := pollsetDel
  dispatch answer s q := s.dispatch answer q
  fdNew _ s fd := (s, fdNew fd)
  fdClose := fdClose

/-! ## Refinement -/

/-- The counters and sets are those of the requests, and the largest descriptor is large enough. -/
structure Sound (s : SelectSys) (q : List (Pollq ν)) : Prop where
  counts : s.refs.Counts (keys q)
  valid : ∀ pq ∈ q, ∀ pd ∈ pq.pds, Valid pd
  le_maxfd : ∀ pq ∈ q, ∀ pd ∈ pq.pds, pd.fd ≤ s.maxfd

def refusal (pds : List Pollfd) : Option IoErrno := if ∃ pd ∈ pds, ¬ Valid pd then some .EINVAL else none

/-- `select` knows no errors of descriptors, except for those that are closed. -/
def seen : Answer → Readiness
  | .failed => fun _ => ∅
  | .ready k => fun fd => k fd ∩ ioFlags.toFinset
  | .badFd closed => fun fd => if closed fd then {.pollnval} else ∅

/-- Only descriptors that `fd_new` takes are closed. -/
def Fine (_ : IoState ν SelectSys) : IoCall ν Unit Answer → Prop
  | .fdClose fd => 0 ≤ fd ∧ fd < fdSetsize
  | _ => True

instance : ∀ (s : IoState ν SelectSys) (c : IoCall ν Unit Answer), Decidable (Fine s c)
  | _, .fdClose fd => inferInstanceAs (Decidable (0 ≤ fd ∧ fd < fdSetsize))
  | _, .add .. | _, .del _ | _, .dispatch _ | _, .fdNew .. => inferInstanceAs (Decidable True)

variable {s : SelectSys} {k : Readiness} {q : List (Pollq ν)} {pds : List Pollfd} {pd : Pollfd}

theorem Valid.inside (h : Valid pd) : Inside pd := by
  rintro ⟨b, fd⟩ hkey
  obtain ⟨-, -, rfl⟩ := mem_keysOf.1 hkey
  exact ⟨h.1, h.2.1⟩

theorem foldl_forEvents {σ : Type} (f : σ → Flag × Int → σ) (s : σ) (pds : List Pollfd) :
    pds.foldl (forEvents f) s = (pds.flatMap keysOf).foldl f s := by
  induction pds generalizing s with
  | nil => rfl
  | cons pd pds ih => rw [List.foldl_cons, ih, forEvents_eq, List.flatMap_cons, List.foldl_append]

/-- The requests of `pollset_add`: all keys are taken, and no descriptor is larger than the largest one. -/
theorem foldl_add (pds : List Pollfd) (s : SelectSys) :
    let s' := pds.foldl (fun s pd => (⟨forEvents Refs.take s.refs pd, if s.maxfd < pd.fd then pd.fd else s.maxfd⟩ : SelectSys)) s
    s'.refs = (pds.flatMap keysOf).foldl Refs.take s.refs ∧ s.maxfd ≤ s'.maxfd ∧ ∀ pd ∈ pds, pd.fd ≤ s'.maxfd := by
  induction pds generalizing s with
  | nil => exact ⟨rfl, le_refl _, by simp⟩
  | cons pd pds ih =>
    obtain ⟨hrefs, hle, hall⟩ := ih ⟨forEvents Refs.take s.refs pd, if s.maxfd < pd.fd then pd.fd else s.maxfd⟩
    have hmax : s.maxfd ≤ (if s.maxfd < pd.fd then pd.fd else s.maxfd) ∧ pd.fd ≤ if s.maxfd < pd.fd then pd.fd else s.maxfd := by
      split <;> omega
    refine ⟨?_, hmax.1.trans hle, ?_⟩
    · rw [List.flatMap_cons, List.foldl_append, ← forEvents_eq]
      exact hrefs
    · rw [List.forall_mem_cons]
      exact ⟨hmax.2.trans hle, hall⟩

theorem le_pqMaxOsfd {p : Pollfd → Bool} (hp : ∀ pd ∈ pds, p pd) : ∀ pd ∈ pds, pd.fd ≤ pqMaxOsfd p pds := by
  have hfold : ∀ (l : List Pollfd) (m : Int), (∀ pd ∈ l, p pd) →
      m ≤ l.foldl (fun m pd => if p pd ∧ m < pd.fd then pd.fd else m) m ∧
        ∀ pd ∈ l, pd.fd ≤ l.foldl (fun m pd => if p pd ∧ m < pd.fd then pd.fd else m) m := by
    intro l
    induction l with
    | nil => exact fun m _ => ⟨le_refl _, by simp⟩
    | cons pd l ih =>
      intro m hp
      obtain ⟨hpd, hl⟩ := List.forall_mem_cons.1 hp
      obtain ⟨hle, hall⟩ := ih (if p pd ∧ m < pd.fd then pd.fd else m) hl
      have hmax : m ≤ (if p pd ∧ m < pd.fd then pd.fd else m) ∧ pd.fd ≤ if p pd ∧ m < pd.fd then pd.fd else m := by
        split
        · omega
        · rw [not_and] at *
          have := ‹p pd = true → ¬ m < pd.fd› hpd
          omega
      exact ⟨hmax.1.trans hle, List.forall_mem_cons.2 ⟨hmax.2.trans hle, hall⟩⟩
  exact (hfold pds (-1) hp).2

theorem pollsetDel_eq (h : ∀ pd ∈ pds, Valid pd) :
    s.pollsetDel pds = some { s with refs := (pds.flatMap keysOf).foldl Refs.give s.refs } := by
  rw [pollsetDel, if_pos fun pd hpd => (h pd hpd).inside, foldl_forEvents]

/-- What is stored in `revents` has nothing to do with validity. -/
theorem valid_reported {pq : Pollq ν} (h : ∀ pd ∈ pq.pds, Valid pd) : ∀ pd ∈ (reported k pq).pds, Valid pd := by
  rw [reported]
  intro pd hpd
  obtain ⟨pd₀, hpd₀, rfl⟩ := List.mem_map.1 hpd
  exact h pd₀ hpd₀

/-- **A dispatch that looks at all requests**, when it finds what is reported. -/
theorem sweep_refines {look : SelectSys → Pollfd → Option Flags} {p : Pollfd → Bool} (h : Sound s q)
    (hlook : ∀ s', ∀ pq ∈ q, ∀ pd ∈ pq.pds, look s' pd = some (report k pd)) (hp : ∀ pd, Valid pd → p pd) :
    ∃ s' left, sweep look pollsetDel (keepMax p) q { s with maxfd := -1 } =
        some (s', left, (q.filter fun pq => HasEvents k pq).map (reported k)) ∧
      left.map Pollq.asked = (q.map Pollq.asked).filter (fun pq => ¬ HasEvents k pq) ∧ Sound s' left := by
  obtain ⟨s', hs', hcounts, hvalid, hmax, -⟩ := sweep_eq look pollsetDel (keepMax p) k
    -- the counters are those of the requests that have been kept and of those to come, the largest descriptor is that of the
    -- former
    (fun s kept rest => s.refs.Counts (keys (kept ++ rest)) ∧ (∀ pq ∈ kept ++ rest, ∀ pd ∈ pq.pds, Valid pd) ∧
      (∀ pq ∈ kept, ∀ pd ∈ pq.pds, pd.fd ≤ s.maxfd) ∧ ∀ s', ∀ pq ∈ rest, ∀ pd ∈ pq.pds, look s' pd = some (report k pd))
    (fun s kept pq q ⟨_, _, _, hlook⟩ pd hpd => hlook s pq List.mem_cons_self pd hpd)
    (by
      rintro s kept pq q ⟨hcounts, hvalid, hmax, hlook⟩ -
      refine ⟨_, pollsetDel_eq (valid_reported fun pd => hvalid pq (by simp) pd), ?_, ?_, hmax, ?_⟩
      · rw [flatMap_reported]
        apply Refs.Counts.foldl_give
        exact hcounts.perm (keys_append_cons pq kept q)
      · intro pq' hpq'
        apply hvalid
        grind
      · exact fun s' pq' hpq' => hlook s' pq' (List.mem_cons_of_mem _ hpq'))
    (by
      rintro s kept pq q ⟨hcounts, hvalid, hmax, hlook⟩ -
      have hpq := valid_reported (k := k) (hvalid pq (by simp))
      refine ⟨_, rfl, ?_, ?_, ?_, ?_⟩
      · rwa [keys_reported]
      · intro pq' hpq'
        rw [List.append_assoc, List.mem_append, List.singleton_append, List.mem_cons] at hpq'
        obtain hpq' | rfl | hpq' := hpq'
        · exact hvalid pq' (List.mem_append_left _ hpq')
        · exact hpq
        · exact hvalid pq' (List.mem_append_right _ (List.mem_cons_of_mem _ hpq'))
      · intro pq' hpq' pd hpd
        have hle : ∀ pd ∈ (reported k pq).pds, pd.fd ≤ pqMaxOsfd p (reported k pq).pds :=
          le_pqMaxOsfd fun pd hpd => hp pd (hpq pd hpd)
        dsimp only
        rw [List.mem_append, List.mem_singleton] at hpq'
        obtain hpq' | rfl := hpq'
        · have := hmax pq' hpq' pd hpd
          split <;> omega
        · have := hle pd hpd
          split <;> omega
      · exact fun s' pq' hpq' => hlook s' pq' (List.mem_cons_of_mem _ hpq'))
    { s with maxfd := -1 } [] ⟨h.counts, h.valid, by simp, hlook⟩
  rw [List.append_nil] at hcounts hvalid
  exact ⟨s', _, hs', asked_left, hcounts, hvalid, hmax⟩

/-- What `select` reports for a request that it has been given. -/
theorem report_select (h : Sound s q) {pq : Pollq ν} (hpq : pq ∈ q) (hpd : pd ∈ pq.pds) :
    revents (fun b => (b, pd.fd) ∈ s.select k) pd = report (fun fd => k fd ∩ ioFlags.toFinset) pd := by
  obtain ⟨-, -, -, hio⟩ := h.valid pq hpq pd hpd
  have hmem : ∀ b, b ∈ ioFlags → b ∈ pd.events → (b, pd.fd) ∈ s.refs.set := fun b hb hev =>
    (h.counts.mem _).2 (List.mem_flatMap.2 ⟨pq, hpq, List.mem_flatMap.2 ⟨pd, hpd, mem_keysOf.2 ⟨hb, hev, rfl⟩⟩⟩)
  ext b
  simp only [revents, report, select, List.mem_toFinset, List.mem_filter, Finset.mem_filter, Finset.mem_inter, Finset.mem_union,
    decide_eq_true_eq]
  constructor
  · rintro ⟨hb, hev, -, -, hk⟩
    exact ⟨⟨hk, hb⟩, Or.inl hev⟩
  · rintro ⟨⟨hk, hb⟩, hev | herr⟩
    · exact ⟨hb, hev, hmem b hb hev, h.le_maxfd pq hpq pd hpd, hk⟩
    · exact absurd herr (not_mem_errorFlags hb)

theorem report_bad (hv : Valid pd) {closed : Int → Bool} :
    (if pd.events ≠ ∅ ∧ closed pd.fd then {.pollnval} else ∅) = report (seen (.badFd closed)) pd := by
  dsimp only [report, seen]
  by_cases hc : closed pd.fd
  · rw [if_pos ⟨hv.2.2.1, hc⟩, if_pos hc, Finset.singleton_inter_of_mem (Finset.mem_union_right _ (by decide))]
  · rw [if_neg (fun h => hc h.2), if_neg hc, Finset.empty_inter]

theorem dispatch_eq (h : Sound s q) (answer : Answer) :
    ∃ s' left, s.dispatch answer q = some (s', left, (q.filter fun pq => HasEvents (seen answer) pq).map (reported (seen answer))) ∧
      left.map Pollq.asked = (q.map Pollq.asked).filter (fun pq => ¬ HasEvents (seen answer) pq) ∧ Sound s' left := by
  cases answer with
  | failed =>
    obtain ⟨hs', hleft⟩ := dispatch_none (q := q) (k := fun _ => ∅) s fun _ _ => not_hasEvents_empty
    exact ⟨s, q, hs', hleft, h⟩
  | badFd closed =>
    exact sweep_refines h (fun _ pq hpq pd hpd => congrArg some (report_bad (h.valid pq hpq pd hpd)))
      fun pd hpd => decide_eq_true hpd.2.2.1
  | ready k =>
    dsimp only [dispatch, seen]
    split
    · rename_i hnone
      have hquiet : ∀ pq ∈ q, ¬ HasEvents (fun fd => k fd ∩ ioFlags.toFinset) pq := by
        rintro pq hpq ⟨pd, hpd, hev⟩
        rw [← report_select h hpq hpd, hnone] at hev
        exact hev (by simp [revents])
      obtain ⟨hs', hleft⟩ := dispatch_none s hquiet
      exact ⟨s, q, hs', hleft, h⟩
    · exact sweep_refines h
        (fun _ pq hpq pd hpd => by rw [if_pos (h.valid pq hpq pd hpd).inside, report_select h hpq hpd]) fun _ _ => rfl

/-- A descriptor has a counter that is not 0 when a request waits for it. -/
theorem watched_iff (h : Sound s q) {fd : Int} : (∃ b ∈ ioFlags, s.refs.cnt (b, fd) ≠ 0) ↔ Watched q fd := by
  simp only [h.counts.tallied.ne_zero, keys, List.mem_flatMap, mem_keysOf]
  constructor
  · rintro ⟨b, -, pq, hpq, pd, hpd, -, -, hfd⟩
    exact ⟨pq, hpq, pd, hpd, hfd⟩
  · rintro ⟨pq, hpq, pd, hpd, hfd⟩
    obtain ⟨-, -, hne, hio⟩ := h.valid pq hpq pd hpd
    obtain ⟨b, hb⟩ := Finset.nonempty_iff_ne_empty.2 hne
    have hb' := List.mem_toFinset.1 (hio hb)
    exact ⟨b, hb', pq, hpq, pd, hpd, hb', hb, hfd⟩

theorem refines : Refines (ops (ν := ν)) true Sound Fine (fun _ _ => refusal) (fun answer _ => seen answer) where
  add s q pq _ h _ := by
    simp only [ops, pollsetAdd, refusal]
    split
    · exact ⟨s, rfl, h⟩
    · rename_i hvalid
      push Not at hvalid
      obtain ⟨hrefs, hle, hall⟩ := foldl_add pq.pds s
      refine ⟨_, rfl, ?_⟩
      rw [if_pos rfl]
      refine ⟨?_, ?_, ?_⟩
      · rw [hrefs]
        exact h.counts.foldl_take.perm (keys_concat pq q).symm
      · intro pq' hpq'
        obtain hpq' | rfl := List.mem_append.1 hpq' |>.imp_right List.mem_singleton.1
        · exact h.valid pq' hpq'
        · exact hvalid
      · intro pq' hpq' pd hpd
        obtain hpq' | rfl := List.mem_append.1 hpq' |>.imp_right List.mem_singleton.1
        · exact (h.le_maxfd pq' hpq' pd hpd).trans hle
        · exact hall pd hpd
  del s l pq r h := by
    refine ⟨_, pollsetDel_eq (h.valid pq (by simp)), ?_, ?_, ?_⟩
    · apply Refs.Counts.foldl_give
      exact h.counts.perm (keys_append_cons pq l r)
    · exact fun pq' hpq' => h.valid pq' (by grind)
    · exact fun pq' hpq' => h.le_maxfd pq' (by grind)
  dispatch s q answer h _ := dispatch_eq h answer
  fdNew s q fd _ h := h
  fdClose s q fd h hf := by
    dsimp only [ops, fdClose]
    rw [if_pos (show 0 ≤ fd ∧ fd < fdSetsize from hf)]
    simp only [watched_iff h, true_and]

theorem sound_init : Sound init ([] : List (Pollq ν)) := ⟨Refs.counts_empty, by simp, by simp⟩

section Runs

variable [DecidableEq ν]

/-- **The select event system does what it is for**, in every run: nothing outside of the sets is looked at, the sets have what the
requests ask for, up to the largest descriptor, and the results are those of the plain queue. -/
theorem select_refines {calls : List (IoCall ν Unit Answer)}
    (hc : Along (quiet ops.step) (fun s c => Fine s c ∧ Refines.OnQueue s c) ⟨init, []⟩ calls) :
    ∃ s' l, run (quiet ops.step) ⟨init, []⟩ calls = some s' ∧
      (∀ key, key ∈ s'.data.refs.set ↔ key ∈ keys s'.ioQ) ∧ (∀ key ∈ keys s'.ioQ, key.2 ≤ s'.data.maxfd) ∧
      outputs ops.step ⟨init, []⟩ calls = some l ∧
      outputs (Waiting.step true) []
        (trace (quiet ops.step) (Refines.view ops (fun _ _ => refusal) fun answer _ => seen answer) ⟨init, []⟩ calls) = some l := by
  obtain ⟨s', l, hrun, hs', hout⟩ := refines.run (s := ⟨init, []⟩) sound_init hc
  refine ⟨s', l, hrun, hs'.counts.mem, ?_, hout⟩
  rintro ⟨b, fd⟩ hkey
  obtain ⟨pq, hpq, hkey⟩ := List.mem_flatMap.1 hkey
  obtain ⟨pd, hpd, hkey⟩ := List.mem_flatMap.1 hkey
  obtain ⟨-, -, rfl⟩ := mem_keysOf.1 hkey
  exact hs'.le_maxfd pq hpq pd hpd

end Runs

/-- Two threads wait for the same descriptor, and a third one for a descriptor that is closed in the meantime. -/
theorem select_refines_three :
    let calls : List (IoCall Nat Unit Answer) :=
      [.add ⟨1, [⟨3, {.pollin}, ∅⟩]⟩ (), .add ⟨2, [⟨3, {.pollin, .pollout}, ∅⟩, ⟨4, {.pollin}, ∅⟩]⟩ (),
        .add ⟨3, [⟨1024, {.pollin}, ∅⟩]⟩ (), .add ⟨3, [⟨7, {.pollpri}, ∅⟩]⟩ (), .fdNew 1024 (),
        .dispatch (.ready fun fd => if fd = 3 then {.pollout} else ∅), .fdClose 3, .fdClose 4,
        .dispatch (.badFd fun fd => fd = 7), .dispatch .failed, .del 1]
    ∃ s' l, run (quiet ops.step) ⟨init, []⟩ calls = some s' ∧
      (∀ key, key ∈ s'.data.refs.set ↔ key ∈ keys s'.ioQ) ∧ (∀ key ∈ keys s'.ioQ, key.2 ≤ s'.data.maxfd) ∧
      outputs ops.step ⟨init, []⟩ calls = some l ∧
      outputs (Waiting.step true) []
        (trace (quiet ops.step) (Refines.view ops (fun _ _ => refusal) fun answer _ => seen answer) ⟨init, []⟩ calls) = some l :=
  select_refines (by decide +kernel)

end SelectSys

end ToolLib.StateThreads
