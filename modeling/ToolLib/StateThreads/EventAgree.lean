import Mathlib.Data.Finset.Sort
import ToolLib.StateThreads.EpollSys
import ToolLib.StateThreads.PollSys
import ToolLib.StateThreads.SelectSys

/-!
# The event systems agree

The three event systems are asked by the same threads about the same descriptors: the requests are those that all of them take
(`Plain`), and the kernel answers each of its calls by what is so (`EventsysOps.asking`). Then every run has the same results
with each of them, those of the plain queue (`systems_agree`). Errors of descriptors are left out, since `select` reports them
as readiness and `epoll` as all events that are asked for.
-/

namespace ToolLib.StateThreads

open Base

variable {ν δ ψ ρ : Type}

/-- An event system whose kernel calls are answered by what is so for each descriptor. -/
def EventsysOps.asking (ops : EventsysOps ν δ ψ ρ) (answer : ψ) (ask : Readiness → δ → ρ) : EventsysOps ν δ Unit Readiness where
  pollsetAdd _ := ops.pollsetAdd answer
  pollsetDel := ops.pollsetDel
  dispatch k d q := ops.dispatch (ask k d) d q
  fdNew _ := ops.fdNew answer
  fdClose := ops.fdClose

/-- The calls of `st_poll` and of the idle thread, when the descriptors have no errors. -/
def Plain (q : List (Pollq ν)) : IoCall ν Unit Readiness → Prop
  | .add pq _ => ∀ pd ∈ pq.pds, SelectSys.Valid pd
  | .del thread => ∃ pq ∈ q, pq.thread = thread
  | .dispatch k => ∀ pq ∈ q, ∀ pd ∈ pq.pds, Disjoint (k pd.fd) errorFlags
  | _ => False

instance [DecidableEq ν] (q : List (Pollq ν)) : ∀ c : IoCall ν Unit Readiness, Decidable (Plain q c)
  | .add pq _ => inferInstanceAs (Decidable (∀ pd ∈ pq.pds, SelectSys.Valid pd))
  | .del thread => inferInstanceAs (Decidable (∃ pq ∈ q, pq.thread = thread))
  | .dispatch k => inferInstanceAs (Decidable (∀ pq ∈ q, ∀ pd ∈ pq.pds, Disjoint (k pd.fd) errorFlags))
  | .fdNew .. | .fdClose _ => inferInstanceAs (Decidable False)

/-- A call that is not refused -/
def IoCall.plain : IoCall ν Unit Readiness → IoCall ν (Option IoErrno) Readiness
  | .add pq _ => .add pq none
  | .del thread => .del thread
  | .dispatch k => .dispatch k
  | .fdNew fd _ => .fdNew fd none
  | .fdClose fd => .fdClose fd

/-- What `epoll_wait` reports: the registered descriptors with events, as many as fit. -/
def EpollSys.wait (k : Readiness) (s : EpollSys) : List (Int × Flags) :=
  match s.epfd with
  | none => []
  | some e =>
    (((e.members.sort (· ≤ ·)).map fun fd => (fd, k fd ∩ (e.events fd ∪ errHup))).filter fun ev => ev.2 ≠ ∅).take s.evtlistSize.toNat

def pollAsking : EventsysOps ν PollSys Unit Readiness := PollSys.ops.asking () fun k _ => .ready k

def selectAsking : EventsysOps ν SelectSys Unit Readiness := SelectSys.ops.asking () fun k _ => .ready k

/-- In one process, with memory. -/
def epollAsking : EventsysOps ν EpollSys Unit Readiness := EpollSys.ops.asking true fun k s => ⟨s.pid, true, true, s.wait k⟩

/-- The plain queue -/
def plainStep [DecidableEq ν] (q : List (Pollq ν)) (c : IoCall ν Unit Readiness) : Option (List (Pollq ν) × IoResult ν) :=
  Waiting.step false q c.plain

/-- What the requests see is all that matters to a dispatch. -/
theorem dispatch_congr {q : List (Pollq ν)} {k k' : Readiness} (h : ∀ pq ∈ q, ∀ pd ∈ pq.pds, report k pd = report k' pd) :
    (q.filter fun pq => HasEvents k pq).map (reported k) = (q.filter fun pq => HasEvents k' pq).map (reported k') ∧
      (q.map Pollq.asked).filter (fun pq => ¬ HasEvents k pq) = (q.map Pollq.asked).filter fun pq => ¬ HasEvents k' pq := by
  have hev : ∀ pq ∈ q, (HasEvents k pq ↔ HasEvents k' pq) := by
    intro pq hpq
    refine exists_congr fun pd => and_congr_right fun hpd => ?_
    rw [h pq hpq pd hpd]
  have hreported : ∀ pq ∈ q, reported k pq = reported k' pq := by
    intro pq hpq
    rw [reported, reported, List.map_congr_left fun pd hpd => by rw [h pq hpq pd hpd]]
  constructor
  · rw [List.filter_congr fun pq hpq => decide_eq_decide.2 (hev pq hpq)]
    exact List.map_congr_left fun pq hpq => hreported pq (List.mem_of_mem_filter hpq)
  · apply List.filter_congr
    intro _ hmem
    obtain ⟨pq, hpq, rfl⟩ := List.mem_map.1 hmem
    rw [decide_eq_decide, hasEvents_asked, hasEvents_asked, hev pq hpq]

/-- An event system that sees what is so, as the plain queue does. -/
def Exact (ops : EventsysOps ν δ Unit Readiness) (checks : Bool) (Sound : δ → List (Pollq ν) → Prop) : Prop :=
  Refines ops checks Sound (fun s c => Plain s.ioQ c) (fun _ _ _ => none) fun k _ => k

/-- **The plain queue and an exact event system** have the same results. -/
theorem Exact.outputs [DecidableEq ν] {ops : EventsysOps ν δ Unit Readiness} {checks : Bool} {Sound : δ → List (Pollq ν) → Prop}
    (h : Exact ops checks Sound) {calls : List (IoCall ν Unit Readiness)} :
    ∀ {s : IoState ν δ}, Sound s.data s.ioQ → Along (quiet plainStep) Plain (s.ioQ.map Pollq.asked) calls →
      ∃ l, Base.outputs plainStep (s.ioQ.map Pollq.asked) calls = some l ∧ Base.outputs ops.step s calls = some l := by
  induction calls with
  | nil => exact fun _ _ => ⟨[], rfl, rfl⟩
  | cons c calls ih =>
    intro s hs hc
    obtain ⟨hplain, hrest⟩ := hc
    have hfine : Plain s.ioQ c ∧ Refines.OnQueue s c := by
      cases c with
      | add pq => exact ⟨hplain, trivial⟩
      | del thread =>
        have hq : ∃ pq ∈ s.ioQ, pq.thread = thread := by simpa [Plain, Pollq.asked] using hplain
        exact ⟨hq, hq⟩
      | dispatch k =>
        refine ⟨fun pq hpq pd hpd => ?_, trivial⟩
        exact hplain pq.asked (List.mem_map_of_mem hpq) { pd with revents := ∅ } (List.mem_map_of_mem hpd)
      | fdNew => exact hplain.elim
      | fdClose => exact hplain.elim
    obtain ⟨s', o, hstep, hs', hwait⟩ := Refines.step h hs hfine.1 hfine.2
    -- the call of the plain queue does not depend on the state
    have hplainStep : plainStep (s.ioQ.map Pollq.asked) c = some (s'.ioQ.map Pollq.asked, o) := by
      cases c with
      | add => exact hwait
      | del => exact hwait
      | dispatch => exact hwait
      | fdNew => exact hplain.elim
      | fdClose => exact hplain.elim
    obtain ⟨l, hl, hl'⟩ := ih hs' (hrest _ (quiet_eq_some hplainStep))
    refine ⟨o :: l, ?_, ?_⟩
    · rw [Base.outputs, hplainStep, Option.bind_some, hl, Option.map_some]
    · rw [Base.outputs, hstep, Option.bind_some, hl', Option.map_some]

/-- An event system is exact when what it sees of a request is what is so. -/
theorem Refines.asking {ops : EventsysOps ν δ ψ ρ} {checks : Bool} {Sound : δ → List (Pollq ν) → Prop}
    {Fine : IoState ν δ → IoCall ν ψ ρ → Prop} {refusal : ψ → δ → List Pollfd → Option IoErrno} {seen : ρ → δ → Readiness}
    (h : Refines ops checks Sound Fine refusal seen) {answer : ψ} {ask : Readiness → δ → ρ}
    (hadd : ∀ d q pq, Sound d q → (∀ pd ∈ pq.pds, SelectSys.Valid pd) →
      Fine ⟨d, q⟩ (.add pq answer) ∧ refusal answer d pq.pds = none)
    (hask : ∀ d q k, Sound d q → (∀ pq ∈ q, ∀ pd ∈ pq.pds, Disjoint (k pd.fd) errorFlags) →
      Fine ⟨d, q⟩ (.dispatch (ask k d)) ∧ ∀ pq ∈ q, ∀ pd ∈ pq.pds, report (seen (ask k d) d) pd = report k pd) :
    Exact (ops.asking answer ask) checks Sound where
  add d q pq _ hs hplain := by
    obtain ⟨hfine, hnone⟩ := hadd d q pq hs hplain
    have hstep := h.add d q pq answer hs hfine
    rwa [hnone] at hstep
  del := h.del
  dispatch d q k hs hplain := by
    obtain ⟨hfine, hreport⟩ := hask d q k hs hplain
    obtain ⟨d', left, hd, hleft, hs'⟩ := h.dispatch d q (ask k d) hs hfine
    obtain ⟨hwoken, hkept⟩ := dispatch_congr hreport
    exact ⟨d', left, by rw [← hwoken]; exact hd, by rw [← hkept]; exact hleft, hs'⟩
  fdNew d q fd _ hs := h.fdNew d q fd answer hs
  fdClose d q fd _ hplain := hplain.elim

/-! ## The three event systems -/

/-- A request with flags that can be asked for sees no errors. -/
theorem report_eq_of_disjoint {k k' : Readiness} {pd : Pollfd} (hio : pd.events ⊆ ioFlags.toFinset)
    (hk : Disjoint (k pd.fd) errorFlags) (hk' : Disjoint (k' pd.fd) errorFlags)
    (h : ∀ b ∈ pd.events, b ∈ ioFlags → (b ∈ k pd.fd ↔ b ∈ k' pd.fd)) : report k pd = report k' pd := by
  ext b
  simp only [report, Finset.mem_inter, Finset.mem_union]
  have hb : b ∈ k pd.fd → b ∉ errorFlags := fun hb => Finset.disjoint_left.1 hk hb
  have hb' : b ∈ k' pd.fd → b ∉ errorFlags := fun hb => Finset.disjoint_left.1 hk' hb
  have hev : b ∈ pd.events → (b ∈ k pd.fd ↔ b ∈ k' pd.fd) := fun hev => h b hev (List.mem_toFinset.1 (hio hev))
  tauto

theorem poll_exact : Exact (pollAsking (ν := ν)) false PollSys.Sound := by
  apply PollSys.refines.asking
  · intro s q pq _ hvalid
    refine ⟨trivial, if_neg ?_⟩
    rintro ⟨pd, hpd, hbad⟩
    obtain ⟨hnonneg, -, hne, -⟩ := hvalid pd hpd
    obtain hneg | hev := hbad
    · omega
    · exact hne hev
  · exact fun _ _ _ _ _ => ⟨trivial, fun _ _ _ _ => rfl⟩

theorem select_exact : Exact (selectAsking (ν := ν)) true SelectSys.Sound := by
  apply SelectSys.refines.asking
  · intro s q pq _ hvalid
    refine ⟨trivial, if_neg ?_⟩
    rintro ⟨pd, hpd, hbad⟩
    exact hbad (hvalid pd hpd)
  · intro s q k hs hk
    refine ⟨trivial, fun pq hpq pd hpd => ?_⟩
    have hpd' := hk pq hpq pd hpd
    apply report_eq_of_disjoint (hs.valid pq hpq pd hpd).2.2.2 (hpd'.mono_left Finset.inter_subset_left) hpd'
    intro b _ hio
    simp [SelectSys.seen, hio]

/-- The registered descriptors with events are reported in some order. -/
theorem EpollSys.wait_eq {s : EpollSys} {e : Interest Flag Int} {k : Readiness} (he : s.epfd = some e) :
    ∃ l : List Int, l.Nodup ∧ l.length = e.members.card ∧ (∀ fd, fd ∈ l ↔ fd ∈ e.members) ∧
      s.wait k = ((l.map fun fd => (fd, k fd ∩ (e.events fd ∪ errHup))).filter fun ev => ev.2 ≠ ∅).take s.evtlistSize.toNat := by
  refine ⟨e.members.sort (· ≤ ·), Finset.sort_nodup _ _, Finset.length_sort _, fun fd => Finset.mem_sort _, ?_⟩
  rw [EpollSys.wait, he]

/-- The kernel may report this. -/
theorem EpollSys.reported_wait {s : EpollSys} {e : Interest Flag Int} {k : Readiness} (he : s.epfd = some e) :
    EpollSys.Reported e (s.wait k) := by
  obtain ⟨l, hl, -, hmembers, hwait⟩ := EpollSys.wait_eq (k := k) he
  have hmem : ∀ ev ∈ s.wait k, ev.1 ∈ e.members ∧ ev.2 ≠ ∅ ∧ ev.2 ⊆ e.events ev.1 ∪ errHup := by
    intro ev hev
    rw [hwait] at hev
    obtain ⟨hev, hne⟩ := List.mem_filter.1 (List.mem_of_mem_take hev)
    obtain ⟨fd, hfd, rfl⟩ := List.mem_map.1 hev
    exact ⟨(hmembers fd).1 hfd, of_decide_eq_true hne, Finset.inter_subset_right⟩
  refine ⟨?_, fun ev hev => (hmem ev hev).1, fun ev hev => (hmem ev hev).2⟩
  rw [hwait]
  refine List.Nodup.sublist (((List.take_sublist _ _).trans List.filter_sublist).map Prod.fst) ?_
  rw [List.map_map]
  exact (List.map_id _).symm ▸ hl

/-- What `epoll_wait` reports of a registered descriptor: all that are ready fit in the list. -/
theorem EpollSys.firedAt_wait {s : EpollSys} {q : List (Pollq ν)} {e : Interest Flag Int} {k : Readiness} {fd : Int}
    (hs : EpollSys.Sound True s q) (he : s.epfd = some e) (hfd : fd ∈ e.members) (hk : Disjoint (k fd) errorFlags) :
    EpollSys.firedAt (s.wait k) fd = k fd ∩ (e.events fd ∪ errHup) := by
  have hnodup := (EpollSys.reported_wait (k := k) he).nodup
  obtain ⟨l, -, hlen, hmembers, hwait⟩ := EpollSys.wait_eq (k := k) he
  rw [List.take_of_length_le] at hwait
  swap
  · refine (List.length_filter_le ..).trans ?_
    rw [List.length_map, hlen]
    have hcard := (hs.watching.kernel e he).card
    have hroom := hs.room trivial
    omega
  rw [EpollSys.firedAt]
  by_cases hr : k fd ∩ (e.events fd ∪ errHup) = ∅
  · -- the descriptor is not reported
    have hnone : (s.wait k).lookup fd = none := by
      rw [List.lookup_eq_none_iff, hwait]
      intro ev hev
      obtain ⟨hev, hne⟩ := List.mem_filter.1 hev
      obtain ⟨fd', -, rfl⟩ := List.mem_map.1 hev
      rw [bne_iff_ne]
      rintro rfl
      exact of_decide_eq_true hne hr
    rw [hnone, hr]
    rfl
  · have hmem : (fd, k fd ∩ (e.events fd ∪ errHup)) ∈ s.wait k := by
      rw [hwait, List.mem_filter]
      exact ⟨List.mem_map.2 ⟨fd, (hmembers fd).2 hfd, rfl⟩, decide_eq_true hr⟩
    have hsome : (s.wait k).lookup fd = some (k fd ∩ (e.events fd ∪ errHup)) := by
      obtain ⟨l₁, l₂, hsplit⟩ := List.append_of_mem hmem
      rw [hsplit, List.map_append, List.map_cons, List.nodup_append] at hnodup
      refine List.lookup_eq_some_iff.2 ⟨l₁, l₂, hsplit, fun ev hev => ?_⟩
      rw [bne_iff_ne]
      exact (hnodup.2.2 _ (List.mem_map_of_mem hev) fd List.mem_cons_self).symm
    have hdisjoint : k fd ∩ (e.events fd ∪ errHup) ∩ errHup = ∅ := by
      rw [← Finset.disjoint_iff_inter_eq_empty]
      exact hk.mono Finset.inter_subset_left (by decide)
    rw [hsome, Option.elim_some, if_neg (not_not_intro hdisjoint)]

theorem epoll_exact : Exact (epollAsking (ν := ν)) true fun s q => EpollSys.Sound True s q ∧ s.Quiet where
  add s q pq _ h hvalid := by
    have hgood : ∀ pd ∈ pq.pds, 0 ≤ pd.fd ∧ pd.events ≠ ∅ ∧ pd.events ⊆ ioFlags.toFinset := by
      intro pd hpd
      have hpd' := hvalid pd hpd
      exact ⟨hpd'.1, hpd'.2.2⟩
    obtain ⟨s', hs'⟩ := EpollSys.pollsetAdd_good h.1.watching h.2 hgood
    obtain ⟨s₁, e, hs₁, hsound, hquiet⟩ := EpollSys.add_spec true pq h.1 fun _ => rfl
    obtain ⟨rfl, rfl⟩ := Prod.mk.inj (Option.some.inj (hs'.symm.trans hs₁))
    exact ⟨s', hs', hsound, hquiet h.2⟩
  del s l pq r h := by
    obtain ⟨s', hs', hsound, hquiet⟩ := EpollSys.del_spec h.1
    exact ⟨s', hs', hsound, hquiet h.2⟩
  dispatch s q k h hk := by
    obtain ⟨e, he⟩ := Option.isSome_iff_exists.1 h.2.1
    have hker := h.1.watching.kernel e he
    have hreport : ∀ pq ∈ q, ∀ pd ∈ pq.pds, report (EpollSys.seen ⟨s.pid, true, true, s.wait k⟩ s) pd = report k pd := by
      intro pq hpq pd hpd
      have hpd' := hk pq hpq pd hpd
      have hv := h.1.valid pq hpq pd hpd
      -- the descriptor is registered for what is asked for
      have hkey : ∀ b ∈ pd.events, (b, pd.fd) ∈ keys q := fun b hb =>
        List.mem_flatMap.2 ⟨pq, hpq, List.mem_flatMap.2 ⟨pd, hpd, mem_keysOf.2 ⟨List.mem_toFinset.1 (hv.2.2 hb), hb, rfl⟩⟩⟩
      obtain ⟨b₀, hb₀⟩ := Finset.nonempty_iff_ne_empty.2 hv.2.1
      have hseen : EpollSys.seen ⟨s.pid, true, true, s.wait k⟩ s pd.fd = k pd.fd ∩ (e.events pd.fd ∪ errHup) := by
        rw [EpollSys.seen, if_neg (by simp)]
        exact EpollSys.firedAt_wait h.1 he (hker.mem _ (Finset.ne_empty_of_mem (mem_asked.2 (hkey b₀ hb₀)))) hpd'
      apply report_eq_of_disjoint hv.2.2 _ hpd'
      · intro b hb _
        rw [hseen, Finset.mem_inter, Finset.mem_union]
        exact ⟨And.left, fun hk => ⟨hk, Or.inl (hker.subset _ (mem_asked.2 (hkey b hb)))⟩⟩
      · rw [hseen]
        exact hpd'.mono_left Finset.inter_subset_left
    have hfine : EpollSys.Fine True ⟨s, q⟩ (.dispatch ⟨s.pid, true, true, s.wait k⟩) := by
      refine ⟨⟨fun hnone => absurd (hnone.symm.trans he) (by simp), fun hpid => absurd rfl hpid⟩, fun _ => rfl, fun _ => ?_⟩
      rw [EpollSys.Reports, EpollSys.reinit, if_pos rfl, Option.bind_some, he]
      exact EpollSys.reported_wait he
    obtain ⟨s', left, hs', hleft, hsound, hquiet⟩ := EpollSys.dispatch_eq h.1 hfine
    obtain ⟨hwoken, hkept⟩ := dispatch_congr hreport
    exact ⟨s', left, by rw [← hwoken]; exact hs', by rw [← hkept]; exact hleft, hsound, hquiet rfl h.2⟩
  fdNew s q fd _ h := ⟨(EpollSys.fdNew_spec true fd h.1).1, (EpollSys.fdNew_spec true fd h.1).2 h.2⟩
  fdClose _ _ _ _ hplain := hplain.elim

/-- **The event systems agree**: in every run of requests that all of them take, over descriptors without errors, poll, select and
epoll wake the same threads in the same order with the same events, as the plain queue says. -/
theorem systems_agree [DecidableEq ν] (fdlim : Int) (pid : Nat) {calls : List (IoCall ν Unit Readiness)}
    (hc : Along (quiet plainStep) Plain [] calls) :
    ∃ l, outputs plainStep [] calls = some l ∧
      outputs pollAsking.step ⟨PollSys.init, []⟩ calls = some l ∧
      outputs selectAsking.step ⟨SelectSys.init, []⟩ calls = some l ∧
      outputs epollAsking.step ⟨EpollSys.init fdlim pid fun _ => none, []⟩ calls = some l := by
  obtain ⟨l, hl, hpoll⟩ := poll_exact.outputs (s := ⟨PollSys.init, []⟩) rfl hc
  obtain ⟨l', hl', hselect⟩ := select_exact.outputs (s := ⟨SelectSys.init, []⟩) SelectSys.sound_init hc
  obtain ⟨l'', hl'', hepoll⟩ := epoll_exact.outputs (s := ⟨EpollSys.init fdlim pid fun _ => none, []⟩)
    ⟨EpollSys.sound_init True fdlim pid _, rfl, fun _ => rfl⟩ hc
  obtain rfl := Option.some.inj (hl.symm.trans hl')
  obtain rfl := Option.some.inj (hl.symm.trans hl'')
  exact ⟨l, hl, hpoll, hselect, hepoll⟩

/-- Two threads wait for the same descriptor, and a third one for two others. -/
theorem systems_agree_three :
    let calls : List (IoCall Nat Unit Readiness) :=
      [.add ⟨1, [⟨3, {.pollin}, ∅⟩]⟩ (), .add ⟨2, [⟨3, {.pollin, .pollout}, ∅⟩]⟩ (),
        .add ⟨3, [⟨5, {.pollout}, ∅⟩, ⟨4, {.pollpri}, ∅⟩]⟩ (), .dispatch fun fd => if fd = 3 then {.pollout} else ∅, .del 1,
        .dispatch fun fd => if fd = 4 then {.pollin, .pollpri} else ∅]
    ∃ l, outputs plainStep [] calls = some l ∧
      outputs pollAsking.step ⟨PollSys.init, []⟩ calls = some l ∧
      outputs selectAsking.step ⟨SelectSys.init, []⟩ calls = some l ∧
      outputs epollAsking.step ⟨EpollSys.init 1024 7 fun _ => none, []⟩ calls = some l :=
  systems_agree 1024 7 (by decide +kernel)

end ToolLib.StateThreads
