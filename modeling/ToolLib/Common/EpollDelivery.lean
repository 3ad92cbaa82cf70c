import ToolLib.Base.Logged
import ToolLib.Common.EpollEvents

/-!
# What the epoll thread delivers

`EventThread::Entry` calls `select_waitevent_epoll` with one request that it never clears, and when the call returns 0 it
passes the request on. The call fills the request in only for an entry with `EPOLLIN`; for any other entry it returns 0 as
well, and what is passed on is the event before. `faithful_iff` says for which entries the thread delivers what it should.
-/

namespace ToolLib.Common

open ToolLib.Base

variable {δ : Type*}

/-- The event queue, and the request of `EventThread::Entry`. -/
structure EpollThread (δ : Type*) where
  queue : EpollEvents δ
  theCurrentEvent : EventReq δ

/-- What happens next. -/
inductive EpollAct (δ : Type*)
  | modwatch (req : EpollReq δ) (which : BitVec 32)
  | removeevent (req : EpollReq δ) (which : BitVec 32)
  /-- A call of `select_waitevent_epoll`. When it calls `epoll_wait`, that is what it gets. -/
  | wait (result : Option (List EpollReady))

namespace EpollThread

def start : EpollThread δ where
  queue := .startevents
  theCurrentEvent := ⟨0, 0, none⟩

/-- The array for `epoll_wait` has 1000 entries. -/
def step (t : EpollThread δ) : EpollAct δ → Option (EpollThread δ)
  | .modwatch req which => some { t with queue := (t.queue.modwatch req which).1 }
  | .removeevent req which => some { t with queue := (t.queue.removeevent req which).1 }
  | .wait result =>
    if (result.getD []).length ≤ 1000 then
      match t.queue.waitevent t.theCurrentEvent result with
      | (queue, .event req) => some ⟨queue, req⟩
      | (queue, _) => some ⟨queue, t.theCurrentEvent⟩
    else none

/-- What an observer notes. -/
inductive Entry (δ : Type*)
  | watched (fd : Nat) (data : Option δ)
  /-- `epoll_wait` returned these entries, none after its time or an error. -/
  | waited (ready : List EpollReady)
  /-- `select_waitevent_epoll` returned 0, and the request is passed on. -/
  | passed (req : EventReq δ)

def observe (t : EpollThread δ) (act : EpollAct δ) (t' : EpollThread δ) : Option (Entry δ) :=
  match act with
  | .modwatch req _ => some (.watched req.er_handle req.er_data)
  | .removeevent _ _ => none
  | .wait result =>
    if (t.queue.nextevent : Int) < t.queue.totalevent then some (.passed t'.theCurrentEvent)
    else some (.waited (result.getD []))

/-- The system that takes notes. -/
abbrev noted : Logged (EpollThread δ) (Entry δ) → EpollAct δ → Option (Logged (EpollThread δ) (Entry δ)) :=
  Logged.step step observe

variable {t t' : EpollThread δ} {act : EpollAct δ} {l : List (Entry δ)}

/-! ## What should be passed on -/

/-- The cookie of the current registration. -/
def cookie (f : Nat) : List (Entry δ) → Option δ
  | [] => none
  | .watched g data :: l => if g = f then data else cookie f l
  | .waited _ :: l | .passed _ :: l => cookie f l

/-- The entries of `epoll_wait` that are still to be reported. -/
def left : List (Entry δ) → List EpollReady
  | [] => []
  | .waited ready :: _ => ready
  | .passed _ :: l => (left l).tail
  | .watched _ _ :: l => left l

/-- The directions that are ready, as event bits. -/
def directions (events : BitVec 32) : BitVec 32 :=
  (if events &&& epollIN ≠ 0 then evRE else 0) ||| (if events &&& epollOUT ≠ 0 then evWR else 0)

/-- What is passed on is the next entry, with all its directions and the cookie of its descriptor; and `epoll_wait` is
called when all are reported. -/
def Faithful (l : List (Entry δ)) : Entry δ → Prop
  | .passed req => ∃ ev rest, left l = ev :: rest ∧ req = ⟨ev.fd, directions ev.events, cookie ev.fd l⟩
  | .waited _ => left l = []
  | .watched _ _ => True

/-- The next entry is ready for reading only, of a descriptor that has a cookie; or nothing was reported yet, the request is
still all zero, and so is what there is to report. -/
def OnlyRead (x : Logged (EpollThread δ) (Entry δ)) : EpollAct δ → Prop
  | .wait _ =>
    let s := x.state.queue
    let ev := s.events s.nextevent
    (s.nextevent : Int) < s.totalevent →
      directions ev.events = evRE ∧ ev.fd < 8192 * 8 ∨
      directions ev.events = 0 ∧ ev.fd = 0 ∧ s.sCookieArray 0 = none ∧ x.state.theCurrentEvent.er_eventbits = 0
  | .modwatch _ _ | .removeevent _ _ => True

instance [DecidableEq δ] (x : Logged (EpollThread δ) (Entry δ)) (act : EpollAct δ) : Decidable (OnlyRead x act) :=
  match act with
  | .wait _ => inferInstanceAs (Decidable (_ → _ ∨ _))
  | .modwatch _ _ | .removeevent _ _ => instDecidableTrue

/-- The rest of the entries. -/
def rest (s : EpollEvents δ) : List EpollReady :=
  (List.range' s.nextevent (s.totalevent.toNat - s.nextevent)).map s.events

/-- The request is as it was cleared, or holds a read event. -/
structure Tracked (t : EpollThread δ) (l : List (Entry δ)) : Prop where
  cookies : ∀ f, t.queue.sCookieArray f = cookie f l
  left : left l = rest t.queue
  request : t.theCurrentEvent = ⟨0, 0, none⟩ ∨
    t.theCurrentEvent.er_eventbits = evRE ∧ t.theCurrentEvent.er_handle < 8192 * 8

/-! ## The steps -/

/-- What a step does, and what is noted of it. -/
inductive Does (t : EpollThread δ) : EpollAct δ → EpollThread δ → Option (Entry δ) → Prop
  | modwatch (req : EpollReq δ) (which : BitVec 32) :
    Does t (.modwatch req which) { t with queue := (t.queue.modwatch req which).1 }
      (some (.watched req.er_handle req.er_data))
  | removeevent (req : EpollReq δ) (which : BitVec 32) :
    Does t (.removeevent req which) { t with queue := (t.queue.removeevent req which).1 } none
  | passed (result : Option (List EpollReady)) (hlt : (t.queue.nextevent : Int) < t.queue.totalevent) (req : EventReq δ)
    (hreq : req = if (t.queue.events t.queue.nextevent).events &&& epollIN ≠ 0 then
        t.queue.constructeventreq t.theCurrentEvent (t.queue.events t.queue.nextevent).fd evRE
      else t.theCurrentEvent) :
    Does t (.wait result) ⟨{ t.queue with nextevent := t.queue.nextevent + 1 }, req⟩ (some (.passed req))
  | waited (ready : List EpollReady) (hge : t.queue.totalevent ≤ t.queue.nextevent) :
    Does t (.wait (some ready))
      ⟨{ t.queue with
          events := fun i => (ready[i]?).getD (t.queue.events i)
          nextevent := 0
          totalevent := ready.length }, t.theCurrentEvent⟩ (some (.waited ready))
  | error (hge : t.queue.totalevent ≤ t.queue.nextevent) :
    Does t (.wait none) ⟨{ t.queue with nextevent := 0, totalevent := -1 }, t.theCurrentEvent⟩ (some (.waited []))

theorem step_cases (hs : t.step act = some t') : Does t act t' (observe t act t') := by
  cases act with
  | modwatch req which => cases hs; exact .modwatch req which
  | removeevent req which => cases hs; exact .removeevent req which
  | wait result =>
    simp only [step] at hs
    split at hs
    next hlen =>
      by_cases hlt : (t.queue.nextevent : Int) < t.queue.totalevent
      · simp only [EpollEvents.waitevent, if_pos hlt, Option.some.injEq] at hs
        subst hs
        simp only [observe, if_pos hlt]
        exact .passed result hlt _ rfl
      · have hge := not_lt.1 hlt
        cases result with
        | some ready =>
          simp only [EpollEvents.waitevent, if_neg hlt, Option.some.injEq] at hs
          subst hs
          simp only [observe, if_neg hlt]
          exact .waited ready hge
        | none =>
          simp only [EpollEvents.waitevent, if_neg hlt, Option.some.injEq] at hs
          subst hs
          simp only [observe, if_neg hlt]
          exact .error hge
    next => cases hs

theorem rest_next {s : EpollEvents δ} (hlt : (s.nextevent : Int) < s.totalevent) :
    rest s = s.events s.nextevent :: rest { s with nextevent := s.nextevent + 1 } := by
  have hlen : s.totalevent.toNat - s.nextevent = (s.totalevent.toNat - (s.nextevent + 1)) + 1 := by omega
  rw [rest, hlen, List.range'_succ, List.map_cons]
  rfl

theorem rest_of_le {s : EpollEvents δ} (hge : s.totalevent ≤ s.nextevent) : rest s = [] := by
  have hlen : s.totalevent.toNat - s.nextevent = 0 := by omega
  rw [rest, hlen]
  rfl

/-- The entries that `epoll_wait` wrote. -/
theorem rest_waited {s : EpollEvents δ} {ready : List EpollReady} :
    rest { s with
      events := fun i => (ready[i]?).getD (s.events i)
      nextevent := 0
      totalevent := ready.length } = ready := by
  refine List.ext_getElem (by simp [rest]) fun i h₁ h₂ => ?_
  simp [rest, List.getElem?_eq_getElem h₂]

theorem Tracked.same {q : EpollEvents δ} (h : Tracked t l) (hc : q.sCookieArray = t.queue.sCookieArray)
    (he : q.events = t.queue.events) (hn : q.nextevent = t.queue.nextevent) (ht : q.totalevent = t.queue.totalevent) :
    Tracked { t with queue := q } l where
  cookies f := (congrFun hc f).trans (h.cookies f)
  left := by
    simp only [rest, he, hn, ht]
    exact h.left
  request := h.request

theorem tracked_start : Tracked (start : EpollThread δ) [] where
  cookies _ := rfl
  left := rfl
  request := Or.inl rfl

theorem tracked_step {o : Option (Entry δ)} (h : Tracked t l) (hs : Does t act t' o) : Tracked t' (o.toList ++ l) := by
  cases hs with
  | modwatch req which =>
    have hsame : EpollEvents.OnlySet (t.queue, req) (t.queue.watchDirections req which) :=
      EpollEvents.onlySet_watchDirections
    have hrest := h.same hsame.cookies hsame.events hsame.nextevent hsame.totalevent
    refine ⟨fun f => ?_, hrest.left, h.request⟩
    rw [EpollEvents.modwatch_sCookieArray]
    by_cases hf : f = req.er_handle
    · subst hf
      simp [cookie]
    · simpa [cookie, hf, Ne.symm hf] using h.cookies f
  | removeevent req which =>
    have hsame : EpollEvents.OnlySet (t.queue, req) (t.queue.removeevent req which) := EpollEvents.onlySet_removeevent
    exact h.same hsame.cookies hsame.events hsame.nextevent hsame.totalevent
  | passed result hlt req hreq =>
    refine ⟨h.cookies, ?_, ?_⟩
    · show (EpollThread.left l).tail = _
      rw [h.left, rest_next hlt]
      rfl
    · subst hreq
      unfold EpollEvents.constructeventreq
      split
      · split
        next => exact h.request
        next hfd => exact Or.inr ⟨rfl, not_le.1 hfd⟩
      · exact h.request
  | waited ready hge => exact ⟨h.cookies, rest_waited.symm, h.request⟩
  | error hge => exact ⟨h.cookies, (rest_of_le (by simp only; omega)).symm, h.request⟩

/-! ## The exact condition -/

theorem directions_ne_zero {events : BitVec 32} (hr : events &&& epollIN ≠ 0) : directions events ≠ 0 := by
  unfold directions
  rw [if_pos hr]
  split <;> decide

theorem directions_ne_read {events : BitVec 32} (hr : events &&& epollIN = 0) : directions events ≠ evRE := by
  unfold directions
  rw [if_neg (not_not.2 hr)]
  split <;> decide

/-- The request that is passed on describes the entry exactly under the condition. -/
theorem passed_iff (h : Tracked t l) {ev : EpollReady} {req : EventReq δ}
    (hreq : req = if ev.events &&& epollIN ≠ 0 then t.queue.constructeventreq t.theCurrentEvent ev.fd evRE
      else t.theCurrentEvent) :
    req = ⟨ev.fd, directions ev.events, t.queue.sCookieArray ev.fd⟩ ↔
      directions ev.events = evRE ∧ ev.fd < 8192 * 8 ∨
        directions ev.events = 0 ∧ ev.fd = 0 ∧ t.queue.sCookieArray 0 = none ∧ t.theCurrentEvent.er_eventbits = 0 := by
  by_cases hr : ev.events &&& epollIN = 0
  · -- the request is what it was
    rw [if_neg (not_not.2 hr)] at hreq
    subst hreq
    have hne := directions_ne_read hr
    rcases h.request with hclear | ⟨hbits, -⟩
    · simp only [hclear, EventReq.mk.injEq, hne, false_and, false_or, and_true]
      constructor
      · rintro ⟨hfd, hdir, hcookie⟩
        exact ⟨hdir.symm, hfd.symm, by rw [hfd]; exact hcookie.symm⟩
      · rintro ⟨hdir, hfd, hcookie⟩
        exact ⟨hfd.symm, hdir.symm, by rw [hfd]; exact hcookie.symm⟩
    · refine iff_of_false (fun heq => hne ?_) ?_
      · rw [← hbits, heq]
      · rintro (⟨hdir, -⟩ | ⟨-, -, -, hzero⟩)
        · exact hne hdir
        · exact absurd (hbits.symm.trans hzero) (by decide)
  · rw [if_pos hr] at hreq
    have hne := directions_ne_zero hr
    by_cases hfd : ev.fd ≥ 8192 * 8
    · -- no cookie for such a descriptor, and the request is what it was
      rw [EpollEvents.constructeventreq, if_pos hfd] at hreq
      subst hreq
      refine iff_of_false (fun heq => ?_) ?_
      · have hhandle : t.theCurrentEvent.er_handle = ev.fd := by rw [heq]
        rcases h.request with hclear | ⟨-, hlt⟩
        · rw [hclear] at hhandle
          change 0 = ev.fd at hhandle
          omega
        · omega
      · rintro (⟨-, hlt⟩ | ⟨hdir, -⟩)
        · exact absurd hlt (not_lt.2 hfd)
        · exact hne hdir
    · rw [EpollEvents.constructeventreq, if_neg hfd] at hreq
      subst hreq
      simp only [EventReq.mk.injEq, true_and, and_true, hne, false_and, or_false]
      exact ⟨fun h => ⟨h.symm, not_le.1 hfd⟩, fun h => h.1.symm⟩

theorem faithful_entry_iff {x : Logged (EpollThread δ) (Entry δ)} {o : Option (Entry δ)} (h : Tracked x.state x.log)
    (hs : Does x.state act t' o) : OnlyRead x act ↔ ∀ e ∈ o, Faithful x.log e := by
  cases hs with
  | modwatch req which => exact iff_of_true trivial (by rintro e ⟨⟩; trivial)
  | removeevent req which => exact iff_of_true trivial nofun
  | passed result hlt req hreq =>
    have hleft : EpollThread.left x.log = x.state.queue.events x.state.queue.nextevent :: _ :=
      h.left.trans (rest_next hlt)
    have hpassed : (∀ e ∈ some (Entry.passed req), Faithful x.log e) ↔
        req = ⟨(x.state.queue.events x.state.queue.nextevent).fd,
          directions (x.state.queue.events x.state.queue.nextevent).events,
          x.state.queue.sCookieArray (x.state.queue.events x.state.queue.nextevent).fd⟩ := by
      simp only [Option.mem_some_iff, forall_eq', Faithful, hleft, h.cookies]
      constructor
      · rintro ⟨ev, more, heq, hreq⟩
        cases heq
        exact hreq
      · exact fun hreq => ⟨_, _, rfl, hreq⟩
    rw [hpassed, passed_iff h hreq]
    exact ⟨fun hcond => hcond hlt, fun hcond _ => hcond⟩
  | waited ready hge =>
    refine iff_of_true (fun hlt => absurd hlt (not_lt.2 hge)) ?_
    rintro e ⟨⟩
    exact h.left.trans (rest_of_le hge)
  | error hge =>
    refine iff_of_true (fun hlt => absurd hlt (not_lt.2 hge)) ?_
    rintro e ⟨⟩
    exact h.left.trans (rest_of_le hge)

/-- **Faithful delivery, exactly when**: every entry of `epoll_wait` is passed on once, with its directions and the cookie of
its descriptor, and nothing else is, if and only if all entries of the run are ready for reading and for nothing more. -/
theorem faithful_iff {as : List (EpollAct δ)} {x : Logged (EpollThread δ) (Entry δ)}
    (hr : run noted ⟨start, []⟩ as = some x) : Each Faithful x.log ↔ Along noted OnlyRead ⟨start, []⟩ as := by
  have h := each_iff_along (Q := Faithful) (I := fun x => Tracked x.state x.log) (C := OnlyRead)
    (fun x a t' h _ hs => tracked_step h (step_cases hs))
    (fun x a t' h hs => faithful_entry_iff h (step_cases hs)) tracked_start hr
  rw [h]
  exact ⟨And.right, fun hC => ⟨trivial, hC⟩⟩

/-- Descriptors 5 and 6 are watched; `ready` comes back from `epoll_wait` and is drained. -/
def drain (ready : List EpollReady) : List (EpollAct Nat) :=
  [.modwatch ⟨⟨5, 0, some 55⟩, 0⟩ evRE, .modwatch ⟨⟨6, 0, some 66⟩, 0⟩ evWR, .wait (some ready)] ++
    List.replicate ready.length (.wait none)

/-- Descriptor 6 is ready for writing, and the connection of descriptor 5 gets its read event again. -/
theorem faithful_stale : ∃ x : Logged (EpollThread Nat) (Entry Nat),
    run noted ⟨start, []⟩ (drain [⟨5, epollIN⟩, ⟨6, epollOUT⟩]) = some x ∧ ¬ Each Faithful x.log := by
  refine ⟨_, rfl, fun h => ?_⟩
  obtain ⟨ev, more, hleft, hreq⟩ := h.1
  cases hleft
  exact absurd (congrArg EventReq.er_handle hreq) (by decide)

theorem faithful_iff_reads : ∃ x : Logged (EpollThread Nat) (Entry Nat),
    run noted ⟨start, []⟩ (drain [⟨5, epollIN⟩, ⟨6, epollIN⟩]) = some x ∧ Each Faithful x.log := by
  obtain ⟨x, hr⟩ : ∃ x, run noted ⟨start, []⟩ (drain [⟨5, epollIN⟩, ⟨6, epollIN⟩]) = some x := ⟨_, rfl⟩
  exact ⟨x, hr, (faithful_iff hr).2 (by decide +kernel)⟩

end EpollThread

end ToolLib.Common
