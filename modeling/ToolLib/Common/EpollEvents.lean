import ToolLib.Common.SelectEvents

/-!
# The event queue over `epoll`

`ev_epoll.cpp`: `select_modwatch_epoll` and `select_removeevent_epoll` tell the kernel by `epoll_ctl`, and keep in
`req->active` what they believe the interest in the descriptor to be. `active` decides between `EPOLL_CTL_ADD` and
`EPOLL_CTL_MOD`, so it has to be zero exactly when the descriptor is not in the epoll set. It is not: a removal takes the
descriptor out of the set but leaves `EPOLLET` in `active`, and the first watch for both directions adds it twice. Nor does
`select_modwatch_epoll` drop a direction. `keeps_interest_iff` says which sequences of calls come through.

`epoll_ctl` fails when it adds what is in the set, or changes or deletes what is not. Each function runs under
`sMaxFDPosMutex`.
-/

namespace ToolLib.Common

variable {δ : Type*}

def epollIN : BitVec 32 := 0x001

def epollOUT : BitVec 32 := 0x004

def epollET : BitVec 32 := 0x80000000

/-- `which & EV_RE`. -/
def reads (which : BitVec 32) : Bool := which &&& evRE != 0

/-- `which & EV_WR`. -/
def writes (which : BitVec 32) : Bool := which &&& evWR != 0

/-- `EPOLL_CTL_ADD`, `EPOLL_CTL_MOD` and `EPOLL_CTL_DEL`. -/
inductive EpollOp
  | add
  | mod
  | del

/-- `eventreq` with `active`. -/
structure EpollReq (δ : Type*) extends EventReq δ where
  active : BitVec 32

/-- `epoll_event`: what is ready of a descriptor. -/
structure EpollReady where
  fd : Nat
  events : BitVec 32

/-- The variables of `ev_epoll.cpp`, and the epoll set. -/
structure EpollEvents (δ : Type*) where
  sCookieArray : Nat → Option δ
  /-- The interest in each descriptor of the epoll set. -/
  epfd : Nat → Option (BitVec 32)
  /-- How many calls of `epoll_ctl` have failed. -/
  failed : Nat
  events : Nat → EpollReady
  nextevent : Nat
  totalevent : Int

namespace EpollEvents

def startevents : EpollEvents δ where
  sCookieArray _ := none
  epfd _ := none
  failed := 0
  events _ := ⟨0, 0⟩
  nextevent := 0
  totalevent := 0

/-- `epoll_ctl`. Nobody looks at its result. -/
def epollCtl (s : EpollEvents δ) (op : EpollOp) (fd : Nat) (events : BitVec 32) : EpollEvents δ :=
  match op, s.epfd fd with
  | .add, none | .mod, some _ => { s with epfd := Function.update s.epfd fd (some events) }
  | .del, some _ => { s with epfd := Function.update s.epfd fd none }
  | .add, some _ | .mod, none | .del, none => { s with failed := s.failed + 1 }

/-- One direction of `select_modwatch_epoll`. -/
def watchFor (on : Bool) (events : BitVec 32) (op : EpollOp) (p : EpollEvents δ × EpollReq δ) :
    EpollEvents δ × EpollReq δ :=
  if on then
    let req := { p.2 with active := p.2.active ||| events }
    (p.1.epollCtl op req.er_handle req.active, req)
  else p

/-- `select_modwatch_epoll` up to the cookie. -/
def watchDirections (s : EpollEvents δ) (req : EpollReq δ) (which : BitVec 32) : EpollEvents δ × EpollReq δ :=
  let op := if req.active ≠ 0 then .mod else .add
  let req := if req.active ≠ 0 then req else { req with active := epollET }
  watchFor (writes which) epollOUT op (watchFor (reads which) epollIN op (s, req))

/-- `select_modwatch_epoll`. `sCookieArray` has 65536 entries in the source, which stores the cookie of a descriptor from
65536 on outside it; here every descriptor has its entry, and `constructeventreq` does not look at these. -/
def modwatch (s : EpollEvents δ) (req : EpollReq δ) (which : BitVec 32) : EpollEvents δ × EpollReq δ :=
  let p := s.watchDirections req which
  ({ p.1 with sCookieArray := Function.update p.1.sCookieArray p.2.er_handle p.2.er_data }, p.2)

def removeevent (s : EpollEvents δ) (req : EpollReq δ) (which : BitVec 32) : EpollEvents δ × EpollReq δ :=
  if req.active = 0 then (s.epollCtl .mod req.er_handle 0, req)
  else
    let active := if reads which then req.active &&& ~~~epollIN else req.active
    let active := if writes which then active &&& ~~~epollOUT else active
    (s.epollCtl .del req.er_handle active, { req with active := active })

/-- It returns without a request for a descriptor beyond `sCookieArray`. -/
def constructeventreq (s : EpollEvents δ) (req : EventReq δ) (fd : Nat) (event : BitVec 32) : EventReq δ :=
  if fd ≥ 8192 * 8 then req else ⟨fd, event, s.sCookieArray fd⟩

/-- `select_waitevent_epoll`, called with the request `req`. `result` is what `epoll_wait` returns, if it is called; `none`
is its error. -/
def waitevent (s : EpollEvents δ) (req : EventReq δ) (result : Option (List EpollReady)) :
    EpollEvents δ × WaitReturn δ :=
  if (s.nextevent : Int) < s.totalevent then
    let ev := s.events s.nextevent
    ({ s with nextevent := s.nextevent + 1 },
      .event (if ev.events &&& epollIN ≠ 0 then s.constructeventreq req ev.fd evRE else req))
  else
    match result with
    | some ready =>
      ({ s with
        events := fun i => (ready[i]?).getD (s.events i)
        nextevent := 0
        totalevent := ready.length }, .eintr)
    | none => ({ s with nextevent := 0, totalevent := -1 }, .eintr)

section Frames

variable {s : EpollEvents δ} {op : EpollOp} {fd : Nat} {ev : BitVec 32} {req : EpollReq δ} {which : BitVec 32}
  {p q p' : EpollEvents δ × EpollReq δ}

/-- Only the epoll set and `active` have changed. -/
structure OnlySet (p q : EpollEvents δ × EpollReq δ) : Prop where
  request : q.2.toEventReq = p.2.toEventReq
  cookies : q.1.sCookieArray = p.1.sCookieArray
  events : q.1.events = p.1.events
  nextevent : q.1.nextevent = p.1.nextevent
  totalevent : q.1.totalevent = p.1.totalevent

theorem OnlySet.trans (h : OnlySet p q) (h' : OnlySet q p') : OnlySet p p' :=
  ⟨h'.request.trans h.request, h'.cookies.trans h.cookies, h'.events.trans h.events, h'.nextevent.trans h.nextevent,
    h'.totalevent.trans h.totalevent⟩

theorem onlySet_epollCtl {req' : EpollReq δ} (h : req'.toEventReq = req.toEventReq) :
    OnlySet (s, req) (s.epollCtl op fd ev, req') := by
  unfold epollCtl
  split <;> exact ⟨h, rfl, rfl, rfl, rfl⟩

theorem onlySet_watchFor {on : Bool} : OnlySet p (watchFor on ev op p) := by
  unfold watchFor
  split
  · exact onlySet_epollCtl rfl
  · exact ⟨rfl, rfl, rfl, rfl, rfl⟩

theorem onlySet_removeevent : OnlySet (s, req) (s.removeevent req which) := by
  unfold removeevent
  split
  · exact onlySet_epollCtl rfl
  · exact onlySet_epollCtl rfl

theorem onlySet_watchDirections : OnlySet (s, req) (s.watchDirections req which) := by
  unfold watchDirections
  refine OnlySet.trans (OnlySet.trans ?_ onlySet_watchFor) onlySet_watchFor
  split
  · exact ⟨rfl, rfl, rfl, rfl, rfl⟩
  · exact ⟨rfl, rfl, rfl, rfl, rfl⟩

theorem modwatch_sCookieArray : (s.modwatch req which).1.sCookieArray =
    Function.update s.sCookieArray req.er_handle req.er_data := by
  have h : OnlySet (s, req) (s.watchDirections req which) := onlySet_watchDirections
  simp only [modwatch, h.request, h.cookies]

end Frames

/-! ## What is promised -/

/-- The interest in these directions, edge triggered. -/
def interest (r w : Bool) : BitVec 32 :=
  epollET ||| (if r then epollIN else 0) ||| (if w then epollOUT else 0)

/-- A call for the request. -/
inductive Call
  /-- `select_modwatch_epoll`, and `select_watchevent_epoll`. -/
  | modwatch (which : BitVec 32)
  | removeevent (which : BitVec 32)

/-- A watch is for some direction. -/
def Call.Directed : Call → Prop
  | .modwatch which => (reads which || writes which) = true
  | .removeevent _ => True

instance : DecidablePred Call.Directed
  | .modwatch which => inferInstanceAs (Decidable ((reads which || writes which) = true))
  | .removeevent _ => instDecidableTrue

variable {s : EpollEvents δ} {req : EpollReq δ} {which : BitVec 32} {r w : Bool} {calls : List Call}

/-- Some watch is accepted. -/
def CanBeWatched (s : EpollEvents δ) (req : EpollReq δ) : Prop :=
  ∃ which, (Call.modwatch which).Directed ∧ (s.modwatch req which).1.failed = s.failed

/-- What the calls promise, when the directions `r` and `w` have been asked for: no `epoll_ctl` fails, a watch leaves the
interest that it asks for, and when all directions are removed the descriptor is out of the set and can be watched. -/
def KeepsInterest (s : EpollEvents δ) (req : EpollReq δ) (r w : Bool) : List Call → Prop
  | [] => True
  | .modwatch which :: calls =>
    let p := s.modwatch req which
    p.1.failed = s.failed ∧ p.1.epfd req.er_handle = some (interest (reads which) (writes which)) ∧
      KeepsInterest p.1 p.2 (reads which) (writes which) calls
  | .removeevent which :: calls =>
    let p := s.removeevent req which
    let r := r && !reads which
    let w := w && !writes which
    p.1.failed = s.failed ∧ ((r || w) = false → p.1.epfd req.er_handle = none ∧ CanBeWatched p.1 p.2) ∧
      KeepsInterest p.1 p.2 r w calls

/-- No direction is dropped by a watch, and a removal is the last call and leaves a direction. -/
def Growing (r w : Bool) : List Call → Prop
  | [] => True
  | .modwatch which :: calls =>
    (r = true → reads which = true) ∧ (w = true → writes which = true) ∧ Growing (reads which) (writes which) calls
  | .removeevent which :: calls => (r && !reads which || w && !writes which) = true ∧ calls = []

/-- The first call is a watch for one direction. -/
def Regular : List Call → Prop
  | [] => True
  | .modwatch which :: calls => reads which ≠ writes which ∧ Growing (reads which) (writes which) calls
  | .removeevent _ :: _ => False

instance Growing.decidable : (calls : List Call) → (r w : Bool) → Decidable (Growing r w calls)
  | [], _, _ => instDecidableTrue
  | .modwatch which :: calls, r, w =>
    have := Growing.decidable calls (reads which) (writes which)
    inferInstanceAs (Decidable ((r = true → _) ∧ (w = true → _) ∧ Growing _ _ calls))
  | .removeevent _ :: [], _, _ => inferInstanceAs (Decidable (_ = true ∧ _))
  | .removeevent _ :: _ :: _, _, _ => isFalse fun h => List.cons_ne_nil _ _ h.2

instance : DecidablePred Regular
  | [] => instDecidableTrue
  | .modwatch _ :: calls => inferInstanceAs (Decidable (_ ≠ _ ∧ Growing _ _ calls))
  | .removeevent _ :: _ => instDecidableFalse

/-! ## What the calls do -/

theorem interest_ne_zero : interest r w ≠ 0 := by
  cases r <;> cases w <;> decide

theorem interest_read : interest r w ||| epollIN = interest true w := by
  cases r <;> cases w <;> decide

theorem interest_write : interest r w ||| epollOUT = interest r true := by
  cases r <;> cases w <;> decide

theorem interest_not_read : interest r w &&& ~~~epollIN = interest false w := by
  cases r <;> cases w <;> decide

theorem interest_not_write : interest r w &&& ~~~epollOUT = interest r false := by
  cases r <;> cases w <;> decide

theorem interest_inj {r' w' : Bool} (h : interest r w = interest r' w') : r = r' ∧ w = w' := by
  revert h
  cases r <;> cases w <;> cases r' <;> cases w' <;> decide

theorem modwatch_er_handle : (s.modwatch req which).2.er_handle = req.er_handle :=
  congrArg EventReq.er_handle onlySet_watchDirections.request

theorem removeevent_er_handle : (s.removeevent req which).2.er_handle = req.er_handle :=
  congrArg EventReq.er_handle onlySet_removeevent.request

/-- A watch of a descriptor in the set adds its directions. -/
theorem modwatch_present {e : BitVec 32} (hset : s.epfd req.er_handle = some e) (hactive : req.active = interest r w)
    (hmask : (Call.modwatch which).Directed) :
    (s.modwatch req which).1.failed = s.failed ∧
      (s.modwatch req which).1.epfd req.er_handle = some (interest (r || reads which) (w || writes which)) ∧
      (s.modwatch req which).2.active = interest (r || reads which) (w || writes which) := by
  have hne : ¬ interest r w = 0#32 := interest_ne_zero
  cases hr : reads which <;> cases hw : writes which
  · simp [Call.Directed, hr, hw] at hmask
  all_goals
    simp [modwatch, watchDirections, watchFor, epollCtl, hset, hactive, hne, hr, hw, interest_read, interest_write]

/-- The first watch for one direction. -/
theorem modwatch_new (hset : s.epfd req.er_handle = none) (hactive : req.active = 0)
    (hone : reads which ≠ writes which) :
    (s.modwatch req which).1.failed = s.failed ∧
      (s.modwatch req which).1.epfd req.er_handle = some (interest (reads which) (writes which)) ∧
      (s.modwatch req which).2.active = interest (reads which) (writes which) := by
  cases hr : reads which <;> cases hw : writes which
  · exact absurd (hr.trans hw.symm) hone
  · simp [modwatch, watchDirections, watchFor, epollCtl, hset, hactive, hr, hw, interest]
  · simp [modwatch, watchDirections, watchFor, epollCtl, hset, hactive, hr, hw, interest]
  · exact absurd (hr.trans hw.symm) hone

/-- The first watch for both directions adds the descriptor twice. -/
theorem modwatch_twice (hset : s.epfd req.er_handle = none) (hactive : req.active = 0) (hr : reads which = true)
    (hw : writes which = true) : (s.modwatch req which).1.failed ≠ s.failed := by
  simp [modwatch, watchDirections, watchFor, epollCtl, hset, hactive, hr, hw]

/-- A watch of a descriptor that is believed to be in the set, and is not. -/
theorem modwatch_gone (hset : s.epfd req.er_handle = none) (hactive : req.active ≠ 0)
    (hmask : (Call.modwatch which).Directed) : (s.modwatch req which).1.failed ≠ s.failed := by
  have hne : ¬ req.active = 0#32 := hactive
  cases hr : reads which <;> cases hw : writes which
  · simp [Call.Directed, hr, hw] at hmask
  · simp [modwatch, watchDirections, watchFor, epollCtl, hset, hne, hr, hw]
  · simp [modwatch, watchDirections, watchFor, epollCtl, hset, hne, hr, hw]
  · simp [modwatch, watchDirections, watchFor, epollCtl, hset, hne, hr, hw, Nat.add_assoc]

/-- A removal takes the descriptor out of the set, whatever directions are left. -/
theorem removeevent_present (which : BitVec 32) {e : BitVec 32} (hset : s.epfd req.er_handle = some e)
    (hactive : req.active = interest r w) :
    (s.removeevent req which).1.failed = s.failed ∧ (s.removeevent req which).1.epfd req.er_handle = none ∧
      (s.removeevent req which).2.active = interest (r && !reads which) (w && !writes which) := by
  have hne : ¬ interest r w = 0#32 := interest_ne_zero
  cases hr : reads which <;> cases hw : writes which <;>
    simp [removeevent, epollCtl, hset, hactive, hne, hr, hw, interest_not_read, interest_not_write]

/-- A removal of a descriptor that is not in the set. -/
theorem removeevent_gone (hset : s.epfd req.er_handle = none) : (s.removeevent req which).1.failed ≠ s.failed := by
  by_cases hactive : req.active = 0#32 <;> simp [removeevent, epollCtl, hset, hactive]

/-! ## The sequences that come through -/

/-- A descriptor that is out of the set with `active` set comes through no call. -/
theorem keeps_gone (hset : s.epfd req.er_handle = none) (hactive : req.active ≠ 0)
    (hmask : ∀ call ∈ calls, call.Directed) :
    s.KeepsInterest req r w calls ↔ calls = [] := by
  cases calls with
  | nil => exact iff_of_true trivial rfl
  | cons call calls =>
    refine iff_of_false (fun h => ?_) nofun
    cases call with
    | modwatch which => exact modwatch_gone hset hactive (hmask _ List.mem_cons_self) h.1
    | removeevent which => exact removeevent_gone hset h.1

theorem keeps_present {e : BitVec 32} (hset : s.epfd req.er_handle = some e) (hactive : req.active = interest r w)
    (hmask : ∀ call ∈ calls, call.Directed) :
    s.KeepsInterest req r w calls ↔ Growing r w calls := by
  induction calls generalizing s req r w e with
  | nil => exact Iff.rfl
  | cons call calls ih =>
    have hrest : ∀ call ∈ calls, call.Directed := fun call hm => hmask call (List.mem_cons_of_mem _ hm)
    cases call with
    | modwatch which =>
      obtain ⟨hfailed, hset', hactive'⟩ := modwatch_present hset hactive (hmask _ List.mem_cons_self)
      have hsame : interest (r || reads which) (w || writes which) = interest (reads which) (writes which) ↔
          (r = true → reads which = true) ∧ (w = true → writes which = true) := by
        constructor
        · intro h
          obtain ⟨hr, hw⟩ := interest_inj h
          exact ⟨fun hr' => by rw [← hr, hr', Bool.true_or], fun hw' => by rw [← hw, hw', Bool.true_or]⟩
        · rintro ⟨hr, hw⟩
          congr 1
          · cases r <;> simp_all
          · cases w <;> simp_all
      have hnext : interest (r || reads which) (w || writes which) = interest (reads which) (writes which) →
          ((s.modwatch req which).1.KeepsInterest (s.modwatch req which).2 (reads which) (writes which) calls ↔
            Growing (reads which) (writes which) calls) := fun h =>
        ih (modwatch_er_handle ▸ hset') (hactive'.trans h) hrest
      simp only [KeepsInterest, Growing, hfailed, hset', Option.some.injEq, true_and]
      rw [← and_assoc, ← hsame]
      exact and_congr_right hnext
    | removeevent which =>
      obtain ⟨hfailed, hset', hactive'⟩ := removeevent_present which hset hactive
      have hne : (s.removeevent req which).2.active ≠ 0 := hactive' ▸ interest_ne_zero
      have hgone : (s.removeevent req which).1.epfd (s.removeevent req which).2.er_handle = none := by
        rw [removeevent_er_handle]
        exact hset'
      have hwatch : ¬ CanBeWatched (s.removeevent req which).1 (s.removeevent req which).2 :=
        fun ⟨_, hmask', hok⟩ => modwatch_gone hgone hne hmask' hok
      simp only [KeepsInterest, Growing, hfailed, hset', hwatch, and_false, true_and, imp_false, Bool.not_eq_false]
      rw [keeps_gone hgone hne hrest]

/-- **Registered interest, exactly when**: a sequence of calls for a fresh request keeps what is promised if and only if it
begins with a watch for one direction, no watch drops a direction, and a removal is the last call and leaves one. -/
theorem keeps_interest_iff (hset : s.epfd req.er_handle = none) (hactive : req.active = 0)
    (hmask : ∀ call ∈ calls, call.Directed) :
    s.KeepsInterest req false false calls ↔ Regular calls := by
  cases calls with
  | nil => exact Iff.rfl
  | cons call calls =>
    have hrest : ∀ call ∈ calls, call.Directed := fun call hm => hmask call (List.mem_cons_of_mem _ hm)
    cases call with
    | removeevent which => exact iff_of_false (fun h => removeevent_gone hset h.1) id
    | modwatch which =>
      by_cases hone : reads which = writes which
      · have hboth : (reads which || writes which) = true := hmask _ List.mem_cons_self
        rw [hone, Bool.or_self] at hboth
        exact iff_of_false (fun h => modwatch_twice hset hactive (hone.trans hboth) hboth h.1) fun h => h.1 hone
      · obtain ⟨hfailed, hset', hactive'⟩ := modwatch_new hset hactive hone
        simp only [KeepsInterest, Regular, hfailed, hset', true_and]
        exact (keeps_present (modwatch_er_handle ▸ hset') hactive' hrest).trans (and_iff_right hone).symm

/-- A fresh request for descriptor 5. -/
def request : EpollReq Unit where
  er_handle := 5
  er_eventbits := 0
  er_data := some ()
  active := 0

/-- Watch for reading, remove, watch again: the descriptor is changed when it should be added. -/
theorem keeps_interest_again :
    ¬ (startevents : EpollEvents Unit).KeepsInterest request false false
      [.modwatch evRE, .removeevent evRE, .modwatch evRE] :=
  fun h => absurd h.2.2.2.2.1 (by decide)

theorem keeps_interest_grown :
    (startevents : EpollEvents Unit).KeepsInterest request false false
      [.modwatch evRE, .modwatch (evRE ||| evWR), .removeevent evRE] :=
  (keeps_interest_iff rfl rfl (by decide)).2 (by decide)

end EpollEvents

end ToolLib.Common
