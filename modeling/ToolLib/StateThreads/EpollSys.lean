import ToolLib.Base.Interest
import ToolLib.StateThreads.EventSys

/-!
# The epoll event system

The reference counts of a descriptor say which events `epoll` has to be asked for (`_ST_EPOLL_EVENTS`), and `epoll_ctl` is called
when they change. A descriptor that has fired is changed after all requests have been looked at, and a `pollset_add` that is
refused half way takes back what it has done. After a `fork` the child asks again for everything.

`epoll_ctl` may refuse an addition or a change (`refusals`), but not while a child asks again (`Forked`): the -1 of that
`pollset_add` is ignored, and the request would stay on the queue unasked for. The invariant (`Watching`) says that the counters are
those of the requests, and that `epoll` is asked for all that the requests wait for (`Covers`).
-/

namespace ToolLib.StateThreads

open Base

/-- `EPOLLERR | EPOLLHUP` -/
def errHup : Flags := {.pollerr, .pollhup}

/-- `struct _st_epolldata` -/
structure EpollSys where
  cnt : Flag × Int → Int
  revents : Int → Flags
  fdDataSize : Int
  evtlistSize : Int
  evtlistCnt : Int
  /-- `none` when `epoll_create` has failed -/
  epfd : Option (Interest Flag Int)
  pid : Nat
  /-- what `epoll_ctl` answers from now on -/
  refusals : Nat → Option Nat

namespace EpollSys

variable {ν : Type}

/-- What the system does in a dispatch: `getpid`, whether `epoll_create` and `realloc` succeed, and the events of `epoll_wait`. -/
structure Answer where
  pid : Nat
  create : Bool
  memory : Bool
  fired : List (Int × Flags)

/-- `fd_hint`, with `ST_EPOLL_EVTLIST_SIZE` -/
def fdHint (fdlim : Int) : Int := if 0 < fdlim ∧ fdlim < 4096 then fdlim else 4096

/-- `_st_epoll_init` -/
def init (fdlim : Int) (pid : Nat) (refusals : Nat → Option Nat) : EpollSys :=
  ⟨fun _ => 0, fun _ => ∅, fdHint fdlim, fdHint fdlim, 0, some Interest.empty, pid, refusals⟩

/-- `while (m >= n) n <<= 1;` -/
def doubled (m : Int) : Nat → Int → Int
  | 0, n => n
  | fuel + 1, n => if n ≤ m then doubled m fuel (2 * n) else n

/-- `_ST_EPOLL_EVENTS` -/
def epollEvents (s : EpollSys) (fd : Int) : Flags := (ioFlags.filter fun b => s.cnt (b, fd) ≠ 0).toFinset

/-- `fd_data[fd]` is in the array. -/
def Inside (s : EpollSys) (fd : Int) : Prop := 0 ≤ fd ∧ fd < s.fdDataSize

instance (s : EpollSys) (fd : Int) : Decidable (s.Inside fd) := inferInstanceAs (Decidable (_ ∧ _))

/-- `_st_epoll_fd_data_expand`, when `realloc` succeeds -/
def fdDataExpand (s : EpollSys) (maxfd : Int) : EpollSys :=
  { s with
    cnt := fun key => if s.fdDataSize ≤ key.2 then 0 else s.cnt key
    revents := fun fd => if s.fdDataSize ≤ fd then ∅ else s.revents fd
    fdDataSize := doubled maxfd (maxfd.toNat + 1) s.fdDataSize }

/-- `_st_epoll_evtlist_expand` -/
def evtlistExpand (memory : Bool) (s : EpollSys) : EpollSys :=
  if memory then { s with evtlistSize := doubled (s.evtlistCnt - 1) s.evtlistCnt.toNat s.evtlistSize } else s

def errno : CtlError → IoErrno
  | .present => .EEXIST
  | .absent => .ENOENT
  | .refused code => .other code

/-- `epoll_ctl` -/
def epollCtl (s : EpollSys) (op : CtlOp) (fd : Int) (events : Flags) : EpollSys × Option IoErrno :=
  match s.epfd with
  | none => ({ s with refusals := fun n => s.refusals (n + 1) }, some .EBADF)
  | some e =>
    let p := e.ctl (s.refusals 0) op fd events
    ({ s with epfd := some p.1, refusals := fun n => s.refusals (n + 1) }, p.2.map errno)

/-- `op = events ? EPOLL_CTL_MOD : EPOLL_CTL_DEL; …`: a descriptor is changed or deleted. -/
def modOrDel (s : EpollSys) (fd : Int) : EpollSys :=
  let events := s.epollEvents fd
  let op := if events ≠ ∅ then CtlOp.mod else CtlOp.del
  let p := s.epollCtl op fd events
  if p.2 = none ∧ op = .del then { p.1 with evtlistCnt := p.1.evtlistCnt - 1 } else p.1

/-- One turn of the loop of `_st_epoll_pollset_del` -/
def delOne (s : EpollSys) (pd : Pollfd) : Option EpollSys :=
  if s.Inside pd.fd then
    let oldEvents := s.epollEvents pd.fd
    let s := { s with cnt := forEvents lower s.cnt pd }
    some (if s.epollEvents pd.fd ≠ oldEvents ∧ s.revents pd.fd = ∅ then s.modOrDel pd.fd else s)
  else none

/-- `_st_epoll_pollset_del` -/
def pollsetDel (s : EpollSys) (pds : List Pollfd) : Option EpollSys := pds.foldlM delOne s

/-- The first loop of `_st_epoll_pollset_add`: do as many checks as possible up front. -/
def checks (memory : Bool) : List Pollfd → EpollSys → EpollSys × Option IoErrno
  | [], s => (s, none)
  | pd :: pds, s =>
    if pd.fd < 0 ∨ pd.events = ∅ ∨ ¬ pd.events ⊆ ioFlags.toFinset then (s, some .EINVAL)
    else if s.fdDataSize ≤ pd.fd then
      if memory then checks memory pds (s.fdDataExpand pd.fd) else (s, some .ENOMEM)
    else checks memory pds s

/-- One turn of the second loop -/
def addOne (memory : Bool) (s : EpollSys) (pd : Pollfd) : Option (EpollSys × Option IoErrno) :=
  if s.Inside pd.fd then
    let oldEvents := s.epollEvents pd.fd
    let s := { s with cnt := forEvents raise s.cnt pd }
    let events := s.epollEvents pd.fd
    if events = oldEvents then some (s, none)
    else
      let op := if oldEvents ≠ ∅ then CtlOp.mod else CtlOp.add
      let p := s.epollCtl op pd.fd events
      if p.2 ≠ none ∧ (op ≠ .add ∨ p.2 ≠ some .EEXIST) then some p
      else if op = .add then
        let s : EpollSys := { p.1 with evtlistCnt := p.1.evtlistCnt + 1 }
        some (if s.evtlistSize < s.evtlistCnt then s.evtlistExpand memory else s, none)
      else some (p.1, none)
  else none

/-- The second loop, up to the descriptor that is refused -/
def addFrom (memory : Bool) (i : Nat) : List Pollfd → EpollSys → Option (EpollSys × Option (Nat × IoErrno))
  | [], s => some (s, none)
  | pd :: pds, s => do
    let (s, e) ← s.addOne memory pd
    match e with
    | none => addFrom memory (i + 1) pds s
    | some e => some (s, some (i, e))

/-- `_st_epoll_pollset_add` -/
def pollsetAdd (memory : Bool) (s : EpollSys) (pds : List Pollfd) : Option (EpollSys × Option IoErrno) :=
  match s.checks memory pds with
  | (s, some e) => some (s, some e)
  | (s, none) => do
    let (s, e) ← addFrom memory 0 pds s
    match e with
    | none => some (s, none)
    | some (i, e) => do
      -- Unroll the state
      let s ← s.pollsetDel (pds.take (i + 1))
      some (s, some e)

/-- The child asks for everything again. -/
def reinit (answer : Answer) (s : EpollSys) (q : List (Pollq ν)) : Option EpollSys :=
  if s.pid = answer.pid then some s
  else
    q.foldlM (fun s pq => (s.pollsetAdd answer.memory pq.pds).map Prod.fst)
      { s with
        cnt := fun _ => 0
        revents := fun _ => ∅
        evtlistCnt := 0
        epfd := some Interest.empty
        pid := answer.pid }

/-- The first loop over the events -/
def mark (s : EpollSys) (ev : Int × Flags) : Option EpollSys :=
  if s.Inside ev.1 then
    -- Also set I/O bits on error
    some { s with revents := Function.update s.revents ev.1 (if ev.2 ∩ errHup ≠ ∅ then ev.2 ∪ s.epollEvents ev.1 else ev.2) }
  else none

/-- What is stored in `revents` of a request -/
def look (s : EpollSys) (pd : Pollfd) : Option Flags :=
  if s.Inside pd.fd then
    some (if s.revents pd.fd = ∅ then ∅ else StateThreads.revents (fun b => b ∈ s.revents pd.fd) pd ∪ (s.revents pd.fd ∩ errHup))
  else none

/-- The second loop over the events: delete or modify descriptors that fired. -/
def unmark (s : EpollSys) (ev : Int × Flags) : Option EpollSys :=
  if s.Inside ev.1 then some ({ s with revents := Function.update s.revents ev.1 ∅ }.modOrDel ev.1) else none

/-- `_st_epoll_dispatch` -/
def dispatch (s : EpollSys) (answer : Answer) (q : List (Pollq ν)) : Option (EpollSys × List (Pollq ν) × List (Pollq ν)) :=
  -- There is nothing we can do here, will retry later
  if s.pid ≠ answer.pid ∧ ¬ answer.create then some ({ s with epfd := none }, q, [])
  else do
    let s ← s.reinit answer q
    if answer.fired = [] then some (s, q, [])
    else do
      let s ← answer.fired.foldlM mark s
      let (s, left, woken) ← sweep look pollsetDel (fun s _ => some s) q s
      let s ← answer.fired.foldlM unmark s
      some (s, left, woken)

/-- `_st_epoll_fd_new` -/
def fdNew (memory : Bool) (s : EpollSys) (fd : Int) : EpollSys × Option IoErrno :=
  if s.fdDataSize ≤ fd then if memory then (s.fdDataExpand fd, none) else (s, some .ENOMEM) else (s, none)

/-- `_st_epoll_fd_close` -/
def fdClose (s : EpollSys) (fd : Int) : Option (Option IoErrno) :=
  if s.Inside fd then some (if ∃ b ∈ ioFlags, s.cnt (b, fd) ≠ 0 then some .EBUSY else none) else none

def ops : EventsysOps ν EpollSys Bool Answer where
  pollsetAdd memory s pds := s.pollsetAdd memory pds
  pollsetDel := pollsetDel
  dispatch answer s q := s.dispatch answer q
  fdNew := fdNew
  fdClose := fdClose

/-! ## The invariant -/

/-- **The invariant**: the counters say how often each key is held, and `epoll` is asked for what `base` asks for. The descriptors
in `stale` may be registered without anybody waiting for them. -/
structure Watching (s : EpollSys) (cur base : List (Flag × Int)) (stale : Int → Prop) : Prop where
  tallied : Tallied s.cnt cur
  keys : ∀ key ∈ cur, key.1 ∈ ioFlags ∧ s.Inside key.2
  kernel : ∀ e, s.epfd = some e → Covers ioFlags.toFinset e s.evtlistCnt cur base stale
  sizes : 0 < s.fdDataSize ∧ 0 < s.evtlistSize

/-- A descriptor that `pollset_add` takes, when the array is large enough. -/
def Valid (s : EpollSys) (pd : Pollfd) : Prop := s.Inside pd.fd ∧ pd.events ≠ ∅ ∧ pd.events ⊆ ioFlags.toFinset

/-- `epoll_ctl` refuses nothing any more. -/
def Quiet (s : EpollSys) : Prop := s.epfd.isSome ∧ ∀ n, s.refusals n = none

/-- What is left as it is when requests are taken back. -/
structure Less (s s' : EpollSys) : Prop where
  revents : s'.revents = s.revents
  fdDataSize : s'.fdDataSize = s.fdDataSize
  evtlistSize : s'.evtlistSize = s.evtlistSize
  evtlistCnt : s'.evtlistCnt ≤ s.evtlistCnt
  quiet : s.Quiet → s'.Quiet

/-- The arrays do not shrink, and they are large enough when there is memory. -/
structure Grown (memory : Bool) (s s' : EpollSys) : Prop where
  revents : (∀ fd, s.revents fd = ∅) → ∀ fd, s'.revents fd = ∅
  fdDataSize : s.fdDataSize ≤ s'.fdDataSize
  evtlistSize : s.evtlistSize ≤ s'.evtlistSize
  room : memory → s.evtlistCnt ≤ s.evtlistSize → s'.evtlistCnt ≤ s'.evtlistSize
  quiet : s.Quiet → s'.Quiet

/-- `epoll_ctl` refuses nothing in the next calls. -/
def Unrefused (n : Nat) (s : EpollSys) : Prop := s.epfd.isSome ∧ ∀ m < n, s.refusals m = none

variable {s s' : EpollSys} {cur base ks : List (Flag × Int)} {stale : Int → Prop} {q : List (Pollq ν)} {pds : List Pollfd}
  {pd : Pollfd} {fd : Int} {memory : Bool} {n : Nat}

/-- Nothing is stale between the calls. -/
abbrev fresh : Int → Prop := fun _ => False

theorem Less.refl (s : EpollSys) : Less s s := ⟨rfl, rfl, rfl, le_refl _, id⟩

theorem Less.trans {s'' : EpollSys} (h : Less s s') (h' : Less s' s'') : Less s s'' :=
  ⟨h'.revents.trans h.revents, h'.fdDataSize.trans h.fdDataSize, h'.evtlistSize.trans h.evtlistSize,
    h'.evtlistCnt.trans h.evtlistCnt,
    fun hq => h'.quiet (h.quiet hq)⟩

theorem Less.inside (h : Less s s') : s'.Inside fd ↔ s.Inside fd := by
  rw [Inside, Inside, h.fdDataSize]

theorem Grown.refl (memory : Bool) (s : EpollSys) : Grown memory s s := ⟨id, le_refl _, le_refl _, fun _ => id, id⟩

theorem Grown.trans {s'' : EpollSys} (h : Grown memory s s') (h' : Grown memory s' s'') : Grown memory s s'' :=
  ⟨fun hr => h'.revents (h.revents hr), h.fdDataSize.trans h'.fdDataSize, h.evtlistSize.trans h'.evtlistSize,
    fun hm hr => h'.room hm (h.room hm hr), fun hq => h'.quiet (h.quiet hq)⟩

theorem Less.grown (h : Less s s') : Grown memory s s' where
  revents hr fd := by rw [h.revents, hr fd]
  fdDataSize := h.fdDataSize.ge
  evtlistSize := h.evtlistSize.ge
  room _ hr := by
    have hcnt := h.evtlistCnt
    have hsize := h.evtlistSize
    omega
  quiet := h.quiet

theorem Grown.inside (h : Grown memory s s') (hfd : s.Inside fd) : s'.Inside fd := ⟨hfd.1, hfd.2.trans_le h.fdDataSize⟩

theorem Grown.valid (h : Grown memory s s') (hpd : s.Valid pd) : s'.Valid pd := ⟨h.inside hpd.1, hpd.2⟩

theorem Quiet.unrefused (h : s.Quiet) (n : Nat) : Unrefused n s := ⟨h.1, fun m _ => h.2 m⟩

theorem Unrefused.mono {m : Nat} (h : Unrefused n s) (hm : m ≤ n) : Unrefused m s := ⟨h.1, fun k hk => h.2 k (hk.trans_le hm)⟩

/-- What `epoll` is asked for is what the keys ask for. -/
theorem epollEvents_eq (ht : Tallied s.cnt cur) (hk : ∀ key ∈ cur, key.1 ∈ ioFlags ∧ s.Inside key.2) (fd : Int) :
    s.epollEvents fd = asked cur fd := by
  ext b
  simp only [epollEvents, List.mem_toFinset, List.mem_filter, decide_eq_true_eq, ht.ne_zero, mem_asked]
  exact ⟨And.right, fun hb => ⟨(hk _ hb).1, hb⟩⟩

theorem asked_subset_ioFlags (hk : ∀ key ∈ cur, key.1 ∈ ioFlags ∧ s.Inside key.2) (fd : Int) :
    asked cur fd ⊆ ioFlags.toFinset := by
  intro b hb
  exact List.mem_toFinset.2 (hk _ (mem_asked.1 hb)).1

/-- The order of the keys does not matter, less may be covered, and more may be stale. -/
theorem Watching.mono (h : Watching s cur base stale) {cur' base' : List (Flag × Int)} {stale' : Int → Prop} (hp : cur.Perm cur')
    (hbase : ∀ key ∈ base', key ∈ base) (hst : ∀ fd, stale fd → stale' fd) : Watching s cur' base' stale' where
  tallied := h.tallied.perm hp
  keys key hkey := h.keys key (hp.mem_iff.2 hkey)
  kernel e he := (h.kernel e he).mono hst (fun fd _ => by ext b; rw [mem_asked, mem_asked, hp.mem_iff]) fun _ => asked_subset hbase
  sizes := h.sizes

theorem mem_keysOf_snd {key : Flag × Int} (h : key ∈ keysOf pd) : key.1 ∈ ioFlags ∧ key.2 = pd.fd := by
  obtain ⟨b, fd⟩ := key
  obtain ⟨hb, -, hfd⟩ := mem_keysOf.1 h
  exact ⟨hb, hfd.symm⟩

/-- **A descriptor is changed or deleted.** The counters have been changed before. -/
theorem modOrDel_spec (fd : Int) {cur' : List (Flag × Int)} (ht : Tallied s.cnt cur')
    (hk : ∀ key ∈ cur', key.1 ∈ ioFlags ∧ s.Inside key.2)
    (hker : ∀ e, s.epfd = some e → Covers ioFlags.toFinset e s.evtlistCnt cur base stale)
    (hsizes : 0 < s.fdDataSize ∧ 0 < s.evtlistSize) (hcur : ∀ j, j ≠ fd → asked cur' j = asked cur j)
    (hbase : asked base fd ⊆ asked cur' fd) :
    Less s (s.modOrDel fd) ∧ Watching (s.modOrDel fd) cur' base fun j => stale j ∧ j ≠ fd := by
  dsimp only [modOrDel]
  rw [epollEvents_eq ht hk]
  generalize hop : (if asked cur' fd ≠ ∅ then CtlOp.mod else CtlOp.del) = op
  cases hepfd : s.epfd with
  | none =>
    simp only [epollCtl, hepfd]
    exact ⟨⟨rfl, rfl, rfl, le_refl _, fun hq => absurd (hepfd ▸ hq.1) (by simp)⟩, ht, hk, by simp, hsizes⟩
  | some e =>
    have hset := (hker e hepfd).settle (s.refusals 0) hcur hbase (asked_subset_ioFlags hk fd) hop.symm
    simp only [epollCtl, hepfd, Option.map_eq_none_iff]
    split
    · rename_i hdel
      rw [if_pos hdel] at hset
      refine ⟨⟨rfl, rfl, rfl, by dsimp only; omega, fun hq => ⟨rfl, fun n => hq.2 (n + 1)⟩⟩, ht, hk, ?_, hsizes⟩
      rintro e' ⟨⟩
      exact hset
    · rename_i hdel
      rw [if_neg hdel] at hset
      refine ⟨⟨rfl, rfl, rfl, le_refl _, fun hq => ⟨rfl, fun n => hq.2 (n + 1)⟩⟩, ht, hk, ?_, hsizes⟩
      rintro e' ⟨⟩
      exact hset

/-- **A descriptor is taken back.** -/
theorem delOne_spec (h : Watching s (keysOf pd ++ ks) base stale) (hbase : ∀ key ∈ base, key ∈ ks) (hin : s.Inside pd.fd)
    (hst : ∀ fd, s.revents fd ≠ ∅ → stale fd) : ∃ s', s.delOne pd = some s' ∧ Less s s' ∧ Watching s' ks base stale := by
  have hcur : ∀ j, j ≠ pd.fd → asked ks j = asked (keysOf pd ++ ks) j := fun j hj =>
    (asked_append_of_ne (fun key hkey => (mem_keysOf_snd hkey).2) hj).symm
  have ht : Tallied (forEvents lower s.cnt pd) ks := by
    rw [forEvents_eq]
    exact h.tallied.foldl_lower
  have hk : ∀ key ∈ ks, key.1 ∈ ioFlags ∧ s.Inside key.2 := fun key hkey => h.keys key (List.mem_append_right _ hkey)
  refine ⟨_, if_pos hin, ?_⟩
  split
  · obtain ⟨hless, hw⟩ := modOrDel_spec (s := { s with cnt := forEvents lower s.cnt pd }) pd.fd ht hk h.kernel h.sizes hcur
      (asked_subset hbase)
    exact ⟨⟨hless.revents, hless.fdDataSize, hless.evtlistSize, hless.evtlistCnt, hless.quiet⟩,
      hw.mono (List.Perm.refl _) (fun _ => id) fun _ => And.left⟩
  · rename_i hsame
    refine ⟨⟨rfl, rfl, rfl, le_refl _, id⟩, ht, hk, fun e he => ?_, h.sizes⟩
    refine (h.kernel e he).mono (fun _ => id) (fun j hj => ?_) fun _ => Finset.Subset.refl _
    by_cases hjfd : j = pd.fd
    · -- the events are the same
      subst hjfd
      have hr : s.revents pd.fd = ∅ := Classical.not_not.1 fun hne => hj (hst _ hne)
      have heq : ({ s with cnt := forEvents lower s.cnt pd } : EpollSys).epollEvents pd.fd = s.epollEvents pd.fd :=
        Classical.not_not.1 fun hne => hsame ⟨hne, hr⟩
      rwa [epollEvents_eq (s := { s with cnt := forEvents lower s.cnt pd }) ht hk, epollEvents_eq h.tallied h.keys] at heq
    · exact hcur j hjfd

/-- **`pollset_del`** -/
theorem pollsetDel_spec (h : Watching s (pds.flatMap keysOf ++ ks) base stale) (hbase : ∀ key ∈ base, key ∈ ks)
    (hin : ∀ pd ∈ pds, s.Inside pd.fd) (hst : ∀ fd, s.revents fd ≠ ∅ → stale fd) :
    ∃ s', s.pollsetDel pds = some s' ∧ Less s s' ∧ Watching s' ks base stale := by
  induction pds generalizing s with
  | nil => exact ⟨s, rfl, Less.refl s, h⟩
  | cons pd pds ih =>
    obtain ⟨hpd, hpds⟩ := List.forall_mem_cons.1 hin
    rw [List.flatMap_cons, List.append_assoc] at h
    obtain ⟨s₁, hs₁, hless, h₁⟩ := delOne_spec h (fun key hkey => List.mem_append_right _ (hbase key hkey)) hpd hst
    have hst₁ : ∀ fd, s₁.revents fd ≠ ∅ → stale fd := by
      intro fd hfd
      exact hst fd (by rwa [hless.revents] at hfd)
    obtain ⟨s', hs', hless', h'⟩ := ih h₁ (fun pd hpd => hless.inside.2 (hpds pd hpd)) hst₁
    refine ⟨s', ?_, hless.trans hless', h'⟩
    rw [pollsetDel, List.foldlM_cons, hs₁]
    exact hs'

/-! ## Requests are added -/

theorem le_doubled (m : Int) (fuel : Nat) {n : Int} (hn : 0 ≤ n) : n ≤ doubled m fuel n := by
  induction fuel generalizing n with
  | zero => exact le_refl n
  | succ fuel ih =>
    rw [doubled]
    split
    · exact le_trans (by omega) (ih (n := 2 * n) (by omega))
    · exact le_refl n

/-- The loop ends. -/
theorem lt_doubled (m : Int) (fuel : Nat) {n : Int} (hn : 0 < n) (hfuel : m < n + fuel) : m < doubled m fuel n := by
  induction fuel generalizing n with
  | zero =>
    rw [doubled]
    omega
  | succ fuel ih =>
    rw [doubled]
    split
    · exact ih (by omega) (by omega)
    · omega

/-- The array of descriptors gets larger: there are no keys of the new descriptors. -/
theorem fdDataExpand_spec (memory : Bool) (h : Watching s ks ks fresh) (hfd : 0 ≤ fd) :
    Grown memory s (s.fdDataExpand fd) ∧ Watching (s.fdDataExpand fd) ks ks fresh ∧ (s.fdDataExpand fd).Inside fd := by
  have hpos := h.sizes.1
  have hle := le_doubled fd (fd.toNat + 1) hpos.le
  have hlt := lt_doubled fd (fd.toNat + 1) hpos (by omega)
  refine ⟨⟨fun hr fd' => ?_, hle, le_refl _, fun _ => id, id⟩, ⟨fun key => ?_, fun key hkey => ?_, h.kernel, ?_⟩, hfd, hlt⟩
  · dsimp only [fdDataExpand]
    split
    · rfl
    · exact hr fd'
  · dsimp only [fdDataExpand]
    split
    · rename_i hkey
      have hno : key ∉ ks := fun hin => by
        have hin' := (h.keys key hin).2.2
        omega
      rw [← h.tallied key]
      exact (Classical.not_not.1 fun hne => hno (h.tallied.ne_zero.1 hne)).symm
    · exact h.tallied key
  · obtain ⟨hio, hin⟩ := h.keys key hkey
    exact ⟨hio, hin.1, hin.2.trans_le hle⟩
  · exact ⟨h.sizes.1.trans_le hle, h.sizes.2⟩

theorem evtlistExpand_spec (memory : Bool) (h : Watching s cur base stale) : Watching (s.evtlistExpand memory) cur base stale ∧
    (∀ fd, (s.evtlistExpand memory).revents fd = s.revents fd) ∧ (s.evtlistExpand memory).fdDataSize = s.fdDataSize ∧
    s.evtlistSize ≤ (s.evtlistExpand memory).evtlistSize ∧ (s.evtlistExpand memory).evtlistCnt = s.evtlistCnt ∧
    (memory → s.evtlistCnt ≤ (s.evtlistExpand memory).evtlistSize) ∧ (s.evtlistExpand memory).epfd = s.epfd ∧
    (s.evtlistExpand memory).refusals = s.refusals := by
  have hpos := h.sizes.2
  have hle := le_doubled (s.evtlistCnt - 1) s.evtlistCnt.toNat hpos.le
  have hlt := lt_doubled (s.evtlistCnt - 1) s.evtlistCnt.toNat hpos (by omega)
  rw [evtlistExpand]
  split
  · exact ⟨⟨h.tallied, h.keys, h.kernel, h.sizes.1, h.sizes.2.trans_le hle⟩, fun _ => rfl, rfl, hle, rfl, fun _ => by
      dsimp only
      omega, rfl, rfl⟩
  · exact ⟨h, fun _ => rfl, rfl, le_refl _, rfl, fun hm => absurd hm ‹_›, rfl, rfl⟩

/-- `epoll_ctl` for a descriptor with more events: it is asked for all of them, or it refuses. The counters have been changed
before. -/
theorem epollCtl_spec {cur' : List (Flag × Int)} {op : CtlOp}
    (hker : ∀ e, s.epfd = some e → Covers ioFlags.toFinset e s.evtlistCnt cur cur fresh)
    (hcur : ∀ j, j ≠ fd → asked cur' j = asked cur j) (hne : asked cur' fd ≠ ∅) (hio : asked cur' fd ⊆ ioFlags.toFinset)
    (hop : op = if asked cur fd ≠ ∅ then .mod else .add) :
    ∃ epfd e, s.epollCtl op fd (asked cur' fd) = ({ s with epfd := epfd, refusals := fun n => s.refusals (n + 1) }, e) ∧
      (e = none ∧ (∀ e, epfd = some e →
          Covers ioFlags.toFinset e (if op = .add then s.evtlistCnt + 1 else s.evtlistCnt) cur' cur' fresh) ∨
        (e ≠ none ∧ e ≠ some .EEXIST) ∧ ∀ e, epfd = some e → Covers ioFlags.toFinset e s.evtlistCnt cur' cur fresh) ∧
      (s.epfd.isSome → s.refusals 0 = none → e = none ∧ epfd.isSome) := by
  cases hepfd : s.epfd with
  | none =>
    simp only [epollCtl, hepfd]
    exact ⟨none, _, rfl, Or.inr ⟨by decide, by simp⟩, by simp⟩
  | some e =>
    simp only [epollCtl, hepfd]
    refine ⟨_, _, rfl, ?_⟩
    obtain ⟨hnone, hgrow⟩ | ⟨⟨code, hrefusal, hcode⟩, hkept⟩ := (hker e hepfd).grow (s.refusals 0) hcur hne hio hop
    · simp only [hnone, Option.map_none]
      refine ⟨Or.inl ⟨trivial, ?_⟩, fun _ _ => ⟨trivial, rfl⟩⟩
      rintro e' ⟨⟩
      exact hgrow
    · simp only [hcode, Option.map_some]
      refine ⟨Or.inr ⟨⟨by simp, by simp [errno]⟩, ?_⟩, fun _ hno => absurd (hno.symm.trans hrefusal) (by simp)⟩
      rintro e' ⟨⟩
      exact hkept

/-- **A descriptor is added**, or `epoll_ctl` refuses it. -/
theorem addOne_spec (memory : Bool) (h : Watching s ks ks fresh) (hpd : s.Inside pd.fd) :
    ∃ s' e, s.addOne memory pd = some (s', e) ∧ Grown memory s s' ∧
      (e = none ∧ Watching s' (keysOf pd ++ ks) (keysOf pd ++ ks) fresh ∨ e ≠ none ∧ Watching s' (keysOf pd ++ ks) ks fresh) ∧
      ∀ n, Unrefused (n + 1) s → e = none ∧ Unrefused n s' := by
  have hcur : ∀ j, j ≠ pd.fd → asked (keysOf pd ++ ks) j = asked ks j := fun j hj =>
    asked_append_of_ne (fun key hkey => (mem_keysOf_snd hkey).2) hj
  have hsub : asked ks pd.fd ⊆ asked (keysOf pd ++ ks) pd.fd := asked_subset fun _ => List.mem_append_right _
  have ht : Tallied (forEvents raise s.cnt pd) (keysOf pd ++ ks) := by
    rw [forEvents_eq]
    exact h.tallied.foldl_raise
  have hk : ∀ key ∈ keysOf pd ++ ks, key.1 ∈ ioFlags ∧ s.Inside key.2 := by
    intro key hkey
    obtain hkey | hkey := List.mem_append.1 hkey
    · obtain ⟨hio, hfd⟩ := mem_keysOf_snd hkey
      exact ⟨hio, hfd ▸ hpd⟩
    · exact h.keys key hkey
  rw [addOne, if_pos hpd]
  dsimp only
  rw [epollEvents_eq h.tallied h.keys, epollEvents_eq (s := { s with cnt := forEvents raise s.cnt pd }) ht hk]
  split
  · -- the events have been asked for before
    rename_i hsame
    refine ⟨_, _, rfl, ⟨id, le_refl _, le_refl _, fun _ => id, id⟩, Or.inl ⟨rfl, ht, hk, fun e he => ?_, h.sizes⟩,
      fun n hn => ⟨rfl, hn.mono (Nat.le_succ n)⟩⟩
    have hall : ∀ j, asked (keysOf pd ++ ks) j = asked ks j := fun j => by
      by_cases hj : j = pd.fd
      · exact hj ▸ hsame
      · exact hcur j hj
    exact (h.kernel e he).mono (fun _ => id) (fun j _ => hall j) fun j => (hall j).subset
  · rename_i hdiff
    have hne : asked (keysOf pd ++ ks) pd.fd ≠ ∅ := by
      intro h0
      exact hdiff (h0.trans (Finset.subset_empty.1 (h0 ▸ hsub)).symm)
    generalize hop : (if asked ks pd.fd ≠ ∅ then CtlOp.mod else CtlOp.add) = op
    obtain ⟨epfd, e, hctl, hcases, hno⟩ := epollCtl_spec (s := { s with cnt := forEvents raise s.cnt pd }) h.kernel hcur hne
      (asked_subset_ioFlags (s := s) hk pd.fd) hop.symm
    rw [hctl]
    dsimp only
    have hrefused : ∀ n, Unrefused (n + 1) s → e = none ∧ epfd.isSome ∧ ∀ m < n, s.refusals (m + 1) = none := by
      intro n hn
      obtain ⟨he, hsome⟩ := hno hn.1 (hn.2 0 (Nat.succ_pos n))
      exact ⟨he, hsome, fun m hm => hn.2 (m + 1) (Nat.succ_lt_succ hm)⟩
    have hquiet : s.Quiet → epfd.isSome ∧ ∀ n, s.refusals (n + 1) = none := by
      intro hq
      exact ⟨(hno hq.1 (hq.2 0)).2, fun n => hq.2 (n + 1)⟩
    obtain ⟨rfl, hker⟩ | ⟨he, hker⟩ := hcases
    · rw [if_neg (by simp)]
      split
      · rename_i hadd
        rw [if_pos hadd] at hker
        have hw : Watching { s with
            cnt := forEvents raise s.cnt pd, evtlistCnt := s.evtlistCnt + 1, epfd := epfd, refusals := fun n => s.refusals (n + 1) }
            (keysOf pd ++ ks) (keysOf pd ++ ks) fresh := ⟨ht, hk, hker, h.sizes⟩
        split
        · obtain ⟨hw', hr, hsize, hevt, hcnt, hroom, hep, href⟩ := evtlistExpand_spec memory hw
          refine ⟨_, _, rfl, ⟨fun h0 fd => (hr fd).trans (h0 fd), hsize.ge, hevt, fun hm _ => hcnt ▸ hroom hm, fun hq => ?_⟩,
            Or.inl ⟨rfl, hw'⟩, ?_⟩
          · rw [Quiet, hep, href]
            exact hquiet hq
          intro n hn
          obtain ⟨-, hsome, hm⟩ := hrefused n hn
          exact ⟨rfl, hep ▸ hsome, fun m hmn => by rw [href]; exact hm m hmn⟩
        · refine ⟨_, _, rfl, ⟨id, le_refl _, le_refl _, fun _ _ => ?_, hquiet⟩, Or.inl ⟨rfl, hw⟩,
            fun n hn => ⟨rfl, (hrefused n hn).2⟩⟩
          dsimp only
          omega
      · rename_i hadd
        rw [if_neg hadd] at hker
        exact ⟨_, _, rfl, ⟨id, le_refl _, le_refl _, fun _ => id, hquiet⟩, Or.inl ⟨rfl, ht, hk, hker, h.sizes⟩,
          fun n hn => ⟨rfl, (hrefused n hn).2⟩⟩
    · rw [if_pos ⟨he.1, Or.inr he.2⟩]
      exact ⟨_, _, rfl, ⟨id, le_refl _, le_refl _, fun _ => id, hquiet⟩, Or.inr ⟨he.1, ht, hk, hker, h.sizes⟩, hrefused⟩

/-- The checks leave the counters as they are. -/
theorem checks_spec (memory : Bool) (pds : List Pollfd) (h : Watching s ks ks fresh) :
    ∃ s' e, s.checks memory pds = (s', e) ∧ Grown memory s s' ∧ Watching s' ks ks fresh ∧ (e = none → ∀ pd ∈ pds, s'.Valid pd) ∧
      ((∀ pd ∈ pds, s.Valid pd) → s' = s ∧ e = none) := by
  induction pds generalizing s with
  | nil => exact ⟨s, none, rfl, Grown.refl memory s, h, by simp, fun _ => ⟨rfl, rfl⟩⟩
  | cons pd pds ih =>
    rw [checks]
    split
    · rename_i hbad
      refine ⟨s, _, rfl, Grown.refl memory s, h, by simp, fun hall => ?_⟩
      obtain ⟨⟨hnonneg, -⟩, hne, hio⟩ := hall pd List.mem_cons_self
      obtain hfd | hev | hev := hbad
      · omega
      · exact absurd hev hne
      · exact absurd hio hev
    · rename_i hgood
      rw [not_or, not_or, not_lt, not_not] at hgood
      obtain ⟨hnonneg, hev⟩ := hgood
      split
      · rename_i hsize
        have hnot : ¬ ∀ pd' ∈ pd :: pds, s.Valid pd' := fun hall => by
          have hlt := (hall pd List.mem_cons_self).1.2
          omega
        split
        · obtain ⟨hgrown, hw, hin⟩ := fdDataExpand_spec memory h hnonneg
          obtain ⟨s', e, hs', hgrown', hw', hvalid, -⟩ := ih hw
          refine ⟨s', e, hs', hgrown.trans hgrown', hw', fun he => ?_, fun hall => absurd hall hnot⟩
          exact List.forall_mem_cons.2 ⟨hgrown'.valid ⟨hin, hev⟩, hvalid he⟩
        · exact ⟨s, _, rfl, Grown.refl memory s, h, by simp, fun hall => absurd hall hnot⟩
      · obtain ⟨s', e, hs', hgrown', hw', hvalid, hsame⟩ := ih h
        refine ⟨s', e, hs', hgrown', hw', fun he => ?_, fun hall => hsame fun pd' hpd' => hall pd' (List.mem_cons_of_mem _ hpd')⟩
        exact List.forall_mem_cons.2 ⟨hgrown'.valid ⟨⟨hnonneg, by omega⟩, hev⟩, hvalid he⟩

/-- The checks find nothing wrong when there is memory. -/
theorem checks_good (hgood : ∀ pd ∈ pds, 0 ≤ pd.fd ∧ pd.events ≠ ∅ ∧ pd.events ⊆ ioFlags.toFinset) :
    (s.checks true pds).2 = none := by
  induction pds generalizing s with
  | nil => rfl
  | cons pd pds ih =>
    obtain ⟨⟨hfd, hne, hio⟩, hpds⟩ := List.forall_mem_cons.1 hgood
    rw [checks, if_neg (by simp [hne, hio, hfd]), if_pos rfl]
    split
    · exact ih hpds
    · exact ih hpds

/-- **Descriptors are added**, up to the one that `epoll_ctl` refuses. -/
theorem addFrom_spec (memory : Bool) (i : Nat) (h : Watching s ks ks fresh) (hpds : ∀ pd ∈ pds, s.Inside pd.fd) :
    ∃ s' e, addFrom memory i pds s = some (s', e) ∧ Grown memory s s' ∧
      (e = none ∧ Watching s' (pds.flatMap keysOf ++ ks) (pds.flatMap keysOf ++ ks) fresh ∨
        ∃ m err, e = some (i + m, err) ∧ Watching s' ((pds.take (m + 1)).flatMap keysOf ++ ks) ks fresh) ∧
      ∀ n, Unrefused (n + pds.length) s → e = none ∧ Unrefused n s' := by
  induction pds generalizing s ks i with
  | nil => exact ⟨s, none, rfl, Grown.refl memory s, Or.inl ⟨rfl, h⟩, fun n hn => ⟨rfl, hn⟩⟩
  | cons pd pds ih =>
    obtain ⟨hpd, hpds⟩ := List.forall_mem_cons.1 hpds
    obtain ⟨s₁, e₁, hs₁, hgrown₁, hcases, hno₁⟩ := addOne_spec memory h hpd
    rw [addFrom, hs₁, Option.bind_eq_bind, Option.bind_some]
    obtain ⟨rfl, h₁⟩ | ⟨he₁, h₁⟩ := hcases
    · obtain ⟨s', e, hs', hgrown, hcases, hno⟩ := ih (i + 1) h₁ fun pd' hpd' => hgrown₁.inside (hpds pd' hpd')
      -- the keys in the order in which they have been taken
      have hperm : ∀ l : List Pollfd, (l.flatMap keysOf ++ (keysOf pd ++ ks)).Perm ((pd :: l).flatMap keysOf ++ ks) := fun l => by
        rw [List.flatMap_cons, List.append_assoc]
        exact List.perm_append_comm_assoc ..
      refine ⟨s', e, hs', hgrown₁.trans hgrown, ?_,
        fun n hn => hno n (hno₁ _ (by rwa [List.length_cons, ← Nat.add_assoc] at hn)).2⟩
      obtain ⟨he, hw⟩ | ⟨m, err, he, hw⟩ := hcases
      · exact Or.inl ⟨he, hw.mono (hperm pds) (fun key hkey => (hperm pds).mem_iff.2 hkey) fun _ => id⟩
      · refine Or.inr ⟨m + 1, err, by rw [he]; simp; omega, ?_⟩
        rw [List.take_succ_cons]
        exact hw.mono (hperm _) (fun key hkey => List.mem_append_right _ hkey) fun _ => id
    · obtain ⟨err, rfl⟩ := Option.ne_none_iff_exists'.1 he₁
      refine ⟨s₁, some (i, err), rfl, hgrown₁, Or.inr ⟨0, err, rfl, by simpa using h₁⟩, fun n hn => ?_⟩
      obtain ⟨hnone, -⟩ := hno₁ (n + pds.length) (by rwa [List.length_cons, ← Nat.add_assoc] at hn)
      simp at hnone

/-- **`pollset_add`**: all descriptors are added, or none of them. -/
theorem pollsetAdd_spec (memory : Bool) (pds : List Pollfd) (h : Watching s ks ks fresh) (hr : ∀ fd, s.revents fd = ∅) :
    ∃ s' e, s.pollsetAdd memory pds = some (s', e) ∧ Grown memory s s' ∧
      (e = none ∧ Watching s' (pds.flatMap keysOf ++ ks) (pds.flatMap keysOf ++ ks) fresh ∧ (∀ pd ∈ pds, s'.Valid pd) ∨
        e ≠ none ∧ Watching s' ks ks fresh) ∧
      ((∀ pd ∈ pds, s.Valid pd) → ∀ n, Unrefused (n + pds.length) s → e = none ∧ Unrefused n s') := by
  obtain ⟨s₁, e₁, hs₁, hgrown₁, hw₁, hvalid, hsame⟩ := checks_spec memory pds h
  rw [pollsetAdd, hs₁]
  cases e₁ with
  | some err => exact ⟨s₁, some err, rfl, hgrown₁, Or.inr ⟨by simp, hw₁⟩, fun hall => absurd (hsame hall).2 (by simp)⟩
  | none =>
    obtain ⟨s₂, e₂, hs₂, hgrown₂, hcases, hno⟩ := addFrom_spec memory 0 hw₁ fun pd hpd => (hvalid rfl pd hpd).1
    have hunrefused : (∀ pd ∈ pds, s.Valid pd) → ∀ n, Unrefused (n + pds.length) s → e₂ = none ∧ Unrefused n s₂ :=
      fun hall n hn =>
      hno n (by rwa [(hsame hall).1])
    dsimp only
    rw [hs₂, Option.bind_eq_bind, Option.bind_some]
    obtain ⟨rfl, hw₂⟩ | ⟨m, err, rfl, hw₂⟩ := hcases
    · exact ⟨s₂, none, rfl, hgrown₁.trans hgrown₂, Or.inl ⟨rfl, hw₂, fun pd hpd => hgrown₂.valid (hvalid rfl pd hpd)⟩,
        fun hall n hn => ⟨rfl, (hunrefused hall n hn).2⟩⟩
    · -- the requests are taken back
      rw [Nat.zero_add]
      obtain ⟨s', hs', hless, hw'⟩ := pollsetDel_spec hw₂ (fun _ => id)
        (fun pd hpd => hgrown₂.inside (hvalid rfl pd (List.mem_of_mem_take hpd)).1)
        fun fd hfd => hfd (hgrown₂.revents (hgrown₁.revents hr) fd)
      refine ⟨s', some err, ?_, (hgrown₁.trans hgrown₂).trans hless.grown, Or.inr ⟨by simp, hw'⟩, fun hall n hn => ?_⟩
      · dsimp only
        rw [hs']
        rfl
      · exact absurd (hunrefused hall n hn).1 (by simp)

/-- Nothing is refused when there is memory and `epoll_ctl` refuses nothing. -/
theorem pollsetAdd_good (h : Watching s ks ks fresh) (hq : s.Quiet)
    (hgood : ∀ pd ∈ pds, 0 ≤ pd.fd ∧ pd.events ≠ ∅ ∧ pd.events ⊆ ioFlags.toFinset) :
    ∃ s', s.pollsetAdd true pds = some (s', none) := by
  obtain ⟨s₁, e₁, hs₁, hgrown, hw, hvalid, -⟩ := checks_spec true pds h
  have he₁ : e₁ = none := by
    have hgood' := checks_good (s := s) hgood
    rwa [hs₁] at hgood'
  subst he₁
  obtain ⟨s₂, e₂, hs₂, -, -, hno⟩ := addFrom_spec true 0 hw fun pd hpd => (hvalid rfl pd hpd).1
  obtain ⟨rfl, -⟩ := hno 0 ((hgrown.quiet hq).unrefused _)
  refine ⟨s₂, ?_⟩
  rw [pollsetAdd, hs₁]
  dsimp only
  rw [hs₂]
  rfl

/-! ## Dispatch -/

/-- The child asks for all requests on the io queue. -/
theorem foldlM_reinit (memory : Bool) (kept : List (Pollq ν)) (h : Watching s (keys kept) (keys kept) fresh)
    (hr : ∀ fd, s.revents fd = ∅) (hvalid : ∀ pq ∈ q, ∀ pd ∈ pq.pds, s.Valid pd) (hno : Unrefused (q.flatMap Pollq.pds).length s) :
    ∃ s', q.foldlM (fun s pq => (s.pollsetAdd memory pq.pds).map Prod.fst) s = some s' ∧ Grown memory s s' ∧
      Watching s' (keys (kept ++ q)) (keys (kept ++ q)) fresh ∧ s'.epfd.isSome := by
  induction q generalizing s kept with
  | nil => exact ⟨s, rfl, Grown.refl memory s, by rwa [List.append_nil], hno.1⟩
  | cons pq q ih =>
    obtain ⟨hpq, hq⟩ := List.forall_mem_cons.1 hvalid
    obtain ⟨s₁, e₁, hs₁, hgrown₁, hcases, hno₁⟩ := pollsetAdd_spec memory pq.pds h hr
    rw [List.flatMap_cons, List.length_append, Nat.add_comm] at hno
    obtain ⟨rfl, hno⟩ := hno₁ hpq _ hno
    obtain ⟨-, hw₁, -⟩ | ⟨hne, -⟩ := hcases
    · have hperm := (keys_concat pq kept).symm
      obtain ⟨s', hs', hgrown, hw, hsome⟩ := ih (kept ++ [pq]) (hw₁.mono hperm (fun key => hperm.mem_iff.2) fun _ => id)
        (hgrown₁.revents hr) (fun pq' hpq' pd hpd => hgrown₁.valid (hq pq' hpq' pd hpd)) hno
      refine ⟨s', ?_, hgrown₁.trans hgrown, by rwa [List.append_assoc] at hw, hsome⟩
      rw [List.foldlM_cons, hs₁]
      exact hs'
    · exact absurd rfl hne

/-- What `epoll_wait` may report: events of different descriptors, each one registered, and of those what it has been asked for and
errors. -/
structure Reported (e : Interest Flag Int) (fired : List (Int × Flags)) : Prop where
  nodup : (fired.map Prod.fst).Nodup
  members : ∀ ev ∈ fired, ev.1 ∈ e.members
  events : ∀ ev ∈ fired, ev.2 ≠ ∅ ∧ ev.2 ⊆ e.events ev.1 ∪ errHup

instance (e : Interest Flag Int) (fired : List (Int × Flags)) : Decidable (Reported e fired) :=
  decidable_of_iff ((fired.map Prod.fst).Nodup ∧ (∀ ev ∈ fired, ev.1 ∈ e.members) ∧
    ∀ ev ∈ fired, ev.2 ≠ ∅ ∧ ev.2 ⊆ e.events ev.1 ∪ errHup) ⟨fun ⟨h, h', h''⟩ => ⟨h, h', h''⟩, fun ⟨h, h', h''⟩ => ⟨h, h', h''⟩⟩

/-- What the kernel has reported of a descriptor, when one that has failed counts as ready. -/
def firedAt (fired : List (Int × Flags)) (fd : Int) : Flags :=
  (fired.lookup fd).elim ∅ fun ev => if ev ∩ errHup ≠ ∅ then ev ∪ ioFlags.toFinset else ev

/-- The events that are stored in the first loop. -/
def marked (s : EpollSys) (fd : Int) (ev : Flags) : Flags := if ev ∩ errHup ≠ ∅ then ev ∪ s.epollEvents fd else ev

theorem foldlM_mark {fired : List (Int × Flags)} (hnodup : (fired.map Prod.fst).Nodup) (hin : ∀ ev ∈ fired, s.Inside ev.1) :
    fired.foldlM mark s = some { s with revents := fun fd => (fired.lookup fd).elim (s.revents fd) (s.marked fd) } := by
  induction fired generalizing s with
  | nil => rfl
  | cons ev fired ih =>
    obtain ⟨hev, hin⟩ := List.forall_mem_cons.1 hin
    rw [List.map_cons, List.nodup_cons] at hnodup
    rw [List.foldlM_cons, mark, if_pos hev, Option.bind_eq_bind, Option.bind_some]
    refine (ih (s := { s with revents := Function.update s.revents ev.1 (s.marked ev.1 ev.2) }) hnodup.2 hin).trans ?_
    congr 2
    funext fd
    obtain ⟨fd', r⟩ := ev
    rw [List.lookup_cons]
    by_cases hfd : fd = fd'
    · subst hfd
      have hnone : fired.lookup fd = none := List.lookup_eq_none_iff.2 fun p hp => by
        simp only [bne_iff_ne]
        exact fun heq => hnodup.1 (List.mem_map.2 ⟨p, hp, heq.symm⟩)
      rw [hnone, beq_self_eq_true]
      exact Function.update_self ..
    · rw [beq_false_of_ne hfd]
      dsimp only
      rw [Function.update_of_ne hfd]
      rfl

/-- **Descriptors that fired** are changed or deleted. -/
theorem foldlM_unmark {fired : List (Int × Flags)} (hin : ∀ ev ∈ fired, s.Inside ev.1)
    (h : Watching s ks ks fun fd => ∃ ev ∈ fired, ev.1 = fd) (hr : ∀ fd, s.revents fd ≠ ∅ → ∃ ev ∈ fired, ev.1 = fd) :
    ∃ s', fired.foldlM unmark s = some s' ∧ Less { s with revents := fun _ => ∅ } s' ∧ Watching s' ks ks fresh := by
  induction fired generalizing s with
  | nil =>
    refine ⟨s, rfl, ⟨funext fun fd => ?_, rfl, rfl, le_refl _, id⟩, h.mono (List.Perm.refl _) (fun _ => id) (by simp)⟩
    exact Classical.not_not.1 fun hne => by simpa using hr fd hne
  | cons ev fired ih =>
    obtain ⟨hev, hin⟩ := List.forall_mem_cons.1 hin
    obtain ⟨hless, hw⟩ := modOrDel_spec (s := { s with revents := Function.update s.revents ev.1 ∅ }) ev.1 h.tallied h.keys
      h.kernel h.sizes (fun _ _ => rfl) (Finset.Subset.refl _)
    -- what is left to be done
    have hleft : ∀ fd, (∃ ev' ∈ ev :: fired, ev'.1 = fd) → fd ≠ ev.1 → ∃ ev' ∈ fired, ev'.1 = fd := by
      rintro fd ⟨ev', hev', rfl⟩ hne
      obtain rfl | hev' := List.mem_cons.1 hev'
      · exact absurd rfl hne
      · exact ⟨ev', hev', rfl⟩
    obtain ⟨s', hs', hless', hw'⟩ := ih (fun ev' hev' => hless.inside.2 (hin ev' hev'))
      (hw.mono (List.Perm.refl _) (fun _ => id) fun fd hfd => hleft fd hfd.1 hfd.2) (by
        intro fd hfd
        rw [hless.revents] at hfd
        dsimp only at hfd
        rw [Function.update_apply] at hfd
        split at hfd
        · exact absurd rfl hfd
        · exact hleft fd (hr fd hfd) ‹_›)
    refine ⟨s', ?_, ⟨hless'.revents, hless'.fdDataSize.trans hless.fdDataSize, hless'.evtlistSize.trans hless.evtlistSize,
      hless'.evtlistCnt.trans hless.evtlistCnt, fun hq => hless'.quiet (hless.quiet hq)⟩, hw'⟩
    rw [List.foldlM_cons, unmark, if_pos hev]
    exact hs'

/-- What is stored in `revents` of a request is what the kernel has reported. -/
theorem look_eq {t : EpollSys} {fired : List (Int × Flags)} (hpd : s.Valid pd)
    (hr : s.revents pd.fd = (fired.lookup pd.fd).elim ∅ (t.marked pd.fd)) (hev : pd.events ⊆ t.epollEvents pd.fd)
    (hio : t.epollEvents pd.fd ⊆ ioFlags.toFinset)
    (hfired : ∀ ev, fired.lookup pd.fd = some ev → ev ≠ ∅ ∧ ev ⊆ ioFlags.toFinset ∪ errHup) :
    s.look pd = some (report (firedAt fired) pd) := by
  rw [look, if_pos hpd.1]
  cases hlookup : fired.lookup pd.fd with
  | none =>
    rw [hlookup, Option.elim_none] at hr
    rw [if_pos hr, report, firedAt, hlookup, Option.elim_none, Finset.empty_inter]
  | some ev =>
    obtain ⟨hne, hsub⟩ := hfired ev hlookup
    rw [hlookup, Option.elim_some, marked] at hr
    have hmarked : s.revents pd.fd ≠ ∅ := by
      obtain ⟨b, hb⟩ := Finset.nonempty_iff_ne_empty.2 hne
      rw [hr]
      split
      · exact Finset.ne_empty_of_mem (Finset.mem_union_left _ hb)
      · exact hne
    rw [if_neg hmarked, report, firedAt, hlookup, Option.elim_some]
    congr 1
    ext b
    have hb₁ : b ∈ pd.events → b ∈ ioFlags := fun hb => List.mem_toFinset.1 (hpd.2.2 hb)
    have hb₂ : b ∈ pd.events → b ∈ t.epollEvents pd.fd := fun hb => hev hb
    have hb₃ : b ∈ t.epollEvents pd.fd → b ∈ ioFlags := fun hb => List.mem_toFinset.1 (hio hb)
    have hb₄ : b ∈ ioFlags → b ∉ errorFlags := not_mem_errorFlags
    have hb₅ : b ∈ errHup → b ∈ errorFlags := fun hb => Finset.mem_of_subset (by decide) hb
    have hb₆ : b ∈ ev → b ∈ ioFlags ∨ b ∈ errHup := fun hb => by simpa using hsub hb
    split at hr
    · simp only [StateThreads.revents, hr, if_pos ‹ev ∩ errHup ≠ ∅›, Finset.mem_union, Finset.mem_inter, List.mem_toFinset,
        List.mem_filter, decide_eq_true_eq]
      tauto
    · simp only [StateThreads.revents, hr, if_neg ‹¬ ev ∩ errHup ≠ ∅›, Finset.mem_union, Finset.mem_inter, List.mem_toFinset,
        List.mem_filter, decide_eq_true_eq]
      tauto

/-- The counters are those of the requests, and `epoll` is asked for what they wait for; when there is always memory, all registered
descriptors fit in one report. -/
structure Sound (ample : Prop) (s : EpollSys) (q : List (Pollq ν)) : Prop where
  watching : Watching s (keys q) (keys q) fresh
  revents : ∀ fd, s.revents fd = ∅
  valid : ∀ pq ∈ q, ∀ pd ∈ pq.pds, s.Valid pd
  room : ample → s.evtlistCnt ≤ s.evtlistSize

theorem Sound.grown {ample : Prop} (h : Sound ample s q) (hg : Grown memory s s') (hm : ample → memory)
    (hw : Watching s' (keys q) (keys q) fresh) : Sound ample s' q :=
  ⟨hw, hg.revents h.revents, fun pq hpq pd hpd => hg.valid (h.valid pq hpq pd hpd), fun ha => hg.room (hm ha) (h.room ha)⟩

/-- **The requests of a dispatch with events.** -/
theorem fired_spec {ample : Prop} (h : Sound ample s q) {fired : List (Int × Flags)} {e : Interest Flag Int} (he : s.epfd = some e)
    (hfired : Reported e fired) :
    ∃ s₁ s₂ s', fired.foldlM mark s = some s₁ ∧
      sweep look pollsetDel (fun s _ => some s) q s₁ = some (s₂, (q.filter fun pq => ¬ HasEvents (firedAt fired) pq).map
        (reported (firedAt fired)), (q.filter fun pq => HasEvents (firedAt fired) pq).map (reported (firedAt fired))) ∧
      fired.foldlM unmark s₂ = some s' ∧
      Sound ample s' ((q.filter fun pq => ¬ HasEvents (firedAt fired) pq).map (reported (firedAt fired))) ∧
      (s.Quiet → s'.Quiet) := by
  have hker := h.watching.kernel e he
  have hinside : ∀ ev ∈ fired, s.Inside ev.1 := by
    intro ev hev
    obtain ⟨b, hb⟩ := Finset.nonempty_iff_ne_empty.2 (hker.wanted ev.1 (hfired.members ev hev) not_false)
    exact (h.watching.keys _ (mem_asked.1 hb)).2
  have hlookup : ∀ fd ev, fired.lookup fd = some ev → (fd, ev) ∈ fired := fun fd ev hfd => by
    obtain ⟨l, r, rfl, -⟩ := List.lookup_eq_some_iff.1 hfd
    simp
  have hs₁ := foldlM_mark hfired.nodup hinside
  simp only [h.revents] at hs₁
  let s₁ : EpollSys := { s with revents := fun fd => (fired.lookup fd).elim ∅ (s.marked fd) }
  have hstale : ∀ fd, s₁.revents fd ≠ ∅ → ∃ ev ∈ fired, ev.1 = fd := by
    intro fd hfd
    cases hl : fired.lookup fd with
    | none => exact absurd (by dsimp only [s₁]; rw [hl]; rfl) hfd
    | some ev => exact ⟨(fd, ev), hlookup fd ev hl, rfl⟩
  have hlook : ∀ s₂, Less s₁ s₂ → ∀ pq ∈ q, ∀ pd ∈ pq.pds, s₂.look pd = some (report (firedAt fired) pd) := by
    intro s₂ hless pq hpq pd hpd
    have hvalid := h.valid pq hpq pd hpd
    apply look_eq (t := s) ⟨hless.inside.2 hvalid.1, hvalid.2⟩
    · rw [hless.revents]
    · intro b hb
      rw [epollEvents_eq h.watching.tallied h.watching.keys, mem_asked]
      exact List.mem_flatMap.2 ⟨pq, hpq, List.mem_flatMap.2 ⟨pd, hpd, mem_keysOf.2 ⟨List.mem_toFinset.1 (hvalid.2.2 hb), hb, rfl⟩⟩⟩
    · rw [epollEvents_eq h.watching.tallied h.watching.keys]
      exact asked_subset_ioFlags h.watching.keys pd.fd
    · intro ev hev
      have hmem := hlookup pd.fd ev hev
      obtain ⟨hne, hsub⟩ := hfired.events _ hmem
      exact ⟨hne, hsub.trans (Finset.union_subset_union (hker.bound _ (hfired.members _ hmem)) (Finset.Subset.refl _))⟩
  have hw₁ : Watching s₁ (keys q) (keys q) fun fd => ∃ ev ∈ fired, ev.1 = fd :=
    ⟨h.watching.tallied, h.watching.keys, fun e he => (h.watching.kernel e he).mono (fun _ => False.elim) (fun _ _ => rfl)
      fun _ => Finset.Subset.refl _, h.watching.sizes⟩
  obtain ⟨s₂, hs₂, hless₂, hw₂, hvalid₂, -⟩ := sweep_eq look pollsetDel (fun s _ => some s) (firedAt fired)
    (fun s₂ kept rest => Less s₁ s₂ ∧
      Watching s₂ (keys (kept ++ rest)) (keys (kept ++ rest)) (fun fd => ∃ ev ∈ fired, ev.1 = fd) ∧
      (∀ pq ∈ kept ++ rest, ∀ pd ∈ pq.pds, s₁.Valid pd) ∧ ∀ pq ∈ rest, pq ∈ q)
    (fun s₂ kept pq rest ⟨hless, _, _, hmem⟩ pd hpd => hlook s₂ hless pq (hmem pq List.mem_cons_self) pd hpd)
    (by
      rintro s₂ kept pq rest ⟨hless, hw, hvalid, hmem⟩ -
      have hperm : (keys (kept ++ pq :: rest)).Perm ((reported (firedAt fired) pq).pds.flatMap keysOf ++ keys (kept ++ rest)) := by
        rw [flatMap_reported]
        exact keys_append_cons pq kept rest
      have hw' : Watching s₂ ((reported (firedAt fired) pq).pds.flatMap keysOf ++ keys (kept ++ rest)) (keys (kept ++ rest))
          (fun fd => ∃ ev ∈ fired, ev.1 = fd) :=
        hw.mono hperm (fun key hkey => hperm.mem_iff.2 (List.mem_append_right _ hkey)) fun _ => id
      obtain ⟨s₃, hs₃, hless₃, hw₃⟩ := pollsetDel_spec hw' (fun _ => id) (fun pd hpd => by
          obtain ⟨pd₀, hpd₀, rfl⟩ := List.mem_map.1 hpd
          exact hless.inside.2 (hvalid pq (by simp) pd₀ hpd₀).1)
        fun fd hfd => hstale fd (by rwa [hless.revents] at hfd)
      refine ⟨s₃, hs₃, hless.trans hless₃, hw₃, fun pq' hpq' => hvalid pq' ?_,
        fun pq' hpq' => hmem pq' (List.mem_cons_of_mem _ hpq')⟩
      rw [List.mem_append] at hpq' ⊢
      exact hpq'.imp_right (List.mem_cons_of_mem _))
    (by
      rintro s₂ kept pq rest ⟨hless, hw, hvalid, hmem⟩ -
      refine ⟨s₂, rfl, hless, ?_, ?_, fun pq' hpq' => hmem pq' (List.mem_cons_of_mem _ hpq')⟩
      · rwa [keys_reported]
      · intro pq' hpq'
        rw [List.append_assoc, List.mem_append, List.singleton_append, List.mem_cons] at hpq'
        obtain hpq' | rfl | hpq' := hpq'
        · exact hvalid pq' (List.mem_append_left _ hpq')
        · intro pd hpd
          obtain ⟨pd₀, hpd₀, rfl⟩ := List.mem_map.1 hpd
          exact hvalid pq (by simp) pd₀ hpd₀
        · exact hvalid pq' (List.mem_append_right _ (List.mem_cons_of_mem _ hpq')))
    s₁ [] ⟨Less.refl s₁, hw₁, h.valid, fun _ => id⟩
  rw [List.append_nil] at hw₂ hvalid₂
  obtain ⟨s', hs', hless', hw'⟩ := foldlM_unmark (fun ev hev => hless₂.inside.2 (hinside ev hev)) hw₂
    fun fd hfd => hstale fd (by rwa [hless₂.revents] at hfd)
  refine ⟨s₁, s₂, s', hs₁, hs₂, hs', ⟨hw', fun fd => by rw [hless'.revents], fun pq hpq pd hpd => ?_, fun ha => ?_⟩,
    fun hq => hless'.quiet (hless₂.quiet hq)⟩
  · have hv := hvalid₂ pq hpq pd hpd
    exact ⟨hless'.inside.2 (hless₂.inside.2 hv.1), hv.2⟩
  · have hroom := h.room ha
    have hsize : s'.evtlistSize = s.evtlistSize := hless'.evtlistSize.trans hless₂.evtlistSize
    have hcnt : s'.evtlistCnt ≤ s.evtlistCnt := hless'.evtlistCnt.trans hless₂.evtlistCnt
    omega

/-! ## Refinement -/

/-- What the kernel may report after the child has asked for everything again. -/
def Reports (answer : Answer) (s : EpollSys) (q : List (Pollq ν)) : Prop :=
  match (s.reinit answer q).bind epfd with
  | none => answer.fired = []
  | some e => Reported e answer.fired

instance (answer : Answer) (s : EpollSys) (q : List (Pollq ν)) : Decidable (Reports answer s q) := by
  unfold Reports
  split <;> infer_instance

/-- No refusal while a child asks for everything again; and when `epoll_create` has failed in a process, then it has another number
than the one that is stored. -/
def Forked (answer : Answer) (s : EpollSys) (q : List (Pollq ν)) : Prop :=
  (s.epfd = none → s.pid ≠ answer.pid) ∧
    (s.pid ≠ answer.pid → ∀ m < (q.flatMap Pollq.pds).length, s.refusals m = none)

/-- What the callers and the system may do. With `ample`, `realloc` always succeeds. -/
def Fine (ample : Prop) (s : IoState ν EpollSys) : IoCall ν Bool Answer → Prop
  | .add _ memory => ample → memory
  | .dispatch answer => Forked answer s.data s.ioQ ∧ (ample → answer.memory) ∧
      (s.data.pid = answer.pid ∨ answer.create → Reports answer s.data s.ioQ)
  | .fdClose fd => s.data.Inside fd
  | _ => True

instance (answer : Answer) (s : EpollSys) (q : List (Pollq ν)) : Decidable (Forked answer s q) :=
  inferInstanceAs (Decidable (_ ∧ (_ → ∀ m < _, _)))

instance (ample : Prop) [Decidable ample] : ∀ (s : IoState ν EpollSys) (c : IoCall ν Bool Answer), Decidable (Fine ample s c)
  | _, .add .. => inferInstanceAs (Decidable (_ → _))
  | _, .dispatch _ => inferInstanceAs (Decidable (_ ∧ (_ → _) ∧ (_ → _)))
  | s, .fdClose fd => inferInstanceAs (Decidable (s.data.Inside fd))
  | _, .del _ | _, .fdNew .. => inferInstanceAs (Decidable True)

/-- The error of a `pollset_add` -/
def refusal (memory : Bool) (s : EpollSys) (pds : List Pollfd) : Option IoErrno := (s.pollsetAdd memory pds).bind Prod.snd

/-- What a dispatch sees. -/
def seen (answer : Answer) (s : EpollSys) : Readiness :=
  if s.pid ≠ answer.pid ∧ ¬ answer.create then fun _ => ∅ else firedAt answer.fired

/-- The child asks for the requests again. -/
theorem reinit_spec {ample : Prop} {answer : Answer} (h : Sound ample s q) (hf : Forked answer s q) (hm : ample → answer.memory) :
    ∃ s', s.reinit answer q = some s' ∧ Sound ample s' q ∧ s'.epfd.isSome ∧ (s.pid = answer.pid → s' = s) := by
  rw [reinit]
  split
  · rename_i hpid
    exact ⟨s, rfl, h, Option.isSome_iff_ne_none.2 fun hnone => hf.1 hnone hpid, fun _ => rfl⟩
  · rename_i hpid
    have hsizes := h.watching.sizes
    obtain ⟨s', hs', hgrown, hw, hsome⟩ := foldlM_reinit (q := q) answer.memory []
      (s := { s with cnt := fun _ => 0, revents := fun _ => ∅, evtlistCnt := 0, epfd := some Interest.empty, pid := answer.pid })
      ⟨Tallied.nil, by simp [keys_nil], fun e he => by cases he; exact Covers.empty, hsizes⟩ (fun _ => rfl) h.valid ⟨rfl, hf.2 hpid⟩
    exact ⟨s', hs', ⟨hw, hgrown.revents fun _ => rfl, fun pq hpq pd hpd => hgrown.valid (h.valid pq hpq pd hpd),
      fun ha => hgrown.room (hm ha) hsizes.2.le⟩, hsome, fun h => absurd h hpid⟩

theorem dispatch_eq {ample : Prop} {answer : Answer} (h : Sound ample s q) (hf : Fine ample ⟨s, q⟩ (.dispatch answer)) :
    ∃ s' left, s.dispatch answer q =
        some (s', left, (q.filter fun pq => HasEvents (seen answer s) pq).map (reported (seen answer s))) ∧
      left.map Pollq.asked = (q.map Pollq.asked).filter (fun pq => ¬ HasEvents (seen answer s) pq) ∧ Sound ample s' left ∧
      (s.pid = answer.pid → s.Quiet → s'.Quiet) := by
  obtain ⟨hforked, hm, hreports⟩ := hf
  -- when nothing is seen, all requests are left
  have hquiet : ∀ s', Sound ample s' q → (∀ fd, seen answer s fd = ∅) →
      some (s', q, []) = some (s', q, (q.filter fun pq => HasEvents (seen answer s) pq).map (reported (seen answer s))) ∧
        q.map Pollq.asked = (q.map Pollq.asked).filter (fun pq => ¬ HasEvents (seen answer s) pq) ∧ Sound ample s' q := by
    intro s' hs' hnone
    rw [show seen answer s = fun _ => ∅ from funext hnone]
    obtain ⟨hwoken, hleft⟩ := dispatch_none (q := q) (k := fun _ => ∅) s' fun _ _ => not_hasEvents_empty
    exact ⟨hwoken, hleft, hs'⟩
  rw [dispatch]
  split
  · rename_i hfail
    obtain ⟨hs', hleft, hsound⟩ := hquiet { s with epfd := none }
      ⟨⟨h.watching.tallied, h.watching.keys, by simp, h.watching.sizes⟩, h.revents, h.valid, h.room⟩
      fun fd => by rw [seen, if_pos hfail]
    exact ⟨_, q, hs', hleft, hsound, fun hpid => absurd hpid hfail.1⟩
  · rename_i hok
    have hseen : seen answer s = firedAt answer.fired := if_neg hok
    obtain ⟨s₁, hs₁, h₁, hsome, hsame⟩ := reinit_spec h hforked hm
    rw [hs₁, Option.bind_eq_bind, Option.bind_some]
    split
    · rename_i hnone
      obtain ⟨hs', hleft, hsound⟩ := hquiet s₁ h₁ fun fd => by rw [hseen, hnone]; rfl
      exact ⟨s₁, q, hs', hleft, hsound, fun hpid hq => (hsame hpid) ▸ hq⟩
    · obtain ⟨e, he⟩ := Option.isSome_iff_exists.1 hsome
      have hfired : Reported e answer.fired := by
        have hr := hreports (by
          rw [not_and, not_not] at hok
          by_cases hpid : s.pid = answer.pid
          · exact Or.inl hpid
          · exact Or.inr (hok hpid))
        simpa only [Reports, hs₁, Option.bind_some, he] using hr
      obtain ⟨s₂, s₃, s', hs₂, hs₃, hs', hsound, hquiet'⟩ := fired_spec h₁ he hfired
      refine ⟨s', _, ?_, hseen ▸ asked_left, hseen ▸ hsound, fun hpid hq => hquiet' ((hsame hpid) ▸ hq)⟩
      simp only [hs₂, hs₃, hs', hseen, Option.bind_eq_bind, Option.bind_some]

/-- A descriptor has a counter that is not 0 when a request waits for it. -/
theorem watched_iff {ample : Prop} (h : Sound ample s q) : (∃ b ∈ ioFlags, s.cnt (b, fd) ≠ 0) ↔ Watched q fd := by
  simp only [h.watching.tallied.ne_zero, keys, List.mem_flatMap, mem_keysOf]
  constructor
  · rintro ⟨b, -, pq, hpq, pd, hpd, -, -, hfd⟩
    exact ⟨pq, hpq, pd, hpd, hfd⟩
  · rintro ⟨pq, hpq, pd, hpd, hfd⟩
    obtain ⟨-, hne, hio⟩ := h.valid pq hpq pd hpd
    obtain ⟨b, hb⟩ := Finset.nonempty_iff_ne_empty.2 hne
    have hb' := List.mem_toFinset.1 (hio hb)
    exact ⟨b, hb', pq, hpq, pd, hpd, hb', hb, hfd⟩

/-- A request is added, or nothing is. -/
theorem add_spec {ample : Prop} (memory : Bool) (pq : Pollq ν) (h : Sound ample s q) (hm : ample → memory) :
    ∃ s' e, s.pollsetAdd memory pq.pds = some (s', e) ∧ Sound ample s' (if e = none then q ++ [pq] else q) ∧
      (s.Quiet → s'.Quiet) := by
  obtain ⟨s', e, hs', hgrown, hcases, -⟩ := pollsetAdd_spec memory pq.pds h.watching h.revents
  refine ⟨s', e, hs', ?_, hgrown.quiet⟩
  obtain ⟨rfl, hw, hvalid⟩ | ⟨hne, hw⟩ := hcases
  · rw [if_pos rfl]
    have hperm := (keys_concat pq q).symm
    refine ⟨hw.mono hperm (fun key => hperm.mem_iff.2) fun _ => id, hgrown.revents h.revents, ?_,
      fun ha => hgrown.room (hm ha) (h.room ha)⟩
    intro pq' hpq'
    obtain hpq' | rfl := List.mem_append.1 hpq' |>.imp_right List.mem_singleton.1
    · exact fun pd hpd => hgrown.valid (h.valid pq' hpq' pd hpd)
    · exact hvalid
  · rw [if_neg hne]
    exact h.grown hgrown hm hw

/-- A request is taken back. -/
theorem del_spec {ample : Prop} {l r : List (Pollq ν)} {pq : Pollq ν} (h : Sound ample s (l ++ pq :: r)) :
    ∃ s', s.pollsetDel pq.pds = some s' ∧ Sound ample s' (l ++ r) ∧ (s.Quiet → s'.Quiet) := by
  have hperm := keys_append_cons pq l r
  have hw₀ : Watching s (pq.pds.flatMap keysOf ++ keys (l ++ r)) (keys (l ++ r)) fresh :=
    h.watching.mono hperm (fun key hkey => hperm.mem_iff.2 (List.mem_append_right _ hkey)) fun _ => id
  obtain ⟨s', hs', hless, hw⟩ := pollsetDel_spec hw₀ (fun _ => id) (fun pd hpd => (h.valid pq (by simp) pd hpd).1)
    fun fd hfd => hfd (h.revents fd)
  have hroom : ample → s'.evtlistCnt ≤ s'.evtlistSize := fun ha => (hless.grown : Grown true s s').room rfl (h.room ha)
  refine ⟨s', hs', ⟨hw, fun fd => by rw [hless.revents, h.revents], ?_, hroom⟩, hless.quiet⟩
  intro pq' hpq' pd hpd
  have hv := h.valid pq' (by
    rw [List.mem_append] at hpq' ⊢
    exact hpq'.imp_right (List.mem_cons_of_mem _)) pd hpd
  exact ⟨hless.inside.2 hv.1, hv.2⟩

/-- More room for descriptors -/
theorem fdNew_spec {ample : Prop} (memory : Bool) (fd : Int) (h : Sound ample s q) :
    Sound ample (s.fdNew memory fd).1 q ∧ (s.Quiet → (s.fdNew memory fd).1.Quiet) := by
  rw [fdNew]
  split
  · split
    · obtain ⟨hgrown, hw, -⟩ := fdDataExpand_spec true h.watching (h.watching.sizes.1.le.trans ‹s.fdDataSize ≤ fd›)
      exact ⟨h.grown hgrown (fun _ => rfl) hw, hgrown.quiet⟩
    · exact ⟨h, id⟩
  · exact ⟨h, id⟩

theorem refines (ample : Prop) : Refines (ops (ν := ν)) true (Sound ample) (Fine ample) refusal seen where
  add s q pq memory h hm := by
    obtain ⟨s', e, hs', hsound, -⟩ := add_spec memory pq h hm
    have href : refusal memory s pq.pds = e := by rw [refusal, hs', Option.bind_some]
    exact ⟨s', by rw [href]; exact hs', by rwa [href]⟩
  del s l pq r h := by
    obtain ⟨s', hs', hsound, -⟩ := del_spec h
    exact ⟨s', hs', hsound⟩
  dispatch s q answer h hf := by
    obtain ⟨s', left, hs', hleft, hsound, -⟩ := dispatch_eq h hf
    exact ⟨s', left, hs', hleft, hsound⟩
  fdNew s q fd memory h := (fdNew_spec memory fd h).1
  fdClose s q fd h hf := by
    dsimp only [ops, fdClose]
    rw [if_pos (show s.Inside fd from hf)]
    simp only [watched_iff h, true_and]

theorem sound_init (ample : Prop) (fdlim : Int) (pid : Nat) (refusals : Nat → Option Nat) :
    Sound ample (init fdlim pid refusals) ([] : List (Pollq ν)) := by
  have hhint : 0 < fdHint fdlim := by
    rw [fdHint]
    split
    · exact And.left ‹_›
    · decide
  exact ⟨⟨Tallied.nil, by simp [keys_nil], fun e he => by cases he; exact Covers.empty, hhint, hhint⟩, fun _ => rfl, by simp,
    fun _ => hhint.le⟩

section Runs

variable [DecidableEq ν]

end Runs

end EpollSys

end ToolLib.StateThreads
