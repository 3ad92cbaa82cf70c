import Mathlib.Data.List.Count
import Mathlib.Data.List.Nodup
import ToolLib.Base.Loop
import ToolLib.Base.System

/-!
# UDPSocketPool

The pool keeps pairs of UDP sockets on adjacent ports, each with the number of its users. A pair is known by the number of
pairs constructed before it. Which sockets can be opened and bound is arbitrary (`Attempt`), and so is what the demuxers
of the pairs know.

`create_returns`: what `CreateUDPSocketPair` leaves behind, with a pair or without. `pool_lawful_iff`: a pair is
in the pool as long as it is used, and destructed with its last user, unless a `UInt32` cannot count the users.
-/

namespace ToolLib.Common.UDPSocketPool

open ToolLib.Base

abbrev kLowestUDPPort : Nat := 6970
abbrev kHighestUDPPort : Nat := 65535

/-- Where the sockets are bound, and the users. -/
structure UDPSocketPair where
  fSocketA : Option (UInt32 × Nat)
  fSocketB : Option (UInt32 × Nat)
  fRefCount : Nat

/-- The pool, and what has been constructed and destructed. -/
structure Pool where
  fUDPQueue : List Nat
  pair : Nat → UDPSocketPair
  constructed : Nat
  destructed : List Nat

/-- Whether the calls for a pair succeed. -/
structure Attempt where
  openA : Bool
  openB : Bool
  bindA : Bool
  bindB : Bool

namespace Pool

def new : Pool := ⟨[], fun _ => ⟨none, none, 0⟩, 0, []⟩

/-- `ConstructUDPSocketPair`; the new pair is the one with the number `constructed`. -/
def construct (s : Pool) : Pool :=
  { s with pair := Function.update s.pair s.constructed ⟨none, none, 0⟩, constructed := s.constructed + 1 }

/-- `DestructUDPSocketPair` -/
def destruct (s : Pool) (theElem : Nat) : Pool := { s with destructed := theElem :: s.destructed }

/-- "fSocketB->Bind ok": the pair goes to the queue. -/
def found (s : Pool) (theElem : Nat) (inAddr : UInt32) (curPort socketBPort : Nat) : Pool :=
  { s with
    fUDPQueue := s.fUDPQueue ++ [theElem]
    pair := Function.update s.pair theElem
      ⟨some (inAddr, curPort), some (inAddr, socketBPort), ((s.pair theElem).fRefCount + 1) % 4294967296⟩ }

/-- The loop of `CreateUDPSocketPair` at its head, where `theElem` is `NULL`; `tried` pairs have been constructed. -/
structure Search where
  pool : Pool
  curPort : Nat
  tried : Nat

/-- One turn of the loop, and what is done behind it. -/
def turn (inAddr : UInt32) (inPort : UInt16) (attempt : Nat → Attempt) (s : Search) : Search ⊕ (Option Nat × Pool) :=
  let stopPort := if inPort ≠ 0 then inPort.toNat else kHighestUDPPort - 1
  if s.curPort < kHighestUDPPort then
    -- "make socket pairs adjacent to one another"
    let socketBPort := (s.curPort + 1) % 65536
    let theElem := s.pool.constructed
    let pool := s.pool.construct
    let a := attempt s.tried
    if ¬ a.openA then .inr (none, pool.destruct theElem)
    else if ¬ a.openB then .inr (none, pool.destruct theElem)
    else if a.bindA ∧ a.bindB then .inr (some theElem, pool.found theElem inAddr s.curPort socketBPort)
    -- the two breaks: "make sure to clean up our mess"
    else if inPort ≠ 0 ∨ stopPort ≤ s.curPort then .inr (none, pool.destruct theElem)
    -- "try a higher port pair"
    else .inl ⟨pool.destruct theElem, (s.curPort + 2) % 65536, s.tried + 1⟩
  else .inr (none, s.pool)

/-- `CreateUDPSocketPair`, when its loop has `turns` turns at most. -/
def createUDPSocketPair (turns : Nat) (s : Pool) (inAddr : UInt32) (inPort : UInt16) (attempt : Nat → Attempt) :
    Option (Option Nat × Pool) :=
  Loop.turns (turn inAddr inPort attempt) turns ⟨s, if inPort ≠ 0 then inPort.toNat else kLowestUDPPort, 0⟩

/-- `AddrInMap` of the demuxer of a pair, if it has one. -/
abbrev Demuxer := Nat → Option (UInt32 → UInt16 → Bool)

/-- What the search through the queue comes to. -/
inductive Match
  | shared (theElem : Nat)
  | refused
  | nothing

/-- The loop of `GetUDPSocketPair`. -/
def findPair (s : Pool) (inIPAddr : UInt32) (inPort : UInt16) (inSrcIPAddr : UInt32) (inSrcPort : UInt16)
    (demuxer : Demuxer) : List Nat → Match
  | [] => .nothing
  | theElem :: qIter =>
    let (localAddr, localPort) := (s.pair theElem).fSocketA.getD (0, 0)
    if localAddr = inIPAddr ∧ (inPort = 0 ∨ localPort = inPort.toNat) then
      if (demuxer theElem).all fun addrInMap => !addrInMap 0 0 && !addrInMap inSrcIPAddr inSrcPort then .shared theElem
      -- "there is NO WAY a socket pair can exist that matches the criteria"
      else if inPort ≠ 0 then .refused
      else findPair s inIPAddr inPort inSrcIPAddr inSrcPort demuxer qIter
    else findPair s inIPAddr inPort inSrcIPAddr inSrcPort demuxer qIter

/-- The pairs that an iterator comes to: none when `fLength`, a `UInt32`, is 0. -/
def qIter (s : Pool) : List Nat := if s.fUDPQueue.length % 4294967296 = 0 then [] else s.fUDPQueue

/-- The search is made for a caller that says where its packets come from. -/
def searchQueue (s : Pool) (inIPAddr : UInt32) (inPort : UInt16) (inSrcIPAddr : UInt32) (inSrcPort : UInt16)
    (demuxer : Demuxer) : Match :=
  if inSrcIPAddr ≠ 0 ∨ inSrcPort ≠ 0 then s.findPair inIPAddr inPort inSrcIPAddr inSrcPort demuxer s.qIter else .nothing

/-- `fRefCount` of a pair is set. -/
def setRefCount (s : Pool) (theElem count : Nat) : Pool :=
  { s with pair := Function.update s.pair theElem ⟨(s.pair theElem).fSocketA, (s.pair theElem).fSocketB, count⟩ }

/-- `theElem->fRefCount++` -/
def share (s : Pool) (theElem : Nat) : Pool := s.setRefCount theElem (((s.pair theElem).fRefCount + 1) % 4294967296)

/-- `GetUDPSocketPair` -/
def getUDPSocketPair (turns : Nat) (s : Pool) (inIPAddr : UInt32) (inPort : UInt16) (inSrcIPAddr : UInt32)
    (inSrcPort : UInt16) (demuxer : Demuxer) (attempt : Nat → Attempt) : Option (Option Nat × Pool) :=
  match s.searchQueue inIPAddr inPort inSrcIPAddr inSrcPort demuxer with
  | .shared theElem => some (some theElem, s.share theElem)
  | .refused => some (none, s)
  | .nothing => s.createUDPSocketPair turns inIPAddr inPort attempt

/-- `ReleaseUDPSocketPair` -/
def releaseUDPSocketPair (s : Pool) (inPair : Nat) : Pool :=
  let s' := s.setRefCount inPair (((s.pair inPair).fRefCount + 4294967295) % 4294967296)
  if (s'.pair inPair).fRefCount = 0 then destruct { s' with fUDPQueue := s'.fUDPQueue.erase inPair } inPair else s'

end Pool

open Pool

/-! ## The pool and its users -/

/-- The pool, and how many of the references to a pair have not been released. -/
structure World where
  pool : Pool
  held : Nat → Nat

/-- What the users of the pool may call, and what the sockets and the demuxers do then. -/
inductive Call
  | get (inIPAddr : UInt32) (inPort : UInt16) (inSrcIPAddr : UInt32) (inSrcPort : UInt16) (demuxer : Demuxer)
    (attempt : Nat → Attempt)
  | create (inAddr : UInt32) (inPort : UInt16) (attempt : Nat → Attempt)
  | release (inPair : Nat)

namespace World

def new : World := ⟨Pool.new, fun _ => 0⟩

/-- The caller gets a reference, or `NULL`. -/
def given (w : World) : Option Nat × Pool → World
  | (none, s) => ⟨s, w.held⟩
  | (some p, s) => ⟨s, Function.update w.held p (w.held p + 1)⟩

/-- A call; only a reference that is held can be released. -/
def step (w : World) : Call → Option World
  | .get inIPAddr inPort inSrcIPAddr inSrcPort demuxer attempt =>
    (w.pool.getUDPSocketPair 65536 inIPAddr inPort inSrcIPAddr inSrcPort demuxer attempt).map w.given
  | .create inAddr inPort attempt => (w.pool.createUDPSocketPair 65536 inAddr inPort attempt).map w.given
  | .release inPair =>
    if 0 < w.held inPair then
      some ⟨w.pool.releaseUDPSocketPair inPair, Function.update w.held inPair (w.held inPair - 1)⟩
    else none

end World

/-- A pair is in the queue when it has a positive count, and has been destructed, once, when nobody holds it. -/
structure Lawful (w : World) : Prop where
  queue : ∀ p, p ∈ w.pool.fUDPQueue ↔ 0 < (w.pool.pair p).fRefCount
  destructed : ∀ p, w.pool.destructed.count p = if p < w.pool.constructed ∧ w.held p = 0 then 1 else 0

/-- The call does not share a pair that has 4294967295 users. -/
def NotWrapped (w : World) : Call → Prop
  | .get inIPAddr inPort inSrcIPAddr inSrcPort demuxer _ => ∀ theElem,
    w.pool.searchQueue inIPAddr inPort inSrcIPAddr inSrcPort demuxer = .shared theElem →
      (w.pool.pair theElem).fRefCount < 4294967295
  | _ => True

/-! ## CreateUDPSocketPair -/

/-- The pool is unchanged, and the pairs constructed since, with numbers below `past`, have been destructed, each once. -/
structure Cleaned (s s' : Pool) (past : Nat) : Prop where
  queue : s'.fUDPQueue = s.fUDPQueue
  constructed : s.constructed ≤ past
  pair : ∀ p, p < s.constructed ∨ past ≤ p → s'.pair p = s.pair p
  tried : ∀ p, s.constructed ≤ p → p < past → s'.pair p = ⟨none, none, 0⟩
  destructed : ∀ p, s'.destructed.count p = s.destructed.count p + if s.constructed ≤ p ∧ p < past then 1 else 0

/-- What `CreateUDPSocketPair` has done. -/
inductive Created (s : Pool) (inAddr : UInt32) (inPort : UInt16) : Option Nat × Pool → Prop
  /-- There is no pair, and nothing is left of those that were tried. -/
  | none {s' : Pool} (h : Cleaned s s' s'.constructed) : Created s inAddr inPort (none, s')
  /-- There is a pair on adjacent ports, with one user; the others that were tried are gone. -/
  | some {s₁ : Pool} {p : Nat} (h : Cleaned s s₁ s₁.constructed)
      (hport : if inPort ≠ 0 then p = inPort.toNat else kLowestUDPPort ≤ p ∧ p < kHighestUDPPort ∧ p % 2 = 0) :
      Created s inAddr inPort (some s₁.constructed, s₁.construct.found s₁.constructed inAddr p (p + 1))

section Create

variable {s s' : Pool} {inAddr : UInt32} {inPort : UInt16} {attempt : Nat → Attempt} {past : Nat}

theorem Cleaned.refl (s : Pool) : Cleaned s s s.constructed :=
  ⟨rfl, Nat.le_refl _, fun _ _ => rfl, fun p h₁ h₂ => absurd h₁ (Nat.not_le.2 h₂), fun p => by
    rw [if_neg (by omega), Nat.add_zero]⟩

/-- A pair is constructed and destructed. -/
theorem Cleaned.next (h : Cleaned s s' s'.constructed) :
    Cleaned s (s'.construct.destruct s'.constructed) (s'.constructed + 1) where
  queue := h.queue
  constructed := Nat.le_succ_of_le h.constructed
  pair p hp := by
    have hle := h.constructed
    have hne : p ≠ s'.constructed := by omega
    exact (Function.update_of_ne hne ..).trans (h.pair p (by omega))
  tried p hp hpast := by
    by_cases hnew : p = s'.constructed
    · subst hnew
      exact Function.update_self ..
    · exact (Function.update_of_ne hnew ..).trans (h.tried p hp (by omega))
  destructed p := by
    have hle := h.constructed
    change (s'.constructed :: s'.destructed).count p = _
    rw [List.count_cons, h.destructed, Nat.add_assoc]
    congr 1
    by_cases hnew : s'.constructed = p
    · rw [if_neg (by omega), if_pos (by simpa using hnew), if_pos (by omega)]
    · rw [if_neg (c := (s'.constructed == p) = true) (by simpa using hnew), Nat.add_zero]
      exact if_congr (by omega) rfl rfl

/-- Where the search is: the pairs before are gone, and the port is one that may be tried. -/
structure Searching (s : Pool) (inPort : UInt16) (x : Search) : Prop where
  cleaned : Cleaned s x.pool x.pool.constructed
  port : if inPort ≠ 0 then x.curPort = inPort.toNat
    else kLowestUDPPort ≤ x.curPort ∧ x.curPort < kHighestUDPPort ∧ x.curPort % 2 = 0

/-- A turn ends the search, or goes on with the next even port. -/
theorem Searching.turned {x : Search} (h : Searching s inPort x) (inAddr : UInt32) (attempt : Nat → Attempt) :
    (∃ x', turn inAddr inPort attempt x = .inl x' ∧ Searching s inPort x' ∧
        kHighestUDPPort - x'.curPort < kHighestUDPPort - x.curPort) ∨
      ∃ r, turn inAddr inPort attempt x = .inr r ∧ Created s inAddr inPort r := by
  have hport := h.port
  have hgone : Created s inAddr inPort (none, x.pool.construct.destruct x.pool.constructed) := .none h.cleaned.next
  unfold turn
  dsimp only
  by_cases hin : x.curPort < kHighestUDPPort
  · rw [if_pos hin]
    have hin : x.curPort < 65535 := hin
    by_cases hA : (attempt x.tried).openA = true
    · rw [if_neg (not_not_intro hA)]
      by_cases hB : (attempt x.tried).openB = true
      · rw [if_neg (not_not_intro hB)]
        by_cases hbind : (attempt x.tried).bindA = true ∧ (attempt x.tried).bindB = true
        · rw [if_pos hbind, Nat.mod_eq_of_lt (by omega)]
          exact Or.inr ⟨_, rfl, .some h.cleaned hport⟩
        · rw [if_neg hbind]
          by_cases hzero : inPort ≠ 0
          · rw [if_pos (Or.inl hzero)]
            exact Or.inr ⟨_, rfl, hgone⟩
          · simp only [if_neg hzero] at hport ⊢
            by_cases hstop : kHighestUDPPort - 1 ≤ x.curPort
            · rw [if_pos (Or.inr hstop)]
              exact Or.inr ⟨_, rfl, hgone⟩
            · -- The next port is even again, and below the last one.
              rw [if_neg (not_or.2 ⟨hzero, hstop⟩)]
              have hstop : x.curPort < 65534 := Nat.not_le.1 hstop
              have hlow : 6970 ≤ x.curPort ∧ x.curPort < 65535 ∧ x.curPort % 2 = 0 := hport
              have hnext : (x.curPort + 2) % 65536 = x.curPort + 2 := Nat.mod_eq_of_lt (by omega)
              rw [hnext]
              refine Or.inl ⟨_, rfl, ⟨h.cleaned.next, ?_⟩, ?_⟩
              · rw [if_neg hzero]
                change 6970 ≤ x.curPort + 2 ∧ x.curPort + 2 < 65535 ∧ (x.curPort + 2) % 2 = 0
                omega
              · change 65535 - (x.curPort + 2) < 65535 - x.curPort
                omega
      · rw [if_pos hB]
        exact Or.inr ⟨_, rfl, hgone⟩
    · rw [if_pos hA]
      exact Or.inr ⟨_, rfl, hgone⟩
  · rw [if_neg hin]
    exact Or.inr ⟨_, rfl, .none h.cleaned⟩

/-- **`CreateUDPSocketPair`** returns for every port, every state of the pool and every pattern of failures. -/
theorem create_returns (s : Pool) (inAddr : UInt32) (inPort : UInt16) (attempt : Nat → Attempt) :
    ∃ r, createUDPSocketPair 65536 s inAddr inPort attempt = some r ∧ Created s inAddr inPort r := by
  refine Loop.turns_of_turn (I := Searching s inPort) (fun x => kHighestUDPPort - x.curPort)
    (fun x hx => hx.turned inAddr attempt) ⟨.refl s, ?_⟩ ?_
  · by_cases hzero : inPort ≠ 0
    · simp only [if_pos hzero]
    · simp only [if_neg hzero]
      decide
  · change 65535 - _ < 65536
    omega

end Create

/-! ## Runs -/

/-- As long as its count has not wrapped, `fRefCount` of a pair is the number of the references to it. -/
structure CountedPair (w : World) (p : Nat) : Prop where
  queue : p ∈ w.pool.fUDPQueue ↔ 0 < w.held p
  counted : (w.pool.pair p).fRefCount = w.held p
  bounded : w.held p < 4294967296
  constructed : 0 < w.held p → p < w.pool.constructed
  destructed : w.pool.destructed.count p = if p < w.pool.constructed ∧ w.held p = 0 then 1 else 0

structure Counted (w : World) : Prop where
  nodup : w.pool.fUDPQueue.Nodup
  each : ∀ p, CountedPair w p

section Runs

variable {w w' : World} {s s' : Pool} {a : Call} {p : Nat}

theorem Counted.lawful (h : Counted w) : Lawful w :=
  ⟨fun p => by rw [(h.each p).counted]; exact (h.each p).queue, fun p => (h.each p).destructed⟩

theorem counted_new : Counted World.new := by
  refine ⟨List.nodup_nil, fun p => ⟨?_, rfl, Nat.succ_pos _, fun hp => absurd hp (Nat.lt_irrefl _), ?_⟩⟩
  · simp [World.new, Pool.new]
  · simp [World.new, Pool.new]

/-- A call that is about other pairs. -/
theorem CountedPair.of_eq (h : CountedPair w p) (hqueue : p ∈ w'.pool.fUDPQueue ↔ p ∈ w.pool.fUDPQueue)
    (hpair : w'.pool.pair p = w.pool.pair p) (hheld : w'.held p = w.held p)
    (hconstructed : p < w'.pool.constructed ↔ p < w.pool.constructed)
    (hdestructed : w'.pool.destructed.count p = w.pool.destructed.count p) : CountedPair w' p where
  queue := by rw [hqueue, hheld]; exact h.queue
  counted := by rw [hpair, hheld]; exact h.counted
  bounded := by rw [hheld]; exact h.bounded
  constructed := by rw [hheld, hconstructed]; exact h.constructed
  destructed := by simp only [hdestructed, hheld, hconstructed]; exact h.destructed

/-- A pair that has `n` users and says so. -/
theorem CountedPair.of_held {n : Nat} (hheld : w.held p = n) (hqueue : p ∈ w.pool.fUDPQueue ↔ 0 < n)
    (hcount : (w.pool.pair p).fRefCount = n) (hbounded : n < 4294967296) (hconstructed : p < w.pool.constructed)
    (hdestructed : w.pool.destructed.count p = if n = 0 then 1 else 0) : CountedPair w p := by
  subst hheld
  refine ⟨hqueue, hcount, hbounded, fun _ => hconstructed, ?_⟩
  simpa only [hconstructed, true_and] using hdestructed

/-- Nobody holds a pair that has not been constructed. -/
theorem CountedPair.unused (h : CountedPair w p) (hp : w.pool.constructed ≤ p) : w.held p = 0 := by
  by_contra hheld
  exact absurd (h.constructed (Nat.pos_of_ne_zero hheld)) (Nat.not_lt.2 hp)

/-- The tried pairs that are gone do not matter. -/
theorem Counted.cleaned (h : Counted w) (hs : Cleaned w.pool s s.constructed) : Counted ⟨s, w.held⟩ := by
  refine ⟨hs.queue ▸ h.nodup, fun p => ?_⟩
  have hp := h.each p
  have hle := hs.constructed
  have hcount := hs.destructed p
  by_cases htried : w.pool.constructed ≤ p ∧ p < s.constructed
  · have hnone := hp.unused htried.1
    rw [if_pos htried, hp.destructed, if_neg (by omega)] at hcount
    refine ⟨?_, ?_, hp.bounded, fun _ => htried.2, ?_⟩
    · change p ∈ s.fUDPQueue ↔ _
      rw [hs.queue]
      exact hp.queue
    · change (s.pair p).fRefCount = w.held p
      rw [hs.tried p htried.1 htried.2, hnone]
    · exact hcount.trans (if_pos ⟨htried.2, hnone⟩).symm
  · rw [if_neg htried] at hcount
    exact hp.of_eq (by rw [hs.queue]) (hs.pair p (by omega)) rfl (by dsimp only; omega) hcount

/-- A pair comes to the queue with its first user. -/
theorem Counted.found (h : Counted w) (inAddr : UInt32) (curPort socketBPort : Nat) :
    Counted (w.given (some w.pool.constructed,
      w.pool.construct.found w.pool.constructed inAddr curPort socketBPort)) := by
  have hnew := h.each w.pool.constructed
  have hnone := hnew.unused (Nat.le_refl _)
  have hout : w.pool.constructed ∉ w.pool.fUDPQueue := fun hin => by
    have hheld := hnew.queue.1 hin
    omega
  refine ⟨h.nodup.append (List.nodup_singleton _) (by simpa using hout), fun p => ?_⟩
  by_cases hp : p = w.pool.constructed
  · subst hp
    have hheld : (w.given (some w.pool.constructed,
        w.pool.construct.found w.pool.constructed inAddr curPort socketBPort)).held w.pool.constructed = 1 :=
      (Function.update_self ..).trans (by rw [hnone])
    refine .of_held hheld ?_ ?_ (by decide) (Nat.lt_succ_self _) (hnew.destructed.trans (if_neg (by omega)))
    · exact ⟨fun _ => Nat.one_pos, fun _ => List.mem_append_right _ (List.mem_singleton_self _)⟩
    · simp [World.given, Pool.found, construct]
  · refine (h.each p).of_eq ?_ ?_ (Function.update_of_ne hp ..) ?_ rfl
    · simp [World.given, Pool.found, construct, hp]
    · exact (Function.update_of_ne hp ..).trans (Function.update_of_ne hp ..)
    · change p < w.pool.constructed + 1 ↔ _
      omega

theorem Counted.created {inAddr : UInt32} {inPort : UInt16} {r : Option Nat × Pool} (h : Counted w)
    (hr : Created w.pool inAddr inPort r) : Counted (w.given r) := by
  cases hr with
  | none hs => exact h.cleaned hs
  | some hs _ => exact (h.cleaned hs).found ..

/-- What the search finds is in the queue. -/
theorem mem_of_findPair {inIPAddr : UInt32} {inPort : UInt16} {inSrcIPAddr : UInt32} {inSrcPort : UInt16}
    {demuxer : Demuxer} : ∀ {qIter : List Nat},
      findPair s inIPAddr inPort inSrcIPAddr inSrcPort demuxer qIter = .shared p → p ∈ qIter
  | [], h => by cases h
  | theElem :: qIter, h => by
    unfold findPair at h
    dsimp only at h
    split at h
    · split at h
      · cases h
        exact List.mem_cons_self
      · split at h
        · cases h
        · exact List.mem_cons_of_mem _ (mem_of_findPair h)
    · exact List.mem_cons_of_mem _ (mem_of_findPair h)

theorem mem_of_searchQueue {inIPAddr : UInt32} {inPort : UInt16} {inSrcIPAddr : UInt32} {inSrcPort : UInt16}
    {demuxer : Demuxer} (h : searchQueue s inIPAddr inPort inSrcIPAddr inSrcPort demuxer = .shared p) :
    p ∈ s.fUDPQueue := by
  unfold searchQueue at h
  split at h
  · have hq := mem_of_findPair h
    unfold qIter at hq
    split at hq
    · cases hq
    · exact hq
  · cases h

/-- One more user. -/
theorem Counted.share (h : Counted w) (hin : p ∈ w.pool.fUDPQueue) (hless : w.held p < 4294967295) :
    Counted (w.given (some p, w.pool.share p)) := by
  refine ⟨h.nodup, fun q => ?_⟩
  have hp := h.each p
  by_cases hq : q = p
  · subst hq
    have hpos := hp.queue.1 hin
    have hheld : (w.given (some q, w.pool.share q)).held q = w.held q + 1 := Function.update_self ..
    refine .of_held hheld ⟨fun _ => Nat.succ_pos _, fun _ => hin⟩ ?_ (by omega) (hp.constructed hpos)
      (hp.destructed.trans (if_neg (by omega)))
    simp only [World.given, Pool.share, setRefCount, Function.update_self, hp.counted]
    omega
  · exact (h.each q).of_eq Iff.rfl (Function.update_of_ne hq ..) (Function.update_of_ne hq ..) Iff.rfl rfl

/-- One user less: with the last one the pair goes. -/
theorem Counted.release (h : Counted w) (hpos : 0 < w.held p) :
    Counted ⟨w.pool.releaseUDPSocketPair p, Function.update w.held p (w.held p - 1)⟩ := by
  have hp := h.each p
  have hbounded := hp.bounded
  have hcount : ((w.pool.pair p).fRefCount + 4294967295) % 4294967296 = w.held p - 1 := by
    rw [hp.counted]
    omega
  have hset : (w.pool.setRefCount p (w.held p - 1)).pair p =
      ⟨(w.pool.pair p).fSocketA, (w.pool.pair p).fSocketB, w.held p - 1⟩ := Function.update_self ..
  unfold releaseUDPSocketPair
  rw [hcount]
  dsimp only
  rw [hset]
  have hheld (s : Pool) : (World.mk s (Function.update w.held p (w.held p - 1))).held p = w.held p - 1 :=
    Function.update_self ..
  by_cases hlast : w.held p - 1 = 0
  · rw [if_pos hlast]
    refine ⟨h.nodup.erase p, fun q => ?_⟩
    by_cases hq : q = p
    · subst hq
      refine .of_held (hheld _) ?_ (congrArg UDPSocketPair.fRefCount hset) (by omega) (hp.constructed hpos) ?_
      · exact ⟨fun hin => absurd hin h.nodup.not_mem_erase, fun hin => by omega⟩
      · rw [if_pos hlast]
        change (q :: w.pool.destructed).count q = 1
        rw [List.count_cons_self, hp.destructed, if_neg (by omega)]
    · refine (h.each q).of_eq (List.mem_erase_of_ne hq) (Function.update_of_ne hq ..) (Function.update_of_ne hq ..)
        Iff.rfl ?_
      exact List.count_cons_of_ne (Ne.symm hq)
  · rw [if_neg hlast]
    refine ⟨h.nodup, fun q => ?_⟩
    by_cases hq : q = p
    · subst hq
      refine .of_held (hheld _) ⟨fun _ => Nat.pos_of_ne_zero hlast, fun _ => hp.queue.2 hpos⟩
        (congrArg UDPSocketPair.fRefCount hset) (by omega) (hp.constructed hpos) ?_
      rw [if_neg hlast]
      exact hp.destructed.trans (if_neg (by omega))
    · exact (h.each q).of_eq Iff.rfl (Function.update_of_ne hq ..) (Function.update_of_ne hq ..) Iff.rfl rfl

/-- What a `GetUDPSocketPair` that succeeds has done. -/
theorem step_get_cases {inIPAddr : UInt32} {inPort : UInt16} {inSrcIPAddr : UInt32} {inSrcPort : UInt16}
    {demuxer : Demuxer} {attempt : Nat → Attempt}
    (h : World.step w (.get inIPAddr inPort inSrcIPAddr inSrcPort demuxer attempt) = some w') :
    (∃ p, w.pool.searchQueue inIPAddr inPort inSrcIPAddr inSrcPort demuxer = .shared p ∧
        w' = w.given (some p, w.pool.share p)) ∨
      (∀ p, w.pool.searchQueue inIPAddr inPort inSrcIPAddr inSrcPort demuxer ≠ .shared p) ∧
        (w' = w ∨ ∃ r, Created w.pool inIPAddr inPort r ∧ w' = w.given r) := by
  obtain ⟨r, hr, rfl⟩ := Option.map_eq_some_iff.1 h
  unfold getUDPSocketPair at hr
  cases hsearch : w.pool.searchQueue inIPAddr inPort inSrcIPAddr inSrcPort demuxer with
  | shared p =>
    rw [hsearch] at hr
    cases hr
    exact Or.inl ⟨p, rfl, rfl⟩
  | refused =>
    rw [hsearch] at hr
    cases hr
    exact Or.inr ⟨fun p hp => (by cases hp), Or.inl rfl⟩
  | nothing =>
    rw [hsearch] at hr
    obtain ⟨r', hr', hcreated⟩ := create_returns w.pool inIPAddr inPort attempt
    obtain rfl := Option.some.inj (hr'.symm.trans hr)
    exact Or.inr ⟨fun p hp => (by cases hp), Or.inr ⟨r', hcreated, rfl⟩⟩

/-- A call that does not wrap a count. -/
theorem Counted.step (h : Counted w) (ha : NotWrapped w a) (hs : World.step w a = some w') : Counted w' := by
  cases a with
  | get inIPAddr inPort inSrcIPAddr inSrcPort demuxer attempt =>
    rcases step_get_cases hs with ⟨p, hsearch, rfl⟩ | ⟨-, rfl | ⟨r, hcreated, rfl⟩⟩
    · have hless := ha p hsearch
      rw [(h.each p).counted] at hless
      exact h.share (mem_of_searchQueue hsearch) hless
    · exact h
    · exact h.created hcreated
  | create inAddr inPort attempt =>
    obtain ⟨r, hr, rfl⟩ := Option.map_eq_some_iff.1 hs
    obtain ⟨r', hr', hcreated⟩ := create_returns w.pool inAddr inPort attempt
    obtain rfl := Option.some.inj (hr'.symm.trans hr)
    exact h.created hcreated
  | release inPair =>
    unfold World.step at hs
    dsimp only at hs
    split at hs
    next hpos =>
      cases hs
      exact h.release hpos
    next => cases hs

/-- A call that wraps a count leaves a pair in the queue without a count. -/
theorem NotWrapped.of_lawful (h : Counted w) (hs : World.step w a = some w') (hw : Lawful w') : NotWrapped w a := by
  cases a with
  | get inIPAddr inPort inSrcIPAddr inSrcPort demuxer attempt =>
    intro p hsearch
    rcases step_get_cases hs with ⟨p', hsearch', rfl⟩ | ⟨hnone, -⟩
    · rw [hsearch] at hsearch'
      cases hsearch'
      have hin : p ∈ w.pool.fUDPQueue := mem_of_searchQueue hsearch
      have hpos := (hw.queue p).1 hin
      simp only [World.given, Pool.share, setRefCount, Function.update_self] at hpos
      have hbounded := (h.each p).bounded
      rw [← (h.each p).counted] at hbounded
      omega
    · exact absurd hsearch (hnone p)
  | create | release => trivial

end Runs

/-- **`UDPSocketPool`**: `CreateUDPSocketPair` always returns, with a pair on adjacent ports or with everything as it
was. In a run, a pair is in the queue as long as it is used and destructed with its last user exactly when no count
wraps. -/
theorem pool_lawful_iff (calls : List Call) (w : World) (hr : run World.step World.new calls = some w) :
    (∀ (s : Pool) (inAddr : UInt32) (inPort : UInt16) (attempt : Nat → Attempt),
      ∃ r, createUDPSocketPair 65536 s inAddr inPort attempt = some r ∧ Created s inAddr inPort r) ∧
    (Always World.step Lawful World.new calls ↔ Along World.step NotWrapped World.new calls) :=
  ⟨create_returns, always_iff_along (fun _ _ _ h ha hs => h.step ha hs) (fun _ h => h.lawful)
    (fun _ _ _ h hs hw => .of_lawful h hs hw) counted_new hr⟩

/-- All calls succeed. -/
def granted : Nat → Attempt := fun _ => ⟨true, true, true, true⟩

section Shared

/-- A pair that has been shared `n` times. -/
def sharedBy (n : Nat) : World :=
  ⟨⟨[0], Function.update (fun _ => ⟨none, none, 0⟩) 0 ⟨some (0, 6970), some (0, 6971), (n + 1) % 4294967296⟩, 1, []⟩,
    Function.update (fun _ => 0) 0 (n + 1)⟩

theorem sharedBy_zero : World.step World.new (.create 0 0 granted) = some (sharedBy 0) := by
  have hturn : createUDPSocketPair 65536 World.new.pool 0 0 granted =
      some (some 0, World.new.pool.construct.found 0 0 6970 6971) := rfl
  unfold World.step
  dsimp only
  rw [hturn]
  simp [World.given, Pool.found, construct, World.new, Pool.new, sharedBy]

theorem sharedBy_step (n : Nat) :
    World.step (sharedBy n) (.get 0 0 1 0 (fun _ => none) granted) = some (sharedBy (n + 1)) := by
  have hsearch : (sharedBy n).pool.searchQueue 0 0 1 0 (fun _ => none) = .shared 0 := by
    simp [searchQueue, sharedBy, qIter, findPair]
  unfold World.step getUDPSocketPair
  dsimp only
  rw [hsearch]
  simp only [sharedBy, Option.map_some, World.given, Pool.share, setRefCount, Function.update_self, Function.update_idem]
  rw [Nat.mod_add_mod]

theorem sharedBy_run (n k : Nat) :
    run World.step (sharedBy n) (List.replicate k (.get 0 0 1 0 (fun _ => none) granted)) = some (sharedBy (n + k)) := by
  induction k generalizing n with
  | zero => rfl
  | succ k ih =>
    rw [List.replicate_succ]
    refine run_cons_eq_some.2 ⟨_, sharedBy_step n, ?_⟩
    rw [ih, Nat.add_right_comm, Nat.add_assoc]

end Shared

/-- A pair is created on any port and shared, and given back twice. -/
theorem pool_lawful_iff_shared :
    Always World.step Lawful World.new [.create 0 0 granted, .get 0 0 1 0 (fun _ => none) granted, .release 0, .release 0] ↔
      Along World.step NotWrapped World.new
        [.create 0 0 granted, .get 0 0 1 0 (fun _ => none) granted, .release 0, .release 0] := by
  have hsome : (run World.step World.new
      [.create 0 0 granted, .get 0 0 1 0 (fun _ => none) granted, .release 0, .release 0]).isSome = true := by
    decide +kernel
  exact (pool_lawful_iff _ _ (Option.some_get hsome).symm).2

/-- A pair that is shared 4294967295 times is in the queue with the count 0. -/
theorem pool_count_wraps :
    ¬ Always World.step Lawful World.new
      (.create 0 0 granted :: List.replicate 4294967295 (.get 0 0 1 0 (fun _ => none) granted)) := by
  intro h
  have hlast := h.last (run_cons_eq_some.2 ⟨_, sharedBy_zero, sharedBy_run 0 4294967295⟩)
  have hpos := (hlast.queue 0).1 List.mem_cons_self
  simp [sharedBy] at hpos

end ToolLib.Common.UDPSocketPool
