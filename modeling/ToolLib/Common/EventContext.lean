import ToolLib.Base.Chains
import ToolLib.Base.System
import ToolLib.Common.SelectEvents

/-!
# Event contexts and their IDs

The cookie of an `EventContext` (EventContext.cpp) is its unique ID, and `EventThread::Entry` looks the context up under it
in `fRefTable`. `RequestEvent` takes the ID from a counter that starts again after 10000000 IDs, whoever is still
registered, and does not look at the result of `Register`.

The key of an entry of the table is not a copy: `fString` points to `fUniqueID` of the context, and only the hash value is
as it was when the key was set. `UInt32` and `PointerSizedInt` are right for pointers of 32 bits, so a cookie has as many
bytes as an ID. A step is a region under `fMutex` or an atomic operation, with what its thread does around it to contexts
that are its own: `RequestEvent` is up to three steps, `SnarfEventContext` is two.
-/

namespace ToolLib.Common

open ToolLib.Base

variable {κ : Type*}

/-! ## The table -/

/-- `OSRefTableUtils::HashString` of the four bytes of an ID. -/
def hashString (id : BitVec 32) : Nat :=
  4 * ((id &&& 0xff).toNat + (id >>> 8 &&& 0xff).toNat + (id >>> 16 &&& 0xff).toNat + (id >>> 24).toNat +
    (id >>> 24).toNat)

/-- `OSHashTable::ComputeIndex`, for a table of `kDefaultTableSize` chains. -/
def computeIndex (hashKey : Nat) : Nat := hashKey % 1193

/-- `OSRefTable`: the chains of its hash table. An entry is the `fRef` of a context. -/
abbrev OSRefTable (κ : Type*) := Nat → List κ

namespace OSRefTable

/-- `OSHashTable::Map`: the first entry of the chain with this key. -/
def map (t : OSRefTable κ) (key : κ → BitVec 32) (id : BitVec 32) : Option κ :=
  (t (computeIndex (hashString id))).find? fun c => key c == id

/-- `OSHashTable::Add`. -/
def add (t : OSRefTable κ) (hash : Nat) (c : κ) : OSRefTable κ :=
  Function.update t (computeIndex hash) (c :: t (computeIndex hash))

/-- `OSHashTable::Remove`; it may be called twice. -/
def remove [DecidableEq κ] (t : OSRefTable κ) (hash : Nat) (c : κ) : OSRefTable κ :=
  Function.update t (computeIndex hash) ((t (computeIndex hash)).erase c)

end OSRefTable

/-! ## The contexts -/

/-- Where the thread of a context is. -/
inductive ContextPlace (κ : Type*)
  /-- The context does not exist yet. -/
  | absent
  | idle
  /-- In `RequestEvent`, before `atomic_add`. -/
  | adding (theMask : BitVec 32)
  /-- In `RequestEvent`, before `Register`. -/
  | registering (theMask : BitVec 32)
  /-- In `SnarfEventContext`, before the `fRef` of the other context is unregistered. -/
  | snarfing (fromContext : κ)
  /-- The other context meanwhile. -/
  | snarfed

/-- `EventContext`, with the fields of its `fRef`. -/
structure EventContext (κ : Type*) where
  /-- `none` is `kInvalidFileDesc`. -/
  fFileDesc : Option Nat
  fUniqueID : BitVec 32
  fWatchEventCalled : Bool
  fEventReq : EventReq (BitVec 32)
  fHashValue : Nat
  fRefCount : Nat
  place : ContextPlace κ

/-- The contexts of one `EventThread`. -/
structure EventContexts (κ : Type*) where
  sUniqueID : BitVec 32
  context : κ → EventContext κ
  fRefTable : OSRefTable κ
  /-- The context whose event `EventThread::Entry` processes. -/
  theContext : Option κ

/-- What happens next. -/
inductive ContextAct (κ : Type*)
  | create (c : κ) (inFileDesc : Option Nat)
  /-- `RequestEvent` begins. -/
  | request (c : κ) (theMask : BitVec 32)
  /-- `atomic_add`. -/
  | addID (c : κ)
  /-- From `Register` to the end of `RequestEvent`. -/
  | register (c : κ)
  /-- `SnarfSocket` and `SnarfEventContext`, up to `Swap`. -/
  | snarf (c fromContext : κ)
  /-- The end of `SnarfEventContext`. -/
  | unRegister (c : κ)
  | cleanup (c : κ)
  /-- `EventThread::Entry` gets an event with this cookie. -/
  | resolve (er_data : Option (BitVec 32))
  /-- It has processed the event. -/
  | release

/-- `(void*) fUniqueID`, `none` is `NULL`. -/
def cookieOf (id : BitVec 32) : Option (BitVec 32) := if id = 0 then none else some id

/-- The constructor. -/
def EventContext.new (inFileDesc : Option Nat) (place : ContextPlace κ) : EventContext κ where
  fFileDesc := inFileDesc
  fUniqueID := 0
  fWatchEventCalled := false
  fEventReq := ⟨0, 0, none⟩
  fHashValue := 0
  fRefCount := 0
  place := place

/-- What `SnarfSocket` and `SnarfEventContext` do to the other context. -/
def EventContext.leave (y : EventContext κ) : EventContext κ := { y with fFileDesc := none, place := .snarfed }

/-- What they do to this one, before `Swap`: its descriptor, its ID and its request are those of `y`. -/
def EventContext.take (x y : EventContext κ) (fromContext : κ) : EventContext κ :=
  { x with
    fFileDesc := y.fFileDesc
    fWatchEventCalled := y.fWatchEventCalled
    fUniqueID := y.fUniqueID
    fEventReq := y.fEventReq
    fHashValue := hashString y.fUniqueID
    place := .snarfing fromContext }

/-- Its thread is back from the call. -/
def EventContext.back (x : EventContext κ) : EventContext κ := { x with place := .idle }

namespace EventContexts

def new : EventContexts κ where
  sUniqueID := 1
  context _ := .new none .absent
  fRefTable _ := []
  theContext := none

/-- The key of an entry, where its `fString` points. -/
def key (s : EventContexts κ) (c : κ) : BitVec 32 := (s.context c).fUniqueID

/-- `OSRefTable::Resolve`, what it finds. -/
def lookUp (s : EventContexts κ) (id : BitVec 32) : Option κ := s.fRefTable.map s.key id

/-- The context to which `EventThread::Entry` passes an event with this cookie. -/
def dispatch (s : EventContexts κ) (er_data : Option (BitVec 32)) : Option κ := er_data.bind s.lookUp

variable [DecidableEq κ]

def setContext (s : EventContexts κ) (c : κ) (x : EventContext κ) : EventContexts κ :=
  { s with context := Function.update s.context c x }

/-- The beginning of `RequestEvent`, up to `compare_and_store`. -/
def request (s : EventContexts κ) (c : κ) (theMask : BitVec 32) : EventContexts κ :=
  let x := s.context c
  if x.fWatchEventCalled then s.setContext c { x with fEventReq := { x.fEventReq with er_eventbits := theMask } }
  else if s.sUniqueID = 10000000 then
    { s.setContext c { x with fUniqueID := 1, place := .registering theMask } with sUniqueID := 1 }
  else s.setContext c { x with place := .adding theMask }

def addID (s : EventContexts κ) (c : κ) (theMask : BitVec 32) : EventContexts κ :=
  { s.setContext c { s.context c with fUniqueID := s.sUniqueID + 1, place := .registering theMask } with
    sUniqueID := s.sUniqueID + 1 }

/-- `Register`, after `fRef.Set`, and the rest of `RequestEvent`. An ID that is taken already is not registered. -/
def register (s : EventContexts κ) (c : κ) (fd : Nat) (theMask : BitVec 32) : EventContexts κ :=
  let x := s.context c
  let hash := hashString x.fUniqueID
  { s.setContext c { x with
      fHashValue := hash
      fEventReq := ⟨fd, theMask, cookieOf x.fUniqueID⟩
      fWatchEventCalled := true
      place := .idle } with
    fRefTable := if (s.lookUp x.fUniqueID).isSome then s.fRefTable else s.fRefTable.add hash c }

/-- `Swap`: the entry with the key of `c` makes way for that of `c`. -/
def swap (s : EventContexts κ) (c : κ) : EventContexts κ :=
  match s.lookUp (s.key c) with
  | some oldRef =>
    { s with
      fRefTable :=
        (s.fRefTable.remove (s.context oldRef).fHashValue oldRef).add (s.context c).fHashValue c }
  | none => s

/-- The contexts before `Swap`. -/
def snarfing (s : EventContexts κ) (c fromContext : κ) : EventContexts κ :=
  let y := s.context fromContext
  let s := s.setContext fromContext y.leave
  s.setContext c ((s.context c).take y fromContext)

def snarf (s : EventContexts κ) (c fromContext : κ) : EventContexts κ := (s.snarfing c fromContext).swap c

/-- The end of `SnarfEventContext`. -/
def unRegister (s : EventContexts κ) (c fromContext : κ) : EventContexts κ :=
  { (s.setContext c (s.context c).back).setContext fromContext (s.context fromContext).back with
    fRefTable := s.fRefTable.remove (s.context fromContext).fHashValue fromContext }

def cleanup (s : EventContexts κ) (c : κ) : EventContexts κ :=
  let x := s.context c
  { s.setContext c { x with fFileDesc := none, fUniqueID := 0 } with
    fRefTable :=
      if x.fFileDesc.isSome ∧ x.fUniqueID ≠ 0 then s.fRefTable.remove x.fHashValue c else s.fRefTable }

def step (s : EventContexts κ) : ContextAct κ → Option (EventContexts κ)
  | .create c fd =>
    match (s.context c).place with
    | .absent => some (s.setContext c (.new fd .idle))
    | _ => none
  | .request c theMask =>
    match (s.context c).place, (s.context c).fFileDesc with
    | .idle, some _ => some (s.request c theMask)
    | _, _ => none
  | .addID c =>
    match (s.context c).place with
    | .adding theMask => some (s.addID c theMask)
    | _ => none
  | .register c =>
    match (s.context c).place, (s.context c).fFileDesc with
    | .registering theMask, some fd => some (s.register c fd theMask)
    | _, _ => none
  | .snarf c fromContext =>
    -- `SnarfSocket` asserts that `c` has no descriptor
    match (s.context c).place, (s.context fromContext).place, (s.context c).fFileDesc with
    | .idle, .idle, none => if c = fromContext then none else some (s.snarf c fromContext)
    | _, _, _ => none
  | .unRegister c =>
    match (s.context c).place with
    | .snarfing fromContext =>
      if (s.context fromContext).fRefCount = 0 then some (s.unRegister c fromContext) else none
    | _ => none
  | .cleanup c =>
    match (s.context c).place with
    | .idle =>
      -- only `UnRegister` waits for the thread that holds the `fRef`
      if (s.context c).fFileDesc.isSome ∧ (s.context c).fUniqueID ≠ 0 ∧ (s.context c).fRefCount ≠ 0 then none
      else some (s.cleanup c)
    | _ => none
  | .resolve er_data =>
    match s.theContext, s.dispatch er_data with
    | none, some c =>
      some { s.setContext c { s.context c with fRefCount := (s.context c).fRefCount + 1 } with theContext := some c }
    | none, none => some s
    | some _, _ => none
  | .release =>
    match s.theContext with
    | some c =>
      some { s.setContext c { s.context c with fRefCount := (s.context c).fRefCount - 1 } with theContext := none }
    | none => none

/-! ## What a step does -/

/-- What a step can do. -/
inductive Does (s : EventContexts κ) : ContextAct κ → EventContexts κ → Prop
  | create {c : κ} {fd : Option Nat} (hp : (s.context c).place = .absent) :
    Does s (.create c fd) (s.setContext c (.new fd .idle))
  | again {c : κ} {theMask : BitVec 32} (hp : (s.context c).place = .idle)
      (hw : (s.context c).fWatchEventCalled = true) :
    Does s (.request c theMask) (s.setContext c
      { s.context c with fEventReq := { (s.context c).fEventReq with er_eventbits := theMask } })
  | wrap {c : κ} {theMask : BitVec 32} (hp : (s.context c).place = .idle)
      (hw : (s.context c).fWatchEventCalled = false) (hid : s.sUniqueID = 10000000) :
    Does s (.request c theMask)
      { s.setContext c { s.context c with fUniqueID := 1, place := .registering theMask } with sUniqueID := 1 }
  | ask {c : κ} {theMask : BitVec 32} (hp : (s.context c).place = .idle)
      (hw : (s.context c).fWatchEventCalled = false) (hid : s.sUniqueID ≠ 10000000) :
    Does s (.request c theMask) (s.setContext c { s.context c with place := .adding theMask })
  | addID {c : κ} {theMask : BitVec 32} (hp : (s.context c).place = .adding theMask) :
    Does s (.addID c) (s.addID c theMask)
  | register {c : κ} {theMask : BitVec 32} {fd : Nat} (hp : (s.context c).place = .registering theMask)
      (hf : (s.context c).fFileDesc = some fd) :
    Does s (.register c) (s.register c fd theMask)
  | snarf {c fromContext : κ} (hp : (s.context c).place = .idle) (hq : (s.context fromContext).place = .idle)
      (hf : (s.context c).fFileDesc = none) (hne : c ≠ fromContext) :
    Does s (.snarf c fromContext) (s.snarf c fromContext)
  | unRegister {c fromContext : κ} (hp : (s.context c).place = .snarfing fromContext) :
    Does s (.unRegister c) (s.unRegister c fromContext)
  | cleanup {c : κ} (hp : (s.context c).place = .idle) : Does s (.cleanup c) (s.cleanup c)
  | resolve {er_data : Option (BitVec 32)} {c : κ} (hd : s.dispatch er_data = some c) :
    Does s (.resolve er_data)
      { s.setContext c { s.context c with fRefCount := (s.context c).fRefCount + 1 } with theContext := some c }
  | unknown {er_data : Option (BitVec 32)} (hd : s.dispatch er_data = none) : Does s (.resolve er_data) s
  | release {c : κ} (ht : s.theContext = some c) :
    Does s .release
      { s.setContext c { s.context c with fRefCount := (s.context c).fRefCount - 1 } with theContext := none }

theorem step_cases {s s' : EventContexts κ} {a : ContextAct κ} (h : s.step a = some s') : Does s a s' := by
  cases a with
  | create c fd =>
    simp only [step] at h
    split at h
    · cases h
      exact .create ‹_›
    · cases h
  | request c theMask =>
    simp only [step] at h
    split at h
    · cases h
      rename_i hp _
      simp only [request]
      split
      · exact .again hp ‹_›
      · rename_i hw
        rw [Bool.not_eq_true] at hw
        split
        · exact .wrap hp hw ‹_›
        · exact .ask hp hw ‹_›
    · cases h
  | addID c =>
    simp only [step] at h
    split at h
    · cases h
      exact .addID ‹_›
    · cases h
  | register c =>
    simp only [step] at h
    split at h
    · cases h
      exact .register ‹_› ‹_›
    · cases h
  | snarf c fromContext =>
    simp only [step] at h
    split at h
    · rename_i hp hq hf
      split at h
      · cases h
      · cases h
        exact .snarf hp hq hf ‹_›
    · cases h
  | unRegister c =>
    simp only [step] at h
    split at h
    · rename_i f hp
      split at h
      · cases h
        exact .unRegister hp
      · cases h
    · cases h
  | cleanup c =>
    simp only [step] at h
    split at h
    · split at h
      · cases h
      · cases h
        exact .cleanup ‹_›
    · cases h
  | resolve er_data =>
    simp only [step] at h
    split at h
    · cases h
      exact .resolve ‹_›
    · cases h
      exact .unknown ‹_›
    · cases h
  | release =>
    simp only [step] at h
    split at h
    · cases h
      exact .release ‹_›
    · cases h

end EventContexts

end ToolLib.Common
