import ToolLib.Common.EventContext

/-!
# When a cookie finds its context

`Identified`: the contexts that are registered have different IDs, each is found under its ID, and an event with its cookie
is passed to it. Each run keeps this as long as every ID that `RequestEvent` draws, or that a snarfing context takes over,
is not in use by another context (`Fresh`), and no longer (`identified_iff`): the counter starts again without a look at
the table, and when `Register` then finds the ID taken, the new context goes on without an entry.

The invariant is that the table holds the registered contexts, each in the chain of its ID (`Kept`).
-/

namespace ToolLib.Common

open ToolLib.Base

variable {κ : Type*}

/-! ## Identity -/

/-- `RequestEvent` has been called, and the context still has its descriptor. -/
def EventContext.Registered (x : EventContext κ) : Prop := x.fWatchEventCalled = true ∧ x.fFileDesc ≠ none

instance (x : EventContext κ) : Decidable x.Registered :=
  inferInstanceAs (Decidable (x.fWatchEventCalled = true ∧ x.fFileDesc ≠ none))

namespace EventContexts

/-- The IDs do their job. -/
structure Identified (s : EventContexts κ) : Prop where
  /-- Two contexts that are registered have different IDs. -/
  distinct : ∀ c d, (s.context c).Registered → (s.context d).Registered → s.key c = s.key d → c = d
  /-- A registered context is found under its ID. -/
  found : ∀ c, (s.context c).Registered → s.lookUp (s.key c) = some c
  /-- An event with the cookie of a registered context is passed to this context. -/
  dispatched : ∀ c, (s.context c).Registered → s.dispatch (s.context c).fEventReq.er_data = some c

/-- The ID that `Register` or `Swap` is about to use is not that of another registered context. -/
def Fresh (s : EventContexts κ) : ContextAct κ → Prop
  | .register c => s.key c ≠ 0 ∧ ∀ d, (s.context d).Registered → s.key d ≠ s.key c
  | .snarf _ fromContext => ∀ d, (s.context d).Registered → s.key d = s.key fromContext → d = fromContext
  | _ => True

end EventContexts

/-! ## The invariant -/

/-- The chain of the entry of a context. -/
def EventContext.chain (x : EventContext κ) : Option Nat :=
  if x.Registered then some (computeIndex (hashString x.fUniqueID)) else none

/-- What the fields of a context say about it. -/
structure EventContext.Sound (x : EventContext κ) : Prop where
  id_ne_zero : x.Registered → x.fUniqueID ≠ 0
  er_data : x.Registered → x.fEventReq.er_data = some x.fUniqueID
  hash : x.Registered → x.fHashValue = hashString x.fUniqueID
  absent : x.place = .absent → x.fWatchEventCalled = false
  adding : ∀ theMask, x.place = .adding theMask → x.fWatchEventCalled = false
  registering : ∀ theMask, x.place = .registering theMask → x.fWatchEventCalled = false
  snarfed : x.place = .snarfed → x.fFileDesc = none

/-- The table holds the registered contexts, under different IDs. -/
structure Kept (context : κ → EventContext κ) (t : OSRefTable κ) : Prop where
  sound : ∀ c, (context c).Sound
  distinct : ∀ c d, (context c).Registered → (context d).Registered →
    (context c).fUniqueID = (context d).fUniqueID → c = d
  placed : Placed t fun c => (context c).chain

/-- Neither snarfing nor being snarfed. -/
def ContextPlace.Free : ContextPlace κ → Prop
  | .snarfing _ => False
  | .snarfed => False
  | _ => True

/-- A context that is being snarfed is so by one other. -/
def Paired (context : κ → EventContext κ) : Prop :=
  ∀ c f, (context c).place = .snarfing f →
    (context f).place = .snarfed ∧ ∀ d, (context d).place = .snarfing f → d = c

section Kept

variable {context : κ → EventContext κ} {t t' : OSRefTable κ} {x : EventContext κ} {c d : κ} {id : BitVec 32}
  {key : κ → BitVec 32}

theorem EventContext.chain_of_registered (h : x.Registered) : x.chain = some (computeIndex (hashString x.fUniqueID)) :=
  if_pos h

theorem EventContext.chain_eq_none : x.chain = none ↔ ¬ x.Registered := by
  simp [EventContext.chain]

theorem EventContext.not_registered_of_watch (h : x.fWatchEventCalled = false) : ¬ x.Registered := by
  simp [EventContext.Registered, h]

theorem EventContext.not_registered_of_desc (h : x.fFileDesc = none) : ¬ x.Registered := by
  simp [EventContext.Registered, h]

/-- The entry is where `Remove` looks for it. -/
theorem EventContext.Sound.chain_hash (hx : x.Sound) {i : Nat} (h : x.chain = some i) :
    i = computeIndex x.fHashValue := by
  by_cases hr : x.Registered
  · rw [EventContext.chain_of_registered hr, ← hx.hash hr] at h
    exact (Option.some.inj h).symm
  · rw [EventContext.chain_eq_none.2 hr] at h
    cases h

theorem Kept.registered_of_mem (K : Kept context t) {i : Nat} (h : c ∈ t i) : (context c).Registered := by
  by_contra hr
  rw [K.placed.mem_iff, EventContext.chain_eq_none.2 hr] at h
  cases h

/-- A registered context is found under its key, when the keys of the entries are their IDs. -/
theorem Kept.map_eq_some (K : Kept context t)
    (hk : ∀ d, (context d).Registered → key d = (context d).fUniqueID) (hc : (context c).Registered) :
    t.map key (context c).fUniqueID = some c := by
  apply find?_eq_some_of_unique
  · rw [K.placed.mem_iff]
    exact EventContext.chain_of_registered hc
  · rw [hk c hc]
    exact beq_self_eq_true _
  · intro d hd hid
    have hr := K.registered_of_mem hd
    rw [beq_iff_eq, hk d hr] at hid
    exact K.distinct d c hr hc hid

theorem Kept.map_eq_none (K : Kept context t)
    (hk : ∀ d, (context d).Registered → key d = (context d).fUniqueID)
    (hid : ∀ d, (context d).Registered → (context d).fUniqueID ≠ id) : t.map key id = none := by
  apply List.find?_eq_none.2
  intro d hd
  have hr := K.registered_of_mem hd
  rw [beq_iff_eq, hk d hr]
  exact hid d hr

variable [DecidableEq κ]

/-- One context changes, and its entry with it. -/
theorem Kept.update (K : Kept context t) (hx : x.Sound)
    (hd : x.Registered → ∀ d, d ≠ c → (context d).Registered → (context d).fUniqueID ≠ x.fUniqueID)
    (hp : Placed t' (Function.update (fun c => (context c).chain) c x.chain)) :
    Kept (Function.update context c x) t' := by
  constructor
  · intro d
    rcases eq_or_ne d c with rfl | hne
    · rwa [Function.update_self]
    · rw [Function.update_of_ne hne]
      exact K.sound d
  · exact distinct_update K.distinct hd
  · convert hp using 1
    exact Function.comp_update EventContext.chain context c x

/-- One context changes, and keeps what the table is about. -/
theorem Kept.keep (K : Kept context t) (hx : x.Sound) (hr : x.Registered ↔ (context c).Registered)
    (hid : x.Registered → x.fUniqueID = (context c).fUniqueID) : Kept (Function.update context c x) t := by
  apply K.update hx
  · intro h d hne hd heq
    exact hne (K.distinct d c hd (hr.1 h) (heq.trans (hid h)))
  · have hchain : x.chain = (context c).chain := by
      by_cases h : x.Registered
      · rw [EventContext.chain_of_registered h, EventContext.chain_of_registered (hr.1 h), hid h]
      · rw [EventContext.chain_eq_none.2 h, EventContext.chain_eq_none.2 (mt hr.2 h)]
    rw [hchain, Function.update_eq_self]
    exact K.placed

/-- A context is registered no more, and its entry removed. -/
theorem Kept.drop (K : Kept context t) (hx : x.Sound) (hr : ¬ x.Registered) :
    Kept (Function.update context c x) (t.remove (context c).fHashValue c) := by
  apply K.update hx
  · intro h
    exact absurd h hr
  · rw [EventContext.chain_eq_none.2 hr]
    exact K.placed.erase fun i hi => (K.sound c).chain_hash hi

/-- A context is registered, under an ID that is free. -/
theorem Kept.enter (K : Kept context t) (hx : x.Sound) (hr : x.Registered) (hc : ¬ (context c).Registered)
    (hd : ∀ d, d ≠ c → (context d).Registered → (context d).fUniqueID ≠ x.fUniqueID) :
    Kept (Function.update context c x) (t.add (hashString x.fUniqueID) c) := by
  apply K.update hx
  · intro _
    exact hd
  · rw [EventContext.chain_of_registered hr]
    exact K.placed.push (EventContext.chain_eq_none.2 hc)

end Kept

section Fields

variable {x : EventContext κ}

theorem EventContext.sound_of_watch (hw : x.fWatchEventCalled = false) (hp : x.place.Free) : x.Sound where
  id_ne_zero h := absurd h (not_registered_of_watch hw)
  er_data h := absurd h (not_registered_of_watch hw)
  hash h := absurd h (not_registered_of_watch hw)
  absent _ := hw
  adding _ _ := hw
  registering _ _ := hw
  snarfed h := by
    rw [h] at hp
    exact hp.elim

theorem EventContext.sound_of_desc (hf : x.fFileDesc = none) (hp : x.place ≠ .absent)
    (ha : ∀ theMask, x.place ≠ .adding theMask) (hr : ∀ theMask, x.place ≠ .registering theMask) : x.Sound where
  id_ne_zero h := absurd h (not_registered_of_desc hf)
  er_data h := absurd h (not_registered_of_desc hf)
  hash h := absurd h (not_registered_of_desc hf)
  absent h := absurd h hp
  adding theMask h := absurd h (ha theMask)
  registering theMask h := absurd h (hr theMask)
  snarfed _ := hf

theorem EventContext.sound_leave : x.leave.Sound :=
  sound_of_desc rfl (fun h => by cases h) (fun _ h => by cases h) fun _ h => by cases h

theorem EventContext.Sound.back (hx : x.Sound) : x.back.Sound where
  id_ne_zero h := hx.id_ne_zero h
  er_data h := hx.er_data h
  hash h := hx.hash h
  absent h := by cases h
  adding _ h := by cases h
  registering _ h := by cases h
  snarfed h := by cases h

theorem EventContext.Sound.take {y : EventContext κ} {f : κ} (hy : y.Sound) : (x.take y f).Sound where
  id_ne_zero h := hy.id_ne_zero h
  er_data h := hy.er_data h
  hash _ := rfl
  absent h := by cases h
  adding _ h := by cases h
  registering _ h := by cases h
  snarfed h := by cases h

end Fields

section Paired

variable {context context' : κ → EventContext κ} {x : EventContext κ} {c f : κ}

theorem Paired.same (P : Paired context) (hplace : ∀ d, (context' d).place = (context d).place) : Paired context' := by
  intro d g h
  simp only [hplace] at h ⊢
  exact P d g h

/-- `c` and `f` change, which no other context snarfs: afterwards they are a pair, or apart. -/
theorem Paired.two (P : Paired context) (hframe : ∀ d, d ≠ c → d ≠ f → (context' d).place = (context d).place)
    (hout : ∀ d g, d ≠ c → d ≠ f → (context d).place = .snarfing g → g ≠ c ∧ g ≠ f)
    (hf : ∀ g, (context' f).place ≠ .snarfing g)
    (hc : ∀ g, (context' c).place = .snarfing g → g = f ∧ (context' f).place = .snarfed) : Paired context' := by
  intro d g h
  have hdf : d ≠ f := by
    rintro rfl
    exact hf g h
  rcases eq_or_ne d c with rfl | hdc
  · obtain ⟨rfl, hg⟩ := hc g h
    refine ⟨hg, fun e he => ?_⟩
    by_contra hed
    have heg : e ≠ g := by
      rintro rfl
      exact hf e he
    rw [hframe e hed heg] at he
    exact (hout e g hed heg he).2 rfl
  · rw [hframe d hdc hdf] at h
    obtain ⟨hgc, hgf⟩ := hout d g hdc hdf h
    obtain ⟨hg, hu⟩ := P d g h
    rw [hframe g hgc hgf]
    refine ⟨hg, fun e he => ?_⟩
    have hec : e ≠ c := by
      rintro rfl
      exact hgf (hc g he).1
    have hef : e ≠ f := by
      rintro rfl
      exact hf g he
    rw [hframe e hec hef] at he
    exact hu e he

theorem Paired.free [DecidableEq κ] (P : Paired context) (hc : (context c).place.Free) (hx : x.place.Free) :
    Paired (Function.update context c x) := by
  have hnot : ∀ g, x.place ≠ .snarfing g := by
    intro g h
    rw [h] at hx
    exact hx
  apply P.two (c := c) (f := c)
  · intro d hd _
    rw [Function.update_of_ne hd]
  · intro d g _ _ h
    have hg : g ≠ c := by
      rintro rfl
      rw [(P d g h).1] at hc
      exact hc
    exact ⟨hg, hg⟩
  · simpa only [Function.update_self] using hnot
  · intro g h
    rw [Function.update_self] at h
    exact absurd h (hnot g)

end Paired

/-! ## The steps -/

namespace EventContexts

variable [DecidableEq κ] {s s' : EventContexts κ} {c f d : κ} {a : ContextAct κ}

/-- **The invariant.** -/
structure Inv (s : EventContexts κ) : Prop where
  kept : Kept s.context s.fRefTable
  paired : Paired s.context

omit [DecidableEq κ] in
theorem inv_new : (new : EventContexts κ).Inv := by
  have hr : ∀ c, ¬ ((new : EventContexts κ).context c).Registered := fun c =>
    EventContext.not_registered_of_watch rfl
  refine ⟨⟨fun _ => EventContext.sound_of_watch rfl trivial, fun c _ h => absurd h (hr c), ?_⟩, fun _ _ h => by cases h⟩
  have hchain : (fun c => ((new : EventContexts κ).context c).chain) = fun _ => none :=
    funext fun c => EventContext.chain_eq_none.2 (hr c)
  rw [hchain]
  exact placed_empty

omit [DecidableEq κ] in
theorem Inv.lookUp (I : s.Inv) (hc : (s.context c).Registered) : s.lookUp (s.key c) = some c :=
  I.kept.map_eq_some (fun _ _ => rfl) hc

omit [DecidableEq κ] in
theorem Inv.identified (I : s.Inv) : s.Identified where
  distinct := I.kept.distinct
  found c hc := I.lookUp hc
  dispatched c hc := by
    rw [(I.kept.sound c).er_data hc]
    exact I.lookUp hc

/-- A context that is not registered changes, and is not registered. -/
theorem Inv.unregistered {x : EventContext κ} (I : s.Inv) (hs : s'.context = Function.update s.context c x)
    (ht : s'.fRefTable = s.fRefTable) (hc : (s.context c).fWatchEventCalled = false) (hp : (s.context c).place.Free)
    (hx : x.fWatchEventCalled = false) (hxp : x.place.Free) : s'.Inv := by
  constructor
  · rw [hs, ht]
    exact I.kept.keep (EventContext.sound_of_watch hx hxp)
      (iff_of_false (EventContext.not_registered_of_watch hx) (EventContext.not_registered_of_watch hc))
      fun h => absurd h (EventContext.not_registered_of_watch hx)
  · rw [hs]
    exact I.paired.free hp hxp

theorem place_update {x : EventContext κ} (hx : x.place = (s.context c).place) (d : κ) :
    (Function.update s.context c x d).place = (s.context d).place := by
  rcases eq_or_ne d c with rfl | hd
  · rw [Function.update_self, hx]
  · rw [Function.update_of_ne hd]

/-- Only the mask or the reference count changes. -/
theorem Inv.same {x : EventContext κ} (I : s.Inv) (hs : s'.context = Function.update s.context c x)
    (ht : s'.fRefTable = s.fRefTable) (hx : x.Sound) (hr : x.Registered ↔ (s.context c).Registered)
    (hid : x.fUniqueID = (s.context c).fUniqueID) (hp : x.place = (s.context c).place) : s'.Inv := by
  constructor
  · rw [hs, ht]
    exact I.kept.keep hx hr fun _ => hid
  · rw [hs]
    exact I.paired.same (place_update hp)

theorem Inv.register {theMask : BitVec 32} {fd : Nat} (I : s.Inv) (hp : (s.context c).place = .registering theMask)
    (hf : (s.context c).fFileDesc = some fd) (hid : s.key c ≠ 0)
    (hfree : ∀ d, (s.context d).Registered → s.key d ≠ s.key c) :
    (s.register c fd theMask).Inv := by
  have hw := (I.kept.sound c).registering theMask hp
  have hnone : s.lookUp (s.context c).fUniqueID = none := I.kept.map_eq_none (fun _ _ => rfl) hfree
  constructor
  · simp only [EventContexts.register, hnone, Option.isSome_none, Bool.false_eq_true, if_false]
    apply I.kept.enter
    · exact
        { id_ne_zero := fun _ => hid
          er_data := fun _ => if_neg hid
          hash := fun _ => rfl
          absent := fun h => by cases h
          adding := fun _ h => by cases h
          registering := fun _ h => by cases h
          snarfed := fun h => by cases h }
    · exact ⟨rfl, by simp [hf]⟩
    · exact EventContext.not_registered_of_watch hw
    · intro d _ hd
      exact hfree d hd
  · apply I.paired.free
    · rw [hp]
      trivial
    · trivial

theorem Inv.cleanup (I : s.Inv) (hp : (s.context c).place = .idle) : (s.cleanup c).Inv := by
  constructor
  · have hx : EventContext.Sound { s.context c with fFileDesc := none, fUniqueID := 0 } := by
      apply EventContext.sound_of_desc rfl
      · simp [hp]
      · intro _ h
        simp [hp] at h
      · intro _ h
        simp [hp] at h
    have hr : ¬ EventContext.Registered { s.context c with fFileDesc := none, fUniqueID := 0 } :=
      EventContext.not_registered_of_desc rfl
    simp only [EventContexts.cleanup]
    split
    · exact I.kept.drop hx hr
    · rename_i hout
      refine I.kept.keep hx (iff_of_false hr fun h => hout ⟨?_, (I.kept.sound c).id_ne_zero h⟩) fun h => absurd h hr
      exact Option.isSome_iff_ne_none.2 h.2
  · exact I.paired.same (place_update rfl)

theorem swap_of_some (h : s.lookUp (s.key c) = some d) :
    s.swap c = { s with
      fRefTable := (s.fRefTable.remove (s.context d).fHashValue d).add (s.context c).fHashValue c } := by
  simp only [swap, h]

theorem swap_of_none (h : s.lookUp (s.key c) = none) : s.swap c = s := by
  simp only [swap, h]

theorem snarfing_key (hd : d ≠ c) : (s.snarfing c f).key d = s.key d := by
  simp only [snarfing, key, setContext, Function.update_of_ne hd]
  rcases eq_or_ne d f with rfl | hdf
  · rw [Function.update_self]
    rfl
  · rw [Function.update_of_ne hdf]

theorem snarfing_key_self : (s.snarfing c f).key c = s.key f := by
  simp only [snarfing, key, setContext, Function.update_self]
  rfl

theorem snarfing_context (hne : c ≠ f) : (s.snarfing c f).context =
    Function.update (Function.update s.context f (s.context f).leave) c ((s.context c).take (s.context f) f) := by
  simp only [snarfing, setContext, Function.update_of_ne hne]

theorem swap_context : (s.swap c).context = s.context := by
  unfold swap
  split
  · rfl
  · rfl

theorem swap_sUniqueID : (s.swap c).sUniqueID = s.sUniqueID := by
  unfold swap
  split
  · rfl
  · rfl

theorem snarfing_of_ne (hc : d ≠ c) (hf : d ≠ f) : (s.snarfing c f).context d = s.context d := by
  simp only [snarfing, setContext, Function.update_of_ne hc, Function.update_of_ne hf]

theorem snarfing_self (hne : c ≠ f) : (s.snarfing c f).context c = (s.context c).take (s.context f) f := by
  simp only [snarfing, setContext, Function.update_self, Function.update_of_ne hne]

theorem snarfing_other (hne : c ≠ f) : (s.snarfing c f).context f = (s.context f).leave := by
  simp only [snarfing, setContext, Function.update_of_ne hne.symm, Function.update_self]

theorem Inv.snarfing_paired (I : s.Inv) (hp : (s.context c).place = .idle) (hq : (s.context f).place = .idle)
    (hne : c ≠ f) : Paired (s.snarfing c f).context := by
  apply I.paired.two (c := c) (f := f)
  · intro d hc hf
    rw [snarfing_of_ne hc hf]
  · intro d g _ _ h
    have hg := (I.paired d g h).1
    constructor
    · rintro rfl
      rw [hp] at hg
      cases hg
    · rintro rfl
      rw [hq] at hg
      cases hg
  · intro g h
    rw [snarfing_other hne] at h
    cases h
  · intro g h
    rw [snarfing_self hne] at h
    cases h
    rw [snarfing_other hne]
    exact ⟨rfl, rfl⟩

/-- In `Swap` the key is that of the other context, in the table as it was. -/
theorem Inv.snarfing_lookUp (I : s.Inv) (hc : (s.context c).fFileDesc = none) (hd : (s.context d).Registered)
    (hid : s.key d = s.key f) : (s.snarfing c f).lookUp ((s.snarfing c f).key c) = some d := by
  rw [snarfing_key_self, ← hid]
  refine I.kept.map_eq_some (fun e he => snarfing_key ?_) hd
  rintro rfl
  exact EventContext.not_registered_of_desc hc he

theorem Inv.snarf (I : s.Inv) (hp : (s.context c).place = .idle) (hq : (s.context f).place = .idle)
    (hc : (s.context c).fFileDesc = none) (hne : c ≠ f)
    (hfree : ∀ d, (s.context d).Registered → s.key d = s.key f → d = f) : (s.snarf c f).Inv := by
  have hcr : ¬ (s.context c).Registered := EventContext.not_registered_of_desc hc
  have hy : (s.context f).leave.Sound := EventContext.sound_leave
  have hyr : ¬ (s.context f).leave.Registered := EventContext.not_registered_of_desc rfl
  have hx : ((s.context c).take (s.context f) f).Sound := (I.kept.sound f).take
  have hframe : Function.update s.context f (s.context f).leave c = s.context c := Function.update_of_ne hne _ _
  have hcontext := snarfing_context (s := s) hne
  unfold EventContexts.snarf
  by_cases hf : (s.context f).Registered
  · -- the entry of `f` makes way for that of `c`
    rw [swap_of_some (I.snarfing_lookUp hc hf rfl), snarfing_other hne, snarfing_self hne]
    refine ⟨?_, I.snarfing_paired hp hq hne⟩
    change Kept (s.snarfing c f).context _
    rw [hcontext]
    refine (I.kept.drop hy hyr).enter hx hf (by rwa [hframe]) fun d hd hdr hdid => ?_
    rcases eq_or_ne d f with rfl | hdf
    · rw [Function.update_self] at hdr
      exact hyr hdr
    · rw [Function.update_of_ne hdf] at hdr hdid
      exact hdf (hfree d hdr hdid)
  · -- nothing is found, and `c` is not registered either
    have hout : (s.snarfing c f).lookUp ((s.snarfing c f).key c) = none := by
      rw [snarfing_key_self]
      refine I.kept.map_eq_none (fun e he => snarfing_key ?_) fun d hd hid => ?_
      · rintro rfl
        exact hcr he
      · rw [hfree d hd hid] at hd
        exact hf hd
    rw [swap_of_none hout]
    refine ⟨?_, I.snarfing_paired hp hq hne⟩
    rw [hcontext]
    refine (I.kept.keep hy (iff_of_false hyr hf) fun h => absurd h hyr).keep hx ?_ fun h => absurd h hf
    rw [hframe]
    exact iff_of_false hf hcr

theorem Inv.unRegister (I : s.Inv) (hp : (s.context c).place = .snarfing f) : (s.unRegister c f).Inv := by
  obtain ⟨hf, hu⟩ := I.paired c f hp
  have hne : f ≠ c := by
    rintro rfl
    rw [hp] at hf
    cases hf
  have hfr : ¬ (s.context f).Registered := EventContext.not_registered_of_desc ((I.kept.sound f).snarfed hf)
  constructor
  · have K : Kept (Function.update s.context c (s.context c).back) s.fRefTable :=
      I.kept.keep (I.kept.sound c).back Iff.rfl fun _ => rfl
    have hframe : Function.update s.context c (s.context c).back f = s.context f := Function.update_of_ne hne _ _
    have K' := K.drop (c := f) (x := (s.context f).back) (I.kept.sound f).back hfr
    rw [hframe] at K'
    exact K'
  · apply I.paired.two (c := c) (f := f)
    · intro d hdc hdf
      simp only [EventContexts.unRegister, setContext, Function.update_of_ne hdf, Function.update_of_ne hdc]
    · intro d g hdc _ h
      constructor
      · rintro rfl
        rw [(I.paired d g h).1] at hp
        cases hp
      · rintro rfl
        exact hdc (hu d h)
    · intro g h
      simp only [EventContexts.unRegister, setContext, Function.update_self] at h
      cases h
    · intro g h
      simp only [EventContexts.unRegister, setContext, Function.update_of_ne hne.symm, Function.update_self] at h
      cases h

theorem inv_step (I : s.Inv) (hF : Fresh s a) (h : s.step a = some s') : s'.Inv := by
  cases step_cases h with
  | create hp =>
    have hw := (I.kept.sound _).absent hp
    exact I.unregistered rfl rfl hw (by rw [hp]; trivial) rfl trivial
  | wrap hp hw _ | ask hp hw _ => exact I.unregistered rfl rfl hw (by rw [hp]; trivial) hw trivial
  | addID hp =>
    have hw := (I.kept.sound _).adding _ hp
    exact I.unregistered rfl rfl hw (by rw [hp]; trivial) hw trivial
  | register hp hf => exact I.register hp hf hF.1 hF.2
  | snarf hp hq hf hne => exact I.snarf hp hq hf hne hF
  | unRegister hp => exact I.unRegister hp
  | cleanup hp => exact I.cleanup hp
  | again _ _ | resolve _ | release _ =>
    have hs := I.kept.sound
    refine I.same rfl rfl ?_ Iff.rfl rfl rfl
    exact ⟨(hs _).id_ne_zero, (hs _).er_data, (hs _).hash, (hs _).absent, (hs _).adding, (hs _).registering,
      (hs _).snarfed⟩
  | unknown _ => exact I

/-! ## The exact condition -/

/-- A registration that goes well was under an ID that nobody had. -/
theorem Inv.fresh_register {theMask : BitVec 32} {fd : Nat} (I : s.Inv)
    (hp : (s.context c).place = .registering theMask) (hf : (s.context c).fFileDesc = some fd)
    (h : (s.register c fd theMask).Identified) : Fresh s (.register c) := by
  have hw := (I.kept.sound c).registering theMask hp
  have hself : (s.register c fd theMask).context c = { s.context c with
      fHashValue := hashString (s.key c)
      fEventReq := ⟨fd, theMask, cookieOf (s.key c)⟩
      fWatchEventCalled := true
      place := .idle } := Function.update_self ..
  have hc : ((s.register c fd theMask).context c).Registered := by
    rw [hself]
    exact ⟨rfl, by simp [hf]⟩
  constructor
  · intro hzero
    have hd := h.dispatched c hc
    rw [hself] at hd
    simp [dispatch, cookieOf, hzero] at hd
  · intro d hd hid
    have hdc : d ≠ c := by
      rintro rfl
      exact EventContext.not_registered_of_watch hw hd
    have hframe : (s.register c fd theMask).context d = s.context d := Function.update_of_ne hdc _ _
    apply hdc
    apply h.distinct d c
    · rwa [hframe]
    · exact hc
    · rw [key, key, hframe, hself]
      exact hid

omit [DecidableEq κ] in
/-- The first entry of its chain. -/
theorem map_add_self {t : OSRefTable κ} {key : κ → BitVec 32} :
    (t.add (hashString (key c)) c).map key (key c) = some c := by
  simp [OSRefTable.add, OSRefTable.map]

theorem Inv.fresh_snarf (I : s.Inv) (hc : (s.context c).fFileDesc = none) (hne : c ≠ f)
    (h : (s.snarf c f).Identified) : Fresh s (.snarf c f) := by
  intro d hd hid
  by_contra hdf
  have hdc : d ≠ c := by
    rintro rfl
    exact EventContext.not_registered_of_desc hc hd
  have hswap := swap_of_some (I.snarfing_lookUp hc hd hid)
  have hcontext : (s.snarf c f).context d = s.context d := by
    rw [EventContexts.snarf, hswap]
    exact snarfing_of_ne hdc hdf
  have hfound := h.found d (by rwa [hcontext])
  have hkey : (s.snarf c f).key d = (s.snarfing c f).key c := by
    rw [key, hcontext, snarfing_key_self]
    exact hid
  rw [hkey, EventContexts.snarf, hswap] at hfound
  have hhash : ((s.snarfing c f).context c).fHashValue = hashString ((s.snarfing c f).key c) := by
    rw [key, snarfing_self hne]
    rfl
  rw [hhash] at hfound
  exact hdc (Option.some.inj (hfound.symm.trans map_add_self))

theorem fresh_of_identified (I : s.Inv) (h : s.step a = some s') (h' : s'.Identified) : Fresh s a := by
  cases step_cases h with
  | register hp hf => exact I.fresh_register hp hf h'
  | snarf hp hq hf hne => exact I.fresh_snarf hf hne h'
  | _ => trivial

/-- **The IDs do their job** for as long as every ID that is registered or taken over is not another's, and no longer. -/
theorem identified_iff {as : List (ContextAct κ)} (hr : run step new as = some s) :
    Always step Identified new as ↔ Along step Fresh new as :=
  always_iff_along (fun _ _ _ I hF h => inv_step I hF h) (fun _ I => I.identified)
    (fun _ _ _ I h h' => fresh_of_identified I h h') inv_new hr

/-- A context is created and requests its first event. -/
def opened (c : κ) (fd : Nat) : List (ContextAct κ) := [.create c (some fd), .request c evRE, .addID c, .register c]

/-! ## A long history -/

section History

variable {s : EventContexts Nat} {c : Nat}

/-- The same, when the counter starts again. -/
def wrapped (c fd : Nat) : List (ContextAct Nat) := [.create c (some fd), .request c evRE, .register c]

/-- A context that comes and goes. -/
def turn (c : Nat) : List (ContextAct Nat) := opened c 4 ++ [.cleanup c]

theorem run_opened (fd : Nat) (hc : (s.context c).place = .absent) (hid : s.sUniqueID ≠ 10000000) :
    ∃ s', run step s (opened c fd) = some s' ∧ s'.sUniqueID = s.sUniqueID + 1 ∧
      s'.context c = ⟨some fd, s.sUniqueID + 1, true, ⟨fd, evRE, cookieOf (s.sUniqueID + 1)⟩,
        hashString (s.sUniqueID + 1), 0, .idle⟩ ∧
      ∀ d, d ≠ c → s'.context d = s.context d := by
  have hid' : ¬ s.sUniqueID = 10000000#32 := hid
  simp [opened, run, step, hc, hid', setContext, request, addID, register, EventContext.new]
  intro d hd
  simp [hd]

theorem run_wrapped (fd : Nat) (hc : (s.context c).place = .absent) (hid : s.sUniqueID = 10000000) :
    ∃ s', run step s (wrapped c fd) = some s' ∧ s'.sUniqueID = 1 ∧ ∀ d, d ≠ c → s'.context d = s.context d := by
  simp [wrapped, run, step, hc, hid, setContext, request, register, EventContext.new]
  intro d hd
  simp [hd]

theorem run_turn (hc : (s.context c).place = .absent) (hid : s.sUniqueID ≠ 10000000) :
    ∃ s', run step s (turn c) = some s' ∧ s'.sUniqueID = s.sUniqueID + 1 ∧
      ∀ d, d ≠ c → s'.context d = s.context d := by
  obtain ⟨s₁, h₁, hid₁, hc₁, hframe⟩ := run_opened 4 hc hid
  refine ⟨s₁.cleanup c, run_snoc.2 ⟨s₁, h₁, ?_⟩, hid₁, fun d hd => ?_⟩
  · simp [step, hc₁]
  · rw [← hframe d hd]
    exact Function.update_of_ne hd _ _

/-- Contexts that come and go one after the other. -/
theorem run_turns {n k : Nat} (hid : s.sUniqueID.toNat + n ≤ 10000000)
    (hk : ∀ d, k ≤ d → (s.context d).place = .absent) :
    ∃ s', run step s ((List.range' k n).flatMap turn) = some s' ∧ s'.sUniqueID.toNat = s.sUniqueID.toNat + n ∧
      ∀ d, d < k ∨ k + n ≤ d → s'.context d = s.context d := by
  induction n generalizing k s with
  | zero => exact ⟨s, rfl, rfl, fun _ _ => rfl⟩
  | succ n ih =>
    have hne : s.sUniqueID ≠ 10000000 := by
      intro h
      have hnat : s.sUniqueID.toNat = 10000000 := congrArg BitVec.toNat h
      omega
    obtain ⟨s₁, h₁, hid₁, hframe₁⟩ := run_turn (hk k (Nat.le_refl k)) hne
    have hnat : s₁.sUniqueID.toNat = s.sUniqueID.toNat + 1 := by
      have hlt : s.sUniqueID.toNat + 1 < 2 ^ 32 := by omega
      rw [hid₁, BitVec.toNat_add]
      exact Nat.mod_eq_of_lt hlt
    have hk₁ : ∀ d, k + 1 ≤ d → (s₁.context d).place = .absent := by
      intro d hd
      rw [hframe₁ d (by omega)]
      exact hk d (by omega)
    obtain ⟨s₂, h₂, hid₂, hframe₂⟩ := ih (by omega) hk₁
    refine ⟨s₂, ?_, by omega, fun d hd => ?_⟩
    · rw [List.range'_succ, List.flatMap_cons]
      exact run_trans h₁ h₂
    · rw [hframe₂ d (by omega), hframe₁ d (by omega)]

/-- A context lives while 9999999 others come and go; then one more is created. -/
def reuse : List (ContextAct Nat) :=
  opened 0 3 ++ (List.range' 1 9999998).flatMap turn ++ wrapped 9999999 4 ++ opened 10000000 5

/-- Two contexts with one ID. -/
theorem identified_reuse : ∃ s, run step new reuse = some s ∧ ¬ s.Identified := by
  obtain ⟨s₁, h₁, hid₁, hc₁, hframe₁⟩ := run_opened (s := new) (c := 0) 3 rfl (by decide)
  have hnew : ∀ d, 1 ≤ d → (s₁.context d).place = .absent := by
    intro d hd
    rw [hframe₁ d (by omega)]
    rfl
  have hnat₁ : s₁.sUniqueID.toNat = 2 := by
    rw [hid₁]
    rfl
  obtain ⟨s₂, h₂, hid₂, hframe₂⟩ := run_turns (n := 9999998) (by omega) hnew
  have hwrap : s₂.sUniqueID = 10000000 := by
    apply BitVec.eq_of_toNat_eq
    rw [hid₂, hnat₁]
    rfl
  have hc₂ : (s₂.context 9999999).place = .absent := by
    rw [hframe₂ _ (by omega)]
    exact hnew _ (by omega)
  obtain ⟨s₃, h₃, hid₃, hframe₃⟩ := run_wrapped 4 hc₂ hwrap
  have hc₃ : (s₃.context 10000000).place = .absent := by
    rw [hframe₃ _ (by omega), hframe₂ _ (by omega)]
    exact hnew _ (by omega)
  obtain ⟨s₄, h₄, _, hc₄, hframe₄⟩ := run_opened 5 hc₃ (by rw [hid₃]; decide)
  refine ⟨s₄, run_trans (run_trans (run_trans h₁ h₂) h₃) h₄, fun h => ?_⟩
  have hfirst : s₄.context 0 = s₁.context 0 := by
    rw [hframe₄ _ (by omega), hframe₃ _ (by omega), hframe₂ _ (by omega)]
  have heq : (0 : Nat) = 10000000 := by
    apply h.distinct
    · rw [hfirst, hc₁]
      exact ⟨rfl, by simp⟩
    · rw [hc₄]
      exact ⟨rfl, by simp⟩
    · rw [key, key, hfirst, hc₁, hc₄, hid₃]
      rfl
  omega

end History

end EventContexts

end ToolLib.Common
