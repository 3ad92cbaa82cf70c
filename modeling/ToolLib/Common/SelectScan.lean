import ToolLib.Common.SelectDrain

/-!
# The scans are complete

A result of `select` is reported over many calls of `select_waitevent`, and between them other threads remove and register
descriptors and move `sMaxFDPos`, where the scans end. When nobody changes the sets between the copy and the return of
`select`, what is reported before the next copy is right: every descriptor of the result that nobody has touched, each
direction once, nothing else, and with the cookie of the current registration (`scans_complete`). It needs two things more
(`Undisturbed`): `selecthasdata` clears the bit of the pipe outside the mutex, and so must not undo a removal, and a scan
must begin in the sets.

What is still to come (`Pending`) is ahead of the scan and still watched, and what is watched is not beyond `sMaxFDPos`. So
a scan can miss a descriptor only when somebody has taken it out of the watched sets.
-/

namespace ToolLib.Common

open ToolLib.Base

variable {δ : Type*}

namespace SelectEvents

variable {s s' : SelectEvents δ} {act : SelectAct δ} {l : List (Entry δ)} {f : Nat}

/-! ## What is right -/

theorem evRE_ne_evWR : evRE ≠ evWR := by decide

/-- An event for the descriptor in this direction. -/
def Entry.ReportsAs (f : Nat) (event : BitVec 32) : Entry δ → Prop
  | .event req => req.er_handle = f ∧ req.er_eventbits = event
  | .modwatch _ _ | .removed _ | .copied | .called | .loaded | .stored | .returned _ _ => False

/-- It was reported from the current result. -/
def ReportedAs (f : Nat) (event : BitVec 32) : List (Entry δ) → Prop := Since (Entry.ReportsAs f event) Entry.IsReturned

/-- The descriptor was removed since `select` returned. -/
def RemovedSince (f : Nat) : List (Entry δ) → Prop := Since (Entry.Removes f) Entry.IsReturned

/-- The descriptor was removed or registered since `select` returned. -/
def Touched (f : Nat) : List (Entry δ) → Prop := Since (fun e => e.Removes f ∨ e.Watches f) Entry.IsReturned

/-- The cookie of the current registration. -/
def cookie (f : Nat) : List (Entry δ) → Option δ
  | [] => none
  | .modwatch g data :: l => if g = f then some data else cookie f l
  | .removed g :: l => if g = f then none else cookie f l
  | .copied :: l | .called :: l | .loaded :: l | .stored :: l | .returned _ _ :: l | .event _ :: l => cookie f l

/-- The result has the descriptor, nobody has touched it, and it was not reported. -/
structure Owed (pipe : Nat) (l : List (Entry δ)) (f : Nat) : Prop where
  result : f ∈ (lastResult l).1 ∨ f ∈ (lastResult l).2
  ne_pipe : f ≠ pipe
  untouched : ¬ Touched f l
  unread : ¬ ReportedAs f evRE l
  unwritten : ¬ ReportedAs f evWR l

/-- An event is in the result, for a descriptor not removed since, the first in its direction, with the cookie of the
registration; and when the sets are copied again no event is owed. -/
def RightEntry (pipe : Nat) (l : List (Entry δ)) : Entry δ → Prop
  | .event req =>
    (req.er_eventbits = evRE ∧ req.er_handle ∈ (lastResult l).1 ∨
      req.er_eventbits = evWR ∧ req.er_handle ∈ (lastResult l).2) ∧
    ¬ RemovedSince req.er_handle l ∧ ¬ ReportedAs req.er_handle req.er_eventbits l ∧
    ∃ data, req.er_data = some data ∧ cookie req.er_handle l = some data
  | .copied => ∀ f, ¬ Owed pipe l f
  | .modwatch _ _ | .removed _ | .called | .loaded | .stored | .returned _ _ => True

/-- Nobody changes the sets between their copy and the return of `select`. -/
def Atomic (x : Logged (SelectEvents δ) (Entry δ)) : SelectAct δ → Prop
  | .modwatch _ _ _ | .removeevent _ =>
    x.state.place ≠ .calling ∧ ∀ readfds writefds nfds, x.state.place ≠ .blocked readfds writefds nfds
  | .next _ | .select _ => True

instance (p : WaitPlace δ) : Decidable (∀ readfds writefds nfds, p ≠ .blocked readfds writefds nfds) :=
  match p with
  | .blocked r w nfds => isFalse fun h => h r w nfds rfl
  | .out _ | .readScan | .writeScan | .counted | .hasData | .clearing _ | .closing | .copying | .calling => isTrue nofun

instance (x : Logged (SelectEvents δ) (Entry δ)) (act : SelectAct δ) : Decidable (Atomic x act) :=
  match act with
  | .modwatch _ _ _ | .removeevent _ => inferInstanceAs (Decidable (_ ≠ _ ∧ _))
  | .next _ | .select _ => instDecidableTrue

/-- The descriptor is not in the word that `selecthasdata` has loaded and is about to store. -/
def Spares (fd : Nat) : WaitPlace δ → Prop
  | .clearing word => fd ∉ word
  | .out _ | .readScan | .writeScan | .counted | .hasData | .closing | .copying | .calling | .blocked _ _ _ => True

/-- A scan begins in the sets. -/
def BeginsInside (pos : Nat) : WaitPlace δ → Prop
  | .readScan | .writeScan => pos < FD_SETSIZE
  | .out _ | .counted | .hasData | .clearing _ | .closing | .copying | .calling | .blocked _ _ _ => True

/-- No removal is undone when `selecthasdata` clears the bit of the pipe, and no scan begins behind the last descriptor. -/
def Undisturbed (x : Logged (SelectEvents δ) (Entry δ)) : SelectAct δ → Prop
  | .removeevent fd => Spares fd x.state.place
  | .next _ => BeginsInside x.state.sCurrentFDPos x.state.place
  | .modwatch _ _ _ | .select _ => True

instance (fd : Nat) : (p : WaitPlace δ) → Decidable (Spares fd p)
  | .clearing word => inferInstanceAs (Decidable (fd ∉ word))
  | .out _ | .readScan | .writeScan | .counted | .hasData | .closing | .copying | .calling | .blocked _ _ _ =>
    instDecidableTrue

instance (pos : Nat) : (p : WaitPlace δ) → Decidable (BeginsInside pos p)
  | .readScan | .writeScan => inferInstanceAs (Decidable (pos < FD_SETSIZE))
  | .out _ | .counted | .hasData | .clearing _ | .closing | .copying | .calling | .blocked _ _ _ => instDecidableTrue

instance (x : Logged (SelectEvents δ) (Entry δ)) (act : SelectAct δ) : Decidable (Undisturbed x act) :=
  match act with
  | .removeevent fd => inferInstanceAs (Decidable (Spares fd x.state.place))
  | .next _ => inferInstanceAs (Decidable (BeginsInside x.state.sCurrentFDPos x.state.place))
  | .modwatch _ _ _ | .select _ => instDecidableTrue

theorem lastResult_cons {e : Entry δ} (he : ¬ e.IsReturned) : lastResult (e :: l) = lastResult l := by
  cases e with
  | returned r w => exact absurd trivial he
  | _ => rfl

/-- What is owed was owed before, and the new entry does not settle it. -/
theorem Owed.before {pipe : Nat} {e : Entry δ} (h : Owed pipe (e :: l) f) (he : ¬ e.IsReturned)
    (hres : lastResult (e :: l) = lastResult l) :
    Owed pipe l f ∧ ¬ e.Removes f ∧ ¬ e.Watches f ∧ ¬ e.ReportsAs f evRE ∧ ¬ e.ReportsAs f evWR := by
  have ht := mt (since_cons he).2 h.untouched
  have hr := mt (since_cons he).2 h.unread
  have hw := mt (since_cons he).2 h.unwritten
  push Not at ht hr hw
  exact ⟨⟨hres ▸ h.result, h.ne_pipe, ht.2, hr.2, hw.2⟩, ht.1.1, ht.1.2, hr.1, hw.1⟩

/-- What was owed is owed, unless it is settled now. -/
theorem Owed.after {pipe : Nat} {e : Entry δ} (h : Owed pipe l f) (he : ¬ e.IsReturned)
    (hno : ¬ (e.Reports f ∨ e.Removes f ∨ e.Watches f)) : Owed pipe (e :: l) f := by
  have hreports : ∀ event, ¬ e.ReportsAs f event := by
    intro event has
    cases e with
    | event req => exact hno (Or.inl has.1)
    | _ => exact has
  have htouched : Touched f (e :: l) ↔ Touched f l := since_skip (fun ht => hno (Or.inr ht)) he
  refine ⟨?_, h.ne_pipe, mt htouched.1 h.untouched, ?_, ?_⟩
  · rw [lastResult_cons he]
    exact h.result
  · exact mt (since_skip (hreports evRE) he).1 h.unread
  · exact mt (since_skip (hreports evWR) he).1 h.unwritten

/-! ## Scans -/

/-- A scan does not pass a descriptor of the set. -/
theorem scanFrom_le {set : FdSet} {pos left : Nat} (hf : f ∈ set) (hpos : pos ≤ f) : scanFrom set pos left ≤ f := by
  induction left generalizing pos with
  | zero => exact hpos
  | succ left ih =>
    unfold scanFrom
    split
    next => exact hpos
    next hno =>
      refine ih (Nat.succ_le_of_lt (lt_of_le_of_ne hpos ?_))
      rintro rfl
      exact hno hf

/-- A scan that finds nothing goes to the end. -/
theorem scanFrom_end {set : FdSet} {pos left : Nat} (h : scanFrom set pos left ∉ set) :
    scanFrom set pos left = pos + left := by
  induction left generalizing pos with
  | zero => rfl
  | succ left ih =>
    unfold scanFrom at h ⊢
    split at h
    next hpos => exact absurd hpos h
    next hno =>
      rw [if_neg hno, ih h]
      omega

/-- A scan that has a descriptor of the set before it finds one. -/
theorem scan_mem {set : FdSet} {pos max : Nat} (hf : f ∈ set) (hpos : pos ≤ f) (hmax : f ≤ max) :
    scan set pos max ∈ set := by
  by_contra hno
  have hend : scan set pos max = pos + (max - pos) := scanFrom_end hno
  have hle : scan set pos max ≤ f := scanFrom_le hf hpos
  have heq : scan set pos max = f := by omega
  exact hno (heq ▸ hf)

/-! ## What the saved sets hold -/

/-- The descriptor is watched, and the scans have not passed it. -/
def Pending (s : SelectEvents δ) (f : Nat) : Prop :=
  (f ∈ s.sReadSet ∨ f ∈ s.sWriteSet) ∧
    (s.sInReadSet = true ∧ f ∈ s.sReturnedReadSet ∧ s.sCurrentFDPos ≤ f ∨
      f ∈ s.sReturnedWriteSet ∧ (s.sInReadSet = true ∨ s.sCurrentFDPos ≤ f))

/-- The cookies are those of the registrations, and what is watched is registered. -/
structure Registered (s : SelectEvents δ) (l : List (Entry δ)) : Prop where
  cookies : ∀ f, s.sCookieArray f = cookie f l
  watched : ∀ f, f ∈ s.sReadSet ∨ f ∈ s.sWriteSet → f ≠ s.sPipe → cookie f l ≠ none

/-- The saved sets hold what is left of the result. -/
structure Saved (s : SelectEvents δ) (l : List (Entry δ)) : Prop where
  copied : s.place = .calling → s.sReturnedReadSet = s.sReadSet ∧ s.sReturnedWriteSet = s.sWriteSet
  asked : ∀ r w nfds, s.place = .blocked r w nfds → r = s.sReadSet ∧ w = s.sWriteSet
  /-- The loaded word is still that of the set. -/
  loaded : ∀ word, s.place = .clearing word → word = s.sReturnedReadSet.word s.sPipe ∧ s.sPipe ∈ word
  toRead : 0 < s.sNumFDsBackFromSelect → ∀ f ∈ s.sReturnedReadSet, f ∈ (lastResult l).1 ∧ ¬ ReportedAs f evRE l
  toWrite : 0 < s.sNumFDsBackFromSelect → ∀ f ∈ s.sReturnedWriteSet, f ∈ (lastResult l).2 ∧ ¬ ReportedAs f evWR l
  registered : 0 < s.sNumFDsBackFromSelect → ∀ f, f ∈ s.sReturnedReadSet ∨ f ∈ s.sReturnedWriteSet →
    ¬ RemovedSince f l ∧ (f ≠ s.sPipe → cookie f l ≠ none)
  /-- `sNumFDsBackFromSelect` counts what is in the saved sets, and what was reported. -/
  count : 0 < s.sNumFDsBackFromSelect → s.place ≠ .counted →
    (s.sReturnedReadSet.card + s.sReturnedWriteSet.card + s.sNumFDsProcessed : Int) ≤ s.sNumFDsBackFromSelect
  pending : 0 < s.sNumFDsBackFromSelect → ∀ f, Owed s.sPipe l f → s.Pending f
  /-- Outside the scans nothing is owed. -/
  settled : s.sNumFDsBackFromSelect ≤ 0 ∨ s.place = .counted → ∀ f, ¬ Owed s.sPipe l f

theorem registered_startevents (pipe : Nat) : Registered (startevents pipe : SelectEvents δ) [] where
  cookies _ := rfl
  watched f hf hne := by simp [startevents] at hf hne; exact absurd hf hne

theorem cookie_modwatch_ne {g : Nat} {data : δ} (h : f ≠ g) : cookie f (.modwatch g data :: l) = cookie f l :=
  if_neg h.symm

theorem cookie_removed_ne {g : Nat} (h : f ≠ g) : cookie f (.removed g :: l) = cookie f l :=
  if_neg h.symm

theorem cookie_modwatch {g : Nat} {data : δ} (h : f ≠ g → cookie f l ≠ none) :
    cookie f (.modwatch g data :: l) ≠ none := by
  by_cases hf : f = g
  · subst hf
    simp [cookie]
  · rw [cookie_modwatch_ne hf]
    exact h hf

theorem registered_step {o : Option (Entry δ)} (h : Registered s l) (hs : Does s act s' o) :
    Registered s' (o.toList ++ l) := by
  cases hs with
  | modwatch fd data which hfd =>
    refine ⟨fun f => ?_, fun f hf hne => cookie_modwatch fun hffd => h.watched f ?_ hne⟩
    · by_cases hf : f = fd
      · subst hf
        simp [SelectEvents.modwatch, cookie]
      · simpa [SelectEvents.modwatch, hf, cookie_modwatch_ne hf] using h.cookies f
    · simpa [SelectEvents.modwatch, mem_assign, hffd] using hf
  | removeevent fd hfd =>
    refine ⟨fun f => ?_, fun f hf hne => ?_⟩
    · by_cases hf : f = fd
      · subst hf
        simp [SelectEvents.removeevent, cookie]
      · simpa [SelectEvents.removeevent, hf, cookie_removed_ne hf] using h.cookies f
    · simp only [SelectEvents.removeevent, Finset.mem_erase, ← and_or_left] at hf
      exact (cookie_removed_ne hf.1).symm ▸ h.watched f hf.2 hne
  | readFound b hp hf =>
    rw [scanRead, if_pos hf]
    exact ⟨h.cookies, fun f hf => h.watched f (hf.imp Finset.mem_of_mem_erase Finset.mem_of_mem_erase)⟩
  | writeFound b hp hf =>
    rw [scanWrite, if_pos hf]
    exact ⟨h.cookies, fun f hf => h.watched f (hf.imp Finset.mem_of_mem_erase Finset.mem_of_mem_erase)⟩
  | _ => exact ⟨h.cookies, h.watched⟩

/-! ## Other threads -/

theorem Saved.modwatch (h : Saved s l) (hc : s.place ≠ .calling) (hb : ∀ r w nfds, s.place ≠ .blocked r w nfds)
    (fd : Nat) (data : δ) (which : BitVec 32) :
    Saved (s.modwatch fd data which) (.modwatch fd data :: l) where
  copied hp := absurd hp hc
  asked r w nfds hp := absurd hp (hb r w nfds)
  loaded := h.loaded
  toRead hn f hf := (h.toRead hn f hf).imp_right (mt (since_skip id id).1)
  toWrite hn f hf := (h.toWrite hn f hf).imp_right (mt (since_skip id id).1)
  registered hn f hf := by
    obtain ⟨hrem, hreg⟩ := h.registered hn f hf
    exact ⟨mt (since_skip id id).1 hrem, fun hne => cookie_modwatch fun _ => hreg hne⟩
  count := h.count
  pending hn f hf := by
    obtain ⟨hf, -, hne, -⟩ := hf.before id rfl
    obtain ⟨hwatched, hahead⟩ := h.pending hn f hf
    refine ⟨?_, hahead⟩
    simpa only [SelectEvents.modwatch, mem_assign, if_neg (Ne.symm hne)] using hwatched
  settled hout f hf := h.settled hout f (hf.before id rfl).1

theorem Saved.removeevent (h : Saved s l) (hc : s.place ≠ .calling) (hb : ∀ r w nfds, s.place ≠ .blocked r w nfds)
    {fd : Nat} (hspares : Spares fd s.place) : Saved (s.removeevent fd) (.removed fd :: l) where
  copied hp := absurd hp hc
  asked r w nfds hp := absurd hp (hb r w nfds)
  loaded word hp := by
    have hp : s.place = .clearing word := hp
    obtain ⟨hword, hpipe⟩ := h.loaded word hp
    have hfd : fd ∉ s.sReturnedReadSet.word s.sPipe := by
      rw [hp] at hspares
      exact hword ▸ hspares
    refine ⟨hword.trans (Finset.ext fun f => ?_), hpipe⟩
    have hne : f ∈ s.sReturnedReadSet.word s.sPipe → f ≠ fd := by
      rintro hf rfl
      exact hfd hf
    simp only [SelectEvents.removeevent, mem_word, Finset.mem_erase] at hne ⊢
    exact ⟨fun hf => ⟨⟨hne hf, hf.1⟩, hf.2⟩, fun hf => ⟨hf.1.2, hf.2⟩⟩
  toRead hn f hf := (h.toRead hn f (Finset.mem_of_mem_erase hf)).imp_right (mt (since_skip id id).1)
  toWrite hn f hf := (h.toWrite hn f (Finset.mem_of_mem_erase hf)).imp_right (mt (since_skip id id).1)
  registered hn f hf := by
    simp only [SelectEvents.removeevent, Finset.mem_erase, ← and_or_left] at hf
    obtain ⟨hrem, hreg⟩ := h.registered hn f hf.2
    refine ⟨mt (fun hr => ((since_cons id).1 hr).resolve_left (Ne.symm hf.1)) hrem, fun hne => ?_⟩
    exact (cookie_removed_ne hf.1).symm ▸ hreg hne
  count hn hne := by
    have hr := Finset.card_erase_le (s := s.sReturnedReadSet) (a := fd)
    have hw := Finset.card_erase_le (s := s.sReturnedWriteSet) (a := fd)
    have := h.count hn hne
    simp only [SelectEvents.removeevent]
    omega
  pending hn f hf := by
    obtain ⟨hf, hne, -⟩ := hf.before id rfl
    have hne : f ≠ fd := Ne.symm hne
    obtain ⟨hwatched, hahead⟩ := h.pending hn f hf
    refine ⟨?_, ?_⟩
    · simpa only [SelectEvents.removeevent, Finset.mem_erase, ne_eq, hne, not_false_eq_true, true_and] using hwatched
    · simpa only [SelectEvents.removeevent, Finset.mem_erase, ne_eq, hne, not_false_eq_true, true_and] using hahead
  settled hout f hf := h.settled hout f (hf.before id rfl).1

/-- Something is noted that says nothing of a descriptor. -/
theorem Saved.note {e : Entry δ} (h : Saved s l) (hret : ¬ e.IsReturned) (hrem : ∀ f, ¬ e.Removes f)
    (hrep : ∀ f event, ¬ e.ReportsAs f event) (hcookie : ∀ f, cookie f (e :: l) = cookie f l) : Saved s (e :: l) where
  copied := h.copied
  asked := h.asked
  loaded := h.loaded
  toRead hn f hf := by
    rw [lastResult_cons hret]
    exact (h.toRead hn f hf).imp_right (mt (since_skip (hrep f evRE) hret).1)
  toWrite hn f hf := by
    rw [lastResult_cons hret]
    exact (h.toWrite hn f hf).imp_right (mt (since_skip (hrep f evWR) hret).1)
  registered hn f hf := by
    rw [hcookie]
    exact (h.registered hn f hf).imp_left (mt (since_skip (hrem f) hret).1)
  count := h.count
  pending hn f hf := h.pending hn f (hf.before hret (lastResult_cons hret)).1
  settled hout f hf := h.settled hout f (hf.before hret (lastResult_cons hret)).1

/-! ## The scans -/

theorem Saved.readFound (hc : s.Control) (h : Saved s l) (hp : s.place = .readScan)
    (hf : s.readPos ∈ s.sReturnedReadSet) :
    Saved s.scanRead (.event ⟨s.readPos, evRE, s.sCookieArray s.readPos⟩ :: l) := by
  obtain ⟨hn, hr⟩ := hc.readScan hp
  rw [scanRead, if_pos hf]
  refine ⟨by simp [constructeventreq], by simp [constructeventreq], by simp [constructeventreq], fun _ f hm => ?_,
    fun _ f hm => ?_, fun _ f hm => ?_, fun _ _ => ?_, fun _ f howed => ?_, ?_⟩
  · obtain ⟨hne, hm⟩ := Finset.mem_erase.1 hm
    refine (h.toRead hn f hm).imp_right (mt fun hrep => ?_)
    exact ((since_cons id).1 hrep).resolve_left fun heq => hne heq.1.symm
  · refine (h.toWrite hn f hm).imp_right (mt fun hrep => ?_)
    exact ((since_cons id).1 hrep).resolve_left fun heq => evRE_ne_evWR heq.2
  · exact (h.registered hn f (hm.imp_left Finset.mem_of_mem_erase)).imp_left (mt (since_skip id id).1)
  · have hcard := Finset.card_erase_add_one hf
    have := h.count hn (by simp [hp])
    simp only [constructeventreq]
    omega
  · obtain ⟨howed, -, -, hne, -⟩ := howed.before id rfl
    have hne : f ≠ s.readPos := fun heq => hne ⟨heq.symm, rfl⟩
    obtain ⟨hwatched, hahead⟩ := h.pending hn f howed
    refine ⟨hwatched.imp (Finset.mem_erase_of_ne_of_mem hne) (Finset.mem_erase_of_ne_of_mem hne), ?_⟩
    rcases hahead with ⟨-, hm, hpos⟩ | ⟨hm, -⟩
    · have hle : s.readPos ≤ f := scanFrom_le hm hpos
      exact Or.inl ⟨hr, Finset.mem_erase_of_ne_of_mem hne hm, Nat.succ_le_of_lt (lt_of_le_of_ne hle hne.symm)⟩
    · exact Or.inr ⟨hm, Or.inl hr⟩
  · rintro (hle | hout)
    · exact absurd hn (not_lt.2 hle)
    · cases hout

theorem Saved.writeFound (hc : s.Control) (h : Saved s l) (hp : s.place = .writeScan)
    (hf : s.writePos ∈ s.sReturnedWriteSet) :
    Saved s.scanWrite (.event ⟨s.writePos, evWR, s.sCookieArray s.writePos⟩ :: l) := by
  obtain ⟨hn, hr⟩ := hc.writeScan hp
  rw [scanWrite, if_pos hf]
  refine ⟨by simp [constructeventreq], by simp [constructeventreq], by simp [constructeventreq], fun _ f hm => ?_,
    fun _ f hm => ?_, fun _ f hm => ?_, fun _ _ => ?_, fun _ f howed => ?_, ?_⟩
  · refine (h.toRead hn f hm).imp_right (mt fun hrep => ?_)
    exact ((since_cons id).1 hrep).resolve_left fun heq => evRE_ne_evWR heq.2.symm
  · obtain ⟨hne, hm⟩ := Finset.mem_erase.1 hm
    refine (h.toWrite hn f hm).imp_right (mt fun hrep => ?_)
    exact ((since_cons id).1 hrep).resolve_left fun heq => hne heq.1.symm
  · exact (h.registered hn f (hm.imp_right Finset.mem_of_mem_erase)).imp_left (mt (since_skip id id).1)
  · have hcard := Finset.card_erase_add_one hf
    have := h.count hn (by simp [hp])
    simp only [constructeventreq]
    omega
  · obtain ⟨howed, -, -, -, hne⟩ := howed.before id rfl
    have hne : f ≠ s.writePos := fun heq => hne ⟨heq.symm, rfl⟩
    obtain ⟨hwatched, hahead⟩ := h.pending hn f howed
    refine ⟨hwatched.imp (Finset.mem_erase_of_ne_of_mem hne) (Finset.mem_erase_of_ne_of_mem hne), Or.inr ?_⟩
    rcases hahead with ⟨hr', -⟩ | ⟨hm, hr' | hpos⟩
    · exact absurd (hr.symm.trans hr') Bool.false_ne_true
    · exact absurd (hr.symm.trans hr') Bool.false_ne_true
    · have hle : s.writePos ≤ f := scanFrom_le hm hpos
      exact ⟨Finset.mem_erase_of_ne_of_mem hne hm, Or.inr (Nat.succ_le_of_lt (lt_of_le_of_ne hle hne.symm))⟩
  · rintro (hle | hout)
    · exact absurd hn (not_lt.2 hle)
    · cases hout

/-- The read scan ends: what is pending is left for the write scan. -/
theorem Saved.readPast (hc : s.Control) (hb : s.Bounded) (h : Saved s l) (hp : s.place = .readScan)
    (hf : s.readPos ∉ s.sReturnedReadSet) :
    Saved { s with sInReadSet := false, sCurrentFDPos := 0, place := .writeScan } l := by
  obtain ⟨hn, hr⟩ := hc.readScan hp
  refine { h with
    copied := by simp
    asked := by simp
    loaded := by simp
    count := fun hn _ => h.count hn (by simp [hp])
    pending := fun _ f howed => ?_
    settled := ?_ }
  · obtain ⟨hwatched, hahead⟩ := h.pending hn f howed
    refine ⟨hwatched, Or.inr ?_⟩
    rcases hahead with ⟨-, hm, hpos⟩ | ⟨hm, -⟩
    · exact absurd (scan_mem hm hpos (hb.le_max f hwatched)) hf
    · exact ⟨hm, Or.inr (Nat.zero_le f)⟩
  · rintro (hle | hout)
    · exact absurd hn (not_lt.2 hle)
    · cases hout

/-- The write scan ends: nothing was pending. -/
theorem Saved.writePast (hc : s.Control) (hb : s.Bounded) (h : Saved s l) (hp : s.place = .writeScan)
    (hf : s.writePos ∉ s.sReturnedWriteSet) : ∀ f, ¬ Owed s.sPipe l f := by
  obtain ⟨hn, hr⟩ := hc.writeScan hp
  intro f howed
  obtain ⟨hwatched, hahead⟩ := h.pending hn f howed
  rcases hahead with ⟨hr', -⟩ | ⟨hm, hr' | hpos⟩
  · exact absurd (hr.symm.trans hr') Bool.false_ne_true
  · exact absurd (hr.symm.trans hr') Bool.false_ne_true
  · exact hf (scan_mem hm hpos (hb.le_max f hwatched))

/-- Nothing is owed when the counters say that all was reported. -/
theorem Saved.counted (h : Saved s l) (hp : s.place ≠ .counted)
    (hn : s.sNumFDsBackFromSelect ≤ s.sNumFDsProcessed) :
    ∀ f, ¬ Owed s.sPipe l f := by
  by_cases hpos : 0 < s.sNumFDsBackFromSelect
  · intro f howed
    have hcount := h.count hpos hp
    have hread : s.sReturnedReadSet = ∅ := Finset.card_eq_zero.1 (by omega)
    have hwrite : s.sReturnedWriteSet = ∅ := Finset.card_eq_zero.1 (by omega)
    rcases (h.pending hpos f howed).2 with ⟨-, hm, -⟩ | ⟨hm, -⟩
    · simp [hread] at hm
    · simp [hwrite] at hm
  · exact h.settled (Or.inl (not_lt.1 hpos))

/-- The pipe leaves the result. -/
theorem Saved.pipe (h : Saved s l) (hp : s.place ≠ .counted) (hn : 0 < s.sNumFDsBackFromSelect)
    (hf : s.sPipe ∈ s.sReturnedReadSet) :
    Saved
      { s with
        sReturnedReadSet := s.sReturnedReadSet.erase s.sPipe
        sNumFDsBackFromSelect := s.sNumFDsBackFromSelect - 1
        place := .closing } l := by
  have hcard := Finset.card_erase_add_one hf
  have hcount := h.count hn hp
  have hpending : ∀ f, Owed s.sPipe l f → Pending
      { s with
        sReturnedReadSet := s.sReturnedReadSet.erase s.sPipe
        sNumFDsBackFromSelect := s.sNumFDsBackFromSelect - 1
        place := .closing } f := fun f howed => by
    obtain ⟨hwatched, hahead⟩ := h.pending hn f howed
    refine ⟨hwatched, hahead.imp_left fun ⟨hr, hm, hpos⟩ => ?_⟩
    exact ⟨hr, Finset.mem_erase_of_ne_of_mem howed.ne_pipe hm, hpos⟩
  refine ⟨by simp, by simp, by simp, fun _ f hm => h.toRead hn f (Finset.mem_of_mem_erase hm),
    fun _ => h.toWrite hn,
    fun _ f hm => h.registered hn f (hm.imp_left Finset.mem_of_mem_erase), fun _ _ => ?_, fun _ => hpending, ?_⟩
  · simp only
    omega
  · rintro (hle | hout) f howed
    · -- the pipe was all there was
      simp only at hle
      have hread : s.sReturnedReadSet.erase s.sPipe = ∅ := Finset.card_eq_zero.1 (by omega)
      have hwrite : s.sReturnedWriteSet = ∅ := Finset.card_eq_zero.1 (by omega)
      rcases (hpending f howed).2 with ⟨-, hm, -⟩ | ⟨hm, -⟩
      · simp [hread] at hm
      · simp [hwrite] at hm
    · cases hout

/-! ## Runs -/

/-- `select` returns what it was asked for, all of it watched. -/
theorem Saved.ready (hc : s.Control) (hreg : Registered s l) (h : Saved s l) {r w readfds writefds : FdSet} {nfds : Nat}
    (hp : s.place = .blocked readfds writefds nfds) (hr : r ⊆ readfds) (hw : w ⊆ writefds) :
    Saved
      { s with
        sReturnedReadSet := r
        sReturnedWriteSet := w
        sNumFDsBackFromSelect := r.card + w.card
        place := .hasData } (.returned r w :: l) := by
  simp only [Control, hp] at hc
  obtain ⟨-, hprocessed, hpos, hread⟩ := hc
  obtain ⟨rfl, rfl⟩ := h.asked readfds writefds nfds hp
  have hwatched : ∀ f, f ∈ r ∨ f ∈ w → f ∈ s.sReadSet ∨ f ∈ s.sWriteSet := fun f hf => hf.imp (hr ·) (hw ·)
  refine ⟨by simp, by simp, by simp, fun _ f hf => ⟨hf, not_since id trivial⟩,
    fun _ f hf => ⟨hf, not_since id trivial⟩,
    fun _ f hf => ⟨not_since id trivial, hreg.watched f (hwatched f hf)⟩, fun _ _ => ?_, fun _ f howed => ?_, ?_⟩
  · simp only [hprocessed]
    omega
  · refine ⟨hwatched f howed.result, howed.result.imp (fun hf => ⟨hread, hf, ?_⟩) fun hf => ⟨hf, Or.inl hread⟩⟩
    exact hpos.le.trans (Nat.zero_le f)
  · rintro (hle | hout) f howed
    · simp only at hle
      have hr0 : r = ∅ := Finset.card_eq_zero.1 (by omega)
      have hw0 : w = ∅ := Finset.card_eq_zero.1 (by omega)
      rcases howed.result with hf | hf
      · simp [lastResult, hr0] at hf
      · simp [lastResult, hw0] at hf
    · cases hout

/-- No result is being reported. -/
theorem saved_of_le (hn : s.sNumFDsBackFromSelect ≤ 0)
    (hcopied : s.place = .calling → s.sReturnedReadSet = s.sReadSet ∧ s.sReturnedWriteSet = s.sWriteSet)
    (hasked : ∀ r w nfds, s.place = .blocked r w nfds → r = s.sReadSet ∧ w = s.sWriteSet)
    (hloaded : ∀ word, s.place ≠ .clearing word)
    (hsettled : ∀ f, ¬ Owed s.sPipe l f) : Saved s l where
  copied := hcopied
  asked := hasked
  loaded word hp := absurd hp (hloaded word)
  toRead hpos := absurd hpos (not_lt.2 hn)
  toWrite hpos := absurd hpos (not_lt.2 hn)
  registered hpos := absurd hpos (not_lt.2 hn)
  count hpos := absurd hpos (not_lt.2 hn)
  pending hpos := absurd hpos (not_lt.2 hn)
  settled _ := hsettled

theorem saved_startevents (pipe : Nat) : Saved (startevents pipe : SelectEvents δ) [] := by
  refine saved_of_le le_rfl (by simp [startevents]) (by simp [startevents]) (by simp [startevents]) fun f howed => ?_
  simpa [lastResult] using howed.result

theorem saved_step {o : Option (Entry δ)} (hc : s.Control) (hb : s.Bounded) (hreg : Registered s l) (h : Saved s l)
    (hA : Atomic ⟨s, l⟩ act) (hU : Undisturbed ⟨s, l⟩ act) (hs : Does s act s' o) : Saved s' (o.toList ++ l) := by
  cases hs with
  | modwatch fd data which hfd => exact h.modwatch hA.1 hA.2 fd data which
  | removeevent fd hfd => exact h.removeevent hA.1 hA.2 hU
  | readFound b hp hf => exact h.readFound hc hp hf
  | writeFound b hp hf => exact h.writeFound hc hp hf
  | readPast b hp hf => exact h.readPast hc hb hp hf
  | writePast b hp hf =>
    have hall := h.writePast hc hb hp hf
    exact { h with
      copied := by simp
      asked := by simp
      loaded := by simp
      count := fun _ hne => absurd rfl hne
      pending := fun _ f howed => absurd howed (hall f)
      settled := fun _ => hall }
  | pipe b hp hn hf =>
    have h' := h.note (e := .loaded) id (fun _ => id) (fun _ _ => id) fun _ => rfl
    refine { h' with
      copied := by simp
      asked := by simp
      loaded := fun word hw => ?_
      count := fun hn _ => h'.count hn (by simp [hp])
      settled := fun hout => h'.settled (hout.imp_right (by simp)) }
    cases hw
    exact ⟨rfl, mem_word.2 ⟨hf, rfl⟩⟩
  | clear b word hp =>
    obtain ⟨rfl, hpipe⟩ := h.loaded word hp
    rw [clearPipe, store_word fun g => mem_word]
    have h' := h.pipe (by simp [hp]) (hc.clearing hp).1 (mem_word.1 hpipe).1
    exact h'.note (e := .stored) id (fun _ => id) (fun _ _ => id) fun _ => rfl
  | ready r w readfds writefds nfds hp hr hw => exact h.ready hc hreg hp hr hw
  | enterRead b ret hp | enterWrite b ret hp | closedData b ret hp =>
    exact { h with
      copied := by simp
      asked := by simp
      loaded := by simp
      count := fun hn _ => h.count hn (by simp [hp])
      settled := fun hout => h.settled (hout.imp_right (by simp)) }
  | error b hp | data b hp | again b hp | closed b hp =>
    exact { h with
      copied := by simp
      asked := by simp
      loaded := by simp
      count := fun hn _ => h.count hn (by simp [hp])
      settled := fun hout => h.settled (hout.imp_right (by simp)) }
  | enterCounted b ret hp hn =>
    exact { h with
      copied := by simp
      asked := by simp
      loaded := by simp
      count := fun _ hne => absurd rfl hne
      settled := fun _ => h.counted (by simp [hp]) hn }
  | reinit b hp hn =>
    exact saved_of_le le_rfl (by simp) (by simp) (by simp) (h.settled (Or.inr hp))
  | fresh b hp hn =>
    simp only [Control, hp] at hc
    have hle := (hc hn).1
    exact { h with
      copied := by simp
      asked := by simp
      loaded := by simp
      count := fun hpos => absurd hpos (not_lt.2 hle)
      settled := fun _ => h.settled (Or.inr hp) }
  | copy b hp =>
    simp only [Control, hp] at hc
    refine saved_of_le hc.1 (fun _ => ⟨rfl, rfl⟩) (by simp) (by simp) fun f howed => ?_
    exact h.settled (Or.inl hc.1) f (howed.before id rfl).1
  | call b hp =>
    simp only [Control, hp] at hc
    refine saved_of_le hc.1 (by simp) (fun r w nfds hb => ?_) (by simp) fun f howed => ?_
    · cases hb
      exact h.copied hp
    · exact h.settled (Or.inl hc.1) f (howed.before id rfl).1
  | timedOut readfds writefds nfds hp =>
    refine saved_of_le le_rfl (by simp) (by simp) (by simp) fun f howed => ?_
    simpa [lastResult] using howed.result
  | failed readfds writefds nfds hp =>
    simp only [Control, hp] at hc
    exact saved_of_le (show (-1 : Int) ≤ 0 by decide) (by simp) (by simp) (by simp) (h.settled (Or.inl hc.1))

/-- What is noted of a step is right. -/
theorem right_entry {o : Option (Entry δ)} (hc : s.Control) (hb : s.Bounded) (hreg : Registered s l) (h : Saved s l)
    (hs : Does s act s' o) : ∀ e ∈ o, RightEntry s.sPipe l e := by
  have hcookie : ∀ f, cookie f l ≠ none → ∃ data, s.sCookieArray f = some data ∧ cookie f l = some data := fun f hne => by
    obtain ⟨data, hdata⟩ := Option.ne_none_iff_exists'.1 hne
    exact ⟨data, (hreg.cookies f).trans hdata, hdata⟩
  cases hs with
  | readFound b hp hf =>
    obtain ⟨hn, -⟩ := hc.readScan hp
    obtain ⟨hres, honce⟩ := h.toRead hn _ hf
    obtain ⟨hrem, hregd⟩ := h.registered hn _ (Or.inl hf)
    have hpipe : s.readPos ≠ s.sPipe := fun heq => hb.pipe_taken hn (by simp [hp, WaitPlace.PastPipe]) (heq ▸ hf)
    rintro e ⟨⟩
    exact ⟨Or.inl ⟨rfl, hres⟩, hrem, honce, hcookie _ (hregd hpipe)⟩
  | writeFound b hp hf =>
    obtain ⟨hn, -⟩ := hc.writeScan hp
    obtain ⟨hres, honce⟩ := h.toWrite hn _ hf
    obtain ⟨hrem, hregd⟩ := h.registered hn _ (Or.inr hf)
    have hpipe : s.writePos ≠ s.sPipe := fun heq => hb.pipe_not_saved (heq ▸ hf)
    rintro e ⟨⟩
    exact ⟨Or.inr ⟨rfl, hres⟩, hrem, honce, hcookie _ (hregd hpipe)⟩
  | copy b hp =>
    simp only [Control, hp] at hc
    rintro e ⟨⟩
    exact h.settled (Or.inl hc.1)
  | modwatch | removeevent | pipe | clear | call | ready | timedOut => rintro e ⟨⟩; trivial
  | _ => simp

/-- What holds in every state of a run. -/
structure Scanning (pipe : Nat) (x : Logged (SelectEvents δ) (Entry δ)) : Prop where
  pipe : x.state.sPipe = pipe
  control : x.state.Control
  bounded : x.state.Bounded
  registered : Registered x.state x.log
  saved : Saved x.state x.log

theorem scanning_startevents (pipe : Nat) : Scanning pipe (⟨startevents pipe, []⟩ : Logged (SelectEvents δ) (Entry δ)) :=
  ⟨rfl, control_startevents pipe, bounded_startevents pipe, registered_startevents pipe, saved_startevents pipe⟩

theorem Scanning.step {pipe : Nat} {x : Logged (SelectEvents δ) (Entry δ)} (h : Scanning pipe x)
    (hC : Atomic x act ∧ Undisturbed x act) (hs : x.state.step act = some s') :
    Scanning pipe ⟨s', (observe x.state act s').toList ++ x.log⟩ := by
  have hd := step_cases hs
  exact ⟨(sPipe_step hd).trans h.pipe, control_step h.control hd, bounded_step h.control h.bounded hd,
    registered_step h.registered hd, saved_step h.control h.bounded h.registered h.saved hC.1 hC.2 hd⟩

/-- While something is owed, the waiting thread is on its way to the next copy. -/
theorem Scanning.draining {pipe : Nat} {x : Logged (SelectEvents δ) (Entry δ)} (h : Scanning pipe x)
    (howed : Owed pipe x.log f) : x.state.Draining := by
  obtain ⟨rfl, hc, -, -, hsaved⟩ := h
  have hn : 0 < x.state.sNumFDsBackFromSelect := by
    by_contra hle
    exact hsaved.settled (Or.inl (not_lt.1 hle)) f howed
  refine ⟨hn.le, ?_⟩
  cases hp : x.state.place with
  | copying | calling | blocked r w nfds =>
    simp only [Control, hp] at hc
    exact absurd hn (not_lt.2 hc.1)
  | _ => trivial

/-- **The scans are complete**: when nobody changes the sets between their copy and the return of `select`, no removal is
undone and no scan begins behind the last descriptor, then everything that is reported is right, and when the sets are
copied again nothing is owed. While a descriptor is owed the waiting thread can go on, and it takes `stepsLeft` steps at
most to report it, unless somebody else removes or registers it meanwhile. -/
theorem scans_complete {pipe : Nat} {as : List (SelectAct δ)} {x : Logged (SelectEvents δ) (Entry δ)}
    (hC : Along noted (fun x act => Atomic x act ∧ Undisturbed x act) ⟨startevents pipe, []⟩ as)
    (hr : run noted ⟨startevents pipe, []⟩ as = some x) :
    Each (RightEntry pipe) x.log ∧
    ∀ f, Owed pipe x.log f → (∀ b, (x.state.step (.next b)).isSome) ∧
      ∀ bs y, Along noted (fun x act => Atomic x act ∧ Undisturbed x act) x bs → run noted x bs = some y →
        x.state.stepsLeft < bs.countP SelectAct.isNext →
        ∃ l, y.log = l ++ x.log ∧ ∃ e ∈ l, e.Reports f ∨ e.Removes f ∨ e.Watches f := by
  have hscanning : Scanning pipe x :=
    run_inv_along (fun y act y' h hC hs => by
      obtain ⟨s', hs', rfl⟩ := Logged.step_eq_some.1 hs
      exact h.step hC hs') (scanning_startevents pipe) hC hr
  refine ⟨?_, fun f howed => ⟨fun b => (hscanning.draining howed).next b, fun bs y hbs hry hcount => ?_⟩⟩
  · refine each_of_along (fun y act s h hC hs => h.step hC hs) (fun y act s h _ hs => ?_) (scanning_startevents pipe)
      trivial hC hr
    exact h.pipe ▸ right_entry h.control h.bounded h.registered h.saved (step_cases hs)
  · refine Logged.appears (I := fun y => Scanning pipe y ∧ Owed pipe y.log f) (fun y act s h hC hs => ?_)
      (fun y act s h _ hs => ?_) ⟨hscanning, howed⟩ hbs hry hcount
    · have hdraining := h.1.draining h.2
      have hnext := h.1.step hC hs
      cases ho : observe y.state act s with
      | none =>
        rw [ho] at hnext
        exact Or.inr ⟨hnext, h.2⟩
      | some e =>
        rw [ho] at hnext
        by_cases he : e.Reports f ∨ e.Removes f ∨ e.Watches f
        · exact Or.inl ⟨e, rfl, he⟩
        · exact Or.inr ⟨hnext, h.2.after (hdraining.not_returned (step_cases hs) e ho) he⟩
    · exact stepsLeft_step h.1.control (h.1.draining h.2) (step_cases hs)

/-- Two descriptors are ready; the higher one is removed before its turn, and `sMaxFDPos` falls. -/
def loweredScan : List (SelectAct Unit) :=
  [.modwatch 5 () evRE, .modwatch 9 () evWR] ++ List.replicate 5 (.next false) ++
    [.select (.ready {5} {9}), .next false, .removeevent 9] ++ List.replicate 8 (.next false)

theorem scans_complete_lowered : ∃ x : Logged (SelectEvents Unit) (Entry Unit),
    run noted ⟨startevents 3, []⟩ loweredScan = some x ∧ Each (RightEntry 3) x.log := by
  obtain ⟨x, hr⟩ : ∃ x, run noted ⟨startevents 3, []⟩ loweredScan = some x := ⟨_, rfl⟩
  exact ⟨x, hr, (scans_complete (by decide +kernel) hr).1⟩

/-- The pipe and a descriptor are ready; the descriptor is removed while the bit of the pipe is being cleared. -/
def undoneRemoval : List (SelectAct Unit) :=
  [.modwatch 5 () evRE, .modwatch 9 () evRE] ++ List.replicate 5 (.next false) ++
    [.select (.ready {3, 5} ∅), .next false, .removeevent 5] ++ List.replicate 4 (.next false)

/-- It is reported, although it was removed before its turn. -/
theorem scans_undone : ∃ x : Logged (SelectEvents Unit) (Entry Unit),
    run noted ⟨startevents 3, []⟩ undoneRemoval = some x ∧ Along noted Atomic ⟨startevents 3, []⟩ undoneRemoval ∧
      ¬ Each (RightEntry 3) x.log := by
  refine ⟨_, rfl, by decide +kernel, fun h => h.1.2.1 ?_⟩
  exact Or.inr ⟨id, Or.inl rfl⟩

end SelectEvents

end ToolLib.Common
