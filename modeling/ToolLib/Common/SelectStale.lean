import ToolLib.Common.SelectEvents

/-!
# Stale events

`select_removeevent` takes a descriptor out of the watched sets and out of the saved result, so what `select` returned
before is not reported any more. While `select` is blocked there is no result yet: it was asked for the descriptor, and
when it returns it writes it over the saved sets. And while `selecthasdata` clears the bit of the pipe, between its load of
a word and its store, a removal is undone. `select_waitevent` then reports a descriptor that is registered no more, or that
belongs to somebody else by now. There is no other way to a stale event (`no_stale_event_iff`).
-/

namespace ToolLib.Common

open ToolLib.Base

variable {δ : Type*}

namespace SelectEvents

variable {s s' : SelectEvents δ} {act : SelectAct δ} {l l' : List (Entry δ)} {f : Nat}

/-- The descriptor was removed, and has not been registered since. -/
def Off (f : Nat) : List (Entry δ) → Prop := Since (Entry.Removes f) (Entry.Watches f)

/-- The descriptor was removed, and the sets have not been copied since it was registered again. -/
def Gone (f : Nat) : List (Entry δ) → Prop
  | [] => False
  | .removed g :: l => g = f ∨ Gone f l
  | .copied :: l => Off f l
  | .modwatch _ _ :: l | .called :: l | .loaded :: l | .stored :: l | .returned _ _ :: l | .event _ :: l => Gone f l

/-- The descriptor was removed after the last call of `select`. -/
def InCall (f : Nat) : List (Entry δ) → Prop := Since (Entry.Removes f) Entry.IsCalled

/-- The descriptor was removed while the call of `select` was blocked that returned last. -/
def RemovedInCall (f : Nat) : List (Entry δ) → Prop
  | [] => False
  | .returned _ _ :: l => InCall f l
  | .removed _ :: l | .copied :: l | .modwatch _ _ :: l | .called :: l | .loaded :: l | .stored :: l | .event _ :: l =>
    RemovedInCall f l

/-- The descriptor was removed after `selecthasdata` last loaded the word with the bit of the pipe. -/
def RemovedSinceLoad (f : Nat) : List (Entry δ) → Prop := Since (Entry.Removes f) Entry.IsLoaded

/-- In the result that `select` returned last, the descriptor was removed between the load and the store of this word. -/
def RemovedInClear (f : Nat) : List (Entry δ) → Prop
  | [] => False
  | .returned _ _ :: _ => False
  | .stored :: l => RemovedSinceLoad f l ∨ RemovedInClear f l
  | .removed _ :: l | .copied :: l | .modwatch _ _ :: l | .called :: l | .loaded :: l | .event _ :: l =>
    RemovedInClear f l

instance (f : Nat) (l : List (Entry δ)) : Decidable (Off f l) := inferInstanceAs (Decidable (Since _ _ l))

instance Gone.decidable (f : Nat) : (l : List (Entry δ)) → Decidable (Gone f l)
  | [] => instDecidableFalse
  | .removed g :: l =>
    have := Gone.decidable f l
    inferInstanceAs (Decidable (g = f ∨ Gone f l))
  | .copied :: l => inferInstanceAs (Decidable (Off f l))
  | .modwatch _ _ :: l | .called :: l | .loaded :: l | .stored :: l | .returned _ _ :: l | .event _ :: l =>
    Gone.decidable f l

instance RemovedInCall.decidable (f : Nat) : (l : List (Entry δ)) → Decidable (RemovedInCall f l)
  | [] => instDecidableFalse
  | .returned _ _ :: l => inferInstanceAs (Decidable (Since _ _ l))
  | .removed _ :: l | .copied :: l | .modwatch _ _ :: l | .called :: l | .loaded :: l | .stored :: l | .event _ :: l =>
    RemovedInCall.decidable f l

instance RemovedInClear.decidable (f : Nat) : (l : List (Entry δ)) → Decidable (RemovedInClear f l)
  | [] | .returned _ _ :: _ => instDecidableFalse
  | .stored :: l =>
    have := RemovedInClear.decidable f l
    inferInstanceAs (Decidable (Since _ _ l ∨ RemovedInClear f l))
  | .removed _ :: l | .copied :: l | .modwatch _ _ :: l | .called :: l | .loaded :: l | .event _ :: l =>
    RemovedInClear.decidable f l

/-- After a removal there is an event for the descriptor only when it was registered again, and the sets were copied for
`select` since. -/
def NoStaleEvent (log : List (Entry δ)) : Prop :=
  ∀ l₁ l₂ l₃ req, log = l₁ ++ .event req :: (l₂ ++ .removed req.er_handle :: l₃) →
    ∃ m₁ m₂ data, l₂ = m₁ ++ .modwatch req.er_handle data :: m₂ ∧ .copied ∈ m₁

/-- An event for a descriptor that is not gone. -/
def LiveEvent (l : List (Entry δ)) : Entry δ → Prop
  | .event req => ¬ Gone req.er_handle l
  | _ => True

instance (l : List (Entry δ)) (e : Entry δ) : Decidable (LiveEvent l e) :=
  match e with
  | .event req => inferInstanceAs (Decidable (¬ Gone req.er_handle l))
  | .modwatch _ _ | .removed _ | .copied | .called | .loaded | .stored | .returned _ _ => instDecidableTrue

/-! ## What it is to be gone -/

theorem off_iff : Off f l ↔ ∃ l₂ l₃, l = l₂ ++ .removed f :: l₃ ∧ ∀ data, .modwatch f data ∉ l₂ := by
  rw [Off, since_iff]
  constructor
  · rintro ⟨l₂, e, l₃, rfl, he, hno⟩
    cases e with
    | removed g => cases he; exact ⟨l₂, l₃, rfl, fun data hm => hno _ hm rfl⟩
    | _ => exact he.elim
  · rintro ⟨l₂, l₃, rfl, hno⟩
    refine ⟨l₂, _, l₃, rfl, rfl, fun e he hw => ?_⟩
    cases e with
    | modwatch g data => cases hw; exact hno data he
    | _ => exact hw.elim

theorem off_modwatch {g : Nat} {data : δ} : Off f (.modwatch g data :: l) ↔ g ≠ f ∧ Off f l := by
  simp [Off, Since, Entry.Removes, Entry.Watches]

theorem off_removed {g : Nat} : Off f (.removed g :: l) ↔ g = f ∨ Off f l :=
  since_cons id

/-- The other entries do not matter. -/
theorem off_cons {e : Entry δ} (hr : ¬ e.Removes f) (hw : ¬ e.Watches f) : Off f (e :: l) ↔ Off f l :=
  since_skip hr hw

theorem inCall_removed {g : Nat} : InCall f (.removed g :: l) ↔ g = f ∨ InCall f l :=
  since_cons id

theorem inCall_modwatch {g : Nat} {data : δ} : InCall f (.modwatch g data :: l) ↔ InCall f l :=
  since_skip id id

theorem not_inCall_called : ¬ InCall f (.called :: l) :=
  not_since id trivial

theorem removedSinceLoad_removed {g : Nat} :
    RemovedSinceLoad f (.removed g :: l) ↔ g = f ∨ RemovedSinceLoad f l :=
  since_cons id

theorem removedSinceLoad_modwatch {g : Nat} {data : δ} :
    RemovedSinceLoad f (.modwatch g data :: l) ↔ RemovedSinceLoad f l :=
  since_skip id id

theorem not_removedSinceLoad_loaded : ¬ RemovedSinceLoad f (.loaded :: l) :=
  not_since id trivial

/-- No registration of the descriptor in `l` has a copy of the sets after it. -/
def Uncopied (f : Nat) (l : List (Entry δ)) : Prop :=
  ∀ m₁ m₂ data, l = m₁ ++ .modwatch f data :: m₂ → .copied ∉ m₁

theorem uncopied_cons {e : Entry δ} (he : e ≠ .copied) : Uncopied f (e :: l) ↔ Uncopied f l := by
  constructor
  · rintro h m₁ m₂ data rfl hm
    exact h (e :: m₁) m₂ data rfl (List.mem_cons_of_mem _ hm)
  · intro h m₁ m₂ data heq hm
    cases m₁ with
    | nil => cases hm
    | cons e₁ m₁ =>
      cases heq
      rcases List.mem_cons.1 hm with rfl | hm
      · exact he rfl
      · exact h m₁ m₂ data rfl hm

theorem uncopied_copied : Uncopied f (.copied :: l) ↔ ∀ data, .modwatch f data ∉ l := by
  constructor
  · intro h data hm
    obtain ⟨m₁, m₂, rfl⟩ := List.append_of_mem hm
    exact h (.copied :: m₁) m₂ data rfl List.mem_cons_self
  · intro h m₁ m₂ data heq
    cases m₁ with
    | nil => cases heq
    | cons e m₁ => cases heq; exact absurd (List.mem_append_right _ List.mem_cons_self) (h data)

theorem gone_iff : Gone f l ↔ ∃ l₂ l₃, l = l₂ ++ .removed f :: l₃ ∧ Uncopied f l₂ := by
  induction l with
  | nil => simp [Gone]
  | cons e l ih =>
    -- the removal is the newest entry, or older
    have hcons : (∃ l₂ l₃, e :: l = l₂ ++ .removed f :: l₃ ∧ Uncopied f l₂) ↔
        e = .removed f ∨ ∃ l₂ l₃, l = l₂ ++ .removed f :: l₃ ∧ Uncopied f (e :: l₂) := by
      constructor
      · rintro ⟨l₂, l₃, heq, hno⟩
        cases l₂ with
        | nil => cases heq; exact Or.inl rfl
        | cons e₂ l₂ => cases heq; exact Or.inr ⟨l₂, l₃, rfl, hno⟩
      · rintro (rfl | ⟨l₂, l₃, rfl, hno⟩)
        · exact ⟨[], l, rfl, fun m₁ m₂ data heq => by simp at heq⟩
        · exact ⟨e :: l₂, l₃, rfl, hno⟩
    have hkeep : e ≠ .copied →
        ((∃ l₂ l₃, l = l₂ ++ .removed f :: l₃ ∧ Uncopied f (e :: l₂)) ↔ Gone f l) := fun he => by
      simp only [ih, uncopied_cons he]
    rw [hcons]
    cases e with
    | copied => simp only [Gone, off_iff, uncopied_copied, reduceCtorEq, false_or]
    | removed g => rw [hkeep nofun, Gone, Entry.removed.injEq]
    | modwatch | called | loaded | stored | returned | event =>
      rw [hkeep nofun, Gone]
      simp only [reduceCtorEq, false_or]

theorem each_liveEvent_iff : Each LiveEvent l ↔ NoStaleEvent l := by
  rw [each_iff]
  constructor
  · intro h l₁ l₂ l₃ req heq
    have hlive : ¬ Gone req.er_handle (l₂ ++ .removed req.er_handle :: l₃) := h l₁ (.event req) _ heq
    by_contra hnone
    refine hlive (gone_iff.2 ⟨l₂, l₃, rfl, fun m₁ m₂ data heq' hm => hnone ⟨m₁, m₂, data, heq', hm⟩⟩)
  · rintro h l₁ e l₂ rfl
    cases e with
    | event req =>
      intro hgone
      obtain ⟨l₃, l₄, rfl, hno⟩ := gone_iff.1 hgone
      obtain ⟨m₁, m₂, data, rfl, hm⟩ := h l₁ l₃ l₄ req rfl
      exact hno m₁ m₂ data rfl hm
    | _ => trivial

/-! ## The exact condition -/

/-- The descriptor was removed while the call of `select` was blocked that returned it, or while `selecthasdata` cleared the
bit of the pipe. -/
def RemovedAmiss (f : Nat) (l : List (Entry δ)) : Prop := RemovedInCall f l ∨ RemovedInClear f l

instance (f : Nat) (l : List (Entry δ)) : Decidable (RemovedAmiss f l) := inferInstanceAs (Decidable (_ ∨ _))

/-- The scan does not come to such a descriptor. -/
def NotRemovedAmiss (x : Logged (SelectEvents δ) (Entry δ)) : SelectAct δ → Prop
  | .next _ =>
    (x.state.place = .readScan → x.state.readPos ∈ x.state.sReturnedReadSet → ¬ RemovedAmiss x.state.readPos x.log) ∧
    (x.state.place = .writeScan → x.state.writePos ∈ x.state.sReturnedWriteSet →
      ¬ RemovedAmiss x.state.writePos x.log)
  | _ => True

instance (x : Logged (SelectEvents δ) (Entry δ)) (act : SelectAct δ) : Decidable (NotRemovedAmiss x act) :=
  match act with
  | .next _ => inferInstanceAs (Decidable ((_ → _ → ¬ _) ∧ (_ → _ → ¬ _)))
  | .modwatch _ _ _ | .removeevent _ | .select _ => instDecidableTrue

/-- Where the descriptors that are gone may be left. -/
structure Tracked (s : SelectEvents δ) (l : List (Entry δ)) : Prop where
  watched : ∀ f, f ∈ s.sReadSet ∨ f ∈ s.sWriteSet → ¬ Off f l
  copied : s.place = .calling → ∀ f, f ∈ s.sReturnedReadSet ∨ f ∈ s.sReturnedWriteSet → ¬ Gone f l
  asked : ∀ r w nfds, s.place = .blocked r w nfds →
    ∀ f, f ∈ r ∨ f ∈ w → (Gone f l ↔ InCall f l)
  saved : 0 < s.sNumFDsBackFromSelect →
    ∀ f, f ∈ s.sReturnedReadSet ∨ f ∈ s.sReturnedWriteSet → (Gone f l ↔ RemovedAmiss f l)
  /-- A word that is to be stored still has what was removed since its load. -/
  loaded : ∀ word, s.place = .clearing word → ∀ f ∈ word, (Gone f l ↔ RemovedAmiss f l ∨ RemovedSinceLoad f l)
  unloaded : ∀ word, s.place = .clearing word →
    ∀ f, f ∈ s.sReturnedReadSet ∨ f ∈ s.sReturnedWriteSet → ¬ RemovedSinceLoad f l

theorem tracked_startevents (pipe : Nat) : Tracked (startevents pipe : SelectEvents δ) [] where
  watched _ _ := id
  copied hp := by cases hp
  asked _ _ _ hp := by cases hp
  saved hn := absurd hn (lt_irrefl _)
  loaded _ hp := by cases hp
  unloaded _ hp := by cases hp

theorem Tracked.modwatch (h : Tracked s l) (fd : Nat) (data : δ) (which : BitVec 32) :
    Tracked (s.modwatch fd data which) (.modwatch fd data :: l) where
  watched f hf hoff := by
    obtain ⟨hne, hoff⟩ := off_modwatch.1 hoff
    simp only [SelectEvents.modwatch, mem_assign, if_neg hne.symm] at hf
    exact h.watched f hf hoff
  copied := h.copied
  asked r w nfds hp f hf := (h.asked r w nfds hp f hf).trans inCall_modwatch.symm
  saved := h.saved
  loaded word hp f hf := (h.loaded word hp f hf).trans (or_congr_right removedSinceLoad_modwatch.symm)
  unloaded word hp f hf := mt removedSinceLoad_modwatch.1 (h.unloaded word hp f hf)

theorem Tracked.removeevent (h : Tracked s l) (fd : Nat) : Tracked (s.removeevent fd) (.removed fd :: l) where
  watched f hf hoff := by
    simp only [SelectEvents.removeevent, Finset.mem_erase, ← and_or_left] at hf
    exact h.watched f hf.2 ((off_removed.1 hoff).resolve_left (Ne.symm hf.1))
  copied hp f hf hgone := by
    simp only [SelectEvents.removeevent, Finset.mem_erase, ← and_or_left] at hf
    exact h.copied hp f hf.2 (hgone.resolve_left (Ne.symm hf.1))
  asked r w nfds hp f hf := (or_congr_right (h.asked r w nfds hp f hf)).trans inCall_removed.symm
  saved hn f hf := by
    simp only [SelectEvents.removeevent, Finset.mem_erase, ← and_or_left] at hf
    exact (or_iff_right (Ne.symm hf.1)).trans (h.saved hn f hf.2)
  loaded word hp f hf := by
    rw [removedSinceLoad_removed, or_left_comm]
    exact or_congr_right (h.loaded word hp f hf)
  unloaded word hp f hf hsince := by
    simp only [SelectEvents.removeevent, Finset.mem_erase, ← and_or_left] at hf
    exact h.unloaded word hp f hf.2 ((removedSinceLoad_removed.1 hsince).resolve_left (Ne.symm hf.1))

/-- A report takes a descriptor out of every set. -/
theorem Tracked.report (h : Tracked s l) (hn : 0 < s.sNumFDsBackFromSelect) {fd pos : Nat} {r w : FdSet}
    (hr : r ⊆ s.sReturnedReadSet) (hw : w ⊆ s.sReturnedWriteSet) (event : BitVec 32) (req : EventReq δ) :
    Tracked (constructeventreq { s with sCurrentFDPos := pos, sReturnedReadSet := r, sReturnedWriteSet := w } fd event)
      (.event req :: l) where
  watched f hf hoff := by
    refine h.watched f (hf.imp Finset.mem_of_mem_erase Finset.mem_of_mem_erase) ?_
    exact (off_cons (e := .event req) id id).1 hoff
  copied hp := by cases hp
  asked _ _ _ hp := by cases hp
  saved _ f hf := h.saved hn f (hf.imp (hr ·) (hw ·))
  loaded _ hp := by cases hp
  unloaded _ hp := by cases hp

/-- The word with the bit of the pipe is loaded. -/
theorem Tracked.pipe (h : Tracked s l) (hn : 0 < s.sNumFDsBackFromSelect) :
    Tracked { s with place := .clearing (s.sReturnedReadSet.word s.sPipe) } (.loaded :: l) where
  watched f hf hoff := h.watched f hf ((off_cons id id).1 hoff)
  copied hp := by cases hp
  asked _ _ _ hp := by cases hp
  saved _ := h.saved hn
  loaded word hp f hf := by
    cases hp
    exact (h.saved hn f (Or.inl (mem_word.1 hf).1)).trans (or_iff_left not_removedSinceLoad_loaded).symm
  unloaded _ _ _ _ := not_removedSinceLoad_loaded

/-- It is stored, with what was removed in between. -/
theorem Tracked.clear (hc : s.Control) (h : Tracked s l) {word : FdSet} (hp : s.place = .clearing word) :
    Tracked (s.clearPipe word) (.stored :: l) where
  watched f hf hoff := h.watched f hf ((off_cons id id).1 hoff)
  copied hp := by cases hp
  asked _ _ _ hp := by cases hp
  saved _ f hf := by
    have hcases : f ∈ word ∨ f ∈ s.sReturnedReadSet ∨ f ∈ s.sReturnedWriteSet := by
      rcases hf with hf | hf
      · rcases mem_store.1 hf with ⟨hf, -⟩ | hf
        · exact Or.inr (Or.inl hf)
        · exact Or.inl (Finset.mem_of_mem_erase hf)
      · exact Or.inr (Or.inr hf)
    -- what the word has was removed since the load, or it is as it was
    have hamiss : RemovedAmiss f (.stored :: l) ↔ RemovedAmiss f l ∨ RemovedSinceLoad f l := by
      simp only [RemovedAmiss, RemovedInCall, RemovedInClear]
      tauto
    rw [hamiss]
    rcases hcases with hword | hf
    · exact h.loaded word hp f hword
    · exact (h.saved (hc.clearing hp).1 f hf).trans (or_iff_left (h.unloaded word hp f hf)).symm
  loaded _ hp := by cases hp
  unloaded _ hp := by cases hp

theorem tracked_step {o : Option (Entry δ)} (hc : s.Control) (h : Tracked s l) (hs : Does s act s' o) :
    Tracked s' (o.toList ++ l) := by
  cases hs with
  | modwatch fd data which hfd => exact h.modwatch fd data which
  | removeevent fd hfd => exact h.removeevent fd
  | readFound b hp hf =>
    rw [scanRead, if_pos hf]
    exact h.report (hc.readScan hp).1 (Finset.erase_subset _ _) subset_rfl evRE _
  | writeFound b hp hf =>
    rw [scanWrite, if_pos hf]
    exact h.report (hc.writeScan hp).1 subset_rfl (Finset.erase_subset _ _) evWR _
  | enterRead b ret hp | enterWrite b ret hp | enterCounted b ret hp | closedData b ret hp =>
    exact { h with copied := by simp, asked := by simp, loaded := by simp, unloaded := by simp }
  | fresh b hp | error b hp | data b hp | again b hp | closed b hp | writePast b hp | readPast b hp =>
    exact { h with copied := by simp, asked := by simp, loaded := by simp, unloaded := by simp }
  | reinit b hp hn =>
    exact ⟨h.watched, by simp, by simp, fun hpos => absurd hpos (lt_irrefl _), by simp, by simp⟩
  | pipe b hp hn hf => exact h.pipe hn
  | clear b word hp => exact h.clear hc hp
  | copy b hp =>
    simp only [Control, hp] at hc
    exact ⟨fun f hf hoff => h.watched f hf ((off_cons id id).1 hoff), fun _ => h.watched, by simp,
      fun hpos => absurd hpos (not_lt.2 hc.1), by simp, by simp⟩
  | call b hp =>
    simp only [Control, hp] at hc
    refine ⟨fun f hf hoff => h.watched f hf ((off_cons id id).1 hoff), by simp, fun r w nfds hb f hf => ?_,
      fun hpos => absurd hpos (not_lt.2 hc.1), by simp, by simp⟩
    cases hb
    exact iff_of_false (h.copied hp f hf) not_inCall_called
  | ready r w readfds writefds nfds hp hr hw =>
    refine ⟨fun f hf hoff => h.watched f hf ((off_cons id id).1 hoff), by simp, by simp, fun _ f hf => ?_, by simp,
      by simp⟩
    exact (h.asked readfds writefds nfds hp f (hf.imp (hr ·) (hw ·))).trans (or_iff_left id).symm
  | timedOut readfds writefds nfds hp =>
    exact ⟨fun f hf hoff => h.watched f hf ((off_cons id id).1 hoff), by simp, by simp,
      fun hpos => absurd hpos (lt_irrefl _), by simp, by simp⟩
  | failed readfds writefds nfds hp =>
    exact ⟨h.watched, by simp, by simp, fun hpos => absurd hpos (show ¬ (0 : Int) < -1 by decide), by simp, by simp⟩

theorem liveEvent_iff {x : Logged (SelectEvents δ) (Entry δ)} {o : Option (Entry δ)} (hc : x.state.Control)
    (h : Tracked x.state x.log) (hs : Does x.state act s' o) :
    NotRemovedAmiss x act ↔ ∀ e ∈ o, LiveEvent x.log e := by
  have hplace : x.state.place ≠ .readScan → x.state.place ≠ .writeScan → ∀ b, NotRemovedAmiss x (.next b) :=
    fun hr hw _ => ⟨fun hp => absurd hp hr, fun hp => absurd hp hw⟩
  cases hs with
  | readFound b hp hf =>
    have hiff := h.saved (hc.readScan hp).1 _ (Or.inl hf)
    constructor
    · rintro hcond e ⟨⟩ hgone
      exact hcond.1 hp hf (hiff.1 hgone)
    · refine fun hlive => ⟨fun _ _ hcall => hlive _ rfl (hiff.2 hcall), fun hw => ?_⟩
      rw [hp] at hw
      cases hw
  | writeFound b hp hf =>
    have hiff := h.saved (hc.writeScan hp).1 _ (Or.inr hf)
    constructor
    · rintro hcond e ⟨⟩ hgone
      exact hcond.2 hp hf (hiff.1 hgone)
    · refine fun hlive => ⟨fun hr => ?_, fun _ _ hcall => hlive _ rfl (hiff.2 hcall)⟩
      rw [hp] at hr
      cases hr
  | readPast b hp hf =>
    refine iff_of_true ⟨fun _ hm => absurd hm hf, fun hw => ?_⟩ (by simp)
    rw [hp] at hw
    cases hw
  | writePast b hp hf =>
    refine iff_of_true ⟨fun hr => ?_, fun _ hm => absurd hm hf⟩ (by simp)
    rw [hp] at hr
    cases hr
  | modwatch | removeevent | ready | timedOut => exact iff_of_true trivial (by rintro e ⟨⟩; trivial)
  | failed => exact iff_of_true trivial (by simp)
  | enterRead b ret hp | enterWrite b ret hp | enterCounted b ret hp | closedData b ret hp =>
    exact iff_of_true (hplace (by simp [hp]) (by simp [hp]) b) (by simp)
  | reinit b hp | fresh b hp | again b hp | error b hp | data b hp | closed b hp =>
    exact iff_of_true (hplace (by simp [hp]) (by simp [hp]) b) (by simp)
  | pipe b hp | clear b word hp | copy b hp | call b hp =>
    exact iff_of_true (hplace (by simp [hp]) (by simp [hp]) b) (by rintro e ⟨⟩; trivial)

/-- **No stale event, exactly when**: every event for a descriptor that was removed comes from a call of `select` whose
sets were copied after the descriptor was registered again, if and only if no scan of the run comes to a descriptor that
was removed while the call was blocked that returned it, or while the bit of the pipe was being cleared. -/
theorem no_stale_event_iff {pipe : Nat} {as : List (SelectAct δ)} {x : Logged (SelectEvents δ) (Entry δ)}
    (hr : run noted ⟨startevents pipe, []⟩ as = some x) :
    NoStaleEvent x.log ↔ Along noted NotRemovedAmiss ⟨startevents pipe, []⟩ as := by
  have h := each_iff_along (Q := LiveEvent) (I := fun x => x.state.Control ∧ Tracked x.state x.log)
    (C := NotRemovedAmiss)
    (fun x a s h _ hs => ⟨control_step h.1 (step_cases hs), tracked_step h.1 h.2 (step_cases hs)⟩)
    (fun x a s h hs => liveEvent_iff h.1 h.2 (step_cases hs)) ⟨control_startevents pipe, tracked_startevents pipe⟩ hr
  rw [← each_liveEvent_iff, h]
  exact ⟨And.right, fun hC => ⟨trivial, hC⟩⟩

/-- A descriptor that is watched and ready for reading: `acts` come while `select` is blocked. -/
def whileBlocked (acts : List (SelectAct Unit)) : List (SelectAct Unit) :=
  [.modwatch 5 () evRE] ++ List.replicate 5 (.next false) ++ acts ++ [.select (.ready {5} ∅)] ++
    List.replicate 3 (.next false)

/-- Its number goes to another connection before `select` returns, which gets the event. -/
theorem no_stale_event_reused : ∃ x : Logged (SelectEvents Unit) (Entry Unit),
    run noted ⟨startevents 3, []⟩ (whileBlocked [.removeevent 5, .modwatch 5 () evRE]) = some x ∧
      ¬ NoStaleEvent x.log := by
  refine ⟨_, rfl, fun h => ?_⟩
  have hlive := (each_liveEvent_iff.2 h).1
  revert hlive
  decide +kernel

theorem no_stale_event_iff_other : ∃ x : Logged (SelectEvents Unit) (Entry Unit),
    run noted ⟨startevents 3, []⟩ (whileBlocked [.removeevent 7, .modwatch 7 () evRE]) = some x ∧
      NoStaleEvent x.log := by
  obtain ⟨x, hr⟩ : ∃ x, run noted ⟨startevents 3, []⟩ (whileBlocked [.removeevent 7, .modwatch 7 () evRE]) = some x :=
    ⟨_, rfl⟩
  exact ⟨x, hr, (no_stale_event_iff hr).2 (by decide +kernel)⟩

end SelectEvents

end ToolLib.Common
