import ToolLib.Common.SelectEvents

/-!
# One event for each `select_modwatch`

`constructeventreq` takes a reported descriptor out of the watched sets, and its comment promises no further event until
`select_modwatch` is called. The saved sets of the current result are another matter: a descriptor that `select` returned
ready in both directions is in both, and only the set in which it was found is cleared. The write scan reports it again,
unless `select_modwatch` has come in between, and this is the only way to a second event (`one_per_modwatch_iff`).
-/

namespace ToolLib.Common

open ToolLib.Base

variable {δ : Type*}

namespace SelectEvents

variable {s s' : SelectEvents δ} {act : SelectAct δ} {l l' : List (Entry δ)} {f : Nat}

/-- The descriptor was reported, and `select_modwatch` has not been called for it since. -/
def Reported (f : Nat) : List (Entry δ) → Prop := Since (Entry.Reports f) (Entry.Watches f)

instance (f : Nat) (l : List (Entry δ)) : Decidable (Reported f l) := inferInstanceAs (Decidable (Since _ _ l))

theorem reported_modwatch {g : Nat} {data : δ} : Reported f (.modwatch g data :: l) ↔ g ≠ f ∧ Reported f l := by
  simp [Reported, Since, Entry.Reports, Entry.Watches]

theorem reported_event {req : EventReq δ} : Reported f (.event req :: l) ↔ req.er_handle = f ∨ Reported f l :=
  since_cons id

/-- The other entries do not matter. -/
theorem reported_cons {e : Entry δ} (hr : ¬ e.Reports f) (hw : ¬ e.Watches f) :
    Reported f (e :: l) ↔ Reported f l :=
  since_skip hr hw

/-- An event for a descriptor that `select_modwatch` has named since the last one. -/
def OneEvent (l : List (Entry δ)) : Entry δ → Prop
  | .event req => ¬ Reported req.er_handle l
  | _ => True

/-- Between two events for a descriptor there is a `select_modwatch` for it. -/
def OnePerModwatch (log : List (Entry δ)) : Prop :=
  ∀ l₁ l₂ l₃ req₁ req₂, log = l₁ ++ .event req₂ :: (l₂ ++ .event req₁ :: l₃) → req₁.er_handle = req₂.er_handle →
    ∃ data, .modwatch req₁.er_handle data ∈ l₂

theorem reported_iff : Reported f l ↔
    ∃ l₂ req l₃, l = l₂ ++ .event req :: l₃ ∧ req.er_handle = f ∧ ∀ data, .modwatch f data ∉ l₂ := by
  rw [Reported, since_iff]
  constructor
  · rintro ⟨l₂, e, l₃, rfl, he, hno⟩
    cases e with
    | event req => exact ⟨l₂, req, l₃, rfl, he, fun data hm => hno _ hm rfl⟩
    | _ => exact he.elim
  · rintro ⟨l₂, req, l₃, rfl, hf, hno⟩
    refine ⟨l₂, _, l₃, rfl, hf, fun e he hw => ?_⟩
    cases e with
    | modwatch g data => cases hw; exact hno data he
    | _ => exact hw.elim

theorem each_oneEvent_iff : Each OneEvent l ↔ OnePerModwatch l := by
  rw [each_iff]
  constructor
  · intro h l₁ l₂ l₃ req₁ req₂ heq hf
    have hno : ¬ Reported req₂.er_handle (l₂ ++ .event req₁ :: l₃) := h l₁ (.event req₂) _ heq
    rw [reported_iff] at hno
    by_contra hnone
    exact hno ⟨l₂, req₁, l₃, rfl, hf, fun data hm => hnone ⟨data, by rwa [hf]⟩⟩
  · rintro h l₁ e l₂ rfl
    cases e with
    | event req =>
      intro hrep
      obtain ⟨l₃, req₁, l₄, rfl, hf, hno⟩ := reported_iff.1 hrep
      obtain ⟨data, hm⟩ := h l₁ l₃ l₄ req₁ req rfl hf
      exact hno data (by rwa [hf] at hm)
    | _ => trivial

/-! ## The exact condition -/

/-- The write scan does not come to a descriptor that `select` had also returned ready for reading, whose read event was
reported with no `select_modwatch` since. -/
def NotBothWays (x : Logged (SelectEvents δ) (Entry δ)) : SelectAct δ → Prop
  | .next _ => x.state.place = .writeScan → x.state.writePos ∈ x.state.sReturnedWriteSet →
      x.state.writePos ∈ (lastResult x.log).1 → ¬ Reported x.state.writePos x.log
  | _ => True

instance (x : Logged (SelectEvents δ) (Entry δ)) (act : SelectAct δ) : Decidable (NotBothWays x act) :=
  match act with
  | .next _ => inferInstanceAs (Decidable (x.state.place = .writeScan → x.state.writePos ∈ x.state.sReturnedWriteSet →
      x.state.writePos ∈ (lastResult x.log).1 → ¬ Reported x.state.writePos x.log))
  | .modwatch _ _ _ | .removeevent _ | .select _ => instDecidableTrue

/-- What was reported is watched no more, and left in the saved sets only for the second direction. -/
structure Spent (s : SelectEvents δ) (l : List (Entry δ)) : Prop where
  watched : ∀ f, Reported f l → f ∉ s.sReadSet ∧ f ∉ s.sWriteSet
  copied : s.place = .calling → ∀ f, Reported f l → f ∉ s.sReturnedReadSet ∧ f ∉ s.sReturnedWriteSet
  asked : ∀ r w nfds, s.place = .blocked r w nfds → ∀ f, Reported f l → f ∉ r ∧ f ∉ w
  loaded : ∀ word, s.place = .clearing word → (∀ f, Reported f l → f ∉ word) ∧ word ⊆ (lastResult l).1
  toRead : 0 < s.sNumFDsBackFromSelect → s.sInReadSet = true → ∀ f, Reported f l → f ∉ s.sReturnedReadSet
  toWrite : 0 < s.sNumFDsBackFromSelect → ∀ f, Reported f l → f ∈ s.sReturnedWriteSet → f ∈ (lastResult l).1
  result : 0 < s.sNumFDsBackFromSelect → s.sReturnedReadSet ⊆ (lastResult l).1

/-- No result is being reported. -/
theorem spent_of_le (hn : s.sNumFDsBackFromSelect ≤ 0) (hwatched : ∀ f, Reported f l → f ∉ s.sReadSet ∧ f ∉ s.sWriteSet)
    (hcopied : s.place = .calling → ∀ f, Reported f l → f ∉ s.sReturnedReadSet ∧ f ∉ s.sReturnedWriteSet)
    (hasked : ∀ r w nfds, s.place = .blocked r w nfds → ∀ f, Reported f l → f ∉ r ∧ f ∉ w)
    (hloaded : ∀ word, s.place ≠ .clearing word) : Spent s l where
  watched := hwatched
  copied := hcopied
  asked := hasked
  loaded word hp := absurd hp (hloaded word)
  toRead hpos := absurd hpos (not_lt.2 hn)
  toWrite hpos := absurd hpos (not_lt.2 hn)
  result hpos := absurd hpos (not_lt.2 hn)

theorem spent_startevents (pipe : Nat) : Spent (startevents pipe : SelectEvents δ) [] :=
  spent_of_le le_rfl (fun _ h => h.elim) (fun _ _ h => h.elim) (fun _ _ _ _ _ h => h.elim) (by simp [startevents])

/-- A log by which no more is reported, of the same result. -/
theorem Spent.mono (h : Spent s l) (hrep : ∀ f, Reported f l' → Reported f l)
    (hres : (lastResult l').1 = (lastResult l).1) : Spent s l' where
  watched f hf := h.watched f (hrep f hf)
  copied hp f hf := h.copied hp f (hrep f hf)
  asked r w nfds hp f hf := h.asked r w nfds hp f (hrep f hf)
  loaded word hp := ⟨fun f hf => (h.loaded word hp).1 f (hrep f hf), hres ▸ (h.loaded word hp).2⟩
  toRead hn hr f hf := h.toRead hn hr f (hrep f hf)
  toWrite hn f hf hm := hres ▸ h.toWrite hn f (hrep f hf) hm
  result hn := hres ▸ h.result hn

theorem Spent.note {e : Entry δ} (h : Spent s l) (hr : ∀ f, ¬ e.Reports f) (hw : ∀ f, ¬ e.Watches f)
    (hres : (lastResult (e :: l)).1 = (lastResult l).1) : Spent s (e :: l) :=
  h.mono (fun f => (reported_cons (hr f) (hw f)).1) hres

theorem Spent.modwatch (h : Spent s l) (fd : Nat) (data : δ) (which : BitVec 32) :
    Spent (s.modwatch fd data which) (.modwatch fd data :: l) := by
  have hl : Spent s (.modwatch fd data :: l) := h.mono (fun f hf => (reported_modwatch.1 hf).2) rfl
  refine { hl with watched := fun f hf => ?_ }
  simp only [SelectEvents.modwatch, mem_assign, if_neg (reported_modwatch.1 hf).1.symm]
  exact hl.watched f hf

theorem Spent.removeevent (h : Spent s l) (fd : Nat) : Spent (s.removeevent fd) l where
  watched f hf := (h.watched f hf).imp (mt Finset.mem_of_mem_erase) (mt Finset.mem_of_mem_erase)
  copied hp f hf := (h.copied hp f hf).imp (mt Finset.mem_of_mem_erase) (mt Finset.mem_of_mem_erase)
  asked := h.asked
  loaded := h.loaded
  toRead hn hr f hf hm := h.toRead hn hr f hf (Finset.mem_of_mem_erase hm)
  toWrite hn f hf hm := h.toWrite hn f hf (Finset.mem_of_mem_erase hm)
  result hn _ hm := h.result hn (Finset.mem_of_mem_erase hm)

theorem Spent.readFound (hc : s.Control) (h : Spent s l) (hp : s.place = .readScan)
    (hf : s.readPos ∈ s.sReturnedReadSet) :
    Spent s.scanRead (.event ⟨s.readPos, evRE, s.sCookieArray s.readPos⟩ :: l) := by
  obtain ⟨hn, hr⟩ := hc.readScan hp
  rw [scanRead, if_pos hf]
  refine ⟨fun f hrep => ?_, by simp [constructeventreq], by simp [constructeventreq], by simp [constructeventreq],
    fun _ _ f hrep hm => ?_, fun _ f hrep hm => ?_, fun _ f hm => ?_⟩
  · rcases reported_event.1 hrep with rfl | hrep
    · exact ⟨Finset.notMem_erase _ _, Finset.notMem_erase _ _⟩
    · exact (h.watched f hrep).imp (mt Finset.mem_of_mem_erase) (mt Finset.mem_of_mem_erase)
  · rcases reported_event.1 hrep with rfl | hrep
    · exact Finset.notMem_erase _ _ hm
    · exact h.toRead hn hr f hrep (Finset.mem_of_mem_erase hm)
  · -- the descriptor found now was in the read half of the result
    rcases reported_event.1 hrep with rfl | hrep
    · exact h.result hn hf
    · exact h.toWrite hn f hrep hm
  · exact h.result hn (Finset.mem_of_mem_erase hm)

theorem Spent.writeFound (hc : s.Control) (h : Spent s l) (hp : s.place = .writeScan)
    (hf : s.writePos ∈ s.sReturnedWriteSet) :
    Spent s.scanWrite (.event ⟨s.writePos, evWR, s.sCookieArray s.writePos⟩ :: l) := by
  obtain ⟨hn, hr⟩ := hc.writeScan hp
  rw [scanWrite, if_pos hf]
  refine ⟨fun f hrep => ?_, by simp [constructeventreq], by simp [constructeventreq], by simp [constructeventreq],
    fun _ hr' => ?_, fun _ f hrep hm => ?_, fun _ => h.result hn⟩
  · rcases reported_event.1 hrep with rfl | hrep
    · exact ⟨Finset.notMem_erase _ _, Finset.notMem_erase _ _⟩
    · exact (h.watched f hrep).imp (mt Finset.mem_of_mem_erase) (mt Finset.mem_of_mem_erase)
  · exact absurd (hr.symm.trans hr') Bool.false_ne_true
  · rcases reported_event.1 hrep with rfl | hrep
    · exact absurd hm (Finset.notMem_erase _ _)
    · exact h.toWrite hn f hrep (Finset.mem_of_mem_erase hm)

theorem spent_step {o : Option (Entry δ)} (hc : s.Control) (h : Spent s l) (hs : Does s act s' o) :
    Spent s' (o.toList ++ l) := by
  cases hs with
  | modwatch fd data which hfd => exact h.modwatch fd data which
  | removeevent fd hfd => exact (h.removeevent fd).note (fun _ => id) (fun _ => id) rfl
  | readFound b hp hf => exact h.readFound hc hp hf
  | writeFound b hp hf => exact h.writeFound hc hp hf
  | enterRead b ret hp | enterWrite b ret hp | enterCounted b ret hp | closedData b ret hp =>
    exact { h with copied := by simp, asked := by simp, loaded := by simp }
  | fresh b hp | error b hp | data b hp | again b hp | closed b hp | writePast b hp =>
    exact { h with copied := by simp, asked := by simp, loaded := by simp }
  | readPast b hp =>
    exact { h with copied := by simp, asked := by simp, loaded := by simp, toRead := fun _ => by simp }
  | reinit b hp hn => exact spent_of_le le_rfl h.watched (by simp) (by simp) (by simp)
  | pipe b hp hn hf =>
    simp only [Control, hp] at hc
    have h' := h.note (e := .loaded) (fun _ => id) (fun _ => id) rfl
    refine { h' with copied := by simp, asked := by simp, loaded := fun word hw => ?_ }
    cases hw
    exact ⟨fun f hrep hm => h'.toRead hn hc.2.2 f hrep (mem_word.1 hm).1, fun f hm => h'.result hn (mem_word.1 hm).1⟩
  | clear b word hp =>
    have h' := h.note (e := .stored) (fun _ => id) (fun _ => id) rfl
    obtain ⟨hn, -⟩ := hc.clearing hp
    obtain ⟨hunreported, hresult⟩ := h'.loaded word hp
    exact { h' with
      copied := by simp [clearPipe]
      asked := by simp [clearPipe]
      loaded := by simp [clearPipe]
      toRead := fun _ hr f hrep hm => (mem_store.1 hm).elim (fun hm => h'.toRead hn hr f hrep hm.1)
        fun hm => hunreported f hrep (Finset.mem_of_mem_erase hm)
      toWrite := fun _ => h'.toWrite hn
      result := fun _ f hm => (mem_store.1 hm).elim (fun hm => h'.result hn hm.1)
        fun hm => hresult (Finset.mem_of_mem_erase hm) }
  | copy b hp =>
    simp only [Control, hp] at hc
    have h' := h.note (e := .copied) (fun _ => id) (fun _ => id) rfl
    exact spent_of_le hc.1 h'.watched (fun _ => h'.watched) (by simp) (by simp)
  | call b hp =>
    have h' := h.note (e := .called) (fun _ => id) (fun _ => id) rfl
    refine { h' with copied := by simp, asked := fun r w nfds hb => ?_, loaded := by simp }
    cases hb
    exact h'.copied hp
  | ready r w readfds writefds nfds hp hr hw =>
    have hrep : ∀ {f}, Reported f (.returned r w :: l) ↔ Reported f l := reported_cons id id
    have hasked := h.asked readfds writefds nfds hp
    exact ⟨fun f hf => h.watched f (hrep.1 hf), by simp, by simp, by simp,
      fun _ _ f hf hm => (hasked f (hrep.1 hf)).1 (hr hm),
      fun _ f hf hm => absurd (hw hm) (hasked f (hrep.1 hf)).2, fun _ => subset_rfl⟩
  | timedOut readfds writefds nfds hp =>
    exact spent_of_le le_rfl (fun f hf => h.watched f ((reported_cons id id).1 hf)) (by simp) (by simp)
      (by simp)
  | failed readfds writefds nfds hp =>
    exact spent_of_le (show (-1 : Int) ≤ 0 by decide) h.watched (by simp) (by simp) (by simp)

/-- An event is the first since the last `select_modwatch` exactly when it is not the second of the two directions. -/
theorem oneEvent_iff {x : Logged (SelectEvents δ) (Entry δ)} {o : Option (Entry δ)} (hc : x.state.Control)
    (h : Spent x.state x.log) (hs : Does x.state act s' o) : NotBothWays x act ↔ ∀ e ∈ o, OneEvent x.log e := by
  cases hs with
  | readFound b hp hf =>
    obtain ⟨hn, hr⟩ := hc.readScan hp
    refine iff_of_true (fun hw => ?_) ?_
    · rw [hp] at hw
      cases hw
    · rintro e ⟨⟩ hrep
      exact h.toRead hn hr _ hrep hf
  | writeFound b hp hf =>
    obtain ⟨hn, -⟩ := hc.writeScan hp
    constructor
    · rintro hcond e ⟨⟩ hrep
      exact hcond hp hf (h.toWrite hn _ hrep hf) hrep
    · exact fun hone _ _ _ => hone _ rfl
  | writePast b hp hf => exact iff_of_true (fun _ hm => absurd hm hf) (by simp)
  | modwatch | removeevent | ready | timedOut => exact iff_of_true trivial (by rintro e ⟨⟩; trivial)
  | failed => exact iff_of_true trivial (by simp)
  | enterRead b ret hp | enterWrite b ret hp | enterCounted b ret hp | closedData b ret hp =>
    exact iff_of_true (fun hw => by rw [hp] at hw; cases hw) (by simp)
  | readPast b hp | reinit b hp | fresh b hp | again b hp | error b hp | data b hp | closed b hp =>
    exact iff_of_true (fun hw => by rw [hp] at hw; cases hw) (by simp)
  | pipe b hp | clear b word hp | copy b hp | call b hp =>
    exact iff_of_true (fun hw => by rw [hp] at hw; cases hw) (by rintro e ⟨⟩; trivial)

/-- **One event for each `select_modwatch`, exactly when**: between two events for a descriptor there is always a
`select_modwatch` for it, if and only if no write scan of the run comes to a descriptor that was ready in both directions
and whose read event is still the last word on it. -/
theorem one_per_modwatch_iff {pipe : Nat} {as : List (SelectAct δ)} {x : Logged (SelectEvents δ) (Entry δ)}
    (hr : run noted ⟨startevents pipe, []⟩ as = some x) :
    OnePerModwatch x.log ↔ Along noted NotBothWays ⟨startevents pipe, []⟩ as := by
  have h := each_iff_along (Q := OneEvent) (I := fun x => x.state.Control ∧ Spent x.state x.log) (C := NotBothWays)
    (fun x a s h _ hs => ⟨control_step h.1 (step_cases hs), spent_step h.1 h.2 (step_cases hs)⟩)
    (fun x a s h hs => oneEvent_iff h.1 h.2 (step_cases hs)) ⟨control_startevents pipe, spent_startevents pipe⟩ hr
  rw [← each_oneEvent_iff, h]
  exact ⟨And.right, fun hC => ⟨trivial, hC⟩⟩

/-- A descriptor that is watched and ready in both directions: `acts` come between its read event and the rest. -/
def bothWays (acts : List (SelectAct Unit)) : List (SelectAct Unit) :=
  [.modwatch 5 () (evRE ||| evWR)] ++ List.replicate 5 (.next false) ++ [.select (.ready {5} {5})] ++
    List.replicate 3 (.next false) ++ acts ++ List.replicate 3 (.next false)

/-- It is reported twice. -/
theorem one_per_modwatch_both_ways : ∃ x : Logged (SelectEvents Unit) (Entry Unit),
    run noted ⟨startevents 3, []⟩ (bothWays []) = some x ∧ ¬ OnePerModwatch x.log := by
  refine ⟨_, rfl, fun h => ?_⟩
  obtain ⟨data, hm⟩ := h [] [] _ _ _ rfl rfl
  cases hm

theorem one_per_modwatch_iff_again : ∃ x : Logged (SelectEvents Unit) (Entry Unit),
    run noted ⟨startevents 3, []⟩ (bothWays [.modwatch 5 () evWR]) = some x ∧ OnePerModwatch x.log := by
  obtain ⟨x, hr⟩ : ∃ x, run noted ⟨startevents 3, []⟩ (bothWays [.modwatch 5 () evWR]) = some x := ⟨_, rfl⟩
  exact ⟨x, hr, (one_per_modwatch_iff hr).2 (by decide +kernel)⟩

end SelectEvents

end ToolLib.Common
