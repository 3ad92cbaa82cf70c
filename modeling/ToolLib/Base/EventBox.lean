import ToolLib.Base.Mask
import ToolLib.Base.System

/-!
# A box of events

A mask of events that anyone may put events into and whose owner takes them out. A take reads the mask first and is a
subtraction later, so it takes a part of what is held by then.

- `took_of_held`: an event that is held stays held until a take reports it;
- `taken_put`: nothing is taken that was not put in.
-/

namespace ToolLib.Base

/-- The events in the box, all those that were ever put in, and what each take has reported. -/
structure EventBox (w : Nat) where
  held : BitVec w
  put : BitVec w
  taken : List (BitVec w)

namespace EventBox

variable {w : Nat}

inductive Act (w : Nat)
  | put (e : BitVec w)
  | take (e : BitVec w)

def empty : EventBox w := ⟨0#w, 0#w, []⟩

/-- One step; a take is possible for what is in the box. -/
def step (b : EventBox w) : Act w → Option (EventBox w)
  | .put e => some { b with held := b.held ||| e, put := b.put ||| e }
  | .take e => if Submask e b.held then some { b with held := b.held - e, taken := b.taken ++ [e] } else none

variable {b b' : EventBox w} {as : List (Act w)} {e : BitVec w} {i : Nat}

/-- A take leaves the events that it does not report. -/
theorem step_take (h : step b (.take e) = some b') :
    Submask e b.held ∧ b'.held = b.held &&& ~~~e ∧ b'.put = b.put ∧ b'.taken = b.taken ++ [e] := by
  rw [step] at h
  split at h
  next hsub =>
    cases h
    exact ⟨hsub, hsub.sub_eq, rfl, rfl⟩
  next => cases h

/-- The takes of the second state are those of the first and some more, and report what is held no longer. -/
def Took (b b' : EventBox w) : Prop :=
  ∃ es, b'.taken = b.taken ++ es ∧
    ∀ i, b.held.getLsbD i = true → b'.held.getLsbD i = true ∨ ∃ e ∈ es, e.getLsbD i = true

theorem Took.refl (b : EventBox w) : Took b b := ⟨[], (List.append_nil _).symm, fun _ h => Or.inl h⟩

theorem Took.trans {b'' : EventBox w} (h : Took b b') (h' : Took b' b'') : Took b b'' := by
  obtain ⟨es, hes, hb⟩ := h
  obtain ⟨es', hes', hb'⟩ := h'
  refine ⟨es ++ es', by rw [hes', hes, List.append_assoc], fun i hi => ?_⟩
  rcases hb i hi with hi' | ⟨e, he, hbit⟩
  · rcases hb' i hi' with hi'' | ⟨e, he, hbit⟩
    · exact Or.inl hi''
    · exact Or.inr ⟨e, List.mem_append_right _ he, hbit⟩
  · exact Or.inr ⟨e, List.mem_append_left _ he, hbit⟩

theorem took_step {a : Act w} (h : step b a = some b') : Took b b' := by
  cases a with
  | put e =>
    cases h
    exact ⟨[], (List.append_nil _).symm, fun i hi => Or.inl (submask_or_left _ _ i hi)⟩
  | take e =>
    obtain ⟨-, hheld, -, htaken⟩ := step_take h
    refine ⟨[e], htaken, fun i hi => ?_⟩
    rw [hheld, getLsbD_and_not, hi]
    cases hbit : e.getLsbD i with
    | true => exact Or.inr ⟨e, List.mem_singleton_self e, hbit⟩
    | false => exact Or.inl rfl

/-- **No event is lost**: what is held stays held, or a later take reports it. -/
theorem took_of_held (h : run step b as = some b') (hi : b.held.getLsbD i = true) :
    b'.held.getLsbD i = true ∨ ∃ e ∈ b'.taken.drop b.taken.length, e.getLsbD i = true := by
  obtain ⟨es, hes, hb⟩ := run_rel (R := Took) Took.refl (fun _ _ _ => Took.trans) (fun _ _ _ => took_step) h
  rw [hes, List.drop_left]
  exact hb i hi

/-- The events in the box and those taken were put in. -/
structure Put (b : EventBox w) : Prop where
  held : Submask b.held b.put
  taken : ∀ e ∈ b.taken, Submask e b.put

theorem put_empty : Put (empty : EventBox w) := ⟨Submask.refl _, fun _ h => absurd h List.not_mem_nil⟩

theorem put_step (b : EventBox w) (a : Act w) (b' : EventBox w) (h : Put b) (hs : step b a = some b') : Put b' := by
  cases a with
  | put e =>
    cases hs
    refine ⟨(h.held.trans (submask_or_left _ _)).or (submask_or_right _ _), fun r hr => ?_⟩
    exact (h.taken r hr).trans (submask_or_left _ _)
  | take e =>
    obtain ⟨hsub, hheld, hput, htaken⟩ := step_take hs
    refine ⟨?_, fun r hr => ?_⟩
    · rw [hheld, hput]
      exact (submask_and_left _ _).trans h.held
    · rw [hput]
      rw [htaken] at hr
      rcases List.mem_append.1 hr with hr | hr
      · exact h.taken r hr
      · rw [List.mem_singleton.1 hr]
        exact hsub.trans h.held

/-- **Nothing is taken that was not put in.** -/
theorem taken_put (h : run step empty as = some b) : ∀ e ∈ b.taken, Submask e b.put :=
  (run_inv put_step put_empty h).taken

end EventBox

end ToolLib.Base
