import ToolLib.Base.Loop
import ToolLib.Simple.SharedQueues

/-!
# The links of `ObjectQueue`

One queue: the case of `SharedQueues` in which there is nothing to share, with all that can be done with a queue and its
iterator. An element that has been taken out keeps the pointers it had; `fQueue` tells that it is not a member. An operation
is `none` when it follows a `NULL`.

`objectQueue_agrees_iff`: the operations do to the ring what `ObjectQueue` does to a list, unless the list gets longer
than `fLength` can count.
-/

namespace ToolLib.Simple.QueueLinks

open ToolLib.Base

/-- An `ObjectQueueElem`: the one in the queue itself, or one of the others. -/
abbrev Node (ι : Type*) := SharedQueues.Node Unit ι

/-- The fields of the elements, and of the queue. -/
abbrev Links (ι : Type*) := SharedQueues.Queues Unit ι

variable {ι : Type*} [DecidableEq ι]

namespace Links

def getHead (s : Links ι) : Option (Node ι) := if 0 < s.fLength () then s.fPrev (.sentinel ()) else none

def getTail (s : Links ι) : Option (Node ι) := if 0 < s.fLength () then s.fNext (.sentinel ()) else none

/-- `ObjectQueueIter::Next`: the new `fCurrentElemP`. -/
def next (s : Links ι) (fCurrentElemP : Option (Node ι)) : Option (Option (Node ι)) :=
  if fCurrentElemP = s.getTail then some none else fCurrentElemP.map s.fPrev

/-- An iterator goes on to the next element, or is done; `seen` are the elements so far, the last one first. -/
def visit (s : Links ι) : Option (Node ι) × List (Node ι) → Option (Node ι) × List (Node ι) ⊕ Option (List (Node ι))
  | (none, seen) => .inr (some seen.reverse)
  | (some cur, seen) =>
    match s.next (some cur) with
    | none => .inr none
    | some fCurrentElemP => .inl (fCurrentElemP, cur :: seen)

/-- The elements that an iterator visits from the head, when it is done after `turns` steps. -/
def iterate (turns : Nat) (s : Links ι) : Option (List (Node ι)) := (Loop.turns s.visit turns (s.getHead, [])).join

end Links

/-- What can be done with a queue. -/
inductive Op (ι : Type*)
  | enQueue (elem : ι)
  | deQueue
  | remove (elem : ι)
  | getHead
  | getTail
  | getLength
  | iterate

/-- What comes back. -/
inductive Result (ι : Type*)
  | done
  | pointer (elem : Option (Node ι))
  | length (n : Nat)
  | visited (elems : List (Node ι))

/-- An operation on the links; an iterator may take `turns` steps. -/
def Links.call (turns : Nat) (s : Links ι) : Op ι → Option (Links ι × Result ι)
  | .enQueue elem => (s.enQueue () (.elem elem)).map (·, .done)
  | .deQueue => (s.deQueue ()).map fun r => (r.2, .pointer r.1)
  | .remove elem => (s.remove () (.elem elem)).map (·, .done)
  | .getHead => some (s, .pointer s.getHead)
  | .getTail => some (s, .pointer s.getTail)
  | .getLength => some (s, .length (s.fLength ()).toNat)
  | .iterate => (s.iterate turns).map fun seen => (s, .visited seen)

/-- The operation on a list, the oldest element first. -/
def callList (q : List ι) : Op ι → List ι × Result ι
  | .enQueue elem => (ObjectQueue.enQueue q elem, .done)
  | .deQueue => (q.tail, .pointer (q.head?.map .elem))
  | .remove elem => (ObjectQueue.remove q elem, .done)
  | .getHead => (q, .pointer ((ObjectQueue.getHead q).map .elem))
  | .getTail => (q, .pointer (q.getLast?.map .elem))
  | .getLength => (q, .length q.length)
  | .iterate => (q, .visited (q.map .elem))

/-- The circle through the sentinel is the list `q`. -/
abbrev Represents (s : Links ι) (q : List ι) : Prop := SharedQueues.Represents s fun _ => q

/-- The operations give what they give on the list, and keep on representing it. -/
def Agrees : Links ι → List ι → List (Op ι) → Prop
  | s, q, [] => Represents s q
  | s, q, op :: ops => Represents s q ∧
    ∃ turns s', s.call turns op = some (s', (callList q op).2) ∧ Agrees s' (callList q op).1 ops

/-- The list does not get longer than 4294967295. -/
def NotFull (q : List ι) : Op ι → Prop
  | .enQueue elem => elem ∉ q → q.length < 4294967295
  | _ => True

/-! ## The operations -/

section Represents

variable {s s' : Links ι} {q xs ys : List ι} {e cur : ι} {op : Op ι}

omit [DecidableEq ι] in
theorem represents_new : Represents (SharedQueues.Queues.new : Links ι) [] := SharedQueues.represents_new

omit [DecidableEq ι] in
/-- There is one list, and it changes as a whole. -/
theorem update_list (q l : List ι) : Function.update (fun _ : Unit => q) () l = fun _ => l :=
  funext fun _ => Function.update_self ..

omit [DecidableEq ι] in
/-- The oldest element is at `fPrev` of the sentinel, the newest one at `fNext`. -/
theorem getHead_eq (h : Represents s q) : s.getHead = (ObjectQueue.getHead q).map .elem := by
  unfold Links.getHead
  cases q with
  | nil => exact if_neg (mt h.pos_iff.1 (by simp))
  | cons x q =>
    rw [if_pos (h.pos_iff.2 (List.cons_ne_nil x q))]
    exact (h.linked ()).fwd_start

omit [DecidableEq ι] in
theorem getTail_eq (h : Represents s q) : s.getTail = q.getLast?.map .elem := by
  unfold Links.getTail
  cases q with
  | nil => exact if_neg (mt h.pos_iff.1 (by simp))
  | cons x q =>
    rw [if_pos (h.pos_iff.2 (List.cons_ne_nil x q)), (h.linked ()).bwd_end, List.map_cons, List.getLast?_cons_cons,
      ← List.map_cons, List.getLast?_map]

/-- `ObjectQueueIter::Next` goes to the next element of the list, and from the tail to `NULL`. -/
theorem next_eq (h : Represents s (xs ++ cur :: ys)) : s.next (some (.elem cur)) = some (ys.head?.map .elem) := by
  have hlinked := h.linked ()
  rw [List.map_append, List.map_cons] at hlinked
  have hnext := (linked_append.1 hlinked).2
  unfold Links.next
  rw [getTail_eq h]
  cases ys with
  | nil => exact if_pos (by simp)
  | cons y ys =>
    refine (if_neg fun htail => ?_).trans (congrArg some hnext.1)
    have hlast : cur ∈ y :: ys := by
      rw [List.getLast?_append_cons, List.getLast?_cons_cons] at htail
      obtain ⟨z, hz, hze⟩ := Option.map_eq_some_iff.1 htail.symm
      cases hze
      exact List.mem_of_getLast? hz
    exact (List.nodup_middle.1 (h.nodup ())).notMem (List.mem_append_right _ hlast)

/-- An iterator visits what is left, in order, and is done. -/
theorem turns_visit (h : Represents s (xs ++ ys)) :
    Loop.turns s.visit (ys.length + 1) (ys.head?.map .elem, (xs.map .elem).reverse) =
      some (some ((xs ++ ys).map .elem)) := by
  induction ys generalizing xs with
  | nil =>
    have hturn : s.visit (none, (xs.map .elem).reverse) = .inr (some (xs.map .elem).reverse.reverse) := rfl
    refine (Loop.turns_succ_inr hturn).trans ?_
    rw [List.reverse_reverse, List.append_nil]
  | cons y ys ih =>
    have hturn : s.visit (some (.elem y), (xs.map .elem).reverse) =
        .inl (ys.head?.map .elem, ((xs ++ [y]).map .elem).reverse) := by
      simp [Links.visit, next_eq h]
    refine (Loop.turns_succ_inl hturn).trans ?_
    have hrest : Loop.turns s.visit (ys.length + 1) (ys.head?.map .elem, ((xs ++ [y]).map .elem).reverse) =
        some (some ((xs ++ [y] ++ ys).map .elem)) := ih (by simpa using h)
    simpa using hrest

theorem iterate_eq (h : Represents s q) : s.iterate (q.length + 1) = some (q.map .elem) := by
  have hvisit := @turns_visit _ _ s [] q h
  unfold Links.iterate
  rw [getHead_eq h]
  exact congrArg Option.join hvisit

/-- **An operation** that does not overfill the queue does what it does to the list. -/
theorem call_eq (h : Represents s q) (hop : NotFull q op) :
    ∃ turns s', s.call turns op = some (s', (callList q op).2) ∧ Represents s' (callList q op).1 := by
  cases op with
  | enQueue e =>
    by_cases he : e ∈ q
    · refine ⟨0, s, ?_, ?_⟩
      · simp [Links.call, SharedQueues.Queues.enQueue, (h.member e ()).2 he, callList]
      · simpa [callList, ObjectQueue.enQueue, he] using h
    · have hout : s.fQueue (.elem e) = none := Option.eq_none_iff_forall_ne_some.2 fun u hu => he ((h.member e u).1 hu)
      have hless : s.fLength () < 4294967295 := by
        rw [UInt32.lt_iff_toNat_lt, h.length]
        exact hop he
      obtain ⟨s', hs, hrest⟩ := h.enQueue hout hless
      rw [update_list] at hrest
      refine ⟨0, s', ?_, ?_⟩
      · simp [Links.call, hs, callList]
      · simpa [callList, ObjectQueue.enQueue, he] using hrest
  | deQueue =>
    cases q with
    | nil =>
      refine ⟨0, s, ?_, h⟩
      have hzero : ¬ 0 < s.fLength () := mt h.pos_iff.1 (by simp)
      simp [Links.call, SharedQueues.Queues.deQueue, if_neg hzero, callList]
    | cons e q =>
      obtain ⟨s', hs, hrest⟩ := h.deQueue (q := ()) rfl
      rw [update_list] at hrest
      exact ⟨0, s', by simp [Links.call, hs, callList], hrest⟩
  | remove e =>
    by_cases he : e ∈ q
    · obtain ⟨l, r, hl, hq, herase⟩ := List.exists_erase_eq he
      obtain ⟨s', hs, hrest⟩ := h.remove (q := ()) hq
      rw [update_list] at hrest
      refine ⟨0, s', by simp [Links.call, hs, callList], ?_⟩
      simpa [callList, ObjectQueue.remove, herase] using hrest
    · refine ⟨0, s, ?_, ?_⟩
      · have hout := mt (h.member e ()).1 he
        simp [Links.call, SharedQueues.Queues.remove, hout, callList]
      · simpa [callList, ObjectQueue.remove, List.erase_of_not_mem he] using h
  | getHead => exact ⟨0, s, by simp [Links.call, getHead_eq h, callList], h⟩
  | getTail => exact ⟨0, s, by simp [Links.call, getTail_eq h, callList], h⟩
  | getLength => exact ⟨0, s, by simp [Links.call, h.length, callList], h⟩
  | iterate => exact ⟨q.length + 1, s, by simp [Links.call, iterate_eq h, callList], h⟩

/-- When the list gets too long, `fLength` wraps. -/
theorem NotFull.of_call {turns : Nat} {res : Result ι} (h : Represents s q) (hs : s.call turns op = some (s', res))
    (h' : Represents s' (callList q op).1) : NotFull q op := by
  cases op with
  | enQueue e =>
    intro he
    obtain ⟨s₁, hs₁, heq⟩ := Option.map_eq_some_iff.1 hs
    cases heq
    have hfree : SharedQueues.Free s (.enQueue () e) := .of_lawful h hs₁ ⟨_, h'⟩
    have hless := UInt32.lt_iff_toNat_lt.1 (hfree (mt (h.member e ()).1 he)).2
    rwa [h.length] at hless
  | deQueue | remove | getHead | getTail | getLength | iterate => trivial

/-! ## Runs -/

/-- The runs of the list. -/
def stepList (q : List ι) (op : Op ι) : Option (List ι) := some (callList q op).1

theorem Agrees.represents {ops : List (Op ι)} (h : Agrees s q ops) : Represents s q := by
  cases ops with
  | nil => exact h
  | cons op ops => exact h.1

theorem agrees_iff {ops : List (Op ι)} (h : Represents s q) :
    Agrees s q ops ↔ Along stepList NotFull q ops := by
  induction ops generalizing s q with
  | nil => exact ⟨fun _ => trivial, fun _ => h⟩
  | cons op ops ih =>
    constructor
    · rintro ⟨-, turns, s', hs, hrest⟩
      refine ⟨.of_call h hs hrest.represents, fun q' hq => ?_⟩
      cases hq
      exact (ih hrest.represents).1 hrest
    · rintro ⟨hop, hrest⟩
      obtain ⟨turns, s', hs, h'⟩ := call_eq h hop
      exact ⟨h, turns, s', hs, (ih h').2 (hrest _ rfl)⟩

end Represents

/-- **`ObjectQueue` is a list**: in every sequence of operations the links represent the list and everything returned is
what the list gives, exactly when no element is added to 4294967295 others. -/
theorem objectQueue_agrees_iff (ops : List (Op ι)) : Agrees SharedQueues.Queues.new [] ops ↔ Along stepList NotFull [] ops :=
  agrees_iff represents_new

/-- `n` new elements are too many. -/
theorem length_of_enQueue {q : List Nat} {k n : Nat} (hq : ∀ e ∈ q, e < k)
    (h : Along stepList NotFull q ((List.range' k n).map .enQueue)) : n = 0 ∨ q.length + n < 4294967296 := by
  induction n generalizing q k with
  | zero => exact Or.inl rfl
  | succ n ih =>
    have hout : k ∉ q := fun hin => Nat.lt_irrefl k (hq k hin)
    rw [List.range'_succ, List.map_cons] at h
    have hfirst := h.1 hout
    have hrest := ih (q := q ++ [k]) (k := k + 1) (fun e he => ?_) (h.2 _ ?_)
    · rw [List.length_append, List.length_singleton] at hrest
      omega
    · rcases List.mem_append.1 he with he | he
      · exact Nat.lt_succ_of_lt (hq e he)
      · rw [List.mem_singleton.1 he]
        exact Nat.lt_succ_self k
    · simp [stepList, callList, ObjectQueue.enQueue, hout]

/-- With 4294967296 elements `fLength` is 0. -/
theorem agrees_fails_full : ¬ Agrees SharedQueues.Queues.new [] ((List.range' 0 4294967296).map (Op.enQueue (ι := Nat))) := by
  intro h
  have hlength := length_of_enQueue (fun e he => by cases he) ((agrees_iff represents_new).1 h)
  rcases hlength with hzero | hless
  · exact absurd hzero (by decide)
  · exact absurd hless (by decide)

end ToolLib.Simple.QueueLinks
