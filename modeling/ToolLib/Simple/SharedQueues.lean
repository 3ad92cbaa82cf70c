import ToolLib.Base.Ring
import ToolLib.Base.System
import ToolLib.Simple.ObjectQueue

/-!
# Several queues

Any number of `ObjectQueue`s with the elements they share: all pointers are in one memory, and `fQueue` of an element
names one queue. `EnQueue` looks only whether that is the queue itself.

- what the operations do to a ring (`Represents.enQueue`, `Represents.deQueue`, `Represents.remove`), and that the other
  rings stay as they are;
- when an element of another queue is put into a second ring, no lists fit the queues any more (`Free.of_lawful`);
- `sharedQueues_lawful_iff`: the queues stay in order exactly when this never happens, and no queue gets longer than
  `fLength` can count;
- `engine_lawful`: in `Engine`, when every job is used with the queue of its kind, only the lengths matter.
-/

namespace ToolLib.Simple.SharedQueues

open ToolLib.Base

/-- An `ObjectQueueElem`: the one in a queue itself, or one of the others. -/
inductive Node (κ ι : Type*)
  | sentinel (q : κ)
  | elem (e : ι)
  deriving DecidableEq

/-- The fields of the elements, and of the queues. -/
structure Queues (κ ι : Type*) where
  fNext : Node κ ι → Option (Node κ ι)
  fPrev : Node κ ι → Option (Node κ ι)
  fQueue : Node κ ι → Option κ
  fLength : κ → UInt32

variable {κ ι : Type*}

namespace Queues

/-- The constructors. -/
def new : Queues κ ι where
  fNext
    | .sentinel q => some (.sentinel q)
    | .elem _ => none
  fPrev
    | .sentinel q => some (.sentinel q)
    | .elem _ => none
  fQueue := fun _ => none
  fLength := fun _ => 0

variable [DecidableEq κ] [DecidableEq ι]

/-- `node->fNext = p` for a pointer `node`, which must not be `NULL`. -/
def setNext (s : Queues κ ι) (node p : Option (Node κ ι)) : Option (Queues κ ι) :=
  node.map fun n => { s with fNext := Function.update s.fNext n p }

def setPrev (s : Queues κ ι) (node p : Option (Node κ ι)) : Option (Queues κ ι) :=
  node.map fun n => { s with fPrev := Function.update s.fPrev n p }

def enQueue (s : Queues κ ι) (q : κ) (elem : Node κ ι) : Option (Queues κ ι) := do
  if s.fQueue elem = some q then some s else
    let s ← s.setNext (some elem) (s.fNext (.sentinel q))
    let s ← s.setPrev (some elem) (some (.sentinel q))
    let s := { s with fQueue := Function.update s.fQueue elem (some q) }
    let s ← s.setPrev (s.fNext (.sentinel q)) (some elem)
    let s ← s.setNext (some (.sentinel q)) (some elem)
    some { s with fLength := Function.update s.fLength q (s.fLength q + 1) }

def deQueue (s : Queues κ ι) (q : κ) : Option (Option (Node κ ι) × Queues κ ι) :=
  if 0 < s.fLength q then do
    let elem ← s.fPrev (.sentinel q)
    let s ← s.setNext (s.fPrev elem) (some (.sentinel q))
    let s ← s.setPrev (some (.sentinel q)) (s.fPrev elem)
    some (some elem,
      { s with fQueue := Function.update s.fQueue elem none, fLength := Function.update s.fLength q (s.fLength q - 1) })
  else some (none, s)

def remove (s : Queues κ ι) (q : κ) (elem : Node κ ι) : Option (Queues κ ι) :=
  if s.fQueue elem = some q then do
    let s ← s.setPrev (s.fNext elem) (s.fPrev elem)
    let s ← s.setNext (s.fPrev elem) (s.fNext elem)
    some { s with fQueue := Function.update s.fQueue elem none, fLength := Function.update s.fLength q (s.fLength q - 1) }
  else some s

end Queues

/-- What is done with a queue. -/
inductive Op (κ ι : Type*)
  | enQueue (q : κ) (elem : ι)
  | deQueue (q : κ)
  | remove (q : κ) (elem : ι)
  deriving DecidableEq

section Step

variable [DecidableEq κ] [DecidableEq ι]

/-- An operation; `none` when it follows a `NULL`. -/
def step (s : Queues κ ι) : Op κ ι → Option (Queues κ ι)
  | .enQueue q elem => s.enQueue q (.elem elem)
  | .deQueue q => (s.deQueue q).map Prod.snd
  | .remove q elem => s.remove q (.elem elem)

end Step

/-! ## Engine -/

/-- The queues of `Engine` and of its `TimeManager`. -/
inductive EngineQueue
  | eventQueue
  | timeoutQueue
  deriving DecidableEq

/-- What `Engine::addEvent` does with the `jobElem` of a job that has a socket. -/
def addEvent (jobElem : ι) : Op EngineQueue ι := .enQueue .eventQueue jobElem

/-- `Engine::delEvent` -/
def delEvent (jobElem : ι) : Op EngineQueue ι := .remove .eventQueue jobElem

/-- `Engine::addElemToTimeoutQueue`, and `TimeManager::addElem` -/
def addElemToTimeoutQueue (jobElem : ι) : Op EngineQueue ι := .enQueue .timeoutQueue jobElem

/-- `Engine::delElemFromTimeoutQueue`, and `TimeManager::delElem` -/
def delElemFromTimeoutQueue (jobElem : ι) : Op EngineQueue ι := .remove .timeoutQueue jobElem

/-! ## Queues in order -/

/-- The circle through each sentinel is a list, `fQueue` names the queue in whose list an element is, and `fLength` is the
length of the list. -/
structure Represents (s : Queues κ ι) (content : κ → List ι) : Prop where
  nodup : ∀ q, (content q).Nodup
  linked : ∀ q, Linked s.fPrev s.fNext (.sentinel q) ((content q).map .elem) (.sentinel q)
  member : ∀ e q, s.fQueue (.elem e) = some q ↔ e ∈ content q
  length : ∀ q, (s.fLength q).toNat = (content q).length

/-- All queues are in order. -/
def Lawful (s : Queues κ ι) : Prop := ∃ content, Represents s content

/-- An element that is put into a queue is in no other queue, and the queue has fewer than 4294967295 elements. -/
def Free (s : Queues κ ι) : Op κ ι → Prop
  | .enQueue q elem => s.fQueue (.elem elem) ≠ some q → s.fQueue (.elem elem) = none ∧ s.fLength q < 4294967295
  | _ => True

instance [DecidableEq κ] (s : Queues κ ι) : (op : Op κ ι) → Decidable (Free s op)
  | .enQueue .. => inferInstanceAs (Decidable (_ → _))
  | .deQueue _ | .remove .. => inferInstanceAs (Decidable True)

/-- An element that is added to a queue can be counted. -/
def Short (s : Queues κ ι) : Op κ ι → Prop
  | .enQueue q elem => s.fQueue (.elem elem) ≠ some q → s.fLength q < 4294967295
  | _ => True

instance [DecidableEq κ] (s : Queues κ ι) : (op : Op κ ι) → Decidable (Short s op)
  | .enQueue .. => inferInstanceAs (Decidable (_ → _))
  | .deQueue _ | .remove .. => inferInstanceAs (Decidable True)

/-- The operations on lists. -/
def callLists [DecidableEq κ] [DecidableEq ι] (content : κ → List ι) : Op κ ι → κ → List ι
  | .enQueue q elem => Function.update content q (ObjectQueue.enQueue (content q) elem)
  | .deQueue q => Function.update content q (content q).tail
  | .remove q elem => Function.update content q (ObjectQueue.remove (content q) elem)

/-! ## The operations -/

section Represents

variable {s s' : Queues κ ι} {content content' : κ → List ι} {q q' : κ} {e : ι} {l r : List ι} {x p : Node κ ι} {op : Op κ ι}

theorem represents_new : Represents (Queues.new : Queues κ ι) fun _ => [] :=
  ⟨fun _ => List.nodup_nil, fun _ => ⟨rfl, rfl⟩, fun e q => by simp [Queues.new], fun _ => rfl⟩

theorem Represents.ring_nodup (h : Represents s content) (q : κ) :
    (Node.sentinel q :: (content q).map Node.elem).Nodup := by
  refine List.nodup_cons.2 ⟨by simp, (h.nodup q).map fun _ _ heq => ?_⟩
  cases heq
  rfl

/-- No node is in two rings. -/
theorem Represents.apart (h : Represents s content) (hq : q' ≠ q) (hx : x ∈ .sentinel q :: (content q).map .elem) :
    x ∉ .sentinel q' :: (content q').map .elem := by
  cases x with
  | sentinel => simp_all [Ne.symm hq]
  | elem e =>
    have he : e ∈ content q := by simpa using hx
    have hin := (h.member e q).2 he
    simp only [List.mem_cons, reduceCtorEq, List.mem_map, Node.elem.injEq, exists_eq_right, false_or]
    rw [← h.member, hin, Option.some.injEq]
    exact Ne.symm hq

theorem Represents.pos_iff (h : Represents s content) : 0 < s.fLength q ↔ content q ≠ [] := by
  rw [UInt32.lt_iff_toNat_lt, h.length]
  exact List.length_pos_iff

/-- The newest element of a queue, or its sentinel, is at `fNext` of the sentinel. -/
theorem Represents.newest (h : Represents s content) (q : κ) : ∃ p, s.fNext (.sentinel q) = some p := by
  have hend := (h.linked q).bwd_end
  rw [List.getLast?_eq_some_getLast (List.cons_ne_nil _ _)] at hend
  exact ⟨_, hend⟩

/-- Lists that hold the same are equally long. -/
theorem Represents.length_eq (h' : Represents s' content') (hl : l.Nodup) (hsame : ∀ x, s'.fQueue (.elem x) = some q ↔ x ∈ l) :
    (s'.fLength q).toNat = l.length := by
  have hmem : ∀ x, x ∈ content' q ↔ x ∈ l := fun x => (h'.member x q).symm.trans (hsame x)
  rw [h'.length, ((List.perm_ext_iff_of_nodup (h'.nodup q) hl).2 hmem).length_eq]

variable [DecidableEq κ] [DecidableEq ι]

/-- What the names say when one element is named anew. -/
theorem Represents.names_iff (h : Represents s content) {v : Option κ} (hself : v = some q ↔ e ∈ l)
    (hsame : ∀ x, x ≠ e → (x ∈ l ↔ x ∈ content q)) (x : ι) :
    Function.update s.fQueue (.elem e) v (.elem x) = some q ↔ x ∈ l := by
  by_cases hx : x = e
  · rw [hx, Function.update_self]
    exact hself
  · rw [Function.update_of_ne (by simpa using hx), h.member]
    exact (hsame x hx).symm

/-- The list of one queue changes by one element. -/
theorem Represents.change (h : Represents s content) {fNext fPrev : Node κ ι → Option (Node κ ι)} {v : Option κ}
    {n : UInt32} (hnodup : l.Nodup) (hlinked : Linked fPrev fNext (.sentinel q) (l.map .elem) (.sentinel q))
    (hother : ∀ q', q' ≠ q → Linked fPrev fNext (.sentinel q') ((content q').map .elem) (.sentinel q'))
    (hself : ∀ q', v = some q' ↔ e ∈ Function.update content q l q') (hsame : ∀ x, x ≠ e → (x ∈ l ↔ x ∈ content q))
    (hlength : n.toNat = l.length) :
    Represents ⟨fNext, fPrev, Function.update s.fQueue (.elem e) v, Function.update s.fLength q n⟩
      (Function.update content q l) := by
  refine ⟨fun q' => ?_, fun q' => ?_, fun x q' => ?_, fun q' => ?_⟩
  · by_cases hq : q' = q
    · rwa [hq, Function.update_self]
    · rw [Function.update_of_ne hq]
      exact h.nodup q'
  · by_cases hq : q' = q
    · rwa [hq, Function.update_self]
    · rw [Function.update_of_ne hq]
      exact hother q' hq
  · refine h.names_iff (hself q') (fun x hx => ?_) x
    by_cases hq : q' = q
    · rw [hq, Function.update_self]
      exact hsame x hx
    · rw [Function.update_of_ne hq]
  · dsimp only
    by_cases hq : q' = q
    · rwa [hq, Function.update_self, Function.update_self]
    · rw [Function.update_of_ne hq, Function.update_of_ne hq]
      exact h.length q'

theorem enQueue_eq (hout : s.fQueue (.elem e) ≠ some q) (hp : s.fNext (.sentinel q) = some p) :
    s.enQueue q (.elem e) = some
      { fNext := Function.update (Function.update s.fNext (.elem e) (some p)) (.sentinel q) (some (.elem e))
        fPrev := Function.update (Function.update s.fPrev (.elem e) (some (.sentinel q))) p (some (.elem e))
        fQueue := Function.update s.fQueue (.elem e) (some q)
        fLength := Function.update s.fLength q (s.fLength q + 1) } := by
  simp [Queues.enQueue, Queues.setNext, Queues.setPrev, hout, hp]

/-- An element that is in no queue comes behind the last one of a queue. -/
theorem Represents.enQueue (h : Represents s content) (hout : s.fQueue (.elem e) = none) (hless : s.fLength q < 4294967295) :
    ∃ s', s.enQueue q (.elem e) = some s' ∧ Represents s' (Function.update content q (content q ++ [e])) := by
  have hnot : ∀ q, e ∉ content q := by
    intro q
    rw [← h.member, hout]
    exact (Option.some_ne_none q).symm
  have hring : ∀ q, Node.elem e ∉ .sentinel q :: (content q).map .elem := by
    intro q
    simpa using hnot q
  obtain ⟨p, hp, hend, hlinked⟩ := (h.linked q).insert (x := .elem e) (h.ring_nodup q) (hring q) (by simp) (by simp)
  refine ⟨_, enQueue_eq (by rw [hout]; exact (Option.some_ne_none q).symm) hend,
    h.change ?_ ?_ (fun q' hq => ?_) (fun q' => ?_) (fun x hx => by simp [hx]) ?_⟩
  · exact (h.nodup q).append (List.nodup_singleton e) (by simpa using hnot q)
  · rw [List.map_append]
    exact hlinked
  · have hsentinel : Node.sentinel q ∉ .sentinel q' :: (content q').map .elem := h.apart hq List.mem_cons_self
    exact ((h.linked q').frame (hring q') (hring q')).frame (h.apart hq hp) hsentinel
  · by_cases hq : q' = q
    · simp [hq]
    · simp [Ne.symm hq, Function.update_of_ne hq, hnot q']
  · rw [List.length_append, List.length_singleton]
    refine ObjectQueue.fLength_add (h.length q) ?_
    rw [← h.length]
    exact UInt32.lt_iff_toNat_lt.1 hless

/-- The neighbours of an element in its ring are linked to each other. -/
theorem Represents.unlinked (h : Represents s content) (hq : content q = l ++ e :: r) :
    ∃ p n, s.fNext (.elem e) = some p ∧ s.fPrev (.elem e) = some n ∧ (l = [] → p = .sentinel q) ∧
      Represents ⟨Function.update s.fNext n (some p), Function.update s.fPrev p (some n),
        Function.update s.fQueue (.elem e) none, Function.update s.fLength q (s.fLength q - 1)⟩
        (Function.update content q (l ++ r)) := by
  have hin : e ∈ content q := by simp [hq]
  have hnodup := h.nodup q
  have hlinked := h.linked q
  have hring := h.ring_nodup q
  have hlength := h.length q
  rw [hq] at hnodup hlength
  rw [hq, List.map_append, List.map_cons] at hlinked hring
  obtain ⟨p, hpin, n, hnin, hp, hn, hrest⟩ := hlinked.unlink hring (by simp)
  have hp' : p ∈ .sentinel q :: (content q).map .elem := by
    rw [hq, List.map_append]
    exact List.mem_append_left (_ :: _) hpin
  have hn' : n ∈ .sentinel q :: (content q).map .elem := by
    rw [hq, List.map_append, List.map_cons]
    rcases List.mem_append.1 hnin with hn | hn
    · exact List.mem_cons_of_mem _ (List.mem_append_right _ (List.mem_cons_of_mem _ hn))
    · rw [List.mem_singleton.1 hn]
      exact List.mem_cons_self
  refine ⟨p, n, hp, hn, fun hl => ?_, h.change (List.nodup_middle.1 hnodup).of_cons ?_ (fun q' hq' => ?_) (fun q' => ?_)
    (fun x hx => by simp [hq, hx]) ?_⟩
  · subst hl
    exact Option.some.inj (hp.symm.trans hlinked.2.1)
  · rw [List.map_append]
    exact hrest
  · exact (h.linked q').frame (h.apart hq' hp') (h.apart hq' hn')
  · refine iff_of_false (Option.some_ne_none q').symm ?_
    by_cases hq' : q' = q
    · rw [hq', Function.update_self]
      exact (List.nodup_middle.1 hnodup).notMem
    · rw [Function.update_of_ne hq', ← h.member, (h.member e q).2 hin, Option.some.injEq]
      exact Ne.symm hq'
  · refine ObjectQueue.fLength_sub (hlength.trans ?_)
    rw [List.length_append, List.length_append, List.length_cons, Nat.add_assoc]

/-- The oldest element of a queue leaves. -/
theorem Represents.deQueue (h : Represents s content) (hq : content q = e :: r) :
    ∃ s', s.deQueue q = some (some (.elem e), s') ∧ Represents s' (Function.update content q r) := by
  obtain ⟨p, n, -, hn, hfirst, hrest⟩ := h.unlinked (l := []) hq
  obtain rfl := hfirst rfl
  refine ⟨_, ?_, hrest⟩
  have hhead : s.fPrev (.sentinel q) = some (.elem e) := by
    have hlinked := h.linked q
    rw [hq] at hlinked
    exact hlinked.1
  unfold Queues.deQueue
  rw [if_pos (h.pos_iff.2 (hq ▸ List.cons_ne_nil e r))]
  simp [Queues.setNext, Queues.setPrev, hhead, hn]

theorem Represents.remove (h : Represents s content) (hq : content q = l ++ e :: r) :
    ∃ s', s.remove q (.elem e) = some s' ∧ Represents s' (Function.update content q (l ++ r)) := by
  obtain ⟨p, n, hp, hn, -, hrest⟩ := h.unlinked hq
  have hin : s.fQueue (.elem e) = some q := (h.member e q).2 (by simp [hq])
  refine ⟨_, ?_, hrest⟩
  unfold Queues.remove
  rw [if_pos hin]
  by_cases hpe : p = .elem e
  · simp [Queues.setNext, Queues.setPrev, hp, hn, hpe]
  · simp [Queues.setNext, Queues.setPrev, hp, hn, Function.update_of_ne (Ne.symm hpe)]

/-- **One operation** follows no `NULL`, and does what it does to the lists when the element is free. -/
theorem Represents.step (h : Represents s content) (op : Op κ ι) :
    ∃ s', step s op = some s' ∧ (Free s op → Represents s' (callLists content op)) := by
  cases op with
  | enQueue q e =>
    by_cases hin : s.fQueue (.elem e) = some q
    · refine ⟨s, by simp [SharedQueues.step, Queues.enQueue, hin], fun _ => ?_⟩
      rw [callLists, ObjectQueue.enQueue, if_pos ((h.member e q).1 hin), Function.update_eq_self]
      exact h
    · obtain ⟨p, hp⟩ := h.newest q
      refine ⟨_, enQueue_eq hin hp, fun hfree => ?_⟩
      obtain ⟨hout, hless⟩ := hfree hin
      obtain ⟨s', hs, hrest⟩ := h.enQueue hout hless
      rw [enQueue_eq hin hp] at hs
      rw [callLists, ObjectQueue.enQueue, if_neg (mt (h.member e q).2 hin)]
      exact Option.some.inj hs ▸ hrest
  | deQueue q =>
    cases hq : content q with
    | nil =>
      have hzero : ¬ 0 < s.fLength q := mt h.pos_iff.1 (by simp [hq])
      refine ⟨s, by simp [SharedQueues.step, Queues.deQueue, if_neg hzero], fun _ => ?_⟩
      rw [callLists, hq, List.tail_nil, ← hq, Function.update_eq_self]
      exact h
    | cons e r =>
      obtain ⟨s', hs, hrest⟩ := h.deQueue hq
      refine ⟨s', by simp [SharedQueues.step, hs], fun _ => ?_⟩
      rw [callLists, hq]
      exact hrest
  | remove q e =>
    by_cases hin : s.fQueue (.elem e) = some q
    · have hmem := (h.member e q).1 hin
      obtain ⟨l, r, hl, hq, herase⟩ := List.exists_erase_eq hmem
      obtain ⟨s', hs, hrest⟩ := h.remove hq
      refine ⟨s', hs, fun _ => ?_⟩
      rw [callLists, ObjectQueue.remove, herase]
      exact hrest
    · refine ⟨s, by simp [SharedQueues.step, Queues.remove, hin], fun _ => ?_⟩
      rw [callLists, ObjectQueue.remove, List.erase_of_not_mem (mt (h.member e q).2 hin), Function.update_eq_self]
      exact h

/-- **An element that is not free** leaves a queue whose length is wrong: the one it was in, which still counts it, or the
one that has become too long. -/
theorem Free.of_lawful (h : Represents s content) (hs : SharedQueues.step s op = some s') (h' : Lawful s') : Free s op := by
  obtain ⟨content', h'⟩ := h'
  cases op with
  | enQueue q e =>
    intro hin
    obtain ⟨p, hp⟩ := h.newest q
    have heq := (enQueue_eq hin hp).symm.trans hs
    cases heq
    have hout : s.fQueue (.elem e) = none := by
      by_contra hsome
      obtain ⟨q', hq'⟩ := Option.ne_none_iff_exists'.1 hsome
      have hne : q' ≠ q := fun heq => hin (heq ▸ hq')
      have hself : some q = some q' ↔ e ∈ (content q').erase e :=
        iff_of_false (fun heq => hne (Option.some.inj heq).symm) (h.nodup q').not_mem_erase
      have hcount := h'.length_eq ((h.nodup q').erase e) (h.names_iff hself fun x hx => List.mem_erase_of_ne hx)
      have hmem := (h.member e q').1 hq'
      have hpos := List.length_pos_of_mem hmem
      dsimp only at hcount
      rw [Function.update_of_ne hne, h.length, List.length_erase_of_mem hmem] at hcount
      omega
    refine ⟨hout, ?_⟩
    have hnot : e ∉ content q := by rwa [← h.member]
    have hnodup : (content q ++ [e]).Nodup := (h.nodup q).append (List.nodup_singleton e) (by simpa using hnot)
    have hcount := h'.length_eq hnodup (h.names_iff (q := q) (by simp) fun x hx => by simp [hx])
    have hbound := (s.fLength q + 1).toNat_lt
    dsimp only at hcount
    rw [Function.update_self, List.length_append, List.length_singleton] at hcount
    rw [UInt32.lt_iff_toNat_lt, h.length]
    change _ < 4294967295
    omega
  | deQueue | remove => trivial

end Represents

/-- The rule for runs from any queues in order. -/
theorem Lawful.always_iff [DecidableEq κ] [DecidableEq ι] {s : Queues κ ι} {ops : List (Op κ ι)} (h : Lawful s) :
    Always step Lawful s ops ↔ Along step Free s ops := by
  refine always_iff_along_of_total (I := Lawful) ?_ (fun _ => id) ?_ ?_ h
  · rintro s op s' ⟨content, h⟩ hfree hs
    obtain ⟨s₁, hs₁, hrest⟩ := h.step op
    exact ⟨_, Option.some.inj (hs₁.symm.trans hs) ▸ hrest hfree⟩
  · rintro s op s' ⟨content, h⟩ hs h'
    exact .of_lawful h hs h'
  · rintro s op ⟨content, h⟩
    obtain ⟨s', hs, -⟩ := h.step op
    exact ⟨s', hs⟩

/-- **Several queues**: in every run over any queues and elements they are in order all the time exactly when no element is
put into a queue while it is in another one, and no queue gets too long. -/
theorem sharedQueues_lawful_iff [DecidableEq κ] [DecidableEq ι] (ops : List (Op κ ι)) :
    Always step Lawful Queues.new ops ↔ Along step Free Queues.new ops :=
  Lawful.always_iff ⟨_, represents_new⟩

/-- A job is added to the event queue and to the timeout queue. -/
theorem sharedQueues_one_job : ¬ Always step Lawful Queues.new [addEvent 0, addElemToTimeoutQueue 0] := by
  rw [Lawful.always_iff ⟨_, represents_new⟩]
  decide

/-! ## Jobs of two kinds -/

/-- A call of `Engine` for a job of its kind: an `EventJob` is added to the event queue, a `TimeoutJob` to the timeout
queue. -/
inductive EngineCall (kind : ι → EngineQueue) : Op EngineQueue ι → Prop
  | addEvent {e : ι} (h : kind e = .eventQueue) : EngineCall kind (addEvent e)
  | delEvent {e : ι} : EngineCall kind (delEvent e)
  | addElemToTimeoutQueue {e : ι} (h : kind e = .timeoutQueue) : EngineCall kind (addElemToTimeoutQueue e)
  | delElemFromTimeoutQueue {e : ι} : EngineCall kind (delElemFromTimeoutQueue e)

section EngineCall

variable {kind : ι → EngineQueue} {s : Queues EngineQueue ι} {content : EngineQueue → List ι} {op : Op EngineQueue ι}

/-- A job is put into the queue of its kind only. -/
theorem EngineCall.enQueue {q : EngineQueue} {e : ι} (h : EngineCall kind (.enQueue q e)) : kind e = q := by
  cases h <;> assumption

/-- In an engine whose queues hold jobs of their kind, only the length of a queue matters to a call. -/
theorem EngineCall.free_iff (h : EngineCall kind op) (hs : Represents s content) (hkind : ∀ e q, e ∈ content q → kind e = q) :
    Free s op ↔ Short s op := by
  cases op with
  | enQueue q e =>
    refine ⟨fun hfree hin => (hfree hin).2, fun hshort hin => ⟨?_, hshort hin⟩⟩
    by_contra hsome
    obtain ⟨q', hq'⟩ := Option.ne_none_iff_exists'.1 hsome
    have hq := hkind e q' ((hs.member e q').1 hq')
    rw [h.enQueue] at hq
    exact hin (hq ▸ hq')
  | deQueue | remove => exact Iff.rfl

variable [DecidableEq ι]

/-- The lists hold jobs of their kind. -/
theorem EngineCall.callLists (h : EngineCall kind op) (hkind : ∀ e q, e ∈ content q → kind e = q) :
    ∀ e q, e ∈ callLists content op q → kind e = q := by
  have hchange : ∀ (l : List ι) (q : EngineQueue), (∀ e ∈ l, kind e = q) →
      ∀ e q', e ∈ Function.update content q l q' → kind e = q' := by
    intro l q hl e q'
    by_cases hq : q' = q
    · rw [hq, Function.update_self]
      exact hl e
    · rw [Function.update_of_ne hq]
      exact hkind e q'
  cases op with
  | enQueue q e =>
    refine hchange _ q fun x hx => ?_
    rcases ObjectQueue.mem_enQueue.1 hx with hx | rfl
    · exact hkind x q hx
    · exact h.enQueue
  | deQueue q => cases h
  | remove q e => exact hchange _ q fun x hx => hkind x q (List.mem_of_mem_erase hx)

end EngineCall

end ToolLib.Simple.SharedQueues
