import Mathlib.Data.List.TakeWhile
import Mathlib.Logic.Function.Basic

/-!
# Blocks of memory

Memory as blocks that are allocated and freed, each known by a name and with a fixed number of bytes. A read or a write
that is not inside an allocated block has no result. `string` is what a pointer to the start of a block points to as a
string: there has to be a terminator in the block.
-/

namespace ToolLib.Base

/-- The contents of the blocks that are allocated. -/
abbrev Blocks (κ β : Type*) := κ → Option (List β)

namespace Blocks

variable {κ β : Type*} [DecidableEq κ]

/-- A new block, with what happens to be in it. -/
def alloc (h : Blocks κ β) (b : κ) (bytes : List β) : Blocks κ β := Function.update h b (some bytes)

def free (h : Blocks κ β) (b : κ) : Blocks κ β := Function.update h b none

/-- `n` bytes of a block, from `i` on. -/
def load (h : Blocks κ β) (b : κ) (i n : Nat) : Option (List β) :=
  match h b with
  | some content => if i + n ≤ content.length then some ((content.drop i).take n) else none
  | none => none

/-- The bytes go to a block, from `i` on. -/
def write (h : Blocks κ β) (b : κ) (i : Nat) (bytes : List β) : Option (Blocks κ β) :=
  match h b with
  | some content =>
    if i + bytes.length ≤ content.length then
      some (Function.update h b (some (content.take i ++ bytes ++ content.drop (i + bytes.length))))
    else none
  | none => none

/-- The bytes in front of the first terminator. -/
def string [Zero β] [DecidableEq β] (h : Blocks κ β) (b : κ) : Option (List β) :=
  match h b with
  | some content => if 0 ∈ content then some (content.takeWhile (· ≠ 0)) else none
  | none => none

variable {h : Blocks κ β} {b b' : κ} {i n : Nat} {bytes content rest : List β}

@[simp] theorem alloc_self : h.alloc b bytes b = some bytes := Function.update_self ..

@[simp] theorem alloc_of_ne (hb : b' ≠ b) : h.alloc b bytes b' = h b' := Function.update_of_ne hb ..

/-- What is freed again leaves nothing behind. -/
theorem free_alloc (hb : h b = none) : (h.alloc b bytes).free b = h := by
  rw [free, alloc, Function.update_idem, ← hb, Function.update_eq_self]

omit [DecidableEq κ] in
theorem load_eq (hb : h b = some content) (hin : i + n ≤ content.length) :
    h.load b i n = some ((content.drop i).take n) := by
  rw [load, hb]
  exact if_pos hin

theorem write_eq (hb : h b = some content) (hin : i + bytes.length ≤ content.length) :
    h.write b i bytes = some (h.alloc b (content.take i ++ bytes ++ content.drop (i + bytes.length))) := by
  rw [write, hb]
  exact if_pos hin

/-- A block that has just been allocated is written to. -/
theorem write_alloc (hin : i + bytes.length ≤ content.length) : (h.alloc b content).write b i bytes =
    some (h.alloc b (content.take i ++ bytes ++ content.drop (i + bytes.length))) := by
  rw [write_eq alloc_self hin, alloc, alloc, Function.update_idem]
  rfl

theorem write_eq_none (hb : h b = some content) (hout : content.length < i + bytes.length) :
    h.write b i bytes = none := by
  rw [write, hb]
  exact if_neg (Nat.not_le.2 hout)

omit [DecidableEq κ] in
theorem string_eq [Zero β] [DecidableEq β] (hb : h b = some (bytes ++ 0 :: rest)) (hfree : 0 ∉ bytes) :
    h.string b = some bytes := by
  have hall : ∀ c ∈ bytes, decide (c ≠ 0) = true := fun c hc => decide_eq_true fun heq => hfree (heq ▸ hc)
  rw [string, hb]
  dsimp only
  rw [if_pos (by simp), List.takeWhile_append_of_pos hall, List.takeWhile_cons_of_neg (by simp), List.append_nil]

end Blocks

end ToolLib.Base
