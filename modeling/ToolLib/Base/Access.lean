import Mathlib.Logic.Function.Basic
import Mathlib.Tactic.Common
import ToolLib.Base.Logged

/-!
# Accesses to memory

What a function reads and writes, one byte at a time, newest first. Memory is in regions, each with the addresses from
`first` up to `past`. `Inside` says that every access is to a byte of its region, `WrittenBefore` that what is read back
from a region has been written there before, `ReadBefore` that what is overwritten in a region has been read.

Memory itself is a function on addresses: `memory bytes behind` has `bytes` at its start, and `bytesFrom m i n` are the
`n` bytes that it has from `i` on.
-/

namespace ToolLib.Base

/-- One byte is read or written. -/
inductive Access (R : Type*)
  | read (region : R) (address : Int)
  | write (region : R) (address : Int)
  deriving DecidableEq

namespace Access

variable {R : Type*}

def region : Access R → R
  | read r _ | write r _ => r

def address : Access R → Int
  | read _ i | write _ i => i

/-- The reads of `n` bytes from `i` on. -/
def reads (r : R) (i : Int) (n : Nat) : List (Access R) := (List.range n).map fun k : Nat => read r (i + k)

/-- The writes of `n` bytes from `i` on. -/
def writes (r : R) (i : Int) (n : Nat) : List (Access R) := (List.range n).map fun k : Nat => write r (i + k)

/-- Every access is to a byte of its region. -/
def Inside (first past : R → Int) (l : List (Access R)) : Prop :=
  ∀ a ∈ l, first a.region ≤ a.address ∧ a.address < past a.region

instance (first past : R → Int) (l : List (Access R)) : Decidable (Inside first past l) :=
  inferInstanceAs (Decidable (∀ _ ∈ l, _ ∧ _))

/-- What is read from the region has been written before. -/
def WrittenBefore (r : R) : List (Access R) → Prop :=
  Each fun past a => ∀ i, a = read r i → write r i ∈ past

/-- What is written in the region has been read before. -/
def ReadBefore (r : R) : List (Access R) → Prop :=
  Each fun past a => ∀ i, a = write r i → read r i ∈ past

variable {first past : R → Int} {l l' : List (Access R)} {a : Access R} {r : R} {i : Int} {n : Nat}

@[simp] theorem inside_nil : Inside first past [] := by simp [Inside]

@[simp] theorem inside_cons :
    Inside first past (a :: l) ↔ (first a.region ≤ a.address ∧ a.address < past a.region) ∧ Inside first past l := by
  simp [Inside]

@[simp] theorem inside_append : Inside first past (l ++ l') ↔ Inside first past l ∧ Inside first past l' := by
  simp only [Inside, List.mem_append]
  exact ⟨fun h => ⟨fun a ha => h a (Or.inl ha), fun a ha => h a (Or.inr ha)⟩, fun h a ha => ha.elim (h.1 a) (h.2 a)⟩

theorem writtenBefore_cons :
    WrittenBefore r (a :: l) ↔ (∀ i, a = read r i → write r i ∈ l) ∧ WrittenBefore r l := Iff.rfl

theorem readBefore_cons :
    ReadBefore r (a :: l) ↔ (∀ i, a = write r i → read r i ∈ l) ∧ ReadBefore r l := Iff.rfl

theorem inside_reads (hi : first r ≤ i) (hn : i + n ≤ past r) : Inside first past (reads r i n) := by
  intro a ha
  obtain ⟨k, hk, rfl⟩ := List.mem_map.1 ha
  have hlt := List.mem_range.1 hk
  show first r ≤ i + k ∧ i + k < past r
  omega

theorem inside_writes (hi : first r ≤ i) (hn : i + n ≤ past r) : Inside first past (writes r i n) := by
  intro a ha
  obtain ⟨k, hk, rfl⟩ := List.mem_map.1 ha
  have hlt := List.mem_range.1 hk
  show first r ≤ i + k ∧ i + k < past r
  omega

/-- There is at least one write. -/
theorem inside_writes_iff : Inside first past (writes r i (n + 1)) ↔ first r ≤ i ∧ i + n < past r := by
  constructor
  · intro h
    have hfirst := h (write r (i + (0 : Nat))) (List.mem_map.2 ⟨0, List.mem_range.2 (Nat.succ_pos n), rfl⟩)
    have hlast := h (write r (i + n)) (List.mem_map.2 ⟨n, List.mem_range.2 (Nat.lt_succ_self n), rfl⟩)
    exact ⟨by simpa [region, address] using hfirst.1, hlast.2⟩
  · rintro ⟨hi, hn⟩
    exact inside_writes hi (by push_cast; omega)

end Access

/-! ## Bytes in memory -/

section Memory

variable {β : Type*}

/-- Memory with `bytes` at its start; what is behind them, and in front of them, is arbitrary. -/
def memory (bytes : List β) (behind : Int → β) (i : Int) : β :=
  if 0 ≤ i then bytes.getD i.toNat (behind i) else behind i

/-- The `n` bytes from `i` on. -/
def bytesFrom (m : Int → β) (i : Int) (n : Nat) : List β := (List.range n).map fun k : Nat => m (i + k)

variable {m : Int → β} {i : Int} {n n' : Nat} {bytes : List β} {behind : Int → β}

@[simp] theorem length_bytesFrom : (bytesFrom m i n).length = n := by simp [bytesFrom]

theorem mem_bytesFrom {x : β} : x ∈ bytesFrom m i n ↔ ∃ k < n, m (i + k) = x := by simp [bytesFrom]

theorem bytesFrom_add : bytesFrom m i (n + n') = bytesFrom m i n ++ bytesFrom m (i + n) n' := by
  simp only [bytesFrom, List.range_add, List.map_append, List.map_map]
  congr 1
  refine List.map_congr_left fun k _ => ?_
  show m (i + ((n + k : Nat) : Int)) = _
  rw [Int.natCast_add, Int.add_assoc]

theorem bytesFrom_one : bytesFrom m i 1 = [m i] := by simp [bytesFrom]

theorem bytesFrom_succ : bytesFrom m i (n + 1) = m i :: bytesFrom m (i + 1) n := by
  rw [Nat.add_comm, bytesFrom_add, bytesFrom_one]
  rfl

theorem bytesFrom_eq_cons {x : β} {l : List β} :
    bytesFrom m i (n + 1) = x :: l ↔ m i = x ∧ bytesFrom m (i + 1) n = l := by
  rw [bytesFrom_succ, List.cons.injEq]

theorem bytesFrom_two : bytesFrom m i 2 = [m i, m (i + 1)] := by
  show bytesFrom m i (1 + 1) = _
  rw [bytesFrom_add, bytesFrom_one, bytesFrom_one]
  rfl

theorem take_bytesFrom (hn : n ≤ n') : (bytesFrom m i n').take n = bytesFrom m i n := by
  obtain ⟨k, rfl⟩ := Nat.exists_eq_add_of_le hn
  rw [bytesFrom_add]
  exact List.take_left' length_bytesFrom

theorem drop_bytesFrom {k : Nat} : (bytesFrom m i n).drop k = bytesFrom m (i + k) (n - k) := by
  rcases Nat.le_total k n with hle | hle
  · obtain ⟨n', rfl⟩ := Nat.exists_eq_add_of_le hle
    rw [bytesFrom_add, Nat.add_sub_cancel_left]
    exact List.drop_left' length_bytesFrom
  · rw [Nat.sub_eq_zero_of_le hle]
    exact List.drop_eq_nil_of_le (by rw [length_bytesFrom]; exact hle)

/-- What is stored behind the bytes does not change them. -/
theorem bytesFrom_update {j : Int} {x : β} (hj : i + n ≤ j) :
    bytesFrom (Function.update m j x) i n = bytesFrom m i n := by
  refine List.map_congr_left fun k hk => Function.update_of_ne ?_ _ _
  have hlt := List.mem_range.1 hk
  omega

theorem memory_nat {k : Nat} : memory bytes behind k = bytes.getD k (behind k) := if_pos (Int.natCast_nonneg k)

theorem bytesFrom_take (hn : n ≤ bytes.length) : bytesFrom (memory bytes behind) 0 n = bytes.take n := by
  refine List.ext_getElem (by simp [bytesFrom, hn]) fun k hk hk' => ?_
  have hlt : k < bytes.length := by simp at hk'; omega
  simp [bytesFrom, memory_nat, hlt]

end Memory

end ToolLib.Base
