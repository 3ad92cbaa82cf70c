import ToolLib.Base.Access

/-!
# Strings in memory

Memory is a function on addresses (`Base.Access`). `store m i bytes` is the memory `m` with `bytes` stored from `i` on,
one after another, and `IsString m i s` says that a pointer to `i` points to the string `s` with its terminator.

A string stays where it is when memory is changed in front of it (`IsString.of_eq`).
-/

namespace ToolLib.Base

section Store

variable {β : Type*}

/-- The bytes are stored from `i` on. -/
def store (m : Int → β) (i : Int) : List β → Int → β
  | [] => m
  | c :: bytes => store (Function.update m i c) (i + 1) bytes

variable {m m' : Int → β} {i j : Int} {n : Nat} {c : β} {bytes bytes' : List β}

@[simp] theorem store_nil : store m i [] = m := rfl

theorem store_cons : store m i (c :: bytes) = store (Function.update m i c) (i + 1) bytes := rfl

theorem store_append : store m i (bytes ++ bytes') = store (store m i bytes) (i + bytes.length) bytes' := by
  induction bytes generalizing m i with
  | nil => simp
  | cons c bytes ih =>
    have hnext : i + 1 + (bytes.length : Int) = i + ((c :: bytes).length : Int) := by simp; omega
    rw [List.cons_append, store_cons, ih, hnext, store_cons]

/-- What is in front of the bytes and behind them stays. -/
theorem store_of_outside (h : j < i ∨ i + bytes.length ≤ j) : store m i bytes j = m j := by
  induction bytes generalizing m i with
  | nil => rfl
  | cons c bytes ih =>
    rw [List.length_cons] at h
    rw [store_cons, ih (by omega), Function.update_of_ne (by omega)]

theorem bytesFrom_congr (h : ∀ j, i ≤ j → j < i + n → m' j = m j) : bytesFrom m' i n = bytesFrom m i n := by
  refine List.map_congr_left fun k hk => h _ ?_ ?_
  · omega
  · have hlt := List.mem_range.1 hk
    omega

theorem bytesFrom_store : bytesFrom (store m i bytes) i bytes.length = bytes := by
  induction bytes generalizing m i with
  | nil => rfl
  | cons c bytes ih =>
    rw [List.length_cons, bytesFrom_eq_cons]
    refine ⟨?_, ih⟩
    rw [store_cons, store_of_outside (by omega), Function.update_self]

/-- Bytes that are stored behind others. -/
theorem bytesFrom_store_behind :
    bytesFrom (store m (i + n) bytes) i (n + bytes.length) = bytesFrom m i n ++ bytes := by
  rw [bytesFrom_add, bytesFrom_store]
  congr 1
  exact bytesFrom_congr fun j hj hlt => store_of_outside (Or.inl hlt)

end Store

section Strings

variable {β : Type*} [Zero β]

/-- The string `s` and its terminator are at `i`. -/
def IsString (m : Int → β) (i : Int) : List β → Prop
  | [] => m i = 0
  | c :: s => (m i = c ∧ c ≠ 0) ∧ IsString m (i + 1) s

instance IsString.decidable [DecidableEq β] (m : Int → β) (i : Int) : (s : List β) → Decidable (IsString m i s)
  | [] => inferInstanceAs (Decidable (m i = 0))
  | c :: s =>
    have := IsString.decidable m (i + 1) s
    inferInstanceAs (Decidable ((m i = c ∧ c ≠ 0) ∧ IsString m (i + 1) s))

variable {m m' : Int → β} {i : Int} {c : β} {s : List β}

theorem isString_nil : IsString m i [] ↔ m i = 0 := Iff.rfl

theorem isString_cons : IsString m i (c :: s) ↔ (m i = c ∧ c ≠ 0) ∧ IsString m (i + 1) s := Iff.rfl

theorem isString_iff : IsString m i s ↔ (bytesFrom m i s.length = s ∧ m (i + s.length) = 0) ∧ 0 ∉ s := by
  induction s generalizing i with
  | nil => simp [isString_nil, bytesFrom]
  | cons c s ih =>
    have hnext : i + 1 + (s.length : Int) = i + ((c :: s).length : Int) := by simp; omega
    rw [isString_cons, ih, List.length_cons, bytesFrom_eq_cons, List.mem_cons, not_or, hnext, List.length_cons, ne_comm]
    tauto

/-- Nothing from the start of the string on has changed. -/
theorem IsString.of_eq (h : IsString m i s) (heq : ∀ j, i ≤ j → j ≤ i + s.length → m' j = m j) : IsString m' i s := by
  induction s generalizing i with
  | nil => exact (heq i (Int.le_refl i) (by simp)).trans h
  | cons c s ih =>
    rw [List.length_cons] at heq
    refine ⟨⟨(heq i (Int.le_refl i) (by omega)).trans h.1.1, h.1.2⟩, ih h.2 fun j hj hle => heq j ?_ ?_⟩ <;> omega

/-- A string stands where it has been stored. -/
theorem isString_store (hs : 0 ∉ s) : IsString (store m i (s ++ [0])) i s := by
  rw [isString_iff]
  have hbytes : bytesFrom (store m i (s ++ [0])) i (s ++ [0]).length = s ++ [0] := bytesFrom_store
  rw [List.length_append, bytesFrom_add, List.length_singleton, bytesFrom_one] at hbytes
  obtain ⟨hfirst, hlast⟩ := List.append_inj hbytes length_bytesFrom
  exact ⟨⟨hfirst, List.cons.inj hlast |>.1⟩, hs⟩

end Strings

end ToolLib.Base
