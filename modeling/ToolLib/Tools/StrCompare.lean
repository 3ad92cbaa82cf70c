import Mathlib.Data.List.GetD
import ToolLib.Base.Access

/-!
# Comparing without case

`StrPtr::EqualIgnoreCase` and `NumEqualIgnoreCase` of CommonTools look bytes up in `sCaseInsensitiveMask`, which has 130
entries. The index is a `char`, and a `char` is signed: a byte from 128 on looks in front of the table. What is there is
arbitrary.

`equalIgnoreCase_iff`, `numEqualIgnoreCase_iff`: the comparison is right exactly when it does not come to such a byte.
-/

namespace ToolLib.Tools.StrCompare

open ToolLib.Base

def sCaseInsensitiveMask : List UInt8 := [
  0, 1, 2, 3, 4, 5, 6, 7, 8, 9,
  10, 11, 12, 13, 14, 15, 16, 17, 18, 19,
  20, 21, 22, 23, 24, 25, 26, 27, 28, 29,
  30, 31, 32, 33, 34, 35, 36, 37, 38, 39,
  40, 41, 42, 43, 44, 45, 46, 47, 48, 49,
  50, 51, 52, 53, 54, 55, 56, 57, 58, 59,
  60, 61, 62, 63, 64, 97, 98, 99, 100, 101,
  102, 103, 104, 105, 106, 107, 108, 109, 110, 111,
  112, 113, 114, 115, 116, 117, 118, 119, 120, 121,
  122, 91, 92, 93, 94, 95, 96, 97, 98, 99,
  100, 101, 102, 103, 104, 105, 106, 107, 108, 109,
  110, 111, 112, 113, 114, 115, 116, 117, 118, 119,
  120, 121, 122, 123, 124, 125, 126, 127, 128, 129]

/-- A byte as a `char`. -/
def char (c : UInt8) : Int := if c.toNat < 128 then c.toNat else c.toNat - 256

section Compare

-- memory around the table; the bytes that `Ptr` and `compare` point to
variable (around : Int → UInt8) (Ptr compare : Nat → UInt8)

/-- The loop from `x` on, with `left` rounds to go: what it returns, and the entries that it has looked at. -/
def equalLoop : Nat → Nat → Bool × List (Access Unit)
  | 0, _ => (true, [])
  | left + 1, x =>
    let looked := [Access.read () (char (compare x)), .read () (char (Ptr x))]
    if memory sCaseInsensitiveMask around (char (Ptr x)) ≠ memory sCaseInsensitiveMask around (char (compare x)) then
      (false, looked)
    else
      let (result, later) := equalLoop left (x + 1)
      (result, later ++ looked)

/-- "compare thru the first "len: bytes" -/
def numEqualIgnoreCase (Len len : Nat) : Bool × List (Access Unit) :=
  if len ≤ Len then equalLoop around Ptr compare len 0 else (false, [])

def equalIgnoreCase (Len len : Nat) : Bool × List (Access Unit) :=
  if len = Len then equalLoop around Ptr compare len 0 else (false, [])

end Compare

/-- A-Z become a-z. -/
def lower (c : UInt8) : UInt8 := if 65 ≤ c ∧ c ≤ 90 then c + 32 else c

/-- Only entries of the table are looked at, and the result is whether the lengths fit and the bytes are equal up to
case. -/
def Compares (Ptr compare : Nat → UInt8) (len : Nat) (fits : Prop) (r : Bool × List (Access Unit)) : Prop :=
  Access.Inside (fun _ => 0) (fun _ => 130) r.2 ∧ (r.1 = true ↔ fits ∧ ∀ x < len, lower (Ptr x) = lower (compare x))

/-- Among the bytes up to the first difference (with it) there is none from 128 on. -/
def Plain (Ptr compare : Nat → UInt8) (len : Nat) : Prop :=
  ∀ x < len, (∀ y < x, lower (Ptr y) = lower (compare y)) → Ptr x < 128 ∧ compare x < 128

section Loop

variable {around : Int → UInt8} {Ptr compare : Nat → UInt8} {len Len left x : Nat} {c d : UInt8}

theorem char_of_lt (h : c < 128) : char c = c.toNat := if_pos (UInt8.lt_iff_toNat_lt.1 h)

theorem char_inside : (0 ≤ char c ∧ char c < 130) ↔ c < 128 := by
  have hlt := c.toNat_lt
  rw [UInt8.lt_iff_toNat_lt]
  show _ ↔ c.toNat < 128
  unfold char
  split <;> omega

theorem mask_eq (h : c < 128) : memory sCaseInsensitiveMask around (char c) = lower c := by
  have htable : ∀ n < 128, ∀ b : UInt8, sCaseInsensitiveMask.getD n b = lower (UInt8.ofNat n) := by
    intro n hn b
    have hin : n < sCaseInsensitiveMask.length := Nat.lt_trans hn (by decide +kernel)
    have hall : ∀ n < 128, sCaseInsensitiveMask.getD n 0 = lower (UInt8.ofNat n) := by decide +kernel
    rw [← hall n hn, List.getD_eq_getElem _ _ hin, List.getD_eq_getElem _ _ hin]
  rw [char_of_lt h, memory_nat, htable _ (UInt8.lt_iff_toNat_lt.1 h), UInt8.ofNat_toNat]

/-- The pair at `x`, and the pairs behind it. -/
theorem forall_from_succ {P : Nat → Prop} :
    (∀ y, x ≤ y → y < x + (left + 1) → P y) ↔ P x ∧ ∀ y, x + 1 ≤ y → y < x + 1 + left → P y := by
  constructor
  · exact fun h => ⟨h x (Nat.le_refl x) (by omega), fun y hy hlt => h y (by omega) (by omega)⟩
  · rintro ⟨hx, h⟩ y hy hlt
    rcases Nat.eq_or_lt_of_le hy with rfl | hy
    · exact hx
    · exact h y hy (by omega)

/-- The loop compares rightly from `x` on exactly when it does not come to a byte from 128 on. -/
theorem equalLoop_spec :
    (Access.Inside (fun _ => 0) (fun _ => 130) (equalLoop around Ptr compare left x).2 ∧
      ((equalLoop around Ptr compare left x).1 = true ↔ ∀ y, x ≤ y → y < x + left → lower (Ptr y) = lower (compare y))) ↔
    ∀ y, x ≤ y → y < x + left → (∀ z, x ≤ z → z < y → lower (Ptr z) = lower (compare z)) →
      Ptr y < 128 ∧ compare y < 128 := by
  induction left generalizing x with
  | zero =>
    refine iff_of_true ⟨Access.inside_nil, iff_of_true rfl fun y hy hlt => ?_⟩ fun y hy hlt => ?_ <;> omega
  | succ left ih =>
    rw [forall_from_succ, forall_from_succ]
    have hfirst : (∀ z, x ≤ z → z < x → lower (Ptr z) = lower (compare z)) → Ptr x < 128 ∧ compare x < 128 ↔
        Ptr x < 128 ∧ compare x < 128 := ⟨fun h => h fun z hz hlt => absurd hz (by omega), fun h _ => h⟩
    rw [hfirst, equalLoop]
    by_cases hplain : Ptr x < 128 ∧ compare x < 128
    · rw [mask_eq hplain.1, mask_eq hplain.2]
      have hlooked : Access.Inside (fun _ : Unit => 0) (fun _ => 130)
          [Access.read () (char (compare x)), .read () (char (Ptr x))] :=
        Access.inside_cons.2 ⟨char_inside.2 hplain.2, Access.inside_cons.2 ⟨char_inside.2 hplain.1, Access.inside_nil⟩⟩
      by_cases heq : lower (Ptr x) = lower (compare x)
      · rw [if_neg (not_not.2 heq)]
        simp only [Access.inside_append, hlooked, and_true, heq, hplain, true_and]
        rw [ih]
        refine forall_congr' fun y => forall_congr' fun hy => forall_congr' fun hlt => imp_congr_left ?_
        constructor
        · intro h z hz hlt
          rcases Nat.eq_or_lt_of_le hz with rfl | hz
          · exact heq
          · exact h z hz hlt
        · exact fun h z hz hlt => h z (by omega) hlt
      · rw [if_pos heq]
        refine iff_of_true ⟨hlooked, ?_⟩ ⟨hplain, fun y hy hlt hbefore => absurd (hbefore x (Nat.le_refl x) hy) heq⟩
        simp [heq]
    · refine iff_of_false (fun h => hplain ?_) fun h => hplain h.1
      -- the entries for the pair at `x` are looked at in both branches
      have hlooked : Access.Inside (fun _ : Unit => 0) (fun _ => 130)
          [Access.read () (char (compare x)), .read () (char (Ptr x))] := by
        have hin := h.1
        split at hin
        next => exact hin
        next => exact (Access.inside_append.1 hin).2
      rw [Access.inside_cons, Access.inside_cons] at hlooked
      exact ⟨char_inside.1 hlooked.2.1, char_inside.1 hlooked.1⟩

/-- The loop, when the lengths fit. -/
theorem compares_iff (fits : Prop) [Decidable fits] :
    Compares Ptr compare len fits (if fits then equalLoop around Ptr compare len 0 else (false, [])) ↔
      (fits → Plain Ptr compare len) := by
  by_cases hfits : fits
  · have hspec := @equalLoop_spec around Ptr compare len 0
    rw [if_pos hfits]
    simpa [Compares, Plain, hfits] using hspec
  · rw [if_neg hfits]
    exact iff_of_true ⟨Access.inside_nil, by simp [hfits]⟩ fun h => absurd h hfits

end Loop

/-- **Both comparisons** are right exactly when the lengths do not fit, or there is no byte from 128 on among the bytes
up to the first difference. -/
theorem equalIgnoreCase_iff (around : Int → UInt8) (Ptr compare : Nat → UInt8) (Len len : Nat) :
    (Compares Ptr compare len (len = Len) (equalIgnoreCase around Ptr compare Len len) ↔
      (len = Len → Plain Ptr compare len)) ∧
    (Compares Ptr compare len (len ≤ Len) (numEqualIgnoreCase around Ptr compare Len len) ↔
      (len ≤ Len → Plain Ptr compare len)) :=
  ⟨compares_iff (len = Len), compares_iff (len ≤ Len)⟩

/-- The strings `"\xe9"` and `"\xe9"`: the entry with the index -23 is looked at. -/
theorem equalIgnoreCase_outside : ¬ Compares (fun _ => 233) (fun _ => 233) 1 (1 = 1)
    (equalIgnoreCase (fun _ => 0) (fun _ => 233) (fun _ => 233) 1 1) := by
  intro h
  exact absurd h.1 (by decide)

end ToolLib.Tools.StrCompare
