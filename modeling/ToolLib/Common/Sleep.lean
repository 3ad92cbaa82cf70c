import Mathlib.Data.List.Basic
import Mathlib.Tactic.Common
import ToolLib.Base.System

/-!
# OSThread::Sleep

`OSThread::Sleep` and `OSThread::Microseconds` (CommonTools/Thread/OSThread.cpp), as compiled for Linux. The thread asks
`usleep` for what is left, and looks at the clock when `usleep` returns, early or late; a reading of the clock is an
action of the system `wake`, and the clock may go back. The loop compares a request in milliseconds with a time in
microseconds, so it is over as soon as the clock has gone on by as many microseconds as milliseconds were asked for
(`returned_iff`).
-/

namespace ToolLib.Common.OSThread

open ToolLib.Base

/-- What `gettimeofday` fills in: a time since 1970 which a signed 64-bit count of microseconds can tell. -/
structure Timeval where
  tv_sec : Nat
  tv_usec : Nat
  usec_lt : tv_usec < 1000000
  fits : tv_sec * 1000000 + tv_usec < 9223372036854775808

/-- What a `signed long long` keeps of a value. -/
def int64 (x : Int) : Int := Int.bmod x 18446744073709551616

def Microseconds (t : Timeval) : Int :=
  let curTime := int64 t.tv_sec
  let curTime := int64 (curTime * 1000000)
  int64 (curTime + t.tv_usec)

/-- Where a thread is in `Sleep`: in `usleep`, with this argument of 32 bits, or back at its caller. -/
inductive Sleep
  | asleep (usec : Nat)
  | returned
  deriving DecidableEq

/-- The loop at its top. -/
def top (inMsec : Nat) (timeSlept : Int) : Sleep :=
  let timeLeft := (inMsec : Int) - timeSlept
  if timeLeft < 1 then .returned else .asleep (timeLeft * 1000 % 4294967296).toNat

/-- Up to the first `usleep`. -/
def enter (inMsec : Nat) : Sleep := if inMsec = 0 then .returned else top inMsec 0

/-- `usleep` returns, and the clock is read. -/
def wake (inMsec : Nat) (startTime : Int) : Sleep → Timeval → Option Sleep
  | .returned, _ => none
  | .asleep _, t =>
    let timeSlept := int64 (Microseconds t - startTime)
    some (if timeSlept < 0 then .returned else if timeSlept < inMsec then top inMsec timeSlept else .returned)

/-! ## The clock -/

theorem int64_of_lt {x : Int} (hlo : -9223372036854775808 ≤ x) (hhi : x < 9223372036854775808) : int64 x = x := by
  rw [int64, Int.bmod_def]
  omega

theorem microseconds_eq (t : Timeval) : Microseconds t = t.tv_sec * 1000000 + t.tv_usec := by
  have hfits := t.fits
  have husec := t.usec_lt
  have hsec : int64 t.tv_sec = t.tv_sec := int64_of_lt (by omega) (by omega)
  have hmul : int64 ((t.tv_sec : Int) * 1000000) = t.tv_sec * 1000000 := int64_of_lt (by omega) (by omega)
  unfold Microseconds
  simp only [hsec, hmul]
  exact int64_of_lt (by omega) (by omega)

/-- The microseconds of clock time from `start` to `t`. -/
def elapsed (start t : Timeval) : Int :=
  ((t.tv_sec : Int) * 1000000 + t.tv_usec) - ((start.tv_sec : Int) * 1000000 + start.tv_usec)

/-- The difference in `Sleep` does not wrap around. -/
theorem timeSlept_eq (start t : Timeval) : int64 (Microseconds t - Microseconds start) = elapsed start t := by
  have hstart := start.fits
  have ht := t.fits
  rw [microseconds_eq, microseconds_eq]
  exact int64_of_lt (by omega) (by omega)

/-! ## What makes Sleep return -/

variable {n : Nat} {start t : Timeval} {s s' : Sleep} {readings : List Timeval}

/-- The reading ends the loop. -/
def Ends (n : Nat) (start t : Timeval) : Prop := elapsed start t < 0 ∨ (n : Int) ≤ elapsed start t

/-- One reading: the thread returns when the clock is behind the entry, or `n` microseconds after it. -/
theorem wake_eq_some (h : wake n (Microseconds start) s t = some s') :
    (Ends n start t ∧ s' = .returned) ∨ (¬ Ends n start t ∧ ∃ usec, s' = .asleep usec) := by
  cases s with
  | returned => cases h
  | asleep usec =>
    simp only [wake, timeSlept_eq] at h
    cases h
    by_cases hneg : elapsed start t < 0
    · exact Or.inl ⟨Or.inl hneg, if_pos hneg⟩
    by_cases hlt : elapsed start t < n
    · refine Or.inr ⟨fun hE => hE.elim hneg fun hle => absurd hlt (Int.not_lt.2 hle), ?_⟩
      have hleft : ¬ (n : Int) - elapsed start t < 1 := by omega
      rw [if_neg hneg, if_pos hlt, top]
      exact ⟨_, if_neg hleft⟩
    · refine Or.inl ⟨Or.inr (Int.not_lt.1 hlt), ?_⟩
      rw [if_neg hneg, if_neg hlt]

theorem enter_asleep (hn : 0 < n) : ∃ usec, enter n = .asleep usec := by
  have hleft : ¬ (n : Int) - 0 < 1 := by omega
  rw [enter, if_neg (by omega), top]
  exact ⟨_, if_neg hleft⟩

theorem wake_asleep (usec : Nat) (startTime : Int) : ∃ s', wake n startTime (.asleep usec) t = some s' := ⟨_, rfl⟩

/-- **When Sleep returns**: after the first reading that ends the loop, and no other. -/
theorem returned_iff {usec : Nat} : run (wake n (Microseconds start)) (.asleep usec) readings = some .returned ↔
    ∃ before last, readings = before ++ [last] ∧ (∀ t ∈ before, ¬ Ends n start t) ∧ Ends n start last := by
  induction readings generalizing usec with
  | nil =>
    constructor
    · intro h
      cases h
    · rintro ⟨before, last, he, -⟩
      simp at he
  | cons t readings ih =>
    obtain ⟨s', hs'⟩ := wake_asleep (n := n) (t := t) usec (Microseconds start)
    rw [run_cons_eq_some]
    rcases wake_eq_some hs' with ⟨hend, rfl⟩ | ⟨hgo, usec', rfl⟩
    · constructor
      · rintro ⟨s₁, h₁, h₂⟩
        rw [hs'] at h₁
        cases h₁
        cases readings with
        | nil => exact ⟨[], t, rfl, by simp, hend⟩
        | cons t' readings => cases h₂
      · rintro ⟨before, last, he, hgo, -⟩
        cases before with
        | nil =>
          cases he
          exact ⟨.returned, hs', rfl⟩
        | cons t' before =>
          cases he
          exact absurd hend (hgo t List.mem_cons_self)
    · constructor
      · rintro ⟨s₁, h₁, h₂⟩
        rw [hs'] at h₁
        cases h₁
        obtain ⟨before, last, rfl, hbefore, hlast⟩ := ih.1 h₂
        exact ⟨t :: before, last, rfl, List.forall_mem_cons.2 ⟨hgo, hbefore⟩, hlast⟩
      · rintro ⟨before, last, he, hbefore, hlast⟩
        cases before with
        | nil =>
          cases he
          exact absurd hlast hgo
        | cons t' before =>
          cases he
          exact ⟨_, hs', ih.2 ⟨before, last, rfl, fun t ht => hbefore t (List.mem_cons_of_mem _ ht), hlast⟩⟩

/-! ## The time slept -/

/-- `n` milliseconds of clock time have passed at the last reading, or the clock was seen behind the entry. -/
def Slept (n : Nat) (start : Timeval) (readings : List Timeval) : Prop :=
  (∃ t, readings.getLast? = some t ∧ 1000 * (n : Int) ≤ elapsed start t) ∨ ∃ t ∈ readings, elapsed start t < 0

/-- **Sleep sleeps long enough** exactly when it does not read the clock in the time from `n` microseconds to `n`
milliseconds after its entry. -/
theorem slept_iff (hn : 0 < n) (h : run (wake n (Microseconds start)) (enter n) readings = some .returned) :
    Slept n start readings ↔ ∀ t ∈ readings, ¬ ((n : Int) ≤ elapsed start t ∧ elapsed start t < 1000 * n) := by
  obtain ⟨usec, husec⟩ := enter_asleep hn
  rw [husec] at h
  obtain ⟨before, last, rfl, hbefore, hlast⟩ := returned_iff.1 h
  have hgo : ∀ t ∈ before, 0 ≤ elapsed start t ∧ elapsed start t < n := by
    intro t ht
    have hnot := hbefore t ht
    simp only [Ends, not_or, Int.not_lt, Int.not_le] at hnot
    exact hnot
  constructor
  · rintro (⟨t, ht, hlong⟩ | ⟨t, ht, hback⟩) r hr ⟨hfrom, hto⟩
    · rw [List.getLast?_concat] at ht
      cases ht
      rcases List.mem_append.1 hr with hr | hr
      · exact absurd hfrom (Int.not_le.2 (hgo r hr).2)
      · obtain rfl := List.mem_singleton.1 hr
        omega
    · rcases List.mem_append.1 hr with hr | hr
      · exact absurd hfrom (Int.not_le.2 (hgo r hr).2)
      · obtain rfl := List.mem_singleton.1 hr
        rcases List.mem_append.1 ht with ht | ht
        · exact absurd hback (Int.not_lt.2 (hgo t ht).1)
        · obtain rfl := List.mem_singleton.1 ht
          omega
  · intro hnone
    have hin : last ∈ before ++ [last] := by simp
    rcases hlast with hback | hlong
    · exact Or.inr ⟨last, hin, hback⟩
    · refine Or.inl ⟨last, List.getLast?_concat, ?_⟩
      have hnot := hnone last hin
      omega

/-- `usec` microseconds after a start of the clock. -/
def after (usec : Nat) (h : usec < 1000000) : Timeval := ⟨0, usec, h, by omega⟩

/-- A sleep of 10 milliseconds: `usleep` returns early, then late. -/
theorem slept_iff_late : Slept 10 (after 0 (by omega)) [after 7 (by omega), after 12000 (by omega)] :=
  (slept_iff (by omega) (by decide)).2 (by decide)

/-- A signal ends `usleep` after 1 millisecond, and with it a sleep of one second. -/
theorem wakes_early : ¬ ∀ (n : Nat) (start : Timeval) (readings : List Timeval), 0 < n →
    run (wake n (Microseconds start)) (enter n) readings = some .returned → Slept n start readings := by
  intro h
  have hs := h 1000 (after 0 (by omega)) [after 1000 (by omega)] (by omega) (by decide)
  rcases hs with ⟨t, ht, hlong⟩ | ⟨t, ht, hback⟩
  · cases ht
    revert hlong
    decide
  · obtain rfl := List.mem_singleton.1 ht
    revert hback
    decide

end ToolLib.Common.OSThread
