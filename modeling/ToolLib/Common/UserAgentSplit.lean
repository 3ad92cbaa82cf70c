import ToolLib.Common.UserAgent

/-!
# The OS version of a User-Agent

The end of `UserAgentParser::Parse`: "If we parsed the OS field but not the OSVer field then check and see if the OS field
contains the OS version." The value is searched for a `'%'` with a length in a `UInt16` that counts down, and 3 is taken
off it for the escape, whether all of it is there or not.

`parse_iff` says when what is found designates ranges of the input and a split value is put together again.
-/

namespace ToolLib.Common.UserAgentParser

open ToolLib.Base
open ToolLib.Common.ParserMemory

section Parse

variable (buffer : Int → UInt8) (fEndGet : Int)

/-- One turn of "skip up to the blank space if it exists": `cp` and `len`. -/
def blankTurn : Int × UInt16 → (Int × UInt16) ⊕ Option (Int × UInt16)
  | (cp, len) =>
    if buffer cp = percent then .inr (some (cp, len))
    else
      let len := len - 1
      -- "no blank space...so we're all done."
      if buffer cp = 0 ∨ len = 0 then .inr none else .inl (cp + 1, len)

/-- "the remaining string is the OS version", "and truncate the version from the OS field". -/
def splitAt (cp : Int) (len : UInt16) (d : FieldData) : FieldData :=
  let cp := cp + 3
  let len := len - 3
  let os := (d .eOs).fData
  let d := Function.update d .eOsver ⟨⟨cp, len.toNat⟩, true⟩
  -- `fData.Len` is a `UInt32`, `len+3` an `int`
  Function.update d .eOs ⟨⟨os.Ptr, (os.Len - (len.toNat + 3)) % 4294967296⟩, true⟩

/-- `Parse` behind its first loop. -/
def splitVersion (turns : Nat) (d : FieldData) : Option FieldData :=
  if (d .eOs).fFound ∧ ¬ (d .eOsver).fFound then
    let os := (d .eOs).fData
    (Loop.turns (blankTurn buffer) turns (os.Ptr, UInt16.ofNat os.Len.toNat)).map fun
      | none => d
      | some (cp, len) => splitAt cp len d
  else some d

def parse (turns : Nat) : Option FieldData :=
  (parseFields buffer fEndGet turns).bind (splitVersion buffer turns)

end Parse

/-! ## What the split is for -/

/-- A range of the input. -/
def InRange (n : Int) (s : StrPtrLen) : Prop := 0 ≤ s.Ptr ∧ 0 ≤ s.Len ∧ s.Ptr + s.Len ≤ n

/-- The two parts follow each other in the value, with the three characters of the escape between them. -/
structure Parts (value os osver : StrPtrLen) : Prop where
  start : os.Ptr = value.Ptr
  lengths : 0 ≤ os.Len ∧ 0 ≤ osver.Len
  escape : osver.Ptr = os.Ptr + os.Len + 3
  stop : osver.Ptr + osver.Len = value.Ptr + value.Len

/-- What `Parse` makes of an input of `n` bytes: `d` is what its first loop has found, `r` what it leaves. -/
structure Right (n : Int) (d r : FieldData) : Prop where
  inRange : ∀ fieldID, (r fieldID).fFound = true → InRange n (r fieldID).fData
  parts : (d .eOsver).fFound = false → (r .eOsver).fFound = true →
    Parts (d .eOs).fData (r .eOs).fData (r .eOsver).fData

/-- The search comes to a `'%'` at the index `i`: none is in front of it, and no NUL, and `len` does not get to 0. -/
def Blank (value : List UInt8) (i : Nat) : Prop :=
  i < (value.length - 1) % 65536 + 1 ∧ value[i]? = some percent ∧ ∀ c ∈ value.take i, c ≠ percent ∧ c ≠ 0

/-- The value that is searched: that of `os`, when there is no `osver`. -/
def searched (inStream : List UInt8) : Option (List UInt8) :=
  if (fields inStream).lookup FieldID.eOsver.name = none then (fields inStream).lookup FieldID.eOs.name else none

/-- All three characters of the escape are in the value, and what is behind them is counted by a `UInt16`. -/
def WellSplit (inStream : List UInt8) : Prop :=
  ∀ value, searched inStream = some value → ∀ i, Blank value i →
    i + 3 ≤ value.length ∧ value.length < i + 3 + 65536

/-! ## The search -/

section Search

variable {b : Int → UInt8} {cp : Int} {len : UInt16} {value : List UInt8} {i n : Nat}

/-- How often `len` can be counted down. -/
def lasts (len : UInt16) : Nat := if len = 0 then 65536 else len.toNat

theorem lasts_ofNat (hn : 0 < n) : lasts (UInt16.ofNat n) = (n - 1) % 65536 + 1 := by
  have hnat : (UInt16.ofNat n).toNat = n % 65536 := UInt16.toNat_ofNat'
  unfold lasts
  split
  next hzero =>
    rw [hzero] at hnat
    have hmod : n % 65536 = 0 := hnat.symm
    omega
  next hne =>
    have hpos : (UInt16.ofNat n).toNat ≠ 0 := fun h => hne (UInt16.toNat_inj.1 h)
    omega

theorem toNat_sub_one (len : UInt16) : (len - 1).toNat = lasts len - 1 := by
  have hlt := len.toNat_lt
  rw [UInt16.toNat_sub]
  have hone : (1 : UInt16).toNat = 1 := rfl
  unfold lasts
  split
  next hzero => rw [hzero]; rfl
  next hne =>
    have hpos : len.toNat ≠ 0 := fun h => hne (UInt16.toNat_inj.1 h)
    omega

theorem lasts_pos (len : UInt16) : 0 < lasts len := by
  unfold lasts
  split
  next => omega
  next hne => exact Nat.pos_of_ne_zero fun h => hne (UInt16.toNat_inj.1 h)

theorem toNat_eq_lasts (len : UInt16) : len.toNat = lasts len % 65536 := by
  have hlt := len.toNat_lt
  unfold lasts
  split
  next hzero => rw [hzero]; rfl
  next => exact (Nat.mod_eq_of_lt hlt).symm

/-- **The search** ends. It comes to the first `'%'` when there is one that it can count to, and no NUL before. -/
theorem blank_spec (cp : Int) (len : UInt16) (hn : lasts len ≤ n) : ∃ r, Loop.turns (blankTurn b) n (cp, len) = some r ∧
    ((∃ i : Nat, ∃ len' : UInt16, r = some (cp + i, len') ∧ i < lasts len ∧ b (cp + i) = percent ∧
        (∀ j : Nat, j < i → b (cp + j) ≠ percent ∧ b (cp + j) ≠ 0) ∧ len'.toNat = (lasts len - i) % 65536) ∨
      r = none ∧ ∀ i : Nat, i < lasts len → b (cp + i) = percent →
        ∃ j : Nat, j < i ∧ (b (cp + j) = percent ∨ b (cp + j) = 0)) := by
  induction n generalizing cp len with
  | zero => exact absurd hn (Nat.not_le.2 (lasts_pos len))
  | succ n ih =>
    have hpos := lasts_pos len
    have hlen := toNat_eq_lasts len
    by_cases hhere : b cp = percent
    · refine ⟨_, Loop.turns_succ_inr (if_pos hhere), Or.inl ⟨0, len, by simp, hpos, by simpa using hhere, ?_, hlen⟩⟩
      intro j hj
      omega
    · have hsub := toNat_sub_one len
      by_cases hdone : b cp = 0 ∨ len - 1 = 0
      · refine ⟨none, Loop.turns_succ_inr ?_, Or.inr ⟨rfl, fun i hi hat => ?_⟩⟩
        · rw [blankTurn, if_neg hhere]
          exact if_pos hdone
        · have hi0 : 0 < i := Nat.pos_of_ne_zero fun h => hhere (by simpa [h] using hat)
          rcases hdone with hnul | hzero
          · exact ⟨0, hi0, Or.inr (by simpa using hnul)⟩
          · rw [hzero] at hsub
            have hone : lasts len - 1 = 0 := hsub.symm
            omega
      · obtain ⟨hnul, hgo⟩ := not_or.1 hdone
        have hlasts : lasts (len - 1) = lasts len - 1 := by
          rw [lasts, if_neg hgo, hsub]
        have hturn : blankTurn b (cp, len) = .inl (cp + 1, len - 1) := by
          rw [blankTurn, if_neg hhere]
          exact if_neg hdone
        have hshift : ∀ i : Nat, cp + 1 + (i : Int) = cp + ((i + 1 : Nat) : Int) := by
          intro i
          omega
        obtain ⟨r, hr, hcase⟩ := ih (cp + 1) (len - 1) (by omega)
        refine ⟨r, by rw [Loop.turns_succ_inl hturn, hr], ?_⟩
        simp only [hshift, hlasts] at hcase
        rcases hcase with ⟨i, len', rfl, hi, hat, hbefore, hlen'⟩ | ⟨rfl, hno⟩
        · refine Or.inl ⟨i + 1, len', rfl, by omega, hat, fun j hj => ?_, by rw [hlen']; congr 1; omega⟩
          cases j with
          | zero => exact ⟨by simpa using hhere, by simpa using hnul⟩
          | succ j => exact hbefore j (by omega)
        · refine Or.inr ⟨rfl, fun i hi hat => ?_⟩
          cases i with
          | zero => exact absurd (by simpa using hat) hhere
          | succ i =>
            obtain ⟨j, hj, hc⟩ := hno i (by omega) hat
            exact ⟨j + 1, by omega, hc⟩

/-- `Blank` of the bytes that a place in memory holds. -/
theorem blank_iff (hvalue : bytesFrom b cp value.length = value) (hi : i < value.length) :
    Blank value i ↔ i < (value.length - 1) % 65536 + 1 ∧ b (cp + i) = percent ∧
      ∀ j : Nat, j < i → b (cp + j) ≠ percent ∧ b (cp + j) ≠ 0 := by
  have hat : value[i]? = some (b (cp + i)) := by
    rw [← hvalue, bytesFrom, List.getElem?_map, List.getElem?_range hi]
    rfl
  have htake : value.take i = bytesFrom b cp i := by rw [← hvalue, take_bytesFrom (Nat.le_of_lt hi)]
  unfold Blank
  rw [hat, Option.some.injEq, htake]
  simp only [mem_bytesFrom]
  refine and_congr_right fun _ => and_congr_right fun _ => ⟨?_, ?_⟩
  · intro h j hj
    exact h _ ⟨j, hj, rfl⟩
  · rintro h c ⟨j, hj, rfl⟩
    exact h j hj

end Search

/-! ## Parse -/

section Parsed

variable {b : Int → UInt8} {e cp : Int} {len : UInt16} {d r : FieldData} {value inStream : List UInt8} {i n : Nat}

theorem Blank.unique {j : Nat} (hi : Blank value i) (hj : Blank value j) : i = j := by
  have hno : ∀ {i j : Nat}, Blank value i → Blank value j → ¬ i < j := by
    intro i j hi hj hlt
    have hmem : percent ∈ value.take j := by
      refine List.mem_of_getElem? (i := i) ?_
      rw [List.getElem?_take_of_lt hlt]
      exact hi.2.1
    exact (hj.2.2 _ hmem).1 rfl
  rcases Nat.lt_trichotomy i j with hlt | heq | hlt
  · exact absurd hlt (hno hi hj)
  · exact heq
  · exact absurd hlt (hno hj hi)

theorem inRange_of_keeps {x : UserAgentData} {o : Option (List UInt8)} (h : Keeps b e x o) (hfound : x.fFound = true) :
    InRange e x.fData := by
  cases o with
  | none => exact absurd hfound (by rw [show x.fFound = false from h]; simp)
  | some data =>
    obtain ⟨hptr, hstop, hlen, -⟩ := h.2.2
    exact ⟨hptr, by omega, by omega⟩

/-- Nothing is split. -/
theorem right_self (h : ∀ fieldID, (d fieldID).fFound = true → InRange e (d fieldID).fData) : Right e d d :=
  ⟨h, fun hno hyes => absurd hyes (by rw [hno]; simp)⟩

/-- The value is split at the `'%'` with the index `i`. -/
theorem right_splitAt (h : ∀ fieldID, (d fieldID).fFound = true → InRange e (d fieldID).fData)
    (hver : (d .eOsver).fFound = false) (hvalue : Holds b e (d .eOs).fData value) (he : e < 4294967296)
    (hi : i < lasts (UInt16.ofNat value.length)) (hpos : 0 < value.length)
    (hlen : len.toNat = (lasts (UInt16.ofNat value.length) - i) % 65536) :
    Right e d (splitAt ((d .eOs).fData.Ptr + i) len d) ↔ i + 3 ≤ value.length ∧ value.length < i + 3 + 65536 := by
  obtain ⟨hptr, hstop, hcount, -⟩ := hvalue
  rw [lasts_ofNat hpos] at hi hlen
  -- the length of the version, with what wraps
  have hthree : (len - 3).toNat = (65536 - 3 + len.toNat) % 65536 := UInt16.toNat_sub ..
  have hos : splitAt ((d .eOs).fData.Ptr + i) len d .eOs =
      ⟨⟨(d .eOs).fData.Ptr, (value.length - ((len - 3).toNat + 3)) % 4294967296⟩, true⟩ := by
    rw [← hcount]
    exact Function.update_self (β := fun _ => UserAgentData) ..
  have hosver : splitAt ((d .eOs).fData.Ptr + i) len d .eOsver =
      ⟨⟨(d .eOs).fData.Ptr + i + 3, (len - 3).toNat⟩, true⟩ := by
    rw [splitAt, Function.update_of_ne (by decide)]
    exact Function.update_self ..
  constructor
  · intro hr
    obtain ⟨-, -, hescape, hend⟩ := hr.parts hver (by rw [hosver])
    rw [hos, hosver, hcount] at *
    dsimp only at hescape hend
    omega
  · rintro ⟨hin, hshort⟩
    have hverlen : ((len - 3).toNat : Int) = value.length - (i + 3) := by omega
    have hoslen : (value.length - (((len - 3).toNat : Int) + 3)) % 4294967296 = i := by omega
    rw [hoslen] at hos
    rw [hverlen] at hosver
    refine ⟨fun fieldID hfound => ?_, fun _ _ => ?_⟩
    · by_cases hfield : fieldID = .eOs
      · rw [hfield, hos]
        exact ⟨hptr, Int.natCast_nonneg i, by dsimp only; omega⟩
      · by_cases hfield' : fieldID = .eOsver
        · rw [hfield', hosver]
          exact ⟨by dsimp only; omega, by dsimp only; omega, by dsimp only; omega⟩
        · have hsame : splitAt ((d .eOs).fData.Ptr + i) len d fieldID = d fieldID := by
            rw [splitAt, Function.update_of_ne hfield, Function.update_of_ne hfield']
          rw [hsame] at hfound ⊢
          exact h fieldID hfound
    · rw [hos, hosver]
      exact ⟨rfl, ⟨Int.natCast_nonneg i, by dsimp only; omega⟩, rfl, by dsimp only; omega⟩

/-- The value of `os` is searched when it has been found, and `osver` has not. -/
theorem searched_some (hkeeps : ∀ fieldID, Keeps b e (d fieldID) ((fields inStream).lookup fieldID.name))
    (hos : (d .eOs).fFound = true) (hver : (d .eOsver).fFound = false) :
    ∃ value, value ≠ [] ∧ searched inStream = some value ∧ Holds b e (d .eOs).fData value := by
  have hkeepos := hkeeps .eOs
  have hkeepver := hkeeps .eOsver
  unfold searched
  cases hlookup : (fields inStream).lookup FieldID.eOsver.name with
  | some data =>
    rw [hlookup] at hkeepver
    exact absurd hkeepver.1 (by rw [hver]; simp)
  | none =>
    rw [if_pos rfl]
    cases hvalue : (fields inStream).lookup FieldID.eOs.name with
    | none =>
      rw [hvalue] at hkeepos
      exact absurd hos (by rw [show (d .eOs).fFound = false from hkeepos]; simp)
    | some value =>
      rw [hvalue] at hkeepos
      exact ⟨value, hkeepos.2.1, rfl, hkeepos.2.2⟩

theorem searched_none (hkeeps : ∀ fieldID, Keeps b e (d fieldID) ((fields inStream).lookup fieldID.name))
    (h : ¬ ((d .eOs).fFound = true ∧ ¬ (d .eOsver).fFound = true)) : searched inStream = none := by
  have hkeepos := hkeeps .eOs
  have hkeepver := hkeeps .eOsver
  unfold searched
  split
  next hnone =>
    rw [hnone] at hkeepver
    cases hvalue : (fields inStream).lookup FieldID.eOs.name with
    | none => rfl
    | some value =>
      rw [hvalue] at hkeepos
      exact absurd ⟨hkeepos.1, by rw [show (d .eOsver).fFound = false from hkeepver]; simp⟩ h
  next => rfl

/-- The value is searched, and split where it is to be. -/
theorem splitVersion_spec (h : ∀ fieldID, (d fieldID).fFound = true → InRange e (d fieldID).fData)
    (hos : (d .eOs).fFound = true) (hver : (d .eOsver).fFound = false) (hvalue : Holds b e (d .eOs).fData value)
    (hne : value ≠ []) (he : e < 4294967296) (hn : value.length ≤ n) :
    ∃ r, splitVersion b n d = some r ∧
      (Right e d r ↔ ∀ i, Blank value i → i + 3 ≤ value.length ∧ value.length < i + 3 + 65536) := by
  obtain ⟨-, -, hcount, hbytes⟩ := id hvalue
  have hpos := List.length_pos_iff.2 hne
  have hnat : (d .eOs).fData.Len.toNat = value.length := by omega
  rw [bytesOf, hnat] at hbytes
  have hlasts := lasts_ofNat hpos
  obtain ⟨found, hfound, hcase⟩ :=
    blank_spec (b := b) (n := n) (d .eOs).fData.Ptr (UInt16.ofNat value.length) (by omega)
  rw [splitVersion, if_pos ⟨hos, by rw [hver]; simp⟩]
  dsimp only
  rw [hnat, hfound]
  rcases hcase with ⟨i, len, rfl, hi, hat, hbefore, hlen⟩ | ⟨rfl, hno⟩
  · have hhere : Blank value i := (blank_iff hbytes (by omega)).2 ⟨by omega, hat, hbefore⟩
    refine ⟨_, rfl, (right_splitAt h hver hvalue he hi hpos hlen).trans ⟨fun hin j hj => ?_, fun hall => hall i hhere⟩⟩
    rwa [hj.unique hhere]
  · refine ⟨_, rfl, iff_of_true (right_self h) fun i hi => ?_⟩
    have hlt := hi.1
    obtain ⟨-, hat, hbefore⟩ := (blank_iff hbytes (by omega)).1 hi
    obtain ⟨j, hj, hc⟩ := hno i (by omega) hat
    have hneither := hbefore j hj
    exact absurd hc (not_or.2 hneither)

/-- `Parse` returns, and what it leaves is right exactly when the value is well split. -/
theorem parse_returns (inStream : List UInt8) (behind : Int → UInt8) (hlen : inStream.length < 4294967296) : ∃ turns d r,
    parseFields (memory inStream behind) inStream.length turns = some d ∧
    parse (memory inStream behind) inStream.length turns = some r ∧
    (Right inStream.length d r ↔ WellSplit inStream) := by
  obtain ⟨d, hd, hkeeps⟩ := parseFields_spec inStream behind
  have hrange : ∀ fieldID, (d fieldID).fFound = true → InRange inStream.length (d fieldID).fData :=
    fun fieldID => inRange_of_keeps (hkeeps fieldID)
  rw [WellSplit]
  by_cases hsearch : (d .eOs).fFound = true ∧ ¬ (d .eOsver).fFound = true
  · have hver : (d .eOsver).fFound = false := by simpa using hsearch.2
    obtain ⟨value, hne, hsearched, hholds⟩ := searched_some hkeeps hsearch.1 hver
    have hptr := hholds.1
    have hstop := hholds.2.1
    obtain ⟨r, hr, hright⟩ := splitVersion_spec hrange hsearch.1 hver hholds hne (by omega) (n := inStream.length + 1)
      (by omega)
    refine ⟨inStream.length + 1, d, r, hd, by rw [parse, hd]; exact hr, ?_⟩
    rw [hsearched, hright]
    simp
  · refine ⟨inStream.length + 1, d, d, hd, by rw [parse, hd]; exact if_neg hsearch, ?_⟩
    rw [searched_none hkeeps hsearch]
    exact iff_of_true (right_self hrange) fun value hvalue => (by cases hvalue)

/-- More turns do not change what is found, and what is left. -/
theorem parse_unique {d' r' : FieldData} {m : Nat} (hd : parseFields b e n = some d) (hr : parse b e n = some r)
    (hd' : parseFields b e m = some d') (hr' : parse b e m = some r') : d = d' ∧ r = r' := by
  have hfields : d = d' := by
    unfold parseFields at hd hd'
    dsimp only at hd hd'
    split at hd
    next hzero =>
      rw [if_pos hzero] at hd'
      exact Option.some.inj (hd.symm.trans hd')
    next hpos =>
      rw [if_neg hpos] at hd'
      exact Loop.Ends.unique ⟨n, hd⟩ ⟨m, hd'⟩
  subst hfields
  refine ⟨rfl, ?_⟩
  rw [parse, hd] at hr
  rw [parse, hd'] at hr'
  simp only [Option.bind_some, splitVersion] at hr hr'
  split at hr
  next hsearch =>
    rw [if_pos hsearch] at hr'
    obtain ⟨x, hx, rfl⟩ := Option.map_eq_some_iff.1 hr
    obtain ⟨x', hx', rfl⟩ := Option.map_eq_some_iff.1 hr'
    rw [Loop.Ends.unique ⟨n, hx⟩ ⟨m, hx'⟩]
  next hno =>
    rw [if_neg hno] at hr'
    exact Option.some.inj (hr.symm.trans hr')

end Parsed

/-- `Parse` returns, every field that it marks as found is a range of the input, and a value that it splits is made up of
its two parts and the escape between them. -/
def ParsesWell (inStream : List UInt8) (behind : Int → UInt8) : Prop := ∃ turns d r,
  parseFields (memory inStream behind) inStream.length turns = some d ∧
  parse (memory inStream behind) inStream.length turns = some r ∧ Right inStream.length d r

/-- **`Parse`** returns for every input, and is right exactly when a value that it splits has all of the escape, and
nothing behind it that a `UInt16` does not count. `Len` is a `UInt32`. -/
theorem parse_iff (inStream : List UInt8) (behind : Int → UInt8) (hlen : inStream.length < 4294967296) :
    (∃ turns r, parse (memory inStream behind) inStream.length turns = some r) ∧
    (ParsesWell inStream behind ↔ WellSplit inStream) := by
  obtain ⟨turns, d, r, hd, hr, hright⟩ := parse_returns inStream behind hlen
  refine ⟨⟨turns, r, hr⟩, ?_, fun h => ⟨turns, d, r, hd, hr, hright.2 h⟩⟩
  rintro ⟨turns', d', r', hd', hr', hright'⟩
  obtain ⟨rfl, rfl⟩ := parse_unique hd hr hd' hr'
  exact hright.1 hright'

/-- `"Q(os=Mac%209)"` -/
theorem parse_iff_mac :
    (∃ turns r, parse (memory [81, 40, 111, 115, 61, 77, 97, 99, 37, 50, 48, 57, 41] fun _ => 0) 13 turns = some r) ∧
    (ParsesWell [81, 40, 111, 115, 61, 77, 97, 99, 37, 50, 48, 57, 41] (fun _ => 0) ↔
      WellSplit [81, 40, 111, 115, 61, 77, 97, 99, 37, 50, 48, 57, 41]) :=
  parse_iff [81, 40, 111, 115, 61, 77, 97, 99, 37, 50, 48, 57, 41] (fun _ => 0) (by decide)

/-- `"Q(os=M%2)"`: the escape is cut off, and the length of the version wraps. -/
theorem parse_truncated : ¬ ParsesWell [81, 40, 111, 115, 61, 77, 37, 50, 41] fun _ => 0 := by
  rintro ⟨turns, d, r, hd, hr, hright⟩
  obtain ⟨turns', d', r', hd', hr', hiff⟩ :=
    parse_returns [81, 40, 111, 115, 61, 77, 37, 50, 41] (fun _ => 0) (by decide)
  obtain ⟨rfl, rfl⟩ := parse_unique hd hr hd' hr'
  have hcut := hiff.1 hright [77, 37, 50] (by decide) 1 ⟨by decide, by decide, by simp [percent]⟩
  exact absurd hcut (by decide)

end ToolLib.Common.UserAgentParser
