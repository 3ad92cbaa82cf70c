import ToolLib.Base.Access
import ToolLib.Base.Loop
import ToolLib.Base.System

/-!
# The audio callback

`fill_audio` of audio_decode.h and the decoder that publishes chunks for it: `audio_pos` and `audio_len` are set
together, and not again until `audio_len` is 0. The callback copies the chunk that is pending, or a slice of silence
when there is none, to `audio_buf`, and mixes it from there, as much as is asked for; what is left stays for the next
callback.

`right_iff` says which runs are right: those in which no chunk larger than `audio_buf` is copied.
-/

namespace ToolLib.MultiMedia.FillAudio

open ToolLib.Base

/-! ## The decoder's chunks -/

/-- "1 second of 48khz 32bit audio" -/
abbrev maxAudioFrameSize : Nat := 192000

/-- What the decoder publishes: the first `out_buffer_size` bytes of a buffer of `MAX_AUDIO_FRAME_SIZE*2` bytes. What
`av_samples_get_buffer_size` makes of the frame size of a codec is not said here, so that may be any number of bytes. -/
structure Chunk where
  bytes : List UInt8
  length_le : bytes.length ≤ maxAudioFrameSize * 2

/-! ## The callback -/

inductive Region
  | audioBuf
  | sliceBuf
  | audioChunk
  deriving DecidableEq

def audioBufBytes : Nat := (19200 / 3) * 2

/-- Where the regions end; they start at 0. -/
def past : Region → Int
  | .audioBuf => audioBufBytes
  | .sliceBuf => 1024
  | .audioChunk => (maxAudioFrameSize * 2 : Nat)

def sliceBuf : List UInt8 := List.replicate 1024 0

/-- What has been copied to `audio_buf`: a chunk, or silence, when that many chunks had been published. -/
inductive Block
  | chunk (bytes : List UInt8)
  | silence (published : Nat)
  deriving DecidableEq

def Block.bytes : Block → List UInt8
  | chunk bytes => bytes
  | silence _ => sliceBuf

def Block.chunk? : Block → Option (List UInt8)
  | chunk bytes => some bytes
  | silence _ => none

/-- The variables of the decoder and of the callback, what has been accessed, and what has been copied (the last block
first), mixed and published. -/
structure Player where
  /-- The `audio_len` bytes at `audio_pos`. -/
  pending : List UInt8
  audioBuf : Int → UInt8
  audioBufSize : Int
  audioBufIndex : Int
  accesses : List (Access Region)
  blocks : List Block
  mixed : List UInt8
  /-- The chunks that have been published, but for those with no bytes, which leave `audio_len` at 0. -/
  published : List (List UInt8)

namespace Player

def new : Player := ⟨[], fun _ => 0, 0, 0, [], [], [], []⟩

/-- `memcpy(audio_buf, bytes, ..)`, from the start of a region. -/
def copy (s : Player) (r : Region) (bytes : List UInt8) : Player :=
  { s with
    audioBuf := memory bytes s.audioBuf
    audioBufSize := bytes.length
    accesses := Access.writes .audioBuf 0 bytes.length ++ (Access.reads r 0 bytes.length ++ s.accesses) }

/-- All of `audio_buf` has been mixed. -/
def refill (s : Player) : Player :=
  let s' :=
    if s.pending = [] then { s.copy .sliceBuf sliceBuf with blocks := Block.silence s.published.length :: s.blocks }
    else { s.copy .audioChunk s.pending with blocks := Block.chunk s.pending :: s.blocks, pending := [] }
  { s' with audioBufIndex := 0 }

/-- `SDL_MixAudio` -/
def mix (s : Player) (len1 : Int) : Player :=
  { s with
    mixed := s.mixed ++ bytesFrom s.audioBuf s.audioBufIndex len1.toNat
    accesses := Access.reads .audioBuf s.audioBufIndex len1.toNat ++ s.accesses
    audioBufIndex := s.audioBufIndex + len1 }

/-- One turn of the loop of `fill_audio`, with `len` bytes to go. -/
def turn : Int × Player → (Int × Player) ⊕ Player
  | (len, s) =>
    if 0 < len then
      let s := if s.audioBufSize ≤ s.audioBufIndex then s.refill else s
      let len1 := s.audioBufSize - s.audioBufIndex
      let len1 := if len < len1 then len else len1
      .inl (len - len1, s.mix len1)
    else .inr s

/-- `fill_audio`; every turn of its loop mixes something. -/
def fillAudio (s : Player) (len : Int) : Option Player := Loop.turns turn (len.toNat + 1) (len, s)

/-- "Set audio buffer (PCM data)" -/
def publish (s : Player) (bytes : List UInt8) : Player :=
  { s with pending := bytes, published := if bytes = [] then s.published else s.published ++ [bytes] }

/-- The decoder publishes a chunk, or SDL calls back. -/
inductive Act
  | publish (chunk : Chunk)
  | fillAudio (len : Int)

def step (s : Player) : Act → Option Player
  -- "Wait until finish"
  | .publish chunk =>
    if s.pending = [] then some (s.publish chunk.bytes) else none
  | .fillAudio len => if 0 < len then s.fillAudio len else none

/-! ## What is right -/

/-- What is left in `audio_buf`. -/
def rest (s : Player) : List UInt8 := bytesFrom s.audioBuf s.audioBufIndex (s.audioBufSize - s.audioBufIndex).toNat

/-- The output so far, with what is left in `audio_buf`, is the blocks in order. The chunks among them are those
published, each once, up to the one that is pending. At each block of silence all chunks that had been published had
been copied. -/
structure InOrder (s : Player) : Prop where
  output : s.mixed ++ s.rest = s.blocks.reverse.flatMap Block.bytes
  chunks : s.blocks.reverse.filterMap Block.chunk? ++ (if s.pending = [] then [] else [s.pending]) = s.published
  silence : Each (fun before b => ∀ n, b = .silence n → (before.filterMap Block.chunk?).length = n) s.blocks

/-- Copies and mixes stay in their buffers, the output is in order, and a callback would end and mix what it is asked
for. -/
structure Right (s : Player) : Prop where
  inside : Access.Inside (fun _ => 0) past s.accesses
  inOrder : s.InOrder
  ends : ∀ len, 0 < len → ∃ s', s.fillAudio len = some s' ∧ s'.mixed.length = s.mixed.length + len.toNat

/-- The callback copies the pending chunk when more is asked for than is left, and then the chunk is no larger than
`audio_buf`. -/
def Fits (s : Player) : Act → Prop
  | .publish _ => True
  | .fillAudio len => s.audioBufSize - s.audioBufIndex < len → s.pending.length ≤ audioBufBytes

/-! ## One callback -/

/-- What every step keeps. -/
structure Sound (s : Player) : Prop where
  index : 0 ≤ s.audioBufIndex ∧ s.audioBufIndex ≤ s.audioBufSize
  inOrder : s.InOrder
  pending : s.pending.length ≤ maxAudioFrameSize * 2

/-- The accesses are inside, and so is what is left in `audio_buf`. -/
def Inside (s : Player) : Prop := Access.Inside (fun _ => 0) past s.accesses ∧ s.audioBufSize ≤ audioBufBytes

variable {s s' : Player} {len len1 : Int} {bytes : List UInt8} {r : Region}

theorem length_sliceBuf : sliceBuf.length = 1024 := List.length_replicate

theorem rest_copy : bytesFrom (memory bytes s.audioBuf) 0 bytes.length = bytes := by
  rw [bytesFrom_take (Nat.le_refl _), List.take_length]

theorem inside_copy (h : s.Inside) (hr : (bytes.length : Int) ≤ past r) (hfits : bytes.length ≤ audioBufBytes) :
    (s.copy r bytes).Inside := by
  refine ⟨Access.inside_append.2 ⟨Access.inside_writes (Int.le_refl 0) ?_, Access.inside_append.2
    ⟨Access.inside_reads (Int.le_refl 0) ?_, h.1⟩⟩, Int.ofNat_le.2 hfits⟩
  · show (0 : Int) + bytes.length ≤ audioBufBytes
    omega
  · rw [Int.zero_add]
    exact hr

/-- A copy that is inside has fitted. -/
theorem fits_of_copy (h : Access.Inside (fun _ => 0) past (s.copy r bytes).accesses) : bytes.length ≤ audioBufBytes := by
  have hwrites := (Access.inside_append.1 h).1
  cases hlen : bytes.length with
  | zero => exact Nat.zero_le _
  | succ n =>
    rw [hlen] at hwrites
    have hlast := (Access.inside_writes_iff.1 hwrites).2
    have hlast : (0 : Int) + n < audioBufBytes := hlast
    omega

/-- A block that is copied when all has been mixed comes next in the output. -/
theorem output_copied (h : s.Sound) (hempty : s.audioBufSize ≤ s.audioBufIndex) (b : Block) :
    s.mixed ++ bytesFrom (memory b.bytes s.audioBuf) 0 ((b.bytes.length : Int) - 0).toNat =
      (b :: s.blocks).reverse.flatMap Block.bytes := by
  have houtput := h.inOrder.output
  rw [rest, Int.toNat_of_nonpos (by omega)] at houtput
  rw [List.reverse_cons, List.flatMap_append, ← houtput, List.flatMap_singleton, Int.sub_zero, Int.toNat_natCast,
    rest_copy]
  simp [bytesFrom]

theorem refill_sound (h : s.Sound) (hempty : s.audioBufSize ≤ s.audioBufIndex) :
    s.refill.Sound ∧ s.refill.audioBufIndex = 0 ∧ 0 < s.refill.audioBufSize ∧ s.refill.pending = [] := by
  obtain ⟨-, hchunks, hsilence⟩ := h.inOrder
  unfold refill
  by_cases hnone : s.pending = []
  · rw [if_pos hnone, List.append_nil] at hchunks
    have hlen : (sliceBuf.length : Int) = 1024 := congrArg Nat.cast length_sliceBuf
    simp only [if_pos hnone]
    refine ⟨⟨⟨Int.le_refl 0, Int.natCast_nonneg _⟩,
        ⟨output_copied h hempty (.silence s.published.length), ?_, ?_⟩, h.pending⟩,
      trivial, by show 0 < (sliceBuf.length : Int); omega, hnone⟩
    · show (Block.silence _ :: s.blocks).reverse.filterMap _ ++ (if s.pending = [] then _ else _) = _
      rw [if_pos hnone, List.append_nil, List.reverse_cons, List.filterMap_append, hchunks]
      exact List.append_nil _
    · refine ⟨fun n hn => ?_, hsilence⟩
      cases hn
      rw [← hchunks, List.filterMap_reverse, List.length_reverse]
  · rw [if_neg hnone] at hchunks
    have hpos := List.length_pos_iff.2 hnone
    simp only [if_neg hnone]
    refine ⟨⟨⟨Int.le_refl 0, Int.natCast_nonneg _⟩, ⟨output_copied h hempty (.chunk s.pending), ?_, ?_⟩, Nat.zero_le _⟩,
      trivial, by show 0 < (s.pending.length : Int); omega, trivial⟩
    · show (Block.chunk s.pending :: s.blocks).reverse.filterMap _ ++ [] = _
      rw [List.append_nil, List.reverse_cons, List.filterMap_append]
      exact hchunks
    · exact ⟨fun n hn => (by cases hn), hsilence⟩

/-- A refill is inside when the pending chunk fits. -/
theorem inside_refill (h : s.Sound) (hin : s.Inside) (hfits : s.pending.length ≤ audioBufBytes) : s.refill.Inside := by
  unfold refill
  by_cases hnone : s.pending = []
  · simp only [if_pos hnone]
    have hslice : (s.copy .sliceBuf sliceBuf).Inside :=
      inside_copy hin (by rw [length_sliceBuf]; exact Int.le_refl _) (by rw [length_sliceBuf]; decide)
    exact hslice
  · simp only [if_neg hnone]
    exact inside_copy hin (Int.ofNat_le.2 h.pending) hfits

theorem refill_mixed : s.refill.mixed = s.mixed := by
  unfold refill
  split <;> rfl

/-- What has been accessed before a refill. -/
theorem inside_of_refill (h : Access.Inside (fun _ => 0) past s.refill.accesses) :
    Access.Inside (fun _ => 0) past s.accesses := by
  unfold refill at h
  split at h <;> exact (Access.inside_append.1 (Access.inside_append.1 h).2).2

theorem fits_of_refill (h : Access.Inside (fun _ => 0) past s.refill.accesses) : s.pending.length ≤ audioBufBytes := by
  unfold refill at h
  by_cases hnone : s.pending = []
  · rw [hnone]
    exact Nat.zero_le _
  · simp only [if_neg hnone] at h
    exact fits_of_copy h

theorem mix_sound (h : s.Sound) (hpos : 0 ≤ len1) (hle : len1 ≤ s.audioBufSize - s.audioBufIndex) :
    (s.mix len1).Sound ∧ (s.mix len1).mixed.length = s.mixed.length + len1.toNat := by
  obtain ⟨houtput, hchunks, hsilence⟩ := h.inOrder
  have hindex := h.index
  refine ⟨⟨⟨?_, ?_⟩, ⟨?_, hchunks, hsilence⟩, h.pending⟩, ?_⟩
  · show 0 ≤ s.audioBufIndex + len1
    omega
  · show s.audioBufIndex + len1 ≤ s.audioBufSize
    omega
  · -- the mixed bytes are the first of the rest
    have hlen : (s.audioBufSize - s.audioBufIndex).toNat =
        len1.toNat + (s.audioBufSize - (s.audioBufIndex + len1)).toNat := by omega
    have hplace : s.audioBufIndex + len1 = s.audioBufIndex + len1.toNat := by omega
    refine Eq.trans ?_ houtput
    show s.mixed ++ bytesFrom s.audioBuf s.audioBufIndex len1.toNat ++
      bytesFrom s.audioBuf (s.audioBufIndex + len1) (s.audioBufSize - (s.audioBufIndex + len1)).toNat = _
    rw [rest, hlen, bytesFrom_add, hplace, List.append_assoc]
  · show (s.mixed ++ bytesFrom s.audioBuf s.audioBufIndex len1.toNat).length = _
    rw [List.length_append, length_bytesFrom]

theorem inside_mix (h : s.Sound) (hin : s.Inside) (hpos : 0 ≤ len1) (hle : len1 ≤ s.audioBufSize - s.audioBufIndex) :
    (s.mix len1).Inside := by
  have hindex := h.index
  have hsize := hin.2
  refine ⟨Access.inside_append.2 ⟨Access.inside_reads hindex.1 ?_, hin.1⟩, hsize⟩
  show s.audioBufIndex + len1.toNat ≤ audioBufBytes
  omega

/-- What a turn keeps, in a callback for `len₀` bytes that began in `s₀`: `audio_buf` has not been refilled yet, or it
has been. -/
structure Going (s₀ : Player) (len₀ : Int) (x : Int × Player) : Prop where
  sound : x.2.Sound
  left : 0 ≤ x.1 ∧ x.1 ≤ len₀
  mixed : x.2.mixed.length + x.1.toNat = s₀.mixed.length + len₀.toNat
  phase : (x.2.pending = s₀.pending ∧ x.2.Inside ∧
      x.2.audioBufSize - x.2.audioBufIndex = s₀.audioBufSize - s₀.audioBufIndex - (len₀ - x.1)) ∨
    (x.2.pending = [] ∧ s₀.audioBufSize - s₀.audioBufIndex < len₀ ∧ (s₀.pending.length ≤ audioBufBytes → x.2.Inside) ∧
      (Access.Inside (fun _ => 0) past x.2.accesses → s₀.pending.length ≤ audioBufBytes))

variable {s₀ : Player} {len₀ : Int}

theorem Going.refill (h : Going s₀ len₀ (len, s)) (hlen : 0 < len) (hempty : s.audioBufSize ≤ s.audioBufIndex) :
    Going s₀ len₀ (len, s.refill) := by
  obtain ⟨hsound, hindex, hpos, hnone⟩ := refill_sound h.sound hempty
  refine ⟨hsound, h.left, ?_, Or.inr ⟨hnone, ?_⟩⟩
  · rw [← h.mixed, refill_mixed]
  · have hleft := h.left
    have hsize := h.sound.index
    rcases h.phase with ⟨hsame, hin, hrest⟩ | ⟨hcopied, hmore, hin, hfits⟩
    · -- this is the first refill, so the pending chunk is copied
      rw [← hsame]
      refine ⟨by dsimp only at *; omega, inside_refill h.sound hin, fits_of_refill⟩
    · refine ⟨hmore, fun hle => inside_refill h.sound (hin hle) ?_, fun hr => hfits (inside_of_refill hr)⟩
      rw [show s.pending = [] from hcopied]
      exact Nat.zero_le _

theorem Going.mix (h : Going s₀ len₀ (len, s)) (hpos : 0 ≤ len1) (hle : len1 ≤ s.audioBufSize - s.audioBufIndex)
    (hlen : len1 ≤ len) : Going s₀ len₀ (len - len1, s.mix len1) := by
  obtain ⟨hsound, hmixed⟩ := mix_sound h.sound hpos hle
  have hleft := h.left
  have htotal := h.mixed
  refine ⟨hsound, by dsimp only at *; omega, by dsimp only at *; omega, h.phase.imp ?_ ?_⟩
  · rintro ⟨hsame, hin, hrest⟩
    refine ⟨hsame, inside_mix h.sound hin hpos hle, ?_⟩
    show s.audioBufSize - (s.audioBufIndex + len1) = _
    dsimp only at *
    omega
  · rintro ⟨hcopied, hmore, hin, hfits⟩
    exact ⟨hcopied, hmore, fun hle' => inside_mix h.sound (hin hle') hpos hle,
      fun hm => hfits (Access.inside_append.1 hm).2⟩

theorem Going.turn {x x' : Int × Player} (h : Going s₀ len₀ x) (hs : turn x = .inl x') :
    Going s₀ len₀ x' ∧ x'.1.toNat < x.1.toNat := by
  obtain ⟨len, s⟩ := x
  simp only [Player.turn] at hs
  split at hs <;> cases hs
  next hlen =>
    have hfilled : Going s₀ len₀ (len, if s.audioBufSize ≤ s.audioBufIndex then s.refill else s) ∧
        (if s.audioBufSize ≤ s.audioBufIndex then s.refill else s).audioBufIndex <
          (if s.audioBufSize ≤ s.audioBufIndex then s.refill else s).audioBufSize := by
      split
      next hempty =>
        have hsound : s.Sound := h.sound
        obtain ⟨-, hindex, hpos, -⟩ := refill_sound hsound hempty
        exact ⟨h.refill hlen hempty, by omega⟩
      next hsome => exact ⟨h, Int.not_le.1 hsome⟩
    generalize (if s.audioBufSize ≤ s.audioBufIndex then s.refill else s) = s' at hfilled ⊢
    obtain ⟨hgoing, hlt⟩ := hfilled
    refine ⟨hgoing.mix ?_ ?_ ?_, ?_⟩
    all_goals split <;> omega

/-- **A callback** ends, mixes what it is asked for, and is inside exactly when it copies no chunk that is too large. -/
theorem fillAudio_spec (h : s₀.Sound) (hin : s₀.Inside) (hlen : 0 < len₀) :
    ∃ s', s₀.fillAudio len₀ = some s' ∧ s'.Sound ∧ s'.mixed.length = s₀.mixed.length + len₀.toNat ∧
      (s₀.Fits (.fillAudio len₀) → s'.Inside) ∧
        (Access.Inside (fun _ => 0) past s'.accesses → s₀.Fits (.fillAudio len₀)) := by
  refine Loop.turns_of_measure (I := Going s₀ len₀) (fun x => x.1.toNat) (fun x x' hx hs => hx.turn hs)
    (fun x r hx hs => ?_)
    ⟨h, ⟨Int.le_of_lt hlen, Int.le_refl _⟩, rfl, Or.inl ⟨rfl, hin, by simp⟩⟩ (Nat.lt_succ_self _)
  obtain ⟨len, s⟩ := x
  simp only [Player.turn] at hs
  split at hs <;> cases hs
  next hstop =>
    have hleft := hx.left
    have hzero : len = 0 := by dsimp only at *; omega
    have hmixed := hx.mixed
    rw [hzero] at hx hmixed
    refine ⟨hx.sound, hmixed, ?_⟩
    rcases hx.phase with ⟨-, hinside, hrest⟩ | ⟨-, hmore, hinside, hfits⟩
    · have hsize := hx.sound.index
      have hall : s₀.Fits (.fillAudio len₀) := fun hmore => by dsimp only at *; omega
      exact ⟨fun _ => hinside, fun _ => hall⟩
    · exact ⟨fun hf => hinside (hf hmore), fun hin _ => hfits hin⟩

/-! ## Runs -/

theorem sound_new : new.Sound :=
  ⟨⟨Int.le_refl 0, Int.le_refl 0⟩, ⟨rfl, rfl, trivial⟩, Nat.zero_le _⟩

theorem inside_new : new.Inside := ⟨Access.inside_nil, by decide⟩

theorem publish_sound {c : Chunk} (h : s.Sound) (hnone : s.pending = []) : (s.publish c.bytes).Sound := by
  obtain ⟨houtput, hchunks, hsilence⟩ := h.inOrder
  rw [if_pos hnone, List.append_nil] at hchunks
  refine ⟨h.index, ⟨houtput, ?_, hsilence⟩, c.length_le⟩
  show s.blocks.reverse.filterMap Block.chunk? ++ (if c.bytes = [] then [] else [c.bytes]) =
    if c.bytes = [] then s.published else s.published ++ [c.bytes]
  rw [hchunks]
  by_cases hempty : c.bytes = []
  · rw [if_pos hempty, if_pos hempty, List.append_nil]
  · rw [if_neg hempty, if_neg hempty]

theorem step_publish {c : Chunk} (hnone : s.pending = []) : s.step (.publish c) = some (s.publish c.bytes) := if_pos hnone

theorem step_fillAudio (hlen : 0 < len) : s.step (.fillAudio len) = s.fillAudio len := if_pos hlen

theorem right_of_sound (h : s.Sound) (hin : s.Inside) : s.Right where
  inside := hin.1
  inOrder := h.inOrder
  ends len hlen := by
    obtain ⟨s', hs', -, hmixed, -⟩ := fillAudio_spec h hin hlen
    exact ⟨s', hs', hmixed⟩

/-- **The audio callback is right** in every state of a run exactly when every chunk that is copied fits into
`audio_buf`. -/
theorem right_iff {acts : List Act} (hr : run step new acts = some s) :
    Always step Right new acts ↔ Along step Fits new acts := by
  refine always_iff_along (I := fun s => s.Sound ∧ s.Inside) (fun s a s' h hc hs => ?_)
    (fun s h => right_of_sound h.1 h.2)
    (fun s a s' h hs h' => ?_) ?_ hr
  · cases a with
    | publish chunk =>
      obtain ⟨hnone, hs⟩ : s.pending = [] ∧ _ = s' := by simpa [step] using hs
      rw [← hs]
      exact ⟨publish_sound h.1 hnone, h.2⟩
    | fillAudio len =>
      obtain ⟨hlen, hs⟩ : 0 < len ∧ s.fillAudio len = some s' := by simpa [step] using hs
      obtain ⟨s₁, hs₁, hsound, -, hin, -⟩ := fillAudio_spec h.1 h.2 hlen
      obtain rfl := Option.some.inj (hs₁.symm.trans hs)
      exact ⟨hsound, hin hc⟩
  · cases a with
    | publish chunk => trivial
    | fillAudio len =>
      obtain ⟨hlen, hs⟩ : 0 < len ∧ s.fillAudio len = some s' := by simpa [step] using hs
      obtain ⟨s₁, hs₁, -, -, -, hfits⟩ := fillAudio_spec h.1 h.2 hlen
      obtain rfl := Option.some.inj (hs₁.symm.trans hs)
      exact hfits h'.inside
  · exact ⟨sound_new, inside_new⟩

end Player

open Player

/-- A chunk of zeros. -/
def zeroChunk (length : Nat) (hle : length ≤ maxAudioFrameSize * 2) : Chunk :=
  ⟨List.replicate length 0, by rw [List.length_replicate]; exact hle⟩

/-- A chunk of four bytes, and half of it is asked for. -/
theorem right_iff_sample : ∃ s, run step new [.publish (zeroChunk 4 (by decide)), .fillAudio 2] = some s ∧
    (Always step Right new [.publish (zeroChunk 4 (by decide)), .fillAudio 2] ↔
      Along step Fits new [.publish (zeroChunk 4 (by decide)), .fillAudio 2]) := by
  obtain ⟨s, hr⟩ : ∃ s, run step new [.publish (zeroChunk 4 (by decide)), .fillAudio 2] = some s := ⟨_, rfl⟩
  exact ⟨s, hr, right_iff hr⟩

/-- A chunk of 18432 bytes is larger than `audio_buf`. -/
theorem not_right_large : ¬ Always step Right new [.publish (zeroChunk 18432 (by decide)), .fillAudio 1] := by
  intro h
  have hsound := publish_sound (c := zeroChunk 18432 (by decide)) sound_new rfl
  obtain ⟨s', hs', -, -, -, hfits⟩ := fillAudio_spec hsound inside_new (show (0 : Int) < 1 by decide)
  have hright := ((h.2 _ (step_publish rfl)).2 s' ((step_fillAudio (by decide)).trans hs')).head
  have hlarge : (zeroChunk 18432 (by decide)).bytes.length = 18432 := List.length_replicate
  have hlen : (zeroChunk 18432 (by decide)).bytes.length ≤ audioBufBytes := hfits hright.inside (by decide)
  rw [hlarge] at hlen
  exact absurd hlen (by decide)

end ToolLib.MultiMedia.FillAudio
