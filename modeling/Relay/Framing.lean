import Relay.Lib.BigEndian
import Relay.Lib.Incremental
import Relay.Records

/-!
# Framing

A request travels as a length in four bytes, the most significant first, and that many bytes of
payload. The reader is fed chunks of the stream and gives back the payloads that are complete.
The length is read as a signed number and refused if it is negative or larger than the configured
maximum.

## Where chunks are cut

The loop of `feed` is that of a decoder which looks at the front of its buffer, and what such a look
finds does not change when more bytes arrive. So for a stream of valid frames it does not matter
where it is cut.

It does matter for a stream with a bad length in it. The refusal is raised from inside the loop,
and the frames that were carved in the same call are gone: they have left the buffer and are not in
any answer. `handed_eq_iff` says that the cuts are of no consequence exactly for streams that have
no complete frame in front of a bad length.

## Scope

The note on the bytes that are still buffered is left out, and so is the run on one fixed stream,
cut once at each place.

## Main definitions

* `FrameReader`, with `feed`
* `encodeFrames`: the stream of a list of payloads
* `BadAfterFrame`: streams with a bad length behind a complete frame

## Main results

* `feed_encode`: payloads come back, however their stream is cut
* `handed_eq_iff`: when no frame is lost to a bad length
-/

namespace Relay

/-- `_HEADER`. -/
def frameHeader : ℕ := 4

/-- One round of the loop of `feed`. -/
def frameRound (maxSize : ℤ) (buffer : Bytes) : Round UInt8 Bytes RelayError :=
  if buffer.length < frameHeader then .more
  else
    let length := ofBigEndianSigned (buffer.take frameHeader)
    if length < 0 then
      .refuse (.invalid ("a negative frame length is corruption; a signed "
        ++ "field carrying it would read as an enormous size"))
    else if length > maxSize then
      .refuse (.invalid (s!"frame length {length} exceeds the max request "
        ++ s!"size {maxSize}; refusing before allocating, "
        ++ "or one bad length exhausts memory"))
    else if (buffer.length : ℤ) - frameHeader < length then .more
    else .item ((buffer.drop frameHeader).take length.toNat)
      (buffer.drop (frameHeader + length.toNat))

/-- A payload that the reader accepts and that its header can carry. -/
def FitsFrame (maxSize : ℤ) (payload : Bytes) : Prop :=
  (payload.length : ℤ) ≤ maxSize ∧ payload.length < 2 ^ 31

/-- Four bytes that are refused as a length. -/
def BadHeader (maxSize : ℤ) (header : Bytes) : Prop :=
  header.length = frameHeader ∧
    (ofBigEndianSigned header < 0 ∨ maxSize < ofBigEndianSigned header)

/-- A payload behind its length. -/
def encodeFrame (payload : Bytes) : Bytes := toBigEndian frameHeader payload.length ++ payload

/-- `_encode`: the frames of the payloads, one after another. -/
def encodeFrames (payloads : List Bytes) : Bytes := (payloads.map encodeFrame).flatten

theorem encodeFrames_cons (payload : Bytes) (payloads : List Bytes) :
    encodeFrames (payload :: payloads) = encodeFrame payload ++ encodeFrames payloads := rfl

/-! ## A look at the front of the buffer -/

variable {maxSize : ℤ} {buffer payload rest : Bytes}

/-- A frame at the front is found. -/
theorem frameRound_encodeFrame (hpayload : FitsFrame maxSize payload) (rest : Bytes) :
    frameRound maxSize (encodeFrame payload ++ rest) = .item payload rest := by
  obtain ⟨hmax, hwidth⟩ := hpayload
  have hheader : (toBigEndian frameHeader payload.length).length = frameHeader :=
    length_toBigEndian _ _
  have htake : (encodeFrame payload ++ rest).take frameHeader =
      toBigEndian frameHeader payload.length := by
    rw [encodeFrame, List.append_assoc, List.take_left' hheader]
  have hlength : ofBigEndianSigned (toBigEndian frameHeader payload.length) = payload.length :=
    ofBigEndianSigned_toBigEndian (by norm_num [frameHeader]; omega)
  have hsize : (encodeFrame payload ++ rest).length =
      frameHeader + payload.length + rest.length := by
    rw [List.length_append, encodeFrame, List.length_append, hheader]
  rw [frameRound, if_neg (by omega)]
  simp only [htake, hlength]
  rw [if_neg (by omega), if_neg (by omega), if_neg (by push_cast [hsize]; omega),
    Int.toNat_natCast]
  have hdrop : (encodeFrame payload ++ rest).drop frameHeader = payload ++ rest := by
    rw [encodeFrame, List.append_assoc, List.drop_left' hheader]
  rw [← List.drop_drop, hdrop, List.take_left' rfl, List.drop_left' rfl]

/-- Only a frame at the front is found as one. -/
theorem eq_encodeFrame_of_frameRound (h : frameRound maxSize buffer = .item payload rest) :
    buffer = encodeFrame payload ++ rest ∧ FitsFrame maxSize payload := by
  simp only [frameRound] at h
  split_ifs at h with hheader hnegative hlarge hpartial
  obtain ⟨rfl, rfl⟩ := Round.item.inj h
  have htake : (buffer.take frameHeader).length = frameHeader :=
    List.length_take_of_le (not_lt.mp hheader)
  set length := ofBigEndianSigned (buffer.take frameHeader) with hlength
  have hpayload : ((buffer.drop frameHeader).take length.toNat).length = length.toNat := by
    rw [List.length_take, List.length_drop]
    omega
  constructor
  · rw [encodeFrame, hpayload, ← List.drop_drop, List.append_assoc, List.take_append_drop]
    have hwritten := toBigEndian_ofBigEndianSigned (not_lt.mp hnegative)
    rw [htake, ← hlength] at hwritten
    rw [hwritten, List.take_append_drop]
  · have hsigned := ofBigEndianSigned_lt (buffer.take frameHeader)
    rw [htake, ← hlength] at hsigned
    rw [FitsFrame, hpayload]
    norm_num [frameHeader] at hsigned
    omega

/-- A refusal depends on the header only. -/
theorem frameRound_append_of_refuse {error : RelayError}
    (h : frameRound maxSize buffer = .refuse error) (more : Bytes) :
    frameRound maxSize (buffer ++ more) = .refuse error := by
  simp only [frameRound] at h ⊢
  split_ifs at h with hheader hnegative hlarge hpartial
  all_goals
    have htake : (buffer ++ more).take frameHeader = buffer.take frameHeader :=
      List.take_append_of_le_length (not_lt.mp hheader)
    rw [if_neg (by rw [List.length_append]; omega), htake]
  · rw [if_pos hnegative]
    exact h
  · rw [if_neg hnegative, if_pos hlarge]
    exact h

/-- The loop of `feed`. -/
def frameCarver (maxSize : ℤ) : Carver UInt8 Bytes RelayError where
  round := frameRound maxSize
  round_nil := rfl
  length_lt h := by
    obtain ⟨rfl, -⟩ := eq_encodeFrame_of_frameRound h
    rw [List.length_append, encodeFrame, List.length_append, length_toBigEndian, frameHeader]
    omega
  item_append h c := by
    obtain ⟨rfl, hpayload⟩ := eq_encodeFrame_of_frameRound h
    rw [List.append_assoc, frameRound_encodeFrame hpayload]
  refuse_append h c := frameRound_append_of_refuse h c

theorem round_frameCarver : (frameCarver maxSize).round = frameRound maxSize := rfl

/-- A reader; the constructor refuses a maximum that is not positive. -/
structure FrameReader where
  maxSize : ℤ
  buffer : Bytes := []
  maxSize_pos : 1 ≤ maxSize

/-- `feed`. -/
def FrameReader.feed (reader : FrameReader) (chunk : Bytes) :
    Except RelayError (List Bytes) × FrameReader :=
  let result := (frameCarver reader.maxSize).feed reader.buffer chunk
  (result.1, { reader with buffer := result.2 })

/-- The reader as a component. -/
def frameReader : Machine FrameReader Bytes (Except RelayError (List Bytes)) where
  step := FrameReader.feed

/-- The answers of a reader to chunks that it is fed one after another. -/
def FrameReader.answers (reader : FrameReader) (chunks : List Bytes) :
    List (Except RelayError (List Bytes)) :=
  (frameReader.trace reader chunks).map Prod.snd

/-- A reader does what the decoder does with its buffer. -/
theorem FrameReader.run_eq (reader : FrameReader) (chunks : List Bytes) :
    frameReader.trace reader chunks =
        (frameCarver reader.maxSize).machine.trace reader.buffer chunks ∧
      (frameReader.final reader chunks).buffer =
        (frameCarver reader.maxSize).machine.final reader.buffer chunks := by
  induction chunks generalizing reader with
  | nil => exact ⟨rfl, rfl⟩
  | cons chunk chunks ih =>
    obtain ⟨htrace, hfinal⟩ := ih (reader.feed chunk).2
    exact ⟨congrArg (List.cons (chunk, (reader.feed chunk).1)) htrace, hfinal⟩

/-- A reader that has read nothing. -/
def FrameReader.fresh (maxSize : ℤ) (h : 1 ≤ maxSize) : FrameReader where
  maxSize := maxSize
  maxSize_pos := h

theorem FrameReader.answers_fresh (h : 1 ≤ maxSize) (chunks : List Bytes) :
    (FrameReader.fresh maxSize h).answers chunks = (frameCarver maxSize).answers chunks :=
  congrArg (List.map Prod.snd) (FrameReader.run_eq (.fresh maxSize h) chunks).1

/-! ## Streams -/

/-- The frames at the front of a stream are carved off it. -/
theorem carve_encode_append {payloads : List Bytes}
    (hpayloads : ∀ p ∈ payloads, FitsFrame maxSize p) (rest : Bytes) :
    (frameCarver maxSize).carve (encodeFrames payloads ++ rest) =
      ⟨payloads ++ ((frameCarver maxSize).carve rest).items,
        ((frameCarver maxSize).carve rest).error, ((frameCarver maxSize).carve rest).rest⟩ := by
  induction payloads with
  | nil => rfl
  | cons payload payloads ih =>
    have hround : (frameCarver maxSize).round (encodeFrames (payload :: payloads) ++ rest) =
        .item payload (encodeFrames payloads ++ rest) := by
      rw [round_frameCarver, encodeFrames_cons, List.append_assoc]
      exact frameRound_encodeFrame (hpayloads payload List.mem_cons_self) _
    rw [Carver.carve_of_item hround, ih fun p hp => hpayloads p (List.mem_cons_of_mem _ hp)]
    rfl

/-- What is carved off a stream are the frames at its front, and a refusal is of what follows. -/
theorem carve_spec (maxSize : ℤ) (stream : Bytes) :
    stream = encodeFrames ((frameCarver maxSize).carve stream).items ++
        ((frameCarver maxSize).carve stream).rest ∧
      (∀ p ∈ ((frameCarver maxSize).carve stream).items, FitsFrame maxSize p) ∧
      ∀ error, ((frameCarver maxSize).carve stream).error = some error →
        frameRound maxSize ((frameCarver maxSize).carve stream).rest = .refuse error := by
  induction stream using Carver.carve.induct (frameCarver maxSize) with
  | case1 b hround =>
    rw [Carver.carve_of_more hround]
    exact ⟨rfl, fun p hp => absurd hp List.not_mem_nil, fun error h => by cases h⟩
  | case2 b error hround =>
    rw [Carver.carve_of_refuse hround]
    refine ⟨rfl, fun p hp => absurd hp List.not_mem_nil, fun error' h => ?_⟩
    obtain rfl := Option.some.inj h
    exact hround
  | case3 b payload rest hround ih =>
    obtain ⟨hrest, hitems, herror⟩ := ih
    obtain ⟨rfl, hpayload⟩ := eq_encodeFrame_of_frameRound hround
    rw [Carver.carve_of_item hround]
    refine ⟨?_, fun p hp => ?_, herror⟩
    · rw [encodeFrames_cons, List.append_assoc]
      exact congrArg (encodeFrame payload ++ ·) hrest
    · rcases List.mem_cons.mp hp with rfl | hp
      · exact hpayload
      · exact hitems p hp

/-- A bad header is refused, and nothing else is. -/
theorem exists_refuse_iff :
    (∃ error, frameRound maxSize buffer = .refuse error) ↔
      ∃ header rest, BadHeader maxSize header ∧ buffer = header ++ rest := by
  simp only [frameRound]
  constructor
  · rintro ⟨error, h⟩
    refine ⟨buffer.take frameHeader, buffer.drop frameHeader, ?_,
      (List.take_append_drop _ _).symm⟩
    split_ifs at h with hheader hnegative hlarge hpartial
    · exact ⟨List.length_take_of_le (not_lt.mp hheader), Or.inl hnegative⟩
    · exact ⟨List.length_take_of_le (not_lt.mp hheader), Or.inr hlarge⟩
  · rintro ⟨header, rest, ⟨hlength, hbad⟩, rfl⟩
    rw [if_neg (by rw [List.length_append]; omega), List.take_left' hlength]
    by_cases hnegative : ofBigEndianSigned header < 0
    · rw [if_pos hnegative]
      exact ⟨_, rfl⟩
    · rw [if_neg hnegative, if_pos (hbad.resolve_left hnegative)]
      exact ⟨_, rfl⟩

/-- **Reassembly.** Payloads that fit come back in order, however their stream is cut into chunks:
no chunk is refused, the answers taken together are the payloads, and nothing stays in the
buffer. -/
theorem feed_encode (maxSize : ℤ) (hmax : 1 ≤ maxSize) (payloads : List Bytes)
    (hpayloads : ∀ p ∈ payloads, (p.length : ℤ) ≤ maxSize ∧ p.length < 2 ^ 31)
    (chunks : List Bytes) (hchunks : chunks.flatten = encodeFrames payloads) :
    (∃ frames : List (List Bytes),
        (FrameReader.fresh maxSize hmax).answers chunks = frames.map .ok ∧
          frames.flatten = payloads) ∧
      (frameReader.final (.fresh maxSize hmax) chunks).buffer = [] := by
  have hcarve : (frameCarver maxSize).carve chunks.flatten = ⟨payloads, none, []⟩ := by
    have hcarve := carve_encode_append hpayloads []
    rw [List.append_nil, Carver.carve_of_more (frameCarver maxSize).round_nil,
      List.append_nil] at hcarve
    rw [hchunks, hcarve]
  have herror : ((frameCarver maxSize).carve chunks.flatten).error = none := by rw [hcarve]
  obtain ⟨hanswers, hleftover⟩ := Carver.answers_of_error_eq_none herror
  rw [hcarve] at hanswers hleftover
  rw [FrameReader.answers_fresh, (FrameReader.run_eq _ chunks).2]
  exact ⟨hanswers, hleftover⟩

/-- A payload and an empty one, cut inside the first header, inside the payload and inside the
second header. -/
theorem feed_encode_two :
    (∃ frames : List (List Bytes),
        (FrameReader.fresh 10 (by decide)).answers
            [[0, 0], [], [0], [2, 104], [105, 0, 0, 0], [0]] = frames.map .ok ∧
          frames.flatten = [[104, 105], []]) ∧
      (frameReader.final (.fresh 10 (by decide))
        [[0, 0], [], [0], [2, 104], [105, 0, 0, 0], [0]]).buffer = [] :=
  feed_encode 10 (by decide) [[104, 105], []] (by decide)
    [[0, 0], [], [0], [2, 104], [105, 0, 0, 0], [0]] (by decide)

/-- A bad length behind at least one complete frame. -/
def BadAfterFrame (maxSize : ℤ) (stream : Bytes) : Prop :=
  ∃ payloads header rest, payloads ≠ [] ∧ (∀ p ∈ payloads, FitsFrame maxSize p) ∧
    BadHeader maxSize header ∧ stream = encodeFrames payloads ++ header ++ rest

/-- A stream without a bad length behind a frame is refused at its front, if at all. -/
theorem items_eq_nil_of_error {stream : Bytes} {error : RelayError}
    (h : ¬ BadAfterFrame maxSize stream)
    (herror : ((frameCarver maxSize).carve stream).error = some error) :
    ((frameCarver maxSize).carve stream).items = [] := by
  obtain ⟨hstream, hfits, hrefuse⟩ := carve_spec maxSize stream
  obtain ⟨header, more, hbad, hrest⟩ := exists_refuse_iff.mp ⟨error, hrefuse error herror⟩
  by_contra hne
  refine h ⟨_, header, more, hne, hfits, hbad, ?_⟩
  rw [List.append_assoc, ← hrest]
  exact hstream

/-- Without a bad length behind a frame, every cut hands over all frames of the stream. -/
theorem handed_of_not_badAfterFrame {chunks : List Bytes}
    (h : ¬ BadAfterFrame maxSize chunks.flatten) :
    handed ((frameCarver maxSize).answers chunks) =
      ((frameCarver maxSize).carve chunks.flatten).items := by
  obtain ⟨past, rest, rfl, -, hnext, hhanded⟩ := (frameCarver maxSize).handed_answers chunks
  rw [hhanded]
  cases rest with
  | nil => rw [List.append_nil]
  | cons chunk rest =>
    -- the refusal is at the front of the stream, so there was nothing to hand over
    obtain ⟨error, herror⟩ := hnext chunk rest rfl
    have hflatten : (past ++ chunk :: rest).flatten = past.flatten ++ chunk ++ rest.flatten := by
      rw [List.flatten_append, List.flatten_cons, List.append_assoc]
    rw [hflatten] at h ⊢
    have hrefused : ((frameCarver maxSize).carve
        (past.flatten ++ chunk ++ rest.flatten)).error = some error := by
      rw [Carver.carve_append_of_error herror]
    have hnil := items_eq_nil_of_error h hrefused
    have hprefix := (frameCarver maxSize).items_isPrefix past.flatten (chunk ++ rest.flatten)
    rw [← List.append_assoc, hnil] at hprefix
    rw [hnil]
    exact List.prefix_nil.mp hprefix

/-- With a bad length behind frames, one chunk loses all of them, and a cut in front of the bad
length none. -/
theorem handed_badHeader {payloads : List Bytes} {header : Bytes}
    (hfits : ∀ p ∈ payloads, FitsFrame maxSize p) (hbad : BadHeader maxSize header)
    (rest : Bytes) :
    handed ((frameCarver maxSize).answers [encodeFrames payloads ++ header ++ rest]) = [] ∧
      handed ((frameCarver maxSize).answers [encodeFrames payloads, header ++ rest]) =
        payloads := by
  obtain ⟨error, hrefuse⟩ := exists_refuse_iff.mpr ⟨header, rest, hbad, rfl⟩
  have hheader : (frameCarver maxSize).carve (header ++ rest) = ⟨[], some error, header ++ rest⟩ :=
    Carver.carve_of_refuse hrefuse
  have hwhole := carve_encode_append hfits (header ++ rest)
  have hframes := carve_encode_append hfits []
  rw [List.append_nil, Carver.carve_of_more (frameCarver maxSize).round_nil,
    List.append_nil] at hframes
  constructor
  · have herror : ((frameCarver maxSize).carve
        ([] ++ (encodeFrames payloads ++ (header ++ rest)))).error = some error := by
      rw [List.nil_append, hwhole, hheader]
    rw [List.append_assoc]
    show handed [((frameCarver maxSize).feed [] _).1] = []
    rw [Carver.feed_of_error_eq_some herror]
    rfl
  · have hnone : ((frameCarver maxSize).carve ([] ++ encodeFrames payloads)).error = none := by
      rw [List.nil_append, hframes]
    have herror : ((frameCarver maxSize).carve ([] ++ (header ++ rest))).error = some error := by
      rw [List.nil_append, hheader]
    have hfeed := Carver.feed_of_error_eq_none hnone
    rw [List.nil_append, hframes] at hfeed
    show handed [((frameCarver maxSize).feed [] _).1,
      ((frameCarver maxSize).feed ((frameCarver maxSize).feed [] _).2 _).1] = payloads
    rw [hfeed, Carver.feed_of_error_eq_some herror]
    exact List.append_nil payloads

/-- **Frames in front of a bad length.** For every stream, whatever is wrong with it, the frames
handed over up to the first refusal do not depend on how the stream is cut exactly when no bad
length stands behind a complete frame; and in that case only, no cut loses a complete frame. -/
theorem handed_eq_iff (maxSize : ℤ) (hmax : 1 ≤ maxSize) (stream : Bytes) :
    ((∀ chunks chunks' : List Bytes, chunks.flatten = stream → chunks'.flatten = stream →
        handed ((FrameReader.fresh maxSize hmax).answers chunks) =
          handed ((FrameReader.fresh maxSize hmax).answers chunks')) ↔
      ¬ BadAfterFrame maxSize stream) ∧
    ((∀ chunks : List Bytes, chunks.flatten = stream →
        ∀ payloads rest, (∀ p ∈ payloads, FitsFrame maxSize p) →
          stream = encodeFrames payloads ++ rest →
            payloads <+: handed ((FrameReader.fresh maxSize hmax).answers chunks)) ↔
      ¬ BadAfterFrame maxSize stream) := by
  simp only [FrameReader.answers_fresh]
  refine ⟨⟨fun h hbad => ?_, fun h chunks chunks' hchunks hchunks' => ?_⟩,
    ⟨fun h hbad => ?_, fun h chunks hchunks payloads rest hfits hstream => ?_⟩⟩
  · obtain ⟨payloads, header, rest, hne, hfits, hheader, rfl⟩ := hbad
    obtain ⟨hone, htwo⟩ := handed_badHeader hfits hheader rest
    have hsame := h [encodeFrames payloads ++ header ++ rest]
      [encodeFrames payloads, header ++ rest] List.flatten_singleton
      (by rw [List.flatten_cons, List.flatten_singleton, List.append_assoc])
    rw [hone, htwo] at hsame
    exact hne hsame.symm
  · subst hchunks
    rw [handed_of_not_badAfterFrame h, handed_of_not_badAfterFrame (hchunks' ▸ h), hchunks']
  · obtain ⟨payloads, header, rest, hne, hfits, hheader, rfl⟩ := hbad
    have hprefix := h _ List.flatten_singleton payloads (header ++ rest) hfits
      (List.append_assoc _ _ _)
    rw [(handed_badHeader hfits hheader rest).1] at hprefix
    exact hne (List.prefix_nil.mp hprefix)
  · subst hchunks
    rw [handed_of_not_badAfterFrame h, hstream, carve_encode_append hfits]
    exact List.prefix_append _ _

/-- A frame and half a header are too short to hold a bad length behind the frame, so two cuts hand
over the same. -/
theorem handed_eq_half_header :
    ¬ BadAfterFrame 10 [0, 0, 0, 1, 104, 0, 0] ∧
      handed ((FrameReader.fresh 10 (by decide)).answers [[0, 0, 0, 1, 104, 0, 0]]) =
        handed ((FrameReader.fresh 10 (by decide)).answers [[0, 0], [0, 1, 104, 0], [0]]) := by
  have hstream : ¬ BadAfterFrame 10 [0, 0, 0, 1, 104, 0, 0] := by
    rintro ⟨payloads, header, rest, hne, -, ⟨hheader, -⟩, hstream⟩
    obtain ⟨payload, payloads, rfl⟩ := List.exists_cons_of_ne_nil hne
    have hlength := congrArg List.length hstream
    rw [List.length_append, List.length_append, hheader, encodeFrames_cons, List.length_append,
      encodeFrame, List.length_append, length_toBigEndian, frameHeader] at hlength
    simp only [List.length_cons, List.length_nil] at hlength
    omega
  exact ⟨hstream, (handed_eq_iff 10 (by decide) _).1.mpr hstream
    [[0, 0, 0, 1, 104, 0, 0]] [[0, 0], [0, 1, 104, 0], [0]] rfl rfl⟩

/-- A frame with one byte and a length of minus one. In one chunk the frame is lost, and cut behind
the frame it is not. -/
theorem handed_negative_length :
    handed ((FrameReader.fresh 10 (by decide)).answers
        [[0, 0, 0, 1, 104, 255, 255, 255, 255]]) = [] ∧
      handed ((FrameReader.fresh 10 (by decide)).answers
        [[0, 0, 0, 1, 104], [255, 255, 255, 255]]) = [[104]] := by
  rw [FrameReader.answers_fresh, FrameReader.answers_fresh]
  have hbad : BadHeader 10 [255, 255, 255, 255] := ⟨rfl, Or.inl (by decide)⟩
  have hfits : ∀ p ∈ ([[104]] : List Bytes), FitsFrame 10 p := by simp [FitsFrame]
  exact handed_badHeader hfits hbad []

end Relay
