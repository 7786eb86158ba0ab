import TestWire.Message.Frame
import TestWire.Proofs.Message.RoundTrip

/-! # Streams of frames

A frame is read from its own bytes alone, so messages framed one after the other are read back one
by one, whatever stands behind them.
-/

namespace TestWire

namespace Frame

variable {s : Schema} {limits : DecodeLimits}

/-- The frame is a length and a body of this length, which decodes to the message. -/
def Carries (limits : DecodeLimits) (frame : Bytes) (m : Message s) : Prop :=
  ∃ body, Varint.Prefixed frame body ∧ Message.decode s limits body = .ok m

theorem read_reads : (read s limits).Reads (Carries limits) := by
  refine ((Reader.prefixed_reads _).bind fun body => Reader.Reads.ofExcept _).congr
    fun frame m => ?_
  refine ⟨?_, ?_⟩
  · rintro ⟨body, first, _, rfl, hprefixed, rfl, hdecode⟩
    rw [List.append_nil]
    exact ⟨body, hprefixed, hdecode⟩
  · rintro ⟨body, hprefixed, hdecode⟩
    exact ⟨body, frame, [], (List.append_nil _).symm, hprefixed, rfl, hdecode⟩

theorem Carries.ne_nil {frame : Bytes} {m : Message s} (h : Carries limits frame m) :
    frame ≠ [] := by
  obtain ⟨_, ⟨length, rfl, hlength⟩, _⟩ := h
  have hpos := hlength.length_pos
  intro hnil
  rw [(List.append_eq_nil_iff.mp hnil).1] at hpos
  simp at hpos

theorem encode_eq_ok_iff {m : Message s} {frame : Bytes} :
    encode m = .ok frame ↔ ∃ body, Message.encode Limits.defaultMaxDepth m = .ok body ∧
      frame = Varint.encodePrefixed body := by
  unfold encode
  cases Message.encode Limits.defaultMaxDepth m <;> simp [Except.map, eq_comm]

theorem carries_of_encode {m : Message s} {frame : Bytes} (hgenuine : m.Genuine)
    (hframe : encode m = .ok frame)
    (hsize : ∀ body, Message.encode Limits.defaultMaxDepth m = .ok body →
      body.length ≤ limits.maxSize) (hdepth : m.nesting ≤ limits.maxDepth) :
    Carries limits frame m.norm := by
  obtain ⟨body, hencode, rfl⟩ := encode_eq_ok_iff.mp hframe
  obtain ⟨_, hencoded, rfl⟩ := Message.encode_eq_ok_iff.mp hencode
  obtain ⟨_, hforeign⟩ := hgenuine.intact hencode
  have hintact : m.Intact limits.maxDepth := ⟨hdepth, hforeign⟩
  have hlength : m.plain.length < 2 ^ 64 := by
    simp only [Limits.maxEncodedSize] at hencoded
    omega
  exact ⟨m.plain, Varint.prefixed_encodePrefixed hlength,
    hintact.decode_plain hencoded (hsize _ hencode)⟩

end Frame

namespace FrameStream

variable {s : Schema} {limits : DecodeLimits}

def position (input : Bytes) (stream : FrameStream) : Nat :=
  input.length - stream.unread.length

/-! ## Items -/

/-- The bytes that are still to be read; none are when a frame has failed. -/
def remaining (stream : FrameStream) : Nat :=
  if stream.failed then 0 else stream.unread.length

theorem remaining_next?_lt {stream behind : FrameStream} {item : Except DecodeError (Message s)}
    (h : stream.next? s limits = some (item, behind)) : behind.remaining < stream.remaining := by
  unfold next? at h
  split at h
  · cases h
  · next hgoes =>
      obtain ⟨hfailed, hunread⟩ : stream.failed = false ∧ stream.unread ≠ [] := by
        simpa using hgoes
      have hpos := List.length_pos_iff.mpr hunread
      unfold remaining
      rw [hfailed]
      -- A frame that is read takes its length at least; behind one that fails nothing is read.
      split at h
      · next m rest hread =>
          cases h
          obtain ⟨frame, hinput, hcarries⟩ := (Frame.read_reads _ _ _).mp hread
          have hframe := List.length_pos_iff.mpr hcarries.ne_nil
          have hlength := congrArg List.length hinput
          rw [List.length_append] at hlength
          simp only [Bool.false_eq_true, if_false]
          omega
      · cases h
        simpa using hpos

theorem takeItems_eq_takeItems {bound bound' : Nat} {stream : FrameStream}
    (hbound : stream.remaining < bound) (hbound' : stream.remaining < bound') :
    takeItems s limits bound stream = takeItems s limits bound' stream := by
  induction bound generalizing bound' stream with
  | zero => omega
  | succ bound ih =>
      obtain ⟨bound', rfl⟩ := Nat.exists_eq_add_one.mpr (show 0 < bound' by omega)
      unfold takeItems
      cases hnext : stream.next? s limits with
      | none => rfl
      | some next =>
          obtain ⟨item, behind⟩ := next
          have hless := remaining_next?_lt hnext
          have hsame : takeItems s limits bound behind = takeItems s limits bound' behind :=
            ih (by omega) (by omega)
          dsimp only
          rw [hsame]

theorem items_eq (stream : FrameStream) :
    items s limits stream =
      match stream.next? s limits with
      | none => []
      | some (item, behind) => (item, behind) :: items s limits behind := by
  unfold items
  rw [takeItems]
  cases hnext : stream.next? s limits with
  | none => rfl
  | some next =>
      obtain ⟨item, behind⟩ := next
      have hless := remaining_next?_lt hnext
      have hle : stream.remaining ≤ stream.unread.length := by
        unfold remaining
        split <;> omega
      have hbehind : behind.remaining < behind.unread.length + 1 := by
        unfold remaining
        split <;> omega
      dsimp only
      rw [takeItems_eq_takeItems (by omega) hbehind]

theorem next?_of_carries {frame : Bytes} {m : Message s} (h : Frame.Carries limits frame m)
    (rest : Bytes) :
    next? s limits ⟨frame ++ rest, false⟩ = some (.ok m, ⟨rest, false⟩) := by
  have hread : Frame.read s limits (frame ++ rest) = .ok m rest :=
    Frame.read_reads.ok_append h rest
  unfold next?
  rw [if_neg (by simp [h.ne_nil]), hread]

/-! ## Messages that are framed one after the other -/

theorem position_drop (frames : List Bytes) (more : Bytes) (n : Nat) :
    position (frames.flatten ++ more) ⟨(frames.drop n).flatten ++ more, false⟩ =
      (frames.take n).flatten.length := by
  have hsplit : frames.flatten = (frames.take n).flatten ++ (frames.drop n).flatten := by
    rw [← List.flatten_append, List.take_append_drop]
  unfold position
  rw [hsplit]
  simp only [List.length_append]
  omega

section

variable {ms : List (Message s)} {frames : List Bytes}
  (hframes : ms.map Frame.encode = frames.map .ok)
  (hcarries : ∀ m ∈ ms, ∀ frame, Frame.encode m = .ok frame → Frame.Carries limits frame m.norm)

include hframes hcarries

/-- The items of frames are their messages, and then come the items of what stands behind them. -/
theorem items_flatten_append (more : Bytes) :
    items s limits ⟨frames.flatten ++ more, false⟩ =
      (ms.mapIdx fun i m => (.ok m.norm, ⟨(frames.drop (i + 1)).flatten ++ more, false⟩)) ++
        items s limits ⟨more, false⟩ := by
  induction ms generalizing frames with
  | nil =>
      obtain rfl : frames = [] := by simpa [eq_comm] using hframes
      rfl
  | cons m ms ih =>
      cases frames with
      | nil => simp at hframes
      | cons frame frames =>
          rw [List.map_cons, List.map_cons, List.cons.injEq] at hframes
          have hframe := hcarries m List.mem_cons_self frame hframes.1
          have hrest := ih hframes.2 fun other hmem =>
            hcarries other (List.mem_cons_of_mem _ hmem)
          rw [List.flatten_cons, List.append_assoc, items_eq, next?_of_carries hframe,
            List.mapIdx_cons, List.cons_append]
          dsimp only
          rw [hrest]
          rfl

theorem frame_ne_nil {frame : Bytes} (hmem : frame ∈ frames) : frame ≠ [] := by
  have hencoded : .ok frame ∈ ms.map Frame.encode := by
    rw [hframes]
    exact List.mem_map_of_mem hmem
  obtain ⟨m, hm, hframe⟩ := List.mem_map.mp hencoded
  exact (hcarries m hm frame hframe).ne_nil

end

/--
Messages that are framed one after the other are read back in their normal form and in their order,
whatever stands behind them, and behind each of them the stream has been read up to the end of its
frame.  With nothing behind the frames there are no more items.  Every message has a frame of its
own, of one byte at least.
-/
theorem items_of_frames {limits : DecodeLimits} {ms : List (Message s)} {frames : List Bytes}
    (hgenuine : ∀ m ∈ ms, m.Genuine) (hframes : ms.map Frame.encode = frames.map .ok)
    (hsize : ∀ m ∈ ms, ∀ body, Message.encode Limits.defaultMaxDepth m = .ok body →
      body.length ≤ limits.maxSize)
    (hdepth : ∀ m ∈ ms, m.nesting ≤ limits.maxDepth) :
    (∀ (more : Bytes) (i : Nat) (m : Message s), ms[i]? = some m →
      ∃ behind, (items s limits ⟨frames.flatten ++ more, false⟩)[i]? = some (.ok m.norm, behind) ∧
        behind.position (frames.flatten ++ more) = (frames.take (i + 1)).flatten.length) ∧
    (items s limits ⟨frames.flatten, false⟩).length = ms.length ∧
    frames.length = ms.length ∧ ∀ frame ∈ frames, frame ≠ [] := by
  have hcarries : ∀ m ∈ ms, ∀ frame, Frame.encode m = .ok frame →
      Frame.Carries limits frame m.norm :=
    fun m hmem _ hframe =>
      Frame.carries_of_encode (hgenuine m hmem) hframe (hsize m hmem) (hdepth m hmem)
  refine ⟨?_, ?_, ?_, fun frame hmem => frame_ne_nil hframes hcarries hmem⟩
  · intro more i m hm
    have hi : i < ms.length := (List.getElem?_eq_some_iff.mp hm).1
    refine ⟨⟨(frames.drop (i + 1)).flatten ++ more, false⟩, ?_, position_drop frames more (i + 1)⟩
    rw [items_flatten_append hframes hcarries, List.getElem?_append_left (by simpa using hi),
      List.getElem?_mapIdx, hm]
    rfl
  · have hitems := items_flatten_append hframes hcarries []
    rw [List.append_nil] at hitems
    rw [hitems]
    simp [items, takeItems, next?]
  · simpa using (congrArg List.length hframes).symm

/-- A value that holds nothing and an empty octetstring, both without a byte, and an integer. -/
def shortMessages : List (Message .value) :=
  [Value.unset, Value.leaf (some (.octets [])) [], Value.leaf (some (.integer 7)) []]

/-- The first two have frames of a byte each; behind the third the stream does not go on well. -/
theorem items_of_frames_short :
    let input : Bytes := [0, 0, 2, 0x30, 7]
    (∃ behind, (items .value ⟨0, 2⟩ ⟨input ++ [0xff], false⟩)[1]? = some (.ok Value.unset, behind) ∧
      behind.position (input ++ [0xff]) = 2) ∧
    (∃ behind, (items .value ⟨0, 2⟩ ⟨input ++ [0xff], false⟩)[2]? =
        some (.ok (Value.leaf (some (.integer 7)) []), behind) ∧
      behind.position (input ++ [0xff]) = 5) ∧
    (items .value ⟨0, 2⟩ ⟨input, false⟩).length = 3 := by
  have hgenuine : ∀ m ∈ shortMessages, m.Genuine := by
    intro m hmem held hheld
    simp only [shortMessages, List.mem_cons, List.not_mem_nil, or_false] at hmem
    rcases hmem with rfl | rfl | rfl <;> cases hheld
  have hbodies : shortMessages.map (Message.encode Limits.defaultMaxDepth) =
      [.ok [], .ok [], .ok [0x30, 7]] := rfl
  have hframes : shortMessages.map Frame.encode =
      ([[0], [0], [2, 0x30, 7]] : List Bytes).map .ok := rfl
  have hsize : ∀ m ∈ shortMessages, ∀ body,
      Message.encode Limits.defaultMaxDepth m = .ok body →
        body.length ≤ (⟨0, 2⟩ : DecodeLimits).maxSize := by
    intro m hmem body hencode
    have hbody : .ok body ∈ shortMessages.map (Message.encode Limits.defaultMaxDepth) := by
      rw [← hencode]
      exact List.mem_map_of_mem hmem
    rw [hbodies] at hbody
    simp only [List.mem_cons, List.not_mem_nil, or_false, Except.ok.injEq] at hbody
    rcases hbody with rfl | rfl | rfl <;> decide
  have hdepth : ∀ m ∈ shortMessages, m.nesting ≤ (⟨0, 2⟩ : DecodeLimits).maxDepth := by
    decide +kernel
  obtain ⟨hitems, hlength, _⟩ := items_of_frames hgenuine hframes hsize hdepth
  exact ⟨hitems [0xff] 1 _ rfl, hitems [0xff] 2 _ rfl, hlength⟩

end FrameStream

end TestWire
