import Rivulet.Proofs.Query.Codecs
import Rivulet.Proofs.Query.Decoding

/-!
# Frames survive any cutting

An event is written as a frame of its own, and a stream is cut into pieces without regard to
frames. No text inside a frame has a line end, for a value is written on one line, so a blank line
is nothing but the end of a frame. What has been read of a stream is at any time the frames that
are complete, and what waits in the buffer is the beginning of the next one.
-/

namespace Rivulet.Query.Prefetch

/-- An event that a stream can carry. -/
def Event.Plain : Event → Prop
  | query entry => entry.Plain ∧ entry.json.depth ≤ Json.maxDepth
  | done => True

/-- The line of a frame that names the event. -/
def Event.nameLine : Event → List Char
  | query _ => "event: query".toList
  | done => "event: done".toList

/-- The data of a frame. -/
def Event.data : Event → List Char
  | query entry => entry.json.print
  | done => []

/-- The lines of a frame without the blank line behind them. -/
def Event.lines (e : Event) : List Char := e.nameLine ++ '\n' :: ("data: ".toList ++ e.data)

theorem Event.frame_eq (e : Event) : e.frame = e.lines ++ ['\n', '\n'] := by
  unfold frame lines nameLine data
  cases e <;> simp

theorem Event.visible_nameLine (e : Event) : Json.Visible e.nameLine := by
  cases e with
  | query entry => exact (by decide : Json.Visible "event: query".toList)
  | done => exact (by decide : Json.Visible "event: done".toList)

/-- The data of a frame is a single line. -/
theorem Event.visible_dataLine {e : Event} (h : e.Plain) :
    Json.Visible ("data: ".toList ++ e.data) := by
  rw [Json.visible_append]
  refine ⟨by decide, ?_⟩
  cases e with
  | query entry => exact Json.visible_print h.1.isWhole_json
  | done => exact (by decide : Json.Visible [])

/-- The first blank line behind the lines of a frame is the one that ends it. -/
theorem Event.cut?_frame {e : Event} (h : e.Plain) (rest : List Char) :
    Text.cut? ['\n', '\n'] (e.frame ++ rest) = some (e.lines, rest) := by
  have hname : '\n' ∉ e.nameLine := e.visible_nameLine.notMem (by decide)
  have hdata : '\n' ∉ "data: ".toList ++ e.data := (visible_dataLine h).notMem (by decide)
  have hend : Text.cut? ['\n', '\n'] ('\n' :: '\n' :: rest) = some ([], rest) := rfl
  have hsecond := Text.cut?_append_of_notMem (p := ['\n']) hdata ('\n' :: '\n' :: rest)
  rw [hend] at hsecond
  have hmiddle : Text.cut? ['\n', '\n']
      ('\n' :: ("data: ".toList ++ e.data ++ '\n' :: '\n' :: rest)) =
        some ('\n' :: ("data: ".toList ++ e.data), rest) := by
    rw [Text.cut?, hsecond]
    simp [Text.stripStart?]
  have hfirst := Text.cut?_append_of_notMem (p := ['\n']) hname
    ('\n' :: ("data: ".toList ++ e.data ++ '\n' :: '\n' :: rest))
  rw [hmiddle] at hfirst
  simpa [frame_eq, lines] using hfirst

private theorem withoutReturn_of_visible {s : List Char} (h : Json.Visible s) :
    withoutReturn s = s := by
  refine if_neg fun hlast => ?_
  exact h.notMem (by decide) (List.mem_of_getLast? hlast)

/-- The lines of a frame are the one that names the event and the one with the data. -/
theorem Event.lines_lines {e : Event} (h : e.Plain) :
    Prefetch.lines e.lines = [e.nameLine, "data: ".toList ++ e.data] := by
  have hname := e.visible_nameLine
  have hdata := visible_dataLine h
  have hlines : ∀ l ∈ [e.nameLine, "data: ".toList ++ e.data], '\n' ∉ l := by
    intro l hl
    simp only [List.mem_cons, List.not_mem_nil, or_false] at hl
    rcases hl with rfl | rfl
    · exact hname.notMem (by decide)
    · exact hdata.notMem (by decide)
  have hsplit := List.splitOn_intercalate '\n' hlines (List.cons_ne_nil _ _)
  have hjoin : ['\n'].intercalate [e.nameLine, "data: ".toList ++ e.data] = e.lines := by
    simp [List.intercalate, lines]
  rw [hjoin] at hsplit
  rw [Prefetch.lines, hsplit, List.map_cons, List.map_cons, List.map_nil,
    withoutReturn_of_visible hname, withoutReturn_of_visible hdata]

/-- The first line of a frame gives the name of the event. -/
theorem Event.addLine_nameLine (e : Event) :
    Fields.addLine {} e.nameLine =
      .ok { name := some (if e.isDone then "done".toList else "query".toList) } := by
  cases e <;> rfl

/-- The second line of a frame gives the data. -/
theorem Event.addLine_dataLine (e : Event) (name : List Char) :
    Fields.addLine { name := some name } ("data: ".toList ++ e.data) =
      .ok { name := some name, data := e.data } := by
  simp [Fields.addLine, Text.stripStart?]

/-- A frame is read as the event that it was written for. -/
theorem Event.readFrame_lines {e : Event} (h : e.Plain) : readFrame e.lines = .ok (some e) := by
  have hfields : (Prefetch.lines e.lines).foldlM Fields.addLine {} =
      .ok {
        name := some (if e.isDone then "done".toList else "query".toList)
        data := e.data } := by
    rw [lines_lines h, List.foldlM_cons, addLine_nameLine]
    exact (congrArg (· >>= _) (addLine_dataLine e _)).trans rfl
  rw [readFrame, hfields]
  cases e with
  | query entry =>
    have hdepth : entry.value.depth ≤ 126 := by
      have hle := h.2
      simp only [Entry.json, Json.depth, Json.depthFields, Json.maxDepth] at hle
      omega
    have hentry := Entry.parse?_print h.1 hdepth
    simp [Except.bind, Fields.event?, isDone, data, hentry]
  | done => simp [Except.bind, Fields.event?, isDone]

/-- The events whose frames lie wholly in so many characters of a stream. -/
def completed : List Event → Nat → List Event
  | [], _ => []
  | e :: es, n => if e.frame.length ≤ n then e :: completed es (n - e.frame.length) else []

/-- The events that are complete are the first ones. -/
theorem completed_isPrefix (events : List Event) (n : Nat) : completed events n <+: events := by
  induction events generalizing n with
  | nil => exact List.prefix_refl []
  | cons e es ih =>
    rw [completed]
    split
    · exact List.cons_prefix_cons.2 ⟨rfl, ih _⟩
    · exact List.nil_prefix

/-- All events are complete when the whole stream has come. -/
theorem completed_all (events : List Event) :
    completed events (events.flatMap Event.frame).length = events := by
  induction events with
  | nil => rfl
  | cons e es ih =>
    rw [completed, List.flatMap_cons, List.length_append, if_pos (Nat.le_add_right _ _),
      Nat.add_sub_cancel_left, ih]

/-- A piece of a frame that lacks its end has no blank line. -/
theorem Event.cut?_take {e : Event} (h : e.Plain) {n : Nat} (hn : n < e.frame.length) :
    Text.cut? ['\n', '\n'] (e.frame.take n) = none := by
  cases hcut : Text.cut? ['\n', '\n'] (e.frame.take n) with
  | none => rfl
  | some parts =>
    obtain ⟨before, after⟩ := parts
    -- its blank line would be the one at the end of the frame, which is behind the piece
    have hwhole := Text.cut?_append hcut (e.frame.drop n)
    have hframe := cut?_frame h []
    rw [List.append_nil] at hframe
    rw [List.take_append_drop, hframe] at hwhole
    obtain ⟨-, hrest⟩ := Prod.mk.inj (Option.some.inj hwhole)
    have hdrop := (List.append_eq_nil_iff.1 hrest.symm).2
    rw [List.drop_eq_nil_iff] at hdrop
    omega

/-- What a stream has brought so far is a number of frames and the beginning of the next one. -/
theorem exists_take_eq {events : List Event} (h : ∀ e ∈ events, e.Plain) (n : Nat) :
    ∃ tail, (events.flatMap Event.frame).take n = (completed events n).flatMap Event.frame ++ tail ∧
      Text.cut? ['\n', '\n'] tail = none := by
  induction events generalizing n with
  | nil => exact ⟨[], by simp [completed], rfl⟩
  | cons e es ih =>
    rw [List.flatMap_cons, completed]
    split
    · rename_i hle
      obtain ⟨tail, htail, hcut⟩ := ih (fun d hd => h d (List.mem_cons_of_mem _ hd))
        (n - e.frame.length)
      refine ⟨tail, ?_, hcut⟩
      rw [List.take_append, List.take_of_length_le hle, htail, List.flatMap_cons,
        List.append_assoc]
    · rename_i hlt
      refine ⟨e.frame.take n, ?_, Event.cut?_take (h e List.mem_cons_self) (by omega)⟩
      rw [List.take_append_of_le_length (by omega)]
      rfl

/-- Complete frames are taken off as the events that they were written for. -/
theorem drain_flatMap_frame {events : List Event} (h : ∀ e ∈ events, e.Plain)
    {tail : List Char} (htail : Text.cut? ['\n', '\n'] tail = none) (isDone : Bool) :
    Decoder.drain (events.flatMap Event.frame ++ tail) isDone =
      (.ok events, ⟨tail, isDone || events.any Event.isDone⟩) := by
  induction events generalizing isDone with
  | nil => simp [Decoder.drain_of_none htail]
  | cons e es ih =>
    have hfirst := h e List.mem_cons_self
    have hcut := Event.cut?_frame hfirst (es.flatMap Event.frame ++ tail)
    rw [List.flatMap_cons, List.append_assoc, Decoder.drain_of_some hcut,
      Event.readFrame_lines hfirst]
    simp [ih (fun d hd => h d (List.mem_cons_of_mem _ hd)), Bool.or_assoc]

/-- No frame has a line end of two characters. -/
theorem Event.notMem_frame {e : Event} (h : e.Plain) : '\r' ∉ e.frame := by
  have hname : '\r' ∉ e.nameLine := e.visible_nameLine.notMem (by decide)
  have hdata : '\r' ∉ "data: ".toList ++ e.data := (visible_dataLine h).notMem (by decide)
  simp only [frame_eq, lines, List.mem_append, List.mem_cons, not_or]
  simp only [List.mem_append, not_or] at hdata
  exact ⟨⟨hname, by decide, hdata⟩, by decide⟩

private theorem oneEnded_of_notMem {s : List Char} (h : '\r' ∉ s) : oneEnded s = s := by
  have happ : Text.replaceAll lineEnd ['\n'] (s ++ []) = s ++ Text.replaceAll lineEnd ['\n'] [] :=
    Text.replaceAll_append_of_notMem h []
  simpa [oneEnded, Text.replaceAll, Text.replaceFrom] using happ

/-- After any piece of a stream, exactly the events whose frames are complete were given. -/
theorem feedAll_of_flatten_eq {events : List Event} (h : ∀ e ∈ events, e.Plain)
    {chunks : List (List Char)} {n : Nat}
    (hchunks : chunks.flatten = (events.flatMap Event.frame).take n) :
    ∃ (groups : List (List Event)) (tail : List Char),
      Decoder.feedAll {} chunks =
        (groups.map .ok, ⟨tail, (completed events n).any Event.isDone⟩) ∧
      groups.flatten = completed events n := by
  obtain ⟨tail, htail, hcut⟩ := exists_take_eq h n
  have hreturn : ∀ chunk ∈ chunks, oneEnded chunk = chunk := fun chunk hc => by
    refine oneEnded_of_notMem fun hmem => ?_
    have hstream : '\r' ∈ events.flatMap Event.frame := by
      refine List.mem_of_mem_take (i := n) ?_
      rw [← hchunks]
      exact List.mem_flatten_of_mem hc hmem
    obtain ⟨e, he, hframe⟩ := List.mem_flatMap.1 hstream
    exact Event.notMem_frame (h e he) hframe
  have hsame : chunks.map oneEnded = chunks := by
    rw [List.map_congr_left hreturn, List.map_id']
  have hplain : ∀ e ∈ completed events n, e.Plain := fun e he =>
    h e ((completed_isPrefix events n).subset he)
  have hdrain := drain_flatMap_frame hplain hcut false
  rw [← htail, ← hchunks, Bool.false_or, ← hsame] at hdrain
  obtain ⟨groups, hgroups, hflat⟩ := Decoder.feedAll_of_drain Decoder.idle_empty hdrain
  exact ⟨groups, tail, hgroups, hflat⟩

/-- A stream of events, cut into pieces in any way, is taken in without an error. Each piece gives
just the events whose frames it completes, all pieces together give all events, and the end is
known as soon as the frame that announces it is complete. -/
theorem feedAll_frames {events : List Event} (h : ∀ e ∈ events, e.Plain)
    {chunks : List (List Char)} (hchunks : chunks.flatten = events.flatMap Event.frame) :
    ∃ groups : List (List Event),
      (Decoder.feedAll {} chunks).1 = groups.map .ok ∧ groups.flatten = events ∧
      ∀ k, (groups.take k).flatten = completed events (chunks.take k).flatten.length ∧
        (Decoder.feedAll {} (chunks.take k)).2.isDone =
          (completed events (chunks.take k).flatten.length).any Event.isDone := by
  have hpiece (k : Nat) : (chunks.take k).flatten =
      (events.flatMap Event.frame).take (chunks.take k).flatten.length := by
    have hsplit : chunks.flatten = (chunks.take k).flatten ++ (chunks.drop k).flatten := by
      rw [← List.flatten_append, List.take_append_drop]
    rw [← hchunks, hsplit, List.take_left]
  have hall : chunks.flatten =
      (events.flatMap Event.frame).take (events.flatMap Event.frame).length := by
    rw [hchunks, List.take_length]
  obtain ⟨groups, tail, hgroups, hflat⟩ := feedAll_of_flatten_eq h hall
  refine ⟨groups, congrArg Prod.fst hgroups, by rwa [completed_all] at hflat, fun k => ?_⟩
  obtain ⟨first, tail, hfirst, hflat⟩ := feedAll_of_flatten_eq h (hpiece k)
  have hsame : first = groups.take k := by
    have htake := Decoder.fst_feedAll_take {} chunks k
    rw [hfirst, hgroups, ← List.map_take] at htake
    exact List.map_injective_iff.2 (fun _ _ he => Except.ok.inj he) htake
  refine ⟨hsame ▸ hflat, ?_⟩
  rw [hfirst]

/-- A value that looks like a frame comes through character by character. -/
theorem feedAll_frames_by_character :
    let events := [Event.query ⟨"data:", .str "event: done\ndata: \n\n"⟩, .done]
    let chunks := (events.flatMap Event.frame).map ([·])
    ∃ groups : List (List Event),
      (Decoder.feedAll {} chunks).1 = groups.map .ok ∧ groups.flatten = events ∧
      ∀ k, (groups.take k).flatten = completed events (chunks.take k).flatten.length ∧
        (Decoder.feedAll {} (chunks.take k)).2.isDone =
          (completed events (chunks.take k).flatten.length).any Event.isDone := by
  intro events chunks
  refine feedAll_frames (fun e he => ?_) ?_
  · rcases List.mem_cons.1 he with rfl | he
    · exact ⟨⟨rfl, trivial⟩, by decide⟩
    · obtain rfl := List.mem_singleton.1 he
      trivial
  · exact (List.flatMap_def ..).symm.trans (List.flatMap_singleton' _)

end Rivulet.Query.Prefetch
