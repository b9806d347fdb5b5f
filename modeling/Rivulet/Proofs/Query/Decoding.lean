import Rivulet.Proofs.Text.Replacing
import Rivulet.Query.Prefetch

/-!
# A stream in pieces

What a decoder says to a whole text, it says to the text in pieces: the frames that a piece
completes are taken off, what is left in the buffer is the beginning of the next one, and an added
piece finds it there. Line ends are brought into one form piece by piece, though, so this holds
only as long as no line end of two characters is cut in the middle.

A call ends at the first faulty frame. Every frame is taken off once and in order, whatever the
pieces are and whichever of them are answered with an error: the frames behind a faulty one wait in
the buffer for the next call. The events of the frames in front of it, though, are given up with the
call. So nothing is lost as long as each call has a single frame to read, and what is lost otherwise
depends on how the stream was cut.
-/

namespace Rivulet.Query.Prefetch

/-- A line end of two characters. -/
def lineEnd : List Char := ['\r', '\n']

/-- A text with line ends of one character. -/
def oneEnded (text : List Char) : List Char := Text.replaceAll lineEnd ['\n'] text

namespace Decoder

/-- Takes in several pieces one after the other. -/
def feedAll : Decoder → List (List Char) → List (Except PayloadError (List Event)) × Decoder
  | d, [] => ([], d)
  | d, chunk :: chunks =>
    let (result, d) := d.feed chunk
    let (results, d) := d.feedAll chunks
    (result :: results, d)

/-- The outcome of a call that has given some events before. -/
def behind (events : List Event) (outcome : Except PayloadError (List Event) × Decoder) :
    Except PayloadError (List Event) × Decoder :=
  (outcome.1.map (events ++ ·), outcome.2)

@[simp] theorem behind_nil (outcome : Except PayloadError (List Event) × Decoder) :
    behind [] outcome = outcome := by
  obtain ⟨result, d⟩ := outcome
  cases result <;> rfl

@[simp] theorem behind_ok (events more : List Event) (d : Decoder) :
    behind events (.ok more, d) = (.ok (events ++ more), d) := rfl

@[simp] theorem behind_error (events : List Event) (e : PayloadError) (d : Decoder) :
    behind events (.error e, d) = (.error e, d) := rfl

/-- Events behind events behind others. -/
@[simp] theorem behind_behind (events more : List Event)
    (outcome : Except PayloadError (List Event) × Decoder) :
    behind events (behind more outcome) = behind (events ++ more) outcome := by
  obtain ⟨result, d⟩ := outcome
  cases result <;> simp

private theorem behind_eq_ok {events all : List Event}
    {outcome : Except PayloadError (List Event) × Decoder} {d : Decoder} :
    behind events outcome = (.ok all, d) ↔
      ∃ more, outcome = (.ok more, d) ∧ all = events ++ more := by
  obtain ⟨result, d'⟩ := outcome
  cases result <;> simp [eq_comm, and_comm]

/-- A text without a blank line is kept. -/
theorem drain_of_none {buffer : List Char} (h : Text.cut? ['\n', '\n'] buffer = none)
    (isDone : Bool) : drain buffer isDone = (.ok [], ⟨buffer, isDone⟩) := by
  rw [drain]
  split
  · rfl
  · rename_i heq
    rw [h] at heq
    cases heq

/-- A frame in front of a blank line is read and taken off. -/
theorem drain_of_some {buffer frame rest : List Char}
    (h : Text.cut? ['\n', '\n'] buffer = some (frame, rest)) (isDone : Bool) :
    drain buffer isDone =
      match readFrame frame with
      | .error e => (.error e, ⟨rest, isDone⟩)
      | .ok none => drain rest isDone
      | .ok (some event) => behind [event] (drain rest (isDone || event.isDone)) := by
  rw [drain]
  split
  · rename_i heq
    rw [h] at heq
    cases heq
  · rename_i heq
    rw [h] at heq
    obtain ⟨rfl, rfl⟩ := Prod.mk.inj (Option.some.inj heq)
    rfl

/-- Taking a frame off makes the buffer shorter. -/
theorem length_of_cut? {buffer frame rest : List Char}
    (h : Text.cut? ['\n', '\n'] buffer = some (frame, rest)) : rest.length < buffer.length := by
  rw [Text.eq_append_of_cut? h]
  simp
  omega

/-- What comes behind a text is worked off after it, unless a faulty frame ended the call. -/
theorem drain_append (buffer : List Char) (isDone : Bool) (more : List Char) :
    drain (buffer ++ more) isDone =
      match drain buffer isDone with
      | (.ok events, d) => behind events (drain (d.buffer ++ more) d.isDone)
      | (.error e, d) => (.error e, ⟨d.buffer ++ more, d.isDone⟩) := by
  induction hlen : buffer.length using Nat.strongRecOn generalizing buffer isDone with
  | ind n ih =>
    cases hcut : Text.cut? ['\n', '\n'] buffer with
    | none => simp [drain_of_none hcut]
    | some parts =>
      obtain ⟨frame, rest⟩ := parts
      have hshort : rest.length < n := hlen ▸ length_of_cut? hcut
      have hrest := fun isDone => ih rest.length hshort rest isDone rfl
      rw [drain_of_some hcut, drain_of_some (Text.cut?_append hcut more)]
      rcases readFrame frame with e | event
      · rfl
      · cases event with
        | none => exact hrest isDone
        | some event =>
          simp only [hrest]
          rcases drain rest (isDone || event.isDone) with ⟨e | events, d⟩ <;> simp

/-- A text is accepted when its front is accepted and the rest of it is, behind what the front
left over. -/
theorem drain_append_eq_ok {buffer more : List Char} {isDone : Bool} {events : List Event}
    {d : Decoder} :
    drain (buffer ++ more) isDone = (.ok events, d) ↔
      ∃ first d₁, drain buffer isDone = (.ok first, d₁) ∧
        ∃ rest, drain (d₁.buffer ++ more) d₁.isDone = (.ok rest, d) ∧ events = first ++ rest := by
  rw [drain_append]
  rcases drain buffer isDone with ⟨e | first, d₁⟩
  · simp
  · simp [behind_eq_ok]

/-- A decoder that has taken off all complete frames. -/
def Idle (d : Decoder) : Prop := drain d.buffer d.isDone = (.ok [], d)

/-- A new decoder is idle. -/
theorem idle_empty : Idle {} := drain_of_none rfl false

/-- Unless a frame is faulty, all complete frames are taken off. -/
theorem idle_of_drain {buffer : List Char} {isDone : Bool} {events : List Event} {d : Decoder}
    (h : drain buffer isDone = (.ok events, d)) : d.Idle := by
  have hagain := h
  rw [← List.append_nil buffer, drain_append_eq_ok] at hagain
  obtain ⟨first, d₁, hfirst, rest, hrest, hevents⟩ := hagain
  obtain ⟨hsame, rfl⟩ := Prod.mk.inj (hfirst.symm.trans h)
  obtain rfl := Except.ok.inj hsame
  obtain rfl : rest = [] := by simpa using hevents
  rwa [List.append_nil] at hrest

/-- A chunk is read behind what was left of the last one. -/
theorem feed_eq (d : Decoder) (chunk : List Char) :
    d.feed chunk = drain (d.buffer ++ oneEnded chunk) d.isDone := rfl

/-- Pieces are taken in as their texts would be, one behind the other. -/
theorem feedAll_of_drain {d d' : Decoder} (hidle : d.Idle) {chunks : List (List Char)}
    {events : List Event}
    (h : drain (d.buffer ++ (chunks.map oneEnded).flatten) d.isDone = (.ok events, d')) :
    ∃ groups : List (List Event),
      d.feedAll chunks = (groups.map .ok, d') ∧ groups.flatten = events := by
  induction chunks generalizing d events with
  | nil =>
    rw [List.map_nil, List.flatten_nil, List.append_nil, hidle] at h
    obtain ⟨hevents, rfl⟩ := Prod.mk.inj h
    obtain rfl := Except.ok.inj hevents
    exact ⟨[], rfl, rfl⟩
  | cons chunk chunks ih =>
    rw [List.map_cons, List.flatten_cons, ← List.append_assoc, drain_append_eq_ok, ← feed_eq] at h
    obtain ⟨first, d₁, hfirst, rest, hrest, rfl⟩ := h
    obtain ⟨groups, hgroups, rfl⟩ := ih (idle_of_drain hfirst) hrest
    refine ⟨first :: groups, ?_, rfl⟩
    simp [feedAll, hfirst, hgroups]

/-- The first results are the ones of the first pieces. -/
theorem fst_feedAll_take (d : Decoder) (chunks : List (List Char)) (k : Nat) :
    (d.feedAll (chunks.take k)).1 = (d.feedAll chunks).1.take k := by
  induction chunks generalizing d k with
  | nil => simp [feedAll]
  | cons chunk chunks ih =>
    cases k with
    | zero => rfl
    | succ k => simp [feedAll, ih]

/-- A text that is accepted as a whole is accepted in pieces, with the same events and the same
decoder in the end, if no line end of two characters is cut in the middle. -/
theorem feedAll_of_feed {d d' : Decoder} (hidle : d.Idle) {chunks : List (List Char)}
    (huncut : Text.Uncut lineEnd chunks) {events : List Event}
    (h : d.feed chunks.flatten = (.ok events, d')) :
    ∃ groups : List (List Event),
      d.feedAll chunks = (groups.map .ok, d') ∧ groups.flatten = events := by
  refine feedAll_of_drain hidle ?_
  rw [feed_eq, oneEnded, Text.replaceAll_flatten huncut] at h
  exact h

/-- A line end that is cut in the middle keeps its return, and the blank line goes unseen. -/
example :
    (feedAll {} ["event: done\r\ndata: \r\n\r".toList, ['\n']]).2.isDone = false ∧
      (feed {} "event: done\r\ndata: \r\n\r\n".toList).2.isDone = true := by
  constructor
  · cbv
  · cbv

end Decoder

/-! ## What a faulty frame costs -/

/-- What ends a frame. -/
def blankLine : List Char := ['\n', '\n']

/-- A text begins with the given frames, each up to the first blank line, and has the rest behind
them. -/
inductive Framed : List Char → List (List Char) → List Char → Prop
  /-- No frame is taken off. -/
  | nil (text : List Char) : Framed text [] text
  /-- A frame is taken off together with its blank line. -/
  | cons {text frame more rest frames} (hcut : Text.cut? blankLine text = some (frame, more))
      (hmore : Framed more frames rest) : Framed text (frame :: frames) rest

/-- What a call gives that takes off some frames. -/
inductive Reading : List (List Char) → Except PayloadError (List Event) → Prop
  /-- All frames are read. -/
  | nil : Reading [] (.ok [])
  /-- A frame without content. -/
  | quiet {frame frames result} (hframe : readFrame frame = .ok none)
      (hmore : Reading frames result) : Reading (frame :: frames) result
  /-- A frame with an event, which is given if the call comes to its end. -/
  | event {frame frames event result} (hframe : readFrame frame = .ok (some event))
      (hmore : Reading frames result) : Reading (frame :: frames) (result.map (event :: ·))
  /-- A faulty frame is the last one of its call. -/
  | fault {frame e} (hframe : readFrame frame = .error e) : Reading [frame] (.error e)

/-- The event of a frame, if it is sound and has one. -/
def heard? (frame : List Char) : Option Event := (readFrame frame).toOption.join

/-- The events that some calls have given, those that were answered with an error giving none. -/
def given (results : List (Except PayloadError (List Event))) : List Event :=
  results.flatMap fun result => result.toOption.getD []

namespace Framed

variable {text mid rest : List Char} {frames more : List (List Char)}

/-- Nothing but blank lines goes missing. -/
theorem eq_flatMap (h : Framed text frames rest) :
    text = frames.flatMap (· ++ blankLine) ++ rest := by
  induction h with
  | nil text => rfl
  | cons hcut hmore ih =>
    rw [Text.eq_append_of_cut? hcut, List.flatMap_cons, List.append_assoc, List.append_assoc,
      List.append_assoc, ← ih]

/-- Frames that are complete stay the same when more text comes. -/
theorem append (h : Framed text frames rest) (added : List Char) :
    Framed (text ++ added) frames (rest ++ added) := by
  induction h with
  | nil text => exact nil _
  | cons hcut hmore ih => exact cons (Text.cut?_append hcut added) ih

/-- The frames of the rest follow. -/
theorem trans (h : Framed text frames mid) (hmore : Framed mid more rest) :
    Framed text (frames ++ more) rest := by
  induction h with
  | nil text => exact hmore
  | cons hcut _ ih => exact cons hcut (ih hmore)

/-- Of two ways to take off frames one is the beginning of the other. -/
theorem prefix_of_length_le {rest' : List Char} (h : Framed text frames rest)
    (h' : Framed text more rest') (hle : frames.length ≤ more.length) : frames <+: more := by
  induction h generalizing more with
  | nil text => exact List.nil_prefix
  | cons hcut _ ih =>
    cases h' with
    | nil => simp at hle
    | cons hcut' hmore' =>
      obtain ⟨rfl, rfl⟩ := Prod.mk.inj (Option.some.inj (hcut.symm.trans hcut'))
      exact List.cons_prefix_cons.2 ⟨rfl, ih hmore' (by simpa using hle)⟩

end Framed

namespace Reading

variable {frames : List (List Char)} {events : List Event} {e : PayloadError}

/-- A call that gives events has read sound frames only, and gives the events of all of them. -/
theorem of_ok (h : Reading frames (.ok events)) :
    events = frames.filterMap heard? ∧
      ∀ frame ∈ frames, ∃ event?, readFrame frame = .ok event? := by
  generalize hresult : (Except.ok events : Except PayloadError (List Event)) = result at h
  induction h generalizing events with
  | nil =>
    cases hresult
    exact ⟨rfl, by simp⟩
  | quiet hframe _ ih =>
    obtain ⟨rfl, hsound⟩ := ih hresult
    refine ⟨by simp [heard?, hframe, Except.toOption], ?_⟩
    exact List.forall_mem_cons.2 ⟨⟨none, hframe⟩, hsound⟩
  | @event frame frames event result hframe _ ih =>
    cases result with
    | error e => cases hresult
    | ok more =>
      obtain ⟨rfl, hsound⟩ := ih rfl
      obtain rfl := Except.ok.inj hresult
      refine ⟨by simp [heard?, hframe, Except.toOption], ?_⟩
      exact List.forall_mem_cons.2 ⟨⟨some event, hframe⟩, hsound⟩
  | fault => cases hresult

/-- A call that gives an error has read sound frames and then the faulty one. The events of the
sound ones are not part of the answer. -/
theorem of_error (h : Reading frames (.error e)) :
    ∃ sound faulty, frames = sound ++ [faulty] ∧ readFrame faulty = .error e ∧
      ∀ frame ∈ sound, ∃ event?, readFrame frame = .ok event? := by
  generalize hresult : (Except.error e : Except PayloadError (List Event)) = result at h
  induction h with
  | nil => cases hresult
  | quiet hframe _ ih =>
    obtain ⟨sound, faulty, rfl, hfaulty, hsound⟩ := ih hresult
    exact ⟨_ :: sound, faulty, rfl, hfaulty, List.forall_mem_cons.2 ⟨⟨none, hframe⟩, hsound⟩⟩
  | @event frame frames event result hframe _ ih =>
    cases result with
    | ok more => cases hresult
    | error e' =>
      obtain ⟨sound, faulty, rfl, hfaulty, hsound⟩ := ih hresult
      exact ⟨_ :: sound, faulty, rfl, hfaulty,
        List.forall_mem_cons.2 ⟨⟨some event, hframe⟩, hsound⟩⟩
  | @fault frame e' hframe =>
    cases hresult
    exact ⟨[], frame, rfl, hframe, by simp⟩

/-- No event is made up, given twice or given out of order. -/
theorem given_sublist {calls : List (List (List Char))}
    {results : List (Except PayloadError (List Event))} (h : List.Forall₂ Reading calls results) :
    (given results).Sublist (calls.flatten.filterMap heard?) := by
  induction h with
  | nil => exact List.Sublist.refl _
  | @cons frames result calls results hreading _ ih =>
    rw [List.flatten_cons, List.filterMap_append, given, List.flatMap_cons]
    refine List.Sublist.append ?_ ih
    cases result with
    | error e => exact List.nil_sublist _
    | ok events => exact hreading.of_ok.1 ▸ List.Sublist.refl _

end Reading

namespace Decoder

/-- A call takes the frames that it reads off the buffer. -/
theorem exists_reading_drain (buffer : List Char) (isDone : Bool) :
    ∃ frames, Framed buffer frames (drain buffer isDone).2.buffer ∧
      Reading frames (drain buffer isDone).1 := by
  induction hlen : buffer.length using Nat.strongRecOn generalizing buffer isDone with
  | ind n ih =>
    cases hcut : Text.cut? blankLine buffer with
    | none =>
      rw [drain_of_none hcut]
      exact ⟨[], .nil _, .nil⟩
    | some parts =>
      obtain ⟨frame, rest⟩ := parts
      have hshort : rest.length < n := hlen ▸ length_of_cut? hcut
      have hrest := fun isDone => ih rest.length hshort rest isDone rfl
      rw [drain_of_some hcut]
      cases hread : readFrame frame with
      | error e => exact ⟨[frame], .cons hcut (.nil _), .fault hread⟩
      | ok event? =>
        cases event? with
        | none =>
          obtain ⟨frames, hframed, hreading⟩ := hrest isDone
          exact ⟨frame :: frames, .cons hcut hframed, .quiet hread hreading⟩
        | some event =>
          obtain ⟨frames, hframed, hreading⟩ := hrest (isDone || event.isDone)
          exact ⟨frame :: frames, .cons hcut hframed, .event hread hreading⟩

/-- Over any pieces, the calls read the frames of the stream one after the other, each of them
once, with or without faults among them. -/
theorem exists_reading_feedAll (d : Decoder) (chunks : List (List Char)) :
    ∃ calls : List (List (List Char)),
      Framed (d.buffer ++ (chunks.map oneEnded).flatten) calls.flatten
        (d.feedAll chunks).2.buffer ∧
      List.Forall₂ Reading calls (d.feedAll chunks).1 := by
  induction chunks generalizing d with
  | nil => exact ⟨[], by simpa [feedAll] using .nil _, .nil⟩
  | cons chunk chunks ih =>
    obtain ⟨frames, hframed, hreading⟩ :=
      exists_reading_drain (d.buffer ++ oneEnded chunk) d.isDone
    rw [← feed_eq] at hframed hreading
    obtain ⟨calls, hcalls, hresults⟩ := ih (d.feed chunk).2
    refine ⟨frames :: calls, ?_, .cons hreading hresults⟩
    rw [List.map_cons, List.flatten_cons, ← List.append_assoc, List.flatten_cons]
    exact (hframed.append _).trans hcalls

/-- A frame in a piece of its own is answered by itself, whatever the pieces before it were. -/
theorem fst_feedAll_of_single {d : Decoder} (hempty : d.buffer = [])
    {chunks frames : List (List Char)}
    (hsingle : List.Forall₂ (fun chunk frame => Framed (oneEnded chunk) [frame] []) chunks frames) :
    (d.feedAll chunks).1 = frames.map fun frame => (readFrame frame).map Option.toList := by
  induction hsingle generalizing d with
  | nil => rfl
  | @cons chunk frame chunks frames hframed _ ih =>
    cases hframed with
    | cons hcut hmore =>
      cases hmore
      have hfeed : (d.feed chunk).1 = (readFrame frame).map Option.toList ∧
          (d.feed chunk).2.buffer = [] := by
        rw [feed_eq, hempty, List.nil_append, drain_of_some hcut]
        have hnil := fun isDone => drain_of_none (rfl : Text.cut? ['\n', '\n'] [] = none) isDone
        rcases readFrame frame with e | event?
        · exact ⟨rfl, rfl⟩
        · cases event? <;> simp [hnil, Except.map]
      rw [feedAll, List.map_cons, ← hfeed.1, ← ih hfeed.2]

/-- The end of the stream is announced in front of a faulty frame: with a piece for each it is
given, and in one piece it is lost. -/
example :
    given (feedAll {} ["event:done\n\n".toList, "x\n\n".toList, []]).1 = [.done] ∧
      given (feedAll {} ["event:done\n\nx\n\n".toList, []]).1 = [] := by
  constructor
  · cbv
  · cbv

end Decoder

end Rivulet.Query.Prefetch
