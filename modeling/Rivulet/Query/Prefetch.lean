import Rivulet.Query.Payload
import Rivulet.Text.Search

/-!
# The prefetch stream

A client that navigates may ask for the data of a page instead of its markup. The answer is
a stream of frames, one for each query that was resolved and one for the end; a decoder
takes it in pieces of any size and keeps what is incomplete.
-/

namespace Rivulet.Query.Prefetch

/-- The header of a request that asks for data. -/
def header : String := "x-lattice-prefetch"

/-- Whether a request asks for data. Names of headers are compared without regard to case. -/
def isRequested (headers : List (String × String)) : Bool :=
  headers.any fun (name, value) =>
    Text.lowerAscii name.toList == header.toList &&
      (let v := Text.trim value.toList; v == ['1'] || v == "true".toList)

/-- What a frame says. -/
inductive Event where
  /-- A query was resolved. -/
  | query (entry : Entry)
  /-- No more follows. -/
  | done

/-- Whether an event is the last one. -/
def Event.isDone : Event → Bool
  | done => true
  | query _ => false

/-- An event as a value. -/
def Event.value : Event → Json
  | query entry => .ofFields [("query", entry.pair)]
  | done => .str "done"

/-- The frame of an event. -/
def Event.frame : Event → List Char
  | query entry => "event: query\ndata: ".toList ++ entry.json.print ++ ['\n', '\n']
  | done => "event: done\ndata: \n\n".toList

/-- What the lines of a frame have said so far. -/
structure Fields where
  /-- The name of the event. -/
  name : Option (List Char) := none
  /-- The data, its lines joined. -/
  data : List Char := []

/-- A line without the return at its end. -/
def withoutReturn (line : List Char) : List Char :=
  if line.getLast? = some '\r' then line.dropLast else line

/-- The lines of a text. -/
def lines (text : List Char) : List (List Char) := (text.splitOn '\n').map withoutReturn

/-- Takes in a line of a frame. -/
def Fields.addLine (f : Fields) (line : List Char) : Except PayloadError Fields :=
  if line.isEmpty || line.head? = some ':' then .ok f
  else
    match Text.stripStart? "event:".toList line, Text.stripStart? "data:".toList line with
    | some value, _ => .ok { f with name := some (Text.trim value) }
    | none, some value =>
      let value := if value.head? = some ' ' then value.tail else value
      .ok { f with data := if f.data.isEmpty then value else f.data ++ '\n' :: value }
    | none, none =>
      .error (.frame ("unexpected line " ++ Text.quoted (String.ofList line)))

/-- The event that the lines of a frame stand for; none for a frame without content. -/
def Fields.event? (f : Fields) : Except PayloadError (Option Event) :=
  match f.name with
  | none =>
    if f.data.isEmpty then .ok none else .error (.frame "data without an event name")
  | some name =>
    if name = "query".toList then
      match Entry.parse? f.data with
      | some entry => .ok (some (.query entry))
      | none => .error .json
    else if name = "done".toList then .ok (some .done)
    else .error (.frame ("unknown event " ++ Text.quoted (String.ofList name)))

/-- Reads a frame without its closing blank line. -/
def readFrame (frame : List Char) : Except PayloadError (Option Event) := do
  ((lines frame).foldlM Fields.addLine {}).bind Fields.event?

/-- What is read of a stream so far. -/
structure Decoder where
  /-- The beginning of a frame whose end has not come. -/
  buffer : List Char := []
  /-- Whether the end of the stream was announced. -/
  isDone : Bool := false

/-- Takes complete frames off the buffer. A faulty frame is taken off too and ends the call. -/
def Decoder.drain (buffer : List Char) (isDone : Bool) :
    Except PayloadError (List Event) × Decoder :=
  match _h : Text.cut? ['\n', '\n'] buffer with
  | none => (.ok [], ⟨buffer, isDone⟩)
  | some (frame, rest) =>
    match readFrame frame with
    | .error e => (.error e, ⟨rest, isDone⟩)
    | .ok none => drain rest isDone
    | .ok (some event) =>
      let (events, d) := drain rest (isDone || event.isDone)
      (events.map (event :: ·), d)
termination_by buffer.length
decreasing_by
  all_goals
    have := congrArg List.length (Text.eq_append_of_cut? _h)
    simp at this
    omega

/-- Takes in a piece of the stream and gives the events that it completes. -/
def Decoder.feed (d : Decoder) (chunk : List Char) : Except PayloadError (List Event) × Decoder :=
  drain (d.buffer ++ Text.replaceAll ['\r', '\n'] ['\n'] chunk) d.isDone

end Rivulet.Query.Prefetch
