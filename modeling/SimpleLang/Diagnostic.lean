import SimpleLang.Source.Span
import SimpleLang.Source.Location

/-!
# Diagnostics

What the front end and the machine tell their user: a severity, a message, the range it is about,
notes and an optional help line. `Diagnostic.text` is the plain form.

`Diagnostic.report` is what is handed to a `Renderer`, which draws it against the text of the
source. Renderers belong to no part of this library, so results about what they show have a renderer
as a parameter and say what they assume of it. `Renderer.lineFeeds` is one to run.
-/

namespace SimpleLang

inductive Severity where
  | error
  | warning
deriving DecidableEq, Repr

namespace Severity

/-- The word that opens the plain form. -/
def label : Severity → String
  | .error => "error"
  | .warning => "warning"

/-- The word that opens a report. -/
def title : Severity → String
  | .error => "Error"
  | .warning => "Warning"

end Severity

/-- A message about a range of a source text. -/
structure Diagnostic where
  severity : Severity
  message : String
  span : Span
  notes : List String
  help : Option String
deriving DecidableEq, Repr

namespace Diagnostic

def error (message : String) (span : Span) : Diagnostic :=
  { severity := .error, message, span, notes := [], help := none }

def withNote (d : Diagnostic) (note : String) : Diagnostic :=
  { d with notes := d.notes ++ [note] }

def withHelp (d : Diagnostic) (help : String) : Diagnostic :=
  { d with help := some help }

def isError (d : Diagnostic) : Bool := d.severity == .error

/-- The plain form: severity and message, then a line for each note and for the help. -/
def text (d : Diagnostic) : String :=
  d.severity.label ++ ": " ++ d.message
    ++ String.join (d.notes.map ("\n  note: " ++ ·))
    ++ (d.help.map ("\n  help: " ++ ·)).getD ""

def title (d : Diagnostic) : String := d.severity.title ++ ": " ++ d.message

end Diagnostic

/-! ## Reports -/

inductive Color where
  | red
  | yellow
deriving DecidableEq, Repr

def Severity.color : Severity → Color
  | .error => .red
  | .warning => .yellow

/-- A stretch of a file that is marked, and what is written beside it. -/
structure Label where
  file : String
  start : Nat
  stop : Nat
  message : String
  color : Color
deriving DecidableEq, Repr

/-- What a renderer is given. -/
structure Report where
  kind : Severity
  file : String
  /-- Where in the file the report points. -/
  offset : Nat
  message : String
  label : Label
  notes : List String
  help : Option String
deriving DecidableEq, Repr

/-- The report of a diagnostic. It points where the span starts, with the offsets of the span as
they are. -/
def Diagnostic.report (d : Diagnostic) (file : String) : Report where
  kind := d.severity
  file := file
  offset := d.span.start
  message := d.message
  label :=
    { file, start := d.span.start, stop := d.span.stop, message := d.message,
      color := d.severity.color }
  notes := d.notes
  help := d.help

/-- What draws reports. All that is kept of a drawing is the place it shows. -/
structure Renderer where
  /-- Whether a line of the text starts at an index. -/
  startsLine : (text : Array Char) → (index : Nat) → Bool
  /-- The place that is shown when a report is drawn against a source, if there is one. -/
  shows : Report → (source : String) → Option Location

namespace Renderer

/-- Line and column of the character with an index. -/
def place (r : Renderer) (source : String) (index : Nat) : Location :=
  .ofIndex (r.startsLine source.toList.toArray) index

/-- Whether there is a line feed before an index, and something behind it. -/
def startsBehindLineFeed (text : Array Char) (index : Nat) : Bool :=
  index < text.size && text[index - 1]? == some '\n'

/-- A renderer that counts characters, and ends lines at line feeds. It shows no place if the text
is empty, or if the report leaves it by more than one character. -/
def lineFeeds : Renderer where
  startsLine := startsBehindLineFeed
  shows report source :=
    let text := source.toList.toArray
    if text.size = 0 ∨ text.size < report.offset ∨
        (report.label.start < report.label.stop ∧ text.size < report.label.stop - 1) then none
    else some (.ofIndex (startsBehindLineFeed text) report.offset)

end Renderer

/-- The place that `Renderer.lineFeeds` shows for a diagnostic, in whatever file. -/
def Diagnostic.location? (d : Diagnostic) (source : String) : Option Location :=
  Renderer.lineFeeds.shows (d.report "") source

end SimpleLang
