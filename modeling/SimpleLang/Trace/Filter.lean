import SimpleLang.Trace

/-!
# Filters of traces

A filter tells which entries are kept. It is written as a list of directives with commas between
them: a level for everything, a target, or a target and its level. A directive applies to all
targets that start with its own, and the one with the longest target decides.

A `Logger` takes its filter once: from the first request, or from the environment if that names
none, or the default. A malformed filter is reported and the default is taken instead.

How filters are written and what they keep is a convention of logging, not one of the language.
`Filter.read?` and `Filter.keeps` follow it as far as loggers are asked for here, and nothing that
is proved about programs rests on this module: a `Trace` is the same whatever is kept of it.
-/

namespace SimpleLang

namespace Trace

/-- How much is told: up to a level, or nothing. -/
inductive Threshold where
  | off
  | upTo (level : Level)
deriving DecidableEq, Repr

namespace Threshold

def admits : Threshold → Level → Bool
  | off, _ => false
  | upTo most, level => level.verbosity ≤ most.verbosity

/-- Reads a level by its name, in upper or lower case, or by its number. -/
def read? (text : String) : Option Threshold :=
  match String.ofList (text.toList.map Char.toLower) with
  | "off" | "0" => some off
  | "error" | "1" => some (upTo .error)
  | "warn" | "2" => some (upTo .warn)
  | "info" | "3" => some (upTo .info)
  | "debug" | "4" => some (upTo .debug)
  | "trace" | "5" => some (upTo .trace)
  | _ => none

end Threshold

/-- A directive: what is told about the targets that start with `target`. -/
structure Directive where
  target : String
  threshold : Threshold
deriving DecidableEq, Repr

namespace Directive

def inTarget (c : Char) : Bool := c.isAlphanum || c == '_' || c == ':' || c == '-'

/-- Reads a directive. A target alone, or with nothing behind the equals sign, is told about in
full. -/
def read? (text : String) : Option Directive :=
  match Threshold.read? text with
  | some threshold => some ⟨"", threshold⟩
  | none =>
    let target := text.toList.takeWhile inTarget
    if target = [] then none
    else
      match text.toList.dropWhile inTarget with
      | [] | ['='] => some ⟨String.ofList target, .upTo .trace⟩
      | '=' :: level => (Threshold.read? (String.ofList level)).map (⟨String.ofList target, ·⟩)
      | _ => none

def applies (d : Directive) (target : String) : Bool :=
  d.target.toList.isPrefixOf target.toList

end Directive

abbrev Filter := List Directive

namespace Filter

def readAll? : List String → Option Filter
  | [] => some []
  | text :: rest => do
    let first ← Directive.read? text
    return first :: (← readAll? rest)

/-- Reads a filter. The empty text is the filter that keeps nothing. -/
def read? (text : String) : Option Filter :=
  if text = "" then some [] else readAll? (text.splitOn ",")

/-- The filter that is taken if no other is given. -/
def default : Filter := [⟨"", .upTo .info⟩]

/-- The directive that decides about a target: the one with the longest target, and of equals the
last. -/
def deciding? (f : Filter) (target : String) : Option Directive :=
  f.foldl (fun best d =>
    if d.applies target then
      match best with
      | some b => if b.target.length ≤ d.target.length then some d else best
      | none => some d
    else best) none

/-- Whether entries about a target are kept at a level. -/
def keeps (f : Filter) (target : String) (level : Level) : Bool :=
  match f.deciding? target with
  | some d => d.threshold.admits level
  | none => false

end Filter

/-! ## Loggers -/

inductive Receiver where
  | nobody
  /-- One that was there before and takes everything. -/
  | foreign
  | filtered (filter : Filter)
deriving DecidableEq, Repr

/-- A logger: who receives the entries, whether it has been asked before, and how many malformed
filters it has reported. -/
structure Logger where
  receiver : Receiver
  asked : Bool
  warnings : Nat
deriving DecidableEq, Repr

namespace Logger

/-- The logger of a fresh process, with a foreign receiver or without one. -/
def fresh (foreign : Bool) : Logger :=
  { receiver := if foreign then .foreign else .nobody, asked := false, warnings := 0 }

/-- The filter that a request asks for. An empty request asks for nothing. -/
def requested (request environment : Option String) : Option String :=
  match request with
  | some text => if text = "" then environment else some text
  | none => environment

/-- Asks for a filter. Only the first request matters, and only if nobody receives yet. -/
def init (l : Logger) (environment request : Option String) : Logger :=
  if l.asked then l
  else if l.receiver ≠ .nobody then { l with asked := true }
  else
    match requested request environment with
    | none => { l with receiver := .filtered .default, asked := true }
    | some text =>
      match Filter.read? text with
      | some f => { l with receiver := .filtered f, asked := true }
      | none =>
        { receiver := .filtered .default, asked := true, warnings := l.warnings + 1 }

/-- Whether entries about a target are received at a level. -/
def enabled (l : Logger) (target : String) (level : Level) : Bool :=
  match l.receiver with
  | .nobody => false
  | .foreign => true
  | .filtered f => f.keeps target level

end Logger

end Trace

end SimpleLang
