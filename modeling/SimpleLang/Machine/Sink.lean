/-!
# Sinks

Where the output of programs goes. A `Writer` is given by the states it can be in, by what it does
with a text and by what it does when it is flushed. Both can fail, and then the writer says why. A
`Sink` is a writer in one of its states, with the bytes it has taken: the bytes are what can be seen
of the output, whatever the writer makes of them.

The machine knows nothing else of where it writes to, so what is proved of its runs is true of
every writer. `Writer.limited` is one of them: it is full at some point, or never.
-/

namespace SimpleLang

/-- Why a writer did not take a text. -/
structure Refusal where
  /-- How many bytes it took before it failed. -/
  taken : Nat
  reason : String
deriving DecidableEq, Repr

/-- What a writer does, in each of its states. It can fail whenever it likes, but what a `Refusal`
says it took it cannot take back. -/
structure Writer (W : Type) where
  /-- Takes a text whole, or refuses it. -/
  write : W → String → Option Refusal × W
  /-- Passes on what it has taken, or gives the reason why it does not. -/
  flush : W → Option String × W

namespace Writer

/-- Takes so many bytes in all, none for any number. Of a text that does not fit it takes the part
that does, so it fails exactly where it is full. The state is the number of bytes taken. -/
def limited (capacity : Option Nat) (refusesFlush : Bool) : Writer Nat where
  write taken text :=
    match capacity with
    | none => (none, taken + text.utf8ByteSize)
    | some limit =>
      if taken + text.utf8ByteSize ≤ limit then (none, taken + text.utf8ByteSize)
      else (some ⟨limit - taken, "sink full"⟩, limit)
  flush taken := (if refusesFlush then some "flush refused" else none, taken)

end Writer

/-- A writer at work. The default type of its states is that of `Writer.limited`. -/
structure Sink (W : Type := Nat) where
  writer : Writer W
  state : W
  /-- The bytes it has taken. -/
  bytes : ByteArray

namespace Sink

variable {W : Type}

def empty (writer : Writer W) (state : W) : Sink W := { writer, state, bytes := .empty }

/-- `Writer.limited` before it has taken anything. -/
def new (capacity : Option Nat) (refusesFlush : Bool) : Sink :=
  .empty (.limited capacity refusesFlush) 0

/-- Writes a text. The first component is the reason if not all of it was taken. -/
def write (s : Sink W) (text : String) : Option String × Sink W :=
  match s.writer.write s.state text with
  | (none, state) => (none, { s with state, bytes := s.bytes ++ text.toUTF8 })
  | (some refusal, state) =>
    (some refusal.reason,
      { s with state, bytes := s.bytes ++ text.toUTF8.extract 0 refusal.taken })

/-- Writes texts one after the other, up to the first one that is not taken whole. -/
def writeEach (s : Sink W) : List String → Option String × Sink W
  | [] => (none, s)
  | text :: rest =>
    match s.write text with
    | (none, s') => s'.writeEach rest
    | (some reason, s') => (some reason, s')

/-- Flushes the sink. The first component is the reason if that fails. -/
def flush (s : Sink W) : Option String × Sink W :=
  let (reason?, state) := s.writer.flush s.state
  (reason?, { s with state })

end Sink

end SimpleLang
