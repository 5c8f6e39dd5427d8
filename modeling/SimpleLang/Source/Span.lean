/-!
# Ranges of a source text

A `Span` is a half-open range of UTF-8 byte offsets. Everything the front end reports (tokens,
tree nodes, diagnostics) is located by one. Offsets are kept in 32 bits, so `Span.between` reduces
them; for a text below 4 GiB nothing is lost.

* `Span.merge` and `Span.cover?` give the smallest range around two ranges or a list of them.
* `Span.excerpt` reads the text that a range covers.
-/

namespace SimpleLang

structure Span where
  /-- Offset of the first byte. -/
  start : Nat
  /-- Offset just after the last byte. -/
  stop : Nat
deriving DecidableEq, Repr, Inhabited

namespace Span

/-- How many offsets 32 bits can tell apart. -/
def offsetCount : Nat := 0x100000000

/-- The range between two offsets of a text, each kept in 32 bits: an offset from 4 GiB on is told
wrong. -/
def between (start stop : Nat) : Span :=
  ⟨start % offsetCount, stop % offsetCount⟩

/-- The range of whatever has no place in a source text. -/
def nowhere : Span := ⟨0, 0⟩

def empty (offset : Nat) : Span := ⟨offset, offset⟩

/-- The smallest range that covers both. -/
def merge (a b : Span) : Span :=
  ⟨min a.start b.start, max a.stop b.stop⟩

/-- The smallest range that covers all the given ones, if there are any. -/
def cover? : List Span → Option Span
  | [] => none
  | s :: rest => some (rest.foldl merge s)

/-- Number of bytes in the range; a range that ends before it starts has none. -/
def length (s : Span) : Nat := s.stop - s.start

/-- The text that the range covers. It is empty if the range leaves the source or cuts a
character in two, because then the bytes are no text. -/
def excerpt (s : Span) (source : String) : String :=
  if s.stop ≤ source.utf8ByteSize then
    (String.fromUTF8? (source.toUTF8.extract s.start s.stop)).getD ""
  else ""

end Span

end SimpleLang
