/-!
# Lines and columns

A `Location` is the place of a character of a text as a reader counts it: lines and columns start at
one. What ends a line is a matter of convention, so `Location.ofIndex` is told where lines start.
-/

namespace SimpleLang

structure Location where
  line : Nat
  column : Nat
deriving DecidableEq, Repr

namespace Location

def first : Location := ⟨1, 1⟩

/-- The place one character further, where a line may start. -/
def step (l : Location) (startsLine : Bool) : Location :=
  if startsLine then ⟨l.line + 1, 1⟩ else ⟨l.line, l.column + 1⟩

/-- The place of the character with an index, in a text that has lines start at certain indices. -/
def ofIndex (startsLine : Nat → Bool) : (index : Nat) → Location
  | 0 => first
  | index + 1 => (ofIndex startsLine index).step (startsLine (index + 1))

def text (l : Location) (file : String) : String :=
  file ++ ":" ++ toString l.line ++ ":" ++ toString l.column

end Location

end SimpleLang
