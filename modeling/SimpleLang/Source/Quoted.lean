import SimpleLang.Source.Hidden

/-!
# Quoted texts

A text in quotes on a single line. Quotes and backslashes get a backslash, the common control
characters have short forms, and other characters that cannot be seen are given by their code
point.
-/

namespace SimpleLang

namespace Quoted

/-- How a character stands in a quoted text. -/
def escape (c : Char) : List Char :=
  match c with
  | '"' => ['\\', '"']
  | '\\' => ['\\', '\\']
  | '\n' => ['\\', 'n']
  | '\r' => ['\\', 'r']
  | '\t' => ['\\', 't']
  | '\x00' => ['\\', '0']
  | c =>
    if Hidden.isHidden c then ['\\', 'u', '\x7b'] ++ Nat.toDigits 16 c.toNat ++ ['\x7d']
    else [c]

def text (s : String) : String :=
  String.ofList ('"' :: s.toList.flatMap escape ++ ['"'])

def list (texts : List String) : String := "[" ++ ", ".intercalate texts ++ "]"

end Quoted

end SimpleLang
