import SimpleLang.Source.Quoted
import SimpleLang.Tree
import SimpleLang.Value

/-!
# Outlines

One-line texts that show how a tree or a function is made up, for people who look for a mistake.
-/

namespace SimpleLang

def Span.outline (s : Span) : String :=
  "Span \x7b start: " ++ toString s.start ++ ", end: " ++ toString s.stop ++ " \x7d"

def NodeKind.outline : NodeKind → String
  | .token kind => "Token(" ++ kind.label ++ ")"
  | kind => kind.label

mutual
/-- A tree with all of its parts. -/
def Node.outline : Node → String
  | ⟨kind, text, span, arrow, children⟩ =>
    "ParseNode \x7b kind: " ++ kind.outline ++ ", text: " ++ Quoted.text text
      ++ ", span: " ++ span.outline ++ ", arrow: " ++ (if arrow then "true" else "false")
      ++ ", children: " ++ Quoted.list (Node.outlines children) ++ " \x7d"
def Node.outlines : List Node → List String
  | [] => []
  | n :: rest => n.outline :: Node.outlines rest
end

/-- A function without its body, which may be large, and its scope, which may hold the function. -/
def Closure.outline (c : Closure) : String :=
  let name := match c.name with
    | some f => "Some(" ++ Quoted.text f ++ ")"
    | none => "None"
  "Closure \x7b name: " ++ name ++ ", params: " ++ Quoted.list (c.parameters.map Quoted.text)
    ++ ", .. \x7d"

end SimpleLang
