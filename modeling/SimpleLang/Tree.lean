import SimpleLang.Lexeme
import SimpleLang.Source.Span

/-!
# Parse trees

A `Node` records which rule of the grammar a stretch of source matched, the text it covers and its
children. Trees come from the parser or are built by hand, and whoever reads one asks only about
structure: the kind of a node, its children of a kind, its text.
-/

namespace SimpleLang

/-- The categories of the leaves. -/
inductive TokenKind where
  | integer | float | string | boolean | name
  /-- Operators before or between operands. -/
  | operator
  | keyword
  /-- Delimiters and separators, the equals sign and the arrow among them. -/
  | punctuation
deriving DecidableEq, Repr

namespace TokenKind

/-- Every category once. -/
def all : List TokenKind :=
  [integer, float, string, boolean, name, operator, keyword, punctuation]

def label : TokenKind → String
  | integer => "Int"
  | float => "Float"
  | string => "Str"
  | boolean => "Bool"
  | name => "Ident"
  | operator => "Operator"
  | keyword => "Keyword"
  | punctuation => "Punct"

def ofLexeme : Lexeme → TokenKind
  | .integer _ => integer
  | .float _ => float
  | .string _ => string
  | .ident _ => name
  | .keyword .trueWord | .keyword .falseWord => boolean
  | .keyword .letWord | .keyword .fnWord | .keyword .returnWord | .keyword .ifWord
  | .keyword .elseWord | .keyword .whileWord => keyword
  | .symbol s => if s = .bang ∨ s.binary?.isSome then operator else punctuation
  | .eof => punctuation

end TokenKind

/-- The rules of the grammar, and the leaves. -/
inductive NodeKind where
  | program | statement | declaration | assignment | function | returning | conditional | loop
  | block | expression | primary | parameters | arguments | array | lambda
  | token (kind : TokenKind)
deriving DecidableEq, Repr

namespace NodeKind

/-- Every kind once. -/
def all : List NodeKind :=
  [program, statement, declaration, assignment, function, returning, conditional, loop, block,
    expression, primary, parameters, arguments, array, lambda] ++ TokenKind.all.map token

/-- The name of the rule, or of the category of a leaf. -/
def label : NodeKind → String
  | program => "Program"
  | statement => "Statement"
  | declaration => "VariableDeclaration"
  | assignment => "Assignment"
  | function => "FunctionDefinition"
  | returning => "ReturnStatement"
  | conditional => "IfStatement"
  | loop => "WhileStatement"
  | block => "Block"
  | expression => "Expression"
  | primary => "Primary"
  | parameters => "ParameterList"
  | arguments => "ArgumentList"
  | array => "ArrayLiteral"
  | lambda => "LambdaExpression"
  | token kind => kind.label

def ofLabel? (text : String) : Option NodeKind := all.find? (·.label == text)

def isToken : NodeKind → Bool
  | token _ => true
  | _ => false

end NodeKind

/-- A node of a parse tree. -/
structure Node where
  kind : NodeKind
  /-- The text that the node covers. -/
  text : String
  span : Span
  /-- Set on function definitions whose body is an expression behind an arrow. -/
  arrow : Bool
  children : List Node

namespace Node

/-! ## Building nodes -/

def plain (kind : NodeKind) (text : String) (span : Span) (children : List Node) : Node :=
  { kind, text, span, arrow := false, children }

/-- A node whose text is what its span covers in a source. -/
def covering (source : String) (kind : NodeKind) (span : Span) (children : List Node) : Node :=
  plain kind (span.excerpt source) span children

def leaf (kind : TokenKind) (text : String) (span : Span) : Node :=
  plain (.token kind) text span []

/-- A node made of its children alone: it covers their spans, and its text is theirs with single
spaces between. -/
def ofChildren (kind : NodeKind) (children : List Node) : Node :=
  plain kind (" ".intercalate (children.map text))
    ((Span.cover? (children.map span)).getD .nowhere) children

/-! ## Asking about structure -/

def child? (n : Node) (kind : NodeKind) : Option Node := n.children.find? (·.kind == kind)

def childrenOf (n : Node) (kind : NodeKind) : List Node := n.children.filter (·.kind == kind)

def has (n : Node) (kind : NodeKind) : Bool := (n.child? kind).isSome

/-- Whether the node is a leaf with exactly this text. -/
def isToken (n : Node) (text : String) : Bool := n.kind.isToken && n.text == text

mutual
/-- Number of nodes in the tree. -/
def size : Node → Nat
  | ⟨_, _, _, _, children⟩ => 1 + sizeList children
/-- Number of nodes in a list of trees. -/
def sizeList : List Node → Nat
  | [] => 0
  | n :: rest => n.size + sizeList rest
end

theorem size_eq (n : Node) : n.size = 1 + sizeList n.children := by
  cases n
  rw [size]

/-- Induction over trees. The recursor also asks for lists of nodes, where this has the children of
a node. -/
theorem induction {P : Node → Prop} (step : ∀ n : Node, (∀ c ∈ n.children, P c) → P n)
    (n : Node) : P n :=
  @Node.rec P (fun ns => ∀ c ∈ ns, P c) (fun _ _ _ _ _ ih => step _ ih)
    (fun _ h => absurd h List.not_mem_nil)
    (fun _ _ hfirst hothers => List.forall_mem_cons.mpr ⟨hfirst, hothers⟩) n

/-! ## Equality -/

mutual
def decEq : (a b : Node) → Decidable (a = b)
  | ⟨k, t, s, r, c⟩, ⟨k', t', s', r', c'⟩ =>
    if h : k = k' ∧ t = t' ∧ s = s' ∧ r = r' then
      match decEqList c c' with
      | isTrue hc => isTrue (by rw [h.1, h.2.1, h.2.2.1, h.2.2.2, hc])
      | isFalse hc => isFalse (by intro e; cases e; exact hc rfl)
    else isFalse (by intro e; cases e; exact h ⟨rfl, rfl, rfl, rfl⟩)
def decEqList : (a b : List Node) → Decidable (a = b)
  | [], [] => isTrue rfl
  | [], _ :: _ => isFalse (by simp)
  | _ :: _, [] => isFalse (by simp)
  | a :: as, b :: bs =>
    match decEq a b, decEqList as bs with
    | isTrue h, isTrue hs => isTrue (by rw [h, hs])
    | isFalse h, _ => isFalse (by intro e; cases e; exact h rfl)
    | _, isFalse hs => isFalse (by intro e; cases e; exact hs rfl)
end

instance : DecidableEq Node := decEq

end Node

end SimpleLang
