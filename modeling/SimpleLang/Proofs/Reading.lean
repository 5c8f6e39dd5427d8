import Mathlib
import SimpleLang.Proofs.Parser.Levels

/-!
# Readings: what the parser accepts, as a relation

`Reads source rule input nodes rest` says that the tokens `input` start with a stretch that is read
by `rule` as `nodes`, and that `rest` is what is left behind it. It is the accepting part of the
parser and nothing else: no limit on the nesting, no errors, no recovery. Where the parser decides
by the lexeme at the cursor, the rule has that lexeme as a premise, so every stretch has at most one
reading and the relation says which of the readings of an ambiguous text is meant.

* `Rule` lists the routines of the grammar, `Reads` has one constructor for each way through them.
* `Reads.suffix`: a reading takes a stretch off the front of its input, and `Reads.length_lt`: by
  the rules that stand for a whole construct it takes at least one token.
* `Reads.head`: what a reading can start with, by its rule.
* `Reads.no_assign`: no expression that a semicolon ends looks like an assignment.
-/

namespace SimpleLang

/-! ## Nodes of a reading -/

/-- The leaf of a token. -/
def Node.ofToken (source : String) (t : Token) : Node :=
  .covering source (.token (.ofLexeme t.lexeme)) t.span []

/-- The node above some children; if there are none it covers the empty range at an offset. -/
def Node.above (source : String) (kind : NodeKind) (children : List Node) (offset : Nat := 0) :
    Node :=
  .covering source kind ((Span.cover? (children.map Node.span)).getD (.empty offset)) children

def Node.primaryOf (source : String) (inner : Node) : Node :=
  .above source .expression [.above source .primary [inner]]

/-- The call of a callee between its parentheses. -/
def Node.callOf (source : String) (callee : Node) (opening : Token) (values : List Node)
    (closing : Token) : Node :=
  .above source .expression
    [callee, .ofToken source opening, .above source .arguments values closing.span.start,
      .ofToken source closing]

/-- A function definition, marked as one with an arrow or not. -/
def Node.functionOf (source : String) (arrow : Bool) (parts : List Node) : Node :=
  { Node.above source .function parts with arrow }

/-! ## Classes of lexemes -/

namespace Lexeme

/-- The lexemes that are an expression of their own, names apart. -/
def isLiteral : Lexeme → Bool
  | integer _ | float _ | string _ | keyword .trueWord | keyword .falseWord => true
  | _ => false

/-- The lexemes that an expression can start with. -/
def startsExpression : Lexeme → Bool
  | ident _ | symbol .leftBracket | symbol .leftParen | symbol .bang => true
  | l => l.isLiteral

/-- Whether a chain of operators that bind at least as tightly as `minimum` ends before the
lexeme. -/
def endsOperations (minimum : Nat) (l : Lexeme) : Prop :=
  ∀ op, l.binary? = some op → op.precedence < minimum

end Lexeme

/-! ## Parameters -/

/-- Names with commas between them, read as their leaves and those of the commas. -/
inductive ReadsNames (source : String) : List Token → List Node → List Token → Prop where
  | last {t u : Token} {x : String} {rest : List Token} (hname : t.lexeme = .ident x)
      (hend : u.lexeme ≠ .symbol .comma) :
      ReadsNames source (t :: u :: rest) [.ofToken source t] (u :: rest)
  | more {t u : Token} {x : String} {ts rest : List Token} {ns : List Node}
      (hname : t.lexeme = .ident x) (hcomma : u.lexeme = .symbol .comma)
      (hmore : ReadsNames source ts ns rest) :
      ReadsNames source (t :: u :: ts) (.ofToken source t :: .ofToken source u :: ns) rest

/-- The parameters before a closing parenthesis, read as one node if there are any. -/
inductive ReadsParameters (source : String) : List Token → List Node → List Token → Prop where
  | none {t : Token} {ts : List Token} (hclose : t.lexeme = .symbol .rightParen) :
      ReadsParameters source (t :: ts) [] (t :: ts)
  | some {ts rest : List Token} {ns : List Node} (hnames : ReadsNames source ts ns rest) :
      ReadsParameters source ts [.above source .parameters ns] rest

/-! ## Readings -/

/-- The routines of the grammar. -/
inductive Rule where
  | statement
  /-- Statements up to a closing brace or the end. -/
  | statements
  | block
  /-- A keyword, an expression in parentheses and a statement. -/
  | conditionAndBody
  /-- An expression whose operators bind at least as tightly as `minimum`. -/
  | expression (minimum : Nat)
  /-- The operators behind a left operand that bind at least as tightly as `minimum`. -/
  | operations (minimum : Nat) (left : Node)
  | operand
  /-- The calls behind a callee. -/
  | calls (callee : Node)
  | primary
  /-- The arrow and the body of a lambda behind its parameters. -/
  | lambda (head : List Node)
  /-- One or more expressions with commas between them. -/
  | expressions
  /-- Any number of expressions before a closing symbol. -/
  | expressionsUnless (closing : Symbol)

open Node in
/-- The tokens start with a stretch that a rule reads as nodes, and go on with the last list. -/
inductive Reads (source : String) : Rule → List Token → List Node → List Token → Prop where
  -- sequences of statements
  | stop {t : Token} {ts : List Token}
      (hend : t.lexeme = .symbol .rightBrace ∨ t.lexeme = .eof) :
      Reads source .statements (t :: ts) [] (t :: ts)
  | next {ts mid rest : List Token} {n : Node} {ns : List Node}
      (hfirst : Reads source .statement ts [n] mid)
      (hothers : Reads source .statements mid ns rest) :
      Reads source .statements ts (n :: ns) rest
  | block {t₀ t₁ : Token} {ts rest : List Token} {ns : List Node}
      (hopen : t₀.lexeme = .symbol .leftBrace)
      (hbody : Reads source .statements ts ns (t₁ :: rest))
      (hclose : t₁.lexeme = .symbol .rightBrace) :
      Reads source .block (t₀ :: ts)
        [above source .block (ofToken source t₀ :: ns ++ [ofToken source t₁])] rest
  -- statements
  | declare {t₀ t₁ t₂ : Token} {x : String} {rest : List Token}
      (hword : t₀.lexeme = .keyword .letWord) (hname : t₁.lexeme = .ident x)
      (hend : t₂.lexeme = .symbol .semicolon) :
      Reads source .statement (t₀ :: t₁ :: t₂ :: rest)
        [above source .statement
          [above source .declaration [ofToken source t₀, ofToken source t₁],
            ofToken source t₂]] rest
  | declareValue {t₀ t₁ t₂ t₃ : Token} {x : String} {ts rest : List Token} {v : Node}
      (hword : t₀.lexeme = .keyword .letWord) (hname : t₁.lexeme = .ident x)
      (hsign : t₂.lexeme = .symbol .assign)
      (hvalue : Reads source (.expression 0) ts [v] (t₃ :: rest))
      (hend : t₃.lexeme = .symbol .semicolon) :
      Reads source .statement (t₀ :: t₁ :: t₂ :: ts)
        [above source .statement
          [above source .declaration
              [ofToken source t₀, ofToken source t₁, ofToken source t₂, v],
            ofToken source t₃]] rest
  | assign {t₀ t₁ t₂ : Token} {x : String} {ts rest : List Token} {v : Node}
      (hname : t₀.lexeme = .ident x) (hsign : t₁.lexeme = .symbol .assign)
      (hvalue : Reads source (.expression 0) ts [v] (t₂ :: rest))
      (hend : t₂.lexeme = .symbol .semicolon) :
      Reads source .statement (t₀ :: t₁ :: ts)
        [above source .statement
          [above source .assignment [ofToken source t₀, ofToken source t₁, v],
            ofToken source t₂]] rest
  | functionValue {t₀ t₁ t₂ t₃ t₄ t₅ : Token} {x : String} {ts us rest : List Token}
      {ps : List Node} {v : Node}
      (hword : t₀.lexeme = .keyword .fnWord) (hname : t₁.lexeme = .ident x)
      (hopen : t₂.lexeme = .symbol .leftParen)
      (hparams : ReadsParameters source ts ps (t₃ :: t₄ :: us))
      (hclose : t₃.lexeme = .symbol .rightParen) (hsign : t₄.lexeme = .symbol .arrow)
      (hvalue : Reads source (.expression 0) us [v] (t₅ :: rest))
      (hend : t₅.lexeme = .symbol .semicolon) :
      Reads source .statement (t₀ :: t₁ :: t₂ :: ts)
        [above source .statement
          [functionOf source true
            (ofToken source t₀ :: ofToken source t₁ :: ofToken source t₂ :: ps ++
              [ofToken source t₃, ofToken source t₄, v, ofToken source t₅])]] rest
  | functionBlock {t₀ t₁ t₂ t₃ : Token} {x : String} {ts us rest : List Token}
      {ps : List Node} {b : Node}
      (hword : t₀.lexeme = .keyword .fnWord) (hname : t₁.lexeme = .ident x)
      (hopen : t₂.lexeme = .symbol .leftParen)
      (hparams : ReadsParameters source ts ps (t₃ :: us))
      (hclose : t₃.lexeme = .symbol .rightParen)
      (hbody : Reads source .block us [b] rest) :
      Reads source .statement (t₀ :: t₁ :: t₂ :: ts)
        [above source .statement
          [functionOf source false
            (ofToken source t₀ :: ofToken source t₁ :: ofToken source t₂ :: ps ++
              [ofToken source t₃, b])]] rest
  | returnNothing {t₀ t₁ : Token} {rest : List Token}
      (hword : t₀.lexeme = .keyword .returnWord) (hend : t₁.lexeme = .symbol .semicolon) :
      Reads source .statement (t₀ :: t₁ :: rest)
        [above source .statement [above source .returning [ofToken source t₀], ofToken source t₁]]
        rest
  | returnValue {t₀ t₁ : Token} {ts rest : List Token} {v : Node}
      (hword : t₀.lexeme = .keyword .returnWord)
      (hvalue : Reads source (.expression 0) ts [v] (t₁ :: rest))
      (hend : t₁.lexeme = .symbol .semicolon) :
      Reads source .statement (t₀ :: ts)
        [above source .statement
          [above source .returning [ofToken source t₀, v], ofToken source t₁]] rest
  | conditionAndBody {t₀ t₁ t₂ : Token} {ts us rest : List Token} {c b : Node}
      (hopen : t₁.lexeme = .symbol .leftParen)
      (htest : Reads source (.expression 0) ts [c] (t₂ :: us))
      (hclose : t₂.lexeme = .symbol .rightParen)
      (hbody : Reads source .statement us [b] rest) :
      Reads source .conditionAndBody (t₀ :: t₁ :: ts)
        [ofToken source t₀, ofToken source t₁, c, ofToken source t₂, b] rest
  | conditional {t₀ t₁ : Token} {ts rest : List Token} {parts : List Node}
      (hword : t₀.lexeme = .keyword .ifWord)
      (hhead : Reads source .conditionAndBody (t₀ :: ts) parts (t₁ :: rest))
      (hend : t₁.lexeme ≠ .keyword .elseWord) :
      Reads source .statement (t₀ :: ts)
        [above source .statement [above source .conditional parts]] (t₁ :: rest)
  | conditionalElse {t₀ t₁ : Token} {ts us rest : List Token} {parts : List Node} {no : Node}
      (hword : t₀.lexeme = .keyword .ifWord)
      (hhead : Reads source .conditionAndBody (t₀ :: ts) parts (t₁ :: us))
      (helse : t₁.lexeme = .keyword .elseWord)
      (hno : Reads source .statement us [no] rest) :
      Reads source .statement (t₀ :: ts)
        [above source .statement
          [above source .conditional (parts ++ [ofToken source t₁, no])]] rest
  | loop {t₀ : Token} {ts rest : List Token} {parts : List Node}
      (hword : t₀.lexeme = .keyword .whileWord)
      (hhead : Reads source .conditionAndBody (t₀ :: ts) parts rest) :
      Reads source .statement (t₀ :: ts)
        [above source .statement [above source .loop parts]] rest
  | blockStatement {ts rest : List Token} {b : Node}
      (hblock : Reads source .block ts [b] rest) :
      Reads source .statement ts [above source .statement [b]] rest
  | expressionStatement {t : Token} {ts rest : List Token} {v : Node}
      (hvalue : Reads source (.expression 0) ts [v] (t :: rest))
      (hend : t.lexeme = .symbol .semicolon) :
      Reads source .statement ts [above source .statement [v, ofToken source t]] rest
  -- operators
  | expression {minimum : Nat} {ts mid rest : List Token} {left n : Node}
      (hleft : Reads source .operand ts [left] mid)
      (hmore : Reads source (.operations minimum left) mid [n] rest) :
      Reads source (.expression minimum) ts [n] rest
  | operationsEnd {minimum : Nat} {left : Node} {t : Token} {ts : List Token}
      (hend : t.lexeme.endsOperations minimum) :
      Reads source (.operations minimum left) (t :: ts) [left] (t :: ts)
  | operation {minimum : Nat} {op : Operation} {left right n : Node} {t : Token}
      {ts mid rest : List Token}
      (hop : t.lexeme.binary? = some op) (hmin : minimum ≤ op.precedence)
      (hright : Reads source (.expression (op.precedence + 1)) ts [right] mid)
      (hmore : Reads source
        (.operations minimum (above source .expression [left, ofToken source t, right]))
        mid [n] rest) :
      Reads source (.operations minimum left) (t :: ts) [n] rest
  | negation {t : Token} {ts rest : List Token} {inner : Node}
      (hsign : t.lexeme = .symbol .bang)
      (hinner : Reads source .operand ts [inner] rest) :
      Reads source .operand (t :: ts) [above source .expression [ofToken source t, inner]] rest
  | operand {ts mid rest : List Token} {p n : Node}
      (hprimary : Reads source .primary ts [p] mid)
      (hmore : Reads source (.calls p) mid [n] rest) :
      Reads source .operand ts [n] rest
  -- calls
  | callsEnd {callee : Node} {t : Token} {ts : List Token}
      (hend : t.lexeme ≠ .symbol .leftParen) :
      Reads source (.calls callee) (t :: ts) [callee] (t :: ts)
  | call {callee n : Node} {t₀ t₁ : Token} {ts us rest : List Token} {values : List Node}
      (hopen : t₀.lexeme = .symbol .leftParen)
      (hvalues : Reads source (.expressionsUnless .rightParen) ts values (t₁ :: us))
      (hclose : t₁.lexeme = .symbol .rightParen)
      (hmore : Reads source (.calls (callOf source callee t₀ values t₁)) us [n] rest) :
      Reads source (.calls callee) (t₀ :: ts) [n] rest
  | noExpressions {closing : Symbol} {t : Token} {ts : List Token}
      (hclose : t.lexeme = .symbol closing) :
      Reads source (.expressionsUnless closing) (t :: ts) [] (t :: ts)
  | someExpressions {closing : Symbol} {ts rest : List Token} {ns : List Node}
      (hsome : Reads source .expressions ts ns rest) :
      Reads source (.expressionsUnless closing) ts ns rest
  | lastExpression {t : Token} {ts rest : List Token} {n : Node}
      (hlast : Reads source (.expression 0) ts [n] (t :: rest))
      (hend : t.lexeme ≠ .symbol .comma) :
      Reads source .expressions ts [n] (t :: rest)
  | moreExpressions {t : Token} {ts us rest : List Token} {n : Node} {ns : List Node}
      (hfirst : Reads source (.expression 0) ts [n] (t :: us))
      (hcomma : t.lexeme = .symbol .comma)
      (hmore : Reads source .expressions us ns rest) :
      Reads source .expressions ts (n :: ofToken source t :: ns) rest
  -- primaries
  | literal {t : Token} {ts : List Token} (hliteral : t.lexeme.isLiteral) :
      Reads source .primary (t :: ts) [primaryOf source (ofToken source t)] ts
  | name {t₀ t₁ : Token} {x : String} {ts : List Token}
      (hname : t₀.lexeme = .ident x) (hend : t₁.lexeme ≠ .symbol .arrow) :
      Reads source .primary (t₀ :: t₁ :: ts) [primaryOf source (ofToken source t₀)] (t₁ :: ts)
  | array {t₀ t₁ : Token} {ts rest : List Token} {values : List Node}
      (hopen : t₀.lexeme = .symbol .leftBracket)
      (hvalues : Reads source (.expressionsUnless .rightBracket) ts values (t₁ :: rest))
      (hclose : t₁.lexeme = .symbol .rightBracket) :
      Reads source .primary (t₀ :: ts)
        [primaryOf source
          (above source .array (ofToken source t₀ :: values ++ [ofToken source t₁]))] rest
  | group {t₀ t₁ : Token} {ts rest : List Token} {inner : Node}
      (hopen : t₀.lexeme = .symbol .leftParen) (hahead : Parser.opensLambda ts = false)
      (hinner : Reads source (.expression 0) ts [inner] (t₁ :: rest))
      (hclose : t₁.lexeme = .symbol .rightParen) :
      Reads source .primary (t₀ :: ts)
        [above source .expression [ofToken source t₀, inner, ofToken source t₁]] rest
  -- lambdas
  | nameLambda {t₀ t₁ : Token} {x : String} {ts rest : List Token} {n : Node}
      (hname : t₀.lexeme = .ident x) (hsign : t₁.lexeme = .symbol .arrow)
      (hbody : Reads source (.lambda [above source .parameters [ofToken source t₀]])
        (t₁ :: ts) [n] rest) :
      Reads source .primary (t₀ :: t₁ :: ts) [n] rest
  | parenthesizedLambda {t₀ t₁ : Token} {ts us rest : List Token} {ps : List Node} {n : Node}
      (hopen : t₀.lexeme = .symbol .leftParen) (hahead : Parser.opensLambda ts = true)
      (hparams : ReadsParameters source ts ps (t₁ :: us))
      (hclose : t₁.lexeme = .symbol .rightParen)
      (hbody : Reads source (.lambda (ofToken source t₀ :: ps ++ [ofToken source t₁]))
        us [n] rest) :
      Reads source .primary (t₀ :: ts) [n] rest
  | lambdaBlock {head : List Node} {t : Token} {ts rest : List Token} {b : Node}
      (hsign : t.lexeme = .symbol .arrow) (hbody : Reads source .block ts [b] rest) :
      Reads source (.lambda head) (t :: ts)
        [primaryOf source (above source .lambda (head ++ [ofToken source t, b]))] rest
  | lambdaValue {head : List Node} {t : Token} {ts rest : List Token} {b : Node}
      (hsign : t.lexeme = .symbol .arrow)
      (hbody : Reads source (.expression 0) ts [b] rest) :
      Reads source (.lambda head) (t :: ts)
        [primaryOf source (above source .lambda (head ++ [ofToken source t, b]))] rest

/-- A single node with a property. -/
def Single (P : Node → Prop) : List Node → Prop
  | [n] => P n
  | _ => False

/-! ## What a reading takes -/

/-- Each name takes its token, and a comma one more. -/
theorem ReadsNames.suffix {source : String} {input rest : List Token} {ns : List Node}
    (h : ReadsNames source input ns rest) : rest <:+ input := by
  induction h with
  | last _ _ => exact List.suffix_cons ..
  | more _ _ _ ih => exact (ih.trans (List.suffix_cons ..)).trans (List.suffix_cons ..)

theorem ReadsParameters.suffix {source : String} {input rest : List Token} {ns : List Node}
    (h : ReadsParameters source input ns rest) : rest <:+ input := by
  cases h with
  | none _ => exact List.suffix_rfl
  | some hnames => exact hnames.suffix

/-- What is left behind a reading is the end of its input. -/
theorem Reads.suffix {source : String} {rule : Rule} {input rest : List Token} {ns : List Node}
    (h : Reads source rule input ns rest) : rest <:+ input := by
  induction h with
  -- the parameters are read by a relation of their own, which the induction does not reach
  | functionValue _ _ _ hparams _ _ _ _ ih | functionBlock _ _ _ hparams _ _ ih
  | parenthesizedLambda _ _ hparams _ _ ih =>
    have hmid := hparams.suffix
    grind [List.IsSuffix.trans, List.suffix_cons]
  | _ => grind [List.IsSuffix.trans, List.suffix_cons]

/-- The rules that read a whole construct, as against what may follow or be left out. -/
def Rule.isConstruct : Rule → Bool
  | .statement | .block | .conditionAndBody | .expression _ | .operand | .primary | .lambda _
  | .expressions => true
  | .statements | .operations _ _ | .calls _ | .expressionsUnless _ => false

/-- A construct takes at least one token. -/
theorem Reads.length_lt {source : String} {rule : Rule} {input rest : List Token}
    {ns : List Node} (h : Reads source rule input ns rest) (hrule : rule.isConstruct) :
    rest.length < input.length := by
  induction h with
  -- the operand takes a token, what follows it may take none
  | expression _ hmore ih | operand _ hmore ih =>
    have hle := hmore.suffix.length_le
    exact Nat.lt_of_le_of_lt hle (ih rfl)
  | functionValue _ _ _ hparams _ _ _ _ ih | functionBlock _ _ _ hparams _ _ ih
  | parenthesizedLambda _ _ hparams _ _ ih =>
    have hle := hparams.suffix.length_le
    have hlt := ih rfl
    simp only [List.length_cons] at hle hlt ⊢
    omega
  -- between the brackets there may be nothing, so the bracket is the token that is taken
  | block _ hinside _ | array _ hinside _ =>
    have hle := hinside.suffix.length_le
    simp only [List.length_cons] at hle ⊢
    omega
  | _ => simp_all [Rule.isConstruct] <;> omega

/-! ## What a reading starts with -/

/-- The lexemes that a rule can start with; of the rules that may read nothing none is asked. -/
def Rule.starts : Rule → Lexeme → Bool
  | .statement, .keyword .letWord | .statement, .keyword .fnWord
  | .statement, .keyword .returnWord | .statement, .keyword .ifWord
  | .statement, .keyword .whileWord | .statement, .symbol .leftBrace => true
  | .statement, l | .expression _, l | .operand, l | .primary, l | .expressions, l =>
    l.startsExpression
  | .block, l => l == .symbol .leftBrace
  | .lambda _, l => l == .symbol .arrow
  | .statements, _ | .conditionAndBody, _ | .operations _ _, _ | .calls _, _
  | .expressionsUnless _, _ => true

theorem Lexeme.startsExpression_of_isLiteral {l : Lexeme} (h : l.isLiteral) :
    l.startsExpression := by
  cases l with
  | keyword _ | integer _ | float _ | string _ => exact h
  | symbol _ | ident _ | eof => simp [isLiteral] at h

/-- A lexeme that starts no expression is none that does. -/
theorem Lexeme.ne_of_startsExpression {l l' : Lexeme} (h : l.startsExpression)
    (h' : l'.startsExpression = false) : l ≠ l' := by
  rintro rfl
  simp [h] at h'

/-- An expression can be a statement, so what starts the one starts the other. -/
theorem Rule.statement_starts {l : Lexeme} (h : l.startsExpression) : Rule.statement.starts l := by
  unfold starts
  split <;> simp_all

/-- There is no empty list of names. -/
theorem ReadsNames.head {source : String} {input rest : List Token} {ns : List Node}
    (h : ReadsNames source input ns rest) :
    ∃ t ts x ms, input = t :: ts ∧ t.lexeme = .ident x ∧ ns = .ofToken source t :: ms := by
  cases h with
  | last hname _ => exact ⟨_, _, _, _, rfl, hname, rfl⟩
  | more hname _ _ => exact ⟨_, _, _, _, rfl, hname, rfl⟩

/-- The first token of a reading is one that its rule can start with. -/
theorem Reads.head {source : String} {rule : Rule} {input rest : List Token} {ns : List Node}
    (h : Reads source rule input ns rest) :
    ∃ t ts, input = t :: ts ∧ rule.starts t.lexeme := by
  induction h with
  | next _ _ ih _ =>
    obtain ⟨t, ts, rfl, _⟩ := ih
    exact ⟨t, ts, rfl, rfl⟩
  | blockStatement _ ih =>
    obtain ⟨t, ts, rfl, ht⟩ := ih
    rw [Rule.starts, beq_iff_eq] at ht
    exact ⟨t, ts, rfl, by rw [ht]; rfl⟩
  | expressionStatement _ _ ih =>
    obtain ⟨t, ts, rfl, ht⟩ := ih
    exact ⟨t, ts, rfl, Rule.statement_starts ht⟩
  | expression _ _ ih _ => exact ih
  | operand _ _ ih _ => exact ih
  | someExpressions _ ih =>
    obtain ⟨t, ts, rfl, _⟩ := ih
    exact ⟨t, ts, rfl, rfl⟩
  | lastExpression _ _ ih => exact ih
  | moreExpressions _ _ _ ih _ => exact ih
  | literal hliteral => exact ⟨_, _, rfl, Lexeme.startsExpression_of_isLiteral hliteral⟩
  -- the rule has the lexeme of its first token as a premise
  | _ => simp_all [Rule.starts, Lexeme.startsExpression]

/-- A negation is an operand, not a primary. -/
theorem Reads.primary_ne_bang {source : String} {t : Token} {ts rest : List Token}
    {ns : List Node} (h : Reads source .primary (t :: ts) ns rest) :
    t.lexeme ≠ .symbol .bang := by
  intro hbang
  cases h <;> simp_all [Lexeme.isLiteral]

/-- An expression that a semicolon ends does not start like an assignment: behind a name alone the
reading ends. -/
theorem Reads.no_assign {source : String} {minimum : Nat} {t₀ t₁ u : Token} {ts rest : List Token}
    {n : Node} (h : Reads source (.expression minimum) (t₀ :: t₁ :: ts) [n] (u :: rest))
    (hend : u.lexeme = .symbol .semicolon) {x : String} (hname : t₀.lexeme = .ident x) :
    t₁.lexeme ≠ .symbol .assign := by
  intro hassign
  cases h with
  | expression hleft hmore =>
    cases hleft with
    | negation hsign _ => simp [hname] at hsign
    | operand hprimary hcalls =>
      cases hprimary with
      | literal hliteral => simp [hname, Lexeme.isLiteral] at hliteral
      | array hopen _ _ => simp [hname] at hopen
      | group hopen _ _ _ => simp [hname] at hopen
      | parenthesizedLambda hopen _ _ _ _ => simp [hname] at hopen
      | nameLambda _ hsign _ => simp [hassign] at hsign
      | name _ _ =>
        -- the name is the whole operand, and `=` neither calls it nor joins it to another
        cases hcalls with
        | call hopen _ _ _ => simp [hassign] at hopen
        | callsEnd _ =>
          cases hmore with
          | operation hop _ _ _ => simp [hassign, Lexeme.binary?, Symbol.binary?] at hop
          | operationsEnd _ => simp [hassign] at hend

end SimpleLang
