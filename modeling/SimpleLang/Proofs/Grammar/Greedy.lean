import SimpleLang.Proofs.Grammar

/-!
# Greedy derivations

Of the derivations of an ambiguous text the parser finds the greedy one: the body of a lambda goes
as far as it can, and an `else` belongs to the nearest conditional. `Greedy` is the grammar with
these choices made. An expression is a chain of operands, of which only the last may end in a lambda
with an expression for its body; and where an `else` follows, the statement before it does not end
in a conditional that has none.

* `Greedy`: the derivations with these choices made.
* `Derives.greedily`: what is derived at all is derived greedily. Operators, calls and `else`
  branches behind a lambda or a conditional move into it (`Greedy.operation`, `Greedy.operand_call`,
  `Greedy.otherwise`).
-/

namespace SimpleLang

namespace Grammar

/-- The shapes of a greedy derivation. -/
inductive Shape where
  | statements
  /-- A statement, and whether it ends in a conditional without `else`. -/
  | statement (dangling : Bool)
  | block
  /-- An expression. -/
  | chain
  /-- An operand that ends in a lambda with an expression for its body. -/
  | openOperand
  /-- Any other operand. -/
  | operand
  | call
  /-- A primary other than a lambda with an expression for its body. -/
  | primary
  | expressions | expressionsOption
deriving DecidableEq, Repr

open Lexeme SimpleLang.Symbol Keyword

/-- The parameters of a lambda. -/
inductive LambdaHead : List Lexeme → Prop where
  | name {x : String} : LambdaHead [ident x]
  | parenthesized {u : List Lexeme} (hu : Derives .paramsOption u) :
      LambdaHead (symbol leftParen :: (u ++ [symbol rightParen]))

/-- The lexemes have a greedy derivation of this shape. -/
inductive Greedy : Shape → List Lexeme → Prop where
  | noStatements : Greedy .statements []
  | moreStatements {d : Bool} {u v : List Lexeme} (hu : Greedy (.statement d) u)
      (hv : Greedy .statements v) : Greedy .statements (u ++ v)
  | block {u : List Lexeme} (hu : Greedy .statements u) :
      Greedy .block (symbol leftBrace :: (u ++ [symbol rightBrace]))
  -- statements
  | declare {x : String} : Greedy (.statement false) [keyword letWord, ident x, symbol semicolon]
  | declareValue {x : String} {u : List Lexeme} (hu : Greedy .chain u) :
      Greedy (.statement false)
        (keyword letWord :: ident x :: symbol assign :: (u ++ [symbol semicolon]))
  | assign {x : String} {u : List Lexeme} (hu : Greedy .chain u) :
      Greedy (.statement false) (ident x :: symbol assign :: (u ++ [symbol semicolon]))
  | functionValue {x : String} {u v : List Lexeme} (hu : Derives .paramsOption u)
      (hv : Greedy .chain v) :
      Greedy (.statement false)
        (keyword fnWord :: ident x :: symbol leftParen ::
          (u ++ symbol rightParen :: symbol arrow :: (v ++ [symbol semicolon])))
  | functionBlock {x : String} {u v : List Lexeme} (hu : Derives .paramsOption u)
      (hv : Greedy .block v) :
      Greedy (.statement false)
        (keyword fnWord :: ident x :: symbol leftParen :: (u ++ symbol rightParen :: v))
  | returnNothing : Greedy (.statement false) [keyword returnWord, symbol semicolon]
  | returnValue {u : List Lexeme} (hu : Greedy .chain u) :
      Greedy (.statement false) (keyword returnWord :: (u ++ [symbol semicolon]))
  | conditional {d : Bool} {u v : List Lexeme} (hu : Greedy .chain u)
      (hv : Greedy (.statement d) v) :
      Greedy (.statement true)
        (keyword ifWord :: symbol leftParen :: (u ++ symbol rightParen :: v))
  | conditionalElse {d : Bool} {u v w : List Lexeme} (hu : Greedy .chain u)
      (hv : Greedy (.statement false) v) (hw : Greedy (.statement d) w) :
      Greedy (.statement d)
        (keyword ifWord :: symbol leftParen ::
          (u ++ symbol rightParen :: (v ++ keyword elseWord :: w)))
  | loop {d : Bool} {u v : List Lexeme} (hu : Greedy .chain u) (hv : Greedy (.statement d) v) :
      Greedy (.statement d)
        (keyword whileWord :: symbol leftParen :: (u ++ symbol rightParen :: v))
  | blockStatement {u : List Lexeme} (hu : Greedy .block u) : Greedy (.statement false) u
  | expressionStatement {u : List Lexeme} (hu : Greedy .chain u) :
      Greedy (.statement false) (u ++ [symbol semicolon])
  -- operators
  | last {u : List Lexeme} (hu : Greedy .operand u) : Greedy .chain u
  | lastOpen {u : List Lexeme} (hu : Greedy .openOperand u) : Greedy .chain u
  | more {s : Symbol} {u v : List Lexeme} (hu : Greedy .operand u) (hs : s.binary?.isSome)
      (hv : Greedy .chain v) : Greedy .chain (u ++ symbol s :: v)
  | openLambda {u v : List Lexeme} (hu : LambdaHead u) (hv : Greedy .chain v) :
      Greedy .openOperand (u ++ symbol arrow :: v)
  | openNegation {u : List Lexeme} (hu : Greedy .openOperand u) :
      Greedy .openOperand (symbol bang :: u)
  | negation {u : List Lexeme} (hu : Greedy .operand u) : Greedy .operand (symbol bang :: u)
  | operand {u : List Lexeme} (hu : Greedy .call u) : Greedy .operand u
  | call {u v : List Lexeme} (hu : Greedy .call u) (hv : Greedy .expressionsOption v) :
      Greedy .call (u ++ symbol leftParen :: (v ++ [symbol rightParen]))
  | callee {u : List Lexeme} (hu : Greedy .primary u) : Greedy .call u
  | lastExpression {u : List Lexeme} (hu : Greedy .chain u) : Greedy .expressions u
  | moreExpressions {u v : List Lexeme} (hu : Greedy .chain u) (hv : Greedy .expressions v) :
      Greedy .expressions (u ++ symbol comma :: v)
  | noExpressions : Greedy .expressionsOption []
  | someExpressions {u : List Lexeme} (hu : Greedy .expressions u) : Greedy .expressionsOption u
  -- primaries
  | literal {l : Lexeme} (hl : l.isLiteral) : Greedy .primary [l]
  | name {x : String} : Greedy .primary [ident x]
  | array {u : List Lexeme} (hu : Greedy .expressionsOption u) :
      Greedy .primary (symbol leftBracket :: (u ++ [symbol rightBracket]))
  | group {u : List Lexeme} (hu : Greedy .chain u) :
      Greedy .primary (symbol leftParen :: (u ++ [symbol rightParen]))
  | blockLambda {u v : List Lexeme} (hu : LambdaHead u) (hv : Greedy .block v) :
      Greedy .primary (u ++ symbol arrow :: v)

/-! ## What moves into a lambda or a conditional -/

/-- Lexemes that extend an expression, if only its last operand is extended. The shapes that are no
end of an expression say nothing. -/
def Shape.Absorbs (suffix : List Lexeme) (w : List Lexeme) : Shape → Prop
  | .chain => Greedy .chain (w ++ suffix)
  | .openOperand => Greedy .openOperand (w ++ suffix)
  | _ => True

/-- What can follow the last operand that is no open lambda can follow any expression. -/
theorem Greedy.absorbs {suffix : List Lexeme}
    (hlast : ∀ u, Greedy .operand u → Greedy .chain (u ++ suffix)) {shape : Shape}
    {w : List Lexeme} (h : Greedy shape w) : shape.Absorbs suffix w := by
  induction h with
  | last hu _ => exact hlast _ hu
  | lastOpen _ ih => exact .lastOpen ih
  | more hu hs _ _ ih =>
    show Greedy .chain _
    rw [List.append_assoc]
    exact .more hu hs ih
  -- the body of the lambda takes the suffix
  | openLambda hu _ ih =>
    show Greedy .openOperand _
    rw [List.append_assoc]
    exact .openLambda hu ih
  | openNegation _ ih => exact .openNegation ih
  | _ => trivial

/-- Behind an open lambda the operator and its right operand become part of the body
(`Greedy.absorbs`). -/
theorem Greedy.operation {s : Symbol} {u v : List Lexeme} (hu : Greedy .chain u)
    (hs : s.binary?.isSome) (hv : Greedy .chain v) : Greedy .chain (u ++ symbol s :: v) :=
  hu.absorbs fun _ hw => .more hw hs hv

/-- A call belongs to what a `!` stands before. -/
theorem Greedy.operand_call {u v : List Lexeme} (hu : Greedy .operand u)
    (hv : Greedy .expressionsOption v) :
    Greedy .operand (u ++ symbol leftParen :: (v ++ [symbol rightParen])) := by
  generalize hshape : Shape.operand = shape at hu
  induction hu with
  | negation _ ih => exact .negation (ih hshape)
  | operand hu _ => exact .operand (.call hu hv)
  | _ => cases hshape

/-- A call behind an open lambda belongs to the last operand of its body. -/
theorem Greedy.openOperand_call {u v : List Lexeme} (hu : Greedy .openOperand u)
    (hv : Greedy .expressionsOption v) :
    Greedy .openOperand (u ++ symbol leftParen :: (v ++ [symbol rightParen])) :=
  hu.absorbs fun _ hw => .last (hw.operand_call hv)

/-- An `else` behind a conditional that has none belongs to that one, however deep it is. -/
theorem Greedy.otherwise {d : Bool} {u v : List Lexeme} (hu : Greedy (.statement true) u)
    (hv : Greedy (.statement d) v) :
    ∃ d', Greedy (.statement d') (u ++ keyword elseWord :: v) := by
  -- the induction is on the statement, down to the conditional that is nearest to the `else`
  generalize hshape : Shape.statement true = shape at hu
  induction hu with
  | @conditional d' _ _ hc hb _ ih =>
    cases d' with
    | false => exact ⟨d, by simpa using Greedy.conditionalElse hc hb hv⟩
    | true =>
      -- the branch has an open conditional of its own, nearer to the `else` than this one
      obtain ⟨_, h⟩ := ih rfl
      exact ⟨true, by simpa using Greedy.conditional hc h⟩
  | conditionalElse hc hb _ _ _ ih =>
    obtain ⟨d', h⟩ := ih hshape
    exact ⟨d', by simpa using Greedy.conditionalElse hc hb h⟩
  | loop hc _ _ ih =>
    obtain ⟨d', h⟩ := ih hshape
    exact ⟨d', by simpa using Greedy.loop hc h⟩
  | _ => cases hshape

/-! ## Every derivation can be made greedy -/

/-- The shapes that stand for a nonterminal. -/
def Nonterminal.Greedily (w : List Lexeme) : Nonterminal → Prop
  | .program => ∃ v, w = v ++ [eof] ∧ Greedy .statements v
  | .statements => Greedy .statements w
  | .statement => ∃ d, Greedy (.statement d) w
  | .block => Greedy .block w
  | .params | .paramsOption => True
  | .expression | .binary _ => Greedy .chain w
  | .unary => Greedy .operand w ∨ Greedy .openOperand w
  | .call => Greedy .call w ∨ Greedy .openOperand w
  | .primary | .lambda => Greedy .primary w ∨ Greedy .openOperand w
  | .lambdaBody => Greedy .block w ∨ Greedy .chain w
  | .expressions => Greedy .expressions w
  | .expressionsOption => Greedy .expressionsOption w

/-- The body decides whether anything can move into the lambda. -/
theorem Greedy.lambda {u v : List Lexeme} (hu : LambdaHead u)
    (hv : Greedy .block v ∨ Greedy .chain v) :
    Greedy .primary (u ++ symbol arrow :: v) ∨ Greedy .openOperand (u ++ symbol arrow :: v) :=
  hv.imp (.blockLambda hu) (.openLambda hu)

/-- Whatever is derived is derived greedily. Levels of operators are forgotten on the way: a chain
has its operators side by side, and `chain_reads` finds the levels again. -/
theorem Derives.greedily {n : Nonterminal} {w : List Lexeme} (h : Derives n w) :
    n.Greedily w := by
  induction h with
  | program _ ih => exact ⟨_, rfl, ih⟩
  | noStatements => exact .noStatements
  | moreStatements _ _ ih₁ ih₂ =>
    obtain ⟨d, hu⟩ := ih₁
    exact .moreStatements hu ih₂
  | declare => exact ⟨false, .declare⟩
  | declareValue _ ih => exact ⟨false, .declareValue ih⟩
  | assign _ ih => exact ⟨false, .assign ih⟩
  | functionValue hu _ _ ih => exact ⟨false, .functionValue hu ih⟩
  | functionBlock hu _ _ ih => exact ⟨false, .functionBlock hu ih⟩
  | returnNothing => exact ⟨false, .returnNothing⟩
  | returnValue _ ih => exact ⟨false, .returnValue ih⟩
  | conditional _ _ ih₁ ih₂ =>
    obtain ⟨d, hv⟩ := ih₂
    exact ⟨true, .conditional ih₁ hv⟩
  | conditionalElse _ _ _ ih₁ ih₂ ih₃ =>
    obtain ⟨d₂, hv⟩ := ih₂
    obtain ⟨d₃, hw⟩ := ih₃
    cases d₂ with
    | false => exact ⟨d₃, .conditionalElse ih₁ hv hw⟩
    | true =>
      -- the branch ends in a conditional without `else`, which takes this one
      obtain ⟨_, h⟩ := hv.otherwise hw
      exact ⟨true, .conditional ih₁ h⟩
  | loop _ _ ih₁ ih₂ =>
    obtain ⟨d, hv⟩ := ih₂
    exact ⟨d, .loop ih₁ hv⟩
  | blockStatement _ ih => exact ⟨false, .blockStatement ih⟩
  | expressionStatement _ ih => exact ⟨false, .expressionStatement ih⟩
  | block _ ih => exact .block ih
  | lastParam | moreParams | noParams | someParams => trivial
  | expression _ ih => exact ih
  | tighter _ _ ih => exact ih
  | operation _ hs _ ih₁ ih₂ =>
    -- where the left operand ends in an open lambda, the operator moves into its body
    obtain ⟨op, hop, _⟩ := mem_operators_iff.mp hs
    exact ih₁.operation (by simp [hop]) ih₂
  | operand _ ih => exact ih.elim .last .lastOpen
  | negation _ ih => exact ih.imp .negation .openNegation
  | unary _ ih => exact ih.imp .operand id
  | call _ _ ih₁ ih₂ => exact ih₁.imp (.call · ih₂) (·.openOperand_call ih₂)
  | callee _ ih => exact ih.imp .callee id
  | lastExpression _ ih => exact .lastExpression ih
  | moreExpressions _ _ ih₁ ih₂ => exact .moreExpressions ih₁ ih₂
  | noExpressions => exact .noExpressions
  | someExpressions _ ih => exact .someExpressions ih
  | integer | float | string | yes | no => exact .inl (.literal rfl)
  | name => exact .inl .name
  | array _ ih => exact .inl (.array ih)
  | group _ ih => exact .inl (.group ih)
  | primaryLambda _ ih => exact ih
  | parenthesizedLambda hu _ _ ih =>
    simpa [Nonterminal.Greedily] using Greedy.lambda (.parenthesized hu) ih
  | nameLambda _ ih => exact Greedy.lambda .name ih
  | lambdaValue _ ih => exact .inr ih
  | lambdaBlock _ ih => exact .inl ih

end Grammar

end SimpleLang
