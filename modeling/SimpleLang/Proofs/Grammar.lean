import SimpleLang.Proofs.Reading

/-!
# The grammar

The grammar of the language as it is documented, over lexemes, with one constructor of `Derives` for
each alternative of a rule. It is ambiguous: a lambda may end before or behind an operator or a
call, an `else` may belong to either of two conditionals.

* `Derives n w`: the nonterminal `n` derives the lexemes `w`.
* `derives_of_reads`: whatever the parser reads is derived. Operators are read by climbing through
  their precedences, and the induction carries that the left operand is derived on the level of
  the operator that follows it (`Climbs`).
-/

namespace SimpleLang

namespace Grammar

/-- The nonterminals. A name with `Option` may derive nothing. -/
inductive Nonterminal where
  | program | statements | statement | block
  | params | paramsOption
  | expression
  /-- An expression with operators of this precedence or higher outside of parentheses. -/
  | binary (level : Nat)
  | unary | call | primary | lambda | lambdaBody
  | expressions | expressionsOption
deriving DecidableEq, Repr

/-- The binary operators of each level, from the loosest to the tightest. -/
def operators : Nat → List Symbol
  | 1 => [.bars]
  | 2 => [.ampersands]
  | 3 => [.equal, .notEqual]
  | 4 => [.less, .greater, .lessEqual, .greaterEqual]
  | 5 => [.plus, .minus]
  | 6 => [.star, .slash, .percent]
  | _ => []

def operandLevel : Nat := 7

open Lexeme SimpleLang.Symbol Keyword in
/-- The nonterminal derives the lexemes. -/
inductive Derives : Nonterminal → List Lexeme → Prop where
  | program {u : List Lexeme} (hu : Derives .statements u) : Derives .program (u ++ [eof])
  | noStatements : Derives .statements []
  | moreStatements {u v : List Lexeme} (hu : Derives .statement u) (hv : Derives .statements v) :
      Derives .statements (u ++ v)
  -- statements
  | declare {x : String} : Derives .statement [keyword letWord, ident x, symbol semicolon]
  | declareValue {x : String} {u : List Lexeme} (hu : Derives .expression u) :
      Derives .statement
        (keyword letWord :: ident x :: symbol assign :: (u ++ [symbol semicolon]))
  | assign {x : String} {u : List Lexeme} (hu : Derives .expression u) :
      Derives .statement (ident x :: symbol assign :: (u ++ [symbol semicolon]))
  | functionValue {x : String} {u v : List Lexeme} (hu : Derives .paramsOption u)
      (hv : Derives .expression v) :
      Derives .statement
        (keyword fnWord :: ident x :: symbol leftParen ::
          (u ++ symbol rightParen :: symbol arrow :: (v ++ [symbol semicolon])))
  | functionBlock {x : String} {u v : List Lexeme} (hu : Derives .paramsOption u)
      (hv : Derives .block v) :
      Derives .statement
        (keyword fnWord :: ident x :: symbol leftParen :: (u ++ symbol rightParen :: v))
  | returnNothing : Derives .statement [keyword returnWord, symbol semicolon]
  | returnValue {u : List Lexeme} (hu : Derives .expression u) :
      Derives .statement (keyword returnWord :: (u ++ [symbol semicolon]))
  | conditional {u v : List Lexeme} (hu : Derives .expression u) (hv : Derives .statement v) :
      Derives .statement
        (keyword ifWord :: symbol leftParen :: (u ++ symbol rightParen :: v))
  | conditionalElse {u v w : List Lexeme} (hu : Derives .expression u)
      (hv : Derives .statement v) (hw : Derives .statement w) :
      Derives .statement
        (keyword ifWord :: symbol leftParen ::
          (u ++ symbol rightParen :: (v ++ keyword elseWord :: w)))
  | loop {u v : List Lexeme} (hu : Derives .expression u) (hv : Derives .statement v) :
      Derives .statement
        (keyword whileWord :: symbol leftParen :: (u ++ symbol rightParen :: v))
  | blockStatement {u : List Lexeme} (hu : Derives .block u) : Derives .statement u
  | expressionStatement {u : List Lexeme} (hu : Derives .expression u) :
      Derives .statement (u ++ [symbol semicolon])
  | block {u : List Lexeme} (hu : Derives .statements u) :
      Derives .block (symbol leftBrace :: (u ++ [symbol rightBrace]))
  -- parameters
  | lastParam {x : String} : Derives .params [ident x]
  | moreParams {x : String} {u : List Lexeme} (hu : Derives .params u) :
      Derives .params (ident x :: symbol comma :: u)
  | noParams : Derives .paramsOption []
  | someParams {u : List Lexeme} (hu : Derives .params u) : Derives .paramsOption u
  -- operators
  | expression {u : List Lexeme} (hu : Derives (.binary 1) u) : Derives .expression u
  | tighter {k : Nat} {u : List Lexeme} (hk : k < operandLevel) (hu : Derives (.binary (k + 1)) u) :
      Derives (.binary k) u
  | operation {k : Nat} {s : Symbol} {u v : List Lexeme} (hu : Derives (.binary k) u)
      (hs : s ∈ operators k) (hv : Derives (.binary (k + 1)) v) :
      Derives (.binary k) (u ++ symbol s :: v)
  | operand {u : List Lexeme} (hu : Derives .unary u) : Derives (.binary operandLevel) u
  | negation {u : List Lexeme} (hu : Derives .unary u) : Derives .unary (symbol bang :: u)
  | unary {u : List Lexeme} (hu : Derives .call u) : Derives .unary u
  | call {u v : List Lexeme} (hu : Derives .call u) (hv : Derives .expressionsOption v) :
      Derives .call (u ++ symbol leftParen :: (v ++ [symbol rightParen]))
  | callee {u : List Lexeme} (hu : Derives .primary u) : Derives .call u
  | lastExpression {u : List Lexeme} (hu : Derives .expression u) : Derives .expressions u
  | moreExpressions {u v : List Lexeme} (hu : Derives .expression u)
      (hv : Derives .expressions v) : Derives .expressions (u ++ symbol comma :: v)
  | noExpressions : Derives .expressionsOption []
  | someExpressions {u : List Lexeme} (hu : Derives .expressions u) : Derives .expressionsOption u
  -- primaries
  | integer {text : String} : Derives .primary [integer text]
  | float {text : String} : Derives .primary [float text]
  | string {text : String} : Derives .primary [string text]
  | yes : Derives .primary [keyword trueWord]
  | no : Derives .primary [keyword falseWord]
  | name {x : String} : Derives .primary [ident x]
  | array {u : List Lexeme} (hu : Derives .expressionsOption u) :
      Derives .primary (symbol leftBracket :: (u ++ [symbol rightBracket]))
  | group {u : List Lexeme} (hu : Derives .expression u) :
      Derives .primary (symbol leftParen :: (u ++ [symbol rightParen]))
  | primaryLambda {u : List Lexeme} (hu : Derives .lambda u) : Derives .primary u
  | parenthesizedLambda {u v : List Lexeme} (hu : Derives .paramsOption u)
      (hv : Derives .lambdaBody v) :
      Derives .lambda (symbol leftParen :: (u ++ symbol rightParen :: symbol arrow :: v))
  | nameLambda {x : String} {v : List Lexeme} (hv : Derives .lambdaBody v) :
      Derives .lambda (ident x :: symbol arrow :: v)
  | lambdaValue {u : List Lexeme} (hu : Derives .expression u) : Derives .lambdaBody u
  | lambdaBlock {u : List Lexeme} (hu : Derives .block u) : Derives .lambdaBody u

/-! ## Operators and their levels -/

/-- The levels of the grammar are the precedences of the operators. -/
theorem mem_operators_iff {s : Symbol} {k : Nat} :
    s ∈ operators k ↔ ∃ op, s.binary? = some op ∧ op.precedence = k := by
  constructor
  -- each level lists the symbols of one precedence
  · intro hs
    unfold operators at hs
    split at hs <;> simp at hs <;> grind [Symbol.binary?, Operation.precedence]
  · rintro ⟨op, hop, rfl⟩
    cases s <;> cases hop <;> decide

/-- Every operator stands on one of the levels from 1 to 6. -/
theorem precedence_pos_of_binary? {l : Lexeme} {op : Operation} (h : l.binary? = some op) :
    1 ≤ op.precedence ∧ op.precedence < operandLevel := by
  cases l with
  | symbol s => cases s <;> cases h <;> decide
  | _ => cases h

/-- `Derives.tighter` as often as needed. -/
theorem Derives.tighten {j k : Nat} {u : List Lexeme} (h : Derives (.binary k) u) (hjk : j ≤ k)
    (hk : k ≤ operandLevel) : Derives (.binary j) u := by
  induction k with
  | zero =>
    obtain rfl : j = 0 := by omega
    exact h
  | succ k ih =>
    rcases Nat.lt_or_ge k j with hlt | hge
    · obtain rfl : j = k + 1 := by omega
      exact h
    · exact ih (.tighter (by omega) h) hge (by omega)

/-! ## Readings are derived -/

abbrev lexemes (ts : List Token) : List Lexeme := ts.map Token.lexeme

/-- A chain of operators that bind at least as tightly as `minimum` ends before the tokens. -/
def EndsBefore (minimum : Nat) (ts : List Token) : Prop :=
  ∀ t ∈ ts.head?, t.lexeme.endsOperations minimum

/-- Behind a left operand on any level on which the next operator can stand, the lexemes complete
an expression on the level of `minimum`. -/
def Climbs (minimum : Nat) (input : List Token) (w : List Lexeme) : Prop :=
  ∀ k u, max 1 minimum ≤ k → k ≤ operandLevel → EndsBefore (k + 1) input →
    Derives (.binary k) u → Derives (.binary (max 1 minimum)) (u ++ w)

/-- What is known of the lexemes that a rule has read, given its input and what it left. -/
def Derived (input rest : List Token) (w : List Lexeme) : Rule → Prop
  | .statement => Derives .statement w
  | .statements => Derives .statements w
  | .block => Derives .block w
  | .conditionAndBody => ∀ t ∈ input.head?, ∃ u v,
    w = t.lexeme :: .symbol .leftParen :: (u ++ .symbol .rightParen :: v) ∧
      Derives .expression u ∧ Derives .statement v
  | .expression minimum => minimum ≤ operandLevel →
    Derives (.binary (max 1 minimum)) w ∧ EndsBefore minimum rest
  | .operations minimum _ => minimum ≤ operandLevel →
    Climbs minimum input w ∧ EndsBefore minimum rest
  | .operand => Derives .unary w
  | .calls _ => ∀ u, Derives .call u → Derives .call (u ++ w)
  | .primary => Derives .primary w
  | .lambda _ => ∃ v, w = .symbol .arrow :: v ∧ Derives .lambdaBody v
  | .expressions => Derives .expressions w
  | .expressionsUnless _ => Derives .expressionsOption w

/-- By induction on the reading, which goes through the names from the left as `Derives.moreParams`
does. -/
theorem derives_params {source : String} {input rest : List Token} {ns : List Node}
    (h : ReadsNames source input ns rest) :
    ∃ us, input = us ++ rest ∧ Derives .params (lexemes us) := by
  induction h with
  | last hname _ => exact ⟨[_], rfl, by simpa [hname] using .lastParam⟩
  | more hname hcomma _ ih =>
    obtain ⟨us, rfl, hus⟩ := ih
    exact ⟨_ :: _ :: us, rfl, by simpa [hname, hcomma] using .moreParams hus⟩

theorem derives_paramsOption {source : String} {input rest : List Token} {ns : List Node}
    (h : ReadsParameters source input ns rest) :
    ∃ us, input = us ++ rest ∧ Derives .paramsOption (lexemes us) := by
  cases h with
  | none _ => exact ⟨[], rfl, .noParams⟩
  | some hnames =>
    obtain ⟨us, rfl, hus⟩ := derives_params hnames
    exact ⟨us, rfl, .someParams hus⟩

/-- Without operators the left operand is the expression, on a tighter level than it has to be. -/
theorem climbs_nil {minimum : Nat} {input : List Token} : Climbs minimum input [] := by
  intro k u hle hk _ hu
  rw [List.append_nil]
  exact hu.tighten hle hk

/-- An operator takes the left operand on its own level, and the chain goes on from there. -/
theorem climbs_operation {minimum : Nat} {t : Token} {op : Operation} {ts mid : List Token}
    {v w : List Lexeme} (hop : t.lexeme.binary? = some op) (hmin : minimum ≤ op.precedence)
    (hv : Derives (.binary (op.precedence + 1)) v) (hends : EndsBefore (op.precedence + 1) mid)
    (hw : Climbs minimum mid w) : Climbs minimum (t :: ts) (t.lexeme :: (v ++ w)) := by
  intro k u hle hk hnext hu
  obtain ⟨hone, hseven⟩ := precedence_pos_of_binary? hop
  -- the left operand may bind more tightly than the operator asks, never less
  have hlt : op.precedence < k + 1 := hnext t rfl op hop
  obtain ⟨s, hs⟩ : ∃ s, t.lexeme = .symbol s := by
    cases hl : t.lexeme with
    | symbol s => exact ⟨s, rfl⟩
    | _ => simp [hl, Lexeme.binary?] at hop
  rw [hs] at hop ⊢
  have hmem : s ∈ operators op.precedence := mem_operators_iff.mpr ⟨op, hop, rfl⟩
  have hleft : Derives (.binary op.precedence) u := hu.tighten (by omega) hk
  have hchain := hw op.precedence _ (by omega) (by omega) hends (.operation hleft hmem hv)
  simpa using hchain

/-- No operator is as tight as an operand. -/
theorem endsBefore_operandLevel (ts : List Token) : EndsBefore (operandLevel + 1) ts :=
  fun _ _ _ hop => Nat.lt_succ_of_lt (precedence_pos_of_binary? hop).2

/-- Whole expressions are read with the least minimum, and `Derives.expression` starts on the
loosest level. -/
theorem Derived.expression {input rest : List Token} {w : List Lexeme}
    (h : Derived input rest w (.expression 0)) : Derives .expression w :=
  .expression (h (Nat.zero_le _)).1

/-- The five kinds of literals, each with an alternative of its own. -/
theorem derives_of_isLiteral {l : Lexeme} (h : l.isLiteral) : Derives .primary [l] := by
  cases l with
  | integer _ => exact .integer
  | float _ => exact .float
  | string _ => exact .string
  | keyword word =>
    cases word with
    | trueWord => exact .yes
    | falseWord => exact .no
    | _ => simp [Lexeme.isLiteral] at h
  | symbol _ | ident _ | eof => simp [Lexeme.isLiteral] at h

/-- Whatever a rule reads the grammar derives. One case for each rule; the lexemes that a rule asks
for are those of its alternative. -/
theorem derives_of_reads {source : String} {rule : Rule} {input rest : List Token}
    {ns : List Node} (h : Reads source rule input ns rest) :
    ∃ us, input = us ++ rest ∧ Derived input rest (lexemes us) rule := by
  induction h with
  | stop _ => exact ⟨[], rfl, .noStatements⟩
  | next _ _ ih₁ ih₂ =>
    obtain ⟨us, rfl, hus⟩ := ih₁
    obtain ⟨vs, rfl, hvs⟩ := ih₂
    exact ⟨us ++ vs, by simp, by simpa using .moreStatements hus hvs⟩
  | @block t₀ t₁ _ _ _ hopen _ hclose ih =>
    obtain ⟨us, rfl, hus⟩ := ih
    refine ⟨t₀ :: (us ++ [t₁]), by simp, ?_⟩
    simpa [Derived, hopen, hclose] using Derives.block hus
  | @declare t₀ t₁ t₂ _ _ hword hname hend =>
    refine ⟨[t₀, t₁, t₂], rfl, ?_⟩
    simpa [Derived, hword, hname, hend] using Derives.declare
  | @declareValue t₀ t₁ t₂ t₃ _ _ _ _ hword hname hsign _ hend ih =>
    obtain ⟨us, rfl, hus⟩ := ih
    refine ⟨t₀ :: t₁ :: t₂ :: (us ++ [t₃]), by simp, ?_⟩
    simpa [Derived, hword, hname, hsign, hend] using Derives.declareValue hus.expression
  | @assign t₀ t₁ t₂ _ _ _ _ hname hsign _ hend ih =>
    obtain ⟨us, rfl, hus⟩ := ih
    refine ⟨t₀ :: t₁ :: (us ++ [t₂]), by simp, ?_⟩
    simpa [Derived, hname, hsign, hend] using Derives.assign hus.expression
  | @functionValue t₀ t₁ t₂ t₃ t₄ t₅ _ _ _ _ _ _ hword hname hopen hparams hclose hsign _ hend ih =>
    obtain ⟨us, rfl, hus⟩ := derives_paramsOption hparams
    obtain ⟨vs, rfl, hvs⟩ := ih
    refine ⟨t₀ :: t₁ :: t₂ :: (us ++ t₃ :: t₄ :: (vs ++ [t₅])), by simp, ?_⟩
    simpa [Derived, hword, hname, hopen, hclose, hsign, hend] using
      Derives.functionValue hus hvs.expression
  | @functionBlock t₀ t₁ t₂ t₃ _ _ _ _ _ _ hword hname hopen hparams hclose _ ih =>
    obtain ⟨us, rfl, hus⟩ := derives_paramsOption hparams
    obtain ⟨vs, rfl, hvs⟩ := ih
    refine ⟨t₀ :: t₁ :: t₂ :: (us ++ t₃ :: vs), by simp, ?_⟩
    simpa [Derived, hword, hname, hopen, hclose] using Derives.functionBlock hus hvs
  | @returnNothing t₀ t₁ _ hword hend =>
    refine ⟨[t₀, t₁], rfl, ?_⟩
    simpa [Derived, hword, hend] using Derives.returnNothing
  | @returnValue t₀ t₁ _ _ _ hword _ hend ih =>
    obtain ⟨us, rfl, hus⟩ := ih
    refine ⟨t₀ :: (us ++ [t₁]), by simp, ?_⟩
    simpa [Derived, hword, hend] using Derives.returnValue hus.expression
  | @conditionAndBody t₀ t₁ t₂ _ _ _ _ _ hopen _ hclose _ ih₁ ih₂ =>
    obtain ⟨us, rfl, hus⟩ := ih₁
    obtain ⟨vs, rfl, hvs⟩ := ih₂
    refine ⟨t₀ :: t₁ :: (us ++ t₂ :: vs), by simp, ?_⟩
    rintro t ⟨⟩
    refine ⟨lexemes us, lexemes vs, ?_, hus.expression, hvs⟩
    simp [hopen, hclose]
  -- the word before the condition is read with it, and tells a conditional from a loop here
  | conditional hword _ _ ih =>
    obtain ⟨us, hinput, hus⟩ := ih
    obtain ⟨u, v, hw, hu, hv⟩ := hus _ rfl
    refine ⟨us, hinput, ?_⟩
    simpa [Derived, hw, hword] using Derives.conditional hu hv
  | @conditionalElse t₀ t₁ _ _ _ _ _ hword _ helse _ ih₁ ih₂ =>
    obtain ⟨us, hinput, hus⟩ := ih₁
    obtain ⟨u, v, hw, hu, hv⟩ := hus _ rfl
    obtain ⟨vs, rfl, hvs⟩ := ih₂
    refine ⟨us ++ t₁ :: vs, by simp [hinput], ?_⟩
    simpa [Derived, hw, hword, helse] using Derives.conditionalElse hu hv hvs
  | loop hword _ ih =>
    obtain ⟨us, hinput, hus⟩ := ih
    obtain ⟨u, v, hw, hu, hv⟩ := hus _ rfl
    refine ⟨us, hinput, ?_⟩
    simpa [Derived, hw, hword] using Derives.loop hu hv
  | blockStatement _ ih =>
    obtain ⟨us, rfl, hus⟩ := ih
    exact ⟨us, rfl, .blockStatement hus⟩
  | @expressionStatement t _ _ _ _ hend ih =>
    obtain ⟨us, rfl, hus⟩ := ih
    refine ⟨us ++ [t], by simp, ?_⟩
    simpa [Derived, hend] using Derives.expressionStatement hus.expression
  -- an expression is its first operand with the operators that climb behind it
  | expression _ _ ih₁ ih₂ =>
    obtain ⟨us, rfl, hus⟩ := ih₁
    obtain ⟨vs, rfl, hvs⟩ := ih₂
    refine ⟨us ++ vs, by simp, fun hmin => ?_⟩
    -- the first operand stands on the tightest level, where any operator can follow it
    obtain ⟨hclimbs, hends⟩ := hvs hmin
    refine ⟨?_, hends⟩
    have hlevel : max 1 _ ≤ operandLevel := Nat.max_le.mpr ⟨by decide, hmin⟩
    simpa using hclimbs operandLevel _ hlevel (Nat.le_refl _) (endsBefore_operandLevel _)
      (.operand hus)
  | operationsEnd hend =>
    refine ⟨[], rfl, fun _ => ⟨climbs_nil, ?_⟩⟩
    rintro t ⟨⟩
    exact hend
  | @operation _ _ _ _ _ t _ _ _ hop hmin _ _ ih₁ ih₂ =>
    obtain ⟨us, rfl, hus⟩ := ih₁
    obtain ⟨vs, rfl, hvs⟩ := ih₂
    refine ⟨t :: (us ++ vs), by simp, fun hle => ?_⟩
    obtain ⟨hone, hseven⟩ := precedence_pos_of_binary? hop
    obtain ⟨hright, hnext⟩ := hus hseven
    obtain ⟨hclimbs, hends⟩ := hvs hle
    rw [Nat.max_eq_right (by omega)] at hright
    refine ⟨?_, hends⟩
    simpa using climbs_operation hop hmin hright hnext hclimbs
  | @negation t _ _ _ hsign _ ih =>
    obtain ⟨us, rfl, hus⟩ := ih
    refine ⟨t :: us, rfl, ?_⟩
    simpa [Derived, hsign] using Derives.negation hus
  -- calls are derived from the left, so the callee comes first and each call is put behind it
  | operand _ _ ih₁ ih₂ =>
    obtain ⟨us, rfl, hus⟩ := ih₁
    obtain ⟨vs, rfl, hvs⟩ := ih₂
    refine ⟨us ++ vs, by simp, ?_⟩
    simpa [Derived] using Derives.unary (hvs _ (.callee hus))
  | callsEnd _ => exact ⟨[], rfl, fun u hu => by simpa using hu⟩
  | @call _ _ t₀ t₁ _ _ _ _ hopen _ hclose _ ih₁ ih₂ =>
    obtain ⟨us, rfl, hus⟩ := ih₁
    obtain ⟨vs, rfl, hvs⟩ := ih₂
    refine ⟨t₀ :: (us ++ t₁ :: vs), by simp, fun u hu => ?_⟩
    simpa [hopen, hclose] using hvs _ (.call hu hus)
  | noExpressions _ => exact ⟨[], rfl, .noExpressions⟩
  | someExpressions _ ih =>
    obtain ⟨us, rfl, hus⟩ := ih
    exact ⟨us, rfl, .someExpressions hus⟩
  | lastExpression _ _ ih =>
    obtain ⟨us, hinput, hus⟩ := ih
    exact ⟨us, hinput, .lastExpression hus.expression⟩
  | @moreExpressions t _ _ _ _ _ _ hcomma _ ih₁ ih₂ =>
    obtain ⟨us, rfl, hus⟩ := ih₁
    obtain ⟨vs, rfl, hvs⟩ := ih₂
    refine ⟨us ++ t :: vs, by simp, ?_⟩
    simpa [Derived, hcomma] using
      Derives.moreExpressions hus.expression hvs
  | @literal t _ hliteral => exact ⟨[t], rfl, derives_of_isLiteral hliteral⟩
  | @name t₀ t₁ _ _ hname _ =>
    refine ⟨[t₀], rfl, ?_⟩
    simpa [Derived, hname] using Derives.name
  | @array t₀ t₁ _ _ _ hopen _ hclose ih =>
    obtain ⟨us, rfl, hus⟩ := ih
    refine ⟨t₀ :: (us ++ [t₁]), by simp, ?_⟩
    simpa [Derived, hopen, hclose] using Derives.array hus
  | @group t₀ t₁ _ _ _ hopen _ _ hclose ih =>
    obtain ⟨us, rfl, hus⟩ := ih
    refine ⟨t₀ :: (us ++ [t₁]), by simp, ?_⟩
    simpa [Derived, hopen, hclose] using Derives.group hus.expression
  | @nameLambda t₀ t₁ _ _ _ _ hname hsign _ ih =>
    obtain ⟨us, hinput, v, hw, hv⟩ := ih
    refine ⟨t₀ :: us, by simp [hinput], ?_⟩
    simpa [Derived, hw, hname] using Derives.primaryLambda (.nameLambda hv)
  | @parenthesizedLambda t₀ t₁ _ _ _ _ _ hopen _ hparams hclose _ ih =>
    obtain ⟨us, rfl, hus⟩ := derives_paramsOption hparams
    obtain ⟨vs, rfl, v, hw, hv⟩ := ih
    refine ⟨t₀ :: (us ++ t₁ :: vs), by simp, ?_⟩
    simpa [Derived, hw, hopen, hclose] using
      Derives.primaryLambda (.parenthesizedLambda hus hv)
  | @lambdaBlock _ t _ _ _ hsign _ ih =>
    obtain ⟨us, rfl, hus⟩ := ih
    exact ⟨t :: us, rfl, lexemes us, by simp [hsign], .lambdaBlock hus⟩
  | @lambdaValue _ t _ _ _ hsign _ ih =>
    obtain ⟨us, rfl, hus⟩ := ih
    exact ⟨t :: us, rfl, lexemes us, by simp [hsign],
      .lambdaValue hus.expression⟩

end Grammar

end SimpleLang
