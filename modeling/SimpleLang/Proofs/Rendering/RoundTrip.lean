import SimpleLang.Proofs.Grammar.Acceptance
import SimpleLang.Proofs.Lowering.Total
import SimpleLang.Proofs.Rendering

/-!
# Reading back what was written

The lexemes that a program is written with are read as nodes that denote the program. An expression
is read in one of four positions, each of which allows more than the one before it:

* `AsCallee`: behind it stands anything but an arrow, also arguments;
* `AsOperand`: behind it stands no parenthesis either;
* `AsChain`: behind it stands no operator that binds more tightly than a level;
* `AsWhole`: behind it the expression ends.

`Expr.readable` and `Stmt.readable` are the induction on the syntax: parentheses are written exactly
where the position would not be one of the expression itself. `compile_text_of_writable` is the
result for whole programs.
-/

namespace SimpleLang

open Lexeme SimpleLang.Symbol Keyword Node
open Grammar (EndsExpression endsExpression_symbol stopsParams find_stopsParams_append)

/-! ## Positions of an expression -/

section Positions

variable {source : String} {us : List Token} {n : Node}

/-- The tokens are read as the node and the calls behind it as calls of it. -/
def AsCallee (source : String) (us : List Token) (n : Node) : Prop :=
  ∀ t rest n' r, t.lexeme ≠ symbol arrow → Reads source (.calls n) (t :: rest) [n'] r →
    Reads source .operand (us ++ t :: rest) [n'] r

/-- The tokens are read as the node that an operator or the end follows. -/
def AsOperand (source : String) (us : List Token) (n : Node) : Prop :=
  ∀ t rest, t.lexeme ≠ symbol leftParen → t.lexeme ≠ symbol arrow →
    Reads source .operand (us ++ t :: rest) [n] (t :: rest)

/-- The tokens are read as the node, as long as no operator behind them binds more tightly than the
level. -/
def AsChain (source : String) (level : Nat) (us : List Token) (n : Node) : Prop :=
  ∀ minimum ≤ level, ∀ t rest n' r, t.lexeme ≠ symbol leftParen → t.lexeme ≠ symbol arrow →
    t.lexeme.endsOperations (level + 1) → Reads source (.operations minimum n) (t :: rest) [n'] r →
      Reads source (.expression minimum) (us ++ t :: rest) [n'] r

/-- The tokens are read as the node, before the end of an expression. -/
def AsWhole (source : String) (us : List Token) (n : Node) : Prop :=
  ∀ t rest, EndsExpression t.lexeme →
    Reads source (.expression 0) (us ++ t :: rest) [n] (t :: rest)

/-- Without a parenthesis behind it, a callee is the whole operand. -/
theorem AsCallee.asOperand (h : AsCallee source us n) : AsOperand source us n :=
  fun t rest hparen harrow => h t rest n (t :: rest) harrow (.callsEnd hparen)

/-- An operand is the start of a chain of operators, whatever their level. -/
theorem AsOperand.asChain (h : AsOperand source us n) (level : Nat) :
    AsChain source level us n :=
  fun _ _ t rest _ _ hparen harrow _ hmore => .expression (h t rest hparen harrow) hmore

/-- At a lower level fewer operators may follow. -/
theorem AsChain.mono {level level' : Nat} (h : AsChain source level us n) (hle : level' ≤ level) :
    AsChain source level' us n := by
  intro minimum hmin t rest n' r hparen harrow hend hmore
  refine h minimum (Nat.le_trans hmin hle) t rest n' r hparen harrow (fun op hop => ?_) hmore
  exact Nat.lt_of_lt_of_le (hend op hop) (Nat.succ_le_succ hle)

/-- What ends an expression is no operator. -/
theorem endsOperations_of_endsExpression {l : Lexeme} (h : EndsExpression l) (minimum : Nat) :
    l.endsOperations minimum := by
  intro op hop
  rw [h.binary] at hop
  cases hop

/-- At the end of an expression no operator follows, whatever the level. -/
theorem AsChain.asWhole {level : Nat} (h : AsChain source level us n) : AsWhole source us n :=
  fun t rest ht => h 0 (Nat.zero_le _) t rest n (t :: rest) ht.paren ht.arrow
    (endsOperations_of_endsExpression ht _)
    (.operationsEnd (endsOperations_of_endsExpression ht 0))

/-- A primary takes the calls behind it. -/
theorem asCallee_of_primary
    (h : ∀ t rest, t.lexeme ≠ symbol arrow →
      Reads source .primary (us ++ t :: rest) [n] (t :: rest)) : AsCallee source us n :=
  fun t rest _ _ harrow hcalls => .operand (h t rest harrow) hcalls

theorem asWhole_of_primary
    (h : ∀ t rest, EndsExpression t.lexeme →
      Reads source .primary (us ++ t :: rest) [n] (t :: rest)) : AsWhole source us n :=
  fun t rest ht => .expression (.operand (h t rest ht) (.callsEnd ht.paren))
    (.operationsEnd (endsOperations_of_endsExpression ht 0))

end Positions

/-! ## Expressions -/

/-- How an expression can be read where no parentheses are written around it. -/
def Expr.ReadAs (source : String) (us : List Token) (n : Node) : Expr → Prop
  | .binary op _ _ => AsChain source op.precedence us n
  | .unary _ _ => AsOperand source us n
  | .lambda _ _ => AsWhole source us n
  | .int _ | .float _ | .string _ | .bool _ | .name _ | .call _ _ | .array _ =>
    AsCallee source us n

/-- Tokens of the source that have the lexemes of an expression are read as it. -/
def Expr.Readable (source : String) (e : Expr) : Prop :=
  ∀ us : List Token, us.map Token.lexeme = e.lexemes → (∀ t ∈ us, t.Faithful source) →
    ∃ n, n.Denotes e ∧ e.ReadAs source us n

/-- Each position allows for the end of an expression behind it. -/
theorem Expr.ReadAs.asWhole {source : String} {us : List Token} {n : Node} {e : Expr}
    (h : e.ReadAs source us n) : AsWhole source us n := by
  cases e with
  | binary op l r => exact AsChain.asWhole h
  | unary op e => exact (AsOperand.asChain h 0).asWhole
  | lambda parameters body => exact h
  | int _ | float _ | string _ | bool _ | name _ | call _ _ | array _ =>
    exact (h.asOperand.asChain 0).asWhole

/-! ### Parentheses -/

/-- An opening parenthesis stops the search, and it is no closing one. -/
theorem find_stopsParams_wrapped {ls : List Lexeme} (needed : Bool)
    (h : ls.find? stopsParams ≠ some (symbol rightParen)) :
    (wrapped needed ls).find? stopsParams ≠ some (symbol rightParen) := by
  cases needed with
  | false => exact h
  | true => simp [wrapped, stopsParams]

theorem stopsParams_operation (op : Operation) :
    stopsParams (symbol op.symbol) ∧ symbol op.symbol ≠ symbol rightParen := by
  cases op <;> decide

/-- Before anything but names and commas no closing parenthesis stands in an expression, so nothing
in parentheses looks like the parameters of a lambda. -/
theorem Expr.find_stopsParams : (e : Expr) → e.lexemes.find? stopsParams ≠ some (symbol rightParen)
  | .int _ | .float _ | .string _ | .bool _ | .name _ | .array _ | .lambda _ (.block _)
  | .lambda _ (.value _) => by simp [Expr.lexemes, parameterLexemes, stopsParams]
  | .unary op _ => by
    obtain ⟨hstop, hne⟩ := stopsParams_operation op
    exact @find_stopsParams_append [] _ _ (by simp) hstop hne
  | .binary op l r => by
    obtain ⟨hstop, hne⟩ := stopsParams_operation op
    rw [Expr.lexemes, List.append_assoc]
    exact find_stopsParams_append (find_stopsParams_wrapped _ (Expr.find_stopsParams l)) hstop hne
  | .call f args => by
    rw [Expr.lexemes, List.append_assoc, List.append_assoc]
    exact find_stopsParams_append (find_stopsParams_wrapped _ (Expr.find_stopsParams f)) rfl
      (by decide)

/-- In parentheses an expression is a primary. By `hfind` what is inside does not look like
parameters (`Grammar.opensLambda_group`). -/
theorem asCallee_group {source : String} {us : List Token} {n : Node} {t₀ t₁ : Token}
    (h : AsWhole source us n)
    (hfind : (us.map Token.lexeme).find? stopsParams ≠ some (symbol rightParen))
    (hopen : t₀.lexeme = symbol leftParen) (hclose : t₁.lexeme = symbol rightParen) :
    AsCallee source (t₀ :: (us ++ [t₁]))
      (above source .expression [ofToken source t₀, n, ofToken source t₁]) := by
  refine asCallee_of_primary fun t rest harrow => ?_
  have hends : EndsExpression t₁.lexeme := endsExpression_symbol hclose (by decide)
  rw [List.cons_append, List.append_assoc]
  exact .group hopen (Grammar.opensLambda_group hfind hclose harrow)
    (h t₁ (t :: rest) hends) hclose

/-- An expression in parentheses can stand anywhere. -/
theorem Expr.Readable.wrapped {source : String} {e : Expr} (h : e.Readable source)
    {us : List Token} (hus : us.map Token.lexeme = wrapped true e.lexemes)
    (hfaithful : ∀ t ∈ us, t.Faithful source) : ∃ n, n.Denotes e ∧ AsCallee source us n := by
  simp only [SimpleLang.wrapped, if_true, List.append_assoc, List.map_eq_append_iff,
    List.map_eq_cons_iff, List.map_eq_nil_iff] at hus
  obtain ⟨_, _, rfl, ⟨t₀, _, rfl, hopen, rfl⟩, us, _, rfl, hus, t₁, _, rfl, hclose, rfl⟩ := hus
  simp only [List.cons_append, List.nil_append, List.forall_mem_cons, List.forall_mem_append]
    at hfaithful
  obtain ⟨ht₀, hall, ht₁, _⟩ := hfaithful
  obtain ⟨n, hn, hreads⟩ := h us hus hall
  refine ⟨_, denotes_group hn ht₀ hopen ht₁ hclose, ?_⟩
  exact asCallee_group hreads.asWhole (hus ▸ e.find_stopsParams) hopen hclose

/-- What is written as a callee or behind a sign. -/
theorem Expr.Readable.asCallee {source : String} {e : Expr} (h : e.Readable source)
    {us : List Token} (hus : us.map Token.lexeme = SimpleLang.wrapped e.needsParens e.lexemes)
    (hfaithful : ∀ t ∈ us, t.Faithful source) : ∃ n, n.Denotes e ∧ AsCallee source us n := by
  cases hneeds : e.needsParens with
  | true => exact h.wrapped (hneeds ▸ hus) hfaithful
  | false =>
    rw [hneeds] at hus
    obtain ⟨n, hn, hreads⟩ := h us hus hfaithful
    refine ⟨n, hn, ?_⟩
    cases e with
    | binary _ _ _ | unary _ _ | lambda _ _ => simp [needsParens] at hneeds
    | int _ | float _ | string _ | bool _ | name _ | call _ _ | array _ => exact hreads

/-- Without parentheses the operator of an operand binds at least as tightly as the one beside it,
and on its right more tightly. -/
theorem Expr.precedence_le_of_needsParensIn {op op' : Operation} {l r : Expr} {onRight : Bool}
    (h : (Expr.binary op' l r).needsParensIn op onRight = false) :
    op.precedence + onRight.toNat ≤ op'.precedence := by
  simp only [needsParensIn, Bool.or_eq_false_iff, Bool.and_eq_false_iff,
    decide_eq_false_iff_not] at h
  cases onRight with
  | false => simpa using h.1
  | true =>
    have hne : op'.precedence ≠ op.precedence := by simpa using h.2
    have hle : op.precedence ≤ op'.precedence := Nat.le_of_not_lt h.1
    exact Nat.lt_of_le_of_ne hle hne.symm

/-- What is written as an operand: on the right it binds more tightly than the operator. -/
theorem Expr.Readable.asChain {source : String} {e : Expr} (h : e.Readable source)
    (op : Operation) (onRight : Bool) {us : List Token}
    (hus : us.map Token.lexeme = SimpleLang.wrapped (e.needsParensIn op onRight) e.lexemes)
    (hfaithful : ∀ t ∈ us, t.Faithful source) :
    ∃ n, n.Denotes e ∧ AsChain source (op.precedence + onRight.toNat) us n := by
  cases hneeds : e.needsParensIn op onRight with
  | true =>
    obtain ⟨n, hn, hreads⟩ := h.wrapped (hneeds ▸ hus) hfaithful
    exact ⟨n, hn, hreads.asOperand.asChain _⟩
  | false =>
    rw [hneeds] at hus
    obtain ⟨n, hn, hreads⟩ := h us hus hfaithful
    refine ⟨n, hn, ?_⟩
    -- without parentheses it is the kind of expression that decides
    cases e with
    | binary op' _ _ => exact AsChain.mono hreads (Expr.precedence_le_of_needsParensIn hneeds)
    | unary _ _ => exact AsOperand.asChain hreads _
    | lambda _ _ => simp [needsParensIn] at hneeds
    | int _ | float _ | string _ | bool _ | name _ | call _ _ | array _ =>
      exact (AsCallee.asOperand hreads).asChain _

/-! ### Lists -/

/-- By induction on the list. A comma ends an expression, and the last one is ended by what closes
the list. -/
theorem exists_reads_expressions {source : String} : (e : Expr) → (es : List Expr) →
    (∀ e' ∈ e :: es, e'.Readable source) → ∀ {us : List Token},
    us.map Token.lexeme = commaLexemes ((e :: es).map Expr.lexemes) →
    (∀ t ∈ us, t.Faithful source) →
    ∃ ns, Expr.each ns = (e :: es).map .ok ∧ ∀ t rest, EndsExpression t.lexeme →
      t.lexeme ≠ symbol comma → Reads source .expressions (us ++ t :: rest) ns (t :: rest)
  | e, [], h, us, hus, hfaithful => by
    obtain ⟨n, hn, hreads⟩ := h e List.mem_cons_self us hus hfaithful
    exact ⟨[n], by simp [each_eq, hn.kind, hn.within],
      fun t rest ht hcomma => .lastExpression (hreads.asWhole t rest ht) hcomma⟩
  | e, e' :: es, h, us, hus, hfaithful => by
    simp only [List.map_cons, commaLexemes, List.append_assoc, List.map_eq_append_iff,
      List.map_eq_cons_iff, List.map_eq_nil_iff] at hus
    -- the tokens before the comma, the comma, and those behind it
    obtain ⟨us, _, rfl, hus, _, vs, rfl, ⟨c, _, rfl, hc, rfl⟩, hvs⟩ := hus
    simp only [List.cons_append, List.nil_append, List.forall_mem_cons, List.forall_mem_append]
      at hfaithful
    obtain ⟨hall, _, hall'⟩ := hfaithful
    obtain ⟨n, hn, hreads⟩ := h e List.mem_cons_self us hus hall
    obtain ⟨ns, hns, hmore⟩ := exists_reads_expressions e' es
      (fun e'' he'' => h e'' (List.mem_cons_of_mem e he'')) hvs hall'
    refine ⟨n :: ofToken source c :: ns, ?_, fun t rest ht hcomma => ?_⟩
    · rw [each_eq] at hns
      simpa [each_eq, hn.kind, hn.within] using hns
    · have hends : EndsExpression c.lexeme := endsExpression_symbol hc (by decide)
      simpa using Reads.moreExpressions (hreads.asWhole c (vs ++ t :: rest) hends) hc
        (hmore t rest ht hcomma)

/-- Arguments or elements are read up to the symbol that closes their list. -/
theorem exists_reads_expressionsUnless {source : String} (es : List Expr)
    (h : ∀ e ∈ es, e.Readable source) {us : List Token}
    (hus : us.map Token.lexeme = commaLexemes (Expr.lexemeLists es))
    (hfaithful : ∀ t ∈ us, t.Faithful source) :
    ∃ ns, Expr.each ns = es.map .ok ∧ ∀ s t rest, t.lexeme = symbol s →
      s ∈ [rightParen, rightBracket] →
        Reads source (.expressionsUnless s) (us ++ t :: rest) ns (t :: rest) := by
  rw [Expr.lexemeLists_eq_map] at hus
  cases es with
  | nil =>
    obtain rfl := List.map_eq_nil_iff.mp hus
    exact ⟨[], by rw [each_eq]; rfl, fun s t rest ht _ => .noExpressions ht⟩
  | cons e es =>
    obtain ⟨ns, hns, hreads⟩ := exists_reads_expressions e es h hus hfaithful
    refine ⟨ns, hns, fun s t rest ht hs => .someExpressions (hreads t rest ?_ ?_)⟩
    · refine endsExpression_symbol ht ?_
      simp only [List.mem_cons, List.not_mem_nil, or_false] at hs ⊢
      exact .inr (.inr hs)
    · simp only [List.mem_cons, List.not_mem_nil, or_false] at hs
      rcases hs with rfl | rfl <;> simp [ht]

/-- By induction on the list, as for `exists_reads_expressions`. -/
theorem exists_readsNames {source : String} : (x : String) → (xs : List String) →
    ∀ {us : List Token},
    us.map Token.lexeme = commaLexemes ((x :: xs).map fun x => [ident x]) →
    (∀ t ∈ us, t.Faithful source) →
    ∃ ns, (ns.filter (·.kind == .token .name)).map Node.text = x :: xs ∧ ∀ t rest,
      t.lexeme ≠ symbol comma → ReadsNames source (us ++ t :: rest) ns (t :: rest)
  | x, [], us, hus, hfaithful => by
    simp only [List.map_cons, List.map_nil, commaLexemes, List.map_eq_cons_iff,
      List.map_eq_nil_iff] at hus
    obtain ⟨a, _, rfl, ha, rfl⟩ := hus
    have htext : (ofToken source a).text = x := text_ofToken (hfaithful a List.mem_cons_self) ha
    exact ⟨[ofToken source a], by simp [ha, TokenKind.ofLexeme, htext],
      fun t rest hcomma => .last ha hcomma⟩
  | x, y :: xs, us, hus, hfaithful => by
    simp only [List.map_cons, commaLexemes, List.append_assoc, List.map_eq_append_iff,
      List.map_eq_cons_iff, List.map_eq_nil_iff] at hus
    obtain ⟨_, _, rfl, ⟨a, _, rfl, ha, rfl⟩, _, vs, rfl, ⟨c, _, rfl, hc, rfl⟩, hvs⟩ := hus
    simp only [List.cons_append, List.nil_append, List.forall_mem_cons] at hfaithful
    obtain ⟨ha', _, hall⟩ := hfaithful
    have htext : (ofToken source a).text = x := text_ofToken ha' ha
    obtain ⟨ns, hns, hreads⟩ := exists_readsNames y xs hvs hall
    refine ⟨ofToken source a :: ofToken source c :: ns, ?_, fun t rest hcomma => ?_⟩
    · simpa [ha, hc, TokenKind.ofLexeme, Symbol.binary?, htext] using hns
    · exact .more ha hc (hreads t rest hcomma)

/-- Names and commas are what parameters are made of. -/
theorem find_stopsParams_names : (xs : List String) →
    (commaLexemes (xs.map fun x => [ident x])).find? stopsParams = none
  | [] => rfl
  | [_] => rfl
  | _ :: y :: xs => find_stopsParams_names (y :: xs)

/-- Tokens that are parameters in parentheses. -/
structure ParameterTokens (source : String) (parameters : List String) (t₀ : Token)
    (us : List Token) (t₁ : Token) (ps : List Node) : Prop where
  opening : t₀.lexeme = symbol leftParen
  closing : t₁.lexeme = symbol rightParen
  isParameters : IsParameters source ps parameters
  reads : ∀ rest, ReadsParameters source (us ++ t₁ :: rest) ps (t₁ :: rest)
  names : (us.map Token.lexeme).find? stopsParams = none

/-- The tokens are taken apart by their lexemes. Without parameters there is no node for them. -/
theorem exists_parameterTokens {source : String} {parameters : List String} {us : List Token}
    (hus : us.map Token.lexeme = parameterLexemes parameters)
    (hfaithful : ∀ t ∈ us, t.Faithful source) :
    ∃ t₀ vs t₁ ps, us = t₀ :: (vs ++ [t₁]) ∧
      ParameterTokens source parameters t₀ vs t₁ ps := by
  simp only [parameterLexemes, List.append_assoc, List.map_eq_append_iff, List.map_eq_cons_iff,
    List.map_eq_nil_iff] at hus
  obtain ⟨_, _, rfl, ⟨t₀, _, rfl, hopen, rfl⟩, vs, _, rfl, hvs, t₁, _, rfl, hclose, rfl⟩ := hus
  -- only names and commas are inside
  have hnames : (vs.map Token.lexeme).find? stopsParams = none :=
    hvs ▸ find_stopsParams_names parameters
  cases parameters with
  | nil =>
    obtain rfl := List.map_eq_nil_iff.mp hvs
    exact ⟨t₀, [], t₁, [], rfl, hopen, hclose, .inl ⟨rfl, rfl⟩, fun rest => .none hclose, hnames⟩
  | cons x xs =>
    obtain ⟨ns, hns, hreads⟩ := exists_readsNames x xs hvs fun t ht => hfaithful t (by simp [ht])
    exact ⟨t₀, vs, t₁, _, rfl, hopen, hclose, .inr ⟨ns, rfl, hns⟩,
      fun rest => .some (hreads t₁ rest (by simp [hclose])), hnames⟩

/-- Around the parameters there are leaves only. -/
theorem ParameterTokens.heads {source : String} {parameters : List String} {t₀ t₁ : Token}
    {us : List Token} {ps : List Node} (h : ParameterTokens source parameters t₀ us t₁ ps)
    (before : List Token) : Heads (before.map (ofToken source) ++ ofToken source t₀ :: ps
      ++ [ofToken source t₁]) parameters := by
  have hleaves (ts : List Token) : ∀ n ∈ ts.map (ofToken source), n.kind.isToken := by
    intro n hn
    obtain ⟨t, _, rfl⟩ := List.mem_map.mp hn
    rfl
  have hhead := heads_of_isParameters (hleaves (before ++ [t₀])) h.isParameters (hleaves [t₁])
  simpa using hhead

/-- Parameters that an arrow follows are those of a lambda. -/
theorem ParameterTokens.reads_lambda {source : String} {parameters : List String} {t₀ t₁ a : Token}
    {us input rest : List Token} {ps : List Node} {n : Node}
    (h : ParameterTokens source parameters t₀ us t₁ ps) (ha : a.lexeme = symbol arrow)
    (hbody : Reads source (.lambda (ofToken source t₀ :: ps ++ [ofToken source t₁])) (a :: input)
      [n] rest) : Reads source .primary (t₀ :: (us ++ t₁ :: a :: input)) [n] rest := by
  have hahead : Parser.opensLambda (us ++ t₁ :: a :: input) = true :=
    Grammar.opensLambda_params h.names h.closing ha
  exact .parenthesizedLambda h.opening hahead (h.reads _) h.closing hbody

/-! ## Syntax is read back -/

/-- Tokens of the source that have the lexemes of a statement are read as it, unless an `else`
behind them would belong to it. -/
def Stmt.Readable (source : String) (s : Stmt) : Prop :=
  ∀ us : List Token, us.map Token.lexeme = s.lexemes → (∀ t ∈ us, t.Faithful source) →
    ∃ n, n.DenotesStmt s ∧ ∀ t rest, (s.dangling → t.lexeme ≠ keyword elseWord) →
      Reads source .statement (us ++ t :: rest) [n] (t :: rest)

/-- Tokens of the source that have the lexemes of statements are read as them. -/
def Stmt.AllReadable (source : String) (ss : List Stmt) : Prop :=
  ∀ us : List Token, us.map Token.lexeme = Stmt.lexemesOf ss → (∀ t ∈ us, t.Faithful source) →
    ∃ ns, Stmt.each ns = ss.map .ok ∧ ∀ t rest, t.lexeme = symbol rightBrace ∨ t.lexeme = eof →
      Reads source .statements (us ++ t :: rest) ns (t :: rest)

/-- A block is its statements and two braces, and a brace ends them. -/
theorem Stmt.AllReadable.block {source : String} {ss : List Stmt} (h : Stmt.AllReadable source ss)
    {us : List Token} (hus : us.map Token.lexeme =
      [symbol leftBrace] ++ Stmt.lexemesOf ss ++ [symbol rightBrace])
    (hfaithful : ∀ t ∈ us, t.Faithful source) :
    ∃ n, n.DenotesBlock ss ∧ ∀ rest, Reads source .block (us ++ rest) [n] rest := by
  simp only [List.append_assoc, List.map_eq_append_iff, List.map_eq_cons_iff,
    List.map_eq_nil_iff] at hus
  obtain ⟨_, _, rfl, ⟨t₀, _, rfl, hopen, rfl⟩, us, _, rfl, hus, t₁, _, rfl, hclose, rfl⟩ := hus
  obtain ⟨ns, hns, hreads⟩ := h us hus fun t ht => hfaithful t (by simp [ht])
  exact ⟨_, denotesBlock_block hns, fun rest => by
    simpa using Reads.block hopen (hreads t₁ rest (.inl hclose)) hclose⟩

/-- What stands behind the word of a conditional or a loop. -/
theorem exists_conditionAndBody {source : String} {test : Expr} {body : Stmt}
    (htest : test.Readable source) (hbody : body.Readable source) (word : Token) {us : List Token}
    (hus : us.map Token.lexeme =
      symbol leftParen :: (test.lexemes ++ symbol rightParen :: body.lexemes))
    (hfaithful : ∀ t ∈ us, t.Faithful source) :
    ∃ parts, Branches parts test body ∧
      ∀ t rest, (body.dangling → t.lexeme ≠ keyword elseWord) →
        Reads source .conditionAndBody (word :: (us ++ t :: rest)) parts (t :: rest) := by
  simp only [List.map_eq_append_iff, List.map_eq_cons_iff] at hus
  obtain ⟨b, _, rfl, hb, us, _, rfl, hus, c, vs, rfl, hc, hvs⟩ := hus
  simp only [List.forall_mem_cons, List.forall_mem_append] at hfaithful
  obtain ⟨_, hall, _, hall'⟩ := hfaithful
  obtain ⟨n, hn, hvalue⟩ := htest us hus hall
  obtain ⟨m, hm, hreads⟩ := hbody vs hvs hall'
  refine ⟨[ofToken source word, ofToken source b, n, ofToken source c, m],
    branches_conditionAndBody hn hm, fun t rest ht => ?_⟩
  -- the closing parenthesis ends the condition
  have hends := hvalue.asWhole c (vs ++ t :: rest) (endsExpression_symbol hc (by decide))
  simpa using Reads.conditionAndBody hb hends hc (hreads t rest ht)

/-- A literal is read wherever it stands. -/
theorem readAs_literal {source : String} {us : List Token} {l : Lexeme} {e : Expr}
    (hus : us.map Token.lexeme = [l]) (hl : l.isLiteral) (hfaithful : ∀ t ∈ us, t.Faithful source)
    (hwithin : ∀ t : Token, t.Faithful source → t.lexeme = l → ∀ outer,
      Expr.within outer (ofToken source t) = .ok e) :
    ∃ n, n.Denotes e ∧ AsCallee source us n := by
  simp only [List.map_eq_cons_iff, List.map_eq_nil_iff] at hus
  obtain ⟨t, _, rfl, ht, rfl⟩ := hus
  exact ⟨_, denotes_primaryOf (hwithin t (hfaithful t List.mem_cons_self) ht),
    asCallee_of_primary fun _ _ _ => .literal (ht ▸ hl)⟩

mutual
/-- By induction on the syntax. The lexemes say how the tokens are divided among the parts
(`List.map_eq_append_iff`), and each part is read in the position that it is written for. -/
theorem Expr.readable (source : String) : (e : Expr) → e.Writable ReadsBack → e.Readable source
  | .int n, h, us, hus, hfaithful =>
    readAs_literal hus rfl hfaithful fun t ht hl outer =>
      within_integer ht hl (Integer.read?_toString h)
  | .float x, h, us, hus, hfaithful =>
    readAs_literal hus rfl hfaithful fun t ht hl outer => within_float ht hl h.2
  | .string s, h, us, hus, hfaithful => by
    have htext : "\"" ++ s ++ "\"" = String.ofList ('"' :: (s.toList ++ ['"'])) := by
      rw [← String.ofList_toList (s := "\"" ++ s ++ "\"")]
      simp [String.toList_append]
    refine readAs_literal hus rfl hfaithful fun t ht hl outer => ?_
    rw [htext] at hl
    rw [within_string ht hl, String.ofList_toList]
  | .bool b, _, us, hus, hfaithful =>
    readAs_literal hus (by cases b <;> rfl) hfaithful fun t ht hl outer => within_bool ht hl
  | .name x, h, us, hus, hfaithful => by
    simp only [Expr.lexemes, List.map_eq_cons_iff, List.map_eq_nil_iff] at hus
    obtain ⟨t, _, rfl, ht, rfl⟩ := hus
    exact ⟨_, denotes_primaryOf fun outer => within_name (hfaithful t List.mem_cons_self) ht,
      asCallee_of_primary fun _ _ harrow => .name ht harrow⟩
  | .binary op l r, h, us, hus, hfaithful => by
    obtain ⟨hop, hl, hr⟩ := h
    simp only [Expr.lexemes, List.append_assoc, List.map_eq_append_iff, List.map_eq_cons_iff,
      List.map_eq_nil_iff] at hus
    obtain ⟨us, _, rfl, hus, _, vs, rfl, ⟨o, _, rfl, ho, rfl⟩, hvs⟩ := hus
    simp only [List.cons_append, List.nil_append, List.forall_mem_cons, List.forall_mem_append]
      at hfaithful
    obtain ⟨hall, ho', hall'⟩ := hfaithful
    obtain ⟨a, ha, hleft⟩ := (Expr.readable source l hl).asChain op false hus hall
    obtain ⟨b, hb, hright⟩ := (Expr.readable source r hr).asChain op true hvs hall'
    have hbinary : o.lexeme.binary? = some op := by
      rw [ho]
      cases op with
      | not => exact absurd rfl hop
      | _ => rfl
    refine ⟨_, denotes_binary ha hb ho' hbinary, ?_⟩
    intro minimum hmin t rest n' r' hparen harrow hend hmore
    -- behind the right operand only looser operators stand, so it ends there
    have hr : Reads source (.expression (op.precedence + 1)) (vs ++ t :: rest) [b] (t :: rest) :=
      hright _ (Nat.le_refl _) t rest b _ hparen harrow
        (fun op' hop' => Nat.lt_succ_of_lt (hend op' hop')) (.operationsEnd hend)
    have hends : o.lexeme.endsOperations (op.precedence + 1) := by
      intro op' hop'
      rw [hbinary] at hop'
      cases hop'
      exact Nat.lt_succ_self _
    rw [List.append_assoc]
    exact hleft minimum hmin o (vs ++ t :: rest) n' r' (by rw [ho]; cases op <;> decide)
      (by rw [ho]; cases op <;> decide) hends (.operation hbinary hmin hr hmore)
  | .unary op e, h, us, hus, hfaithful => by
    obtain ⟨rfl, he⟩ := h
    simp only [Expr.lexemes, List.cons_append, List.nil_append, List.map_eq_cons_iff] at hus
    obtain ⟨o, us, rfl, ho, hus⟩ := hus
    rw [List.forall_mem_cons] at hfaithful
    obtain ⟨n, hn, hreads⟩ := (Expr.readable source e he).asCallee hus hfaithful.2
    exact ⟨_, denotes_unary hn hfaithful.1 ho, fun t rest hparen harrow =>
      .negation ho (hreads.asOperand t rest hparen harrow)⟩
  | .call f args, h, us, hus, hfaithful => by
    simp only [Expr.lexemes, List.append_assoc, List.map_eq_append_iff, List.map_eq_cons_iff,
      List.map_eq_nil_iff] at hus
    obtain ⟨us, _, rfl, hus, _, _, rfl, ⟨t₀, _, rfl, hopen, rfl⟩, vs, _, rfl, hvs, t₁, _, rfl,
      hclose, rfl⟩ := hus
    simp only [List.cons_append, List.nil_append, List.forall_mem_cons, List.forall_mem_append]
      at hfaithful
    obtain ⟨hall, ht₀, hall', ht₁, _⟩ := hfaithful
    obtain ⟨n, hn, hcallee⟩ := (Expr.readable source f h.1).asCallee hus hall
    obtain ⟨ns, hns, hvalues⟩ :=
      exists_reads_expressionsUnless args (Expr.each_readable source args h.2) hvs hall'
    refine ⟨_, denotes_call hn ht₀ hopen hns ht₁ hclose, fun t rest n' r harrow hcalls => ?_⟩
    have hargs := hvalues rightParen t₁ (t :: rest) hclose (by decide)
    simpa using hcallee t₀ (vs ++ t₁ :: t :: rest) n' r (by simp [hopen])
      (.call hopen hargs hclose hcalls)
  | .array elements, h, us, hus, hfaithful => by
    simp only [Expr.lexemes, List.append_assoc, List.map_eq_append_iff, List.map_eq_cons_iff,
      List.map_eq_nil_iff] at hus
    obtain ⟨_, _, rfl, ⟨t₀, _, rfl, hopen, rfl⟩, us, _, rfl, hus, t₁, _, rfl, hclose, rfl⟩ := hus
    obtain ⟨ns, hns, hvalues⟩ := exists_reads_expressionsUnless elements
      (Expr.each_readable source elements h) hus fun t ht => hfaithful t (by simp [ht])
    refine ⟨primaryOf source (above source .array (ofToken source t₀ :: ns ++ [ofToken source t₁])),
      denotes_array hns, asCallee_of_primary fun t rest _ => ?_⟩
    simpa using Reads.array hopen (hvalues rightBracket t₁ (t :: rest) hclose (by decide)) hclose
  | .lambda parameters (.block statements), h, us, hus, hfaithful => by
    rw [Expr.lexemes, List.append_assoc] at hus
    obtain ⟨us, _, rfl, hhead, hmore⟩ := List.map_eq_append_iff.mp hus
    obtain ⟨a, vs, rfl, ha, hvs⟩ := List.map_eq_cons_iff.mp hmore
    simp only [List.forall_mem_append, List.forall_mem_cons] at hfaithful
    obtain ⟨hall, _, hall'⟩ := hfaithful
    obtain ⟨t₀, ws, t₁, ps, rfl, hparams⟩ := exists_parameterTokens hhead hall
    obtain ⟨b, hb, hblock⟩ := (Stmt.all_readable source statements h.2).block hvs hall'
    refine ⟨primaryOf source (above source .lambda
        (ofToken source t₀ :: ps ++ [ofToken source t₁] ++ [ofToken source a, b])),
      denotes_lambda_block (hparams.heads []) hb, asWhole_of_primary fun t rest _ => ?_⟩
    simpa using hparams.reads_lambda ha (.lambdaBlock ha (hblock (t :: rest)))
  | .lambda parameters (.value e), h, us, hus, hfaithful => by
    rw [Expr.lexemes, List.append_assoc] at hus
    obtain ⟨us, _, rfl, hhead, hmore⟩ := List.map_eq_append_iff.mp hus
    obtain ⟨a, vs, rfl, ha, hvs⟩ := List.map_eq_cons_iff.mp hmore
    simp only [List.forall_mem_append, List.forall_mem_cons] at hfaithful
    obtain ⟨hall, _, hall'⟩ := hfaithful
    obtain ⟨t₀, ws, t₁, ps, rfl, hparams⟩ := exists_parameterTokens hhead hall
    obtain ⟨b, hb, hvalue⟩ := Expr.readable source e h.2 vs hvs hall'
    -- the body takes all that can follow it, so it ends only where the whole expression does
    refine ⟨primaryOf source (above source .lambda
        (ofToken source t₀ :: ps ++ [ofToken source t₁] ++ [ofToken source a, b])),
      denotes_lambda_value (hparams.heads []) hb, asWhole_of_primary fun t rest ht => ?_⟩
    simpa using hparams.reads_lambda ha (.lambdaValue ha (hvalue.asWhole t rest ht))
theorem Expr.each_readable (source : String) : (es : List Expr) → Expr.AllWritable ReadsBack es →
    ∀ e ∈ es, e.Readable source
  | e :: es, h, e', he' => by
    rcases List.mem_cons.mp he' with heq | hmem
    · rw [heq]
      exact Expr.readable source e h.1
    · exact Expr.each_readable source es h.2 e' hmem
/-- By induction on the syntax, together with `Expr.readable`. -/
theorem Stmt.readable (source : String) : (s : Stmt) → s.Writable ReadsBack → s.Readable source
  | .declare x none, h, us, hus, hfaithful => by
    simp only [Stmt.lexemes, List.cons_append, List.nil_append, List.map_eq_cons_iff,
      List.map_eq_nil_iff] at hus
    obtain ⟨a, _, rfl, ha, b, _, rfl, hb, c, _, rfl, hc, rfl⟩ := hus
    exact ⟨_, denotesStmt_declare ha (hfaithful b (by simp)) hb,
      fun t rest _ => .declare ha hb hc⟩
  | .declare x (some e), h, us, hus, hfaithful => by
    simp only [Stmt.lexemes, List.cons_append, List.nil_append,
      List.map_eq_append_iff, List.map_eq_cons_iff, List.map_eq_nil_iff] at hus
    obtain ⟨a, _, rfl, ha, b, _, rfl, hb, c, _, rfl, hc, us, _, rfl, hus, d, _, rfl, hd, rfl⟩ := hus
    obtain ⟨n, hn, hvalue⟩ :=
      Expr.readable source e h.2 us hus fun t ht => hfaithful t (by simp [ht])
    refine ⟨above source .statement [above source .declaration
        [ofToken source a, ofToken source b, ofToken source c, n], ofToken source d],
      denotesStmt_declareValue ha (hfaithful b (by simp)) hb hn, fun t rest _ => ?_⟩
    have hends := hvalue.asWhole d (t :: rest) (endsExpression_symbol hd (by decide))
    simpa using Reads.declareValue ha hb hc hends hd
  | .assign x e, h, us, hus, hfaithful => by
    simp only [Stmt.lexemes, List.cons_append, List.nil_append,
      List.map_eq_append_iff, List.map_eq_cons_iff, List.map_eq_nil_iff] at hus
    obtain ⟨a, _, rfl, ha, b, _, rfl, hb, us, _, rfl, hus, c, _, rfl, hc, rfl⟩ := hus
    obtain ⟨n, hn, hvalue⟩ :=
      Expr.readable source e h.2 us hus fun t ht => hfaithful t (by simp [ht])
    refine ⟨above source .statement [above source .assignment
        [ofToken source a, ofToken source b, n], ofToken source c],
      denotesStmt_assign (hfaithful a (by simp)) ha hn, fun t rest _ => ?_⟩
    have hends := hvalue.asWhole c (t :: rest) (endsExpression_symbol hc (by decide))
    simpa using Reads.assign ha hb hends hc
  | .expr e, h, us, hus, hfaithful => by
    simp only [Stmt.lexemes, List.map_eq_append_iff, List.map_eq_cons_iff,
      List.map_eq_nil_iff] at hus
    obtain ⟨us, _, rfl, hus, a, _, rfl, ha, rfl⟩ := hus
    obtain ⟨n, hn, hvalue⟩ := Expr.readable source e h us hus fun t ht => hfaithful t (by simp [ht])
    refine ⟨above source .statement [n, ofToken source a], denotesStmt_expr hn, fun t rest _ => ?_⟩
    have hends := hvalue.asWhole a (t :: rest) (endsExpression_symbol ha (by decide))
    simpa using Reads.expressionStatement hends ha
  | .ret none, _, us, hus, _ => by
    simp only [Stmt.lexemes, List.cons_append, List.nil_append, List.map_eq_cons_iff,
      List.map_eq_nil_iff] at hus
    obtain ⟨a, _, rfl, ha, b, _, rfl, hb, rfl⟩ := hus
    exact ⟨_, denotesStmt_returnNothing, fun t rest _ => .returnNothing ha hb⟩
  | .ret (some e), h, us, hus, hfaithful => by
    simp only [Stmt.lexemes, List.cons_append, List.nil_append,
      List.map_eq_append_iff, List.map_eq_cons_iff, List.map_eq_nil_iff] at hus
    obtain ⟨a, _, rfl, ha, us, _, rfl, hus, b, _, rfl, hb, rfl⟩ := hus
    obtain ⟨n, hn, hvalue⟩ := Expr.readable source e h us hus fun t ht => hfaithful t (by simp [ht])
    refine ⟨above source .statement [above source .returning [ofToken source a, n],
      ofToken source b], denotesStmt_returnValue hn, fun t rest _ => ?_⟩
    have hends := hvalue.asWhole b (t :: rest) (endsExpression_symbol hb (by decide))
    simpa using Reads.returnValue ha hends hb
  | .cond test yes none, h, us, hus, hfaithful => by
    simp only [Stmt.lexemes, List.append_assoc, List.cons_append, List.nil_append,
      List.map_eq_cons_iff (l := us)] at hus
    obtain ⟨a, us, rfl, ha, hus⟩ := hus
    rw [List.forall_mem_cons] at hfaithful
    obtain ⟨parts, hparts, hreads⟩ := exists_conditionAndBody (Expr.readable source test h.1)
      (Stmt.readable source yes h.2) a hus hfaithful.2
    exact ⟨_, denotesStmt_conditional hparts, fun t rest ht =>
      .conditional ha (hreads t rest fun _ => ht rfl) (ht rfl)⟩
  | .cond test yes (some no), h, us, hus, hfaithful => by
    obtain ⟨htest, hyes, hdangling, hno⟩ := h
    have hsplit : us.map Token.lexeme = keyword ifWord :: ((symbol leftParen ::
        (test.lexemes ++ symbol rightParen :: yes.lexemes)) ++ keyword elseWord :: no.lexemes) := by
      simpa [Stmt.lexemes] using hus
    obtain ⟨a, _, rfl, ha, hsplit⟩ := List.map_eq_cons_iff.mp hsplit
    obtain ⟨us, _, rfl, hhead, hsplit⟩ := List.map_eq_append_iff.mp hsplit
    obtain ⟨d, ws, rfl, hd, hws⟩ := List.map_eq_cons_iff.mp hsplit
    simp only [List.forall_mem_cons, List.forall_mem_append] at hfaithful
    obtain ⟨_, hall, _, hall'⟩ := hfaithful
    obtain ⟨parts, hparts, hreads⟩ := exists_conditionAndBody (Expr.readable source test htest)
      (Stmt.readable source yes hyes) a hhead hall
    obtain ⟨o, ho, hno⟩ := Stmt.readable source no hno ws hws hall'
    refine ⟨above source .statement [above source .conditional (parts ++ [ofToken source d, o])],
      denotesStmt_conditionalElse hparts ho, fun t rest ht => ?_⟩
    -- the branch does not end in a conditional that would take the `else`
    have hbody := hreads d (ws ++ t :: rest) fun h => by cases hdangling.symm.trans h
    rw [List.cons_append, List.append_assoc]
    exact .conditionalElse ha hbody hd (hno t rest ht)
  | .loop test body, h, us, hus, hfaithful => by
    simp only [Stmt.lexemes, List.append_assoc, List.cons_append, List.nil_append,
      List.map_eq_cons_iff (l := us)] at hus
    obtain ⟨a, us, rfl, ha, hus⟩ := hus
    rw [List.forall_mem_cons] at hfaithful
    obtain ⟨parts, hparts, hreads⟩ := exists_conditionAndBody (Expr.readable source test h.1)
      (Stmt.readable source body h.2) a hus hfaithful.2
    exact ⟨_, denotesStmt_loop hparts, fun t rest ht => .loop ha (hreads t rest ht)⟩
  | .block statements, h, us, hus, hfaithful => by
    obtain ⟨b, hb, hblock⟩ := (Stmt.all_readable source statements h).block hus hfaithful
    exact ⟨_, denotesStmt_block hb, fun t rest _ => .blockStatement (hblock (t :: rest))⟩
  | .function f parameters (.block statements), h, us, hus, hfaithful => by
    rw [Stmt.lexemes] at hus
    obtain ⟨us, vs, rfl, hhead, hvs⟩ := List.map_eq_append_iff.mp hus
    simp only [List.cons_append, List.nil_append, List.map_eq_cons_iff] at hhead
    obtain ⟨a, _, rfl, ha, b, us, rfl, hb, hhead⟩ := hhead
    simp only [List.forall_mem_append, List.forall_mem_cons] at hfaithful
    obtain ⟨⟨_, hb', hall⟩, hall'⟩ := hfaithful
    obtain ⟨t₀, ws, t₁, ps, rfl, hparams⟩ := exists_parameterTokens hhead hall
    obtain ⟨n, hn, hblock⟩ := (Stmt.all_readable source statements h.2.2).block hvs hall'
    refine ⟨above source .statement [functionOf source false
        (ofToken source a :: ofToken source b :: (ofToken source t₀ :: ps ++ [ofToken source t₁])
          ++ [n])],
      denotesStmt_functionBlock ha hb' hb (hparams.heads [a, b]) hn, fun t rest _ => ?_⟩
    simpa using Reads.functionBlock ha hb hparams.opening (hparams.reads (vs ++ t :: rest))
      hparams.closing (hblock (t :: rest))
theorem Stmt.all_readable (source : String) : (ss : List Stmt) → Stmt.AllWritable ReadsBack ss →
    Stmt.AllReadable source ss
  | [], _, us, hus, _ => by
    obtain rfl := List.map_eq_nil_iff.mp hus
    exact ⟨[], by rw [stmtEach_eq]; rfl, fun t rest ht => .stop ht⟩
  | s :: ss, h, us, hus, hfaithful => by
    obtain ⟨us, vs, rfl, hfirst, hmore⟩ := List.map_eq_append_iff.mp hus
    rw [List.forall_mem_append] at hfaithful
    obtain ⟨n, hn, hreads⟩ := Stmt.readable source s h.1 us hfirst hfaithful.1
    obtain ⟨ns, hns, hothers⟩ := Stmt.all_readable source ss h.2 vs hmore hfaithful.2
    refine ⟨n :: ns, ?_, fun t rest ht => ?_⟩
    · rw [stmtEach_eq] at hns
      simpa [stmtEach_eq, hn.kind, hn.ofNode] using hns
    · have hrest := hothers t rest ht
      -- the first token of the other statements is no `else` that the first one could take
      obtain ⟨v, vs', hv, hne⟩ := Grammar.head_ne_else hrest
      have hstatement := hreads v vs' fun _ => hne
      rw [← hv] at hstatement
      rw [List.append_assoc]
      exact .next hstatement hrest
end

/-! ## Whole programs -/

/-- A compiled program can be written, if its floats can. -/
theorem writable_of_compile {source : String} {limit : Nat} {p : Program}
    (hsize : source.utf8ByteSize < Span.offsetCount) (hcompile : compile source limit = .ok p)
    (hfloats : ∀ x ∈ p.floats, ReadsBack x) : Stmt.AllWritable ReadsBack p.statements :=
  Stmt.AllWritable.of_floats _ (writable_of_literals hsize hcompile) hfloats

/-- The text of a program that can be written is compiled to the program as the body of its entry
point, unless the nesting limit is smaller than the number of tokens. -/
theorem compile_text_of_writable {p : Program} (hsize : p.text.utf8ByteSize < Span.offsetCount)
    (h : Stmt.AllWritable ReadsBack p.statements) {limit : Nat}
    (hlimit : (scan p.text).tokens.length ≤ limit) :
    compile p.text limit = .ok ⟨[p.asFunction]⟩ := by
  obtain ⟨herrors, hlexemes, _⟩ := Program.scan_text h
  have hwritable : Stmt.AllWritable ReadsBack [p.asFunction] :=
    ⟨⟨isName_entryPoint, List.forall_mem_nil _, h⟩, trivial⟩
  -- the tokens are those of the function, and the end
  obtain ⟨us, _, htokens, hus, heof⟩ := List.map_eq_append_iff.mp hlexemes
  obtain ⟨t, _, rfl, ht, hnil⟩ := List.map_eq_cons_iff.mp heof
  obtain rfl := List.map_eq_nil_iff.mp hnil
  have hfaithful (u : Token) (hu : u ∈ us) : u.Faithful p.text :=
    faithful_of_mem_scan hsize herrors (htokens ▸ List.mem_append_left _ hu)
  obtain ⟨ns, hns, hreads⟩ := Stmt.all_readable p.text [p.asFunction] hwritable us
    (hus.trans (List.append_nil _).symm) hfaithful
  have hstatements : Reads p.text .statements (scan p.text).tokens ns [t] :=
    htokens ▸ hreads t [] (.inr ht)
  exact compile_of_reads herrors hstatements ht hns hlimit

/-- Writing a compiled program and compiling its text gives the program back, as the body of a
function: no grouping of operators, no `else`, no lambda, string or name is changed. -/
theorem compile_text_roundTrip (source : String) (limit : Nat) (p : Program)
    (hsize : source.utf8ByteSize < 2 ^ 32) (hcompile : compile source limit = .ok p)
    (htext : p.text.utf8ByteSize < 2 ^ 32) (hfloats : ∀ x ∈ p.floats, ReadsBack x) :
    ∃ depth < 2 ^ 32, ∀ limit' ≥ depth,
      compile p.text limit' = .ok ⟨[.function "main" [] (.block p.statements)]⟩ := by
  have hwritable := writable_of_compile hsize hcompile hfloats
  obtain ⟨_, _, hcount⟩ := Program.scan_text hwritable
  exact ⟨(scan p.text).tokens.length, Nat.lt_of_le_of_lt hcount htext,
    fun limit' hlimit => compile_text_of_writable htext hwritable hlimit⟩

/-- The float of the sample below. -/
theorem readsBack_sample : ReadsBack 2.5 :=
  ⟨⟨['2'], ['5'], by decide +kernel, ⟨by decide, List.all_eq_true.mp rfl⟩,
    ⟨by decide, List.all_eq_true.mp rfl⟩⟩,
    by decide +kernel⟩

/-- Two groupings of one operator, an `else` that belongs to the inner conditional, the body of a
lambda that is called, a float and a string. -/
theorem compile_text_roundTrip_sample :
    ∃ p, compile "let f = x => x - (1 - 2.5); if (!a) if (b) f(\"s\"); else (y => y)(3) * 2;" 16
        = .ok p ∧ p.floats = [2.5] ∧ ∃ depth < 2 ^ 32, ∀ limit' ≥ depth,
      compile p.text limit' = .ok ⟨[.function "main" [] (.block p.statements)]⟩ := by
  have hsample : (match compile
      "let f = x => x - (1 - 2.5); if (!a) if (b) f(\"s\"); else (y => y)(3) * 2;" 16 with
      | .ok p => decide (p.floats = [2.5] ∧ p.text.utf8ByteSize < 2 ^ 32)
      | .error _ => false) = true := by decide +kernel
  split at hsample
  next p hcompile =>
    obtain ⟨hfloats, htext⟩ := of_decide_eq_true hsample
    exact ⟨p, hcompile, hfloats, compile_text_roundTrip _ 16 p (by decide) hcompile htext
      (by simpa [hfloats] using readsBack_sample)⟩
  next => cases hsample

end SimpleLang
