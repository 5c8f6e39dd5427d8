import SimpleLang.Proofs.Parser.InStep
import SimpleLang.Proofs.Tokens

/-!
# The parser and the parser by levels

`Routine.program` and `Parser.program` build the same trees and report the same errors
(`Node.ofTokens_eq`), so what is proved of the second holds of the first.

`refines_rule`: every rule goes in step with the construct that takes the same level
(`Context.Refines`). It is by induction on how often rules may come back to others.
-/

namespace SimpleLang

namespace Routine

open SimpleLang.Parser (EndsOnce)

/-! ## The rules -/

structure Context.Refines (c : Context) (limit : Nat) : Prop where
  statement (left : Nat) : Routine.Refines limit left (c.nested .statement)
    (Parser.enter c.source limit left .statement)
  expression (left : Nat) {power minimum : Nat} (h : SameMinimum power minimum) :
    Routine.Refines limit left (c.nested (.expression power))
      (Parser.enter c.source limit left (.expression minimum))
  negation (left : Nat) : Routine.Refines limit left (c.nested .negation)
    (Parser.enter c.source limit left .negation)

/-- `Parser.guardedStatement` reads the state before the statement, which is `t`. What follows the
statement is then two conditions one after the other, as `recover` and `moveOn` are. -/
theorem guardedStatement_eq (level : Parser.Level) (t : Parser.State) :
    Parser.guardedStatement level t = (do
      let n ← level.enter .statement
      (do if t.errors.size < (← get).errors.size then Parser.synchronize)
      (do if t.position = (← get).position then Parser.advance)
      return n) t := by
  have hget (u : Parser.State) : (get : Parser Parser.State) u = .ok u u := rfl
  have hite {P : Prop} [Decidable P] {α : Type} (p q : Parser Unit) (f : Unit → Parser α) :
      (if P then p else q) >>= f = if P then p >>= f else q >>= f := by split <;> rfl
  rw [Parser.guardedStatement, Parser.bind_of_ok (hget t)]
  simp only [bind_assoc, hite, pure_bind]

/-- The parts of a statement by levels. `Parser.statement` builds the node in each of its cases,
`statement` once behind all of them. -/
def partsByLevel (level : Parser.Level) : Parser (List Node) := do
  match ← Parser.peek with
  | .keyword .letWord => Parser.terminated level (Parser.declaration level)
  | .keyword .fnWord => return [← Parser.function level]
  | .keyword .returnWord => Parser.terminated level (Parser.returning level)
  | .keyword .ifWord => return [← Parser.conditional level]
  | .keyword .whileWord => return [← Parser.loop level]
  | .symbol .leftBrace => return [← Parser.block level]
  | .ident _ =>
    if (← Parser.peekSecond) = .symbol .assign then
      Parser.terminated level (Parser.assignment level)
    else Parser.terminated level (Parser.expression level)
  | _ => Parser.terminated level (Parser.expression level)

theorem statement_eq (level : Parser.Level) :
    Parser.statement level = (do
      Parser.node level.source .statement (← partsByLevel level)) := by
  have hite {P : Prop} [Decidable P] {α β : Type} (p q : Parser α) (f : α → Parser β) :
      (if P then p else q) >>= f = if P then p >>= f else q >>= f := by split <;> rfl
  rw [Parser.statement, partsByLevel, bind_assoc]
  congr 1
  funext l
  cases l with
  | keyword word => cases word <;> simp only [bind_assoc]
  | symbol x => cases x <;> simp only [bind_assoc]
  | ident name => simp only [bind_assoc, hite]
  | integer | float | string | eof => rfl

section Rules

variable {c : Context} {limit left : Nat} (hc : c.Refines limit)

/-- The tokens behind the cursor bound the loops of the parser by levels as `refinesFrom_rounds`
needs. -/
theorem Matches.size_le {s : State} {t : Parser.State} (hs : Matches limit s t) :
    s.tokens.size ≤ s.position + t.ahead.length + 1 := by
  rw [hs.ahead, List.length_drop, Array.length_toList]
  omega

/-- A round takes a comma and an item on both sides. -/
theorem refines_furtherItems {item : Routine (List Node)} {item' : Parser (List Node)}
    (h : Refines limit left item item') (items : List Node) :
    Refines limit left (furtherItems c item items)
      (do return items ++ (← Parser.repeatWhile (· == .symbol .comma)
        (Parser.commaRound c.source item'))) := by
  intro s t hs hleft
  refine refinesFrom_rounds (itemRound c item) rfl (fun items s t hs hmore => ?_)
    (fun items s t hs hleft hmore => ?_) position_lt_of_itemRound c.bound t.ahead items s t hs
      hleft hs.size_le
  · rw [itemRound, run_bind_of_ok (run_isAt hs.current _), hmore]
    rfl
  · refine .isAt_bind hs ?_
    rw [show (t.current.lexeme == .symbol .comma) = true from hmore, if_pos rfl]
    simp only [Parser.commaRound, bind_assoc, pure_bind]
    exact (refines_bump _).bind (fun comma => h.bind fun ns => refines_pure _) s t hs hleft

/-- The parser by levels appends the other items only where it uses them. -/
theorem refines_furtherItems_bind {α : Type} {item : Routine (List Node)}
    {item' : Parser (List Node)} (h : Refines limit left item item') (items : List Node)
    {f : List Node → Routine α} {g : List Node → Parser α}
    (hf : ∀ ns, Refines limit left (f ns) (g ns)) :
    Refines limit left (furtherItems c item items >>= f) (do
      let others ← Parser.repeatWhile (· == .symbol .comma) (Parser.commaRound c.source item')
      g (items ++ others)) := by
  have hitems := (refines_furtherItems (c := c) h items).bind hf
  simp only [bind_assoc, pure_bind] at hitems
  exact hitems

include hc

theorem refines_expression :
    Refines limit left (expression c) (Parser.expression (Parser.levelAt c.source limit left)) :=
  hc.expression left sameMinimum_zero

theorem refines_guardedStatement : Refines limit left (guardedStatement c)
    (Parser.guardedStatement (Parser.levelAt c.source limit left)) := by
  intro s t hs hleft a s' hrun
  rw [guardedStatement_eq, hs.errors, hs.position]
  exact (hc.statement left).bind (fun n => (refines_recover c s.errors.size).bind fun _ =>
    (refines_moveOn s.position).bind fun _ => refines_pure n) s t hs hleft a s' hrun

/-- For a program and for a block, which differ in the lexeme that ends their statements (`ends` and
`more`). A statement that is in step has refused no level, so the loop of the routine goes on as the
other one does. -/
theorem refines_guardedStatements {ends : Routine Bool} (hends : EndsStatements ends)
    {more : Lexeme → Bool} (hend : more .eof = false)
    (hmore : ∀ {s u}, s.tokens[s.position]? = some u →
      ends.run s = .ok (!more u.lexeme, s)) :
    Refines limit left (guardedStatements c ends) (Parser.repeatWhile more do
      return [← Parser.guardedStatement (Parser.levelAt c.source limit left)]) := by
  have hlast (statements : List Node) (s : State) (t : Parser.State) (hs : Matches limit s t)
      (hlast : more t.current.lexeme = false) :
      (statementRound c ends statements).run s = .ok (.done statements, s) := by
    rw [statementRound, run_bind_of_ok (hmore hs.current), hlast]
    rfl
  have hnext (statements : List Node) (s : State) (t : Parser.State) (hs : Matches limit s t)
      (hleft : s.depth + left = limit) (hnext : more t.current.lexeme = true) :
      RefinesFrom limit s.depth s t (statementRound c ends statements) (do
        let next ← (do return [← Parser.guardedStatement (Parser.levelAt c.source limit left)])
        return .yield (statements ++ next)) := by
    intro a s' hrun
    rw [statementRound, run_bind_of_ok (hmore hs.current), hnext, Bool.not_true,
      if_neg Bool.false_ne_true] at hrun
    simp only [bind_assoc, pure_bind]
    refine RefinesFrom.bind hs (refines_guardedStatement hc s t hs hleft)
      (fun n u v hu hdepth => ?_) a s' hrun
    -- no level was refused, so there may be more statements
    intro a s' hrun
    have hflag : (liftM Action.overflowed : Routine Bool).run u = .ok (u.overflowed, u) := rfl
    rw [run_bind_of_ok hflag, hu.flag] at hrun
    cases hrun
    exact .ends hu hdepth
  intro s t hs hleft
  have hloop := refinesFrom_rounds (statementRound c ends) hend hlast hnext
    (position_lt_of_statementRound hends) c.bound t.ahead [] s t hs hleft hs.size_le
  simp only [List.nil_append, bind_pure] at hloop
  exact hloop

theorem refines_program : Refines limit left (guardedStatements c (isAt .eof))
    (Parser.repeatWhile (· != .eof) do
      return [← Parser.guardedStatement (Parser.levelAt c.source limit left)]) :=
  refines_guardedStatements hc endsStatements_isAt rfl fun {_ u} hu => by
    rw [run_isAt hu]
    simp [bne]

theorem refines_block :
    Refines limit left (block c) (Parser.block (Parser.levelAt c.source limit left)) := by
  have hbody : Refines limit left (guardedStatements c atBlockEnd)
      (Parser.repeatWhile (fun l => l != .symbol .rightBrace && l != .eof) do
        return [← Parser.guardedStatement (Parser.levelAt c.source limit left)]) := by
    refine refines_guardedStatements hc endsStatements_atBlockEnd rfl fun {s u} hu => ?_
    rw [atBlockEnd, run_bind_of_ok (run_isAt hu _), run_bind_of_ok (run_isAt hu _)]
    simp only [bne, Bool.not_and, Bool.not_not]
    rfl
  exact (refines_expect _ _).bind fun _ => hbody.bind fun _ => (refines_expect _ _).bind fun _ =>
    refines_node _ _ _

omit hc in
theorem refines_parameters :
    Refines limit left (parameters c) (Parser.parameters (Parser.levelAt c.source limit left)) := by
  simp only [Parser.parameters, Parser.separated, bind_assoc, pure_bind]
  exact (refines_expectName _).bind fun first =>
    refines_furtherItems_bind (refines_expectName _) first fun names => refines_node _ _ names

omit hc in
/-- Many rules go on in one of two ways. -/
theorem refines_if {α : Type} {x : Lexeme} {r r' : Routine α} {p p' : Parser α}
    (h : Refines limit left r p) (h' : Refines limit left r' p') :
    Refines limit left (do if ← isAt x then r else r')
      (do if (← Parser.peek) = x then p else p') := by
  refine refines_isAt_bind ?_ fun s t hs hleft hne => ?_
  · rw [if_pos rfl, if_pos rfl]
    exact h
  · rw [if_neg Bool.false_ne_true, if_neg hne]
    exact h' s t hs hleft

omit hc in
theorem refines_parametersUnlessClosed : Refines limit left (parametersUnlessClosed c)
    (Parser.parametersUnlessClosed (Parser.levelAt c.source limit left)) :=
  refines_if (refines_pure _) (refines_parameters.bind fun _ => refines_pure _)

theorem refines_expressionsUnless (closing : Symbol) :
    Refines limit left (expressionsUnless c closing)
      (Parser.expressionsUnless (Parser.levelAt c.source limit left) closing) := by
  refine refines_if (refines_pure _) ?_
  simp only [Parser.separated, bind_assoc, pure_bind]
  refine (refines_expression hc).bind fun first => ?_
  exact refines_furtherItems ((refines_expression hc).bind fun n => refines_pure [n]) [first]

/-! ### Statements -/

theorem refines_declaration : Refines limit left (declaration c)
    (Parser.declaration (Parser.levelAt c.source limit left)) :=
  (refines_bump _).bind fun _ => (refines_expectName _).bind fun _ => refines_if
    ((refines_bump _).bind fun _ => (refines_expression hc).bind fun _ => (refines_pure _).bind
      fun _ => refines_node _ _ _)
    ((refines_pure _).bind fun _ => refines_node _ _ _)

theorem refines_assignment : Refines limit left (assignment c)
    (Parser.assignment (Parser.levelAt c.source limit left)) :=
  (refines_bump _).bind fun _ => (refines_bump _).bind fun _ => (refines_expression hc).bind
    fun _ => refines_node _ _ _

/-- `functionBody` asks for one lexeme after the other, and `Parser.functionBody` goes by the lexeme
there is. -/
theorem refines_functionBody : Refines limit left (functionBody c)
    (Parser.functionBody (Parser.levelAt c.source limit left)) := by
  refine refines_isAt_bind ?_ fun s t hs hleft harrow => ?_
  · rw [if_pos rfl]
    exact (refines_bump _).bind fun _ => (refines_expression hc).bind fun _ =>
      (refines_expect _ _).bind fun _ => refines_pure _
  · rw [if_neg Bool.false_ne_true]
    refine .isAt_bind hs ?_
    -- without an arrow there is a block, or an error
    by_cases hbrace : t.current.lexeme = .symbol .leftBrace
    · rw [hbrace, beq_self_eq_true, if_pos rfl]
      exact (refines_block hc).bind (fun _ => refines_pure _) s t hs hleft
    · rw [beq_eq_false_iff_ne.mpr hbrace, if_neg Bool.false_ne_true]
      refine .peek_left hs ?_
      split
      next heq => exact absurd heq harrow
      next heq => exact absurd heq hbrace
      next => exact (refines_report _).bind (fun _ => refines_pure _) s t hs hleft

theorem refines_function : Refines limit left (function c)
    (Parser.function (Parser.levelAt c.source limit left)) :=
  (refines_bump _).bind fun _ => (refines_expectName _).bind fun _ => (refines_expect _ _).bind
    fun _ => refines_parametersUnlessClosed.bind fun _ => (refines_expect _ _).bind fun _ =>
      (refines_functionBody hc).bind fun _ => (refines_node _ _ _).bind fun _ => refines_pure _

theorem refines_returning : Refines limit left (returning c)
    (Parser.returning (Parser.levelAt c.source limit left)) :=
  (refines_bump _).bind fun _ => refines_if ((refines_pure _).bind fun _ => refines_node _ _ _)
    ((refines_expression hc).bind fun _ => (refines_pure _).bind fun _ => refines_node _ _ _)

theorem refines_conditionAndBody : Refines limit left (conditionAndBody c)
    (Parser.conditionAndBody (Parser.levelAt c.source limit left)) :=
  (refines_bump _).bind fun _ => (refines_expect _ _).bind fun _ => (refines_expression hc).bind
    fun _ => (refines_expect _ _).bind fun _ => (hc.statement left).bind fun _ => refines_pure _

theorem refines_conditional : Refines limit left (conditional c)
    (Parser.conditional (Parser.levelAt c.source limit left)) :=
  (refines_conditionAndBody hc).bind fun _ => refines_if
    ((refines_bump _).bind fun _ => (hc.statement left).bind fun _ => (refines_pure _).bind fun _ =>
      refines_node _ _ _)
    ((refines_pure _).bind fun _ => refines_node _ _ _)

theorem refines_loop : Refines limit left (loop c)
    (Parser.loop (Parser.levelAt c.source limit left)) :=
  (refines_conditionAndBody hc).bind fun _ => refines_node _ _ _

omit hc in
/-- Statements that end with a `;`. -/
theorem refines_terminated {construct : Routine Node} {construct' : Parser Node}
    (h : Refines limit left construct construct') : Refines limit left (terminated c construct)
      (Parser.terminated (Parser.levelAt c.source limit left) construct') :=
  h.bind fun _ => (refines_expect _ _).bind fun _ => refines_pure _

/-- Both go by the first lexeme, and for a name by the second one as well. -/
theorem refines_statementParts : Refines limit left (statementParts c)
    (partsByLevel (Parser.levelAt c.source limit left)) := by
  have hsemicolon : Refines limit left (terminated c (expression c))
      (Parser.terminated (Parser.levelAt c.source limit left)
        (Parser.expression (Parser.levelAt c.source limit left))) :=
    refines_terminated (refines_expression hc)
  refine refines_peek_bind fun s t hs hleft => ?_
  generalize t.current.lexeme = l
  cases l with
  | keyword word =>
    cases word with
    | letWord => exact refines_terminated (refines_declaration hc) s t hs hleft
    | fnWord => exact (refines_function hc).bind (fun _ => refines_pure _) s t hs hleft
    | returnWord => exact refines_terminated (refines_returning hc) s t hs hleft
    | ifWord => exact (refines_conditional hc).bind (fun _ => refines_pure _) s t hs hleft
    | whileWord => exact (refines_loop hc).bind (fun _ => refines_pure _) s t hs hleft
    -- what starts no other statement is an expression
    | elseWord | trueWord | falseWord => exact hsemicolon s t hs hleft
  | symbol x =>
    by_cases hbrace : x = .leftBrace
    · subst hbrace
      exact (refines_block hc).bind (fun _ => refines_pure _) s t hs hleft
    · cases x <;> first | exact hsemicolon s t hs hleft | exact absurd rfl hbrace
  | ident name =>
    refine refines_peekAt_bind (fun second => ?_) s t hs hleft
    split
    · exact refines_terminated (refines_assignment hc)
    · exact hsemicolon
  | integer | float | string | eof => exact hsemicolon s t hs hleft

/-! ### Expressions -/

omit hc in
theorem refines_wrapPrimary (inner : Node) : Refines limit left (wrapPrimary c inner)
    (Parser.wrapPrimary (Parser.levelAt c.source limit left) inner) :=
  (refines_node _ _ _).bind fun _ => refines_node _ _ _

/-- The body is a block or an expression, and what is built behind it is the same (`hrest`). -/
theorem refines_lambdaBody (head : List Node) : Refines limit left (lambdaBody c head)
    (Parser.lambdaBody (Parser.levelAt c.source limit left) head) := by
  have hrest (sign : List Node) (body : Node) : Refines limit left (do
      let lambda ← node c.source .lambda (head ++ sign ++ [body])
      wrapPrimary c lambda) (do
      let lambda ← Parser.node c.source .lambda (head ++ sign ++ [body])
      Parser.wrapPrimary (Parser.levelAt c.source limit left) lambda) :=
    (refines_node _ _ _).bind fun _ => refines_wrapPrimary _
  exact (refines_expect _ _).bind fun sign => refines_if ((refines_block hc).bind (hrest sign))
    ((refines_expression hc).bind (hrest sign))

theorem refines_parenthesizedLambda : Refines limit left (parenthesizedLambda c)
    (Parser.parenthesizedLambda (Parser.levelAt c.source limit left)) :=
  (refines_bump _).bind fun _ => refines_parametersUnlessClosed.bind fun _ =>
    (refines_expect _ _).bind fun _ => refines_lambdaBody hc _

theorem refines_group : Refines limit left (group c)
    (Parser.group (Parser.levelAt c.source limit left)) :=
  (refines_bump _).bind fun _ => (refines_expression hc).bind fun _ =>
    (refines_expect _ _).bind fun _ => refines_node _ _ _

theorem refines_array : Refines limit left (array c)
    (Parser.array (Parser.levelAt c.source limit left)) :=
  (refines_bump _).bind fun _ => (refines_expressionsUnless hc _).bind fun _ =>
    (refines_expect _ _).bind fun _ => refines_node _ _ _

omit hc in
/-- The lexeme that is no expression is looked at twice, and it is the same. -/
theorem refines_missingExpression : Refines limit left (missingExpression c)
    (Parser.missingExpression (Parser.levelAt c.source limit left)) := by
  refine refines_peek_bind fun s t hs hleft a s' hrun => ?_
  have hs' := hs.report (.expectedExpression t.current.lexeme) t.current.span
  have hreport : (liftM (Action.report (.expectedExpression t.current.lexeme)) : Routine Unit).run s
      = .ok ((), s.report (.expectedExpression t.current.lexeme) t.current.span) :=
    perform_report _ hs.current
  obtain ⟨n, hn, hn'⟩ := run_node c.source hs' .expression []
  have hmissing : (missing c.source .expression).run _ = .ok (n, _) := hn
  rw [run_bind_of_ok hreport, run_bind_of_ok hmissing, run_bind_of_ok (run_peek hs'.current)]
    at hrun
  have hreport' : Parser.report (.expectedExpression t.current.lexeme) t = .ok () { t with
      errors := t.errors.push ((SyntaxError.expectedExpression t.current.lexeme).diagnostic
        t.current.span) } := rfl
  rw [Parser.bind_of_ok hreport', Parser.bind_of_ok hn']
  rw [← s.depth_report (.expectedExpression t.current.lexeme) t.current.span] at hleft ⊢
  revert hrun
  split
  · exact refines_advance_bind (fun _ => refines_pure n) _ _ hs' hleft a s'
  · exact refines_pure n _ _ hs' hleft a s'

omit hc in
/-- Looking ahead from an offset reads the tokens from there on, as `Parser.opensLambda` does, and
changes nothing. The induction is on the bound of the rounds; within it the look-ahead ends at the
latest on the end of the tokens. -/
theorem run_lambdaFrom {s : State} (hs : s.InOrder) :
    ∀ bound offset answer s', (lambdaFrom bound offset).run s = .ok (answer, s') →
      answer = Parser.opensLambda (s.tokens.toList.drop (s.position + offset)) ∧ s' = s := by
  intro bound
  induction bound with
  | zero =>
    intro offset answer s' hrun
    cases hrun
  | succ bound ih =>
    intro offset answer s' hrun
    obtain ⟨u, hu⟩ := hs.exists_ahead offset
    rw [lambdaFrom, run_bind_of_ok (run_peekAt hu)] at hrun
    -- at the end of the tokens there is no lambda, be the offset there or beyond it
    by_cases heof : u.lexeme = .eof
    · rw [heof] at hrun
      cases hrun
      refine ⟨?_, rfl⟩
      cases hdrop : s.tokens.toList.drop (s.position + offset) with
      | nil => rfl
      | cons v rest =>
        -- the end is at the offset itself
        have hlt : s.position + offset < s.tokens.size := by
          have := congrArg List.length hdrop
          rw [List.length_drop, Array.length_toList, List.length_cons] at this
          omega
        have hv : s.tokens[s.position + offset]? = some v := by
          rw [← Array.getElem?_toList, ← List.head?_drop, hdrop]
          rfl
        rw [Nat.min_eq_left (by omega), hv] at hu
        cases hu
        obtain ⟨l, span⟩ := u
        cases heof
        rfl
    -- elsewhere the token at the offset is the head of the list
    · have hlt := hs.lt_of_ne_eof hu heof
      rw [Nat.min_eq_left (by omega)] at hu hlt
      have hrest : s.tokens.toList.drop (s.position + offset) =
          u :: s.tokens.toList.drop (s.position + (offset + 1)) := by
        rw [Array.getElem?_eq_some_iff] at hu
        obtain ⟨hlt, rfl⟩ := hu
        exact List.drop_eq_getElem_cons hlt
      rw [hrest]
      obtain ⟨l, span⟩ := u
      -- names and commas go on, and a parenthesis asks for the arrow behind it
      cases l with
      | ident name => exact ih (offset + 1) answer s' hrun
      | symbol x =>
        by_cases hcomma : x = .comma
        · subst hcomma
          exact ih (offset + 1) answer s' hrun
        · by_cases hparen : x = .rightParen
          · subst hparen
            have hnext : s.tokens[s.position + (offset + 1)]? =
                some s.tokens[s.position + (offset + 1)] := Array.getElem?_eq_getElem (by omega)
            have hahead : s.tokens[min (s.position + (offset + 1)) (s.tokens.size - 1)]? =
                some s.tokens[s.position + (offset + 1)] := by
              rw [Nat.min_eq_left (by omega), hnext]
            rw [List.drop_eq_getElem_cons (by simpa [Nat.add_assoc] using hlt)]
            change (peekAt (offset + 1) >>= fun l => pure (l == .symbol .arrow)).run s = _ at hrun
            rw [run_bind_of_ok (run_peekAt hahead)] at hrun
            cases hrun
            refine ⟨?_, rfl⟩
            rw [Array.getElem_toList]
            generalize s.tokens[s.position + (offset + 1)] = v
            obtain ⟨l, span⟩ := v
            cases l with
            | symbol x => cases x <;> rfl
            | keyword | integer | float | string | ident | eof => rfl
          · cases x <;> first
              | exact absurd rfl hcomma
              | exact absurd rfl hparen
              | (cases hrun; exact ⟨rfl, rfl⟩)
      | keyword | integer | float | string | eof =>
        cases hrun
        exact ⟨rfl, rfl⟩

/-- Both go by the first lexeme. A parenthesis needs `run_lambdaFrom`, since a lambda and a group
both begin with it. -/
theorem refines_primary : Refines limit left (primary c)
    (Parser.primary (Parser.levelAt c.source limit left)) := by
  have hleaf : Refines limit left (do wrapPrimary c (← bump c.source)) (do
      Parser.wrapPrimary (Parser.levelAt c.source limit left) (← Parser.bump c.source)) :=
    (refines_bump _).bind fun _ => refines_wrapPrimary _
  have hmissing : Refines limit left (missingExpression c) _ := refines_missingExpression
  refine refines_peek_bind fun s t hs hleft => ?_
  -- what the routine finds by going over the tokens is what `opensLambda` says of them
  have hopens : RefinesFrom limit s.depth s t
      (do if ← lambdaAhead c then parenthesizedLambda c else group c)
      (do if Parser.opensLambda (← get).ahead then
            Parser.parenthesizedLambda (Parser.levelAt c.source limit left)
          else Parser.group (Parser.levelAt c.source limit left)) := by
    intro n s' hrun
    obtain ⟨answer, u, hahead, hrest⟩ := exists_of_run_bind hrun
    obtain ⟨hanswer, rfl⟩ := run_lambdaFrom hs.toInOrder c.bound 1 answer u hahead
    rw [← hs.ahead] at hanswer
    show Follows limit u.depth s' n ((if Parser.opensLambda t.ahead then
        Parser.parenthesizedLambda (Parser.levelAt c.source limit left)
      else Parser.group (Parser.levelAt c.source limit left) : Parser Node) t)
    rw [← hanswer]
    split at hrest
    next hlambda =>
      rw [if_pos hlambda]
      exact refines_parenthesizedLambda hc u t hs hleft n s' hrest
    next hgroup =>
      rw [if_neg hgroup]
      exact refines_group hc u t hs hleft n s' hrest
  generalize t.current.lexeme = l
  cases l with
  | integer | float | string => exact hleaf s t hs hleft
  | keyword word =>
    cases word with
    | trueWord | falseWord => exact hleaf s t hs hleft
    | letWord | fnWord | returnWord | ifWord | elseWord | whileWord => exact hmissing s t hs hleft
  | ident name =>
    refine refines_peekAt_bind (fun second => ?_) s t hs hleft
    split
    · exact (refines_bump _).bind fun _ => (refines_node _ _ _).bind fun _ =>
        refines_lambdaBody hc _
    · exact hleaf
  | symbol x =>
    by_cases hbracket : x = .leftBracket
    · subst hbracket
      exact (refines_array hc).bind (fun _ => refines_wrapPrimary _) s t hs hleft
    · by_cases hparen : x = .leftParen
      · subst hparen
        exact hopens
      · cases x <;> first
          | exact hmissing s t hs hleft
          | exact absurd rfl hbracket
          | exact absurd rfl hparen
  | eof => exact hmissing s t hs hleft

omit hc in
/-- A granted level of a chain, and then its next part; a refused one ends the chain. Calls and
operators differ in the part and in the construct that it belongs to (`hconstruct`). -/
theorem chain_round {source : String} (chain : Nat → Node → Parser Node) {nested : Parser.Nested}
    {part : Routine Node} {part' : Nat → Parser Node} {x : Node} {k : Nat} {s s' : State}
    {t : Parser.State} {step : ForInStep (Node × Nat)} (hs : Matches limit s t)
    (hleft : s.depth + left = limit)
    (hpart : ∀ left', Refines limit left' part (part' left'))
    (hchain : chain left x t = Parser.enter source limit left nested t)
    (hconstruct : ∀ left', Parser.construct (Parser.levelAt source limit left') nested =
      (do chain left' (← part' left')))
    (hrun : (do
      if ← Action.enter then return .yield (← part, k + 1)
      else return .done (x, k) : Routine (ForInStep (Node × Nat))).run s = .ok (step, s')) :
    ChainStep limit chain left x k s t step s' := by
  obtain ⟨granted, u, henter, hrest⟩ := exists_of_run_bind hrun
  cases left with
  | zero =>
    cases (perform_enter_refused hs hleft).symm.trans henter
    cases hrest
    obtain ⟨t', hstop, herrors, hne⟩ := enter_zero hs source nested
    exact .stopped (hchain.trans hstop) rfl herrors (herrors ▸ hne)
  | succ left =>
    cases (perform_enter_granted hs (by omega)).symm.trans henter
    obtain ⟨y, v, hy, hrest⟩ := exists_of_run_bind hrest
    cases hrest
    have hentered : Matches limit { s with depth := s.depth + 1 } t := hs.withDepth (by omega)
    have hfollows := hpart left _ t hentered (show s.depth + 1 + left = limit by omega) y s' hy
    have hnext : chain (left + 1) x t = (part' left >>= chain left) t :=
      hchain.trans (congrFun (hconstruct left) t)
    -- the part ends on both sides, or a level was refused within it
    cases hp : part' left t with
    | ok z t' =>
      rw [hp] at hfollows
      cases hfollows with
      | ends hmatches hdepth =>
        exact .taken rfl hmatches hdepth (hnext.trans (Parser.bind_of_ok hp))
    | error e t' =>
      rw [hp] at hfollows
      cases hfollows with
      | stops hflag herrors hne =>
        exact .stopped (hnext.trans (Parser.bind_of_error hp)) hflag herrors hne

theorem refines_call (callee : Node) : Refines limit left (call c callee) (do
    let opening ← Parser.bump c.source
    let values ← Parser.expressionsUnless (Parser.levelAt c.source limit left) .rightParen
    let arguments ← Parser.node c.source .arguments values
    let closing ← Parser.expect c.source .rightParen
    Parser.node c.source .expression (callee :: opening :: arguments :: closing)) :=
  (refines_bump _).bind fun _ => (refines_expressionsUnless hc _).bind fun _ =>
    (refines_node _ _ _).bind fun _ => (refines_expect _ _).bind fun _ => refines_node _ _ _

/-- A call follows where there is a `(`. -/
theorem refinesChain_calls : RefinesChain limit (callRound c) fun left =>
    Parser.calls (Parser.levelAt c.source limit left) := by
  intro left x k s t hs hleft step s' hrun
  rw [callRound, run_bind_of_ok (run_isAt hs.current _)] at hrun
  have hcalls : Parser.calls (Parser.levelAt c.source limit left) x t =
      (if t.current.lexeme = .symbol .leftParen then Parser.enter c.source limit left (.call x)
        else pure x : Parser Node) t := rfl
  by_cases hparen : t.current.lexeme = .symbol .leftParen
  · rw [if_pos hparen] at hcalls
    rw [if_pos (by simpa using hparen)] at hrun
    refine chain_round (fun left => Parser.calls (Parser.levelAt c.source limit left)) hs hleft
      (fun left' => refines_call hc x) hcalls (fun left' => ?_) hrun
    simp only [Parser.construct, bind_assoc]
  · rw [if_neg hparen] at hcalls
    rw [if_neg (by simpa using hparen)] at hrun
    cases hrun
    exact .atEnd hcalls

theorem refines_callChain (callee : Node) : Refines limit left (callChain c callee)
    (Parser.calls (Parser.levelAt c.source limit left) callee) :=
  fun _ _ hs hleft => (refinesChain_calls hc).refinesFrom hs hleft c.bound callee 0

theorem refines_unary : Refines limit left (unary c)
    (Parser.operand (Parser.levelAt c.source limit left)) :=
  refines_if (hc.negation left) ((refines_primary hc).bind fun _ => refines_callChain hc _)

/-- The right operand has the right power of the operator for its least one, and by levels the next
precedence (`sameMinimum_right`). -/
theorem refines_operation (operand : Node) (op : Operation) :
    Refines limit left (operation c operand (2 * op.precedence)) (do
      let sign ← Parser.bump c.source
      let right ← Parser.enter c.source limit left (.expression (op.precedence + 1))
      Parser.node c.source .expression [operand, sign, right]) :=
  (refines_bump _).bind fun _ => (hc.expression left (sameMinimum_right op)).bind fun _ =>
    refines_node _ _ _

/-- Where `bindingPower` and `Operation.precedence` meet: both admit the same operators. -/
theorem refinesChain_operations {power minimum : Nat} (hminimum : SameMinimum power minimum) :
    RefinesChain limit (operatorRound c power) fun left =>
      Parser.operations (Parser.levelAt c.source limit left) minimum := by
  intro left x k s t hs hleft step s' hrun
  have hpeek : Parser.peek t = .ok t.current.lexeme t := rfl
  rw [operatorRound, run_bind_of_ok (run_peek hs.current), bindingPower_eq] at hrun
  cases hop : t.current.lexeme.binary? with
  | none =>
    rw [hop] at hrun
    cases hrun
    refine .atEnd ?_
    show Parser.operations (Parser.levelAt c.source limit left) minimum x t = _
    rw [Parser.operations, Parser.bind_of_ok hpeek, hop]
    rfl
  | some op =>
    rw [hop] at hrun
    have hoperations : Parser.operations (Parser.levelAt c.source limit left) minimum x t =
        (if minimum ≤ op.precedence then Parser.enter c.source limit left (.operation minimum op x)
          else pure x : Parser Node) t := by
      rw [Parser.operations, Parser.bind_of_ok hpeek, hop]
    -- an operator of precedence `p` has the left power `2 * p - 1`
    change (if 2 * op.precedence - 1 < power then _ else _ : Routine _).run s = _ at hrun
    by_cases hle : minimum ≤ op.precedence
    · have hpower := (hminimum op).mpr hle
      rw [if_pos hle] at hoperations
      rw [if_neg (by omega)] at hrun
      refine chain_round
        (fun left => Parser.operations (Parser.levelAt c.source limit left) minimum)
        hs hleft (fun left' => refines_operation hc x op) hoperations (fun left' => ?_) hrun
      simp only [Parser.construct, bind_assoc]
    · have hpower := mt (hminimum op).mp hle
      rw [if_neg hle] at hoperations
      rw [if_pos (by omega)] at hrun
      cases hrun
      exact .atEnd hoperations

end Rules

/-! ## Programs -/

/-- What is built of the parts of a construct once its level is left. The parser by levels has left
it by returning. -/
theorem refinesFrom_leave_node (source : String) {limit depth : Nat} {s : State} {t : Parser.State}
    (hs : Matches limit s t) (hdepth : s.depth = depth + 1) (kind : NodeKind)
    (children : List Node) :
    RefinesFrom limit depth s t (liftM (Action.leave 1) >>= fun _ => node source kind children)
      (Parser.node source kind children) := by
  have hle := hs.maxDepth ▸ hs.depth_le
  have hleft : s.depth - 1 = depth := by omega
  refine RefinesFrom.leave_bind ?_
  rw [← hleft]
  exact refines_node source kind children _ t (hs.withDepth (by omega))
    (Nat.add_sub_cancel' (show s.depth - 1 ≤ limit by omega))

/-- A rule goes with the construct that takes the same level, by induction on how often it may come
back to others. With none left it faults, and `Refines` says nothing of a routine that does. -/
theorem refines_rule (source : String) (bound limit n : Nat) :
    Context.Refines { source, bound, nested := rule source bound n } limit := by
  induction n with
  | zero =>
    constructor
    · intro left s t _ _ a s' hrun
      cases hrun
    · intro left power minimum _ s t _ _ a s' hrun
      cases hrun
    · intro left s t _ _ a s' hrun
      cases hrun
  | succ n ih =>
    have hentered {left left' : Nat} {s : State} {t : Parser.State} (hs : Matches limit s t)
        (hleft : s.depth + left = limit) (hleft' : left = left' + 1) :
        Matches limit { s with depth := s.depth + 1 } t ∧ s.depth + 1 + left' = limit :=
      ⟨hs.withDepth (by omega), by omega⟩
    constructor
    -- a statement
    · intro left s t hs hleft
      refine RefinesFrom.enter_bind hs hleft fun left' hleft' => ?_
      obtain ⟨hs', hleft'⟩ := hentered hs hleft hleft'
      show RefinesFrom limit s.depth _ t _ (Parser.statement (Parser.levelAt source limit left'))
      rw [statement_eq]
      exact RefinesFrom.bind hs' (refines_statementParts ih _ t hs' hleft')
        fun parts u v hu hdepth => refinesFrom_leave_node source hu hdepth .statement parts
    -- an expression, which leaves its level with those of its operators
    · intro left power minimum hminimum s t hs hleft
      refine RefinesFrom.enter_bind hs hleft fun left' hleft' => ?_
      obtain ⟨hs', hleft'⟩ := hentered hs hleft hleft'
      refine RefinesFrom.bind hs' (refines_unary ih _ t hs' hleft') fun first u v hu hdepth => ?_
      have hchain := (refinesChain_operations ih hminimum).refinesFrom hu
        (show u.depth + left' = limit by rw [hdepth]; exact hleft') bound first 1
      rw [hdepth] at hchain
      exact hchain
    -- a negation
    · intro left s t hs hleft
      refine RefinesFrom.enter_bind hs hleft fun left' hleft' => ?_
      obtain ⟨hs', hleft'⟩ := hentered hs hleft hleft'
      refine RefinesFrom.bind hs' (refines_bump source _ t hs' hleft') fun sign u v hu hdepth => ?_
      refine RefinesFrom.bind hu (refines_unary ih u v hu (by rw [hdepth]; exact hleft'))
        fun inner u' v' hu' hdepth' => ?_
      exact refinesFrom_leave_node source hu' (hdepth'.trans hdepth) .expression [sign, inner]

/-- At the start no level is held and nothing is reported. -/
theorem matches_start {tokens : List Token} (hends : EndsOnce tokens) (limit : Nat) :
    Matches limit (.start tokens.toArray limit) (Parser.State.start tokens) := by
  obtain ⟨first, rest, rfl⟩ := List.exists_cons_of_ne_nil hends.ne_nil
  constructor
  case toInOrder =>
    exact { ends := hends, position_lt := Nat.succ_pos _, depth_le := Nat.zero_le _ }
  all_goals rfl

/-- On the tokens of a text the program comes to its end, in step with the program by levels. That
it ends is `balanced_program`, and `refines_program` needs it, since it is about runs that end. -/
theorem exists_run_program (source : String) {tokens : List Token} (hends : EndsOnce tokens)
    (limit : Nat) : ∃ statements s,
      (program source tokens.length limit).run (.start tokens.toArray limit) = .ok (statements, s) ∧
        Follows limit 0 s statements (Parser.program source limit (.start tokens)) := by
  have hs := matches_start hends limit
  have hready : (State.start tokens.toArray limit).Ready tokens.length (limit + 1) 0 :=
    { hs.toInOrder with
      size_le := Nat.le_refl _
      maxDepth_lt := by rw [Nat.zero_add]; exact Nat.lt_succ_self limit }
  -- the run comes to its end, and what it gives is what the parser by levels gives
  have hbalanced : Balanced tokens.length (limit + 1) (program source tokens.length limit) :=
    balanced_program (c := .ofProgram source tokens.length limit) (balanced_rule source _ _)
  obtain ⟨statements, s, hrun, -⟩ := hbalanced 0 0 _ hready rfl
  have hrefines : Refines limit limit (program source tokens.length limit) _ :=
    refines_program (refines_rule source tokens.length limit (limit + 1))
  exact ⟨statements, s, hrun, hrefines _ _ hs (Nat.zero_add limit) statements s hrun⟩

end Routine

/-- The two parsers give the same trees and the same errors. Where the parser by levels stopped
there is an error, so neither gives a tree. -/
theorem Node.ofTokens_eq (source : String) {tokens : List Token} (hends : Parser.EndsOnce tokens)
    (limit : Nat) : Node.ofTokens source tokens limit = Parser.ofTokens source tokens limit := by
  obtain ⟨statements, s, hrun, hfollows⟩ := Routine.exists_run_program source hends limit
  rw [Node.ofTokens, hrun, Parser.ofTokens]
  cases hprogram : Parser.program source limit (.start tokens) with
  | ok _ t =>
    rw [hprogram] at hfollows
    cases hfollows with
    | ends hmatches _ => simp only [hmatches.errors]
  | error _ t =>
    rw [hprogram] at hfollows
    cases hfollows with
    | stops _ herrors hne => simp only [herrors, Array.isEmpty_iff, hne, if_false]

/-- A source is parsed as its tokens are by the parser by levels, for the tokens of `scan` end with
the only end (`endsOnce_scan`). -/
theorem Node.parse_eq_ofTokens {source : String} (h : (scan source).errors = []) (limit : Nat) :
    Node.parse source limit = Parser.ofTokens source (scan source).tokens limit := by
  rw [Node.parse, h]
  exact Node.ofTokens_eq source (endsOnce_scan source) limit

/-- A source has a tree if it is cut into tokens without an error and its tokens have one. -/
theorem Node.parse_eq_ok_iff {source : String} {limit : Nat} {tree : Node} :
    Node.parse source limit = .ok tree ↔
      (scan source).errors = [] ∧ Parser.ofTokens source (scan source).tokens limit = .ok tree := by
  rw [Node.parse, Node.ofTokens_eq source (endsOnce_scan source), ← List.isEmpty_iff]
  cases (scan source).errors.isEmpty <;> simp

end SimpleLang
