import SimpleLang.Proofs.Parser.Soundness

/-!
# Relations that whole parses respect

A parser looks at lexemes, moves its cursor, takes leaves, puts nodes above them and reports errors.
A relation between two parsers that these steps and their sequencing respect holds between the same
rule of the grammar run on two sources, as soon as it holds between the constructs one level deeper.
So a statement about two parses, or about one, asks only what the steps do.

Three rules look further than the lexeme at the cursor: an assignment and a lambda are told by the
second lexeme, a lambda in parentheses by all that stands between these, and the number of rounds is
bounded by the number of tokens. Of what they choose between, a relation may use that it takes a
token (`Consumes`) or passes a closing parenthesis (`Encloses`).

* `Parser.Respects Rel N`: the steps respect `Rel`; along with it goes a relation `N` between the
  nodes that are built.
* `Level.Respects Rel N`: the constructs one level deeper do as well, and guarded statements.
* `Level.Respects.construct`: then every construct does, and
  `Level.Respects.guardedStatements`: the statements up to a lexeme.
-/

namespace SimpleLang

/-- Whether the error is that the nesting limit was exceeded. -/
def SyntaxError.isTooDeep : SyntaxError → Bool
  | .tooDeep _ => true
  | _ => false

namespace Parser

/-! ## What is chosen by looking ahead -/

/-- Off the end a run without errors takes at least one token. -/
def Consumes {α : Type} (p : Parser α) : Prop :=
  Sound p fun i _ o => AtCursor (· ≠ .eof) i → o.length < i.length

/-- Off the end a run without errors takes a token and passes a closing parenthesis behind it. -/
def Encloses {α : Type} (p : Parser α) : Prop :=
  Sound p fun i _ o => AtCursor (· ≠ .eof) i → ∃ t mid u rest,
    i = t :: (mid ++ u :: rest) ∧ u.lexeme = .symbol .rightParen ∧ o <:+ rest

section Consumes

variable {α β : Type} {p : Parser α} {f : α → Parser β} {P : List Token → α → List Token → Prop}
  {Q : α → List Token → β → List Token → Prop}

/-- If the first of two parsers takes a token then so do both, since the second one gives nothing
back (`Sound.suffix`). -/
theorem Consumes.bind_left (h : Consumes p) (hf : ∀ a, Sound (f a) (Q a)) :
    Consumes (p >>= f) := by
  refine (Sound.bind h fun a => (hf a).suffix).mono ?_
  rintro i b o - ⟨a, m, hlt, -, hsuffix⟩ hcursor
  exact Nat.lt_of_le_of_lt hsuffix.length_le (hlt hcursor)

/-- `bump` takes the token at the cursor, and off the end the cursor moves. -/
theorem consumes_bump (source : String) : Consumes (bump source) := by
  refine (bump_sound source).mono ?_
  rintro i n o - hbump hcursor
  obtain ⟨t, rfl, -, -⟩ := hbump hcursor (by simp)
  exact Nat.lt_succ_self _

variable {level : Level}

/-- A construct need not take a token to make this so: the semicolon behind it is one. -/
theorem consumes_terminated {construct : Parser Node} {R : List Token → Node → List Token → Prop}
    (h : Sound construct R) :
    Consumes (terminated level construct >>= fun parts => node level.source .statement parts) := by
  refine (terminated_sound h.suffix).mono ?_
  rintro i n o - ⟨m, t, ⟨-, hsuffix⟩, -, -⟩ -
  exact hsuffix.length_le

variable (hlevel : LevelSound level)

include hlevel

/-- Off the end a guarded statement takes a token: a statement without errors is not empty
(`Reads.length_lt`). -/
theorem consumes_guardedStatement : Consumes (do return [← guardedStatement level]) := by
  refine Consumes.bind_left ((guardedStatement_sound hlevel).mono ?_) fun n => .pure [n]
  exact fun i n o _ hread _ => hread.length_lt rfl

/-- A lambda with a single parameter starts with `bump`. -/
theorem consumes_nameLambda :
    Consumes (do
      let name ← bump level.source
      let names ← node level.source .parameters [name]
      lambdaBody level [names]) :=
  (consumes_bump level.source).bind_left fun name =>
    (node_sound level.source .parameters [name]).bind fun names => lambdaBody_sound hlevel [names]

/-- The closing parenthesis is the one that `expect` takes behind the parameters, and the body
follows it. -/
theorem encloses_parenthesizedLambda : Encloses (parenthesizedLambda level) := by
  refine ((bump_sound level.source).bind fun opening =>
    (parametersUnlessClosed_sound level).bind fun names =>
      (expect_sound level.source .rightParen).bind fun closing =>
        lambdaBody_sound hlevel (opening :: names ++ closing)).mono ?_
  rintro i n o - ⟨opening, m, hbump, names, _, hparams, _, rest, ⟨u, rfl, hclose, -⟩, hbody⟩ hcursor
  obtain ⟨t, rfl, -, -⟩ := hbump hcursor (by simp)
  obtain ⟨mid, rfl⟩ := hparams.suffix
  exact ⟨t, mid, u, rest, rfl, hclose, hbody.suffix⟩

/-- As for `encloses_parenthesizedLambda`, with an expression in place of the parameters. -/
theorem encloses_group : Encloses (group level) := by
  refine ((bump_sound level.source).bind fun opening => (expression_sound hlevel).bind
    fun inner => (expect_sound level.source .rightParen).bind fun closing =>
      node_sound level.source .expression (opening :: inner :: closing)).mono ?_
  rintro i n o - ⟨opening, m, hbump, inner, _, hinner, _, rest, ⟨u, rfl, hclose, -⟩, rfl, -⟩ hcursor
  obtain ⟨t, rfl, -, -⟩ := hbump hcursor (by simp)
  obtain ⟨mid, rfl⟩ := hinner.suffix
  exact ⟨t, mid, u, _, rfl, hclose, List.suffix_rfl⟩

end Consumes

/-- `opensLambda` sees lexemes only. The induction follows its recursion over names and commas, and
a closing parenthesis asks for one more lexeme. -/
theorem opensLambda_congr {ts ts' : List Token}
    (h : ts.map Token.lexeme = ts'.map Token.lexeme) : opensLambda ts = opensLambda ts' := by
  induction ts generalizing ts' with
  | nil => rw [List.map_eq_nil_iff.mp h.symm]
  | cons t ts ih =>
    obtain ⟨t', ts', rfl, hlexeme, hrest⟩ := List.map_eq_cons_iff.mp h.symm
    obtain ⟨_, span⟩ := t
    obtain ⟨l, span'⟩ := t'
    obtain rfl : l = _ := hlexeme
    have hnext := ih hrest.symm
    cases l with
    | ident x => exact hnext
    | symbol s =>
      cases s with
      | comma => exact hnext
      | rightParen =>
        -- only the next lexeme decides
        cases ts with
        | nil =>
          rw [List.map_eq_nil_iff.mp hrest]
          rfl
        | cons u us =>
          obtain ⟨u', us', rfl, hu, -⟩ := List.map_eq_cons_iff.mp hrest
          obtain ⟨_, span₁⟩ := u
          obtain ⟨l, span₁'⟩ := u'
          obtain rfl : l = _ := hu
          cases l with
          | symbol s => cases s <;> rfl
          | _ => rfl
      | _ => rfl
    | _ => rfl

/-! ## Relations -/

/-- The steps of parsers and their sequencing respect a relation. `source` and `source'` are the
texts that nodes are cut from, and `N` is what is kept of the nodes. -/
structure Respects (Rel : (α β : Type) → (α → β → Prop) → Parser α → Parser β → Prop)
    (N : Node → Node → Prop) (source source' : String) : Prop where
  pure {α β : Type} {R : α → β → Prop} {a : α} {b : β} :
    R a b → Rel α β R (Pure.pure a) (Pure.pure b)
  bind {α β α' β' : Type} {R : α → β → Prop} {R' : α' → β' → Prop} {p : Parser α} {q : Parser β}
    {f : α → Parser α'} {g : β → Parser β'} :
    Rel α β R p q → (∀ a b, R a b → Rel α' β' R' (f a) (g b)) →
      Rel α' β' R' (p >>= f) (q >>= g)
  peek : Rel Lexeme Lexeme Eq peek peek
  advance : Rel Unit Unit Eq advance advance
  /-- Of the nesting limit no rule of the grammar knows. -/
  report {e : SyntaxError} : e.isTooDeep = false → Rel Unit Unit Eq (report e) (report e)
  bump : Rel Node Node N (bump source) (bump source')
  node {ns ns' : List Node} {kind : NodeKind} :
    kind.isToken = false → List.Forall₂ N ns ns' →
      Rel Node Node N (node source kind ns) (node source' kind ns')
  marked {n n' : Node} (arrow : Bool) : N n n' → N { n with arrow } { n' with arrow }
  /-- A choice by the second lexeme. -/
  second {α β : Type} {R : α → β → Prop} {f : Lexeme → Parser α} {g : Lexeme → Parser β} :
    (∀ l, Rel α β R (f l) (g l)) → (∀ l, Consumes (f l)) →
      Rel α β R (peekSecond >>= f) (peekSecond >>= g)
  /-- A choice by whether a parenthesis opens the parameters of a lambda. -/
  lambda {α β : Type} {R : α → β → Prop} {p q : Parser α} {p' q' : Parser β} :
    Rel α β R p p' → Rel α β R q q' → Encloses p → Encloses q →
      Rel α β R (do if opensLambda (← get).ahead then p else q)
        (do if opensLambda (← get).ahead then p' else q')
  /-- Rounds that are bounded by the tokens behind the cursor. -/
  repeatWhile {more : Lexeme → Bool} {round round' : Parser (List Node)} :
    more .eof = false → Consumes round →
      Rel (List Node) (List Node) (List.Forall₂ N) round round' →
        Rel (List Node) (List Node) (List.Forall₂ N) (repeatWhile more round)
          (repeatWhile more round')

/-- Two nested constructs of one kind. A chain goes on from what is parsed already, which `N` has to
relate. -/
inductive Nested.Alike (N : Node → Node → Prop) : Nested → Nested → Prop where
  | statement : Alike N .statement .statement
  | expression (minimum : Nat) : Alike N (.expression minimum) (.expression minimum)
  | operation (minimum : Nat) (op : Operation) {left left' : Node} :
    N left left' → Alike N (.operation minimum op left) (.operation minimum op left')
  | negation : Alike N .negation .negation
  | call {callee callee' : Node} : N callee callee' → Alike N (.call callee) (.call callee')

/-- The constructs one level deeper respect the relation too. Guarded statements are asked for
separately, because recovery counts errors and positions, which no step of `Parser.Respects`
does. -/
structure Level.Respects (Rel : (α β : Type) → (α → β → Prop) → Parser α → Parser β → Prop)
    (N : Node → Node → Prop) (level level' : Level) : Prop
    extends Parser.Respects Rel N level.source level'.source where
  sound : LevelSound level
  enter {nested nested' : Nested} :
    nested.Alike N nested' → Rel Node Node N (level.enter nested) (level'.enter nested')
  guarded : Rel Node Node N (guardedStatement level) (guardedStatement level')

variable {Rel : (α β : Type) → (α → β → Prop) → Parser α → Parser β → Prop}
  {N : Node → Node → Prop}

/-! ## Basic routines -/

namespace Respects

variable {source source' : String} (h : Respects Rel N source source')

include h

/-- The lexeme at the cursor is the same on both sides, so either both take the symbol or both
report the same error. -/
theorem expect (wanted : Symbol) :
    Rel (List Node) (List Node) (List.Forall₂ N) (expect source wanted)
      (expect source' wanted) := by
  refine h.bind h.peek ?_
  rintro found _ rfl
  split
  · exact h.bind h.bump fun _ _ hn => h.pure (.cons hn .nil)
  · exact h.bind (h.report rfl) fun _ _ _ => h.pure .nil

theorem expectName :
    Rel (List Node) (List Node) (List.Forall₂ N) (expectName source) (expectName source') := by
  refine h.bind h.peek ?_
  rintro found _ rfl
  split
  · exact h.bind h.bump fun _ _ hn => h.pure (.cons hn .nil)
  · exact h.bind (h.report rfl) fun _ _ _ => h.pure .nil

/-- A round of `repeatWhile` starts with a comma, so it takes a token whatever the item does. -/
theorem separated {item item' : Parser (List Node)} {R : List Token → List Node → List Token → Prop}
    (hsound : Sound item R) (hitem : Rel (List Node) (List Node) (List.Forall₂ N) item item') :
    Rel (List Node) (List Node) (List.Forall₂ N) (separated source item)
      (separated source' item') := by
  refine h.bind hitem fun first first' hfirst => ?_
  refine h.bind (h.repeatWhile (by decide) ?_ ?_) fun others others' hothers =>
    h.pure (List.rel_append hfirst hothers)
  · exact (consumes_bump source).bind_left fun comma => hsound.bind fun ns => .pure (comma :: ns)
  · exact h.bind h.bump fun _ _ hcomma => h.bind hitem fun _ _ hn => h.pure (.cons hcomma hn)

end Respects

/-! ## The grammar -/

namespace Level.Respects

variable {level level' : Level} (h : Level.Respects Rel N level level')

include h

theorem expression : Rel Node Node N (expression level) (expression level') :=
  h.enter (.expression 0)

/-- Statements as long as the lexeme at the cursor asks for one, as a block and a program have
them. -/
theorem guardedStatements {more : Lexeme → Bool} (heof : more .eof = false) :
    Rel (List Node) (List Node) (List.Forall₂ N)
      (Parser.repeatWhile more do return [← guardedStatement level])
      (Parser.repeatWhile more do return [← guardedStatement level']) :=
  h.repeatWhile heof (consumes_guardedStatement h.sound)
    (h.bind h.guarded fun _ _ hn => h.pure (.cons hn .nil))

theorem block : Rel Node Node N (block level) (block level') := by
  refine h.bind (h.expect _) fun _ _ hopening => ?_
  refine h.bind (h.guardedStatements (by decide)) fun _ _ hbody => ?_
  refine h.bind (h.expect _) fun _ _ hclosing => h.node rfl ?_
  exact List.rel_append (List.rel_append hopening hbody) hclosing

theorem parametersUnlessClosed :
    Rel (List Node) (List Node) (List.Forall₂ N) (parametersUnlessClosed level)
      (parametersUnlessClosed level') := by
  refine h.bind h.peek ?_
  rintro l _ rfl
  split
  · exact h.pure .nil
  -- the parameters form a node of their own, and that is the only element of the list
  · have hnames := h.separated (expectName_sound _) h.expectName
    refine h.bind (h.bind hnames fun _ _ hns => h.node rfl hns) fun _ _ hn => ?_
    exact h.pure (.cons hn .nil)

theorem expressionsUnless (closing : Symbol) :
    Rel (List Node) (List Node) (List.Forall₂ N) (expressionsUnless level closing)
      (expressionsUnless level' closing) := by
  refine h.bind h.peek ?_
  rintro l _ rfl
  split
  · exact h.pure .nil
  · exact h.separated ((expression_sound h.sound).bind fun n => .pure [n])
      (h.bind h.expression fun _ _ hn => h.pure (.cons hn .nil))

/-! ### Statements -/

theorem declaration : Rel Node Node N (declaration level) (declaration level') := by
  refine h.bind h.bump fun _ _ hword => h.bind h.expectName fun _ _ hname => h.bind h.peek ?_
  rintro l _ rfl
  split
  · refine h.bind h.bump fun _ _ hsign => h.bind h.expression fun _ _ hvalue => h.node rfl ?_
    exact List.rel_append (.cons hword hname) (.cons hsign (.cons hvalue .nil))
  · exact h.node rfl (List.rel_append (.cons hword hname) .nil)

theorem assignment : Rel Node Node N (assignment level) (assignment level') := by
  refine h.bind h.bump fun _ _ hname => h.bind h.bump fun _ _ hsign => ?_
  refine h.bind h.expression fun _ _ hvalue => h.node rfl ?_
  exact .cons hname (.cons hsign (.cons hvalue .nil))

/-- Besides the nodes, both sides agree on whether the body stands behind an arrow. -/
theorem functionBody :
    Rel (List Node × Bool) (List Node × Bool)
      (fun body body' => List.Forall₂ N body.1 body'.1 ∧ body.2 = body'.2)
      (functionBody level) (functionBody level') := by
  refine h.bind h.peek ?_
  rintro l _ rfl
  split
  · refine h.bind h.bump fun _ _ hsign => h.bind h.expression fun _ _ hvalue => ?_
    refine h.bind (h.expect _) fun _ _ hclosing => h.pure ⟨?_, rfl⟩
    exact .cons hsign (.cons hvalue hclosing)
  · exact h.bind h.block fun _ _ hblock => h.pure ⟨.cons hblock .nil, rfl⟩
  · exact h.bind (h.report rfl) fun _ _ _ => h.pure ⟨.nil, rfl⟩

/-- The node of the definition gets its mark last, and `marked` says that `N` allows for it. -/
theorem function : Rel Node Node N (function level) (function level') := by
  refine h.bind h.bump fun _ _ hword => h.bind h.expectName fun _ _ hname => ?_
  refine h.bind (h.expect _) fun _ _ hopening => ?_
  refine h.bind h.parametersUnlessClosed fun _ _ hnames => ?_
  refine h.bind (h.expect _) fun _ _ hclosing => h.bind h.functionBody ?_
  -- the marks are equal, so both nodes get the same one
  rintro ⟨body, arrow⟩ ⟨body', _⟩ ⟨hbody, rfl⟩
  refine h.bind (h.node rfl ?_) fun _ _ hn => h.pure (h.marked arrow hn)
  have hhead := List.rel_append (List.rel_append (.cons hword hname) hopening) hnames
  exact List.rel_append (List.rel_append hhead hclosing) hbody

theorem returning : Rel Node Node N (returning level) (returning level') := by
  refine h.bind h.bump fun _ _ hword => h.bind h.peek ?_
  rintro l _ rfl
  split
  · exact h.node rfl (.cons hword .nil)
  · exact h.bind h.expression fun _ _ hvalue => h.node rfl (.cons hword (.cons hvalue .nil))

/-- The common head of `conditional` and `loop`. -/
theorem conditionAndBody :
    Rel (List Node) (List Node) (List.Forall₂ N) (conditionAndBody level)
      (conditionAndBody level') := by
  refine h.bind h.bump fun _ _ hword => h.bind (h.expect _) fun _ _ hopening => ?_
  refine h.bind h.expression fun _ _ htest => h.bind (h.expect _) fun _ _ hclosing => ?_
  refine h.bind (h.enter .statement) fun _ _ hbody => h.pure ?_
  have hhead := List.rel_append (.cons hword hopening) (.cons htest hclosing)
  exact List.rel_append hhead (.cons hbody .nil)

theorem conditional : Rel Node Node N (conditional level) (conditional level') := by
  refine h.bind h.conditionAndBody fun _ _ hhead => h.bind h.peek ?_
  rintro l _ rfl
  split
  · refine h.bind h.bump fun _ _ hword => h.bind (h.enter .statement) fun _ _ hno => h.node rfl ?_
    exact List.rel_append hhead (.cons hword (.cons hno .nil))
  · exact h.node rfl (List.rel_append hhead .nil)

theorem terminated {p p' : Parser Node} (hp : Rel Node Node N p p') :
    Rel (List Node) (List Node) (List.Forall₂ N) (terminated level p) (terminated level' p') :=
  h.bind hp fun _ _ hn => h.bind (h.expect _) fun _ _ hend => h.pure (.cons hn hend)

/-- The choice is by the first lexeme, which both sides share; for a name `second` asks that each
branch takes a token. -/
theorem statement : Rel Node Node N (statement level) (statement level') := by
  -- a statement is the node above the parts of one construct
  have hterminated {p p' : Parser Node} (hp : Rel Node Node N p p') :
      Rel Node Node N (Parser.terminated level p >>= Parser.node level.source .statement)
        (Parser.terminated level' p' >>= Parser.node level'.source .statement) :=
    h.bind (h.terminated hp) fun _ _ hparts => h.node rfl hparts
  have hsingle {p p' : Parser Node} (hp : Rel Node Node N p p') :
      Rel Node Node N (p >>= fun n => Parser.node level.source .statement [n])
        (p' >>= fun n => Parser.node level'.source .statement [n]) :=
    h.bind hp fun _ _ hn => h.node rfl (.cons hn .nil)
  refine h.bind h.peek ?_
  rintro l _ rfl
  split
  · exact hterminated h.declaration
  · exact hsingle h.function
  · exact hterminated h.returning
  · exact hsingle h.conditional
  · exact hsingle (h.bind h.conditionAndBody fun _ _ hparts => h.node rfl hparts)
  · exact hsingle h.block
  -- an assignment or an expression, by the second lexeme
  · refine h.second (fun second => ?_) fun second => ?_
    · split
      · exact hterminated h.assignment
      · exact hterminated h.expression
    · split
      · refine consumes_terminated ((bump_sound _).bind fun name => (bump_sound _).bind
          fun sign => (expression_sound h.sound).bind fun value => node_sound _ _ _)
      · exact consumes_terminated (expression_sound h.sound)
  · exact hterminated h.expression

/-! ### Expressions -/

theorem wrapPrimary {n n' : Node} (hn : N n n') :
    Rel Node Node N (wrapPrimary level n) (wrapPrimary level' n') :=
  h.bind (h.node rfl (.cons hn .nil)) fun _ _ hprimary => h.node rfl (.cons hprimary .nil)

theorem lambdaBody {head head' : List Node} (hhead : List.Forall₂ N head head') :
    Rel Node Node N (lambdaBody level head) (lambdaBody level' head') := by
  refine h.bind (h.expect _) fun _ _ hsign => h.bind h.peek ?_
  -- what follows the body is the same for a block and for an expression
  have hlambda {p p' : Parser Node} (hp : Rel Node Node N p p') :=
    h.bind hp fun _ _ hbody => h.bind
      (h.node (show NodeKind.lambda.isToken = false from rfl)
        (List.rel_append (List.rel_append hhead hsign) (.cons hbody .nil)))
      fun _ _ hn => h.wrapPrimary hn
  rintro l _ rfl
  split
  · exact hlambda h.block
  · exact hlambda h.expression

theorem parenthesizedLambda :
    Rel Node Node N (parenthesizedLambda level) (parenthesizedLambda level') := by
  refine h.bind h.bump fun _ _ hopening => h.bind h.parametersUnlessClosed fun _ _ hnames => ?_
  refine h.bind (h.expect _) fun _ _ hclosing => h.lambdaBody ?_
  exact List.rel_append (.cons hopening hnames) hclosing

theorem group : Rel Node Node N (group level) (group level') := by
  refine h.bind h.bump fun _ _ hopening => h.bind h.expression fun _ _ hinner => ?_
  exact h.bind (h.expect _) fun _ _ hclosing => h.node rfl (.cons hopening (.cons hinner hclosing))

theorem array : Rel Node Node N (array level) (array level') := by
  refine h.bind h.bump fun _ _ hopening => h.bind (h.expressionsUnless _) fun _ _ hvalues => ?_
  refine h.bind (h.expect _) fun _ _ hclosing => h.node rfl ?_
  exact List.rel_append (.cons hopening hvalues) hclosing

theorem missingExpression :
    Rel Node Node N (missingExpression level) (missingExpression level') := by
  refine h.bind h.peek ?_
  rintro l _ rfl
  refine h.bind (h.report rfl) fun _ _ _ => h.bind (h.node rfl .nil) fun _ _ hn => ?_
  split
  · exact h.bind h.advance fun _ _ _ => h.pure hn
  · exact h.pure hn

/-- The cases are those of the first lexeme. Names look at the second lexeme (`second`), parentheses
at all that stands in them (`lambda`). -/
theorem primary : Rel Node Node N (primary level) (primary level') := by
  refine h.bind h.peek ?_
  rintro l _ rfl
  split
  iterate 5 exact h.bind h.bump fun _ _ hn => h.wrapPrimary hn
  -- a name starts a lambda if an arrow is behind it
  · refine h.second (fun second => ?_) fun second => ?_
    · split
      · refine h.bind h.bump fun _ _ hname => ?_
        refine h.bind (h.node rfl (.cons hname .nil)) fun _ _ hnames => ?_
        exact h.lambdaBody (.cons hnames .nil)
      · exact h.bind h.bump fun _ _ hn => h.wrapPrimary hn
    · split
      · exact consumes_nameLambda h.sound
      · exact (consumes_bump _).bind_left fun leaf => wrapPrimary_sound leaf
  · exact h.bind h.array fun _ _ hn => h.wrapPrimary hn
  · exact h.lambda h.parenthesizedLambda h.group (encloses_parenthesizedLambda h.sound)
      (encloses_group h.sound)
  · exact h.missingExpression

/-- A call goes on with `callee` one level deeper, where `Nested.Alike.call` takes the relation
along. -/
theorem calls {n n' : Node} (hn : N n n') : Rel Node Node N (calls level n) (calls level' n') := by
  refine h.bind h.peek ?_
  rintro l _ rfl
  split
  · exact h.enter (.call hn)
  · exact h.pure hn

theorem operand : Rel Node Node N (operand level) (operand level') := by
  refine h.bind h.peek ?_
  rintro l _ rfl
  split
  · exact h.enter .negation
  · exact h.bind h.primary fun _ _ hn => h.calls hn

/-- An operator goes on with its left operand one level deeper, as `calls` does. -/
theorem operations (minimum : Nat) {n n' : Node} (hn : N n n') :
    Rel Node Node N (operations level minimum n) (operations level' minimum n') := by
  refine h.bind h.peek ?_
  rintro l _ rfl
  split
  · split
    · exact h.enter (.operation minimum _ hn)
    · exact h.pure hn
  · exact h.pure hn

/-- Every construct respects the relation if those one level deeper do. This is the step of each
induction on levels; its uses supply `enter`. -/
theorem construct {nested nested' : Nested} (hnested : nested.Alike N nested') :
    Rel Node Node N (construct level nested) (construct level' nested') := by
  cases hnested with
  | statement => exact h.statement
  | expression minimum => exact h.bind h.operand fun _ _ hn => h.operations minimum hn
  | operation minimum op hleft =>
    refine h.bind h.bump fun _ _ hsign => h.bind (h.enter (.expression _)) fun _ _ hright => ?_
    refine h.bind (h.node rfl ?_) fun _ _ hn => h.operations minimum hn
    exact .cons hleft (.cons hsign (.cons hright .nil))
  | negation =>
    refine h.bind h.bump fun _ _ hsign => h.bind h.operand fun _ _ hinner => h.node rfl ?_
    exact .cons hsign (.cons hinner .nil)
  | call hcallee =>
    refine h.bind h.bump fun _ _ hopening => h.bind (h.expressionsUnless _) fun _ _ hvalues => ?_
    refine h.bind (h.node rfl hvalues) fun _ _ harguments => ?_
    refine h.bind (h.expect _) fun _ _ hclosing => ?_
    refine h.bind (h.node rfl ?_) fun _ _ hn => h.calls hn
    exact .cons hcallee (.cons hopening (.cons harguments hclosing))

end Level.Respects

end Parser

end SimpleLang
