import SimpleLang.Compile
import SimpleLang.Proofs.Literals
import SimpleLang.Proofs.Lowering
import SimpleLang.Proofs.Parser.Acceptance

/-!
# Every tree of a text is a program

The nodes of a reading are read as syntax, if the tokens are those of the text: no node has a shape
that the reading of trees does not know, every operator is one that stands where it may, and every
literal that the scan lets through is well formed. What they are read as is writable.

* `lowered_of_supplies` is the induction on the reading, with one case for each rule (`Lowered`).
* `exists_ofProgram`: the tree of a source is read as writable statements, and their floats are
  those of literals of the source (`LiteralOf`).
* `compile_of_reads`: the other way round, a reading of the tokens gives the program.
-/

namespace SimpleLang

open Node

def anyFloat : Float → Prop := fun _ => True

/-! ## Leaves and parameters -/

/-- A token that can be relied on, and if it is a float literal, its value satisfies `F`. -/
structure Token.Supplies (source : String) (F : Float → Prop) (t : Token) : Prop
    extends Token.Faithful source t where
  float : ∀ text x, t.lexeme = .float text → Decimal.read? text = some x → F x

/-- A literal stands for an expression. -/
theorem denotes_literal {source : String} {F : Float → Prop} {t : Token}
    (hsupplies : t.Supplies source F) (hliteral : t.lexeme.isLiteral) :
    ∃ e, (primaryOf source (ofToken source t)).Denotes e ∧ e.Writable F := by
  have ht := hsupplies.toFaithful
  have hne : t.lexeme ≠ .eof := by
    intro h
    simp [h, Lexeme.isLiteral] at hliteral
  have hformed := ht.wellFormed hne
  -- one case for each kind of literal, whose well-formedness is what reading it needs
  cases hl : t.lexeme with
  | integer digits =>
    rw [hl] at hformed
    obtain ⟨n, hn⟩ := Option.isSome_iff_exists.mp (ht.integer digits hl)
    exact ⟨.int n, denotes_primaryOf fun outer => within_integer ht hl hn,
      Integer.toInt_nonneg hformed hn⟩
  | float text =>
    rw [hl] at hformed
    obtain ⟨x, hx⟩ := Decimal.exists_read? hformed
    exact ⟨.float x, denotes_primaryOf fun outer => within_float ht hl hx,
      hsupplies.float text x hl hx⟩
  | string text =>
    rw [hl] at hformed
    obtain ⟨body, htext, hquote⟩ := hformed
    obtain rfl : text = String.ofList ('"' :: (body ++ ['"'])) := by
      rw [← htext, String.ofList_toList]
    refine ⟨.string (String.ofList body), denotes_primaryOf fun outer => within_string ht hl, ?_⟩
    show '"' ∉ (String.ofList body).toList
    rwa [String.toList_ofList]
  | keyword word =>
    cases word with
    | trueWord => exact ⟨.bool true, denotes_primaryOf fun outer => within_bool ht hl, trivial⟩
    | falseWord => exact ⟨.bool false, denotes_primaryOf fun outer => within_bool ht hl, trivial⟩
    | _ => simp [hl, Lexeme.isLiteral] at hliteral
  | symbol _ | ident _ | eof => simp [hl, Lexeme.isLiteral] at hliteral

/-- A name that the scan lets through is one. -/
theorem isName_of_ident {source : String} {t : Token} {x : String} (ht : t.Faithful source)
    (hname : t.lexeme = .ident x) : IsName x := by
  have hformed := ht.wellFormed (by simp [hname])
  rwa [hname] at hformed

/-- Names that are read are names. -/
theorem names_of_readsNames {source : String} {input rest : List Token} {ns : List Node}
    (h : ReadsNames source input ns rest) (hfaithful : ∀ t ∈ input, t.Faithful source) :
    ∀ x ∈ (ns.filter (·.kind == .token .name)).map Node.text, IsName x := by
  have hfirst (t : Token) (x : String) (ht : t.Faithful source) (hname : t.lexeme = .ident x) :
      IsName (ofToken source t).text := by
    rw [text_ofToken ht hname]
    exact isName_of_ident ht hname
  induction h with
  | @last t _ x _ hname _ =>
    have ht := hfaithful t (by simp)
    simpa [hname, TokenKind.ofLexeme] using hfirst t x ht hname
  | @more t u x _ _ ns hname hcomma _ ih =>
    have ht := hfaithful t (by simp)
    -- commas are not among the names
    have hfilter : (ofToken source t :: ofToken source u :: ns).filter (·.kind == .token .name)
        = ofToken source t :: ns.filter (·.kind == .token .name) := by
      simp [hname, hcomma, TokenKind.ofLexeme, Symbol.binary?]
    rw [hfilter, List.map_cons]
    exact List.forall_mem_cons.mpr
      ⟨hfirst t x ht hname, ih fun t h => hfaithful t (by simp [h])⟩

/-- Parameters are read as one node or as none, which is what `IsParameters` says. -/
theorem isParameters_of_reads {source : String} {input rest : List Token} {ps : List Node}
    (h : ReadsParameters source input ps rest) (hfaithful : ∀ t ∈ input, t.Faithful source) :
    ∃ xs, IsParameters source ps xs ∧ ∀ x ∈ xs, IsName x := by
  cases h with
  | none _ => exact ⟨[], .inl ⟨rfl, rfl⟩, by simp⟩
  | some hnames => exact ⟨_, .inr ⟨_, rfl, rfl⟩, names_of_readsNames hnames hfaithful⟩

/-! ## Rules -/

section Rules

variable (F : Float → Prop)

def IsExpr (n : Node) : Prop := ∃ e, n.Denotes e ∧ e.Writable F

/-- The node stands for a writable statement; and one that would take an `else` is not followed
by any. -/
def IsStmt (rest : List Token) (n : Node) : Prop :=
  ∃ s, n.DenotesStmt s ∧ s.Writable F ∧
    (s.dangling → ∀ t ∈ rest.head?, t.lexeme ≠ .keyword .elseWord)

variable {F}

/-- Most statements take no `else`, so it does not matter what follows them. -/
theorem isStmt_of_not_dangling {rest : List Token} {n : Node} {s : Stmt} (hs : n.DenotesStmt s)
    (hwritable : s.Writable F) (hclosed : s.dangling = false) : IsStmt F rest n :=
  ⟨s, hs, hwritable, fun h => absurd h (by rw [hclosed]; exact Bool.false_ne_true)⟩

variable (F) in
/-- What the nodes of a rule stand for, given the tokens behind them. Operations and calls are read
behind an expression, and a lambda behind its parameters, so these are assumed. -/
def Lowered (rest : List Token) (ns : List Node) : Rule → Prop
  | .statement => Single (IsStmt F rest) ns
  | .statements => ∃ ss, Stmt.each ns = ss.map .ok ∧ Stmt.AllWritable F ss
  | .block => Single (fun n => ∃ ss, n.DenotesBlock ss ∧ Stmt.AllWritable F ss) ns
  | .conditionAndBody => ∃ test body, Branches ns test body ∧ test.Writable F ∧
    body.Writable F ∧ (body.dangling → ∀ t ∈ rest.head?, t.lexeme ≠ .keyword .elseWord)
  | .expression _ | .operand | .primary => Single (IsExpr F) ns
  | .operations _ n | .calls n => IsExpr F n → Single (IsExpr F) ns
  | .lambda head => ∀ parameters, Heads head parameters → (∀ x ∈ parameters, IsName x) →
    Single (IsExpr F) ns
  | .expressions | .expressionsUnless _ =>
    ∃ es, Expr.each ns = es.map .ok ∧ Expr.AllWritable F es

/-- The nodes of a reading stand for syntax, if the tokens are those of the source. One case for
each rule of `Reads`, which uses the lemma on the node that the rule builds. -/
theorem lowered_of_supplies {source : String} {rule : Rule} {input rest : List Token}
    {ns : List Node} (h : Reads source rule input ns rest)
    (hsupplies : ∀ t ∈ input, t.Supplies source F) : Lowered F rest ns rule := by
  induction h with
  | stop _ => exact ⟨[], by rw [stmtEach_eq]; rfl, trivial⟩
  | next hfirst _ ih₁ ih₂ =>
    obtain ⟨s, hs, hwritable, _⟩ := ih₁ hsupplies
    obtain ⟨ss, hss, hall⟩ := ih₂ fun t ht => hsupplies t (hfirst.suffix.subset ht)
    refine ⟨s :: ss, ?_, hwritable, hall⟩
    rw [stmtEach_eq] at hss ⊢
    simp [hs.kind, hs.ofNode, hss]
  | block _ hbody _ ih =>
    obtain ⟨ss, hss, hall⟩ := ih fun t ht => hsupplies t (by simp [ht])
    exact ⟨ss, denotesBlock_block hss, hall⟩
  | declare hword hname _ =>
    have ht₁ := (hsupplies _ (List.mem_cons_of_mem _ List.mem_cons_self)).toFaithful
    exact isStmt_of_not_dangling (denotesStmt_declare hword ht₁ hname) (isName_of_ident ht₁ hname)
      rfl
  | declareValue hword hname _ _ _ ih =>
    have ht₁ := (hsupplies _ (List.mem_cons_of_mem _ List.mem_cons_self)).toFaithful
    obtain ⟨e, he, hwritable⟩ := ih fun t ht => hsupplies t (by simp [ht])
    exact isStmt_of_not_dangling (denotesStmt_declareValue hword ht₁ hname he)
      ⟨isName_of_ident ht₁ hname, hwritable⟩ rfl
  | assign hname _ _ _ ih =>
    have ht₀ := (hsupplies _ List.mem_cons_self).toFaithful
    obtain ⟨e, he, hwritable⟩ := ih fun t ht => hsupplies t (by simp [ht])
    exact isStmt_of_not_dangling (denotesStmt_assign ht₀ hname he)
      ⟨isName_of_ident ht₀ hname, hwritable⟩ rfl
  | @functionValue t₀ t₁ t₂ t₃ t₄ t₅ _ _ _ _ ps v hword hname _ hparams _ _ _ _ ih =>
    have ht₁ := (hsupplies t₁ (by simp)).toFaithful
    have hsub := hparams.suffix.subset
    obtain ⟨xs, hxs, hnames⟩ := isParameters_of_reads hparams fun t ht =>
      (hsupplies t (by simp [ht])).toFaithful
    -- the value behind the arrow becomes a block that returns it
    obtain ⟨e, he, hwritable⟩ := ih fun t ht =>
      hsupplies t (by simp [hsub (List.mem_cons_of_mem _ (List.mem_cons_of_mem _ ht))])
    have hhead : Heads ([ofToken source t₀, ofToken source t₁, ofToken source t₂] ++ ps
        ++ [ofToken source t₃]) xs :=
      heads_of_isParameters (by simp [NodeKind.isToken]) hxs (by simp [NodeKind.isToken])
    refine isStmt_of_not_dangling (s := .function _ xs (.block [.ret (some e)])) ?_
      ⟨isName_of_ident ht₁ hname, hnames, hwritable, trivial⟩ rfl
    simpa using denotesStmt_functionValue hword ht₁ hname hhead he
  | @functionBlock t₀ t₁ t₂ t₃ _ _ _ _ ps b hword hname _ hparams _ _ ih =>
    have ht₁ := (hsupplies t₁ (by simp)).toFaithful
    have hsub := hparams.suffix.subset
    obtain ⟨xs, hxs, hnames⟩ := isParameters_of_reads hparams fun t ht =>
      (hsupplies t (by simp [ht])).toFaithful
    obtain ⟨ss, hss, hall⟩ := ih fun t ht =>
      hsupplies t (by simp [hsub (List.mem_cons_of_mem _ ht)])
    have hhead : Heads ([ofToken source t₀, ofToken source t₁, ofToken source t₂] ++ ps
        ++ [ofToken source t₃]) xs :=
      heads_of_isParameters (by simp [NodeKind.isToken]) hxs (by simp [NodeKind.isToken])
    refine isStmt_of_not_dangling (s := .function _ xs (.block ss)) ?_
      ⟨isName_of_ident ht₁ hname, hnames, hall⟩ rfl
    simpa using denotesStmt_functionBlock hword ht₁ hname hhead hss
  | returnNothing _ _ => exact isStmt_of_not_dangling denotesStmt_returnNothing trivial rfl
  | returnValue _ _ _ ih =>
    obtain ⟨e, he, hwritable⟩ := ih fun t ht => hsupplies t (by simp [ht])
    exact isStmt_of_not_dangling (denotesStmt_returnValue he) hwritable rfl
  | conditionAndBody _ htest _ _ ih₁ ih₂ =>
    obtain ⟨test, htest', htwritable⟩ := ih₁ fun t ht => hsupplies t (by simp [ht])
    obtain ⟨body, hbody, hbwritable, hdangling⟩ := ih₂ fun t ht =>
      hsupplies t (by simp [htest.suffix.subset (List.mem_cons_of_mem _ ht)])
    exact ⟨test, body, branches_conditionAndBody htest' hbody, htwritable, hbwritable, hdangling⟩
  | conditional _ _ hend ih =>
    obtain ⟨test, yes, hparts, htest, hyes, _⟩ := ih hsupplies
    refine ⟨_, denotesStmt_conditional hparts, ⟨htest, hyes⟩, fun _ => ?_⟩
    rintro t ⟨⟩
    exact hend
  | conditionalElse _ hhead helse _ ih₁ ih₂ =>
    obtain ⟨test, yes, hparts, htest, hyes, hdangling⟩ := ih₁ hsupplies
    obtain ⟨no, hno, hnwritable, hrest⟩ := ih₂ fun t ht =>
      hsupplies t (hhead.suffix.subset (List.mem_cons_of_mem _ ht))
    refine ⟨_, denotesStmt_conditionalElse hparts hno, ⟨htest, hyes, ?_, hnwritable⟩, hrest⟩
    -- a branch that would take the `else` is not followed by one, and this `else` follows it
    cases hyesd : yes.dangling with
    | false => rfl
    | true => exact absurd helse (hdangling hyesd _ rfl)
  | loop _ _ ih =>
    obtain ⟨test, body, hparts, htest, hbody, hdangling⟩ := ih hsupplies
    exact ⟨_, denotesStmt_loop hparts, ⟨htest, hbody⟩, hdangling⟩
  | blockStatement _ ih =>
    obtain ⟨ss, hss, hall⟩ := ih hsupplies
    exact isStmt_of_not_dangling (denotesStmt_block hss) hall rfl
  | expressionStatement _ _ ih =>
    obtain ⟨e, he, hwritable⟩ := ih hsupplies
    exact isStmt_of_not_dangling (denotesStmt_expr he) hwritable rfl
  -- what an operand stands for is passed on to the operations behind it
  | expression hleft _ ih₁ ih₂ =>
    exact ih₂ (fun t ht => hsupplies t (hleft.suffix.subset ht)) (ih₁ hsupplies)
  | operationsEnd _ => exact id
  | operation hop _ hright _ ih₁ ih₂ =>
    rintro ⟨a, ha, hawritable⟩
    have ht := (hsupplies _ List.mem_cons_self).toFaithful
    obtain ⟨b, hb, hbwritable⟩ := ih₁ fun t ht => hsupplies t (by simp [ht])
    refine ih₂ (fun t ht => hsupplies t (by simp [hright.suffix.subset ht]))
      ⟨_, denotes_binary ha hb ht hop, ne_not_of_binary? hop, hawritable, hbwritable⟩
  | negation hsign _ ih =>
    obtain ⟨e, he, hwritable⟩ := ih fun t ht => hsupplies t (by simp [ht])
    exact ⟨_, denotes_unary he (hsupplies _ List.mem_cons_self).toFaithful hsign, rfl, hwritable⟩
  | operand hprimary _ ih₁ ih₂ =>
    exact ih₂ (fun t ht => hsupplies t (hprimary.suffix.subset ht)) (ih₁ hsupplies)
  | callsEnd _ => exact id
  | call hopen hvalues hclose _ ih₁ ih₂ =>
    rintro ⟨e, he, hwritable⟩
    obtain ⟨es, hes, hall⟩ := ih₁ fun t ht => hsupplies t (by simp [ht])
    have hsub := hvalues.suffix.subset
    exact ih₂ (fun t ht => hsupplies t (by simp [hsub (List.mem_cons_of_mem _ ht)]))
      ⟨_, denotes_call he (hsupplies _ List.mem_cons_self).toFaithful hopen hes
        (hsupplies _ (List.mem_cons_of_mem _ (hsub List.mem_cons_self))).toFaithful hclose,
        hwritable, hall⟩
  | noExpressions _ => exact ⟨[], by rw [each_eq]; rfl, trivial⟩
  | someExpressions _ ih => exact ih hsupplies
  | lastExpression _ _ ih =>
    obtain ⟨e, he, hwritable⟩ := ih hsupplies
    exact ⟨[e], by simp [each_eq, he.kind, he.within], hwritable, trivial⟩
  | moreExpressions hfirst _ _ ih₁ ih₂ =>
    obtain ⟨e, he, hwritable⟩ := ih₁ hsupplies
    obtain ⟨es, hes, hall⟩ := ih₂ fun t ht =>
      hsupplies t (hfirst.suffix.subset (List.mem_cons_of_mem _ ht))
    rw [each_eq] at hes
    exact ⟨e :: es, by simp [each_eq, he.kind, he.within, hes], hwritable, hall⟩
  | literal hliteral => exact denotes_literal (hsupplies _ List.mem_cons_self) hliteral
  | name hname _ =>
    have ht := (hsupplies _ List.mem_cons_self).toFaithful
    exact ⟨_, denotes_primaryOf fun outer => within_name ht hname, isName_of_ident ht hname⟩
  | array _ _ _ ih =>
    obtain ⟨es, hes, hall⟩ := ih fun t ht => hsupplies t (by simp [ht])
    exact ⟨_, denotes_array hes, hall⟩
  | group hopen _ hinner hclose ih =>
    obtain ⟨e, he, hwritable⟩ := ih fun t ht => hsupplies t (by simp [ht])
    have hsub := hinner.suffix.subset
    exact ⟨e, denotes_group he (hsupplies _ List.mem_cons_self).toFaithful hopen
      (hsupplies _ (List.mem_cons_of_mem _ (hsub List.mem_cons_self))).toFaithful hclose, hwritable⟩
  -- a name by itself is the only parameter
  | @nameLambda t₀ _ x _ _ _ hname _ _ ih =>
    have ht := (hsupplies t₀ (by simp)).toFaithful
    have hxs : IsParameters source [above source .parameters [ofToken source t₀]] [x] := by
      refine .inr ⟨_, rfl, ?_⟩
      have htext : (ofToken source t₀).text = x := text_ofToken ht hname
      simp [hname, TokenKind.ofLexeme, htext]
    refine ih (fun t ht => hsupplies t (by simp [ht])) [x] ?_ ?_
    · have hhead := heads_of_isParameters (List.forall_mem_nil _) hxs (List.forall_mem_nil _)
      simpa using hhead
    · simpa using isName_of_ident ht hname
  | @parenthesizedLambda t₀ t₁ _ _ _ ps _ _ _ hparams _ _ ih =>
    have hsub := hparams.suffix.subset
    obtain ⟨xs, hxs, hnames⟩ := isParameters_of_reads hparams fun t ht =>
      (hsupplies t (by simp [ht])).toFaithful
    have hhead : Heads ([ofToken source t₀] ++ ps ++ [ofToken source t₁]) xs :=
      heads_of_isParameters (by simp [NodeKind.isToken]) hxs (by simp [NodeKind.isToken])
    exact ih (fun t ht => hsupplies t (by simp [hsub (List.mem_cons_of_mem _ ht)])) xs hhead hnames
  | lambdaBlock _ _ ih =>
    intro parameters hhead hnames
    obtain ⟨ss, hss, hall⟩ := ih fun t ht => hsupplies t (by simp [ht])
    exact ⟨_, denotes_lambda_block hhead hss, hnames, hall⟩
  | lambdaValue _ _ ih =>
    intro parameters hhead hnames
    obtain ⟨e, he, hwritable⟩ := ih fun t ht => hsupplies t (by simp [ht])
    exact ⟨_, denotes_lambda_value hhead he, hnames, hwritable⟩

end Rules

/-- `lowered_of_supplies` without a condition on floats. -/
theorem lowered_of_reads {source : String} {rule : Rule} {input rest : List Token}
    {ns : List Node} (h : Reads source rule input ns rest)
    (hfaithful : ∀ t ∈ input, t.Faithful source) : Lowered anyFloat rest ns rule :=
  lowered_of_supplies h fun t ht => ⟨hfaithful t ht, fun _ _ _ _ => trivial⟩

/-! ## Trees of a source -/

/-- A root is a program, and its statements are those of its children. -/
theorem ofProgram_root {source : String} {ns : List Node} {ss : List Stmt}
    (h : Stmt.each ns = ss.map .ok) : Stmt.ofProgram (root source ns) = .ok ss := by
  have hkind : (root source ns).kind = .program := rfl
  rw [Stmt.ofProgram, if_pos hkind, Stmt.ofBlock]
  show TreeError.all (Stmt.each ns) = _
  rw [h, all_map_ok]

/-- A reading of all tokens gives the program, unless the limit is smaller than their number. -/
theorem compile_of_reads {source : String} {ns : List Node} {ss : List Stmt} {t : Token}
    {limit : Nat} (herrors : (scan source).errors = [])
    (hreads : Reads source .statements (scan source).tokens ns [t]) (ht : t.lexeme = .eof)
    (hns : Stmt.each ns = ss.map .ok) (hlimit : (scan source).tokens.length ≤ limit) :
    compile source limit = .ok (Program.assemble ss) := by
  have hparse : Node.parse source limit = .ok (root source ns) := by
    rcases Parser.ofTokens_of_reads (endsOnce_scan source) hreads ht limit with hok | ⟨hlt, _⟩
    · exact Node.parse_eq_ok_iff.mpr ⟨herrors, hok⟩
    · omega
  rw [compile, hparse]
  simp only [ofProgram_root hns]

/-- The float is the value of a literal of the source. -/
def LiteralOf (source : String) (x : Float) : Prop :=
  ∃ t ∈ (scan source).tokens, ∃ text, t.lexeme = .float text ∧ Decimal.read? text = some x

/-- The tree of a source is read as statements that can be written. -/
theorem exists_ofProgram {source : String} {limit : Nat} {tree : Node}
    (hsize : source.utf8ByteSize < Span.offsetCount) (h : Node.parse source limit = .ok tree) :
    ∃ ss, Stmt.ofProgram tree = .ok ss ∧ Stmt.AllWritable (LiteralOf source) ss := by
  obtain ⟨herrors, htree⟩ := Node.parse_eq_ok_iff.mp h
  obtain ⟨ns, t, rfl, _, hreads⟩ := Parser.reads_of_ofTokens (endsOnce_scan source) htree
  have hsupplies (t : Token) (ht : t ∈ (scan source).tokens) :
      t.Supplies source (LiteralOf source) :=
    ⟨faithful_of_mem_scan hsize herrors ht, fun text x hl hx => ⟨t, ht, text, hl, hx⟩⟩
  obtain ⟨ss, hss, hall⟩ := lowered_of_supplies hreads hsupplies
  exact ⟨ss, ofProgram_root hss, hall⟩

/-- A compiled program can be written, and its floats are those of literals of the source. -/
theorem writable_of_literals {source : String} {limit : Nat} {p : Program}
    (hsize : source.utf8ByteSize < Span.offsetCount) (hcompile : compile source limit = .ok p) :
    Stmt.AllWritable (LiteralOf source) p.statements := by
  rw [compile] at hcompile
  cases hparse : Node.parse source limit with
  | error errors => simp [hparse] at hcompile
  | ok tree =>
    obtain ⟨ss, hss, hwritable⟩ := exists_ofProgram hsize hparse
    simp only [hparse, hss, Except.ok.injEq] at hcompile
    subst hcompile
    exact Program.writable_assemble hwritable

/-- Every tree that a source of less than 4 GiB is parsed to is read as a program, so no source of
that size fails to compile with `CompileError.unreadable`. From 4 GiB on spans wrap
(`Span.between`), and the texts of leaves with them. -/
theorem parse_lowers (source : String) (limit : Nat) (hsize : source.utf8ByteSize < 2 ^ 32) :
    (∀ tree, Node.parse source limit = .ok tree → ∃ ss, Stmt.ofProgram tree = .ok ss) ∧
      ∀ e, compile source limit ≠ .error (.unreadable e) := by
  have hlowers (tree : Node) (h : Node.parse source limit = .ok tree) :
      ∃ ss, Stmt.ofProgram tree = .ok ss := by
    obtain ⟨ss, hss, _⟩ := exists_ofProgram hsize h
    exact ⟨ss, hss⟩
  refine ⟨hlowers, fun e h => ?_⟩
  rw [compile] at h
  cases hparse : Node.parse source limit with
  | error errors => simp [hparse] at h
  | ok tree =>
    obtain ⟨ss, hss⟩ := hlowers tree hparse
    simp [hparse, hss] at h

/-- A function with an arrow, a lambda with a block, an array and a dangling `else`. -/
theorem parse_lowers_sample :
    "fn f(a, b) => [a, 1.5]; if (!f) if (true) g = () => {}; else f(\"x\", 2);".utf8ByteSize
        < 2 ^ 32 ∧
      ∀ e, compile "fn f(a, b) => [a, 1.5]; if (!f) if (true) g = () => {}; else f(\"x\", 2);" 16
        ≠ .error (.unreadable e) :=
  ⟨by decide, (parse_lowers _ 16 (by decide)).2⟩

end SimpleLang
