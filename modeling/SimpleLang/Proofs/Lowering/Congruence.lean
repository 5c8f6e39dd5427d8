import SimpleLang.Proofs.Lowering

/-!
# Nodes that are read alike

Reading a node asks for its kind and its arrow, for the text of a leaf, and for what its children
are read as. Two nodes that agree in that are read alike, whatever else is different about them.

* `TreeError.bare`: an error without what it says of the place; `ReadsSame`: two readings have the
  same result, or errors that are the same but for the place.
* `Node.ReadAlike`: two nodes have the same reading, as whatever they may be read. An expression is
  never asked for its parts by what is around it, so only the other nodes have to agree in them.
* `Node.ReadAlike.of_children`: nodes are read alike if their children are, one by one. What is
  shown of all nodes of a tree by this lemma holds of whole programs (`readsSame_ofProgram`).
-/

namespace SimpleLang

/-! ## Readings that agree -/

/-- The error without what it says of the place: the spans, and the texts of the inner nodes. Which
error it is stays, with the names of functions, the spelling of an operator and the text of a
literal. -/
def TreeError.bare : TreeError → TreeError
  | operator spelling _ => operator spelling .nowhere
  | expression _ _ => expression "" .nowhere
  | statement _ _ => statement "" .nowhere
  | literal kind text _ => literal kind text .nowhere
  | function name _ cause => function name .nowhere cause.bare

/-- Two readings have the same result, or errors that are the same but for the place. -/
def ReadsSame {α : Type} (r r' : Except TreeError α) : Prop :=
  r.mapError TreeError.bare = r'.mapError TreeError.bare

namespace ReadsSame

variable {α β : Type}

theorem refl (r : Except TreeError α) : ReadsSame r r := rfl

/-- Errors agree if they do without their places. -/
theorem error {e e' : TreeError} (h : e.bare = e'.bare) :
    ReadsSame (.error e : Except TreeError α) (.error e') :=
  congrArg Except.error h

/-- Either both readings have a result, and it is the same, or neither has. -/
theorem cases {r r' : Except TreeError α} (h : ReadsSame r r') :
    (∃ a, r = .ok a ∧ r' = .ok a) ∨ ∃ e e', r = .error e ∧ r' = .error e' ∧ e.bare = e'.bare := by
  cases r with
  | ok a =>
    cases r' with
    | ok a' => exact .inl ⟨a, rfl, congrArg _ (Except.ok.inj h).symm⟩
    | error e' => cases h
  | error e =>
    cases r' with
    | ok a' => cases h
    | error e' => exact .inr ⟨e, e', rfl, rfl, Except.error.inj h⟩

/-- A reading in two steps. The second step is the same on both sides up to places, and has the same
argument. -/
theorem bind {r r' : Except TreeError α} {f f' : α → Except TreeError β} (h : ReadsSame r r')
    (hf : ∀ a, ReadsSame (f a) (f' a)) : ReadsSame (r >>= f) (r' >>= f') := by
  rcases h.cases with ⟨a, rfl, rfl⟩ | ⟨e, e', rfl, rfl, he⟩
  · exact hf a
  · exact .error he

theorem map {r r' : Except TreeError α} (f : α → β) (h : ReadsSame r r') :
    ReadsSame (r.map f) (r'.map f) := by
  rcases h.cases with ⟨a, rfl, rfl⟩ | ⟨e, e', rfl, rfl, he⟩
  · exact .refl _
  · exact .error he

/-- Where an operator stands shows in the error only. -/
theorem read (spelling : String) (span span' : Span) :
    ReadsSame (Operation.read spelling span) (Operation.read spelling span') := by
  rw [Operation.read, Operation.read]
  split
  · exact .refl _
  · exact .error rfl

variable {parts parts' : List (Except TreeError α)}

/-- One part after the other, so the first error is at the same part on both sides. -/
theorem all (h : List.Forall₂ ReadsSame parts parts') :
    ReadsSame (TreeError.all parts) (TreeError.all parts') := by
  induction h with
  | nil => exact .refl _
  | cons hfirst _ ih => exact hfirst.bind fun _ => ih.bind fun _ => .refl _

/-- If there is no part, both are refused for the same reason. -/
theorem required (h : List.Forall₂ ReadsSame parts parts') (n n' : Node) :
    ReadsSame (TreeError.required n parts) (TreeError.required n' parts') := by
  cases h with
  | nil => exact .error rfl
  | cons hfirst _ => exact hfirst

theorem optional (h : List.Forall₂ ReadsSame parts parts') :
    ReadsSame (TreeError.optional parts) (TreeError.optional parts') := by
  cases h with
  | nil => exact .refl _
  | cons hfirst _ => exact hfirst.map some

/-- The second branch of a conditional, if it has one. -/
theorem optional_tail (h : List.Forall₂ ReadsSame parts parts') :
    ReadsSame (TreeError.optional parts.tail) (TreeError.optional parts'.tail) := by
  cases h with
  | nil => exact .refl _
  | cons _ hothers => exact optional hothers

section Bodies

variable {values values' : List (Except TreeError Expr)}
  {blocks blocks' : List (Except TreeError (List Stmt))}
  (hvalues : List.Forall₂ ReadsSame values values')
  (hblocks : List.Forall₂ ReadsSame blocks blocks')

include hvalues hblocks

/-- Which of the three bodies it is depends on the arrow and on the lengths of the lists, which
agree. -/
theorem ofFunction (arrow : Bool) :
    ReadsSame (Body.ofFunction arrow values blocks) (Body.ofFunction arrow values' blocks') := by
  cases hvalues with
  | nil =>
    cases hblocks with
    | nil => cases arrow <;> exact .refl _
    | cons hblock _ => cases arrow <;> exact hblock.map _
  | cons hvalue _ =>
    cases arrow with
    | true => exact hvalue.map _
    | false =>
      cases hblocks with
      | nil => exact .refl _
      | cons hblock _ => exact hblock.map _

/-- As `ReadsSame.ofFunction`, but a block comes before a value, and without either this is an
error. -/
theorem ofLambda (n n' : Node) :
    ReadsSame (Body.ofLambda n values blocks) (Body.ofLambda n' values' blocks') := by
  cases hblocks with
  | cons hblock _ => exact hblock.map _
  | nil =>
    cases hvalues with
    | cons hvalue _ => exact hvalue.map _
    | nil => exact .error rfl

end Bodies

end ReadsSame

/-! ## Nodes -/

namespace Node

/-- Two nodes are read alike, as whatever they may be read. -/
structure ReadAlike (n m : Node) : Prop where
  kind : n.kind = m.kind
  /-- Leaves have the same text. -/
  text : n.kind.isToken → n.text = m.text
  within : ∀ outer outer', ReadsSame (Expr.within outer n) (Expr.within outer' m)
  ofNode : ReadsSame (Stmt.ofNode n) (Stmt.ofNode m)
  /-- The names in a parameter list. -/
  names : n.kind ≠ .expression →
    (n.childrenOf (.token .name)).map Node.text = (m.childrenOf (.token .name)).map Node.text
  /-- The arguments of a call. -/
  values : n.kind ≠ .expression →
    List.Forall₂ ReadsSame (Expr.each n.children) (Expr.each m.children)
  ofBlock : n.kind ≠ .expression → ReadsSame (Stmt.ofBlock n) (Stmt.ofBlock m)

namespace ReadAlike

variable {n m : Node}

/-- A node is asked for its text only if it is a leaf. -/
theorem isToken_eq (h : n.ReadAlike m) (text : String) : n.isToken text = m.isToken text := by
  rw [Node.isToken, Node.isToken, ← h.kind]
  cases hleaf : n.kind.isToken with
  | false => rfl
  | true => rw [h.text hleaf]

theorem isOperand_eq (h : n.ReadAlike m) : n.isOperand = m.isOperand := by
  rw [isOperand, isOperand, h.kind]

/-- An operator is read from its text, and where it stands shows in the error only. -/
theorem ofBinaryNode (h : n.ReadAlike m) (hleaf : n.kind.isToken) :
    ReadsSame (Operation.ofBinaryNode n) (Operation.ofBinaryNode m) := by
  rw [Operation.ofBinaryNode, Operation.ofBinaryNode, h.text hleaf]
  refine (ReadsSame.read m.text n.span m.span).bind fun op => ?_
  split
  · exact .error rfl
  · exact .refl _

theorem ofUnaryNode (h : n.ReadAlike m) (hleaf : n.kind.isToken) :
    ReadsSame (Operation.ofUnaryNode n) (Operation.ofUnaryNode m) := by
  rw [Operation.ofUnaryNode, Operation.ofUnaryNode, h.text hleaf]
  refine (ReadsSame.read m.text n.span m.span).bind fun op => ?_
  split
  · exact .refl _
  · exact .error rfl

end ReadAlike

/-! ### The parts of a node -/

section Parts

variable {ns ms : List Node} (h : List.Forall₂ ReadAlike ns ms)

include h

/-- Children of one kind stand in the same places on both sides, because the kinds agree. -/
theorem readsSame_filter {α : Type} {f : Node → Except TreeError α} (kind : NodeKind)
    (hf : ∀ n m : Node, n.kind = kind → n.ReadAlike m → ReadsSame (f n) (f m)) :
    List.Forall₂ ReadsSame ((ns.filter (·.kind == kind)).map f)
      ((ms.filter (·.kind == kind)).map f) := by
  induction h with
  | nil => exact .nil
  | cons hfirst _ ih =>
    rw [List.filter_cons, List.filter_cons, ← hfirst.kind]
    split
    next hkind => exact .cons (hf _ _ (beq_iff_eq.mp hkind) hfirst) ih
    next => exact ih

/-- `Expr.each` by `each_eq`. -/
theorem readsSame_each : List.Forall₂ ReadsSame (Expr.each ns) (Expr.each ms) := by
  rw [each_eq, each_eq]
  exact readsSame_filter h _ fun _ _ _ hn => hn.within _ _

theorem readsSame_stmtEach : List.Forall₂ ReadsSame (Stmt.each ns) (Stmt.each ms) := by
  rw [stmtEach_eq, stmtEach_eq]
  exact readsSame_filter h _ fun _ _ _ hn => hn.ofNode

theorem readsSame_eachBlock :
    List.Forall₂ ReadsSame (Stmt.eachBlock ns) (Stmt.eachBlock ms) := by
  rw [eachBlock_eq, eachBlock_eq]
  exact readsSame_filter h _ fun n _ hkind hn => hn.ofBlock (by rw [hkind]; simp)

/-- The first child of a kind is the same one on both sides. -/
theorem readAlike_find? (kind : NodeKind) :
    Option.Rel (fun n m => n.kind = kind ∧ n.ReadAlike m) (ns.find? (·.kind == kind))
      (ms.find? (·.kind == kind)) := by
  induction h with
  | nil => exact .none
  | cons hfirst _ ih =>
    rw [List.find?_cons, List.find?_cons, ← hfirst.kind]
    split
    next hkind => exact .some ⟨beq_iff_eq.mp hkind, hfirst⟩
    next => exact ih

/-- A name is a leaf, so its text is the same. -/
theorem firstName?_eq_of_readAlike : firstName? ns = firstName? ms := by
  have hfound := readAlike_find? h (.token .name)
  rw [firstName?, firstName?]
  generalize ns.find? _ = found at hfound ⊢
  generalize ms.find? _ = found' at hfound ⊢
  cases hfound with
  | none => rfl
  | some hn => exact congrArg some (hn.2.text (by rw [hn.1]; rfl))

/-- The list of parameters is no expression, so it agrees in its names. -/
theorem parameterNames_eq_of_readAlike : parameterNames ns = parameterNames ms := by
  have hfound := readAlike_find? h .parameters
  rw [parameterNames, parameterNames]
  generalize ns.find? _ = found at hfound ⊢
  generalize ms.find? _ = found' at hfound ⊢
  cases hfound with
  | none => rfl
  | some hn => exact hn.2.names (by rw [hn.1]; simp)

theorem names_eq_of_readAlike : (ns.filter (·.kind == .token .name)).map text
    = (ms.filter (·.kind == .token .name)).map text := by
  induction h with
  | nil => rfl
  | cons hfirst _ ih =>
    rw [List.filter_cons, List.filter_cons, ← hfirst.kind]
    split
    next hkind =>
      rw [List.map_cons, List.map_cons, ih, hfirst.text (by rw [beq_iff_eq.mp hkind]; rfl)]
    next => exact ih

/-- The kinds of statements are tried in the same order, and found at the same children. -/
theorem readsSame_findSome? (kinds : List NodeKind) :
    Option.Rel ReadsSame (kinds.findSome? fun kind => Stmt.ofKind? kind ns)
      (kinds.findSome? fun kind => Stmt.ofKind? kind ms) := by
  induction kinds with
  | nil => exact .none
  | cons kind kinds ih =>
    have hfound := readAlike_find? h kind
    rw [List.findSome?_cons, List.findSome?_cons, ofKind?_eq, ofKind?_eq]
    generalize ns.find? _ = found at hfound ⊢
    generalize ms.find? _ = found' at hfound ⊢
    cases hfound with
    | none => exact ih
    | some hn => exact .some hn.2.ofNode

end Parts

/-- A leaf is read from its kind and its text. -/
theorem readsSame_operandLeaf {n m : Node} (outer outer' : Node) (kind : TokenKind)
    (htext : n.text = m.text) :
    ReadsSame (operandLeaf outer kind n) (operandLeaf outer' kind m) := by
  -- a literal is read from its text, and its error has that text
  have hliteral (k : LiteralKind) (read : Option Expr) :
      ReadsSame (literal k n read) (literal k m read) := by
    cases read with
    | some e => exact .refl _
    | none => exact .error (by rw [TreeError.bare, TreeError.bare, htext])
  cases kind with
  | integer | float | string =>
    rw [operandLeaf, operandLeaf, htext]
    exact hliteral _ _
  | boolean | name =>
    rw [operandLeaf, operandLeaf, htext]
    exact .refl _
  | operator | keyword | punctuation => exact .error rfl

theorem readsSame_target {n m : Node} (h : List.Forall₂ ReadAlike n.children m.children) :
    ReadsSame n.target m.target := by
  rw [target, target, firstName?_eq_of_readAlike h]
  cases firstName? m.children with
  | some x => exact .refl _
  | none => exact .error rfl

/-! ### Whole nodes -/

section Nodes

variable {kind : NodeKind} {text text' : String} {span span' : Span} {arrow : Bool}
  {ns ms : List Node} (h : List.Forall₂ ReadAlike ns ms)

include h

/-- A node that is read as an expression is told apart by its kind and the number of its children.
Whether a child is an operand or a certain token is the same on both sides. -/
theorem readsSame_within (htext : kind.isToken → text = text') (outer outer' : Node) :
    ReadsSame (Expr.within outer ⟨kind, text, span, arrow, ns⟩)
      (Expr.within outer' ⟨kind, text', span', arrow, ms⟩) := by
  have hother {α : Type} : ReadsSame (.error (.noExpression outer) : Except TreeError α)
      (.error (.noExpression outer')) := .error rfl
  cases kind with
  | token kind =>
    rw [Expr.within, Expr.within]
    exact readsSame_operandLeaf outer outer' kind (htext rfl)
  | array =>
    rw [Expr.within, Expr.within]
    exact (ReadsSame.all (readsSame_each h)).bind fun _ => .refl _
  | lambda =>
    rw [Expr.within, Expr.within, parameterNames_eq_of_readAlike h]
    exact (ReadsSame.ofLambda (readsSame_each h) (readsSame_eachBlock h) _ _).bind fun _ => .refl _
  | primary =>
    rcases h with _ | ⟨honly, _ | ⟨_, _⟩⟩
    · simp only [Expr.within]
      exact hother
    · simp only [Expr.within]
      exact honly.within outer outer'
    · simp only [Expr.within]
      exact hother
  | expression =>
    rcases h with _ | ⟨hfirst, _ | ⟨hsecond, _ | ⟨hthird, _ | ⟨hfourth, _ | ⟨_, _⟩⟩⟩⟩⟩
    · simp only [Expr.within]
      exact hother
    · simp only [Expr.within]
      exact hfirst.within outer outer'
    -- two children: a sign and its operand
    · simp only [Expr.within, ← hfirst.kind, ← hsecond.isOperand_eq]
      split
      next hshape =>
        rw [Bool.and_eq_true] at hshape
        exact (hfirst.ofUnaryNode hshape.1).bind fun _ =>
          (hsecond.within _ _).bind fun _ => .refl _
      next => exact hother
    -- three children: a group, or an operator between its operands
    · simp only [Expr.within, ← hfirst.isToken_eq, ← hthird.isToken_eq, ← hsecond.kind,
        ← hfirst.isOperand_eq, ← hthird.isOperand_eq]
      split
      next => exact hsecond.within _ _
      next =>
        split
        next hshape =>
          rw [Bool.and_eq_true, Bool.and_eq_true] at hshape
          exact (hsecond.ofBinaryNode hshape.1.1).bind fun _ =>
            (hfirst.within _ _).bind fun _ => (hthird.within _ _).bind fun _ => .refl _
        next => exact hother
    -- four children: a call
    · simp only [Expr.within, ← hsecond.isToken_eq, ← hthird.kind, ← hfourth.isToken_eq]
      split
      next hshape =>
        rw [Bool.and_eq_true, Bool.and_eq_true, beq_iff_eq] at hshape
        have hvalues := hthird.values (by rw [hshape.1.2]; simp)
        exact (hfirst.within _ _).bind fun _ => (ReadsSame.all hvalues).bind fun _ => .refl _
      next => exact hother
    · simp only [Expr.within]
      exact hother
  | _ =>
    simp only [Expr.within]
    exact hother

/-- A node that is read as a statement is told apart by its kind. -/
theorem readsSame_ofNode :
    ReadsSame (Stmt.ofNode ⟨kind, text, span, arrow, ns⟩)
      (Stmt.ofNode ⟨kind, text', span', arrow, ms⟩) := by
  have htarget (kind : NodeKind) : ReadsSame (target ⟨kind, text, span, arrow, ns⟩)
      (target ⟨kind, text', span', arrow, ms⟩) := readsSame_target h
  cases kind with
  | statement =>
    rw [Stmt.ofNode, Stmt.ofNode]
    -- the kinds of statements are tried one after the other
    have hfound := readsSame_findSome? h statementKinds
    generalize statementKinds.findSome? _ = found at hfound ⊢
    generalize statementKinds.findSome? _ = found' at hfound ⊢
    cases hfound with
    | none => exact .error rfl
    | some hresult => exact hresult
  | declaration =>
    rw [Stmt.ofNode, Stmt.ofNode]
    exact (htarget _).bind fun _ => (ReadsSame.optional (readsSame_each h)).bind fun _ => .refl _
  | assignment =>
    rw [Stmt.ofNode, Stmt.ofNode]
    exact (htarget _).bind fun _ =>
      (ReadsSame.required (readsSame_each h) _ _).bind fun _ => .refl _
  | function =>
    rw [Stmt.ofNode, Stmt.ofNode, firstName?_eq_of_readAlike h, parameterNames_eq_of_readAlike h]
    have hbody := ReadsSame.ofFunction (readsSame_each h) (readsSame_eachBlock h) arrow
    rcases hbody.cases with ⟨body, hok, hok'⟩ | ⟨e, e', herror, herror', he⟩
    · rw [hok, hok']
      exact .refl _
    · rw [herror, herror']
      exact .error (by rw [TreeError.bare, TreeError.bare, he])
  | returning =>
    rw [Stmt.ofNode, Stmt.ofNode]
    exact (ReadsSame.optional (readsSame_each h)).bind fun _ => .refl _
  | conditional =>
    rw [Stmt.ofNode, Stmt.ofNode]
    refine (ReadsSame.required (readsSame_each h) _ _).bind fun _ => ?_
    refine (ReadsSame.required (readsSame_stmtEach h) _ _).bind fun _ => ?_
    exact (ReadsSame.optional_tail (readsSame_stmtEach h)).bind fun _ => .refl _
  | loop =>
    rw [Stmt.ofNode, Stmt.ofNode]
    refine (ReadsSame.required (readsSame_each h) _ _).bind fun _ => ?_
    exact (ReadsSame.required (readsSame_stmtEach h) _ _).bind fun _ => .refl _
  | expression =>
    rw [Stmt.ofNode, Stmt.ofNode]
    exact (readsSame_within h (fun hleaf => by cases hleaf) _ _).map Stmt.expr
  | block =>
    rw [Stmt.ofNode, Stmt.ofNode]
    exact (ReadsSame.all (readsSame_stmtEach h)).bind fun _ => .refl _
  | _ =>
    simp only [Stmt.ofNode]
    exact .error rfl

end Nodes

/-- Nodes of the same kind are read alike if their children are, one by one. This is the step of an
induction on trees: what it is about (`ReadAlike`) is a property of pairs of nodes. -/
theorem ReadAlike.of_children {n m : Node} (hkind : n.kind = m.kind) (harrow : n.arrow = m.arrow)
    (htext : n.kind.isToken → n.text = m.text)
    (h : List.Forall₂ ReadAlike n.children m.children) : n.ReadAlike m := by
  obtain ⟨kind, text, span, arrow, ns⟩ := n
  obtain ⟨kind', text', span', arrow', ms⟩ := m
  obtain rfl : kind = kind' := hkind
  obtain rfl : arrow = arrow' := harrow
  exact
    { kind := rfl
      text := htext
      within := readsSame_within h htext
      ofNode := readsSame_ofNode h
      names := fun _ => names_eq_of_readAlike h
      values := fun _ => readsSame_each h
      ofBlock := fun _ => ReadsSame.all (readsSame_stmtEach h) }

end Node

/-- Programs are read alike if their nodes are. -/
theorem readsSame_ofProgram {n m : Node} (h : n.ReadAlike m) :
    ReadsSame (Stmt.ofProgram n) (Stmt.ofProgram m) := by
  rw [Stmt.ofProgram, Stmt.ofProgram, ← h.kind]
  split
  next hkind => exact h.ofBlock (by rw [hkind]; simp)
  next => exact .error rfl

end SimpleLang
