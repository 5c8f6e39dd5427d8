import SimpleLang.Proofs.Lowering

/-!
# Where reading errors come from

The first node that cannot be read ends the reading of a tree. The error has the span and the text
of that node, and it is reported through the function definitions above the node, from outside in.

* `Node.Leads`: the way from the root of a tree to one of its nodes.
* `Node.Refused`: the node is what cannot be read, whatever the tree around it.
* `TreeError.Located`: the error is about a node of the tree, and names the functions above it. It
  passes from a child to its parent, and a function definition adds itself on the way
  (`TreeError.Located.of_child`, `TreeError.Located.of_function`).
* `Node.Blames`: whatever a node is read as, the errors are located in it. The induction is on the
  tree. An expression that is read through nodes with a single child is blamed under the node that
  the reading started from, so that one is left open (`outer`) until the reading is complete.
-/

namespace SimpleLang

/-! ## Nodes, and what is said of them -/

/-- The leaves that are literals of the kind. -/
def LiteralKind.leaf : LiteralKind → TokenKind
  | integer => .integer
  | float => .float
  | string => .string

namespace Node

/-- A node of the tree, with the nodes above it, from the root on. -/
inductive Leads : (root : Node) → (above : List Node) → (site : Node) → Prop where
  | here (n : Node) : Leads n [] n
  | child {n c site : Node} {above : List Node} (hc : c ∈ n.children) (h : Leads c above site) :
      Leads n (n :: above) site

/-- The node by itself is refused, with an error that has its span and its text. -/
inductive Refused : Node → TreeError → Prop where
  | operator {n : Node} (hleaf : n.kind.isToken)
      (h : Operation.ofBinaryNode n = .error (.operator n.text n.span) ∨
        Operation.ofUnaryNode n = .error (.operator n.text n.span)) :
      Refused n (.operator n.text n.span)
  | literal {n : Node} {kind : LiteralKind} (hkind : n.kind = .token kind.leaf)
      (h : Expr.ofNode n = .error (.literal kind n.text n.span)) :
      Refused n (.literal kind n.text n.span)
  | expression {n : Node} (h : Expr.ofNode n = .error (.expression n.text n.span)) :
      Refused n (.expression n.text n.span)
  | statement {n : Node} (h : Stmt.ofNode n = .error (.statement n.text n.span)) :
      Refused n (.statement n.text n.span)

/-- The name under which a function definition is reported. -/
def functionName (n : Node) : String := (firstName? n.children).getD unnamedFunction

/-- The function definitions among some nodes, each with its name and its span. -/
def definitions (ns : List Node) : List (String × Span) :=
  (ns.filter (·.kind == .function)).map fun f => (f.functionName, f.span)

end Node

namespace TreeError

/-- The functions that the error is reported through, from outside in. -/
def functions : TreeError → List (String × Span)
  | function name span cause => (name, span) :: cause.functions
  | operator _ _ | expression _ _ | statement _ _ | literal _ _ _ => []

/-- The error is about a node of the tree that is refused, and is reported through the function
definitions above it. -/
def Located (e : TreeError) (root : Node) : Prop :=
  ∃ above site, root.Leads above site ∧ site.Refused e.rootCause ∧
    e.functions = Node.definitions above

variable {e : TreeError} {n c : Node}

/-- A node that is refused itself is the place of the error, and no function stands above it. -/
theorem Located.of_refused (h : n.Refused e) : e.Located n := by
  have hroot : e.rootCause = e ∧ e.functions = [] := by
    cases h <;> exact ⟨rfl, rfl⟩
  refine ⟨[], n, .here n, ?_, hroot.2⟩
  rw [hroot.1]
  exact h

/-- A node that is no function definition adds nothing to the error of its child. -/
theorem Located.of_child (hc : c ∈ n.children) (hkind : n.kind ≠ .function) (h : e.Located c) :
    e.Located n := by
  obtain ⟨above, site, hleads, hrefused, hfunctions⟩ := h
  refine ⟨n :: above, site, .child hc hleads, hrefused, ?_⟩
  rw [hfunctions, Node.definitions, Node.definitions,
    List.filter_cons_of_neg (by simpa using hkind)]

/-- A function definition stands above all of its nodes and is reported first. -/
theorem Located.of_function (hc : c ∈ n.children) (hkind : n.kind = .function)
    (h : e.Located c) : (function n.functionName n.span e).Located n := by
  obtain ⟨above, site, hleads, hrefused, hfunctions⟩ := h
  refine ⟨n :: above, site, .child hc hleads, hrefused, ?_⟩
  rw [functions, hfunctions, Node.definitions, Node.definitions,
    List.filter_cons_of_pos (by simpa using hkind), List.map_cons]

def Inside (ns : List Node) (e : TreeError) : Prop := ∃ c ∈ ns, e.Located c

theorem Inside.located (h : e.Inside n.children) (hkind : n.kind ≠ .function) : e.Located n := by
  obtain ⟨c, hc, hlocated⟩ := h
  exact hlocated.of_child hc hkind

end TreeError

/-! ## The errors of a reading -/

def Raises {α : Type} (P : TreeError → Prop) (r : Except TreeError α) : Prop :=
  ∀ e, r = .error e → P e

namespace Raises

variable {α β : Type} {P Q : TreeError → Prop}

theorem ok (a : α) : Raises P (.ok a) := nofun

theorem error {e : TreeError} (h : P e) : Raises P (.error e : Except TreeError α) := by
  intro e' he
  cases he
  exact h

theorem imp {r : Except TreeError α} (h : Raises P r) (hPQ : ∀ e, P e → Q e) : Raises Q r :=
  fun e he => hPQ e (h e he)

/-- Both parts of a reading have to raise only such errors. -/
theorem bind {r : Except TreeError α} {f : α → Except TreeError β} (h : Raises P r)
    (hf : ∀ a, Raises P (f a)) : Raises P (r >>= f) := by
  cases r with
  | ok a => exact hf a
  | error e => exact .error (h e rfl)

theorem map {r : Except TreeError α} (f : α → β) (h : Raises P r) : Raises P (r.map f) := by
  cases r with
  | ok a => exact .ok _
  | error e => exact .error (h e rfl)

section Parts

variable {parts : List (Except TreeError α)} (h : ∀ r ∈ parts, Raises P r)

include h

/-- The error is that of the first part that cannot be read. -/
theorem all : Raises P (TreeError.all parts) := by
  induction parts with
  | nil => exact .ok _
  | cons part parts ih =>
    rw [List.forall_mem_cons] at h
    exact h.1.bind fun _ => (ih h.2).bind fun _ => .ok _

/-- If there is no part, the node itself is blamed. -/
theorem required {n : Node} (hnone : P (.noStatement n)) :
    Raises P (TreeError.required n parts) := by
  cases parts with
  | nil => exact .error hnone
  | cons part parts => exact h part List.mem_cons_self

theorem optional : Raises P (TreeError.optional parts) := by
  cases parts with
  | nil => exact .ok _
  | cons part parts => exact (h part List.mem_cons_self).map some

end Parts

section Bodies

variable {values : List (Except TreeError Expr)} {blocks : List (Except TreeError (List Stmt))}
  (hvalues : ∀ r ∈ values, Raises P r) (hblocks : ∀ r ∈ blocks, Raises P r)

include hvalues hblocks

/-- A function definition without a body is no error, so all errors are those of its parts. -/
theorem ofFunction (arrow : Bool) : Raises P (Body.ofFunction arrow values blocks) := by
  unfold Body.ofFunction
  split
  · exact (hvalues _ List.mem_cons_self).map _
  · exact (hblocks _ List.mem_cons_self).map _
  · exact .ok _

/-- A lambda without a body is one. -/
theorem ofLambda {n : Node} (hnone : P (.noExpression n)) :
    Raises P (Body.ofLambda n values blocks) := by
  cases blocks with
  | cons block blocks => exact (hblocks block List.mem_cons_self).map _
  | nil =>
    cases values with
    | cons value values => exact (hvalues value List.mem_cons_self).map _
    | nil => exact .error hnone

end Bodies

end Raises

namespace Node

/-- Only the operator itself is blamed. -/
theorem raises_read (spelling : String) (span : Span) :
    Raises (· = .operator spelling span) (Operation.read spelling span) := by
  rw [Operation.read]
  split
  · exact .ok _
  · exact .error rfl

/-- An operator is blamed if it is none, or if it is unary. -/
theorem raises_ofBinaryNode {n : Node} (hleaf : n.kind.isToken) :
    Raises (·.Located n) (Operation.ofBinaryNode n) := by
  have hraises : Raises (· = .operator n.text n.span) (Operation.ofBinaryNode n) := by
    refine (raises_read n.text n.span).bind fun op => ?_
    split
    · exact .error rfl
    · exact .ok _
  intro e he
  obtain rfl := hraises e he
  exact .of_refused (.operator hleaf (.inl he))

theorem raises_ofUnaryNode {n : Node} (hleaf : n.kind.isToken) :
    Raises (·.Located n) (Operation.ofUnaryNode n) := by
  have hraises : Raises (· = .operator n.text n.span) (Operation.ofUnaryNode n) := by
    refine (raises_read n.text n.span).bind fun op => ?_
    split
    · exact .ok _
    · exact .error rfl
  intro e he
  obtain rfl := hraises e he
  exact .of_refused (.operator hleaf (.inr he))

/-! ## Nodes -/

/-- Whatever the node is read as, the errors are located in it. As an expression it may also have
been refused in the name of `outer`, which need not be this node. -/
structure Blames (n : Node) : Prop where
  within : ∀ outer, Raises (fun e => e = .noExpression outer ∨ e.Located n) (Expr.within outer n)
  ofNode : Raises (·.Located n) (Stmt.ofNode n)
  values : ∀ r ∈ Expr.each n.children, Raises (·.Inside n.children) r
  ofBlock : Raises (·.Inside n.children) (Stmt.ofBlock n)

/-- Where the reading starts from the node itself, the node is `outer`. -/
theorem Blames.ofExpr {n : Node} (h : n.Blames) : Raises (·.Located n) (Expr.within n n) := by
  intro e he
  rcases h.within n e he with rfl | hlocated
  · exact .of_refused (.expression he)
  · exact hlocated

section Parts

variable {ns : List Node} (h : ∀ c ∈ ns, c.Blames)

include h

/-- Children of one kind, each read by itself. -/
theorem raises_filter {α : Type} {f : Node → Except TreeError α} (kind : NodeKind)
    (hf : ∀ c : Node, c.kind = kind → c.Blames → Raises (·.Located c) (f c)) :
    ∀ r ∈ (ns.filter (·.kind == kind)).map f, Raises (·.Inside ns) r := by
  intro r hr
  obtain ⟨c, hc, rfl⟩ := List.mem_map.mp hr
  obtain ⟨hmem, hkind⟩ := List.mem_filter.mp hc
  exact (hf c (beq_iff_eq.mp hkind) (h c hmem)).imp fun e he => ⟨c, hmem, he⟩

theorem raises_each : ∀ r ∈ Expr.each ns, Raises (·.Inside ns) r := by
  rw [each_eq]
  exact raises_filter h _ fun _ _ hc => hc.ofExpr

theorem raises_stmtEach : ∀ r ∈ Stmt.each ns, Raises (·.Inside ns) r := by
  rw [stmtEach_eq]
  exact raises_filter h _ fun _ _ hc => hc.ofNode

/-- A block is no function, so what is located below it is located in it. -/
theorem raises_eachBlock : ∀ r ∈ Stmt.eachBlock ns, Raises (·.Inside ns) r := by
  rw [eachBlock_eq]
  refine raises_filter h _ fun c hkind hc => ?_
  exact hc.ofBlock.imp fun e he => he.located (by rw [hkind]; simp)

/-- What is found is the reading of a child. -/
theorem raises_findSome? {kinds : List NodeKind} {r : Except TreeError Stmt}
    (hr : kinds.findSome? (fun kind => Stmt.ofKind? kind ns) = some r) :
    Raises (·.Inside ns) r := by
  obtain ⟨kind, _, hfound⟩ := List.exists_of_findSome?_eq_some hr
  rw [ofKind?_eq] at hfound
  obtain ⟨c, hc, rfl⟩ := Option.map_eq_some_iff.mp hfound
  have hmem := List.mem_of_find?_eq_some hc
  exact (h c hmem).ofNode.imp fun e he => ⟨c, hmem, he⟩

end Parts

/-- A literal that cannot be read is blamed itself, and any other leaf that is no operand in the
name of `outer`. -/
theorem raises_operandLeaf {n : Node} {kind : TokenKind} (hkind : n.kind = .token kind)
    (outer : Node) :
    Raises (fun e => e = .noExpression outer ∨ e.Located n) (operandLeaf outer kind n) := by
  obtain ⟨_, text, span, arrow, children⟩ := n
  obtain rfl : _ = NodeKind.token kind := hkind
  -- a literal that cannot be read is refused at its own leaf
  have hliteral (k : LiteralKind) (hk : kind = k.leaf) (read : Option Expr)
      (hread : Expr.ofNode ⟨.token kind, text, span, arrow, children⟩
        = literal k ⟨.token kind, text, span, arrow, children⟩ read) :
      Raises (fun e => e = .noExpression outer ∨
          e.Located ⟨.token kind, text, span, arrow, children⟩)
        (literal k ⟨.token kind, text, span, arrow, children⟩ read) := by
    cases read with
    | some e => exact .ok _
    | none => exact .error (.inr (.of_refused (.literal (congrArg NodeKind.token hk) hread)))
  cases kind with
  | integer => exact hliteral .integer rfl _ (by rw [Expr.ofNode, Expr.within]; rfl)
  | float => exact hliteral .float rfl _ (by rw [Expr.ofNode, Expr.within]; rfl)
  | string => exact hliteral .string rfl _ (by rw [Expr.ofNode, Expr.within]; rfl)
  | boolean | name => exact .ok _
  | operator | keyword | punctuation => exact .error (.inl rfl)

/-- One case for each kind of node. Those that have a single child pass `outer` on, and all others
start anew with their children. -/
theorem raises_within {n : Node} (h : ∀ c ∈ n.children, c.Blames) (outer : Node) :
    Raises (fun e => e = .noExpression outer ∨ e.Located n) (Expr.within outer n) := by
  obtain ⟨kind, text, span, arrow, children⟩ := n
  have hother {α : Type} : Raises (fun e => e = .noExpression outer ∨
        e.Located ⟨kind, text, span, arrow, children⟩)
      (.error (.noExpression outer) : Except TreeError α) := .error (.inl rfl)
  cases kind with
  | token kind =>
    rw [Expr.within]
    exact raises_operandLeaf rfl outer
  | array =>
    rw [Expr.within]
    refine .bind ?_ fun _ => .ok _
    exact (Raises.all (raises_each h)).imp fun e he => .inr (he.located (by simp))
  | lambda =>
    -- a lambda without a body is blamed itself, wherever the reading started
    have hbody : Raises (fun e => e = .noExpression ⟨.lambda, text, span, arrow, children⟩ ∨
        e.Inside children) (Expr.within outer ⟨.lambda, text, span, arrow, children⟩) := by
      rw [Expr.within]
      refine .bind (.ofLambda (fun r hr => ?_) (fun r hr => ?_) (.inl rfl)) fun _ => .ok _
      · exact (raises_each h r hr).imp fun _ => .inr
      · exact (raises_eachBlock h r hr).imp fun _ => .inr
    intro e he
    rcases hbody e he with rfl | hinside
    · refine .inr (.of_refused (.expression ?_))
      rw [Expr.within] at he
      rw [Expr.ofNode, Expr.within]
      exact he
    · exact .inr (hinside.located (by simp))
  | primary =>
    rcases children with _ | ⟨only, _ | ⟨_, _⟩⟩
    · simp only [Expr.within]
      exact hother
    · simp only [Expr.within]
      refine ((h only List.mem_cons_self).within outer).imp fun e he => ?_
      exact he.imp_right fun hlocated => hlocated.of_child List.mem_cons_self (by simp)
    · simp only [Expr.within]
      exact hother
  | expression =>
    have hchild {α : Type} {r : Except TreeError α} {c : Node} (hc : c ∈ children)
        (hr : Raises (·.Located c) r) : Raises (fun e => e = .noExpression outer ∨
          e.Located ⟨.expression, text, span, arrow, children⟩) r :=
      hr.imp fun e he => .inr (he.of_child hc (by simp))
    rcases children with
      _ | ⟨first, _ | ⟨second, _ | ⟨third, _ | ⟨fourth, _ | ⟨_, _⟩⟩⟩⟩⟩
    · simp only [Expr.within]
      exact hother
    · simp only [Expr.within]
      refine ((h first List.mem_cons_self).within outer).imp fun e he => ?_
      exact he.imp_right fun hlocated => hlocated.of_child List.mem_cons_self (by simp)
    -- two children: a sign and its operand
    · simp only [Expr.within]
      split
      next hshape =>
        rw [Bool.and_eq_true] at hshape
        refine .bind (hchild (by simp) (raises_ofUnaryNode hshape.1)) fun _ => ?_
        exact .bind (hchild (by simp) (h second (by simp)).ofExpr) fun _ => .ok _
      next => exact hother
    -- three children: a group, or an operator between its operands
    · simp only [Expr.within]
      split
      next => exact hchild (by simp) (h second (by simp)).ofExpr
      next =>
        split
        next hshape =>
          rw [Bool.and_eq_true, Bool.and_eq_true] at hshape
          refine .bind (hchild (by simp) (raises_ofBinaryNode hshape.1.1)) fun _ => ?_
          refine .bind (hchild (by simp) (h first (by simp)).ofExpr) fun _ => ?_
          exact .bind (hchild (by simp) (h third (by simp)).ofExpr) fun _ => .ok _
        next => exact hother
    -- four children: a call, whose arguments are below the third one
    · simp only [Expr.within]
      split
      next hshape =>
        rw [Bool.and_eq_true, Bool.and_eq_true, beq_iff_eq] at hshape
        have hvalues : Raises (·.Located third) (TreeError.all (Expr.each third.children)) :=
          (Raises.all (h third (by simp)).values).imp fun e he =>
            he.located (by rw [hshape.1.2]; simp)
        refine .bind (hchild (by simp) (h first (by simp)).ofExpr) fun _ => ?_
        exact .bind (hchild (by simp) hvalues) fun _ => .ok _
      next => exact hother
    · simp only [Expr.within]
      exact hother
  | _ =>
    simp only [Expr.within]
    exact hother

/-- The errors of a statement are about itself, or located below it; a function adds itself. -/
theorem raises_ofNode {n : Node} (h : ∀ c ∈ n.children, c.Blames) :
    Raises (·.Located n) (Stmt.ofNode n) := by
  have hwithin := raises_within h
  -- a statement that is refused itself is located in itself
  suffices hraises : Raises (fun e => e = .noStatement n ∨ e.Located n) (Stmt.ofNode n) by
    intro e he
    rcases hraises e he with rfl | hlocated
    · exact .of_refused (.statement he)
    · exact hlocated
  have hbelow (hkind : n.kind ≠ .function) {α : Type} {r : Except TreeError α}
      (hr : Raises (·.Inside n.children) r) :
      Raises (fun e => e = .noStatement n ∨ e.Located n) r :=
    hr.imp fun e he => .inr (he.located hkind)
  obtain ⟨kind, text, span, arrow, parts⟩ := n
  have htarget : Raises (fun e => e = .noStatement ⟨kind, text, span, arrow, parts⟩ ∨
      e.Located ⟨kind, text, span, arrow, parts⟩) (target ⟨kind, text, span, arrow, parts⟩) := by
    rw [target]
    split
    · exact .ok _
    · exact .error (.inl rfl)
  cases kind with
  | statement =>
    rw [Stmt.ofNode]
    split
    next result hresult => exact hbelow (by simp) (raises_findSome? h hresult)
    next => exact .error (.inl rfl)
  | declaration =>
    rw [Stmt.ofNode]
    refine htarget.bind fun _ => ?_
    exact .bind (hbelow (by simp) (.optional (raises_each h))) fun _ => .ok _
  | assignment =>
    rw [Stmt.ofNode]
    refine htarget.bind fun _ => ?_
    exact .bind (.required (fun r hr => hbelow (by simp) (raises_each h r hr)) (.inl rfl))
      fun _ => .ok _
  | function =>
    rw [Stmt.ofNode]
    have hbody := Raises.ofFunction (raises_each h) (raises_eachBlock h) arrow
    split
    next => exact .ok _
    next cause hcause =>
      obtain ⟨c, hc, hlocated⟩ := hbody cause hcause
      exact .error (.inr (hlocated.of_function (n := ⟨.function, text, span, arrow, parts⟩) hc rfl))
  | returning =>
    rw [Stmt.ofNode]
    exact .bind (hbelow (by simp) (.optional (raises_each h))) fun _ => .ok _
  | conditional =>
    rw [Stmt.ofNode]
    refine .bind (.required (fun r hr => hbelow (by simp) (raises_each h r hr)) (.inl rfl))
      fun _ => ?_
    refine .bind (.required (fun r hr => hbelow (by simp) (raises_stmtEach h r hr)) (.inl rfl))
      fun _ => ?_
    refine .bind (hbelow (by simp) (.optional fun r hr => ?_)) fun _ => .ok _
    exact raises_stmtEach h r (List.mem_of_mem_tail hr)
  | loop =>
    rw [Stmt.ofNode]
    refine .bind (.required (fun r hr => hbelow (by simp) (raises_each h r hr)) (.inl rfl))
      fun _ => ?_
    exact .bind (.required (fun r hr => hbelow (by simp) (raises_stmtEach h r hr)) (.inl rfl))
      fun _ => .ok _
  | expression =>
    rw [Stmt.ofNode]
    refine Raises.map Stmt.expr fun e he => ?_
    rcases hwithin _ e he with rfl | hlocated
    · exact .inr (.of_refused (.expression he))
    · exact .inr hlocated
  | block =>
    rw [Stmt.ofNode]
    exact .bind (hbelow (by simp) (.all (raises_stmtEach h))) fun _ => .ok _
  | _ =>
    simp only [Stmt.ofNode]
    exact .error (.inl rfl)

/-- By induction on the tree, where `raises_within` and `raises_ofNode` are the step. -/
theorem blames (n : Node) : n.Blames := by
  induction n using Node.induction with
  | step n ih =>
    exact ⟨raises_within ih, raises_ofNode ih, raises_each ih, .all (raises_stmtEach ih)⟩

end Node

/-- Reading errors are precise: there is a node of the tree that cannot be read, whose span and text
the root cause has, and the functions that the error is reported through, from outside in, are the
function definitions above that node, each with its name and its span. For a whole program the node
can also be the root, if that is no program. -/
theorem reading_errors_located (n : Node) (e : TreeError) :
    (Stmt.ofNode n = .error e → ∃ above site, n.Leads above site ∧ site.Refused e.rootCause ∧
      e.functions = Node.definitions above) ∧
    (Stmt.ofProgram n = .error e → ∃ above site, n.Leads above site ∧
      (site.Refused e.rootCause ∨
        site = n ∧ n.kind ≠ .program ∧ e.rootCause = .statement site.text site.span) ∧
      e.functions = Node.definitions above) := by
  refine ⟨n.blames.ofNode e, fun he => ?_⟩
  rw [Stmt.ofProgram] at he
  split at he
  next hkind =>
    have hlocated : e.Located n := (n.blames.ofBlock e he).located (by rw [hkind]; simp)
    obtain ⟨above, site, hleads, hrefused, hfunctions⟩ := hlocated
    exact ⟨above, site, hleads, .inl hrefused, hfunctions⟩
  next hkind =>
    cases he
    exact ⟨[], n, .here n, .inr ⟨rfl, hkind, rfl⟩, rfl⟩

/-- The definition of a function whose body is one statement. -/
def Node.definition (head : List Node) (span : Span) (body : Node) : Node :=
  .plain .function "" span (head ++ [.plain .block "" span [.plain .statement "" span [body]]])

/-- A function `f` around a function without a name, around the expression `1 ? 2`. -/
def Node.nestedFault : Node :=
  .plain .program "" ⟨0, 40⟩ [.plain .statement "" ⟨0, 40⟩
    [.definition [.leaf .name "f" ⟨3, 4⟩] ⟨0, 40⟩ (.definition [] ⟨10, 30⟩
      (.plain .expression "1 ? 2" ⟨20, 25⟩
        [.plain .expression "1" ⟨20, 21⟩ [.leaf .integer "1" ⟨20, 21⟩],
          .leaf .operator "?" ⟨22, 23⟩,
          .plain .expression "2" ⟨24, 25⟩ [.leaf .integer "2" ⟨24, 25⟩]]))]]

/-- The operator is blamed, through both functions. -/
theorem reading_errors_located_nested :
    Stmt.ofProgram .nestedFault = .error (.function "f" ⟨0, 40⟩
        (.function "unnamed" ⟨10, 30⟩ (.operator "?" ⟨22, 23⟩))) ∧
      ∃ above site, Node.nestedFault.Leads above site ∧
        (site.Refused (.operator "?" ⟨22, 23⟩) ∨ site = .nestedFault ∧
          Node.nestedFault.kind ≠ .program ∧
          TreeError.operator "?" ⟨22, 23⟩ = .statement site.text site.span) ∧
        [("f", ⟨0, 40⟩), ("unnamed", ⟨10, 30⟩)] = Node.definitions above := by
  have h : Stmt.ofProgram .nestedFault = .error (.function "f" ⟨0, 40⟩
      (.function "unnamed" ⟨10, 30⟩ (.operator "?" ⟨22, 23⟩))) := by cbv
  exact ⟨h, (reading_errors_located _ _).2 h⟩

end SimpleLang
