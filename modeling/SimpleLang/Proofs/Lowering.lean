import SimpleLang.Program.OfTree
import SimpleLang.Proofs.Reading
import SimpleLang.Proofs.Writable

/-!
# The nodes of a reading as syntax

What each kind of node that a reading builds is read as, once its parts are. A node never depends on
where it stands (`Node.Denotes` holds for every `outer`), because `outer` only shows in errors.

* `Node.Denotes`, `Node.DenotesStmt`, `Node.DenotesBlock`: the node is read as an expression, a
  statement, the statements of a block.
* One lemma for each node that a rule of the grammar builds: `denotes_binary`, `denotes_call`,
  `denotesStmt_conditional` and so on.
-/

namespace SimpleLang

namespace Node

/-- The node is read as the expression. -/
structure Denotes (n : Node) (e : Expr) : Prop where
  kind : n.kind = .expression
  within : ∀ outer, Expr.within outer n = .ok e

structure DenotesStmt (n : Node) (s : Stmt) : Prop where
  kind : n.kind = .statement
  ofNode : Stmt.ofNode n = .ok s

/-- A node is read as one statement only. -/
theorem DenotesStmt.eq {n : Node} {s s' : Stmt} (h : n.DenotesStmt s) (h' : n.DenotesStmt s') :
    s = s' :=
  Except.ok.inj (h.ofNode.symm.trans h'.ofNode)

structure DenotesBlock (n : Node) (ss : List Stmt) : Prop where
  kind : n.kind = .block
  statements : TreeError.all (Stmt.each n.children) = .ok ss

/-! ## Parts of a node -/

/-- If every part is read, so are all of them. -/
theorem all_map_ok {α : Type} (l : List α) : TreeError.all (l.map Except.ok) = .ok l := by
  induction l with
  | nil => rfl
  | cons a l ih =>
    rw [List.map_cons, TreeError.all, ih]
    rfl

/-- All parts are read only if each one is, as `all_map_ok` has it. -/
theorem all_eq_ok {α : Type} {results : List (Except TreeError α)} {values : List α}
    (h : TreeError.all results = .ok values) : results = values.map .ok := by
  induction results generalizing values with
  | nil => cases h; rfl
  | cons result results ih =>
    rw [TreeError.all] at h
    cases result with
    | error e => cases h
    | ok value =>
      cases hall : TreeError.all results with
      | error e => rw [hall] at h; cases h
      | ok others =>
        rw [hall] at h
        cases h
        rw [ih hall]
        rfl

/-- `Expr.each` walks through the children by itself, because it is defined along with the reading
of one. Here it is filtering and mapping, for which there are lemmas. -/
theorem each_eq (ns : List Node) :
    Expr.each ns = (ns.filter (·.kind == .expression)).map fun n => Expr.within n n := by
  induction ns with
  | nil => rw [Expr.each]; rfl
  | cons n ns ih =>
    rw [Expr.each, ih, List.filter_cons]
    split <;> rfl

/-- As `each_eq`, for the statements among some nodes. -/
theorem stmtEach_eq (ns : List Node) :
    Stmt.each ns = (ns.filter (·.kind == .statement)).map Stmt.ofNode := by
  induction ns with
  | nil => rw [Stmt.each]; rfl
  | cons n ns ih =>
    rw [Stmt.each, ih, List.filter_cons]
    split <;> rfl

/-- As `each_eq`, for the blocks among some nodes. -/
theorem eachBlock_eq (ns : List Node) : Stmt.eachBlock ns
    = (ns.filter (·.kind == .block)).map fun n => TreeError.all (Stmt.each n.children) := by
  induction ns with
  | nil => rw [Stmt.eachBlock]; rfl
  | cons n ns ih =>
    rw [Stmt.eachBlock, ih, List.filter_cons]
    split <;> rfl

/-- As `each_eq`, for the first node of a kind. -/
theorem ofKind?_eq (kind : NodeKind) (ns : List Node) :
    Stmt.ofKind? kind ns = (ns.find? (·.kind == kind)).map Stmt.ofNode := by
  induction ns with
  | nil => rw [Stmt.ofKind?]; rfl
  | cons n ns ih =>
    rw [Stmt.ofKind?, ih, List.find?_cons]
    cases n.kind == kind <;> rfl

theorem each_append (ns ms : List Node) : Expr.each (ns ++ ms) = Expr.each ns ++ Expr.each ms := by
  simp only [each_eq, List.filter_append, List.map_append]

theorem stmtEach_append (ns ms : List Node) :
    Stmt.each (ns ++ ms) = Stmt.each ns ++ Stmt.each ms := by
  simp only [stmtEach_eq, List.filter_append, List.map_append]

theorem eachBlock_append (ns ms : List Node) :
    Stmt.eachBlock (ns ++ ms) = Stmt.eachBlock ns ++ Stmt.eachBlock ms := by
  simp only [eachBlock_eq, List.filter_append, List.map_append]

/-! ## Leaves -/

section Leaves

variable {source : String} {t : Token} {outer : Node}

@[simp] theorem kind_ofToken (source : String) (t : Token) :
    (ofToken source t).kind = .token (.ofLexeme t.lexeme) := rfl

@[simp] theorem kind_above (source : String) (kind : NodeKind) (ns : List Node) (offset : Nat) :
    (above source kind ns offset).kind = kind := rfl

@[simp] theorem children_above (source : String) (kind : NodeKind) (ns : List Node)
    (offset : Nat) : (above source kind ns offset).children = ns := rfl

@[simp] theorem kind_functionOf (source : String) (arrow : Bool) (ns : List Node) :
    (functionOf source arrow ns).kind = .function := rfl

/-- The text of a leaf is the spelling of its lexeme, since a faithful token covers it. -/
theorem text_ofToken {l : Lexeme} (ht : t.Faithful source) (hlexeme : t.lexeme = l) :
    (ofToken source t).text = l.spelling := by
  rw [← hlexeme]
  exact ht.excerpt

theorem isToken_ofToken (ht : t.Faithful source) (text : String) :
    (ofToken source t).isToken text = (t.lexeme.spelling == text) := by
  rw [isToken, text_ofToken ht rfl]
  rfl

/-- An operand is never taken for a token. -/
theorem isToken_of_kind {n : Node} (h : n.kind = .expression) (text : String) :
    n.isToken text = false := by
  rw [isToken, h]
  rfl

/-- Leaves are read by their kind. -/
theorem within_ofToken : Expr.within outer (ofToken source t)
    = operandLeaf outer (.ofLexeme t.lexeme) (ofToken source t) := by
  show Expr.within outer ⟨.token _, _, _, _, _⟩ = _
  rw [Expr.within]
  rfl

/-- The kind of a leaf and its text are those of the lexeme, so it is read as the literal is. -/
theorem within_integer {digits : String} {n : Int64} (ht : t.Faithful source)
    (hlexeme : t.lexeme = .integer digits) (hread : Integer.read? digits = some n) :
    Expr.within outer (ofToken source t) = .ok (.int n) := by
  have htext : (ofToken source t).text = digits := text_ofToken ht hlexeme
  rw [within_ofToken, hlexeme]
  show literal .integer _ _ = _
  rw [htext, hread]
  rfl

theorem within_float {text : String} {x : Float} (ht : t.Faithful source)
    (hlexeme : t.lexeme = .float text) (hread : Decimal.read? text = some x) :
    Expr.within outer (ofToken source t) = .ok (.float x) := by
  have htext : (ofToken source t).text = text := text_ofToken ht hlexeme
  rw [within_ofToken, hlexeme]
  show literal .float _ _ = _
  rw [htext, hread]
  rfl

/-- Only the two quotes are taken away, whatever stands between them. -/
theorem unquoted?_quoted (body : List Char) :
    unquoted? (String.ofList ('"' :: (body ++ ['"']))) = some (String.ofList body) := by
  cases body with
  | nil => rfl
  | cons c body =>
    rw [unquoted?, String.toList_ofList]
    show some (String.ofList (c :: (body ++ ['"'])).dropLast) = _
    rw [← List.cons_append, List.dropLast_concat]

theorem within_string {body : List Char} (ht : t.Faithful source)
    (hlexeme : t.lexeme = .string (String.ofList ('"' :: (body ++ ['"'])))) :
    Expr.within outer (ofToken source t) = .ok (.string (String.ofList body)) := by
  have htext : (ofToken source t).text = String.ofList ('"' :: (body ++ ['"'])) :=
    text_ofToken ht hlexeme
  rw [within_ofToken, hlexeme]
  show literal .string _ _ = _
  rw [htext, unquoted?_quoted]
  rfl

theorem within_bool {b : Bool} (ht : t.Faithful source)
    (hlexeme : t.lexeme = .keyword (if b then .trueWord else .falseWord)) :
    Expr.within outer (ofToken source t) = .ok (.bool b) := by
  have htext : (ofToken source t).text = if b then "true" else "false" := by
    rw [text_ofToken ht hlexeme]
    cases b <;> rfl
  rw [within_ofToken, hlexeme]
  cases b with
  | false =>
    show Except.ok (Expr.bool (_ == "true")) = _
    rw [htext]
    rfl
  | true =>
    show Except.ok (Expr.bool (_ == "true")) = _
    rw [htext]
    rfl

theorem within_name {x : String} (ht : t.Faithful source) (hlexeme : t.lexeme = .ident x) :
    Expr.within outer (ofToken source t) = .ok (.name x) := by
  have htext : (ofToken source t).text = x := text_ofToken ht hlexeme
  rw [within_ofToken, hlexeme]
  show Except.ok (Expr.name _) = _
  rw [htext]

end Leaves

/-! ## Expressions -/

section Expressions

variable {source : String}

/-- A primary has one child, and so has the expression above it. Both are passed through with the
same `outer`. -/
theorem denotes_primaryOf {inner : Node} {e : Expr}
    (h : ∀ outer, Expr.within outer inner = .ok e) : (primaryOf source inner).Denotes e := by
  refine ⟨rfl, fun outer => ?_⟩
  show Expr.within outer ⟨.expression, _, _, _, [⟨.primary, _, _, _, [inner]⟩]⟩ = _
  rw [Expr.within, Expr.within, h]

/-- An operator is read from its text, which is the spelling of the symbol that the parser looked
at. -/
theorem ofBinaryNode_ofToken {t : Token} {op : Operation} (ht : t.Faithful source)
    (hop : t.lexeme.binary? = some op) : Operation.ofBinaryNode (ofToken source t) = .ok op := by
  obtain ⟨s, hs⟩ : ∃ s, t.lexeme = .symbol s := by
    cases hl : t.lexeme with
    | symbol s => exact ⟨s, rfl⟩
    | _ => simp [hl, Lexeme.binary?] at hop
  have htext : (ofToken source t).text = s.spelling := text_ofToken ht hs
  rw [hs] at hop
  rw [Operation.ofBinaryNode, htext]
  cases s <;> cases hop <;> rfl

/-- `Operation.not` is no binary operator. -/
theorem ne_not_of_binary? {l : Lexeme} {op : Operation} (h : l.binary? = some op) :
    op ≠ .not := by
  cases l with
  | symbol s => cases s <;> cases h <;> decide
  | _ => cases h

theorem ofUnaryNode_ofToken {t : Token} (ht : t.Faithful source)
    (hsign : t.lexeme = .symbol .bang) : Operation.ofUnaryNode (ofToken source t) = .ok .not := by
  have htext : (ofToken source t).text = "!" := text_ofToken ht hsign
  rw [Operation.ofUnaryNode, htext]
  rfl

/-- Three children with an operator between two operands. -/
theorem denotes_binary {l r : Node} {a b : Expr} {t : Token} {op : Operation}
    (hl : l.Denotes a) (hr : r.Denotes b) (ht : t.Faithful source)
    (hop : t.lexeme.binary? = some op) :
    (above source .expression [l, ofToken source t, r]).Denotes (.binary op a b) := by
  refine ⟨rfl, fun outer => ?_⟩
  show Expr.within outer ⟨.expression, _, _, _, [l, ofToken source t, r]⟩ = _
  rw [Expr.within, isToken_of_kind hl.kind]
  -- the left operand is no opening parenthesis, so this is not taken for a group
  simp only [Bool.false_and, Bool.false_eq_true, if_false, isOperand, hl.kind, hr.kind, hl.within,
    hr.within, ofBinaryNode_ofToken ht hop]
  rfl

theorem denotes_unary {n : Node} {e : Expr} {t : Token} (hn : n.Denotes e)
    (ht : t.Faithful source) (hsign : t.lexeme = .symbol .bang) :
    (above source .expression [ofToken source t, n]).Denotes (.unary .not e) := by
  refine ⟨rfl, fun outer => ?_⟩
  show Expr.within outer ⟨.expression, _, _, _, [ofToken source t, n]⟩ = _
  rw [Expr.within]
  simp only [isOperand, hn.kind, hn.within, ofUnaryNode_ofToken ht hsign]
  rfl

/-- Three children with parentheses around an expression. They are recognised by the parentheses,
which come first. -/
theorem denotes_group {n : Node} {e : Expr} {t₀ t₁ : Token} (hn : n.Denotes e)
    (ht₀ : t₀.Faithful source) (hopen : t₀.lexeme = .symbol .leftParen)
    (ht₁ : t₁.Faithful source) (hclose : t₁.lexeme = .symbol .rightParen) :
    (above source .expression [ofToken source t₀, n, ofToken source t₁]).Denotes e := by
  refine ⟨rfl, fun outer => ?_⟩
  show Expr.within outer ⟨.expression, _, _, _, [ofToken source t₀, n, ofToken source t₁]⟩ = _
  rw [Expr.within, isToken_ofToken ht₀, isToken_ofToken ht₁, hopen, hclose]
  exact hn.within n

/-- Four children, of which the third has the arguments for its children. -/
theorem denotes_call {n : Node} {e : Expr} {t₀ t₁ : Token} {values : List Node} {es : List Expr}
    (hn : n.Denotes e) (ht₀ : t₀.Faithful source) (hopen : t₀.lexeme = .symbol .leftParen)
    (hvalues : Expr.each values = es.map .ok)
    (ht₁ : t₁.Faithful source) (hclose : t₁.lexeme = .symbol .rightParen) :
    (callOf source n t₀ values t₁).Denotes (.call e es) := by
  refine ⟨rfl, fun outer => ?_⟩
  show Expr.within outer ⟨.expression, _, _, _, [n, ofToken source t₀,
    above source .arguments values t₁.span.start, ofToken source t₁]⟩ = _
  rw [Expr.within, isToken_ofToken ht₀, isToken_ofToken ht₁, hopen, hclose, hn.within]
  show (do return Expr.call e (← TreeError.all (Expr.each values)) : Except TreeError Expr) = _
  rw [hvalues, all_map_ok]
  rfl

/-- The brackets and commas among the children are no expressions, so `Expr.each` passes over
them. -/
theorem denotes_array {t₀ t₁ : Token} {values : List Node} {es : List Expr}
    (hvalues : Expr.each values = es.map .ok) :
    (primaryOf source
      (above source .array (ofToken source t₀ :: values ++ [ofToken source t₁]))).Denotes
        (.array es) := by
  refine denotes_primaryOf fun outer => ?_
  show Expr.within outer ⟨.array, _, _, _, ofToken source t₀ :: values ++ [ofToken source t₁]⟩ = _
  have heach : Expr.each (ofToken source t₀ :: values ++ [ofToken source t₁]) = es.map .ok := by
    rw [← hvalues, each_eq, each_eq]
    simp
  rw [Expr.within, heach, all_map_ok]
  rfl

/-! ### Lambdas -/

/-- The nodes before the body of a function or a lambda name its parameters and hold no body. -/
structure Heads (head : List Node) (parameters : List String) : Prop where
  values : Expr.each head = []
  blocks : Stmt.eachBlock head = []
  names : ∀ more, (∀ n ∈ more, n.kind ≠ .parameters) →
    parameterNames (head ++ more) = parameters

/-- The parameters before a closing parenthesis, as one node or none. -/
def IsParameters (source : String) (ps : List Node) (parameters : List String) : Prop :=
  ps = [] ∧ parameters = [] ∨ ∃ ns, ps = [above source .parameters ns] ∧
    (ns.filter (·.kind == .token .name)).map Node.text = parameters

/-- Parameters between leaves are the head of a function or a lambda. -/
theorem heads_of_isParameters {before after ps : List Node} {parameters : List String}
    (hbefore : ∀ n ∈ before, n.kind.isToken) (hps : IsParameters source ps parameters)
    (hafter : ∀ n ∈ after, n.kind.isToken) : Heads (before ++ ps ++ after) parameters := by
  -- leaves are of none of the kinds that are looked for
  have hnone (leaves : List Node) (h : ∀ n ∈ leaves, n.kind.isToken) (kind : NodeKind)
      (hkind : kind.isToken = false) : ∀ n ∈ leaves, ¬ (n.kind == kind) = true := by
    intro n hn heq
    have htoken := h n hn
    rw [beq_iff_eq.mp heq, hkind] at htoken
    cases htoken
  have hparameters : ∀ n ∈ ps, n.kind = .parameters := by
    rcases hps with ⟨rfl, _⟩ | ⟨ns, rfl, _⟩ <;> simp
  have hfilter (kind : NodeKind) (hkind : kind.isToken = false) (hne : kind ≠ .parameters) :
      (before ++ ps ++ after).filter (·.kind == kind) = [] := by
    refine List.filter_eq_nil_iff.mpr fun n hn => ?_
    simp only [List.mem_append] at hn
    rcases hn with (hn | hn) | hn
    · exact hnone before hbefore kind hkind n hn
    · rw [hparameters n hn, beq_iff_eq]
      exact hne.symm
    · exact hnone after hafter kind hkind n hn
  refine ⟨?_, ?_, fun more hmore => ?_⟩
  · rw [each_eq, hfilter .expression rfl (by simp)]
    rfl
  · rw [eachBlock_eq, hfilter .block rfl (by simp)]
    rfl
  · have hleft := List.find?_eq_none.mpr (hnone before hbefore .parameters rfl)
    have hright := List.find?_eq_none.mpr (hnone after hafter .parameters rfl)
    have hbody : more.find? (·.kind == .parameters) = none :=
      List.find?_eq_none.mpr fun n hn => by simpa using hmore n hn
    rw [parameterNames]
    rcases hps with ⟨rfl, rfl⟩ | ⟨ns, rfl, rfl⟩
    · simp [List.find?_append, hleft, hright, hbody]
    · simp only [List.find?_append, hleft, List.find?_singleton, kind_above, beq_self_eq_true,
        if_true, Option.none_or, Option.some_or]
      rfl

/-- The head holds no block, so the one behind the arrow is the body. -/
theorem denotes_lambda_block {head : List Node} {parameters : List String} {t : Token} {b : Node}
    {ss : List Stmt} (hhead : Heads head parameters) (hb : b.DenotesBlock ss) :
    (primaryOf source (above source .lambda (head ++ [ofToken source t, b]))).Denotes
      (.lambda parameters (.block ss)) := by
  refine denotes_primaryOf fun outer => ?_
  show Expr.within outer ⟨.lambda, _, _, _, head ++ [ofToken source t, b]⟩ = _
  have hblocks : Stmt.eachBlock (head ++ [ofToken source t, b]) = [.ok ss] := by
    rw [eachBlock_append, hhead.blocks]
    simp [eachBlock_eq, hb.kind, hb.statements]
  rw [Expr.within, hblocks, hhead.names _ (by simp [hb.kind])]
  rfl

/-- Without any block the body is the expression, which is the only one. -/
theorem denotes_lambda_value {head : List Node} {parameters : List String} {t : Token} {b : Node}
    {e : Expr} (hhead : Heads head parameters) (hb : b.Denotes e) :
    (primaryOf source (above source .lambda (head ++ [ofToken source t, b]))).Denotes
      (.lambda parameters (.value e)) := by
  refine denotes_primaryOf fun outer => ?_
  show Expr.within outer ⟨.lambda, _, _, _, head ++ [ofToken source t, b]⟩ = _
  have hblocks : Stmt.eachBlock (head ++ [ofToken source t, b]) = [] := by
    rw [eachBlock_append, hhead.blocks]
    simp [eachBlock_eq, hb.kind]
  have hvalues : Expr.each (head ++ [ofToken source t, b]) = [.ok e] := by
    rw [each_append, hhead.values]
    simp [each_eq, hb.kind, hb.within]
  rw [Expr.within, hblocks, hvalues, hhead.names _ (by simp [hb.kind])]
  rfl

end Expressions

/-! ## Statements -/

section Statements

variable {source : String}

/-- The kinds are tried in order, and only one of them is there. -/
theorem findSome?_of_mem {α β : Type} [BEq α] [LawfulBEq α] {f : α → Option β} {a : α} {b : β}
    {l : List α} (hmem : a ∈ l) (hf : ∀ k ∈ l, f k = if a == k then some b else none) :
    l.findSome? f = some b := by
  induction l with
  | nil => simp at hmem
  | cons k l ih =>
    rw [List.findSome?_cons, hf k List.mem_cons_self]
    by_cases hk : a = k
    · simp [hk]
    · have hrest : a ∈ l := (List.mem_cons.mp hmem).resolve_left hk
      simp only [beq_eq_false_iff_ne.mpr hk, Bool.false_eq_true, if_false]
      exact ih hrest fun k hk => hf k (List.mem_cons_of_mem _ hk)

/-- A statement node is read as the one part of it that is no leaf. -/
theorem denotesStmt_of_ofNode {n : Node} {s : Stmt} {leaves : List Node}
    (h : Stmt.ofNode n = .ok s) (hkind : n.kind ∈ statementKinds)
    (hleaves : ∀ m ∈ leaves, m.kind.isToken) :
    (above source .statement (n :: leaves)).DenotesStmt s := by
  refine ⟨rfl, ?_⟩
  -- each kind is looked for among all the parts, and only one part is of any of the kinds
  have hfind (kind : NodeKind) (hmem : kind ∈ statementKinds) :
      Stmt.ofKind? kind (n :: leaves) = if n.kind == kind then some (.ok s) else none := by
    rw [ofKind?_eq, List.find?_cons]
    cases hk : n.kind == kind with
    | true => simp [h]
    | false =>
      have hnone : leaves.find? (·.kind == kind) = none := by
        refine List.find?_eq_none.mpr fun m hm => ?_
        have htoken := hleaves m hm
        rintro heq
        rw [beq_iff_eq.mp heq] at htoken
        have hno : ∀ kind ∈ statementKinds, kind.isToken = false := by decide
        simp [hno kind hmem] at htoken
      simp only [hnone]
      rfl
  show Stmt.ofNode ⟨.statement, _, _, _, n :: leaves⟩ = _
  rw [Stmt.ofNode, findSome?_of_mem hkind hfind]

/-- A leaf that is no name is passed over by `firstName?`. -/
theorem firstName?_cons {t : Token} {ns : List Node} (ht : ∀ x, t.lexeme ≠ .ident x) :
    firstName? (ofToken source t :: ns) = firstName? ns := by
  have hkind : ((ofToken source t).kind == .token .name) = false := by
    rw [kind_ofToken]
    cases hl : t.lexeme with
    | ident x => exact absurd hl (ht x)
    | keyword word => cases word <;> rfl
    | symbol sign => cases sign <;> rfl
    | _ => rfl
  rw [firstName?, firstName?, List.find?_cons, hkind]

/-- A leaf that is a name is the first one. -/
theorem firstName?_ident {t : Token} {x : String} {ns : List Node} (ht : t.Faithful source)
    (hname : t.lexeme = .ident x) : firstName? (ofToken source t :: ns) = some x := by
  have htext : (ofToken source t).text = x := text_ofToken ht hname
  have hkind : ((ofToken source t).kind == .token .name) = true := by
    rw [kind_ofToken, hname]
    rfl
  rw [firstName?, List.find?_cons, hkind]
  exact congrArg some htext

/-- The word before the name is no name, and there is no expression, so there is no value. -/
theorem denotesStmt_declare {t₀ t₁ t₂ : Token} {x : String} (hword : t₀.lexeme = .keyword .letWord)
    (ht₁ : t₁.Faithful source) (hname : t₁.lexeme = .ident x) :
    (above source .statement
      [above source .declaration [ofToken source t₀, ofToken source t₁],
        ofToken source t₂]).DenotesStmt (.declare x none) := by
  refine denotesStmt_of_ofNode ?_ (by simp [statementKinds]) (by simp [NodeKind.isToken])
  show Stmt.ofNode ⟨.declaration, _, _, _, [ofToken source t₀, ofToken source t₁]⟩ = _
  rw [Stmt.ofNode, target, firstName?_cons (by simp [hword]), firstName?_ident ht₁ hname, each_eq]
  rfl

theorem denotesStmt_declareValue {t₀ t₁ t₂ t₃ : Token} {x : String} {n : Node} {e : Expr}
    (hword : t₀.lexeme = .keyword .letWord) (ht₁ : t₁.Faithful source)
    (hname : t₁.lexeme = .ident x) (hn : n.Denotes e) :
    (above source .statement
      [above source .declaration [ofToken source t₀, ofToken source t₁, ofToken source t₂, n],
        ofToken source t₃]).DenotesStmt (.declare x (some e)) := by
  refine denotesStmt_of_ofNode ?_ (by simp [statementKinds]) (by simp [NodeKind.isToken])
  show Stmt.ofNode ⟨.declaration, _, _, _,
    [ofToken source t₀, ofToken source t₁, ofToken source t₂, n]⟩ = _
  have hvalues : Expr.each [ofToken source t₀, ofToken source t₁, ofToken source t₂, n]
      = [.ok e] := by simp [each_eq, hn.kind, hn.within]
  rw [Stmt.ofNode, target, firstName?_cons (by simp [hword]), firstName?_ident ht₁ hname, hvalues]
  rfl

theorem denotesStmt_assign {t₀ t₁ t₂ : Token} {x : String} {n : Node} {e : Expr}
    (ht₀ : t₀.Faithful source) (hname : t₀.lexeme = .ident x) (hn : n.Denotes e) :
    (above source .statement
      [above source .assignment [ofToken source t₀, ofToken source t₁, n],
        ofToken source t₂]).DenotesStmt (.assign x e) := by
  refine denotesStmt_of_ofNode ?_ (by simp [statementKinds]) (by simp [NodeKind.isToken])
  show Stmt.ofNode ⟨.assignment, _, _, _, [ofToken source t₀, ofToken source t₁, n]⟩ = _
  have hvalues : Expr.each [ofToken source t₀, ofToken source t₁, n] = [.ok e] := by
    simp [each_eq, hn.kind, hn.within]
  rw [Stmt.ofNode, target, firstName?_ident ht₀ hname, hvalues]
  rfl

theorem denotesStmt_returnNothing {t₀ t₁ : Token} :
    (above source .statement
      [above source .returning [ofToken source t₀], ofToken source t₁]).DenotesStmt
        (.ret none) := by
  refine denotesStmt_of_ofNode ?_ (by simp [statementKinds]) (by simp [NodeKind.isToken])
  show Stmt.ofNode ⟨.returning, _, _, _, [ofToken source t₀]⟩ = _
  rw [Stmt.ofNode, each_eq]
  rfl

theorem denotesStmt_returnValue {t₀ t₁ : Token} {n : Node} {e : Expr} (hn : n.Denotes e) :
    (above source .statement
      [above source .returning [ofToken source t₀, n], ofToken source t₁]).DenotesStmt
        (.ret (some e)) := by
  refine denotesStmt_of_ofNode ?_ (by simp [statementKinds]) (by simp [NodeKind.isToken])
  show Stmt.ofNode ⟨.returning, _, _, _, [ofToken source t₀, n]⟩ = _
  have hvalues : Expr.each [ofToken source t₀, n] = [.ok e] := by
    simp [each_eq, hn.kind, hn.within]
  rw [Stmt.ofNode, hvalues]
  rfl

/-- An expression is read by itself, so `outer` is the node. -/
theorem denotesStmt_expr {t : Token} {n : Node} {e : Expr} (hn : n.Denotes e) :
    (above source .statement [n, ofToken source t]).DenotesStmt (.expr e) := by
  refine denotesStmt_of_ofNode ?_ (by simp [hn.kind, statementKinds]) (by simp [NodeKind.isToken])
  obtain ⟨kind, text, span, arrow, parts⟩ := n
  obtain rfl : kind = .expression := hn.kind
  rw [Stmt.ofNode]
  show (Expr.within _ ⟨.expression, text, span, arrow, parts⟩).map Stmt.expr = _
  rw [hn.within]
  rfl

/-- The head of a conditional or a loop is read as its test and its body. -/
structure Branches (parts : List Node) (test : Expr) (body : Stmt) : Prop where
  values : Expr.each parts = [.ok test]
  statements : Stmt.each parts = [.ok body]

/-- Leaves are neither expressions nor statements. -/
theorem branches_conditionAndBody {t₀ t₁ t₂ : Token} {c b : Node} {test : Expr} {body : Stmt}
    (hc : c.Denotes test) (hb : b.DenotesStmt body) :
    Branches [ofToken source t₀, ofToken source t₁, c, ofToken source t₂, b] test body where
  values := by simp [each_eq, hc.kind, hc.within, hb.kind]
  statements := by simp [stmtEach_eq, hc.kind, hb.kind, hb.ofNode]

/-- There is one statement among the parts, so there is no second branch. -/
theorem denotesStmt_conditional {parts : List Node} {test : Expr} {yes : Stmt}
    (h : Branches parts test yes) :
    (above source .statement [above source .conditional parts]).DenotesStmt
      (.cond test yes none) := by
  refine denotesStmt_of_ofNode ?_ (by simp [statementKinds]) (by simp)
  show Stmt.ofNode ⟨.conditional, _, _, _, parts⟩ = _
  rw [Stmt.ofNode, h.values, h.statements]
  rfl

/-- The statement behind the `else` is the second one among the parts. -/
theorem denotesStmt_conditionalElse {parts : List Node} {test : Expr} {yes no : Stmt} {t : Token}
    {n : Node} (h : Branches parts test yes) (hn : n.DenotesStmt no) :
    (above source .statement
      [above source .conditional (parts ++ [ofToken source t, n])]).DenotesStmt
        (.cond test yes (some no)) := by
  refine denotesStmt_of_ofNode ?_ (by simp [statementKinds]) (by simp)
  show Stmt.ofNode ⟨.conditional, _, _, _, parts ++ [ofToken source t, n]⟩ = _
  have hvalues : Expr.each (parts ++ [ofToken source t, n]) = [.ok test] := by
    rw [each_append, h.values]
    simp [each_eq, hn.kind]
  have hstatements : Stmt.each (parts ++ [ofToken source t, n]) = [.ok yes, .ok no] := by
    rw [stmtEach_append, h.statements]
    simp [stmtEach_eq, hn.kind, hn.ofNode]
  rw [Stmt.ofNode, hvalues, hstatements]
  rfl

theorem denotesStmt_loop {parts : List Node} {test : Expr} {body : Stmt}
    (h : Branches parts test body) :
    (above source .statement [above source .loop parts]).DenotesStmt (.loop test body) := by
  refine denotesStmt_of_ofNode ?_ (by simp [statementKinds]) (by simp)
  show Stmt.ofNode ⟨.loop, _, _, _, parts⟩ = _
  rw [Stmt.ofNode, h.values, h.statements]
  rfl

/-- The braces are no statements. -/
theorem denotesBlock_block {t₀ t₁ : Token} {ns : List Node} {ss : List Stmt}
    (h : Stmt.each ns = ss.map .ok) :
    (above source .block (ofToken source t₀ :: ns ++ [ofToken source t₁])).DenotesBlock ss := by
  refine ⟨rfl, ?_⟩
  show TreeError.all (Stmt.each (ofToken source t₀ :: ns ++ [ofToken source t₁])) = _
  have heach : Stmt.each (ofToken source t₀ :: ns ++ [ofToken source t₁]) = ss.map .ok := by
    rw [← h, stmtEach_eq, stmtEach_eq]
    simp
  rw [heach, all_map_ok]

theorem denotesStmt_block {n : Node} {ss : List Stmt} (hn : n.DenotesBlock ss) :
    (above source .statement [n]).DenotesStmt (.block ss) := by
  refine denotesStmt_of_ofNode ?_ (by simp [hn.kind, statementKinds]) (by simp)
  obtain ⟨kind, text, span, arrow, parts⟩ := n
  obtain rfl : kind = .block := hn.kind
  rw [Stmt.ofNode, show TreeError.all (Stmt.each parts) = .ok ss from hn.statements]
  rfl

/-- The name is the first one, and the body is the only block. -/
theorem denotesStmt_functionBlock {head : List Node} {t₀ t₁ : Token} {x : String}
    {parameters : List String} {b : Node} {ss : List Stmt}
    (hword : t₀.lexeme = .keyword .fnWord) (ht₁ : t₁.Faithful source)
    (hname : t₁.lexeme = .ident x)
    (hhead : Heads (ofToken source t₀ :: ofToken source t₁ :: head) parameters)
    (hb : b.DenotesBlock ss) :
    (above source .statement
      [functionOf source false
        (ofToken source t₀ :: ofToken source t₁ :: head ++ [b])]).DenotesStmt
        (.function x parameters (.block ss)) := by
  refine denotesStmt_of_ofNode ?_ (by simp [statementKinds]) (by simp)
  show Stmt.ofNode ⟨.function, _, _, false, ofToken source t₀ :: ofToken source t₁ :: head ++ [b]⟩
    = _
  have hblocks : Stmt.eachBlock (ofToken source t₀ :: ofToken source t₁ :: head ++ [b])
      = [.ok ss] := by
    rw [eachBlock_append, hhead.blocks]
    simp [eachBlock_eq, hb.kind, hb.statements]
  have hnames := hhead.names [b] (by simp [hb.kind])
  rw [Stmt.ofNode, hblocks, hnames, List.cons_append, firstName?_cons (by simp [hword]),
    List.cons_append, firstName?_ident ht₁ hname]
  rfl

/-- With an arrow the value becomes a block that returns it (`Body.ofFunction`). -/
theorem denotesStmt_functionValue {head : List Node} {t₀ t₁ t₂ t₃ : Token} {x : String}
    {parameters : List String} {n : Node} {e : Expr}
    (hword : t₀.lexeme = .keyword .fnWord) (ht₁ : t₁.Faithful source)
    (hname : t₁.lexeme = .ident x)
    (hhead : Heads (ofToken source t₀ :: ofToken source t₁ :: head) parameters)
    (hn : n.Denotes e) :
    (above source .statement
      [functionOf source true
        (ofToken source t₀ :: ofToken source t₁ :: head
          ++ [ofToken source t₂, n, ofToken source t₃])]).DenotesStmt
        (.function x parameters (.block [.ret (some e)])) := by
  refine denotesStmt_of_ofNode ?_ (by simp [statementKinds]) (by simp)
  show Stmt.ofNode ⟨.function, _, _, true, ofToken source t₀ :: ofToken source t₁ :: head
    ++ [ofToken source t₂, n, ofToken source t₃]⟩ = _
  have hvalues : Expr.each (ofToken source t₀ :: ofToken source t₁ :: head
      ++ [ofToken source t₂, n, ofToken source t₃]) = [.ok e] := by
    rw [each_append, hhead.values]
    simp [each_eq, hn.kind, hn.within]
  have hnames := hhead.names [ofToken source t₂, n, ofToken source t₃] (by simp [hn.kind])
  rw [Stmt.ofNode, hvalues, hnames, List.cons_append, firstName?_cons (by simp [hword]),
    List.cons_append, firstName?_ident ht₁ hname]
  rfl

end Statements

end Node

end SimpleLang
