import SimpleLang.Proofs.Lowering.Congruence

/-!
# Parentheses leave no trace

Parentheses around an expression make another expression, and whatever held the first one takes the
second one in its place: it is still an expression, at the same position among as many siblings. So
a tree is read alike however many of its expressions are put into parentheses.

* `Node.Regrouped`: a tree with any set of its expressions in parentheses, each any number of times.
* `Node.ReadAlike.group`: an expression is read like itself in parentheses. With
  `Node.ReadAlike.of_children` for all that is around it, this gives `Node.Regrouped.readAlike`.
-/

namespace SimpleLang

namespace Node

/-- The second tree is the first with some of its expressions in parentheses. What an inner node
covers may change with what is put below it. -/
inductive Regrouped : Node → Node → Prop where
  /-- The node stays as it is, and some expressions below it are put into parentheses. -/
  | node {n m : Node} (hkind : n.kind = m.kind) (harrow : n.arrow = m.arrow)
      (htext : n.kind.isToken → n.text = m.text)
      (hchildren : List.Forall₂ Regrouped n.children m.children) : Regrouped n m
  /-- The node is put into parentheses, perhaps not for the first time. -/
  | group {n m opening closing : Node} {text : String} {span : Span} {arrow : Bool}
      (hkind : n.kind = .expression) (h : Regrouped n m) (hopening : opening.isToken "(")
      (hclosing : closing.isToken ")") :
      Regrouped n ⟨.expression, text, span, arrow, [opening, m, closing]⟩

/-- Any set of expressions may be empty. -/
theorem Regrouped.refl (n : Node) : n.Regrouped n := by
  induction n using Node.induction with
  | step n ih => exact .node rfl rfl (fun _ => rfl) (List.forall₂_same.mpr ih)

/-! ## Reading -/

section Group

variable {opening closing : Node} {text : String} {span : Span} {arrow : Bool}

/-- What is in the parentheses is read anew, with itself for `outer`, whatever the reading started
from. -/
theorem within_group (hopening : opening.isToken "(") (hclosing : closing.isToken ")")
    (outer n : Node) :
    Expr.within outer ⟨.expression, text, span, arrow, [opening, n, closing]⟩
      = Expr.within n n := by
  rw [Expr.within, hopening, hclosing]
  rfl

/-- An expression as a statement starts a reading of its own, so `outer` is the node. -/
theorem ofNode_expression {n : Node} (h : n.kind = .expression) :
    Stmt.ofNode n = (Expr.within n n).map .expr := by
  obtain ⟨kind, text, span, arrow, children⟩ := n
  obtain rfl : kind = .expression := h
  rw [Stmt.ofNode]

/-- An expression is read like itself in parentheses. -/
theorem ReadAlike.group {n m : Node} (h : n.ReadAlike m) (hkind : n.kind = .expression)
    (hopening : opening.isToken "(") (hclosing : closing.isToken ")") :
    n.ReadAlike ⟨.expression, text, span, arrow, [opening, m, closing]⟩ where
  kind := hkind
  text hleaf := by
    rw [hkind] at hleaf
    cases hleaf
  within outer outer' := by
    rw [within_group hopening hclosing]
    exact h.within outer m
  ofNode := by
    rw [ofNode_expression hkind, ofNode_expression rfl, within_group hopening hclosing]
    exact (h.within n m).map Stmt.expr
  names hother := absurd hkind hother
  values hother := absurd hkind hother
  ofBlock hother := absurd hkind hother

end Group

/-- By induction on `Regrouped`, which is nested in the list of the children and so has no induction
of its own. -/
theorem Regrouped.readAlike {n m : Node} (h : n.Regrouped m) : n.ReadAlike m := by
  -- the trees below a node are related one by one, and so is what they are read as
  refine @Regrouped.rec (fun n m _ => n.ReadAlike m) (fun ns ms _ => List.Forall₂ ReadAlike ns ms)
    ?_ ?_ .nil ?_ n m h
  · intro _ _ hkind harrow htext _ hchildren
    exact .of_children hkind harrow htext hchildren
  · intro _ _ _ _ _ _ _ hkind _ hopening hclosing hm
    exact hm.group hkind hopening hclosing
  · intro _ _ _ _ _ _ hfirst hothers
    exact .cons hfirst hothers

def inParentheses (n : Node) : Node :=
  .ofChildren .expression
    [.leaf .punctuation "(" .nowhere, n, .leaf .punctuation ")" .nowhere]

theorem regrouped_inParentheses {n m : Node} (hkind : n.kind = .expression)
    (h : n.Regrouped m) : n.Regrouped m.inParentheses :=
  .group hkind h rfl rfl

end Node

/-- A tree whose expressions are put into parentheses, any of them and any number of times, is read
as before: as the same program, statement or expression, or with the same error but for the
place. -/
theorem parentheses_leave_no_trace {n m : Node} (h : n.Regrouped m) :
    ReadsSame (Stmt.ofProgram n) (Stmt.ofProgram m) ∧ ReadsSame (Stmt.ofNode n) (Stmt.ofNode m) ∧
      ReadsSame (Expr.ofNode n) (Expr.ofNode m) :=
  ⟨readsSame_ofProgram h.readAlike, h.readAlike.ofNode, h.readAlike.within n m⟩

/-! ### An argument with parentheses inside and around it -/

namespace Node

def numeral (digits : String) : Node := .ofChildren .expression [.leaf .integer digits .nowhere]

def sum (left right : Node) : Node :=
  .ofChildren .expression [left, .leaf .operator "+" .nowhere, right]

def callWith (argument : Node) : Node :=
  .ofChildren .program [.ofChildren .statement [.ofChildren .expression
    [.ofChildren .expression [.leaf .name "f" .nowhere], .leaf .punctuation "(" .nowhere,
      .ofChildren .arguments [argument], .leaf .punctuation ")" .nowhere]]]

/-- `Regrouped.node` for an inner node. -/
theorem regrouped_ofChildren (kind : NodeKind) (hkind : kind.isToken = false) {ns ms : List Node}
    (h : List.Forall₂ Regrouped ns ms) :
    (Node.ofChildren kind ns).Regrouped (.ofChildren kind ms) :=
  .node rfl rfl (fun hleaf => absurd (hkind.symm.trans hleaf) Bool.false_ne_true) h

end Node

/-- The calls `f(1 + 2)` and `f(((1) + 2))`. -/
theorem parentheses_leave_no_trace_argument :
    (Node.callWith (.sum (.numeral "1") (.numeral "2"))).Regrouped
        (.callWith (Node.sum (Node.numeral "1").inParentheses (.numeral "2")).inParentheses) ∧
      Stmt.ofProgram (.callWith (.sum (.numeral "1") (.numeral "2")))
        = .ok [.expr (.call (.name "f") [.binary .add (.int 1) (.int 2)])] ∧
      ReadsSame (Stmt.ofProgram (.callWith (.sum (.numeral "1") (.numeral "2"))))
        (Stmt.ofProgram (.callWith
          (Node.sum (Node.numeral "1").inParentheses (.numeral "2")).inParentheses)) := by
  have hone : (Node.numeral "1").Regrouped (Node.numeral "1").inParentheses :=
    Node.regrouped_inParentheses rfl (.refl _)
  have hsum := Node.regrouped_inParentheses rfl (Node.regrouped_ofChildren .expression rfl
    (.cons hone (.cons (.refl (.leaf .operator "+" .nowhere)) (.cons (.refl (.numeral "2")) .nil))))
  -- upwards from the sum to the whole program
  have hcall := Node.regrouped_ofChildren .expression rfl
    (.cons (.refl (.ofChildren .expression [.leaf .name "f" .nowhere]))
      (.cons (.refl (.leaf .punctuation "(" .nowhere))
        (.cons (Node.regrouped_ofChildren .arguments rfl (.cons hsum .nil))
          (.cons (.refl (.leaf .punctuation ")" .nowhere)) .nil))))
  have hprogram := Node.regrouped_ofChildren .program rfl
    (.cons (Node.regrouped_ofChildren .statement rfl (.cons hcall .nil)) .nil)
  exact ⟨hprogram, by cbv, (parentheses_leave_no_trace hprogram).1⟩

end SimpleLang
