import SimpleLang.Proofs.Parser.Refinement

/-!
# How deep the trees of a limit are nested

The parser counts the levels that it has entered, and leaves them again behind a group, a chain of
calls and a chain of operators. What was built on these levels stays in the tree, and what follows
buries it deeper: the callee of a call may itself be a group that took all the levels that there
are. So the statements and expressions below one another can outnumber the levels, and this module
says by how much.

* `Node.IsPath`: a path from a node down to a leaf. `Node.nesting` is the largest number of
  statements and expressions on such a path.
* `expressionReach`, `statementReach`: the bounds for an expression and a statement that have a
  number of levels at their disposal; the bound for what goes on from a node is in `Nested.reach`.
* `Parser.Gives p P`: every result of the parser satisfies `P`. A construct reaches as deep as its
  parts and its chains let it (`Parser.gives_construct`), and the induction is on the levels left
  (`Parser.gives_enter`).
* `nesting_le_of_parse`: the bound for trees.
-/

namespace SimpleLang

/-! ## Nesting -/

/-- Whether a node of the kind counts as a level. -/
def NodeKind.nests : NodeKind → Bool
  | statement | expression => true
  | _ => false

/-- How many levels a node of the kind adds. -/
def NodeKind.weight (kind : NodeKind) : Nat := if kind.nests then 1 else 0

namespace Node

/-- The nodes on a way from a node down to a leaf. -/
inductive IsPath : Node → List Node → Prop where
  | leaf {n : Node} (hleaf : n.children = []) : IsPath n [n]
  | down {n c : Node} {path : List Node} (hchild : c ∈ n.children) (hpath : IsPath c path) :
    IsPath n (n :: path)

mutual
/-- The largest number of statements and expressions below one another. -/
def nesting : Node → Nat
  | ⟨kind, _, _, _, children⟩ => nestingList children + kind.weight
def nestingList : List Node → Nat
  | [] => 0
  | n :: rest => max n.nesting (nestingList rest)
end

/-- A node is above the deepest of its children, and `NodeKind.weight` says whether that is a level
more. -/
theorem nesting_eq (n : Node) : n.nesting = nestingList n.children + n.kind.weight := by
  cases n
  rw [nesting]

/-- `nestingList` is the maximum, so it is below what bounds every node. -/
theorem nestingList_le_iff {ns : List Node} {k : Nat} :
    nestingList ns ≤ k ↔ ∀ n ∈ ns, n.nesting ≤ k := by
  induction ns with
  | nil => simp [nestingList]
  | cons n ns ih => rw [nestingList, Nat.max_le, ih, List.forall_mem_cons]

/-- No node is nested deeper than the deepest one. -/
theorem nesting_le_nestingList {n : Node} {ns : List Node} (h : n ∈ ns) :
    n.nesting ≤ nestingList ns := nestingList_le_iff.mp (Nat.le_refl _) n h

/-- The number of statements and expressions among some nodes. -/
def countNesting (path : List Node) : Nat := path.countP (·.kind.nests)

/-- A path counts its first node, if that one has a `weight`, and what is below it. -/
theorem countNesting_cons (n : Node) (path : List Node) :
    countNesting (n :: path) = countNesting path + n.kind.weight := by
  rw [countNesting, List.countP_cons]
  rfl

/-- By induction on the path. Each step goes to one child, and `nestingList` is the maximum over
all. -/
theorem countNesting_le_nesting {n : Node} {path : List Node} (h : n.IsPath path) :
    countNesting path ≤ n.nesting := by
  induction h with
  | leaf _ =>
    rw [countNesting_cons, nesting_eq]
    exact Nat.add_le_add_right (Nat.zero_le _) _
  | down hchild _ ih =>
    rw [countNesting_cons, nesting_eq]
    exact Nat.add_le_add_right (Nat.le_trans ih (nesting_le_nestingList hchild)) _

/-- `nestingList` is attained, so a path can go down to the child that makes for it
(`exists_isPath`). -/
theorem exists_nesting_eq_nestingList {ns : List Node} (h : ns ≠ []) :
    ∃ n ∈ ns, n.nesting = nestingList ns := by
  induction ns with
  | nil => exact absurd rfl h
  | cons n ns ih =>
    rw [nestingList]
    rcases Nat.le_total (nestingList ns) n.nesting with hle | hle
    · exact ⟨n, List.mem_cons_self, (Nat.max_eq_left hle).symm⟩
    · cases ns with
      | nil => exact ⟨n, List.mem_cons_self, (Nat.max_eq_left (Nat.zero_le _)).symm⟩
      | cons m ns =>
        obtain ⟨c, hc, heq⟩ := ih (List.cons_ne_nil _ _)
        exact ⟨c, List.mem_cons_of_mem _ hc, heq.trans (Nat.max_eq_right hle).symm⟩

/-- One of the paths counts `nesting`. With `countNesting_le_nesting` that is the largest count. -/
theorem exists_isPath (n : Node) : ∃ path, n.IsPath path ∧ countNesting path = n.nesting := by
  induction n using Node.induction with
  | step n ih =>
    rw [nesting_eq]
    by_cases hleaf : n.children = []
    · refine ⟨[n], .leaf hleaf, ?_⟩
      rw [countNesting_cons, hleaf]
      rfl
    · obtain ⟨c, hchild, heq⟩ := exists_nesting_eq_nestingList hleaf
      obtain ⟨path, hpath, hcount⟩ := ih c hchild
      refine ⟨n :: path, .down hchild hpath, ?_⟩
      rw [countNesting_cons, hcount, heq]

end Node

/-! ## Bounds -/

/-- How deep an expression is nested at most, if it and what is in it may take `levels` levels. -/
def expressionReach : (levels : Nat) → Nat
  | 0 => 0
  | left + 1 => left * (left + 1) + 1

/-- How deep a statement is nested at most, if it and what is in it may take `levels` levels. -/
def statementReach : (levels : Nat) → Nat
  | 0 => 0
  | left + 1 => expressionReach left + 1

/-- One floor of an expression with `left` levels for what is below it: a primary above the level
below, `left` calls, and `left - 1` operators, as the right operand of an operator takes a level
too. -/
theorem expressionReach_succ (left : Nat) :
    expressionReach (left + 1) = expressionReach left + 1 + left + (left - 1) := by
  cases left with
  | zero => rfl
  | succ left =>
    simp only [expressionReach, Nat.add_sub_cancel]
    ring

/-- With more levels an expression reaches deeper. -/
theorem expressionReach_mono {a b : Nat} (h : a ≤ b) : expressionReach a ≤ expressionReach b := by
  induction h with
  | refl => exact Nat.le_refl _
  | step _ ih =>
    rw [expressionReach_succ]
    omega

/-- A statement is one node above an expression with one level less, so `expressionReach` bounds
both. -/
theorem statementReach_le (levels : Nat) : statementReach levels ≤ expressionReach levels := by
  cases levels with
  | zero => exact Nat.le_refl _
  | succ left =>
    rw [statementReach, expressionReach_succ]
    omega

namespace Parser

/-- How deep the result of a construct is nested at most, with `levels` levels at its disposal. -/
def Nested.reach (levels : Nat) : Nested → Nat
  | .statement => statementReach levels
  | .expression _ => expressionReach levels
  | .operation _ _ left => max left.nesting (expressionReach (levels - 1)) + (levels - 1)
  | .negation => expressionReach levels + 1 + levels
  | .call callee => max callee.nesting (expressionReach (levels - 1)) + levels

/-! ## Results of parsers -/

/-- Every result of the parser satisfies a condition. -/
def Gives {α : Type} (p : Parser α) (P : α → Prop) : Prop := ∀ s a s', p s = .ok a s' → P a

namespace Gives

variable {α β : Type} {p : Parser α} {P : α → Prop} {f : α → Parser β} {Q : β → Prop}

/-- The last step of a parser: `P` is to be shown of what it returns. -/
theorem pure {a : α} (h : P a) : Gives (Pure.pure a) P := by
  intro s b s' hrun
  cases hrun
  exact h

/-- Nothing is claimed of the result. -/
theorem any (p : Parser α) : Gives p fun _ => True := fun _ _ _ _ => trivial

/-- A weaker condition. -/
theorem mono {P' : α → Prop} (h : Gives p P) (hP : ∀ a, P a → P' a) : Gives p P' :=
  fun s a s' hrun => hP a (h s a s' hrun)

/-- What `p` gives is known of the argument of `f`. All rules below are chains of this lemma. -/
theorem bind (h : Gives p P) (hf : ∀ a, P a → Gives (f a) Q) : Gives (p >>= f) Q := by
  intro s b s' hrun
  replace hrun : EStateM.bind p f s = .ok b s' := hrun
  rw [EStateM.bind] at hrun
  cases hp : p s with
  | ok a t =>
    rw [hp] at hrun
    exact hf a (h s a t hp) t b s' hrun
  | error e t =>
    rw [hp] at hrun
    cases hrun

/-- A step whose result does not matter, such as a look at a lexeme or `report`. -/
theorem skip (hf : ∀ a, Gives (f a) Q) : Gives (p >>= f) Q := (any p).bind fun a _ => hf a

end Gives

/-- No node of a list is nested deeper than a bound. -/
def AllWithin (k : Nat) (ns : List Node) : Prop := ∀ n ∈ ns, n.nesting ≤ k

section AllWithin

variable {k : Nat} {n : Node} {ns ms : List Node}

theorem allWithin_nil : AllWithin k [] := fun _ h => absurd h List.not_mem_nil

theorem AllWithin.cons (hn : n.nesting ≤ k) (hns : AllWithin k ns) : AllWithin k (n :: ns) :=
  List.forall_mem_cons.mpr ⟨hn, hns⟩

theorem AllWithin.append (hns : AllWithin k ns) (hms : AllWithin k ms) : AllWithin k (ns ++ ms) :=
  List.forall_mem_append.mpr ⟨hns, hms⟩

end AllWithin

/-! ### Steps -/

section Steps

variable (source : String) {k : Nat}

/-- A leaf has no `weight`, so any bound will do. -/
theorem gives_bump (k : Nat) : Gives (bump source) (·.nesting ≤ k) :=
  Gives.skip fun _ => Gives.skip fun _ => .pure (by simp [Node.covering, Node.plain, Node.nesting,
    Node.nestingList, NodeKind.weight, NodeKind.nests])

/-- `nesting_eq` for the node that is built. -/
theorem gives_node (kind : NodeKind) {ns : List Node} (h : AllWithin k ns) :
    Gives (node source kind ns) (·.nesting ≤ k + kind.weight) := by
  refine Gives.skip fun _ => .pure ?_
  rw [Node.nesting_eq]
  exact Nat.add_le_add_right (Node.nestingList_le_iff.mpr h) _

/-- What is expected is a leaf, or nothing if it is missing, so any bound will do as in
`gives_bump`. -/
theorem gives_expect (k : Nat) (wanted : Symbol) : Gives (expect source wanted) (AllWithin k) := by
  refine Gives.skip fun found => ?_
  split
  · exact (gives_bump source k).bind fun _ hn => .pure (.cons hn allWithin_nil)
  · exact Gives.skip fun _ => .pure allWithin_nil

/-- `gives_expect` for a name. -/
theorem gives_expectName (k : Nat) : Gives (expectName source) (AllWithin k) := by
  refine Gives.skip fun found => ?_
  split
  · exact (gives_bump source k).bind fun _ hn => .pure (.cons hn allWithin_nil)
  · exact Gives.skip fun _ => .pure allWithin_nil

/-- By induction on the rounds, which are bounded by tokens. Each adds nodes within the bound. -/
theorem gives_rounds {more : Lexeme → Bool} {round : Parser (List Node)}
    (h : Gives round (AllWithin k)) (bound : List Token) :
    Gives (rounds more round bound) (AllWithin k) := by
  induction bound with
  | nil => exact .pure allWithin_nil
  | cons _ bound ih =>
    refine Gives.skip fun l => ?_
    split
    · exact h.bind fun _ hfirst => ih.bind fun _ hothers => .pure (hfirst.append hothers)
    · exact .pure allWithin_nil

/-- `gives_rounds` with the tokens ahead for the bound. -/
theorem gives_repeatWhile {more : Lexeme → Bool} {round : Parser (List Node)}
    (h : Gives round (AllWithin k)) : Gives (repeatWhile more round) (AllWithin k) :=
  Gives.skip fun s => gives_rounds h s.ahead

/-- The items are within the bound, and the commas between them are leaves. -/
theorem gives_separated {item : Parser (List Node)} (h : Gives item (AllWithin k)) :
    Gives (separated source item) (AllWithin k) := by
  refine h.bind fun _ hfirst => (gives_repeatWhile ?_).bind fun _ hothers =>
    .pure (hfirst.append hothers)
  exact (gives_bump source k).bind fun _ hcomma => h.bind fun _ hns => .pure (.cons hcomma hns)

end Steps

/-! ### Constructs on the levels below -/

section Parts

variable {level : Level} {k : Nat} (hstatement : Gives (level.enter .statement) (·.nesting ≤ k))
  (hexpression : ∀ minimum, Gives (level.enter (.expression minimum)) (·.nesting ≤ k))

include hstatement in
/-- Recovery and the step over a token come behind the statement, so the bound is that of
`level.enter .statement`. -/
theorem gives_guardedStatement : Gives (guardedStatement level) (·.nesting ≤ k) := by
  -- what is left to do behind the statement does not change it
  have hsettle {n : Node} (position : Nat) (hn : n.nesting ≤ k) : Gives (do
      if position = (← get).position then
        advance
      return n) (·.nesting ≤ k) := by
    refine Gives.skip fun _ => ?_
    split
    · exact Gives.skip fun _ => .pure hn
    · exact .pure hn
  refine Gives.skip fun s => hstatement.bind fun n hn => Gives.skip fun t => ?_
  split
  · exact Gives.skip fun _ => hsettle s.position hn
  · exact hsettle s.position hn

include hstatement in
/-- Each round is a `guardedStatement`. -/
theorem gives_guardedStatements (more : Lexeme → Bool) :
    Gives (repeatWhile more do return [← guardedStatement level]) (AllWithin k) :=
  gives_repeatWhile
    ((gives_guardedStatement hstatement).bind fun _ hn => .pure (.cons hn allWithin_nil))

include hstatement in
/-- `NodeKind.block` has no `weight`, so a block is as deep as its statements. -/
theorem gives_block : Gives (block level) (·.nesting ≤ k) := by
  refine (gives_expect level.source k _).bind fun _ hopening => ?_
  refine (gives_guardedStatements hstatement _).bind fun _ hbody => ?_
  refine (gives_expect level.source k _).bind fun _ hclosing => ?_
  exact gives_node level.source .block ((hopening.append hbody).append hclosing)

/-- Parameters are names and commas, which are leaves. -/
theorem gives_parametersUnlessClosed (level : Level) (k : Nat) :
    Gives (parametersUnlessClosed level) (AllWithin k) := by
  refine Gives.skip fun l => ?_
  split
  · exact .pure allWithin_nil
  · refine Gives.bind ?_ fun _ hn => .pure (.cons hn allWithin_nil)
    exact (gives_separated level.source (gives_expectName level.source k)).bind fun _ hns =>
      gives_node level.source .parameters hns

include hexpression

/-- Arguments and elements are expressions of the level below. -/
theorem gives_expressionsUnless (closing : Symbol) :
    Gives (expressionsUnless level closing) (AllWithin k) := by
  refine Gives.skip fun l => ?_
  split
  · exact .pure allWithin_nil
  · exact gives_separated level.source
      ((hexpression 0).bind fun _ hn => .pure (.cons hn allWithin_nil))

theorem gives_declaration : Gives (declaration level) (·.nesting ≤ k) := by
  refine (gives_bump level.source k).bind fun _ hword => ?_
  refine (gives_expectName level.source k).bind fun _ hname => Gives.skip fun l => ?_
  split
  · refine (gives_bump level.source k).bind fun _ hsign => (hexpression 0).bind fun _ hvalue => ?_
    exact gives_node level.source .declaration
      ((AllWithin.cons hword hname).append (.cons hsign (.cons hvalue allWithin_nil)))
  · exact gives_node level.source .declaration ((AllWithin.cons hword hname).append allWithin_nil)

theorem gives_assignment : Gives (assignment level) (·.nesting ≤ k) := by
  refine (gives_bump level.source k).bind fun _ hname => ?_
  refine (gives_bump level.source k).bind fun _ hsign => (hexpression 0).bind fun _ hvalue => ?_
  exact gives_node level.source .assignment
    (.cons hname (.cons hsign (.cons hvalue allWithin_nil)))

theorem gives_returning : Gives (returning level) (·.nesting ≤ k) := by
  refine (gives_bump level.source k).bind fun _ hword => Gives.skip fun l => ?_
  split
  · exact gives_node level.source .returning (.cons hword allWithin_nil)
  · exact (hexpression 0).bind fun _ hvalue =>
      gives_node level.source .returning (.cons hword (.cons hvalue allWithin_nil))

/-- A group is an `.expression` itself, and so is what is in it. -/
theorem gives_group : Gives (group level) (·.nesting ≤ k + 1) := by
  refine (gives_bump level.source k).bind fun _ hopening => (hexpression 0).bind fun _ hinner => ?_
  exact (gives_expect level.source k _).bind fun _ hclosing =>
    gives_node level.source .expression (.cons hopening (.cons hinner hclosing))

theorem gives_array : Gives (array level) (·.nesting ≤ k) := by
  refine (gives_bump level.source k).bind fun _ hopening => ?_
  refine (gives_expressionsUnless hexpression _).bind fun _ hvalues => ?_
  refine (gives_expect level.source k _).bind fun _ hclosing => ?_
  exact gives_node level.source .array ((AllWithin.cons hopening hvalues).append hclosing)

include hstatement

theorem gives_functionBody : Gives (functionBody level) fun body => AllWithin k body.1 := by
  refine Gives.skip fun l => ?_
  split
  · refine (gives_bump level.source k).bind fun _ hsign => (hexpression 0).bind fun _ hvalue => ?_
    exact (gives_expect level.source k _).bind fun _ hclosing =>
      .pure (.cons hsign (.cons hvalue hclosing))
  · exact (gives_block hstatement).bind fun _ hblock => .pure (.cons hblock allWithin_nil)
  · exact Gives.skip fun _ => .pure allWithin_nil

theorem gives_function : Gives (function level) (·.nesting ≤ k) := by
  refine (gives_bump level.source k).bind fun _ hword => ?_
  refine (gives_expectName level.source k).bind fun _ hname => ?_
  refine (gives_expect level.source k _).bind fun _ hopening => ?_
  refine (gives_parametersUnlessClosed level k).bind fun _ hnames => ?_
  refine (gives_expect level.source k _).bind fun _ hclosing => ?_
  refine (gives_functionBody hstatement hexpression).bind fun _ hbody => ?_
  refine (gives_node level.source .function
    (((((AllWithin.cons hword hname).append hopening).append hnames).append hclosing).append
      hbody)).bind fun n hn => .pure ?_
  -- the arrow adds nothing
  rw [Node.nesting_eq] at hn ⊢
  exact hn

/-- The test is an expression of the level below, the body a statement of it. -/
theorem gives_conditionAndBody : Gives (conditionAndBody level) (AllWithin k) := by
  refine (gives_bump level.source k).bind fun _ hword => ?_
  refine (gives_expect level.source k _).bind fun _ hopening => ?_
  refine (hexpression 0).bind fun _ htest => ?_
  refine (gives_expect level.source k _).bind fun _ hclosing => hstatement.bind fun _ hbody => ?_
  exact .pure (((AllWithin.cons hword hopening).append (.cons htest hclosing)).append
    (.cons hbody allWithin_nil))

theorem gives_conditional : Gives (conditional level) (·.nesting ≤ k) := by
  refine (gives_conditionAndBody hstatement hexpression).bind fun _ hhead => Gives.skip fun l => ?_
  split
  · refine (gives_bump level.source k).bind fun _ hword => hstatement.bind fun _ hno => ?_
    exact gives_node level.source .conditional
      (hhead.append (.cons hword (.cons hno allWithin_nil)))
  · exact gives_node level.source .conditional (hhead.append allWithin_nil)

/-- Whatever a statement consists of is below one `.statement`. -/
theorem gives_statement : Gives (statement level) (·.nesting ≤ k + 1) := by
  -- a statement is the node above the parts of one construct
  have hsingle {p : Parser Node} (hp : Gives p (·.nesting ≤ k)) :
      Gives (p >>= fun n => node level.source .statement [n]) (·.nesting ≤ k + 1) :=
    hp.bind fun _ hn => gives_node level.source .statement (.cons hn allWithin_nil)
  have hterminated {p : Parser Node} (hp : Gives p (·.nesting ≤ k)) :
      Gives (terminated level p >>= node level.source .statement) (·.nesting ≤ k + 1) := by
    refine Gives.bind ?_ fun _ hparts => gives_node level.source .statement hparts
    exact hp.bind fun _ hn => (gives_expect level.source k _).bind fun _ hend =>
      .pure (.cons hn hend)
  refine Gives.skip fun l => ?_
  split
  · exact hterminated (gives_declaration hexpression)
  · exact hsingle (gives_function hstatement hexpression)
  · exact hterminated (gives_returning hexpression)
  · exact hsingle (gives_conditional hstatement hexpression)
  · exact hsingle ((gives_conditionAndBody hstatement hexpression).bind fun _ hparts =>
      gives_node level.source .loop hparts)
  · exact hsingle (gives_block hstatement)
  · refine Gives.skip fun second => ?_
    split
    · exact hterminated (gives_assignment hexpression)
    · exact hterminated (hexpression 0)
  · exact hterminated (hexpression 0)

omit hstatement hexpression in
/-- Of the two nodes above a primary only `.expression` has a `weight`. -/
theorem gives_wrapPrimary (level : Level) {n : Node} (hn : n.nesting ≤ k) :
    Gives (wrapPrimary level n) (·.nesting ≤ k + 1) :=
  (gives_node level.source .primary (.cons hn allWithin_nil)).bind fun _ hprimary =>
    gives_node level.source .expression (.cons hprimary allWithin_nil)

/-- The body is a block or an expression of the level below. -/
theorem gives_lambdaBody {head : List Node} (hhead : AllWithin k head) :
    Gives (lambdaBody level head) (·.nesting ≤ k + 1) := by
  refine (gives_expect level.source k _).bind fun _ hsign => Gives.skip fun l => ?_
  have hlambda {p : Parser Node} (hp : Gives p (·.nesting ≤ k)) := hp.bind fun _ hbody =>
    (gives_node level.source .lambda
      ((hhead.append hsign).append (.cons hbody allWithin_nil))).bind fun _ hn =>
        gives_wrapPrimary level hn
  split
  · exact hlambda (gives_block hstatement)
  · exact hlambda (hexpression 0)

theorem gives_parenthesizedLambda : Gives (parenthesizedLambda level) (·.nesting ≤ k + 1) := by
  refine (gives_bump level.source k).bind fun _ hopening => ?_
  refine (gives_parametersUnlessClosed level k).bind fun _ hnames => ?_
  refine (gives_expect level.source k _).bind fun _ hclosing => ?_
  exact gives_lambdaBody hstatement hexpression ((AllWithin.cons hopening hnames).append hclosing)

/-- A primary is one `.expression` above the level below it, and an error gives an expression
without children. -/
theorem gives_primary : Gives (primary level) (·.nesting ≤ k + 1) := by
  have hleaf : Gives (do wrapPrimary level (← bump level.source)) (·.nesting ≤ k + 1) :=
    (gives_bump level.source k).bind fun _ hn => gives_wrapPrimary level hn
  refine Gives.skip fun l => ?_
  split
  iterate 5 exact hleaf
  · refine Gives.skip fun second => ?_
    split
    · refine (gives_bump level.source k).bind fun _ hname => ?_
      refine (gives_node level.source .parameters (.cons hname allWithin_nil)).bind fun _ hn => ?_
      exact gives_lambdaBody hstatement hexpression (.cons hn allWithin_nil)
    · exact hleaf
  · exact (gives_array hexpression).bind fun _ hn => gives_wrapPrimary level hn
  · refine Gives.skip fun s => ?_
    split
    · exact gives_parenthesizedLambda hstatement hexpression
    · exact gives_group hexpression
  · refine Gives.skip fun found => Gives.skip fun _ => ?_
    refine (gives_node level.source .expression (k := k) allWithin_nil).bind fun _ hn => ?_
    split
    · exact Gives.skip fun _ => .pure hn
    · exact .pure hn

end Parts

/-! ### Chains -/

/-- With `levels` levels left the constructs below reach no deeper than they may, and if none is
left there is no construct below. -/
def Level.Bounded (level : Level) (levels : Nat) : Prop :=
  ∀ nested, Gives (level.enter nested) fun n => 0 < levels ∧ n.nesting ≤ nested.reach levels

section Chains

variable {level : Level} {levels : Nat} (h : level.Bounded levels)

include h

/-- `statementReach_le` is what lets both constructs have the bound of an expression. -/
theorem Level.Bounded.statement :
    Gives (level.enter .statement) (·.nesting ≤ expressionReach levels) :=
  (h .statement).mono fun _ hn => Nat.le_trans hn.2 (statementReach_le levels)

/-- The bound of an expression, whatever operators it may have. -/
theorem Level.Bounded.expression (minimum : Nat) :
    Gives (level.enter (.expression minimum)) (·.nesting ≤ expressionReach levels) :=
  (h (.expression minimum)).mono fun _ hn => hn.2

/-- Without arguments behind it the callee is the result. Otherwise a call takes the level. -/
theorem gives_calls (callee : Node) :
    Gives (calls level callee)
      (·.nesting ≤ max callee.nesting (expressionReach (levels - 1)) + levels) := by
  refine Gives.skip fun l => ?_
  split
  · exact (h (.call callee)).mono fun _ hn => hn.2
  · exact .pure (by omega)

/-- A primary is one above what the level below reaches, and then there are the calls. -/
theorem gives_operand :
    Gives (operand level) (·.nesting ≤ expressionReach levels + 1 + levels) := by
  refine Gives.skip fun l => ?_
  split
  · exact (h .negation).mono fun _ hn => hn.2
  · refine (gives_primary h.statement h.expression).bind fun callee hcallee => ?_
    refine (gives_calls h callee).mono fun n hn => ?_
    have hmono := expressionReach_mono (Nat.sub_le levels 1)
    omega

/-- An operator takes a level, and its right operand another one. -/
theorem gives_operations (minimum : Nat) (left : Node) :
    Gives (operations level minimum left)
      (·.nesting ≤ max left.nesting (expressionReach (levels - 1)) + (levels - 1)) := by
  refine Gives.skip fun l => ?_
  split
  · split
    · exact (h (.operation minimum _ left)).mono fun _ hn => hn.2
    · exact .pure (by omega)
  · exact .pure (by omega)

/-- One case for each `Nested`. The construct takes a level, so it reaches as far as `Nested.reach`
says of one level more. -/
theorem gives_construct (nested : Nested) :
    Gives (construct level nested) (·.nesting ≤ nested.reach (levels + 1)) := by
  have hmono := expressionReach_mono (Nat.sub_le levels 1)
  cases nested with
  | statement => exact gives_statement h.statement h.expression
  | expression minimum =>
    refine (gives_operand h).bind fun left hleft => ?_
    refine (gives_operations h minimum left).mono fun n hn => ?_
    rw [Nested.reach, expressionReach_succ]
    omega
  | operation minimum op left =>
    refine (gives_bump level.source 0).bind fun sign hsign => ?_
    -- the right operand takes a level of its own, so there is one
    refine (h (.expression _)).bind fun right hright => ?_
    obtain ⟨hlevels, hright⟩ := hright
    have hparts : AllWithin (max left.nesting (expressionReach levels)) [left, sign, right] :=
      .cons (Nat.le_max_left ..) (.cons (by omega)
        (.cons (Nat.le_trans hright (Nat.le_max_right ..)) allWithin_nil))
    refine (gives_node level.source .expression hparts).bind fun result hresult => ?_
    refine (gives_operations h minimum result).mono fun n hn => ?_
    replace hresult : result.nesting ≤ max left.nesting (expressionReach levels) + 1 := hresult
    rw [Nested.reach, Nat.add_sub_cancel]
    omega
  | negation =>
    -- the sign adds one node, and with one level more `expressionReach` grows by at least that
    refine (gives_bump level.source (expressionReach levels + 1 + levels)).bind fun sign hsign => ?_
    refine (gives_operand h).bind fun inner hinner => ?_
    refine (gives_node level.source .expression
      (.cons hsign (.cons hinner allWithin_nil))).mono fun n hn => ?_
    replace hn : n.nesting ≤ expressionReach levels + 1 + levels + 1 := hn
    rw [Nested.reach, expressionReach_succ]
    omega
  | call callee =>
    refine (gives_bump level.source 0).bind fun opening hopening => ?_
    refine (gives_expressionsUnless h.expression _).bind fun values hvalues => ?_
    refine (gives_node level.source .arguments hvalues).bind fun arguments harguments => ?_
    refine (gives_expect level.source 0 _).bind fun closing hclosing => ?_
    have hparts : AllWithin (max callee.nesting (expressionReach levels))
        (callee :: opening :: arguments :: closing) :=
      .cons (Nat.le_max_left ..) (.cons (by omega) (.cons (Nat.le_trans harguments
        (Nat.le_max_right ..)) fun n hn => Nat.le_trans (hclosing n hn) (Nat.zero_le _)))
    refine (gives_node level.source .expression hparts).bind fun result hresult => ?_
    refine (gives_calls h result).mono fun n hn => ?_
    replace hresult : result.nesting ≤ max callee.nesting (expressionReach levels) + 1 := hresult
    rw [Nested.reach, Nat.add_sub_cancel]
    omega

end Chains

/-- By induction on the levels: `construct` is given the parsers with one level less. With none left
nothing is given, since `enter` stops. -/
theorem gives_enter (source : String) (limit levels : Nat) (nested : Nested) :
    Gives (enter source limit levels nested) fun n =>
      0 < levels ∧ n.nesting ≤ nested.reach levels := by
  induction levels generalizing nested with
  | zero =>
    intro s n s' hrun
    cases hrun
  | succ levels ih =>
    have hlevel : Level.Bounded ⟨source, enter source limit levels⟩ levels := ih
    exact (gives_construct hlevel nested).mono fun _ hn => ⟨Nat.succ_pos _, hn⟩

end Parser

/-- The program enters statements with all of its levels, so this is `gives_enter` for each of
them. -/
theorem nesting_le_of_parse {source : String} {limit : Nat} {tree : Node}
    (h : Node.parse source limit = .ok tree) : tree.nesting ≤ statementReach limit := by
  have hprogram : Parser.Gives (Parser.program source limit)
      (Parser.AllWithin (statementReach limit)) := by
    have hstatement : Parser.Gives
        (Parser.Level.enter ⟨source, Parser.enter source limit limit⟩ .statement)
        (·.nesting ≤ statementReach limit) :=
      (Parser.gives_enter source limit limit .statement).mono fun _ hn => hn.2
    exact Parser.gives_guardedStatements hstatement _
  obtain ⟨ns, s, hrun, -, rfl⟩ := Parser.ofTokens_eq_ok_iff.mp (Node.parse_eq_ok_iff.mp h).2
  rw [Node.nesting_eq]
  exact Node.nestingList_le_iff.mpr (hprogram _ _ _ hrun)

end SimpleLang
