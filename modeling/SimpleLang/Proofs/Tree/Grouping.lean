import SimpleLang.Proofs.Lowering
import SimpleLang.Proofs.Parser.StatementEnds
import SimpleLang.Proofs.Tree.Placed

/-!
# How operators and conditionals group

The tokens of an expression can be put together to a tree in many ways, and so can conditionals
with fewer `else` than there are `if`. The parser has one way: tighter operators come first, equal
ones from left to right, and an `else` goes to the nearest `if`.

* `Node.operation?`, `Node.negates`: the operator between two operands, and the sign before one.
* `Node.Grouped`: what the parts of a node can be.
* `Node.spelled`: the tree with the words of tokens at its leaves. Offsets into a source of 4 GiB or
  more wrap around, so the leaves of its tree can show other stretches than their tokens.
* `Groups i ns ms o`: with the words of the tokens that `i` has and `o` has not, the nodes `ns`
  become `ms`, in which every node is grouped.
* `groupedBy_of_reads`: what a rule reads is grouped. The induction is on the reading; what carries
  it are the operators that can still follow an operand (`TightChain`) and whether an `else` can.

Which operator is tighter is said by `Operation.precedence`. The parser has binding powers of its
own instead, and that they order operators in the same way is `Routine.bindingPower_eq`.
-/

namespace SimpleLang

namespace Node

/-! ## Operators -/

/-- The operation of a node whose two operands have an operator between them. -/
def operation? (n : Node) : Option Operation :=
  match n.kind, n.children with
  | .expression, [_, sign, _] =>
    if sign.kind = .token .operator then Operation.ofSpelling? sign.text else none
  | _, _ => none

/-- Whether the node is an operand with the sign of a negation before it. -/
def negates (n : Node) : Bool :=
  match n.kind, n.children with
  | .expression, [sign, _] => sign.isToken "!"
  | _, _ => false

/-- The shapes that an expression can have. -/
inductive Shaped (n : Node) : Prop where
  | binary {op : Operation} (h : n.operation? = some op)
  | negation (h : n.negates)
  | call {callee opening arguments closing : Node}
      (h : n.children = [callee, opening, arguments, closing]) (hcallee : callee.kind = .expression)
      (harguments : arguments.kind = .arguments)
  | group {opening inner closing : Node} (h : n.children = [opening, inner, closing])
      (hopening : opening.isToken "(") (hinner : inner.kind = .expression)
      (hclosing : closing.isToken ")")
  | primary {inner : Node} (h : n.children = [inner]) (hinner : inner.kind = .primary)

/-- What the parts of a node can be. -/
structure Grouped (n : Node) : Prop where
  expression : n.kind = .expression → n.Shaped
  /-- The operator of a left operand binds at least as tightly. -/
  left {op op' : Operation} {l sign r : Node} : n.operation? = some op →
    n.children = [l, sign, r] → l.operation? = some op' → op.precedence ≤ op'.precedence
  /-- The operator of a right operand binds more tightly. -/
  right {op op' : Operation} {l sign r : Node} : n.operation? = some op →
    n.children = [l, sign, r] → r.operation? = some op' → op.precedence < op'.precedence
  /-- What is negated is not joined by an operator. -/
  negation {sign inner : Node} : n.negates → n.children = [sign, inner] → inner.operation? = none
  /-- What is called is neither joined by an operator nor negated. -/
  call {callee opening arguments closing : Node} : n.kind = .expression →
    n.children = [callee, opening, arguments, closing] →
    callee.operation? = none ∧ callee.negates = false
  /-- A conditional has its head alone, or an `else` behind it. -/
  conditional : n.kind = .conditional → n.children.length = 5 ∨ n.children.length = 7
  /-- What stands before an `else` does not end with a conditional that could take it. -/
  otherwise {word opening test closing yes elseWord no : Node} : n.kind = .conditional →
    n.children = [word, opening, test, closing, yes, elseWord, no] → ¬ yes.Open

/-- Operators join nodes of the kind `.expression` only. -/
theorem operation?_of_kind {n : Node} (h : n.kind ≠ .expression) : n.operation? = none := by
  unfold operation?
  split
  · next hkind _ => exact absurd hkind h
  · rfl

/-- Two operands and an operator are three children. -/
theorem operation?_of_length {n : Node} (h : n.children.length ≠ 3) : n.operation? = none := by
  unfold operation?
  split
  · next hchildren => simp [hchildren] at h
  · rfl

/-- Only an `.expression` is negated. -/
theorem negates_of_kind {n : Node} (h : n.kind ≠ .expression) : n.negates = false := by
  unfold negates
  split
  · next hkind _ => exact absurd hkind h
  · rfl

/-- A sign and an operand are two children. -/
theorem negates_of_length {n : Node} (h : n.children.length ≠ 2) : n.negates = false := by
  unfold negates
  split
  · next hchildren => simp [hchildren] at h
  · rfl

/-- An operator leaf between two nodes. -/
theorem operation?_eq {n l sign r : Node} {op : Operation} (hkind : n.kind = .expression)
    (hchildren : n.children = [l, sign, r]) (hsign : sign.kind = .token .operator)
    (hop : Operation.ofSpelling? sign.text = some op) : n.operation? = some op := by
  unfold operation?
  rw [hkind, hchildren]
  simp only [hsign, if_true, hop]

/-- In parentheses the middle child is an `.expression` and no operator leaf. -/
theorem operation?_of_inner {n l inner r : Node} (hchildren : n.children = [l, inner, r])
    (hinner : inner.kind = .expression) : n.operation? = none := by
  unfold operation?
  rw [hchildren]
  split
  · next heq =>
    obtain ⟨-, rfl, -⟩ : _ ∧ _ ∧ _ := by simpa using heq
    simp [hinner]
  · rfl

namespace Grouped

variable {n : Node}

/-- `Grouped` says something of expressions and conditionals only. -/
theorem of_kind (hexpression : n.kind ≠ .expression) (hconditional : n.kind ≠ .conditional) :
    n.Grouped := by
  have hop := operation?_of_kind hexpression
  have hnegates := negates_of_kind hexpression
  constructor <;> simp_all

/-- A primary is one child, so none of the conditions on `operation?`, `negates` and calls
applies. -/
theorem primary {inner : Node} (hkind : n.kind = .expression) (hchildren : n.children = [inner])
    (hinner : inner.kind = .primary) : n.Grouped := by
  have hop : n.operation? = none := operation?_of_length (by simp [hchildren])
  have hnegates : n.negates = false := negates_of_length (by simp [hchildren])
  have hshape : n.Shaped := .primary hchildren hinner
  constructor <;> simp_all

/-- Parentheses hide the operator inside: `operation?` of the group is `none`. -/
theorem group {opening inner closing : Node} (hkind : n.kind = .expression)
    (hchildren : n.children = [opening, inner, closing]) (hopening : opening.isToken "(")
    (hinner : inner.kind = .expression) (hclosing : closing.isToken ")") : n.Grouped := by
  have hop : n.operation? = none := operation?_of_inner hchildren hinner
  have hnegates : n.negates = false := negates_of_length (by simp [hchildren])
  have hshape : n.Shaped := .group hchildren hopening hinner hclosing
  constructor <;> simp_all

/-- What is left to the caller is how tightly the operands bind, which `Operation.precedence`
says. -/
theorem joined {op : Operation} {l sign r : Node} (hop : n.operation? = some op)
    (hkind : n.kind = .expression) (hchildren : n.children = [l, sign, r])
    (hleft : ∀ op', l.operation? = some op' → op.precedence ≤ op'.precedence)
    (hright : ∀ op', r.operation? = some op' → op.precedence < op'.precedence) : n.Grouped := by
  have hnegates : n.negates = false := negates_of_length (by simp [hchildren])
  have hshape : n.Shaped := .binary hop
  constructor <;> intros <;> simp_all

/-- What is negated has no operator, but `negates` may be true of it. -/
theorem negated {sign inner : Node} (hnegates : n.negates) (hkind : n.kind = .expression)
    (hchildren : n.children = [sign, inner]) (hinner : inner.operation? = none) : n.Grouped := by
  have hop : n.operation? = none := operation?_of_length (by simp [hchildren])
  have hshape : n.Shaped := .negation hnegates
  constructor <;> simp_all

/-- A call is a callee and three more children, so `operation?` and `negates` say nothing of it. -/
theorem called {callee opening arguments closing : Node} (hkind : n.kind = .expression)
    (hchildren : n.children = [callee, opening, arguments, closing])
    (hcallee : callee.kind = .expression) (harguments : arguments.kind = .arguments)
    (hop : callee.operation? = none) (hnegates : callee.negates = false) : n.Grouped := by
  have hop' : n.operation? = none := operation?_of_length (by simp [hchildren])
  have hnegates' : n.negates = false := negates_of_length (by simp [hchildren])
  have hshape : n.Shaped := .call hchildren hcallee harguments
  constructor <;> intros <;> simp_all

/-- Without an `else` there is nothing to be taken. -/
theorem decided {word opening test closing yes : Node} (hkind : n.kind = .conditional)
    (hchildren : n.children = [word, opening, test, closing, yes]) : n.Grouped := by
  have hop : n.operation? = none := operation?_of_kind (by simp [hkind])
  have hnegates : n.negates = false := negates_of_kind (by simp [hkind])
  constructor <;> simp_all

/-- By `hyes` the conditional takes an `else` that nothing inside could take. -/
theorem decidedElse {word opening test closing yes elseWord no : Node}
    (hkind : n.kind = .conditional)
    (hchildren : n.children = [word, opening, test, closing, yes, elseWord, no])
    (hyes : ¬ yes.Open) : n.Grouped := by
  have hop : n.operation? = none := operation?_of_kind (by simp [hkind])
  have hnegates : n.negates = false := negates_of_kind (by simp [hkind])
  constructor <;> intros <;> simp_all

end Grouped

/-! ## Words at the leaves -/

mutual
/-- The tree with the words of tokens at its leaves, from left to right, and the tokens that are
left over. -/
def spelled : Node → List Token → Node × List Token
  | ⟨kind, text, span, arrow, children⟩, ts =>
    if kind.isToken then
      (⟨kind, (ts.head?.map (·.lexeme.spelling)).getD text, span, arrow, children⟩, ts.tail)
    else
      (⟨kind, text, span, arrow, (spelledAll children ts).1⟩, (spelledAll children ts).2)
def spelledAll : List Node → List Token → List Node × List Token
  | [], ts => ([], ts)
  | n :: ns, ts =>
    ((n.spelled ts).1 :: (spelledAll ns (n.spelled ts).2).1, (spelledAll ns (n.spelled ts).2).2)
end

/-- A leaf takes the spelling of the first token. -/
theorem spelled_leaf {n : Node} (hkind : n.kind.isToken) (t : Token) (ts : List Token) :
    n.spelled (t :: ts) = ({ n with text := t.lexeme.spelling }, ts) := by
  cases n
  exact if_pos hkind

/-- The tokens go on to the nodes below. -/
theorem spelled_inner {n : Node} (hkind : n.kind.isToken = false) (ts : List Token) :
    n.spelled ts
      = ({ n with children := (spelledAll n.children ts).1 }, (spelledAll n.children ts).2) := by
  cases n
  exact if_neg (by simpa using hkind)

/-- The second list goes on with the tokens that `spelledAll` of the first one leaves. -/
theorem spelledAll_append (ns ms : List Node) (ts : List Token) :
    spelledAll (ns ++ ms) ts = ((spelledAll ns ts).1 ++ (spelledAll ms (spelledAll ns ts).2).1,
      (spelledAll ms (spelledAll ns ts).2).2) := by
  induction ns generalizing ts with
  | nil => rfl
  | cons n ns ih => rw [List.cons_append, spelledAll, spelledAll, ih, List.cons_append]

/-- The leaf of a token with the word of the token. -/
def word (source : String) (t : Token) : Node :=
  { ofToken source t with text := t.lexeme.spelling }

/-- `word` is the leaf with its own spelling, so `isToken` finds it by that. -/
theorem isToken_word {source : String} {t : Token} {l : Lexeme} (h : t.lexeme = l) :
    (word source t).isToken l.spelling := by
  subst h
  exact Bool.and_eq_true_iff.mpr ⟨rfl, beq_self_eq_true _⟩

end Node

open Node

/-- The nodes become others with the words of the tokens that the first list has in front of the
second, and these are grouped. If the leaves of the tokens show their words, nothing changes. -/
structure Groups (source : String) (i : List Token) (ns ms : List Node) (o : List Token) :
    Prop where
  spelled : spelledAll ns i = (ms, o)
  grouped : ∀ m ∈ ms.flatMap Node.nodes, m.Grouped
  suffix : o <:+ i
  same : (∀ t ∈ i, t.span.excerpt source = t.lexeme.spelling) → ms = ns

namespace Groups

variable {source : String} {i m o : List Token} {ns ms ns' ms' : List Node}

theorem nil (i : List Token) : Groups source i [] [] i :=
  ⟨rfl, fun _ h => absurd h List.not_mem_nil, List.suffix_rfl, fun _ => rfl⟩

/-- What `ns` leaves of the tokens goes to `ns'`. -/
theorem append (h : Groups source i ns ms m) (h' : Groups source m ns' ms' o) :
    Groups source i (ns ++ ns') (ms ++ ms') o := by
  refine ⟨?_, ?_, h'.suffix.trans h.suffix, fun hwords => ?_⟩
  · rw [spelledAll_append, h.spelled, h'.spelled]
  · rw [List.flatMap_append]
    exact List.forall_mem_append.mpr ⟨h.grouped, h'.grouped⟩
  · rw [h.same hwords, h'.same fun t ht => hwords t (h.suffix.subset ht)]

/-- The leaf of one token becomes its `word`. If the source has the spelling at that place, it is
the leaf itself. -/
theorem token (t : Token) (ts : List Token) :
    Groups source (t :: ts) [.ofToken source t] [word source t] ts := by
  refine ⟨?_, ?_, List.suffix_cons t ts, fun hwords => ?_⟩
  · rw [spelledAll, spelled_leaf rfl]
    rfl
  · have hself : (word source t).Grouped := .of_kind (by simp [word]) (by simp [word])
    rw [List.flatMap_singleton, nodes_eq]
    exact List.forall_mem_cons.mpr ⟨hself, fun _ hd => absurd hd List.not_mem_nil⟩
  · rw [word, ← hwords t List.mem_cons_self]
    rfl

/-- A leaf in front of what has the words of the tokens behind it. -/
theorem cons {t : Token} {ts : List Token} (h : Groups source ts ns ms o) :
    Groups source (t :: ts) (.ofToken source t :: ns) (word source t :: ms) o :=
  (token t ts).append h

/-- A leaf behind what has the words of the tokens in front of it. -/
theorem snoc {t : Token} {ts : List Token} (h : Groups source i ns ms (t :: ts)) :
    Groups source i (ns ++ [.ofToken source t]) (ms ++ [word source t]) ts :=
  h.append (token t ts)

/-- The node above nodes that are grouped, if it is `Grouped` itself. -/
theorem inner {n : Node} (h : Groups source i n.children ms o) (hkind : n.kind.isToken = false)
    (hself : Grouped { n with children := ms }) :
    Groups source i [n] [{ n with children := ms }] o := by
  refine ⟨?_, ?_, h.suffix, fun hwords => ?_⟩
  · rw [spelledAll, spelledAll, spelled_inner hkind, h.spelled]
  · rw [List.flatMap_singleton, nodes_eq]
    exact List.forall_mem_cons.mpr ⟨hself, h.grouped⟩
  · rw [h.same hwords]
    cases n
    rfl

/-- `Groups.inner` for a kind of which `Grouped` asks nothing. -/
theorem above {offset : Nat} (kind : NodeKind) (h : Groups source i ns ms o)
    (hkind : kind.isToken = false := by rfl) (hexpression : kind ≠ .expression := by decide)
    (hconditional : kind ≠ .conditional := by decide) :
    Groups source i [.above source kind ns offset]
      [{ Node.above source kind ns offset with children := ms }] o :=
  h.inner hkind (.of_kind hexpression hconditional)

end Groups

/-- Names and commas are leaves. -/
theorem groups_of_readsNames {source : String} {i o : List Token} {ns : List Node}
    (h : ReadsNames source i ns o) : ∃ ms, Groups source i ns ms o := by
  induction h with
  | last _ _ => exact ⟨_, .token _ _⟩
  | more _ _ _ ih =>
    obtain ⟨ms, ih⟩ := ih
    exact ⟨_, ih.cons.cons⟩

/-- The names of `groups_of_readsNames` below one node, or nothing. -/
theorem groups_of_readsParameters {source : String} {i o : List Token} {ns : List Node}
    (h : ReadsParameters source i ns o) : ∃ ms, Groups source i ns ms o := by
  cases h with
  | none _ => exact ⟨_, .nil _⟩
  | some hnames =>
    obtain ⟨ms, hms⟩ := groups_of_readsNames hnames
    exact ⟨_, hms.above .parameters⟩

/-! ## Readings -/

/-- The word of a binary operator is its spelling. -/
theorem Lexeme.operator_of_binary? {l : Lexeme} {op : Operation} (h : l.binary? = some op) :
    TokenKind.ofLexeme l = .operator ∧ Operation.ofSpelling? l.spelling = some op := by
  cases l with
  | symbol s => cases s <;> cases h <;> decide
  | _ => cases h

/-- The first of the tokens ends a chain of operators that bind at least as tightly as `minimum`. -/
def EndsChain (minimum : Nat) (ts : List Token) : Prop :=
  ∀ t ∈ ts.head?, t.lexeme.endsOperations minimum

/-- The first of the tokens is not an `else`. -/
def NoElse (ts : List Token) : Prop := ∀ t ∈ ts.head?, t.lexeme ≠ .keyword .elseWord

/-- An expression whose operator binds at least as tightly as `minimum`, up to one that does not. -/
structure TightChain (minimum : Nat) (n : Node) (o : List Token) : Prop where
  kind : n.kind = .expression
  tight : ∀ op, n.operation? = some op → minimum ≤ op.precedence
  stops : EndsChain minimum o

/-- An expression that can be called. -/
structure Node.IsCallee (n : Node) : Prop where
  kind : n.kind = .expression
  operation : n.operation? = none
  negates : n.negates = false

/-- The nodes of a reading are grouped. Where the rule goes on from nodes that are already there, so
does the grouping. -/
def GroupedBy (source : String) : Rule → List Token → List Node → List Token → Prop
  | .statements, i, ns, o | .expressions, i, ns, o | .expressionsUnless _, i, ns, o =>
    ∃ ms, Groups source i ns ms o
  | .block, i, ns, o => ∃ m, Groups source i ns [m] o ∧ m.kind = .block
  | .statement, i, ns, o => ∃ m, Groups source i ns [m] o ∧ (m.Open → NoElse o)
  | .conditionAndBody, i, ns, o => ∃ word opening test closing body,
    Groups source i ns [word, opening, test, closing, body] o ∧ (body.Open → NoElse o)
  | .expression minimum, i, ns, o => ∃ m, Groups source i ns [m] o ∧ TightChain minimum m o
  | .operations minimum left, i, ns, o => ∀ before l, Groups source before [left] [l] i →
    l.kind = .expression →
    (∀ op, l.operation? = some op → minimum ≤ op.precedence ∧ EndsChain (op.precedence + 1) i) →
    ∃ m, Groups source before ns [m] o ∧ TightChain minimum m o
  | .operand, i, ns, o =>
    ∃ m, Groups source i ns [m] o ∧ m.kind = .expression ∧ m.operation? = none
  | .primary, i, ns, o => ∃ m, Groups source i ns [m] o ∧ m.IsCallee
  | .calls callee, i, ns, o => ∀ before c, Groups source before [callee] [c] i → c.IsCallee →
    ∃ m, Groups source before ns [m] o ∧ m.IsCallee
  | .lambda head, i, ns, o => ∀ before hs, Groups source before head hs i →
    ∃ m, Groups source before ns [m] o ∧ m.IsCallee

/-! ### Statements -/

/-- A statement is open only if its last child is, and a node of another kind is not `Open`. -/
theorem Groups.closed {source : String} {i o : List Token} {ns ms : List Node} {m : Node}
    (h : Groups source i ns ms o) (hlast : ms.getLast? = some m)
    (hkind : ¬ (m.kind = .statement ∨ m.kind = .conditional ∨ m.kind = .loop)) :
    GroupedBy source .statement i [.above source .statement ns] o :=
  ⟨_, h.above .statement, fun hopen => absurd (hopen.getLast? hlast (by simp)).kind hkind⟩

/-- `Groups.closed` for a construct and the semicolon behind it. -/
theorem Groups.terminated {source : String} {i o : List Token} {ns ms : List Node} {t : Token}
    (h : Groups source i ns ms (t :: o)) :
    GroupedBy source .statement i [.above source .statement (ns ++ [.ofToken source t])] o :=
  h.snoc.closed List.getLast?_concat (by simp [word])

/-- `Groups.closed` for a function. -/
theorem Groups.functionOf {source : String} {i o : List Token} {ns ms : List Node} {arrow : Bool}
    (h : Groups source i ns ms o) :
    GroupedBy source .statement i
      [.above source .statement [.functionOf source arrow ns]] o := by
  have hfunction : Groups source i [.functionOf source arrow ns]
      [{ Node.functionOf source arrow ns with children := ms }] o :=
    h.inner (n := .functionOf source arrow ns) rfl (.of_kind (by simp) (by simp))
  exact hfunction.closed rfl (by simp)

/-- The two nodes above a primary have one child each, so neither an operator nor a sign. -/
theorem Groups.primaryOf {source : String} {i o : List Token} {n m : Node}
    (h : Groups source i [n] [m] o) : GroupedBy source .primary i [.primaryOf source n] o := by
  refine ⟨_, (h.above .primary).inner (n := .primaryOf source n) rfl (.primary rfl rfl rfl), ?_⟩
  exact ⟨rfl, operation?_of_length (by simp), negates_of_length (by simp)⟩

section Conditionals

variable {source : String} {i us rest : List Token} {parts : List Node} {t : Token}

/-- A conditional without `else` is open, but no `else` follows it here. -/
theorem groupedBy_conditional (h : GroupedBy source .conditionAndBody i parts (t :: rest))
    (hend : t.lexeme ≠ .keyword .elseWord) :
    GroupedBy source .statement i [.above source .statement [.above source .conditional parts]]
      (t :: rest) := by
  obtain ⟨word, opening, test, closing, body, hparts, _⟩ := h
  have hself := hparts.inner (n := .above source .conditional parts) rfl (.decided rfl rfl)
  refine ⟨_, hself.above .statement, fun _ u hu => ?_⟩
  cases hu
  exact hend

/-- An `else` follows only what cannot take it, and what follows the `else` may be open. -/
theorem groupedBy_conditionalElse {no : Node}
    (h : GroupedBy source .conditionAndBody i parts (t :: us))
    (helse : t.lexeme = .keyword .elseWord) (hno : GroupedBy source .statement us [no] rest) :
    GroupedBy source .statement i
      [.above source .statement
        [.above source .conditional (parts ++ [.ofToken source t, no])]] rest := by
  obtain ⟨word, opening, test, closing, body, hparts, hbody⟩ := h
  obtain ⟨m, hm, hrest⟩ := hno
  -- an open body would have taken this `else`
  have hyes : ¬ body.Open := fun hopen => hbody hopen t rfl helse
  have hself := (hparts.append hm.cons).inner
    (n := .above source .conditional (parts ++ [.ofToken source t, no])) rfl
    (.decidedElse rfl rfl hyes)
  refine ⟨_, hself.above .statement, fun hopen => hrest ?_⟩
  have hconditional := hopen.getLast? rfl (by simp)
  exact hconditional.getLast? rfl (by simp)

/-- A loop is `Open` if its body is. -/
theorem groupedBy_loop (h : GroupedBy source .conditionAndBody i parts rest) :
    GroupedBy source .statement i [.above source .statement [.above source .loop parts]] rest := by
  obtain ⟨word, opening, test, closing, body, hparts, hbody⟩ := h
  refine ⟨_, (hparts.above .loop).above .statement, fun hopen => hbody ?_⟩
  have hloop := hopen.getLast? rfl (by simp)
  exact hloop.getLast? rfl (by simp)

end Conditionals

/-! ### Expressions -/

section Expressions

variable {source : String} {i ts us mid rest : List Token} {n : Node} {t : Token}

/-- An operator and its right operand behind `left`. The chain before the operator ended with one
that binds at least as tightly, and `.expression (op.precedence + 1)` has only tighter ones. -/
theorem groupedBy_operation {minimum : Nat} {op : Operation} {left right : Node}
    (hop : t.lexeme.binary? = some op) (hmin : minimum ≤ op.precedence)
    (hright : GroupedBy source (.expression (op.precedence + 1)) ts [right] mid)
    (hmore : GroupedBy source
      (.operations minimum (.above source .expression [left, .ofToken source t, right])) mid [n]
      rest) :
    GroupedBy source (.operations minimum left) (t :: ts) [n] rest := by
  intro before l hl _ htight
  obtain ⟨r, hr, hchain⟩ := hright
  obtain ⟨hoperator, hspelling⟩ := Lexeme.operator_of_binary? hop
  have hjoined : operation? { Node.above source .expression [left, .ofToken source t, right] with
      children := [l, word source t, r] } = some op :=
    operation?_eq rfl rfl (congrArg NodeKind.token hoperator) hspelling
  refine hmore before _ ((hl.append hr.cons).inner
    (n := .above source .expression [left, .ofToken source t, right]) rfl
    (.joined hjoined rfl rfl (fun op' hop' => ?_) fun op' hop' => hchain.tight op' hop')) rfl
    fun op' hop' => ?_
  · -- a tighter operator here would have gone to the right operand of the one on the left
    exact Nat.le_of_lt_succ ((htight op' hop').2 t rfl op hop)
  · -- what is joined now is the left operand of the operator that follows
    obtain rfl := Option.some.inj (hjoined.symm.trans hop')
    exact ⟨hmin, hchain.stops⟩

/-- The sign takes an `.operand`, which has no operator. -/
theorem groupedBy_negation (hsign : t.lexeme = .symbol .bang)
    (hinner : GroupedBy source .operand ts [n] rest) :
    GroupedBy source .operand (t :: ts) [.above source .expression [.ofToken source t, n]]
      rest := by
  obtain ⟨m, hm, _, hop⟩ := hinner
  have hnegates : negates { Node.above source .expression [.ofToken source t, n] with
      children := [word source t, m] } := isToken_word hsign
  exact ⟨_, hm.cons.inner (n := .above source .expression [.ofToken source t, n]) rfl
    (.negated hnegates rfl rfl hop), rfl, operation?_of_length (by simp)⟩

/-- A call can be called again, since it has neither an operator nor a sign itself. -/
theorem groupedBy_call {callee : Node} {u : Token} {values : List Node}
    (hvalues : GroupedBy source (.expressionsUnless .rightParen) ts values (u :: us))
    (hmore : GroupedBy source (.calls (.callOf source callee t values u)) us [n] rest) :
    GroupedBy source (.calls callee) (t :: ts) [n] rest := by
  intro before c hc hcallee
  obtain ⟨vs, hvs⟩ := hvalues
  have harguments : Groups source ts [.above source .arguments values u.span.start]
      [{ Node.above source .arguments values u.span.start with children := vs }] (u :: us) :=
    hvs.above .arguments
  exact hmore before _ ((hc.append harguments.snoc.cons).inner
    (n := .callOf source callee t values u) rfl
    (.called rfl rfl hcallee.kind rfl hcallee.operation hcallee.negates))
    ⟨rfl, operation?_of_length (by simp), negates_of_length (by simp)⟩

/-- In parentheses any expression is a `.primary`, which can be called. -/
theorem groupedBy_group {u : Token} (hopen : t.lexeme = .symbol .leftParen)
    (hinner : GroupedBy source (.expression 0) ts [n] (u :: rest))
    (hclose : u.lexeme = .symbol .rightParen) :
    GroupedBy source .primary (t :: ts)
      [.above source .expression [.ofToken source t, n, .ofToken source u]] rest := by
  obtain ⟨m, hm, hchain⟩ := hinner
  exact ⟨_, hm.cons.snoc.inner
    (n := .above source .expression [.ofToken source t, n, .ofToken source u]) rfl
    (.group rfl rfl (isToken_word hopen) hchain.kind (isToken_word hclose)),
    rfl, operation?_of_inner rfl hchain.kind, negates_of_length (by simp)⟩

end Expressions

/-- By induction on the reading. What `GroupedBy` says of a rule is what the rules that use it need
of their parts. -/
theorem groupedBy_of_reads {source : String} {rule : Rule} {i o : List Token} {ns : List Node}
    (h : Reads source rule i ns o) : GroupedBy source rule i ns o := by
  induction h with
  | stop _ | noExpressions _ => exact ⟨_, .nil _⟩
  | next _ _ ih ih' =>
    obtain ⟨m, hm, _⟩ := ih
    obtain ⟨ms, hms⟩ := ih'
    exact ⟨_, hm.append hms⟩
  | block _ _ _ ih =>
    obtain ⟨ms, hms⟩ := ih
    exact ⟨_, hms.cons.snoc.above .block, rfl⟩
  -- statements
  | declare _ _ _ => exact ((Groups.token _ _).cons.above .declaration).terminated
  | declareValue _ _ _ _ _ ih =>
    obtain ⟨m, hm, _⟩ := ih
    exact (hm.cons.cons.cons.above .declaration).terminated
  | assign _ _ _ _ ih =>
    obtain ⟨m, hm, _⟩ := ih
    exact (hm.cons.cons.above .assignment).terminated
  | functionValue _ _ _ hparams _ _ _ _ ih =>
    obtain ⟨ps, hps⟩ := groups_of_readsParameters hparams
    obtain ⟨m, hm, _⟩ := ih
    exact (hps.cons.cons.cons.append hm.snoc.cons.cons).functionOf
  | functionBlock _ _ _ hparams _ _ ih =>
    obtain ⟨ps, hps⟩ := groups_of_readsParameters hparams
    obtain ⟨m, hm, _⟩ := ih
    exact (hps.cons.cons.cons.append hm.cons).functionOf
  | returnNothing _ _ => exact ((Groups.token _ _).above .returning).terminated
  | returnValue _ _ _ ih =>
    obtain ⟨m, hm, _⟩ := ih
    exact (hm.cons.above .returning).terminated
  | conditionAndBody _ _ _ _ ih ih' =>
    obtain ⟨c, hc, _⟩ := ih
    obtain ⟨b, hb, hopen⟩ := ih'
    exact ⟨_, _, _, _, _, hc.cons.cons.append hb.cons, hopen⟩
  | conditional _ _ hend ih => exact groupedBy_conditional ih hend
  | conditionalElse _ _ helse _ ih ih' => exact groupedBy_conditionalElse ih helse ih'
  | loop _ _ ih => exact groupedBy_loop ih
  | blockStatement _ ih =>
    obtain ⟨m, hm, hkind⟩ := ih
    exact hm.closed rfl (by simp [hkind])
  | expressionStatement _ _ ih =>
    obtain ⟨m, hm, _⟩ := ih
    exact hm.terminated
  -- operators and calls go on from what stands before them
  | expression _ _ ih ih' =>
    obtain ⟨l, hl, hkind, hop⟩ := ih
    refine ih' _ l hl hkind fun op hop' => ?_
    rw [hop] at hop'
    cases hop'
  | operationsEnd hend =>
    intro before l hl hkind htight
    refine ⟨l, hl, hkind, fun op hop => (htight op hop).1, fun u hu => ?_⟩
    cases hu
    exact hend
  | operation hop hmin _ _ ih ih' => exact groupedBy_operation hop hmin ih ih'
  | negation hsign _ ih => exact groupedBy_negation hsign ih
  | operand _ _ ih ih' =>
    obtain ⟨c, hc, hcallee⟩ := ih
    obtain ⟨m, hm, hm'⟩ := ih' _ c hc hcallee
    exact ⟨m, hm, hm'.kind, hm'.operation⟩
  | callsEnd _ => exact fun _ c hc hcallee => ⟨c, hc, hcallee⟩
  | call _ _ _ _ ih ih' => exact groupedBy_call ih ih'
  | someExpressions _ ih => exact ih
  | lastExpression _ _ ih =>
    obtain ⟨m, hm, _⟩ := ih
    exact ⟨_, hm⟩
  | moreExpressions _ _ _ ih ih' =>
    obtain ⟨m, hm, _⟩ := ih
    obtain ⟨ms, hms⟩ := ih'
    exact ⟨_, hm.append hms.cons⟩
  -- primaries
  | literal _ | name _ _ => exact (Groups.token _ _).primaryOf
  | array _ _ _ ih =>
    obtain ⟨ms, hms⟩ := ih
    exact (hms.cons.snoc.above .array).primaryOf
  | group hopen _ _ hclose ih => exact groupedBy_group hopen ih hclose
  | nameLambda _ _ _ ih => exact ih _ _ ((Groups.token _ _).above .parameters)
  | parenthesizedLambda _ _ hparams _ _ ih =>
    obtain ⟨ps, hps⟩ := groups_of_readsParameters hparams
    exact ih _ _ hps.cons.snoc
  | lambdaBlock _ _ ih | lambdaValue _ _ ih =>
    intro before hs hhead
    obtain ⟨m, hm, _⟩ := ih
    exact ((hhead.append hm.cons).above .lambda).primaryOf

/-! ## The tree of a source -/

/-- In the tree of a source, with the words of its tokens at the leaves, every node is grouped: of
two operators the tighter one is applied first, and of equal ones the left one, negations and calls
take no operators without parentheses, and an `else` belongs to the nearest `if`. The tokens are
used up to the end of the source. If the source is of less than 4 GiB, then the leaves have these
words already. -/
theorem Node.parse_grouped {source : String} {limit : Nat} {tree : Node}
    (h : parse source limit = .ok tree) :
    (∀ n ∈ (tree.spelled (scan source).tokens).1.nodes, n.Grouped) ∧
    (∃ t, (tree.spelled (scan source).tokens).2 = [t] ∧ t.lexeme = .eof) ∧
    (source.utf8ByteSize < 2 ^ 32 → (tree.spelled (scan source).tokens).1 = tree) := by
  obtain ⟨_, ns, t, rfl, ht, hreads⟩ := reads_of_parse h
  obtain ⟨ms, hms⟩ : ∃ ms, Groups source (scan source).tokens ns ms [t] :=
    groupedBy_of_reads hreads
  have hroot : Grouped { root source ns with children := ms } :=
    .of_kind (fun hkind => by cases hkind) fun hkind => by cases hkind
  -- spelling the tokens out in the tree gives `ms` below the root
  have hspelled : (root source ns).spelled (scan source).tokens
      = ({ root source ns with children := ms }, [t]) := by
    rw [spelled_inner rfl, show spelledAll (root source ns).children _ = _ from hms.spelled]
  rw [hspelled]
  refine ⟨?_, ⟨t, rfl, ht⟩, fun hsize => ?_⟩
  · rw [nodes_eq]
    exact List.forall_mem_cons.mpr ⟨hroot, hms.grouped⟩
  · rw [hms.same fun u hu => excerpt_of_mem_scan hsize hu]
    rfl

/-- A product between two differences, and an `else` behind two conditionals and a loop. -/
theorem Node.parse_grouped_sample :
    ∃ tree, parse "x = 1 - 2 * 3 - !f(4); if (a) while (b) if (c) d; else e;" 16 = .ok tree ∧
      tree.nodes.filterMap operation? = [.sub, .sub, .mul] ∧
      (tree.nodes.filter (·.kind == .conditional)).map (·.children.length) = [5, 7] ∧
      ∀ n ∈ tree.nodes, n.Grouped := by
  have hread : (parse "x = 1 - 2 * 3 - !f(4); if (a) while (b) if (c) d; else e;" 16).toOption.map
      (fun tree => (tree.nodes.filterMap operation?,
        (tree.nodes.filter (·.kind == .conditional)).map (·.children.length)))
      = some ([.sub, .sub, .mul], [5, 7]) := by decide +kernel
  cases h : parse "x = 1 - 2 * 3 - !f(4); if (a) while (b) if (c) d; else e;" 16 with
  | error e =>
    rw [h] at hread
    cases hread
  | ok tree =>
    rw [h] at hread
    obtain ⟨hoperations, hconditionals⟩ := Prod.mk.inj (Option.some.inj hread)
    obtain ⟨hgrouped, _, hsame⟩ := parse_grouped h
    rw [hsame (by decide)] at hgrouped
    exact ⟨tree, rfl, hoperations, hconditionals, hgrouped⟩

end SimpleLang
