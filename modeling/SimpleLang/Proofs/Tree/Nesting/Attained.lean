import SimpleLang.Compile
import SimpleLang.Proofs.Parser.Respects
import SimpleLang.Proofs.Reading
import SimpleLang.Proofs.Rendering
import SimpleLang.Proofs.Tree.Nesting

/-!
# The deepest trees of a limit

For every limit there is a source whose tree is nested as deep as the bound allows. A group takes
all the levels below it and leaves them again; then as many calls as there are levels are put above
it, and then operators: `(f)()`, `((f)())()() + f` and so on.

* `tower n`: the lexemes of the expression that is built in this way on `n + 1` levels.
* `Parser.Yields p i P o`: on the lexemes `i` the parser has a result that satisfies `P`, without an
  error, and goes on with `o`. The chains are followed call by call and operator by operator
  (`Parser.yields_calls`, `Parser.yields_operations`), and a tower floor by floor
  (`Parser.yields_tower`).
* `spaced`: a text for some lexemes.
* `isGreatest_nesting`: the bound is attained for every limit.
-/

namespace SimpleLang

open SimpleLang.Symbol

/-! ## Towers -/

/-- Calls without arguments. -/
def emptyCalls : Nat → List Lexeme
  | 0 => []
  | n + 1 => .symbol leftParen :: .symbol rightParen :: emptyCalls n

/-- Operators with a name behind each of them. -/
def addedNames : Nat → List Lexeme
  | 0 => []
  | n + 1 => .symbol plus :: .ident "f" :: addedNames n

/-- The lexemes of an expression that takes `n + 1` levels and is nested as deep as can be. -/
def tower : Nat → List Lexeme
  | 0 => [.ident "f"]
  | n + 1 => .symbol leftParen ::
    (tower n ++ .symbol rightParen :: (emptyCalls (n + 1) ++ addedNames n))

/-- `tower` with something behind it, as the parser meets it. -/
theorem tower_succ_append (n : Nat) (i : List Lexeme) :
    tower (n + 1) ++ i = .symbol leftParen :: (tower n ++ .symbol rightParen ::
      (emptyCalls (n + 1) ++ (addedNames n ++ i))) := by
  simp only [tower, List.cons_append, List.append_assoc]

/-- `tower` has a first lexeme, so it can start a statement. -/
theorem exists_tower_eq_cons (n : Nat) : ∃ l i, tower n = l :: i ∧ l ≠ .eof := by
  cases n with
  | zero => exact ⟨_, _, rfl, by decide⟩
  | succ n => exact ⟨_, _, rfl, by decide⟩

namespace Parser

/-! ## Runs without errors -/

/-- On the lexemes `i` the parser has a result that satisfies `P`, without an error, and goes on
with `o`. -/
def Yields {α : Type} (p : Parser α) (i : List Lexeme) (P : α → Prop) (o : List Lexeme) : Prop :=
  ∀ s : State, s.stream.map Token.lexeme = i → ∃ a s', p s = .ok a s' ∧ P a ∧
    s'.stream.map Token.lexeme = o ∧ s'.errors = s.errors ∧
    s'.position + o.length = s.position + i.length

namespace Yields

variable {α β : Type} {p : Parser α} {f : α → Parser β} {P : α → Prop} {Q : β → Prop}
  {l l' : Lexeme} {i m o : List Lexeme}

/-- Returning takes no lexemes. -/
theorem pure {a : α} (h : P a) : Yields (Pure.pure a) i P i :=
  fun s hs => ⟨a, s, rfl, h, hs, rfl, rfl⟩

/-- `f` goes on with the lexemes that `p` leaves. -/
theorem bind (h : Yields p i P m) (hf : ∀ a, P a → Yields (f a) m Q o) :
    Yields (p >>= f) i Q o := by
  intro s hs
  obtain ⟨a, t, hp, ha, ht, herrors, hposition⟩ := h s hs
  obtain ⟨b, t', hfa, hb, ht', herrors', hposition'⟩ := hf a ha t ht
  refine ⟨b, t', ?_, hb, ht', herrors'.trans herrors, by omega⟩
  show EStateM.bind p f s = _
  rw [EStateM.bind, hp]
  exact hfa

/-- A weaker condition on the result. -/
theorem mono {P' : α → Prop} (h : Yields p i P o) (hP : ∀ a, P a → P' a) : Yields p i P' o := by
  intro s hs
  obtain ⟨a, s', hp, ha, hrest⟩ := h s hs
  exact ⟨a, s', hp, hP a ha, hrest⟩

/-- `get` takes no lexemes. -/
theorem get_bind {f : State → Parser β}
    (h : ∀ s : State, s.stream.map Token.lexeme = i → Yields (f s) i Q o) :
    Yields (get >>= f) i Q o := fun s hs => h s hs s hs

/-- The current lexeme is the first of those that are left. -/
theorem peek_bind {f : Lexeme → Parser β} (h : Yields (f l) (l :: i) Q o) :
    Yields (peek >>= f) (l :: i) Q o := by
  show Yields (get >>= fun s => f s.current.lexeme) (l :: i) Q o
  refine get_bind fun s hs => ?_
  rw [show s.current.lexeme = l from (List.cons.inj hs).1]
  exact h

/-- The one behind it is the first of `State.ahead`. -/
theorem peekSecond_bind {f : Lexeme → Parser β} (h : Yields (f l') (l :: l' :: i) Q o) :
    Yields (peekSecond >>= f) (l :: l' :: i) Q o := by
  show Yields (get >>= fun s => f (s.ahead.headD s.current).lexeme) (l :: l' :: i) Q o
  refine get_bind fun s hs => ?_
  obtain ⟨t, ts, hahead, ht, -⟩ := List.map_eq_cons_iff.mp (List.cons.inj hs).2
  rw [hahead, List.headD_cons, ht]
  exact h

end Yields

section Steps

variable (source : String) {l : Lexeme} {i : List Lexeme}

/-- A token is taken unless it is the last one, on which `State.advance` stays. -/
theorem yields_bump (hi : i ≠ []) : Yields (bump source) (l :: i) (·.nesting = 0) i := by
  intro s hs
  obtain ⟨-, hahead⟩ := List.cons.inj hs
  -- there is another token, so the cursor moves
  have hstream : s.advance.stream.map Token.lexeme = i := by
    cases hs' : s.ahead with
    | nil =>
      rw [hs'] at hahead
      exact absurd hahead.symm hi
    | cons t ts =>
      rw [← hahead, hs', State.advance, hs']
      rfl
  refine ⟨_, s.advance, rfl, rfl, hstream, s.errors_advance, ?_⟩
  have hposition := s.position_advance
  have hlength := congrArg List.length hstream
  have hlength' := congrArg List.length hs
  rw [List.length_map] at hlength hlength'
  rwa [hlength, hlength'] at hposition

/-- What is expected is there, so `expect` reports nothing. -/
theorem yields_expect (wanted : Symbol) (hi : i ≠ []) :
    Yields (expect source wanted) (.symbol wanted :: i) (Node.nestingList · = 0) i := by
  refine Yields.peek_bind ?_
  rw [if_pos rfl]
  refine (yields_bump source hi).bind fun n hn => .pure ?_
  rw [Node.nestingList, Node.nestingList, hn]
  rfl

/-- `node` takes no lexemes, and `Node.nesting_eq` says how deep its result is. -/
theorem yields_node (kind : NodeKind) (ns : List Node) :
    Yields (node source kind ns) i (·.nesting = Node.nestingList ns + kind.weight) i :=
  Yields.get_bind fun _ _ => .pure (Node.nesting_eq _)

end Steps

section Floors

variable (source : String) (limit : Nat)

/-- What is at hand with a number of levels left. -/
def levelsLeft (left : Nat) : Level := ⟨source, enter source limit left⟩

/-- The lexemes that end an expression here. -/
def Closes (l : Lexeme) : Prop := l = .symbol rightParen ∨ l = .symbol semicolon

/-- A name between operators is one level deep. -/
theorem yields_name (left minimum : Nat) {l : Lexeme} {i : List Lexeme}
    (harrow : l ≠ .symbol arrow) (hparen : l ≠ .symbol leftParen)
    (hend : l.endsOperations minimum) :
    Yields (enter source limit (left + 1) (.expression minimum)) (.ident "f" :: l :: i)
      (·.nesting = 1) (l :: i) := by
  have hcalls (level : Level) (n : Node) (hn : n.nesting = 1) :
      Yields (calls level n) (l :: i) (·.nesting = 1) (l :: i) := by
    refine Yields.peek_bind ?_
    rw [if_neg hparen]
    exact .pure hn
  have hoperations (level : Level) (n : Node) (hn : n.nesting = 1) :
      Yields (operations level minimum n) (l :: i) (·.nesting = 1) (l :: i) := by
    refine Yields.peek_bind ?_
    split
    next op hop =>
      rw [if_neg (Nat.not_le.mpr (hend op hop))]
      exact .pure hn
    next => exact .pure hn
  -- the leaf is below two nodes, and the upper one nests
  have hprimary (level : Level) :
      Yields (primary level) (.ident "f" :: l :: i) (·.nesting = 1) (l :: i) := by
    refine Yields.peek_bind (Yields.peekSecond_bind ?_)
    rw [if_neg harrow]
    refine (yields_bump level.source (List.cons_ne_nil _ _)).bind fun leaf hleaf => ?_
    refine (yields_node level.source .primary [leaf]).bind fun inner hinner => ?_
    refine (yields_node level.source .expression [inner]).mono fun n hn => ?_
    rw [hn, Node.nestingList, Node.nestingList, hinner, Node.nestingList, Node.nestingList, hleaf]
    rfl
  refine Yields.bind ?_ fun n hn => hoperations _ n hn
  refine Yields.peek_bind ?_
  rw [if_neg (by decide)]
  exact (hprimary _).bind fun n hn => hcalls _ n hn

/-- By induction on `count`: every call puts a node above its callee, as long as there are levels
left. -/
theorem yields_calls {count left : Nat} (hle : count ≤ left) (callee : Node) {l : Lexeme}
    {i : List Lexeme} (hparen : l ≠ .symbol leftParen) :
    Yields (calls (levelsLeft source limit left) callee) (emptyCalls count ++ l :: i)
      (·.nesting = callee.nesting + count) (l :: i) := by
  induction count generalizing left callee with
  | zero =>
    refine Yields.peek_bind ?_
    rw [if_neg hparen]
    exact .pure rfl
  | succ count ih =>
    obtain ⟨left, rfl⟩ := Nat.exists_eq_add_of_le' (Nat.le_trans (Nat.succ_pos count) hle)
    refine Yields.peek_bind ?_
    rw [if_pos rfl]
    refine (yields_bump source (List.cons_ne_nil _ _)).bind fun opening hopening => ?_
    -- a closing parenthesis follows, so there are no arguments
    have hvalues (level : Level) (i : List Lexeme) :
        Yields (expressionsUnless level rightParen) (.symbol rightParen :: i) (· = [])
          (.symbol rightParen :: i) := by
      refine Yields.peek_bind ?_
      rw [if_pos rfl]
      exact .pure rfl
    refine (hvalues _ _).bind fun values hnone => ?_
    subst hnone
    refine (yields_node source .arguments []).bind fun arguments harguments => ?_
    refine (yields_expect source rightParen (by simp)).bind fun closing hclosing => ?_
    refine (yields_node source .expression _).bind fun result hresult => ?_
    refine (ih (Nat.le_of_succ_le_succ hle) result).mono fun n hn => ?_
    replace hresult : result.nesting = callee.nesting + 1 := by
      rw [hresult]
      simp only [Node.nestingList, hopening, harguments, hclosing, NodeKind.weight, NodeKind.nests]
      simp
    omega

/-- What follows a name in `addedNames` ends its operand. -/
theorem exists_cons_addedNames (count : Nat) {l : Lexeme} (hl : Closes l) (i : List Lexeme) :
    ∃ l' i', addedNames count ++ l :: i = l' :: i' ∧ l' ≠ .symbol arrow ∧
      l' ≠ .symbol leftParen ∧ l'.endsOperations (Operation.add.precedence + 1) := by
  cases count with
  | zero =>
    refine ⟨l, i, rfl, ?_⟩
    rcases hl with rfl | rfl <;> exact ⟨by decide, by decide, fun op hop => by cases hop⟩
  | succ count =>
    refine ⟨.symbol plus, _, rfl, by decide, by decide, fun op hop => ?_⟩
    obtain rfl : Operation.add = op := Option.some.inj hop
    exact Nat.lt_succ_self _

/-- By induction on `count`: every operator puts a node above its left operand, as long as its right
operand, a name, has a level left. -/
theorem yields_operations {count left : Nat} (hle : count ≤ left - 1) (operand : Node)
    (hoperand : 0 < operand.nesting) {l : Lexeme} {i : List Lexeme} (hl : Closes l) :
    Yields (operations (levelsLeft source limit left) 0 operand) (addedNames count ++ l :: i)
      (·.nesting = operand.nesting + count) (l :: i) := by
  have hbinary : l.binary? = none := by rcases hl with rfl | rfl <;> rfl
  induction count generalizing left operand with
  | zero =>
    refine Yields.peek_bind ?_
    rw [hbinary]
    exact .pure rfl
  | succ count ih =>
    obtain ⟨left, rfl⟩ := Nat.exists_eq_add_of_le' (show 2 ≤ left by omega)
    refine Yields.peek_bind ?_
    show Yields (if 0 ≤ Operation.add.precedence then _ else _) _ _ _
    rw [if_pos (Nat.zero_le _)]
    refine (yields_bump source (List.cons_ne_nil _ _)).bind fun sign hsign => ?_
    -- the right operand is a name, which the next operator or the end of the chain ends
    have hright : Yields (enter source limit (left + 1)
        (.expression (Operation.add.precedence + 1))) (.ident "f" :: (addedNames count ++ l :: i))
        (·.nesting = 1) (addedNames count ++ l :: i) := by
      obtain ⟨l', i', hcons, harrow, hparen, hend⟩ := exists_cons_addedNames count hl i
      rw [hcons]
      exact yields_name source limit left _ harrow hparen hend
    refine hright.bind fun right hright => ?_
    refine (yields_node source .expression [operand, sign, right]).bind fun result hresult => ?_
    replace hresult : result.nesting = operand.nesting + 1 := by
      rw [hresult]
      simp only [Node.nestingList, hsign, hright, NodeKind.weight, NodeKind.nests, if_true]
      omega
    refine (ih (show count ≤ left + 1 - 1 by omega) result (by omega)).mono fun n hn => ?_
    omega

/-- The group on the ground floor of a tower is no lambda for `opensLambda`. -/
theorem opensLambda_tower (n : Nat) (i : List Lexeme) {ts : List Token}
    (h : ts.map Token.lexeme = tower n ++ .symbol rightParen :: .symbol leftParen :: i) :
    opensLambda ts = false := by
  let place (l : Lexeme) : Token := ⟨l, .nowhere⟩
  have hplaced : ts.map Token.lexeme
      = ((tower n ++ .symbol rightParen :: .symbol leftParen :: i).map place).map
        Token.lexeme := by
    rw [List.map_map, h]
    exact (List.map_id _).symm
  rw [opensLambda_congr hplaced]
  cases n with
  | zero => rfl
  | succ n => rfl

/-- The group on the ground floor is one node above the floors in it. -/
theorem yields_group (n : Nat) {i : List Lexeme} (hi : i ≠ [])
    (htower : Yields (enter source limit (n + 1) (.expression 0))
      (tower n ++ .symbol rightParen :: (emptyCalls (n + 1) ++ i))
      (·.nesting = expressionReach (n + 1))
      (.symbol rightParen :: (emptyCalls (n + 1) ++ i))) :
    Yields (primary (levelsLeft source limit (n + 1)))
      (.symbol leftParen :: (tower n ++ .symbol rightParen :: (emptyCalls (n + 1) ++ i)))
      (·.nesting = expressionReach (n + 1) + 1) (emptyCalls (n + 1) ++ i) := by
  refine Yields.peek_bind (Yields.get_bind fun s hs => ?_)
  -- no arrow stands behind the parentheses, or there are no parameters in them
  rw [opensLambda_tower n _ (List.cons.inj hs).2, if_neg (by decide)]
  refine (yields_bump source (by simp)).bind fun opening hopening => ?_
  refine htower.bind fun inner hinner => ?_
  refine (yields_expect source rightParen (by simp [hi])).bind fun closing hclosing => ?_
  refine (yields_node source .expression _).mono fun n hn => ?_
  rw [hn]
  simp only [Node.nestingList, hopening, hinner, hclosing, NodeKind.weight, NodeKind.nests, if_true]
  omega

/-- By induction on the floors. A floor is a group, `n + 1` calls and `n` operators, which add up to
`expressionReach_succ`. -/
theorem yields_tower (n : Nat) {l : Lexeme} {i : List Lexeme} (hl : Closes l) :
    Yields (enter source limit (n + 1) (.expression 0)) (tower n ++ l :: i)
      (·.nesting = expressionReach (n + 1)) (l :: i) := by
  induction n generalizing l i with
  | zero =>
    rcases hl with rfl | rfl <;>
      exact yields_name source limit 0 0 (by decide) (by decide) fun op hop => by cases hop
  | succ n ih =>
    rw [tower_succ_append]
    -- the floor below in parentheses, then the calls, then the operators
    have hgroup := yields_group source limit n (i := addedNames n ++ l :: i) (by simp)
      (ih (.inl rfl))
    have hcalls (callee : Node) : Yields (calls (levelsLeft source limit (n + 1)) callee)
        (emptyCalls (n + 1) ++ (addedNames n ++ l :: i)) (·.nesting = callee.nesting + (n + 1))
        (addedNames n ++ l :: i) := by
      obtain ⟨l', i', hcons, -, hparen, -⟩ := exists_cons_addedNames n hl i
      rw [hcons]
      exact yields_calls source limit (Nat.le_refl _) callee hparen
    have hoperand : Yields (operand (levelsLeft source limit (n + 1)))
        (.symbol leftParen :: (tower n ++ .symbol rightParen ::
          (emptyCalls (n + 1) ++ (addedNames n ++ l :: i))))
        (·.nesting = expressionReach (n + 1) + 1 + (n + 1)) (addedNames n ++ l :: i) := by
      refine Yields.peek_bind ?_
      rw [if_neg (by decide)]
      refine hgroup.bind fun callee hcallee => (hcalls callee).mono fun left hleft => ?_
      omega
    refine hoperand.bind fun left hleft => ?_
    have hleft' : 0 < left.nesting := by omega
    refine (yields_operations source limit (Nat.le_refl n) left hleft' hl).mono fun m hm => ?_
    rw [expressionReach_succ]
    omega

/-- `yields_tower` as a statement. -/
theorem yields_statement (n : Nat) {l : Lexeme} {i : List Lexeme} :
    Yields (enter source limit (n + 2) .statement) (tower n ++ .symbol semicolon :: l :: i)
      (·.nesting = statementReach (n + 2)) (l :: i) := by
  have hterminated : Yields (terminated (levelsLeft source limit (n + 1))
      (expression (levelsLeft source limit (n + 1))) >>= node source .statement)
      (tower n ++ .symbol semicolon :: l :: i) (·.nesting = statementReach (n + 2)) (l :: i) := by
    refine Yields.bind (P := (Node.nestingList · = expressionReach (n + 1))) ?_
      fun parts hparts => (yields_node source .statement parts).mono fun m hm => ?_
    · refine (yields_tower source limit n (.inr rfl)).bind fun m hm => ?_
      refine (yields_expect source semicolon (List.cons_ne_nil _ _)).bind fun hend hclosing => ?_
      refine .pure ?_
      rw [Node.nestingList, hm, hclosing]
      omega
    · rw [hm, hparts]
      rfl
  -- the smallest tower is a name, and behind a name the parser looks at the second token
  cases n with
  | zero => exact Yields.peek_bind (Yields.peekSecond_bind hterminated)
  | succ n => exact Yields.peek_bind hterminated

/-- If nothing is wrong with a statement and it has tokens, `guardedStatement` has nothing to do
behind it. -/
theorem yields_guardedStatement (level : Level) {P : Node → Prop} {i o : List Lexeme}
    (hlength : o.length < i.length) (h : Yields (level.enter .statement) i P o) :
    Yields (guardedStatement level) i P o := by
  intro s hs
  obtain ⟨n, t, henter, hn, ht, herrors, hposition⟩ := h s hs
  have hclean : ¬ s.errors.size < t.errors.size := by
    rw [herrors]
    exact Nat.lt_irrefl _
  -- `o` is shorter, so tokens were taken
  have hmoved : s.position ≠ t.position := by omega
  refine ⟨n, t, ?_, hn, ht, herrors, hposition⟩
  show EStateM.bind (level.enter .statement) _ s = _
  rw [EStateM.bind, henter]
  show (if _ then _ else _ : Parser Node) t = _
  rw [if_neg hclean]
  show (if _ then _ else _ : Parser Node) t = _
  rw [if_neg hmoved]
  rfl

/-- The rounds end at a lexeme for which `more` is false. -/
theorem yields_rounds_stop {more : Lexeme → Bool} {round : Parser (List Node)} {l : Lexeme}
    (hl : more l = false) (i : List Lexeme) (bound : List Token) :
    Yields (rounds more round bound) (l :: i) (· = []) (l :: i) := by
  cases bound with
  | nil => exact .pure rfl
  | cons t bound =>
    refine Yields.peek_bind ?_
    rw [hl]
    exact .pure rfl

/-- A program of one statement: one round of `guardedStatement`, and `yields_rounds_stop` at the
end. -/
theorem yields_program {l : Lexeme} {i : List Lexeme} {k : Nat} (hl : l ≠ .eof)
    (h : Yields (enter source limit limit .statement) (l :: (i ++ [.eof])) (·.nesting = k)
      [.eof]) :
    Yields (program source limit) (l :: (i ++ [.eof])) (Node.nestingList · = k) [.eof] := by
  refine Yields.get_bind fun s hs => ?_
  -- the end of the source is behind the cursor, so there is a round to go
  obtain ⟨t, bound, hahead⟩ : ∃ t bound, s.ahead = t :: bound := by
    refine List.exists_cons_of_ne_nil fun hnil => ?_
    have htail := (List.cons.inj hs).2
    rw [hnil] at htail
    simp at htail
  rw [hahead]
  refine Yields.peek_bind ?_
  rw [if_pos (bne_iff_ne.mpr hl)]
  have hguarded := yields_guardedStatement (levelsLeft source limit limit) (by simp) h
  have hround : Yields (do return [← guardedStatement (levelsLeft source limit limit)])
      (l :: (i ++ [.eof])) (Node.nestingList · = k) [.eof] := by
    refine hguarded.bind fun n hn => .pure ?_
    rw [Node.nestingList, Node.nestingList, hn, Nat.max_zero]
  refine hround.bind fun first hfirst => ?_
  refine (yields_rounds_stop rfl [] bound).bind fun others hothers => .pure ?_
  rw [hothers, List.append_nil, hfirst]

end Floors

end Parser

/-! ## Sources -/

/-- A text with the given lexemes, each with a blank behind it. -/
def spaced : List Lexeme → String
  | [] => ""
  | l :: ls => l.spelling ++ " " ++ spaced ls

/-- The lexemes of towers: symbols, and one name. -/
def Lexeme.IsPlain (l : Lexeme) : Prop := l = .ident "f" ∨ ∃ s, l = .symbol s

/-- By induction on the lexemes, each of which ends at the blank that `spaced` puts behind it. -/
theorem scans_spaced {ls : List Lexeme} (h : ∀ l ∈ ls, l.IsPlain) {rest : List Char} :
    Scans (spaced ls).toList ls rest := by
  have hname : IsName "f" := ⟨⟨'f', [], by decide, by decide, fun _ hd => by cases hd⟩, by decide⟩
  induction ls with
  | nil => exact .nil
  | cons l ls ih =>
    obtain ⟨hl, hls⟩ := List.forall_mem_cons.mp h
    have hfirst {rest : List Char} : Scans (l.spelling ++ " ").toList [l] rest := by
      rcases hl with rfl | ⟨s, rfl⟩
      · exact (scans_name hname boundary_blank).string scans_blank
      · exact (scans_symbol s).string scans_blank
    exact hfirst.string (ih hls)

/-- Towers are made of parentheses, plus signs and the name `f`. -/
theorem isPlain_of_mem_tower (n : Nat) : ∀ l ∈ tower n, l.IsPlain := by
  have hcalls (k : Nat) : ∀ l ∈ emptyCalls k, l.IsPlain := by
    induction k with
    | zero => exact fun l hl => absurd hl List.not_mem_nil
    | succ k ih =>
      exact List.forall_mem_cons.mpr ⟨.inr ⟨_, rfl⟩, List.forall_mem_cons.mpr ⟨.inr ⟨_, rfl⟩, ih⟩⟩
  have hnames (k : Nat) : ∀ l ∈ addedNames k, l.IsPlain := by
    induction k with
    | zero => exact fun l hl => absurd hl List.not_mem_nil
    | succ k ih =>
      exact List.forall_mem_cons.mpr ⟨.inr ⟨_, rfl⟩, List.forall_mem_cons.mpr ⟨.inl rfl, ih⟩⟩
  induction n with
  | zero => exact List.forall_mem_cons.mpr ⟨.inl rfl, fun l hl => absurd hl List.not_mem_nil⟩
  | succ n ih =>
    refine List.forall_mem_cons.mpr ⟨.inr ⟨_, rfl⟩, List.forall_mem_append.mpr ⟨ih, ?_⟩⟩
    refine List.forall_mem_cons.mpr ⟨.inr ⟨_, rfl⟩, List.forall_mem_append.mpr ⟨?_, ?_⟩⟩
    · exact hcalls (n + 1)
    · exact hnames n

/-- With at least two levels `statementReach` is attained by a tower. -/
theorem exists_parse_tower (n : Nat) :
    ∃ tree, Node.parse (spaced (tower n ++ [.symbol semicolon])) (n + 2) = .ok tree ∧
      tree.nesting = statementReach (n + 2) := by
  have hplain : ∀ l ∈ tower n ++ [.symbol semicolon], l.IsPlain :=
    List.forall_mem_append.mpr ⟨isPlain_of_mem_tower n,
      List.forall_mem_cons.mpr ⟨.inr ⟨_, rfl⟩, fun l hl => absurd hl List.not_mem_nil⟩⟩
  obtain ⟨herrors, hlexemes⟩ := (scans_spaced hplain).scan
  generalize spaced (tower n ++ [.symbol semicolon]) = source at herrors hlexemes ⊢
  obtain ⟨l, i, htower, hl⟩ := exists_tower_eq_cons n
  have hstatement := Parser.yields_statement source (n + 2) n (l := .eof) (i := [])
  rw [htower] at hlexemes hstatement
  obtain ⟨t, ts, htokens, hcurrent, hahead⟩ := List.map_eq_cons_iff.mp hlexemes
  -- the parser starts before the first token of the tower
  have hstart : (Parser.State.start (scan source).tokens).stream.map Token.lexeme
      = l :: (i ++ [.symbol semicolon] ++ [.eof]) := by
    rw [htokens]
    exact congrArg₂ List.cons hcurrent hahead
  have hprogram := Parser.yields_program source (n + 2) hl (i := i ++ [.symbol semicolon])
    (by rwa [List.append_assoc])
  obtain ⟨ns, s, hrun, hnesting, -, hclean, -⟩ := hprogram _ hstart
  replace hclean : s.errors = #[] := by
    rw [hclean, htokens]
    rfl
  refine ⟨.covering source .program (.between 0 source.utf8ByteSize) ns, ?_, ?_⟩
  · exact Node.parse_eq_ok_iff.mpr
      ⟨herrors, Parser.ofTokens_eq_ok_iff.mpr ⟨ns, s, hrun, hclean, rfl⟩⟩
  · rw [Node.nesting_eq]
    exact hnesting

/-- A tree of a given nesting, found by running the parser. -/
theorem exists_of_nesting {source : String} {limit k : Nat}
    (h : (Node.parse source limit).toOption.map Node.nesting = some k) :
    ∃ tree, Node.parse source limit = .ok tree ∧ tree.nesting = k := by
  cases hparse : Node.parse source limit with
  | error errors =>
    rw [hparse] at h
    cases h
  | ok tree =>
    rw [hparse] at h
    exact ⟨tree, rfl, Option.some.inj h⟩

/-- `statementReach` is attained, whatever the limit is. With less than two levels there is no
tower, and the source is found by running the parser. -/
theorem exists_parse_nesting_eq (limit : Nat) :
    ∃ source tree, Node.parse source limit = .ok tree ∧ tree.nesting = statementReach limit := by
  rcases limit with _ | _ | n
  · exact ⟨"", exists_of_nesting (by decide +kernel)⟩
  · exact ⟨"return;", exists_of_nesting (by decide +kernel)⟩
  · exact ⟨_, exists_parse_tower n⟩

/-- From three levels on the product in `expressionReach` is at least the limit less one, and two
more are added to it. -/
theorem statementReach_le_iff (limit : Nat) : statementReach limit ≤ limit ↔ limit ≤ 2 := by
  rcases limit with _ | _ | _ | n
  · decide
  · decide
  · decide
  · have hmore : n + 1 + 1 ≤ (n + 1) * (n + 1 + 1) := Nat.le_mul_of_pos_left _ (Nat.succ_pos _)
    simp only [statementReach, expressionReach]
    omega

/-- The largest number of statements and expressions on a path of a tree that a limit admits grows
with the square of the limit. So the limit bounds it only as long as it is two at most. -/
theorem isGreatest_nesting (limit : Nat) :
    IsGreatest {k | ∃ source tree path, Node.parse source limit = .ok tree ∧
      Node.IsPath tree path ∧ Node.countNesting path = k} (statementReach limit) ∧
    (statementReach limit ≤ limit ↔ limit ≤ 2) := by
  refine ⟨⟨?_, ?_⟩, statementReach_le_iff limit⟩
  · obtain ⟨source, tree, hparse, hnesting⟩ := exists_parse_nesting_eq limit
    obtain ⟨path, hpath, hcount⟩ := tree.exists_isPath
    exact ⟨source, tree, path, hparse, hpath, hcount.trans hnesting⟩
  · rintro k ⟨source, tree, path, hparse, hpath, rfl⟩
    exact Nat.le_trans (Node.countNesting_le_nesting hpath) (nesting_le_of_parse hparse)

example : statementReach defaultNestingLimit = 64772 := by decide

/-- The callee of a call that has taken all the levels is buried below the call. -/
theorem nesting_exceeds_limit :
    ∃ tree path, Node.parse "(f)();" 3 = .ok tree ∧ Node.IsPath tree path ∧
      3 < Node.countNesting path := by
  obtain ⟨tree, hparse, hnesting⟩ : ∃ tree, Node.parse "(f)();" 3 = .ok tree ∧ tree.nesting = 4 :=
    exists_of_nesting (by decide +kernel)
  obtain ⟨path, hpath, hcount⟩ := tree.exists_isPath
  refine ⟨tree, path, hparse, hpath, ?_⟩
  omega

end SimpleLang
