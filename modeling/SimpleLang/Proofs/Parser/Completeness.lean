import SimpleLang.Proofs.Parser.Stream
import SimpleLang.Proofs.Reading

/-!
# The parser accepts every reading

On tokens that have a reading, the parser gives the nodes of that reading and reports nothing,
unless the nesting limit stops it. Then the limit is the only error, and it is smaller than the
number of tokens: every level that is entered has a token of its own.

* `Takes limit k p i a o`: on the tokens `i` the parser `p` gives `a` and leaves `o`, or it is cut
  at the nesting limit, and then `i` has more than `k` tokens. `Takes.bind` chains two parsers.
* `taken_of_reads`: what a rule reads, its routine takes, with any number of levels left. The
  induction is on the reading; how many tokens a cut needs is kept for each rule apart (`Taken`).
* `program_takes`: the same for a whole program.
-/

namespace SimpleLang

namespace Parser

/-! ## Parsers that take tokens or are cut -/

/-- On the tokens `i` the parser gives `a`, reports nothing and leaves `o`; or it is cut at the
nesting limit, reports that alone, and there are more than `k` tokens. -/
def Takes {α : Type} (limit k : Nat) (p : Parser α) (i : List Token) (a : α) (o : List Token) :
    Prop :=
  o <:+ i ∧ ∀ s : State, s.stream = i → EndsOnce i →
    (∃ s', p s = .ok a s' ∧ s'.stream = o ∧ s'.errors = s.errors ∧
      s'.position + o.length = s.position + i.length) ∨
    k < i.length ∧ ∃ s' span, p s = .error .tooDeep s' ∧
      s'.errors = s.errors.push ((SyntaxError.tooDeep limit).diagnostic span)

namespace Takes

variable {α β : Type} {limit k k₁ k₂ : Nat} {p : Parser α} {f : α → Parser β}
  {i m o : List Token} {a : α} {b : β}

/-- A cut may be allowed with fewer tokens. -/
theorem mono (h : Takes limit k₁ p i a o) (hk : k ≤ k₁) : Takes limit k p i a o := by
  refine ⟨h.1, fun s hs hends => ?_⟩
  rcases h.2 s hs hends with hok | ⟨hlt, hcut⟩
  · exact .inl hok
  · exact .inr ⟨Nat.lt_of_le_of_lt hk hlt, hcut⟩

/-- One parser after the other. The second one may need fewer tokens for a cut if the first has
taken some: `i.length - m.length` of them. -/
theorem bind_of_le (hp : Takes limit k₁ p i a m) (hf : Takes limit k₂ (f a) m b o)
    (hk₁ : k ≤ k₁) (hk₂ : k + m.length ≤ k₂ + i.length) : Takes limit k (p >>= f) i b o := by
  refine ⟨hf.1.trans hp.1, fun s hs hends => ?_⟩
  have hbind : (p >>= f) s = EStateM.bind p f s := rfl
  rcases hp.2 s hs hends with ⟨s', hrun, hstream, herrors, hpos⟩ | ⟨hlt, s', span, hrun, herrors⟩
  · have hends' : EndsOnce m := hends.suffix hp.1 (hstream ▸ List.cons_ne_nil _ _)
    rcases hf.2 s' hstream hends' with
      ⟨s'', hrun', hstream', herrors', hpos'⟩ | ⟨hlt', s'', span, hrun', herrors'⟩
    · refine .inl ⟨s'', ?_, hstream', herrors'.trans herrors, by omega⟩
      rw [hbind, EStateM.bind, hrun]
      exact hrun'
    · -- the second parser is cut: what it lacks in tokens the first one has taken
      refine .inr ⟨by omega, s'', span, ?_, by rw [herrors', herrors]⟩
      rw [hbind, EStateM.bind, hrun]
      exact hrun'
  · refine .inr ⟨by omega, s', span, ?_, herrors⟩
    rw [hbind, EStateM.bind, hrun]

/-- `Takes.bind_of_le` where both parts need the same number of tokens for a cut. -/
theorem bind (hp : Takes limit k p i a m) (hf : Takes limit k (f a) m b o) :
    Takes limit k (p >>= f) i b o :=
  hp.bind_of_le hf (Nat.le_refl k) (Nat.add_le_add_left hp.1.length_le k)

/-- A token that the first parser has taken makes up for one that the second needs less. -/
theorem bind_of_lt (hp : Takes limit (k + 1) p i a m) (hlt : m.length < i.length)
    (hf : Takes limit k (f a) m b o) : Takes limit (k + 1) (p >>= f) i b o :=
  hp.bind_of_le hf (Nat.le_refl _) (by omega)

theorem pure (a : α) : Takes limit k (Pure.pure a) i a i :=
  ⟨List.suffix_rfl, fun s hs _ => .inl ⟨s, rfl, hs, rfl, rfl⟩⟩

/-- What follows may be asked for states with these tokens only. -/
theorem get_bind {f : State → Parser β}
    (h : ∀ s₀, s₀.stream = i → Takes limit k (f s₀) i b o) (hsuffix : o <:+ i) :
    Takes limit k (get >>= f) i b o :=
  ⟨hsuffix, fun s hs hends => (h s hs).2 s hs hends⟩

theorem peek_bind {f : Lexeme → Parser β} {t : Token} {ts : List Token}
    (h : Takes limit k (f t.lexeme) (t :: ts) b o) : Takes limit k (peek >>= f) (t :: ts) b o := by
  refine get_bind (f := fun s => f s.current.lexeme) (fun s hs => ?_) h.1
  rw [State.stream, List.cons.injEq] at hs
  rw [hs.1]
  exact h

theorem peekSecond_bind {f : Lexeme → Parser β} {t u : Token} {ts : List Token}
    (h : Takes limit k (f u.lexeme) (t :: u :: ts) b o) :
    Takes limit k (peekSecond >>= f) (t :: u :: ts) b o := by
  refine get_bind (f := fun s => f (s.ahead.headD s.current).lexeme) (fun s hs => ?_) h.1
  rw [State.stream, List.cons.injEq] at hs
  rw [hs.2]
  exact h

/-- On a token that is not the end `advance` leaves those behind it. -/
theorem bump {source : String} {t : Token} {ts : List Token} (hne : t.lexeme ≠ .eof) :
    Takes limit k (bump source) (t :: ts) (.ofToken source t) ts := by
  refine ⟨List.suffix_cons .., fun s hs hends => .inl ⟨s.advance, ?_, ?_, s.errors_advance, ?_⟩⟩
  · rw [show t = s.current from (List.cons.inj hs).1.symm]
    rfl
  · have hcurrent : s.current.lexeme ≠ .eof := by rwa [(List.cons.inj hs).1]
    rw [stream_advance (hs ▸ hends) hcurrent]
    exact (List.cons.inj hs).2
  · have hcurrent : s.current.lexeme ≠ .eof := by rwa [(List.cons.inj hs).1]
    have hpos := s.position_advance
    rwa [stream_advance (hs ▸ hends) hcurrent, hs, show s.ahead = ts from (List.cons.inj hs).2]
      at hpos

/-- The token that is taken pays for one level. -/
theorem bump_bind {source : String} {f : Node → Parser β} {t : Token} {ts : List Token}
    (hne : t.lexeme ≠ .eof) (h : Takes limit k (f (.ofToken source t)) ts b o) :
    Takes limit (k + 1) (Parser.bump source >>= f) (t :: ts) b o :=
  (Takes.bump hne).bind_of_lt (Nat.lt_succ_self _) h

/-- Without children the node is placed at the first token. -/
theorem node (source : String) (kind : NodeKind) (children : List Node) (t : Token)
    (ts : List Token) :
    Takes limit k (Parser.node source kind children) (t :: ts)
      (.above source kind children t.span.start) (t :: ts) := by
  refine ⟨List.suffix_rfl, fun s hs _ => .inl ⟨s, ?_, hs, rfl, rfl⟩⟩
  rw [show t = s.current from (List.cons.inj hs).1.symm]
  rfl

theorem node_cons (source : String) (kind : NodeKind) (first : Node) (others : List Node) :
    Takes limit k (Parser.node source kind (first :: others)) i
      (.above source kind (first :: others)) i :=
  ⟨List.suffix_rfl, fun s hs _ => .inl ⟨s, rfl, hs, rfl, rfl⟩⟩

theorem takes_expectName {source : String} {t : Token} {x : String} {ts : List Token}
    (ht : t.lexeme = .ident x) :
    Takes limit k (expectName source) (t :: ts) [.ofToken source t] ts := by
  refine peek_bind ?_
  rw [ht]
  exact (Takes.bump (by simp [ht])).bind (.pure _)

/-- As `Takes.bump_bind`, for a symbol. -/
theorem expect_bind {source : String} {wanted : Symbol} {f : List Node → Parser β} {t : Token}
    {ts : List Token} (ht : t.lexeme = .symbol wanted)
    (h : Takes limit k (f [.ofToken source t]) ts b o) :
    Takes limit (k + 1) (expect source wanted >>= f) (t :: ts) b o := by
  have hexpect : Takes limit (k + 1) (expect source wanted) (t :: ts) [.ofToken source t] ts := by
    refine peek_bind ?_
    rw [if_pos ht]
    exact (Takes.bump (by simp [ht])).bind (.pure _)
  exact hexpect.bind_of_lt (Nat.lt_succ_self _) h

/-- As `Takes.bump_bind`, for a name. -/
theorem expectName_bind {source : String} {f : List Node → Parser β} {t : Token} {x : String}
    {ts : List Token} (ht : t.lexeme = .ident x)
    (h : Takes limit k (f [.ofToken source t]) ts b o) :
    Takes limit (k + 1) (expectName source >>= f) (t :: ts) b o :=
  (takes_expectName ht).bind_of_lt (Nat.lt_succ_self _) h

end Takes

/-! ## Repetition -/

section Separated

variable {source : String} {item : Parser (List Node)} {limit k : Nat}

/-- A list is taken as its first item and then rounds, however many more rounds are allowed. The
bound is kept open, since `repeatWhile` takes it from a state that is not known yet. -/
def TakesSeparated (source : String) (item : Parser (List Node)) (limit k : Nat) (i : List Token)
    (ns : List Node) (o : List Token) : Prop :=
  ∃ first others m, ns = first ++ others ∧ m.length < i.length ∧
    Takes limit (k + 1) item i first m ∧ ∀ bound, m.length ≤ bound.length + 1 →
      Takes limit k (rounds (· == .symbol .comma) (commaRound source item) bound) m others o

/-- Behind the last item no comma asks for a round. -/
theorem TakesSeparated.last {t : Token} {i o : List Token} {ns : List Node}
    (hlt : (t :: o).length < i.length) (hitem : Takes limit (k + 1) item i ns (t :: o))
    (hend : t.lexeme ≠ .symbol .comma) : TakesSeparated source item limit k i ns (t :: o) := by
  refine ⟨ns, [], t :: o, (List.append_nil ns).symm, hlt, hitem, fun bound _ => ?_⟩
  cases bound with
  | nil => exact .pure []
  | cons b bound =>
    refine Takes.peek_bind ?_
    rw [if_neg (by simpa using hend)]
    exact .pure []

/-- An item before a comma makes the first item of the rest a round of its own. -/
theorem TakesSeparated.more {t : Token} {i us o : List Token} {first ns : List Node}
    (hlt : (t :: us).length < i.length) (hitem : Takes limit (k + 1) item i first (t :: us))
    (hcomma : t.lexeme = .symbol .comma) (hmore : TakesSeparated source item limit k us ns o) :
    TakesSeparated source item limit k i (first ++ .ofToken source t :: ns) o := by
  obtain ⟨second, others, m, rfl, hlt', hsecond, hrounds⟩ := hmore
  refine ⟨first, .ofToken source t :: (second ++ others), t :: us, rfl, hlt, hitem,
    fun bound hbound => ?_⟩
  cases bound with
  | nil =>
    -- a comma and what is read behind it need a round
    simp only [List.length_cons, List.length_nil] at hbound
    omega
  | cons b bound =>
    refine Takes.peek_bind ?_
    rw [if_pos (by simp [hcomma])]
    have hround : Takes limit k (commaRound source item) (t :: us)
        (.ofToken source t :: second) m :=
      (Takes.bump (by simp [hcomma])).bind ((hsecond.mono (Nat.le_succ k)).bind (.pure _))
    refine hround.bind ((hrounds bound ?_).bind (.pure _))
    simp only [List.length_cons] at hbound
    omega

/-- The rounds that the tokens behind the first item bound are enough. -/
theorem TakesSeparated.takes {i o : List Token} {ns : List Node}
    (h : TakesSeparated source item limit k i ns o) :
    Takes limit (k + 1) (separated source item) i ns o := by
  obtain ⟨first, others, m, rfl, hlt, hitem, hrounds⟩ := h
  have hrepeat : Takes limit k (repeatWhile (· == .symbol .comma) (commaRound source item)) m
      others o := by
    refine Takes.get_bind (fun s hs => hrounds s.ahead ?_) (hrounds m (by omega)).1
    rw [← hs, State.stream]
    exact Nat.le_refl _
  exact hitem.bind_of_lt hlt (hrepeat.bind (.pure _))

end Separated

/-- Names with commas between them are taken as they are read. -/
theorem takesSeparated_of_readsNames {source : String} {limit k : Nat} {i o : List Token}
    {ns : List Node} (h : ReadsNames source i ns o) :
    TakesSeparated source (expectName source) limit k i ns o := by
  induction h with
  | last ht hend => exact .last (Nat.lt_succ_self _) (.takes_expectName ht) hend
  | more ht hcomma _ ih => exact .more (Nat.lt_succ_self _) (.takes_expectName ht) hcomma ih

/-- The names are looked for only if the parenthesis does not close at once; a name is not a `)`. -/
theorem parametersUnlessClosed_takes {level : Level} {limit k : Nat} {i o : List Token}
    {ps : List Node} (h : ReadsParameters level.source i ps o) :
    Takes limit k (parametersUnlessClosed level) i ps o := by
  cases h with
  | none hclose =>
    refine Takes.peek_bind ?_
    rw [if_pos hclose]
    exact .pure []
  | some hnames =>
    obtain ⟨t, ts, x, ms, rfl, hname, rfl⟩ := hnames.head
    have hlist : Takes limit k (separated level.source (expectName level.source)) _ _ _ :=
      (takesSeparated_of_readsNames hnames).takes.mono (Nat.le_succ k)
    refine Takes.peek_bind ?_
    rw [if_neg (by simp [hname])]
    exact (hlist.bind (.node_cons ..)).bind (.pure _)

/-! ## Guarded statements -/

/-- Without errors the guard does nothing, because a statement takes at least one token. -/
theorem guardedStatement_takes {level : Level} {limit k : Nat} {i o : List Token} {n : Node}
    (h : Takes limit k (level.enter .statement) i n o) (hlt : o.length < i.length) :
    Takes limit k (guardedStatement level) i n o := by
  refine ⟨h.1, fun s hs hends => ?_⟩
  rcases h.2 s hs hends with ⟨s', hrun, hstream, herrors, hpos⟩ | ⟨hk, s', span, hrun, herrors⟩
  · refine .inl ⟨s', guardedStatement_of_enter hrun ?_ (by omega), hstream, herrors, hpos⟩
    rw [herrors]
    exact Nat.lt_irrefl _
  · refine .inr ⟨hk, s', span, ?_, herrors⟩
    show EStateM.bind (level.enter .statement) _ s = _
    rw [EStateM.bind, hrun]

/-! ## Entering a level -/

/-- A level that is left is one that the construct has; with none left the construct is cut. -/
theorem enter_takes {source : String} {limit left k : Nat} {nested : Nested} {i o : List Token}
    {n : Node} (hsuffix : o <:+ i) (hcut : left = 0 → EndsOnce i → k < i.length)
    (h : ∀ l, left = l + 1 →
      Takes limit k (construct { source, enter := enter source limit l } nested) i n o) :
    Takes limit k (enter source limit left nested) i n o := by
  cases left with
  | zero =>
    refine ⟨hsuffix, fun s hs hends => .inr ⟨hcut rfl hends, ?_⟩⟩
    exact ⟨_, s.current.span, rfl, rfl⟩
  | succ l => exact h l rfl

/-! ## The rules -/

/-- What a rule reads, its routine takes with `left` levels left. How many tokens a cut needs
differs with the number of levels that a routine can pass before it takes its first token: none
for a statement, one for most rules and two for an operand, which stands below an expression. -/
def Taken (source : String) (limit left : Nat) (i : List Token) (ns : List Node)
    (o : List Token) : Rule → Prop
  | .statement => Single (Takes limit left (enter source limit left .statement) i · o) ns
  | .statements => ∀ more bound, (∀ l, Rule.statement.starts l → more l = true) →
    AtCursor (more · = false) o → i.length ≤ bound.length + 1 →
      Takes limit left
        (rounds more (do return [← guardedStatement (levelAt source limit left)]) bound) i ns o
  | .block => Single (Takes limit (left + 1) (block (levelAt source limit left)) i · o) ns
  | .conditionAndBody =>
    AtCursor (· ≠ .eof) i →
      Takes limit (left + 1) (conditionAndBody (levelAt source limit left)) i ns o
  | .expression minimum =>
    Single (Takes limit (left + 1) (enter source limit left (.expression minimum)) i · o) ns
  | .operations minimum n =>
    Single (Takes limit (left + 1) (operations (levelAt source limit left) minimum n) i · o) ns
  | .operand => Single (Takes limit (left + 2) (operand (levelAt source limit left)) i · o) ns
  | .calls callee =>
    Single (Takes limit (left + 1) (calls (levelAt source limit left) callee) i · o) ns
  | .primary => Single (Takes limit (left + 2) (primary (levelAt source limit left)) i · o) ns
  | .lambda head =>
    Single (Takes limit (left + 1) (lambdaBody (levelAt source limit left) head) i · o) ns
  | .expressions =>
    TakesSeparated source (do return [← expression (levelAt source limit left)]) limit left i ns o
  | .expressionsUnless closing => (Lexeme.symbol closing).startsExpression = false →
    Takes limit (left + 1) (expressionsUnless (levelAt source limit left) closing) i ns o

section Rules

variable {source : String} {limit : Nat}

/-- A token that is not the end is followed by others. -/
theorem EndsOnce.one_lt_length {t : Token} {ts : List Token} (h : EndsOnce (t :: ts))
    (hne : t.lexeme ≠ .eof) : 1 < (t :: ts).length := by
  have hpos := List.length_pos_iff.mpr (h.tail hne).ne_nil
  rw [List.length_cons]
  omega

/-- A statement that is cut at once needs no more tokens than it has, and it has one
(`Reads.length_lt`). -/
theorem taken_statement {i o : List Token} {n : Node} (hreads : Reads source .statement i [n] o)
    (h : ∀ left, Takes limit (left + 1) (statement (levelAt source limit left)) i n o)
    (left : Nat) : Taken source limit left i [n] o .statement := by
  have hlt := hreads.length_lt rfl
  refine enter_takes (h 0).1 (fun hleft _ => by omega) fun l hl => ?_
  rw [hl]
  exact h l

/-- A construct and its semicolon. -/
theorem terminated_takes {level : Level} {k : Nat} {p : Parser Node} {i o : List Token} {t : Token}
    {n : Node} (h : Takes limit k p i n (t :: o)) (ht : t.lexeme = .symbol .semicolon) :
    Takes limit k (terminated level p) i [n, .ofToken level.source t] o :=
  h.bind ((Takes.expect_bind ht (.pure [n, .ofToken level.source t])).mono (Nat.le_succ k))

/-! ### Statements -/

variable {left : Nat} {i o : List Token}

/-- `more` is false at the cursor, so there is no round, whatever the bound. -/
theorem statements_stop {t : Token} :
    Taken source limit left (t :: o) [] (t :: o) .statements := by
  intro more bound _ hstop _
  cases bound with
  | nil => exact .pure []
  | cons b bound =>
    obtain ⟨u, us, hu, hmore⟩ := hstop
    refine Takes.peek_bind ?_
    rw [(List.cons.inj hu).1, if_neg (by simp [hmore])]
    exact .pure []

/-- What starts a statement asks for a round (`hstarts`), and the bound is not used up yet. -/
theorem statements_next {mid : List Token} {n : Node} {ns : List Node}
    (hhead : AtCursor (Rule.statement.starts ·) i) (hlt : mid.length < i.length)
    (hfirst : Taken source limit left i [n] mid .statement)
    (hothers : Taken source limit left mid ns o .statements) :
    Taken source limit left i (n :: ns) o .statements := by
  intro more bound hstarts hstop hbound
  obtain ⟨t, ts, rfl, ht⟩ := hhead
  have hfirst : Takes limit left ((levelAt source limit left).enter .statement) (t :: ts) n mid :=
    hfirst
  have hlen : o.length ≤ mid.length :=
    (hothers more mid hstarts hstop (Nat.le_succ _)).1.length_le
  cases bound with
  -- the statement has a token and another one is left, so the bound is not empty
  | nil =>
    obtain ⟨u, us, rfl, _⟩ := hstop
    simp only [List.length_cons, List.length_nil] at hlen hbound hlt
    omega
  | cons b bound =>
    refine Takes.peek_bind ?_
    rw [if_pos (hstarts _ ht)]
    have hround : Takes limit left (do return [← guardedStatement (levelAt source limit left)])
        (t :: ts) [n] mid :=
      (guardedStatement_takes hfirst hlt).bind (.pure [n])
    refine hround.bind ((hothers more bound hstarts hstop ?_).bind (.pure _))
    simp only [List.length_cons] at hbound hlt
    omega

/-- Neither the brace nor the end starts a statement, so the loop goes through all of them and stops
at the brace. -/
theorem block_takes {t₀ t₁ : Token} {ns : List Node}
    (hopen : t₀.lexeme = .symbol .leftBrace)
    (hbody : Taken source limit left i ns (t₁ :: o) .statements)
    (hclose : t₁.lexeme = .symbol .rightBrace) :
    Takes limit (left + 1) (block (levelAt source limit left)) (t₀ :: i)
      (.above source .block (.ofToken source t₀ :: ns ++ [.ofToken source t₁])) o := by
  -- neither a closing brace nor the end starts a statement
  have hstarts (l : Lexeme) (hl : Rule.statement.starts l) :
      (l != .symbol .rightBrace && l != .eof) = true := by
    have hbrace : l ≠ .symbol .rightBrace := by
      rintro rfl
      exact absurd hl (by decide)
    have heof : l ≠ .eof := by
      rintro rfl
      exact absurd hl (by decide)
    simp [hbrace, heof]
  have hstop : AtCursor (fun l => (l != .symbol .rightBrace && l != .eof) = false) (t₁ :: o) :=
    ⟨t₁, o, rfl, by simp [hclose]⟩
  have hbody := fun bound hbound => hbody _ bound hstarts hstop hbound
  refine Takes.expect_bind hopen ?_
  refine Takes.bind (Takes.get_bind (fun s hs => hbody s.ahead ?_) (hbody i (Nat.le_succ _)).1) ?_
  · rw [← hs, State.stream]
    exact Nat.le_refl _
  · refine Takes.mono (Takes.expect_bind hclose ?_) (Nat.le_succ left)
    exact .node_cons ..

/-- No level is entered, so no cut is possible and `k` is any number. -/
theorem declaration_takes {t₀ t₁ t₂ : Token} {x : String} {k : Nat}
    (hword : t₀.lexeme = .keyword .letWord) (hname : t₁.lexeme = .ident x)
    (hend : t₂.lexeme ≠ .symbol .assign) :
    Takes limit k (declaration (levelAt source limit left)) (t₀ :: t₁ :: t₂ :: o)
      (.above source .declaration [.ofToken source t₀, .ofToken source t₁]) (t₂ :: o) := by
  refine Takes.mono (Takes.bump_bind (by simp [hword]) (Takes.expectName_bind hname ?_))
    (Nat.le_add_right k 2)
  refine Takes.peek_bind ?_
  rw [if_neg hend]
  exact .node_cons ..

/-- The value is entered one level deeper, and may be cut there. -/
theorem declaration_takes_value {t₀ t₁ t₂ : Token} {x : String} {v : Node}
    (hword : t₀.lexeme = .keyword .letWord) (hname : t₁.lexeme = .ident x)
    (hsign : t₂.lexeme = .symbol .assign)
    (hvalue : Taken source limit left i [v] o (.expression 0)) :
    Takes limit (left + 1) (declaration (levelAt source limit left)) (t₀ :: t₁ :: t₂ :: i)
      (.above source .declaration [.ofToken source t₀, .ofToken source t₁, .ofToken source t₂, v])
      o := by
  refine Takes.mono (Takes.bump_bind (by simp [hword]) (Takes.expectName_bind hname ?_))
    (Nat.le_add_right (left + 1) 2)
  refine Takes.peek_bind ?_
  rw [if_pos hsign]
  refine Takes.mono (Takes.bump_bind (by simp [hsign]) ?_) (Nat.le_succ (left + 1))
  exact Takes.bind hvalue (.node_cons ..)

theorem assignment_takes {t₀ t₁ : Token} {x : String} {v : Node}
    (hname : t₀.lexeme = .ident x) (hsign : t₁.lexeme = .symbol .assign)
    (hvalue : Taken source limit left i [v] o (.expression 0)) :
    Takes limit (left + 1) (assignment (levelAt source limit left)) (t₀ :: t₁ :: i)
      (.above source .assignment [.ofToken source t₀, .ofToken source t₁, v]) o := by
  refine Takes.mono (Takes.bump_bind (by simp [hname]) (Takes.bump_bind (by simp [hsign]) ?_))
    (Nat.le_add_right (left + 1) 2)
  exact Takes.bind hvalue (.node_cons ..)

/-- As for `declaration_takes`, no cut is possible. -/
theorem returning_takes {t₀ t₁ : Token} {k : Nat} (hword : t₀.lexeme = .keyword .returnWord)
    (hend : t₁.lexeme = .symbol .semicolon) :
    Takes limit k (returning (levelAt source limit left)) (t₀ :: t₁ :: o)
      (.above source .returning [.ofToken source t₀]) (t₁ :: o) := by
  refine Takes.mono (Takes.bump_bind (by simp [hword]) ?_) (Nat.le_succ k)
  refine Takes.peek_bind ?_
  rw [if_pos hend]
  exact .node_cons ..

/-- An expression does not start with a `;`, so the value is looked for. -/
theorem returning_takes_value {t₀ : Token} {v : Node}
    (hword : t₀.lexeme = .keyword .returnWord)
    (hhead : AtCursor (·.startsExpression) i)
    (hvalue : Taken source limit left i [v] o (.expression 0)) :
    Takes limit (left + 1) (returning (levelAt source limit left)) (t₀ :: i)
      (.above source .returning [.ofToken source t₀, v]) o := by
  obtain ⟨t, ts, rfl, ht⟩ := hhead
  refine Takes.mono (Takes.bump_bind (by simp [hword]) ?_) (Nat.le_succ (left + 1))
  refine Takes.peek_bind ?_
  rw [if_neg (Lexeme.ne_of_startsExpression ht rfl)]
  refine Takes.bind hvalue ?_
  exact .node_cons ..

/-- The body is a value or a block (`functionBody_takes_value`, `functionBody_takes_block`). -/
theorem function_takes {t₀ t₁ t₂ t₃ : Token} {x : String} {mid : List Token}
    {ps body : List Node} {arrow : Bool} (hword : t₀.lexeme = .keyword .fnWord)
    (hname : t₁.lexeme = .ident x) (hopen : t₂.lexeme = .symbol .leftParen)
    (hparams : ReadsParameters source i ps (t₃ :: mid))
    (hclose : t₃.lexeme = .symbol .rightParen)
    (hbody : Takes limit (left + 1) (functionBody (levelAt source limit left)) mid (body, arrow)
      o) :
    Takes limit (left + 1) (function (levelAt source limit left)) (t₀ :: t₁ :: t₂ :: i)
      (.functionOf source arrow (.ofToken source t₀ :: .ofToken source t₁ :: .ofToken source t₂ ::
        ps ++ .ofToken source t₃ :: body)) o := by
  refine Takes.mono (Takes.bump_bind (by simp [hword])
    (Takes.expectName_bind hname (Takes.expect_bind hopen ?_))) (Nat.le_add_right (left + 1) 3)
  refine Takes.bind (parametersUnlessClosed_takes hparams) ?_
  refine Takes.mono (Takes.expect_bind hclose ?_) (Nat.le_succ (left + 1))
  refine Takes.bind hbody ?_
  -- the children come in a list that is appended piece by piece
  have hnode : Takes limit (left + 1) (node source .function (.ofToken source t₀ ::
      [.ofToken source t₁] ++ [.ofToken source t₂] ++ ps ++ [.ofToken source t₃] ++ body)) o
      (.above source .function (.ofToken source t₀ :: .ofToken source t₁ :: .ofToken source t₂ ::
        ps ++ .ofToken source t₃ :: body)) o := by
    rw [List.append_assoc]
    exact .node_cons ..
  exact hnode.bind (.pure _)

theorem functionBody_takes_value {t₀ t₁ : Token} {v : Node} (hsign : t₀.lexeme = .symbol .arrow)
    (hvalue : Taken source limit left i [v] (t₁ :: o) (.expression 0))
    (hend : t₁.lexeme = .symbol .semicolon) :
    Takes limit (left + 1) (functionBody (levelAt source limit left)) (t₀ :: i)
      ([.ofToken source t₀, v, .ofToken source t₁], true) o := by
  refine Takes.peek_bind ?_
  rw [hsign]
  refine Takes.mono (Takes.bump_bind (by simp [hsign]) ?_) (Nat.le_succ (left + 1))
  refine Takes.bind hvalue ?_
  exact Takes.mono (Takes.expect_bind hend (.pure _)) (Nat.le_succ (left + 1))

theorem functionBody_takes_block {b : Node} (hhead : AtCursor (· = .symbol .leftBrace) i)
    (hbody : Taken source limit left i [b] o .block) :
    Takes limit (left + 1) (functionBody (levelAt source limit left)) i ([b], false) o := by
  obtain ⟨t, ts, rfl, ht⟩ := hhead
  refine Takes.peek_bind ?_
  rw [ht]
  exact Takes.bind hbody (.pure _)

/-- `bump` takes the word only if it is not the end, which the two callers know. -/
theorem conditionAndBody_takes {t₀ t₁ t₂ : Token} {mid : List Token} {c b : Node}
    (hopen : t₁.lexeme = .symbol .leftParen)
    (htest : Taken source limit left i [c] (t₂ :: mid) (.expression 0))
    (hclose : t₂.lexeme = .symbol .rightParen)
    (hbody : Taken source limit left mid [b] o .statement) :
    Taken source limit left (t₀ :: t₁ :: i)
      [.ofToken source t₀, .ofToken source t₁, c, .ofToken source t₂, b] o .conditionAndBody := by
  rintro ⟨_, _, ⟨rfl, rfl⟩, hne⟩
  refine Takes.mono (Takes.bump_bind hne (Takes.expect_bind hopen ?_))
    (Nat.le_add_right (left + 1) 2)
  refine Takes.bind htest ?_
  refine Takes.expect_bind hclose ?_
  exact Takes.bind hbody (.pure _)

/-- The parts are not empty, so the node does not depend on the cursor. -/
theorem conditional_takes {t : Token} {parts : List Node}
    (hhead : Takes limit (left + 1) (conditionAndBody (levelAt source limit left)) i parts (t :: o))
    (hparts : parts ≠ []) (hend : t.lexeme ≠ .keyword .elseWord) :
    Takes limit (left + 1) (conditional (levelAt source limit left)) i
      (.above source .conditional parts) (t :: o) := by
  refine hhead.bind (Takes.peek_bind ?_)
  rw [if_neg hend]
  obtain ⟨n, ns, rfl⟩ := List.exists_cons_of_ne_nil hparts
  have hnil : n :: ns ++ [] = n :: ns := List.append_nil _
  show Takes _ _ (node source .conditional (n :: ns ++ [])) _ _ _
  rw [hnil]
  exact .node_cons ..

theorem conditional_takes_else {t : Token} {mid : List Token} {parts : List Node} {no : Node}
    (hhead : Takes limit (left + 1) (conditionAndBody (levelAt source limit left)) i parts
      (t :: mid))
    (hparts : parts ≠ []) (helse : t.lexeme = .keyword .elseWord)
    (hno : Taken source limit left mid [no] o .statement) :
    Takes limit (left + 1) (conditional (levelAt source limit left)) i
      (.above source .conditional (parts ++ [.ofToken source t, no])) o := by
  refine hhead.bind (Takes.peek_bind ?_)
  rw [if_pos helse]
  refine Takes.bump_bind (by simp [helse]) ?_
  refine Takes.bind hno ?_
  obtain ⟨n, ns, rfl⟩ := List.exists_cons_of_ne_nil hparts
  exact .node_cons ..

theorem loop_takes {parts : List Node}
    (hhead : Takes limit (left + 1) (conditionAndBody (levelAt source limit left)) i parts o)
    (hparts : parts ≠ []) :
    Takes limit (left + 1) (loop (levelAt source limit left)) i (.above source .loop parts) o := by
  obtain ⟨n, ns, rfl⟩ := List.exists_cons_of_ne_nil hparts
  exact hhead.bind (.node_cons ..)

/-- An expression with its semicolon, if it does not look like any other statement. What starts an
expression starts no other statement, apart from a name before an `=`. -/
theorem expressionStatement_takes {t u : Token} {v : Node}
    (hhead : t.lexeme.startsExpression)
    (hsecond : ∀ x, t.lexeme = .ident x → AtCursor (· ≠ .symbol .assign) i)
    (hvalue : Taken source limit left (t :: i) [v] (u :: o) (.expression 0))
    (hend : u.lexeme = .symbol .semicolon) :
    Takes limit (left + 1) (statement (levelAt source limit left)) (t :: i)
      (.above source .statement [v, .ofToken source u]) o := by
  have hparts : Takes limit (left + 1)
      (terminated (levelAt source limit left) (expression (levelAt source limit left))
        >>= node source .statement) (t :: i)
      (.above source .statement [v, .ofToken source u]) o :=
    Takes.bind (terminated_takes hvalue hend) (.node_cons ..)
  obtain ⟨l, span⟩ := t
  refine Takes.peek_bind ?_
  -- the lexemes that do not start an expression are excluded by `hhead`
  cases l with
  | integer _ | float _ | string _ => exact hparts
  | ident x =>
    obtain ⟨u, us, rfl, hu⟩ := hsecond x rfl
    refine Takes.peekSecond_bind ?_
    rw [if_neg hu]
    exact hparts
  | keyword word =>
    cases word with
    | trueWord | falseWord => exact hparts
    | _ => simp [Lexeme.startsExpression, Lexeme.isLiteral] at hhead
  | symbol sign =>
    cases sign with
    | leftBracket | leftParen | bang => exact hparts
    | _ => simp [Lexeme.startsExpression, Lexeme.isLiteral] at hhead
  | eof => simp [Lexeme.startsExpression, Lexeme.isLiteral] at hhead

/-! ### Expressions -/

/-- The operand has taken a token, so `operations` may be cut with one token less. -/
theorem expression_takes {minimum : Nat} {mid : List Token} {first n : Node}
    (hhead : AtCursor (·.startsExpression) i) (hlt : mid.length < i.length)
    (hleft : ∀ left, Taken source limit left i [first] mid .operand)
    (hmore : ∀ left, Taken source limit left mid [n] o (.operations minimum first)) :
    Taken source limit left i [n] o (.expression minimum) := by
  have hsuffix : o <:+ i := (hmore 0).1.trans (hleft 0).1
  refine enter_takes hsuffix (fun hzero hends => ?_) fun l hl => ?_
  · -- cut here, the expression still has its first token and the end behind it
    obtain ⟨t, ts, rfl, ht⟩ := hhead
    have hone := hends.one_lt_length (Lexeme.ne_of_startsExpression ht rfl)
    omega
  · rw [hl]
    exact Takes.bind_of_lt (hleft l) hlt (hmore l)

/-- The operator at the cursor, if there is one, binds too loosely. -/
theorem operations_stop {minimum : Nat} {n : Node} {t : Token}
    (hend : t.lexeme.endsOperations minimum) :
    Taken source limit left (t :: o) [n] (t :: o) (.operations minimum n) := by
  refine Takes.peek_bind ?_
  cases hop : t.lexeme.binary? with
  | none => exact .pure n
  | some op =>
    have hlt := hend op hop
    show Takes _ _ (if minimum ≤ op.precedence then _ else _) _ _ _
    rw [if_neg (by omega)]
    exact .pure n

/-- Entered at an operator, which is not the end: if the level is refused there are at least two
tokens. -/
theorem operations_takes {minimum : Nat} {op : Operation} {first right n : Node} {t : Token}
    {mid : List Token} (hop : t.lexeme.binary? = some op) (hmin : minimum ≤ op.precedence)
    (hright : ∀ left, Taken source limit left i [right] mid (.expression (op.precedence + 1)))
    (hmore : ∀ left, Taken source limit left mid [n] o
      (.operations minimum (.above source .expression [first, .ofToken source t, right]))) :
    Taken source limit left (t :: i) [n] o (.operations minimum first) := by
  have hne : t.lexeme ≠ .eof := by
    rintro h
    simp [h, Lexeme.binary?] at hop
  refine Takes.peek_bind ?_
  rw [hop]
  show Takes _ _ (if minimum ≤ op.precedence then _ else _) _ _ _
  rw [if_pos hmin]
  have hsuffix : o <:+ t :: i :=
    ((hmore 0).1.trans (hright 0).1).trans (List.suffix_cons ..)
  refine enter_takes hsuffix (fun hzero hends => ?_) fun l hl => ?_
  -- the operator is not the last token
  · have hone := hends.one_lt_length hne
    omega
  · rw [hl]
    refine Takes.bump_bind hne ?_
    refine Takes.bind (hright l) ?_
    exact Takes.bind (.node_cons ..) (hmore l)

/-- A sign and what it stands before are two tokens, and the end is a third one. An operand that is
cut needs as many. -/
theorem negation_takes {inner : Node} {t : Token} (hsign : t.lexeme = .symbol .bang)
    (hhead : AtCursor (·.startsExpression) i)
    (hinner : ∀ left, Taken source limit left i [inner] o .operand) :
    Taken source limit left (t :: i) [.above source .expression [.ofToken source t, inner]] o
      .operand := by
  refine Takes.peek_bind ?_
  rw [if_pos hsign]
  have hsuffix : o <:+ t :: i := (hinner 0).1.trans (List.suffix_cons ..)
  refine enter_takes hsuffix (fun hzero hends => ?_) fun l hl => ?_
  · obtain ⟨u, us, rfl, hu⟩ := hhead
    have hone := (hends.tail (by simp [hsign])).one_lt_length
      (Lexeme.ne_of_startsExpression hu rfl)
    rw [List.length_cons]
    omega
  · rw [hl]
    refine Takes.bump_bind (by simp [hsign]) ?_
    exact Takes.bind (hinner l) (.node_cons ..)

/-- The primary has taken a token, so the calls may be cut with one token less. -/
theorem operand_takes {mid : List Token} {p n : Node}
    (hbang : AtCursor (· ≠ .symbol .bang) i) (hlt : mid.length < i.length)
    (hprimary : Taken source limit left i [p] mid .primary)
    (hmore : Taken source limit left mid [n] o (.calls p)) :
    Taken source limit left i [n] o .operand := by
  obtain ⟨t, ts, rfl, ht⟩ := hbang
  refine Takes.peek_bind ?_
  rw [if_neg ht]
  exact Takes.bind_of_lt hprimary hlt hmore

theorem calls_stop {callee : Node} {t : Token} (hend : t.lexeme ≠ .symbol .leftParen) :
    Taken source limit left (t :: o) [callee] (t :: o) (.calls callee) := by
  refine Takes.peek_bind ?_
  rw [if_neg hend]
  exact .pure callee

/-- The arguments and the calls behind them are one level deeper. The node of the arguments is
placed at the token that closes them, as in `Node.callOf`. -/
theorem calls_takes {callee n : Node} {t₀ t₁ : Token} {mid : List Token} {values : List Node}
    (hopen : t₀.lexeme = .symbol .leftParen)
    (hvalues : ∀ left,
      Taken source limit left i values (t₁ :: mid) (.expressionsUnless .rightParen))
    (hclose : t₁.lexeme = .symbol .rightParen)
    (hmore : ∀ left, Taken source limit left mid [n] o
      (.calls (.callOf source callee t₀ values t₁))) :
    Taken source limit left (t₀ :: i) [n] o (.calls callee) := by
  refine Takes.peek_bind ?_
  rw [if_pos hopen]
  have hsuffix : o <:+ t₀ :: i :=
    (((hmore 0).1.trans (List.suffix_cons ..)).trans (hvalues 0 rfl).1).trans
      (List.suffix_cons ..)
  refine enter_takes hsuffix (fun hzero hends => ?_) fun l hl => ?_
  -- the parenthesis is not the last token
  · have hone := hends.one_lt_length (by simp [hopen])
    omega
  · rw [hl]
    refine Takes.bump_bind (by simp [hopen]) ?_
    refine Takes.bind (hvalues l rfl) ?_
    refine Takes.bind (.node ..) ?_
    refine Takes.mono (Takes.expect_bind hclose ?_) (Nat.le_succ (l + 1))
    exact Takes.bind (.node_cons ..) (hmore l)

theorem expressionsUnless_stop {closing : Symbol} {t : Token}
    (hclose : t.lexeme = .symbol closing) :
    Taken source limit left (t :: o) [] (t :: o) (.expressionsUnless closing) := by
  intro _
  refine Takes.peek_bind ?_
  rw [if_pos hclose]
  exact .pure []

/-- What starts an expression does not close the list, so its items are looked for. -/
theorem expressionsUnless_takes {closing : Symbol} {ns : List Node}
    (hhead : AtCursor (·.startsExpression) i)
    (hsome : Taken source limit left i ns o .expressions) :
    Taken source limit left i ns o (.expressionsUnless closing) := by
  intro hclosing
  obtain ⟨t, ts, rfl, ht⟩ := hhead
  refine Takes.peek_bind ?_
  rw [if_neg (Lexeme.ne_of_startsExpression ht hclosing)]
  exact TakesSeparated.takes hsome

theorem wrapPrimary_takes {level : Level} {k : Nat} (n : Node) :
    Takes limit k (wrapPrimary level n) i (.primaryOf level.source n) i :=
  Takes.bind (.node_cons ..) (.node_cons ..)

/-- A literal is taken without entering a level. -/
theorem literal_takes {t : Token} (hliteral : t.lexeme.isLiteral) :
    Taken source limit left (t :: o) [.primaryOf source (.ofToken source t)] o .primary := by
  have hbump : Takes limit (left + 2)
      (bump source >>= wrapPrimary (levelAt source limit left)) (t :: o)
      (.primaryOf source (.ofToken source t)) o := by
    refine Takes.bind (.bump ?_) (wrapPrimary_takes _)
    exact Lexeme.ne_of_startsExpression (Lexeme.startsExpression_of_isLiteral hliteral) rfl
  obtain ⟨l, span⟩ := t
  refine Takes.peek_bind ?_
  cases l with
  | integer _ | float _ | string _ => exact hbump
  | keyword word =>
    cases word with
    | trueWord | falseWord => exact hbump
    | _ => simp [Lexeme.isLiteral] at hliteral
  | symbol _ | ident _ | eof => simp [Lexeme.isLiteral] at hliteral

/-- Without an arrow behind it a name is a primary of its own. -/
theorem name_takes {t₀ t₁ : Token} {x : String} (hname : t₀.lexeme = .ident x)
    (hend : t₁.lexeme ≠ .symbol .arrow) :
    Taken source limit left (t₀ :: t₁ :: o) [.primaryOf source (.ofToken source t₀)] (t₁ :: o)
      .primary := by
  refine Takes.peek_bind ?_
  rw [hname]
  refine Takes.peekSecond_bind ?_
  rw [if_neg hend]
  exact Takes.bind (.bump (by simp [hname])) (wrapPrimary_takes _)

theorem array_takes {t₀ t₁ : Token} {values : List Node}
    (hopen : t₀.lexeme = .symbol .leftBracket)
    (hvalues : Taken source limit left i values (t₁ :: o) (.expressionsUnless .rightBracket))
    (hclose : t₁.lexeme = .symbol .rightBracket) :
    Taken source limit left (t₀ :: i)
      [.primaryOf source
        (.above source .array (.ofToken source t₀ :: values ++ [.ofToken source t₁]))] o
      .primary := by
  refine Takes.peek_bind ?_
  rw [hopen]
  have harray : Takes limit (left + 2) (array (levelAt source limit left)) (t₀ :: i)
      (.above source .array (.ofToken source t₀ :: values ++ [.ofToken source t₁])) o := by
    refine Takes.bump_bind (by simp [hopen]) ?_
    refine Takes.bind (hvalues rfl) ?_
    refine Takes.mono (Takes.expect_bind hclose ?_) (Nat.le_succ (left + 1))
    exact .node_cons ..
  exact Takes.bind harray (wrapPrimary_takes _)

/-- The tokens behind the cursor decide between a lambda and an expression in parentheses. -/
theorem primary_takes_paren {t : Token} {n : Node} (hopen : t.lexeme = .symbol .leftParen)
    (h : Takes limit (left + 2)
      (if opensLambda i then parenthesizedLambda (levelAt source limit left)
        else group (levelAt source limit left)) (t :: i) n o) :
    Taken source limit left (t :: i) [n] o .primary := by
  refine Takes.peek_bind ?_
  rw [hopen]
  refine Takes.get_bind (fun s hs => ?_) h.1
  rw [show s.ahead = i from (List.cons.inj hs).2]
  exact h

/-- The value of `opensLambda` is the one that `primary_takes_paren` asks for. -/
theorem group_takes {t₀ t₁ : Token} {inner : Node} (hopen : t₀.lexeme = .symbol .leftParen)
    (hahead : opensLambda i = false)
    (hinner : Taken source limit left i [inner] (t₁ :: o) (.expression 0))
    (hclose : t₁.lexeme = .symbol .rightParen) :
    Taken source limit left (t₀ :: i)
      [.above source .expression [.ofToken source t₀, inner, .ofToken source t₁]] o .primary := by
  refine primary_takes_paren hopen ?_
  rw [hahead]
  refine Takes.bump_bind (by simp [hopen]) ?_
  refine Takes.bind hinner ?_
  refine Takes.mono (Takes.expect_bind hclose ?_) (Nat.le_succ (left + 1))
  exact .node_cons ..

theorem nameLambda_takes {t₀ t₁ : Token} {x : String} {n : Node} (hname : t₀.lexeme = .ident x)
    (hsign : t₁.lexeme = .symbol .arrow)
    (hbody : Taken source limit left (t₁ :: i) [n] o
      (.lambda [.above source .parameters [.ofToken source t₀]])) :
    Taken source limit left (t₀ :: t₁ :: i) [n] o .primary := by
  refine Takes.peek_bind ?_
  rw [hname]
  refine Takes.peekSecond_bind ?_
  rw [if_pos hsign]
  refine Takes.bump_bind (by simp [hname]) ?_
  exact Takes.bind (.node_cons ..) hbody

theorem parenthesizedLambda_takes {t₀ t₁ : Token} {mid : List Token} {ps : List Node} {n : Node}
    (hopen : t₀.lexeme = .symbol .leftParen) (hahead : opensLambda i = true)
    (hparams : ReadsParameters source i ps (t₁ :: mid))
    (hclose : t₁.lexeme = .symbol .rightParen)
    (hbody : Taken source limit left mid [n] o
      (.lambda (.ofToken source t₀ :: ps ++ [.ofToken source t₁]))) :
    Taken source limit left (t₀ :: i) [n] o .primary := by
  refine primary_takes_paren hopen ?_
  rw [hahead]
  refine Takes.bump_bind (by simp [hopen]) ?_
  refine Takes.bind (parametersUnlessClosed_takes hparams) ?_
  exact Takes.mono (Takes.expect_bind hclose hbody) (Nat.le_succ (left + 1))

/-- The body of a lambda is a block if a brace follows, and an expression otherwise. The lambda is
built in the same way over both (`hnode`). -/
theorem lambda_takes {head : List Node} {t : Token} {b : Node} (hsign : t.lexeme = .symbol .arrow)
    (hbody : AtCursor (· = .symbol .leftBrace) i ∧ Taken source limit left i [b] o .block ∨
      AtCursor (· ≠ .symbol .leftBrace) i ∧ Taken source limit left i [b] o (.expression 0)) :
    Taken source limit left (t :: i)
      [.primaryOf source (.above source .lambda (head ++ [.ofToken source t, b]))] o
      (.lambda head) := by
  have hnode : Takes limit (left + 1)
      (node source .lambda (head ++ [.ofToken source t] ++ [b])
        >>= wrapPrimary (levelAt source limit left)) o
      (.primaryOf source (.above source .lambda (head ++ [.ofToken source t, b]))) o := by
    rw [List.append_assoc]
    refine Takes.bind ?_ (wrapPrimary_takes _)
    cases head with
    | nil => exact .node_cons ..
    | cons n ns => exact .node_cons ..
  refine Takes.mono (Takes.expect_bind hsign ?_) (Nat.le_succ (left + 1))
  rcases hbody with ⟨⟨u, us, rfl, hu⟩, hblock⟩ | ⟨⟨u, us, rfl, hu⟩, hvalue⟩
  · refine Takes.peek_bind ?_
    rw [if_pos hu]
    exact Takes.bind hblock hnode
  · refine Takes.peek_bind ?_
    rw [if_neg hu]
    exact Takes.bind hvalue hnode

end Rules

theorem atCursor_of_reads {source : String} {rule : Rule} {i o : List Token}
    {ns : List Node} (h : Reads source rule i ns o) : AtCursor (rule.starts ·) i := h.head

theorem atCursor_keyword {t : Token} {ts : List Token} {word : Keyword}
    (ht : t.lexeme = .keyword word) : AtCursor (· ≠ .eof) (t :: ts) :=
  ⟨t, ts, rfl, by simp [ht]⟩

/-- What a rule reads its routine takes, or it is cut at the nesting limit. One case for each rule
of `Reads`; the lexemes a rule names are those its routine looks at. -/
theorem taken_of_reads {source : String} {limit : Nat} {rule : Rule} {i o : List Token}
    {ns : List Node} (h : Reads source rule i ns o) (left : Nat) :
    Taken source limit left i ns o rule := by
  induction h generalizing left with
  | stop _ => exact statements_stop
  | next hfirst hothers ih₁ ih₂ =>
    exact statements_next hfirst.head (hfirst.length_lt rfl) (ih₁ left) (ih₂ left)
  | block hopen _ hclose ih => exact block_takes hopen (ih left) hclose
  | declare hword hname hend =>
    refine taken_statement (.declare hword hname hend) (fun left => Takes.peek_bind ?_) left
    rw [hword]
    exact Takes.bind (terminated_takes (declaration_takes hword hname (by simp [hend])) hend)
      (.node_cons ..)
  | declareValue hword hname hsign hvalue hend ih =>
    refine taken_statement (.declareValue hword hname hsign hvalue hend)
      (fun left => Takes.peek_bind ?_) left
    rw [hword]
    exact Takes.bind (terminated_takes (declaration_takes_value hword hname hsign (ih left)) hend)
      (.node_cons ..)
  | assign hname hsign hvalue hend ih =>
    refine taken_statement (.assign hname hsign hvalue hend) (fun left => Takes.peek_bind ?_) left
    rw [hname]
    refine Takes.peekSecond_bind ?_
    rw [if_pos hsign]
    exact Takes.bind (terminated_takes (assignment_takes hname hsign (ih left)) hend)
      (.node_cons ..)
  | functionValue hword hname hopen hparams hclose hsign hvalue hend ih =>
    refine taken_statement (.functionValue hword hname hopen hparams hclose hsign hvalue hend)
      (fun left => Takes.peek_bind ?_) left
    rw [hword]
    exact Takes.bind (function_takes hword hname hopen hparams hclose
      (functionBody_takes_value hsign (ih left) hend)) (.node_cons ..)
  | functionBlock hword hname hopen hparams hclose hbody ih =>
    have hhead := (atCursor_of_reads hbody).imp fun _ => beq_iff_eq.mp
    refine taken_statement (.functionBlock hword hname hopen hparams hclose hbody)
      (fun left => Takes.peek_bind ?_) left
    rw [hword]
    exact Takes.bind (function_takes hword hname hopen hparams hclose
      (functionBody_takes_block hhead (ih left))) (.node_cons ..)
  | returnNothing hword hend =>
    refine taken_statement (.returnNothing hword hend) (fun left => Takes.peek_bind ?_) left
    rw [hword]
    exact Takes.bind (terminated_takes (returning_takes hword hend) hend) (.node_cons ..)
  | returnValue hword hvalue hend ih =>
    refine taken_statement (.returnValue hword hvalue hend) (fun left => Takes.peek_bind ?_) left
    rw [hword]
    exact Takes.bind (terminated_takes (returning_takes_value hword hvalue.head (ih left)) hend)
      (.node_cons ..)
  | conditionAndBody hopen _ hclose _ ih₁ ih₂ =>
    exact conditionAndBody_takes hopen (ih₁ left) hclose (ih₂ left)
  | conditional hword hhead hend ih =>
    refine taken_statement (.conditional hword hhead hend) (fun left => Takes.peek_bind ?_) left
    rw [hword]
    exact Takes.bind
      (conditional_takes (ih left (atCursor_keyword hword)) (by cases hhead; simp) hend)
      (.node_cons ..)
  | conditionalElse hword hhead helse hno ih₁ ih₂ =>
    refine taken_statement (.conditionalElse hword hhead helse hno)
      (fun left => Takes.peek_bind ?_) left
    rw [hword]
    exact Takes.bind
      (conditional_takes_else (ih₁ left (atCursor_keyword hword)) (by cases hhead; simp) helse
        (ih₂ left))
      (.node_cons ..)
  | loop hword hhead ih =>
    refine taken_statement (.loop hword hhead) (fun left => Takes.peek_bind ?_) left
    rw [hword]
    exact Takes.bind (loop_takes (ih left (atCursor_keyword hword)) (by cases hhead; simp))
      (.node_cons ..)
  | blockStatement hblock ih =>
    obtain ⟨t, ts, rfl, ht⟩ := hblock.head
    refine taken_statement (.blockStatement hblock) (fun left => Takes.peek_bind ?_) left
    rw [beq_iff_eq.mp ht]
    exact Takes.bind (ih left) (.node_cons ..)
  | expressionStatement hvalue hend ih =>
    have hlt := hvalue.length_lt rfl
    obtain ⟨t, ts, rfl, ht⟩ := hvalue.head
    refine taken_statement (.expressionStatement hvalue hend) (fun left => ?_) left
    refine expressionStatement_takes ht (fun x hx => ?_) (ih left) hend
    -- a name that starts an expression is not the target of an assignment
    cases ts with
    | nil => simp at hlt
    | cons u us => exact ⟨u, us, rfl, hvalue.no_assign hend hx⟩
  | expression hleft hmore ih₁ ih₂ =>
    exact expression_takes hleft.head (hleft.length_lt rfl) ih₁ ih₂
  | operationsEnd hend => exact operations_stop hend
  | operation hop hmin _ _ ih₁ ih₂ => exact operations_takes hop hmin ih₁ ih₂
  | negation hsign hinner ih => exact negation_takes hsign hinner.head ih
  | operand hprimary _ ih₁ ih₂ =>
    obtain ⟨t, ts, rfl, _⟩ := hprimary.head
    exact operand_takes ⟨t, ts, rfl, hprimary.primary_ne_bang⟩ (hprimary.length_lt rfl) (ih₁ left)
      (ih₂ left)
  | callsEnd hend => exact calls_stop hend
  | call hopen _ hclose _ ih₁ ih₂ => exact calls_takes hopen ih₁ hclose ih₂
  | noExpressions hclose => exact expressionsUnless_stop hclose
  | someExpressions hsome ih => exact expressionsUnless_takes hsome.head (ih left)
  | lastExpression hlast hend ih =>
    exact .last (hlast.length_lt rfl) (Takes.bind (ih left) (.pure _)) hend
  | moreExpressions hfirst hcomma _ ih₁ ih₂ =>
    exact .more (hfirst.length_lt rfl) (Takes.bind (ih₁ left) (.pure _)) hcomma (ih₂ left)
  | literal hliteral => exact literal_takes hliteral
  | name hname hend => exact name_takes hname hend
  | array hopen _ hclose ih => exact array_takes hopen (ih left) hclose
  | group hopen hahead _ hclose ih => exact group_takes hopen hahead (ih left) hclose
  | nameLambda hname hsign _ ih => exact nameLambda_takes hname hsign (ih left)
  | parenthesizedLambda hopen hahead hparams hclose _ ih =>
    exact parenthesizedLambda_takes hopen hahead hparams hclose (ih left)
  | lambdaBlock hsign hbody ih =>
    exact lambda_takes hsign (.inl ⟨(atCursor_of_reads hbody).imp fun _ => beq_iff_eq.mp, ih left⟩)
  | lambdaValue hsign hbody ih =>
    refine lambda_takes hsign (.inr ⟨(atCursor_of_reads hbody).imp fun l hl => ?_, ih left⟩)
    exact Lexeme.ne_of_startsExpression hl rfl

/-- A program that has a reading is taken, or the limit is smaller than the number of tokens. The
loop over its statements stops only at the end, which is where the reading ends. -/
theorem program_takes {source : String} {limit : Nat} {i o : List Token} {ns : List Node}
    (h : Reads source .statements i ns o) (heof : AtCursor (· = .eof) o) :
    Takes limit limit (program source limit) i ns o := by
  have hstarts (l : Lexeme) (hl : Rule.statement.starts l) : (l != .eof) = true := by
    have hne : l ≠ .eof := by
      rintro rfl
      exact absurd hl (by decide)
    simp [hne]
  have hstop : AtCursor (fun l => (l != .eof) = false) o := heof.imp fun _ hl => by simp [hl]
  refine Takes.get_bind (fun s hs => ?_) h.suffix
  refine taken_of_reads h limit (· != .eof) s.ahead hstarts hstop ?_
  rw [← hs, State.stream]
  exact Nat.le_refl _

end Parser

end SimpleLang
