import SimpleLang.Proofs.Parser.Stream
import SimpleLang.Proofs.Reading

/-!
# The parser accepts only readings

A run of a parser that reports nothing is a reading of the tokens it has passed. Errors are never
taken back, so a run without errors has none in any of its parts, and the parts put together give
the reading.

* `Sound p R`: whatever `p` does, it only moves on and only adds errors; if it adds none, `R`
  relates the tokens before, the result and the tokens after. `Sound.bind` chains two parsers.
* Each routine of the grammar is sound if the parser one level deeper is (`LevelSound`); by
  induction on the levels `enter_sound` follows, and with it `program_sound`.
-/

namespace SimpleLang

namespace Parser

/-! ## Moves -/

/-- From one state to another the cursor has only moved on, and errors were only added. -/
structure Moves (s s' : State) : Prop where
  suffix : s'.stream <:+ s.stream
  position : s'.position + s'.stream.length = s.position + s.stream.length
  errors : s.errors.size ≤ s'.errors.size

namespace Moves

theorem refl (s : State) : Moves s s := ⟨List.suffix_rfl, rfl, Nat.le_refl _⟩

theorem trans {s s' s'' : State} (h : Moves s s') (h' : Moves s' s'') : Moves s s'' where
  suffix := h'.suffix.trans h.suffix
  position := h'.position.trans h.position
  errors := Nat.le_trans h.errors h'.errors

/-- `State.stream` is never empty, so what the cursor has moved to still ends once. -/
theorem endsOnce {s s' : State} (h : Moves s s') (hs : EndsOnce s.stream) : EndsOnce s'.stream :=
  hs.suffix h.suffix (List.cons_ne_nil _ _)

end Moves

theorem moves_advance (s : State) : Moves s s.advance where
  suffix := s.stream_advance_suffix
  position := s.position_advance
  errors := Nat.le_of_eq (by rw [State.errors_advance])

/-! ## Sound parsers -/

/-- A parser that only moves on and only adds errors. If it adds none, `R` relates the tokens
before, the result, and the tokens after. It stops only with an error. -/
def Sound {α : Type} (p : Parser α) (R : List Token → α → List Token → Prop) : Prop :=
  ∀ s : State, EndsOnce s.stream →
    match p s with
    | .ok a s' => Moves s s' ∧ (s'.errors.size = s.errors.size → R s.stream a s'.stream)
    | .error _ s' => s.errors.size < s'.errors.size

/-- Some run of the parser has the result. `Sound.bind_of_returns` asks the second parser only for
those. -/
def Returns {α : Type} (p : Parser α) (a : α) : Prop := ∃ s t, p s = .ok a t

namespace Sound

variable {α β : Type} {p : Parser α} {f : α → Parser β}
  {R R' : List Token → α → List Token → Prop} {Q : α → List Token → β → List Token → Prop}

/-- A weaker relation will do, and it may use that the tokens end once. -/
theorem mono (h : Sound p R) (hR : ∀ i a o, EndsOnce i → R i a o → R' i a o) : Sound p R' := by
  intro s hs
  have hrun := h s hs
  cases hp : p s with
  | ok a s' =>
    rw [hp] at hrun
    exact ⟨hrun.1, fun he => hR _ _ _ hs (hrun.2 he)⟩
  | error e s' =>
    rw [hp] at hrun
    exact hrun

/-- The tokens after are the end of those before. -/
theorem suffix (h : Sound p R) : Sound p fun i a o => R i a o ∧ o <:+ i := by
  intro s hs
  have hrun := h s hs
  cases hp : p s with
  | ok a s' =>
    rw [hp] at hrun
    exact ⟨hrun.1, fun he => ⟨hrun.2 he, hrun.1.suffix⟩⟩
  | error e s' =>
    rw [hp] at hrun
    exact hrun

/-- One parser after the other: there is a result and a place between them. Of the second parser
only those are asked that go on from a result of the first. -/
theorem bind_of_returns (hp : Sound p R) (hf : ∀ a, Returns p a → Sound (f a) (Q a)) :
    Sound (p >>= f) fun i b o => ∃ a m, R i a m ∧ Q a m b o := by
  intro s hs
  have hfirst := hp s hs
  -- the runs are matched on, so they are unfolded one part at a time
  show match EStateM.bind p f s with
    | .ok b s'' => _
    | .error _ s'' => _
  unfold EStateM.bind
  cases hrun : p s with
  | error e s' =>
    rw [hrun] at hfirst
    exact hfirst
  | ok a s' =>
    rw [hrun] at hfirst
    obtain ⟨hmove, hR⟩ := hfirst
    have hsecond := hf a ⟨s, s', hrun⟩ s' (hmove.endsOnce hs)
    show match f a s' with
      | .ok b s'' => _
      | .error _ s'' => _
    cases hrun' : f a s' with
    | error e s'' =>
      rw [hrun'] at hsecond
      exact Nat.lt_of_le_of_lt hmove.errors hsecond
    | ok b s'' =>
      rw [hrun'] at hsecond
      obtain ⟨hmove', hQ⟩ := hsecond
      refine ⟨hmove.trans hmove', fun he => ?_⟩
      -- no error in all is no error in either part
      have h₁ := hmove.errors
      have h₂ := hmove'.errors
      exact ⟨a, s'.stream, hR (by omega), hQ (by omega)⟩

/-- `Sound.bind_of_returns` where it does not matter which results the first parser has. -/
theorem bind (hp : Sound p R) (hf : ∀ a, Sound (f a) (Q a)) :
    Sound (p >>= f) fun i b o => ∃ a m, R i a m ∧ Q a m b o :=
  hp.bind_of_returns fun a _ => hf a

theorem pure (a : α) : Sound (Pure.pure a) fun i b o => b = a ∧ o = i :=
  fun s _ => ⟨.refl s, fun _ => ⟨rfl, rfl⟩⟩

/-- What follows a look at the state knows the tokens there. -/
theorem get_bind {f : State → Parser β} {T : List Token → β → List Token → Prop}
    (h : ∀ s₀, Sound (f s₀) fun i b o => i = s₀.stream → T i b o) : Sound (get >>= f) T := by
  intro s hs
  have hrun := h s s hs
  rw [show (get >>= f) s = f s s from rfl]
  cases hf : f s s with
  | error e s' =>
    rw [hf] at hrun
    exact hrun
  | ok b s' =>
    rw [hf] at hrun
    exact ⟨hrun.1, fun he => hrun.2 he rfl⟩

/-- What follows a look at the cursor knows the lexeme there. -/
theorem peek_bind {f : Lexeme → Parser β} {T : List Token → β → List Token → Prop}
    (h : ∀ l, Sound (f l) fun i b o => AtCursor (· = l) i → T i b o) :
    Sound (peek >>= f) T := by
  show Sound (get >>= fun s => f s.current.lexeme) T
  refine get_bind fun s => (h s.current.lexeme).mono ?_
  rintro _ b o - hT rfl
  exact hT ⟨s.current, s.ahead, rfl, rfl⟩

/-- What follows a look behind the cursor knows the lexeme there, if there is one. -/
theorem peekSecond_bind {f : Lexeme → Parser β} {T : List Token → β → List Token → Prop}
    (h : ∀ l, Sound (f l) fun i b o => (∀ t u ts, i = t :: u :: ts → u.lexeme = l) → T i b o) :
    Sound (peekSecond >>= f) T := by
  show Sound (get >>= fun s => f (s.ahead.headD s.current).lexeme) T
  refine get_bind fun s => (h (s.ahead.headD s.current).lexeme).mono ?_
  rintro _ b o - hT rfl
  refine hT fun t u ts heq => ?_
  rw [State.stream, List.cons.injEq] at heq
  rw [heq.2, List.headD_cons]

/-- Nothing is claimed of a run that reports an error. -/
theorem report_bind {f : Unit → Parser β} {P : List Token → β → List Token → Prop}
    (e : SyntaxError) (hf : Sound (f ()) P) (T : List Token → β → List Token → Prop) :
    Sound (report e >>= f) T := by
  intro s hs
  -- the parser goes on behind the error, and whatever it does the error stays
  let reported : State := { s with errors := s.errors.push (e.diagnostic s.current.span) }
  have hsize : reported.errors.size = s.errors.size + 1 := Array.size_push ..
  have hrun := hf reported hs
  show match f () reported with
    | .ok b s' => _
    | .error _ s' => _
  cases hf' : f () reported with
  | error e s' =>
    rw [hf'] at hrun
    show s.errors.size < s'.errors.size
    have hrun : reported.errors.size < s'.errors.size := hrun
    omega
  | ok b s' =>
    rw [hf'] at hrun
    have hmove : Moves reported s' := hrun.1
    have herr := hmove.errors
    refine ⟨⟨hmove.suffix, hmove.position, by omega⟩, fun he => ?_⟩
    omega

end Sound

/-! ## Basic steps -/

theorem advance_sound : Sound advance fun _ _ _ => True :=
  fun s _ => ⟨moves_advance s, fun _ => trivial⟩

/-- The token at the cursor becomes a leaf, whatever is known of it, unless it may be the end. -/
theorem bump_sound (source : String) :
    Sound (bump source) fun i n o => ∀ {P : Lexeme → Prop}, AtCursor P i → ¬ P .eof →
      ∃ t, i = t :: o ∧ P t.lexeme ∧ n = .ofToken source t := by
  intro s hs
  refine ⟨moves_advance s, fun _ P hcursor heof => ?_⟩
  obtain ⟨t, ts, heq, ht⟩ := hcursor
  rw [State.stream, List.cons.injEq] at heq
  obtain ⟨rfl, -⟩ := heq
  have hne : s.current.lexeme ≠ .eof := fun h => heof (h ▸ ht)
  refine ⟨s.current, ?_, ht, rfl⟩
  show s.stream = s.current :: s.advance.stream
  rw [stream_advance hs hne, State.stream]

/-- A node without children is empty at the token at the cursor, which the relation has to name. -/
theorem node_sound (source : String) (kind : NodeKind) (children : List Node) :
    Sound (node source kind children) fun i n o =>
      o = i ∧ ∃ t ts, i = t :: ts ∧ n = .above source kind children t.span.start :=
  fun s _ => ⟨.refl s, fun _ => ⟨rfl, s.current, s.ahead, rfl, rfl⟩⟩

/-- With children a node does not depend on the cursor. -/
theorem node_cons_sound (source : String) (kind : NodeKind) (first : Node) (others : List Node) :
    Sound (node source kind (first :: others)) fun i n o =>
      o = i ∧ n = .above source kind (first :: others) :=
  fun s _ => ⟨.refl s, fun _ => ⟨rfl, rfl⟩⟩

/-- If the symbol is missing this is an error, so a run without errors has taken it. -/
theorem expect_sound (source : String) (wanted : Symbol) :
    Sound (expect source wanted) fun i ns o =>
      ∃ t, i = t :: o ∧ t.lexeme = .symbol wanted ∧ ns = [.ofToken source t] := by
  refine Sound.peek_bind fun l => ?_
  split
  next hl =>
    refine ((bump_sound source).bind fun n => .pure [n]).mono ?_
    rintro i ns o - ⟨n, m, hbump, rfl, rfl⟩ hcursor
    obtain ⟨t, rfl, ht, rfl⟩ := hbump hcursor (by simp [hl])
    exact ⟨t, rfl, ht.trans hl, rfl⟩
  next => exact Sound.report_bind _ (.pure []) _

/-- As `expect_sound`, for any name. -/
theorem expectName_sound (source : String) :
    Sound (expectName source) fun i ns o =>
      ∃ t x, i = t :: o ∧ t.lexeme = .ident x ∧ ns = [.ofToken source t] := by
  refine Sound.peek_bind fun l => ?_
  split
  next x =>
    refine ((bump_sound source).bind fun n => .pure [n]).mono ?_
    rintro i ns o - ⟨n, m, hbump, rfl, rfl⟩ hcursor
    obtain ⟨t, rfl, ht, rfl⟩ := hbump hcursor (by simp)
    exact ⟨t, x, rfl, ht, rfl⟩
  next => exact Sound.report_bind _ (.pure []) _

/-! ## Repetition -/

/-- Rounds one after the other while the lexeme at the cursor asks for one. -/
inductive Repeats (more : Lexeme → Bool) (R : List Token → List Node → List Token → Prop) :
    List Token → List Node → List Token → Prop where
  | stop {i : List Token} (hmore : AtCursor (more · = false) i) : Repeats more R i [] i
  | round {i m o : List Token} {ns ms : List Node} (hmore : AtCursor (more · = true) i)
      (hround : R i ns m) (hmoves : Repeats more R m ms o) : Repeats more R i (ns ++ ms) o

/-- The bound on the rounds is never what ends them: it lasts for all the tokens up to the end, and
the end asks for no round. -/
theorem rounds_sound {more : Lexeme → Bool} {round : Parser (List Node)}
    {R : List Token → List Node → List Token → Prop}
    (hround : Sound round fun i ns o => AtCursor (more · = true) i → R i ns o)
    (hlt : ∀ i ns o, R i ns o → o.length < i.length) (heof : more .eof = false)
    (bound : List Token) :
    Sound (rounds more round bound) fun i ns o =>
      i.length ≤ bound.length + 1 → Repeats more R i ns o := by
  induction bound with
  | nil =>
    refine (Sound.pure []).mono ?_
    rintro i ns o hends ⟨rfl, rfl⟩ hlen
    obtain ⟨t, ts, rfl⟩ := List.exists_cons_of_ne_nil hends.ne_nil
    -- the bound is used up, so one token is left, which is the end
    refine .stop ⟨t, ts, rfl, ?_⟩
    have hts : ts = [] := List.eq_nil_of_length_eq_zero (by simpa using hlen)
    subst hts
    rw [show t.lexeme = .eof from hends]
    exact heof
  | cons b bound ih =>
    refine Sound.peek_bind fun l => ?_
    split
    next hl =>
      refine (hround.bind fun ns => ih.bind fun ms => .pure (ns ++ ms)).mono ?_
      rintro i _ o - ⟨ns, m, hR, ms, _, hrest, rfl, rfl⟩ hcursor hlen
      have hmore : AtCursor (more · = true) i := hcursor.imp fun _ h => by rw [h, hl]
      have hm := hlt _ _ _ (hR hmore)
      refine .round hmore (hR hmore) (hrest ?_)
      simp only [List.length_cons] at hlen
      omega
    next hl =>
      refine (Sound.pure []).mono ?_
      rintro i ns o - ⟨rfl, rfl⟩ hcursor -
      exact .stop (hcursor.imp fun _ h => by simpa [h] using hl)

/-- `rounds_sound` with the tokens behind the cursor for the bound, which `repeatWhile` takes. -/
theorem repeatWhile_sound {more : Lexeme → Bool} {round : Parser (List Node)}
    {R : List Token → List Node → List Token → Prop}
    (hround : Sound round fun i ns o => AtCursor (more · = true) i → R i ns o)
    (hlt : ∀ i ns o, R i ns o → o.length < i.length) (heof : more .eof = false) :
    Sound (repeatWhile more round) (Repeats more R) := by
  intro s hs
  have hrun := rounds_sound hround hlt heof s.ahead s hs
  rw [show repeatWhile more round s = rounds more round s.ahead s from rfl]
  cases hr : rounds more round s.ahead s with
  | error e s' =>
    rw [hr] at hrun
    exact hrun
  | ok ns s' =>
    rw [hr] at hrun
    exact ⟨hrun.1, fun he => hrun.2 he (by simp [State.stream])⟩

def BehindComma (source : String) (R : List Token → List Node → List Token → Prop)
    (i : List Token) (ns : List Node) (o : List Token) : Prop :=
  ∃ t ts ms, t.lexeme = .symbol .comma ∧ i = t :: ts ∧ ns = .ofToken source t :: ms ∧ R ts ms o

/-- Items with commas between them: the first one, and rounds of a comma and an item. -/
theorem separated_sound (source : String) {item : Parser (List Node)}
    {R : List Token → List Node → List Token → Prop} (hitem : Sound item R)
    (hlt : ∀ i ns o, R i ns o → o.length < i.length) :
    Sound (separated source item) fun i ns o => ∃ first m others, ns = first ++ others ∧
      R i first m ∧ Repeats (· == .symbol .comma) (BehindComma source R) m others o := by
  have hround : Sound (do let comma ← bump source; return comma :: (← item)) fun i ns o =>
      AtCursor (fun l => (l == .symbol .comma) = true) i → BehindComma source R i ns o := by
    refine ((bump_sound source).bind fun n => hitem.bind fun ns => .pure (n :: ns)).mono ?_
    rintro i _ o - ⟨n, m, hbump, ns, _, hR, rfl, rfl⟩ hcursor
    have hcomma : AtCursor (· = .symbol .comma) i := hcursor.imp fun _ h => by simpa using h
    obtain ⟨t, rfl, ht, rfl⟩ := hbump hcomma (by simp)
    exact ⟨t, m, ns, ht, rfl, rfl, hR⟩
  -- each round takes a comma at least
  have hrounds := repeatWhile_sound hround (fun i ns o h => ?_) (by decide)
  · refine (hitem.bind fun first => hrounds.bind fun others => .pure (first ++ others)).mono ?_
    rintro i _ o - ⟨first, m, hfirst, others, _, hothers, rfl, rfl⟩
    exact ⟨first, m, others, rfl, hfirst, hothers⟩
  · obtain ⟨t, ts, ms, _, rfl, _, hR⟩ := h
    exact Nat.lt_succ_of_lt (hlt _ _ _ hR)

/-- Names with commas between them, by induction on the rounds: each one adds a comma and a name to
`ReadsNames`. -/
theorem readsNames_of_separated {source : String} {i m o : List Token} {first others : List Node}
    {t : Token} {x : String} (hi : i = t :: m) (hname : t.lexeme = .ident x)
    (hfirst : first = [.ofToken source t])
    (hrest : Repeats (· == .symbol .comma) (BehindComma source fun i ns o =>
      ∃ t x, i = t :: o ∧ t.lexeme = .ident x ∧ ns = [.ofToken source t]) m others o) :
    ReadsNames source i (first ++ others) o := by
  subst hi hfirst
  induction hrest generalizing t x with
  | stop hmore =>
    obtain ⟨u, us, rfl, hne⟩ := hmore
    exact .last hname (by simpa using hne)
  | round _ hround _ ih =>
    obtain ⟨u, us, ms, hcomma, rfl, rfl, t', x', rfl, hname', rfl⟩ := hround
    exact .more hname hcomma (ih hname')

/-- The first name is always among the children, so the node does not depend on the cursor. -/
theorem parameters_sound (level : Level) :
    Sound (parameters level) fun i n o =>
      ∃ ns, n = .above level.source .parameters ns ∧ ReadsNames level.source i ns o := by
  have hnames := separated_sound level.source (expectName_sound level.source) (by
    rintro i ns o ⟨t, x, rfl, _, _⟩
    simp)
  refine (hnames.bind fun ns => node_sound level.source .parameters ns).mono ?_
  rintro i n o - ⟨_, m, ⟨first, mid, others, rfl, ⟨t, x, hi, hname, hfirst⟩, hothers⟩, rfl,
    u, us, rfl, rfl⟩
  refine ⟨first ++ others, ?_, readsNames_of_separated hi hname hfirst hothers⟩
  rw [hfirst]
  rfl

theorem parametersUnlessClosed_sound (level : Level) :
    Sound (parametersUnlessClosed level) (ReadsParameters level.source) := by
  refine Sound.peek_bind fun l => ?_
  split
  next hl =>
    refine (Sound.pure []).mono ?_
    rintro i ns o - ⟨rfl, rfl⟩ ⟨t, ts, rfl, ht⟩
    exact .none (ht.trans hl)
  next =>
    refine ((parameters_sound level).bind fun n => .pure [n]).mono ?_
    rintro i _ o - ⟨n, _, ⟨ns, rfl, hnames⟩, rfl, rfl⟩ -
    exact .some hnames

/-! ## Recovery -/

/-- Of the recovery only the moves are known. It runs behind an error, so no relation is asked of
it. -/
theorem skip_sound (bound : List Token) : Sound (skip bound) fun _ _ _ => True := by
  induction bound with
  | nil => exact fun s _ => ⟨.refl s, fun _ => trivial⟩
  | cons b bound ih =>
    refine Sound.peek_bind fun l => ?_
    split
    · exact fun s _ => ⟨.refl s, fun _ _ => trivial⟩
    · exact fun s _ => ⟨.refl s, fun _ _ => trivial⟩
    · exact advance_sound.mono fun _ _ _ _ _ _ => trivial
    · exact (advance_sound.bind fun _ => ih).mono fun _ _ _ _ _ _ => trivial

theorem synchronize_sound : Sound synchronize fun _ _ _ => True := by
  intro s hs
  by_cases hbehind : s.previous = some (.symbol .semicolon) ∨
      s.previous = some (.symbol .rightBrace)
  · rw [show synchronize s = .ok () s by
      show (if _ then _ else _ : Parser Unit) s = _
      rw [if_pos hbehind]
      rfl]
    exact ⟨.refl s, fun _ => trivial⟩
  · rw [show synchronize s = skip s.ahead s by
      show (if _ then _ else _ : Parser Unit) s = _
      rw [if_neg hbehind]]
    exact skip_sound s.ahead s hs

/-! ## The grammar, one level at a time -/

/-- What a nested construct reads. `Nested.operation`, `Nested.negation` and `Nested.call` are
entered only at a certain lexeme, and are asked for a reading only there. -/
def Nested.Reading (source : String) : Nested → List Token → Node → List Token → Prop
  | .statement, i, n, o => Reads source .statement i [n] o
  | .expression minimum, i, n, o => Reads source (.expression minimum) i [n] o
  | .operation minimum op left, i, n, o =>
    AtCursor (fun l => l.binary? = some op) i → minimum ≤ op.precedence →
      Reads source (.operations minimum left) i [n] o
  | .negation, i, n, o => AtCursor (· = .symbol .bang) i → Reads source .operand i [n] o
  | .call callee, i, n, o =>
    AtCursor (· = .symbol .leftParen) i → Reads source (.calls callee) i [n] o

/-- The parser for constructs one level deeper accepts only readings. -/
def LevelSound (level : Level) : Prop :=
  ∀ nested, Sound (level.enter nested) (nested.Reading level.source)

variable {level : Level} (hlevel : LevelSound level)
include hlevel

theorem expression_sound :
    Sound (expression level) fun i n o => Reads level.source (.expression 0) i [n] o :=
  hlevel (.expression 0)

omit hlevel in
/-- Stepping on where a statement took nothing. -/
theorem settle_sound (position : Nat) (n : Node) :
    Sound (do
      if position = (← get).position then
        advance
      return n) fun _ m _ => m = n := by
  refine Sound.get_bind fun s => ?_
  split
  · refine (advance_sound.bind fun _ => .pure n).mono ?_
    rintro i m o - ⟨_, _, _, rfl, _⟩ -
    rfl
  · refine (Sound.pure n).mono ?_
    rintro i m o - ⟨rfl, _⟩ -
    rfl

/-- The guard neither skips nor steps on if no error was reported, because a statement takes at
least one token. -/
theorem guardedStatement_sound :
    Sound (guardedStatement level) fun i n o => Reads level.source .statement i [n] o := by
  intro s hs
  have hrun := hlevel .statement s hs
  cases henter : level.enter .statement s with
  | error e s₁ =>
    rw [show guardedStatement level s = .error e s₁ by
      show EStateM.bind (level.enter .statement) _ s = _
      rw [EStateM.bind, henter]]
    rw [henter] at hrun
    exact hrun
  | ok n s₁ =>
    rw [henter] at hrun
    obtain ⟨hmove, hreads⟩ := hrun
    by_cases hgrew : s.errors.size < s₁.errors.size
    · -- an error was reported, so only the moves matter
      have hrest := (synchronize_sound.bind fun _ => settle_sound s.position n) s₁
        (hmove.endsOnce hs)
      rw [show guardedStatement level s = EStateM.bind synchronize _ s₁ by
        show EStateM.bind (level.enter .statement) _ s = _
        rw [EStateM.bind, henter]
        show (if _ then _ else _ : Parser Node) s₁ = _
        rw [if_pos hgrew]
        rfl]
      cases hfin : EStateM.bind synchronize _ s₁ with
      | error e s₂ =>
        rw [show (synchronize >>= fun _ => _) s₁ = _ from hfin] at hrest
        exact Nat.lt_of_le_of_lt hmove.errors hrest
      | ok m s₂ =>
        rw [show (synchronize >>= fun _ => _) s₁ = _ from hfin] at hrest
        refine ⟨hmove.trans hrest.1, fun he => ?_⟩
        have := hrest.1.errors
        omega
    · have hread := hreads (Nat.le_antisymm (Nat.le_of_not_lt hgrew) hmove.errors)
      -- a statement was read, so the cursor has moved and is not moved again
      have hlt := Reads.length_lt hread rfl
      have hpos : s.position ≠ s₁.position := by
        have := hmove.position
        omega
      rw [guardedStatement_of_enter henter hgrew hpos]
      exact ⟨hmove, fun _ => hread⟩

/-- Guarded statements, as long as the lexeme at the cursor asks for them. -/
theorem guardedStatements_sound (more : Lexeme → Bool) (heof : more .eof = false) :
    Sound (repeatWhile more do return [← guardedStatement level])
      (Repeats more fun i ns o => ∃ n, ns = [n] ∧ Reads level.source .statement i [n] o) := by
  refine repeatWhile_sound ?_ ?_ heof
  · refine ((guardedStatement_sound hlevel).bind fun n => .pure [n]).mono ?_
    rintro i _ o - ⟨n, _, hread, rfl, rfl⟩ -
    exact ⟨n, rfl, hread⟩
  · rintro i _ o ⟨n, rfl, hread⟩
    exact hread.length_lt rfl

omit hlevel in
/-- Where statements end only before a closing brace or at the end, their rounds are a sequence. -/
theorem readsStatements_of_repeats {source : String} {more : Lexeme → Bool}
    (hmore : ∀ l, more l = false → l = .symbol .rightBrace ∨ l = .eof)
    {i o : List Token} {ns : List Node}
    (h : Repeats more (fun i ns o => ∃ n, ns = [n] ∧ Reads source .statement i [n] o) i ns o) :
    Reads source .statements i ns o := by
  induction h with
  | stop hcursor =>
    obtain ⟨t, ts, rfl, ht⟩ := hcursor
    exact .stop (hmore _ ht)
  | round _ hround _ ih =>
    obtain ⟨n, rfl, hread⟩ := hround
    exact .next hread ih

/-- `guardedStatements_sound` stops at a brace or at the end, as `Reads.stop` wants it. -/
theorem block_sound :
    Sound (block level) fun i n o => Reads level.source .block i [n] o := by
  have hbody := guardedStatements_sound hlevel
    (fun l => l != .symbol .rightBrace && l != .eof) (by decide)
  refine ((expect_sound level.source .leftBrace).bind fun opening => hbody.bind fun body =>
    (expect_sound level.source .rightBrace).bind fun closing =>
      node_sound level.source .block (opening ++ body ++ closing)).mono ?_
  rintro i n o - ⟨_, _, ⟨t₀, rfl, hopen, rfl⟩, body, m, hstatements, _, _,
    ⟨t₁, rfl, hclose, rfl⟩, rfl, _, _, rfl, rfl⟩
  have hreads := readsStatements_of_repeats (fun l hl => ?_) hstatements
  · exact .block hopen hreads hclose
  · simpa [Decidable.or_iff_not_imp_left] using hl

/-! ### Statements -/

omit hlevel in
/-- A statement that is a construct and a semicolon. -/
theorem terminated_sound {construct : Parser Node} {R : List Token → Node → List Token → Prop}
    (hconstruct : Sound construct R) :
    Sound (terminated level construct >>= fun parts => node level.source .statement parts)
      fun i n o => ∃ m t, R i m (t :: o) ∧ t.lexeme = .symbol .semicolon ∧
        n = .above level.source .statement [m, .ofToken level.source t] := by
  refine ((hconstruct.bind fun m => (expect_sound level.source .semicolon).bind fun closing =>
    .pure (m :: closing)).bind fun parts => node_sound level.source .statement parts).mono ?_
  rintro i _ o - ⟨_, _, ⟨m, _, hR, _, _, ⟨t, rfl, ht, rfl⟩, rfl, rfl⟩, rfl, u, us, -, rfl⟩
  exact ⟨m, t, hR, ht, rfl⟩

omit hlevel in
/-- A statement that is a construct alone. -/
theorem unterminated_sound {construct : Parser Node} {R : List Token → Node → List Token → Prop}
    (hconstruct : Sound construct R) :
    Sound (do
      let m ← construct
      let parts ← pure [m]
      node level.source .statement parts)
      fun i n o => ∃ m, R i m o ∧ n = .above level.source .statement [m] := by
  refine (hconstruct.bind fun m => (Sound.pure [m]).bind fun parts =>
    node_sound level.source .statement parts).mono ?_
  rintro i _ o - ⟨m, _, hR, _, _, ⟨rfl, rfl⟩, rfl, u, us, -, rfl⟩
  exact ⟨m, hR, rfl⟩

omit hlevel in
def Initializer (source : String) (i : List Token) (value : List Node) (o : List Token) : Prop :=
  value = [] ∧ o = i ∨ ∃ t ts v, i = t :: ts ∧ t.lexeme = .symbol .assign ∧
    value = [.ofToken source t, v] ∧ Reads source (.expression 0) ts [v] o

/-- The two ways to go on behind the name are the two rules `Reads.declare` and
`Reads.declareValue`. -/
theorem declaration_sound :
    Sound (terminated level (declaration level) >>= fun parts => node level.source .statement parts)
      fun i n o => AtCursor (· = .keyword .letWord) i →
        Reads level.source .statement i [n] o := by
  refine (terminated_sound ((bump_sound level.source).bind fun word =>
    (expectName_sound level.source).bind fun name => Sound.peek_bind (T := fun i n o =>
      ∃ value, n = .above level.source .declaration (word :: name ++ value) ∧
        Initializer level.source i value o) fun l => ?_)).mono ?_
  · split
    next hl =>
      refine ((bump_sound level.source).bind fun sign => (expression_sound hlevel).bind
        fun v => (Sound.pure [sign, v]).bind fun value =>
          node_cons_sound level.source .declaration word (name ++ value)).mono ?_
      rintro i n o - ⟨sign, m, hbump, v, _, hv, _, _, ⟨rfl, rfl⟩, rfl, rfl⟩ hcursor
      obtain ⟨t, rfl, ht, rfl⟩ := hbump hcursor (by simp [hl])
      exact ⟨_, rfl, .inr ⟨t, m, v, rfl, ht.trans hl, rfl, hv⟩⟩
    next =>
      refine ((Sound.pure []).bind fun value =>
        node_cons_sound level.source .declaration word (name ++ value)).mono ?_
      rintro i n o - ⟨_, _, ⟨rfl, rfl⟩, rfl, rfl⟩ -
      exact ⟨[], rfl, .inl ⟨rfl, rfl⟩⟩
  -- the word, the name and the value, if there is one, make up the statement
  rintro i _ o - ⟨_, t, ⟨word, m, hbump, _, _, ⟨t₁, x, rfl, hname, rfl⟩, value, rfl, hinit⟩,
    hend, rfl⟩ hcursor
  obtain ⟨t₀, rfl, hword, rfl⟩ := hbump hcursor (by simp)
  rcases hinit with ⟨rfl, rfl⟩ | ⟨t₂, us, v, rfl, hsign, rfl, hv⟩
  · exact .declare hword hname hend
  · exact .declareValue hword hname hsign hv hend

/-- That the second token is an `=` has been looked at before, so it comes as an assumption. -/
theorem assignment_sound :
    Sound (terminated level (assignment level) >>= fun parts => node level.source .statement parts)
      fun i n o => (∃ t₀ x t₁ ts, i = t₀ :: t₁ :: ts ∧ t₀.lexeme = .ident x ∧
        t₁.lexeme = .symbol .assign) → Reads level.source .statement i [n] o := by
  refine (terminated_sound ((bump_sound level.source).bind fun name =>
    (bump_sound level.source).bind fun sign => (expression_sound hlevel).bind fun value =>
      node_cons_sound level.source .assignment name [sign, value])).mono ?_
  rintro i _ o - ⟨n, t, ⟨name, _, hname, sign, _, hsign, v, _, hvalue, ⟨⟩, rfl⟩, hend, rfl⟩
    ⟨t₀, x, t₁, ts, rfl, ht₀, ht₁⟩
  obtain ⟨_, ⟨⟩, -, rfl⟩ := hname (P := (· = .ident x)) ⟨t₀, t₁ :: ts, rfl, ht₀⟩ (by simp)
  obtain ⟨_, ⟨⟩, -, rfl⟩ := hsign (P := (· = .symbol .assign)) ⟨t₁, ts, rfl, ht₁⟩ (by simp)
  exact .assign ht₀ ht₁ hvalue hend

def FunctionBody (source : String) (i : List Token) (body : List Node × Bool) (o : List Token) :
    Prop :=
  (∃ t₀ ts v t₁, i = t₀ :: ts ∧ t₀.lexeme = .symbol .arrow ∧
    Reads source (.expression 0) ts [v] (t₁ :: o) ∧ t₁.lexeme = .symbol .semicolon ∧
    body = ([.ofToken source t₀, v, .ofToken source t₁], true)) ∨
  ∃ b, Reads source .block i [b] o ∧ body = ([b], false)

/-- With neither an arrow nor a block there is an error, of which nothing is asked. -/
theorem functionBody_sound : Sound (functionBody level) (FunctionBody level.source) := by
  refine Sound.peek_bind fun l => ?_
  split
  next =>
    refine ((bump_sound level.source).bind fun sign => (expression_sound hlevel).bind fun v =>
      (expect_sound level.source .semicolon).bind fun closing =>
        .pure (sign :: v :: closing, true)).mono ?_
    rintro i _ o - ⟨sign, m, hbump, v, _, hv, _, _, ⟨t₁, rfl, hend, rfl⟩, rfl, rfl⟩ hcursor
    obtain ⟨t₀, rfl, ht, rfl⟩ := hbump hcursor (by simp)
    exact .inl ⟨t₀, m, v, t₁, rfl, ht, hv, hend, rfl⟩
  next =>
    refine ((block_sound hlevel).bind fun b => .pure ([b], false)).mono ?_
    rintro i _ o - ⟨b, _, hb, rfl, rfl⟩ -
    exact .inr ⟨b, hb, rfl⟩
  next => exact Sound.report_bind _ (.pure ([], false)) _

/-- A function is built first and marked with its arrow afterwards (`hresult`). -/
theorem function_sound :
    Sound (function level) fun i n o => AtCursor (· = .keyword .fnWord) i →
      Reads level.source .statement i [.above level.source .statement [n]] o := by
  have hresult (word : Node) (parts body : List Node) (arrow : Bool) :
      Sound (do
        let result ← node level.source .function (word :: parts ++ body)
        return { result with arrow }) fun i n o =>
        o = i ∧ n = .functionOf level.source arrow (word :: parts ++ body) := by
    refine ((node_cons_sound level.source .function word (parts ++ body)).bind fun result =>
      .pure { result with arrow }).mono ?_
    rintro i _ o - ⟨_, _, ⟨rfl, rfl⟩, rfl, rfl⟩
    exact ⟨rfl, rfl⟩
  refine ((bump_sound level.source).bind fun word => (expectName_sound level.source).bind
    fun name => (expect_sound level.source .leftParen).bind fun opening =>
      (parametersUnlessClosed_sound level).bind fun names =>
        (expect_sound level.source .rightParen).bind fun closing =>
          (functionBody_sound hlevel).bind (Q := fun body i n o => o = i ∧
            n = .functionOf level.source body.2
              (word :: (name ++ opening ++ names ++ closing) ++ body.1))
            fun (body, arrow) => hresult word (name ++ opening ++ names ++ closing) body arrow).mono
    ?_
  rintro i _ o - ⟨word, _, hbump, _, _, ⟨t₁, x, rfl, hname, rfl⟩, _, _, ⟨t₂, rfl, hopen, rfl⟩,
    names, _, hparams, _, _, ⟨t₃, rfl, hclose, rfl⟩, body, _, hbody, rfl, rfl⟩ hcursor
  obtain ⟨t₀, rfl, hword, rfl⟩ := hbump hcursor (by simp)
  -- the body is a value or a block, each with a rule of its own
  rcases hbody with ⟨t₄, us, v, t₅, rfl, hsign, hv, hend, rfl⟩ | ⟨b, hb, rfl⟩
  · simpa using Reads.functionValue hword hname hopen hparams hclose hsign hv hend
  · simpa using Reads.functionBlock hword hname hopen hparams hclose hb

/-- Whether there is a value is decided by the `;`. -/
theorem returning_sound :
    Sound (terminated level (returning level) >>= fun parts => node level.source .statement parts)
      fun i n o => AtCursor (· = .keyword .returnWord) i →
        Reads level.source .statement i [n] o := by
  refine (terminated_sound ((bump_sound level.source).bind fun word =>
    Sound.peek_bind (T := fun i n o => ∃ value,
      n = .above level.source .returning (word :: value) ∧
        (value = [] ∧ o = i ∨ ∃ v, value = [v] ∧ Reads level.source (.expression 0) i [v] o))
      fun l => ?_)).mono ?_
  · split
    next =>
      refine ((Sound.pure []).bind fun value =>
        node_cons_sound level.source .returning word value).mono ?_
      rintro i n o - ⟨_, _, ⟨rfl, rfl⟩, rfl, rfl⟩ -
      exact ⟨[], rfl, .inl ⟨rfl, rfl⟩⟩
    next =>
      refine ((expression_sound hlevel).bind fun v => (Sound.pure [v]).bind fun value =>
        node_cons_sound level.source .returning word value).mono ?_
      rintro i n o - ⟨v, _, hv, _, _, ⟨rfl, rfl⟩, rfl, rfl⟩ -
      exact ⟨[v], rfl, .inr ⟨v, rfl, hv⟩⟩
  -- the word and the value, if there is one, make up the statement
  rintro i _ o - ⟨n, t, ⟨word, m, hbump, value, rfl, hvalue⟩, hend, rfl⟩ hcursor
  obtain ⟨t₀, rfl, hword, rfl⟩ := hbump hcursor (by simp)
  rcases hvalue with ⟨rfl, rfl⟩ | ⟨v, rfl, hv⟩
  · exact .returnNothing hword hend
  · exact .returnValue hword hv hend

/-- The word is an `if` or a `while`, which the callers know, and all that matters here is that it
is not the end. -/
theorem conditionAndBody_sound :
    Sound (conditionAndBody level) fun i parts o => AtCursor (· ≠ .eof) i →
      Reads level.source .conditionAndBody i parts o := by
  refine ((bump_sound level.source).bind fun word => (expect_sound level.source .leftParen).bind
    fun opening => (expression_sound hlevel).bind fun test =>
      (expect_sound level.source .rightParen).bind fun closing =>
        (hlevel .statement).bind fun body =>
          .pure (word :: opening ++ test :: closing ++ [body])).mono ?_
  rintro i _ o - ⟨word, _, hbump, _, _, ⟨t₁, rfl, hopen, rfl⟩, test, _, htest, _, _,
    ⟨t₂, rfl, hclose, rfl⟩, body, _, hbody, rfl, rfl⟩ hcursor
  obtain ⟨t₀, rfl, -, rfl⟩ := hbump hcursor (by simp)
  exact .conditionAndBody hopen htest hclose hbody

def Otherwise (source : String) (i : List Token) (branch : List Node) (o : List Token) : Prop :=
  branch = [] ∧ o = i ∧ AtCursor (· ≠ .keyword .elseWord) i ∨
    ∃ t ts no, i = t :: ts ∧ t.lexeme = .keyword .elseWord ∧ branch = [.ofToken source t, no] ∧
      Reads source .statement ts [no] o

/-- `Reads.conditional` asks that no `else` follows, so `Otherwise` keeps what was looked at. -/
theorem conditional_sound :
    Sound (conditional level) fun i n o => AtCursor (· = .keyword .ifWord) i →
      Reads level.source .statement i [.above level.source .statement [n]] o := by
  refine ((conditionAndBody_sound hlevel).bind fun head => Sound.peek_bind (T := fun i n o =>
    ∃ branch offset, n = .above level.source .conditional (head ++ branch) offset ∧
      Otherwise level.source i branch o) fun l => ?_).mono ?_
  · split
    next hl =>
      refine ((bump_sound level.source).bind fun word => (hlevel .statement).bind fun no =>
        (Sound.pure [word, no]).bind fun branch =>
          node_sound level.source .conditional (head ++ branch)).mono ?_
      rintro i n o - ⟨word, m, hbump, no, _, hno, _, _, ⟨rfl, rfl⟩, rfl, u, us, -, rfl⟩ hcursor
      obtain ⟨t, rfl, ht, rfl⟩ := hbump hcursor (by simp [hl])
      exact ⟨_, _, rfl, .inr ⟨t, m, no, rfl, ht.trans hl, rfl, hno⟩⟩
    next hl =>
      refine ((Sound.pure []).bind fun branch =>
        node_sound level.source .conditional (head ++ branch)).mono ?_
      rintro i n o - ⟨_, _, ⟨rfl, rfl⟩, rfl, u, us, -, rfl⟩ hcursor
      exact ⟨[], _, rfl, .inl ⟨rfl, rfl, hcursor.imp fun _ h => by simpa [h] using hl⟩⟩
  rintro i _ o - ⟨head, m, hhead, branch, offset, rfl, hbranch⟩ ⟨t₀, ts, rfl, hword⟩
  have hhead := hhead ⟨t₀, ts, rfl, by simp [hword]⟩
  -- the head has children, so the offset does not matter
  have hoffset : Node.above level.source .conditional (head ++ branch) offset
      = .above level.source .conditional (head ++ branch) := by
    cases hhead
    rfl
  rw [hoffset]
  rcases hbranch with ⟨rfl, rfl, t₁, us, rfl, hend⟩ | ⟨t₁, us, no, rfl, helse, rfl, hno⟩
  · rw [List.append_nil]
    exact .conditional hword hhead hend
  · exact .conditionalElse hword hhead helse hno

/-- The parts are never empty, so the node does not depend on the cursor. -/
theorem loop_sound :
    Sound (loop level) fun i n o => AtCursor (· = .keyword .whileWord) i →
      Reads level.source .statement i [.above level.source .statement [n]] o := by
  refine ((conditionAndBody_sound hlevel).bind fun parts =>
    node_sound level.source .loop parts).mono ?_
  rintro i _ o - ⟨parts, m, hhead, rfl, u, us, -, rfl⟩ ⟨t₀, ts, rfl, hword⟩
  have hhead := hhead ⟨t₀, ts, rfl, by simp [hword]⟩
  have hoffset : Node.above level.source .loop parts u.span.start
      = .above level.source .loop parts := by
    cases hhead
    rfl
  rw [hoffset]
  exact .loop hword hhead

theorem expressionStatement_sound :
    Sound (terminated level (expression level) >>= fun parts => node level.source .statement parts)
      fun i n o => Reads level.source .statement i [n] o := by
  refine (terminated_sound (expression_sound hlevel)).mono ?_
  rintro i _ o - ⟨v, t, hv, hend, rfl⟩
  exact .expressionStatement hv hend

/-- The lexeme at the cursor selects the routine and, behind `AtCursor`, the rule. -/
theorem statement_sound :
    Sound (statement level) fun i n o => Reads level.source .statement i [n] o := by
  refine Sound.peek_bind fun l => ?_
  split
  next => exact declaration_sound hlevel
  next =>
    refine (unterminated_sound (function_sound hlevel)).mono ?_
    rintro i _ o - ⟨m, hR, rfl⟩ hcursor
    exact hR hcursor
  next => exact returning_sound hlevel
  next =>
    refine (unterminated_sound (conditional_sound hlevel)).mono ?_
    rintro i _ o - ⟨m, hR, rfl⟩ hcursor
    exact hR hcursor
  next =>
    refine (unterminated_sound (loop_sound hlevel)).mono ?_
    rintro i _ o - ⟨m, hR, rfl⟩ hcursor
    exact hR hcursor
  next =>
    refine (unterminated_sound (block_sound hlevel)).mono ?_
    rintro i _ o - ⟨m, hR, rfl⟩ -
    exact .blockStatement hR
  next x =>
    refine Sound.peekSecond_bind fun second => ?_
    split
    next hsecond =>
      refine (assignment_sound hlevel).mono ?_
      rintro i n o hends hR hsecond' ⟨t₀, ts, rfl, hname⟩
      -- behind a name there is another token, which is the one that was looked at
      obtain ⟨t₁, us, rfl⟩ := hends.exists_second (by simp [hname])
      exact hR ⟨t₀, x, t₁, us, rfl, hname, (hsecond' t₀ t₁ us rfl).trans hsecond⟩
    next => exact (expressionStatement_sound hlevel).mono fun i n o _ hR _ _ => hR
  next => exact (expressionStatement_sound hlevel).mono fun i n o _ hR _ => hR

/-! ### Expressions -/

omit hlevel in
theorem wrapPrimary_sound (inner : Node) :
    Sound (wrapPrimary level inner) fun i n o =>
      o = i ∧ n = .primaryOf level.source inner := by
  refine ((node_cons_sound level.source .primary inner []).bind fun p =>
    node_cons_sound level.source .expression p []).mono ?_
  rintro i _ o - ⟨_, _, ⟨rfl, rfl⟩, rfl, rfl⟩
  exact ⟨rfl, rfl⟩

/-- Both kinds of body are put under the same node (`hlambda`). -/
theorem lambdaBody_sound (head : List Node) :
    Sound (lambdaBody level head) fun i n o => Reads level.source (.lambda head) i [n] o := by
  refine ((expect_sound level.source .arrow).bind fun sign => Sound.peek_bind (T := fun i n o =>
    ∃ b offset, n = .primaryOf level.source
        (.above level.source .lambda (head ++ sign ++ [b]) offset) ∧
      (Reads level.source .block i [b] o ∨ Reads level.source (.expression 0) i [b] o))
    fun l => ?_).mono ?_
  · have hlambda (b : Node) : Sound (do
        let lambda ← node level.source .lambda (head ++ sign ++ [b])
        wrapPrimary level lambda) fun i n o => o = i ∧ ∃ offset, n = .primaryOf level.source
          (.above level.source .lambda (head ++ sign ++ [b]) offset) := by
      refine ((node_sound level.source .lambda (head ++ sign ++ [b])).bind fun lambda =>
        wrapPrimary_sound lambda).mono ?_
      rintro i _ o - ⟨_, _, ⟨rfl, u, us, -, rfl⟩, rfl, rfl⟩
      exact ⟨rfl, _, rfl⟩
    split
    next =>
      refine ((block_sound hlevel).bind fun b => hlambda b).mono ?_
      rintro i _ o - ⟨b, _, hb, rfl, offset, rfl⟩ -
      exact ⟨b, offset, rfl, .inl hb⟩
    next =>
      refine ((expression_sound hlevel).bind fun b => hlambda b).mono ?_
      rintro i _ o - ⟨b, _, hb, rfl, offset, rfl⟩ -
      exact ⟨b, offset, rfl, .inr hb⟩
  rintro i _ o - ⟨_, m, ⟨t, rfl, hsign, rfl⟩, b, offset, rfl, hb⟩
  -- with the arrow among its children the lambda does not depend on the offset either
  have hoffset : Node.above level.source .lambda (head ++ [.ofToken level.source t] ++ [b]) offset
      = .above level.source .lambda (head ++ [.ofToken level.source t, b]) := by
    rw [List.append_assoc]
    cases head <;> rfl
  rw [hoffset]
  rcases hb with hb | hb
  · exact .lambdaBlock hsign hb
  · exact .lambdaValue hsign hb

omit hlevel in
/-- Expressions with commas between them, by induction on the rounds as in
`readsNames_of_separated`. -/
theorem readsExpressions_of_separated {source : String} {i m o : List Token} {n : Node}
    {others : List Node} (hfirst : Reads source (.expression 0) i [n] m)
    (hrest : Repeats (· == .symbol .comma) (BehindComma source fun i ns o =>
      ∃ n, ns = [n] ∧ Reads source (.expression 0) i [n] o) m others o) :
    Reads source .expressions i (n :: others) o := by
  induction hrest generalizing i n with
  | stop hmore =>
    obtain ⟨t, ts, rfl, ht⟩ := hmore
    exact .lastExpression hfirst (by simpa using ht)
  | round _ hround _ ih =>
    obtain ⟨t, ts, _, hcomma, rfl, rfl, n', rfl, hnext⟩ := hround
    exact .moreExpressions hfirst hcomma (ih hnext)

theorem expressionsUnless_sound (closing : Symbol) :
    Sound (expressionsUnless level closing) fun i ns o =>
      Reads level.source (.expressionsUnless closing) i ns o := by
  refine Sound.peek_bind fun l => ?_
  split
  next hl =>
    refine (Sound.pure []).mono ?_
    rintro i _ o - ⟨rfl, rfl⟩ ⟨t, ts, rfl, ht⟩
    exact .noExpressions (ht.trans hl)
  next =>
    have hitem : Sound (do return [← expression level]) fun i ns o =>
        ∃ n, ns = [n] ∧ Reads level.source (.expression 0) i [n] o := by
      refine ((expression_sound hlevel).bind fun n => .pure [n]).mono ?_
      rintro i _ o - ⟨n, _, hn, rfl, rfl⟩
      exact ⟨n, rfl, hn⟩
    refine (separated_sound level.source hitem ?_).mono ?_
    · rintro i _ o ⟨n, rfl, hn⟩
      exact hn.length_lt rfl
    · rintro i _ o - ⟨_, m, others, rfl, ⟨n, rfl, hfirst⟩, hothers⟩ -
      exact .someExpressions (readsExpressions_of_separated hfirst hothers)

theorem array_sound :
    Sound (array level) fun i n o => AtCursor (· = .symbol .leftBracket) i →
      Reads level.source .primary i [.primaryOf level.source n] o := by
  refine ((bump_sound level.source).bind fun opening =>
    (expressionsUnless_sound hlevel .rightBracket).bind fun values =>
      (expect_sound level.source .rightBracket).bind fun closing =>
        node_cons_sound level.source .array opening (values ++ closing)).mono ?_
  rintro i _ o - ⟨opening, m, hbump, values, _, hvalues, _, _, ⟨t₁, rfl, hclose, rfl⟩, rfl, rfl⟩
    hcursor
  obtain ⟨t₀, rfl, hopen, rfl⟩ := hbump hcursor (by simp)
  exact .array hopen hvalues hclose

/-- `Reads.parenthesizedLambda` asks for `opensLambda`, which is what `primary` looks at before it
comes here. -/
theorem parenthesizedLambda_sound :
    Sound (parenthesizedLambda level) fun i n o =>
      (∃ t ts, i = t :: ts ∧ t.lexeme = .symbol .leftParen ∧ opensLambda ts = true) →
        Reads level.source .primary i [n] o := by
  refine ((bump_sound level.source).bind fun opening =>
    (parametersUnlessClosed_sound level).bind fun names =>
      (expect_sound level.source .rightParen).bind fun closing =>
        lambdaBody_sound hlevel (opening :: names ++ closing)).mono ?_
  rintro i n o - ⟨opening, m, hbump, names, _, hparams, _, _, ⟨t₁, rfl, hclose, rfl⟩, hbody⟩
    ⟨t₀, ts, rfl, hopen, hahead⟩
  obtain ⟨_, ⟨⟩, -, rfl⟩ := hbump (P := (· = .symbol .leftParen)) ⟨t₀, ts, rfl, hopen⟩ (by simp)
  exact .parenthesizedLambda hopen hahead hparams hclose hbody

/-- The other answer of `opensLambda`. -/
theorem group_sound :
    Sound (group level) fun i n o =>
      (∃ t ts, i = t :: ts ∧ t.lexeme = .symbol .leftParen ∧ opensLambda ts = false) →
        Reads level.source .primary i [n] o := by
  refine ((bump_sound level.source).bind fun opening => (expression_sound hlevel).bind
    fun inner => (expect_sound level.source .rightParen).bind fun closing =>
      node_cons_sound level.source .expression opening (inner :: closing)).mono ?_
  rintro i n o - ⟨opening, m, hbump, inner, _, hinner, _, _, ⟨t₁, rfl, hclose, rfl⟩, rfl, rfl⟩
    ⟨t₀, ts, rfl, hopen, hahead⟩
  obtain ⟨_, ⟨⟩, -, rfl⟩ := hbump (P := (· = .symbol .leftParen)) ⟨t₀, ts, rfl, hopen⟩ (by simp)
  exact .group hopen hahead hinner hclose

omit hlevel in
/-- An error is reported, so any relation will do. -/
theorem missingExpression_sound (T : List Token → Node → List Token → Prop) :
    Sound (missingExpression level) T := by
  refine (Sound.peek_bind fun l => Sound.report_bind _ (P := fun _ _ _ => True) ?_ _)
  refine ((node_sound level.source .expression []).bind (Q := fun _ _ _ _ => True)
    fun n => ?_).mono fun _ _ _ _ _ => trivial
  split
  · exact (advance_sound.bind fun _ => .pure n).mono fun _ _ _ _ _ => trivial
  · exact (Sound.pure n).mono fun _ _ _ _ _ => trivial

omit hlevel in
theorem literal_sound :
    Sound (bump level.source >>= fun leaf => wrapPrimary level leaf) fun i n o =>
      AtCursor (fun l => l.isLiteral = true) i → Reads level.source .primary i [n] o := by
  refine ((bump_sound level.source).bind fun leaf => wrapPrimary_sound leaf).mono ?_
  rintro i _ o - ⟨leaf, _, hbump, rfl, rfl⟩ hcursor
  obtain ⟨t, rfl, ht, rfl⟩ := hbump hcursor (by simp [Lexeme.isLiteral])
  exact .literal ht

/-- The lexeme at the cursor selects the rule, for a name with the one behind it and for a `(` with
all that follow. -/
theorem primary_sound :
    Sound (primary level) fun i n o => Reads level.source .primary i [n] o := by
  have hliteral (l : Lexeme) (hl : l.isLiteral = true) :
      Sound (bump level.source >>= fun leaf => wrapPrimary level leaf) fun i n o =>
        AtCursor (· = l) i → Reads level.source .primary i [n] o :=
    literal_sound.mono fun i n o _ hR hcursor => hR (hcursor.imp fun _ h => by rw [h, hl])
  refine Sound.peek_bind fun l => ?_
  split
  next => exact hliteral _ rfl
  next => exact hliteral _ rfl
  next => exact hliteral _ rfl
  next => exact hliteral _ rfl
  next => exact hliteral _ rfl
  -- a name is a lambda if an arrow follows it
  next x =>
    refine Sound.peekSecond_bind fun second => ?_
    split
    next hsecond =>
      refine ((bump_sound level.source).bind fun name =>
        (node_cons_sound level.source .parameters name []).bind fun names =>
          lambdaBody_sound hlevel [names]).mono ?_
      rintro i n o hends ⟨name, m, hbump, _, _, ⟨rfl, rfl⟩, hbody⟩ hsecond' hcursor
      obtain ⟨t₀, rfl, hname, rfl⟩ := hbump hcursor (by simp)
      obtain ⟨t₁, us, rfl⟩ := hends.exists_second (by simp [hname])
      exact .nameLambda hname ((hsecond' t₀ t₁ us rfl).trans hsecond) hbody
    next hsecond =>
      refine ((bump_sound level.source).bind fun leaf => wrapPrimary_sound leaf).mono ?_
      rintro i _ o hends ⟨leaf, _, hbump, rfl, rfl⟩ hsecond' hcursor
      obtain ⟨t₀, rfl, hname, rfl⟩ := hbump hcursor (by simp)
      obtain ⟨t₁, us, rfl⟩ := hends.exists_second (by simp [hname])
      exact .name hname fun h => hsecond ((hsecond' t₀ t₁ us rfl).symm.trans h)
  next =>
    refine ((array_sound hlevel).bind fun n => wrapPrimary_sound n).mono ?_
    rintro i _ o - ⟨n, _, hR, rfl, rfl⟩ hcursor
    exact hR hcursor
  -- behind a parenthesis the answer of `opensLambda` selects the rule
  next =>
    refine Sound.get_bind fun s => ?_
    split
    next hahead =>
      refine (parenthesizedLambda_sound hlevel).mono ?_
      rintro _ n o - hR rfl ⟨t, ts, ⟨⟩, hopen⟩
      exact hR ⟨s.current, s.ahead, rfl, hopen, hahead⟩
    next hahead =>
      refine (group_sound hlevel).mono ?_
      rintro _ n o - hR rfl ⟨t, ts, ⟨⟩, hopen⟩
      exact hR ⟨s.current, s.ahead, rfl, hopen, by simpa using hahead⟩
  next => exact missingExpression_sound _

/-- A `(` enters the next level, and any other lexeme ends the calls. -/
theorem calls_sound (callee : Node) :
    Sound (calls level callee) fun i n o => Reads level.source (.calls callee) i [n] o := by
  refine Sound.peek_bind fun l => ?_
  split
  next hl =>
    refine (hlevel (.call callee)).mono ?_
    rintro i n o - hR hcursor
    exact hR (hcursor.imp fun _ h => h.trans hl)
  next hl =>
    refine (Sound.pure callee).mono ?_
    rintro i _ o - ⟨rfl, rfl⟩ ⟨t, ts, rfl, ht⟩
    exact .callsEnd fun h => hl (ht.symm.trans h)

/-- A `!` enters the next level; otherwise a primary is followed by its calls. -/
theorem operand_sound :
    Sound (operand level) fun i n o => Reads level.source .operand i [n] o := by
  refine Sound.peek_bind fun l => ?_
  split
  next hl =>
    refine (hlevel .negation).mono ?_
    rintro i n o - hR hcursor
    exact hR (hcursor.imp fun _ h => h.trans hl)
  next =>
    refine ((primary_sound hlevel).bind fun p => calls_sound hlevel p).mono ?_
    rintro i n o - ⟨p, m, hp, hcalls⟩ -
    exact .operand hp hcalls

/-- An operator that binds tightly enough enters the next level. One that does not, or no operator,
ends them. -/
theorem operations_sound (minimum : Nat) (left : Node) :
    Sound (operations level minimum left) fun i n o =>
      Reads level.source (.operations minimum left) i [n] o := by
  refine Sound.peek_bind fun l => ?_
  split
  next op hop =>
    split
    next hmin =>
      refine (hlevel (.operation minimum op left)).mono ?_
      rintro i n o - hR hcursor
      exact hR (hcursor.imp fun _ h => by rw [h, hop]) hmin
    next hmin =>
      refine (Sound.pure left).mono ?_
      rintro i _ o - ⟨rfl, rfl⟩ ⟨t, ts, rfl, rfl⟩
      -- the operator binds less tightly than is asked for
      refine .operationsEnd fun op' hop' => ?_
      obtain rfl : op = op' := by simpa [hop] using hop'
      omega
  next hop =>
    refine (Sound.pure left).mono ?_
    rintro i _ o - ⟨rfl, rfl⟩ ⟨t, ts, rfl, rfl⟩
    exact .operationsEnd fun op' hop' => by simp [hop] at hop'

/-! ## All levels -/

/-- The step of `enter_sound`: one case for each construct that takes a level, and what it enters
itself is one level deeper. -/
theorem construct_sound (nested : Nested) :
    Sound (construct level nested) (nested.Reading level.source) := by
  cases nested with
  | statement => exact statement_sound hlevel
  | expression minimum =>
    refine ((operand_sound hlevel).bind fun left => operations_sound hlevel minimum left).mono ?_
    rintro i n o - ⟨left, m, hleft, hmore⟩
    exact .expression hleft hmore
  | operation minimum op left =>
    refine ((bump_sound level.source).bind fun sign =>
      (hlevel (.expression (op.precedence + 1))).bind fun right =>
        (node_cons_sound level.source .expression left [sign, right]).bind fun result =>
          operations_sound hlevel minimum result).mono ?_
    rintro i n o - ⟨sign, m, hbump, right, _, hright, _, _, ⟨rfl, rfl⟩, hmore⟩ hcursor hmin
    obtain ⟨t, rfl, hop, rfl⟩ := hbump hcursor (by simp [Lexeme.binary?])
    exact .operation hop hmin hright hmore
  | negation =>
    refine ((bump_sound level.source).bind fun sign => (operand_sound hlevel).bind fun inner =>
      node_cons_sound level.source .expression sign [inner]).mono ?_
    rintro i n o - ⟨sign, m, hbump, inner, _, hinner, rfl, rfl⟩ hcursor
    obtain ⟨t, rfl, hsign, rfl⟩ := hbump hcursor (by simp)
    exact .negation hsign hinner
  | call callee =>
    refine ((bump_sound level.source).bind fun opening =>
      (expressionsUnless_sound hlevel .rightParen).bind fun values =>
        (node_sound level.source .arguments values).bind fun arguments =>
          (expect_sound level.source .rightParen).bind fun closing =>
            (node_cons_sound level.source .expression callee
              (opening :: arguments :: closing)).bind fun result =>
                calls_sound hlevel result).mono ?_
    rintro i n o - ⟨opening, m, hbump, values, _, hvalues, _, _, ⟨rfl, u, us, hu, rfl⟩, _, _,
      ⟨t₁, rfl, hclose, rfl⟩, _, _, ⟨rfl, rfl⟩, hmore⟩ hcursor
    obtain ⟨t₀, rfl, hopen, rfl⟩ := hbump hcursor (by simp)
    -- arguments, of which there may be none, are placed at the token that closes them
    obtain ⟨rfl, rfl⟩ : t₁ = u ∧ _ = us := by simpa using hu
    exact .call hopen hvalues hclose hmore

omit hlevel in
/-- On every level the parser accepts only readings. With no level left there is an error. -/
theorem enter_sound (source : String) (limit left : Nat) :
    LevelSound { source, enter := enter source limit left } := by
  induction left with
  | zero =>
    intro nested s hs
    show s.errors.size < (s.errors.push _).size
    rw [Array.size_push]
    omega
  | succ left ih => exact construct_sound ih

omit hlevel in
/-- A program that is parsed without errors is a sequence of statements up to the end. -/
theorem program_sound (source : String) (limit : Nat) :
    Sound (program source limit) fun i ns o =>
      Reads source .statements i ns o ∧ AtCursor (· = .eof) o := by
  refine (guardedStatements_sound (enter_sound source limit limit) (· != .eof) (by decide)).mono ?_
  rintro i ns o - hrounds
  refine ⟨readsStatements_of_repeats (fun l hl => .inr (by simpa using hl)) hrounds, ?_⟩
  -- the rounds of a program stop only at the end
  induction hrounds with
  | stop hmore => exact hmore.imp fun l hl => by simpa using hl
  | round _ _ _ ih => exact ih

end Parser

end SimpleLang
