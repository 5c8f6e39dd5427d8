import SimpleLang.Proofs.Parser.Soundness

/-!
# A statement moves the cursor

Whatever stands at the cursor, the parser of a statement steps over it, be it with an error. There
are two exceptions: the end, and a closing brace, which may close a block around the statement.

* `Tame p`: the parser moves the cursor forward only, and stops only with an error.
* `Progresses P p`: from a lexeme that satisfies `P` the parser moves the cursor, unless it stops.
* `progresses_enter_statement`: a statement does, from any lexeme but the two exceptions.
-/

namespace SimpleLang

namespace Parser

theorem Moves.position_le {s t : State} (h : Moves s t) : s.position ≤ t.position := by
  have hlength := h.suffix.length_le
  have hsum := h.position
  omega

/-- Where the cursor has not moved, the tokens are the same: an end of the stream that is as long as
the stream is all of it. -/
theorem Moves.stream_eq {s t : State} (h : Moves s t) (hposition : t.position = s.position) :
    t.stream = s.stream := by
  have hsum := h.position
  exact h.suffix.eq_of_length (by omega)

/-! ## Parsers that move forward only -/

/-- `Sound` with nothing said about the result: the cursor is only moved forward, errors are only
added, and the parser stops only with one. -/
def Tame {α : Type} (p : Parser α) : Prop := Sound p fun _ _ _ => True

section Tame

variable {α β : Type} {p : Parser α} {f : α → Parser β}

theorem Sound.tame {R : List Token → α → List Token → Prop} (h : Sound p R) : Tame p :=
  h.mono fun _ _ _ _ _ => trivial

theorem Tame.bind (h : Tame p) (hf : ∀ a, Tame (f a)) : Tame (p >>= f) := (Sound.bind h hf).tame

theorem tame_pure (a : α) : Tame (Pure.pure a) := (Sound.pure a).tame

theorem tame_peek_bind {f : Lexeme → Parser β} (h : ∀ l, Tame (f l)) : Tame (peek >>= f) :=
  (Sound.peek_bind (T := fun _ _ _ => True) fun l => (h l).mono fun _ _ _ _ _ _ => trivial).tame

theorem tame_node (source : String) (kind : NodeKind) (children : List Node) :
    Tame (node source kind children) := (node_sound source kind children).tame

/-- A parser that ends has only moved on. -/
theorem Tame.moves (h : Tame p) {s t : State} (hs : EndsOnce s.stream) {a : α}
    (hrun : p s = .ok a t) : Moves s t := by
  have hsound := h s hs
  rw [hrun] at hsound
  exact hsound.1

end Tame

/-! ## Parsers that move on -/

/-- If a lexeme that satisfies `P` is at the cursor and the parser ends, the cursor has moved. -/
def Progresses {α : Type} (P : Lexeme → Prop) (p : Parser α) : Prop :=
  ∀ s : State, EndsOnce s.stream → P s.current.lexeme → ∀ a t, p s = .ok a t →
    s.position < t.position

namespace Progresses

variable {α β : Type} {P Q : Lexeme → Prop} {p : Parser α} {f : α → Parser β}

theorem mono (h : Progresses P p) (hPQ : ∀ l, Q l → P l) : Progresses Q p :=
  fun s hs hl => h s hs (hPQ _ hl)

/-- The first parser moves the cursor, and a `Tame` one does not move it back. -/
theorem bind_left (h : Progresses P p) (hp : Tame p) (hf : ∀ a, Tame (f a)) :
    Progresses P (p >>= f) := by
  intro s hs hl b t hrun
  obtain ⟨a, u, hfirst, hsecond⟩ := exists_of_bind_ok hrun
  have hmoved := h s hs hl a u hfirst
  have hrest := ((hf a).moves ((hp.moves hs hfirst).endsOnce hs) hsecond).position_le
  exact Nat.lt_of_lt_of_le hmoved hrest

/-- If the first parser has not moved the cursor, then the lexeme there is still the one that
satisfies `P`, and the second one moves it. -/
theorem bind_right (hp : Tame p) (hf : ∀ a, Tame (f a)) (h : ∀ a, Progresses P (f a)) :
    Progresses P (p >>= f) := by
  intro s hs hl b t hrun
  obtain ⟨a, u, hfirst, hsecond⟩ := exists_of_bind_ok hrun
  have hmoves := hp.moves hs hfirst
  have hrest := ((hf a).moves (hmoves.endsOnce hs) hsecond).position_le
  -- still at the same token, so the second parser starts from the same lexeme
  rcases Nat.eq_or_lt_of_le hmoves.position_le with hstill | hmoved
  · have hstream := hmoves.stream_eq hstill.symm
    have hl' : P u.current.lexeme := by
      rw [show u.current = s.current from (List.cons.inj hstream).1]
      exact hl
    rw [hstill]
    exact h a u (hmoves.endsOnce hs) hl' b t hsecond
  · exact Nat.lt_of_lt_of_le hmoved hrest

/-- `peek` leaves the state as it is, and what follows may use which lexeme it found. -/
theorem peek_bind {f : Lexeme → Parser β} (h : ∀ l, P l → Progresses (· = l) (f l)) :
    Progresses P (peek >>= f) :=
  fun s hs hl b t hrun => h s.current.lexeme hl s hs rfl b t hrun

theorem get_bind {f : State → Parser β} (h : ∀ s, Progresses P (f s)) :
    Progresses P (get >>= f) :=
  fun s hs hl b t hrun => h s s hs hl b t hrun

theorem peekSecond_bind {f : Lexeme → Parser β} (h : ∀ l, Progresses P (f l)) :
    Progresses P (peekSecond >>= f) :=
  fun s hs hl b t hrun => h (s.ahead.headD s.current).lexeme s hs hl b t hrun

theorem report_bind (e : SyntaxError) {f : Unit → Parser β} (h : Progresses P (f ())) :
    Progresses P (report e >>= f) :=
  fun s hs hl b t hrun =>
    h { s with errors := s.errors.push (e.diagnostic s.current.span) } hs hl b t hrun

theorem node_bind {source : String} {kind : NodeKind} {children : List Node} {f : Node → Parser β}
    (h : ∀ n, Progresses P (f n)) : Progresses P (node source kind children >>= f) :=
  fun s hs hl b t hrun => h _ s hs hl b t hrun

/-- Off the end the stream gets shorter by one token (`stream_advance`), so the position grows. -/
theorem advance : Progresses (· ≠ .eof) advance := by
  intro s hs hne a t hrun
  have hadvance : Parser.advance s = .ok () s.advance := rfl
  rw [hadvance] at hrun
  cases hrun
  have hsum := s.position_advance
  rw [stream_advance hs hne, State.stream, List.length_cons] at hsum
  omega

theorem bump (source : String) : Progresses (· ≠ .eof) (bump source) :=
  fun s hs hne n t hrun => by
    obtain ⟨_, u, hadvance, hpure⟩ := exists_of_bind_ok (p := Parser.advance)
      (f := fun _ => Pure.pure _) hrun
    cases hpure
    exact advance s hs hne _ _ hadvance

/-- `expect` moves the cursor if what it looks for is there; otherwise it only reports. -/
theorem expect (source : String) (wanted : Symbol) :
    Progresses (· = .symbol wanted) (expect source wanted) := by
  refine peek_bind fun l hl => ?_
  rw [if_pos hl]
  refine ((bump source).bind_left (bump_sound source).tame fun n => tame_pure [n]).mono ?_
  rintro _ rfl
  rw [hl]
  exact Lexeme.noConfusion

end Progresses

/-! ## Expressions -/

/-- The lexemes that the parser of an expression steps over, be it with an error.
`missingExpression` leaves the others for the statement around it to end with. -/
def stepsOver (l : Lexeme) : Prop := l ≠ .eof ∧ l ≠ .symbol .semicolon ∧ l ≠ .symbol .rightBrace

/-- A routine that starts by taking a leaf. -/
theorem progresses_bump_bind {α : Type} {source : String} {f : Node → Parser α} {l : Lexeme}
    (hl : l ≠ .eof) (hf : ∀ n, Tame (f n)) : Progresses (· = l) (bump source >>= f) :=
  ((Progresses.bump source).bind_left (bump_sound source).tame hf).mono fun _ h => h ▸ hl

variable {level : Level} (hlevel : LevelSound level)
include hlevel

/-- Each case but the last one starts with a leaf, and the last one is `missingExpression`. -/
theorem progresses_primary : Progresses stepsOver (primary level) := by
  have hleaf {l : Lexeme} (hl : l ≠ .eof) : Progresses (· = l) (do
      let leaf ← bump level.source
      wrapPrimary level leaf) :=
    progresses_bump_bind hl fun leaf => (wrapPrimary_sound leaf).tame
  refine .peek_bind fun l hl => ?_
  split
  iterate 5 exact hleaf Lexeme.noConfusion
  · refine .peekSecond_bind fun second => ?_
    split
    · exact progresses_bump_bind Lexeme.noConfusion fun name => (tame_node _ _ _).bind fun names =>
        (lambdaBody_sound hlevel [names]).tame
    · exact hleaf Lexeme.noConfusion
  · exact (progresses_bump_bind Lexeme.noConfusion fun opening =>
      (expressionsUnless_sound hlevel _).tame.bind fun values =>
        (expect_sound _ _).tame.bind fun closing => tame_node _ _ _).bind_left
          (array_sound hlevel).tame fun n => (wrapPrimary_sound n).tame
  · refine .get_bind fun s => ?_
    split
    · exact progresses_bump_bind Lexeme.noConfusion fun opening =>
        (parametersUnlessClosed_sound level).tame.bind fun names =>
          (expect_sound _ _).tame.bind fun closing => (lambdaBody_sound hlevel _).tame
    · exact progresses_bump_bind Lexeme.noConfusion fun opening =>
        (expression_sound hlevel).tame.bind fun inner =>
          (expect_sound _ _).tame.bind fun closing => tame_node _ _ _
  · -- what starts no expression is stepped over with an error
    refine .peek_bind ?_
    rintro _ rfl
    refine .report_bind _ (.node_bind fun n => ?_)
    rw [if_pos (by simpa [stepsOver, and_assoc] using hl)]
    exact (Progresses.advance.bind_left advance_sound.tame fun _ => tame_pure n).mono
      fun _ h => h ▸ hl.1

/-- What stands before an operand decides: a sign goes one level deeper, anything else is a
primary. -/
theorem progresses_operand
    (hnegation : Progresses (· = .symbol .bang) (level.enter .negation)) :
    Progresses stepsOver (operand level) := by
  refine .peek_bind fun l hl => ?_
  split
  · exact hnegation.mono fun _ h => h.trans ‹_›
  · exact ((progresses_primary hlevel).bind_left (primary_sound hlevel).tame fun n =>
      (calls_sound hlevel n).tame).mono fun _ h => h ▸ hl

omit hlevel in
/-- Without a level left the parser stops, so there is no run that ends to speak about. -/
theorem progresses_enter_negation (source : String) (limit left : Nat) :
    Progresses (· = .symbol .bang) (enter source limit left .negation) := by
  cases left with
  | zero =>
    intro s hs hl n t hrun
    cases hrun
  | succ left =>
    exact progresses_bump_bind Lexeme.noConfusion fun sign =>
      (operand_sound (enter_sound source limit left)).tame.bind fun inner => tame_node _ _ _

omit hlevel in
/-- An expression starts with an operand, and `operations` does not move the cursor back. -/
theorem progresses_enter_expression (source : String) (limit left minimum : Nat) :
    Progresses stepsOver (enter source limit left (.expression minimum)) := by
  cases left with
  | zero =>
    intro s hs hl n t hrun
    cases hrun
  | succ left =>
    have hsound := enter_sound source limit left
    exact (progresses_operand hsound (progresses_enter_negation source limit left)).bind_left
      (operand_sound hsound).tame fun n => (operations_sound hsound minimum n).tame

/-! ## Statements -/

omit hlevel in
theorem tame_semicolon (n : Node) : Tame (do
    let closing ← expect level.source .semicolon
    return n :: closing) :=
  (expect_sound _ _).tame.bind fun closing => tame_pure (n :: closing)

omit hlevel in
/-- A construct that moves the cursor, and the semicolon behind it, if there is one. -/
theorem progresses_terminated {P : Lexeme → Prop} {construct : Parser Node}
    (htame : Tame construct) (h : Progresses P construct) :
    Progresses P (terminated level construct >>= fun parts =>
      node level.source .statement parts) :=
  (h.bind_left htame tame_semicolon).bind_left (htame.bind tame_semicolon) fun _ => tame_node _ _ _

omit hlevel in
/-- A construct that starts with a leaf, and the semicolon behind it. -/
theorem progresses_terminated_bump {l : Lexeme} (hl : l ≠ .eof) {f : Node → Parser Node}
    (hf : ∀ n, Tame (f n)) :
    Progresses (· = l) (terminated level (bump level.source >>= f) >>= fun parts =>
      node level.source .statement parts) :=
  progresses_terminated ((bump_sound _).tame.bind hf) (progresses_bump_bind hl hf)

theorem progresses_declaration :
    Progresses (· = .keyword .letWord) (terminated level (declaration level) >>= fun parts =>
      node level.source .statement parts) := by
  refine progresses_terminated_bump Lexeme.noConfusion fun word =>
    (expectName_sound _).tame.bind fun name => tame_peek_bind fun l => ?_
  split
  · exact (bump_sound _).tame.bind fun sign => (expression_sound hlevel).tame.bind fun value =>
      (tame_pure _).bind fun _ => tame_node _ _ _
  · exact (tame_pure _).bind fun _ => tame_node _ _ _

theorem progresses_function : Progresses (· = .keyword .fnWord) (function level) :=
  progresses_bump_bind Lexeme.noConfusion fun _ => (expectName_sound _).tame.bind fun _ =>
    (expect_sound _ _).tame.bind fun _ => (parametersUnlessClosed_sound level).tame.bind fun _ =>
      (expect_sound _ _).tame.bind fun _ => (functionBody_sound hlevel).tame.bind fun _ =>
        (tame_node _ _ _).bind fun _ => tame_pure _

theorem progresses_returning :
    Progresses (· = .keyword .returnWord) (terminated level (returning level) >>= fun parts =>
      node level.source .statement parts) := by
  refine progresses_terminated_bump Lexeme.noConfusion fun word => tame_peek_bind fun l => ?_
  split
  · exact (tame_pure _).bind fun _ => tame_node _ _ _
  · exact (expression_sound hlevel).tame.bind fun value => (tame_pure _).bind fun _ =>
      tame_node _ _ _

theorem progresses_conditionAndBody {l : Lexeme} (hl : l ≠ .eof) :
    Progresses (· = l) (conditionAndBody level) :=
  progresses_bump_bind hl fun _ => (expect_sound _ _).tame.bind fun _ =>
    (expression_sound hlevel).tame.bind fun _ => (expect_sound _ _).tame.bind fun _ =>
      (hlevel .statement).tame.bind fun _ => tame_pure _

theorem progresses_conditional : Progresses (· = .keyword .ifWord) (conditional level) := by
  refine (progresses_conditionAndBody hlevel Lexeme.noConfusion).bind_left
    (conditionAndBody_sound hlevel).tame fun head => tame_peek_bind fun l => ?_
  split
  · exact (bump_sound _).tame.bind fun word => (hlevel .statement).tame.bind fun no =>
      (tame_pure _).bind fun _ => tame_node _ _ _
  · exact (tame_pure _).bind fun _ => tame_node _ _ _

theorem progresses_block : Progresses (· = .symbol .leftBrace) (block level) :=
  (Progresses.expect _ _).bind_left (expect_sound _ _).tame fun opening =>
    (guardedStatements_sound hlevel _ (by decide)).tame.bind fun body =>
      (expect_sound _ _).tame.bind fun closing => tame_node _ _ _

/-- Before a semicolon the expression is missing, and it is `expect` that takes the semicolon. This
is why `stepsOver` may leave it out. -/
theorem progresses_missing :
    Progresses (· = .symbol .semicolon) (terminated level (expression level) >>= fun parts =>
      node level.source .statement parts) := by
  have hclosing (n : Node) : Progresses (· = .symbol .semicolon) (do
      let closing ← expect level.source .semicolon
      return n :: closing) :=
    (Progresses.expect _ _).bind_left (expect_sound _ _).tame fun _ => tame_pure _
  have htame := (expression_sound hlevel).tame
  exact (Progresses.bind_right htame tame_semicolon hclosing).bind_left
    (htame.bind tame_semicolon) fun _ => tame_node _ _ _

/-- By the first lexeme, with one lemma for each kind of statement. A semicolon alone is a statement
whose expression is missing. -/
theorem progresses_statement (hexpression : Progresses stepsOver (expression level)) :
    Progresses (fun l => l ≠ .eof ∧ l ≠ .symbol .rightBrace) (statement level) := by
  -- a construct without a semicolon of its own
  have hsingle {l : Lexeme} {construct : Parser Node} (htame : Tame construct)
      (h : Progresses (· = l) construct) : Progresses (· = l) (do
        let n ← construct
        let parts ← pure [n]
        node level.source .statement parts) :=
    h.bind_left htame fun n => (tame_pure [n]).bind fun _ => tame_node _ _ _
  refine .peek_bind fun l hl => ?_
  split
  · exact progresses_declaration hlevel
  · exact hsingle (function_sound hlevel).tame (progresses_function hlevel)
  · exact progresses_returning hlevel
  · exact hsingle (conditional_sound hlevel).tame (progresses_conditional hlevel)
  · exact hsingle (loop_sound hlevel).tame ((progresses_conditionAndBody hlevel
      Lexeme.noConfusion).bind_left (conditionAndBody_sound hlevel).tame fun _ => tame_node _ _ _)
  · exact hsingle (block_sound hlevel).tame (progresses_block hlevel)
  · refine .peekSecond_bind fun second => ?_
    split
    · exact progresses_terminated_bump Lexeme.noConfusion fun name => (bump_sound _).tame.bind
        fun sign => (expression_sound hlevel).tame.bind fun value => tame_node _ _ _
    · refine progresses_terminated (expression_sound hlevel).tame (hexpression.mono ?_)
      rintro _ rfl
      simp [stepsOver]
  · by_cases hsemicolon : l = .symbol .semicolon
    · exact (progresses_missing hlevel).mono fun _ h => h.trans hsemicolon
    · refine progresses_terminated (expression_sound hlevel).tame (hexpression.mono ?_)
      rintro _ rfl
      exact ⟨hl.1, hsemicolon, hl.2⟩

omit hlevel in
/-- Off the end and off a closing brace a statement moves the cursor, unless it is nested too
deeply. Those two are left to the block or the program around it, and `guardedStatement` steps over
them itself. -/
theorem progresses_enter_statement (source : String) (limit left : Nat) :
    Progresses (fun l => l ≠ .eof ∧ l ≠ .symbol .rightBrace)
      (enter source limit left .statement) := by
  cases left with
  | zero =>
    intro s hs hl n t hrun
    cases hrun
  | succ left =>
    exact progresses_statement (enter_sound source limit left)
      (progresses_enter_expression source limit left 0)

end Parser

end SimpleLang
