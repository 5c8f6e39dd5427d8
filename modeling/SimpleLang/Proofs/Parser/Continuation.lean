import SimpleLang.Proofs.Parser.Acceptance
import SimpleLang.Proofs.Parser.StatementEnds

/-!
# A program that goes on

If a text is a program, a longer text is parsed like it up to the seam, and from there on like what
stands behind the seam.

* `repeatWhile_unroll`: rounds that move the cursor are not ended by their bound, so one round may
  be taken off them. Guarded statements are such rounds (`progresses_guardedStatement`).
* `Seam.program_resumes`: the statements of the short text are parsed again in the long one, and the
  parser goes on behind the seam as if it started there.
* `ofTokens_append`: so the tree of the long text has the statements of both parts, or the
  errors are those of the second part.
-/

namespace SimpleLang

namespace Parser

/-! ## Rounds without a bound -/

section Rounds

variable {α β : Type} {p q : Parser α} {f g : α → Parser β} {s t : State}

/-- Two runs that start alike go on alike. -/
theorem bind_congr_run (h : p s = q t) : (p >>= f) s = (q >>= f) t := by
  show EStateM.bind p f s = EStateM.bind q f t
  rw [EStateM.bind, EStateM.bind, h]

/-- What follows a parser has to agree only at the results that the parser has from `s`. -/
theorem bind_congr_ok (h : ∀ a t, p s = .ok a t → f a t = g a t) : (p >>= f) s = (p >>= g) s := by
  show EStateM.bind p f s = EStateM.bind p g s
  rw [EStateM.bind, EStateM.bind]
  cases hp : p s with
  | ok a t => exact h a t hp
  | error e t => rfl

variable {more : Lexeme → Bool} {round : Parser (List Node)}

/-- A loop that is not asked for a round ends, whatever its bound is. -/
theorem rounds_stop (h : more s.current.lexeme = false) (bound : List Token) :
    rounds more round bound s = .ok [] s := by
  cases bound with
  | nil => rfl
  | cons b bound =>
    show (if more s.current.lexeme then _ else _ : Parser (List Node)) s = _
    rw [h]
    rfl

theorem rounds_cons (h : more s.current.lexeme = true) (b : Token) (bound : List Token) :
    rounds more round (b :: bound) s = (do
      let first ← round
      return first ++ (← rounds more round bound)) s := by
  show (if more s.current.lexeme then _ else _ : Parser (List Node)) s = _
  rw [h]
  rfl

variable (heof : more .eof = false) (htame : Tame round) (hround : Progresses (· ≠ .eof) round)

include heof

/-- A round is asked for only off the end (`heof`), and there is a token behind any other one. -/
theorem exists_ahead (hs : EndsOnce s.stream) (h : more s.current.lexeme = true) :
    ∃ b bound, s.ahead = b :: bound := by
  refine hs.exists_second fun hend => ?_
  rw [hend, heof] at h
  cases h

include htame hround

/-- Behind a round there are fewer tokens, because the cursor has moved and the tokens are counted
by `Moves.position`. -/
theorem length_ahead_lt (hs : EndsOnce s.stream) (h : more s.current.lexeme = true)
    {ns : List Node} (hrun : round s = .ok ns t) : t.ahead.length < s.ahead.length := by
  have hne : s.current.lexeme ≠ .eof := by
    intro hend
    rw [hend, heof] at h
    cases h
  have hmoved := hround s hs hne ns t hrun
  have hposition := (htame.moves hs hrun).position
  simp only [State.stream, List.length_cons] at hposition
  omega

/-- Two bounds that last for the tokens make no difference. The induction is on the first bound, and
each round leaves fewer tokens than it found. -/
theorem rounds_eq {bound bound' : List Token} (hs : EndsOnce s.stream)
    (hbound : s.ahead.length ≤ bound.length) (hbound' : s.ahead.length ≤ bound'.length) :
    rounds more round bound s = rounds more round bound' s := by
  induction bound generalizing bound' s with
  | nil =>
    cases hmore : more s.current.lexeme with
    | false => rw [rounds_stop hmore, rounds_stop hmore]
    | true =>
      obtain ⟨b, bound, hahead⟩ := exists_ahead heof hs hmore
      rw [hahead] at hbound
      cases hbound
  | cons b bound ih =>
    cases hmore : more s.current.lexeme with
    | false => rw [rounds_stop hmore, rounds_stop hmore]
    | true =>
      -- another round needs a token ahead, so neither bound is used up
      obtain ⟨b', bound', rfl⟩ : ∃ b' bound'', bound' = b' :: bound'' := by
        obtain ⟨_, _, hahead⟩ := exists_ahead heof hs hmore
        rw [hahead] at hbound'
        exact List.exists_cons_of_length_pos (Nat.lt_of_lt_of_le (Nat.succ_pos _) hbound')
      rw [rounds_cons hmore, rounds_cons hmore]
      refine bind_congr_ok fun first t hrun => bind_congr_run ?_
      have hlt := length_ahead_lt heof htame hround hs hmore hrun
      simp only [List.length_cons] at hbound hbound'
      exact ih ((htame.moves hs hrun).endsOnce hs) (by omega) (by omega)

/-- One round may be taken off, since the tokens that are ahead after it still bound the others. -/
theorem repeatWhile_unroll (hs : EndsOnce s.stream) (hmore : more s.current.lexeme = true) :
    repeatWhile more round s = (do
      let first ← round
      return first ++ (← repeatWhile more round)) s := by
  obtain ⟨b, bound, hahead⟩ := exists_ahead heof hs hmore
  show rounds more round s.ahead s = _
  rw [hahead, rounds_cons hmore]
  refine bind_congr_ok fun first t hrun => bind_congr_run ?_
  have hlt := length_ahead_lt heof htame hround hs hmore hrun
  rw [hahead, List.length_cons] at hlt
  exact rounds_eq heof htame hround ((htame.moves hs hrun).endsOnce hs) (by omega) (Nat.le_refl _)

end Rounds

/-- Whatever a statement does, the cursor is moved on behind it: `guardedStatement` steps over a
token if nothing else has. -/
theorem progresses_guardedStatement {level : Level} (hlevel : LevelSound level) :
    Progresses (· ≠ .eof) (guardedStatement level) := by
  intro s hs hne n t hrun
  obtain ⟨m, u, henter, hrest⟩ := exists_of_bind_ok (p := level.enter .statement) hrun
  have hmoves := (hlevel .statement).tame.moves hs henter
  -- the last step of the guard, after a recovery or without one
  have hsettle {v : State} (hv : Moves s v) (hrun : (do
      if s.position = (← get).position then
        advance
      return m : Parser Node) v = .ok n t) : s.position < t.position := by
    have hrun : (if s.position = v.position then _ else _ : Parser Node) v = _ := hrun
    by_cases hposition : s.position = v.position
    · rw [if_pos hposition] at hrun
      obtain ⟨_, _, hadvance, ⟨⟩⟩ := exists_of_bind_ok hrun
      have hcurrent : v.current = s.current :=
        (List.cons.inj (hv.stream_eq hposition.symm)).1
      rw [hposition]
      exact Progresses.advance v (hv.endsOnce hs) (hcurrent ▸ hne) _ _ hadvance
    · rw [if_neg hposition] at hrun
      cases hrun
      exact Nat.lt_of_le_of_ne hv.position_le hposition
  have hrest : (if s.errors.size < u.errors.size then _ else _ : Parser Node) u = _ := hrest
  split at hrest
  · obtain ⟨_, v, hsynchronize, hrest⟩ := exists_of_bind_ok hrest
    have hskipped := synchronize_sound.tame.moves (hmoves.endsOnce hs) hsynchronize
    exact hsettle (hmoves.trans hskipped) hrest
  · exact hsettle hmoves hrest

/-- A program is a statement and a program. This is the recursion that the results about whole
programs follow. -/
theorem program_unroll (source : String) (limit : Nat) {s : State} (hs : EndsOnce s.stream)
    (hne : s.current.lexeme ≠ .eof) :
    program source limit s = (do
      let first ← guardedStatement { source, enter := enter source limit limit }
      return first :: (← program source limit)) s := by
  have hsound := enter_sound source limit limit
  have htame := (guardedStatement_sound hsound).tame
  have hround := (progresses_guardedStatement hsound).bind_left htame fun n => tame_pure [n]
  have hmore : (s.current.lexeme != .eof) = true := bne_iff_ne.mpr hne
  show repeatWhile (· != .eof) _ s = _
  rw [repeatWhile_unroll (by decide) (htame.bind fun n => tame_pure [n]) hround hs hmore]
  simp only [bind_assoc, pure_bind]
  rfl

theorem program_stop (source : String) (limit : Nat) {s : State} (h : s.current.lexeme = .eof) :
    program source limit s = .ok [] s := rounds_stop (by rw [h]; rfl) s.ahead

/-! ## Behind the seam -/

namespace Seam

variable {J : Seam}

/-- The long text's parser has parsed again what the short text's parser has, and goes on from a
state `u` behind the seam as if it started there. -/
structure Resumes (J : Seam) (limit : Nat) (ns : List Node) (s' u : State) (ns' : List Node) :
    Prop where
  same : List.Forall₂ SameSkeleton ns ns'
  passes : Passes s' u
  stream : u.stream = J.rest
  run : program J.long limit s' = (do return ns' ++ (← program J.long limit)) u

/-- One statement of the short text is parsed again, unless it is the last one and takes the `else`
behind the seam. In any case it takes a token, which is what the induction of `program_resumes`
needs. -/
theorem guardedStatement_resumes {limit : Nat} {c : List Token} {s s' t : State} {n : Node}
    (hs : J.Shares c s s')
    (hrun : guardedStatement ⟨J.short, enter J.short limit limit⟩ s = .ok n t)
    (hclean : t.errors.size = s.errors.size) :
    ∃ c₁, t.stream = c₁ ++ [J.last] ∧ c₁.length < c.length ∧
      (c₁ = [] ∧ J.Loose Node.Open n ∨
        ∃ n' t', guardedStatement ⟨J.long, enter J.long limit limit⟩ s' = .ok n' t' ∧
          Passes s' t' ∧ J.Shares c₁ t t' ∧ SameSkeleton n n') := by
  have hsound := enter_sound J.short limit limit
  have hguarded := guardedStatement_sound hsound s hs.endsOnce
  rw [hrun] at hguarded
  obtain ⟨hmoves, hread⟩ := hguarded
  obtain ⟨c₁, -, hc₁⟩ := hs.exists_of_moves hmoves
  -- a statement takes a token at least
  have hlt := (hread hclean).length_lt rfl
  rw [hs.short, hc₁, List.length_append, List.length_append] at hlt
  have hstatement : J.Ends (J.Loose Node.Open) SameSkeleton
      (guardedStatement ⟨J.short, enter J.short limit limit⟩)
      (guardedStatement ⟨J.long, enter J.long limit limit⟩) :=
    ends_guardedStatement hsound (follows_enter limit limit).ends
  exact ⟨c₁, hc₁, Nat.lt_of_add_lt_add_right hlt, hstatement _ s s' hs n t hrun hclean c₁ hc₁⟩

/-- The statements of the short text are parsed again, unless the last one is open and takes the
`else` behind the seam. -/
theorem program_resumes {limit : Nat} {c : List Token} {s s' t : State} {ns : List Node}
    (hs : J.Shares c s s') (hends : EndsOnce s'.stream)
    (hrun : program J.short limit s = .ok ns t) (hclean : t.errors.size = s.errors.size) :
    (∃ front n, ns = front ++ [n] ∧ J.Loose Node.Open n) ∨
      ∃ ns' u, J.Resumes limit ns s' u ns' ∧ (c = [] → u = s') := by
  -- the induction is on the number of common tokens that are left
  induction hlength : c.length using Nat.strong_induction_on generalizing c s s' ns with
  | _ length ih =>
    cases c with
    -- the short text is over, and the long one's parser stands at the seam
    | nil =>
      have hlast : s.current = J.last := (List.cons.inj hs.short).1
      rw [program_stop J.short limit (hlast ▸ J.last_eof)] at hrun
      cases hrun
      refine .inr ⟨[], s', ⟨.nil, .refl s', hs.long, ?_⟩, fun _ => rfl⟩
      simp only [List.nil_append, bind_pure]
    | cons v c =>
      obtain ⟨hshort, hlong, -⟩ := hs.advance
      have hne := (hs.common v List.mem_cons_self).ne_eof
      rw [program_unroll J.short limit hs.endsOnce (hshort ▸ hne)] at hrun
      obtain ⟨n, m, hfirst, hothers⟩ := exists_of_bind_ok hrun
      obtain ⟨ns, _, hothers, ⟨⟩⟩ := exists_of_bind_ok hothers
      -- no errors at the end, so none behind the first statement
      have hmoves := (guardedStatement_sound (enter_sound J.short limit limit)).tame.moves
        hs.endsOnce hfirst
      have hle := hmoves.errors
      have hle' := ((program_sound J.short limit).tame.moves (hmoves.endsOnce hs.endsOnce)
        hothers).errors
      obtain ⟨c₁, hc₁, hlt, ⟨rfl, hloose⟩ | ⟨n', m', hfirst', hpasses, hm, hn⟩⟩ :=
        guardedStatement_resumes hs hfirst (by omega)
      · -- this was the last statement
        have hlast : m.current = J.last := (List.cons.inj hc₁).1
        rw [program_stop J.short limit (hlast ▸ J.last_eof)] at hothers
        cases hothers
        exact .inl ⟨[], n, rfl, hloose⟩
      · have hothers := ih c₁.length (hlength ▸ hlt) hm (hpasses.moves.endsOnce hends) hothers
          (by omega) rfl
        rcases hothers with ⟨front, n₁, rfl, hloose⟩ | ⟨ns', u, hresumes, -⟩
        · exact .inl ⟨n :: front, n₁, rfl, hloose⟩
        · refine .inr ⟨n' :: ns', u, ⟨.cons hn hresumes.same, hpasses.trans hresumes.passes,
            hresumes.stream, ?_⟩, nofun⟩
          rw [program_unroll J.long limit hends (hlong ▸ hne), bind_of_ok hfirst',
            bind_congr_run hresumes.run]
          simp only [bind_assoc, pure_bind, List.cons_append]

/-- The state behind the seam is like the one at the start of what stands there, with a lead of all
the tokens before the seam. -/
theorem alike_resumed {T : Token → Token → Prop} {D : Diagnostic → Diagnostic → Prop}
    {c ts : List Token} {u : State} (hts : EndsOnce ts) (hsame : List.Forall₂ T ts J.rest)
    (hends : EndsOnce (c ++ J.rest)) (hpasses : Passes (.start (c ++ J.rest)) u)
    (hstream : u.stream = J.rest) (hstart : c = [] → u = .start (c ++ J.rest)) :
    (State.start ts).Alike T D c.length u := by
  have hnew (ts : List Token) :
      (State.start ts).previous = none ∧ (State.start ts).position = 0 := by
    cases ts <;> exact ⟨rfl, rfl⟩
  obtain ⟨hstream₀, herrors₀⟩ := stream_start hts
  obtain ⟨hstream₁, herrors₁⟩ := stream_start hends
  rw [← hstream₀, ← hstream] at hsame
  obtain ⟨hcurrent, hahead⟩ := List.forall₂_cons.mp hsame
  refine ⟨?_, fun _ => hstream₀ ▸ hts, hcurrent, hahead, ?_, ?_⟩
  -- the lexeme before the cursor is left open, unless there is nothing before the seam
  · cases c with
    | nil => exact .inl (by rw [hstart rfl, (hnew _).1, (hnew _).1])
    | cons v c => exact .inr ⟨Nat.succ_pos _, (hnew ts).2⟩
  · have hposition := hpasses.moves.position
    rw [hstream, hstream₁, (hnew _).2, List.length_append] at hposition
    rw [(hnew ts).2]
    omega
  · rw [hpasses.errors, herrors₀, herrors₁]
    exact .nil

end Seam

/-- The tree of the short text, with what stands behind the seam as a text of its own. The long text
has the statements of both, or the errors of the second, unless an `else` behind the seam is taken
by the last statement before it. Up to the seam this is `program_resumes`, from there on
`lockstep_program`. -/
theorem ofTokens_append {J : Seam} {source : String} {T : Token → Token → Prop}
    {D : Diagnostic → Diagnostic → Prop} {c ts : List Token} {limit : Nat} {tree : Node}
    (hcorresponds : Corresponds source J.long T D) (hts : EndsOnce ts)
    (hsame : List.Forall₂ T ts J.rest) (hends : EndsOnce (c ++ J.rest))
    (hcommon : ∀ t ∈ c, J.Common t) (h : ofTokens J.short (c ++ [J.last]) limit = .ok tree) :
    ∃ ns, tree = Node.root J.short ns ∧ ((∃ front n, ns = front ++ [n] ∧ J.Loose Node.Open n) ∨
      (∃ ms ns' ms', ofTokens source ts limit = .ok (Node.root source ms) ∧
        ofTokens J.long (c ++ J.rest) limit = .ok (Node.root J.long (ns' ++ ms')) ∧
        List.Forall₂ SameSkeleton ns ns' ∧ List.Forall₂ SameSkeleton ms ms') ∨
      ∃ errors errors', ofTokens source ts limit = .error errors ∧
        ofTokens J.long (c ++ J.rest) limit = .error errors' ∧ List.Forall₂ D errors errors') := by
  obtain ⟨ns, s, hrun, hclean, rfl⟩ := ofTokens_eq_ok_iff.mp h
  refine ⟨ns, rfl, ?_⟩
  obtain ⟨hstream, herrors⟩ := stream_start
    (endsOnce_append (fun t ht => (hcommon t ht).ne_eof) J.last_eof)
  have hlong := (stream_start hends).1
  -- both parsers start before the tokens that they share
  have hshares : J.Shares c (.start (c ++ [J.last])) (.start (c ++ J.rest)) :=
    ⟨hstream, hlong, hcommon⟩
  rcases Seam.program_resumes hshares (hlong ▸ hends) hrun (by rw [hclean, herrors]) with
    hloose | ⟨ns', u, hresumes, hstart⟩
  · exact .inl hloose
  · right
    -- from the seam on the long text is parsed as the second one is on its own
    have halike : (State.start ts).Alike T D c.length u :=
      Seam.alike_resumed hts hsame hends hresumes.passes hresumes.stream hstart
    rw [ofTokens, ofTokens, hresumes.run]
    rcases (lockstep_program hcorresponds limit _ _ halike).cases with
      ⟨ms, ms', t, t', hrun, hrun', hms, ht⟩ | ⟨e, t, t', hrun, hrun', ht⟩
    · have hjoint : (do return ns' ++ (← program J.long limit)) u = .ok (ns' ++ ms') t' :=
        bind_of_ok hrun'
      rw [hrun, hjoint]
      dsimp only
      rw [ht.isEmpty_errors]
      split
      · exact .inl ⟨ms, ns', ms', rfl, rfl, hresumes.same, hms⟩
      · exact .inr ⟨_, _, rfl, rfl, ht.errors⟩
    · rw [hrun, bind_of_error hrun']
      exact .inr ⟨_, _, rfl, rfl, ht.errors⟩

end Parser

end SimpleLang
