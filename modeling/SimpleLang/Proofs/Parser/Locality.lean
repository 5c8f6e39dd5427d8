import SimpleLang.Proofs.Parser.Lockstep

/-!
# A parser does not look beyond what it takes

A short text ends where a long one goes on (`Seam`). As long as the parser of the short text stays
off the end, the parser of the long text does the same.

* `Seam.Shares c s s'`: the tokens `c` are left of the short text, and in the long one they are
  followed by those behind the seam.
* `Seam.Ends L R p q`: where `p` reports nothing in the short text, `q` does the same in the long
  one, with related results; or `p` has come to the end, with a result of the kind `L`.
* `Seam.Local R p q`: the same, with no claim for a run that comes to the end. The whole parser
  respects it, and `Seam.local_enter` follows.
-/

namespace SimpleLang

namespace Parser

/-! ## Looking ahead -/

/-- `opensLambda` looks at one token behind a closing parenthesis, and at nothing else there. So
with `v` given, what follows it makes no difference. -/
theorem opensLambda_append_eq {mid : List Token} {u v : Token}
    (hclose : u.lexeme = .symbol .rightParen) (r r' : List Token) :
    opensLambda (mid ++ u :: v :: r) = opensLambda (mid ++ u :: v :: r') := by
  obtain ⟨_, span⟩ := u
  obtain rfl : _ = _ := hclose
  induction mid with
  | nil =>
    obtain ⟨l, span'⟩ := v
    cases l with
    | symbol s => cases s <;> rfl
    | _ => rfl
  -- a parenthesis within `mid` closes the list, and the token behind it is still before `r`
  | cons t mid ih =>
    obtain ⟨l, span'⟩ := t
    cases l with
    | ident x => exact ih
    | symbol s =>
      cases s with
      | comma => exact ih
      | rightParen =>
        cases mid with
        | nil => rfl
        | cons w mid =>
          obtain ⟨l, span'⟩ := w
          cases l with
          | symbol s => cases s <;> rfl
          | _ => rfl
      | _ => rfl
    | _ => rfl

/-- If no error is reported, a guarded statement is just a statement: neither of its two tests asks
for anything, as a statement without errors is not empty. -/
theorem enter_of_guardedStatement {level : Level} (hlevel : LevelSound level) {s t : State}
    {n : Node} (hs : EndsOnce s.stream) (hrun : guardedStatement level s = .ok n t)
    (hclean : t.errors.size = s.errors.size) :
    level.enter .statement s = .ok n t ∧ s.position ≠ t.position := by
  obtain ⟨m, u, henter, hrest⟩ := exists_of_bind_ok (p := level.enter .statement) hrun
  have hsound := hlevel .statement s hs
  rw [henter] at hsound
  obtain ⟨hmoves, hreads⟩ := hsound
  have hends := hmoves.endsOnce hs
  -- a statement with an error would have left the error behind, and none is reported in all
  by_cases hgrew : s.errors.size < u.errors.size
  · have hrest : (if _ then _ else _ : Parser Node) u = _ := hrest
    rw [if_pos hgrew] at hrest
    have htame : Tame (synchronize >>= fun _ => _) :=
      synchronize_sound.tame.bind fun _ => (settle_sound s.position m).tame
    have := (htame.moves hends hrest).errors
    omega
  · have hread := hreads (Nat.le_antisymm (Nat.le_of_not_lt hgrew) hmoves.errors)
    have hlt := Reads.length_lt hread rfl
    have hposition := hmoves.position
    have hguarded := guardedStatement_of_enter henter hgrew (by omega)
    rw [hrun] at hguarded
    cases hguarded
    exact ⟨henter, by omega⟩

/-! ## Seams -/

/-- A text that ends, and a longer one that goes on with some tokens where the first one ends. The
fields say what the proofs need of it: the short text ends with `last`, the long one goes on. -/
structure Seam where
  /-- The text that ends. -/
  short : String
  /-- The text that goes on. -/
  long : String
  /-- The end of the short text. -/
  last : Token
  /-- The tokens of the long text from the seam on. -/
  rest : List Token
  last_eof : last.lexeme = .eof
  rest_ne_nil : rest ≠ []

/-- The cursor has only moved on, and nothing was reported. Of the second parser this is proved
along the way, while it is assumed of the first. -/
structure Passes (s t : State) : Prop where
  moves : Moves s t
  errors : t.errors = s.errors

theorem Passes.refl (s : State) : Passes s s := ⟨.refl s, rfl⟩

theorem Passes.trans {s t u : State} (h : Passes s t) (h' : Passes t u) : Passes s u :=
  ⟨h.moves.trans h'.moves, h'.errors.trans h.errors⟩

theorem passes_advance (s : State) : Passes s s.advance := ⟨moves_advance s, s.errors_advance⟩

namespace Seam

variable (J : Seam)

/-- A token that both texts have, and not the end. -/
structure Common (t : Token) : Prop where
  ne_eof : t.lexeme ≠ .eof
  sameIn : t.SameIn J.short J.long t

/-- Two parsers with the same tokens `c` before them up to the seam. Behind these the first one has
the end, the second one what follows the seam. -/
structure Shares (c : List Token) (s s' : State) : Prop where
  short : s.stream = c ++ [J.last]
  long : s'.stream = c ++ J.rest
  common : ∀ t ∈ c, J.Common t

/-- Where the first parser reports nothing on the short text, the second one does the same on the
long text and has a related result; or the first one has come to the end, with a result in `L`. -/
def Ends {α β : Type} (L : α → Prop) (R : α → β → Prop) (p : Parser α) (q : Parser β) : Prop :=
  ∀ c s s', J.Shares c s s' → ∀ a t, p s = .ok a t → t.errors.size = s.errors.size →
    ∀ c₁, t.stream = c₁ ++ [J.last] →
      c₁ = [] ∧ L a ∨ ∃ b t', q s' = .ok b t' ∧ Passes s' t' ∧ J.Shares c₁ t t' ∧ R a b

/-- What the first parser does off the end, the second one does as well. -/
structure Local {α β : Type} (R : α → β → Prop) (p : Parser α) (q : Parser β) : Prop where
  tame : Tame p
  covered : ∀ a, Returns p a → ∃ b, R a b
  ends : J.Ends (fun _ => True) R p q

variable {J}

section Shares

variable {c : List Token} {s s' t : State}

/-- The common tokens are not the end, and `last` is. -/
theorem Shares.endsOnce (h : J.Shares c s s') : EndsOnce s.stream := by
  rw [h.short]
  exact endsOnce_append (fun t ht => (h.common t ht).ne_eof) J.last_eof

/-- Wherever the short text's parser moves, it has the end before it, behind some of the common
tokens. -/
theorem Shares.exists_of_moves (h : J.Shares c s s') (hmoves : Moves s t) :
    ∃ c₁, c₁ <:+ c ∧ t.stream = c₁ ++ [J.last] := by
  have hsuffix := hmoves.suffix
  rw [h.short, List.suffix_concat_iff] at hsuffix
  obtain hnil | ⟨c₁, hstream, hc₁⟩ := hsuffix
  · exact absurd hnil (List.cons_ne_nil _ _)
  · exact ⟨c₁, hc₁, hstream⟩

/-- At the end a parser stays there. -/
theorem eq_nil_of_moves {c₁ : List Token} (h : s.stream = [J.last]) (hmoves : Moves s t)
    (hc₁ : t.stream = c₁ ++ [J.last]) : c₁ = [] := by
  have hlength := hmoves.suffix.length_le
  rw [h, hc₁] at hlength
  simpa using hlength

end Shares

/-! ## Sequencing -/

section Sequencing

variable {α β α' β' : Type} {L : α → Prop} {L' : α' → Prop} {R : α → β → Prop} {R' : α' → β' → Prop}
  {p : Parser α} {q : Parser β} {f : α → Parser α'} {g : β → Parser β'}

/-- One parser after the other. If the first one has come to the end, the second one starts there,
and all that is known is what it can have as a result (`hloose`). -/
theorem Ends.bind (h : J.Ends L R p q) (hp : Tame p) (hf : ∀ a, Returns p a → Tame (f a))
    (hfg : ∀ a b, R a b → J.Ends L' R' (f a) (g b))
    (hloose : ∀ a, Returns p a → L a → Sound (f a) fun i b _ => i = [J.last] → L' b) :
    J.Ends L' R' (p >>= f) (q >>= g) := by
  intro c s s' hs b t hrun hclean c₁ hc₁
  obtain ⟨a, u, hfirst, hsecond⟩ := exists_of_bind_ok hrun
  have hreturns : Returns p a := ⟨s, u, hfirst⟩
  have hmoves := hp.moves hs.endsOnce hfirst
  have hends := hmoves.endsOnce hs.endsOnce
  have hmoves' := (hf a hreturns).moves hends hsecond
  -- no error in all is no error in either part
  have hle := hmoves.errors
  have hle' := hmoves'.errors
  obtain ⟨m, -, hm⟩ := hs.exists_of_moves hmoves
  -- the first part stopped at the seam, or both texts' parsers are still in step
  rcases h c s s' hs a u hfirst (by omega) m hm with ⟨rfl, hL⟩ | ⟨a', u', hfirst', hpasses, hu, hR⟩
  · left
    have hsound := hloose a hreturns hL u hends
    rw [hsecond] at hsound
    exact ⟨eq_nil_of_moves hm hmoves' hc₁, hsound.2 (by omega) hm⟩
  · rw [bind_of_ok hfirst']
    rcases hfg a a' hR m u u' hu b t hsecond (by omega) c₁ hc₁ with hend | ⟨b', t', hrun', hrest⟩
    · exact .inl hend
    · exact .inr ⟨b', t', hrun', hpasses.trans hrest.1, hrest.2⟩

/-- `Ends.bind` with no claim about runs that come to the end. That `f a` is `Tame` is known for
results of `p` only, which `covered` relates to results of `q`. -/
theorem Local.bind (h : J.Local R p q) (hfg : ∀ a b, R a b → J.Local R' (f a) (g b)) :
    J.Local R' (p >>= f) (q >>= g) where
  tame := by
    refine (h.tame.bind_of_returns (Q := fun _ _ _ _ => True) fun a ha => ?_).tame
    obtain ⟨b, hb⟩ := h.covered a ha
    exact (hfg a b hb).tame
  covered := by
    rintro b ⟨s, t, hrun⟩
    obtain ⟨a, u, hfirst, hsecond⟩ := exists_of_bind_ok hrun
    obtain ⟨a', ha'⟩ := h.covered a ⟨s, u, hfirst⟩
    exact (hfg a a' ha').covered b ⟨u, t, hsecond⟩
  ends := by
    -- what `p` returns is related to something, by `covered`
    have htame (a : α) (ha : Returns p a) : Tame (f a) := by
      obtain ⟨b, hb⟩ := h.covered a ha
      exact (hfg a b hb).tame
    exact h.ends.bind h.tame htame (fun a b hR => (hfg a b hR).ends) fun a ha _ =>
      (htame a ha).mono fun _ _ _ _ _ _ => trivial

/-- Nothing is read, so the common tokens stay the same. -/
theorem ends_pure {a : α} {b : β} (h : R a b) : J.Ends L R (Pure.pure a) (Pure.pure b) := by
  rintro c s s' hs _ _ ⟨⟩ - c₁ hc₁
  obtain rfl : c = c₁ := List.append_cancel_right (hs.short.symm.trans hc₁)
  exact .inr ⟨b, s', rfl, .refl s', hs, h⟩

theorem local_pure {a : α} {b : β} (h : R a b) : J.Local R (Pure.pure a) (Pure.pure b) where
  tame := tame_pure a
  covered := by
    rintro _ ⟨s, t, ⟨⟩⟩
    exact ⟨b, h⟩
  ends := ends_pure h

end Sequencing

/-! ## Steps -/

/-- Off the end the two cursors move over the same token. In the long text there is always one more,
since `rest` is not empty. -/
theorem Shares.advance {t : Token} {c : List Token} {s s' : State} (h : J.Shares (t :: c) s s') :
    s.current = t ∧ s'.current = t ∧ J.Shares c s.advance s'.advance := by
  obtain ⟨hshort, hahead⟩ : s.current = t ∧ s.ahead = c ++ [J.last] := List.cons.inj h.short
  obtain ⟨hlong, hahead'⟩ : s'.current = t ∧ s'.ahead = c ++ J.rest := List.cons.inj h.long
  refine ⟨hshort, hlong, ?_, ?_, fun u hu => h.common u (List.mem_cons_of_mem t hu)⟩
  · rw [stream_advance h.endsOnce (hshort ▸ (h.common t List.mem_cons_self).ne_eof), hahead]
  · -- there are tokens behind the seam, so the cursor can move there
    obtain ⟨u, us, hus⟩ := List.exists_cons_of_ne_nil
      (List.append_ne_nil_of_right_ne_nil c J.rest_ne_nil)
    rw [hus] at hahead' ⊢
    rw [State.advance, hahead']
    rfl

section Steps

variable {α β : Type} {L : α → Prop} {R : α → β → Prop}

/-- What comes to the end is of no concern to `Local`, so it is enough to look at runs that start
off the end. -/
theorem local_of_cons {p : Parser α} {q : Parser β} (htame : Tame p)
    (hcovered : ∀ a, Returns p a → ∃ b, R a b)
    (h : ∀ u c s s', J.Shares (u :: c) s s' → ∀ a t, p s = .ok a t →
      t.errors.size = s.errors.size → ∀ c₁, t.stream = c₁ ++ [J.last] →
        c₁ = [] ∨ ∃ b t', q s' = .ok b t' ∧ Passes s' t' ∧ J.Shares c₁ t t' ∧ R a b) :
    J.Local R p q where
  tame := htame
  covered := hcovered
  ends := by
    intro c s s' hs a t hrun hclean c₁ hc₁
    cases c with
    | nil => exact .inl ⟨eq_nil_of_moves hs.short (htame.moves hs.endsOnce hrun) hc₁, trivial⟩
    | cons u c => exact (h u c s s' hs a t hrun hclean c₁ hc₁).imp_left fun hnil => ⟨hnil, trivial⟩

/-- `peek` reads the first of the common tokens. At the end it may see something else, and that is
why `Local` says nothing there. -/
theorem local_peek : J.Local Eq peek peek := by
  refine local_of_cons (tame_peek_bind tame_pure) (fun a _ => ⟨a, rfl⟩) ?_
  rintro u c s s' hs _ _ ⟨⟩ - c₁ hc₁
  obtain ⟨hshort, hlong, -⟩ := hs.advance
  obtain rfl : u :: c = c₁ := List.append_cancel_right (hs.short.symm.trans hc₁)
  exact .inr ⟨_, s', rfl, .refl s', hs, by rw [hshort, hlong]⟩

theorem local_advance : J.Local Eq advance advance := by
  refine local_of_cons advance_sound.tame (fun a _ => ⟨a, rfl⟩) ?_
  rintro u c s s' hs _ _ ⟨⟩ - c₁ hc₁
  obtain ⟨-, -, hadvance⟩ := hs.advance
  obtain rfl : c = c₁ := List.append_cancel_right (hadvance.short.symm.trans hc₁)
  exact .inr ⟨(), s'.advance, rfl, passes_advance s', hadvance, rfl⟩

/-- The token is cut from two texts, and `Common.sameIn` says that both give the same excerpt. -/
theorem local_bump : J.Local SameSkeleton (bump J.short) (bump J.long) := by
  refine local_of_cons (bump_sound _).tame (fun n _ => ⟨n, rfl⟩) ?_
  rintro u c s s' hs _ _ ⟨⟩ - c₁ hc₁
  obtain ⟨hshort, hlong, hadvance⟩ := hs.advance
  obtain rfl : c = c₁ := List.append_cancel_right (hadvance.short.symm.trans hc₁)
  refine .inr ⟨_, s'.advance, rfl, passes_advance s', hadvance, ?_⟩
  rw [hshort, hlong]
  exact sameSkeleton_leaf (hs.common u List.mem_cons_self).sameIn

/-- A run with a report is not one without errors. -/
theorem local_report (e : SyntaxError) : J.Local Eq (report e) (report e) := by
  have htame : Tame (report e) := fun s _ =>
    ⟨⟨List.suffix_rfl, rfl, by simp⟩, fun _ => trivial⟩
  refine local_of_cons htame (fun a _ => ⟨a, rfl⟩) ?_
  rintro u c s s' hs _ _ ⟨⟩ hclean
  simp at hclean

/-- The end of a node's span is read off its children, so nothing behind the seam comes in. -/
theorem ends_node {kind : NodeKind} (hkind : kind.isToken = false) {ns ns' : List Node}
    (hns : List.Forall₂ SameSkeleton ns ns') {L : Node → Prop} :
    J.Ends L SameSkeleton (node J.short kind ns) (node J.long kind ns') := by
  rintro c s s' hs _ _ ⟨⟩ - c₁ hc₁
  obtain rfl : c = c₁ := List.append_cancel_right (hs.short.symm.trans hc₁)
  exact .inr ⟨_, s', rfl, .refl s', hs, sameSkeleton_covering hkind hns _ _⟩

theorem local_node {kind : NodeKind} (hkind : kind.isToken = false) {ns ns' : List Node}
    (hns : List.Forall₂ SameSkeleton ns ns') :
    J.Local SameSkeleton (node J.short kind ns) (node J.long kind ns') where
  tame := tame_node _ _ _
  covered n _ := ⟨n, rfl⟩
  ends := ends_node hkind hns

/-- A choice by the second lexeme. If there is only one common token, then what follows takes it
(`Consumes`) and comes to the end. -/
theorem local_second {f : Lexeme → Parser α} {g : Lexeme → Parser β}
    (h : ∀ l, J.Local R (f l) (g l)) (hconsumes : ∀ l, Consumes (f l)) :
    J.Local R (peekSecond >>= f) (peekSecond >>= g) := by
  refine local_of_cons ?_ ?_ ?_
  · exact (Sound.peekSecond_bind (T := fun _ _ _ => True) fun l =>
      (h l).tame.mono fun _ _ _ _ _ _ => trivial).tame
  · rintro a ⟨s, t, hrun⟩
    exact (h _).covered a ⟨s, t, hrun⟩
  · intro u c s s' hs a t hrun hclean c₁ hc₁
    obtain ⟨-, hahead⟩ : s.current = u ∧ s.ahead = c ++ [J.last] := List.cons.inj hs.short
    obtain ⟨-, hahead'⟩ : s'.current = u ∧ s'.ahead = c ++ J.rest := List.cons.inj hs.long
    have hrun : f (s.ahead.headD s.current).lexeme s = .ok a t := hrun
    show _ ∨ ∃ b t', g (s'.ahead.headD s'.current).lexeme s' = .ok b t' ∧ _
    cases c with
    -- the second token is behind the seam, so a run that takes one has come to the end
    | nil =>
      have hsound := hconsumes (s.ahead.headD s.current).lexeme s hs.endsOnce
      rw [hrun] at hsound
      have hlt := hsound.2 hclean ⟨u, _, hs.short, (hs.common u List.mem_cons_self).ne_eof⟩
      rw [hs.short, hc₁] at hlt
      exact .inl (List.eq_nil_of_length_eq_zero (by simpa using hlt))
    | cons v c =>
      rw [hahead] at hrun
      rw [hahead']
      exact ((h v.lexeme).ends _ s s' hs a t hrun hclean c₁ hc₁).imp_left And.left

/-- A choice by all that stands between parentheses. A run that does not come to the end has passed
the closing one and has a token behind it (`Encloses`), so `opensLambda_append_eq` applies. -/
theorem local_lambda {p q : Parser α} {p' q' : Parser β} (hp : J.Local R p p')
    (hq : J.Local R q q') (hp' : Encloses p) (hq' : Encloses q) :
    J.Local R (do if opensLambda (← MonadState.get).ahead then p else q)
      (do if opensLambda (← MonadState.get).ahead then p' else q') := by
  have hbranch (b : Bool) : J.Local R (if b then p else q) (if b then p' else q') := by
    cases b
    · exact hq
    · exact hp
  have hencloses (b : Bool) : Encloses (if b then p else q) := by
    cases b
    · exact hq'
    · exact hp'
  refine local_of_cons ?_ ?_ ?_
  · exact (Sound.get_bind (T := fun _ _ _ => True) fun s =>
      (hbranch (opensLambda s.ahead)).tame.mono fun _ _ _ _ _ _ => trivial).tame
  · rintro a ⟨s, t, hrun⟩
    exact (hbranch (opensLambda s.ahead)).covered a ⟨s, t, hrun⟩
  · intro u c s s' hs a t hrun hclean c₁ hc₁
    obtain ⟨-, hahead⟩ : s.current = u ∧ s.ahead = c ++ [J.last] := List.cons.inj hs.short
    obtain ⟨-, hahead'⟩ : s'.current = u ∧ s'.ahead = c ++ J.rest := List.cons.inj hs.long
    have hrun : (if opensLambda s.ahead then p else q) s = .ok a t := hrun
    show _ ∨ ∃ b t', (if opensLambda s'.ahead then p' else q') s' = .ok b t' ∧ _
    by_cases hnil : c₁ = []
    · exact .inl hnil
    · -- the parenthesis that is passed and the token behind it stand before the seam
      have hsound := hencloses (opensLambda s.ahead) s hs.endsOnce
      rw [hrun] at hsound
      obtain ⟨_, mid, v, rest, hinput, hclose, hrest⟩ := hsound.2 hclean
        ⟨u, _, hs.short, (hs.common u List.mem_cons_self).ne_eof⟩
      obtain ⟨x, rfl⟩ := hrest
      have hc : c = mid ++ v :: (x ++ c₁) := by
        rw [State.stream, hahead, hc₁, List.cons.injEq] at hinput
        exact List.append_cancel_right (hinput.2.trans (by simp))
      obtain ⟨w, y, hw⟩ := List.exists_cons_of_ne_nil (List.append_ne_nil_of_right_ne_nil x hnil)
      have hopens : opensLambda s.ahead = opensLambda s'.ahead := by
        rw [hahead, hahead', hc, hw, List.append_assoc, List.append_assoc]
        exact opensLambda_append_eq hclose _ _
      rw [← hopens]
      exact ((hbranch (opensLambda s.ahead)).ends _ s s' hs a t hrun hclean c₁ hc₁).imp_left
        And.left

theorem tame_rounds {more : Lexeme → Bool} {round : Parser (List Node)} (h : Tame round)
    (bound : List Token) : Tame (rounds more round bound) := by
  induction bound with
  | nil => exact tame_pure []
  | cons _ bound ih =>
    refine tame_peek_bind fun l => ?_
    split
    · exact h.bind fun first => ih.bind fun others => tame_pure (first ++ others)
    · exact tame_pure []

/-- `rounds` by induction on the bound. Both bounds last for the common tokens, so it is never they
that end the rounds. -/
theorem rounds_local {more : Lexeme → Bool} {round round' : Parser (List Node)}
    (hconsumes : Consumes round) (hround : J.Local (List.Forall₂ SameSkeleton) round round')
    {bound bound' c : List Token} {s s' : State} (hs : J.Shares c s s')
    (hbound : c.length ≤ bound.length) (hbound' : c.length ≤ bound'.length) {ns : List Node}
    {t : State} (hrun : rounds more round bound s = .ok ns t)
    (hclean : t.errors.size = s.errors.size) {c₁ : List Token} (hc₁ : t.stream = c₁ ++ [J.last]) :
    c₁ = [] ∨ ∃ ns' t', rounds more round' bound' s' = .ok ns' t' ∧ Passes s' t' ∧
      J.Shares c₁ t t' ∧ List.Forall₂ SameSkeleton ns ns' := by
  induction bound generalizing bound' c s s' ns with
  | nil =>
    obtain rfl := List.eq_nil_of_length_eq_zero (Nat.le_zero.mp hbound)
    cases hrun
    exact .inl (eq_nil_of_moves hs.short (.refl _) hc₁)
  | cons b bound ih =>
    have hmoves := (tame_rounds hround.tame (b :: bound)).moves hs.endsOnce hrun
    cases c with
    | nil => exact .inl (eq_nil_of_moves hs.short hmoves hc₁)
    | cons u c =>
      obtain ⟨b', bound', rfl⟩ := List.exists_cons_of_length_pos
        (Nat.lt_of_lt_of_le (Nat.succ_pos _) hbound')
      obtain ⟨hshort, hlong, -⟩ := hs.advance
      have hrun : (if more s.current.lexeme then _ else _ : Parser (List Node)) s = _ := hrun
      show _ ∨ ∃ ns' t', (if more s'.current.lexeme then _ else _ : Parser (List Node)) s' = _ ∧ _
      rw [hshort] at hrun
      rw [hlong]
      by_cases hmore : more u.lexeme
      · rw [if_pos hmore] at hrun ⊢
        obtain ⟨first, m, hfirst, hrest⟩ := exists_of_bind_ok hrun
        obtain ⟨others, _, hothers, ⟨⟩⟩ := exists_of_bind_ok hrest
        have hmoves₁ := hround.tame.moves hs.endsOnce hfirst
        have hmoves₂ := (tame_rounds hround.tame bound).moves (hmoves₁.endsOnce hs.endsOnce) hothers
        have hle₁ := hmoves₁.errors
        have hle₂ := hmoves₂.errors
        obtain ⟨c₂, -, hc₂⟩ := hs.exists_of_moves hmoves₁
        rcases hround.ends _ s s' hs first m hfirst (by omega) c₂ hc₂ with
          ⟨rfl, -⟩ | ⟨first', m', hfirst', hpasses, hm, hsame⟩
        · exact .inl (eq_nil_of_moves hc₂ hmoves₂ hc₁)
        · -- the round has taken a token, so the bounds last for what is left
          have hlt : c₂.length < (u :: c).length := by
            have hsound := hconsumes s hs.endsOnce
            rw [hfirst] at hsound
            have hlt := hsound.2 (by omega)
              ⟨u, _, hs.short, (hs.common u List.mem_cons_self).ne_eof⟩
            rw [hs.short, hc₂] at hlt
            simpa using hlt
          simp only [List.length_cons] at hbound hbound' hlt
          have hlasts : c₂.length ≤ bound'.length := by omega
          rw [bind_of_ok hfirst']
          rcases ih hm (by omega) hlasts hothers (by omega) with
            hnil | ⟨others', t', hothers', hpasses', ht, hsame'⟩
          · exact .inl hnil
          · rw [bind_of_ok hothers']
            exact .inr ⟨_, t', rfl, hpasses.trans hpasses', ht, List.rel_append hsame hsame'⟩
      · rw [if_neg hmore] at hrun ⊢
        cases hrun
        obtain rfl : u :: c = c₁ := List.append_cancel_right (hs.short.symm.trans hc₁)
        exact .inr ⟨[], s', rfl, .refl s', hs, .nil⟩

/-- The tokens ahead are at least the common ones, on both sides, so they last as bounds. -/
theorem local_repeatWhile {more : Lexeme → Bool} {round round' : Parser (List Node)}
    (hconsumes : Consumes round) (hround : J.Local (List.Forall₂ SameSkeleton) round round') :
    J.Local (List.Forall₂ SameSkeleton) (repeatWhile more round) (repeatWhile more round') := by
  refine local_of_cons ?_ (fun ns _ => ⟨ns, List.forall₂_same.mpr fun _ _ => rfl⟩) ?_
  · exact (Sound.get_bind (T := fun _ _ _ => True) fun s =>
      (tame_rounds hround.tame s.ahead).mono fun _ _ _ _ _ _ => trivial).tame
  · intro u c s s' hs ns t hrun hclean c₁ hc₁
    obtain ⟨-, hahead⟩ : s.current = u ∧ s.ahead = c ++ [J.last] := List.cons.inj hs.short
    obtain ⟨-, hahead'⟩ : s'.current = u ∧ s'.ahead = c ++ J.rest := List.cons.inj hs.long
    have hrest := List.length_pos_iff.mpr J.rest_ne_nil
    exact rounds_local hconsumes hround hs (by simp [hahead]) (by simp [hahead']; omega) hrun hclean
      hc₁

end Steps

/-! ## The parser -/

/-- With this `Level.Respects.construct` applies to `Local`. -/
theorem respects_local :
    Respects (fun _ _ => J.Local) SameSkeleton J.short J.long where
  pure := local_pure
  bind := .bind
  peek := local_peek
  advance := local_advance
  report _ := local_report _
  bump := local_bump
  node hkind hns := local_node hkind hns
  marked := sameSkeleton_marked
  second := local_second
  lambda := local_lambda
  repeatWhile _ := local_repeatWhile

/-- Without errors the guard does nothing on either side. For the long text this takes the count of
tokens: both cursors have passed as many. -/
theorem ends_guardedStatement {level level' : Level} {L : Node → Prop} (hlevel : LevelSound level)
    (h : J.Ends L SameSkeleton (level.enter .statement) (level'.enter .statement)) :
    J.Ends L SameSkeleton (guardedStatement level) (guardedStatement level') := by
  intro c s s' hs n t hrun hclean c₁ hc₁
  obtain ⟨henter, hmoved⟩ := enter_of_guardedStatement hlevel hs.endsOnce hrun hclean
  refine (h c s s' hs n t henter hclean c₁ hc₁).imp_right ?_
  rintro ⟨n', t', henter', hpasses, ht, hn⟩
  -- both have taken as many tokens, so both cursors have moved
  have hposition := ((hlevel .statement).tame.moves hs.endsOnce henter).position
  have hposition' := hpasses.moves.position
  rw [hs.short, hc₁] at hposition
  rw [hs.long, ht.long] at hposition'
  simp only [List.length_append] at hposition hposition'
  refine ⟨n', t', guardedStatement_of_enter henter' ?_ (by omega), hpasses, ht, hn⟩
  rw [hpasses.errors]
  exact Nat.lt_irrefl _

/-- From the constructs one level deeper to a `Level.Respects`, for any two parsers of them. -/
theorem respects_level {e e' : Nested → Parser Node} (hsound : LevelSound ⟨J.short, e⟩)
    (henter : ∀ {nested nested' : Nested}, nested.Alike SameSkeleton nested' →
      J.Local SameSkeleton (e nested) (e' nested')) :
    Level.Respects (fun _ _ => J.Local) SameSkeleton ⟨J.short, e⟩ ⟨J.long, e'⟩ :=
  { respects_local with
    sound := hsound
    enter := henter
    guarded := ⟨(guardedStatement_sound hsound).tame, fun n _ => ⟨n, rfl⟩,
      ends_guardedStatement hsound (henter .statement).ends⟩ }

/-- Off the end the two parsers do the same, on every level. The induction is on the levels left,
and without one the short text's parser does not end. -/
theorem local_enter (limit left : Nat) {nested nested' : Nested}
    (h : nested.Alike SameSkeleton nested') :
    J.Local SameSkeleton (enter J.short limit left nested) (enter J.long limit left nested') := by
  have htame := (enter_sound J.short limit left nested).tame
  induction left generalizing nested nested' with
  | zero => exact ⟨htame, fun n _ => ⟨n, rfl⟩, fun c s s' hs n t hrun => nomatch hrun⟩
  | succ left ih =>
    have hsound := enter_sound J.short limit left
    have hlevel : Level.Respects (fun _ _ => J.Local) SameSkeleton
        ⟨J.short, enter J.short limit left⟩ ⟨J.long, enter J.long limit left⟩ :=
      respects_level hsound fun hnested => ih hnested (hsound _).tame
    exact ⟨htame, fun n _ => ⟨n, rfl⟩, (hlevel.construct h).ends⟩

end Seam

end Parser

end SimpleLang
