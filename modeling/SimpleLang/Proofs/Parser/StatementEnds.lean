import SimpleLang.Proofs.Parser.Locality

/-!
# A statement may take all that is left

A statement ends with a semicolon or a closing brace, and what stands behind these is not looked at.
So it is parsed the same if a text ends there and if it goes on. Only a conditional asks for an
`else`: if that is what the longer text goes on with, the statement is open.

* `NeedsToken p`: the parser reports an error at the end of a text.
* `Seam.Follows L R p q`: a parser that does, and that may take all of the short text; a result in
  `L` is one that would have been another in the long text. It can follow any `Local` parser.
* `Node.Open`: the node of a statement that would take an `else`.
* `Seam.follows_enter`: statements on every level.
-/

namespace SimpleLang

/-- A node that ends with a conditional without `else`. It is told by the kinds of nodes alone: a
conditional has five parts, or seven with an `else`. -/
inductive Node.Open : Node → Prop where
  /-- A conditional that has no parts but its head. -/
  | conditional {n : Node} (hkind : n.kind = .conditional) (hhead : n.children.length = 5) : Open n
  | last {n m : Node} {front : List Node}
      (hkind : n.kind = .statement ∨ n.kind = .conditional ∨ n.kind = .loop)
      (hchildren : n.children = front ++ [m]) (hlast : Open m) : Open n

/-- Only these kinds of nodes can end with a statement. -/
theorem Node.Open.kind {n : Node} (h : n.Open) :
    n.kind = .statement ∨ n.kind = .conditional ∨ n.kind = .loop := by
  cases h with
  | conditional hkind _ => exact .inr (.inl hkind)
  | last hkind _ _ => exact hkind

/-- An open node that is no head of a conditional has an open last part. A head of five parts may be
open although its last part is not. -/
theorem Node.Open.getLast? {n m : Node} (h : n.Open) (hlast : n.children.getLast? = some m)
    (hhead : n.kind = .conditional → n.children.length ≠ 5) : m.Open := by
  cases h with
  | conditional hkind hlength => exact absurd hlength (hhead hkind)
  | last _ hchildren hopen =>
    rw [hchildren, List.getLast?_concat] at hlast
    exact Option.some.inj hlast ▸ hopen

namespace Parser

/-! ## Parsers that need a token -/

/-- The parser reports an error at the end, since without one a token other than the end is at the
cursor. -/
def NeedsToken {α : Type} (p : Parser α) : Prop := Sound p fun i _ _ => AtCursor (· ≠ .eof) i

section NeedsToken

variable {α β : Type} {p : Parser α} {f : α → Parser β}

/-- The first parser stands at the same cursor as both. -/
theorem NeedsToken.bind_left (h : NeedsToken p) (hf : ∀ a, Tame (f a)) : NeedsToken (p >>= f) := by
  refine (Sound.bind h hf).mono ?_
  rintro i b o - ⟨a, m, hcursor, -⟩
  exact hcursor

/-- A parser that starts at the end stays there, so the second one reports the error. It is enough
to know that of results that the first one has. -/
theorem NeedsToken.bind_right (h : Tame p) (hf : ∀ a, Returns p a → NeedsToken (f a)) :
    NeedsToken (p >>= f) := by
  refine (Sound.bind_of_returns h.suffix hf).mono ?_
  rintro i b o hends ⟨a, m, ⟨-, hsuffix⟩, u, us, rfl, hu⟩
  obtain ⟨t, ts, rfl⟩ := List.exists_cons_of_ne_nil hends.ne_nil
  refine ⟨t, ts, rfl, fun ht => hu ?_⟩
  obtain rfl := hends.eq_singleton ht
  have hmem := hsuffix.subset List.mem_cons_self
  rw [List.mem_singleton.mp hmem, ht]

/-- `expect` looks for a symbol, which the end is not. -/
theorem needsToken_expect (source : String) (wanted : Symbol) :
    NeedsToken (expect source wanted) := by
  refine (expect_sound source wanted).mono ?_
  rintro i ns o - ⟨t, rfl, ht, -⟩
  exact ⟨t, o, rfl, by simp [ht]⟩

/-- A statement is not empty, and what starts one is not the end (`Reads.head`). -/
theorem needsToken_statement {level : Level} (hlevel : LevelSound level) :
    NeedsToken (level.enter .statement) := by
  refine (hlevel .statement).mono ?_
  rintro i n o - hread
  obtain ⟨t, ts, rfl, ht⟩ := hread.head
  refine ⟨t, ts, rfl, fun heof => ?_⟩
  rw [heof] at ht
  cases ht

end NeedsToken

/-- A construct that takes a token, and the semicolon behind it: two tokens, so the second lexeme is
one of them. -/
theorem terminated_two {level : Level} {construct : Parser Node}
    (h : Sound construct fun i _ o => o.length < i.length) :
    Sound (terminated level construct >>= fun parts => node level.source .statement parts)
      fun i _ o => o.length + 2 ≤ i.length := by
  refine (terminated_sound h).mono ?_
  rintro i n o - ⟨m, t, hlt, -⟩
  exact hlt

/-- The value of an assignment takes a token, as every expression does. -/
theorem assignment_shrinks {level : Level} (hlevel : LevelSound level) :
    Sound (assignment level) fun i _ o => o.length < i.length := by
  refine ((bump_sound _).suffix.bind fun name => (bump_sound _).suffix.bind fun sign =>
    (expression_sound hlevel).bind fun value => node_sound _ _ _).mono ?_
  rintro i n o - ⟨name, _, ⟨-, hname⟩, sign, _, ⟨-, hsign⟩, value, _, hread, rfl, -⟩
  exact Nat.lt_of_lt_of_le (hread.length_lt rfl) (hsign.length_le.trans hname.length_le)

/-! ## Parsers that may come to the end -/

namespace Seam

variable {J : Seam}

/-- A parser that reports an error at the end, and may come to the end itself. In that case its
result is in `L`, or it is the same in the long text. -/
structure Follows {α β : Type} (J : Seam) (L : α → Prop) (R : α → β → Prop) (p : Parser α)
    (q : Parser β) : Prop where
  needs : NeedsToken p
  ends : J.Ends L R p q

section Follows

variable {α β α' β' : Type} {L : α → Prop} {L' : α' → Prop} {R : α → β → Prop} {R' : α' → β' → Prop}
  {p : Parser α} {q : Parser β} {f : α → Parser α'} {g : β → Parser β'}

/-- After a `Local` parser that has come to the end, `NeedsToken` excludes a run without errors. -/
theorem Local.follows (h : J.Local R p q) (hfg : ∀ a b, R a b → J.Follows L' R' (f a) (g b)) :
    J.Follows L' R' (p >>= f) (q >>= g) := by
  have hneeds (a : α) (ha : Returns p a) : NeedsToken (f a) := by
    obtain ⟨b, hb⟩ := h.covered a ha
    exact (hfg a b hb).needs
  refine ⟨.bind_right h.tame hneeds, h.ends.bind h.tame (fun a ha => (hneeds a ha).tame)
    (fun a b hR => (hfg a b hR).ends) fun a ha _ => (hneeds a ha).mono ?_⟩
  rintro i b o - ⟨t, ts, rfl, ht⟩ hlast
  exact absurd J.last_eof ((List.cons.inj hlast).1 ▸ ht)

/-- What follows a parser that may have come to the end stands there too, and its result has to be
in `L'` then. -/
theorem Follows.bind (h : J.Follows L R p q) (hf : ∀ a, Tame (f a))
    (hfg : ∀ a b, R a b → J.Ends L' R' (f a) (g b))
    (hloose : ∀ a, L a → Sound (f a) fun i b _ => i = [J.last] → L' b) :
    J.Follows L' R' (p >>= f) (q >>= g) :=
  ⟨h.needs.bind_left hf, h.ends.bind h.needs.tame (fun a _ => hf a) hfg fun a _ => hloose a⟩

/-- `L` is empty, so the first parser has the same result in the long text wherever it ends. -/
theorem Follows.bind_closed (h : J.Follows (fun _ => False) R p q) (hf : ∀ a, Tame (f a))
    (hfg : ∀ a b, R a b → J.Ends L' R' (f a) (g b)) : J.Follows L' R' (p >>= f) (q >>= g) :=
  h.bind hf hfg fun _ hL => hL.elim

/-- What `Sound` tells of the results of a parser is known along with the relation. -/
theorem Follows.and {Q : α → Prop} (h : J.Follows L R p q)
    (hQ : Sound p fun i a _ => AtCursor (· ≠ .eof) i → Q a) :
    J.Follows (fun a => L a ∧ Q a) (fun a b => R a b ∧ Q a) p q := by
  refine ⟨h.needs, fun c s s' hs a t hrun hclean c₁ hc₁ => ?_⟩
  have hQa : Q a := by
    have hneeds := h.needs s hs.endsOnce
    have hsound := hQ s hs.endsOnce
    rw [hrun] at hneeds hsound
    exact hsound.2 hclean (hneeds.2 hclean)
  refine (h.ends c s s' hs a t hrun hclean c₁ hc₁).imp ?_ ?_
  · exact fun hend => ⟨hend.1, hend.2, hQa⟩
  · rintro ⟨b, t', hrun', hpasses, ht, hR⟩
    exact ⟨b, t', hrun', hpasses, ht, hR, hQa⟩

/-- The lexeme at the cursor is the same, or it is the end, where `f .eof` reports an error. -/
theorem Follows.peek_bind {f : Lexeme → Parser α} {g : Lexeme → Parser β}
    (h : ∀ l, J.Follows L R (f l) (g l)) : J.Follows L R (peek >>= f) (peek >>= g) :=
  local_peek.follows fun l _ hl => hl ▸ h l

/-- A run with a report is not one without errors, so there is nothing to show. -/
theorem follows_report (e : SyntaxError) {f : Unit → Parser α} {g : Unit → Parser β}
    (hf : Tame (f ())) : J.Follows L R (report e >>= f) (report e >>= g) := by
  have hneeds (T : List Token → α → List Token → Prop) : Sound (report e >>= f) T :=
    Sound.report_bind e hf T
  refine ⟨hneeds _, fun c s s' hs a t hrun hclean => ?_⟩
  have hsound := hneeds (fun _ _ _ => False) s hs.endsOnce
  rw [hrun] at hsound
  exact (hsound.2 hclean).elim

end Follows

/-- `expect` takes a token or reports. The token is one of the common ones, so it is there in the
long text too. -/
theorem follows_expect {L : List Node → Prop} (wanted : Symbol) :
    J.Follows L (List.Forall₂ SameSkeleton) (expect J.short wanted) (expect J.long wanted) := by
  refine ⟨needsToken_expect _ wanted, fun c s s' hs ns t hrun hclean c₁ hc₁ => ?_⟩
  have hsound := expect_sound J.short wanted s hs.endsOnce
  rw [hrun] at hsound
  -- nothing was reported, so the wanted token was there
  obtain ⟨u, hu, hwanted, rfl⟩ := hsound.2 hclean
  rw [hs.short, hc₁] at hu
  obtain rfl : c = u :: c₁ := List.append_cancel_right hu
  obtain ⟨-, hlong, hadvance⟩ := hs.advance
  have hrun' : expect J.long wanted s' = .ok [.ofToken J.long u] s'.advance := by
    show (if s'.current.lexeme = _ then _ else _ : Parser (List Node)) s' = _
    rw [hlong, if_pos hwanted, ← hlong]
    rfl
  have hsame := sameSkeleton_leaf (hs.common u List.mem_cons_self).sameIn
  exact .inr ⟨_, _, hrun', passes_advance s', { hadvance with short := hc₁ }, .cons hsame .nil⟩

/-- A choice by the second lexeme. What takes two tokens takes the second one too, so it is one of
the common ones. -/
theorem follows_second {α β : Type} {L : α → Prop} {R : α → β → Prop} {f : Lexeme → Parser α}
    {g : Lexeme → Parser β} (h : ∀ l, J.Follows L R (f l) (g l))
    (htwo : ∀ l, Sound (f l) fun i _ o => o.length + 2 ≤ i.length) :
    J.Follows L R (peekSecond >>= f) (peekSecond >>= g) := by
  have hneeds : NeedsToken (peekSecond >>= f) :=
    Sound.peekSecond_bind fun l => (h l).needs.mono fun _ _ _ _ hcursor _ => hcursor
  refine ⟨hneeds, fun c s s' hs a t hrun hclean c₁ hc₁ => ?_⟩
  have hrun : f (s.ahead.headD s.current).lexeme s = .ok a t := hrun
  -- two tokens are taken, and both are common
  have hlength : c₁.length + 2 ≤ c.length := by
    have hsound := htwo (s.ahead.headD s.current).lexeme s hs.endsOnce
    rw [hrun] at hsound
    have hlength := hsound.2 hclean
    rw [hs.short, hc₁] at hlength
    simp only [List.length_append, List.length_singleton] at hlength
    omega
  obtain ⟨u, c, rfl⟩ := List.exists_cons_of_length_pos (Nat.lt_of_lt_of_le (by omega) hlength)
  obtain ⟨v, c, rfl⟩ := List.exists_cons_of_length_pos (l := c) (by simp at hlength; omega)
  have hahead : s.ahead = v :: (c ++ [J.last]) := (List.cons.inj hs.short).2
  have hahead' : s'.ahead = v :: (c ++ J.rest) := (List.cons.inj hs.long).2
  rw [hahead] at hrun
  show _ ∨ ∃ b t', g (s'.ahead.headD s'.current).lexeme s' = .ok b t' ∧ _
  rw [hahead']
  exact (h v.lexeme).ends _ s s' hs a t hrun hclean c₁ hc₁

/-- A look at the cursor where the end may be. The short text's parser sees `.eof` there, the long
text's sees the lexeme `l` behind the seam, and `hend` says what follows in each case. -/
theorem ends_peek_bind {α β : Type} {L : α → Prop} {R : α → β → Prop} {f : Lexeme → Parser α}
    {g : Lexeme → Parser β} (h : ∀ l, J.Ends L R (f l) (g l)) (htame : Tame (f .eof))
    (hend : ∀ l, AtCursor (· = l) J.rest →
      J.Ends L R (f .eof) (g l) ∨ Sound (f .eof) fun i a _ => i = [J.last] → L a) :
    J.Ends L R (peek >>= f) (peek >>= g) := by
  intro c s s' hs a t hrun hclean c₁ hc₁
  have hrun : f s.current.lexeme s = .ok a t := hrun
  show _ ∨ ∃ b t', g s'.current.lexeme s' = .ok b t' ∧ _
  cases c with
  | cons u c =>
    obtain ⟨hshort, hlong, -⟩ := hs.advance
    rw [hshort] at hrun
    rw [hlong]
    exact h u.lexeme _ s s' hs a t hrun hclean c₁ hc₁
  -- the seam is at the cursor
  | nil =>
    have hlast : s.current = J.last := (List.cons.inj hs.short).1
    rw [hlast, J.last_eof] at hrun
    rcases hend s'.current.lexeme ⟨s'.current, s'.ahead, hs.long.symm, rfl⟩ with hends | hsound
    · exact hends _ s s' hs a t hrun hclean c₁ hc₁
    · have hresult := hsound s hs.endsOnce
      rw [hrun] at hresult
      exact .inl ⟨eq_nil_of_moves hs.short (htame.moves hs.endsOnce hrun) hc₁,
        hresult.2 hclean hs.short⟩

/-! ## Statements -/

/-- The long text goes on with an `else`, and the result has a property. -/
def Loose {α : Type} (J : Seam) (P : α → Prop) (a : α) : Prop :=
  AtCursor (· = .keyword .elseWord) J.rest ∧ P a

/-- A node with such parts is open wherever it stands. Only the offset of the cursor is left open by
`Node.above`. -/
theorem loose_node (helse : AtCursor (· = .keyword .elseWord) J.rest) {kind : NodeKind}
    {parts : List Node} (hopen : ∀ offset, (Node.above J.short kind parts offset).Open) :
    Sound (node J.short kind parts) fun i n _ => i = [J.last] → J.Loose Node.Open n := by
  refine (node_sound _ _ _).mono ?_
  rintro i _ o - ⟨rfl, t, ts, rfl, rfl⟩ -
  exact ⟨helse, hopen t.span.start⟩

section Statements

variable {e e' : Nested → Parser Node}

/-- The semicolon is the last token that is looked at. -/
theorem follows_terminated {L : List Node → Prop} {p p' : Parser Node}
    (hp : J.Local SameSkeleton p p') :
    J.Follows L (List.Forall₂ SameSkeleton) (terminated ⟨J.short, e⟩ p)
      (terminated ⟨J.long, e'⟩ p') :=
  hp.follows fun _ _ hn => (follows_expect _).bind_closed (fun _ => tame_pure _) fun _ _ hend =>
    ends_pure (.cons hn hend)

variable (h : Level.Respects (fun _ _ => J.Local) SameSkeleton ⟨J.short, e⟩ ⟨J.long, e'⟩)
include h

/-- The closing brace is the last token that is looked at, and the statements before it are
`Local`. -/
theorem follows_block {L : Node → Prop} :
    J.Follows L SameSkeleton (block ⟨J.short, e⟩) (block ⟨J.long, e'⟩) := by
  refine (h.expect _).follows fun _ _ hopening => ?_
  refine (h.guardedStatements (by decide)).follows fun _ _ hbody => ?_
  refine (follows_expect _).bind_closed (fun _ => tame_node _ _ _) fun _ _ hclosing => ?_
  exact ends_node rfl (List.rel_append (List.rel_append hopening hbody) hclosing)

theorem follows_functionBody {L : List Node × Bool → Prop} :
    J.Follows L (fun body body' => List.Forall₂ SameSkeleton body.1 body'.1 ∧ body.2 = body'.2)
      (functionBody ⟨J.short, e⟩) (functionBody ⟨J.long, e'⟩) := by
  refine .peek_bind fun l => ?_
  split
  · refine h.bump.follows fun _ _ hsign => h.expression.follows fun _ _ hvalue => ?_
    refine (follows_expect _).bind_closed (fun _ => tame_pure _) fun _ _ hclosing => ?_
    exact ends_pure ⟨.cons hsign (.cons hvalue hclosing), rfl⟩
  · exact (follows_block h).bind_closed (fun _ => tame_pure _) fun _ _ hblock =>
      ends_pure ⟨.cons hblock .nil, rfl⟩
  · exact follows_report _ (tame_pure _)

theorem follows_function {L : Node → Prop} :
    J.Follows L SameSkeleton (function ⟨J.short, e⟩) (function ⟨J.long, e'⟩) := by
  refine h.bump.follows fun _ _ hword => h.expectName.follows fun _ _ hname => ?_
  refine (h.expect _).follows fun _ _ hopening => ?_
  refine h.parametersUnlessClosed.follows fun _ _ hnames => ?_
  refine (h.expect _).follows fun _ _ hclosing => ?_
  refine (follows_functionBody h).bind_closed ?_ ?_
  · exact fun _ => (tame_node _ _ _).bind fun _ => tame_pure _
  · rintro ⟨body, arrow⟩ ⟨body', _⟩ ⟨hbody, rfl⟩
    have hhead := List.rel_append (List.rel_append (.cons hword hname) hopening) hnames
    have hnode : J.Ends (fun _ => False) SameSkeleton (node J.short .function _)
        (node J.long .function _) :=
      ends_node rfl (List.rel_append (List.rel_append hhead hclosing) hbody)
    exact hnode.bind (tame_node _ _ _) (fun _ _ => tame_pure _)
      (fun _ _ hn => ends_pure (sameSkeleton_marked arrow hn)) fun _ _ hL => hL.elim

variable (hbody : J.Follows (J.Loose Node.Open) SameSkeleton (e .statement) (e' .statement))
include hbody

/-- The head of a conditional or a loop is open if the statement in it is. -/
theorem follows_conditionAndBody :
    J.Follows (J.Loose fun parts => ∃ front b, parts = front ++ [b] ∧ b.Open)
      (List.Forall₂ SameSkeleton) (conditionAndBody ⟨J.short, e⟩)
      (conditionAndBody ⟨J.long, e'⟩) := by
  refine h.bump.follows fun _ _ hword => (h.expect _).follows fun _ _ hopening => ?_
  refine h.expression.follows fun _ _ htest => (h.expect _).follows fun _ _ hclosing => ?_
  refine hbody.bind (fun _ => tame_pure _) (fun _ _ hb => ends_pure ?_) fun b hopen => ?_
  · have hhead := List.rel_append (.cons hword hopening) (.cons htest hclosing)
    exact List.rel_append hhead (.cons hb .nil)
  · refine (Sound.pure _).mono ?_
    rintro i _ o - ⟨rfl, rfl⟩ -
    exact ⟨hopen.1, _, b, rfl, hopen.2⟩

/-- A loop ends with its body, so it is open if that is. -/
theorem follows_loop :
    J.Follows (J.Loose Node.Open) SameSkeleton (loop ⟨J.short, e⟩) (loop ⟨J.long, e'⟩) := by
  refine (follows_conditionAndBody h hbody).bind (fun _ => tame_node _ _ _)
    (fun _ _ hparts => ends_node rfl hparts) ?_
  rintro parts ⟨helse, front, b, hparts, hopen⟩
  exact loose_node helse fun _ => .last (.inr (.inr rfl)) hparts hopen

/-- Here the seam shows. At the end of the short text the parser sees no `else`; if the long text
goes on with one, then the conditional is open. -/
theorem follows_conditional :
    J.Follows (J.Loose Node.Open) SameSkeleton (conditional ⟨J.short, e⟩)
      (conditional ⟨J.long, e'⟩) := by
  have hfive : Sound (conditionAndBody ⟨J.short, e⟩) fun i parts _ =>
      AtCursor (· ≠ .eof) i → parts.length = 5 := by
    refine (conditionAndBody_sound h.sound).mono ?_
    rintro i parts o - hread hcursor
    cases hread hcursor
    rfl
  -- without an `else` the head is all that the conditional has
  have hopen {head : List Node} (hhead : head.length = 5) (offset : Nat) :
      (Node.above J.short .conditional (head ++ []) offset).Open :=
    .conditional rfl (by rw [List.append_nil]; exact hhead)
  have htame (head : List Node) (l : Lexeme) : Tame (do
      let otherwise ←
        if l = .keyword .elseWord then
          let word ← bump J.short
          pure [word, ← e .statement]
        else
          pure []
      node J.short .conditional (head ++ otherwise)) := by
    split
    · exact (bump_sound _).tame.bind fun _ => hbody.needs.tame.bind fun _ => tame_node _ _ _
    · exact tame_node _ _ _
  refine ((follows_conditionAndBody h hbody).and hfive).bind
    (fun head => tame_peek_bind (htame head)) ?_ ?_
  · rintro head head' ⟨hsame, hhead⟩
    -- the cursor may be at the end of the short text, with `l` behind the seam
    refine ends_peek_bind (fun l => ?_) (htame head .eof) fun l hl => ?_
    · split
      · refine (h.bump.follows fun _ _ hword => hbody.bind (fun _ => tame_node _ _ _)
          (fun _ _ hno => ends_node rfl ?_) ?_).ends
        · exact List.rel_append hsame (.cons hword (.cons hno .nil))
        · rintro no ⟨helse, hno⟩
          exact loose_node helse fun _ => .last (.inr (.inl rfl)) (List.append_cons ..) hno
      · exact ends_node rfl (List.rel_append hsame .nil)
    -- behind the seam stands an `else` that this conditional would take, or something it does not
    -- look at
    · by_cases helse : l = .keyword .elseWord
      · exact .inr (loose_node (helse ▸ hl) (hopen hhead))
      · rw [if_neg helse]
        exact .inl (ends_node rfl (List.rel_append hsame .nil))
  -- the branch has come to the end, so there is no `else` in the short text
  · rintro head ⟨⟨helse, -⟩, hhead⟩
    refine Sound.peek_bind fun l => ?_
    split
    next hl =>
      refine ((bump_sound _).tame.bind fun _ => hbody.needs.tame.bind fun _ => tame_node _ _ _).mono
        ?_
      rintro i _ o - - ⟨t, ts, rfl, ht⟩ hlast
      rw [(List.cons.inj hlast).1, J.last_eof, hl] at ht
      cases ht
    next => exact (loose_node helse (hopen hhead)).mono fun _ _ _ _ hn _ => hn

/-- By the first lexeme. Statements that end with a semicolon are never open, those that end with a
statement are so if that is. -/
theorem follows_statement :
    J.Follows (J.Loose Node.Open) SameSkeleton (statement ⟨J.short, e⟩)
      (statement ⟨J.long, e'⟩) := by
  -- behind a semicolon no `else` can be taken
  have hterminated {p p' : Parser Node} (hp : J.Local SameSkeleton p p') :
      J.Follows (J.Loose Node.Open) SameSkeleton
        (terminated ⟨J.short, e⟩ p >>= fun parts => node J.short .statement parts)
        (terminated ⟨J.long, e'⟩ p' >>= fun parts => node J.long .statement parts) :=
    (follows_terminated hp).bind_closed (fun _ => tame_node _ _ _) fun _ _ hparts =>
      ends_node rfl hparts
  -- without one a statement is open if its construct is
  have hsingle {p p' : Parser Node} (hp : J.Follows (J.Loose Node.Open) SameSkeleton p p') :
      J.Follows (J.Loose Node.Open) SameSkeleton (p >>= fun n => node J.short .statement [n])
        (p' >>= fun n => node J.long .statement [n]) := by
    refine hp.bind (fun _ => tame_node _ _ _) (fun _ _ hn => ends_node rfl (.cons hn .nil)) ?_
    rintro n ⟨helse, hn⟩
    exact loose_node helse fun _ => .last (.inl rfl) (List.nil_append _).symm hn
  refine .peek_bind fun l => ?_
  split
  · exact hterminated h.declaration
  · exact hsingle (follows_function h)
  · exact hterminated h.returning
  · exact hsingle (follows_conditional h hbody)
  · exact hsingle (follows_loop h hbody)
  · exact hsingle (follows_block h)
  · refine follows_second (fun second => ?_) fun second => ?_
    · split
      · exact hterminated h.assignment
      · exact hterminated h.expression
    · split
      · exact terminated_two (assignment_shrinks h.sound)
      · exact terminated_two ((expression_sound h.sound).mono fun _ _ _ _ hread =>
          hread.length_lt rfl)
  · exact hterminated h.expression

end Statements

/-- A statement is parsed the same if the text ends behind it and if it goes on, unless it is open
and an `else` follows. The induction is on the levels left. -/
theorem follows_enter (limit left : Nat) :
    J.Follows (J.Loose Node.Open) SameSkeleton (enter J.short limit left .statement)
      (enter J.long limit left .statement) := by
  have hneeds (left : Nat) := needsToken_statement (enter_sound J.short limit left)
  induction left with
  | zero => exact ⟨hneeds 0, fun c s s' hs n t hrun => nomatch hrun⟩
  | succ left ih =>
    have hlevel := respects_level (enter_sound J.short limit left) (local_enter limit left)
    exact ⟨hneeds (left + 1), (follows_statement hlevel ih).ends⟩

end Seam

end Parser

end SimpleLang
