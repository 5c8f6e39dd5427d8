import SimpleLang.Proofs.Grammar.Greedy
import SimpleLang.Proofs.Parser.Acceptance
import SimpleLang.Proofs.Tokens

/-!
# The parser accepts exactly the grammar

What is derived greedily is read, and so the parser accepts whatever the grammar derives, as far as
the nesting limit lets it; the other direction is `derives_of_reads`.

* `chain_reads`: a chain of operands is read by climbing through the precedences, wherever that
  stops. The induction is on the length of the chain.
* `Greedy.find_stopsParams`: an expression in parentheses is never taken for the parameters of a
  lambda.
* `reads_of_greedy`: every greedy shape is read, whatever follows that is not part of it.

The last section puts the two directions together for whole sources.
-/

namespace SimpleLang

namespace Grammar

open Lexeme SimpleLang.Symbol Keyword

/-! ## Chains of operators -/

/-- The lexemes that can follow an expression and are not part of one. -/
structure EndsExpression (l : Lexeme) : Prop where
  binary : l.binary? = none
  paren : l ≠ symbol leftParen
  arrow : l ≠ symbol arrow

section Chains

variable {source : String}

/-- Operands with operators between them, each operand read up to what follows it. -/
inductive Chain (source : String) : List Token → Prop where
  | last {us : List Token} (hus : ∀ t rest, EndsExpression t.lexeme →
      ∃ n, Reads source .operand (us ++ t :: rest) [n] (t :: rest)) : Chain source us
  | more {us vs : List Token} {t : Token} {op : Operation} (hop : t.lexeme.binary? = some op)
      (hus : ∀ rest, ∃ n, Reads source .operand (us ++ t :: rest) [n] (t :: rest))
      (hvs : Chain source vs) : Chain source (us ++ t :: vs)

/-- What is left of a chain: nothing but what follows it, or an operator and fewer than `k` more
tokens of the chain. -/
def Pending (source : String) (follow : List Token) (k : Nat) (r : List Token) : Prop :=
  r = follow ∨ ∃ t vs op, r = t :: (vs ++ follow) ∧ t.lexeme.binary? = some op ∧
    Chain source vs ∧ vs.length < k

/-- The bound of `Pending` is only there for the induction of `chain_reads`. -/
theorem Pending.mono {follow r : List Token} {j k : Nat} (h : Pending source follow j r)
    (hjk : j ≤ k) : Pending source follow k r := by
  rcases h with rfl | ⟨t, vs, op, rfl, hop, hvs, hlt⟩
  · exact .inl rfl
  · exact .inr ⟨t, vs, op, rfl, hop, hvs, by omega⟩

/-- No operator is no operator that binds tightly. -/
theorem endsBefore_of_endsExpression {t : Token} {rest : List Token} {minimum : Nat}
    (ht : EndsExpression t.lexeme) : EndsBefore minimum (t :: rest) := by
  rintro u ⟨⟩ op hop
  simp [ht.binary] at hop

/-- Precedence climbing takes a chain apart: an expression takes operands up to an operator that
binds too loosely, and so do the operations behind a left operand. -/
theorem chain_reads {f : Token} {rest : List Token} (hf : EndsExpression f.lexeme) (k : Nat) :
    (∀ us, us.length < k → Chain source us → ∀ minimum, ∃ n r,
      Reads source (.expression minimum) (us ++ f :: rest) [n] r ∧
        Pending source (f :: rest) us.length r ∧ EndsBefore minimum r) ∧
    (∀ j i, j ≤ k → Pending source (f :: rest) j i → ∀ minimum left, ∃ n r,
      Reads source (.operations minimum left) i [n] r ∧
        Pending source (f :: rest) j r ∧ EndsBefore minimum r) := by
  have hstop (minimum : Nat) : EndsBefore minimum (f :: rest) := endsBefore_of_endsExpression hf
  have hend (minimum : Nat) (left : Node) :
      Reads source (.operations minimum left) (f :: rest) [left] (f :: rest) :=
    .operationsEnd (hstop minimum f rfl)
  -- both parts are by the same induction, as expressions and operations call each other
  induction k with
  | zero =>
    refine ⟨fun us hlt => absurd hlt (Nat.not_lt_zero _), ?_⟩
    rintro j i hj (rfl | ⟨_, _, _, _, _, _, hlt⟩) minimum left
    · exact ⟨left, _, hend minimum left, .inl rfl, hstop minimum⟩
    · omega
  | succ k ih =>
    -- an expression: its first operand is read, and the rest is pending
    have hexpr : ∀ us, us.length < k + 1 → Chain source us → ∀ minimum, ∃ n r,
        Reads source (.expression minimum) (us ++ f :: rest) [n] r ∧
          Pending source (f :: rest) us.length r ∧ EndsBefore minimum r := by
      intro us hlt hus minimum
      cases hus with
      | last hus =>
        obtain ⟨n, hn⟩ := hus f rest hf
        exact ⟨n, _, .expression hn (hend minimum n), .inl rfl, hstop minimum⟩
      | @more us vs t op hop hus hvs =>
        simp only [List.length_append, List.length_cons] at hlt ⊢
        obtain ⟨left, hleft⟩ := hus (vs ++ f :: rest)
        obtain ⟨n, r, hn, hr, hmin⟩ := ih.2 (vs.length + 1) _ (by omega)
          (.inr ⟨t, vs, op, rfl, hop, hvs, Nat.lt_succ_self _⟩) minimum left
        refine ⟨n, r, ?_, hr.mono (by omega), hmin⟩
        rw [List.append_assoc]
        exact .expression hleft hn
    refine ⟨hexpr, ?_⟩
    -- the right operand is shorter than what is pending, so the expressions of this length serve it
    rintro j i hj (rfl | ⟨t, vs, op, rfl, hop, hvs, hlt⟩) minimum left
    · exact ⟨left, _, hend minimum left, .inl rfl, hstop minimum⟩
    -- the operator binds too loosely and the chain ends, or it takes its right operand
    · rcases Nat.lt_or_ge op.precedence minimum with hloose | htight
      · have hends : t.lexeme.endsOperations minimum := by
          intro op' hop'
          rw [hop] at hop'
          cases hop'
          exact hloose
        refine ⟨left, _, .operationsEnd hends, .inr ⟨t, vs, op, rfl, hop, hvs, hlt⟩, ?_⟩
        rintro _ ⟨⟩
        exact hends
      · obtain ⟨right, m, hright, hm, _⟩ := hexpr vs (by omega) hvs (op.precedence + 1)
        obtain ⟨n, r, hn, hr, hmin⟩ := ih.2 vs.length m (by omega) hm minimum _
        exact ⟨n, r, .operation hop htight hright hn, hr.mono (by omega), hmin⟩

/-- A whole chain is read as an expression. -/
theorem Chain.reads {us : List Token} (hus : Chain source us) {t : Token} (rest : List Token)
    (ht : EndsExpression t.lexeme) :
    ∃ n, Reads source (.expression 0) (us ++ t :: rest) [n] (t :: rest) := by
  obtain ⟨n, r, hn, hr, hmin⟩ := (chain_reads ht (us.length + 1)).1 us (Nat.lt_succ_self _) hus 0
  rcases hr with rfl | ⟨u, vs, op, rfl, hop, _, _⟩
  · exact ⟨n, hn⟩
  · exact absurd (hmin u rfl op hop) (Nat.not_lt_zero _)

end Chains

/-! ## Groups and parameters -/

/-- Whether a search for the parameters of a lambda stops at the lexeme. -/
def stopsParams : Lexeme → Bool
  | ident _ | symbol comma => false
  | _ => true

/-- The search stops inside of the parentheses, so their contents are no parameters. -/
theorem opensLambda_eq_false {us rest : List Token} {l : Lexeme}
    (h : (lexemes us).find? stopsParams = some l) (hl : l ≠ symbol rightParen) :
    Parser.opensLambda (us ++ rest) = false := by
  induction us with
  | nil => simp at h
  | cons t us ih =>
    obtain ⟨m, span⟩ := t
    cases m with
    | ident x => exact ih (by simpa [stopsParams] using h)
    | symbol s =>
      cases s with
      | comma => exact ih (by simpa [stopsParams] using h)
      | rightParen => exact absurd (Option.some.inj h).symm hl
      | _ => rfl
    | _ => rfl

/-- Names and commas are passed over. -/
theorem opensLambda_append {us rest : List Token}
    (h : (lexemes us).find? stopsParams = none) :
    Parser.opensLambda (us ++ rest) = Parser.opensLambda rest := by
  induction us with
  | nil => rfl
  | cons t us ih =>
    obtain ⟨m, span⟩ := t
    cases m with
    | ident x => exact ih (by simpa [stopsParams] using h)
    | symbol s =>
      cases s with
      | comma => exact ih (by simpa [stopsParams] using h)
      | _ => simp [stopsParams] at h
    | _ => simp [stopsParams] at h

/-- Parameters in parentheses are told from an expression by the arrow behind them. -/
theorem opensLambda_params {us rest : List Token} {b a : Token}
    (h : (lexemes us).find? stopsParams = none) (hb : b.lexeme = symbol rightParen)
    (ha : a.lexeme = symbol arrow) : Parser.opensLambda (us ++ b :: a :: rest) = true := by
  rw [opensLambda_append h]
  obtain ⟨lb, _⟩ := b
  obtain ⟨la, _⟩ := a
  cases hb
  cases ha
  rfl

/-- If the search does not stop at a `)` in the first part, then not in the whole either. -/
theorem find_stopsParams_append {ls ms : List Lexeme} {l : Lexeme}
    (h : ls.find? stopsParams ≠ some (symbol rightParen)) (hl : stopsParams l)
    (hne : l ≠ symbol rightParen) :
    (ls ++ l :: ms).find? stopsParams ≠ some (symbol rightParen) := by
  cases hls : ls.find? stopsParams with
  | none => simpa [hls, hl] using hne
  | some l' =>
    rw [hls] at h
    simpa [hls] using h

/-- The shapes of an expression or the start of one. -/
def Shape.isExpression : Shape → Bool
  | .chain | .openOperand | .operand | .call | .primary => true
  | _ => false

/-- In an expression no closing parenthesis stands before every other lexeme but names and
commas. -/
theorem Greedy.find_stopsParams {shape : Shape} {w : List Lexeme} (h : Greedy shape w)
    (hshape : shape.isExpression) : w.find? stopsParams ≠ some (symbol rightParen) := by
  induction h with
  | last _ ih | lastOpen _ ih | operand _ ih | callee _ ih => exact ih rfl
  | @more s u v _ hs _ ih _ =>
    -- an operator stops the search, and it is no parenthesis
    have hne : symbol s ≠ symbol rightParen := by
      rintro ⟨⟩
      simp [Symbol.binary?] at hs
    have hstop : stopsParams (symbol s) = true := by
      cases s <;> simp_all [stopsParams, Symbol.binary?]
    exact find_stopsParams_append (ih rfl) hstop hne
  | call _ _ ih _ => exact find_stopsParams_append (ih rfl) rfl (by decide)
  | openLambda hu _ _ => cases hu <;> simp [stopsParams]
  | blockLambda hu _ _ => cases hu <;> simp [stopsParams]
  | openNegation _ _ | negation _ _ | array _ _ | group _ _ => simp [stopsParams]
  | name => simp [stopsParams]
  | @literal l hl =>
    intro h
    cases l <;> simp_all [stopsParams, isLiteral]
  | _ => cases hshape

/-- Parameters are names and commas. -/
theorem find_stopsParams_params {n : Nonterminal} {u : List Lexeme} (h : Derives n u)
    (hn : n = .params ∨ n = .paramsOption) : u.find? stopsParams = none := by
  induction h with
  | lastParam => rfl
  | moreParams _ ih => simpa [stopsParams] using ih (.inl rfl)
  | noParams => rfl
  | someParams _ ih => exact ih (.inl rfl)
  | _ => rcases hn with hn | hn <;> cases hn

/-- An expression in parentheses does not look like the parameters of a lambda, unless an arrow
follows. -/
theorem opensLambda_group {us rest : List Token} {b t : Token}
    (h : (lexemes us).find? stopsParams ≠ some (symbol rightParen))
    (hb : b.lexeme = symbol rightParen) (ht : t.lexeme ≠ symbol arrow) :
    Parser.opensLambda (us ++ b :: t :: rest) = false := by
  cases hfind : (lexemes us).find? stopsParams with
  | some l =>
    refine opensLambda_eq_false hfind ?_
    rintro rfl
    exact h hfind
  | none =>
    -- only names and commas are inside, so what follows the parenthesis decides
    rw [opensLambda_append hfind]
    obtain ⟨lb, _⟩ := b
    obtain ⟨lt, _⟩ := t
    cases hb
    cases lt with
    | symbol s =>
      cases s with
      | arrow => exact absurd rfl ht
      | _ => rfl
    | _ => rfl

section Parameters

variable {source : String}

/-- By induction on the derivation. The token behind the names is no comma, so they end there. -/
theorem readsNames_of_derives {n : Nonterminal} {u : List Lexeme} (h : Derives n u)
    (hn : n = .params) {us : List Token} (hus : lexemes us = u) {t : Token} (rest : List Token)
    (ht : t.lexeme ≠ symbol comma) :
    ∃ ns, ReadsNames source (us ++ t :: rest) ns (t :: rest) := by
  induction h generalizing us with
  | lastParam =>
    obtain ⟨a, _, rfl, ha, hnil⟩ := List.map_eq_cons_iff.mp hus
    obtain rfl := List.map_eq_nil_iff.mp hnil
    exact ⟨_, .last ha ht⟩
  | moreParams _ ih =>
    obtain ⟨a, _, rfl, ha, hmore⟩ := List.map_eq_cons_iff.mp hus
    obtain ⟨b, us, rfl, hb, hus⟩ := List.map_eq_cons_iff.mp hmore
    obtain ⟨ns, hns⟩ := ih rfl hus
    exact ⟨_, .more ha hb hns⟩
  | _ => cases hn

/-- No parameters are told from some by the `)`. -/
theorem readsParameters_of_derives {us : List Token} (h : Derives .paramsOption (lexemes us))
    {t : Token} (rest : List Token) (ht : t.lexeme = symbol rightParen) :
    ∃ ps, ReadsParameters source (us ++ t :: rest) ps (t :: rest) := by
  generalize hu : lexemes us = u at h
  cases h with
  | noParams =>
    obtain rfl := List.map_eq_nil_iff.mp hu
    exact ⟨_, .none ht⟩
  | someParams h =>
    have hcomma : t.lexeme ≠ symbol comma := by simp [ht]
    obtain ⟨ns, hns⟩ := readsNames_of_derives h rfl hu rest hcomma
    exact ⟨_, .some hns⟩

/-- Parameters, an arrow and a body are read as a lambda. -/
theorem reads_lambda {hs input rest : List Token} {a : Token} (h : LambdaHead (lexemes hs))
    (ha : a.lexeme = symbol arrow)
    (hbody : ∀ head, ∃ n, Reads source (.lambda head) (a :: input) [n] rest) :
    ∃ n, Reads source .primary (hs ++ a :: input) [n] rest := by
  generalize hu : lexemes hs = u at h
  cases h with
  | name =>
    obtain ⟨t, _, rfl, ht, hnil⟩ := List.map_eq_cons_iff.mp hu
    obtain rfl := List.map_eq_nil_iff.mp hnil
    obtain ⟨n, hn⟩ := hbody _
    exact ⟨n, .nameLambda ht ha hn⟩
  | parenthesized hparams =>
    obtain ⟨t, _, rfl, ht, hmore⟩ := List.map_eq_cons_iff.mp hu
    obtain ⟨us, _, rfl, rfl, hclose⟩ := List.map_eq_append_iff.mp hmore
    obtain ⟨c, _, rfl, hc, hnil⟩ := List.map_eq_cons_iff.mp hclose
    obtain rfl := List.map_eq_nil_iff.mp hnil
    obtain ⟨ps, hps⟩ : ∃ ps, ReadsParameters source (us ++ c :: a :: input) ps _ :=
      readsParameters_of_derives hparams (a :: input) hc
    obtain ⟨n, hn⟩ := hbody (.ofToken source t :: ps ++ [.ofToken source c])
    -- parameters and an arrow are what looking ahead asks for
    have hahead : Parser.opensLambda (us ++ c :: a :: input) = true :=
      opensLambda_params (find_stopsParams_params hparams (.inr rfl)) hc ha
    refine ⟨n, ?_⟩
    simpa using Reads.parenthesizedLambda ht hahead hps hc hn

end Parameters

/-! ## Shapes are read -/

/-- The tokens of a shape are read, whatever follows them that does not belong to them. The calls
behind a callee are left to the reading of what follows. -/
def Shape.Read (source : String) (us : List Token) : Shape → Prop
  | .statements => ∀ t rest, t.lexeme = symbol rightBrace ∨ t.lexeme = eof →
    ∃ ns, Reads source .statements (us ++ t :: rest) ns (t :: rest)
  | .statement dangling => ∀ t rest, (dangling → t.lexeme ≠ keyword elseWord) →
    ∃ n, Reads source .statement (us ++ t :: rest) [n] (t :: rest)
  | .block => ∀ rest, ∃ n, Reads source .block (us ++ rest) [n] rest
  | .chain => Chain source us
  | .openOperand => ∀ t rest, EndsExpression t.lexeme →
    ∃ n, Reads source .operand (us ++ t :: rest) [n] (t :: rest)
  | .operand => ∀ t rest, t.lexeme ≠ symbol leftParen → t.lexeme ≠ symbol arrow →
    ∃ n, Reads source .operand (us ++ t :: rest) [n] (t :: rest)
  | .call => ∀ t rest r, t.lexeme ≠ symbol arrow →
    (∀ c, ∃ n, Reads source (.calls c) (t :: rest) [n] r) →
      ∃ n, Reads source .operand (us ++ t :: rest) [n] r
  | .primary => ∀ t rest, t.lexeme ≠ symbol arrow →
    ∃ n, Reads source .primary (us ++ t :: rest) [n] (t :: rest)
  | .expressions => ∀ t rest, EndsExpression t.lexeme → t.lexeme ≠ symbol comma →
    ∃ ns, Reads source .expressions (us ++ t :: rest) ns (t :: rest)
  | .expressionsOption => ∀ closing t rest, t.lexeme = symbol closing → EndsExpression t.lexeme →
    t.lexeme ≠ symbol comma →
      ∃ ns, Reads source (.expressionsUnless closing) (us ++ t :: rest) ns (t :: rest)

/-- The symbols that close an expression in one of the rules. -/
theorem endsExpression_symbol {t : Token} {s : Symbol} (ht : t.lexeme = symbol s)
    (hs : s ∈ [semicolon, comma, rightParen, rightBracket]) : EndsExpression t.lexeme := by
  simp only [List.mem_cons, List.not_mem_nil, or_false] at hs
  rw [ht]
  rcases hs with rfl | rfl | rfl | rfl <;> exact ⟨rfl, by decide, by decide⟩

section Shapes

variable {source : String}

/-- Statements do not start with `else`. -/
theorem head_ne_else {input rest : List Token} {ns : List Node}
    (h : Reads source .statements input ns rest) :
    ∃ t ts, input = t :: ts ∧ t.lexeme ≠ keyword elseWord := by
  cases h with
  | stop hend => exact ⟨_, _, rfl, by rcases hend with hend | hend <;> simp [hend]⟩
  | next hfirst _ =>
    obtain ⟨t, ts, rfl, ht⟩ := hfirst.head
    refine ⟨t, ts, rfl, fun helse => ?_⟩
    rw [helse] at ht
    exact absurd ht (by decide)

/-- By induction on the derivation. In each case the tokens are cut as the lexemes are, the parts
are read by the hypotheses, and the lexeme behind each part is one that does not belong to it. -/
theorem reads_of_greedy {shape : Shape} {w : List Lexeme} (h : Greedy shape w) {us : List Token}
    (hus : lexemes us = w) : shape.Read source us := by
  induction h generalizing us with
  | noStatements =>
    obtain rfl := List.map_eq_nil_iff.mp hus
    exact fun t rest ht => ⟨[], .stop ht⟩
  | moreStatements _ _ ih₁ ih₂ =>
    obtain ⟨us, vs, rfl, hus, hvs⟩ := List.map_eq_append_iff.mp hus
    intro t rest ht
    -- the first statement may be an open conditional, which the next one must not continue
    obtain ⟨ns, hns⟩ := ih₂ hvs t rest ht
    obtain ⟨v, vs', hv, hne⟩ := head_ne_else hns
    obtain ⟨n, hn⟩ := ih₁ hus v vs' fun _ => hne
    rw [← hv] at hn
    exact ⟨n :: ns, by simpa using Reads.next hn hns⟩
  | block _ ih =>
    simp only [List.map_eq_append_iff, List.map_eq_cons_iff, List.map_eq_nil_iff] at hus
    obtain ⟨a, _, rfl, ha, us, _, rfl, hus, b, _, rfl, hb, rfl⟩ := hus
    intro rest
    obtain ⟨ns, hns⟩ := ih hus b rest (.inl hb)
    exact ⟨_, by simpa using Reads.block ha hns hb⟩
  | declare =>
    simp only [List.map_eq_cons_iff, List.map_eq_nil_iff] at hus
    obtain ⟨a, _, rfl, ha, b, _, rfl, hb, c, _, rfl, hc, rfl⟩ := hus
    exact fun t rest _ => ⟨_, .declare ha hb hc⟩
  | declareValue _ ih =>
    simp only [List.map_eq_append_iff, List.map_eq_cons_iff, List.map_eq_nil_iff] at hus
    obtain ⟨a, _, rfl, ha, b, _, rfl, hb, c, _, rfl, hc, us, _, rfl, hus, d, _, rfl, hd, rfl⟩ := hus
    intro t rest _
    obtain ⟨n, hn⟩ := (ih hus).reads (t :: rest) (endsExpression_symbol hd (by decide))
    exact ⟨_, by simpa using Reads.declareValue ha hb hc hn hd⟩
  | assign _ ih =>
    simp only [List.map_eq_append_iff, List.map_eq_cons_iff, List.map_eq_nil_iff] at hus
    obtain ⟨a, _, rfl, ha, b, _, rfl, hb, us, _, rfl, hus, c, _, rfl, hc, rfl⟩ := hus
    intro t rest _
    obtain ⟨n, hn⟩ := (ih hus).reads (t :: rest) (endsExpression_symbol hc (by decide))
    exact ⟨_, by simpa using Reads.assign ha hb hn hc⟩
  | functionValue hparams _ ih =>
    simp only [List.map_eq_append_iff, List.map_eq_cons_iff, List.map_eq_nil_iff] at hus
    obtain ⟨a, _, rfl, ha, b, _, rfl, hb, c, _, rfl, hc, us, _, rfl, rfl, d, _, rfl, hd, e, _, rfl,
      he, vs, _, rfl, hvs, f, _, rfl, hf, rfl⟩ := hus
    intro t rest _
    obtain ⟨ps, hps⟩ := readsParameters_of_derives hparams (e :: (vs ++ f :: t :: rest)) hd
    obtain ⟨n, hn⟩ := (ih hvs).reads (t :: rest) (endsExpression_symbol hf (by decide))
    exact ⟨_, by simpa using Reads.functionValue ha hb hc hps hd he hn hf⟩
  | functionBlock hparams _ ih =>
    simp only [List.map_eq_append_iff, List.map_eq_cons_iff] at hus
    obtain ⟨a, _, rfl, ha, b, _, rfl, hb, c, _, rfl, hc, us, _, rfl, rfl, d, vs, rfl, hd, hvs⟩ :=
      hus
    intro t rest _
    obtain ⟨ps, hps⟩ := readsParameters_of_derives hparams (vs ++ t :: rest) hd
    obtain ⟨n, hn⟩ := ih hvs (t :: rest)
    exact ⟨_, by simpa using Reads.functionBlock ha hb hc hps hd hn⟩
  | returnNothing =>
    simp only [List.map_eq_cons_iff, List.map_eq_nil_iff] at hus
    obtain ⟨a, _, rfl, ha, b, _, rfl, hb, rfl⟩ := hus
    exact fun t rest _ => ⟨_, .returnNothing ha hb⟩
  | returnValue _ ih =>
    simp only [List.map_eq_append_iff, List.map_eq_cons_iff, List.map_eq_nil_iff] at hus
    obtain ⟨a, _, rfl, ha, us, _, rfl, hus, b, _, rfl, hb, rfl⟩ := hus
    intro t rest _
    obtain ⟨n, hn⟩ := (ih hus).reads (t :: rest) (endsExpression_symbol hb (by decide))
    exact ⟨_, by simpa using Reads.returnValue ha hn hb⟩
  | conditional _ _ ih₁ ih₂ =>
    simp only [List.map_eq_append_iff, List.map_eq_cons_iff] at hus
    obtain ⟨a, _, rfl, ha, b, _, rfl, hb, us, _, rfl, hus, c, vs, rfl, hc, hvs⟩ := hus
    intro t rest ht
    obtain ⟨n, hn⟩ := (ih₁ hus).reads (vs ++ t :: rest) (endsExpression_symbol hc (by decide))
    obtain ⟨m, hm⟩ := ih₂ hvs t rest fun _ => ht rfl
    exact ⟨_, by simpa using Reads.conditional ha (.conditionAndBody hb hn hc hm) (ht rfl)⟩
  | conditionalElse _ _ _ ih₁ ih₂ ih₃ =>
    simp only [List.map_eq_append_iff, List.map_eq_cons_iff] at hus
    obtain ⟨a, _, rfl, ha, b, _, rfl, hb, us, _, rfl, hus, c, _, rfl, hc, vs, _, rfl, hvs, d, ws,
      rfl, hd, hws⟩ := hus
    intro t rest ht
    obtain ⟨n, hn⟩ := (ih₁ hus).reads (vs ++ d :: (ws ++ t :: rest))
      (endsExpression_symbol hc (by decide))
    obtain ⟨m, hm⟩ := ih₂ hvs d (ws ++ t :: rest) (fun h => nomatch h)
    obtain ⟨o, ho⟩ := ih₃ hws t rest ht
    exact ⟨_, by simpa using Reads.conditionalElse ha (.conditionAndBody hb hn hc hm) hd ho⟩
  | loop _ _ ih₁ ih₂ =>
    simp only [List.map_eq_append_iff, List.map_eq_cons_iff] at hus
    obtain ⟨a, _, rfl, ha, b, _, rfl, hb, us, _, rfl, hus, c, vs, rfl, hc, hvs⟩ := hus
    intro t rest ht
    obtain ⟨n, hn⟩ := (ih₁ hus).reads (vs ++ t :: rest) (endsExpression_symbol hc (by decide))
    obtain ⟨m, hm⟩ := ih₂ hvs t rest ht
    exact ⟨_, by simpa using Reads.loop ha (.conditionAndBody hb hn hc hm)⟩
  | blockStatement _ ih =>
    intro t rest _
    obtain ⟨n, hn⟩ := ih hus (t :: rest)
    exact ⟨_, .blockStatement hn⟩
  | expressionStatement _ ih =>
    simp only [List.map_eq_append_iff, List.map_eq_cons_iff, List.map_eq_nil_iff] at hus
    obtain ⟨us, _, rfl, hus, a, _, rfl, ha, rfl⟩ := hus
    intro t rest _
    obtain ⟨n, hn⟩ := (ih hus).reads (t :: rest) (endsExpression_symbol ha (by decide))
    exact ⟨_, by simpa using Reads.expressionStatement hn ha⟩
  | last _ ih => exact .last fun t rest ht => ih hus t rest ht.paren ht.arrow
  | lastOpen _ ih => exact .last (ih hus)
  | @more s _ _ _ hs _ ih₁ ih₂ =>
    simp only [List.map_eq_append_iff, List.map_eq_cons_iff] at hus
    obtain ⟨us, _, rfl, hus, a, vs, rfl, ha, hvs⟩ := hus
    obtain ⟨op, hop⟩ := Option.isSome_iff_exists.mp hs
    have hbinary : a.lexeme.binary? = some op := by
      rw [ha]
      exact hop
    refine .more hbinary (fun rest => ?_) (ih₂ hvs)
    refine ih₁ hus a rest ?_ ?_
    all_goals
      rw [ha]
      rintro ⟨⟩
      simp [Symbol.binary?] at hop
  | openLambda hhead _ ih =>
    obtain ⟨us, _, rfl, rfl, ha⟩ := List.map_eq_append_iff.mp hus
    obtain ⟨a, vs, rfl, ha, hvs⟩ := List.map_eq_cons_iff.mp ha
    intro t rest ht
    obtain ⟨n, hn⟩ := (ih hvs).reads rest ht
    obtain ⟨p, hp⟩ := reads_lambda hhead ha fun head => ⟨_, Reads.lambdaValue ha hn⟩
    refine ⟨p, ?_⟩
    simpa using Reads.operand hp (.callsEnd ht.paren)
  | openNegation _ ih =>
    obtain ⟨a, us, rfl, ha, hus⟩ := List.map_eq_cons_iff.mp hus
    intro t rest ht
    obtain ⟨n, hn⟩ := ih hus t rest ht
    exact ⟨_, .negation ha hn⟩
  | negation _ ih =>
    obtain ⟨a, us, rfl, ha, hus⟩ := List.map_eq_cons_iff.mp hus
    intro t rest hparen harrow
    obtain ⟨n, hn⟩ := ih hus t rest hparen harrow
    exact ⟨_, .negation ha hn⟩
  | operand _ ih =>
    exact fun t rest hparen harrow => ih hus t rest _ harrow fun c => ⟨c, .callsEnd hparen⟩
  | call _ _ ih₁ ih₂ =>
    simp only [List.map_eq_append_iff, List.map_eq_cons_iff, List.map_eq_nil_iff] at hus
    obtain ⟨us, _, rfl, hus, a, _, rfl, ha, vs, _, rfl, hvs, b, _, rfl, hb, rfl⟩ := hus
    intro t rest r ht hmore
    -- the calls lean to the left but are read to the right: this one goes before those to come
    obtain ⟨ns, hns⟩ := ih₂ hvs rightParen b (t :: rest) hb (endsExpression_symbol hb (by decide))
      (by simp [hb])
    obtain ⟨n, hn⟩ := ih₁ hus a (vs ++ b :: t :: rest) r (by simp [ha]) fun c => by
      obtain ⟨n, hn⟩ := hmore (.callOf source c a ns b)
      exact ⟨n, .call ha hns hb hn⟩
    exact ⟨n, by simpa using hn⟩
  | callee _ ih =>
    intro t rest r ht hmore
    obtain ⟨p, hp⟩ := ih hus t rest ht
    obtain ⟨n, hn⟩ := hmore p
    exact ⟨n, .operand hp hn⟩
  | lastExpression _ ih =>
    intro t rest ht hcomma
    obtain ⟨n, hn⟩ := (ih hus).reads rest ht
    exact ⟨_, .lastExpression hn hcomma⟩
  | moreExpressions _ _ ih₁ ih₂ =>
    simp only [List.map_eq_append_iff, List.map_eq_cons_iff] at hus
    obtain ⟨us, _, rfl, hus, a, vs, rfl, ha, hvs⟩ := hus
    intro t rest ht hcomma
    obtain ⟨n, hn⟩ := (ih₁ hus).reads (vs ++ t :: rest) (endsExpression_symbol ha (by decide))
    obtain ⟨ns, hns⟩ := ih₂ hvs t rest ht hcomma
    exact ⟨_, by simpa using Reads.moreExpressions hn ha hns⟩
  | noExpressions =>
    obtain rfl := List.map_eq_nil_iff.mp hus
    exact fun closing t rest ht _ _ => ⟨[], .noExpressions ht⟩
  | someExpressions _ ih =>
    intro closing t rest _ hends hcomma
    obtain ⟨ns, hns⟩ := ih hus t rest hends hcomma
    exact ⟨ns, .someExpressions hns⟩
  | literal hl =>
    obtain ⟨a, rfl, rfl⟩ := List.map_eq_singleton_iff.mp hus
    exact fun t rest _ => ⟨_, .literal hl⟩
  | name =>
    obtain ⟨a, rfl, ha⟩ := List.map_eq_singleton_iff.mp hus
    exact fun t rest ht => ⟨_, .name ha ht⟩
  | array _ ih =>
    simp only [List.map_eq_append_iff, List.map_eq_cons_iff, List.map_eq_nil_iff] at hus
    obtain ⟨a, _, rfl, ha, us, _, rfl, hus, b, _, rfl, hb, rfl⟩ := hus
    intro t rest _
    obtain ⟨ns, hns⟩ := ih hus rightBracket b (t :: rest) hb
      (endsExpression_symbol hb (by decide)) (by simp [hb])
    exact ⟨_, by simpa using Reads.array ha hns hb⟩
  | group hu ih =>
    simp only [List.map_eq_append_iff, List.map_eq_cons_iff, List.map_eq_nil_iff] at hus
    obtain ⟨a, _, rfl, ha, us, _, rfl, rfl, b, _, rfl, hb, rfl⟩ := hus
    intro t rest ht
    obtain ⟨n, hn⟩ := (ih rfl).reads (t :: rest) (endsExpression_symbol hb (by decide))
    -- names alone in the parentheses look like parameters up to the token behind them
    have hopens := @opensLambda_group us rest b t (hu.find_stopsParams rfl) hb ht
    exact ⟨_, by simpa using Reads.group ha hopens hn hb⟩
  | blockLambda hhead _ ih =>
    obtain ⟨us, _, rfl, rfl, ha⟩ := List.map_eq_append_iff.mp hus
    obtain ⟨a, vs, rfl, ha, hvs⟩ := List.map_eq_cons_iff.mp ha
    intro t rest ht
    obtain ⟨n, hn⟩ := ih hvs (t :: rest)
    obtain ⟨p, hp⟩ := reads_lambda hhead ha fun head => ⟨_, Reads.lambdaBlock ha hn⟩
    exact ⟨p, by simpa using hp⟩

end Shapes

/-! ## Programs -/

/-- A program that the grammar derives has a reading up to its end. -/
theorem reads_of_derives {source : String} {tokens : List Token}
    (h : Derives .program (lexemes tokens)) :
    ∃ ns t, t.lexeme = eof ∧ Reads source .statements tokens ns [t] := by
  obtain ⟨v, htokens, hv⟩ := h.greedily
  obtain ⟨us, _, rfl, hus, hend⟩ := List.map_eq_append_iff.mp htokens
  obtain ⟨t, rfl, ht⟩ := List.map_eq_singleton_iff.mp hend
  obtain ⟨ns, hns⟩ := reads_of_greedy hv hus t [] (.inr ht)
  exact ⟨ns, t, ht, hns⟩

/-- A reading up to the end is a program of the grammar. -/
theorem derives_program_of_reads {source : String} {tokens : List Token} {ns : List Node}
    {t : Token} (h : Reads source .statements tokens ns [t]) (ht : t.lexeme = eof) :
    Derives .program (lexemes tokens) := by
  obtain ⟨us, rfl, hus⟩ := derives_of_reads h
  simpa [ht] using Derives.program hus

/-- A source without lexical errors that is parsed is a program of the grammar; and a program of the
grammar is parsed, unless it is nested too deeply for the limit, which is the only error then. What
is no program is rejected. -/
theorem parse_accepts_exactly_grammar (source : String) (limit : Nat)
    (hscan : (scan source).errors = []) :
    (∀ tree, Node.parse source limit = .ok tree →
      Derives .program (lexemes (scan source).tokens)) ∧
    (Derives .program (lexemes (scan source).tokens) →
      (∃ tree, Node.parse source limit = .ok tree) ∨
      limit < (scan source).tokens.length ∧
        ∃ span, Node.parse source limit = .error [(SyntaxError.tooDeep limit).diagnostic span]) ∧
    (¬ Derives .program (lexemes (scan source).tokens) →
      ∃ errors, errors ≠ [] ∧ Node.parse source limit = .error errors) := by
  have hends := endsOnce_scan source
  have hparse := Node.parse_eq_ofTokens hscan limit
  have hsound (tree : Node) (h : Node.parse source limit = .ok tree) :
      Derives .program (lexemes (scan source).tokens) := by
    rw [hparse] at h
    obtain ⟨ns, t, _, ht, hreads⟩ := Parser.reads_of_ofTokens hends h
    exact derives_program_of_reads hreads ht
  refine ⟨hsound, fun h => ?_, fun h => ?_⟩
  -- what is derived is read, and what is read is parsed unless it is nested too deep
  · obtain ⟨ns, t, ht, hreads⟩ := reads_of_derives h
    rw [hparse]
    exact (Parser.ofTokens_of_reads hends hreads ht limit).imp (fun hok => ⟨_, hok⟩) id
  -- without a derivation there is no tree, and the list of errors is not empty
  · cases hresult : Node.parse source limit with
    | ok tree => exact absurd (hsound tree hresult) h
    | error errors =>
      rw [hparse] at hresult
      exact ⟨errors, Parser.ne_nil_of_ofTokens_eq_error hends hresult, rfl⟩

/-- A dangling `else`, a lambda before a call and a group that looks like parameters. -/
theorem parse_accepts_exactly_grammar_dangling :
    (scan "if (a) if (b) f(x => !c)(d); else (e);").errors = [] ∧
      Derives .program (lexemes (scan "if (a) if (b) f(x => !c)(d); else (e);").tokens) := by
  have hscan : (scan "if (a) if (b) f(x => !c)(d); else (e);").errors = [] := by decide +kernel
  have hok : (Node.parse "if (a) if (b) f(x => !c)(d); else (e);" 16).isOk := by decide +kernel
  refine ⟨hscan, ?_⟩
  cases hparse : Node.parse "if (a) if (b) f(x => !c)(d); else (e);" 16 with
  | ok tree => exact (parse_accepts_exactly_grammar _ 16 hscan).1 tree hparse
  | error errors =>
    rw [hparse] at hok
    cases hok

end Grammar

end SimpleLang
