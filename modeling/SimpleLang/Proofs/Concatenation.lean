import SimpleLang.Proofs.Lowering.Total
import SimpleLang.Proofs.Parser.Continuation
import SimpleLang.Proofs.Tokens.Joined

/-!
# Texts on lines of their own

A program may be cut between two statements: behind a text that is a program, another text is parsed
as if it stood alone. Nothing that the parser has met before changes what it makes of the rest,
except for a conditional without `else` at the very end, which takes an `else` that follows it.

* `danglesIfOpen_of_reads`: a node that would take an `else` is that of a dangling statement.
* `Node.awaitsElse`, `startsWithElse`: the exception.
* `ofProgram_append`: the statements of a tree that is put together of the parts of two.
* `parse_joined`: the statements of two texts that are joined by a line break are those of both, and
  the errors are those of the second text, shifted.
-/

namespace SimpleLang

open Node

/-! ## Open statements -/

/-- What is read as a statement is dangling if it is open; and what a rule for parts of a statement
says about its last part. -/
def DanglesIfOpen (ns : List Node) : Rule → Prop
  | .statement => Single (fun n => ∀ s, n.DenotesStmt s → n.Open → s.dangling) ns
  | .conditionAndBody => ns.length = 5 ∧ ∃ b, ns.getLast? = some b ∧
    ∀ test body, Branches ns test body → b.Open → body.dangling
  | .block => Single (·.kind = .block) ns
  | _ => True

/-- A statement that ends with a node of another kind is not open. -/
theorem danglesIfOpen_closed {source : String} {parts : List Node} {m : Node}
    (hlast : parts.getLast? = some m)
    (hkind : ¬ (m.kind = .statement ∨ m.kind = .conditional ∨ m.kind = .loop)) :
    DanglesIfOpen [above source .statement parts] .statement := by
  intro s _ hopen
  exact absurd (hopen.getLast? hlast (by simp)).kind hkind

/-- By induction on the reading. Only conditionals and loops end with a statement of their own; any
other statement ends with a node that is never open (`danglesIfOpen_closed`). -/
theorem danglesIfOpen_of_reads {source : String} {rule : Rule} {input rest : List Token}
    {ns : List Node} (h : Reads source rule input ns rest)
    (hfaithful : ∀ t ∈ input, t.Faithful source) : DanglesIfOpen ns rule := by
  induction h with
  | block => exact rfl
  | declare | declareValue | assign | returnNothing | returnValue | expressionStatement =>
    exact danglesIfOpen_closed rfl (by simp)
  | functionValue | functionBlock => exact danglesIfOpen_closed rfl (by simp [functionOf])
  | blockStatement _ ih =>
    have hkind := ih hfaithful
    exact danglesIfOpen_closed rfl (by simp [show _ = NodeKind.block from hkind])
  -- the body is the last part, and what it denotes is known from its own reading
  | @conditionAndBody _ _ _ _ us _ _ _ _ htest _ hbody _ ih =>
    have hrest (t : Token) (ht : t ∈ us) : t.Faithful source :=
      hfaithful t (by simp [htest.suffix.subset (List.mem_cons_of_mem _ ht)])
    obtain ⟨e, he, _⟩ := lowered_of_reads htest fun t ht => hfaithful t (by simp [ht])
    obtain ⟨s, hs, _⟩ := lowered_of_reads hbody hrest
    refine ⟨rfl, _, rfl, fun test body hparts hopen => ?_⟩
    have hbranches := hparts.statements.symm.trans (branches_conditionAndBody he hs).statements
    obtain rfl := Except.ok.inj (List.singleton_inj.mp hbranches)
    exact ih hrest body hs hopen
  -- without `else` the conditional itself is dangling
  | conditional _ hhead _ _ =>
    obtain ⟨test, yes, hparts, _⟩ := lowered_of_reads hhead hfaithful
    intro s hs _
    rw [hs.eq (denotesStmt_conditional hparts)]
    rfl
  | conditionalElse _ hhead _ hno ih₁ ih₂ =>
    have hrest := fun t ht => hfaithful t (hhead.suffix.subset (List.mem_cons_of_mem _ ht))
    obtain ⟨test, yes, hparts, _⟩ := lowered_of_reads hhead hfaithful
    obtain ⟨no, hs', _⟩ := lowered_of_reads hno hrest
    intro s hs hopen
    rw [hs.eq (denotesStmt_conditionalElse hparts hs'), Stmt.dangling]
    -- with its `else` the conditional has seven parts, so it is open by the last of them
    have hlength := (ih₁ hfaithful).1
    have hconditional := hopen.getLast? rfl (by simp)
    exact ih₂ hrest no hs' (hconditional.getLast? (by simp) (by simp [hlength]))
  -- a loop is open by its body
  | loop _ hhead ih =>
    obtain ⟨test, body, hparts, _⟩ := lowered_of_reads hhead hfaithful
    obtain ⟨_, b, hlast, hdangling⟩ := ih hfaithful
    intro s hs hopen
    rw [hs.eq (denotesStmt_loop hparts), Stmt.dangling]
    have hloop := hopen.getLast? rfl (by simp)
    exact hdangling test body hparts (hloop.getLast? hlast (by simp))
  | _ => trivial

/-- The last of some statements is read behind the others. -/
theorem reads_last {source : String} {input rest : List Token} {front : List Node} {n : Node}
    (h : Reads source .statements input (front ++ [n]) rest) :
    ∃ mid out, mid <:+ input ∧ Reads source .statement mid [n] out := by
  induction front generalizing input with
  | nil =>
    cases h with
    | next hfirst _ => exact ⟨_, _, List.suffix_rfl, hfirst⟩
  | cons m front ih =>
    cases h with
    | next hfirst hothers =>
      obtain ⟨mid, out, hmid, hlast⟩ := ih hothers
      exact ⟨mid, out, hmid.trans hfirst.suffix, hlast⟩

/-! ## Programs -/

/-- A program is read if each of its statements is. -/
theorem ofProgram_root_iff {source : String} {ns : List Node} {ss : List Stmt} :
    Stmt.ofProgram (root source ns) = .ok ss ↔ Stmt.each ns = ss.map .ok :=
  ⟨fun h => all_eq_ok h, ofProgram_root⟩

/-- Statements that are laid out anew, in one tree, are read as before. -/
theorem ofProgram_append {a b joint : String} {ns ms ns' ms' : List Node} {ss ss' : List Stmt}
    (hns : List.Forall₂ Parser.SameSkeleton ns ns') (hms : List.Forall₂ Parser.SameSkeleton ms ms')
    (hss : Stmt.ofProgram (root a ns) = .ok ss) (hss' : Stmt.ofProgram (root b ms) = .ok ss') :
    Stmt.ofProgram (root joint (ns' ++ ms')) = .ok (ss ++ ss') := by
  have htogether : Stmt.ofProgram (root joint (ns ++ ms)) = .ok (ss ++ ss') := by
    rw [ofProgram_root_iff] at hss hss' ⊢
    rw [stmtEach_append, hss, hss', List.map_append]
  have hskeleton : (root joint (ns ++ ms)).skeleton = (root joint (ns' ++ ms')).skeleton :=
    Parser.sameSkeleton_covering rfl (List.rel_append hns hms) _ _
  exact ofProgram_of_skeleton hskeleton htogether

/-! ## A conditional before an `else` -/

/-- The last statement of a program would take an `else` that followed it. -/
def Node.awaitsElse (tree : Node) : Bool :=
  match Stmt.ofProgram tree with
  | .ok ss => ss.getLast?.any Stmt.dangling
  | .error _ => false

/-- A text without errors in its tokens starts with `else`. -/
def startsWithElse (source : String) : Bool :=
  (scan source).errors.isEmpty &&
    (scan source).tokens.head?.any (·.lexeme == .keyword .elseWord)

/-- No statement starts with `else`, so a text that does is refused. -/
theorem parse_ne_ok_of_startsWithElse {source : String} (h : startsWithElse source) (limit : Nat)
    (tree : Node) : Node.parse source limit ≠ .ok tree := by
  intro hparse
  obtain ⟨-, htree⟩ := parse_eq_ok_iff.mp hparse
  obtain ⟨ns, e, rfl, he, hreads⟩ := Parser.reads_of_ofTokens (endsOnce_scan source) htree
  have hfirst : (scan source).tokens.head?.any (·.lexeme == .keyword .elseWord) :=
    (Bool.and_eq_true_iff.mp h).2
  generalize (scan source).tokens = tokens at hreads hfirst
  cases hreads with
  -- without statements the first token is the end, and no statement starts with `else`
  | stop _ =>
    rw [List.head?_cons, Option.any_some, he] at hfirst
    cases hfirst
  | next hstatement _ =>
    obtain ⟨t, ts, rfl, ht⟩ := hstatement.head
    rw [List.head?_cons, Option.any_some, beq_iff_eq] at hfirst
    rw [hfirst] at ht
    cases ht

/-- A tree whose last statement is open awaits an `else`. -/
theorem awaitsElse_of_open {source : String} {limit : Nat} {front : List Node} {n : Node}
    (hsize : source.utf8ByteSize < Span.offsetCount)
    (h : Node.parse source limit = .ok (root source (front ++ [n]))) (hopen : n.Open) :
    (root source (front ++ [n])).awaitsElse := by
  obtain ⟨herrors, htree⟩ := parse_eq_ok_iff.mp h
  obtain ⟨ns, t, hns, -, hreads⟩ := Parser.reads_of_ofTokens (endsOnce_scan source) htree
  obtain rfl : front ++ [n] = ns := congrArg Node.children hns
  have hfaithful (t : Token) (ht : t ∈ (scan source).tokens) : t.Faithful source :=
    faithful_of_mem_scan hsize herrors ht
  obtain ⟨mid, out, hmid, hlast⟩ := reads_last hreads
  have hmid := fun t ht => hfaithful t (hmid.subset ht)
  obtain ⟨s, hs, _⟩ := lowered_of_reads hlast hmid
  have hdangling := danglesIfOpen_of_reads hlast hmid s hs hopen
  -- the statement that the last node is read as is the last statement of the program
  obtain ⟨ss, hss, _⟩ := lowered_of_reads hreads hfaithful
  rw [Node.awaitsElse, ofProgram_root hss]
  have heach : Stmt.each [n] = [.ok s] := by simp [stmtEach_eq, hs.kind, hs.ofNode]
  rw [stmtEach_append, heach] at hss
  have hgetLast := congrArg List.getLast? hss
  rw [List.getLast?_concat, List.getLast?_map] at hgetLast
  obtain ⟨s', hs', hok⟩ := Option.map_eq_some_iff.mp hgetLast.symm
  obtain rfl := Except.ok.inj hok
  simp [hs', hdangling]

/-! ## The joined text -/

section Joined

variable {a b : String}

/-- The place where the second text is put below the first. -/
def seam (a b : String) : Parser.Seam where
  short := a
  long := a ++ "\n" ++ b
  last := ⟨.eof, .between a.utf8ByteSize a.utf8ByteSize⟩
  rest := (scan b).tokens.map (.shift (a.utf8ByteSize + 1))
  last_eof := rfl
  rest_ne_nil := by
    rw [Ne, List.map_eq_nil_iff]
    exact (endsOnce_scan b).ne_nil

structure Moved (a b : String) (t t' : Token) : Prop where
  sameIn : t.SameIn b (a ++ "\n" ++ b) t'
  shift : t.shift (a.utf8ByteSize + 1) = t'

/-- The parser looks at lexemes and texts only, which are the same, and what it reports moves with
the tokens. -/
theorem corresponds_moved :
    Parser.Corresponds b (a ++ "\n" ++ b) (Moved a b)
      fun d d' => d.shift (a.utf8ByteSize + 1) = d' where
  sameIn h := h.sameIn
  diagnostic _ h := by rw [← h.shift]; rfl

/-- Tokens with the same lexeme are the same but for their places. -/
theorem sameIn_of_mem_scan {source source' : String} {t t' : Token}
    (hsize : source.utf8ByteSize < Span.offsetCount)
    (hsize' : source'.utf8ByteSize < Span.offsetCount) (ht : t ∈ (scan source).tokens)
    (ht' : t' ∈ (scan source').tokens) (hlexeme : t.lexeme = t'.lexeme) :
    t.SameIn source source' t' :=
  ⟨hlexeme, by rw [excerpt_of_mem_scan hsize ht, excerpt_of_mem_scan hsize' ht', hlexeme]⟩

/-- The tokens of the joined text from the seam on, and those before it. -/
theorem moved_and_common (hsize : (a ++ "\n" ++ b).utf8ByteSize < Span.offsetCount)
    {c : List Token} (hc : c ⊆ (scan a).tokens)
    (htokens : (scan (a ++ "\n" ++ b)).tokens = c ++ (seam a b).rest) :
    List.Forall₂ (Moved a b) (scan b).tokens (seam a b).rest ∧ ∀ t ∈ c, (seam a b).Common t := by
  have hjoined := utf8ByteSize_joined a b
  have hends := endsOnce_scan (a ++ "\n" ++ b)
  have hmem {t : Token} (ht : t ∈ c ++ (seam a b).rest) : t ∈ (scan (a ++ "\n" ++ b)).tokens :=
    htokens ▸ ht
  rw [htokens] at hends
  refine ⟨?_, fun t ht => ⟨hends.ne_eof (seam a b).rest_ne_nil t ht, ?_⟩⟩
  -- the tokens of the second text are shifted
  · refine List.forall₂_map_right_iff.mpr (List.forall₂_same.mpr fun t ht => ⟨?_, rfl⟩)
    have hrest : t.shift (a.utf8ByteSize + 1) ∈ (seam a b).rest := List.mem_map_of_mem ht
    exact sameIn_of_mem_scan (by omega) hsize ht (hmem (List.mem_append_right c hrest)) rfl
  -- those of the first have stayed where they are
  · have hsame : t.SameIn a (a ++ "\n" ++ b) t :=
      sameIn_of_mem_scan (by omega) hsize (hc ht) (hmem (List.mem_append_left _ ht)) rfl
    exact hsame

/-- If an `else` stands behind the seam, the second text starts with it. -/
theorem startsWithElse_of_rest (herrors : (scan b).errors = [])
    (h : Parser.AtCursor (· = .keyword .elseWord) (seam a b).rest) : startsWithElse b := by
  obtain ⟨t, ts, hrest, ht⟩ := h
  obtain ⟨u, us, htokens, rfl, -⟩ := List.map_eq_cons_iff.mp hrest
  have hu : u.lexeme = .keyword .elseWord := ht
  simp [startsWithElse, herrors, htokens, hu]

/-- Below a program, a text is parsed as if it stood alone: its statements follow those of the
program, or its errors are the errors, further down. -/
theorem parse_append {limit : Nat} {tree : Node}
    (hsize : (a ++ "\n" ++ b).utf8ByteSize < Span.offsetCount)
    (ha : Node.parse a limit = .ok tree) (helse : ¬ (tree.awaitsElse ∧ startsWithElse b)) :
    (∃ tree' joint ss ss', Node.parse b limit = .ok tree' ∧
      Node.parse (a ++ "\n" ++ b) limit = .ok joint ∧ Stmt.ofProgram tree = .ok ss ∧
      Stmt.ofProgram tree' = .ok ss' ∧ Stmt.ofProgram joint = .ok (ss ++ ss')) ∨
    ∃ errors, Node.parse b limit = .error errors ∧
      Node.parse (a ++ "\n" ++ b) limit = .error (errors.map (.shift (a.utf8ByteSize + 1))) := by
  have hjoined := utf8ByteSize_joined a b
  have hsizea : a.utf8ByteSize < Span.offsetCount := by omega
  have hsizeb : b.utf8ByteSize < Span.offsetCount := by omega
  obtain ⟨herrors, htree⟩ := parse_eq_ok_iff.mp ha
  have herrors' := errors_scan_append hsize herrors
  by_cases hb : (scan b).errors = []
  · rw [hb, List.map_nil] at herrors'
    have hparse := parse_eq_ofTokens hb limit
    have hparse' := parse_eq_ofTokens herrors' limit
    obtain ⟨c, hc, htokens⟩ := tokens_scan_append hsize herrors
    obtain ⟨hmoved, hcommon⟩ := moved_and_common hsize (hc ▸ List.subset_append_left c _) htokens
    have hends := endsOnce_scan (a ++ "\n" ++ b)
    rw [htokens] at hends hparse'
    obtain ⟨ns, rfl, hcases⟩ := Parser.ofTokens_append (J := seam a b) corresponds_moved
      (endsOnce_scan b) hmoved hends hcommon (hc ▸ htree)
    rcases hcases with ⟨front, n, rfl, hrest, hopen⟩ | ⟨ms, ns', ms', hms, hjoint, hns, hms'⟩ |
      ⟨errors, errors', hfail, hfail', hshift⟩
    · -- the open statement takes the `else`, which is the exception
      exact absurd ⟨awaitsElse_of_open hsizea ha hopen, startsWithElse_of_rest hb hrest⟩ helse
    · obtain ⟨ss, hss, _⟩ := exists_ofProgram hsizea ha
      obtain ⟨ss', hss', _⟩ := exists_ofProgram hsizeb (hparse.trans hms)
      exact .inl ⟨_, _, ss, ss', hparse.trans hms, hparse'.trans hjoint, hss, hss',
        ofProgram_append hns hms' hss hss'⟩
    · rw [← List.forall₂_map_left_iff, List.forall₂_eq_eq_eq] at hshift
      exact .inr ⟨errors, hparse.trans hfail, hshift ▸ hparse'.trans hfail'⟩
  · -- nothing is parsed if the tokens have errors
    refine .inr ⟨(scan b).errors, ?_, ?_⟩
    · simp [Node.parse, hb]
    · simp [Node.parse, herrors', hb]

end Joined

/-- Below a program, on a new line, a text of a program adds its statements to those above; and a
text with errors is refused with these errors at their new places. Only an `else` below a
conditional that has none is not an error any more. -/
theorem parse_joined (a b : String) (limit : Nat) (tree : Node)
    (hsize : (a ++ "\n" ++ b).utf8ByteSize < 2 ^ 32) (ha : Node.parse a limit = .ok tree) :
    (∀ tree', Node.parse b limit = .ok tree' → ∃ joint ss ss',
      Node.parse (a ++ "\n" ++ b) limit = .ok joint ∧ Stmt.ofProgram tree = .ok ss ∧
        Stmt.ofProgram tree' = .ok ss' ∧ Stmt.ofProgram joint = .ok (ss ++ ss')) ∧
    (¬ (tree.awaitsElse ∧ startsWithElse b) →
      ((∃ joint, Node.parse (a ++ "\n" ++ b) limit = .ok joint) ↔
        ∃ tree', Node.parse b limit = .ok tree') ∧
      ∀ errors, Node.parse b limit = .error errors →
        Node.parse (a ++ "\n" ++ b) limit
          = .error (errors.map (.shift (a.utf8ByteSize + 1)))) := by
  refine ⟨fun tree' hb => ?_, fun helse => ?_⟩
  -- a text that is a program does not start with `else`, so this is not the exception
  · have helse : ¬ (tree.awaitsElse ∧ startsWithElse b) := fun h =>
      parse_ne_ok_of_startsWithElse h.2 limit tree' hb
    rcases parse_append hsize ha helse with
      ⟨_, joint, ss, ss', hok, hjoint, hss, hss', hboth⟩ | ⟨errors, herror, _⟩
    · obtain rfl := Except.ok.inj (hok.symm.trans hb)
      exact ⟨joint, ss, ss', hjoint, hss, hss', hboth⟩
    · rw [hb] at herror
      cases herror
  · rcases parse_append hsize ha helse with
      ⟨tree', joint, _, _, hok, hjoint, _⟩ | ⟨errors, herror, hjoint⟩
    · refine ⟨⟨fun _ => ⟨tree', hok⟩, fun _ => ⟨joint, hjoint⟩⟩, fun errors herror => ?_⟩
      rw [hok] at herror
      cases herror
    · rw [herror, hjoint]
      refine ⟨by simp, ?_⟩
      rintro _ ⟨⟩
      rfl

/-- Two errors, and recovery between them, below a conditional that would take an `else`. -/
theorem parse_joined_recovering :
    ∃ tree errors, Node.parse "f(x); if (x) x = 1;" 8 = .ok tree ∧ tree.awaitsElse ∧
      Node.parse "let = 2; g(1; return;" 8 = .error errors ∧
      errors.map Diagnostic.span = [⟨4, 5⟩, ⟨12, 13⟩] ∧
      Node.parse ("f(x); if (x) x = 1;" ++ "\n" ++ "let = 2; g(1; return;") 8
        = .error (errors.map (.shift 20)) := by
  have hawaits : (Node.parse "f(x); if (x) x = 1;" 8).toOption.map Node.awaitsElse = some true := by
    decide +kernel
  have hspans : ((Node.parse "let = 2; g(1; return;" 8).mapError (·.map Diagnostic.span)).map
      (fun _ => ()) = .error [⟨4, 5⟩, ⟨12, 13⟩] := by decide +kernel
  have hother : startsWithElse "let = 2; g(1; return;" = false := by decide +kernel
  cases ha : Node.parse "f(x); if (x) x = 1;" 8 with
  | error errors =>
    rw [ha] at hawaits
    cases hawaits
  | ok tree =>
    cases hb : Node.parse "let = 2; g(1; return;" 8 with
    | ok tree' =>
      rw [hb] at hspans
      cases hspans
    | error errors =>
      rw [ha] at hawaits
      rw [hb] at hspans
      have hjoined := (parse_joined _ "let = 2; g(1; return;" 8 tree (by decide) ha).2
        (fun h => by rw [hother] at h; cases h.2)
      exact ⟨tree, errors, rfl, Option.some.inj hawaits, rfl, Except.error.inj hspans,
        hjoined.2 errors hb⟩

/-- A text that starts with `else` is refused, but not below a conditional without one. -/
theorem parse_joined_else :
    (Node.parse "if (x) y;" 8).isOk ∧ (Node.parse "else z;" 8).isOk = false ∧
      (Node.parse ("if (x) y;" ++ "\n" ++ "else z;") 8).isOk := by
  decide +kernel

end SimpleLang
