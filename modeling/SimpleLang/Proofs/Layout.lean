import SimpleLang.Compile
import SimpleLang.Proofs.Lowering.Total
import SimpleLang.Proofs.Parser.Lockstep

/-!
# Layout does not matter

Two sources with the same lexemes compile alike, however they are laid out: to the same program, or
with the same errors at other places.

* `Diagnostic.SaysSame`: the errors are the same but for their places.
* `ofTokens_alike`: the two parsers run in lockstep, so the trees have the same skeletons, or the
  errors say the same. A program is read off the skeleton, which leads to `compile_eq_of_lexemes`.
-/

namespace SimpleLang

/-- The diagnostics say the same, perhaps about different places. -/
structure Diagnostic.SaysSame (d d' : Diagnostic) : Prop where
  severity : d.severity = d'.severity
  message : d.message = d'.message
  notes : d.notes = d'.notes
  help : d.help = d'.help

namespace Parser

variable {source source' : String}

/-- Which token it is and what it says does not depend on its place, so the parsers stay in
lockstep. -/
theorem corresponds_sameIn :
    Corresponds source source' (Token.SameIn source source') Diagnostic.SaysSame where
  sameIn h := h
  diagnostic _ _ := ⟨rfl, rfl, rfl, rfl⟩

/-- Without tokens both parsers start on an end that is nowhere and has no text. -/
theorem alike_start {ts ts' : List Token} (h : List.Forall₂ (Token.SameIn source source') ts ts') :
    (State.start ts).Alike (Token.SameIn source source') Diagnostic.SaysSame 0 (.start ts') := by
  have hends (s : State) : 0 < 0 → EndsOnce s.stream := nofun
  cases h with
  | nil =>
    have hexcerpt (text : String) : Span.nowhere.excerpt text = "" := by
      have hempty := Span.excerpt_append "" "" text
      rwa [String.empty_append, String.empty_append] at hempty
    have hend : Token.SameIn source source' ⟨.eof, .nowhere⟩ ⟨.eof, .nowhere⟩ :=
      ⟨rfl, (hexcerpt source).trans (hexcerpt source').symm⟩
    exact ⟨.inl rfl, hends _, hend, .nil, rfl, .nil⟩
  | cons hfirst hothers => exact ⟨.inl rfl, hends _, hfirst, hothers, rfl, .nil⟩

end Parser

/-! ## Trees and programs -/

/-- The same tokens at other places give a tree with the same skeleton, or errors that say the
same. -/
theorem ofTokens_alike {source source' : String} {ts ts' : List Token}
    (h : List.Forall₂ (Token.SameIn source source') ts ts') (limit : Nat) :
    (∃ tree tree', Parser.ofTokens source ts limit = .ok tree ∧
      Parser.ofTokens source' ts' limit = .ok tree' ∧ tree.skeleton = tree'.skeleton) ∨
    ∃ errors errors', Parser.ofTokens source ts limit = .error errors ∧
      Parser.ofTokens source' ts' limit = .error errors' ∧
      List.Forall₂ Diagnostic.SaysSame errors errors' := by
  rw [Parser.ofTokens, Parser.ofTokens]
  have hlockstep := Parser.lockstep_program Parser.corresponds_sameIn limit _ _
    (Parser.alike_start h)
  -- both parsers come to their end, or both stop
  rcases hlockstep.cases with
    ⟨ns, ns', s, s', hrun, hrun', hns, hs⟩ | ⟨e, s, s', hrun, hrun', hs⟩
  · rw [hrun, hrun']
    dsimp only
    rw [hs.isEmpty_errors]
    split
    · exact .inl ⟨_, _, rfl, rfl, Parser.sameSkeleton_covering rfl hns _ _⟩
    · exact .inr ⟨_, _, rfl, rfl, hs.errors⟩
  · rw [hrun, hrun']
    exact .inr ⟨_, _, rfl, rfl, hs.errors⟩

/-- The tokens of two sources are the same but for their places if the lexemes are. -/
theorem sameIn_scan {source source' : String} (hsize : source.utf8ByteSize < Span.offsetCount)
    (hsize' : source'.utf8ByteSize < Span.offsetCount) (herrors : (scan source).errors = [])
    (herrors' : (scan source').errors = [])
    (hlexemes : (scan source).tokens.map Token.lexeme = (scan source').tokens.map Token.lexeme) :
    List.Forall₂ (Token.SameIn source source') (scan source).tokens (scan source').tokens := by
  -- a token covers the spelling of its lexeme, so the excerpts are the same as well
  have hspelling {text : String} (hsize : text.utf8ByteSize < Span.offsetCount)
      (herrors : (scan text).errors = []) : (scan text).tokens.map (·.span.excerpt text)
        = ((scan text).tokens.map Token.lexeme).map Lexeme.spelling := by
    rw [List.map_map]
    exact List.map_congr_left fun t ht => (faithful_of_mem_scan hsize herrors ht).excerpt
  have hexcerpts : (scan source).tokens.map (·.span.excerpt source)
      = (scan source').tokens.map (·.span.excerpt source') := by
    rw [hspelling hsize herrors, hspelling hsize' herrors', hlexemes]
  rw [← List.forall₂_eq_eq_eq, List.forall₂_map_left_iff, List.forall₂_map_right_iff]
    at hlexemes hexcerpts
  exact List.Forall₂.mp (fun _ _ hlexeme hexcerpt => ⟨hlexeme, hexcerpt⟩) hlexemes hexcerpts

/-- Two sources of less than 4 GiB that are cut into the same lexemes without errors compile to the
same program, or fail with errors that say the same. -/
theorem compile_eq_of_lexemes (source source' : String) (limit : Nat)
    (hsize : source.utf8ByteSize < 2 ^ 32) (hsize' : source'.utf8ByteSize < 2 ^ 32)
    (herrors : (scan source).errors = []) (herrors' : (scan source').errors = [])
    (hlexemes : (scan source).tokens.map Token.lexeme = (scan source').tokens.map Token.lexeme) :
    (∃ p, compile source limit = .ok p ∧ compile source' limit = .ok p) ∨
    ∃ e e', compile source limit = .error e ∧ compile source' limit = .error e' ∧
      List.Forall₂ Diagnostic.SaysSame e.diagnostics e'.diagnostics := by
  have hparse := Node.parse_eq_ofTokens herrors limit
  have hparse' := Node.parse_eq_ofTokens herrors' limit
  have htokens := sameIn_scan hsize hsize' herrors herrors' hlexemes
  rcases ofTokens_alike htokens limit with
    ⟨tree, tree', htree, htree', hskeleton⟩ | ⟨errors, errors', hfail, hfail', hsame⟩
  · obtain ⟨ss, hss, _⟩ := exists_ofProgram hsize (hparse.trans htree)
    obtain ⟨ss', hss', _⟩ := exists_ofProgram hsize' (hparse'.trans htree')
    -- both programs are read off the one skeleton
    have hsame : ReadsSame (Stmt.ofProgram tree) (Stmt.ofProgram tree') := by
      rw [ReadsSame, readsSame_ofProgram_skeleton tree, hskeleton]
      exact (readsSame_ofProgram_skeleton tree').symm
    rw [hss, hss'] at hsame
    obtain rfl := Except.ok.inj hsame
    refine .inl ⟨.assemble ss, ?_, ?_⟩
    · rw [compile, hparse, htree]
      simp only [hss]
    · rw [compile, hparse', htree']
      simp only [hss']
  · refine .inr ⟨.malformed errors, .malformed errors', ?_, ?_, hsame⟩
    · rw [compile, hparse, hfail]
    · rw [compile, hparse', hfail']

/-- Two errors, and recovery between them, in a source on one line and on three. -/
theorem compile_eq_of_lexemes_sample :
    (scan "let = \"é\"; f(1;").tokens.map Token.lexeme
        = (scan "let // é\n  =\"é\" ;\nf ( 1;").tokens.map Token.lexeme ∧
      ∃ e e', compile "let = \"é\"; f(1;" 8 = .error e ∧
        compile "let // é\n  =\"é\" ;\nf ( 1;" 8 = .error e' ∧
        List.Forall₂ Diagnostic.SaysSame e.diagnostics e'.diagnostics := by
  have hlexemes : (scan "let = \"é\"; f(1;").tokens.map Token.lexeme
      = (scan "let // é\n  =\"é\" ;\nf ( 1;").tokens.map Token.lexeme := by decide +kernel
  have hfails : (compile "let = \"é\"; f(1;" 8).isOk = false := by decide +kernel
  refine ⟨hlexemes, ?_⟩
  rcases compile_eq_of_lexemes _ _ 8 (by decide) (by decide) (by decide +kernel)
    (by decide +kernel) hlexemes with ⟨p, hok, _⟩ | ⟨e, e', herror, herror', hsame⟩
  · rw [hok] at hfails
    cases hfails
  · exact ⟨e, e', herror, herror', hsame⟩

end SimpleLang
