import SimpleLang.Proofs.Parser.NestingLimit
import SimpleLang.Proofs.Tokens.Lossless

/-!
# The order of errors

What is wrong with a source is told from its beginning to its end, and where the source has it. The
scanner reports pieces, which stand one behind the other. The parser reports an error wherever its
cursor stands, and the cursor only moves on: no rule, no recovery and no stop at the nesting limit
takes it back.

* `Span.Inside`: a range of a source that starts and stops between characters.
* `Routine.State.ReportsInOrder`: what is reported is in order and not ahead of the cursor. Every
  `Action` keeps it (`ReportsInOrder.step`), so whole runs do (`Routine.keeps_of_run`).
-/

namespace SimpleLang

/-! ## Ranges of a source -/

/-- The range lies in the source and cuts no character in two, so it can be shown to a reader. -/
structure Span.Inside (source : String) (s : Span) : Prop where
  start_le_stop : s.start ≤ s.stop
  stop_le : s.stop ≤ source.utf8ByteSize
  start : CharBoundary source s.start
  stop : CharBoundary source s.stop

theorem CharBoundary.le_size {source : String} {offset : Nat} (h : CharBoundary source offset) :
    offset ≤ source.utf8ByteSize := by
  obtain ⟨before, after, rfl, rfl⟩ := h
  rw [String.utf8ByteSize_append]
  exact Nat.le_add_right ..

/-- The range of a piece of text is `Inside`: it covers whole characters. -/
theorem Span.Covers.inside {s : Span} {source text : String} (h : s.Covers source text) :
    s.Inside source :=
  ⟨h.start_le_stop, h.stop.le_size, h.start, h.stop⟩

/-! ## Errors of the scanner -/

section Scan

variable {source : String} (hsize : source.utf8ByteSize < Span.offsetCount)

include hsize

/-- An error of the scanner has the range of its piece. -/
theorem inside_of_mem_scan {d : Diagnostic} (h : d ∈ (scan source).errors) :
    d.span.Inside source := by
  obtain ⟨p, start, e, hp, -, rfl⟩ := mem_errors_scan.mp h
  exact (Piece.covers_of_mem_locate hsize hp).inside

/-- Every piece starts behind the start of the pieces before it, for it is not empty. That makes the
order strict, unlike that of the parser. -/
theorem pairwise_errors_scan :
    (scan source).errors.Pairwise fun d e => d.span.start < e.span.start := by
  -- pieces are not empty, so no two of them start at one place
  have hpieces : (Piece.locate 0 (Piece.split source.toList)).Pairwise
      fun x y => (x.1.span x.2).start < (y.1.span y.2).start := by
    refine (Piece.pairwise_locate 0 _).imp_of_mem ?_
    rintro ⟨p, start⟩ ⟨q, start'⟩ hp hq hle
    obtain ⟨before, c, rest, -, -, hnext⟩ := Piece.next_of_mem_locate hp
    have hpos := Piece.size_next_pos c rest
    rw [hnext] at hpos
    rw [Piece.span_of_mem_locate hsize hp, Piece.span_of_mem_locate hsize hq]
    exact Nat.lt_of_lt_of_le (Nat.lt_add_of_pos_right hpos) hle
  rw [errors_scan]
  refine hpieces.filterMap _ ?_
  rintro ⟨p, start⟩ ⟨q, start'⟩ hlt d hd d' hd'
  obtain ⟨e, -, rfl⟩ := Option.map_eq_some_iff.mp hd
  obtain ⟨e', -, rfl⟩ := Option.map_eq_some_iff.mp hd'
  exact hlt

end Scan

/-! ## Errors of the parser -/

namespace Routine

/-- The tokens from the cursor on stand one behind the other, and what is reported is in order,
inside of the source and not ahead of the cursor. The last one is what makes the next report come
behind the others. -/
structure State.ReportsInOrder (source : String) (s : State) : Prop where
  tokens : Ordered source (s.tokens.toList.drop s.position)
  ordered : s.errors.toList.Pairwise fun d e => d.span.start ≤ e.span.start
  reached : ∀ d ∈ s.errors.toList, ∀ here ∈ s.tokens[s.position]?, d.span.start ≤ here.span.start
  inside : ∀ d ∈ s.errors.toList, d.span.Inside source

namespace State.ReportsInOrder

variable {source : String} {s : State}

theorem drop_eq_cons {here : Token} (hhere : s.tokens[s.position]? = some here) :
    s.tokens.toList.drop s.position = here :: s.tokens.toList.drop (s.position + 1) := by
  obtain ⟨hlt, rfl⟩ := Array.getElem?_eq_some_iff.mp hhere
  exact List.drop_eq_getElem_cons hlt

/-- The new cursor is behind the old one, which was not before anything reported. On the last token
the cursor stays. -/
theorem advance (h : s.ReportsInOrder source) : s.advance.ReportsInOrder source := by
  rcases s.advance_cases with heq | ⟨hlt, heq⟩
  · rw [heq]
    exact h
  · rw [heq]
    have hhere := Array.getElem?_eq_getElem (Nat.lt_of_succ_lt hlt)
    have hnext : s.tokens[s.position + 1]? = some s.tokens[s.position + 1] :=
      Array.getElem?_eq_getElem hlt
    have htokens := h.tokens
    rw [drop_eq_cons hhere] at htokens
    obtain ⟨-, -, hle, hstop, hrest⟩ := htokens
    refine ⟨hrest, h.ordered, fun d hd here hmem => ?_, h.inside⟩
    cases hnext.symm.trans hmem
    -- the new cursor is behind the old one, which was behind all that is reported
    have hreached := h.reached d hd _ hhere
    rw [show s.tokens.toList.drop (s.position + 1) = s.tokens[s.position + 1] :: _ from
      List.drop_eq_getElem_cons hlt] at hstop
    have hstop : s.tokens[s.position].span.stop ≤ s.tokens[s.position + 1].span.start := hstop
    omega

/-- A report is made at the cursor, to which `reached` compares all earlier ones. -/
theorem report (h : s.ReportsInOrder source) (e : SyntaxError) {here : Token}
    (hhere : s.tokens[s.position]? = some here) : (s.report e here.span).ReportsInOrder source := by
  rcases s.report_cases e here.span with heq | ⟨-, heq⟩
  · rw [heq]
    exact h
  -- the new error is at the cursor, and none of the earlier ones starts behind it
  · have htokens := h.tokens
    rw [drop_eq_cons hhere] at htokens
    obtain ⟨hstart, hstop, hle, -, -⟩ := htokens
    rw [heq]
    constructor
    case tokens => exact h.tokens
    case ordered =>
      rw [Array.toList_push]
      refine List.pairwise_append.mpr ⟨h.ordered, List.pairwise_singleton .., fun d hd d' hd' => ?_⟩
      rw [List.mem_singleton.mp hd']
      exact h.reached d hd here hhere
    case reached =>
      rw [Array.toList_push]
      refine List.forall_mem_append.mpr ⟨h.reached, List.forall_mem_singleton.mpr ?_⟩
      intro here' hhere'
      cases hhere.symm.trans hhere'
      exact Nat.le_refl _
    case inside =>
      rw [Array.toList_push]
      refine List.forall_mem_append.mpr ⟨h.inside, List.forall_mem_singleton.mpr ?_⟩
      exact ⟨hle, hstop.le_size, hstart, hstop⟩

/-- An action moves the cursor on, reports at the cursor, or does neither. A level that is refused
is reported like any other error. -/
theorem step {t : State} (hstep : s.Step t) (h : s.ReportsInOrder source) :
    t.ReportsInOrder source := by
  cases hstep with
  | stay => exact h
  | advance => exact h.advance
  | report e hhere => exact h.report e hhere
  | refuse e hhere => exact { h.report e hhere with }
  | enter | leave => exact { h with }

end State.ReportsInOrder

/-- Nothing is reported yet, and all tokens are ahead. -/
theorem reportsInOrder_start {source : String} {tokens : List Token} (h : Ordered source tokens)
    (maxDepth : Nat) : (State.start tokens.toArray maxDepth).ReportsInOrder source where
  tokens := h
  ordered := .nil
  reached := List.forall_mem_nil _
  inside := List.forall_mem_nil _

end Routine

/-! ## Errors of a source -/

/-- A text that is not cut into tokens is not parsed, and has the errors of the scan. -/
theorem Node.parse_of_errors {source : String} (limit : Nat) (h : (scan source).errors ≠ []) :
    Node.parse source limit = .error (scan source).errors := by
  simp [Node.parse, h]

theorem Node.parse_eq_error_reported {source : String} {limit : Nat}
    (h : Node.reported (Node.parse source limit) ≠ []) :
    Node.parse source limit = .error (Node.reported (Node.parse source limit)) := by
  cases hparse : Node.parse source limit with
  | ok tree =>
    rw [hparse] at h
    exact absurd rfl h
  | error errors => rfl

/-- What is wrong with the tokens of a source is what a run of the parser has reported at its end.
That the run has an end is `Routine.exists_run_program`. -/
theorem Node.exists_run_of_parse_eq_error {source : String} {limit : Nat}
    {errors : List Diagnostic} (hscan : (scan source).errors = [])
    (h : Node.parse source limit = .error errors) :
    ∃ statements s, (Routine.program source (scan source).tokens.length limit).run
        (.start (scan source).tokens.toArray limit) = .ok (statements, s) ∧
      errors = s.errors.toList ∧ errors ≠ [] := by
  obtain ⟨statements, s, hrun, -⟩ :=
    Routine.exists_run_program source (endsOnce_scan source) limit
  refine ⟨statements, s, hrun, ?_⟩
  simp only [Node.parse, hscan, List.isEmpty_nil, if_true, Node.ofTokens, hrun] at h
  split at h
  · cases h
  -- the run has reported something, or there would be a tree
  next hne =>
    cases h
    exact ⟨rfl, by simpa using hne⟩

section Parse

variable {source : String} {limit : Nat} {errors : List Diagnostic}
  (hsize : source.utf8ByteSize < Span.offsetCount)

include hsize

/-- The invariant is kept by each action (`ReportsInOrder.step`), so it holds at the end of the
run. -/
theorem reportsInOrder_of_run {statements : List Node} {s : Routine.State}
    (h : (Routine.program source (scan source).tokens.length limit).run
      (.start (scan source).tokens.toArray limit) = .ok (statements, s)) :
    s.ReportsInOrder source :=
  Routine.keeps_of_run Routine.State.ReportsInOrder.step _
    (Routine.reportsInOrder_start (ordered_scan hsize) limit) h

/-- By the scanner or by the parser, whichever reports. -/
theorem inside_of_parse_eq_error (h : Node.parse source limit = .error errors) {d : Diagnostic}
    (hd : d ∈ errors) : d.span.Inside source := by
  by_cases hscan : (scan source).errors = []
  · obtain ⟨_, s, hrun, rfl, -⟩ := Node.exists_run_of_parse_eq_error hscan h
    exact (reportsInOrder_of_run hsize hrun).inside d hd
  · rw [Node.parse_of_errors limit hscan] at h
    obtain rfl := Except.error.inj h
    exact inside_of_mem_scan hsize hd

end Parse

/-- The errors of a source of less than 4 GiB are told in the order of their starts, which are
different ones if the source cannot be cut into tokens. There is at least one of them, and each is
about a range of the source that starts and stops between characters. -/
theorem parse_errors_in_order {source : String} {limit : Nat} {errors : List Diagnostic}
    (hsize : source.utf8ByteSize < 2 ^ 32) (h : Node.parse source limit = .error errors) :
    errors ≠ [] ∧ errors.Pairwise (fun d e => d.span.start ≤ e.span.start) ∧
      ((scan source).errors ≠ [] →
        errors = (scan source).errors ∧ errors.Pairwise fun d e => d.span.start < e.span.start) ∧
      ∀ d ∈ errors, d.span.Inside source := by
  have hinside : ∀ d ∈ errors, d.span.Inside source :=
    fun d hd => inside_of_parse_eq_error hsize h hd
  -- the parser is run only if the scanner reports nothing
  by_cases hscan : (scan source).errors = []
  · obtain ⟨_, s, hrun, rfl, hne⟩ := Node.exists_run_of_parse_eq_error hscan h
    exact ⟨hne, (reportsInOrder_of_run hsize hrun).ordered, fun herrors => absurd hscan herrors,
      hinside⟩
  · rw [Node.parse_of_errors limit hscan] at h
    obtain rfl := Except.error.inj h
    have hstrict := pairwise_errors_scan hsize
    exact ⟨hscan, hstrict.imp Nat.le_of_lt, fun _ => ⟨rfl, hstrict⟩, hinside⟩

/-- Two errors at one place, behind a character of two bytes. -/
theorem parse_errors_in_order_twice :
    ∃ errors, Node.parse "let = \"é\"; let = 2; \x7d" 9 = .error errors ∧
      errors.map Diagnostic.span = [⟨4, 5⟩, ⟨16, 17⟩, ⟨21, 22⟩, ⟨21, 22⟩] ∧
      errors.Pairwise (fun d e => d.span.start ≤ e.span.start) ∧
      ∀ d ∈ errors, d.span.Inside "let = \"é\"; let = 2; \x7d" := by
  have hspans : (Node.reported (Node.parse "let = \"é\"; let = 2; \x7d" 9)).map Diagnostic.span
      = [⟨4, 5⟩, ⟨16, 17⟩, ⟨21, 22⟩, ⟨21, 22⟩] := by decide +kernel
  have hne : Node.reported (Node.parse "let = \"é\"; let = 2; \x7d" 9) ≠ [] := by
    intro hnil
    rw [hnil] at hspans
    cases hspans
  have hparse := Node.parse_eq_error_reported hne
  obtain ⟨-, hordered, -, hinside⟩ := parse_errors_in_order (by decide) hparse
  exact ⟨_, hparse, hspans, hordered, hinside⟩

end SimpleLang
