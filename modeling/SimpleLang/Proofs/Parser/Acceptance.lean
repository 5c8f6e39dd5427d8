import SimpleLang.Proofs.Parser.Completeness
import SimpleLang.Proofs.Parser.Refinement
import SimpleLang.Proofs.Parser.Soundness

/-!
# What a parse tells

The two directions put together for whole token lists: a tree is the root over the statements of a
reading (`reads_of_ofTokens`), and tokens that have a reading give the tree of it or the one
error that they are nested too deeply, which a limit of as many levels as there are tokens excludes
(`ofTokens_of_reads`).
-/

namespace SimpleLang

def Node.root (source : String) (statements : List Node) : Node :=
  .covering source .program (.between 0 source.utf8ByteSize) statements

namespace Parser

/-- `State.start` of tokens that end has all of them ahead and no errors. -/
theorem stream_start {tokens : List Token} (h : EndsOnce tokens) :
    (State.start tokens).stream = tokens ∧ (State.start tokens).errors = #[] := by
  cases tokens with
  | nil => exact absurd h id
  | cons t ts => exact ⟨rfl, rfl⟩

/-- A tree stands for a reading of all the tokens up to the end. `program_sound` gives the reading
of what was parsed without errors, and the end is the last token, so nothing is left behind it. -/
theorem reads_of_ofTokens {source : String} {tokens : List Token} {limit : Nat} {tree : Node}
    (hends : EndsOnce tokens) (h : ofTokens source tokens limit = .ok tree) :
    ∃ ns t, tree = Node.root source ns ∧ t.lexeme = .eof ∧
      Reads source .statements tokens ns [t] := by
  obtain ⟨hstream, herrors⟩ := stream_start hends
  have hsound := program_sound source limit (.start tokens) (hstream ▸ hends)
  rw [ofTokens] at h
  cases hrun : program source limit (.start tokens) with
  | error e s => simp [hrun] at h
  | ok ns s =>
    rw [hrun] at h hsound
    obtain ⟨hmoves, hreads⟩ := hsound
    by_cases hempty : s.errors.isEmpty
    · obtain ⟨hstatements, t, ts, hlast, ht⟩ := hreads (by
        rw [herrors, Array.isEmpty_iff.mp hempty])
      rw [hstream, hlast] at hstatements
      -- what is left starts with the end, which is the last of the tokens
      have hrest : EndsOnce (t :: ts) := hends.suffix hstatements.suffix (List.cons_ne_nil _ _)
      obtain rfl := hrest.eq_singleton ht
      refine ⟨ns, t, ?_, ht, hstatements⟩
      simp only [hempty, if_true] at h
      exact (Except.ok.inj h).symm
    · simp [hempty] at h

/-- Tokens that have a reading up to the end give its tree (`program_takes`). The only error there
can be is that the limit is too small, and then it is smaller than the number of tokens. -/
theorem ofTokens_of_reads {source : String} {tokens : List Token} {ns : List Node} {t : Token}
    (hends : EndsOnce tokens) (h : Reads source .statements tokens ns [t]) (ht : t.lexeme = .eof)
    (limit : Nat) :
    ofTokens source tokens limit = .ok (Node.root source ns) ∨
      limit < tokens.length ∧ ∃ span,
        ofTokens source tokens limit = .error [(SyntaxError.tooDeep limit).diagnostic span] := by
  obtain ⟨hstream, herrors⟩ := stream_start hends
  have htakes : Takes limit limit (program source limit) tokens ns [t] :=
    program_takes h ⟨t, [], rfl, ht⟩
  -- the statements are taken, or the levels run out
  rcases htakes.2 (.start tokens) hstream hends with
    ⟨s, hrun, _, hclean, _⟩ | ⟨hlt, s, span, hrun, hcut⟩
  · refine .inl ?_
    rw [ofTokens, hrun]
    simp [hclean, herrors, Node.root]
  · refine .inr ⟨hlt, span, ?_⟩
    rw [ofTokens, hrun]
    simp [hcut, herrors]

/-- Tokens that are refused are refused with an error: a run that stops has reported why. -/
theorem ne_nil_of_ofTokens_eq_error {source : String} {tokens : List Token} {limit : Nat}
    {errors : List Diagnostic} (hends : EndsOnce tokens)
    (h : ofTokens source tokens limit = .error errors) : errors ≠ [] := by
  obtain ⟨hstream, herrors⟩ := stream_start hends
  have hsound := program_sound source limit (.start tokens) (hstream ▸ hends)
  rw [ofTokens] at h
  cases hrun : program source limit (.start tokens) with
  -- a run that stops has reported something, by `program_sound`
  | error e s =>
    rw [hrun] at h hsound
    obtain rfl := Except.error.inj h
    rintro hnil
    simp [Array.toList_eq_nil_iff.mp hnil] at hsound
  | ok ns s =>
    rw [hrun] at h
    by_cases hempty : s.errors.isEmpty
    · simp [hempty] at h
    · simp only [hempty] at h
      obtain rfl := Except.error.inj h
      simpa using hempty

end Parser

end SimpleLang
