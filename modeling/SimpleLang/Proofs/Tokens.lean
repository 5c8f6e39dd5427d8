import SimpleLang.Proofs.Parser.Stream
import SimpleLang.Proofs.Tokens.Scanner

/-!
# Tokens and the source they come from

* `tokens_scan`, `errors_scan`: both are read off the pieces of the source.
* `excerpt_of_mem_locate`: a token covers its spelling, as long as offsets into the source fit their
  32 bits.
* `endsOnce_scan`: the end of the source is the last token and no other one.
-/

namespace SimpleLang

/-! ## Tokens -/

/-- By `scan_eq_ofPieces` the tokens of the running scanner are those of the pieces. -/
theorem tokens_scan (source : String) : (scan source).tokens =
    (Piece.locate 0 (Piece.split source.toList)).filterMap Piece.token? ++
      [⟨.eof, .between source.utf8ByteSize source.utf8ByteSize⟩] := by
  rw [scan_eq_ofPieces]
  rfl

/-- The same for the errors. -/
theorem errors_scan (source : String) : (scan source).errors =
    (Piece.locate 0 (Piece.split source.toList)).filterMap fun (p, start) =>
      p.error?.map (·.diagnostic (p.span start)) := by
  rw [scan_eq_ofPieces]
  rfl

/-- The token of a lexeme that was cut off the text covers the spelling of the lexeme. -/
theorem excerpt_of_mem_locate {source : String} {l : Lexeme} {start : Nat}
    (hsize : source.utf8ByteSize < Span.offsetCount)
    (h : (.lexeme l, start) ∈ Piece.locate 0 (Piece.split source.toList)) :
    ((Piece.lexeme l).span start).excerpt source = l.spelling := by
  obtain ⟨before, after, hsplit, hstart⟩ := Piece.of_mem_locate h
  have hsource : source = String.ofList (before.flatMap Piece.text) ++ l.spelling
      ++ String.ofList (after.flatMap Piece.text) := by
    have htext := Piece.flatMap_text_split source.toList
    rw [hsplit, List.flatMap_append, List.flatMap_cons] at htext
    rw [← String.toList_inj, String.toList_append, String.toList_append, String.toList_ofList,
      String.toList_ofList, List.append_assoc, ← htext]
    rfl
  have hbefore : start = (String.ofList (before.flatMap Piece.text)).utf8ByteSize := by
    rw [Piece.utf8ByteSize_ofList, hstart, Nat.zero_add]
  have hpiece : (Piece.lexeme l).size = l.spelling.utf8ByteSize := by
    rw [← String.ofList_toList (s := l.spelling), Piece.utf8ByteSize_ofList]
    rfl
  have hstop : start + (Piece.lexeme l).size < Span.offsetCount := by
    rw [hsource] at hsize
    simp only [String.utf8ByteSize_append] at hsize
    omega
  -- neither offset wraps around
  rw [Piece.span, Span.between, Nat.mod_eq_of_lt (by omega), Nat.mod_eq_of_lt hstop, hpiece,
    hbefore]
  conv => lhs; rw [hsource]
  exact Span.excerpt_append _ _ _

/-- What the readers of a token rely on. -/
structure Token.Faithful (source : String) (t : Token) : Prop where
  /-- It covers its spelling. -/
  excerpt : t.span.excerpt source = t.lexeme.spelling
  wellFormed : t.lexeme ≠ .eof → t.lexeme.WellFormed
  /-- An integer is not too large. -/
  integer : ∀ digits, t.lexeme = .integer digits → (Integer.read? digits).isSome

/-- The tokens of a source are its lexemes, and the end. -/
theorem mem_tokens_scan {source : String} {t : Token} (h : t ∈ (scan source).tokens) :
    (∃ l start, (.lexeme l, start) ∈ Piece.locate 0 (Piece.split source.toList) ∧
      t = ⟨l, (Piece.lexeme l).span start⟩) ∨
    t = ⟨.eof, .between source.utf8ByteSize source.utf8ByteSize⟩ := by
  rw [tokens_scan] at h
  rcases List.mem_append.mp h with h | h
  · obtain ⟨⟨p, start⟩, hmem, htoken⟩ := List.mem_filterMap.mp h
    cases p with
    | lexeme l => exact .inl ⟨l, start, hmem, (Option.some.inj htoken).symm⟩
    | _ => cases htoken
  · exact .inr (List.mem_singleton.mp h)

/-- Every lexeme that was cut off is a token. -/
theorem mem_tokens_of_mem_locate {source : String} {l : Lexeme} {start : Nat}
    (h : (.lexeme l, start) ∈ Piece.locate 0 (Piece.split source.toList)) :
    ⟨l, (Piece.lexeme l).span start⟩ ∈ (scan source).tokens := by
  rw [tokens_scan]
  exact List.mem_append_left _ (List.mem_filterMap.mpr ⟨_, h, rfl⟩)

/-- A source without errors has no malformed pieces. -/
theorem error?_of_mem_locate {source : String} (herrors : (scan source).errors = []) {p : Piece}
    {start : Nat} (h : (p, start) ∈ Piece.locate 0 (Piece.split source.toList)) :
    p.error? = none := by
  rw [errors_scan] at herrors
  exact Option.map_eq_none_iff.mp (List.filterMap_eq_nil_iff.mp herrors _ h)

/-- Every token covers its spelling; the end of the source is spelled by nothing. -/
theorem excerpt_of_mem_scan {source : String} {t : Token}
    (hsize : source.utf8ByteSize < Span.offsetCount) (h : t ∈ (scan source).tokens) :
    t.span.excerpt source = t.lexeme.spelling := by
  rcases mem_tokens_scan h with ⟨l, start, hmem, rfl⟩ | rfl
  · exact excerpt_of_mem_locate hsize hmem
  · have hend := Span.excerpt_append source "" ""
    rw [String.append_empty, String.append_empty] at hend
    rw [Span.between, Nat.mod_eq_of_lt hsize]
    exact hend

/-- The tokens of a source that is cut without errors can be relied on. -/
theorem faithful_of_mem_scan {source : String} {t : Token}
    (hsize : source.utf8ByteSize < Span.offsetCount) (herrors : (scan source).errors = [])
    (h : t ∈ (scan source).tokens) : t.Faithful source := by
  have hexcerpt := excerpt_of_mem_scan hsize h
  rcases mem_tokens_scan h with ⟨l, start, hmem, rfl⟩ | rfl
  · refine ⟨hexcerpt, fun _ => Piece.wellFormed_of_mem_split (mem_locate_of_mem hmem), ?_⟩
    rintro digits rfl
    have herror := error?_of_mem_locate herrors hmem
    cases hread : Integer.read? digits with
    | some _ => rfl
    | none => simp [Piece.error?, hread] at herror
  · exact ⟨hexcerpt, fun h => absurd rfl h, fun digits h => nomatch h⟩

/-- The end of the source is the last token, and no other one. -/
theorem endsOnce_scan (source : String) : Parser.EndsOnce (scan source).tokens := by
  have hne (t : Token) (ht : t ∈ (Piece.locate 0 (Piece.split source.toList)).filterMap
      Piece.token?) : t.lexeme ≠ .eof := by
    obtain ⟨⟨p, start⟩, hmem, htoken⟩ := List.mem_filterMap.mp ht
    cases p with
    | lexeme l =>
      obtain rfl := Option.some.inj htoken
      rintro rfl
      exact Piece.wellFormed_of_mem_split (mem_locate_of_mem hmem)
    | _ => cases htoken
  rw [tokens_scan]
  exact Parser.endsOnce_append hne rfl

end SimpleLang
