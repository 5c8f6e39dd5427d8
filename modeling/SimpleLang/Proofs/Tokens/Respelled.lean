import SimpleLang.Proofs.Rendering

/-!
# Scanning spellings again

Between blanks every lexeme is scanned as itself: a word and a number end there, a string ends with
its own quote, and no symbol goes on with a blank. So a source can be written anew from the
spellings of its lexemes, with any blanks between them, and scanning that gives the same lexemes.

* `respelled`: lexemes and the blanks behind each of them, written as a text.
* `Lexeme.scans`: a lexeme before a blank or the end, scanned on its own.
* `scans_respelled`: the whole text. The induction is on the lexemes, and what follows one of them
  is always a blank or the end of the text (`blank_head_respelled`).
-/

namespace SimpleLang

/-- The text is made of spaces, tabs, line feeds, form feeds and carriage returns only. -/
def IsBlanks (s : String) : Prop := ∀ c ∈ s.toList, Piece.isBlank c

instance (s : String) : Decidable (IsBlanks s) :=
  decidable_of_iff (s.toList.all Piece.isBlank = true) List.all_eq_true

/-- The spellings of lexemes with a text before the first and behind each of them. -/
def respelled (lead : String) : List (Lexeme × String) → String
  | [] => lead
  | (l, gap) :: rest => lead ++ l.spelling ++ respelled gap rest

/-! ## One lexeme -/

/-- No blank continues a word or a number. -/
theorem boundary_of_blank {rest : List Char} (h : ∀ c ∈ rest.head?, Piece.isBlank c) :
    Boundary rest := by
  intro c hc
  have hblank := h c hc
  simp only [Piece.isBlank, Bool.or_eq_true, beq_iff_eq] at hblank
  rcases hblank with (((rfl | rfl) | rfl) | rfl) | rfl <;> exact ⟨rfl, by decide⟩

/-- A lexeme that is spelled like one of its kind is scanned as itself before a blank or the end. -/
theorem Lexeme.scans {l : Lexeme} (hformed : l.WellFormed) (herror : (Piece.lexeme l).error? = none)
    {rest : List Char} (h : ∀ c ∈ rest.head?, Piece.isBlank c) :
    Scans l.spelling.toList [l] rest := by
  have hboundary := boundary_of_blank h
  cases l with
  | keyword k => exact scans_keyword k hboundary
  | symbol s => exact scans_symbol_of_blank s h
  | integer digits =>
    cases hread : Integer.read? digits with
    | none => simp [Piece.error?, hread] at herror
    | some n => exact scans_integer hformed hread hboundary
  | float text => exact scans_float hformed hboundary
  | string text =>
    obtain ⟨body, htext, hbody⟩ := hformed
    -- a string is its body in quotes
    have hquoted : text = "\"" ++ String.ofList body ++ "\"" := by
      rw [← String.toList_inj, htext]
      simp [String.toList_append]
    rw [hquoted]
    exact scans_string (by rwa [String.toList_ofList])
  | ident x => exact scans_name hformed hboundary
  | eof => exact absurd hformed id

/-! ## All lexemes -/

/-- By induction on the blanks, which leave no lexemes. -/
theorem scans_blanks {s : String} (h : IsBlanks s) (rest : List Char) : Scans s.toList [] rest := by
  unfold IsBlanks at h
  generalize s.toList = cs at h ⊢
  induction cs with
  | nil => exact .nil
  | cons c cs ih =>
    obtain ⟨hc, hcs⟩ := List.forall_mem_cons.mp h
    exact .blank hc (ih hcs)

/-- The blanks behind a lexeme, or the end of the text if there are none, open what follows it. -/
theorem blank_head_respelled {gap : String} {parts : List (Lexeme × String)} (hgap : IsBlanks gap)
    (hbetween : parts ≠ [] → gap ≠ "") :
    ∀ c ∈ (respelled gap parts).toList.head?, Piece.isBlank c := by
  intro c hc
  cases hcs : gap.toList with
  | nil =>
    -- without a gap there is no part either
    have hempty : gap = "" := String.toList_eq_nil_iff.mp hcs
    cases parts with
    | nil =>
      rw [respelled, hcs] at hc
      cases hc
    | cons x rest => exact absurd hempty (hbetween (List.cons_ne_nil _ _))
  | cons d ds =>
    have hd : Piece.isBlank d := hgap d (by rw [hcs]; exact List.mem_cons_self)
    have hhead : (respelled gap parts).toList.head? = some d := by
      cases parts with
      | nil => rw [respelled, hcs]; rfl
      | cons x rest =>
        rw [respelled, String.toList_append, String.toList_append, hcs]
        rfl
    rw [hhead] at hc
    cases hc
    exact hd

/-- Lexemes that are written with blanks between them are scanned as they are. -/
theorem scans_respelled {lead : String} {parts : List (Lexeme × String)} (hlead : IsBlanks lead)
    (hgaps : ∀ x ∈ parts, IsBlanks x.2) (hbetween : ∀ x ∈ parts.dropLast, x.2 ≠ "")
    (hformed : ∀ x ∈ parts, x.1.WellFormed ∧ (Piece.lexeme x.1).error? = none) :
    Scans (respelled lead parts).toList (parts.map Prod.fst) [] := by
  induction parts generalizing lead with
  | nil => exact scans_blanks hlead []
  | cons x parts ih =>
    obtain ⟨l, gap⟩ := x
    obtain ⟨hgap, hgaps⟩ := List.forall_mem_cons.mp hgaps
    obtain ⟨⟨hl, herror⟩, hformed⟩ := List.forall_mem_cons.mp hformed
    -- the gap is empty behind the last lexeme at most
    have hnonempty : parts ≠ [] → gap ≠ "" := by
      intro hne
      refine hbetween (l, gap) ?_
      rw [List.dropLast_cons_of_ne_nil hne]
      exact List.mem_cons_self
    have hbetween : ∀ x ∈ parts.dropLast, x.2 ≠ "" := by
      intro x hx
      refine hbetween x ?_
      cases parts with
      | nil => cases hx
      | cons y parts => exact List.mem_cons_of_mem _ hx
    have hrest := ih hgap hgaps hbetween hformed
    have hlexeme : Scans l.spelling.toList [l] ((respelled gap parts).toList ++ []) := by
      rw [List.append_nil]
      exact Lexeme.scans hl herror (blank_head_respelled hgap hnonempty)
    exact ((scans_blanks hlead _).string hlexeme).string hrest

/-- The lexemes of a source without errors are spelled like ones of their kinds, and none of them is
malformed. -/
theorem wellFormed_of_mem_lexemes {source : String} (herrors : (scan source).errors = [])
    {ls : List Lexeme} (hlexemes : (scan source).tokens.map Token.lexeme = ls ++ [.eof])
    {l : Lexeme} (hl : l ∈ ls) : l.WellFormed ∧ (Piece.lexeme l).error? = none := by
  obtain ⟨ts, us, htokens, rfl, hus⟩ := List.map_eq_append_iff.mp hlexemes
  obtain ⟨t, ht, rfl⟩ := List.mem_map.mp hl
  -- the end is the last token, and `t` stands before it
  have hne : t.lexeme ≠ .eof := by
    have hends := endsOnce_scan source
    rw [htokens] at hends
    refine hends.ne_eof ?_ t ht
    rintro rfl
    cases hus
  have hmem : t ∈ (scan source).tokens := by
    rw [htokens]
    exact List.mem_append_left _ ht
  rcases mem_tokens_scan hmem with ⟨l, start, hpiece, rfl⟩ | rfl
  · exact ⟨Piece.wellFormed_of_mem_split (mem_locate_of_mem hpiece),
      error?_of_mem_locate herrors hpiece⟩
  · exact absurd rfl hne

/-- Scanning the spellings of the lexemes of a source gives the same lexemes, whatever blanks stand
before, behind and between them; only between them there must be some. -/
theorem scan_respelled {source lead : String} {parts : List (Lexeme × String)}
    (herrors : (scan source).errors = [])
    (hlexemes : (scan source).tokens.map Token.lexeme = parts.map Prod.fst ++ [.eof])
    (hlead : IsBlanks lead) (hgaps : ∀ x ∈ parts, IsBlanks x.2)
    (hbetween : ∀ x ∈ parts.dropLast, x.2 ≠ "") :
    (scan (respelled lead parts)).errors = [] ∧
      (scan (respelled lead parts)).tokens.map Token.lexeme = parts.map Prod.fst ++ [.eof] := by
  refine (scans_respelled hlead hgaps hbetween fun x hx => ?_).scan
  exact wellFormed_of_mem_lexemes herrors hlexemes (List.mem_map_of_mem hx)

/-- A string over two lines with two slashes in it, a keyword before a name, and two divisions that
stand close. -/
theorem scan_respelled_slashes :
    ∃ parts : List (Lexeme × String),
      (scan "let s=\"//\né\";1.5/2/s").errors = [] ∧
      (scan "let s=\"//\né\";1.5/2/s").tokens.map Token.lexeme
        = parts.map Prod.fst ++ [.eof] ∧
      (∀ x ∈ parts, IsBlanks x.2) ∧ (∀ x ∈ parts.dropLast, x.2 ≠ "") ∧
      respelled "\t" parts = "\tlet\ns =\r\"//\né\"\x0c;  1.5 / 2 /\n\ns" ∧
      (scan (respelled "\t" parts)).errors = [] ∧
      (scan (respelled "\t" parts)).tokens.map Token.lexeme = parts.map Prod.fst ++ [.eof] := by
  have herrors : (scan "let s=\"//\né\";1.5/2/s").errors = [] := by decide +kernel
  have hlexemes : (scan "let s=\"//\né\";1.5/2/s").tokens.map Token.lexeme
      = [.keyword .letWord, .ident "s", .symbol .assign, .string "\"//\né\"", .symbol .semicolon,
        .float "1.5", .symbol .slash, .integer "2", .symbol .slash, .ident "s", .eof] := by
    decide +kernel
  refine ⟨[(.keyword .letWord, "\n"), (.ident "s", " "), (.symbol .assign, "\r"),
    (.string "\"//\né\"", "\x0c"), (.symbol .semicolon, "  "), (.float "1.5", " "),
    (.symbol .slash, " "), (.integer "2", " "), (.symbol .slash, "\n\n"), (.ident "s", "")],
    herrors, hlexemes, by decide, by decide, by decide, ?_⟩
  exact scan_respelled herrors hlexemes (by decide) (by decide) (by decide)

end SimpleLang
