import SimpleLang.Proofs.Tokens.Bytes

/-!
# The scanner and the pieces of a source

`Scanner.tokenize` goes over the bytes of a source by offsets, and `Piece.split` over its
characters. They find the same tokens and the same errors (`Scanner.tokenize_eq`), so the scanner
never faults: it always comes to the end, and every slice it takes starts and ends between
characters.

* `lexemeAt_bytes`: what stands at an offset is found as the first piece there.
* `exists_skipWithin`: the blanks and comments at an offset are skipped as pieces.
* `tokenizeWithin_bytes`: so from the offset of a character on, the scanner finds what the pieces of
  the rest are. The induction is on the rounds that the scanner has left.
-/

namespace SimpleLang

namespace Scanner

open SimpleLang.Piece (bytes)

/-! ## Lexemes -/

/-- What the scanner makes of a piece behind a text. -/
def Found.ofPiece (before : List Char) (p : Piece) : Found where
  stop := bytes (before ++ p.text)
  lexeme := match p with
    | .lexeme l => some l
    | .blank _ | .comment _ | .unclosed _ | .stray _ => none
  error := p.error?

/-- A step that does not fault is replaced by its result. -/
theorem bind_of_ok {α β : Type} {x : Except Fault α} {a : α} (h : x = .ok a)
    (f : α → Except Fault β) : x >>= f = f a := by
  rw [h]
  rfl

section Lexemes

variable {source : String} {before rest : List Char} {c : Char}

/-- The bytes of a word are eaten to its end, so the slice is all of it (`eatWhile_bytes`,
`slice_bytes`). -/
theorem word_bytes (h : source.toList = before ++ c :: rest) (hc : Piece.startsWord c = true) :
    word source (bytes before) = .ok (.ofPiece before
      (.lexeme (.ofWord (String.ofList (c :: rest.takeWhile Piece.continuesWord))))) := by
  -- the first character would also continue a word, so eating starts with it
  have hcontinues : Piece.continuesWord c = true := by
    simp only [Piece.startsWord, Bool.or_eq_true] at hc
    simp only [Piece.continuesWord, Char.isAlphanum, Bool.or_eq_true]
    tauto
  have heat := eatWhile_bytes h sameKind_continuesWord
  rw [List.takeWhile_cons_of_pos hcontinues] at heat
  have hslice := slice_bytes (show source.toList =
      before ++ c :: rest.takeWhile Piece.continuesWord ++ rest.dropWhile Piece.continuesWord by
    rw [h, List.append_assoc, List.cons_append, List.takeWhile_append_dropWhile])
  have herror (text : String) : (Piece.lexeme (.ofWord text)).error? = none := by
    unfold Lexeme.ofWord
    split <;> rfl
  rw [word, bind_of_ok heat, bind_of_ok hslice, Found.ofPiece, herror, Piece.text,
    Piece.spelling_ofWord, String.toList_ofList]
  rfl

/-- Digits without a fraction behind them. -/
theorem integer_bytes {whole after : List Char} (h : source.toList = before ++ whole ++ after) :
    (do
      let digits ← slice source (bytes before) (bytes (before ++ whole))
      let error := if (Integer.read? digits).isNone then some (.integerTooLarge digits) else none
      return { stop := bytes (before ++ whole), lexeme := some (.integer digits), error }) =
    Except.ok (Found.ofPiece before (.lexeme (.integer (String.ofList whole)))) := by
  rw [bind_of_ok (slice_bytes h), Found.ofPiece, Piece.text, Lexeme.spelling, String.toList_ofList]
  rfl

/-- Behind the point the digits of the fraction are eaten. -/
theorem fraction_bytes {whole more : List Char} {d : Char}
    (h : source.toList = before ++ whole ++ ['.'] ++ d :: more) (hd : d.isDigit = true) :
    (do
      let stop ← eatWhile source isDigit (bytes (before ++ whole ++ ['.']))
      return { stop, lexeme := some (.float (← slice source (bytes before) stop)),
               error := none }) =
    Except.ok (Found.ofPiece before (.lexeme
      (.float (String.ofList (whole ++ '.' :: d :: more.takeWhile Char.isDigit))))) := by
  have htext : before ++ whole ++ ['.'] ++ d :: more.takeWhile Char.isDigit =
      before ++ (whole ++ '.' :: d :: more.takeWhile Char.isDigit) := by simp
  have heat := eatWhile_bytes h sameKind_isDigit
  rw [List.takeWhile_cons_of_pos hd, htext] at heat
  have hslice := slice_bytes (show source.toList =
      before ++ (whole ++ '.' :: d :: more.takeWhile Char.isDigit)
        ++ more.dropWhile Char.isDigit by
    rw [← htext, List.append_assoc, List.cons_append, List.takeWhile_append_dropWhile, h])
  rw [bind_of_ok heat, bind_of_ok hslice, Found.ofPiece, Piece.text, Lexeme.spelling,
    String.toList_ofList]
  rfl

/-- The point and the byte behind it are looked at only where the digits end, so the cases are those
of `Piece.number`. -/
theorem number_bytes (h : source.toList = before ++ c :: rest) (hc : c.isDigit = true) :
    number source (bytes before) = .ok (.ofPiece before (Piece.number c rest).1) := by
  have heat := eatWhile_bytes h sameKind_isDigit
  rw [List.takeWhile_cons_of_pos hc] at heat
  have hwhole : source.toList =
      before ++ c :: rest.takeWhile Char.isDigit ++ rest.dropWhile Char.isDigit := by
    rw [h, List.append_assoc, List.cons_append, List.takeWhile_append_dropWhile]
  have hnext : bytes (before ++ c :: rest.takeWhile Char.isDigit) + 1 =
      bytes (before ++ c :: rest.takeWhile Char.isDigit ++ ['.']) := by
    rw [Piece.bytes_append (before ++ c :: rest.takeWhile Char.isDigit)]
    rfl
  rw [number, bind_of_ok heat, byte?_beq hwhole (by decide), Piece.number]
  rcases hrest : rest.dropWhile Char.isDigit with _ | ⟨x, others⟩
  · exact integer_bytes hwhole
  by_cases hx : x = '.'
  · rw [hx]
    have hpoint : source.toList =
        before ++ c :: rest.takeWhile Char.isDigit ++ ['.'] ++ others := by
      rw [hwhole, hrest, hx, List.append_assoc (before ++ _), List.singleton_append]
    rw [hnext, sameKind_isDigit.any_byte? hpoint]
    rcases others with _ | ⟨d, more⟩
    · exact integer_bytes hwhole
    cases hd : d.isDigit with
    | true =>
      simp only [List.head?_cons, Option.any_some, hd, beq_self_eq_true, Bool.and_self, if_true]
      exact fraction_bytes hpoint hd
    | false =>
      simp only [List.head?_cons, Option.any_some, hd]
      exact integer_bytes hwhole
  · -- the digits are not followed by a point
    have hpoint : ((x :: others).head? == some '.') = false := by simpa using hx
    rw [hpoint, Bool.false_and, if_neg Bool.false_ne_true]
    split
    next heq =>
      cases heq
      exact absurd rfl hx
    next => exact integer_bytes hwhole

/-- The search for the closing quote may pass characters of several bytes (`sameKind_bne`). -/
theorem string_bytes (h : source.toList = before ++ '"' :: rest) :
    string source (bytes before) = .ok (.ofPiece before (Piece.quoted rest).1) := by
  have hopened : source.toList = before ++ ['"'] ++ rest := by rw [h, List.append_assoc]; rfl
  have hnext : bytes before + 1 = bytes (before ++ ['"']) := by rw [Piece.bytes_append]; rfl
  have heat := eatWhile_bytes hopened (sameKind_bne (d := '"') (by decide))
  have hbody : source.toList = before ++ ['"'] ++ rest.takeWhile (· != '"')
      ++ rest.dropWhile (· != '"') := by
    rw [hopened, List.append_assoc _ (rest.takeWhile _), List.takeWhile_append_dropWhile]
  rw [string, hnext, bind_of_ok (rest_bytes hopened), bind_of_ok heat, isSome_byte? hbody,
    Piece.quoted]
  rcases hrest : rest.dropWhile (· != '"') with _ | ⟨quote, more⟩
  · -- there is no other quote
    have hend : source.utf8ByteSize = bytes (before ++ '"' :: rest.takeWhile (· != '"')) := by
      rw [utf8ByteSize_eq hbody, hrest, List.append_assoc, List.singleton_append]
      rfl
    show Except.ok _ = _
    rw [hend]
    rfl
  · have hquote : quote = '"' := by
      have hhead := List.head?_dropWhile_not (· != '"') rest
      simpa [hrest] using hhead
    rw [hrest, hquote] at hbody
    have hclosed : bytes (before ++ ['"'] ++ rest.takeWhile (· != '"')) + 1 =
        bytes (before ++ ('"' :: rest.takeWhile (· != '"') ++ ['"'])) := by
      rw [← List.append_assoc, Piece.bytes_append _ ['"'], List.append_assoc,
        List.singleton_append]
      rfl
    have hslice := slice_bytes (show source.toList =
        before ++ ('"' :: rest.takeWhile (· != '"') ++ ['"']) ++ more by rw [hbody]; simp)
    show (do
      let text ← slice source (bytes before) (bytes (before ++ ['"'] ++ _) + 1)
      _ : Except Fault Found) = _
    rw [hclosed, bind_of_ok hslice, hquote, Found.ofPiece, Piece.text, Lexeme.spelling,
      String.toList_ofList]
    rfl

/-! ### Symbols -/

/-- By induction on the table, whose first match is what `List.find?` gives. -/
theorem pairAt_bytes (h : source.toList = before ++ rest) {table : List (String × Symbol)}
    (htable : ∀ pair ∈ table, ∀ c ∈ pair.1.toList, c.toNat < 0x80) :
    pairAt source (bytes before) table =
      .ok (table.find? fun pair => pair.1.toList.isPrefixOf rest) := by
  induction table with
  | nil => rfl
  | cons pair table ih =>
    have hothers := ih fun other hother => htable other (List.mem_cons_of_mem pair hother)
    rw [pairAt, bind_of_ok (startsWith_bytes h (htable pair List.mem_cons_self)), List.find?_cons]
    cases pair.1.toList.isPrefixOf rest with
    | true => rfl
    | false => exact hothers

/-- Every entry is the spelling of its symbol in two characters of one byte. -/
theorem pairs_spec : ∀ pair ∈ pairs, pair.1.toList = pair.2.chars ∧ pair.2.chars.length = 2 ∧
    ∀ c ∈ pair.1.toList, c.toNat < 0x80 := by
  have hchars : pairs.all (fun pair => pair.1.toList == pair.2.chars && pair.2.chars.length == 2 &&
      pair.1.toList.all fun c => decide (c.toNat < 0x80)) = true := by decide
  intro pair hpair
  have hspec := List.all_eq_true.mp hchars pair hpair
  simp only [Bool.and_eq_true, beq_iff_eq, List.all_eq_true, decide_eq_true_eq] at hspec
  exact ⟨hspec.1.1, hspec.1.2, hspec.2⟩

/-- And no symbol of two characters is missing. -/
theorem mem_pairs {s : Symbol} (hs : s.chars.length = 2) : (s.spelling, s) ∈ pairs := by
  cases s <;> first | decide | cases hs

/-- The table of pairs has the symbols of two characters. -/
theorem find?_pairs_eq_some {pair : String × Symbol}
    (h : pairs.find? (fun pair => pair.1.toList.isPrefixOf (c :: rest)) = some pair) :
    ∃ d more, rest = d :: more ∧ pair.1.toList = pair.2.chars ∧ pair.2.chars = [c, d] ∧
      Symbol.pair? c d = some pair.2 := by
  obtain ⟨hchars, hlength, -⟩ := pairs_spec pair (List.mem_of_find?_eq_some h)
  have hfound := List.find?_some h
  have hprefix := List.isPrefixOf_iff_prefix.mp hfound
  rw [hchars] at hprefix
  obtain ⟨x, y, hxy⟩ := List.length_eq_two.mp hlength
  obtain ⟨more, hmore⟩ := hprefix
  rw [hxy] at hmore
  cases hmore
  exact ⟨y, more, rfl, hchars, hxy, Piece.pair?_chars pair.2 hxy⟩

/-- If no entry of the table matches, then there is no such symbol. -/
theorem pair?_eq_none {d : Char} {more : List Char}
    (h : pairs.find? (fun pair => pair.1.toList.isPrefixOf (c :: d :: more)) = none) :
    Symbol.pair? c d = none := by
  cases hpair : Symbol.pair? c d with
  | none => rfl
  | some s =>
    have hchars := Piece.chars_of_pair? hpair
    have hmem : (s.spelling, s) ∈ pairs := mem_pairs (by rw [hchars]; rfl)
    have hnot := List.find?_eq_none.mp h _ hmem
    rw [Symbol.spelling, String.toList_ofList, hchars] at hnot
    simp at hnot

/-- The same as `pairs_spec` for single characters. -/
theorem singles_spec : ∀ pair ∈ singles, pair.2.chars = [pair.1] ∧ pair.1.toNat < 0x80 := by
  decide

/-- And as `mem_pairs`. -/
theorem mem_singles {s : Symbol} (hs : s.chars = [c]) : (c, s) ∈ singles := by
  cases s <;> first | (cases hs; decide) | cases hs

/-- The table of single characters has the symbols of one character. -/
theorem find?_singles_eq {first : UInt8} (h : source.toList = before ++ c :: rest)
    (hfirst : byte? source (bytes before) = some first) :
    (singles.find? (·.1.toUInt8 == first)).map Prod.snd = Symbol.single? c := by
  -- the byte is the one of the pair if the character is
  have hkey (pair : Char × Symbol) (hpair : pair ∈ singles) :
      (pair.1.toUInt8 == first) = true ↔ pair.2.chars = [c] := by
    obtain ⟨hchars, hlow⟩ := singles_spec pair hpair
    have hbyte := (sameKind_beq hlow).any_byte? h
    rw [hfirst] at hbyte
    rw [BEq.comm, show (first == pair.1.toUInt8) = (c == pair.1) from hbyte, hchars, beq_iff_eq,
      List.cons_eq_cons, eq_comm, and_iff_left rfl]
  cases hfind : singles.find? (·.1.toUInt8 == first) with
  | some pair =>
    have hfound := List.find?_some hfind
    have hchars := (hkey pair (List.mem_of_find?_eq_some hfind)).mp hfound
    exact (Piece.single?_chars pair.2 hchars).symm
  | none =>
    cases hsingle : Symbol.single? c with
    | none => rfl
    | some s =>
      have hfound := List.find?_some hsingle
      have hchars : s.chars = [c] := beq_iff_eq.mp hfound
      have hnot := List.find?_eq_none.mp hfind _ (mem_singles hchars)
      exact absurd ((hkey _ (mem_singles hchars)).mpr hchars) hnot

/-- A character below `0x80` is one byte. -/
theorem utf8Size_of_low (hc : c.toNat < 0x80) : c.utf8Size = 1 := by
  rw [← String.length_utf8EncodeChar]
  rcases utf8EncodeChar_cases c with ⟨-, hcode⟩ | ⟨hhigh, -⟩
  · rw [hcode]
    rfl
  · exact absurd hc (Nat.not_lt_of_le hhigh)

/-- At the start of a character there is one to be read. -/
theorem firstChar_bytes (h : source.toList = before ++ c :: rest) :
    firstChar source (bytes before) = .ok c := by
  rw [firstChar, bind_of_ok (rest_bytes h), get?_bytes h]
  rfl

/-- The pairs are tried first, as `Piece.symbol` does. A stray character is reported with all its
bytes. -/
theorem symbol_bytes {first : UInt8} (h : source.toList = before ++ c :: rest)
    (hfirst : byte? source (bytes before) = some first) :
    symbol source (bytes before) first = .ok (.ofPiece before (Piece.symbol c rest).1) := by
  have hstop (text : List Char) : bytes before + bytes text = bytes (before ++ text) :=
    (Piece.bytes_append before text).symm
  rw [symbol, bind_of_ok (pairAt_bytes h fun pair hpair => (pairs_spec pair hpair).2.2)]
  cases hpair : pairs.find? (fun pair => pair.1.toList.isPrefixOf (c :: rest)) with
  | some pair =>
    obtain ⟨d, more, rfl, htext, hchars, hsymbol⟩ := find?_pairs_eq_some hpair
    have hsize : pair.1.utf8ByteSize = bytes pair.2.chars := by
      rw [← htext, ← Piece.utf8ByteSize_ofList, String.ofList_toList]
    rw [Piece.symbol, hsymbol, Found.ofPiece, Piece.text, Lexeme.spelling, Symbol.spelling,
      String.toList_ofList, ← hstop, ← hsize]
    rfl
  | none =>
    -- if no pair matches, the first character stands alone
    have hpiece : (Piece.symbol c rest).1 = Piece.single c := by
      cases rest with
      | nil => rfl
      | cons d more => rw [Piece.symbol, pair?_eq_none hpair]
    have hsingle := find?_singles_eq h hfirst
    rw [hpiece, Piece.single, ← hsingle]
    cases hfind : singles.find? (·.1.toUInt8 == first) with
    | some pair =>
      rw [hfind] at hsingle
      have hfound := List.find?_some hsingle.symm
      have hchars : pair.2.chars = [c] := beq_iff_eq.mp hfound
      have hlow := singles_spec pair (List.mem_of_find?_eq_some hfind)
      rw [hchars, List.cons_eq_cons] at hlow
      have hone : bytes [c] = 1 := by
        rw [Piece.bytes_cons, utf8Size_of_low (by rw [hlow.1.1]; exact hlow.2)]
        rfl
      show Except.ok _ = Except.ok (Found.ofPiece before (.lexeme (.symbol pair.2)))
      rw [Found.ofPiece, Piece.text, Lexeme.spelling, Symbol.spelling, String.toList_ofList, hchars,
        ← hstop, hone]
      rfl
    | none =>
      show (firstChar source (bytes before) >>= _) = Except.ok (Found.ofPiece before (.stray c))
      rw [bind_of_ok (firstChar_bytes h), Found.ofPiece, Piece.text, ← hstop]
      rfl

/-- What stands at an offset where neither blanks nor a comment start is found as the first piece
there. -/
theorem lexemeAt_bytes {first : UInt8} (h : source.toList = before ++ c :: rest)
    (hfirst : byte? source (bytes before) = some first) (hblank : Piece.isBlank c = false)
    (hcomment : ¬ ['/', '/'] <+: c :: rest) :
    lexemeAt source (bytes before) first = .ok (.ofPiece before (Piece.next c rest).1) := by
  have hkind {p : UInt8 → Bool} {q : Char → Bool} (hpq : SameKind p q) : p first = q c := by
    have hany := hpq.any_byte? h
    rwa [hfirst] at hany
  -- `Piece.next` asks for slashes too, which `hcomment` excludes
  have hslashes (more : List Char) (hc : c = '/') (hrest : rest = '/' :: more) : False :=
    hcomment (by rw [hc, hrest]; exact List.prefix_append ['/', '/'] more)
  rw [lexemeAt, hkind sameKind_startsWord, hkind sameKind_isDigit,
    hkind (sameKind_beq (d := '"') (by decide)), Piece.next, hblank, if_neg Bool.false_ne_true]
  · cases hword : Piece.startsWord c with
    | true => exact word_bytes h hword
    | false =>
      cases hdigit : c.isDigit with
      | true => exact number_bytes h hdigit
      | false =>
        by_cases hquote : c = '"'
        · rw [hquote] at h ⊢
          exact string_bytes h
        · rw [beq_eq_false_iff_ne.mpr hquote, if_neg hquote]
          exact symbol_bytes h hfirst
  · exact hslashes

end Lexemes

/-! ## Blanks and comments -/

/-- The pieces that are skipped. -/
def isTrivia : Piece → Bool
  | .blank _ | .comment _ => true
  | .lexeme _ | .unclosed _ | .stray _ => false

/-- The text starts neither with a blank nor with a comment. -/
structure NoTrivia (text : List Char) : Prop where
  blank : text.head?.any Piece.isBlank = false
  comment : ¬ ['/', '/'] <+: text

/-- Every blank is a piece of its own. -/
theorem split_blanks {blanks : List Char} (hblanks : ∀ c ∈ blanks, Piece.isBlank c = true)
    (rest : List Char) :
    Piece.split (blanks ++ rest) = blanks.map Piece.blank ++ Piece.split rest := by
  induction blanks with
  | nil => rfl
  | cons c blanks ih =>
    have hnext : Piece.next c (blanks ++ rest) = (.blank c, blanks ++ rest) := by
      unfold Piece.next
      rw [if_pos (hblanks c List.mem_cons_self)]
    rw [List.cons_append, Piece.split_cons, hnext,
      ih fun d hd => hblanks d (List.mem_cons_of_mem c hd)]
    rfl

/-- The text of these pieces is the blanks. -/
theorem flatMap_text_blanks (blanks : List Char) :
    (blanks.map Piece.blank).flatMap Piece.text = blanks := by
  induction blanks with
  | nil => rfl
  | cons c blanks ih =>
    rw [List.map_cons, List.flatMap_cons, ih]
    rfl

/-- The first pieces of a text, none of which is a lexeme or an error, and the text behind them. -/
structure Skips (rest : List Char) (trivia : List Piece) (others : List Char) : Prop where
  split : Piece.split rest = trivia ++ Piece.split others
  text : rest = trivia.flatMap Piece.text ++ others
  trivia : ∀ p ∈ trivia, isTrivia p = true

/-- Skipping goes on where it stopped. -/
theorem Skips.trans {rest mid others : List Char} {ps qs : List Piece} (h : Skips rest ps mid)
    (h' : Skips mid qs others) : Skips rest (ps ++ qs) others where
  split := by rw [h.split, h'.split, List.append_assoc]
  text := by rw [h.text, List.flatMap_append, List.append_assoc, ← h'.text]
  trivia := List.forall_mem_append.mpr ⟨h.trivia, h'.trivia⟩

/-- All blanks in front are skipped. -/
theorem skips_blanks (rest : List Char) :
    Skips rest ((rest.takeWhile Piece.isBlank).map .blank) (rest.dropWhile Piece.isBlank) where
  split := by
    have hblanks : ∀ c ∈ rest.takeWhile Piece.isBlank, Piece.isBlank c = true :=
      fun c hc => List.all_eq_true.mp List.all_takeWhile c hc
    rw [← split_blanks hblanks, List.takeWhile_append_dropWhile]
  text := by rw [flatMap_text_blanks, List.takeWhile_append_dropWhile]
  trivia p hp := by
    obtain ⟨c, -, rfl⟩ := List.mem_map.mp hp
    rfl

/-- A comment is skipped up to the end of its line. -/
theorem skips_comment (more : List Char) : Skips ('/' :: '/' :: more)
    [.comment (more.takeWhile (· != '\n'))] (more.dropWhile (· != '\n')) where
  split := by
    rw [Piece.split_cons]
    rfl
  text := by
    show '/' :: '/' :: more = '/' :: '/' :: (_ ++ [] ++ _)
    rw [List.append_nil, List.takeWhile_append_dropWhile]
  trivia := List.forall_mem_singleton.mpr rfl

/-- What is skipped are pieces of the source, and nothing to be skipped follows. -/
theorem exists_skipWithin {source : String} {bound : Nat} {before rest : List Char}
    (h : source.toList = before ++ rest) (hbound : rest.length < bound) :
    ∃ trivia others, Skips rest trivia others ∧ NoTrivia others ∧
      skipWithin source bound (bytes before) =
        .ok (bytes (before ++ trivia.flatMap Piece.text)) := by
  induction bound generalizing before rest with
  | zero => exact absurd hbound (Nat.not_lt_zero _)
  | succ bound ih =>
    have hblanks := skips_blanks rest
    have heat := eatWhile_bytes h sameKind_isBlank
    have hnone : (rest.dropWhile Piece.isBlank).head?.any Piece.isBlank = false := by
      have hhead := List.head?_dropWhile_not Piece.isBlank rest
      cases hfirst : (rest.dropWhile Piece.isBlank).head? with
      | none => rfl
      | some c =>
        rw [hfirst] at hhead
        exact hhead
    have hle := Piece.length_dropWhile_le Piece.isBlank rest
    rw [← flatMap_text_blanks (rest.takeWhile Piece.isBlank)] at heat
    generalize (rest.takeWhile Piece.isBlank).map Piece.blank = blanks at heat hblanks
    generalize rest.dropWhile Piece.isBlank = others at hblanks hnone hle
    have hothers : source.toList = before ++ blanks.flatMap Piece.text ++ others := by
      rw [h, hblanks.text, List.append_assoc]
    have hlow : ("//".toList.all fun c => decide (c.toNat < 0x80)) = true := by decide
    rw [skipWithin, bind_of_ok heat, bind_of_ok (startsWith_bytes hothers fun c hc =>
      of_decide_eq_true (List.all_eq_true.mp hlow c hc))]
    cases hslashes : "//".toList.isPrefixOf others with
    | false =>
      refine ⟨blanks, others, hblanks, ⟨hnone, fun hprefix => ?_⟩, rfl⟩
      rw [← List.isPrefixOf_iff_prefix] at hprefix
      exact Bool.false_ne_true (hslashes.symm.trans hprefix)
    | true =>
      obtain ⟨more, rfl⟩ := List.isPrefixOf_iff_prefix.mp hslashes
      have hcomment := skips_comment more
      -- the comment goes on to the end of its line
      have heat := eatWhile_bytes hothers (sameKind_bne (d := '\n') (by decide))
      have hline : ("//".toList ++ more).takeWhile (· != '\n') =
          [Piece.comment (more.takeWhile (· != '\n'))].flatMap Piece.text :=
        (List.append_nil _).symm
      have hnext : source.toList = before ++ blanks.flatMap Piece.text
          ++ [Piece.comment (more.takeWhile (· != '\n'))].flatMap Piece.text
          ++ more.dropWhile (· != '\n') := by
        rw [hothers, List.append_assoc (before ++ blanks.flatMap Piece.text), ← hcomment.text]
        rfl
      have hshort : (more.dropWhile (· != '\n')).length < bound := by
        have hdrop := Piece.length_dropWhile_le (· != '\n') more
        change more.length + 2 ≤ rest.length at hle
        omega
      obtain ⟨trivia, others, hskips, hothers', hskip⟩ := ih hnext hshort
      refine ⟨_, others, (hblanks.trans hcomment).trans hskips, hothers', ?_⟩
      rw [if_pos rfl, bind_of_ok heat, hline, hskip, List.flatMap_append, List.flatMap_append,
        List.append_assoc, List.append_assoc, List.append_assoc]

/-! ## The whole source -/

/-- The error of a piece at an offset. -/
def errorAt? : Piece × Nat → Option Diagnostic
  | (p, start) => p.error?.map (·.diagnostic (p.span start))

section Whole

variable {source : String}

/-- What is skipped adds nothing. -/
theorem Skips.filterMap {rest others : List Char} {trivia : List Piece}
    (h : Skips rest trivia others) (start : Nat) {α : Type} {f : Piece × Nat → Option α}
    (hf : ∀ p offset, isTrivia p = true → f (p, offset) = none) :
    (Piece.locate start (Piece.split rest)).filterMap f =
      (Piece.locate (start + bytes (trivia.flatMap Piece.text))
        (Piece.split others)).filterMap f := by
  have hnone : (Piece.locate start trivia).filterMap f = [] := by
    refine List.filterMap_eq_nil_iff.mpr ?_
    rintro ⟨p, offset⟩ hp
    exact hf p offset (h.trivia p (mem_locate_of_mem hp))
  rw [h.split, Piece.locate_append, List.filterMap_append, hnone, List.nil_append]

/-- A piece adds its token and its error, if it has any. -/
theorem add_ofPiece (finds : Finds) (before : List Char) (p : Piece) :
    (finds.add (bytes before) (.ofPiece before p)).tokens.toList =
        finds.tokens.toList ++ (Piece.token? (p, bytes before)).toList ∧
      (finds.add (bytes before) (.ofPiece before p)).errors.toList =
        finds.errors.toList ++ (errorAt? (p, bytes before)).toList := by
  have hspan : Span.between (bytes before) (bytes (before ++ p.text)) = p.span (bytes before) := by
    rw [Piece.bytes_append]
    rfl
  constructor
  · cases p <;> simp [Finds.add, Found.ofPiece, Piece.token?, hspan]
  · cases he : p.error? <;> simp [Finds.add, Found.ofPiece, errorAt?, hspan, he]

/-- What is read off the first piece stands in front of the rest. -/
theorem filterMap_locate_cons {α : Type} (f : Piece × Nat → Option α) (start : Nat) (p : Piece)
    (ps : List Piece) : (Piece.locate start (p :: ps)).filterMap f =
      (f (p, start)).toList ++ (Piece.locate (start + p.size) ps).filterMap f := by
  rw [Piece.locate, List.filterMap_cons]
  cases f (p, start) <;> rfl

/-- From the offset of a character on, the scanner finds what the pieces of the rest are. -/
theorem tokenizeWithin_bytes {bound : Nat} {before rest : List Char} {finds : Finds}
    (h : source.toList = before ++ rest) (hbound : rest.length < bound) :
    tokenizeWithin source bound (bytes before) finds = .ok
      { tokens := finds.tokens.toList ++
          (Piece.locate (bytes before) (Piece.split rest)).filterMap Piece.token? ++
            [⟨.eof, .between source.utf8ByteSize source.utf8ByteSize⟩]
        errors := finds.errors.toList ++
          (Piece.locate (bytes before) (Piece.split rest)).filterMap errorAt? } := by
  induction bound generalizing before rest finds with
  | zero => exact absurd hbound (Nat.not_lt_zero _)
  | succ bound ih =>
    have hrounds : rest.length < roundBound source := by
      have hle := Piece.length_le_bytes rest
      rw [roundBound, utf8ByteSize_eq h]
      omega
    obtain ⟨trivia, others, hskips, hothers, hskip⟩ := exists_skipWithin h hrounds
    have hstart : source.toList = before ++ trivia.flatMap Piece.text ++ others := by
      rw [h, hskips.text, List.append_assoc]
    have hlength : others.length ≤ rest.length := by
      rw [hskips.text, List.length_append]
      omega
    have htoken (p : Piece) (offset : Nat) (hp : isTrivia p = true) :
        Piece.token? (p, offset) = none := by
      cases p <;> first | rfl | cases hp
    have herror (p : Piece) (offset : Nat) (hp : isTrivia p = true) :
        errorAt? (p, offset) = none := by
      cases p <;> first | rfl | cases hp
    rw [tokenizeWithin, bind_of_ok (show skipTrivia source _ = _ from hskip),
      hskips.filterMap _ htoken, hskips.filterMap _ herror, ← Piece.bytes_append]
    -- from here on `before` includes what was skipped
    generalize before ++ trivia.flatMap Piece.text = before at hstart
    have hsome := isSome_byte? hstart
    cases others with
    | nil =>
      rw [List.head?_nil, Option.isSome_none, Option.isSome_eq_false_iff, Option.isNone_iff_eq_none]
        at hsome
      have hend : source.utf8ByteSize = bytes before := utf8ByteSize_eq hstart
      rw [hsome, hend]
      show Except.ok _ = _
      simp [Piece.locate]
    | cons c more =>
      obtain ⟨first, hfirst⟩ := Option.isSome_iff_exists.mp hsome
      have hfound := lexemeAt_bytes hstart hfirst hothers.blank hothers.comment
      have htext := (Piece.next_spec c more).1
      have hshort : (Piece.next c more).2.length < bound := by
        have hle := Piece.length_next_le c more
        rw [List.length_cons] at hlength
        omega
      have hnext :
          source.toList = before ++ (Piece.next c more).1.text ++ (Piece.next c more).2 := by
        rw [hstart, List.append_assoc, htext]
      rw [hfirst]
      show (lexemeAt source (bytes before) first >>= _) = _
      obtain ⟨htokens, herrors⟩ := add_ofPiece finds before (Piece.next c more).1
      have hsize : bytes before + (Piece.next c more).1.size =
          bytes (before ++ (Piece.next c more).1.text) := (Piece.bytes_append ..).symm
      rw [bind_of_ok hfound, Piece.split_cons, filterMap_locate_cons, filterMap_locate_cons, hsize,
        ← List.append_assoc finds.tokens.toList, ← List.append_assoc finds.errors.toList,
        ← htokens, ← herrors]
      exact ih hnext hshort

end Whole

/-- There are fewer characters than rounds, so the scanner comes to the end. -/
theorem tokenize_eq (source : String) : tokenize source = .ok (.ofPieces source) := by
  have hlength : source.toList.length < roundBound source := by
    have hle := Piece.length_le_bytes source.toList
    rw [roundBound, utf8ByteSize_eq (show source.toList = [] ++ source.toList from rfl)]
    omega
  exact tokenizeWithin_bytes (show source.toList = [] ++ source.toList from rfl) hlength

end Scanner

/-- `Scanner.tokenize` never faults, so `scan` is always the scan of the pieces. -/
theorem scan_eq_ofPieces (source : String) : scan source = .ofPieces source := by
  rw [scan, Scanner.tokenize_eq]

end SimpleLang
