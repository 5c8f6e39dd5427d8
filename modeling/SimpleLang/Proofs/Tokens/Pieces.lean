import Mathlib
import SimpleLang.Lexeme.Scan

/-!
# Pieces of a source text

A source text is cut into pieces: blanks, comments, lexemes, and what is wrong. `Piece.next` cuts
off the first piece, always the longest one of its kind, and `Piece.split` goes on to the end of
the text. Every character lands in exactly one piece, so the pieces put together are the text.

Tokens and errors are then read off the pieces and their offsets (`Scan.ofPieces`).

* `Piece.flatMap_text_split`: the pieces of a text, put together, are the text.
* `Lexeme.WellFormed`: how the spelling of a lexeme is made up. `wellFormed_of_mem_split`: all the
  lexemes that are cut off a text are so.
* `Piece.of_mem_locate`: a piece starts behind the bytes of the pieces before it.
-/

namespace SimpleLang

/-- A piece of a source text. -/
inductive Piece where
  /-- A blank character. -/
  | blank (c : Char)
  /-- Two slashes and the text up to the end of the line. -/
  | comment (text : List Char)
  | lexeme (lexeme : Lexeme)
  /-- A quote that no other quote follows, and all the text after it. -/
  | unclosed (text : List Char)
  /-- A character that starts no lexeme. -/
  | stray (c : Char)
deriving DecidableEq, Repr

namespace Piece

/-! ## Character classes -/

/-- The characters that separate lexemes: space, tab, line feed, form feed, carriage return. -/
def isBlank (c : Char) : Bool :=
  c == ' ' || c == '\t' || c == '\n' || c == '\x0c' || c == '\r'

/-- The characters that a word can start with. -/
def startsWord (c : Char) : Bool := c.isAlpha || c == '_'

/-- The characters that a word can go on with. -/
def continuesWord (c : Char) : Bool := c.isAlphanum || c == '_'

/-! ## Cutting off one piece -/

/-- The characters of the piece. -/
def text : Piece → List Char
  | blank c | stray c => [c]
  | comment body => '/' :: '/' :: body
  | lexeme l => l.spelling.toList
  | unclosed body => '"' :: body

/-- The piece that starts with the digit `c`: digits, and behind a point more digits if the
point is followed by one. -/
def number (c : Char) (rest : List Char) : Piece × List Char :=
  let whole := c :: rest.takeWhile Char.isDigit
  let integer := lexeme (.integer (String.ofList whole))
  match rest.dropWhile Char.isDigit with
  | '.' :: d :: more =>
    if d.isDigit then
      let fraction := d :: more.takeWhile Char.isDigit
      (lexeme (.float (String.ofList (whole ++ '.' :: fraction))), more.dropWhile Char.isDigit)
    else (integer, '.' :: d :: more)
  | other => (integer, other)

/-- The piece that starts with a quote: the text up to the next quote. -/
def quoted (rest : List Char) : Piece × List Char :=
  let body := rest.takeWhile (· != '"')
  match rest.dropWhile (· != '"') with
  | [] => (unclosed body, [])
  | quote :: more => (lexeme (.string (String.ofList ('"' :: body ++ [quote]))), more)

/-- The piece of a single character: a symbol, or a stray character. -/
def single (c : Char) : Piece :=
  match Symbol.single? c with
  | some s => lexeme (.symbol s)
  | none => stray c

/-- The symbol of two characters if there is one, else the piece of the first character. -/
def symbol (c : Char) : List Char → Piece × List Char
  | [] => (single c, [])
  | d :: more =>
    match Symbol.pair? c d with
    | some s => (lexeme (.symbol s), more)
    | none => (single c, d :: more)

/-- The first piece of a nonempty text, and the text after it. -/
def next (c : Char) (rest : List Char) : Piece × List Char :=
  if isBlank c then (blank c, rest)
  else if startsWord c then
    (lexeme (.ofWord (String.ofList (c :: rest.takeWhile continuesWord))),
      rest.dropWhile continuesWord)
  else if c.isDigit then number c rest
  else if c = '"' then quoted rest
  else match c, rest with
    | '/', '/' :: more => (comment (more.takeWhile (· != '\n')), more.dropWhile (· != '\n'))
    | _, _ => symbol c rest

/-! ## Cutting the whole text -/

/-- What a search leaves is no longer than what it was given. -/
theorem length_dropWhile_le {α : Type} (p : α → Bool) (l : List α) :
    (l.dropWhile p).length ≤ l.length :=
  (List.dropWhile_sublist p).length_le

/-- The digits, the point and the fraction are all taken off `rest`. -/
theorem length_number_le (c : Char) (rest : List Char) :
    (number c rest).2.length ≤ rest.length := by
  have digits := length_dropWhile_le Char.isDigit rest
  unfold number
  split
  next d more h =>
    rw [h] at digits
    have fraction := length_dropWhile_le Char.isDigit more
    split
    · simp only [List.length_cons] at digits
      exact Nat.le_trans fraction (by omega)
    · exact digits
  next => exact digits

/-- The body and its closing quote are taken off `rest`. -/
theorem length_quoted_le (rest : List Char) : (quoted rest).2.length ≤ rest.length := by
  have body := length_dropWhile_le (· != '"') rest
  unfold quoted
  split
  next => simp
  next more h =>
    rw [h] at body
    simp at body ⊢
    omega

/-- The second character of a pair is taken off `rest`, or nothing. -/
theorem length_symbol_le (c : Char) (rest : List Char) :
    (symbol c rest).2.length ≤ rest.length := by
  cases rest with
  | nil => simp [symbol]
  | cons d more =>
    rw [symbol]
    split <;> simp

/-- A piece takes at least one character: what follows it is no longer than what follows its
first character. -/
theorem length_next_le (c : Char) (rest : List Char) : (next c rest).2.length ≤ rest.length := by
  unfold next
  split
  · simp
  split
  · exact length_dropWhile_le _ _
  split
  · exact length_number_le c rest
  split
  · exact length_quoted_le rest
  split
  -- two slashes, and the comment is dropped with them
  next more _ _ _ _ =>
    have := length_dropWhile_le (· != '\n') more
    simp only [List.length_cons]
    omega
  next => exact length_symbol_le c rest

/-- The pieces of a text, in order. -/
def split : List Char → List Piece
  | [] => []
  | c :: rest => (next c rest).1 :: split (next c rest).2
termination_by text => text.length
decreasing_by
  have := length_next_le c rest
  simp only [List.length_cons]
  omega

/-! ## Tokens and errors -/

/-- Number of bytes that the piece takes. -/
def size (p : Piece) : Nat := p.text.foldr (fun c n => c.utf8Size + n) 0

/-- The range of a piece that starts at an offset. -/
def span (p : Piece) (start : Nat) : Span := .between start (start + p.size)

/-- The pieces with their offsets, the first of which is `start`. -/
def locate : Nat → List Piece → List (Piece × Nat)
  | _, [] => []
  | start, p :: rest => (p, start) :: locate (start + p.size) rest

/-- The token of a piece that is a lexeme. -/
def token? : Piece × Nat → Option Token
  | (lexeme l, start) => some ⟨l, (lexeme l).span start⟩
  | (blank _, _) | (comment _, _) | (unclosed _, _) | (stray _, _) => none

/-- Why a piece is malformed. A literal that is too large is reported and is a token as well. -/
def error? : Piece → Option SyntaxError
  | lexeme (.integer digits) =>
    if (Integer.read? digits).isNone then some (.integerTooLarge digits) else none
  | unclosed _ => some .unclosedString
  | stray c => some (.strayCharacter c)
  | lexeme _ | blank _ | comment _ => none

end Piece

/-- What a source text is cut into: the lexemes among its pieces, and what is wrong with the
others. -/
def Scan.ofPieces (source : String) : Scan :=
  let pieces := Piece.locate 0 (Piece.split source.toList)
  let size := source.utf8ByteSize
  { tokens := pieces.filterMap Piece.token? ++ [⟨.eof, .between size size⟩]
    errors := pieces.filterMap fun (p, start) => p.error?.map (·.diagnostic (p.span start)) }

/-! ## The spelling of lexemes -/

/-- A name: a letter or an underscore, then letters, digits and underscores, and no keyword. -/
structure IsName (x : String) : Prop where
  head : ∃ c cs, x.toList = c :: cs ∧ Piece.startsWord c ∧ ∀ d ∈ cs, Piece.continuesWord d
  notKeyword : Keyword.ofSpelling? x = none

/-- A nonempty run of digits. -/
def IsDigits (cs : List Char) : Prop := cs ≠ [] ∧ ∀ c ∈ cs, c.isDigit

/-- The spelling of a lexeme is of its kind. The end of the source is spelled by nothing. -/
def Lexeme.WellFormed : Lexeme → Prop
  | .keyword _ | .symbol _ => True
  | .integer digits => IsDigits digits.toList
  | .float text => ∃ whole fraction, text.toList = whole ++ '.' :: fraction ∧
    IsDigits whole ∧ IsDigits fraction
  | .string text => ∃ body, text.toList = '"' :: (body ++ ['"']) ∧ '"' ∉ body
  | .ident x => IsName x
  | .eof => False

namespace Piece

/-! ## One piece -/

/-- With its first digit a run of digits is not empty. -/
theorem isDigits_takeWhile {c : Char} (hc : c.isDigit) (cs : List Char) :
    IsDigits (c :: cs.takeWhile Char.isDigit) := by
  refine ⟨List.cons_ne_nil _ _, fun d hd => ?_⟩
  rcases List.mem_cons.mp hd with rfl | hd
  · exact hc
  · exact List.all_eq_true.mp List.all_takeWhile d hd

/-- A number takes its own characters off the text, and they are spelled like one. -/
theorem number_spec (c : Char) (rest : List Char) (hc : c.isDigit) :
    (number c rest).1.text ++ (number c rest).2 = c :: rest ∧
      ∀ l, (number c rest).1 = .lexeme l → l.WellFormed := by
  have hwhole := List.takeWhile_append_dropWhile (p := Char.isDigit) (l := rest)
  unfold number
  split
  next d more hdrop =>
    rw [hdrop] at hwhole
    split
    -- a digit stands behind the point, so there is a fraction
    next hd =>
      have hfraction := List.takeWhile_append_dropWhile (p := Char.isDigit) (l := more)
      refine ⟨?_, ?_⟩
      · simp only [text, Lexeme.spelling, String.toList_ofList, List.cons_append,
          List.append_assoc, hfraction, hwhole]
      · rintro l ⟨⟩
        exact ⟨_, _, String.toList_ofList, isDigits_takeWhile hc rest, isDigits_takeWhile hd more⟩
    next =>
      refine ⟨by simp [text, Lexeme.spelling, hwhole], ?_⟩
      rintro l ⟨⟩
      simpa [Lexeme.WellFormed] using isDigits_takeWhile hc rest
  next =>
    refine ⟨by simp [text, Lexeme.spelling, hwhole], ?_⟩
    rintro l ⟨⟩
    simpa [Lexeme.WellFormed] using isDigits_takeWhile hc rest

/-- The string ends at the first quote, so there is none inside. -/
theorem quoted_spec (rest : List Char) :
    (quoted rest).1.text ++ (quoted rest).2 = '"' :: rest ∧
      ∀ l, (quoted rest).1 = .lexeme l → l.WellFormed := by
  have hbody := List.takeWhile_append_dropWhile (p := (· != '"')) (l := rest)
  unfold quoted
  split
  next hdrop =>
    rw [hdrop] at hbody
    exact ⟨by simpa [text] using hbody, fun l hl => by cases hl⟩
  next quote more hdrop =>
    -- the body ends at the first character that is not skipped
    have hquote : quote = '"' := by
      have hhead := List.head?_dropWhile_not (· != '"') rest
      simpa [hdrop] using hhead
    rw [hdrop] at hbody
    refine ⟨by simp [text, Lexeme.spelling, hbody], ?_⟩
    rintro l ⟨⟩
    refine ⟨rest.takeWhile (· != '"'), by simp [hquote], fun hmem => ?_⟩
    simpa using List.all_eq_true.mp List.all_takeWhile _ hmem

/-- `Symbol.single?` is a search by the characters of the symbol, so what it finds is spelled by
`c`. -/
theorem single_spec (c : Char) : (single c).text = [c] ∧
    ∀ l, single c = .lexeme l → l.WellFormed := by
  unfold single
  split
  next s hs =>
    have hchars := List.find?_some hs
    refine ⟨?_, ?_⟩
    · rw [text, Lexeme.spelling, Symbol.spelling, String.toList_ofList]
      exact beq_iff_eq.mp hchars
    · rintro l ⟨⟩
      trivial
  next => exact ⟨rfl, fun l hl => by cases hl⟩

/-- No two symbols have the same characters. -/
theorem single?_chars (s : Symbol) {c : Char} (hs : s.chars = [c]) : Symbol.single? c = some s := by
  cases s <;> cases hs <;> rfl

/-- The same for symbols of two characters. -/
theorem pair?_chars (s : Symbol) {c d : Char} (hs : s.chars = [c, d]) :
    Symbol.pair? c d = some s := by
  cases s <;> cases hs <;> rfl

/-- What the search finds has the characters that were searched for. -/
theorem chars_of_pair? {c d : Char} {s : Symbol} (h : Symbol.pair? c d = some s) :
    s.chars = [c, d] := by
  have hchars := List.find?_some h
  exact beq_iff_eq.mp hchars

/-- A pair takes both characters, anything else is left to `single_spec`. -/
theorem symbol_spec (c : Char) (rest : List Char) :
    (symbol c rest).1.text ++ (symbol c rest).2 = c :: rest ∧
      ∀ l, (symbol c rest).1 = .lexeme l → l.WellFormed := by
  obtain ⟨htext, hformed⟩ := single_spec c
  cases rest with
  | nil => exact ⟨by simp [symbol, htext], hformed⟩
  | cons d more =>
    rw [symbol]
    split
    -- two characters that make one symbol
    next s hs =>
      have hchars := List.find?_some hs
      rw [beq_iff_eq] at hchars
      refine ⟨?_, ?_⟩
      · rw [text, Lexeme.spelling, Symbol.spelling, String.toList_ofList, hchars]
        rfl
      · rintro l ⟨⟩
        trivial
    next => exact ⟨by simp [htext], hformed⟩

/-- A word is spelled by itself, whether it is a keyword or a name. -/
theorem spelling_ofWord (w : String) : (Lexeme.ofWord w).spelling = w := by
  unfold Lexeme.ofWord
  split
  next k hk =>
    have hspelling := List.find?_some hk
    exact beq_iff_eq.mp hspelling
  next => rfl

/-- What is not found among the keywords is a name. -/
theorem wellFormed_ofWord {c : Char} {cs : List Char} (hc : startsWord c)
    (hcs : ∀ d ∈ cs, continuesWord d) :
    (Lexeme.ofWord (String.ofList (c :: cs))).WellFormed := by
  unfold Lexeme.ofWord
  split
  next k hk => trivial
  next hnone => exact ⟨⟨c, cs, String.toList_ofList, hc, hcs⟩, hnone⟩

/-- The first piece takes its own characters off the text, and a lexeme is spelled like one of its
kind. -/
theorem next_spec (c : Char) (rest : List Char) :
    (next c rest).1.text ++ (next c rest).2 = c :: rest ∧
      ∀ l, (next c rest).1 = .lexeme l → l.WellFormed := by
  unfold next
  split
  · exact ⟨rfl, fun l hl => by cases hl⟩
  split
  next hc =>
    refine ⟨?_, ?_⟩
    · rw [text, spelling_ofWord, String.toList_ofList, List.cons_append,
        List.takeWhile_append_dropWhile]
    · rintro l ⟨⟩
      exact wellFormed_ofWord hc fun d hd => List.all_eq_true.mp List.all_takeWhile d hd
  split
  next hc => exact number_spec c rest hc
  split
  next hc =>
    rw [hc]
    exact quoted_spec rest
  split
  next => exact ⟨by simp [text], fun l hl => by cases hl⟩
  next => exact symbol_spec c rest

/-! ## All pieces of a text -/

@[simp] theorem split_nil : split [] = [] := by rw [split]

/-- One piece, and the pieces of what it leaves. -/
theorem split_cons (c : Char) (rest : List Char) :
    split (c :: rest) = (next c rest).1 :: split (next c rest).2 := by rw [split]

/-- The pieces of a text, put together, are the text. -/
theorem flatMap_text_split (cs : List Char) : (split cs).flatMap text = cs := by
  fun_induction split cs with
  | case1 => rfl
  | case2 c rest ih => rw [List.flatMap_cons, ih, (next_spec c rest).1]

/-- By induction along `split`. Each lexeme was cut off by `next` (`next_spec`). -/
theorem wellFormed_of_mem_split {cs : List Char} {l : Lexeme} (h : .lexeme l ∈ split cs) :
    l.WellFormed := by
  fun_induction split cs with
  | case1 => simp at h
  | case2 c rest ih =>
    rcases List.mem_cons.mp h with h | h
    · exact (next_spec c rest).2 l h.symm
    · exact ih h

/-! ## Offsets -/

/-- The number of bytes of a text. -/
def bytes (cs : List Char) : Nat := cs.foldr (fun c n => c.utf8Size + n) 0

theorem bytes_cons (c : Char) (cs : List Char) : bytes (c :: cs) = c.utf8Size + bytes cs := rfl

/-- The bytes of two texts add up. -/
theorem bytes_append (cs ds : List Char) : bytes (cs ++ ds) = bytes cs + bytes ds := by
  induction cs with
  | nil => rw [List.nil_append, show bytes [] = 0 from rfl, Nat.zero_add]
  | cons c cs ih => rw [List.cons_append, bytes_cons, bytes_cons, ih, Nat.add_assoc]

/-- A character takes at least one byte. -/
theorem length_le_bytes (cs : List Char) : cs.length ≤ bytes cs := by
  induction cs with
  | nil => exact Nat.le_refl 0
  | cons c cs ih =>
    have hc := Char.utf8Size_pos c
    rw [List.length_cons, bytes_cons]
    omega

/-- `bytes` is the size of the text as a string. -/
theorem utf8ByteSize_ofList (cs : List Char) : (String.ofList cs).utf8ByteSize = bytes cs := by
  induction cs with
  | nil => rfl
  | cons c cs ih =>
    rw [String.ofList_cons, String.utf8ByteSize_append, String.utf8ByteSize_singleton, ih,
      bytes_cons]

/-- A piece starts behind all the text of the pieces before it. -/
theorem of_mem_locate {p : Piece} {start n : Nat} {ps : List Piece}
    (h : (p, start) ∈ locate n ps) :
    ∃ before after, ps = before ++ p :: after ∧ start = n + bytes (before.flatMap text) := by
  induction ps generalizing n with
  | nil => simp [locate] at h
  | cons q ps ih =>
    rcases List.mem_cons.mp h with h | h
    · cases h
      exact ⟨[], ps, rfl, rfl⟩
    · obtain ⟨before, after, rfl, rfl⟩ := ih h
      refine ⟨q :: before, after, rfl, ?_⟩
      rw [List.flatMap_cons, bytes_append, Nat.add_assoc]
      rfl

/-- The pieces of the second part start behind all the text of the first. -/
theorem locate_append (start : Nat) (ps qs : List Piece) :
    locate start (ps ++ qs) = locate start ps ++ locate (start + bytes (ps.flatMap text)) qs := by
  induction ps generalizing start with
  | nil => rfl
  | cons p ps ih =>
    rw [List.cons_append, locate, locate, ih, List.flatMap_cons, bytes_append, Nat.add_assoc]
    rfl

end Piece

/-- Locating pieces adds none. -/
theorem mem_locate_of_mem {p : Piece} {start n : Nat} {ps : List Piece}
    (h : (p, start) ∈ Piece.locate n ps) : p ∈ ps := by
  obtain ⟨before, after, rfl, _⟩ := Piece.of_mem_locate h
  simp

/-- The bytes between the two offsets are those of `mid`, so they are valid UTF-8 and decode to
it. -/
theorem Span.excerpt_append (before mid after : String) :
    (Span.mk before.utf8ByteSize (before.utf8ByteSize + mid.utf8ByteSize)).excerpt
      (before ++ mid ++ after) = mid := by
  have hle : before.utf8ByteSize + mid.utf8ByteSize ≤ (before ++ mid ++ after).utf8ByteSize := by
    simp only [String.utf8ByteSize_append]
    omega
  have hbytes : (before ++ mid ++ after).toUTF8.extract before.utf8ByteSize
      (before.utf8ByteSize + mid.utf8ByteSize) = mid.toByteArray := by
    rw [String.toUTF8_eq_toByteArray, String.toByteArray_append, String.toByteArray_append,
      ByteArray.append_assoc]
    exact (ByteArray.extract_append_size_add' (i := 0) String.size_toByteArray.symm).trans
      (ByteArray.extract_append_eq_left String.size_toByteArray.symm)
  rw [excerpt, if_pos hle, hbytes, String.fromUTF8?, dif_pos mid.isValidUTF8]
  rfl

end SimpleLang
