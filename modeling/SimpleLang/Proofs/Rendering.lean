import SimpleLang.Program.Printer
import SimpleLang.Proofs.Literals
import SimpleLang.Proofs.Writable

/-!
# The lexemes of a written program

`Expr.lexemes` and `Stmt.lexemes` write syntax as lexemes, without blanks and lines, and this module
shows that they are what the written text is scanned into.

* `Scans cs ls rest`: before `rest` the text `cs` is cut into blanks and the lexemes `ls`. A text is
  scanned part by part (`Scans.append`), as long as no lexeme runs on into the next part.
* `Expr.scans_text`, `Stmt.scans_text`: what is written is scanned as its lexemes.
* `Program.scan_text_of_positional`: so is a whole program, and without errors, if its floats are
  written with digits on both sides of a point.
-/

namespace SimpleLang

/-! ## Scanning a text part by part -/

/-- Before `rest` the text is cut into blanks and the given lexemes, none of them malformed. -/
inductive Scans : List Char → List Lexeme → List Char → Prop where
  | nil {rest : List Char} : Scans [] [] rest
  | blank {c : Char} {cs rest : List Char} {ls : List Lexeme} (hc : Piece.isBlank c)
      (h : Scans cs ls rest) : Scans (c :: cs) ls rest
  | lexeme {c : Char} {cs ds rest : List Char} {l : Lexeme} {ls : List Lexeme}
      (hnext : Piece.next c (cs ++ rest) = (.lexeme l, ds ++ rest))
      (herror : (Piece.lexeme l).error? = none) (h : Scans ds ls rest) :
      Scans (c :: cs) (l :: ls) rest

/-- Each lexeme of the first part was scanned with `ds` behind it, so nothing is scanned anew. -/
theorem Scans.append {cs ds rest : List Char} {ls ms : List Lexeme}
    (h : Scans cs ls (ds ++ rest)) (h' : Scans ds ms rest) : Scans (cs ++ ds) (ls ++ ms) rest := by
  generalize hmid : ds ++ rest = mid at h
  induction h with
  | nil => exact h'
  | blank hc _ ih => exact .blank hc (ih hmid)
  | lexeme hnext herror _ ih =>
    subst hmid
    refine .lexeme ?_ herror (ih rfl)
    show Piece.next _ ((_ ++ ds) ++ rest) = (_, (_ ++ ds) ++ rest)
    rw [List.append_assoc, List.append_assoc]
    exact hnext

/-- A text that is a single lexeme. -/
theorem Scans.single {c : Char} {cs rest : List Char} {l : Lexeme}
    (hnext : Piece.next c (cs ++ rest) = (.lexeme l, rest))
    (herror : (Piece.lexeme l).error? = none) : Scans (c :: cs) [l] rest :=
  @Scans.lexeme c cs [] rest l [] hnext herror .nil

def Piece.lexeme? : Piece → Option Lexeme
  | .lexeme l => some l
  | _ => none

/-- A scanned text has pieces of its own, whatever `rest` is split into. -/
theorem Scans.split {cs rest : List Char} {ls : List Lexeme} (h : Scans cs ls rest) :
    ∃ ps, Piece.split (cs ++ rest) = ps ++ Piece.split rest ∧
      ps.filterMap Piece.lexeme? = ls ∧ ∀ p ∈ ps, p.error? = none := by
  induction h with
  | nil => exact ⟨[], rfl, rfl, by simp⟩
  | @blank c cs rest ls hc _ ih =>
    obtain ⟨ps, hsplit, hls, herrors⟩ := ih
    have hnext : Piece.next c (cs ++ rest) = (.blank c, cs ++ rest) := by
      unfold Piece.next
      rw [if_pos hc]
    refine ⟨.blank c :: ps, ?_, hls, List.forall_mem_cons.mpr ⟨rfl, herrors⟩⟩
    rw [List.cons_append, Piece.split_cons, hnext, hsplit]
    rfl
  | @lexeme c cs ds rest l ls hnext herror _ ih =>
    obtain ⟨ps, hsplit, hls, herrors⟩ := ih
    refine ⟨.lexeme l :: ps, ?_, congrArg (l :: ·) hls,
      List.forall_mem_cons.mpr ⟨herror, herrors⟩⟩
    rw [List.cons_append, Piece.split_cons, hnext, hsplit]
    rfl

/-! ## Words and literals -/

/-- A word or a number cannot go on with the text. -/
def Boundary (rest : List Char) : Prop :=
  ∀ c ∈ rest.head?, Piece.continuesWord c = false ∧ c ≠ '.'

/-- The run of characters with `p` is `cs`, since the first one behind it is another. -/
theorem takeWhile_append_of_boundary {p : Char → Bool} {cs rest : List Char}
    (hcs : ∀ c ∈ cs, p c) (hrest : ∀ c ∈ rest.head?, p c = false) :
    (cs ++ rest).takeWhile p = cs ∧ (cs ++ rest).dropWhile p = rest := by
  rw [List.takeWhile_append_of_pos hcs, List.dropWhile_append_of_pos hcs]
  cases rest with
  | nil => simp
  | cons c rest => simp [hrest c rfl]

/-- The blanks are five characters, and `startsWord` is false of each. -/
theorem not_isBlank_of_startsWord {c : Char} (h : Piece.startsWord c) :
    ¬ Piece.isBlank c = true := by
  intro hblank
  simp only [Piece.isBlank, Bool.or_eq_true, beq_iff_eq] at hblank
  rcases hblank with (((rfl | rfl) | rfl) | rfl) | rfl <;> exact absurd h (by decide)

/-- `Piece.next` asks for blanks and words before it asks for digits. -/
theorem not_startsWord_of_isDigit {c : Char} (h : c.isDigit) :
    ¬ Piece.isBlank c = true ∧ ¬ Piece.startsWord c = true := by
  have hdigit := toNat_of_isDigit h
  refine ⟨fun hblank => ?_, fun hword => ?_⟩
  · simp only [Piece.isBlank, Bool.or_eq_true, beq_iff_eq] at hblank
    rcases hblank with (((rfl | rfl) | rfl) | rfl) | rfl <;> exact absurd h (by decide)
  · simp only [Piece.startsWord, Char.isAlpha, Char.isUpper, Char.isLower, Bool.or_eq_true,
      Bool.and_eq_true, decide_eq_true_eq, beq_iff_eq, UInt32.le_iff_toNat_le, ge_iff_le] at hword
    rcases hword with (⟨hlow, _⟩ | ⟨hlow, _⟩) | rfl
    · have hA : 'A'.val.toNat = 65 := rfl
      omega
    · have ha : 'a'.val.toNat = 97 := rfl
      omega
    · exact absurd h (by decide)

/-- A digit continues a word, so none stands at a `Boundary`. -/
theorem isDigit_of_boundary {rest : List Char} (h : Boundary rest) :
    ∀ c ∈ rest.head?, c.isDigit = false := by
  intro c hc
  have hword := (h c hc).1
  simp only [Piece.continuesWord, Char.isAlphanum, Bool.or_eq_false_iff] at hword
  exact hword.1.2

/-- A word goes on as long as `continuesWord` holds, which is up to the `Boundary`. -/
theorem scans_word {x : String} {c : Char} {cs rest : List Char} (hx : x.toList = c :: cs)
    (hc : Piece.startsWord c) (hcs : ∀ d ∈ cs, Piece.continuesWord d) (hrest : Boundary rest)
    (herror : (Piece.lexeme (.ofWord x)).error? = none) :
    Scans x.toList [.ofWord x] rest := by
  obtain ⟨htake, hdrop⟩ := takeWhile_append_of_boundary hcs fun d hd => (hrest d hd).1
  rw [hx]
  refine .single ?_ herror
  unfold Piece.next
  rw [if_neg (not_isBlank_of_startsWord hc), if_pos hc, htake, hdrop, ← hx, String.ofList_toList]

/-- A name is a word that is no keyword (`IsName`). -/
theorem scans_name {x : String} {rest : List Char} (hx : IsName x) (hrest : Boundary rest) :
    Scans x.toList [.ident x] rest := by
  obtain ⟨c, cs, htext, hc, hcs⟩ := hx.head
  have hword : Lexeme.ofWord x = .ident x := by rw [Lexeme.ofWord, hx.notKeyword]
  have hscan : Scans x.toList [.ofWord x] rest :=
    scans_word htext hc hcs hrest (by rw [hword]; rfl)
  rwa [hword] at hscan

theorem ofWord_keyword (k : Keyword) : Lexeme.ofWord k.spelling = .keyword k := by
  cases k <;> decide

/-- `scans_word` for a keyword. -/
theorem scans_keyword (k : Keyword) {rest : List Char} (hrest : Boundary rest) :
    Scans k.spelling.toList [.keyword k] rest := by
  have hscan : Scans k.spelling.toList [.ofWord k.spelling] rest := by
    cases k <;> exact scans_word rfl (by decide) (List.all_eq_true.mp rfl) hrest rfl
  rwa [ofWord_keyword] at hscan

/-- The digits have to be in range (`hread`), since for others `Piece.error?` has an error. -/
theorem scans_integer {digits : String} {n : Int64} {rest : List Char}
    (hdigits : IsDigits digits.toList) (hread : Integer.read? digits = some n)
    (hrest : Boundary rest) : Scans digits.toList [.integer digits] rest := by
  cases htext : digits.toList with
  | nil => exact absurd htext hdigits.1
  | cons c cs =>
    rw [htext] at hdigits
    have hc := hdigits.2 c List.mem_cons_self
    obtain ⟨hblank, hword⟩ := not_startsWord_of_isDigit hc
    obtain ⟨htake, hdrop⟩ := takeWhile_append_of_boundary
      (fun d hd => hdigits.2 d (List.mem_cons_of_mem c hd)) (isDigit_of_boundary hrest)
    refine .single ?_ (by simp [Piece.error?, hread])
    unfold Piece.next
    rw [if_neg hblank, if_neg hword, if_pos hc, Piece.number, htake, hdrop, ← htext,
      String.ofList_toList]
    -- a point behind the digits would make them the start of a float
    split
    next d more => exact absurd rfl (hrest '.' rfl).2
    next => rfl

/-- Two runs of digits. The first one is ended by the point, the second by the `Boundary`. -/
theorem scans_float {text : String} {rest : List Char} (htext : (Lexeme.float text).WellFormed)
    (hrest : Boundary rest) : Scans text.toList [.float text] rest := by
  obtain ⟨whole, fraction, htext, hwhole, hfraction⟩ := htext
  cases whole with
  | nil => exact absurd rfl hwhole.1
  | cons c cs =>
    cases fraction with
    | nil => exact absurd rfl hfraction.1
    | cons d ds =>
      have hc := hwhole.2 c List.mem_cons_self
      obtain ⟨hblank, hword⟩ := not_startsWord_of_isDigit hc
      -- the point is no digit, so the first run ends there
      have hpoint : ∀ e ∈ ('.' :: d :: (ds ++ rest)).head?, e.isDigit = false := by
        rintro e ⟨⟩
        rfl
      obtain ⟨htake, hdrop⟩ := takeWhile_append_of_boundary
        (fun e he => hwhole.2 e (List.mem_cons_of_mem c he)) hpoint
      obtain ⟨htake', hdrop'⟩ := takeWhile_append_of_boundary
        (fun e he => hfraction.2 e (List.mem_cons_of_mem d he)) (isDigit_of_boundary hrest)
      have happend : cs ++ '.' :: d :: ds ++ rest = cs ++ '.' :: d :: (ds ++ rest) := by simp
      rw [htext]
      refine .single ?_ rfl
      show Piece.next c (cs ++ '.' :: d :: ds ++ rest) = _
      unfold Piece.next
      rw [if_neg hblank, if_neg hword, if_pos hc, happend, Piece.number, htake, hdrop]
      simp only [hfraction.2 d List.mem_cons_self, if_true, htake', hdrop']
      rw [← htext, String.ofList_toList]

/-- `Piece.quoted` takes all up to the next quote, and `s` has none. -/
theorem scans_string {s : String} {rest : List Char} (hs : '"' ∉ s.toList) :
    Scans ("\"" ++ s ++ "\"").toList [.string ("\"" ++ s ++ "\"")] rest := by
  have htext : ("\"" ++ s ++ "\"").toList = '"' :: (s.toList ++ ['"']) := by
    simp [String.toList_append]
  have hbody : ∀ c ∈ s.toList, (c != '"') = true := fun c hc => by
    simpa using fun h : c = '"' => hs (h ▸ hc)
  -- the closing quote is the first one
  have hquote : ∀ c ∈ ('"' :: rest).head?, (c != '"') = false := by
    rintro c ⟨⟩
    rfl
  obtain ⟨htake, hdrop⟩ := takeWhile_append_of_boundary hbody hquote
  rw [htext]
  refine .single ?_ rfl
  unfold Piece.next
  rw [if_neg (by decide), if_neg (by decide), if_neg (by decide), if_pos rfl, List.append_assoc]
  show Piece.quoted (s.toList ++ '"' :: rest) = _
  rw [Piece.quoted, htake, hdrop]
  show (Piece.lexeme (.string (String.ofList ('"' :: (s.toList ++ ['"'])))), rest) = _
  rw [← htext, String.ofList_toList]

/-! ## Fixed parts of the text -/

/-- `Boundary` asks for the first character only. -/
theorem boundary_cons {c : Char} {cs : List Char} (hc : Piece.continuesWord c = false)
    (hpoint : c ≠ '.') : Boundary (c :: cs) := by
  rintro d ⟨⟩
  exact ⟨hc, hpoint⟩

/-- `Scans.append` for texts that are put together as strings. -/
theorem Scans.string {a b : String} {rest : List Char} {ls ms : List Lexeme}
    (h : Scans a.toList ls (b.toList ++ rest)) (h' : Scans b.toList ms rest) :
    Scans (a ++ b).toList (ls ++ ms) rest := by
  rw [String.toList_append]
  exact h.append h'

open Lexeme SimpleLang.Symbol Keyword

section Fixed

variable {rest : List Char}

theorem boundary_blank : Boundary (' ' :: rest) := boundary_cons rfl (by decide)

theorem scans_blank : Scans " ".toList [] rest := show Scans [' '] [] rest from .blank rfl .nil

theorem scans_newline : Scans "\n".toList [] rest := show Scans ['\n'] [] rest from .blank rfl .nil

/-- Before a blank or the end every symbol ends. -/
theorem scans_symbol_of_blank (s : Symbol) (h : ∀ c ∈ rest.head?, Piece.isBlank c) :
    Scans s.spelling.toList [symbol s] rest := by
  rw [Symbol.spelling, String.toList_ofList]
  cases rest with
  | nil => cases s <;> exact .single rfl rfl
  | cons c more =>
    have hc := h c rfl
    simp only [Piece.isBlank, Bool.or_eq_true, beq_iff_eq] at hc
    rcases hc with (((rfl | rfl) | rfl) | rfl) | rfl <;> cases s <;> exact .single rfl rfl

/-- `scans_symbol_of_blank` before a space. -/
theorem scans_symbol (s : Symbol) : Scans s.spelling.toList [symbol s] (' ' :: rest) := by
  refine scans_symbol_of_blank s ?_
  rintro c ⟨⟩
  rfl

/-- The symbols that end wherever they stand. -/
def delimiters : List Symbol :=
  [leftParen, rightParen, leftBrace, rightBrace, leftBracket, rightBracket, comma, semicolon]

/-- None of the `delimiters` is the first half of a longer symbol, so anything may follow. -/
theorem scans_delimiter (s : Symbol) (hs : s ∈ delimiters) :
    Scans s.spelling.toList [symbol s] rest := by
  rw [Symbol.spelling, String.toList_ofList]
  cases s with
  | leftParen | rightParen | leftBrace | rightBrace | leftBracket | rightBracket | comma
  | semicolon => cases rest <;> exact .single rfl rfl
  | _ => exact absurd hs (by decide)

theorem boundary_delimiter (s : Symbol) (hs : s ∈ delimiters) :
    Boundary (s.spelling.toList ++ rest) := by
  rw [Symbol.spelling, String.toList_ofList]
  cases s with
  | leftParen | rightParen | leftBrace | rightBrace | leftBracket | rightBracket | comma
  | semicolon => exact boundary_cons rfl (by decide)
  | _ => exact absurd hs (by decide)

/-- `!` and `=` would be scanned as one symbol. -/
theorem scans_bang (hrest : ∀ c ∈ rest.head?, c ≠ '=') :
    Scans bang.spelling.toList [symbol bang] rest := by
  refine .single ?_ rfl
  cases rest with
  | nil => rfl
  | cons c cs =>
    have hpair : pair? '!' c = none := by
      have hne : ('=' == c) = false := by simpa using (hrest c rfl).symm
      simp [pair?, Symbol.all, Symbol.chars, hne]
    show Piece.symbol '!' (c :: cs) = _
    rw [Piece.symbol, hpair]
    rfl

theorem scans_keywordBlank (k : Keyword) : Scans (k.spelling ++ " ").toList [keyword k] rest :=
  (scans_keyword k boundary_blank).string scans_blank

theorem scans_between (s : Symbol) : Scans (" " ++ s.spelling ++ " ").toList [symbol s] rest :=
  (scans_blank.string (scans_symbol s)).string scans_blank

theorem scans_comma : Scans ", ".toList [symbol comma] rest :=
  (scans_delimiter comma (by decide)).append scans_blank

/-- An indentation is blanks. -/
theorem scans_indent (level : Nat) : Scans (indent level).toList [] rest := by
  rw [indent, String.toList_ofList]
  induction 4 * level with
  | zero => exact .nil
  | succ n ih => exact .blank rfl ih

theorem boundary_semicolon : Boundary (";".toList ++ rest) :=
  boundary_delimiter semicolon (by decide)

theorem scans_semicolon : Scans ";".toList [symbol semicolon] rest :=
  scans_delimiter semicolon (by decide)

/-- The keyword of a conditional or a loop and the test behind it, which ends at the closing
parenthesis. -/
theorem scans_test (k : Keyword) {test : String} {ls : List Lexeme}
    (h : ∀ {rest : List Char}, Boundary rest → Scans test.toList ls rest) :
    Scans ((k.spelling ++ " (") ++ test ++ ") ").toList
      ([keyword k, symbol leftParen] ++ ls ++ [symbol rightParen]) rest := by
  have hparen {rest : List Char} : Scans " (".toList [symbol leftParen] rest :=
    scans_blank.append (scans_delimiter leftParen (by decide))
  have hclose : Scans ") ".toList [symbol rightParen] rest :=
    (scans_delimiter rightParen (by decide)).append scans_blank
  exact (((scans_keyword k boundary_blank).string hparen).string
    (h (boundary_cons rfl (by decide)))).string hclose

end Fixed

/-! ## Syntax as lexemes -/

/-- The symbol of an operation. -/
def Operation.symbol : Operation → Symbol
  | add => plus
  | sub => minus
  | mul => star
  | div => slash
  | mod => percent
  | lt => less
  | gt => greater
  | le => lessEqual
  | ge => greaterEqual
  | eq => equal
  | ne => notEqual
  | and => ampersands
  | or => bars
  | not => bang

/-- `Operation.symbol` is written as the operation is. -/
theorem Operation.spelling_symbol (op : Operation) : op.symbol.spelling = op.spelling := by
  cases op <;> decide

/-- Lexemes in parentheses if that is needed. -/
def wrapped (needed : Bool) (ls : List Lexeme) : List Lexeme :=
  if needed then [.symbol leftParen] ++ ls ++ [.symbol rightParen] else ls

/-- Lists of lexemes with commas between them. -/
def commaLexemes : List (List Lexeme) → List Lexeme
  | [] => []
  | [ls] => ls
  | ls :: ms :: rest => ls ++ [.symbol comma] ++ commaLexemes (ms :: rest)

/-- A list of parameters in parentheses. -/
def parameterLexemes (parameters : List String) : List Lexeme :=
  [.symbol leftParen] ++ commaLexemes (parameters.map fun x => [.ident x]) ++ [.symbol rightParen]

mutual
/-- The lexemes of an expression. -/
def Expr.lexemes : Expr → List Lexeme
  | .int n => [.integer (toString n.toInt)]
  | .float x => [.float (Shortest.text x)]
  | .string s => [.string ("\"" ++ s ++ "\"")]
  | .bool b => [.keyword (if b then trueWord else falseWord)]
  | .name x => [.ident x]
  | .binary op l r =>
    wrapped (l.needsParensIn op false) l.lexemes ++ [.symbol op.symbol]
      ++ wrapped (r.needsParensIn op true) r.lexemes
  | .unary op e => [.symbol op.symbol] ++ wrapped e.needsParens e.lexemes
  | .call f args =>
    wrapped f.needsParens f.lexemes ++ [.symbol leftParen] ++ commaLexemes (Expr.lexemeLists args)
      ++ [.symbol rightParen]
  | .array elements =>
    [.symbol leftBracket] ++ commaLexemes (Expr.lexemeLists elements) ++ [.symbol rightBracket]
  | .lambda parameters (.block statements) =>
    parameterLexemes parameters ++ [.symbol arrow]
      ++ ([.symbol leftBrace] ++ Stmt.lexemesOf statements ++ [.symbol rightBrace])
  | .lambda parameters (.value e) => parameterLexemes parameters ++ [.symbol arrow] ++ e.lexemes
def Expr.lexemeLists : List Expr → List (List Lexeme)
  | [] => []
  | e :: rest => e.lexemes :: Expr.lexemeLists rest
/-- The lexemes of a statement. -/
def Stmt.lexemes : Stmt → List Lexeme
  | .declare x none => [.keyword letWord] ++ [.ident x] ++ [.symbol semicolon]
  | .declare x (some e) =>
    [.keyword letWord] ++ [.ident x] ++ [.symbol assign] ++ e.lexemes ++ [.symbol semicolon]
  | .assign x e => [.ident x] ++ [.symbol assign] ++ e.lexemes ++ [.symbol semicolon]
  | .expr e => e.lexemes ++ [.symbol semicolon]
  | .ret none => [.keyword returnWord] ++ [.symbol semicolon]
  | .ret (some e) => [.keyword returnWord] ++ e.lexemes ++ [.symbol semicolon]
  | .cond test yes none =>
    [.keyword ifWord, .symbol leftParen] ++ test.lexemes ++ [.symbol rightParen] ++ yes.lexemes
  | .cond test yes (some no) =>
    [.keyword ifWord, .symbol leftParen] ++ test.lexemes ++ [.symbol rightParen] ++ yes.lexemes
      ++ [.keyword elseWord] ++ no.lexemes
  | .loop test body =>
    [.keyword whileWord, .symbol leftParen] ++ test.lexemes ++ [.symbol rightParen] ++ body.lexemes
  | .block statements =>
    [.symbol leftBrace] ++ Stmt.lexemesOf statements ++ [.symbol rightBrace]
  | .function f parameters (.block statements) =>
    [.keyword fnWord] ++ [.ident f] ++ parameterLexemes parameters
      ++ ([.symbol leftBrace] ++ Stmt.lexemesOf statements ++ [.symbol rightBrace])
  | .function f parameters (.value e) =>
    [.keyword fnWord] ++ [.ident f] ++ parameterLexemes parameters ++ [.symbol arrow] ++ e.lexemes
      ++ [.symbol semicolon]
def Stmt.lexemesOf : List Stmt → List Lexeme
  | [] => []
  | s :: rest => s.lexemes ++ Stmt.lexemesOf rest
end

/-! ## Scanning what is written -/

/-- The text of a float is digits, a point and digits. -/
def Positional (x : Float) : Prop := (Lexeme.float (Shortest.text x)).WellFormed

/-- The text of a float is digits, a point and digits, and is read as the float. -/
def ReadsBack (x : Float) : Prop :=
  (Lexeme.float (Shortest.text x)).WellFormed ∧ Decimal.read? (Shortest.text x) = some x

section Parts

variable {text : String} {ls : List Lexeme} {rest : List Char}

/-- Inside of parentheses the closing one is the `Boundary`. -/
theorem scans_parenthesized (needed : Bool)
    (h : ∀ {rest : List Char}, Boundary rest → Scans text.toList ls rest) (hrest : Boundary rest) :
    Scans (Expr.parenthesized needed text).toList (wrapped needed ls) rest := by
  cases needed with
  | false => exact h hrest
  | true =>
    have hclose : Boundary (")".toList ++ rest) := boundary_delimiter rightParen (by decide)
    exact ((scans_delimiter leftParen (by decide)).string (h hclose)).string
      (scans_delimiter rightParen (by decide))

/-- By induction on the list. Each part ends at the comma behind it, and the last one at the
`Boundary`. -/
theorem scans_commaSeparated {α : Type} (text : α → String) (ls : α → List Lexeme) :
    (as : List α) →
    (∀ a ∈ as, ∀ {rest : List Char}, Boundary rest → Scans (text a).toList (ls a) rest) →
    Boundary rest → Scans (commaSeparated (as.map text)).toList (commaLexemes (as.map ls)) rest
  | [], _, _ => .nil
  | [a], h, hrest => by
    show Scans (", ".intercalate [text a]).toList (ls a) rest
    rw [String.intercalate_singleton]
    exact h a List.mem_cons_self hrest
  | a :: b :: as, h, hrest => by
    -- the comma ends what stands before it
    have hcomma : Boundary (", ".toList ++ ((", ".intercalate (text b :: as.map text)).toList
        ++ rest)) := boundary_cons rfl (by decide)
    show Scans (", ".intercalate (text a :: text b :: as.map text)).toList _ rest
    rw [String.intercalate_cons_cons]
    exact ((h a List.mem_cons_self hcomma).string scans_comma).string
      (scans_commaSeparated text ls (b :: as) (fun c hc => h c (List.mem_cons_of_mem a hc)) hrest)

/-- `scans_commaSeparated` for names, in parentheses. -/
theorem scans_parameters {parameters : List String} (h : ∀ x ∈ parameters, IsName x) :
    Scans ("(" ++ commaSeparated parameters ++ ")").toList (parameterLexemes parameters) rest := by
  have hclose : Boundary (")".toList ++ rest) := boundary_delimiter rightParen (by decide)
  have hnames := scans_commaSeparated id (fun x => [.ident x]) parameters
    (fun x hx => scans_name (h x hx)) hclose
  rw [List.map_id] at hnames
  exact ((scans_delimiter leftParen (by decide)).string hnames).string
    (scans_delimiter rightParen (by decide))

theorem scans_lambdaHead {parameters : List String} (h : ∀ x ∈ parameters, IsName x) :
    Scans (lambdaHead parameters).toList (parameterLexemes parameters ++ [.symbol arrow]) rest := by
  have hscan := (scans_parameters h).string (@scans_between rest arrow)
  rw [String.append_assoc] at hscan
  exact hscan

/-- `functionHead` is put together from the left, and here the parameters are one part. -/
theorem scans_functionHead {f : String} {parameters : List String} (hf : IsName f)
    (h : ∀ x ∈ parameters, IsName x) : Scans (functionHead f parameters).toList
      ([.keyword fnWord] ++ [.ident f] ++ parameterLexemes parameters) rest := by
  have htext : functionHead f parameters =
      "fn " ++ f ++ ("(" ++ commaSeparated parameters ++ ")" ++ " ") := by
    simp only [functionHead, String.append_assoc]
    rfl
  -- the name ends where the parenthesis opens
  have hopen : Boundary (("(" ++ commaSeparated parameters ++ ")" ++ " ").toList ++ rest) := by
    simp only [String.toList_append]
    exact boundary_cons rfl (by decide)
  have hscan := ((scans_keywordBlank fnWord).string (scans_name hf hopen)).string
    ((scans_parameters h).string scans_blank)
  rw [List.append_nil] at hscan
  rw [htext]
  exact hscan

/-- Line ends and `indent` are blanks, so the braces and what is inside are all that is scanned. -/
theorem scans_braced (level : Nat) (h : ∀ {rest : List Char}, Scans text.toList ls rest) :
    Scans (braced level text).toList ([.symbol leftBrace] ++ ls ++ [.symbol rightBrace]) rest := by
  have hclose : Scans (rightBrace.spelling).toList [.symbol rightBrace] rest :=
    scans_delimiter rightBrace (by decide)
  unfold braced
  split
  next hempty =>
    -- an empty text is scanned as no lexemes
    subst hempty
    cases @h rest
    exact (scans_delimiter leftBrace (by decide)).append hclose
  next =>
    have hopen {rest : List Char} : Scans "\x7b\n".toList [.symbol leftBrace] rest :=
      (scans_delimiter leftBrace (by decide)).append scans_newline
    have hlines := ((hopen.string h).string (scans_indent level)).string hclose
    rw [List.append_nil] at hlines
    exact hlines

end Parts

/-- The text does not start with an equals sign, which would make another symbol of a `!` before
it. -/
def StartsPlain (text : String) : Prop := ∃ c cs, text.toList = c :: cs ∧ c ≠ '='

/-- `StartsPlain` asks for the first character only. -/
theorem StartsPlain.append {a : String} (h : StartsPlain a) (b : String) :
    StartsPlain (a ++ b) := by
  obtain ⟨c, cs, htext, hc⟩ := h
  exact ⟨c, cs ++ b.toList, by rw [String.toList_append, htext]; rfl, hc⟩

/-- No digit is an equals sign, so digits are `StartsPlain`. -/
theorem startsPlain_of_isDigits {text : String} {cs ds : List Char} (htext : text.toList = cs ++ ds)
    (hcs : IsDigits cs) : StartsPlain text := by
  cases cs with
  | nil => exact absurd rfl hcs.1
  | cons c cs =>
    refine ⟨c, cs ++ ds, htext, ?_⟩
    rintro rfl
    exact absurd (hcs.2 '=' List.mem_cons_self) (by decide)

theorem startsPlain_parenthesized {text : String} (needed : Bool) (h : StartsPlain text) :
    StartsPlain (Expr.parenthesized needed text) := by
  cases needed with
  | false => exact h
  | true => exact (StartsPlain.append ⟨'(', [], rfl, by decide⟩ _).append _

theorem startsPlain_lambdaHead (parameters : List String) : StartsPlain (lambdaHead parameters) :=
  (StartsPlain.append ⟨'(', [], rfl, by decide⟩ _).append _

/-- By induction along what an expression starts with: an operand, a callee, or a character of its
own. -/
theorem Expr.startsPlain_text (level : Nat) : (e : Expr) → e.Writable Positional →
    StartsPlain (e.text level)
  | .int n, h =>
    startsPlain_of_isDigits (List.append_nil _).symm (Integer.isDigits_toString h)
  | .float x, h => by
    obtain ⟨whole, fraction, htext, hwhole, _⟩ := h
    exact startsPlain_of_isDigits htext hwhole
  | .string s, _ => (StartsPlain.append ⟨'"', [], rfl, by decide⟩ _).append _
  | .bool b, _ => by
    cases b with
    | false => exact show StartsPlain "false" from ⟨'f', ['a', 'l', 's', 'e'], rfl, by decide⟩
    | true => exact show StartsPlain "true" from ⟨'t', ['r', 'u', 'e'], rfl, by decide⟩
  | .name x, h => by
    obtain ⟨c, cs, htext, hc, _⟩ := IsName.head h
    refine ⟨c, cs, htext, ?_⟩
    rintro rfl
    exact absurd hc (by decide)
  | .binary op l r, h =>
    (((startsPlain_parenthesized _ (startsPlain_text level l h.2.1)).append _).append _).append _
      |>.append _
  | .unary op e, h => by
    obtain ⟨rfl, _⟩ := h
    exact StartsPlain.append ⟨'!', [], rfl, by decide⟩ _
  | .call f args, h =>
    ((startsPlain_parenthesized _ (startsPlain_text level f h.1)).append _).append _ |>.append _
  | .array elements, _ => (StartsPlain.append ⟨'[', [], rfl, by decide⟩ _).append _
  | .lambda parameters (.block statements), _ => (startsPlain_lambdaHead parameters).append _
  | .lambda parameters (.value e), _ => (startsPlain_lambdaHead parameters).append _

/-- `Expr.texts` is there because `Expr.text` recurses through lists. -/
theorem Expr.texts_eq_map (level : Nat) : (es : List Expr) →
    Expr.texts level es = es.map (text level)
  | [] => rfl
  | e :: es => congrArg (e.text level :: ·) (texts_eq_map level es)

theorem Expr.lexemeLists_eq_map : (es : List Expr) → Expr.lexemeLists es = es.map lexemes
  | [] => rfl
  | e :: es => congrArg (e.lexemes :: ·) (lexemeLists_eq_map es)

mutual
/-- By induction on the syntax, before any text that is a `Boundary`. -/
theorem Expr.scans_text (level : Nat) : (e : Expr) → e.Writable Positional →
    ∀ {rest : List Char}, Boundary rest → Scans (e.text level).toList e.lexemes rest
  | .int n, h, rest, hrest =>
    scans_integer (Integer.isDigits_toString h) (Integer.read?_toString h) hrest
  | .float x, h, rest, hrest => scans_float h hrest
  | .string s, h, rest, _ => scans_string h
  | .bool b, _, rest, hrest => by
    cases b with
    | false => exact scans_keyword falseWord hrest
    | true => exact scans_keyword trueWord hrest
  | .name x, h, rest, hrest => scans_name h hrest
  | .binary op l r, h, rest, hrest => by
    have hl {rest : List Char} := scans_parenthesized (l.needsParensIn op false)
      (Expr.scans_text level l h.2.1) (@boundary_blank rest)
    have hr := scans_parenthesized (r.needsParensIn op true) (Expr.scans_text level r h.2.2) hrest
    have hop {rest : List Char} : Scans op.spelling.toList [.symbol op.symbol] (' ' :: rest) :=
      op.spelling_symbol ▸ scans_symbol op.symbol
    have hscan := (((hl.string scans_blank).string hop).string scans_blank).string hr
    rw [List.append_nil, List.append_nil] at hscan
    exact hscan
  | .unary op e, h, rest, hrest => by
    obtain ⟨rfl, he⟩ := h
    have hscan := scans_parenthesized e.needsParens (Expr.scans_text level e he) hrest
    -- the sign is scanned alone, because what it stands before does not start with `=`
    refine (scans_bang fun c hc => ?_).string hscan
    obtain ⟨d, ds, htext, hd⟩ :=
      startsPlain_parenthesized e.needsParens (Expr.startsPlain_text level e he)
    rw [htext] at hc
    cases hc
    exact hd
  | .call f args, h, rest, hrest => by
    have hf {rest : List Char} := scans_parenthesized f.needsParens
      (Expr.scans_text level f h.1) (@boundary_delimiter rest leftParen (by decide))
    have hargs := scans_commaSeparated (Expr.text level) Expr.lexemes args
      (Expr.scans_each level args h.2) (@boundary_delimiter rest rightParen (by decide))
    rw [← Expr.texts_eq_map, ← Expr.lexemeLists_eq_map] at hargs
    exact ((hf.string (scans_delimiter leftParen (by decide))).string hargs).string
      (scans_delimiter rightParen (by decide))
  | .array elements, h, rest, hrest => by
    have helements := scans_commaSeparated (Expr.text level) Expr.lexemes elements
      (Expr.scans_each level elements h) (@boundary_delimiter rest rightBracket (by decide))
    rw [← Expr.texts_eq_map, ← Expr.lexemeLists_eq_map] at helements
    exact ((scans_delimiter leftBracket (by decide)).string helements).string
      (scans_delimiter rightBracket (by decide))
  | .lambda parameters (.block statements), h, rest, _ =>
    (scans_lambdaHead h.1).string (scans_braced level (Stmt.scans_lines (level + 1) statements h.2))
  | .lambda parameters (.value e), h, rest, hrest =>
    (scans_lambdaHead h.1).string (Expr.scans_text level e h.2 hrest)
theorem Expr.scans_each (level : Nat) : (es : List Expr) → Expr.AllWritable Positional es →
    ∀ e ∈ es, ∀ {rest : List Char}, Boundary rest → Scans (e.text level).toList e.lexemes rest
  | e :: es, h, e', he', rest, hrest => by
    rcases List.mem_cons.mp he' with heq | hmem
    · rw [heq]
      exact Expr.scans_text level e h.1 hrest
    · exact Expr.scans_each level es h.2 e' hmem hrest
/-- A statement ends with a semicolon or a brace, so no `Boundary` is asked for. -/
theorem Stmt.scans_text (level : Nat) : (s : Stmt) → s.Writable Positional →
    ∀ {rest : List Char}, Scans (s.text level).toList s.lexemes rest
  | .declare x none, h, rest =>
    ((scans_keywordBlank letWord).string (scans_name h boundary_semicolon)).string scans_semicolon
  | .declare x (some e), h, rest =>
    ((((scans_keywordBlank letWord).string (scans_name h.1 boundary_blank)).string
      (scans_between assign)).string (Expr.scans_text level e h.2 boundary_semicolon)).string
      scans_semicolon
  | .assign x e, h, rest =>
    (((scans_name h.1 boundary_blank).string (scans_between assign)).string
      (Expr.scans_text level e h.2 boundary_semicolon)).string scans_semicolon
  | .expr e, h, rest => (Expr.scans_text level e h boundary_semicolon).string scans_semicolon
  | .ret none, _, rest =>
    show Scans "return;".toList _ rest from
      (scans_keyword returnWord boundary_semicolon).append scans_semicolon
  | .ret (some e), h, rest =>
    ((scans_keywordBlank returnWord).string
      (Expr.scans_text level e h boundary_semicolon)).string scans_semicolon
  | .cond test yes none, h, rest =>
    (scans_test ifWord (Expr.scans_text level test h.1)).string (Stmt.scans_text level yes h.2)
  | .cond test yes (some no), h, rest => by
    obtain ⟨htest, hyes, _, hno⟩ := h
    have helse {rest : List Char} : Scans " else ".toList [.keyword elseWord] rest :=
      scans_blank.append (scans_keywordBlank elseWord)
    exact (((scans_test ifWord (Expr.scans_text level test htest)).string
      (Stmt.scans_text level yes hyes)).string helse).string (Stmt.scans_text level no hno)
  | .loop test body, h, rest =>
    (scans_test whileWord (Expr.scans_text level test h.1)).string (Stmt.scans_text level body h.2)
  | .block statements, h, rest => scans_braced level (Stmt.scans_lines (level + 1) statements h)
  | .function f parameters (.block statements), h, rest =>
    (scans_functionHead h.1 h.2.1).string
      (scans_braced level (Stmt.scans_lines (level + 1) statements h.2.2))
theorem Stmt.scans_lines (level : Nat) : (ss : List Stmt) → Stmt.AllWritable Positional ss →
    ∀ {rest : List Char}, Scans (Stmt.lines level ss).toList (Stmt.lexemesOf ss) rest
  | [], _, rest => .nil
  | s :: ss, h, rest => by
    have hscan := (((scans_indent level).string (Stmt.scans_text level s h.1)).string
      scans_newline).string (@Stmt.scans_lines level ss h.2 rest)
    rw [List.append_nil, List.nil_append] at hscan
    exact hscan
end

/-! ## Whole sources -/

/-- By induction on the parts. A lexeme takes at least one character (`Piece.length_next_le`). -/
theorem Scans.length_le {cs rest : List Char} {ls : List Lexeme} (h : Scans cs ls rest) :
    ls.length ≤ cs.length := by
  induction h with
  | nil => exact Nat.le_refl 0
  | blank _ _ ih => exact Nat.le_succ_of_le ih
  | @lexeme c cs ds rest l ls hnext _ _ ih =>
    have hle := Piece.length_next_le c (cs ++ rest)
    rw [hnext] at hle
    simp only [List.length_append] at hle
    simp only [List.length_cons]
    omega

/-- Only a `Piece.lexeme` becomes a token. -/
theorem Piece.map_lexeme_locate (start : Nat) (ps : List Piece) :
    ((locate start ps).filterMap token?).map Token.lexeme = ps.filterMap lexeme? := by
  induction ps generalizing start with
  | nil => rfl
  | cons p ps ih =>
    rw [locate]
    cases p with
    | lexeme l => exact congrArg (l :: ·) (ih _)
    | blank _ | comment _ | unclosed _ | stray _ => exact ih _

/-- Pieces without errors give no diagnostics, wherever they are. -/
theorem Piece.errors_locate (start : Nat) {ps : List Piece} (h : ∀ p ∈ ps, p.error? = none) :
    (locate start ps).filterMap
      (fun (p, start) => p.error?.map (·.diagnostic (p.span start))) = [] := by
  induction ps generalizing start with
  | nil => rfl
  | cons p ps ih =>
    have hp := h p List.mem_cons_self
    rw [locate, List.filterMap_cons_none (by simp [hp])]
    exact ih _ fun q hq => h q (List.mem_cons_of_mem p hq)

/-- With nothing behind it, a text that is scanned part by part is the source of a `scan`. -/
theorem Scans.scan {source : String} {ls : List Lexeme} (h : Scans source.toList ls []) :
    (scan source).errors = [] ∧ (scan source).tokens.map Token.lexeme = ls ++ [.eof] := by
  obtain ⟨ps, hsplit, hls, herrors⟩ := h.split
  rw [List.append_nil, Piece.split_nil, List.append_nil] at hsplit
  rw [errors_scan, tokens_scan, hsplit]
  refine ⟨Piece.errors_locate 0 herrors, ?_⟩
  rw [List.map_append, Piece.map_lexeme_locate, hls]
  rfl

/-- The function that a written program reads as. -/
def Program.asFunction (p : Program) : Stmt := .function entryPoint [] (.block p.statements)

theorem isName_entryPoint : IsName Program.entryPoint :=
  ⟨⟨'m', ['a', 'i', 'n'], by decide, by decide, List.all_eq_true.mp rfl⟩, by decide⟩

/-- `Piece.length_le_bytes` for a string. -/
theorem length_le_utf8ByteSize (s : String) : s.toList.length ≤ s.utf8ByteSize := by
  rw [← String.ofList_toList (s := s), Piece.utf8ByteSize_ofList, String.toList_ofList]
  exact Piece.length_le_bytes s.toList

/-- A written program is scanned as the lexemes of `asFunction`, without errors. It has no more
tokens than bytes. -/
theorem Program.scan_text_of_positional {p : Program}
    (h : Stmt.AllWritable Positional p.statements) :
    (scan p.text).errors = [] ∧
      (scan p.text).tokens.map Token.lexeme = p.asFunction.lexemes ++ [.eof] ∧
      (scan p.text).tokens.length ≤ p.text.utf8ByteSize := by
  let body := "fn " ++ entryPoint ++ "() \x7b\n" ++ Stmt.lines 1 p.statements ++ "\x7d"
  have htext : p.text = body ++ "\n" := by
    rw [String.append_assoc]
    rfl
  have hopen {rest : List Char} : Scans "() \x7b\n".toList
      [.symbol leftParen, .symbol rightParen, .symbol leftBrace] rest :=
    (((scans_delimiter leftParen (by decide)).append
      (scans_delimiter rightParen (by decide))).append scans_blank).append
      ((scans_delimiter leftBrace (by decide)).append scans_newline)
  have hbody {rest : List Char} : Scans body.toList p.asFunction.lexemes rest :=
    ((((scans_keywordBlank fnWord).string
      (scans_name isName_entryPoint (boundary_cons rfl (by decide)))).string hopen).string
      (Stmt.scans_lines 1 p.statements h)).string (scans_delimiter rightBrace (by decide))
  have hscans : Scans p.text.toList p.asFunction.lexemes [] := by
    have hscan := hbody.string (@scans_newline [])
    rw [List.append_nil] at hscan
    rw [htext]
    exact hscan
  obtain ⟨herrors, hlexemes⟩ := hscans.scan
  refine ⟨herrors, hlexemes, ?_⟩
  have hcount : (scan p.text).tokens.length = p.asFunction.lexemes.length + 1 := by
    rw [← List.length_map Token.lexeme, hlexemes, List.length_append]
    rfl
  -- the last line end is no lexeme, and so makes up for the token of the end
  have hlexemes : p.asFunction.lexemes.length ≤ body.toList.length := (@hbody []).length_le
  have hbytes := length_le_utf8ByteSize p.text
  rw [htext, String.toList_append, List.length_append] at hbytes
  rw [hcount, htext]
  exact Nat.le_trans (Nat.succ_le_succ hlexemes) hbytes

/-- A float that is `ReadsBack` is `Positional`, so this is `scan_text_of_positional`. -/
theorem Program.scan_text {p : Program} (h : Stmt.AllWritable ReadsBack p.statements) :
    (scan p.text).errors = [] ∧
      (scan p.text).tokens.map Token.lexeme = p.asFunction.lexemes ++ [.eof] ∧
      (scan p.text).tokens.length ≤ p.text.utf8ByteSize :=
  Program.scan_text_of_positional (h.mono fun _ hx => hx.1)

end SimpleLang
