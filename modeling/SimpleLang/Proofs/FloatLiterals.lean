import SimpleLang.Proofs.Lowering.Total
import SimpleLang.Proofs.Number.Overflow
import SimpleLang.Proofs.Rendering

/-!
# Float literals

A float literal of a source is written into the text of the compiled program with digits on both
sides of a point, and is scanned there as one float, if it is less than `FloatRange.overflow`. From
there on its value is infinity, which is written `inf` and scanned as a name.

* `positional_or_inf`: the two texts of a literal.
* `Stmt.named` puts the name in the place of the infinite literals. The text stays the same
  (`Stmt.text_named`) and the result is writable, so `Program.scan_text_named` says what the text
  is scanned as.
* `compile_literal`: the program of a source that is one literal.
* `float_literals_written`: which literals of a compiled program stay literals.
-/

namespace SimpleLang

/-! ## The text of a float -/

theorem isDigit_of_mem_zeros {n : Nat} : ∀ c ∈ List.replicate n '0', c.isDigit := by
  intro c hc
  rw [List.eq_of_mem_replicate hc]
  rfl

/-- Numbers are written with digits on both sides of a point. -/
theorem wellFormed_positional (d : Nat) (k : Int) :
    (Lexeme.float (Shortest.positional d k)).WellFormed := by
  have hdigits := isDigits_toDigits d
  unfold Shortest.positional
  dsimp only
  split
  -- a whole number, with zeros up to the point and one behind it
  next =>
    refine ⟨Nat.toDigits 10 d ++ List.replicate k.toNat '0', ['0'], String.toList_ofList, ?_, ?_⟩
    · exact ⟨List.append_ne_nil_of_left_ne_nil hdigits.1 _,
        List.forall_mem_append.mpr ⟨hdigits.2, isDigit_of_mem_zeros⟩⟩
    · exact ⟨by decide, List.forall_mem_singleton.mpr rfl⟩
  next hplaces =>
    -- the zeros make the digits longer than the places behind the point
    generalize hpadded : List.replicate ((-k).toNat + 1 - (Nat.toDigits 10 d).length) '0'
      ++ Nat.toDigits 10 d = padded
    have hlength : (-k).toNat < padded.length := by
      rw [← hpadded, List.length_append, List.length_replicate]
      omega
    have hall : ∀ c ∈ padded, c.isDigit := by
      rw [← hpadded]
      exact List.forall_mem_append.mpr ⟨isDigit_of_mem_zeros, hdigits.2⟩
    refine ⟨padded.take (padded.length - (-k).toNat), padded.drop (padded.length - (-k).toNat),
      String.toList_ofList, ?_, ?_⟩
    · refine ⟨fun hnil => ?_, fun c hc => hall c (List.mem_of_mem_take hc)⟩
      have htake := congrArg List.length hnil
      rw [List.length_take, List.length_nil] at htake
      omega
    · refine ⟨fun hnil => ?_, fun c hc => hall c (List.mem_of_mem_drop hc)⟩
      have hdrop := congrArg List.length hnil
      rw [List.length_drop, List.length_nil] at hdrop
      omega

/-- A float that is neither negative, infinite nor a NaN is written by `Shortest.positional`, and
zero as `0.0`. -/
theorem positional_of_plain {x : Float} {top : Int}
    (h : FloatRange.Plain top x.toModel.unpack) : Positional x := by
  unfold Positional Shortest.text
  cases hx : x.toModel.unpack with
  | zero s =>
    rw [hx] at h
    obtain rfl : s = .positive := h
    exact ⟨['0'], ['0'], rfl, ⟨by decide, List.forall_mem_singleton.mpr rfl⟩,
      ⟨by decide, List.forall_mem_singleton.mpr rfl⟩⟩
  | finite s m e hm =>
    rw [hx] at h
    obtain rfl : s = .positive := h.1
    show (Lexeme.float ("" ++ Shortest.positional _ _)).WellFormed
    rw [String.empty_append]
    exact wellFormed_positional _ _
  -- `Plain` leaves these two out
  | infinity s =>
    rw [hx] at h
    exact h.elim
  | notANumber =>
    rw [hx] at h
    exact h.elim

def infinityName : String := "inf"

/-- Infinity is not written with digits. -/
theorem text_of_infinity {x : Float} (h : x.toModel.unpack = .infinity .positive) :
    Shortest.text x = infinityName := by
  rw [Shortest.text, h]
  rfl

/-- The number that a literal writes before its point. -/
def wholePart (text : String) : Nat := Integer.ofDigits (text.toList.takeWhile Char.isDigit)

/-- Digits go up to the point. -/
theorem wholePart_point {text : String} {whole fraction : List Char}
    (htext : text.toList = whole ++ '.' :: fraction) (hwhole : IsDigits whole) :
    wholePart text = Integer.ofDigits whole := by
  rw [wholePart, htext, takeWhile_point hwhole]

/-- A literal that is not too large is written with a point again, and any other as `inf`. -/
theorem positional_or_inf {text : String} {x : Float} (h : (Lexeme.float text).WellFormed)
    (hx : Decimal.read? text = some x) :
    wholePart text < FloatRange.overflow ∧ Positional x ∨
      FloatRange.overflow ≤ wholePart text ∧ Shortest.text x = infinityName := by
  obtain ⟨whole, fraction, htext, hwhole, hfraction⟩ := h
  obtain ⟨hplain, hinfinite⟩ := FloatRange.unpack_read? htext hwhole hfraction hx
  rw [wholePart_point htext hwhole]
  rcases Nat.lt_or_ge (Integer.ofDigits whole) FloatRange.overflow with hlt | hge
  · exact .inl ⟨hlt, positional_of_plain (hplain hlt)⟩
  · exact .inr ⟨hge, text_of_infinity (hinfinite hge)⟩

/-! ## Infinite literals as names -/

/-- `inf` is no keyword, so it is scanned as a name. -/
theorem isName_infinityName : IsName infinityName :=
  ⟨⟨'i', ['n', 'f'], by decide, by decide, List.all_eq_true.mp rfl⟩, by decide⟩

mutual
/-- The expression with a name in the place of every infinite literal. -/
def Expr.named : Expr → Expr
  | .int n => .int n
  | .float x => if Shortest.text x = infinityName then .name infinityName else .float x
  | .string s => .string s
  | .bool b => .bool b
  | .name x => .name x
  | .binary op l r => .binary op l.named r.named
  | .unary op e => .unary op e.named
  | .call f args => .call f.named (Expr.namedAll args)
  | .array elements => .array (Expr.namedAll elements)
  | .lambda parameters (.block statements) =>
    .lambda parameters (.block (Stmt.namedAll statements))
  | .lambda parameters (.value e) => .lambda parameters (.value e.named)
def Expr.namedAll : List Expr → List Expr
  | [] => []
  | e :: rest => e.named :: Expr.namedAll rest
def Stmt.named : Stmt → Stmt
  | .declare x none => .declare x none
  | .declare x (some e) => .declare x (some e.named)
  | .assign x e => .assign x e.named
  | .expr e => .expr e.named
  | .ret none => .ret none
  | .ret (some e) => .ret (some e.named)
  | .cond test yes none => .cond test.named yes.named none
  | .cond test yes (some no) => .cond test.named yes.named (some no.named)
  | .loop test body => .loop test.named body.named
  | .block statements => .block (Stmt.namedAll statements)
  | .function f parameters (.block statements) =>
    .function f parameters (.block (Stmt.namedAll statements))
  | .function f parameters (.value e) => .function f parameters (.value e.named)
def Stmt.namedAll : List Stmt → List Stmt
  | [] => []
  | s :: rest => s.named :: Stmt.namedAll rest
end

/-- Literals and names take parentheses in the same places, as an operand and on either side of an
operator. -/
theorem Expr.needsParens_named (e : Expr) :
    e.named.needsParens = e.needsParens ∧
      ∀ op onRight, e.named.needsParensIn op onRight = e.needsParensIn op onRight := by
  cases e with
  | float x =>
    rw [Expr.named]
    split <;> exact ⟨rfl, fun _ _ => rfl⟩
  | lambda parameters body => cases body <;> exact ⟨rfl, fun _ _ => rfl⟩
  | _ => exact ⟨rfl, fun _ _ => rfl⟩

mutual
/-- An infinite literal is written like the name. All else is written with the same parts, so this
is an induction on the expression. -/
theorem Expr.text_named (level : Nat) : (e : Expr) → e.named.text level = e.text level
  | .int _ | .string _ | .bool _ | .name _ => rfl
  | .float x => by
    rw [Expr.named]
    split
    -- the name is written as the infinity was
    next h => exact h.symm
    next => rfl
  | .binary op l r => by
    simp only [Expr.named, Expr.text, l.text_named level, r.text_named level,
      l.needsParens_named.2, r.needsParens_named.2]
  | .unary op e => by
    simp only [Expr.named, Expr.text, e.text_named level, e.needsParens_named.1]
  | .call f args => by
    simp only [Expr.named, Expr.text, f.text_named level, f.needsParens_named.1,
      Expr.texts_named level args]
  | .array elements => by simp only [Expr.named, Expr.text, Expr.texts_named level elements]
  | .lambda _ (.block statements) => by
    simp only [Expr.named, Expr.text, Stmt.lines_named (level + 1) statements]
  | .lambda _ (.value e) => by simp only [Expr.named, Expr.text, e.text_named level]
theorem Expr.texts_named (level : Nat) : (es : List Expr) →
    Expr.texts level (Expr.namedAll es) = Expr.texts level es
  | [] => rfl
  | e :: rest => by
    simp only [Expr.namedAll, Expr.texts, e.text_named level, Expr.texts_named level rest]
theorem Stmt.text_named (level : Nat) : (s : Stmt) → s.named.text level = s.text level
  | .declare _ none | .ret none => rfl
  | .declare _ (some e) | .assign _ e | .expr e | .ret (some e) => by
    simp only [Stmt.named, Stmt.text, e.text_named level]
  | .cond test yes none => by
    simp only [Stmt.named, Stmt.text, test.text_named level, yes.text_named level]
  | .cond test yes (some no) => by
    simp only [Stmt.named, Stmt.text, test.text_named level, yes.text_named level,
      no.text_named level]
  | .loop test body => by
    simp only [Stmt.named, Stmt.text, test.text_named level, body.text_named level]
  | .block statements => by
    simp only [Stmt.named, Stmt.text, Stmt.lines_named (level + 1) statements]
  | .function _ _ (.block statements) => by
    simp only [Stmt.named, Stmt.text, Stmt.lines_named (level + 1) statements]
  | .function _ _ (.value e) => by simp only [Stmt.named, Stmt.text, e.text_named level]
theorem Stmt.lines_named (level : Nat) : (ss : List Stmt) →
    Stmt.lines level (Stmt.namedAll ss) = Stmt.lines level ss
  | [] => rfl
  | s :: rest => by
    simp only [Stmt.namedAll, Stmt.lines, s.text_named level, Stmt.lines_named level rest]
end

/-- Whether a statement is dangling does not depend on its expressions. -/
theorem Stmt.dangling_named : (s : Stmt) → s.named.dangling = s.dangling
  | .cond _ _ none => rfl
  | .cond _ _ (some no) => no.dangling_named
  | .loop _ body => body.dangling_named
  | .declare _ none | .declare _ (some _) | .assign _ _ | .expr _ | .ret none | .ret (some _)
  | .block _ | .function _ _ (.block _) | .function _ _ (.value _) => rfl

/-- The float has one of the two texts of a literal. -/
def PositionalOrInf (x : Float) : Prop := Positional x ∨ Shortest.text x = infinityName

mutual
/-- With the infinite literals gone, each float is written with digits. -/
theorem Expr.writable_named : (e : Expr) → e.Writable PositionalOrInf → e.named.Writable Positional
  | .int _, h | .string _, h | .bool _, h | .name _, h => h
  | .float x, h => by
    rw [Expr.named]
    split
    next => exact isName_infinityName
    next hfinite => exact h.resolve_right hfinite
  | .binary _ l r, ⟨hop, hl, hr⟩ => ⟨hop, l.writable_named hl, r.writable_named hr⟩
  | .unary _ e, ⟨hop, he⟩ => ⟨hop, e.writable_named he⟩
  | .call f args, ⟨hf, hargs⟩ => ⟨f.writable_named hf, Expr.allWritable_named args hargs⟩
  | .array elements, h => Expr.allWritable_named elements h
  | .lambda _ (.block statements), ⟨hnames, hbody⟩ =>
    ⟨hnames, Stmt.allWritable_named statements hbody⟩
  | .lambda _ (.value e), ⟨hnames, he⟩ => ⟨hnames, e.writable_named he⟩
theorem Expr.allWritable_named : (es : List Expr) → Expr.AllWritable PositionalOrInf es →
    Expr.AllWritable Positional (Expr.namedAll es)
  | [], _ => trivial
  | e :: rest, ⟨he, hrest⟩ => ⟨e.writable_named he, Expr.allWritable_named rest hrest⟩
theorem Stmt.writable_named : (s : Stmt) → s.Writable PositionalOrInf → s.named.Writable Positional
  | .declare _ none, h => h
  | .declare _ (some e), ⟨hname, he⟩ | .assign _ e, ⟨hname, he⟩ => ⟨hname, e.writable_named he⟩
  | .expr e, h | .ret (some e), h => e.writable_named h
  | .ret none, _ => trivial
  | .cond test yes none, ⟨htest, hyes⟩ => ⟨test.writable_named htest, yes.writable_named hyes⟩
  | .cond test yes (some no), ⟨htest, hyes, hdangling, hno⟩ =>
    ⟨test.writable_named htest, yes.writable_named hyes, yes.dangling_named.trans hdangling,
      no.writable_named hno⟩
  | .loop test body, ⟨htest, hbody⟩ => ⟨test.writable_named htest, body.writable_named hbody⟩
  | .block statements, h => Stmt.allWritable_named statements h
  | .function _ _ (.block statements), ⟨hname, hnames, hbody⟩ =>
    ⟨hname, hnames, Stmt.allWritable_named statements hbody⟩
theorem Stmt.allWritable_named : (ss : List Stmt) → Stmt.AllWritable PositionalOrInf ss →
    Stmt.AllWritable Positional (Stmt.namedAll ss)
  | [], _ => trivial
  | s :: rest, ⟨hs, hrest⟩ => ⟨s.writable_named hs, Stmt.allWritable_named rest hrest⟩
end

/-! ## The floats of a text -/

def Lexeme.floatText : Lexeme → List String
  | .float text => [text]
  | _ => []

/-- Parentheses are no floats. -/
theorem floatText_wrapped (needed : Bool) (ls : List Lexeme) :
    (wrapped needed ls).flatMap Lexeme.floatText = ls.flatMap Lexeme.floatText := by
  cases needed <;> simp [wrapped, Lexeme.floatText]

/-- Commas are no floats. -/
theorem floatText_commaLexemes : (lists : List (List Lexeme)) →
    (commaLexemes lists).flatMap Lexeme.floatText = lists.flatMap (·.flatMap Lexeme.floatText)
  | [] => rfl
  | [ls] => by simp [commaLexemes]
  | ls :: ms :: rest => by
    simp [commaLexemes, floatText_commaLexemes (ms :: rest), Lexeme.floatText]

theorem floatText_parameterLexemes (parameters : List String) :
    (parameterLexemes parameters).flatMap Lexeme.floatText = [] := by
  simp [parameterLexemes, floatText_commaLexemes, Lexeme.floatText]

mutual
/-- The floats among the lexemes of an expression are its literals, in their order. -/
theorem Expr.floatText_lexemes : (e : Expr) →
    e.lexemes.flatMap Lexeme.floatText = e.floats.map Shortest.text
  | .int _ | .string _ | .bool _ | .name _ | .float _ => rfl
  | .binary op l r => by
    simp [Expr.lexemes, Expr.floats, floatText_wrapped, l.floatText_lexemes, r.floatText_lexemes,
      Lexeme.floatText]
  | .unary op e => by
    simp [Expr.lexemes, Expr.floats, floatText_wrapped, e.floatText_lexemes, Lexeme.floatText]
  | .call f args => by
    simp [Expr.lexemes, Expr.floats, floatText_wrapped, floatText_commaLexemes, f.floatText_lexemes,
      Expr.floatText_lexemeLists args, Lexeme.floatText]
  | .array elements => by
    simp [Expr.lexemes, Expr.floats, floatText_commaLexemes, Expr.floatText_lexemeLists elements,
      Lexeme.floatText]
  | .lambda _ (.block statements) => by
    simp [Expr.lexemes, Expr.floats, Body.floats, floatText_parameterLexemes,
      Stmt.floatText_lexemesOf statements, Lexeme.floatText]
  | .lambda _ (.value e) => by
    simp [Expr.lexemes, Expr.floats, Body.floats, floatText_parameterLexemes, e.floatText_lexemes,
      Lexeme.floatText]
theorem Expr.floatText_lexemeLists : (es : List Expr) →
    (Expr.lexemeLists es).flatMap (·.flatMap Lexeme.floatText)
      = (Expr.floatsOf es).map Shortest.text
  | [] => rfl
  | e :: rest => by
    simp [Expr.lexemeLists, Expr.floatsOf, e.floatText_lexemes, Expr.floatText_lexemeLists rest]
theorem Stmt.floatText_lexemes : (s : Stmt) →
    s.lexemes.flatMap Lexeme.floatText = s.floats.map Shortest.text
  | .declare _ none | .ret none => rfl
  | .declare _ (some e) | .assign _ e | .expr e | .ret (some e) => by
    simp [Stmt.lexemes, Stmt.floats, e.floatText_lexemes, Lexeme.floatText]
  | .cond test yes none => by
    simp [Stmt.lexemes, Stmt.floats, test.floatText_lexemes, yes.floatText_lexemes,
      Lexeme.floatText]
  | .cond test yes (some no) => by
    simp [Stmt.lexemes, Stmt.floats, test.floatText_lexemes, yes.floatText_lexemes,
      no.floatText_lexemes, Lexeme.floatText]
  | .loop test body => by
    simp [Stmt.lexemes, Stmt.floats, test.floatText_lexemes, body.floatText_lexemes,
      Lexeme.floatText]
  | .block statements => by
    simp [Stmt.lexemes, Stmt.floats, Stmt.floatText_lexemesOf statements, Lexeme.floatText]
  | .function _ _ (.block statements) => by
    simp [Stmt.lexemes, Stmt.floats, Body.floats, floatText_parameterLexemes,
      Stmt.floatText_lexemesOf statements, Lexeme.floatText]
  | .function _ _ (.value e) => by
    simp [Stmt.lexemes, Stmt.floats, Body.floats, floatText_parameterLexemes, e.floatText_lexemes,
      Lexeme.floatText]
theorem Stmt.floatText_lexemesOf : (ss : List Stmt) →
    (Stmt.lexemesOf ss).flatMap Lexeme.floatText = (Stmt.floatsOf ss).map Shortest.text
  | [] => rfl
  | s :: rest => by
    simp [Stmt.lexemesOf, Stmt.floatsOf, s.floatText_lexemes, Stmt.floatText_lexemesOf rest]
end

mutual
/-- Of the literals only those are left that are not written as `inf`. -/
theorem Expr.floats_named : (e : Expr) →
    e.named.floats = e.floats.filter (Shortest.text · ≠ infinityName)
  | .int _ | .string _ | .bool _ | .name _ => rfl
  | .float x => by
    rw [Expr.named]
    split
    next h => simp [Expr.floats, h]
    next h => simp [Expr.floats, h]
  | .binary _ l r => by simp [Expr.named, Expr.floats, l.floats_named, r.floats_named]
  | .unary _ e => by simp [Expr.named, Expr.floats, e.floats_named]
  | .call f args => by
    simp [Expr.named, Expr.floats, f.floats_named, Expr.floatsOf_named args]
  | .array elements => by simp [Expr.named, Expr.floats, Expr.floatsOf_named elements]
  | .lambda _ (.block statements) => by
    simp [Expr.named, Expr.floats, Body.floats, Stmt.floatsOf_named statements]
  | .lambda _ (.value e) => by simp [Expr.named, Expr.floats, Body.floats, e.floats_named]
theorem Expr.floatsOf_named : (es : List Expr) →
    Expr.floatsOf (Expr.namedAll es)
      = (Expr.floatsOf es).filter (Shortest.text · ≠ infinityName)
  | [] => rfl
  | e :: rest => by
    simp [Expr.namedAll, Expr.floatsOf, e.floats_named, Expr.floatsOf_named rest]
theorem Stmt.floats_named : (s : Stmt) →
    s.named.floats = s.floats.filter (Shortest.text · ≠ infinityName)
  | .declare _ none | .ret none => rfl
  | .declare _ (some e) | .assign _ e | .expr e | .ret (some e) => by
    simp [Stmt.named, Stmt.floats, e.floats_named]
  | .cond test yes none => by
    simp [Stmt.named, Stmt.floats, test.floats_named, yes.floats_named]
  | .cond test yes (some no) => by
    simp [Stmt.named, Stmt.floats, test.floats_named, yes.floats_named, no.floats_named]
  | .loop test body => by simp [Stmt.named, Stmt.floats, test.floats_named, body.floats_named]
  | .block statements => by simp [Stmt.named, Stmt.floats, Stmt.floatsOf_named statements]
  | .function _ _ (.block statements) => by
    simp [Stmt.named, Stmt.floats, Body.floats, Stmt.floatsOf_named statements]
  | .function _ _ (.value e) => by simp [Stmt.named, Stmt.floats, Body.floats, e.floats_named]
theorem Stmt.floatsOf_named : (ss : List Stmt) →
    Stmt.floatsOf (Stmt.namedAll ss)
      = (Stmt.floatsOf ss).filter (Shortest.text · ≠ infinityName)
  | [] => rfl
  | s :: rest => by
    simp [Stmt.namedAll, Stmt.floatsOf, s.floats_named, Stmt.floatsOf_named rest]
end

/-! ## Compiled programs -/

/-- Whatever `scan` makes of a piece is well-formed (`Piece.wellFormed_of_mem_split`). -/
theorem wellFormed_of_mem_scan {source : String} {t : Token} (h : t ∈ (scan source).tokens)
    (hne : t.lexeme ≠ .eof) : t.lexeme.WellFormed := by
  rcases mem_tokens_scan h with ⟨l, start, hmem, rfl⟩ | rfl
  · exact Piece.wellFormed_of_mem_split (mem_locate_of_mem hmem)
  · exact absurd rfl hne

/-- A literal of the source is well-formed, so `positional_or_inf` applies to it. -/
theorem LiteralOf.positional_or_inf {source : String} {x : Float} (h : LiteralOf source x) :
    ∃ t ∈ (scan source).tokens, ∃ text, t.lexeme = .float text ∧ Decimal.read? text = some x ∧
      (wholePart text < FloatRange.overflow ∧ Positional x ∨
        FloatRange.overflow ≤ wholePart text ∧ Shortest.text x = infinityName) := by
  obtain ⟨t, ht, text, hlexeme, hx⟩ := h
  have hformed := wellFormed_of_mem_scan ht (by simp [hlexeme])
  rw [hlexeme] at hformed
  exact ⟨t, ht, text, hlexeme, hx, SimpleLang.positional_or_inf hformed hx⟩

theorem LiteralOf.positionalOrInf {source : String} {x : Float} (h : LiteralOf source x) :
    PositionalOrInf x := by
  obtain ⟨_, _, _, _, _, ⟨_, hpositional⟩ | ⟨_, hinf⟩⟩ := h.positional_or_inf
  · exact .inl hpositional
  · exact .inr hinf

/-- The program with a name in the place of every infinite literal. -/
def Program.named (p : Program) : Program := ⟨Stmt.namedAll p.statements⟩

/-- A program is scanned as if names stood in the place of its infinite literals. -/
theorem Program.scan_text_named {p : Program}
    (h : Stmt.AllWritable PositionalOrInf p.statements) :
    (scan p.text).errors = [] ∧
      (scan p.text).tokens.map Token.lexeme = p.named.asFunction.lexemes ++ [.eof] := by
  have htext : p.named.text = p.text := by
    rw [Program.text, Program.text, Program.named, Stmt.lines_named]
  have hwritable : Stmt.AllWritable Positional p.named.statements :=
    Stmt.allWritable_named p.statements h
  obtain ⟨herrors, hlexemes, _⟩ := Program.scan_text_of_positional hwritable
  rw [htext] at herrors hlexemes
  exact ⟨herrors, hlexemes⟩

/-- The floats among these lexemes are the finite literals of the program. -/
theorem Program.floatText_named (p : Program) :
    p.named.asFunction.lexemes.flatMap Lexeme.floatText
      = (p.floats.map Shortest.text).filter (· ≠ infinityName) := by
  calc p.named.asFunction.lexemes.flatMap Lexeme.floatText
      = (Stmt.floatsOf (Stmt.namedAll p.statements)).map Shortest.text :=
        p.named.asFunction.floatText_lexemes
    _ = (p.floats.filter (Shortest.text · ≠ infinityName)).map Shortest.text := by
        rw [Stmt.floatsOf_named]
        rfl
    _ = (p.floats.map Shortest.text).filter (· ≠ infinityName) := by
        rw [List.filter_map]
        rfl

/-! ## Sources of one literal -/

section Literal

open Node

/-- A source of one literal is compiled to the program that shows its value. -/
theorem compile_literal {text : String} {x : Float} {limit : Nat}
    (hformed : (Lexeme.float text).WellFormed) (hx : Decimal.read? text = some x)
    (hsize : (text ++ ";").utf8ByteSize < Span.offsetCount) (hlimit : 3 ≤ limit) :
    compile (text ++ ";") limit = .ok ⟨[.display (.float x)]⟩ := by
  have hscans : Scans (text ++ ";").toList [.float text, .symbol .semicolon] [] :=
    (scans_float hformed boundary_semicolon).string scans_semicolon
  generalize text ++ ";" = source at hsize hscans
  obtain ⟨herrors, hlexemes⟩ := hscans.scan
  -- the tokens are the literal, the semicolon and the end
  simp only [List.cons_append, List.nil_append, List.map_eq_cons_iff, List.map_eq_nil_iff]
    at hlexemes
  obtain ⟨t₀, _, htokens, ht₀, t₁, _, rfl, ht₁, t₂, _, rfl, ht₂, rfl⟩ := hlexemes
  -- they are read as one expression statement
  have hreads : Reads source .statements (scan source).tokens
      [above source .statement [primaryOf source (ofToken source t₀), ofToken source t₁]] [t₂] := by
    rw [htokens]
    refine .next (.expressionStatement (.expression (.operand (.literal ?_) (.callsEnd ?_))
      (.operationsEnd ?_)) ht₁) (.stop (.inr ht₂))
    · rw [ht₀]
      rfl
    · rw [ht₁]
      decide
    · intro op hop
      rw [ht₁] at hop
      cases hop
  -- the literal is read as its value from the text of the source
  have hfaithful : t₀.Faithful source :=
    faithful_of_mem_scan hsize herrors (htokens ▸ List.mem_cons_self)
  have hdenotes : (above source .statement
      [primaryOf source (ofToken source t₀), ofToken source t₁]).DenotesStmt (.expr (.float x)) :=
    denotesStmt_expr (denotes_primaryOf fun outer => within_float hfaithful ht₀ hx)
  have heach : Stmt.each [above source .statement
      [primaryOf source (ofToken source t₀), ofToken source t₁]]
        = [Stmt.expr (.float x)].map .ok := by
    simp [stmtEach_eq, hdenotes.ofNode]
  exact compile_of_reads herrors hreads ht₂ heach (by rw [htokens]; exact hlimit)

end Literal

/-- A whole number as a float literal. -/
def wholeLiteral (n : Nat) : String := String.ofList (Nat.toDigits 10 n ++ ['.', '0'])

/-- A whole number is a literal with `.0` behind it. -/
theorem wellFormed_wholeLiteral (n : Nat) : (Lexeme.float (wholeLiteral n)).WellFormed :=
  ⟨Nat.toDigits 10 n, ['0'], String.toList_ofList, isDigits_toDigits n,
    ⟨by decide, List.forall_mem_singleton.mpr rfl⟩⟩

/-- `Nat.toDigits` is read back by `Integer.ofDigits`. -/
theorem wholePart_wholeLiteral (n : Nat) : wholePart (wholeLiteral n) = n :=
  (wholePart_point String.toList_ofList (isDigits_toDigits n)).trans Nat.ofDigitChars_ten_toDigits

theorem size_wholeLiteral (n : Nat) : (wholeLiteral n ++ ";").utf8ByteSize
    = Piece.bytes (Nat.toDigits 10 n ++ ['.', '0']) + 1 := by
  rw [String.utf8ByteSize_append, wholeLiteral, Piece.utf8ByteSize_ofList]
  rfl

/-! ## Which literals stay literals -/

/-- Every float of a compiled program is the value of a literal of its source. It is written as
digits, a point and digits if the number before the point of that literal is less than
`2 ^ 1024 - 2 ^ 970`, and as `inf` if not. The text of the program is scanned without errors, as if
the name `inf` stood in the place of every infinite literal; so the floats in it are the other
literals, in their order. -/
theorem float_literals_written (source : String) (limit : Nat) (p : Program)
    (hsize : source.utf8ByteSize < 2 ^ 32) (hcompile : compile source limit = .ok p) :
    (∀ x ∈ p.floats, ∃ t ∈ (scan source).tokens, ∃ text, t.lexeme = .float text ∧
      Decimal.read? text = some x ∧
      (wholePart text < FloatRange.overflow ∧ (Lexeme.float (Shortest.text x)).WellFormed ∨
        FloatRange.overflow ≤ wholePart text ∧ Shortest.text x = "inf")) ∧
    (scan p.text).errors = [] ∧
    (scan p.text).tokens.map Token.lexeme = p.named.asFunction.lexemes ++ [.eof] ∧
    (scan p.text).tokens.flatMap (·.lexeme.floatText) =
      (p.floats.map Shortest.text).filter (· ≠ "inf") := by
  have hwritable := writable_of_literals hsize hcompile
  obtain ⟨herrors, hlexemes⟩ :=
    Program.scan_text_named (hwritable.mono fun _ h => h.positionalOrInf)
  refine ⟨fun x hx => ?_, herrors, hlexemes, ?_⟩
  · exact (Stmt.AllWritable.forall_mem_floats _ hwritable x hx).positional_or_inf
  · calc (scan p.text).tokens.flatMap (·.lexeme.floatText)
        = ((scan p.text).tokens.map Token.lexeme).flatMap Lexeme.floatText := by
          rw [List.flatMap_map]
      _ = p.named.asFunction.lexemes.flatMap Lexeme.floatText := by
          rw [hlexemes, List.flatMap_append]
          exact List.append_nil _
      _ = (p.floats.map Shortest.text).filter (· ≠ "inf") := p.floatText_named

/-- The largest whole number that stays a literal. -/
theorem float_literals_written_largest :
    ∃ p, compile (wholeLiteral (FloatRange.overflow - 1) ++ ";") 16 = .ok p ∧
      p.floats.length = 1 ∧ (scan p.text).errors = [] ∧
      (scan p.text).tokens.map Token.lexeme = p.named.asFunction.lexemes ++ [.eof] ∧
      (scan p.text).tokens.flatMap (·.lexeme.floatText) =
        (p.floats.map Shortest.text).filter (· ≠ "inf") := by
  obtain ⟨x, hx⟩ := Decimal.exists_read? (wellFormed_wholeLiteral (FloatRange.overflow - 1))
  have hsize : (wholeLiteral (FloatRange.overflow - 1) ++ ";").utf8ByteSize < 2 ^ 32 := by
    rw [size_wholeLiteral]
    decide +kernel
  have hcompile := @compile_literal _ _ 16 (wellFormed_wholeLiteral _) hx hsize (by decide)
  exact ⟨_, hcompile, rfl, (float_literals_written _ 16 _ hsize hcompile).2⟩

/-- A power of ten that does not stay a literal. -/
theorem powerOfTen_written_inf :
    ∃ p, compile (wholeLiteral (10 ^ 309) ++ ";") 16 = .ok p ∧
      p.floats.map Shortest.text = ["inf"] ∧
      p.text = "fn main() \x7b\n    display(inf);\n\x7d\n" ∧
      (scan p.text).tokens.flatMap (·.lexeme.floatText) = [] ∧
      .ident "inf" ∈ (scan p.text).tokens.map Token.lexeme := by
  obtain ⟨x, hx⟩ := Decimal.exists_read? (wellFormed_wholeLiteral (10 ^ 309))
  have hsize : (wholeLiteral (10 ^ 309) ++ ";").utf8ByteSize < Span.offsetCount := by
    rw [size_wholeLiteral]
    decide +kernel
  -- ten to the 309th is beyond the largest float
  have hinf : Shortest.text x = "inf" := by
    rcases positional_or_inf (wellFormed_wholeLiteral _) hx with ⟨hlt, _⟩ | ⟨_, hinf⟩
    · rw [wholePart_wholeLiteral] at hlt
      exact absurd hlt (by decide +kernel)
    · exact hinf
  have htext : (Program.mk [.display (.float x)]).text
      = "fn main() \x7b\n    display(inf);\n\x7d\n" := by
    simp only [Program.text, Stmt.lines, Stmt.display, Stmt.text, Expr.text, Expr.texts, hinf]
    decide
  refine ⟨_, compile_literal (wellFormed_wholeLiteral _) hx hsize (by decide),
    congrArg ([·]) hinf, htext, ?_⟩
  rw [htext]
  decide +kernel

end SimpleLang
