import SimpleLang.Proofs.Rendering

/-!
# The scanner takes the longest lexeme

A text may open with several lexemes: `12.5` with `1`, `12` and `12.5`, and `==` with `=` and `==`.
The scanner cuts off the longest one, and it cuts off a lexeme wherever the text opens with any,
with one exception: two slashes open a comment, although each of them is a lexeme.

* `Lexeme.Opens`: a text opens with a lexeme of the lexical grammar.
* `Piece.next_of_opens`: the piece that is cut off such a text.
-/

namespace SimpleLang

/-- The text opens with the lexeme, which is spelled like one of its kind. -/
def Lexeme.Opens (l : Lexeme) (cs : List Char) : Prop :=
  l.WellFormed ∧ l.spelling.toList <+: cs

/-- A text with more characters behind it is longer, unless there are none. -/
theorem ofList_append_eq_or_lt (x : String) (more : List Char) :
    String.ofList (x.toList ++ more) = x ∨
      x.length < (String.ofList (x.toList ++ more)).length := by
  cases more with
  | nil => exact .inl (by rw [List.append_nil, String.ofList_toList])
  | cons c cs =>
    refine .inr ?_
    rw [← String.length_toList, ← String.length_toList, String.toList_ofList, List.length_append,
      List.length_cons]
    omega

namespace Piece

/-- The piece is the lexeme, or a longer one. -/
def TakesAtLeast (l : Lexeme) (p : Piece) : Prop :=
  ∃ m, p = .lexeme m ∧ (l = m ∨ l.spelling.length < m.spelling.length)

/-! ## Words -/

/-- The scanner goes on with `tail` as long as it continues the word. -/
theorem takesAtLeast_word {x : String} {c : Char} {cs : List Char} (hx : x.toList = c :: cs)
    (hc : startsWord c) (hcs : ∀ d ∈ cs, continuesWord d) (tail : List Char) :
    TakesAtLeast (.ofWord x) (next c (cs ++ tail)).1 := by
  have hword : (next c (cs ++ tail)).1
      = .lexeme (.ofWord (String.ofList (x.toList ++ tail.takeWhile continuesWord))) := by
    unfold next
    rw [if_neg (not_isBlank_of_startsWord hc), if_pos hc, List.takeWhile_append_of_pos hcs, hx]
    rfl
  refine ⟨_, hword, ?_⟩
  rcases ofList_append_eq_or_lt x (tail.takeWhile continuesWord) with heq | hlt
  · exact .inl (by rw [heq])
  · exact .inr (by rwa [spelling_ofWord, spelling_ofWord])

/-! ## Numbers -/

/-- The third case of `Piece.next`. -/
theorem next_of_isDigit {c : Char} (hc : c.isDigit) (rest : List Char) :
    next c rest = number c rest := by
  obtain ⟨hblank, hword⟩ := not_startsWord_of_isDigit hc
  unfold next
  rw [if_neg hblank, if_neg hword, if_pos hc]

/-- The digits may go on, or a point and digits may follow, and both make the lexeme longer. -/
theorem takesAtLeast_integer {digits : String} {c : Char} {cs : List Char}
    (htext : digits.toList = c :: cs) (h : IsDigits (c :: cs)) (tail : List Char) :
    TakesAtLeast (.integer digits) (next c (cs ++ tail)).1 := by
  obtain ⟨hc, hcs⟩ := List.forall_mem_cons.mp h.2
  have htake : c :: (cs ++ tail).takeWhile Char.isDigit
      = digits.toList ++ tail.takeWhile Char.isDigit := by
    rw [List.takeWhile_append_of_pos hcs, htext]
    rfl
  have hwhole : TakesAtLeast (.integer digits)
      (.lexeme (.integer (String.ofList (digits.toList ++ tail.takeWhile Char.isDigit)))) := by
    refine ⟨_, rfl, ?_⟩
    rcases ofList_append_eq_or_lt digits (tail.takeWhile Char.isDigit) with heq | hlt
    · exact .inl (by rw [heq])
    · exact .inr hlt
  rw [next_of_isDigit hc, number, htake]
  split
  next d more _ =>
    split
    · -- a float is longer by its point at least
      refine ⟨_, rfl, .inr ?_⟩
      simp only [Lexeme.spelling, ← String.length_toList, String.toList_ofList, List.length_append,
        List.length_cons]
      omega
    · exact hwhole
  next => exact hwhole

/-- Only the digits behind the point may go on. -/
theorem takesAtLeast_float {text : String} {c : Char} {cs fraction : List Char}
    (htext : text.toList = c :: cs ++ '.' :: fraction) (hwhole : IsDigits (c :: cs))
    (hfraction : IsDigits fraction) (tail : List Char) :
    TakesAtLeast (.float text) (next c (cs ++ '.' :: fraction ++ tail)).1 := by
  obtain ⟨hc, hcs⟩ := List.forall_mem_cons.mp hwhole.2
  cases fraction with
  | nil => exact absurd rfl hfraction.1
  | cons d ds =>
    obtain ⟨hd, hds⟩ := List.forall_mem_cons.mp hfraction.2
    have hrest : cs ++ '.' :: d :: ds ++ tail = cs ++ '.' :: d :: (ds ++ tail) := by simp
    -- the whole part ends at the point
    have htake : (cs ++ '.' :: d :: (ds ++ tail)).takeWhile Char.isDigit = cs := by
      rw [List.takeWhile_append_of_pos hcs, List.takeWhile_cons_of_neg (by decide),
        List.append_nil]
    have hdrop : (cs ++ '.' :: d :: (ds ++ tail)).dropWhile Char.isDigit
        = '.' :: d :: (ds ++ tail) := by
      rw [List.dropWhile_append_of_pos hcs, List.dropWhile_cons_of_neg (by decide)]
    have hfloat : (next c (cs ++ '.' :: d :: ds ++ tail)).1
        = .lexeme (.float (String.ofList (text.toList ++ tail.takeWhile Char.isDigit))) := by
      rw [hrest, next_of_isDigit hc, number, htake, hdrop, htext]
      simp [hd, List.takeWhile_append_of_pos hds]
    refine ⟨_, hfloat, ?_⟩
    rcases ofList_append_eq_or_lt text (tail.takeWhile Char.isDigit) with heq | hlt
    · exact .inl (by rw [heq])
    · exact .inr hlt

/-! ## Strings -/

/-- A string ends with its quote, so it is cut off as it is. -/
theorem takesAtLeast_string {text : String} {body : List Char}
    (htext : text.toList = '"' :: (body ++ ['"'])) (hbody : '"' ∉ body) (tail : List Char) :
    TakesAtLeast (.string text) (next '"' (body ++ '"' :: tail)).1 := by
  have hinside : ∀ c ∈ body, (c != '"') = true := fun c hc => by
    simpa using fun h : c = '"' => hbody (h ▸ hc)
  have hquote : ∀ c ∈ ('"' :: tail).head?, (c != '"') = false := by
    rintro c ⟨⟩
    rfl
  obtain ⟨htake, hdrop⟩ := takeWhile_append_of_boundary hinside hquote
  refine ⟨.string text, ?_, .inl rfl⟩
  show (quoted (body ++ '"' :: tail)).1 = _
  rw [quoted, htake, hdrop]
  show Piece.lexeme (.string (String.ofList ('"' :: (body ++ ['"'])))) = _
  rw [← htext, String.ofList_toList]

/-! ## Symbols -/

/-- Where a symbol starts there is a symbol, or two slashes. -/
theorem next_of_symbol (s : Symbol) {c : Char} {cs : List Char} (hs : s.chars = c :: cs)
    (rest : List Char) :
    next c rest = symbol c rest ∨ ∃ body, (next c rest).1 = .comment body := by
  have hclass : isBlank c = false ∧ startsWord c = false ∧ c.isDigit = false ∧ c ≠ '"' := by
    cases s <;> cases hs <;> decide
  obtain ⟨hblank, hword, hdigit, hquote⟩ := hclass
  unfold next
  rw [if_neg (by simp [hblank]), if_neg (by simp [hword]), if_neg (by simp [hdigit]),
    if_neg hquote]
  split
  next more => exact .inr ⟨_, rfl⟩
  next => exact .inl rfl

/-- A symbol is as long as the list of its characters. -/
theorem length_spelling (s : Symbol) : s.spelling.length = s.chars.length := by
  rw [Symbol.spelling, ← String.length_toList, String.toList_ofList]

/-- With the next character it may be a symbol of two characters. -/
theorem takesAtLeast_single {s : Symbol} {c : Char} (hs : s.chars = [c]) (tail : List Char) :
    TakesAtLeast (.symbol s) (symbol c tail).1 := by
  have hsingle : single c = .lexeme (.symbol s) := by rw [single, single?_chars s hs]
  cases tail with
  | nil => exact ⟨_, hsingle, .inl rfl⟩
  | cons d more =>
    rw [symbol]
    cases hpair : Symbol.pair? c d with
    | none => exact ⟨_, hsingle, .inl rfl⟩
    | some s' =>
      refine ⟨_, rfl, .inr ?_⟩
      show s.spelling.length < s'.spelling.length
      rw [length_spelling, length_spelling, hs, chars_of_pair? hpair]
      exact Nat.lt_succ_self 1

/-- The symbols of two characters are asked for first, and there are no longer ones. -/
theorem takesAtLeast_pair {s : Symbol} {c d : Char} (hs : s.chars = [c, d]) (tail : List Char) :
    TakesAtLeast (.symbol s) (symbol c (d :: tail)).1 := by
  rw [symbol, pair?_chars s hs]
  exact ⟨_, rfl, .inl rfl⟩

/-! ## Any lexeme -/

/-- Off a text that opens with a lexeme the scanner cuts a lexeme that is no shorter, or a
comment. -/
theorem next_of_opens {l : Lexeme} {c : Char} {rest : List Char} (h : l.Opens (c :: rest)) :
    TakesAtLeast l (next c rest).1 ∨ ∃ body, (next c rest).1 = .comment body := by
  obtain ⟨hformed, tail, htail⟩ := h
  cases l with
  | keyword k =>
    have hword : ∃ d ds, k.spelling.toList = d :: ds ∧ startsWord d ∧
        ∀ e ∈ ds, continuesWord e := by
      cases k <;> exact ⟨_, _, rfl, by decide, List.all_eq_true.mp rfl⟩
    obtain ⟨d, ds, htext, hd, hds⟩ := hword
    have htail : k.spelling.toList ++ tail = c :: rest := htail
    rw [htext] at htail
    obtain ⟨rfl, rfl⟩ := List.cons.inj htail
    rw [← ofWord_keyword k]
    exact .inl (takesAtLeast_word htext hd hds tail)
  | symbol s =>
    have htail : s.spelling.toList ++ tail = c :: rest := htail
    rw [Symbol.spelling, String.toList_ofList] at htail
    -- symbols have one character or two
    have hchars : (∃ d, s.chars = [d]) ∨ ∃ d e, s.chars = [d, e] := by
      cases s <;> simp [Symbol.chars]
    rcases hchars with ⟨d, hs⟩ | ⟨d, e, hs⟩
    · rw [hs] at htail
      obtain ⟨rfl, rfl⟩ := List.cons.inj htail
      rcases next_of_symbol s hs tail with heq | hcomment
      · exact .inl (heq ▸ takesAtLeast_single hs tail)
      · exact .inr hcomment
    · rw [hs] at htail
      obtain ⟨rfl, rfl⟩ := List.cons.inj htail
      rcases next_of_symbol s hs (e :: tail) with heq | hcomment
      · exact .inl (heq ▸ takesAtLeast_pair hs tail)
      · exact .inr hcomment
  | integer digits =>
    cases htext : digits.toList with
    | nil => exact absurd htext hformed.1
    | cons d ds =>
      have htail : digits.toList ++ tail = c :: rest := htail
      have hformed : IsDigits digits.toList := hformed
      rw [htext] at htail hformed
      obtain ⟨rfl, rfl⟩ := List.cons.inj htail
      exact .inl (takesAtLeast_integer htext hformed tail)
  | float text =>
    obtain ⟨whole, fraction, htext, hwhole, hfraction⟩ := hformed
    cases whole with
    | nil => exact absurd rfl hwhole.1
    | cons d ds =>
      have htail : text.toList ++ tail = c :: rest := htail
      rw [htext] at htail
      obtain ⟨rfl, rfl⟩ := List.cons.inj htail
      exact .inl (takesAtLeast_float htext hwhole hfraction tail)
  | string text =>
    obtain ⟨body, htext, hbody⟩ := hformed
    have htail : text.toList ++ tail = c :: rest := htail
    rw [htext, List.cons_append, List.append_assoc] at htail
    obtain ⟨rfl, rfl⟩ := List.cons.inj htail
    exact .inl (takesAtLeast_string htext hbody tail)
  | ident x =>
    obtain ⟨d, ds, htext, hd, hds⟩ := hformed.head
    have htail : x.toList ++ tail = c :: rest := htail
    rw [htext] at htail
    obtain ⟨rfl, rfl⟩ := List.cons.inj htail
    have hword : Lexeme.ofWord x = .ident x := by rw [Lexeme.ofWord, hformed.notKeyword]
    rw [← hword]
    exact .inl (takesAtLeast_word htext hd hds tail)
  | eof => exact absurd hformed id

end Piece

end SimpleLang
