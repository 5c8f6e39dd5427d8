import SimpleLang.Proofs.Tokens

/-!
# Two texts on lines of their own

No piece of a text goes on behind a line break, except a string that is not closed. So the pieces of
two texts that are joined by a line break are those of the first, the line break, and those of the
second at offsets that are shifted.

* `Span.shift`, `Token.shift`, `Diagnostic.shift`: the same at a later place.
* `Piece.split_append`: the pieces of the joined text, if none of the first is an unclosed string.
* `tokens_scan_append`, `errors_scan_append`: its tokens and errors, as long as offsets into it fit
  their 32 bits.
-/

namespace SimpleLang

/-! ## Places that are shifted -/

/-- The range that lies a number of bytes further. -/
def Span.shift (offset : Nat) (s : Span) : Span := ⟨s.start + offset, s.stop + offset⟩

/-- Offsets that stay within their 32 bits are shifted as they are. -/
theorem Span.between_add {start stop offset : Nat} (hstart : start + offset < Span.offsetCount)
    (hstop : stop + offset < Span.offsetCount) :
    Span.between (start + offset) (stop + offset) = (Span.between start stop).shift offset := by
  have hmod {n : Nat} (hn : n < Span.offsetCount) : n % Span.offsetCount = n := Nat.mod_eq_of_lt hn
  rw [between, between, shift, hmod hstart, hmod hstop, hmod (by omega), hmod (by omega)]

def Token.shift (offset : Nat) (t : Token) : Token := { t with span := t.span.shift offset }

/-- The same said of a range that lies a number of bytes further. -/
def Diagnostic.shift (offset : Nat) (d : Diagnostic) : Diagnostic :=
  { d with span := d.span.shift offset }

namespace Piece

/-! ## One piece -/

/-- A search that ends within a text, or at what follows it, takes nothing of what follows. -/
theorem takeWhile_append_of_stops {p : Char → Bool} {cs tail : List Char}
    (h : cs.dropWhile p ≠ [] ∨ ∀ c ∈ tail.head?, p c = false) :
    (cs ++ tail).takeWhile p = cs.takeWhile p ∧
      (cs ++ tail).dropWhile p = cs.dropWhile p ++ tail := by
  induction cs with
  | nil =>
    cases tail with
    | nil => exact ⟨rfl, rfl⟩
    | cons c tail =>
      -- nothing has stopped it, so `tail` does
      have hc : p c = false := h.resolve_left (fun hne => hne rfl) c rfl
      simp [hc]
  | cons c cs ih =>
    cases hc : p c with
    | false => simp [hc]
    | true =>
      rw [List.dropWhile_cons_of_pos hc] at h
      simp [hc, ih h]

/-- A line break ends every search that does not go past it. -/
theorem takeWhile_append_newline {p : Char → Bool} (hp : p '\n' = false) (cs ds : List Char) :
    (cs ++ '\n' :: ds).takeWhile p = cs.takeWhile p ∧
      (cs ++ '\n' :: ds).dropWhile p = cs.dropWhile p ++ '\n' :: ds := by
  refine takeWhile_append_of_stops (.inr ?_)
  rintro c ⟨⟩
  exact hp

variable (ds : List Char)

/-- Neither a digit nor a point is a line break. -/
theorem number_append (c : Char) (cs : List Char) :
    number c (cs ++ '\n' :: ds) = ((number c cs).1, (number c cs).2 ++ '\n' :: ds) := by
  have hdigits (es : List Char) := takeWhile_append_newline (p := Char.isDigit) (by rfl) es ds
  unfold number
  rw [(hdigits cs).1, (hdigits cs).2]
  generalize cs.dropWhile Char.isDigit = es
  cases es with
  | nil => rfl
  | cons e es =>
    by_cases he : e = '.'
    · subst he
      cases es with
      | nil => rfl
      | cons d es =>
        cases hd : d.isDigit with
        | false => simp [hd]
        | true => simp [hd, hdigits es]
    · -- without a point there is no fraction
      cases es with
      | nil => simp [he]
      | cons d es => simp [he]

/-- The string is closed before the line break is reached. -/
theorem quoted_append {cs : List Char} (h : ∀ body, (quoted cs).1 ≠ .unclosed body) :
    quoted (cs ++ '\n' :: ds) = ((quoted cs).1, (quoted cs).2 ++ '\n' :: ds) := by
  have hclosed : cs.dropWhile (· != '"') ≠ [] := by
    intro hnil
    refine h (cs.takeWhile (· != '"')) ?_
    rw [quoted, hnil]
  obtain ⟨htake, hdrop⟩ :
      (cs ++ '\n' :: ds).takeWhile (· != '"') = _ ∧ (cs ++ '\n' :: ds).dropWhile (· != '"') = _ :=
    takeWhile_append_of_stops (.inl hclosed)
  obtain ⟨quote, more, hmore⟩ := List.exists_cons_of_ne_nil hclosed
  rw [quoted, quoted, htake, hdrop, hmore]
  rfl

/-- No symbol has a line break in it. -/
theorem pair?_newline (c : Char) : Symbol.pair? c '\n' = none := by
  simp [Symbol.pair?, Symbol.all, Symbol.chars]

/-- At the end of the first text the line break is the second character, and it makes no pair
(`pair?_newline`). -/
theorem symbol_append (c : Char) (cs : List Char) :
    symbol c (cs ++ '\n' :: ds) = ((symbol c cs).1, (symbol c cs).2 ++ '\n' :: ds) := by
  cases cs with
  | nil =>
    show symbol c ('\n' :: ds) = (single c, '\n' :: ds)
    rw [symbol, pair?_newline]
  | cons d cs =>
    rw [List.cons_append, symbol, symbol]
    cases Symbol.pair? c d <;> rfl

/-- A piece does not go on behind a line break, unless it is a string that is not closed. -/
theorem next_append {c : Char} {cs : List Char} (h : ∀ body, (next c cs).1 ≠ .unclosed body) :
    next c (cs ++ '\n' :: ds) = ((next c cs).1, (next c cs).2 ++ '\n' :: ds) := by
  unfold next at h ⊢
  by_cases hblank : isBlank c
  · simp only [if_pos hblank]
  rw [if_neg hblank] at h
  simp only [if_neg hblank]
  by_cases hword : startsWord c
  · obtain ⟨htake, hdrop⟩ := takeWhile_append_newline (p := continuesWord) (by rfl) cs ds
    simp only [if_pos hword, htake, hdrop]
  rw [if_neg hword] at h
  simp only [if_neg hword]
  by_cases hdigit : c.isDigit
  · simp only [if_pos hdigit, number_append]
  rw [if_neg hdigit] at h
  simp only [if_neg hdigit]
  by_cases hquote : c = '"'
  · rw [if_pos hquote] at h
    simp only [if_pos hquote, quoted_append ds h]
  simp only [if_neg hquote]
  -- a slash starts a comment only if another one follows
  by_cases hslash : c = '/'
  · subst hslash
    cases cs with
    | nil => exact symbol_append ds '/' []
    | cons d cs =>
      by_cases hd : d = '/'
      · subst hd
        obtain ⟨htake, hdrop⟩ := takeWhile_append_newline (p := (· != '\n')) (by rfl) cs ds
        simp only [List.cons_append, htake, hdrop]
      · simpa [hd] using symbol_append ds '/' (d :: cs)
  · simpa [hslash] using symbol_append ds c cs

/-! ## All pieces -/

/-- The pieces of two texts with a line break between them. -/
theorem split_append {cs : List Char} (h : ∀ body, .unclosed body ∉ split cs) :
    split (cs ++ '\n' :: ds) = split cs ++ .blank '\n' :: split ds := by
  fun_induction split cs with
  | case1 =>
    rw [List.nil_append, split_cons]
    rfl
  | case2 c cs ih =>
    have hnext : next c (cs ++ '\n' :: ds) = ((next c cs).1, (next c cs).2 ++ '\n' :: ds) :=
      next_append ds fun body hbody => h body (hbody ▸ List.mem_cons_self)
    have hrest := ih fun body hbody => h body (List.mem_cons_of_mem _ hbody)
    rw [List.cons_append, split_cons, hnext, hrest]
    rfl

/-- A later start moves every offset. -/
theorem locate_add (start offset : Nat) (ps : List Piece) :
    locate (start + offset) ps = (locate start ps).map fun x => (x.1, x.2 + offset) := by
  induction ps generalizing start with
  | nil => rfl
  | cons p ps ih =>
    rw [locate, locate, List.map_cons, Nat.add_right_comm, ih]

/-- `Piece.bytes` of a string is its size. -/
theorem bytes_toList (s : String) : bytes s.toList = s.utf8ByteSize := by
  rw [← utf8ByteSize_ofList, String.ofList_toList]

/-- Every piece has an offset. -/
theorem exists_mem_locate {p : Piece} {ps : List Piece} (h : p ∈ ps) (n : Nat) :
    ∃ start, (p, start) ∈ locate n ps := by
  induction ps generalizing n with
  | nil => cases h
  | cons q ps ih =>
    rcases List.mem_cons.mp h with rfl | h
    · exact ⟨n, List.mem_cons_self⟩
    · obtain ⟨start, hstart⟩ := ih h (n + q.size)
      exact ⟨start, List.mem_cons_of_mem _ hstart⟩

/-- A piece ends within the text. -/
theorem add_size_le_of_mem_locate {cs : List Char} {p : Piece} {start : Nat}
    (h : (p, start) ∈ locate 0 (split cs)) : start + p.size ≤ bytes cs := by
  obtain ⟨before, after, hsplit, rfl⟩ := of_mem_locate h
  have htext := flatMap_text_split cs
  rw [hsplit, List.flatMap_append, List.flatMap_cons] at htext
  rw [← htext, bytes_append, bytes_append, Nat.zero_add]
  have hsize : p.size = bytes p.text := rfl
  omega

/-- A piece that ends before the offsets run out is shifted as it stands. -/
theorem span_add {p : Piece} {start offset : Nat} (h : start + p.size + offset < Span.offsetCount) :
    p.span (start + offset) = (p.span start).shift offset := by
  rw [span, span, Nat.add_right_comm]
  exact Span.between_add (by omega) h

/-- Of a piece that is shifted only the place of its token changes. -/
theorem token?_add {p : Piece} {start offset : Nat}
    (h : start + p.size + offset < Span.offsetCount) :
    token? (p, start + offset) = (token? (p, start)).map (Token.shift offset) := by
  cases p with
  | lexeme l =>
    show some (Token.mk l _) = some (Token.mk l _)
    rw [span_add h]
  | _ => rfl

end Piece

/-! ## Tokens and errors -/

section Scan

variable {a b : String}

/-- The line break takes one byte. -/
theorem utf8ByteSize_joined (a b : String) :
    (a ++ "\n" ++ b).utf8ByteSize = b.utf8ByteSize + (a.utf8ByteSize + 1) := by
  have hnewline : "\n".utf8ByteSize = 1 := rfl
  rw [String.utf8ByteSize_append, String.utf8ByteSize_append, hnewline, Nat.add_comm]

/-- The pieces of two texts on lines of their own, with their offsets. -/
theorem locate_split_append (herrors : (scan a).errors = []) :
    Piece.locate 0 (Piece.split (a ++ "\n" ++ b).toList)
      = Piece.locate 0 (Piece.split a.toList) ++ (.blank '\n', a.utf8ByteSize)
        :: (Piece.locate 0 (Piece.split b.toList)).map
          fun x => (x.1, x.2 + (a.utf8ByteSize + 1)) := by
  -- an unclosed string would be reported
  have hclosed (body : List Char) : .unclosed body ∉ Piece.split a.toList := by
    intro hmem
    obtain ⟨start, hstart⟩ := Piece.exists_mem_locate hmem 0
    cases error?_of_mem_locate herrors hstart
  have htext : (a ++ "\n" ++ b).toList = a.toList ++ '\n' :: b.toList := by
    simp [String.toList_append]
  rw [htext, Piece.split_append _ hclosed, Piece.locate_append, Piece.flatMap_text_split,
    Piece.bytes_toList, Nat.zero_add, Piece.locate]
  congr 2
  rw [← Piece.locate_add, Nat.zero_add]
  rfl

/-- No offset of the second text runs out of its 32 bits when it is shifted. -/
theorem add_lt_of_mem_locate (hsize : (a ++ "\n" ++ b).utf8ByteSize < Span.offsetCount) {p : Piece}
    {start : Nat} (h : (p, start) ∈ Piece.locate 0 (Piece.split b.toList)) :
    start + p.size + (a.utf8ByteSize + 1) < Span.offsetCount := by
  have hle := Piece.add_size_le_of_mem_locate h
  rw [Piece.bytes_toList] at hle
  rw [utf8ByteSize_joined] at hsize
  omega

/-- The errors of the joined text are those of the second one, shifted. -/
theorem errors_scan_append (hsize : (a ++ "\n" ++ b).utf8ByteSize < Span.offsetCount)
    (herrors : (scan a).errors = []) :
    (scan (a ++ "\n" ++ b)).errors = (scan b).errors.map (.shift (a.utf8ByteSize + 1)) := by
  rw [errors_scan (a ++ "\n" ++ b), errors_scan b, locate_split_append herrors,
    List.filterMap_append, ← errors_scan a, herrors, List.nil_append,
    List.filterMap_cons_none (by rfl), List.filterMap_map, List.map_filterMap]
  refine List.filterMap_congr fun x hx => ?_
  obtain ⟨p, start⟩ := x
  show p.error?.map _ = (p.error?.map _).map _
  rw [Piece.span_add (add_lt_of_mem_locate hsize hx), Option.map_map]
  rfl

/-- The tokens of the joined text are those of the first one up to its end, and those of the second
one, shifted. -/
theorem tokens_scan_append (hsize : (a ++ "\n" ++ b).utf8ByteSize < Span.offsetCount)
    (herrors : (scan a).errors = []) :
    ∃ c, (scan a).tokens = c ++ [⟨.eof, .between a.utf8ByteSize a.utf8ByteSize⟩] ∧
      (scan (a ++ "\n" ++ b)).tokens = c ++ (scan b).tokens.map (.shift (a.utf8ByteSize + 1)) := by
  refine ⟨_, tokens_scan a, ?_⟩
  rw [tokens_scan (a ++ "\n" ++ b), tokens_scan b, locate_split_append herrors,
    List.filterMap_append, List.filterMap_cons_none (by rfl), List.filterMap_map,
    List.append_assoc]
  congr 1
  rw [List.map_append, List.map_filterMap]
  congr 1
  -- the tokens of `b`, and then its end
  · refine List.filterMap_congr fun x hx => ?_
    exact Piece.token?_add (add_lt_of_mem_locate hsize hx)
  · rw [utf8ByteSize_joined] at hsize ⊢
    rw [Span.between_add hsize hsize]
    rfl

end Scan

end SimpleLang
