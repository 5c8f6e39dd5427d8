import SimpleLang.Proofs.Tokens.Joined
import SimpleLang.Proofs.Tokens.LongestMatch
import SimpleLang.Proofs.Tree.Placed

/-!
# The scanner loses nothing

Every byte of a source is in a token, is a blank, is part of a comment, or is reported. Pieces are
made of characters and the places of a scan are byte offsets, so this is said of the bytes of the
source (`octets`).

* `Piece.next_of_mem_locate`: a piece is what the scanner cuts off the text at its offset. All that
  is known of pieces and their places follows from it.
* `Scan.Lossless`: what a scan that loses nothing says about its source. Together its conditions
  leave no choice: what is no blank and in no comment is the longest lexeme there, or an error where
  there is no lexeme.
-/

namespace SimpleLang

/-! ## Bytes -/

/-- A text of one line is encoded without a line feed. -/
theorem lineFeed_not_mem_octets {cs : List Char} (h : '\n' ∉ cs) :
    (0x0a : UInt8) ∉ octets (String.ofList cs) := by
  rw [octets_ofList]
  intro hmem
  obtain ⟨c, hc, hbyte⟩ := List.mem_flatMap.mp hmem
  rcases utf8EncodeChar_cases c with ⟨hlow, hcode⟩ | ⟨-, hhigh, -⟩
  · have hsame := (Scanner.sameKind_beq (d := '\n') (by decide)).low c hlow
    rw [hcode, List.mem_singleton] at hbyte
    rw [← hbyte] at hsame
    exact h (beq_iff_eq.mp hsame.symm ▸ hc)
  · exact absurd (hhigh _ hbyte) (by decide)

namespace Span

/-- The byte lies in the range. -/
def Contains (s : Span) (i : Nat) : Prop := s.start ≤ i ∧ i < s.stop

/-- One of the ranges ends before the other one starts. -/
def Apart (s t : Span) : Prop := s.stop ≤ t.start ∨ t.stop ≤ s.start

/-- The `octets` of a text are found where it stands. -/
theorem Covers.getElem?_octets {s : Span} {source text : String} (h : s.Covers source text)
    {k : Nat} (hk : k < text.utf8ByteSize) : (octets source)[s.start + k]? = (octets text)[k]? := by
  obtain ⟨before, after, rfl, hstart, -⟩ := h
  have hbefore := length_octets before
  have htext := length_octets text
  rw [octets_append, octets_append, List.append_assoc, List.getElem?_append_right (by omega),
    List.getElem?_append_left (by omega)]
  congr 1
  omega

end Span

/-! ## Pieces and their places -/

namespace Piece

/-- A piece of `locate` is what `next` cuts off the text at its offset. -/
theorem next_of_mem_locate {cs : List Char} {p : Piece} {n start : Nat}
    (h : (p, start) ∈ locate n (split cs)) :
    ∃ before c rest, cs = before ++ c :: rest ∧ start = n + bytes before ∧ (next c rest).1 = p := by
  fun_induction split cs generalizing n with
  | case1 => cases h
  | case2 c rest ih =>
    rcases List.mem_cons.mp h with h | h
    · cases h
      exact ⟨[], c, rest, rfl, rfl, rfl⟩
    -- a later piece has the text of this one before it
    · obtain ⟨before, d, rest', hcs, rfl, hp⟩ := ih h
      have htext := (next_spec c rest).1
      refine ⟨(next c rest).1.text ++ before, d, rest', ?_, ?_, hp⟩
      · rw [List.append_assoc, ← hcs, htext]
      · rw [bytes_append, Nat.add_assoc]
        rfl

/-- Every piece takes at least one byte. What `next` leaves is no longer than `rest`
(`length_next_le`), and the first character is taken. -/
theorem size_next_pos (c : Char) (rest : List Char) : 0 < (next c rest).1.size := by
  have htext := congrArg List.length (next_spec c rest).1
  have hrest := length_next_le c rest
  rw [List.length_append, List.length_cons] at htext
  show 0 < bytes (next c rest).1.text
  cases htaken : (next c rest).1.text with
  | nil =>
    rw [htaken, List.length_nil] at htext
    omega
  | cons d ds =>
    have hd := Char.utf8Size_pos d
    rw [bytes_cons]
    omega

/-- Every piece starts behind the pieces before it. -/
theorem pairwise_locate (n : Nat) (ps : List Piece) :
    (locate n ps).Pairwise fun x y => x.2 + x.1.size ≤ y.2 := by
  induction ps generalizing n with
  | nil => exact .nil
  | cons p ps ih =>
    refine .cons (fun y hy => ?_) (ih _)
    obtain ⟨q, start⟩ := y
    obtain ⟨before, after, -, rfl⟩ := of_mem_locate hy
    exact Nat.le_add_right ..

/-- Every byte lies in a piece of `locate`, by induction on the pieces. -/
theorem exists_mem_locate_of_lt {n i : Nat} {ps : List Piece} (hn : n ≤ i)
    (hi : i < n + bytes (ps.flatMap text)) :
    ∃ p start, (p, start) ∈ locate n ps ∧ start ≤ i ∧ i < start + p.size := by
  induction ps generalizing n with
  | nil =>
    rw [List.flatMap_nil] at hi
    exact absurd hi (by simp [bytes]; omega)
  | cons p ps ih =>
    by_cases hp : i < n + p.size
    · exact ⟨p, n, List.mem_cons_self, hn, hp⟩
    · have hsize : p.size = bytes p.text := rfl
      rw [List.flatMap_cons, bytes_append] at hi
      obtain ⟨q, start, hmem, hq⟩ := ih (n := n + p.size) (by omega) (by omega)
      exact ⟨q, start, List.mem_cons_of_mem _ hmem, hq⟩

section Source

variable {source : String} (hsize : source.utf8ByteSize < Span.offsetCount) {p q : Piece}
  {start start' : Nat} (hp : (p, start) ∈ locate 0 (split source.toList))
  (hq : (q, start') ∈ locate 0 (split source.toList))

include hsize hp

/-- Neither end of a piece wraps around, so its `span` is where it stands. -/
theorem span_of_mem_locate : p.span start = ⟨start, start + p.size⟩ := by
  have hle := add_size_le_of_mem_locate hp
  rw [bytes_toList] at hle
  rw [span, Span.between, Nat.mod_eq_of_lt (by omega), Nat.mod_eq_of_lt (by omega)]

/-- A piece stands where `locate` puts it, so that it is cut off between two characters. -/
theorem covers_of_mem_locate : (p.span start).Covers source (String.ofList p.text) := by
  rw [span_of_mem_locate hsize hp]
  obtain ⟨before, c, rest, hcs, rfl, rfl⟩ := next_of_mem_locate hp
  refine ⟨String.ofList before, String.ofList (next c rest).2, ?_, ?_, ?_⟩
  · rw [← String.toList_inj, String.toList_append, String.toList_append, String.toList_ofList,
      String.toList_ofList, String.toList_ofList, List.append_assoc, (next_spec c rest).1, hcs]
  · rw [utf8ByteSize_ofList, Nat.zero_add]
  · rw [utf8ByteSize_ofList, utf8ByteSize_ofList, Nat.zero_add]
    rfl

include hq

/-- Two pieces are `Apart`, unless they are the same one at the same place (`pairwise_locate`). -/
theorem apart_of_mem_locate :
    (p.span start).Apart (q.span start') ∨ p = q ∧ start = start' := by
  rw [span_of_mem_locate hsize hp, span_of_mem_locate hsize hq]
  by_cases heq : (p, start) = (q, start')
  · obtain ⟨rfl, rfl⟩ := Prod.mk.inj heq
    exact .inr ⟨rfl, rfl⟩
  · left
    have hpairwise : (locate 0 (split source.toList)).Pairwise
        fun x y => x.2 + x.1.size ≤ y.2 ∨ y.2 + y.1.size ≤ x.2 :=
      (pairwise_locate 0 _).imp .inl
    have hsymm : Std.Symm fun x y : Piece × Nat =>
        x.2 + x.1.size ≤ y.2 ∨ y.2 + y.1.size ≤ x.2 := ⟨fun _ _ h => h.symm⟩
    exact hpairwise.forall hp hq heq

end Source

/-! ## Comments and errors -/

/-- All that `next` cuts off: a blank, a comment, a lexeme, an unclosed string, or a character that
starts nothing. -/
theorem next_cases (c : Char) (rest : List Char) :
    (isBlank c ∧ (next c rest).1 = .blank c) ∨ (∃ more, c = '/' ∧ rest = '/' :: more) ∨
      (∃ l, (next c rest).1 = .lexeme l) ∨ (∃ body, (next c rest).1 = .unclosed body) ∨
      (next c rest).1 = .stray c := by
  -- what starts no pair is a symbol of one character, or stray
  have hsingle : (∃ l, single c = .lexeme l) ∨ single c = .stray c := by
    unfold single
    split
    · exact .inl ⟨_, rfl⟩
    · exact .inr rfl
  unfold next
  split
  next hblank => exact .inl ⟨hblank, rfl⟩
  right
  split
  · exact .inr (.inl ⟨_, rfl⟩)
  split
  · right; left
    unfold number
    split
    · split <;> exact ⟨_, rfl⟩
    · exact ⟨_, rfl⟩
  split
  · right
    unfold quoted
    split
    · exact .inr (.inl ⟨_, rfl⟩)
    · exact .inl ⟨_, rfl⟩
  split
  · exact .inl ⟨_, rfl, rfl⟩
  right
  cases rest with
  | nil => exact hsingle.imp_right .inr
  | cons d more =>
    rw [symbol]
    split
    · exact .inl ⟨_, rfl⟩
    · exact hsingle.imp_right .inr

/-- Only the first case of `next_cases` gives a blank. -/
theorem isBlank_of_next_eq_blank {c d : Char} {rest : List Char} (h : (next c rest).1 = .blank d) :
    isBlank d := by
  rcases next_cases c rest with ⟨hblank, heq⟩ | ⟨more, rfl, rfl⟩ | ⟨l, heq⟩ | ⟨body, heq⟩ | heq
  · rw [heq] at h
    cases h
    exact hblank
  · cases h
  all_goals
    rw [heq] at h
    cases h

/-- A comment goes up to the line feed, and by `next_cases` only two slashes start one. -/
theorem of_next_eq_comment {c : Char} {rest body : List Char}
    (h : (next c rest).1 = .comment body) :
    '\n' ∉ body ∧ ∀ d ∈ (next c rest).2.head?, d = '\n' := by
  -- only two slashes give a comment
  obtain ⟨more, rfl, rfl⟩ : ∃ more, c = '/' ∧ rest = '/' :: more := by
    rcases next_cases c rest with ⟨_, heq⟩ | hslashes | ⟨l, heq⟩ | ⟨body, heq⟩ | heq
    · rw [heq] at h
      cases h
    · exact hslashes
    all_goals
      rw [heq] at h
      cases h
  have hnext : next '/' ('/' :: more)
      = (.comment (more.takeWhile (· != '\n')), more.dropWhile (· != '\n')) := rfl
  rw [hnext] at h ⊢
  cases h
  constructor
  · intro hmem
    simpa using List.all_eq_true.mp List.all_takeWhile _ hmem
  · intro d hd
    have hhead := List.head?_dropWhile_not (· != '\n') more
    rw [show (more.dropWhile (· != '\n')).head? = some d from hd] at hhead
    simpa using hhead

/-- `error?` has an error for an integer that is too large, or else for a piece that is neither a
lexeme nor a comment. -/
theorem of_error?_eq_some {p : Piece} {e : SyntaxError} (h : p.error? = some e) :
    (∃ digits, p = .lexeme (.integer digits) ∧ e = .integerTooLarge digits ∧
      Integer.read? digits = none) ∨
    ∀ l, p ≠ .lexeme l ∧ ∀ body, p ≠ .comment body := by
  unfold error? at h
  split at h
  next digits =>
    split at h
    next hread =>
      obtain rfl := Option.some.inj h
      exact .inl ⟨digits, rfl, rfl, Option.isNone_iff_eq_none.mp hread⟩
    next => cases h
  next => exact .inr fun l => ⟨Piece.noConfusion, fun body => Piece.noConfusion⟩
  next => exact .inr fun l => ⟨Piece.noConfusion, fun body => Piece.noConfusion⟩
  all_goals cases h

end Piece

/-- The errors of a source are those of its pieces (`errors_scan`). -/
theorem mem_errors_scan {source : String} {d : Diagnostic} :
    d ∈ (scan source).errors ↔
      ∃ p start e, (p, start) ∈ Piece.locate 0 (Piece.split source.toList) ∧
        p.error? = some e ∧ d = e.diagnostic (p.span start) := by
  rw [errors_scan]
  constructor
  · intro h
    obtain ⟨⟨p, start⟩, hmem, hpiece⟩ := List.mem_filterMap.mp h
    obtain ⟨e, he, rfl⟩ := Option.map_eq_some_iff.mp hpiece
    exact ⟨p, start, e, hmem, he, rfl⟩
  · rintro ⟨p, start, e, hmem, he, rfl⟩
    exact List.mem_filterMap.mpr ⟨(p, start), hmem, Option.map_eq_some_iff.mpr ⟨e, he, rfl⟩⟩

/-! ## Lexemes in a source -/

/-- At the offset the source has a lexeme of the lexical grammar. -/
def Lexeme.StandsAt (source : String) (offset : Nat) (l : Lexeme) : Prop :=
  l.WellFormed ∧ ∃ before after, source = before ++ l.spelling ++ after ∧
    before.utf8ByteSize = offset

/-- What `StandsAt` an offset `Opens` the text there. -/
theorem Lexeme.StandsAt.opens {source : String} {offset : Nat} {l : Lexeme}
    (h : l.StandsAt source offset) {before rest : List Char}
    (hsource : source.toList = before ++ rest) (hoffset : offset = Piece.bytes before) :
    l.Opens rest := by
  obtain ⟨hformed, before', after, rfl, hbefore⟩ := h
  -- the text before a boundary is told by its size
  have hsame : before' = String.ofList before := by
    have hbytes : before'.toByteArray ++ (l.spelling ++ after).toByteArray
        = (String.ofList before).toByteArray ++ (String.ofList rest).toByteArray := by
      rw [← String.toByteArray_append, ← String.toByteArray_append, ← String.ofList_append,
        ← hsource, String.ofList_toList, String.append_assoc]
    refine String.toByteArray_inj.mp (ByteArray.append_inj_left hbytes ?_)
    rw [String.size_toByteArray, String.size_toByteArray, Piece.utf8ByteSize_ofList, hbefore,
      hoffset]
  rw [hsame, String.toList_append, String.toList_append, String.toList_ofList,
    List.append_assoc] at hsource
  exact ⟨hformed, after.toList, List.append_cancel_left hsource⟩

/-! ## Scans -/

/-- The range is a comment: two slashes and what follows them up to the end of the line. -/
structure Span.IsComment (source : String) (s : Span) : Prop where
  slashes : (octets source)[s.start]? = some 0x2f ∧ (octets source)[s.start + 1]? = some 0x2f
  behind : s.start + 2 ≤ s.stop
  line : ∀ i, s.Contains i → (octets source)[i]? ≠ some 0x0a
  ends : s.stop = source.utf8ByteSize ∨ (octets source)[s.stop]? = some 0x0a

/-- The bytes that separate lexemes: space, tab, line feed, form feed, carriage return. -/
def blankOctets : List UInt8 := [0x20, 0x09, 0x0a, 0x0c, 0x0d]

/-- The scan of a source of which it loses nothing. -/
structure Scan.Lossless (source : String) (s : Scan) : Prop where
  /-- The end of the source is the last token and no other one. -/
  ends : ∃ ts, s.tokens = ts ++ [⟨.eof, .empty source.utf8ByteSize⟩] ∧ ∀ t ∈ ts, t.lexeme ≠ .eof
  /-- Tokens stand one behind the other. -/
  ordered : s.tokens.Pairwise fun t u => t.span.stop ≤ u.span.start
  nonempty : ∀ t ∈ s.tokens, t.lexeme ≠ .eof → t.span.start < t.span.stop
  /-- A token is spelled by what the source has at its place. -/
  spelled : ∀ t ∈ s.tokens, t.span.Covers source t.lexeme.spelling
  /-- No other lexeme that stands there is as long. -/
  longest : ∀ t ∈ s.tokens, t.lexeme ≠ .eof → t.lexeme.WellFormed ∧
    ∀ l, l.StandsAt source t.span.start →
      l = t.lexeme ∨ l.spelling.length < t.lexeme.spelling.length
  /-- A byte that is in no token is a blank, or in a comment, or reported. -/
  complete : ∀ i < source.utf8ByteSize, (∃ t ∈ s.tokens, t.span.Contains i) ∨
    (∃ b ∈ blankOctets, (octets source)[i]? = some b) ∨
    (∃ c : Span, c.IsComment source ∧ c.Contains i ∧ (∀ t ∈ s.tokens, c.Apart t.span) ∧
      ∀ d ∈ s.errors, c.Apart d.span) ∨
    ∃ d ∈ s.errors, d.span.Contains i
  /-- What is reported is an integer that is too large, or starts where no lexeme does. -/
  justified : ∀ d ∈ s.errors,
    (∃ t ∈ s.tokens, ∃ digits, t.lexeme = .integer digits ∧ Integer.read? digits = none ∧
      d = (SyntaxError.integerTooLarge digits).diagnostic t.span) ∨
    ∀ l : Lexeme, ¬ l.StandsAt source d.span.start
  /-- An error and a token overlap only if they are about the same integer. -/
  apart : ∀ d ∈ s.errors, ∀ t ∈ s.tokens, d.span.Apart t.span ∨
    ∃ digits, t.lexeme = .integer digits ∧
      d = (SyntaxError.integerTooLarge digits).diagnostic t.span

/-- Two slashes and the rest of the line are what `IsComment` asks for. -/
theorem Span.Covers.isComment {s : Span} {source : String} {body : List Char}
    (h : s.Covers source (String.ofList ('/' :: '/' :: body))) (hline : '\n' ∉ body)
    (hends : s.stop = source.utf8ByteSize ∨ (octets source)[s.stop]? = some 0x0a) :
    s.IsComment source := by
  have hsize : (String.ofList ('/' :: '/' :: body)).utf8ByteSize = Piece.bytes body + 2 := by
    rw [Piece.utf8ByteSize_ofList]
    show 1 + (1 + Piece.bytes body) = _
    omega
  -- a slash is encoded by one byte
  have hoctets : octets (String.ofList ('/' :: '/' :: body))
      = 0x2f :: 0x2f :: body.flatMap String.utf8EncodeChar := by
    rw [octets_ofList]
    rfl
  have hlength : s.stop = s.start + (Piece.bytes body + 2) := by
    obtain ⟨before, after, -, hstart, hstop⟩ := h
    omega
  refine ⟨⟨?_, ?_⟩, by omega, ?_, hends⟩
  · have hfirst := h.getElem?_octets (k := 0) (by omega)
    rwa [hoctets] at hfirst
  · have hsecond := h.getElem?_octets (k := 1) (by omega)
    rwa [hoctets] at hsecond
  · rintro i ⟨hlow, hhigh⟩ hbyte
    obtain ⟨k, rfl⟩ := Nat.exists_eq_add_of_le hlow
    have hinside := h.getElem?_octets (k := k) (by omega)
    rw [hbyte] at hinside
    refine lineFeed_not_mem_octets ?_ (List.mem_of_getElem? hinside.symm)
    simpa using hline

/-- Where `cs` ends the source goes on with a line feed, or not at all. -/
theorem lineFeed_or_end {source : String} {cs rest : List Char}
    (hsource : source.toList = cs ++ rest) (hrest : ∀ c ∈ rest.head?, c = '\n') :
    Piece.bytes cs = source.utf8ByteSize ∨ (octets source)[Piece.bytes cs]? = some 0x0a := by
  obtain rfl : source = String.ofList (cs ++ rest) := by rw [← hsource, String.ofList_toList]
  cases rest with
  | nil => exact .inl (by rw [Piece.utf8ByteSize_ofList, List.append_nil])
  | cons c more =>
    obtain rfl := hrest c rfl
    right
    have hlength := length_octets (String.ofList cs)
    rw [Piece.utf8ByteSize_ofList] at hlength
    rw [String.ofList_append, octets_append, List.getElem?_append_right (by omega), hlength,
      Nat.sub_self, octets_ofList]
    rfl

section Source

variable {source : String} (hsize : source.utf8ByteSize < Span.offsetCount)

include hsize

/-- The end of a source that is small enough does not wrap around. -/
theorem span_eof : Span.between source.utf8ByteSize source.utf8ByteSize
    = .empty source.utf8ByteSize := by
  rw [Span.between, Nat.mod_eq_of_lt hsize]
  rfl

/-- A piece is `Apart` from every token but its own. -/
theorem apart_token {p : Piece} {start : Nat}
    (hp : (p, start) ∈ Piece.locate 0 (Piece.split source.toList)) {t : Token}
    (ht : t ∈ (scan source).tokens) :
    (p.span start).Apart t.span ∨ p = .lexeme t.lexeme ∧ t.span = p.span start := by
  rcases mem_tokens_scan ht with ⟨l, start', hl, rfl⟩ | rfl
  · rcases Piece.apart_of_mem_locate hsize hp hl with hapart | ⟨rfl, rfl⟩
    · exact .inl hapart
    · exact .inr ⟨rfl, rfl⟩
  · have hle := Piece.add_size_le_of_mem_locate hp
    rw [Piece.bytes_toList] at hle
    left
    show (p.span start).Apart (Span.between _ _)
    rw [span_eof hsize, Piece.span_of_mem_locate hsize hp]
    exact .inl hle

/-- The place of a piece that is a comment `IsComment`: it stops where the line does
(`of_next_eq_comment`). -/
theorem isComment_of_mem_locate {body : List Char} {start : Nat}
    (hp : (.comment body, start) ∈ Piece.locate 0 (Piece.split source.toList)) :
    ((Piece.comment body).span start).IsComment source := by
  have hcovers := Piece.covers_of_mem_locate hsize hp
  obtain ⟨before, c, rest, hcs, hstart, hnext⟩ := Piece.next_of_mem_locate hp
  obtain ⟨hline, hend⟩ := Piece.of_next_eq_comment hnext
  refine hcovers.isComment hline ?_
  have htaken := (Piece.next_spec c rest).1
  rw [hnext] at htaken
  -- the comment stops where its text does
  have hstop : ((Piece.comment body).span start).stop
      = Piece.bytes (before ++ (Piece.comment body).text) := by
    rw [Piece.span_of_mem_locate hsize hp, Piece.bytes_append, hstart, Nat.zero_add]
    rfl
  rw [hstop]
  refine lineFeed_or_end ?_ hend
  rw [List.append_assoc, htaken, hcs]

/-- A blank is one byte, and that byte is one of `blankOctets`. -/
theorem exists_blank_of_mem_locate {c : Char} {start : Nat}
    (hp : (.blank c, start) ∈ Piece.locate 0 (Piece.split source.toList)) :
    ∃ b ∈ blankOctets, (octets source)[start]? = some b ∧ (Piece.blank c).size = 1 := by
  have hcovers := Piece.covers_of_mem_locate hsize hp
  obtain ⟨before, d, rest, -, -, hnext⟩ := Piece.next_of_mem_locate hp
  have hblank := Piece.isBlank_of_next_eq_blank hnext
  have hfirst := hcovers.getElem?_octets (k := 0)
    (by rw [Piece.utf8ByteSize_ofList]; exact Char.utf8Size_pos c)
  rw [Piece.span_of_mem_locate hsize hp, octets_ofList] at hfirst
  replace hfirst : (octets source)[start]? = _ := hfirst
  simp only [Piece.isBlank, Bool.or_eq_true, beq_iff_eq] at hblank
  rcases hblank with (((rfl | rfl) | rfl) | rfl) | rfl
  all_goals exact ⟨_, by decide, hfirst, rfl⟩

/-- Where a lexeme stands, the piece there is a lexeme that is no shorter, or a comment
(`Piece.next_of_opens`). -/
theorem piece_of_standsAt {p : Piece} {start : Nat}
    (hp : (p, start) ∈ Piece.locate 0 (Piece.split source.toList)) {l : Lexeme}
    (h : l.StandsAt source (p.span start).start) :
    p.TakesAtLeast l ∨ ∃ body, p = .comment body := by
  rw [Piece.span_of_mem_locate hsize hp] at h
  obtain ⟨before, c, rest, hcs, hstart, rfl⟩ := Piece.next_of_mem_locate hp
  refine Piece.next_of_opens (h.opens hcs ?_)
  rw [← Nat.zero_add (Piece.bytes before)]
  exact hstart

/-- Every error is an `integerTooLarge`, or starts where no lexeme does. -/
theorem error_justified {d : Diagnostic} (hd : d ∈ (scan source).errors) :
    (∃ t ∈ (scan source).tokens, ∃ digits, t.lexeme = .integer digits ∧
      Integer.read? digits = none ∧ d = (SyntaxError.integerTooLarge digits).diagnostic t.span) ∨
    ∀ l : Lexeme, ¬ l.StandsAt source d.span.start := by
  obtain ⟨p, start, e, hp, he, rfl⟩ := mem_errors_scan.mp hd
  rcases Piece.of_error?_eq_some he with ⟨digits, rfl, rfl, hread⟩ | hother
  · left
    exact ⟨_, mem_tokens_of_mem_locate hp, digits, rfl, hread, rfl⟩
  · right
    intro l hl
    rcases piece_of_standsAt hsize hp hl with ⟨m, hm, -⟩ | ⟨body, hbody⟩
    · exact (hother m).1 hm
    · exact (hother l).2 body hbody

/-- An error and a token are `Apart`, unless they are about the same integer. -/
theorem error_apart {d : Diagnostic} (hd : d ∈ (scan source).errors) {t : Token}
    (ht : t ∈ (scan source).tokens) :
    d.span.Apart t.span ∨ ∃ digits, t.lexeme = .integer digits ∧
      d = (SyntaxError.integerTooLarge digits).diagnostic t.span := by
  obtain ⟨p, start, e, hp, he, rfl⟩ := mem_errors_scan.mp hd
  rcases apart_token hsize hp ht with hapart | ⟨hpiece, hspan⟩
  · exact .inl hapart
  · rcases Piece.of_error?_eq_some he with ⟨digits, rfl, rfl, -⟩ | hother
    · exact .inr ⟨digits, (Piece.lexeme.inj hpiece).symm, by rw [hspan]⟩
    · exact absurd hpiece (hother _).1

/-- One case for each kind of piece that the byte can lie in (`exists_mem_locate_of_lt`). -/
theorem byte_accounted {i : Nat} (hi : i < source.utf8ByteSize) :
    (∃ t ∈ (scan source).tokens, t.span.Contains i) ∨
    (∃ b ∈ blankOctets, (octets source)[i]? = some b) ∨
    (∃ c : Span, c.IsComment source ∧ c.Contains i ∧
      (∀ t ∈ (scan source).tokens, c.Apart t.span) ∧ ∀ d ∈ (scan source).errors, c.Apart d.span) ∨
    ∃ d ∈ (scan source).errors, d.span.Contains i := by
  obtain ⟨p, start, hp, hlow, hhigh⟩ :
      ∃ p start, (p, start) ∈ Piece.locate 0 (Piece.split source.toList) ∧ start ≤ i ∧
        i < start + p.size := by
    refine Piece.exists_mem_locate_of_lt (Nat.zero_le i) ?_
    rwa [Piece.flatMap_text_split, Piece.bytes_toList, Nat.zero_add]
  have hcontains : (p.span start).Contains i := by
    rw [Piece.span_of_mem_locate hsize hp]
    exact ⟨hlow, hhigh⟩
  -- pieces with an error are reported at the range they take
  have hreported {e : SyntaxError} (he : p.error? = some e) :
      ∃ d ∈ (scan source).errors, d.span.Contains i :=
    ⟨e.diagnostic (p.span start), mem_errors_scan.mpr ⟨p, start, e, hp, he, rfl⟩, hcontains⟩
  cases p with
  | lexeme l =>
    left
    exact ⟨_, mem_tokens_of_mem_locate hp, hcontains⟩
  | blank c =>
    right; left
    obtain ⟨b, hb, hbyte, hone⟩ := exists_blank_of_mem_locate hsize hp
    obtain rfl : i = start := by omega
    exact ⟨b, hb, hbyte⟩
  | comment body =>
    right; right; left
    refine ⟨_, isComment_of_mem_locate hsize hp, hcontains, fun t ht => ?_, fun d hd => ?_⟩
    · rcases apart_token hsize hp ht with hapart | ⟨hpiece, -⟩
      · exact hapart
      · cases hpiece
    · obtain ⟨q, start', e, hq, he, rfl⟩ := mem_errors_scan.mp hd
      rcases Piece.apart_of_mem_locate hsize hp hq with hapart | ⟨rfl, -⟩
      · exact hapart
      · cases he
  | unclosed body => exact .inr (.inr (.inr (hreported rfl)))
  | stray c => exact .inr (.inr (.inr (hreported rfl)))

/-- A token is spelled by what the source has at its place, as its piece is
(`Piece.covers_of_mem_locate`). -/
theorem covers_of_mem_tokens {t : Token} (ht : t ∈ (scan source).tokens) :
    t.span.Covers source t.lexeme.spelling := by
  rcases mem_tokens_scan ht with ⟨l, start, hl, rfl⟩ | rfl
  · have hcovers := Piece.covers_of_mem_locate hsize hl
    rwa [Piece.text, String.ofList_toList] at hcovers
  · show (Span.between _ _).Covers source ""
    rw [span_eof hsize]
    exact ⟨source, "", by rw [String.append_empty, String.append_empty], rfl, rfl⟩

/-- A token other than the end is the longest lexeme that `StandsAt` its place, and not empty. -/
theorem longest_of_mem_tokens {t : Token} (ht : t ∈ (scan source).tokens)
    (hne : t.lexeme ≠ .eof) :
    t.span.start < t.span.stop ∧ t.lexeme.WellFormed ∧
      ∀ l, l.StandsAt source t.span.start →
        l = t.lexeme ∨ l.spelling.length < t.lexeme.spelling.length := by
  rcases mem_tokens_scan ht with ⟨l, start, hl, rfl⟩ | rfl
  · refine ⟨?_, Piece.wellFormed_of_mem_split (mem_locate_of_mem hl), fun m hm => ?_⟩
    · obtain ⟨before, c, rest, -, -, hnext⟩ := Piece.next_of_mem_locate hl
      have hpos := Piece.size_next_pos c rest
      rw [hnext] at hpos
      show (Piece.span _ start).start < (Piece.span _ start).stop
      rw [Piece.span_of_mem_locate hsize hl]
      exact Nat.lt_add_of_pos_right hpos
    -- the piece at this place is a lexeme, so it is not a comment
    · rcases piece_of_standsAt hsize hl hm with ⟨m', hpiece, hshorter⟩ | ⟨body, hpiece⟩
      · obtain rfl := Piece.lexeme.inj hpiece
        exact hshorter
      · cases hpiece
  · exact absurd rfl hne

end Source

/-- The scan of a source of less than 4 GiB comes to its end, without a `Scanner.Fault`: all the
slices it takes start and end between characters. It loses nothing of the source, and whatever it
cuts off is cut off between characters. -/
theorem scan_loses_nothing {source : String} (hsize : source.utf8ByteSize < 2 ^ 32) :
    Scanner.tokenize source = .ok (scan source) ∧
    (∀ x ∈ Piece.locate 0 (Piece.split source.toList),
      (x.1.span x.2).Covers source (String.ofList x.1.text)) ∧
    (scan source).Lossless source := by
  have hends : Scanner.tokenize source = .ok (scan source) := by
    rw [Scanner.tokenize_eq, scan_eq_ofPieces]
  refine ⟨hends, fun x hx => Piece.covers_of_mem_locate hsize hx, ?_⟩
  constructor
  case ends =>
    have htokens : (scan source).tokens = (Piece.locate 0 (Piece.split source.toList)).filterMap
        Piece.token? ++ [⟨.eof, .empty source.utf8ByteSize⟩] := by
      rw [← span_eof hsize]
      exact tokens_scan source
    refine ⟨_, htokens, ?_⟩
    have hends := endsOnce_scan source
    rw [htokens] at hends
    exact hends.ne_eof (List.cons_ne_nil _ _)
  case ordered => exact (ordered_scan hsize).pairwise
  case nonempty => exact fun t ht hne => (longest_of_mem_tokens hsize ht hne).1
  case spelled => exact fun t ht => covers_of_mem_tokens hsize ht
  case longest => exact fun t ht hne => (longest_of_mem_tokens hsize ht hne).2
  case complete => exact fun i hi => byte_accounted hsize hi
  case justified => exact fun d hd => error_justified hsize hd
  case apart => exact fun d hd t ht => error_apart hsize hd ht

/-- A point without a fraction, a string and a comment with characters of two bytes, half an
operator, and an integer that is too large. -/
theorem scan_loses_nothing_sample :
    "1.\"é\"//ü\n&99999999999999999999".utf8ByteSize < 2 ^ 32 ∧
      (scan "1.\"é\"//ü\n&99999999999999999999").tokens.map (fun t => (t.lexeme.spelling, t.span))
        = [("1", ⟨0, 1⟩), ("\"é\"", ⟨2, 6⟩), ("99999999999999999999", ⟨12, 32⟩), ("", ⟨32, 32⟩)] ∧
      (scan "1.\"é\"//ü\n&99999999999999999999").errors.map Diagnostic.span
        = [⟨1, 2⟩, ⟨11, 12⟩, ⟨12, 32⟩] ∧
      (scan "1.\"é\"//ü\n&99999999999999999999").Lossless "1.\"é\"//ü\n&99999999999999999999" :=
  ⟨by decide, by decide +kernel, by decide +kernel, (scan_loses_nothing (by decide)).2.2⟩

end SimpleLang
