import SimpleLang.Proofs.Parser.ErrorOrder

/-!
# Where a report points

A diagnostic counts in bytes, its report has the same numbers, and a renderer counts in characters.
So a report points at the error exactly if no character before the error takes more than one byte.
Otherwise it points behind the error.

* `Renderer.CountsCharacters`: all that is assumed of a renderer. What it takes for the end of a
  line is left open.
* `Location.ofIndex_before`: later characters have later places, so that a wrong index never shows
  the right place.
-/

namespace SimpleLang

namespace Location

def Before (l m : Location) : Prop :=
  l.line < m.line ∨ l.line = m.line ∧ l.column < m.column

namespace Before

variable {l m k : Location}

theorem trans (hfirst : l.Before m) (hsecond : m.Before k) : l.Before k := by
  unfold Before at *
  omega

theorem ne (h : l.Before m) : l ≠ m := by
  rintro rfl
  unfold Before at h
  omega

end Before

/-- One character further is one column or one line further. -/
theorem before_step (l : Location) (startsLine : Bool) : l.Before (l.step startsLine) := by
  cases startsLine with
  | true => exact .inl (Nat.lt_succ_self _)
  | false => exact .inr ⟨rfl, Nat.lt_succ_self _⟩

/-- Wherever lines start, `Location.ofIndex` goes on with the index. -/
theorem ofIndex_before (startsLine : Nat → Bool) {i j : Nat} (hij : i < j) :
    (ofIndex startsLine i).Before (ofIndex startsLine j) := by
  induction j with
  | zero => exact absurd hij (Nat.not_lt_zero i)
  | succ j ih =>
    have hstep := before_step (ofIndex startsLine j) (startsLine (j + 1))
    rcases Nat.lt_succ_iff_lt_or_eq.mp hij with hlt | rfl
    · exact (ih hlt).trans hstep
    · exact hstep

end Location

/-! ## Bytes and characters -/

/-- No character takes less than one byte, so the numbers agree only if none takes more. -/
theorem Piece.length_eq_bytes_iff (cs : List Char) :
    cs.length = bytes cs ↔ ∀ c ∈ cs, c.utf8Size = 1 := by
  induction cs with
  | nil => exact iff_of_true rfl (List.forall_mem_nil _)
  | cons c cs ih =>
    have hc := Char.utf8Size_pos c
    have hcs := length_le_bytes cs
    rw [List.forall_mem_cons, ← ih, List.length_cons, bytes_cons]
    omega

/-- Between the characters of a source and before its end, there is a next character. -/
theorem CharBoundary.exists_next {source : String} {offset : Nat} (h : CharBoundary source offset)
    (hlt : offset < source.utf8ByteSize) :
    ∃ before c after, source.toList = before ++ c :: after ∧ Piece.bytes before = offset := by
  obtain ⟨before, rest, rfl, rfl⟩ := h
  cases hrest : rest.toList with
  | nil =>
    rw [String.toList_eq_nil_iff.mp hrest, String.append_empty] at hlt
    exact absurd hlt (Nat.lt_irrefl _)
  | cons c after =>
    refine ⟨before.toList, c, after, ?_, Piece.bytes_toList before⟩
    rw [String.toList_append, hrest]

/-! ## Renderers -/

/-- The renderer reads the offsets of a report as numbers of characters: the place it shows is that
of the character with the number `Report.offset`, and it shows one if the report lies within the
text. -/
structure Renderer.CountsCharacters (r : Renderer) : Prop where
  shown {report : Report} {source : String} {l : Location} :
    r.shows report source = some l → l = r.place source report.offset
  present {report : Report} {source : String} :
    report.offset < source.toList.length → report.label.start ≤ report.label.stop →
      report.label.stop ≤ source.toList.length → (r.shows report source).isSome

/-- The renderer that ends lines at line feeds is one that counts characters. -/
theorem Renderer.countsCharacters_lineFeeds : lineFeeds.CountsCharacters where
  shown {report source l} h := by
    simp only [lineFeeds] at h
    split at h
    · cases h
    · exact (Option.some.inj h).symm
  present {report source} hoffset hlabel hstop := by
    simp only [lineFeeds, List.size_toArray]
    rw [if_neg (by omega)]
    rfl

section Shown

variable {r : Renderer} (hr : r.CountsCharacters) {d : Diagnostic} {source file : String}

include hr

/-- The number that is read from the start of the span is never too small. It is right if it counts
as many bytes as characters. -/
theorem eq_place_or_before {before : List Char} (hstart : Piece.bytes before = d.span.start)
    {l : Location} (h : r.shows (d.report file) source = some l) :
    (∀ b ∈ before, b.utf8Size = 1) ∧ l = r.place source before.length ∨
      (∃ b ∈ before, 1 < b.utf8Size) ∧ (r.place source before.length).Before l := by
  have hl : l = r.place source d.span.start := hr.shown h
  rw [← Piece.length_eq_bytes_iff, hl, ← hstart]
  rcases Nat.lt_or_eq_of_le (Piece.length_le_bytes before) with hlt | heq
  · right
    refine ⟨?_, Location.ofIndex_before _ hlt⟩
    by_contra! hsingle
    have hone : ∀ b ∈ before, b.utf8Size = 1 := fun b hb =>
      Nat.le_antisymm (hsingle b hb) (Char.utf8Size_pos b)
    exact Nat.ne_of_lt hlt ((Piece.length_eq_bytes_iff before).mpr hone)
  · exact .inl ⟨heq, by rw [← heq]⟩

end Shown

/-- Let a renderer count characters. An error that starts before the end of a source of less than
4 GiB starts at a character, and the report points at this character if no character of the source
takes more than one byte. In general a place is shown if the range of the error does not leave the
source when it is counted in characters. This place is right exactly if no character before the
error takes more than one byte, and lies further on if one does. -/
theorem location_of_parse_error {r : Renderer} (hr : r.CountsCharacters) {source : String}
    {limit : Nat} {errors : List Diagnostic} {d : Diagnostic}
    (h : Node.parse source limit = .error errors) (hd : d ∈ errors)
    (hstart : d.span.start < source.utf8ByteSize) (file : String) :
    (source.utf8ByteSize < 2 ^ 32 →
      (∃ before c after, source.toList = before ++ c :: after ∧
        Piece.bytes before = d.span.start ∧
        ((∀ b ∈ source.toList, b.utf8Size = 1) →
          r.shows (d.report file) source = some (r.place source before.length))) ∧
      (d.span.start < source.toList.length → d.span.stop ≤ source.toList.length →
        (r.shows (d.report file) source).isSome)) ∧
    ∀ before c after, source.toList = before ++ c :: after →
      Piece.bytes before = d.span.start →
      ∀ l, r.shows (d.report file) source = some l →
        (∀ b ∈ before, b.utf8Size = 1) ∧ l = r.place source before.length ∨
          (∃ b ∈ before, 1 < b.utf8Size) ∧ (r.place source before.length).Before l := by
  refine ⟨fun hsize => ?_, fun before c after _ hbefore l hl => eq_place_or_before hr hbefore hl⟩
  have hinside := inside_of_parse_eq_error hsize h hd
  have hpresent (hlt : d.span.start < source.toList.length)
      (hstop : d.span.stop ≤ source.toList.length) : (r.shows (d.report file) source).isSome :=
    hr.present hlt hinside.start_le_stop hstop
  refine ⟨?_, hpresent⟩
  obtain ⟨before, c, after, htext, hbefore⟩ := hinside.start.exists_next hstart
  refine ⟨before, c, after, htext, hbefore, fun hsingle => ?_⟩
  -- as many characters as bytes, so the range does not leave the source
  have hlength : source.toList.length = source.utf8ByteSize := by
    rw [← Piece.bytes_toList]
    exact (Piece.length_eq_bytes_iff _).mpr hsingle
  have hstop := hinside.stop_le
  obtain ⟨l, hl⟩ := Option.isSome_iff_exists.mp (hpresent (by omega) (by omega))
  rcases eq_place_or_before hr hbefore hl with ⟨-, rfl⟩ | ⟨⟨b, hb, hlong⟩, -⟩
  · exact hl
  · have hone := hsingle b (by rw [htext]; exact List.mem_append_left _ hb)
    omega

/-- The character of two bytes comes too late to move the place. -/
theorem location_of_parse_error_second_line :
    ∃ errors d, Node.parse "1;\n  $ // é" 8 = .error errors ∧ d ∈ errors ∧
      d.span.start < "1;\n  $ // é".utf8ByteSize ∧
      Renderer.lineFeeds.CountsCharacters ∧
      Renderer.lineFeeds.shows (d.report "a.simple") "1;\n  $ // é" = some ⟨2, 3⟩ := by
  have hspans : (scan "1;\n  $ // é").errors.map Diagnostic.span = [⟨5, 6⟩] := by decide +kernel
  obtain ⟨d, hscan, hspan⟩ := List.map_eq_singleton_iff.mp hspans
  have hparse := Node.parse_of_errors 8 (by rw [hscan]; exact List.cons_ne_nil d [])
  rw [hscan] at hparse
  have hd := List.mem_singleton_self d
  have hstart : d.span.start < "1;\n  $ // é".utf8ByteSize := by
    rw [hspan]
    decide
  have hcounts := Renderer.countsCharacters_lineFeeds
  obtain ⟨hpresent, hplace⟩ := location_of_parse_error hcounts hparse hd hstart "a.simple"
  obtain ⟨l, hl⟩ := Option.isSome_iff_exists.mp ((hpresent (by decide)).2
    (by rw [hspan]; decide +kernel) (by rw [hspan]; decide +kernel))
  refine ⟨[d], d, hparse, hd, hstart, hcounts, ?_⟩
  rcases hplace ['1', ';', '\n', ' ', ' '] '$' [' ', '/', '/', ' ', 'é'] (by decide +kernel)
    (by rw [hspan]; decide) l hl with ⟨-, rfl⟩ | ⟨⟨b, hb, hlong⟩, -⟩
  · rw [hl]
    decide +kernel
  -- all that stands before the error is ASCII
  · have hone := (Piece.length_eq_bytes_iff ['1', ';', '\n', ' ', ' ']).mp (by decide) b hb
    omega

/-- The error is on the second line in the first column. No renderer that counts characters shows
that, and `Renderer.lineFeeds` shows the third line. -/
theorem location_on_later_line :
    ∃ d, Node.parse "// ééé\n$\nx" 8 = .error [d] ∧
      d.span.start < "// ééé\n$\nx".utf8ByteSize ∧
      ∃ before after, "// ééé\n$\nx".toList = before ++ '$' :: after ∧
        Piece.bytes before = d.span.start ∧
        (∀ r : Renderer, r.CountsCharacters → ∀ file,
          r.shows (d.report file) "// ééé\n$\nx"
            ≠ some (r.place "// ééé\n$\nx" before.length)) ∧
        Renderer.lineFeeds.place "// ééé\n$\nx" before.length = ⟨2, 1⟩ ∧
        Renderer.lineFeeds.shows (d.report "a.simple") "// ééé\n$\nx" = some ⟨3, 2⟩ := by
  have hspans : (scan "// ééé\n$\nx").errors.map Diagnostic.span = [⟨10, 11⟩] := by decide +kernel
  obtain ⟨d, hscan, hspan⟩ := List.map_eq_singleton_iff.mp hspans
  have hparse := Node.parse_of_errors 8 (by rw [hscan]; exact List.cons_ne_nil d [])
  rw [hscan] at hparse
  have hbefore : Piece.bytes ['/', '/', ' ', 'é', 'é', 'é', '\n'] = d.span.start := by
    rw [hspan]
    decide
  refine ⟨d, hparse, by rw [hspan]; decide, ['/', '/', ' ', 'é', 'é', 'é', '\n'], ['\n', 'x'],
    by decide +kernel, hbefore, fun r hr file hshown => ?_, by decide +kernel, ?_⟩
  -- to be shown there, `é` would have to be a single byte
  · rcases eq_place_or_before hr hbefore hshown with ⟨hsingle, -⟩ | ⟨-, hlater⟩
    · exact absurd (hsingle 'é' (by decide)) (by decide)
    · exact absurd rfl hlater.ne
  · simp only [Renderer.lineFeeds, Diagnostic.report, hspan]
    decide +kernel

end SimpleLang
