import SimpleLang.Proofs.Tokens.Pieces

/-!
# Reading a source by its bytes

In a source `before ++ rest` the offset `Piece.bytes before` is that of the character `rest` starts
with. The lemmas below say what the routines that a `Scanner` reads with give at such an offset, and
that they end at another one: slices from one to another are possible (`slice_bytes`), and so are
the tests of what follows (`startsWith_bytes`, `SameKind.any_byte?`).

A loop over bytes passes offsets in between, within characters that take several bytes. There it
meets only bytes from `0x80` on, which tell no character of the language (`utf8EncodeChar_cases`).
So a kind of bytes is a kind of characters (`SameKind`), and the loop ends where a character starts
(`eatWhile_bytes`).
-/

namespace SimpleLang

/-! ## Bytes -/

/-- The bytes of a source. -/
def octets (source : String) : List UInt8 := source.toUTF8.data.toList

/-- The bytes of two texts are put one behind the other. -/
theorem octets_append (a b : String) : octets (a ++ b) = octets a ++ octets b := by
  simp only [octets, String.toUTF8_eq_toByteArray, String.toByteArray_append,
    ByteArray.data_append, Array.toList_append]

/-- Each character is encoded by itself. -/
theorem octets_ofList (cs : List Char) :
    octets (String.ofList cs) = cs.flatMap String.utf8EncodeChar := by
  rw [octets, String.toUTF8_eq_toByteArray, String.toByteArray_ofList, List.utf8Encode,
    List.toList_data_toByteArray]

/-- The size of a source is the number of its bytes. -/
theorem length_octets (source : String) : (octets source).length = source.utf8ByteSize := by
  rw [octets, String.toUTF8_eq_toByteArray, Array.length_toList]
  exact String.size_toByteArray

/-- A character is encoded by its code, or in bytes that encode no character by themselves, and of
which only the first one starts a character. -/
theorem utf8EncodeChar_cases (c : Char) :
    c.toNat < 0x80 ∧ String.utf8EncodeChar c = [c.toUInt8] ∨
      0x80 ≤ c.toNat ∧ (∀ b ∈ String.utf8EncodeChar c, 0x80 ≤ b) ∧
        ∃ b bs, String.utf8EncodeChar c = b :: bs ∧ 0xc0 ≤ b := by
  -- bytes are computed modulo 256, and none of these computations wraps around
  have hhigh (k : Nat) (hk : 0x80 ≤ k) (hlt : k < 0x100) : 0x80 ≤ UInt8.ofNat k := by
    rw [UInt8.le_iff_toNat_le, UInt8.toNat_ofNat']
    exact show 128 ≤ k % 256 by omega
  have hfirst (k : Nat) (hk : 0xc0 ≤ k) (hlt : k < 0x100) : 0xc0 ≤ UInt8.ofNat k := by
    rw [UInt8.le_iff_toNat_le, UInt8.toNat_ofNat']
    exact show 192 ≤ k % 256 by omega
  have hcode : c.toNat = c.val.toNat := rfl
  rw [String.utf8EncodeChar]
  split
  next hlow =>
    refine .inl ⟨by omega, ?_⟩
    rw [Char.toUInt8, UInt8.ofNat, UInt32.toUInt8]
    rfl
  next hlow =>
    right
    -- two, three or four bytes
    refine ⟨by omega, ?_⟩
    split
    · simp only [List.forall_mem_cons]
      exact ⟨⟨hhigh _ (by omega) (by omega), hhigh _ (by omega) (by omega), List.forall_mem_nil _⟩,
        _, _, rfl, hfirst _ (by omega) (by omega)⟩
    split
    · simp only [List.forall_mem_cons]
      exact ⟨⟨hhigh _ (by omega) (by omega), hhigh _ (by omega) (by omega),
        hhigh _ (by omega) (by omega), List.forall_mem_nil _⟩, _, _, rfl,
        hfirst _ (by omega) (by omega)⟩
    · simp only [List.forall_mem_cons]
      exact ⟨⟨hhigh _ (by omega) (by omega), hhigh _ (by omega) (by omega),
        hhigh _ (by omega) (by omega), hhigh _ (by omega) (by omega), List.forall_mem_nil _⟩,
        _, _, rfl, hfirst _ (by omega) (by omega)⟩

/-- `Piece.bytes` counts the bytes that characters are encoded in. -/
theorem Piece.length_flatMap_utf8EncodeChar (cs : List Char) :
    (cs.flatMap String.utf8EncodeChar).length = bytes cs := by
  rw [← octets_ofList, length_octets, utf8ByteSize_ofList]

namespace Scanner

open SimpleLang.Piece (bytes)

/-! ## Kinds of bytes and of characters -/

/-- The bytes of one kind encode the characters of the other. -/
structure SameKind (p : UInt8 → Bool) (q : Char → Bool) : Prop where
  low (c : Char) : c.toNat < 0x80 → p c.toUInt8 = q c
  /-- All the bytes of other characters are of the kind if these characters are. -/
  high (b : UInt8) (c : Char) : 0x80 ≤ b → 0x80 ≤ c.toNat → p b = q c

/-- The characters of a kind at the start of a text are encoded by the bytes of the kind at the
start of its encoding. -/
theorem SameKind.takeWhile {p : UInt8 → Bool} {q : Char → Bool} (h : SameKind p q)
    (cs : List Char) : (cs.flatMap String.utf8EncodeChar).takeWhile p =
      (cs.takeWhile q).flatMap String.utf8EncodeChar := by
  induction cs with
  | nil => rfl
  | cons c cs ih =>
    rw [List.flatMap_cons, List.takeWhile_cons]
    rcases utf8EncodeChar_cases c with ⟨hlow, hcode⟩ | ⟨hhigh, hall, b, bs, hcode, hb⟩
    · rw [hcode, List.singleton_append, List.takeWhile_cons, h.low c hlow]
      cases hq : q c with
      | true => simp only [if_true, List.flatMap_cons, hcode, ih, List.singleton_append]
      | false => rfl
    -- the bytes of a longer code are all of the kind, or its first one is not
    · cases hq : q c with
      | true =>
        have hof (b : UInt8) (hb : b ∈ String.utf8EncodeChar c) : p b = true :=
          (h.high b c (hall b hb) hhigh).trans hq
        rw [List.takeWhile_append_of_pos hof, ih]
        rfl
      | false =>
        have hnot : p b = false := (h.high b c (hall b (by simp [hcode])) hhigh).trans hq
        rw [hcode, List.cons_append, List.takeWhile_cons, hnot]
        rfl

/-- Below `0x80` there are few enough characters to try them all. From there on bytes and characters
have one `kind`. -/
theorem sameKind_of_forall {p : UInt8 → Bool} {q : Char → Bool} (kind : Bool)
    (hlow : ∀ n < 0x80, p (UInt8.ofNat n) = q (Char.ofNat n))
    (hbyte : ∀ b : UInt8, 0x80 ≤ b → p b = kind) (hchar : ∀ c : Char, 0x80 ≤ c.toNat → q c = kind) :
    SameKind p q where
  low c hc := by
    have hbyte : UInt8.ofNat c.toNat = c.toUInt8 := rfl
    rw [← hbyte, hlow c.toNat hc, Char.ofNat_toNat]
  high b c hb hc := (hbyte b hb).trans (hchar c hc).symm

/-- A character from `0x80` on is none of those that the language knows. -/
theorem ne_of_high {c : Char} (hc : 0x80 ≤ c.toNat) {d : Char} (hd : d.toNat < 0x80) : c ≠ d := by
  rintro rfl
  omega

/-- Blanks are below `0x80`, and so are digits and the characters of words. -/
theorem sameKind_isBlank : SameKind isBlank Piece.isBlank := by
  refine sameKind_of_forall false (by decide) (by decide +kernel) (fun c hc => ?_)
  simp only [Piece.isBlank, Bool.or_eq_false_iff, beq_eq_false_iff_ne]
  refine ⟨⟨⟨⟨?_, ?_⟩, ?_⟩, ?_⟩, ?_⟩ <;> exact ne_of_high hc (by decide)

/-- The last digit is `0x39`. -/
theorem isDigit_of_high {c : Char} (hc : 0x80 ≤ c.toNat) : c.isDigit = false := by
  have hcode : c.toNat = c.val.toNat := rfl
  have hnine : '9'.val.toNat = 57 := rfl
  simp only [Char.isDigit, ge_iff_le, UInt32.le_iff_toNat_le, Bool.and_eq_false_iff,
    decide_eq_false_iff_not]
  omega

/-- The last letter is `0x7a`. -/
theorem isAlpha_of_high {c : Char} (hc : 0x80 ≤ c.toNat) : c.isAlpha = false := by
  have hcode : c.toNat = c.val.toNat := rfl
  have hupper : 'Z'.val.toNat = 90 := rfl
  have hlower : 'z'.val.toNat = 122 := rfl
  simp only [Char.isAlpha, Char.isUpper, Char.isLower, ge_iff_le, UInt32.le_iff_toNat_le,
    Bool.or_eq_false_iff, Bool.and_eq_false_iff, decide_eq_false_iff_not]
  omega

theorem sameKind_isDigit : SameKind isDigit Char.isDigit :=
  sameKind_of_forall false (by decide) (by decide +kernel) fun _ => isDigit_of_high

theorem sameKind_startsWord : SameKind startsWord Piece.startsWord := by
  refine sameKind_of_forall false (by decide) (by decide +kernel) (fun c hc => ?_)
  rw [Piece.startsWord, isAlpha_of_high hc, beq_eq_false_iff_ne.mpr (ne_of_high hc (by decide))]
  rfl

theorem sameKind_continuesWord : SameKind continuesWord Piece.continuesWord := by
  refine sameKind_of_forall false (by decide) (by decide +kernel) (fun c hc => ?_)
  rw [Piece.continuesWord, Char.isAlphanum, isAlpha_of_high hc, isDigit_of_high hc,
    beq_eq_false_iff_ne.mpr (ne_of_high hc (by decide))]
  rfl

/-- A low character is told by its byte. -/
theorem sameKind_beq {d : Char} (hd : d.toNat < 0x80) : SameKind (· == d.toUInt8) (· == d) where
  low c hc := by
    have hiff : c.toUInt8 = d.toUInt8 ↔ c = d := by
      refine ⟨fun h => ?_, fun h => h ▸ rfl⟩
      have hcodes : c.toNat % 256 = d.toNat % 256 := congrArg UInt8.toNat h
      exact Char.ext (UInt32.toNat_inj.mp (show c.toNat = d.toNat by omega))
    rw [Bool.eq_iff_iff, beq_iff_eq, beq_iff_eq, hiff]
  high b c hb hc := by
    have hbyte : b ≠ d.toUInt8 := by
      rintro rfl
      have hle : 0x80 ≤ d.toNat % 256 := UInt8.le_iff_toNat_le.mp hb
      omega
    rw [beq_eq_false_iff_ne.mpr hbyte, beq_eq_false_iff_ne.mpr (ne_of_high hc hd)]

/-- The negation of `sameKind_beq`, as the search for a quote or a line end needs it. -/
theorem sameKind_bne {d : Char} (hd : d.toNat < 0x80) : SameKind (· != d.toUInt8) (· != d) where
  low c hc := congrArg Bool.not ((sameKind_beq hd).low c hc)
  high b c hb hc := congrArg Bool.not ((sameKind_beq hd).high b c hb hc)

/-! ## Reading at the start of a character -/

section Reading

variable {source : String} {before rest : List Char} (h : source.toList = before ++ rest)

include h

/-- The bytes of the source are those before the offset and those behind it. -/
theorem octets_eq : octets source =
    before.flatMap String.utf8EncodeChar ++ rest.flatMap String.utf8EncodeChar := by
  rw [← String.ofList_toList (s := source), h, octets_ofList, List.flatMap_append]

/-- The same for their numbers. -/
theorem utf8ByteSize_eq : source.utf8ByteSize = bytes before + bytes rest := by
  rw [← length_octets, octets_eq h, List.length_append, Piece.length_flatMap_utf8EncodeChar,
    Piece.length_flatMap_utf8EncodeChar]

/-- The bytes behind the offset are those of `rest`. -/
theorem byte?_add (k : Nat) :
    byte? source (bytes before + k) = (rest.flatMap String.utf8EncodeChar)[k]? := by
  have hbyte : byte? source (bytes before + k) = (octets source)[bytes before + k]? := by
    rw [byte?, octets, Array.getElem?_toList]
  have hlength := Piece.length_flatMap_utf8EncodeChar before
  rw [hbyte, octets_eq h, List.getElem?_append_right (by omega), hlength, Nat.add_sub_cancel_left]

/-- The byte at the offset is the first one of `rest`. -/
theorem byte?_eq : byte? source (bytes before) = (rest.flatMap String.utf8EncodeChar).head? := by
  rw [← Nat.add_zero (bytes before), byte?_add h, List.head?_eq_getElem?]

/-- The byte there is below `0x80` or from `0xc0` on, as `isBoundary` asks. At the end of the source
there is none. -/
theorem isBoundary_bytes : isBoundary source (bytes before) = true := by
  rw [isBoundary, byte?_eq h]
  cases rest with
  | nil => simp [utf8ByteSize_eq h, bytes]
  | cons c rest =>
    rcases utf8EncodeChar_cases c with ⟨hlow, hcode⟩ | ⟨-, -, b, bs, hcode, hb⟩
    · have hsmall : c.toUInt8 < 0x80 := by
        rw [UInt8.lt_iff_toNat_lt]
        exact show c.toNat % 256 < 128 by omega
      simp [hcode, hsmall]
    · simp [hcode, hb]

/-- At such an offset a `Scanner` may look at what follows. -/
theorem rest_bytes : Scanner.rest source (bytes before) = .ok (bytes before) := by
  rw [Scanner.rest, isBoundary_bytes h]
  rfl

end Reading

/-! ## Slices -/

/-- Both ends are boundaries and in order, so the slice is possible, and it is the excerpt between
them. -/
theorem slice_bytes {source : String} {before mid after : List Char}
    (h : source.toList = before ++ mid ++ after) :
    slice source (bytes before) (bytes (before ++ mid)) = .ok (String.ofList mid) := by
  have hstart := isBoundary_bytes (show source.toList = before ++ (mid ++ after) by
    rw [h, List.append_assoc])
  have hstop := isBoundary_bytes h
  have hle : bytes before ≤ bytes (before ++ mid) := by
    rw [Piece.bytes_append]
    exact Nat.le_add_right _ _
  have hsource : source = String.ofList before ++ String.ofList mid ++ String.ofList after := by
    rw [← String.toList_inj, String.toList_append, String.toList_append, String.toList_ofList,
      String.toList_ofList, String.toList_ofList, h]
  have hexcerpt := Span.excerpt_append (String.ofList before) (String.ofList mid)
    (String.ofList after)
  rw [← hsource, Piece.utf8ByteSize_ofList, Piece.utf8ByteSize_ofList, ← Piece.bytes_append]
    at hexcerpt
  rw [slice, hstart, hstop, decide_eq_true hle, hexcerpt]
  rfl

/-- An ASCII text is at the start of another text if its codes are at the start of the encoding. -/
theorem take_flatMap_utf8EncodeChar_iff {text rest : List Char}
    (htext : ∀ c ∈ text, c.toNat < 0x80) :
    (rest.flatMap String.utf8EncodeChar).take text.length = text.map Char.toUInt8 ↔
      text <+: rest := by
  induction text generalizing rest with
  | nil => simp
  | cons d text ih =>
    have hd := htext d List.mem_cons_self
    have htail := fun c hc => htext c (List.mem_cons_of_mem d hc)
    cases rest with
    | nil => simp
    | cons c rest =>
      rw [List.flatMap_cons, List.cons_prefix_cons]
      rcases utf8EncodeChar_cases c with ⟨hlow, hcode⟩ | ⟨hhigh, hall, b, bs, hcode, hb⟩
      · have hsame : c.toUInt8 = d.toUInt8 ↔ d = c := by
          rw [← beq_iff_eq, (sameKind_beq hd).low c hlow, beq_iff_eq, eq_comm]
        rw [hcode, List.singleton_append, List.length_cons, List.take_succ_cons, List.map_cons,
          List.cons.injEq, hsame, ih htail]
      -- a code of several bytes does not start with an ASCII code
      · have hbyte : b ≠ d.toUInt8 := by
          have hb := hall b (by rw [hcode]; exact List.mem_cons_self)
          rw [← beq_eq_false_iff_ne, (sameKind_beq hd).high b c hb hhigh, beq_eq_false_iff_ne]
          exact ne_of_high hhigh hd
        rw [hcode, List.cons_append, List.length_cons, List.take_succ_cons, List.map_cons,
          List.cons.injEq]
        exact ⟨fun heq => absurd heq.1 hbyte, fun heq => absurd heq.1.symm (ne_of_high hhigh hd)⟩

/-- An ASCII text is encoded by its codes. -/
theorem flatMap_utf8EncodeChar_of_low {text : List Char} (htext : ∀ c ∈ text, c.toNat < 0x80) :
    text.flatMap String.utf8EncodeChar = text.map Char.toUInt8 := by
  induction text with
  | nil => rfl
  | cons c text ih =>
    rcases utf8EncodeChar_cases c with ⟨-, hcode⟩ | ⟨hhigh, -⟩
    · rw [List.flatMap_cons, hcode, ih fun d hd => htext d (List.mem_cons_of_mem c hd)]
      rfl
    · exact absurd (htext c List.mem_cons_self) (Nat.not_lt_of_le hhigh)

/-- The bytes of `text` are compared with as many bytes of the source
(`take_flatMap_utf8EncodeChar_iff`). -/
theorem startsWith_bytes {source : String} {before rest : List Char}
    (h : source.toList = before ++ rest) {text : String}
    (htext : ∀ c ∈ text.toList, c.toNat < 0x80) :
    startsWith source (bytes before) text = .ok (text.toList.isPrefixOf rest) := by
  have hcodes : octets text = text.toList.map Char.toUInt8 := by
    conv_lhs => rw [← String.ofList_toList (s := text)]
    rw [octets_ofList, flatMap_utf8EncodeChar_of_low htext]
  have hsize : text.utf8ByteSize = text.toList.length := by
    rw [← length_octets, hcodes, List.length_map]
  -- what is cut out of the source are the first octets of `rest`
  have hoctets :
      (source.toUTF8.extract (bytes before) (bytes before + text.utf8ByteSize)).data.toList =
        (rest.flatMap String.utf8EncodeChar).take text.toList.length := by
    have hlength := Piece.length_flatMap_utf8EncodeChar before
    rw [ByteArray.data_extract, Array.toList_extract, List.extract_eq_take_drop,
      Nat.add_sub_cancel_left, hsize]
    show List.take _ (List.drop _ (octets source)) = _
    rw [octets_eq h, ← hlength, List.drop_left]
  rw [startsWith, rest_bytes h]
  show Except.ok _ = _
  congr 1
  rw [Bool.eq_iff_iff, beq_iff_eq, List.isPrefixOf_iff_prefix,
    ← take_flatMap_utf8EncodeChar_iff htext, ← hoctets, ← hcodes, octets, Array.toList_inj]

/-- The character at the offset. By induction on the characters that are passed before it. -/
theorem get?_bytes {source : String} {before rest : List Char} {c : Char}
    (h : source.toList = before ++ c :: rest) :
    String.Pos.Raw.get? source ⟨bytes before⟩ = some c := by
  -- `utf8GetAux?` counts from any offset `i`
  have haux (i : Nat) : String.Pos.Raw.utf8GetAux? (before ++ c :: rest) ⟨i⟩ ⟨i + bytes before⟩
      = some c := by
    clear h
    induction before generalizing i with
    | nil => simp [String.Pos.Raw.utf8GetAux?, bytes]
    | cons d before ih =>
      have hd := Char.utf8Size_pos d
      have hne : (⟨i⟩ : String.Pos.Raw) ≠ ⟨i + bytes (d :: before)⟩ := by
        intro heq
        have hoffset := congrArg String.Pos.Raw.byteIdx heq
        rw [Piece.bytes_cons] at hoffset
        change i = i + (d.utf8Size + bytes before) at hoffset
        omega
      rw [List.cons_append, String.Pos.Raw.utf8GetAux?, if_neg hne, Piece.bytes_cons,
        ← Nat.add_assoc]
      exact ih (i + d.utf8Size)
  have hget := haux 0
  rw [Nat.zero_add, ← h] at hget
  exact hget

/-! ## Loops -/

/-- A loop over the bytes of a kind ends behind them, if it has more rounds than there are bytes. -/
theorem eatWithin_octets {source : String} (p : UInt8 → Bool) {bound : Nat}
    {front back : List UInt8} (h : octets source = front ++ back) (hbound : back.length < bound) :
    eatWithin source p bound front.length = .ok (front.length + (back.takeWhile p).length) := by
  induction bound generalizing front back with
  | zero => exact absurd hbound (Nat.not_lt_zero _)
  | succ bound ih =>
    -- the byte that is looked at is the first of `back`
    have hbyte : byte? source front.length = back.head? := by
      rw [byte?, ← Array.getElem?_toList]
      show (octets source)[front.length]? = _
      rw [h, List.getElem?_append_right (Nat.le_refl _), Nat.sub_self, List.head?_eq_getElem?]
    rw [eatWithin, hbyte]
    cases back with
    | nil => rfl
    | cons b back =>
      show (if p b then _ else _) = _
      rw [List.takeWhile_cons]
      cases p b with
      | false => rfl
      | true =>
        have hnext : octets source = (front ++ [b]) ++ back := by
          rw [h, List.append_assoc, List.singleton_append]
        have heat := ih hnext (Nat.lt_of_succ_lt_succ hbound)
        rw [List.length_append, List.length_singleton] at heat
        rw [if_pos rfl, if_pos rfl, heat, List.length_cons, Nat.add_assoc, Nat.add_comm 1]

/-- The round bound is above the number of bytes, and the bytes of the kind are those of characters
(`SameKind.takeWhile`). -/
theorem eatWhile_bytes {source : String} {before rest : List Char}
    (h : source.toList = before ++ rest) {p : UInt8 → Bool} {q : Char → Bool}
    (hkind : SameKind p q) :
    eatWhile source p (bytes before) = .ok (bytes (before ++ rest.takeWhile q)) := by
  have hlength := Piece.length_flatMap_utf8EncodeChar before
  have hbound : (rest.flatMap String.utf8EncodeChar).length < roundBound source := by
    rw [roundBound, utf8ByteSize_eq h, Piece.length_flatMap_utf8EncodeChar]
    omega
  have heat := eatWithin_octets p (octets_eq h) hbound
  rw [hlength, hkind.takeWhile, Piece.length_flatMap_utf8EncodeChar, ← Piece.bytes_append] at heat
  exact heat

/-! ## The byte at the start of a character -/

section First

variable {source : String} {before rest : List Char} (h : source.toList = before ++ rest)

include h

/-- The first byte of a character tells its kind. -/
theorem SameKind.any_byte? {p : UInt8 → Bool} {q : Char → Bool} (hkind : SameKind p q) :
    (byte? source (bytes before)).any p = rest.head?.any q := by
  rw [byte?_eq h]
  cases rest with
  | nil => rfl
  | cons c rest =>
    rw [List.flatMap_cons, List.head?_cons]
    rcases utf8EncodeChar_cases c with ⟨hlow, hcode⟩ | ⟨hhigh, hall, b, bs, hcode, -⟩
    · rw [hcode]
      exact hkind.low c hlow
    · rw [hcode]
      exact hkind.high b c (hall b (by rw [hcode]; exact List.mem_cons_self)) hhigh

/-- There is a byte where there is a character. -/
theorem isSome_byte? : (byte? source (bytes before)).isSome = rest.head?.isSome := by
  have hall : SameKind (fun _ => true) (fun _ => true) := ⟨fun _ _ => rfl, fun _ _ _ _ => rfl⟩
  rw [← Option.any_true, ← Option.any_true, hall.any_byte? h]

/-- A byte that encodes a character by itself stands only for this character. -/
theorem byte?_beq {d : Char} (hd : d.toNat < 0x80) :
    (byte? source (bytes before) == some d.toUInt8) = (rest.head? == some d) := by
  have hany {α : Type} [BEq α] (o : Option α) (a : α) : (o == some a) = o.any (· == a) := by
    cases o <;> rfl
  rw [hany, hany, (sameKind_beq hd).any_byte? h]

end First

end Scanner

end SimpleLang
