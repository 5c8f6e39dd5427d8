import SimpleLang.Number.Decimal
import SimpleLang.Proofs.Tokens

/-!
# Reading literals

A run of digits is read as the number it writes, if that fits 64 bits with a sign, and so is never
negative (`Integer.toInt_nonneg`). The digits that a number is written with are read as that number
(`Integer.read?_toString`). Digits with a point between them are always read as a float
(`Decimal.read?_point`).
-/

namespace SimpleLang

/-- `Integer.read?` and `Decimal.read?` look for a sign first. -/
theorem IsDigits.ne_sign {c : Char} {cs : List Char} (h : IsDigits (c :: cs)) :
    c ≠ '+' ∧ c ≠ '-' := by
  have hc := h.2 c List.mem_cons_self
  constructor <;> rintro rfl <;> simp at hc

/-- The digits are the characters 48 to 57. -/
theorem toNat_of_isDigit {c : Char} (h : c.isDigit) :
    48 ≤ c.val.toNat ∧ c.val.toNat ≤ 57 := by
  simpa [Char.isDigit, UInt32.le_iff_toNat_le] using h

theorem isDigits_toDigits (n : Nat) : IsDigits (Nat.toDigits 10 n) :=
  ⟨Nat.toDigits_ne_nil, fun _ hc => Nat.isDigit_of_mem_toDigits (by decide) (by decide) hc⟩

/-- The digits before a point end at the point. -/
theorem takeWhile_point {whole : List Char} (hwhole : IsDigits whole) (fraction : List Char) :
    (whole ++ '.' :: fraction).takeWhile Char.isDigit = whole := by
  rw [List.takeWhile_append_of_pos hwhole.2, List.takeWhile_cons_of_neg (by decide),
    List.append_nil]

namespace Integer

/-- Digits are all there is, so `Integer.digits?` does not refuse them. -/
theorem digits?_of_isDigits {cs : List Char} (h : IsDigits cs) :
    digits? cs = some (ofDigits cs) := by
  rw [digits?, if_pos ⟨h.1, List.all_eq_true.mpr h.2⟩]

/-- Digits without a sign are read as the number they write. -/
theorem read?_of_isDigits {digits : String} (h : IsDigits digits.toList) :
    read? digits = ofInt? (ofDigits digits.toList) := by
  cases hcs : digits.toList with
  | nil => exact absurd hcs h.1
  | cons c cs =>
    rw [hcs] at h
    obtain ⟨hplus, hminus⟩ := h.ne_sign
    rw [read?, hcs]
    split
    next heq => exact absurd (List.cons.inj heq).1 hplus
    next heq => exact absurd (List.cons.inj heq).1 hminus
    next => rw [digits?_of_isDigits h]; rfl

/-- What fits 64 bits is not changed by them. -/
theorem toInt_of_ofInt? {n : Int} {m : Int64} (h : ofInt? n = some m) : m.toInt = n := by
  unfold ofInt? at h
  split at h
  next hrange =>
    obtain rfl := Option.some.inj h
    rw [inRange, least, greatest, Bool.and_eq_true, decide_eq_true_eq, decide_eq_true_eq] at hrange
    exact Int64.toInt_ofInt_of_le (by omega) (by omega)
  next => cases h

/-- Digits without a sign are never the text of a negative number. -/
theorem toInt_nonneg {digits : String} {n : Int64} (hdigits : IsDigits digits.toList)
    (h : read? digits = some n) : 0 ≤ n.toInt := by
  rw [read?_of_isDigits hdigits] at h
  rw [toInt_of_ofInt? h]
  exact Int.natCast_nonneg _

/-! ## Writing integers -/

/-- Without a sign a number is written as its digits. -/
theorem toList_toString {n : Int} (h : 0 ≤ n) :
    (toString n).toList = Nat.toDigits 10 n.toNat := by
  obtain ⟨m, rfl⟩ := Int.eq_ofNat_of_zero_le h
  exact Nat.toList_repr

theorem isDigits_toString {n : Int} (h : 0 ≤ n) : IsDigits (toString n).toList := by
  rw [toList_toString h]
  exact isDigits_toDigits n.toNat

/-- The digits of a number that is not negative are read back. -/
theorem read?_toString {n : Int64} (h : 0 ≤ n.toInt) : read? (toString n.toInt) = some n := by
  have hdigits : (ofDigits (toString n.toInt).toList : Int) = n.toInt := by
    rw [toList_toString h]
    show ((Nat.ofDigitChars 10 (Nat.toDigits 10 n.toInt.toNat) 0 : Nat) : Int) = n.toInt
    rw [Nat.ofDigitChars_toDigits (by decide) (by decide)]
    omega
  -- an integer of 64 bits is in the range that `Integer.ofInt?` asks for
  have hrange : inRange n.toInt := by
    have hlow := n.le_toInt
    have hhigh := n.toInt_lt
    rw [inRange, least, greatest, Bool.and_eq_true, decide_eq_true_eq, decide_eq_true_eq]
    omega
  rw [read?_of_isDigits (isDigits_toString h), hdigits, ofInt?, if_pos hrange, Int64.ofInt_toInt]

end Integer

namespace Decimal

/-- Behind the fraction nothing is left, so there is no exponent. -/
theorem magnitude?_point {whole fraction : List Char} (hwhole : IsDigits whole)
    (hfraction : IsDigits fraction) :
    magnitude? (whole ++ '.' :: fraction) =
      some (scaled (Integer.ofDigits (whole ++ fraction)) (0 - fraction.length)) := by
  have hdrop : (whole ++ '.' :: fraction).dropWhile Char.isDigit = '.' :: fraction := by
    rw [List.dropWhile_append_of_pos hwhole.2, List.dropWhile_cons_of_neg (by decide)]
  have hrest : fraction.takeWhile Char.isDigit = fraction ∧ fraction.dropWhile Char.isDigit = [] :=
    ⟨List.takeWhile_eq_self_iff.mpr hfraction.2, List.dropWhile_eq_nil_iff.mpr hfraction.2⟩
  rw [magnitude?, takeWhile_point hwhole, hdrop]
  simp only [hwhole.1, false_and, if_false, hrest.1, hrest.2, exponent?, Option.map_some]

/-- `Decimal.unsigned?` looks for names in lower case. -/
theorem toLower_of_isDigit {c : Char} (h : c.isDigit) : c.toLower = c := by
  have hrange := toNat_of_isDigit h
  have hnot : ¬ (c.val ≥ 65 ∧ c.val ≤ 90) := by
    rintro ⟨hlow, _⟩
    have hlow : (65 : UInt32).toNat ≤ c.val.toNat := UInt32.le_iff_toNat_le.mp hlow
    have hval : (65 : UInt32).toNat = 65 := rfl
    omega
  rw [Char.toLower]
  simp [hnot]

/-- The names of the special values do not start with a digit. -/
theorem unsigned?_of_isDigit {c : Char} (hc : c.isDigit) (cs : List Char) :
    unsigned? (c :: cs) = magnitude? (c :: cs) := by
  -- none of the names starts with a digit
  have hname (d : Char) (ds : List Char) (hd : d.isDigit = false) :
      String.ofList ((c :: cs).map Char.toLower) ≠ String.ofList (d :: ds) := by
    intro heq
    have hlist := congrArg String.toList heq
    rw [String.toList_ofList, String.toList_ofList, List.map_cons, toLower_of_isDigit hc] at hlist
    rw [(List.cons.inj hlist).1, hd] at hc
    cases hc
  have hinf : String.ofList ((c :: cs).map Char.toLower) ≠ "inf" := hname 'i' ['n', 'f'] rfl
  have hinfinity : String.ofList ((c :: cs).map Char.toLower) ≠ "infinity" :=
    hname 'i' ['n', 'f', 'i', 'n', 'i', 't', 'y'] rfl
  have hnan : String.ofList ((c :: cs).map Char.toLower) ≠ "nan" := hname 'n' ['a', 'n'] rfl
  rw [unsigned?]
  simp only [hinf, hinfinity, hnan, or_self, if_false]

/-- Digits with a point between them are read as the number they write, without a point, divided by
a power of ten. -/
theorem read?_point {text : String} {whole fraction : List Char}
    (htext : text.toList = whole ++ '.' :: fraction) (hwhole : IsDigits whole)
    (hfraction : IsDigits fraction) :
    read? text = some (scaled (Integer.ofDigits (whole ++ fraction)) (0 - fraction.length)) := by
  have hmagnitude := magnitude?_point hwhole hfraction
  cases whole with
  | nil => exact absurd rfl hwhole.1
  | cons c whole =>
    obtain ⟨hplus, hminus⟩ := hwhole.ne_sign
    rw [read?, htext, List.cons_append]
    split
    next heq => exact absurd (List.cons.inj heq).1 hplus
    next heq => exact absurd (List.cons.inj heq).1 hminus
    next => rw [unsigned?_of_isDigit (hwhole.2 c List.mem_cons_self)]; exact hmagnitude

/-- Digits with a point between them are read. -/
theorem exists_read? {text : String} (h : (Lexeme.float text).WellFormed) :
    ∃ x, read? text = some x := by
  obtain ⟨whole, fraction, htext, hwhole, hfraction⟩ := h
  exact ⟨_, read?_point htext hwhole hfraction⟩

end Decimal

end SimpleLang
