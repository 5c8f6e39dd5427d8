import Mathlib
import SimpleLang.Proofs.Literals

/-!
# Literals that are too large

A decimal literal has a finite value exactly if the number before its point is less than `overflow`,
which is halfway between the largest finite float and the power of two that would follow. Any larger
literal is read as infinity, and the digits behind the point do not matter.

* `Plain top`: what a finite literal unpacks to, with a bound on the exponent.
* `roundWithAccuracy_cases`: what rounding a mantissa can give. `plain_round` is a bound from it,
  and `unpack_round_of_le` and `plain_round_of_lt` are the two sides of the last halfway point.
* `unpack_div_whole`: the same for the quotient of two whole numbers.
* `unpack_read?`: the same for a literal.
-/

namespace SimpleLang

namespace FloatRange

open Float.Model (UnpackedFloat Format totalExponent)
open Float.Model.UnpackedFloat

/-- A zero or a finite number, without a sign and with an exponent of at most `top`. -/
def Plain (top : Int) : UnpackedFloat → Prop
  | .zero s => s = .positive
  | .finite s m e _ => s = .positive ∧ m < 2 ^ 53 ∧ e ≤ top
  | .infinity _ | .notANumber => False

/-! ## Packing -/

theorem exponentBias_binary64 : Format.binary64.exponentBias = 1023 := rfl

/-- An exponent of all ones and no mantissa. -/
theorem unpack_packedInfinity (s : Sign) :
    UnpackedFloat.unpack .binary64 (packedInfinity .binary64 s) = .infinity s := by
  simp [UnpackedFloat.unpack, packedInfinity]

/-- An exponent that does not fit makes a number infinite. -/
theorem unpack_pack_of_le {s : Sign} {m : Nat} {e : Int} (hm : 0 < m) (he : 972 ≤ e) :
    (Float.Model.pack (.finite s m e hm)).unpack = .infinity s := by
  show UnpackedFloat.unpack .binary64 (UnpackedFloat.pack .binary64 (.finite s m e hm)) = _
  unfold UnpackedFloat.pack
  rw [if_pos]
  · exact unpack_packedInfinity s
  · simp only [exponentBias_binary64]
    omega

/-- `b` is the exponent as it is stored, with a bias of 1075 for whole mantissas. All ones in it are
left to infinity. -/
theorem plain_unpack_packComponents {top : Int} (htop : -1074 ≤ top) (b : BitVec 11)
    (m : BitVec 52) (hb : b.toNat < 2047) (he : (b.toNat : Int) - 1075 ≤ top) :
    Plain top (UnpackedFloat.unpack .binary64 (packComponents .binary64 .positive b m)) := by
  have hne : b ≠ -1#11 := by
    rintro rfl
    exact absurd hb (by decide)
  unfold UnpackedFloat.unpack
  simp only [unpackExponent_packComponents, unpackMantissa_packComponents,
    unpackSign_packComponents, Sign.ofBitVec_toBitVec]
  rw [if_neg hne]
  split
  next hzero =>
    -- a zero or a subnormal number
    split
    · rfl
    · refine ⟨rfl, Nat.lt_of_lt_of_le m.isLt (by decide), ?_⟩
      rw [hzero]
      exact htop
  · refine ⟨rfl, ?_, ?_⟩
    · exact (1#1 ++ m).isLt
    · simp only [exponentBias_binary64]
      omega

/-- Up to an exponent of 971 a number is packed as it is, or as a subnormal number. -/
theorem plain_unpack_pack {top : Int} {m : Nat} {e : Int} (hm : 0 < m) (he : e ≤ top)
    (hlow : -1074 ≤ top) (hhigh : top ≤ 971) :
    Plain top (Float.Model.pack (.finite .positive m e hm)).unpack := by
  show Plain top (UnpackedFloat.unpack .binary64 (UnpackedFloat.pack .binary64 (.finite _ m e hm)))
  unfold UnpackedFloat.pack
  have hexact : (BitVec.ofNat 11 (e + (1023 : Nat) + (52 : Nat)).toNat).toNat
      = (e + 1075).toNat := by
    rw [BitVec.toNat_ofNat]
    omega
  rw [if_neg (by simp only [exponentBias_binary64]; omega)]
  split
  · exact plain_unpack_packComponents hlow (.ofNat 11 (e + (1023 : Nat) + (52 : Nat)).toNat) _
      (by omega) (by omega)
  · exact plain_unpack_packComponents hlow 0#11 _ (by decide) (show (0 : Nat) - 1075 ≤ top by omega)

/-- A zero is below every bound. -/
theorem plain_zero (top : Int) : Plain top (Float.Model.pack (.zero .positive)).unpack := by
  show Plain top (UnpackedFloat.unpack .binary64 (packedZero .binary64 .positive))
  rw [unpack_packedZero]
  rfl

/-! ## Rounding -/

/-- By induction on the number of bits that are shifted out, one at a time. -/
theorem mantissa_shiftRight (em : ExtendedMantissa) (k : Nat) :
    (em >>> k).mantissa = em.mantissa / 2 ^ k := by
  show (k.repeat ExtendedMantissa.shiftRightOne em).mantissa = _
  induction k with
  | zero => exact (Nat.div_one _).symm
  | succ k ih =>
    show (k.repeat ExtendedMantissa.shiftRightOne em).mantissa / 2 = _
    rw [ih, Nat.div_div_eq_div_mul, Nat.pow_succ]

/-- The round bit is the last one that is shifted out. -/
theorem roundBit_shiftRight (em : ExtendedMantissa) (k : Nat) :
    (em >>> (k + 1)).roundBit = (em.mantissa / 2 ^ k % 2 != 0) := by
  rw [← mantissa_shiftRight]
  rfl

/-- The accuracy goes into the bits behind the mantissa. -/
theorem mantissa_ofMantissaAndAccuracy (m : Nat) (a : Accuracy) :
    (ExtendedMantissa.ofMantissaAndAccuracy m a).mantissa = m := by
  cases a with
  | exact => rfl
  | inexact o => cases o <;> rfl

/-- Rounding leaves a mantissa as it is or adds one to it. -/
theorem le_roundedMantissa (em : ExtendedMantissa) : em.mantissa ≤ em.roundedMantissa := by
  obtain ⟨m, r, s⟩ := em
  cases r <;> cases s <;>
    simp only [ExtendedMantissa.roundedMantissa, ExtendedMantissa.accuracy,
      Accuracy.roundToNearestEven] <;> omega

theorem roundedMantissa_le (em : ExtendedMantissa) : em.roundedMantissa ≤ em.mantissa + 1 := by
  obtain ⟨m, r, s⟩ := em
  cases r <;> cases s <;>
    simp only [ExtendedMantissa.roundedMantissa, ExtendedMantissa.accuracy,
      Accuracy.roundToNearestEven] <;> omega

/-- An odd mantissa is rounded up exactly if the round bit is set. -/
theorem roundedMantissa_of_odd {em : ExtendedMantissa} (h : em.mantissa % 2 = 1) :
    em.roundedMantissa = em.mantissa + if em.roundBit then 1 else 0 := by
  obtain ⟨m, r, s⟩ := em
  cases r <;> cases s <;>
    simp_all [ExtendedMantissa.roundedMantissa, ExtendedMantissa.accuracy,
      Accuracy.roundToNearestEven]

/-- By how many bits a mantissa is too long. -/
def excess (m : Nat) (e : Int) : Nat := (max ((m.log2 : Int) + e - 52) (-1074) - e).toNat

/-- The exponent that is aimed at is written out for 64 bits, as `excess` has it. -/
theorem shiftToTargetExponent_eq (m : Nat) (e : Int) (a : Accuracy) :
    shiftToTargetExponent .binary64 m e a =
      (ExtendedMantissa.ofMantissaAndAccuracy m a >>> excess m e, e + excess m e) := by
  have htarget : Format.binary64.targetExponent (totalExponent m e) =
      max ((m.log2 : Int) + e - 52) (-1074) := by
    simp only [Format.targetExponent, totalExponent, Format.mantissaBits, Format.minExponent]
    norm_num
    omega
  rw [shiftToTargetExponent, htarget]
  rfl

/-- The mantissa after the first shift, rounded. -/
def rounded (m : Nat) (e : Int) (a : Accuracy) : Nat :=
  (ExtendedMantissa.ofMantissaAndAccuracy m a >>> excess m e).roundedMantissa

theorem mantissa_shifted (m : Nat) (e : Int) (a : Accuracy) :
    (ExtendedMantissa.ofMantissaAndAccuracy m a >>> excess m e).mantissa = m / 2 ^ excess m e := by
  rw [mantissa_shiftRight, mantissa_ofMantissaAndAccuracy]

/-- Shifted by its excess a mantissa has at most 53 bits, and rounding may add one to the last of
them. -/
theorem rounded_le (m : Nat) (e : Int) (a : Accuracy) : rounded m e a ≤ 2 ^ 53 := by
  have hle := roundedMantissa_le (ExtendedMantissa.ofMantissaAndAccuracy m a >>> excess m e)
  have hshort : m / 2 ^ excess m e < 2 ^ 53 := by
    refine (Nat.div_lt_iff_lt_mul (Nat.two_pow_pos _)).mpr ?_
    have hlog : m.log2 + 1 ≤ 53 + excess m e := by
      unfold excess
      omega
    calc m < 2 ^ (m.log2 + 1) := Nat.lt_log2_self
      _ ≤ 2 ^ (53 + excess m e) := Nat.pow_le_pow_right (by decide) hlog
      _ = 2 ^ 53 * 2 ^ excess m e := Nat.pow_add ..
  rw [mantissa_shifted] at hle
  show (ExtendedMantissa.ofMantissaAndAccuracy m a >>> excess m e).roundedMantissa ≤ _
  omega

/-- A number of 53 bits or more keeps its first bit. -/
theorem rounded_ne_zero {m : Nat} (a : Accuracy) (h : 52 ≤ m.log2) : rounded m 0 a ≠ 0 := by
  have hexcess : excess m 0 = m.log2 - 52 := by
    unfold excess
    omega
  have hm : m ≠ 0 := by
    rintro rfl
    simp at h
  have hpos : 0 < m / 2 ^ excess m 0 := by
    refine Nat.div_pos ?_ (Nat.two_pow_pos _)
    rw [hexcess]
    exact Nat.le_trans (Nat.pow_le_pow_right (by decide) (Nat.sub_le ..)) (Nat.log2_self_le hm)
  have hle := le_roundedMantissa (ExtendedMantissa.ofMantissaAndAccuracy m a >>> excess m 0)
  rw [mantissa_shifted] at hle
  exact Nat.ne_of_gt (Nat.lt_of_lt_of_le hpos hle)

/-- Rounding shifts the mantissa, rounds it, and shifts it once more if it has become too long. -/
theorem roundWithAccuracy_cases (s : Sign) (m : Nat) (e : Int) (a : Accuracy) :
    rounded m e a = 0 ∧ roundWithAccuracy .binary64 s m e a = .zero s ∨
    (∃ h, rounded m e a < 2 ^ 53 ∧
      roundWithAccuracy .binary64 s m e a = .finite s (rounded m e a) (e + excess m e) h) ∨
    rounded m e a = 2 ^ 53 ∧ ∃ h,
      roundWithAccuracy .binary64 s m e a = .finite s (2 ^ 52) (e + excess m e + 1) h := by
  have hle := rounded_le m e a
  have hlow : -1074 ≤ e + excess m e := by
    unfold excess
    omega
  -- what the second shift finds
  have hround : roundWithAccuracy .binary64 s m e a =
      if h : rounded m e a / 2 ^ excess (rounded m e a) (e + excess m e) = 0 then .zero s
      else .finite s (rounded m e a / 2 ^ excess (rounded m e a) (e + excess m e))
        (e + excess m e + excess (rounded m e a) (e + excess m e)) (Nat.pos_of_ne_zero h) := by
    simp only [roundWithAccuracy, shiftToTargetExponent_eq, mantissa_shifted]
    rfl
  rw [hround]
  generalize rounded m e a = r at *
  generalize e + (excess m e : Int) = e₁ at *
  -- a mantissa of all ones that is rounded up is one bit too long, and loses it in the second shift
  by_cases hmax : r = 2 ^ 53
  · have hone : excess r e₁ = 1 := by
      rw [excess, hmax, Nat.log2_two_pow]
      omega
    refine .inr (.inr ⟨hmax, by decide, ?_⟩)
    rw [hone, hmax]
    rfl
  · have hlog : r.log2 ≤ 52 := by
      by_cases hzero : r = 0
      · simp [hzero]
      · exact Nat.le_of_lt_succ ((Nat.log2_lt hzero).mpr (by omega))
    have hnone : excess r e₁ = 0 := by
      unfold excess
      omega
    rw [hnone]
    by_cases hzero : r = 0
    · exact .inl ⟨hzero, by simp [hzero]⟩
    · exact .inr (.inl ⟨Nat.pos_of_ne_zero hzero, by omega, by simp [hzero]⟩)

/-- A number that is small enough stays finite. -/
theorem plain_round {top : Int} {m : Nat} {e : Int} (a : Accuracy) (he : e < top)
    (hm : (m.log2 : Int) + e - 52 < top) (hlow : -1074 < top) (hhigh : top ≤ 971) :
    Plain top (Float.Model.pack (roundWithAccuracy .binary64 .positive m e a)).unpack := by
  have hexponent : e + excess m e < top := by
    unfold excess
    omega
  obtain ⟨-, heq⟩ | ⟨h, -, heq⟩ | ⟨-, h, heq⟩ := roundWithAccuracy_cases .positive m e a
  · rw [heq]
    exact plain_zero top
  · rw [heq]
    exact plain_unpack_pack h (by omega) (by omega) hhigh
  · rw [heq]
    exact plain_unpack_pack h (by omega) (by omega) hhigh

/-- The number halfway between the largest one that has 53 bits and `p + 1` zeros behind them, and
the power of two that follows. -/
def halfway (p : Nat) : Nat := 2 ^ (54 + p) - 2 ^ p

/-- A number with more bits than `halfway p` is larger. -/
theorem halfway_le_of_log2 {m p : Nat} (h : 54 + p ≤ m.log2) : halfway p ≤ m := by
  have hne : m ≠ 0 := by
    rintro rfl
    simp at h
  calc halfway p ≤ 2 ^ (54 + p) := Nat.sub_le ..
    _ ≤ 2 ^ m.log2 := Nat.pow_le_pow_right (by decide) h
    _ ≤ m := Nat.log2_self_le hne

/-- A number with fewer bits is smaller. -/
theorem lt_halfway_of_log2 {m p : Nat} (h : m.log2 < 53 + p) : m < halfway p := by
  have hhalf : 2 ^ (53 + p) ≤ halfway p := by
    have hle : 2 ^ p ≤ 2 ^ (53 + p) := Nat.pow_le_pow_right (by decide) (by omega)
    have hdouble : 2 ^ (54 + p) = 2 * 2 ^ (53 + p) := by rw [← Nat.pow_succ']; congr 1; omega
    unfold halfway
    omega
  calc m < 2 ^ (m.log2 + 1) := Nat.lt_log2_self
    _ ≤ 2 ^ (53 + p) := Nat.pow_le_pow_right (by decide) h
    _ ≤ halfway p := hhalf

/-- A number of `54 + p` bits is rounded up to the next power of two exactly if at most half of its
last place is missing. -/
theorem rounded_eq_iff {m p : Nat} (a : Accuracy) (hm : m.log2 + 1 = 54 + p) :
    rounded m 0 a = 2 ^ 53 ↔ halfway p ≤ m := by
  have hexcess : excess m 0 = p + 1 := by
    unfold excess
    omega
  have hlt : m / 2 ^ p < 2 ^ 54 := by
    refine (Nat.div_lt_iff_lt_mul (Nat.two_pow_pos p)).mpr ?_
    rw [← Nat.pow_add, ← hm]
    exact Nat.lt_log2_self
  have hthreshold : halfway p ≤ m ↔ 2 ^ 54 - 1 ≤ m / 2 ^ p := by
    rw [halfway, Nat.le_div_iff_mul_le (Nat.two_pow_pos p), Nat.sub_mul, Nat.one_mul, Nat.pow_add]
  have hmantissa := mantissa_shifted m 0 a
  rw [hexcess, Nat.pow_succ, ← Nat.div_div_eq_div_mul] at hmantissa
  have hbit := roundBit_shiftRight (ExtendedMantissa.ofMantissaAndAccuracy m a) p
  rw [mantissa_ofMantissaAndAccuracy] at hbit
  rw [hthreshold, rounded, hexcess]
  generalize ExtendedMantissa.ofMantissaAndAccuracy m a >>> (p + 1) = em at *
  generalize m / 2 ^ p = x at *
  by_cases hodd : em.mantissa = 2 ^ 53 - 1
  · -- the largest mantissa is odd, so the bit behind it decides
    rw [roundedMantissa_of_odd (by omega), hbit]
    split <;> rename_i hone <;> rw [bne_iff_ne] at hone <;> omega
  · have hle := roundedMantissa_le em
    omega

/-! ## Overflow -/

section Overflow

-- the exponent stays a variable, so that no power of it is evaluated
variable {m p : Nat} (hp : p = 970) (a : Accuracy)

include hp

/-- From the last halfway point on an integer is rounded to infinity. -/
theorem unpack_round_of_le (h : halfway p ≤ m) :
    (Float.Model.pack (roundWithAccuracy .binary64 .positive m 0 a)).unpack =
      .infinity .positive := by
  have hlog : 53 + p ≤ m.log2 := by
    by_contra hsmall
    exact absurd (lt_halfway_of_log2 (Nat.lt_of_not_le hsmall)) (Nat.not_lt_of_le h)
  have hexcess : excess m 0 = m.log2 - 52 := by
    unfold excess
    omega
  -- the exponent is too large at once, or rounding up makes it too large
  by_cases hbits : m.log2 + 1 = 54 + p
  · have hrounded := (rounded_eq_iff a hbits).mpr h
    obtain ⟨hzero, -⟩ | ⟨-, hlt, -⟩ | ⟨-, hpos, heq⟩ := roundWithAccuracy_cases .positive m 0 a
    · omega
    · omega
    · rw [heq]
      exact unpack_pack_of_le hpos (by omega)
  · obtain ⟨hzero, -⟩ | ⟨hpos, -, heq⟩ | ⟨-, hpos, heq⟩ := roundWithAccuracy_cases .positive m 0 a
    · exact absurd hzero (rounded_ne_zero a (by omega))
    · rw [heq]
      exact unpack_pack_of_le hpos (by omega)
    · rw [heq]
      exact unpack_pack_of_le hpos (by omega)

/-- Below it an integer is rounded to a finite number. -/
theorem plain_round_of_lt (h : m < halfway p) :
    Plain 971 (Float.Model.pack (roundWithAccuracy .binary64 .positive m 0 a)).unpack := by
  have hlog : m.log2 < 54 + p := by
    by_contra hlarge
    exact absurd (halfway_le_of_log2 (Nat.le_of_not_lt hlarge)) (Nat.not_le_of_lt h)
  by_cases hbits : m.log2 + 1 = 54 + p
  · have hexcess : excess m 0 = m.log2 - 52 := by
      unfold excess
      omega
    -- below `halfway p` rounding does not carry into another bit
    have hrounded : rounded m 0 a ≠ 2 ^ 53 := by
      rw [Ne, rounded_eq_iff a hbits]
      exact Nat.not_le_of_lt h
    obtain ⟨-, heq⟩ | ⟨hpos, -, heq⟩ | ⟨hmax, -⟩ := roundWithAccuracy_cases .positive m 0 a
    · rw [heq]
      exact plain_zero 971
    · rw [heq]
      exact plain_unpack_pack hpos (by omega) (by decide) (by decide)
    · exact absurd hmax hrounded
  · exact plain_round a (by decide) (by omega) (by decide) (by decide)

end Overflow

/-! ## Division -/

/-- The bits of the divisor are taken off those of the dividend. -/
theorem log2_div_le {n d : Nat} (hd : d ≠ 0) : (n / d).log2 ≤ n.log2 - d.log2 := by
  by_cases hlt : n < d
  · simp [Nat.div_eq_of_lt hlt]
  · have hle : d ≤ n := Nat.le_of_not_lt hlt
    have hpos : n / d ≠ 0 := Nat.ne_of_gt (Nat.div_pos hle (Nat.pos_of_ne_zero hd))
    have hlog : d.log2 ≤ n.log2 :=
      (Nat.le_log2 (by omega)).mpr (Nat.le_trans (Nat.log2_self_le hd) hle)
    refine Nat.le_of_lt_succ ((Nat.log2_lt hpos).mpr ?_)
    refine (Nat.div_lt_iff_lt_mul (Nat.pos_of_ne_zero hd)).mpr ?_
    calc n < 2 ^ (n.log2 + 1) := Nat.lt_log2_self
      _ = 2 ^ (n.log2 - d.log2 + 1) * 2 ^ d.log2 := by rw [← Nat.pow_add]; congr 1; omega
      _ ≤ 2 ^ (n.log2 - d.log2 + 1) * d := Nat.mul_le_mul_left _ (Nat.log2_self_le hd)

/-- By induction on `k`, each bit doubles the number. -/
theorem log2_shiftLeft {m : Nat} (hm : m ≠ 0) (k : Nat) : (m <<< k).log2 = m.log2 + k := by
  induction k with
  | zero => rfl
  | succ k ih =>
    have hne : m <<< k ≠ 0 := by
      rw [Nat.shiftLeft_eq]
      exact Nat.mul_ne_zero hm (Nat.ne_of_gt (Nat.two_pow_pos k))
    rw [Nat.shiftLeft_succ, Nat.log2_two_mul hne, ih, Nat.add_assoc]

/-- The exponent that a quotient is computed with. -/
def quotientExponent (m₁ : Nat) (e₁ : Int) (m₂ : Nat) (e₂ : Int) : Int :=
  min (e₁ - e₂) (max ((m₁.log2 : Int) + e₁ - m₂.log2 - e₂ - 53) (-1074))

/-- The exponent of a quotient is written out for 64 bits. The accuracy is what the remainder says,
and is not needed. -/
theorem div_finite_eq {m₁ m₂ : Nat} {e₁ e₂ : Int} (h₁ : 0 < m₁) (h₂ : 0 < m₂) :
    ∃ a, UnpackedFloat.div .binary64 (.finite .positive m₁ e₁ h₁) (.finite .positive m₂ e₂ h₂) =
      roundWithAccuracy .binary64 .positive
        ((m₁ <<< (e₁ - e₂ - quotientExponent m₁ e₁ m₂ e₂).toNat) / m₂)
        (quotientExponent m₁ e₁ m₂ e₂) a := by
  have hexponent : min (e₁ - e₂) (Format.binary64.targetExponent
      (totalExponent m₁ e₁ - totalExponent m₂ e₂)) = quotientExponent m₁ e₁ m₂ e₂ := by
    simp only [quotientExponent, Format.targetExponent, totalExponent, Format.mantissaBits,
      Format.minExponent]
    norm_num
    omega
  rw [← hexponent]
  exact ⟨_, rfl⟩

/-- A quotient that is small enough is finite. -/
theorem plain_div {m₁ m₂ : Nat} {e₁ e₂ : Int} (h₁ : 0 < m₁) (h₂ : 0 < m₂) (he : e₁ - e₂ ≤ 970)
    (hm : (m₁.log2 : Int) + e₁ - m₂.log2 - e₂ ≤ 1022) :
    Plain 971 (Float.Model.pack (UnpackedFloat.div .binary64 (.finite .positive m₁ e₁ h₁)
      (.finite .positive m₂ e₂ h₂))).unpack := by
  obtain ⟨a, hdiv⟩ := @div_finite_eq m₁ m₂ e₁ e₂ h₁ h₂
  rw [hdiv]
  -- the shift before the division adds as many bits as the exponent is lowered by
  have hle : quotientExponent m₁ e₁ m₂ e₂ ≤ e₁ - e₂ := Int.min_le_left ..
  have hlog := @log2_div_le (m₁ <<< (e₁ - e₂ - quotientExponent m₁ e₁ m₂ e₂).toNat) m₂ (by omega)
  rw [log2_shiftLeft (by omega)] at hlog
  exact plain_round a (by omega) (by omega) (by decide) (by decide)

/-! ## Decimals -/

section Decimals

variable {n k p : Nat} (hp : p = 970) (hk : 0 < k)

include hp

/-- The quotient of two whole numbers is finite below the last halfway point and infinite from
there on. -/
theorem unpack_div_whole {d : Nat} (hn : 0 < n) (hd : 0 < d) :
    (n / d < halfway p → Plain 971 (Float.Model.pack (UnpackedFloat.div .binary64
      (.finite .positive n 0 hn) (.finite .positive d 0 hd))).unpack) ∧
    (halfway p ≤ n / d → (Float.Model.pack (UnpackedFloat.div .binary64
      (.finite .positive n 0 hn) (.finite .positive d 0 hd))).unpack = .infinity .positive) := by
  by_cases hsmall : n.log2 ≤ d.log2 + 1022
  · have hlog := @log2_div_le n d (by omega)
    have hlt : n / d < halfway p := lt_halfway_of_log2 (by omega)
    exact ⟨fun _ => plain_div hn hd (by decide) (by omega), fun h => absurd h (by omega)⟩
  · -- the quotient has more bits than a mantissa, so no bit of it is lost before it is rounded
    have hexponent : quotientExponent n 0 d 0 = 0 := by
      unfold quotientExponent
      omega
    obtain ⟨a, hdiv⟩ := @div_finite_eq n d 0 0 hn hd
    rw [hdiv, hexponent]
    exact ⟨plain_round_of_lt hp a, unpack_round_of_le hp a⟩

include hk

/-- A decimal is finite if its whole part is below the last halfway point and infinite from
there on. -/
theorem unpack_ofScientific :
    (n / 10 ^ k < halfway p →
      Plain 971 (Float.Model.ofScientific n (Int.negOfNat k)).unpack) ∧
    (halfway p ≤ n / 10 ^ k →
      (Float.Model.ofScientific n (Int.negOfNat k)).unpack = .infinity .positive) := by
  have hneg : Int.negOfNat k = -(k : Int) := by
    cases k <;> rfl
  have hbits : (2 : Int) ^ Format.binary64.exponentBits = 2048 := by decide
  have hpos : 0 < halfway p := by
    unfold halfway
    exact Nat.sub_pos_of_lt (Nat.pow_lt_pow_right (by decide) (by omega))
  unfold Float.Model.ofScientific UnpackedFloat.ofScientific
  rw [hneg, hbits]
  by_cases hn : n = 0
  · rw [dif_pos hn]
    subst hn
    rw [Nat.zero_div]
    exact ⟨fun _ => plain_zero 971, fun h => absurd h (by omega)⟩
  rw [dif_neg hn, if_neg (by omega)]
  by_cases htiny : -(k : Int) < -(2048 + (n.log2 : Int))
  · -- so tiny a number has no whole part
    have hlt : n / 10 ^ k = 0 := by
      refine Nat.div_eq_of_lt ?_
      calc n < 2 ^ (n.log2 + 1) := Nat.lt_log2_self
        _ ≤ 2 ^ k := Nat.pow_le_pow_right (by decide) (by omega)
        _ ≤ 10 ^ k := Nat.pow_le_pow_left (by decide) k
    rw [if_pos htiny, hlt]
    exact ⟨fun _ => plain_zero 971, fun h => absurd h (by omega)⟩
  · rw [if_neg htiny, if_neg (by omega)]
    simp only [neg_neg, Int.toNat_natCast]
    exact unpack_div_whole hp _ _

end Decimals

/-- A whole number of at most 53 bits. -/
theorem plain_toFloat {n : Nat} (hn : n < 2 ^ 53) : Plain 1 n.toUInt64.toFloat.toModel.unpack := by
  have hnat : n.toUInt64.toNat = n := by
    show n % 2 ^ 64 = n
    omega
  show Plain 1 (Float.Model.pack
    (UnpackedFloat.normalize .binary64 (n.toUInt64.toNat : Int) 0 .positive)).unpack
  rw [hnat]
  unfold UnpackedFloat.normalize
  by_cases hzero : n = 0
  · subst hzero
    exact plain_zero 1
  · have hgt : compare (n : Int) 0 = .gt := Int.compare_eq_gt.mpr (by omega)
    rw [hgt]
    have hlog : n.log2 < 53 := (Nat.log2_lt hzero).mpr hn
    have hshift : ∀ k, ((n : Int).toNat <<< k).log2 = n.log2 + k := log2_shiftLeft hzero
    exact plain_round .exact (by omega) (by rw [hshift]; omega) (by decide) (by decide)

/-- Whether a number is finite and has no bit behind that of one half to the 52nd power. -/
def coarse : UnpackedFloat → Bool
  | .finite .positive _ e _ => decide (-52 ≤ e)
  | _ => false

/-- The powers of ten that are exact have few bits behind the point. It is a table, so this is
computed. -/
theorem coarse_powersOfTen :
    Float.exactlyRepresentablePowersOfTen.all (fun x => coarse x.toModel.unpack) = true := by
  decide +kernel

/-- A number of at most 54 bits stays finite when it is divided by a coarse one. -/
theorem plain_div_of_coarse {x y : UnpackedFloat} (hx : Plain 1 x) (hy : coarse y = true) :
    Plain 971 (Float.Model.pack (UnpackedFloat.div .binary64 x y)).unpack := by
  unfold coarse at hy
  split at hy
  · rename_i m₂ e₂ h₂
    have hy' : -52 ≤ e₂ := of_decide_eq_true hy
    cases x with
    | zero s =>
      cases hx
      exact plain_zero 971
    | finite s m₁ e₁ h₁ =>
      obtain ⟨rfl, hm, he⟩ := hx
      have hlog : m₁.log2 < 53 := (Nat.log2_lt (by omega)).mpr hm
      exact plain_div h₁ h₂ (by omega) (by omega)
    | infinity s => exact hx.elim
    | notANumber => exact hx.elim
  · exact absurd hy Bool.false_ne_true

/-- The same two cases for a decimal as it is read, which takes a shorter way for small numbers. -/
theorem unpack_scaled {n k p : Nat} (hp : p = 970) (hk : 0 < k) :
    (n / 10 ^ k < halfway p → Plain 971 (Decimal.scaled n (0 - k)).toModel.unpack) ∧
    (halfway p ≤ n / 10 ^ k →
      (Decimal.scaled n (0 - k)).toModel.unpack = .infinity .positive) := by
  have hscaled : Decimal.scaled n (0 - k) = Float.ofScientific n true k := by
    unfold Decimal.scaled
    rw [decide_eq_true (by omega), show (0 - (k : Int)).natAbs = k by omega]
  rw [hscaled]
  unfold Float.ofScientific
  -- a small number is divided by a power of ten from the table, and neither of them is large
  by_cases hfast : n < 2 ^ 53 ∧ k ≤ 22
  · have hlt : n / 10 ^ k < halfway p := by
      have hbits : n.log2 < 53 := by
        by_cases hn : n = 0
        · rw [hn]
          decide
        · exact (Nat.log2_lt hn).mpr hfast.1
      exact Nat.lt_of_le_of_lt (Nat.div_le_self ..) (lt_halfway_of_log2 (by omega))
    have hsize : k < Float.exactlyRepresentablePowersOfTen.size :=
      Nat.lt_of_le_of_lt hfast.2 (by decide)
    rw [dif_pos hfast]
    exact ⟨fun _ => plain_div_of_coarse (plain_toFloat hfast.1)
      (Array.all_eq_true.mp coarse_powersOfTen k hsize), fun h => absurd h (by omega)⟩
  · rw [dif_neg hfast]
    exact unpack_ofScientific hp hk

/-! ## Literals -/

/-- Digits behind a number do not change what stands before them. -/
theorem foldl_digits_div {fraction : List Char} (h : ∀ c ∈ fraction, c.isDigit) (n : Nat) :
    fraction.foldl (fun n c => 10 * n + Integer.digitValue c) n / 10 ^ fraction.length = n := by
  induction fraction generalizing n with
  | nil => exact Nat.div_one n
  | cons c fraction ih =>
    have hdigit : Integer.digitValue c ≤ 9 := by
      have hc := toNat_of_isDigit (h c List.mem_cons_self)
      show c.val.toNat - 48 ≤ 9
      omega
    rw [List.foldl_cons, List.length_cons, Nat.pow_succ, ← Nat.div_div_eq_div_mul,
      ih (fun d hd => h d (List.mem_cons_of_mem c hd))]
    omega

/-- The number from which on a literal has no finite value. It lies halfway between the largest
finite number and the power of two that would follow. -/
def overflow : Nat := 2 ^ 1024 - 2 ^ 970

/-- A literal is finite if the number before its point is less than `overflow`, and infinite if
not. -/
theorem unpack_read? {text : String} {whole fraction : List Char} {x : Float}
    (htext : text.toList = whole ++ '.' :: fraction) (hwhole : IsDigits whole)
    (hfraction : IsDigits fraction) (hx : Decimal.read? text = some x) :
    (Integer.ofDigits whole < overflow → Plain 971 x.toModel.unpack) ∧
    (overflow ≤ Integer.ofDigits whole → x.toModel.unpack = .infinity .positive) := by
  have hoverflow : overflow = halfway 970 := by
    decide +kernel
  -- without the digits behind the point the whole part is left
  have hfloor : Integer.ofDigits (whole ++ fraction) / 10 ^ fraction.length
      = Integer.ofDigits whole := by
    rw [Integer.ofDigits, List.foldl_append]
    exact foldl_digits_div hfraction.2 _
  have hlength : 0 < fraction.length := List.length_pos_iff.mpr hfraction.1
  rw [Decimal.read?_point htext hwhole hfraction] at hx
  cases hx
  rw [hoverflow, ← hfloor]
  exact unpack_scaled rfl hlength

end FloatRange

end SimpleLang
