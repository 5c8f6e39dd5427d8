import Mathlib

/-!
# The order of floats

Equality and the comparisons of floats all come from one function, `Float.Model.compare`, which
gives no answer just if one side is not a number.

* `exists_compare`: two numbers stand in some order, and `compare_swap` gives the order the other
  way round. What `==`, `<` and `≤` say is read off it (`beq_eq_isEq`, `lt_eq_isLT`, `le_eq_isLE`).
* `beq_self`, `beq_symm`, `beq_trans`: equality is reflexive on numbers, symmetric and transitive.
* `isNaN_ofInt`: every integer converts to a number, however large it is.
-/

namespace SimpleLang

namespace FloatOrder

open Float.Model (UnpackedFloat Format)
open Float.Model.UnpackedFloat (Sign Accuracy)

/-! ## Order -/

/-- One case for each pair of kinds. Only two finite numbers are compared by more than their
signs. -/
theorem unpacked_compare_swap (a b : UnpackedFloat) :
    b.compare a = (a.compare b).map Ordering.swap := by
  cases a with
  | notANumber => cases b <;> rfl
  | infinity s =>
    cases b with
    | infinity s' => cases s <;> cases s' <;> rfl
    | _ => cases s <;> rfl
  | zero s =>
    cases b with
    | infinity s' => cases s' <;> rfl
    | finite s' m' e' _ => cases s' <;> rfl
    | _ => rfl
  | finite s m e _ =>
    cases b with
    | notANumber => rfl
    | infinity s' => cases s' <;> rfl
    | zero s' => cases s <;> rfl
    | finite s' m' e' _ =>
      -- the exponents decide, then the significands, and a negative sign turns the order around
      have hmagnitude : (compare e' e).then (compare m' m) =
          ((compare e e').then (compare m m')).swap := by
        rw [Ordering.swap_then, ← Std.OrientedCmp.eq_swap, ← Std.OrientedCmp.eq_swap]
      cases s <;> cases s'
      · exact congrArg (fun o : Ordering => some o.swap) hmagnitude
      · rfl
      · rfl
      · exact congrArg some hmagnitude

/-- Of all pairs of kinds, only those with `notANumber` have no order. -/
theorem isSome_unpacked_compare {a b : UnpackedFloat} (ha : a.isNaN = false)
    (hb : b.isNaN = false) : (a.compare b).isSome := by
  cases a with
  | notANumber => cases ha
  | infinity s =>
    cases b with
    | notANumber => cases hb
    | _ => cases s <;> rfl
  | zero s =>
    cases b with
    | notANumber => cases hb
    | infinity s' => cases s' <;> rfl
    | zero s' => rfl
    | finite s' m' e' _ => cases s' <;> rfl
  | finite s m e _ =>
    cases b with
    | notANumber => cases hb
    | infinity s' => cases s' <;> rfl
    | zero s' => cases s <;> rfl
    | finite s' m' e' _ => cases s <;> cases s' <;> rfl

variable {x y z : Float} {o : Ordering}

/-- `unpacked_compare_swap` for the floats themselves. -/
theorem compare_swap (x y : Float) :
    y.toModel.compare x.toModel = (x.toModel.compare y.toModel).map Ordering.swap :=
  unpacked_compare_swap _ _

theorem exists_compare (hx : x.isNaN = false) (hy : y.isNaN = false) :
    ∃ o, x.toModel.compare y.toModel = some o :=
  Option.isSome_iff_exists.mp (isSome_unpacked_compare hx hy)

/-- Floats are equal just if they compare so, which the two zeros do. -/
theorem beq_eq_isEq (h : x.toModel.compare y.toModel = some o) : (x == y) = o.isEq := by
  show (x.toModel.compare y.toModel == some .eq) = _
  rw [h]
  cases o <;> rfl

/-- `<` on floats is the same test of `Float.Model.compare`, for another answer. -/
theorem lt_eq_isLT (h : x.toModel.compare y.toModel = some o) : decide (x < y) = o.isLT := by
  have hlt : x < y ↔ (x.toModel.compare y.toModel == some .lt) = true := decide_eq_true_iff
  rw [Bool.eq_iff_iff, decide_eq_true_iff, hlt, h]
  cases o <;> decide

theorem le_eq_isLE (h : x.toModel.compare y.toModel = some o) : decide (x ≤ y) = o.isLE := by
  have hle : x ≤ y ↔ (x.toModel.compare y.toModel).any (·.isLE) = true := decide_eq_true_iff
  rw [Bool.eq_iff_iff, decide_eq_true_iff, hle, h]
  cases o <;> decide

/-! ## Equality -/

/-- What is not a number is the only float that differs from itself. -/
theorem beq_self (x : Float) : (x == x) = !x.isNaN := by
  rw [Float.isNaN_eq_decide_eq_nan, Bool.eq_iff_iff, Float.beq_self_iff]
  simp

/-- By `Float.beq_iff_ne_nan_and_eq`: equal floats are the same, or the two zeros. -/
theorem beq_symm (h : x == y) : y == x := by
  rw [Float.beq_iff_ne_nan_and_eq] at h ⊢
  obtain ⟨hx, hy, heq⟩ := h
  refine ⟨hy, hx, ?_⟩
  rcases heq with heq | hzeros | hzeros
  · exact .inl heq.symm
  · exact .inr (.inr hzeros.symm)
  · exact .inr (.inl hzeros.symm)

theorem beq_trans (h : x == y) (h' : y == z) : x == z := by
  rw [Float.beq_iff_ne_nan_and_eq] at h h' ⊢
  obtain ⟨hx, -, hxy⟩ := h
  obtain ⟨-, hz, hyz⟩ := h'
  refine ⟨hx, hz, ?_⟩
  -- equal floats are the same, or they are the two zeros
  rcases hxy with rfl | ⟨rfl, rfl⟩ | ⟨rfl, rfl⟩
  · exact hyz
  · grind
  · grind

/-! ## Integers as floats -/

/-- Packing keeps a number a number: one that is too large becomes an infinity. -/
theorem isNaNBits_pack {f : UnpackedFloat} (h : f.isNaN = false) :
    UnpackedFloat.isNaNBits (UnpackedFloat.pack .binary64 f) = false := by
  unfold UnpackedFloat.isNaNBits
  fun_cases UnpackedFloat.pack with
  | case1 => cases h
  | case2 s => simp [UnpackedFloat.packedInfinity]
  | case3 s => simp [UnpackedFloat.packedZero]
  | case4 s m e hm biased hbiased => simp [UnpackedFloat.packedInfinity]
  | case5 s m e hm bits biased hbiased hnormal =>
    -- an exponent of all ones is left to the infinities and to what is not a number
    have hlt : biased + 1 < 2048 := Nat.lt_of_not_le hbiased
    have hne : BitVec.ofNat 11 biased ≠ 2047#11 := by
      intro heq
      have hmod : biased % 2048 = 2047 := congrArg BitVec.toNat heq
      omega
    simp [hne]
  | case6 s m e hm bits biased hbiased hsubnormal => simp

/-- Packing and unpacking again. What comes out would be no number only if its bits said so, and
`isNaNBits_pack` excludes that. -/
theorem isNaN_pack {f : UnpackedFloat} (h : f.isNaN = false) :
    (Float.Model.pack f).isNaN = false := by
  refine Bool.eq_false_iff.mpr fun hnan => ?_
  -- all that is not a number is packed into the same bits
  have hpacked := (UnpackedFloat.isNaN_unpack_iff_of_valid (Float.Model.pack f).valid).mp hnan
  have hbits := isNaNBits_pack h
  rw [show UnpackedFloat.pack .binary64 f = _ from hpacked,
    UnpackedFloat.isNaNBits_packedNaN] at hbits
  cases hbits

/-- Rounding gives a zero or a finite number. -/
theorem isNaN_roundWithAccuracy (s : Sign) (m : Nat) (e : Int) (a : Accuracy) :
    (UnpackedFloat.roundWithAccuracy .binary64 s m e a).isNaN = false := by
  unfold UnpackedFloat.roundWithAccuracy
  simp only
  split <;> rfl

/-- An infinity times a zero is no number, so one factor has to be finite and not zero. -/
theorem isNaN_mul_finite {f : UnpackedFloat} (h : f.isNaN = false) (s : Sign) {m : Nat} (e : Int)
    (hm : 0 < m) : (UnpackedFloat.mul .binary64 f (.finite s m e hm)).isNaN = false := by
  cases f with
  | notANumber => cases h
  | infinity s' => rfl
  | zero s' => rfl
  | finite s' m' e' _ => exact isNaN_roundWithAccuracy ..

/-- An integer is zero, or it is rounded with its sign. -/
theorem isNaN_unpacked_ofInt (n : Int) : (UnpackedFloat.ofInt .binary64 n).isNaN = false := by
  unfold UnpackedFloat.ofInt UnpackedFloat.normalize
  split
  · exact isNaN_roundWithAccuracy ..
  · rfl
  · exact isNaN_roundWithAccuracy ..

/-- The power of ten is one here, so this is a product (`isNaN_mul_finite`). -/
theorem isNaN_ofScientific (n : Nat) :
    (UnpackedFloat.ofScientific .binary64 n 0).isNaN = false := by
  unfold UnpackedFloat.ofScientific
  split
  · rfl
  · have hpow : (0 : Int) ≤ 2 ^ Format.binary64.exponentBits := by decide
    rw [if_neg (by decide), if_neg (by omega), if_pos (Int.le_refl 0)]
    exact isNaN_mul_finite rfl ..

/-- A natural number below `2 ^ 53` is converted exactly and multiplied by one, a larger one is
rounded. -/
theorem isNaN_ofNat (n : Nat) : (Float.ofNat n).isNaN = false := by
  show (Float.ofScientific n false 0).isNaN = false
  unfold Float.ofScientific
  split
  · obtain ⟨hm, hone⟩ : ∃ hm, (Float.ofBits 0x3FF0000000000000).toModel.unpack =
        .finite .positive 0x10000000000000 (-52) hm := ⟨by decide, by rfl⟩
    show (Float.Model.pack (UnpackedFloat.mul .binary64 n.toUInt64.toFloat.toModel.unpack
      (Float.ofBits 0x3FF0000000000000).toModel.unpack)).isNaN = false
    rw [hone]
    exact isNaN_pack (isNaN_mul_finite (isNaN_pack (isNaN_unpacked_ofInt _)) ..)
  · exact isNaN_pack (isNaN_ofScientific n)

/-- A negative integer is the opposite of a natural number. -/
theorem isNaN_ofInt (n : Int) : (Float.ofInt n).isNaN = false := by
  have hneg (f : UnpackedFloat) : f.neg.isNaN = f.isNaN := by cases f <;> rfl
  cases n with
  | ofNat n => exact isNaN_ofNat n
  | negSucc n =>
    refine isNaN_pack ?_
    rw [hneg]
    exact isNaN_ofNat n.succ

end FloatOrder

end SimpleLang
