import SimpleLang.Proofs.Machine.Invariants

/-!
# Machine integers and the integers of mathematics

A machine that works with 64 bits computes what one with unbounded integers computes, as long as no
operation overflows. It overflows only where the exact result does not fit 64 bits, and at the
remainder of the least integer by minus one.

* `Operation.arithmetic?`: the exact result of an operation on integers.
* `Operation.apply_cases`: only operations on two integers depend on the range;
  `Operation.apply_unbounded`: one that does not overflow has the result that it has on unbounded
  integers.
* `Value.InRange`: all integers in the value fit 64 bits; `lasting_inRange`: so it is throughout a
  run with 64 bits.
* `Operation.OutOfRange`: when an operation on 64-bit integers has no result.
-/

namespace SimpleLang

variable {W : Type}

open Run

def Settings.bounded (settings : Settings) : Settings := { settings with integers := .bits64 }

def Settings.unbounded (settings : Settings) : Settings :=
  { settings with integers := .unbounded }

/-! ## Operations -/

namespace Operation

/-- The exact result of an arithmetic operation. Division and remainder round toward zero. -/
def arithmetic? (op : Operation) (a b : Int) : Option Int :=
  match op with
  | .add => some (a + b)
  | .sub => some (a - b)
  | .mul => some (a * b)
  | .div => some (a.tdiv b)
  | .mod => some (a.tmod b)
  | _ => none

/-- Both operands fit 64 bits, but the exact result does not, or the operation is the remainder of
the least integer by minus one. -/
def OutOfRange (op : Operation) (a b : Int) : Prop :=
  (Integer.inRange a ∧ Integer.inRange b) ∧
    ((∃ n, op.arithmetic? a b = some n ∧ (n < -2 ^ 63 ∨ 2 ^ 63 - 1 < n)) ∨
      (op = .mod ∧ a = -2 ^ 63 ∧ b = -1))

end Operation

namespace Integer

/-- With the bounds as powers of two, in the form that `omega` takes. -/
theorem inRange_iff (n : Int) : inRange n ↔ -2 ^ 63 ≤ n ∧ n ≤ 2 ^ 63 - 1 := by
  unfold inRange
  rw [Bool.and_eq_true, decide_eq_true_iff, decide_eq_true_iff]
  unfold least greatest
  omega

/-- Literals are of type `Int64`, so they fit. -/
theorem inRange_toInt (n : Int64) : inRange n.toInt := by
  have hle := n.le_toInt
  have hlt := n.toInt_lt
  rw [inRange_iff]
  omega

/-- A remainder is no larger than the dividend. -/
theorem inRange_tmod {a : Int} (b : Int) (ha : inRange a) : inRange (a.tmod b) := by
  rw [inRange_iff] at ha ⊢
  have habs := Int.natAbs_tmod a b
  have hle := Nat.mod_le a.natAbs b.natAbs
  rcases Int.le_total 0 a with hpos | hneg
  · have := Int.tmod_nonneg b hpos
    omega
  · have hflip : (-a).tmod b = -(a.tmod b) := Int.neg_tmod a b
    have := Int.tmod_nonneg b (show 0 ≤ -a by omega)
    omega

/-- Only the quotient of the least integer by minus one does not fit. -/
theorem eq_of_tdiv {a b : Int} (ha : inRange a) (hquotient : ¬ inRange (a.tdiv b)) :
    a = -2 ^ 63 ∧ b = -1 := by
  rw [inRange_iff] at ha hquotient
  have habs : (a.tdiv b).natAbs = a.natAbs / b.natAbs := Int.natAbs_tdiv a b
  have hle : a.natAbs / b.natAbs ≤ a.natAbs := Nat.div_le_self _ _
  -- a zero divisor gives zero, and one of two or more a smaller quotient: both would fit
  have hone : b.natAbs = 1 := by
    rcases Nat.lt_trichotomy b.natAbs 1 with hlt | heq | hgt
    · rw [Nat.lt_one_iff.mp hlt, Nat.div_zero] at habs
      omega
    · exact heq
    · have := Nat.div_lt_self (show 0 < a.natAbs by omega) hgt
      omega
  rcases Int.natAbs_eq b with hb | hb
  · rw [hone] at hb
    subst hb
    rw [Nat.cast_one, Int.tdiv_one] at hquotient
    exact absurd ha hquotient
  · rw [hone] at hb
    rw [hone, Nat.div_one] at habs
    refine ⟨?_, hb⟩
    omega

end Integer

namespace Integers

theorem check_bits64 (n : Int) : bits64.check n = if Integer.inRange n then some n else none := rfl

theorem check_unbounded (n : Int) : unbounded.check n = some n := rfl

theorem remainder_bits64 (a b : Int) :
    bits64.remainder a b = if Integer.inRange (a.tdiv b) then some (a.tmod b) else none := rfl

theorem remainder_unbounded (a b : Int) : unbounded.remainder a b = some (a.tmod b) := rfl

end Integers

/-! ## Values -/

mutual
/-- All integers in the value fit 64 bits. -/
def Value.InRange : Value → Prop
  | .int n => Integer.inRange n
  | .array items => Value.AllInRange items
  | .unit | .float _ | .string _ | .bool _ | .closure _ | .builtin _ => True
def Value.AllInRange : List Value → Prop
  | [] => True
  | v :: rest => v.InRange ∧ Value.AllInRange rest
end

/-- `Value.AllInRange` is there because `Value.InRange` recurses through lists. In proofs it is a
statement about the members. -/
theorem Value.allInRange_iff {vs : List Value} :
    Value.AllInRange vs ↔ ∀ v ∈ vs, v.InRange := by
  induction vs with
  | nil => exact iff_of_true trivial (List.forall_mem_nil _)
  | cons v vs ih => rw [Value.AllInRange, ih, List.forall_mem_cons]

namespace Operation

/-- No integer comes of an operation on floats. -/
theorem inRange_of_onFloats? {op : Operation} {a b : Float} {v : Value}
    (h : op.onFloats? a b = some v) : v.InRange := by
  cases op <;> cases h <;> trivial

/-- An operation on two integers may depend on the range. All others do not, no integer comes of
them, and they do not overflow. -/
theorem apply_cases (op : Operation) (a b : Value) :
    (∃ n k, a = .int n ∧ b = .int k ∧ ∀ range, op.apply range a b = op.onIntegers range n k) ∨
    ∃ r, (∀ range, op.apply range a b = r) ∧ (∀ v, r = .ok v → v.InRange) ∧
      ∀ f, r = .error f → f.isOverflow = false := by
  have hbool (x : Bool) (v : Value) (h : (.ok (.bool x) : Except Fault Value) = .ok v) :
      v.InRange := by
    cases h
    trivial
  have hstring (x : String) (v : Value) (h : (.ok (.string x) : Except Fault Value) = .ok v) :
      v.InRange := by
    cases h
    trivial
  unfold apply
  split
  · exact .inr ⟨_, fun _ => rfl, hbool _, fun f h => (by cases h)⟩
  · exact .inr ⟨_, fun _ => rfl, hbool _, fun f h => (by cases h)⟩
  · exact .inr ⟨_, fun _ => rfl, hstring _, fun f h => (by cases h)⟩
  · exact .inr ⟨_, fun _ => rfl, hstring _, fun f h => (by cases h)⟩
  -- two integers, two strings, and all others, which are floats or a mismatch
  · unfold onOperands
    split
    · exact .inl ⟨_, _, rfl, rfl, fun _ => rfl⟩
    · refine .inr ⟨_, fun _ => rfl, fun v h => ?_, fun f h => ?_⟩
      · split at h <;> cases h
        trivial
      · split at h <;> cases h
        rfl
    · refine .inr ⟨_, fun _ => rfl, fun v h => ?_, fun f h => ?_⟩
      · split at h
        · split at h
          · next hfloats =>
            cases h
            exact inRange_of_onFloats? hfloats
          · cases h
        · cases h
      · split at h
        · split at h <;> cases h
          rfl
        · cases h
          rfl

end Operation

/-! ## Without overflow -/

/-- The run stopped at an overflow. -/
def Stop.IsOverflow (e : Stop) : Prop := ∃ op a b, e = .fault (.overflow op a b)

namespace Operation

variable (op : Operation)

/-- The ranges differ in `Integers.check` and `Integers.remainder` only, which with 64 bits may
refuse a result but not change it. -/
theorem onIntegers_unbounded (a b : Int) :
    op.onIntegers .bits64 a b = .error (.overflow op a b) ∨
      op.onIntegers .unbounded a b = op.onIntegers .bits64 a b := by
  -- either 64 bits do not suffice, or the range makes no difference
  have hcheck (n : Int) : Integers.bits64.check n = none ∨
      Integers.unbounded.check n = Integers.bits64.check n := by
    rw [Integers.check_bits64, Integers.check_unbounded]
    split
    · exact .inr rfl
    · exact .inl rfl
  have hremainder : Integers.bits64.remainder a b = none ∨
      Integers.unbounded.remainder a b = Integers.bits64.remainder a b := by
    rw [Integers.remainder_bits64, Integers.remainder_unbounded]
    split
    · exact .inr rfl
    · exact .inl rfl
  cases op with
  | add =>
    simp only [onIntegers]
    rcases hcheck (a + b) with h | h <;> simp [h]
  | sub =>
    simp only [onIntegers]
    rcases hcheck (a - b) with h | h <;> simp [h]
  | mul =>
    simp only [onIntegers]
    rcases hcheck (a * b) with h | h <;> simp [h]
  | div =>
    simp only [onIntegers]
    split
    · exact .inr rfl
    · rcases hcheck (a.tdiv b) with h | h <;> simp [h]
  | mod =>
    simp only [onIntegers]
    split
    · exact .inr rfl
    · rcases hremainder with h | h <;> simp [h]
  | _ => exact .inr rfl

/-- An operation that does not overflow has the result that it has on unbounded integers. -/
theorem apply_unbounded (a b : Value) :
    (∃ n k, op.apply .bits64 a b = .error (.overflow op n k)) ∨
      op.apply .unbounded a b = op.apply .bits64 a b := by
  rcases op.apply_cases a b with ⟨n, k, rfl, rfl, h⟩ | ⟨r, h, _⟩
  · rw [h, h]
    rcases onIntegers_unbounded op n k with hoverflow | heq
    · exact .inl ⟨n, k, hoverflow⟩
    · exact .inr heq
  · exact .inr ((h .unbounded).trans (h .bits64).symm)

end Operation

/-- Runs with the two kinds of integers agree, unless the one with 64 bits overflows. -/
theorem Run.respects_unbounded (settings : Settings) (patience : Nat) :
    Respects (W := W) (Agrees Stop.IsOverflow) settings.bounded settings.unbounded
      patience patience := by
  refine respects_agrees_of_apply rfl (fun op a b m => ?_) (Nat.le_refl patience)
    fun hlt => absurd hlt (Nat.lt_irrefl patience)
  show (∃ e m', ofExcept (op.apply .bits64 a b) m = .error e m' ∧ Stop.IsOverflow e) ∨
    ofExcept (op.apply .unbounded a b) m = ofExcept (op.apply .bits64 a b) m
  rcases op.apply_unbounded a b with ⟨n, k, h⟩ | h
  · rw [h]
    exact .inl ⟨_, m, rfl, op, n, k, rfl⟩
  · rw [h]
    exact .inr rfl

/-- The program stopped at an overflow. -/
def Execution.Overflows (e : Execution W) : Prop :=
  ∃ op a b, e.failure = some (.stopped (.fault (.overflow op a b)))

/-- `Run.respects_unbounded` for whole programs. The checks do not look at the range. -/
theorem execute_unbounded (settings : Settings) (patience : Nat) (p : Program) (sink : Sink W) :
    (execute settings.bounded patience p sink).Overflows ∨
      execute settings.unbounded patience p sink = execute settings.bounded patience p sink := by
  unfold execute
  cases p.check with
  | cons mistake mistakes => exact .inr rfl
  | nil =>
    rcases respects_program (respects_unbounded settings patience) rfl p.statements
      (.start sink) with ⟨e, m, hm, op, a, b, rfl⟩ | heq
    · rw [hm]
      exact .inl ⟨op, a, b, rfl⟩
    · rw [heq]
      exact .inr rfl

/-! ## The range of a run -/

namespace Operation

variable {op : Operation}

/-- What `Integers.check` lets pass is the number itself, and in range. -/
theorem inRange_of_check {n k : Int} (h : Integers.bits64.check n = some k) :
    Integer.inRange k := by
  rw [Integers.check_bits64] at h
  split at h
  · next hrange =>
    cases h
    exact hrange
  · cases h

/-- What it refuses is beyond one of the bounds. -/
theorem lt_of_check {n : Int} (h : Integers.bits64.check n = none) :
    n < -2 ^ 63 ∨ 2 ^ 63 - 1 < n := by
  rw [Integers.check_bits64] at h
  split at h
  · cases h
  · next hrange =>
    rw [Integer.inRange_iff] at hrange
    omega

/-- A remainder that is given fits because its dividend does (`Integer.inRange_tmod`). -/
theorem inRange_of_remainder {a b n : Int} (ha : Integer.inRange a)
    (h : Integers.bits64.remainder a b = some n) : Integer.inRange n := by
  rw [Integers.remainder_bits64] at h
  split at h
  · cases h
    exact Integer.inRange_tmod b ha
  · cases h

/-- A remainder is refused just where the quotient does not fit, even though it would be zero. -/
theorem eq_of_remainder {a b : Int} (ha : Integer.inRange a)
    (h : Integers.bits64.remainder a b = none) : a = -2 ^ 63 ∧ b = -1 := by
  rw [Integers.remainder_bits64] at h
  split at h
  · cases h
  · next hquotient => exact Integer.eq_of_tdiv ha hquotient

/-- The result of an operation on 64-bit integers fits 64 bits. -/
theorem inRange_of_onIntegers {a b : Int} {v : Value} (ha : Integer.inRange a)
    (h : op.onIntegers .bits64 a b = .ok v) : v.InRange := by
  cases op with
  | add | sub | mul =>
    simp only [onIntegers] at h
    split at h
    · next hcheck =>
      cases h
      exact inRange_of_check hcheck
    · cases h
  | div =>
    simp only [onIntegers] at h
    split at h
    · cases h
    · split at h
      · next hcheck =>
        cases h
        exact inRange_of_check hcheck
      · cases h
  | mod =>
    simp only [onIntegers] at h
    split at h
    · cases h
    · split at h
      · next hremainder =>
        cases h
        -- the remainder is not checked itself, but it is no larger than `a`
        exact inRange_of_remainder ha hremainder
      · cases h
  | lt | gt | le | ge =>
    cases h
    trivial
  | eq | ne | and | or | not => cases h

/-- An operation on 64-bit integers overflows only out of range. -/
theorem outOfRange_of_onIntegers {op' : Operation} {a b n k : Int} (ha : Integer.inRange a)
    (hb : Integer.inRange b) (h : op.onIntegers .bits64 a b = .error (.overflow op' n k)) :
    op'.OutOfRange n k := by
  cases op with
  | add | sub | mul =>
    simp only [onIntegers] at h
    split at h
    · cases h
    · next hcheck =>
      cases h
      exact ⟨⟨ha, hb⟩, .inl ⟨_, rfl, lt_of_check hcheck⟩⟩
  | div =>
    simp only [onIntegers] at h
    split at h
    · cases h
    · split at h
      · cases h
      · next hcheck =>
        cases h
        exact ⟨⟨ha, hb⟩, .inl ⟨_, rfl, lt_of_check hcheck⟩⟩
  | mod =>
    simp only [onIntegers] at h
    split at h
    · cases h
    · split at h
      · cases h
      · next hremainder =>
        cases h
        -- only one pair of integers has a remainder that overflows
        exact ⟨⟨ha, hb⟩, .inr ⟨rfl, eq_of_remainder ha hremainder⟩⟩
  | lt | gt | le | ge => cases h
  | eq | ne | and | or | not => cases h

/-- Operations on two integers check their result, and no integer comes of the others
(`apply_cases`). -/
theorem inRange_of_apply {a b v : Value} (ha : a.InRange)
    (h : op.apply .bits64 a b = .ok v) : v.InRange := by
  rcases op.apply_cases a b with ⟨n, k, rfl, rfl, hints⟩ | ⟨r, hsame, hrange, _⟩
  · rw [hints] at h
    exact inRange_of_onIntegers ha h
  · exact hrange v ((hsame _).symm.trans h)

/-- Only operations on two integers overflow (`apply_cases`). -/
theorem outOfRange_of_apply {op' : Operation} {a b : Value} {n k : Int} (ha : a.InRange)
    (hb : b.InRange) (h : op.apply .bits64 a b = .error (.overflow op' n k)) :
    op'.OutOfRange n k := by
  rcases op.apply_cases a b with ⟨n', k', rfl, rfl, hints⟩ | ⟨r, hsame, _, hfault⟩
  · rw [hints] at h
    exact outOfRange_of_onIntegers ha hb h
  · have := hfault _ ((hsame _).symm.trans h)
    cases this

end Operation

/-- No property of syntax is asked for. -/
def Inherited.any : Inherited where
  expr _ := True
  function _ _ := True
  stmt _ := True
  binary _ := ⟨trivial, trivial⟩
  unary _ := trivial
  call _ := ⟨trivial, fun _ _ => trivial⟩
  array _ _ _ := trivial
  lambda _ := trivial
  declare _ := trivial
  assign _ := trivial
  value _ := trivial
  ret _ := trivial
  cond _ := ⟨trivial, trivial, fun _ _ => trivial⟩
  loop _ := ⟨trivial, trivial⟩
  block _ _ _ := trivial
  definition _ := trivial
  result _ := trivial
  statements _ _ _ := trivial

/-- All integers of a run with 64 bits fit 64 bits, and it overflows only out of range. -/
theorem lasting_inRange : Lasting Inherited.any .bits64 Value.InRange
    fun e => ∀ op n k, e = .fault (.overflow op n k) → op.OutOfRange n k where
  unit := trivial
  int n := Integer.inRange_toInt n
  float _ := trivial
  string _ := trivial
  bool _ := trivial
  builtin _ := trivial
  array h := Value.allInRange_iff.mpr h
  closure := Iff.rfl
  apply ha _ hv := Operation.inRange_of_apply ha hv
  faults hf := by
    rintro op n k heq
    cases heq
    cases hf
  overflow ha hb hf := by
    rintro op n k heq
    cases heq
    exact Operation.outOfRange_of_apply ha hb hf

/-- A program that stops at an overflow does so out of range. -/
theorem outOfRange_of_executes {settings : Settings} {p : Program} {sink : Sink W} {e : Execution W}
    (he : Executes settings.bounded p sink e) {op : Operation} {a b : Int}
    (hfailure : e.failure = some (.stopped (.fault (.overflow op a b)))) : op.OutOfRange a b := by
  -- a rejected program does not run, so it does not overflow
  have hcheck : p.check = [] := by
    obtain ⟨_, patience, rfl⟩ := he
    unfold execute at hfailure
    cases hcheck : p.check with
    | nil => rfl
    | cons mistake mistakes =>
      rw [hcheck] at hfailure
      cases hfailure
  obtain ⟨c, m, r, hreach, hhalts, rfl⟩ := (executes_iff_halts hcheck sink e).mp he
  cases r with
  | ok _ m' => cases hfailure
  | error stop m' =>
    cases hfailure
    exact lasting_inRange.stops_of_halts (fun _ _ => trivial) hreach hhalts op a b rfl

/-! ## Refinement -/

/-- Machine integers refine the integers of mathematics. Unless its run with 64 bits stops at an
overflow, a program ends with 64 bits just as it ends with unbounded integers: with the same output,
steps and failure, and if the one does not end neither does the other. Where it overflows, the
operands fit 64 bits, and either the exact result does not, or it is the remainder of the least
integer by minus one. All integers that the run with 64 bits ever has fit 64 bits. -/
theorem machine_integers_refine (settings : Settings) (p : Program) (sink : Sink W) :
    ((∀ e, Executes settings.bounded p sink e → ¬ e.Overflows) →
      ∀ e, Executes settings.bounded p sink e ↔ Executes settings.unbounded p sink e) ∧
    (∀ e op a b, Executes settings.bounded p sink e →
      e.failure = some (.stopped (.fault (.overflow op a b))) → op.OutOfRange a b) ∧
    ∀ c m, Reachable settings.bounded p sink c m →
      c.Each (fun _ => True) (fun _ => True) Value.InRange ∧ m.store.Each Value.InRange := by
  refine ⟨fun hfits e => ?_, fun e op a b he hfailure => outOfRange_of_executes he hfailure,
    fun c m hreach => lasting_inRange.of_reachable (fun _ _ => trivial) hreach⟩
  -- an overflow at some patience would be an execution that ends with it
  have hsame (patience : Nat) : execute settings.unbounded patience p sink
      = execute settings.bounded patience p sink := by
    rcases execute_unbounded settings patience p sink with hoverflow | heq
    · have hended : (execute settings.bounded patience p sink).Ended := by
        obtain ⟨op, a, b, hfailure⟩ := hoverflow
        unfold Execution.Ended
        rw [hfailure]
        simp
      exact absurd hoverflow (hfits _ (executes_of_ended hended))
    · exact heq
  unfold Executes
  simp only [hsame]

/-- The operation and the operands that the program stopped at, if it was an overflow. -/
def Execution.overflow? (e : Execution W) : Option (Operation × Int × Int) :=
  match e.failure with
  | some (.stopped (.fault (.overflow op a b))) => some (op, a, b)
  | _ => none

/-- `Execution.overflow?` is for evaluating executions. This is what it says. -/
theorem Execution.failure_of_overflow? {e : Execution W} {op : Operation} {a b : Int}
    (h : e.overflow? = some (op, a, b)) :
    e.failure = some (.stopped (.fault (.overflow op a b))) := by
  unfold overflow? at h
  split at h
  · next hfailure =>
    cases h
    exact hfailure
  · cases h

/-- Displays the greatest 64-bit integer, as a sum. -/
def greatestSum : Program :=
  ⟨[.expr (.call (.name "display") [.binary .add (.int 9223372036854775806) (.int 1)])]⟩

/-- Displays the remainder of the least 64-bit integer by minus one. -/
def leastRemainder : Program :=
  ⟨[.expr (.call (.name "display")
    [.binary .mod (.binary .sub (.int (-9223372036854775807)) (.int 1)) (.int (-1))])]⟩

/-- The sum just fits, and both machines display it. The remainder is zero on unbounded integers,
and an overflow with 64 bits. -/
theorem machine_integers_refine_boundary :
    (∃ e, Executes ({} : Settings).bounded greatestSum (.new none false) e ∧ ¬ e.Overflows ∧
      Executes ({} : Settings).unbounded greatestSum (.new none false) e ∧
      e.sink.bytes = "9223372036854775807\n".toUTF8) ∧
    (∃ e, Executes ({} : Settings).bounded leastRemainder (.new none false) e ∧
      e.failure = some (.stopped (.fault (.overflow .mod (-2 ^ 63) (-1)))) ∧
      Operation.mod.OutOfRange (-2 ^ 63) (-1)) ∧
    (execute ({} : Settings).unbounded 0 leastRemainder (.new none false)).sink.bytes
      = "0\n".toUTF8 ∧
    ∃ c m, Reachable ({} : Settings).bounded greatestSum (.new none false) c m ∧
      m.store.Each Value.InRange := by
  have hsum : (execute ({} : Settings).bounded 0 greatestSum (.new none false)).failure = none :=
    Option.isNone_iff_eq_none.mp (by decide +kernel)
  -- the run that was made has no failure, and there is no other one
  have hfits : ∀ e, Executes ({} : Settings).bounded greatestSum (.new none false) e →
      ¬ e.Overflows := by
    rintro e he ⟨op, a, b, hfailure⟩
    have hended : (execute ({} : Settings).bounded 0 greatestSum (.new none false)).Ended := by
      rw [Execution.Ended, hsum]
      simp
    obtain rfl := he.unique (executes_of_ended hended)
    rw [hsum] at hfailure
    cases hfailure
  have he : Executes ({} : Settings).bounded greatestSum (.new none false) _ :=
    @executes_of_ended Nat _ 0 _ _ (by rw [Execution.Ended, hsum]; simp)
  have hoverflow := Execution.failure_of_overflow?
    (show (execute ({} : Settings).bounded 0 leastRemainder (.new none false)).overflow?
      = some (.mod, -2 ^ 63, -1) by decide +kernel)
  have he' : Executes ({} : Settings).bounded leastRemainder (.new none false) _ :=
    @executes_of_ended Nat _ 0 _ _ (by rw [Execution.Ended, hoverflow]; simp)
  obtain ⟨hagree, _, hrange⟩ := machine_integers_refine {} greatestSum (.new none false)
  obtain ⟨_, hout, _⟩ := machine_integers_refine {} leastRemainder (.new none false)
  have hreach : Reachable ({} : Settings).bounded greatestSum (.new none false) _ _ :=
    ⟨1, after (programScope (.start (.new none false))), 0, rfl, .refl _ _⟩
  exact ⟨⟨_, he, hfits _ he, (hagree hfits _).mp he, by decide +kernel⟩,
    ⟨_, he', hoverflow, hout _ _ _ _ he' hoverflow⟩, by decide +kernel,
    _, _, hreach, (hrange _ _ hreach).2⟩

end SimpleLang
