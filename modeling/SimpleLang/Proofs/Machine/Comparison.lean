import SimpleLang.Machine.Operator
import SimpleLang.Proofs.Number.FloatOrder

/-!
# Equality and comparison of values

Equality looks at any two values, comparisons only at two numbers or two strings. Both take an
integer and a float as two floats, but each in its own way.

* `Value.equals_self`, `Value.equals_comm`: equality is reflexive on values that hold no float which
  is not a number, and symmetric.
* `Value.equals_trans`: it is transitive, except through a float between two integers. Integers that
  differ can convert to the same float, and then both are equal to it (`Value.bridged`).
* `Value.order?`: the order of two values. Equality and all comparisons are read off it
  (`Value.equals_of_order?`, `Operation.apply_of_order?`), so they agree with each other.
-/

namespace SimpleLang

namespace Value

/-! ## Equality -/

mutual
/-- Whether the value holds a float that is not a number, at any depth. -/
def hasNaN : Value → Bool
  | float x => x.isNaN
  | array items => anyNaN items
  | unit | int _ | string _ | bool _ | closure _ | builtin _ => false
def anyNaN : List Value → Bool
  | [] => false
  | v :: rest => v.hasNaN || anyNaN rest
end

mutual
/-- Whether at some place the outer two values hold different integers and the one in the middle
holds a float. -/
def bridged : Value → Value → Value → Bool
  | int m, float _, int n => m != n
  | array as, array bs, array cs => bridgedItems as bs cs
  | _, _, _ => false
def bridgedItems : List Value → List Value → List Value → Bool
  | a :: as, b :: bs, c :: cs => a.bridged b c || bridgedItems as bs cs
  | _, _, _ => false
end

mutual
/-- A float is equal to itself unless it is not a number (`FloatOrder.beq_self`), and an array if
its items are. -/
theorem equals_self : (v : Value) → v.equals v = !v.hasNaN
  | unit => rfl
  | int n => beq_self_eq_true n
  | string s => beq_self_eq_true s
  | bool b => beq_self_eq_true b
  | closure f => beq_self_eq_true f.serial
  | builtin f => beq_self_eq_true f
  | float x => FloatOrder.beq_self x
  | array items => equalItems_self items
theorem equalItems_self : (vs : List Value) → equalItems vs vs = !anyNaN vs
  | [] => rfl
  | v :: rest => by
    rw [equalItems, anyNaN, equals_self v, equalItems_self rest, Bool.not_or]
end

mutual
/-- Values of different types are equal only if one is an integer and the other a float. Both ways
round the integer is converted. -/
theorem equals_comm : (v w : Value) → v.equals w = w.equals v
  | unit, w => by cases w <;> rfl
  | int n, w => by
    cases w with
    | int k => exact Bool.beq_comm
    | _ => rfl
  | float x, w => by
    cases w with
    | float y => exact Bool.eq_iff_iff.mpr ⟨FloatOrder.beq_symm, FloatOrder.beq_symm⟩
    | _ => rfl
  | string s, w => by
    cases w with
    | string t => exact Bool.beq_comm
    | _ => rfl
  | bool b, w => by
    cases w with
    | bool c => exact Bool.beq_comm
    | _ => rfl
  | closure f, w => by
    cases w with
    | closure g => exact Bool.beq_comm
    | _ => rfl
  | builtin f, w => by
    cases w with
    | builtin g => exact Bool.beq_comm
    | _ => rfl
  | array vs, w => by
    -- stated before `w` is split, where the recursion is on the items alone
    have hitems := equalItems_comm vs
    cases w with
    | array ws => exact hitems ws
    | _ => rfl
theorem equalItems_comm : (vs ws : List Value) → equalItems vs ws = equalItems ws vs
  | [], [] | [], _ :: _ | _ :: _, [] => rfl
  | v :: vs, w :: ws => by
    rw [equalItems, equalItems, equals_comm v w, equalItems_comm vs ws]
end

mutual
/-- Equality of floats is transitive, and integers become floats next to one. So all that can go
wrong is that the float in the middle stands for two integers. -/
theorem equals_trans : (a b c : Value) → a.equals b → b.equals c → a.equals c = !a.bridged b c
  | unit, b, _, h, h' => by
    cases b with
    | unit => exact h'
    | _ => cases h
  | int m, b, c, h, h' => by
    cases b with
    | int n =>
      obtain rfl := eq_of_beq h
      cases c <;> exact h'
    | float x =>
      cases c with
      | int k =>
        -- both integers convert to the float, which does not tell whether they are the same
        show (m == k) = !(m != k)
        rw [bne, Bool.not_not]
      -- the integer equals the second float as well, after its conversion
      | float y => exact FloatOrder.beq_trans h h'
      | _ => cases h'
    | _ => cases h
  | float x, b, c, h, h' => by
    cases b with
    | int n =>
      cases c with
      | int k =>
        obtain rfl := eq_of_beq h'
        exact h
      | float y => exact FloatOrder.beq_trans (FloatOrder.beq_symm h) h'
      | _ => cases h'
    | float y =>
      cases c with
      | int k => exact FloatOrder.beq_trans h' (FloatOrder.beq_symm h)
      | float z => exact FloatOrder.beq_trans h h'
      | _ => cases h'
    | _ => cases h
  | string s, b, _, h, h' => by
    cases b with
    | string t =>
      obtain rfl := eq_of_beq h
      exact h'
    | _ => cases h
  | bool p, b, _, h, h' => by
    cases b with
    | bool q =>
      obtain rfl := eq_of_beq h
      exact h'
    | _ => cases h
  | builtin f, b, _, h, h' => by
    cases b with
    | builtin g =>
      obtain rfl := eq_of_beq h
      exact h'
    | _ => cases h
  | closure f, b, c, h, h' => by
    cases b with
    | closure g =>
      cases c with
      | closure k =>
        -- functions are compared by their serial numbers, whatever else they hold
        have hserial : f.serial = k.serial := (eq_of_beq h).trans (eq_of_beq h')
        exact beq_iff_eq.mpr hserial
      | _ => cases h'
    | _ => cases h
  | array as, b, c, h, h' => by
    have hitems := equalItems_trans as
    cases b with
    | array bs =>
      cases c with
      | array cs => exact hitems bs cs h h'
      | _ => cases h'
    | _ => cases h
theorem equalItems_trans : (as bs cs : List Value) → equalItems as bs → equalItems bs cs →
    equalItems as cs = !bridgedItems as bs cs
  | [], [], [], _, _ => rfl
  | a :: as, b :: bs, c :: cs, h, h' => by
    rw [equalItems, Bool.and_eq_true] at h h'
    rw [equalItems, bridgedItems, equals_trans a b c h.1 h'.1,
      equalItems_trans as bs cs h.2 h'.2, Bool.not_or]
end

end Value

/-- The operator `==` gives what equality of values says. That is reflexive exactly on the values
which hold no float that is not a number, and symmetric. If one value is equal to a second one and
that to a third one, then the first is equal to the third, unless at some place they hold different
integers and the second one a float. -/
theorem equality_laws (range : Integers) :
    (∀ a b, Operation.eq.apply range a b = .ok (.bool (a.equals b))) ∧
    (∀ a : Value, a.equals a = !a.hasNaN) ∧
    (∀ a b : Value, a.equals b = b.equals a) ∧
    (∀ a b c : Value, a.equals b → b.equals c → a.equals c = !a.bridged b c) :=
  ⟨fun _ _ => rfl, Value.equals_self, Value.equals_comm, Value.equals_trans⟩

/-- An integer and a float that are equal, and another integer that is equal to the float and not
to the first one. -/
theorem equality_not_transitive :
    (Value.float 9007199254740992).hasNaN = false ∧
    Operation.eq.apply .bits64 (.int 9007199254740992) (.float 9007199254740992)
      = .ok (.bool true) ∧
    Operation.eq.apply .bits64 (.float 9007199254740992) (.int 9007199254740993)
      = .ok (.bool true) ∧
    Operation.eq.apply .bits64 (.int 9007199254740992) (.int 9007199254740993)
      = .ok (.bool false) := by
  have hfloat : (Float.ofInt 9007199254740992 == (9007199254740992 : Float)) = true := by
    decide +kernel
  -- the integer is rounded when it is compared with a float
  have hrounded : (Float.ofInt 9007199254740993 == (9007199254740992 : Float)) = true := by
    decide +kernel
  refine ⟨by decide +kernel, ?_, ?_, rfl⟩
  · exact congrArg (fun b => Except.ok (Value.bool b)) hfloat
  · exact congrArg (fun b => Except.ok (Value.bool b)) hrounded

/-- Integers and the two zeros among the floats, in arrays. -/
theorem equality_laws_zeros :
    (Value.array [.int 0, .float 0]).equals (.array [.float 0, .int 0]) ∧
    (Value.array [.float 0, .int 0]).equals (.array [.float (-0), .float (-0)]) ∧
    (Value.array [.int 0, .float 0]).equals (.array [.float (-0), .float (-0)]) = true := by
  have hequal : (Value.array [.int 0, .float 0]).equals (.array [.float 0, .int 0]) := by
    decide +kernel
  have hequal' : (Value.array [.float 0, .int 0]).equals
      (.array [.float (-0), .float (-0)]) := by
    decide +kernel
  exact ⟨hequal, hequal', (equality_laws .bits64).2.2.2 _ _ _ hequal hequal'⟩

/-! ## Comparison -/

namespace Value

/-- Whether the value is a number. -/
def isNumber : Value → Bool
  | int _ => true
  | float x => !x.isNaN
  | unit | string _ | bool _ | array _ | closure _ | builtin _ => false

/-- Two numbers or two strings. -/
def Comparable (a b : Value) : Prop :=
  a.isNumber ∧ b.isNumber ∨ ∃ s t, a = string s ∧ b = string t

/-- The order in which two values stand: integers and strings in their own order, other numbers in
the order of the floats. -/
def order? (a b : Value) : Option Ordering :=
  match a, b with
  | int m, int n => some (compare m n)
  | string s, string t => some (compare s t)
  | int m, float y => (Float.ofInt m).toModel.compare y.toModel
  | float x, int n => x.toModel.compare (Float.ofInt n).toModel
  | float x, float y => x.toModel.compare y.toModel
  | _, _ => none

variable {a b : Value} {o : Ordering}

/-- An integer converts to a number (`FloatOrder.isNaN_ofInt`), and numbers among the floats are
comparable. -/
theorem Comparable.exists_order? (h : a.Comparable b) : ∃ o, a.order? b = some o := by
  rcases h with ⟨ha, hb⟩ | ⟨s, t, rfl, rfl⟩
  · have hnumber {x : Float} (hx : (float x).isNumber) : x.isNaN = false := by
      simpa [isNumber] using hx
    cases a with
    | int m =>
      cases b with
      | int n => exact ⟨_, rfl⟩
      | float y => exact FloatOrder.exists_compare (FloatOrder.isNaN_ofInt m) (hnumber hb)
      | _ => cases hb
    | float x =>
      cases b with
      | int n => exact FloatOrder.exists_compare (hnumber ha) (FloatOrder.isNaN_ofInt n)
      | float y => exact FloatOrder.exists_compare (hnumber ha) (hnumber hb)
      | _ => cases hb
    | _ => cases ha
  · exact ⟨_, rfl⟩

/-- Each of the three orders turns around, and what has no order has none the other way. -/
theorem order?_swap (a b : Value) : b.order? a = (a.order? b).map Ordering.swap := by
  cases a with
  | int m =>
    cases b with
    | int n => exact congrArg some Std.OrientedCmp.eq_swap
    | float y => exact FloatOrder.compare_swap _ _
    | _ => rfl
  | float x =>
    cases b with
    | int n | float y => exact FloatOrder.compare_swap _ _
    | _ => rfl
  | string s =>
    cases b with
    | string t => exact congrArg some Std.OrientedCmp.eq_swap
    | _ => rfl
  | _ => cases b <;> rfl

/-- Integers and strings are in an order in which only the same are equal. Floats are equal if they
compare so (`FloatOrder.beq_eq_isEq`). -/
theorem equals_of_order? (h : a.order? b = some o) : a.equals b = o.isEq := by
  have hexact {α : Type} [BEq α] [LawfulBEq α] [Ord α] [Std.LawfulEqOrd α] (x y : α) :
      (x == y) = (compare x y).isEq := by
    rw [Bool.eq_iff_iff, beq_iff_eq, Ordering.isEq_iff_eq_eq, Std.compare_eq_iff_eq]
  cases a with
  | int m =>
    cases b with
    | int n =>
      obtain rfl := Option.some.inj h
      exact hexact m n
    | float y => exact FloatOrder.beq_eq_isEq h
    | _ => cases h
  | float x =>
    cases b with
    | int n =>
      -- equality takes the integer first here
      have h' : (Float.ofInt n).toModel.compare x.toModel = some o.swap := by
        rw [FloatOrder.compare_swap x, show x.toModel.compare _ = some o from h]
        rfl
      exact (FloatOrder.beq_eq_isEq h').trans Ordering.isEq_swap
    | float y => exact FloatOrder.beq_eq_isEq h
    | _ => cases h
  | string s =>
    cases b with
    | string t =>
      obtain rfl := Option.some.inj h
      exact hexact s t
    | _ => cases h
  | _ => cases b <;> cases h

end Value

namespace Operation

variable {op : Operation} {a b : Value} {o : Ordering} {r : Bool}

/-- The tests on floats are the comparison of their models. -/
theorem onFloats?_of_compare {x y : Float} (h : x.toModel.compare y.toModel = some o)
    (hop : op.ofOrdering? o = some r) : op.onFloats? x y = some (.bool r) := by
  -- `>` and `≥` are the other two with their sides exchanged
  have h' : y.toModel.compare x.toModel = some o.swap := by
    rw [FloatOrder.compare_swap, h]
    rfl
  cases op with
  | lt =>
    obtain rfl := Option.some.inj hop
    rw [onFloats?, FloatOrder.lt_eq_isLT h]
  | gt =>
    obtain rfl := Option.some.inj hop
    rw [onFloats?, FloatOrder.lt_eq_isLT h', Ordering.isLT_swap]
  | le =>
    obtain rfl := Option.some.inj hop
    rw [onFloats?, FloatOrder.le_eq_isLE h]
  | ge =>
    obtain rfl := Option.some.inj hop
    rw [onFloats?, FloatOrder.le_eq_isLE h', Ordering.isLE_swap]
  | _ => cases hop

/-- A comparison says what the order of its operands says. -/
theorem apply_of_order? (range : Integers) (h : a.order? b = some o)
    (hop : op.ofOrdering? o = some r) : op.apply range a b = .ok (.bool r) := by
  -- only comparisons have an answer in `ofOrdering?`
  have happly : op.apply range a b = op.onOperands range a b := by
    cases op with
    | lt | gt | le | ge => rfl
    | _ => cases hop
  rw [happly]
  cases a with
  | int m =>
    cases b with
    | int n =>
      obtain rfl := Option.some.inj h
      cases op <;> cases hop <;> rfl
    | float y => simp only [onOperands, Value.toFloat?, onFloats?_of_compare h hop]
    | _ => cases h
  | float x =>
    cases b with
    | int n | float y => simp only [onOperands, Value.toFloat?, onFloats?_of_compare h hop]
    | _ => cases h
  | string s =>
    cases b with
    | string t =>
      obtain rfl := Option.some.inj h
      simp only [onOperands, hop]
    | _ => cases h
  | _ => cases b <;> cases h

end Operation

/-- Of two numbers, or two strings, exactly one of `<`, `==` and `>` is true. The operators `<=`,
`>=` and `!=` say what follows from these, and turning both the operands and the sign around changes
nothing. -/
theorem comparisons_agree (range : Integers) {a b : Value} (h : a.Comparable b) :
    ∃ less equal greater : Bool,
      Operation.lt.apply range a b = .ok (.bool less) ∧
      Operation.eq.apply range a b = .ok (.bool equal) ∧
      Operation.gt.apply range a b = .ok (.bool greater) ∧
      [less, equal, greater].count true = 1 ∧
      Operation.le.apply range a b = .ok (.bool (less || equal)) ∧
      Operation.ge.apply range a b = .ok (.bool (greater || equal)) ∧
      Operation.ne.apply range a b = .ok (.bool !equal) ∧
      Operation.gt.apply range b a = .ok (.bool less) := by
  -- all six answers are read off one order
  obtain ⟨o, ho⟩ := h.exists_order?
  have ho' : b.order? a = some o.swap := by
    rw [Value.order?_swap, ho]
    rfl
  have heq : a.equals b = o.isEq := Value.equals_of_order? ho
  refine ⟨o.isLT, o.isEq, o.isGT, Operation.apply_of_order? range ho rfl, ?_,
    Operation.apply_of_order? range ho rfl, ?_, ?_, ?_, ?_, ?_⟩
  · rw [← heq]
    rfl
  -- each order makes exactly one of the three true
  · cases o <;> rfl
  · exact Operation.apply_of_order? range ho (by cases o <;> rfl)
  · exact Operation.apply_of_order? range ho (by cases o <;> rfl)
  · rw [← heq]
    rfl
  · exact Operation.apply_of_order? range ho' (by cases o <;> rfl)

/-- An integer is compared with a float as the float that it is rounded to. -/
theorem comparisons_agree_rounded :
    (Value.int 9007199254740993).Comparable (.float 9007199254740992) ∧
    Operation.lt.apply .bits64 (.int 9007199254740993) (.float 9007199254740992)
      = .ok (.bool false) ∧
    Operation.eq.apply .bits64 (.int 9007199254740993) (.float 9007199254740992)
      = .ok (.bool true) ∧
    Operation.gt.apply .bits64 (.int 9007199254740993) (.float 9007199254740992)
      = .ok (.bool false) := by
  have hcomparable : (Value.int 9007199254740993).Comparable (.float 9007199254740992) :=
    .inl ⟨rfl, by decide +kernel⟩
  obtain ⟨less, equal, greater, hless, hequal, hgreater, hone, _⟩ :=
    comparisons_agree .bits64 hcomparable
  -- the integer is rounded when it is compared with a float
  have hrounded : (Float.ofInt 9007199254740993 == (9007199254740992 : Float)) = true := by
    decide +kernel
  obtain rfl : true = equal := by
    rw [← hrounded]
    injection hequal with hequal
    injection hequal
  cases less with
  | true => cases greater <;> cases hone
  | false =>
    cases greater with
    | true => cases hone
    | false => exact ⟨hcomparable, hless, hequal, hgreater⟩

end SimpleLang
