import SimpleLang.Proofs.Machine.CheckedCalls
import SimpleLang.Proofs.Machine.IntegerRange

/-!
# Calls that are refused before a run

The checks refuse the call of a literal, of an array and of the result of an operator. No such call
would succeed in a run, whatever its operands do before: they may call functions, and functions may
come up among them, but what an operator gives is never one.

* `Expr.type_of_eval`: what these expressions evaluate to is no function. So the evaluation of the
  call has no result, from any machine and with any way to call functions
  (`Expr.eval_call_eq_error`).
* `Moment.Inside K`: a moment of the evaluation that `K` waits for. The run stays inside until a
  value is there for `K` (`Moment.inside_step`).
* `Moment.Computing K`: a moment of the evaluation of something that cannot be called. The value
  that comes of it is no function (`Moment.Computing.step`, `Moment.Computing.type_ne`).
* `Moment.Doomed k`: a moment of a call of something that is no function, where `k` waits for the
  result of the call. What comes next is one again (`Moment.Doomed.step`), so the run never has a
  value for `k`.
* `Program.calls`: all calls in a program. The mistakes that the checks report are the calls among
  them that cannot succeed (`Program.mem_check_iff`).
-/

namespace SimpleLang

variable {W : Type}

open Run

variable {α β : Type}

/-! ## What cannot be called -/

/-- A value that operations give (`isPlain`) is no function. -/
theorem Value.type_of_isPlain {v : Value} (h : v.isPlain) : v.type ≠ .function := by
  cases v with
  | int _ | float _ | string _ | bool _ => exact ValueType.noConfusion
  | unit | array _ | closure _ | builtin _ => cases h

/-- Every result of the run has the property. -/
def Run.Delivers (P : α → Prop) (r : Run W α) : Prop := ∀ m a m', r m = .ok a m' → P a

namespace Run.Delivers

variable {P : α → Prop} {Q : β → Prop}

theorem pure {a : α} (h : P a) : Delivers P (Pure.pure a : Run W _) := by
  rintro m _ _ ⟨⟩
  exact h

theorem fail (f : Fault) : Delivers P (fail f : Run W _) := by
  rintro m _ _ ⟨⟩

/-- `Delivers` speaks of results only, and a failure has none. -/
theorem ofExcept {r : Except Fault α} (h : ∀ a, r = .ok a → P a) :
    Delivers P (ofExcept r : Run W _) := by
  cases r with
  | ok a => exact .pure (h a rfl)
  | error f => exact .fail f

/-- A run that stops in its first part has no result either. -/
theorem bind {r : Run W α} {f : α → Run W β} (h : Delivers P r) (hf : ∀ a, P a → Delivers Q (f a)) :
    Delivers Q (r >>= f) := by
  intro m b m' hm
  cases hr : r m with
  | error e m₁ =>
    rw [bind_of_error hr] at hm
    cases hm
  | ok a m₁ =>
    rw [bind_of_ok hr] at hm
    exact hf a (h m a m₁ hr) m₁ b m' hm

/-- `Delivers` of the last part of a run, whatever the first part gives. -/
theorem last {r : Run W α} {f : α → Run W β} (hf : ∀ a, Delivers Q (f a)) : Delivers Q (r >>= f) :=
  bind (P := fun _ => True) (fun _ _ _ _ => trivial) fun a _ => hf a

end Run.Delivers

section Eval

variable (context : Context W) (scope : ScopeId)

/-- `logical` gives a boolean, which is no function. -/
theorem Run.delivers_logical (op : Operation) (r : Expr) :
    Delivers (fun v : Value => v.type ≠ .function)
      (do return .bool (← logical op (← r.eval context scope))) :=
  .last fun _ => .last fun _ => .pure ValueType.noConfusion

/-- One case for each expression that `Expr.uncallable?` names. Its operands may give anything, but
what is made of them is plain or an array. -/
theorem Expr.type_of_eval {f : Expr} (h : f.uncallable?.isSome) :
    Delivers (fun v : Value => v.type ≠ .function) (f.eval context scope) := by
  cases f with
  | int n | float x | string s | bool b =>
    rw [Expr.eval]
    exact .pure ValueType.noConfusion
  | array elements =>
    rw [Expr.eval]
    exact .last fun _ => .pure ValueType.noConfusion
  | unary op e =>
    rw [Expr.eval]
    exact .last fun v => .ofExcept fun w hw =>
      Value.type_of_isPlain (Operation.isPlain_of_negate op hw)
  | binary op l r =>
    cases op with
    | and =>
      rw [Expr.eval]
      -- the left operand decides it alone if it is false
      refine .last fun a => .last fun b => ?_
      cases b with
      | true => exact delivers_logical context scope .and r
      | false => exact .pure ValueType.noConfusion
    | or =>
      rw [Expr.eval]
      refine .last fun a => .last fun b => ?_
      cases b with
      | true => exact .pure ValueType.noConfusion
      | false => exact delivers_logical context scope .or r
    | _ =>
      rw [Expr.eval]
      · exact .last fun a => .last fun b => .ofExcept fun v hv =>
          Value.type_of_isPlain (Operation.isPlain_of_apply _ _ hv)
      all_goals exact Operation.noConfusion
  | name x => cases h
  | call f args => cases h
  | lambda parameters body => cases h

/-- Calling a value that is no function gives nothing: `Delivers` with a condition that no value
meets. -/
theorem Run.delivers_call {callee : Value} (h : callee.type ≠ .function) (arguments : List Value) :
    Delivers (fun _ => False) (call context callee arguments) := by
  -- the call counts as a step before it is refused
  refine .last fun _ => ?_
  cases callee with
  | closure c => exact absurd rfl h
  | builtin f => exact absurd rfl h
  | _ => exact .fail _

/-- The arguments are evaluated before the call is refused (`Run.delivers_call`), and may stop it
earlier. -/
theorem Expr.eval_call_eq_error {f : Expr} (h : f.uncallable?.isSome) (args : List Expr)
    (m : Machine W) : ∃ e m', (Expr.call f args).eval context scope m = .error e m' := by
  have hnone : Delivers (fun _ => False) ((Expr.call f args).eval context scope) := by
    rw [Expr.eval]
    exact (Expr.type_of_eval context scope h).bind fun callee hcallee => .last fun values =>
      delivers_call context hcallee values
  cases hm : (Expr.call f args).eval context scope m with
  | ok v m' => exact (hnone m v m' hm).elim
  | error e m' => exact ⟨e, m', rfl⟩

end Eval

/-! ## Inside an evaluation -/

mutual
/-- What waits for a value waits further up than `K`: there is something between them that has to
come to its end before `K` gets a value. -/
def AfterValue.Above : AfterValue → AfterValue → Prop
  | .rightOf _ _ _ k, K | .apply _ _ k, K | .logical _ k, K | .negate _ k, K
  | .arguments _ _ k, K | .item _ _ _ _ k, K | .leave k, K => k = K ∨ k.Above K
  | .declare _ _ k, K | .assign _ _ k, K | .discard k, K | .ret k, K | .branch _ _ _ k, K
  | .test _ _ _ k, K => k.Above K
/-- The same for what waits for a statement to end. -/
def AfterFlow.Above : AfterFlow → AfterValue → Prop
  | .done, _ => False
  | .rest _ _ k, K | .again _ _ _ k, K => k.Above K
  | .leave k, K => k = K ∨ k.Above K
end

/-- The run evaluates what `K` waits for. -/
def Moment.Inside (K : AfterValue) : Moment → Prop
  | .eval _ _ k | .items _ _ _ _ k | .value _ k | .call _ _ k => k = K ∨ k.Above K
  | .exec _ _ k | .hoist _ _ _ k | .execAll _ _ k | .flow _ k => k.Above K

mutual
/-- What waits above `K` contains it, so it is larger. Hence `K` is not above itself. -/
theorem AfterValue.Above.lt {K : AfterValue} : (k : AfterValue) → k.Above K → sizeOf K < sizeOf k
  | .rightOf _ _ _ k, h | .apply _ _ k, h | .logical _ k, h | .negate _ k, h
  | .arguments _ _ k, h | .item _ _ _ _ k, h | .leave k, h => by
    have hle : sizeOf K ≤ sizeOf k := by
      rcases h with rfl | h
      · exact Nat.le_refl _
      · exact Nat.le_of_lt (AfterValue.Above.lt k h)
    simp only [AfterValue.rightOf.sizeOf_spec, AfterValue.apply.sizeOf_spec,
      AfterValue.logical.sizeOf_spec, AfterValue.negate.sizeOf_spec,
      AfterValue.arguments.sizeOf_spec, AfterValue.item.sizeOf_spec, AfterValue.leave.sizeOf_spec]
    omega
  | .declare _ _ k, h | .assign _ _ k, h | .discard k, h | .ret k, h | .branch _ _ _ k, h
  | .test _ _ _ k, h => by
    have hlt := AfterFlow.Above.lt k h
    simp only [AfterValue.declare.sizeOf_spec, AfterValue.assign.sizeOf_spec,
      AfterValue.discard.sizeOf_spec, AfterValue.ret.sizeOf_spec, AfterValue.branch.sizeOf_spec,
      AfterValue.test.sizeOf_spec]
    omega
theorem AfterFlow.Above.lt {K : AfterValue} : (k : AfterFlow) → k.Above K → sizeOf K < sizeOf k
  | .rest _ _ k, h | .again _ _ _ k, h => by
    have hlt := AfterFlow.Above.lt k h
    simp only [AfterFlow.rest.sizeOf_spec, AfterFlow.again.sizeOf_spec]
    omega
  | .leave k, h => by
    have hle : sizeOf K ≤ sizeOf k := by
      rcases h with rfl | h
      · exact Nat.le_refl _
      · exact Nat.le_of_lt (AfterValue.Above.lt k h)
    simp only [AfterFlow.leave.sizeOf_spec]
    omega
  | .done, h => h.elim
end

/-- A value inside is for `K` itself or for something larger. -/
theorem Moment.Inside.le {K k : AfterValue} {v : Value} (h : (Moment.value v k).Inside K) :
    sizeOf K ≤ sizeOf k := by
  rcases h with rfl | h
  · exact Nat.le_refl _
  · exact Nat.le_of_lt (AfterValue.Above.lt k h)

/-- There is a next moment, and it has the property. -/
def Moment.Next (P : Moment → Prop) (next : Option Moment) : Prop := ∃ c ∈ next, P c

theorem Moment.next_some {P : Moment → Prop} {c : Moment} (h : P c) : Next P (some c) :=
  ⟨c, rfl, h⟩

/-- From one property of the next moment to a weaker one. -/
theorem Run.Delivers.next {P Q : Moment → Prop} {r : Run W (Option Moment)}
    (h : Delivers (Moment.Next P) r) (hPQ : ∀ c, P c → Q c) : Delivers (Moment.Next Q) r := by
  intro m next m' hr
  obtain ⟨c, hc, hP⟩ := h m next m' hr
  exact ⟨c, hc, hPQ c hP⟩

section Inside

variable {K : AfterValue} (settings : Settings)

/-- The body of a function waits with `AfterValue.leave` or `AfterFlow.leave` for its call. -/
theorem Body.inside_start {k : AfterValue} (h : k = K ∨ k.Above K) (frame : ScopeId)
    (body : Body) : (body.start frame k).Inside K := by
  cases body with
  | value e => exact .inr h
  | block statements => exact h

namespace Moment

/-- The expression hands its value to `k`, or an operand to something that waits for it above
`k`. -/
theorem inside_eval (scope : ScopeId) (e : Expr) {k : AfterValue} (h : k = K ∨ k.Above K) :
    Delivers (Next (Inside K)) ((eval scope e k).step settings : Run W _) := by
  cases e with
  | int n | float x | string s | bool b => exact .pure (next_some h)
  | name x => exact .last fun _ => .pure (next_some h)
  | lambda parameters body => exact .last fun _ => .pure (next_some h)
  | array elements => exact .pure (next_some h)
  -- an operand or a callee comes first, and what is done with it waits above `k`
  | binary op l r => exact .pure (next_some (.inr h))
  | unary op e => exact .pure (next_some (.inr h))
  | call f args => exact .pure (next_some (.inr h))

/-- The next value waits above `k` with those that are known. -/
theorem inside_items (use : Purpose) (scope : ScopeId) (done : List Value) (rest : List Expr)
    {k : AfterValue} (h : k = K ∨ k.Above K) :
    Delivers (Next (Inside K)) ((items use scope done rest k).step settings : Run W _) := by
  cases rest with
  | nil => cases use <;> exact .pure (next_some h)
  | cons e rest => cases use <;> exact .pure (next_some (.inr h))

/-- One case for each `AfterValue`. A value for something above `K` is dealt with there. -/
theorem inside_value (v : Value) {k : AfterValue} (h : k.Above K) :
    Delivers (Next (Inside K)) ((value v k).step settings : Run W _) := by
  cases k with
  | rightOf op scope right k =>
    cases op with
    | and =>
      refine .last fun b => .pure (next_some ?_)
      cases b with
      | true => exact .inr h
      | false => exact h
    | or =>
      refine .last fun b => .pure (next_some ?_)
      cases b with
      | true => exact h
      | false => exact .inr h
    | _ => exact .pure (next_some (.inr h))
  | apply op left k => exact .last fun _ => .pure (next_some h)
  | logical op k => exact .last fun _ => .pure (next_some h)
  | negate op k => exact .last fun _ => .pure (next_some h)
  | arguments scope args k => exact .pure (next_some h)
  | item use scope done rest k => exact .pure (next_some h)
  | declare scope x k => exact .last fun _ => .pure (next_some h)
  | assign scope x k => exact .last fun _ => .pure (next_some h)
  | discard k => exact .pure (next_some h)
  | ret k => exact .pure (next_some h)
  | branch scope yes no k =>
    cases no <;> refine .last fun b => .pure (next_some ?_) <;> cases b <;> exact h
  | test scope test body k =>
    refine .last fun b => .pure (next_some ?_)
    cases b <;> exact h
  | leave k => exact .last fun _ => .pure (next_some h)

/-- A function's body is inside of its call (`Body.inside_start`). -/
theorem inside_call (callee : Value) (arguments : List Value) {k : AfterValue}
    (h : k = K ∨ k.Above K) :
    Delivers (Next (Inside K)) ((call callee arguments k).step settings : Run W _) := by
  refine .last fun _ => ?_
  cases callee with
  | closure c => exact .last fun frame => .pure (next_some (Body.inside_start h frame c.body))
  | builtin f =>
    cases f with
    | display =>
      cases arguments with
      | nil => exact .fail _
      | cons v rest =>
        cases rest with
        | nil => exact .last fun _ => .pure (next_some h)
        | cons w rest => exact .fail _
  | _ => exact .fail _

/-- A statement waits above `K` for the values that it needs. -/
theorem inside_exec (scope : ScopeId) (s : Stmt) {k : AfterFlow} (h : k.Above K) :
    Delivers (Next (Inside K)) ((exec scope s k).step settings : Run W _) := by
  cases s with
  | declare x e =>
    cases e with
    | none => exact .last fun _ => .last fun _ => .pure (next_some h)
    | some e => exact .last fun _ => .pure (next_some (.inr h))
  | assign x e => exact .last fun _ => .pure (next_some (.inr h))
  | expr e => exact .last fun _ => .pure (next_some (.inr h))
  | ret e =>
    cases e with
    | none => exact .last fun _ => .pure (next_some h)
    | some e => exact .last fun _ => .pure (next_some (.inr h))
  | cond test yes no => exact .last fun _ => .pure (next_some (.inr h))
  | loop test body => exact .last fun _ => .pure (next_some (.inr h))
  | block statements => exact .last fun _ => .last fun _ => .pure (next_some h)
  | function f parameters body => exact .last fun _ => .pure (next_some h)

/-- Binding functions leaves what waits as it is, so `K` stays below. -/
theorem inside_hoist (scope : ScopeId) (pending statements : List Stmt) {k : AfterFlow}
    (h : k.Above K) :
    Delivers (Next (Inside K)) ((hoist scope pending statements k).step settings : Run W _) := by
  cases pending with
  | nil => exact .pure (next_some h)
  | cons s pending =>
    cases s with
    | function f parameters body => exact .last fun _ => .last fun _ => .pure (next_some h)
    | _ => exact .pure (next_some h)

/-- The end of a body gives a value to the call, which may be what `K` waits for. -/
theorem inside_flow (f : Flow) {k : AfterFlow} (h : k.Above K) :
    Delivers (Next (Inside K)) ((flow f k).step settings : Run W _) := by
  cases k with
  -- the program itself is not inside of anything
  | done => exact h.elim
  | rest scope statements k => cases f <;> exact .pure (next_some h)
  | again scope test body k =>
    cases f with
    | next => exact .last fun _ => .pure (next_some (.inr h))
    | returned v => exact .pure (next_some h)
  | leave k => cases f <;> exact .last fun _ => .pure (next_some h)

/-- The run stays inside until a value is there for `K`. -/
theorem inside_step {c : Moment} (h : c.Inside K) :
    (∃ v, c = value v K) ∨ Delivers (Next (Inside K)) (c.step settings : Run W _) := by
  cases c with
  | eval scope e k => exact .inr (inside_eval settings scope e h)
  | items use scope done rest k => exact .inr (inside_items settings use scope done rest h)
  | value v k =>
    -- the value is for `K` itself, or for something above it
    rcases h with rfl | h
    · exact .inl ⟨v, rfl⟩
    · exact .inr (inside_value settings v h)
  | call callee arguments k => exact .inr (inside_call settings callee arguments h)
  | exec scope s k => exact .inr (inside_exec settings scope s h)
  | hoist scope pending statements k =>
    exact .inr (inside_hoist settings scope pending statements h)
  | execAll scope statements k =>
    cases statements with
    | nil => exact .inr (.pure (next_some h))
    | cons s rest => exact .inr (.pure (next_some h))
  | flow f k => exact .inr (inside_flow settings f h)

end Moment

end Inside

/-! ## Evaluating what cannot be called -/

/-- `K` waits for the result of an operator or for an array, and the other for an operand of the one
or an item of the other. -/
inductive AfterValue.Operand (K : AfterValue) : AfterValue → Prop
  | left (op : Operation) (scope : ScopeId) (right : Expr) : Operand K (.rightOf op scope right K)
  | right (op : Operation) (left : Value) : Operand K (.apply op left K)
  | logical (op : Operation) : Operand K (.logical op K)
  | negate (op : Operation) : Operand K (.negate op K)
  | item (scope : ScopeId) (done : List Value) (rest : List Expr) :
    Operand K (.item .array scope done rest K)

/-- `AfterValue.Above.lt` for an operand, which waits above the result. -/
theorem AfterValue.Operand.lt {K F : AfterValue} (h : K.Operand F) : sizeOf K < sizeOf F := by
  have habove : F.Above K := by cases h <;> exact .inl rfl
  exact AfterValue.Above.lt F habove

/-- The run evaluates an expression that cannot be called, and `K` waits for the value. -/
inductive Moment.Computing (K : AfterValue) : Moment → Prop
  | start (scope : ScopeId) {f : Expr} : f.uncallable?.isSome → Computing K (.eval scope f K)
  | operand {F : AfterValue} {c : Moment} : K.Operand F → c.Inside F → Computing K c
  | items (scope : ScopeId) (done : List Value) (rest : List Expr) :
    Computing K (.items .array scope done rest K)
  | value {v : Value} : v.type ≠ .function → Computing K (.value v K)

namespace Moment.Computing

variable {K : AfterValue}

/-- An operand waits for something larger than `K` (`AfterValue.Operand.lt`), so its value is not
the one for `K`. -/
theorem le {v : Value} {k : AfterValue} (h : (Moment.value v k).Computing K) :
    sizeOf K ≤ sizeOf k := by
  cases h with
  | operand hF hin => exact Nat.le_trans (Nat.le_of_lt hF.lt) hin.le
  | value _ => exact Nat.le_refl _

/-- The value that `K` gets is no function. -/
theorem type_ne {v : Value} (h : (Moment.value v K).Computing K) : v.type ≠ .function := by
  cases h with
  | operand hF hin => exact absurd hin.le (Nat.not_le_of_lt hF.lt)
  | value hv => exact hv

/-- `Value.type_of_isPlain` for what operators give. -/
theorem plain {v : Value} (h : v.isPlain) : (Moment.value v K).Computing K :=
  .value (Value.type_of_isPlain h)

variable (settings : Settings)

/-- A literal is its value, and otherwise the first operand or item is next. Names, calls and
lambdas are not `uncallable?`. -/
theorem step_start (scope : ScopeId) {f : Expr} (h : f.uncallable?.isSome) :
    Delivers (Next (Computing K)) ((eval scope f K).step settings : Run W _) := by
  cases f with
  | int n | float x | string s | bool b => exact .pure (next_some (.plain rfl))
  | array elements => exact .pure (next_some (.items scope [] elements))
  | unary op e => exact .pure (next_some (.operand (.negate op) (.inl rfl)))
  | binary op l r => exact .pure (next_some (.operand (.left op scope r) (.inl rfl)))
  | name x => cases h
  | call f args => cases h
  | lambda parameters body => cases h

/-- An operand is there: the other one comes next, or the result, and that is no function. -/
theorem step_operand {F : AfterValue} (hF : K.Operand F) (v : Value) :
    Delivers (Next (Computing K)) ((Moment.value v F).step settings : Run W _) := by
  cases hF with
  | left op scope right =>
    cases op with
    | and =>
      refine .last fun b => .pure (next_some ?_)
      cases b with
      -- either the right operand decides, or the value is there already
      | true => exact .operand (.logical .and) (.inl rfl)
      | false => exact .plain rfl
    | or =>
      refine .last fun b => .pure (next_some ?_)
      cases b with
      | true => exact .plain rfl
      | false => exact .operand (.logical .or) (.inl rfl)
    | _ => exact .pure (next_some (.operand (.right _ v) (.inl rfl)))
  | right op left =>
    have hplain : Delivers (fun w : Value => w.isPlain)
        (ofExcept (op.apply settings.integers left v) : Run W _) :=
      .ofExcept fun w hw => Operation.isPlain_of_apply _ op hw
    exact hplain.bind fun w hw => .pure (next_some (.plain hw))
  | logical op => exact .last fun _ => .pure (next_some (.plain rfl))
  | negate op =>
    have hplain : Delivers (fun w : Value => w.isPlain) (ofExcept (op.negate v) : Run W _) :=
      .ofExcept fun w hw => Operation.isPlain_of_negate op hw
    exact hplain.bind fun w hw => .pure (next_some (.plain hw))
  | item scope done rest => exact .pure (next_some (.items scope (done ++ [v]) rest))

/-- The array is there, or the next item waits as an `Operand`. -/
theorem step_items (scope : ScopeId) (done : List Value) (rest : List Expr) :
    Delivers (Next (Computing K))
      ((Moment.items .array scope done rest K).step settings : Run W _) := by
  cases rest with
  | nil => exact .pure (next_some (.value ValueType.noConfusion))
  | cons e rest => exact .pure (next_some (.operand (.item scope done rest) (.inl rfl)))

/-- The run goes on with the evaluation until a value is there for `K`. -/
theorem step {c : Moment} (h : c.Computing K) :
    (∃ v, c = .value v K) ∨ Delivers (Next (Computing K)) (c.step settings : Run W _) := by
  cases h with
  | start scope hf => exact .inr (step_start settings scope hf)
  | operand hF hin =>
    -- the operand is there, or the run is still inside its evaluation
    rcases inside_step settings hin with ⟨v, rfl⟩ | hstep
    · exact .inr (step_operand settings hF v)
    · exact .inr (hstep.next fun _ hin' => .operand hF hin')
  | items scope done rest => exact .inr (step_items settings scope done rest)
  | value _ => exact .inl ⟨_, rfl⟩

end Moment.Computing

/-! ## Calls that do not succeed -/

/-- The run performs a call of something that is no function, and `k` waits for the result. -/
inductive Moment.Doomed (k : AfterValue) : Moment → Prop
  | callee {scope : ScopeId} {args : List Expr} {c : Moment} :
    c.Computing (.arguments scope args k) → Doomed k c
  | arguments {callee : Value} (scope : ScopeId) (done : List Value) (rest : List Expr) :
    callee.type ≠ .function → Doomed k (.items (.call callee) scope done rest k)
  | argument {callee : Value} {scope : ScopeId} {done : List Value} {rest : List Expr}
    {c : Moment} : callee.type ≠ .function →
      c.Inside (.item (.call callee) scope done rest k) → Doomed k c
  | call {callee : Value} (arguments : List Value) :
    callee.type ≠ .function → Doomed k (.call callee arguments k)

namespace Moment.Doomed

variable {k : AfterValue} {settings : Settings}

/-- The result of the call is never there, since what waits inside the call is larger than `k`
(`AfterValue.Above.lt`). -/
theorem ne_value {c : Moment} (h : c.Doomed k) (v : Value) : c ≠ .value v k := by
  rintro rfl
  -- what waits inside the call is larger than what waits for its result
  cases h with
  | @callee scope args _ hc =>
    have hlt : sizeOf k < sizeOf (AfterValue.arguments scope args k) :=
      AfterValue.Above.lt (.arguments scope args k) (.inl rfl)
    exact absurd hc.le (Nat.not_le_of_lt hlt)
  | @argument callee scope done rest _ _ hin =>
    have hlt : sizeOf k < sizeOf (AfterValue.item (.call callee) scope done rest k) :=
      AfterValue.Above.lt (.item (.call callee) scope done rest k) (.inl rfl)
    exact absurd hin.le (Nat.not_le_of_lt hlt)

/-- One case for each part of the call. When its arguments are there it is refused, since the callee
is no function. -/
theorem step {c : Moment} (h : c.Doomed k) :
    Delivers (Next (Doomed k)) (c.step settings : Run W _) := by
  cases h with
  | callee hc =>
    rcases hc.step settings with ⟨v, rfl⟩ | hstep
    · exact .pure (next_some (.arguments _ [] _ hc.type_ne))
    · exact hstep.next fun _ hc' => .callee hc'
  | arguments scope done rest hcallee =>
    cases rest with
    | nil => exact .pure (next_some (.call done hcallee))
    | cons e rest => exact .pure (next_some (.argument hcallee (.inl rfl)))
  | argument hcallee hin =>
    rcases inside_step settings hin with ⟨v, rfl⟩ | hstep
    · exact .pure (next_some (.arguments _ _ _ hcallee))
    · exact hstep.next fun _ hin' => .argument hcallee hin'
  | @call callee arguments hcallee =>
    refine .last fun _ => ?_
    cases callee with
    | closure c => exact absurd rfl hcallee
    | builtin f => exact absurd rfl hcallee
    | _ => exact .fail _

/-- `Doomed.step` along a run: the call is never over. -/
theorem of_steps {n : Nat} {c d : Moment} {m w : Machine W} (hsteps : Steps settings n c m d w)
    (h : c.Doomed k) : d.Doomed k := by
  induction hsteps with
  | refl c m => exact h
  | step hstep _ ih =>
    obtain ⟨c', hc', hdoomed⟩ := h.step _ _ _ hstep
    cases hc'
    exact ih hdoomed

end Moment.Doomed

/-! ## How runs end -/

mutual
/-- `AfterValue.Each` asks nothing here, but it has to be shown for `maintains_step`. -/
theorem AfterValue.each_any : (k : AfterValue) →
    k.Each (fun _ => True) (fun _ => True) fun _ => True
  | .rightOf _ _ _ k | .apply _ _ k => ⟨trivial, k.each_any⟩
  | .logical _ k | .negate _ k | .leave k => k.each_any
  | .arguments _ _ k => ⟨fun _ _ => trivial, k.each_any⟩
  | .item (.call _) _ _ _ k | .item .array _ _ _ k =>
    ⟨trivial, fun _ _ => trivial, fun _ _ => trivial, k.each_any⟩
  | .declare _ _ k | .assign _ _ k | .discard k | .ret k => k.each_any
  | .branch _ _ _ k => ⟨trivial, fun _ _ => trivial, k.each_any⟩
  | .test _ _ _ k => ⟨trivial, trivial, k.each_any⟩
theorem AfterFlow.each_any : (k : AfterFlow) →
    k.Each (fun _ => True) (fun _ => True) fun _ => True
  | .done => trivial
  | .rest _ _ k => ⟨fun _ _ => trivial, k.each_any⟩
  | .again _ _ _ k => ⟨trivial, trivial, k.each_any⟩
  | .leave k => k.each_any
end

theorem Moment.each_any (c : Moment) : c.Each (fun _ => True) (fun _ => True) fun _ => True := by
  have hall {α : Type} (xs : List α) : ∀ x ∈ xs, True := fun _ _ => trivial
  cases c with
  | eval scope e k => exact ⟨trivial, k.each_any⟩
  | items use scope done rest k =>
    cases use <;> exact ⟨trivial, hall done, hall rest, k.each_any⟩
  | value v k => exact ⟨trivial, k.each_any⟩
  | call callee arguments k => exact ⟨trivial, hall arguments, k.each_any⟩
  | exec scope s k => exact ⟨trivial, k.each_any⟩
  | hoist scope pending statements k => exact ⟨hall pending, hall statements, k.each_any⟩
  | execAll scope statements k => exact ⟨hall statements, k.each_any⟩
  | flow f k => cases f <;> exact ⟨trivial, k.each_any⟩

/-- Only faults stop a run: with conditions that always hold, `Lasting` says no more than that. -/
theorem lasting_any (range : Integers) :
    Lasting Inherited.any range (fun _ => True) fun e => ∃ f, e = .fault f where
  unit := trivial
  int _ := trivial
  float _ := trivial
  string _ := trivial
  bool _ := trivial
  builtin _ := trivial
  array _ := trivial
  closure := Iff.rfl
  apply _ _ _ := trivial
  faults _ := ⟨_, rfl⟩
  overflow _ _ _ := ⟨_, rfl⟩

/-- A run that ends without success ends with a fault, by `maintains_step` for `lasting_any`. -/
theorem Halts.exists_fault {settings : Settings} {c : Moment} {m m' : Machine W} {e : Stop}
    (h : Halts settings c m (.error e m')) : ∃ f, e = .fault f := by
  have hstore : m.store.Each fun _ => True := fun _ _ _ _ _ => trivial
  unfold Halts at h
  rcases (lasting_any settings.integers).maintains_step c.each_any m hstore with
    ⟨next, w, hrun, _⟩ | ⟨e', w, hrun, _, he'⟩
  · rw [hrun] at h
    cases next <;> cases h
  · rw [hrun] at h
    cases h
    exact he'

/-- There is a next moment as long as no fault stops the run (`Doomed.step`), so it does not end
with success. -/
theorem Moment.Doomed.fault_of_halts {k : AfterValue} {settings : Settings} {c : Moment}
    {m : Machine W} {r : EStateM.Result Stop (Machine W) Unit} (h : c.Doomed k)
    (hr : Halts settings c m r) : ∃ f m', r = .error (.fault f) m' := by
  cases r with
  | ok u m' =>
    -- a doomed moment goes on or faults, so the run does not end there
    unfold Halts at hr
    cases hstep : c.step settings m with
    | ok next w =>
      obtain ⟨c', hc', _⟩ := h.step m next w hstep
      cases hc'
      rw [hstep] at hr
      cases hr
    | error e w =>
      rw [hstep] at hr
      cases hr
  | error e m' =>
    obtain ⟨f, rfl⟩ := hr.exists_fault
    exact ⟨f, m', rfl⟩

/-! ## The calls of a program -/

mutual
/-- The calls in an expression, each with what is called and the arguments. -/
def Expr.calls : Expr → List (Expr × List Expr)
  | .int _ | .float _ | .string _ | .bool _ | .name _ => []
  | .binary _ l r => l.calls ++ r.calls
  | .unary _ e => e.calls
  | .call f args => (f, args) :: (f.calls ++ Expr.allCalls args)
  | .array elements => Expr.allCalls elements
  | .lambda _ body => body.calls
def Expr.allCalls : List Expr → List (Expr × List Expr)
  | [] => []
  | e :: rest => e.calls ++ Expr.allCalls rest
def Body.calls : Body → List (Expr × List Expr)
  | .block statements => Stmt.allCalls statements
  | .value e => e.calls
def Stmt.calls : Stmt → List (Expr × List Expr)
  | .declare _ none | .ret none => []
  | .declare _ (some e) | .assign _ e | .expr e | .ret (some e) => e.calls
  | .cond test yes none => test.calls ++ yes.calls
  | .cond test yes (some no) => test.calls ++ yes.calls ++ no.calls
  | .loop test body => test.calls ++ body.calls
  | .block statements => Stmt.allCalls statements
  | .function _ _ body => body.calls
def Stmt.allCalls : List Stmt → List (Expr × List Expr)
  | [] => []
  | s :: rest => s.calls ++ Stmt.allCalls rest
end

/-- The calls in a program, at every depth. -/
def Program.calls (p : Program) : List (Expr × List Expr) := Stmt.allCalls p.statements

section Refused

variable (kind : Uncallable) (f : Expr)

/-- The mistakes about a call are those that a list of calls gives. -/
def Reports (errors : List CheckError) (calls : List (Expr × List Expr)) : Prop :=
  .uncallable kind f ∈ errors ↔ f.uncallable? = some kind ∧ ∃ args, (f, args) ∈ calls

variable {kind f}

theorem Reports.nil : Reports kind f [] [] := by simp [Reports]

/-- Two parts that each have `Reports` have it together. -/
theorem Reports.append {es es' : List CheckError} {cs cs' : List (Expr × List Expr)}
    (h : Reports kind f es cs) (h' : Reports kind f es' cs') :
    Reports kind f (es ++ es') (cs ++ cs') := by
  unfold Reports at *
  simp only [List.mem_append, h, h', exists_or, and_or_left]

/-- The mistakes in a parameter list are not `CheckError.uncallable`. -/
theorem Reports.parameters (owner : Option String) (parameters : List String)
    {es : List CheckError} {cs : List (Expr × List Expr)} (h : Reports kind f es cs) :
    Reports kind f (checkParameters owner parameters ++ es) cs := by
  unfold Reports at *
  simp [checkParameters, h]

/-- A call is reported if its callee is `uncallable?`, before what its parts report. -/
theorem Reports.call (g : Expr) (args : List Expr) {es : List CheckError}
    {cs : List (Expr × List Expr)} (h : Reports kind f es cs) :
    Reports kind f ((g.uncallable?.map (CheckError.uncallable · g)).toList ++ es)
      ((g, args) :: cs) := by
  unfold Reports at *
  simp only [List.mem_append, h]
  cases hg : g.uncallable? <;> grind

mutual
/-- By induction on the syntax, along which `Expr.check` and `Expr.calls` go alike. -/
theorem Expr.reports : (e : Expr) → Reports kind f e.check e.calls
  | .int _ | .float _ | .string _ | .bool _ | .name _ => .nil
  | .binary _ l r => (Expr.reports l).append (Expr.reports r)
  | .unary _ e => Expr.reports e
  | .call g args => by
    rw [Expr.check, List.append_assoc]
    exact .call g args ((Expr.reports g).append (Expr.reports_all args))
  | .array elements => Expr.reports_all elements
  | .lambda parameters body => (Body.reports body).parameters none parameters
theorem Expr.reports_all : (es : List Expr) → Reports kind f (Expr.checkAll es) (Expr.allCalls es)
  | [] => .nil
  | e :: rest => (Expr.reports e).append (Expr.reports_all rest)
theorem Body.reports : (b : Body) → Reports kind f b.check b.calls
  | .block statements => Stmt.reports_all statements
  | .value e => Expr.reports e
theorem Stmt.reports : (s : Stmt) → Reports kind f s.check s.calls
  | .declare _ none | .ret none => .nil
  | .declare _ (some e) | .assign _ e | .expr e | .ret (some e) => Expr.reports e
  | .cond test yes none => (Expr.reports test).append (Stmt.reports yes)
  | .cond test yes (some no) =>
    ((Expr.reports test).append (Stmt.reports yes)).append (Stmt.reports no)
  | .loop test body => (Expr.reports test).append (Stmt.reports body)
  | .block statements => Stmt.reports_all statements
  | .function g parameters body => (Body.reports body).parameters (some g) parameters
theorem Stmt.reports_all : (ss : List Stmt) → Reports kind f (Stmt.checkAll ss) (Stmt.allCalls ss)
  | [] => .nil
  | s :: rest => (Stmt.reports s).append (Stmt.reports_all rest)
end

end Refused

/-- `Stmt.reports_all` for the statements of a program. -/
theorem Program.mem_check_iff (p : Program) (kind : Uncallable) (f : Expr) :
    .uncallable kind f ∈ p.check ↔ f.uncallable? = some kind ∧ ∃ args, (f, args) ∈ p.calls :=
  Stmt.reports_all p.statements

/-- The checks refuse just the calls of literals, arrays and operator results, and none of them
would succeed. Whatever the machine, the scope, the settings and the functions that are called on
the way, the evaluation of such a call has no result. A run that begins one never has a value for
what waits for the call, and if it ends then with a fault. -/
theorem refused_calls_never_succeed :
    (∀ (p : Program) (kind : Uncallable) (f : Expr), .uncallable kind f ∈ p.check ↔
      f.uncallable? = some kind ∧ ∃ args, (f, args) ∈ p.calls) ∧
    ∀ (f : Expr) (args : List Expr), f.uncallable?.isSome →
      (∀ (context : Context W) (scope : ScopeId) (m : Machine W),
        ∃ reason m', (Expr.call f args).eval context scope m = .error reason m') ∧
      ∀ (settings : Settings) (scope : ScopeId) (k : AfterValue) (m : Machine W) (n : Nat)
        (d : Moment) (w : Machine W), Steps settings n (.eval scope (.call f args) k) m d w →
        (∀ v, d ≠ .value v k) ∧
          ∀ r, Halts settings d w r → ∃ fault w', r = .error (.fault fault) w' := by
  refine ⟨Program.mem_check_iff, fun f args hf => ⟨?_, ?_⟩⟩
  · intro context scope m
    exact Expr.eval_call_eq_error context scope hf args m
  · intro settings scope k m n d w hsteps
    cases hsteps with
    -- the callee is not looked at before the first step
    | refl => exact ⟨fun _ => Moment.noConfusion, fun r hr => by cases hr⟩
    | step hstep hrest =>
      cases hstep
      have hdoomed : d.Doomed k := .of_steps hrest (.callee (.start scope hf))
      exact ⟨hdoomed.ne_value, fun r hr => hdoomed.fault_of_halts hr⟩

/-- Compares a function that another function returns with an integer. -/
def comparedLambda : Expr :=
  .binary .eq (.call (.lambda [] (.value (.lambda [] (.value (.int 1))))) []) (.int 2)

/-- After seventeen steps the function has been returned and compared, and the call of the answer
ends the run. -/
theorem refused_calls_never_succeed_comparedLambda :
    .uncallable .result comparedLambda ∈ Program.check ⟨[.expr (.call comparedLambda [.int 3])]⟩ ∧
    ∃ m d w fault w', programScope (.start (.new none false)) = .ok 1 m ∧
      Steps {} 17 (.eval 1 (.call comparedLambda [.int 3]) (.discard .done)) m d w ∧
      Halts {} d w (.error (.fault fault) w') ∧ ∀ v, d ≠ .value v (.discard .done) := by
  obtain ⟨hcheck, hcalls⟩ := refused_calls_never_succeed
  refine ⟨(hcheck _ .result comparedLambda).mpr ⟨rfl, [.int 3], List.mem_cons_self⟩, ?_⟩
  -- the step after the first 17 ends the run
  have hrun : ((Moment.eval 1 (.call comparedLambda [.int 3]) (.discard .done)).after {} 17
      (after (programScope (.start (.new none false))))).any
        (fun x => (Moment.ending (x.1.step {} x.2)).isSome) := by
    decide +kernel
  obtain ⟨⟨d, w⟩, hafter, hends⟩ := (Option.any_eq_true _ _).mp hrun
  obtain ⟨r, hr⟩ := Option.isSome_iff_exists.mp hends
  have hsteps := Steps.of_after hafter
  obtain ⟨hne, hfault⟩ := (hcalls comparedLambda [.int 3] rfl).2 {} 1 _ _ 17 d w hsteps
  obtain ⟨fault, w', rfl⟩ := hfault r hr
  exact ⟨_, d, w, fault, w', rfl, hsteps, hr, hne⟩

end SimpleLang
