import SimpleLang.Proofs.Machine.Respects
import SimpleLang.Proofs.Machine.Scopes

/-!
# The functions of a run

A run creates functions from the syntax that it executes, and from the bodies of functions that it
calls. So a property of syntax that its parts inherit is one of all functions that ever come up: in
values, in scopes and in calls.

* `Inherited`: properties of expressions, functions and statements that their parts inherit.
* `Value.All P`, `Store.All P`: all functions in the value and in the store have the property `P`;
  `Store.Each V`: all values in the store have the property `V`.
* `Run.Maintains V Stops r Q`: started in such a store the run leaves one, and it ends with a result
  that satisfies `Q` or stops for a reason in `Stops`. `Run.Keeps P` is the same for the functions.
* `Expr.keeps_eval`, `Stmt.keeps_exec`, `Run.keeps_invoke`, `Run.keeps_program`: what evaluation,
  execution, calls and programs keep.

For a stop the reason is told as well: the limits on steps and on nested calls, the end of the
rounds that a loop was given, and all other faults, which `Fault.isLimit` tells from the limits.
-/

namespace SimpleLang

variable {W : Type}

/-! ## Faults -/

/-- Whether the fault is that the run exceeded one of its limits. -/
def Fault.isLimit : Fault → Bool
  | .stepLimit _ | .callDepth _ _ => true
  | _ => false

namespace Operation

variable {range : Integers} {op : Operation} {f : Fault}

/-- Integers fail by a division by zero, by an overflow, or because the operator is none of
theirs. -/
theorem isLimit_of_onIntegers {a b : Int} (h : op.onIntegers range a b = .error f) :
    f.isLimit = false := by
  cases op with
  | div | mod =>
    simp only [onIntegers] at h
    split at h
    · cases h
      rfl
    · split at h <;> cases h
      rfl
  | add | sub | mul =>
    simp only [onIntegers] at h
    split at h <;> cases h
    rfl
  | lt | gt | le | ge => cases h
  | eq | ne | and | or | not =>
    cases h
    rfl

/-- Two integers are left to `Operation.onIntegers`. All others fail by their types only. -/
theorem isLimit_of_onOperands {a b : Value} (h : op.onOperands range a b = .error f) :
    f.isLimit = false := by
  unfold onOperands at h
  split at h
  · exact isLimit_of_onIntegers h
  · split at h <;> cases h
    rfl
  · split at h
    · split at h <;> cases h
      rfl
    · cases h
      rfl

/-- An operation exceeds no limit. -/
theorem isLimit_of_apply {a b : Value} (h : op.apply range a b = .error f) :
    f.isLimit = false := by
  unfold apply at h
  split at h
  · cases h
  · cases h
  · cases h
  · cases h
  · exact isLimit_of_onOperands h

theorem isLimit_of_negate {v : Value} (h : op.negate v = .error f) : f.isLimit = false := by
  cases op <;> cases v <;> cases h <;> rfl

end Operation

/-! ## Properties of syntax -/

/-- Properties of expressions, of functions, by their parameters and body, and of statements, that
all parts inherit. -/
structure Inherited where
  expr : Expr → Prop
  function : List String → Body → Prop
  stmt : Stmt → Prop
  binary {op : Operation} {l r : Expr} : expr (.binary op l r) → expr l ∧ expr r
  unary {op : Operation} {e : Expr} : expr (.unary op e) → expr e
  call {f : Expr} {args : List Expr} : expr (.call f args) → expr f ∧ ∀ e ∈ args, expr e
  array {elements : List Expr} : expr (.array elements) → ∀ e ∈ elements, expr e
  lambda {parameters : List String} {body : Body} :
    expr (.lambda parameters body) → function parameters body
  declare {x : String} {e : Expr} : stmt (.declare x (some e)) → expr e
  assign {x : String} {e : Expr} : stmt (.assign x e) → expr e
  value {e : Expr} : stmt (.expr e) → expr e
  ret {e : Expr} : stmt (.ret (some e)) → expr e
  cond {test : Expr} {yes : Stmt} {no : Option Stmt} :
    stmt (.cond test yes no) → expr test ∧ stmt yes ∧ ∀ s ∈ no, stmt s
  loop {test : Expr} {body : Stmt} : stmt (.loop test body) → expr test ∧ stmt body
  block {statements : List Stmt} : stmt (.block statements) → ∀ s ∈ statements, stmt s
  definition {f : String} {parameters : List String} {body : Body} :
    stmt (.function f parameters body) → function parameters body
  result {parameters : List String} {e : Expr} : function parameters (.value e) → expr e
  statements {parameters : List String} {ss : List Stmt} :
    function parameters (.block ss) → ∀ s ∈ ss, stmt s

/-- The property of the functions that a run creates. -/
def Inherited.closure (I : Inherited) (c : Closure) : Prop := I.function c.parameters c.body

/-! ## Values and stores -/

mutual
/-- All functions in the value have the property. -/
def Value.All (P : Closure → Prop) : Value → Prop
  | .unit | .int _ | .float _ | .string _ | .bool _ | .builtin _ => True
  | .array items => Value.AllItems P items
  | .closure c => P c
def Value.AllItems (P : Closure → Prop) : List Value → Prop
  | [] => True
  | v :: rest => v.All P ∧ Value.AllItems P rest
end

variable {P : Closure → Prop}

/-- `Value.AllItems` is there because `Value.All` recurses through lists. In proofs it is a
statement about the members. -/
theorem Value.allItems_iff {vs : List Value} : Value.AllItems P vs ↔ ∀ v ∈ vs, v.All P := by
  induction vs with
  | nil => exact iff_of_true trivial (List.forall_mem_nil _)
  | cons v vs ih => rw [Value.AllItems, ih, List.forall_mem_cons]

/-- Functions occur in closures and arrays only, which are not plain. -/
theorem Value.all_of_isPlain {v : Value} (h : v.isPlain) : v.All P := by
  cases v with
  | array items => cases h
  | closure c => cases h
  | _ => trivial

/-- A statement that returns does so with a value whose functions have the property. -/
def Flow.All (P : Closure → Prop) : Flow → Prop
  | .next => True
  | .returned v => v.All P

/-- All values in the store have the property. -/
def Store.Each (V : Value → Prop) (s : Store) : Prop :=
  ∀ (i : ScopeId) (here : Scope), s.scopes[i]? = some here → ∀ b ∈ here.bindings, V b.2

/-- All functions in the store have the property. -/
def Store.All (P : Closure → Prop) (s : Store) : Prop :=
  ∀ (i : ScopeId) (here : Scope), s.scopes[i]? = some here → ∀ b ∈ here.bindings, b.2.All P

namespace Store

variable {V : Value → Prop} {s : Store}

theorem each_empty : Store.empty.Each V := by
  intro i here h
  simp [Store.empty] at h

/-- A new scope binds nothing. -/
theorem Each.newScope (h : s.Each V) (parent : Option ScopeId) : (s.newScope parent).2.Each V := by
  intro i here hhere
  change (s.scopes.push _)[i]? = _ at hhere
  rw [Array.getElem?_push] at hhere
  split at hhere
  · obtain rfl := Option.some.inj hhere
    exact List.forall_mem_nil _
  · exact h i here hhere

/-- One binding is replaced or added, and all others stay. -/
theorem Each.define (h : s.Each V) (scope : ScopeId) (x : String) {v : Value} (hv : V v) :
    (s.define scope x v).Each V := by
  intro i here hhere b hb
  change (s.scopes.modify scope _)[i]? = _ at hhere
  rw [Array.getElem?_modify] at hhere
  split at hhere
  · obtain ⟨old, hold, rfl⟩ := Option.map_eq_some_iff.mp hhere
    rcases Bindings.mem_insert hb with rfl | hb
    · exact hv
    · exact h i old hold b hb
  · exact h i here hhere b hb

/-- What is found is bound in some scope of the chain (`mem_of_resolve?`). -/
theorem Each.get? (h : s.Each V) {scope : ScopeId} {x : String} {v : Value}
    (hget : s.get? scope x = some v) : V v := by
  cases hresolve : s.resolve? scope x with
  | none => simp [Store.get?, hresolve] at hget
  | some owner =>
    obtain ⟨here, w, hhere, hw⟩ := mem_of_resolve? scope hresolve
    have hv : some v = some w := by
      rw [← hget, Store.get?, hresolve, Option.bind_eq_bind, Option.bind_some, hhere]
      exact hw
    obtain rfl := Option.some.inj hv
    exact h owner here hhere _ (Bindings.mem_of_get? hw)

theorem all_empty : Store.empty.All P := each_empty

end Store

/-! ## Runs -/

namespace Run

variable {α β : Type} {V : Value → Prop} {Stops : Stop → Prop} {Q : α → Prop} {R : β → Prop}

/-- From a store in which all values have the property `V` the run leads to such a store. It ends
with a result that satisfies `Q`, or it stops for one of the reasons in `Stops`. -/
def Maintains (V : Value → Prop) (Stops : Stop → Prop) (r : Run W α) (Q : α → Prop) : Prop :=
  ∀ m : Machine W, m.store.Each V →
    (∃ a m', r m = .ok a m' ∧ m'.store.Each V ∧ Q a) ∨
      ∃ e m', r m = .error e m' ∧ m'.store.Each V ∧ Stops e

namespace Maintains

theorem pure {a : α} (h : Q a) : Maintains V Stops (Pure.pure a : Run W _) Q :=
  fun m hm => .inl ⟨a, m, rfl, hm, h⟩

theorem fail {f : Fault} (h : Stops (.fault f)) : Maintains V Stops (fail f : Run W _) Q :=
  fun m hm => .inr ⟨.fault f, m, rfl, hm, h⟩

/-- What is known of the result of the first run is what the second may rely on. -/
theorem bind {r : Run W α} {f : α → Run W β} (h : Maintains V Stops r Q)
    (hf : ∀ a, Q a → Maintains V Stops (f a) R) : Maintains V Stops (r >>= f) R := by
  intro m hm
  rcases h m hm with ⟨a, m₁, hrun, hall, ha⟩ | ⟨e, m₁, hrun, hall, he⟩
  · rw [bind_of_ok hrun]
    exact hf a ha m₁ hall
  · exact .inr ⟨e, m₁, bind_of_error hrun, hall, he⟩

theorem ofExcept {r : Except Fault α} (hok : ∀ a, r = .ok a → Q a)
    (herror : ∀ f, r = .error f → Stops (.fault f)) :
    Maintains V Stops (ofExcept r : Run W _) Q := by
  cases r with
  | ok a => exact .pure (hok a rfl)
  | error f => exact .fail (herror f rfl)

theorem newScope (parent : Option ScopeId) :
    Maintains V Stops (newScope parent : Run W _) fun _ => True :=
  fun m hm => .inl ⟨_, { m with store := (m.store.newScope parent).2 }, rfl, hm.newScope parent,
    trivial⟩

theorem define (scope : ScopeId) (x : String) {v : Value} (h : V v) :
    Maintains V Stops (define scope x v : Run W _) fun _ => True :=
  fun m hm => .inl ⟨_, { m with store := m.store.define scope x v }, rfl, hm.define scope x h,
    trivial⟩

theorem defineAll (scope : ScopeId) {bs : Bindings} (h : ∀ b ∈ bs, V b.2) :
    Maintains V Stops (defineAll scope bs : Run W _) fun _ => True := by
  induction bs with
  | nil => exact .pure trivial
  | cons b bs ih =>
    obtain ⟨hb, hbs⟩ := List.forall_mem_cons.mp h
    exact (Maintains.define scope b.1 hb).bind fun _ _ => ih hbs

/-- The serial number is the next one of the machine, so `V` has to hold for any. -/
theorem newClosure (name : Option String) {parameters : List String} {body : Body}
    {scope : ScopeId} (h : ∀ serial, V (.closure { serial, name, parameters, body, scope })) :
    Maintains V Stops (newClosure name parameters body scope : Run W _) V :=
  fun m hm => .inl ⟨_, { m with functions := m.functions + 1 }, rfl, hm, h m.functions⟩

/-- The limit on steps is a reason to stop only if there is one. -/
theorem tick {settings : Settings}
    (h : ∀ n, settings.maxSteps = some n → Stops (.fault (.stepLimit n))) :
    Maintains V Stops (tick settings : Run W _) fun _ => True := by
  intro m hm
  rcases tick_cases settings m with hrun | ⟨limit, hlimit, hrun⟩
  · exact .inl ⟨(), _, hrun m rfl, hm, trivial⟩
  · exact .inr ⟨_, _, hrun m rfl, hm, h limit hlimit⟩

/-- What is found has the property (`Store.Each.get?`). -/
theorem lookup (scope : ScopeId) {x : String} (h : Stops (.fault (.undefinedName x))) :
    Maintains V Stops (lookup scope x : Run W _) V := by
  intro m hm
  rw [lookup_apply]
  cases hget : m.store.get? scope x with
  | some v => exact .inl ⟨v, m, rfl, hm, hm.get? hget⟩
  | none => exact .inr ⟨_, m, rfl, hm, h⟩

/-- The value is put where the name is bound, so this is `Maintains.define` for the scope that owns
it. -/
theorem assign (scope : ScopeId) {x : String} (h : Stops (.fault (.undeclaredTarget x)))
    {v : Value} (hv : V v) : Maintains V Stops (assign scope x v : Run W _) fun _ => True := by
  intro m hm
  rw [assign_apply]
  cases m.store.resolve? scope x with
  | some owner => exact Maintains.define owner x hv m hm
  | none => exact .inr ⟨_, m, rfl, hm, h⟩

theorem ask (request : Sink W → Option String × Sink W) {fault : String → Fault}
    (h : ∀ reason, Stops (.fault (fault reason))) :
    Maintains V Stops (ask request fault) fun _ => True := by
  intro m hm
  rcases ask_cases request fault m.sink with hrun | ⟨reason, hrun⟩
  · exact .inl ⟨(), _, hrun m rfl, hm, trivial⟩
  · exact .inr ⟨_, _, hrun m rfl, hm, h reason⟩

theorem answer {question : Question} {v : Value}
    (h : ∀ type text, Stops (.fault (.notACondition question type text))) :
    Maintains V Stops (answer question v : Run W _) fun _ => True := by
  cases v with
  | bool b => exact .pure trivial
  | _ => exact .fail (h _ _)

theorem logical {op : Operation} {v : Value} (h : ∀ type, Stops (.fault (.notLogical op type))) :
    Maintains V Stops (logical op v : Run W _) fun _ => True := by
  cases v with
  | bool b => exact .pure trivial
  | _ => exact .fail (h _)

theorem checkArity {c : Closure} {arguments : List Value}
    (h : Stops (.fault (.arity c.label c.parameters.length arguments.length))) :
    Maintains V Stops (checkArity c arguments : Run W _) fun _ => True := by
  unfold Run.checkArity
  split
  · exact .pure trivial
  · exact .fail h

end Maintains

/-- From a store in which all functions have the property `P` the run leads to such a store. It ends
with a value that satisfies `Q`, or it stops for one of the reasons in `Stops`. -/
def Keeps (P : Closure → Prop) (Stops : Stop → Prop) (r : Run W α) (Q : α → Prop) : Prop :=
  ∀ m : Machine W, m.store.All P →
    (∃ a m', r m = .ok a m' ∧ m'.store.All P ∧ Q a) ∨
      ∃ e m', r m = .error e m' ∧ m'.store.All P ∧ Stops e

namespace Keeps

theorem pure {a : α} (h : Q a) : Keeps P Stops (Pure.pure a : Run W _) Q := Maintains.pure h

theorem fail {f : Fault} (h : Stops (.fault f)) : Keeps P Stops (fail f : Run W _) Q :=
  Maintains.fail h

theorem bind {r : Run W α} {f : α → Run W β} (h : Keeps P Stops r Q)
    (hf : ∀ a, Q a → Keeps P Stops (f a) R) : Keeps P Stops (r >>= f) R := Maintains.bind h hf

/-- Counting a call does not touch the store. -/
theorem counted {r : Run W α} (h : Keeps P Stops r Q) : Keeps P Stops (counted r) Q := by
  intro m hm
  rcases h (entered m) hm with ⟨a, m₁, hrun, hall, ha⟩ | ⟨e, m₁, hrun, hall, he⟩
  · exact .inl ⟨a, _, counted_of_ok hrun, hall, ha⟩
  · exact .inr ⟨e, _, counted_of_error hrun, hall, he⟩

theorem ofExcept {r : Except Fault α} (hok : ∀ a, r = .ok a → Q a)
    (herror : ∀ f, r = .error f → Stops (.fault f)) : Keeps P Stops (ofExcept r : Run W _) Q :=
  Maintains.ofExcept hok herror

end Keeps

theorem keeps_newScope (parent : Option ScopeId) :
    Keeps P Stops (newScope parent : Run W _) fun _ => True := Maintains.newScope parent

theorem keeps_define (scope : ScopeId) (x : String) {v : Value} (h : v.All P) :
    Keeps P Stops (define scope x v : Run W _) fun _ => True := Maintains.define scope x h

theorem keeps_defineAll (scope : ScopeId) {bs : Bindings} (h : ∀ b ∈ bs, b.2.All P) :
    Keeps P Stops (defineAll scope bs : Run W _) fun _ => True := Maintains.defineAll scope h

theorem keeps_newClosure (name : Option String) {parameters : List String} {body : Body}
    {scope : ScopeId} (h : ∀ serial, P { serial, name, parameters, body, scope }) :
    Keeps P Stops (newClosure name parameters body scope : Run W _) (Value.All P) :=
  Maintains.newClosure name h

end Run

/-! ## Evaluation and execution -/

/-- The reasons for which a run under the settings may stop. It is left unfinished only if there are
loops. -/
structure Inherited.Reasons (I : Inherited) (settings : Settings) (Stops : Stop → Prop) : Prop where
  faults : ∀ f : Fault, f.isLimit = false → Stops (.fault f)
  steps : ∀ n, settings.maxSteps = some n → Stops (.fault (.stepLimit n))
  depth : ∀ callee, Stops (.fault (.callDepth settings.maxCallDepth callee))
  loops : ∀ test body, I.stmt (.loop test body) → Stops .unfinished

/-- Calls of functions with the property keep it. -/
structure Context.Keeps (I : Inherited) (Stops : Stop → Prop) (context : Context W) : Prop
    extends I.Reasons context.settings Stops where
  invoke : ∀ c arguments, I.closure c → (∀ v ∈ arguments, v.All I.closure) →
    Run.Keeps I.closure Stops (context.invoke c arguments) (Value.All I.closure)

section Syntax

open Run

variable {I : Inherited} {Stops : Stop → Prop} {context : Context W}

namespace Run

theorem keeps_tick (h : context.Keeps I Stops) :
    Keeps I.closure Stops (tick context.settings : Run W _) fun _ => True := Maintains.tick h.steps

theorem keeps_lookup (h : context.Keeps I Stops) (scope : ScopeId) (x : String) :
    Keeps I.closure Stops (lookup scope x : Run W _) (Value.All I.closure) :=
  Maintains.lookup scope (h.faults _ rfl)

theorem keeps_assign (h : context.Keeps I Stops) (scope : ScopeId) (x : String) {v : Value}
    (hv : v.All I.closure) : Keeps I.closure Stops (assign scope x v : Run W _) fun _ => True :=
  Maintains.assign scope (h.faults _ rfl) hv

theorem keeps_writeLine (h : context.Keeps I Stops) (pieces : List String) :
    Keeps I.closure Stops (writeLine pieces : Run W _) fun _ => True :=
  Maintains.ask _ fun _ => h.faults _ rfl

theorem keeps_flush (h : context.Keeps I Stops) :
    Keeps I.closure Stops (flush : Run W _) fun _ => True :=
  Maintains.ask _ fun _ => h.faults _ rfl

theorem keeps_answer (h : context.Keeps I Stops) (question : Question) (v : Value) :
    Keeps I.closure Stops (answer question v : Run W _) fun _ => True :=
  Maintains.answer fun _ _ => h.faults _ rfl

theorem keeps_logical (h : context.Keeps I Stops) (op : Operation) (v : Value) :
    Keeps I.closure Stops (logical op v : Run W _) fun _ => True :=
  Maintains.logical fun _ => h.faults _ rfl

/-- A function keeps the property by `Context.Keeps`, `display` leaves the store as it is, and all
else is a fault. -/
theorem keeps_call (h : context.Keeps I Stops) {callee : Value} (hcallee : callee.All I.closure)
    {arguments : List Value} (harguments : ∀ v ∈ arguments, v.All I.closure) :
    Keeps I.closure Stops (call context callee arguments) (Value.All I.closure) := by
  refine (keeps_tick h).bind fun _ _ => ?_
  cases callee with
  | builtin f =>
    cases f with
    | display =>
      cases arguments with
      | nil => exact .fail (h.faults _ rfl)
      | cons v rest =>
        cases rest with
        | nil => exact (keeps_writeLine h v.pieces).bind fun _ _ => .pure trivial
        | cons w rest => exact .fail (h.faults _ rfl)
  | closure c => exact h.invoke c arguments hcallee harguments
  | _ => exact .fail (h.faults _ rfl)

/-- Entering a sequence creates the functions that it defines. -/
theorem keeps_hoist (scope : ScopeId) {ss : List Stmt} (hss : ∀ s ∈ ss, I.stmt s) :
    Keeps I.closure Stops (hoist scope ss : Run W _) fun _ => True := by
  induction ss with
  | nil => exact .pure trivial
  | cons s rest ih =>
    obtain ⟨hs, hrest⟩ := List.forall_mem_cons.mp hss
    cases s with
    | function f parameters body =>
      refine (keeps_newClosure (some f) fun _ => I.definition hs).bind fun v hv => ?_
      exact (keeps_define scope f hv).bind fun _ _ => ih hrest
    | _ => exact ih hrest

/-- The rounds of a loop keep what one round keeps. -/
theorem keeps_rounds (h : context.Keeps I Stops) (hunfinished : Stops .unfinished)
    {condition : Run W Bool} {body : Run W Flow}
    (hcondition : Keeps I.closure Stops condition fun _ => True)
    (hbody : Keeps I.closure Stops body (Flow.All I.closure)) (count : Nat) :
    Keeps I.closure Stops (rounds context.settings condition body count)
      (Flow.All I.closure) := by
  induction count with
  | zero => exact fun m hm => .inr ⟨.unfinished, m, rfl, hm, hunfinished⟩
  | succ count ih =>
    refine hcondition.bind fun b _ => ?_
    cases b with
    | false => exact .pure trivial
    | true =>
      refine hbody.bind fun flow hflow => ?_
      cases flow with
      | returned v => exact .pure hflow
      | next => exact (keeps_tick h).bind fun _ _ => ih

end Run

mutual
/-- By induction on the expression. Operators give plain values, so functions come only from names,
lambdas, calls and arrays of them. -/
theorem Expr.keeps_eval (h : context.Keeps I Stops) (scope : ScopeId) : (e : Expr) → I.expr e →
    Keeps I.closure Stops (e.eval context scope) (Value.All I.closure)
  | .int _, _ | .float _, _ | .string _, _ | .bool _, _ => .pure trivial
  | .name x, _ => keeps_lookup h scope x
  | .binary op l r, he => by
    have hl := Expr.keeps_eval h scope l (I.binary he).1
    have hr := Expr.keeps_eval h scope r (I.binary he).2
    have hlogical (op : Operation) : Keeps I.closure Stops
        (do return Value.bool (← logical op (← r.eval context scope))) (Value.All I.closure) :=
      hr.bind fun v _ => (keeps_logical h op v).bind fun b _ => .pure trivial
    cases op with
    | and =>
      refine hl.bind fun v _ => (keeps_logical h .and v).bind fun b _ => ?_
      cases b with
      | true => exact hlogical .and
      | false => exact .pure trivial
    | or =>
      refine hl.bind fun v _ => (keeps_logical h .or v).bind fun b _ => ?_
      cases b with
      | true => exact .pure trivial
      | false => exact hlogical .or
    | _ =>
      -- a plain value, or a fault that is no limit
      refine hl.bind fun a _ => hr.bind fun b _ => .ofExcept (fun v hv => ?_) fun f hf => ?_
      · exact Value.all_of_isPlain (Operation.isPlain_of_apply _ _ hv)
      · exact h.faults f (Operation.isLimit_of_apply hf)
  | .unary op e, he => by
    refine (Expr.keeps_eval h scope e (I.unary he)).bind fun v _ => ?_
    refine .ofExcept (fun w hw => ?_) fun f hf => ?_
    · exact Value.all_of_isPlain (Operation.isPlain_of_negate _ hw)
    · exact h.faults f (Operation.isLimit_of_negate hf)
  | .call f args, he =>
    (Expr.keeps_eval h scope f (I.call he).1).bind fun _ hcallee =>
      (Expr.keeps_evalAll h scope args (I.call he).2).bind fun _ hvalues =>
        keeps_call h hcallee hvalues
  | .array elements, he =>
    (Expr.keeps_evalAll h scope elements (I.array he)).bind fun _ hvalues =>
      .pure (Value.allItems_iff.mpr hvalues)
  | .lambda parameters body, he => keeps_newClosure none fun _ => I.lambda he
theorem Expr.keeps_evalAll (h : context.Keeps I Stops) (scope : ScopeId) :
    (es : List Expr) → (∀ e ∈ es, I.expr e) →
    Keeps I.closure Stops (Expr.evalAll context scope es) fun vs => ∀ v ∈ vs, v.All I.closure
  | [], _ => .pure (List.forall_mem_nil _)
  | e :: rest, hes =>
    (Expr.keeps_eval h scope e (hes e List.mem_cons_self)).bind fun _ hv =>
      (Expr.keeps_evalAll h scope rest fun e he => hes e (List.mem_cons_of_mem _ he)).bind
        fun _ hvs => .pure (List.forall_mem_cons.mpr ⟨hv, hvs⟩)
end

mutual
/-- By induction on the statement. A loop is the only one that may be left unfinished. -/
theorem Stmt.keeps_exec (h : context.Keeps I Stops) (scope : ScopeId) : (s : Stmt) → I.stmt s →
    Keeps I.closure Stops (s.exec context scope) (Flow.All I.closure)
  | .declare x none, _ =>
    (keeps_tick h).bind fun _ _ =>
      (keeps_define scope x (show Value.unit.All I.closure from trivial)).bind fun _ _ =>
        .pure trivial
  | .declare x (some e), hs =>
    (keeps_tick h).bind fun _ _ => (Expr.keeps_eval h scope e (I.declare hs)).bind fun _ hv =>
      (keeps_define scope x hv).bind fun _ _ => .pure trivial
  | .assign x e, hs =>
    (keeps_tick h).bind fun _ _ => (Expr.keeps_eval h scope e (I.assign hs)).bind fun _ hv =>
      (keeps_assign h scope x hv).bind fun _ _ => .pure trivial
  | .expr e, hs =>
    (keeps_tick h).bind fun _ _ =>
      (Expr.keeps_eval h scope e (I.value hs)).bind fun _ _ => .pure trivial
  | .ret none, _ => (keeps_tick h).bind fun _ _ => .pure trivial
  | .ret (some e), hs =>
    (keeps_tick h).bind fun _ _ =>
      (Expr.keeps_eval h scope e (I.ret hs)).bind fun _ hv => .pure hv
  | .cond test yes none, hs => by
    obtain ⟨htest, hyes, _⟩ := I.cond hs
    refine (keeps_tick h).bind fun _ _ => (Expr.keeps_eval h scope test htest).bind fun v _ =>
      (keeps_answer h .conditional v).bind fun b _ => ?_
    cases b with
    | true =>
      exact (keeps_hoist scope (List.forall_mem_singleton.mpr hyes)).bind fun _ _ =>
        Stmt.keeps_exec h scope yes hyes
    | false => exact .pure trivial
  | .cond test yes (some no), hs => by
    obtain ⟨htest, hyes, hno⟩ := I.cond hs
    have hno : I.stmt no := hno no rfl
    refine (keeps_tick h).bind fun _ _ => (Expr.keeps_eval h scope test htest).bind fun v _ =>
      (keeps_answer h .conditional v).bind fun b _ => ?_
    cases b with
    | true =>
      exact (keeps_hoist scope (List.forall_mem_singleton.mpr hyes)).bind fun _ _ =>
        Stmt.keeps_exec h scope yes hyes
    | false =>
      exact (keeps_hoist scope (List.forall_mem_singleton.mpr hno)).bind fun _ _ =>
        Stmt.keeps_exec h scope no hno
  | .loop test body, hs => by
    obtain ⟨htest, hbody⟩ := I.loop hs
    refine (keeps_tick h).bind fun _ _ => keeps_rounds h (h.loops test body hs) ?_ ?_ _
    · exact (Expr.keeps_eval h scope test htest).bind fun v _ => keeps_answer h .loop v
    · exact (keeps_hoist scope (List.forall_mem_singleton.mpr hbody)).bind fun _ _ =>
        Stmt.keeps_exec h scope body hbody
  | .block statements, hs =>
    (keeps_tick h).bind fun _ _ => (keeps_newScope (some scope)).bind fun inner _ =>
      (keeps_hoist inner (I.block hs)).bind fun _ _ =>
        Stmt.keeps_execAll h inner statements (I.block hs)
  | .function _ _ _, _ => (keeps_tick h).bind fun _ _ => .pure trivial
theorem Stmt.keeps_execAll (h : context.Keeps I Stops) (scope : ScopeId) :
    (ss : List Stmt) → (∀ s ∈ ss, I.stmt s) →
    Keeps I.closure Stops (Stmt.execAll context scope ss) (Flow.All I.closure)
  | [], _ => .pure trivial
  | s :: rest, hss => by
    refine (Stmt.keeps_exec h scope s (hss s List.mem_cons_self)).bind fun flow hflow => ?_
    cases flow with
    | returned v => exact .pure hflow
    | next => exact Stmt.keeps_execAll h scope rest fun s hs => hss s (List.mem_cons_of_mem _ hs)
end

/-! ## Functions and programs -/

namespace Run

theorem keeps_sequence (h : context.Keeps I Stops) (scope : ScopeId) {ss : List Stmt}
    (hss : ∀ s ∈ ss, I.stmt s) :
    Keeps I.closure Stops (sequence context scope ss) (Flow.All I.closure) :=
  (keeps_hoist scope hss).bind fun _ _ => Stmt.keeps_execAll h scope ss hss

/-- A body is evaluated or executed, and its parts inherit from the function (`Inherited.result`,
`Inherited.statements`). -/
theorem keeps_body (h : context.Keeps I Stops) (frame : ScopeId) {c : Closure}
    (hc : I.closure c) :
    Keeps I.closure Stops (body context frame c.body) (Value.All I.closure) := by
  unfold Inherited.closure at hc
  cases hbody : c.body with
  | value e =>
    rw [hbody] at hc
    exact Expr.keeps_eval h frame e (I.result hc)
  | block statements =>
    rw [hbody] at hc
    refine (keeps_sequence h frame (I.statements hc)).bind fun flow hflow => ?_
    cases flow with
    | returned v => exact .pure hflow
    | next => exact .pure trivial

/-- Calls keep the property, by induction on how many may still be nested. Where there is no room
left the limit on nested calls is the reason to stop. -/
theorem keeps_invoke {settings : Settings} (h : I.Reasons settings Stops) (patience room : Nat)
    (c : Closure) (arguments : List Value) (hc : I.closure c)
    (harguments : ∀ v ∈ arguments, v.All I.closure) :
    Keeps I.closure Stops (invoke settings patience room c arguments : Run W _)
      (Value.All I.closure) := by
  have harity (c : Closure) (arguments : List Value) :
      Keeps I.closure Stops (checkArity c arguments : Run W _) fun _ => True :=
    Maintains.checkArity (h.faults _ rfl)
  induction room generalizing c arguments with
  | zero => exact (harity c arguments).bind fun _ _ => .fail (h.depth c.label)
  | succ room ih =>
    refine (harity c arguments).bind fun _ _ => (keeps_newScope _).bind fun frame _ => ?_
    have hbound : ∀ b ∈ c.parameters.zip arguments, b.2.All I.closure := fun b hb =>
      harguments b.2 (List.of_mem_zip hb).2
    refine (keeps_defineAll frame hbound).bind fun _ _ => (keeps_body ?_ frame hc).counted
    -- the calls in the body have less room
    exact { h with invoke := ih }

/-- Whole programs keep the property. -/
theorem keeps_program {settings : Settings} (h : I.Reasons settings Stops) (patience : Nat)
    {ss : List Stmt} (hss : ∀ s ∈ ss, I.stmt s) :
    Keeps I.closure Stops (program settings patience ss : Run W _) fun _ => True := by
  -- the calls that a program makes are those of `keeps_invoke` with all the room
  have hcontext : (outermost settings patience : Context W).Keeps I Stops :=
    { h with invoke := keeps_invoke h patience settings.maxCallDepth }
  have hdisplay : (Value.builtin .display).All I.closure := trivial
  have hscope : Keeps I.closure Stops (programScope : Run W _) fun _ => True :=
    (keeps_newScope none).bind fun globals _ =>
      (keeps_define globals _ hdisplay).bind fun _ _ => keeps_newScope _
  exact hscope.bind fun scope _ =>
    (keeps_sequence hcontext scope hss).bind fun _ _ => keeps_flush hcontext

end Run

end Syntax

end SimpleLang
