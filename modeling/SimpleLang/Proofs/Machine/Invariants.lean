import SimpleLang.Proofs.Machine.Adequacy
import SimpleLang.Proofs.Machine.Closures

/-!
# Invariants of runs

A property of values holds of every value that a run ever has, in its scopes and in all that waits,
if the program's own syntax gives it to the values that it creates and operations hand it on.

* `Moment.Each`: all expressions, statements and values of a moment have their properties.
* `Lasting I V Stops`: values of syntax with the properties `I` have the property `V`, operations
  hand it on, and where they fail it is for a reason in `Stops`.
* `Lasting.maintains_step`: what one step keeps; `Lasting.of_steps` and `Lasting.of_reachable`: what
  a run keeps; `Lasting.stops_of_halts`: for which reasons it stops.
-/

namespace SimpleLang

variable {W : Type}

open Run

/-! ## Properties of moments -/

/-- The value that is to be called has the property. -/
def Purpose.Each (V : Value → Prop) : Purpose → Prop
  | .call callee => V callee
  | .array => True

def Flow.Each (V : Value → Prop) : Flow → Prop
  | .next => True
  | .returned v => V v

section Each

variable (E : Expr → Prop) (S : Stmt → Prop) (V : Value → Prop)

mutual
/-- All expressions, statements and values that wait for a value have their properties. -/
def AfterValue.Each : AfterValue → Prop
  | .rightOf _ _ right k => E right ∧ k.Each
  | .apply _ left k => V left ∧ k.Each
  | .logical _ k | .negate _ k | .leave k => k.Each
  | .arguments _ args k => (∀ e ∈ args, E e) ∧ k.Each
  | .item use _ done rest k => use.Each V ∧ (∀ v ∈ done, V v) ∧ (∀ e ∈ rest, E e) ∧ k.Each
  | .declare _ _ k | .assign _ _ k | .discard k | .ret k => k.Each
  | .branch _ yes no k => S yes ∧ (∀ s ∈ no, S s) ∧ k.Each
  | .test _ test body k => E test ∧ S body ∧ k.Each
def AfterFlow.Each : AfterFlow → Prop
  | .done => True
  | .rest _ statements k => (∀ s ∈ statements, S s) ∧ k.Each
  | .again _ test body k => E test ∧ S body ∧ k.Each
  | .leave k => k.Each
end

/-- All expressions, statements and values of the moment have their properties. -/
def Moment.Each : Moment → Prop
  | .eval _ e k => E e ∧ k.Each E S V
  | .items use _ done rest k =>
    use.Each V ∧ (∀ v ∈ done, V v) ∧ (∀ e ∈ rest, E e) ∧ k.Each E S V
  | .value v k => V v ∧ k.Each E S V
  | .call callee arguments k => V callee ∧ (∀ v ∈ arguments, V v) ∧ k.Each E S V
  | .exec _ s k => S s ∧ k.Each E S V
  | .hoist _ pending statements k =>
    (∀ s ∈ pending, S s) ∧ (∀ s ∈ statements, S s) ∧ k.Each E S V
  | .execAll _ statements k => (∀ s ∈ statements, S s) ∧ k.Each E S V
  | .flow f k => f.Each V ∧ k.Each E S V

end Each

/-! ## Properties that last -/

/-- The fault is that an integer operation has no result in the range. -/
def Fault.isOverflow : Fault → Bool
  | .overflow .. => true
  | _ => false

/-- Values that syntax with the properties creates have the property `V`, and operations hand it on.
All faults but overflows are among the reasons to stop, and so are those of operations on operands
with the property. -/
structure Lasting (I : Inherited) (range : Integers) (V : Value → Prop) (Stops : Stop → Prop) :
    Prop where
  unit : V .unit
  int (n : Int64) : V (.int n.toInt)
  float (x : Float) : V (.float x)
  string (s : String) : V (.string s)
  bool (b : Bool) : V (.bool b)
  builtin (f : Builtin) : V (.builtin f)
  array {items : List Value} : (∀ v ∈ items, V v) → V (.array items)
  closure {c : Closure} : V (.closure c) ↔ I.closure c
  apply {op : Operation} {a b v : Value} : V a → V b → op.apply range a b = .ok v → V v
  faults {f : Fault} : f.isOverflow = false → Stops (.fault f)
  overflow {op : Operation} {a b : Value} {f : Fault} :
    V a → V b → op.apply range a b = .error f → Stops (.fault f)

namespace Lasting

variable {I : Inherited} {settings : Settings} {V : Value → Prop} {Stops : Stop → Prop}

/-- A negation gives a Boolean, which no property refuses. -/
theorem negate {range : Integers} (h : Lasting I range V Stops) {op : Operation} {a v : Value}
    (hv : op.negate a = .ok v) : V v := by
  cases op <;> cases a <;> cases hv
  exact h.bool _

/-- A negation fails by its type only. -/
theorem isOverflow_of_negate {op : Operation} {a : Value} {f : Fault}
    (hf : op.negate a = .error f) : f.isOverflow = false := by
  cases op <;> cases a <;> cases hf <;> rfl

/-- The property of a function is one of its parameters and body alone. -/
theorem closure_mem {range : Integers} (h : Lasting I range V Stops) {name : Option String}
    {parameters : List String} {body : Body} {scope : ScopeId}
    (hf : I.function parameters body) (serial : Nat) :
    V (.closure { serial, name, parameters, body, scope }) :=
  h.closure.mpr hf

variable (h : Lasting I settings.integers V Stops)

include h

theorem maintains_tick : Maintains V Stops (tick settings : Run W _) fun _ => True :=
  .tick fun _ _ => h.faults rfl

/-- A new frame holds the arguments, and the body of the function is next. -/
theorem maintains_enterFrame (c : Closure) {arguments : List Value}
    (harguments : ∀ v ∈ arguments, V v) :
    Maintains V Stops (enterFrame settings c arguments : Run W _) fun _ => True := by
  have hdepth : Maintains V Stops (checkDepth settings c : Run W _) fun _ => True := by
    intro m hm
    rw [checkDepth_apply]
    split
    · exact .inr ⟨_, m, rfl, hm, h.faults rfl⟩
    · exact .inl ⟨(), m, rfl, hm, trivial⟩
  have hentered : Maintains V Stops (modify entered : Run W Unit) fun _ => True :=
    fun m hm => .inl ⟨(), entered m, rfl, hm, trivial⟩
  refine (Maintains.checkArity (h.faults rfl)).bind fun _ _ => hdepth.bind fun _ _ => ?_
  refine (Maintains.newScope _).bind fun frame _ => ?_
  have hbound : ∀ b ∈ c.parameters.zip arguments, V b.2 := fun b hb =>
    harguments b.2 (List.of_mem_zip hb).2
  exact (Maintains.defineAll frame hbound).bind fun _ _ => hentered.bind fun _ _ => .pure trivial

omit h in
theorem maintains_leave : Maintains V Stops (leave : Run W _) fun _ => True :=
  fun m hm => .inl ⟨(), { m with active := m.active - 1 }, rfl, hm, trivial⟩

omit h in
/-- The body of a function inherits from it, as an expression or as statements. -/
theorem each_start {c : Closure} (hc : I.closure c) (frame : ScopeId) {k : AfterValue}
    (hk : k.Each I.expr I.stmt V) : (c.body.start frame k).Each I.expr I.stmt V := by
  unfold Inherited.closure at hc
  cases hbody : c.body with
  | value e =>
    rw [hbody] at hc
    exact ⟨I.result hc, hk⟩
  | block statements =>
    rw [hbody] at hc
    exact ⟨I.statements hc, I.statements hc, hk⟩

/-- The moment after this one, if there is one, has the properties. -/
def Next (I : Inherited) (V : Value → Prop) (next : Option Moment) : Prop :=
  ∀ c ∈ next, c.Each I.expr I.stmt V

omit h in
theorem next_some {c : Moment} (hc : c.Each I.expr I.stmt V) : Next I V (some c) := by
  rintro _ ⟨⟩
  exact hc

/-- An expression hands on to its parts, which inherit its property. Literals and lambdas have it by
`Lasting`, and what a name is bound to has it in the store. -/
theorem maintains_eval (scope : ScopeId) {e : Expr} (he : I.expr e) {k : AfterValue}
    (hk : k.Each I.expr I.stmt V) :
    Maintains V Stops ((Moment.eval scope e k).step settings : Run W _) (Next I V) := by
  cases e with
  | int n => exact .pure (next_some ⟨h.int n, hk⟩)
  | float x => exact .pure (next_some ⟨h.float x, hk⟩)
  | string s => exact .pure (next_some ⟨h.string s, hk⟩)
  | bool b => exact .pure (next_some ⟨h.bool b, hk⟩)
  | name x =>
    exact (Maintains.lookup scope (h.faults rfl)).bind fun v hv => .pure (next_some ⟨hv, hk⟩)
  | binary op l r => exact .pure (next_some ⟨(I.binary he).1, (I.binary he).2, hk⟩)
  | unary op e => exact .pure (next_some ⟨I.unary he, hk⟩)
  | call f args => exact .pure (next_some ⟨(I.call he).1, (I.call he).2, hk⟩)
  | array elements =>
    exact .pure (next_some ⟨trivial, List.forall_mem_nil _, I.array he, hk⟩)
  | lambda parameters body =>
    exact (Maintains.newClosure none (h.closure_mem (I.lambda he))).bind fun v hv =>
      .pure (next_some ⟨hv, hk⟩)

/-- The values so far have the property, and so has the array that is made of them. -/
theorem maintains_items {use : Purpose} (huse : use.Each V) (scope : ScopeId) {done : List Value}
    (hdone : ∀ v ∈ done, V v) {rest : List Expr} (hrest : ∀ e ∈ rest, I.expr e) {k : AfterValue}
    (hk : k.Each I.expr I.stmt V) :
    Maintains V Stops ((Moment.items use scope done rest k).step settings : Run W _)
      (Next I V) := by
  cases rest with
  | nil =>
    cases use with
    | call callee => exact .pure (next_some ⟨huse, hdone, hk⟩)
    | array => exact .pure (next_some ⟨h.array hdone, hk⟩)
  | cons e rest =>
    obtain ⟨he, hrest⟩ := List.forall_mem_cons.mp hrest
    cases use <;> exact .pure (next_some ⟨he, huse, hdone, hrest, hk⟩)

/-- One case for each thing that a value is waited for. The result of an operation has the property
by `Lasting.apply`. -/
theorem maintains_value {v : Value} (hv : V v) {k : AfterValue} (hk : k.Each I.expr I.stmt V) :
    Maintains V Stops ((Moment.value v k).step settings : Run W _) (Next I V) := by
  cases k with
  | rightOf op scope right k =>
    cases op with
    | and =>
      refine (Maintains.logical fun _ => h.faults rfl).bind fun b _ => .pure (next_some ?_)
      cases b with
      | true => exact hk
      | false => exact ⟨h.bool false, hk.2⟩
    | or =>
      refine (Maintains.logical fun _ => h.faults rfl).bind fun b _ => .pure (next_some ?_)
      cases b with
      | true => exact ⟨h.bool true, hk.2⟩
      | false => exact hk
    | _ => exact .pure (next_some ⟨hk.1, hv, hk.2⟩)
  | apply op left k =>
    refine (Maintains.ofExcept (fun w hw => ?_) fun f hf => ?_).bind fun w hw =>
      .pure (next_some ⟨hw, hk.2⟩)
    -- `hk` has the left operand, which was put aside when the right one was begun
    · exact h.apply hk.1 hv hw
    · exact h.overflow hk.1 hv hf
  | logical op k =>
    exact (Maintains.logical fun _ => h.faults rfl).bind fun b _ =>
      .pure (next_some ⟨h.bool b, hk⟩)
  | negate op k =>
    refine (Maintains.ofExcept (fun w hw => h.negate hw) fun f hf => ?_).bind fun w hw =>
      .pure (next_some ⟨hw, hk⟩)
    exact h.faults (isOverflow_of_negate hf)
  | arguments scope args k =>
    exact .pure (next_some ⟨hv, List.forall_mem_nil _, hk.1, hk.2⟩)
  | item use scope done rest k =>
    obtain ⟨huse, hdone, hrest, hk⟩ := hk
    have hmore : ∀ w ∈ done ++ [v], V w :=
      List.forall_mem_append.mpr ⟨hdone, List.forall_mem_singleton.mpr hv⟩
    exact .pure (next_some ⟨huse, hmore, hrest, hk⟩)
  | declare scope x k =>
    exact (Maintains.define scope x hv).bind fun _ _ => .pure (next_some ⟨trivial, hk⟩)
  | assign scope x k =>
    exact (Maintains.assign scope (h.faults rfl) hv).bind fun _ _ =>
      .pure (next_some ⟨trivial, hk⟩)
  | discard k => exact .pure (next_some ⟨trivial, hk⟩)
  | ret k => exact .pure (next_some ⟨hv, hk⟩)
  | branch scope yes no k =>
    obtain ⟨hyes, hno, hk⟩ := hk
    have hsingle {s : Stmt} (hs : I.stmt s) : ∀ t ∈ [s], I.stmt t :=
      List.forall_mem_singleton.mpr hs
    cases no with
    | none =>
      refine (Maintains.answer fun _ _ => h.faults rfl).bind fun b _ => .pure (next_some ?_)
      cases b with
      | true => exact ⟨hsingle hyes, hsingle hyes, hk⟩
      | false => exact ⟨trivial, hk⟩
    | some no =>
      have hno : I.stmt no := hno no rfl
      refine (Maintains.answer fun _ _ => h.faults rfl).bind fun b _ => .pure (next_some ?_)
      cases b with
      | true => exact ⟨hsingle hyes, hsingle hyes, hk⟩
      | false => exact ⟨hsingle hno, hsingle hno, hk⟩
  | test scope test body k =>
    obtain ⟨htest, hbody, hk⟩ := hk
    have hsingle : ∀ t ∈ [body], I.stmt t := List.forall_mem_singleton.mpr hbody
    refine (Maintains.answer fun _ _ => h.faults rfl).bind fun b _ => .pure (next_some ?_)
    cases b with
    | true => exact ⟨hsingle, hsingle, htest, hbody, hk⟩
    | false => exact ⟨trivial, hk⟩
  | leave k => exact maintains_leave.bind fun _ _ => .pure (next_some ⟨hv, hk⟩)

/-- The frame holds the arguments (`maintains_enterFrame`) and the body inherits from the function
(`each_start`). -/
theorem maintains_call {callee : Value} (hcallee : V callee) {arguments : List Value}
    (harguments : ∀ v ∈ arguments, V v) {k : AfterValue} (hk : k.Each I.expr I.stmt V) :
    Maintains V Stops ((Moment.call callee arguments k).step settings : Run W _) (Next I V) := by
  refine h.maintains_tick.bind fun _ _ => ?_
  cases callee with
  | closure c =>
    exact (h.maintains_enterFrame c harguments).bind fun frame _ =>
      .pure (next_some (each_start (h.closure.mp hcallee) frame hk))
  | builtin f =>
    cases f with
    | display =>
      cases arguments with
      | nil => exact .fail (h.faults rfl)
      | cons v rest =>
        cases rest with
        | nil =>
          exact (Maintains.ask _ fun _ => h.faults rfl).bind fun _ _ =>
            .pure (next_some ⟨h.unit, hk⟩)
        | cons w rest => exact .fail (h.faults rfl)
  | _ => exact .fail (h.faults rfl)

/-- A statement hands on to its parts, and without an expression it gives `Value.unit`. -/
theorem maintains_exec (scope : ScopeId) {s : Stmt} (hs : I.stmt s) {k : AfterFlow}
    (hk : k.Each I.expr I.stmt V) :
    Maintains V Stops ((Moment.exec scope s k).step settings : Run W _) (Next I V) := by
  cases s with
  | declare x e =>
    cases e with
    | none =>
      exact h.maintains_tick.bind fun _ _ => (Maintains.define scope x h.unit).bind fun _ _ =>
        .pure (next_some ⟨trivial, hk⟩)
    | some e => exact h.maintains_tick.bind fun _ _ => .pure (next_some ⟨I.declare hs, hk⟩)
  | assign x e => exact h.maintains_tick.bind fun _ _ => .pure (next_some ⟨I.assign hs, hk⟩)
  | expr e => exact h.maintains_tick.bind fun _ _ => .pure (next_some ⟨I.value hs, hk⟩)
  | ret e =>
    cases e with
    | none => exact h.maintains_tick.bind fun _ _ => .pure (next_some ⟨h.unit, hk⟩)
    | some e => exact h.maintains_tick.bind fun _ _ => .pure (next_some ⟨I.ret hs, hk⟩)
  | cond test yes no =>
    obtain ⟨htest, hyes, hno⟩ := I.cond hs
    exact h.maintains_tick.bind fun _ _ => .pure (next_some ⟨htest, hyes, hno, hk⟩)
  | loop test body =>
    obtain ⟨htest, hbody⟩ := I.loop hs
    exact h.maintains_tick.bind fun _ _ => .pure (next_some ⟨htest, htest, hbody, hk⟩)
  | block statements =>
    exact h.maintains_tick.bind fun _ _ => (Maintains.newScope _).bind fun inner _ =>
      .pure (next_some ⟨I.block hs, I.block hs, hk⟩)
  | function f parameters body =>
    exact h.maintains_tick.bind fun _ _ => .pure (next_some ⟨trivial, hk⟩)

/-- A definition creates its function in the scope. -/
theorem maintains_hoist (scope : ScopeId) {pending statements : List Stmt}
    (hpending : ∀ s ∈ pending, I.stmt s) (hstatements : ∀ s ∈ statements, I.stmt s)
    {k : AfterFlow} (hk : k.Each I.expr I.stmt V) :
    Maintains V Stops ((Moment.hoist scope pending statements k).step settings : Run W _)
      (Next I V) := by
  cases pending with
  | nil => exact .pure (next_some ⟨hstatements, hk⟩)
  | cons s pending =>
    obtain ⟨hs, hrest⟩ := List.forall_mem_cons.mp hpending
    cases s with
    | function f parameters body =>
      refine (Maintains.newClosure (some f) (h.closure_mem (I.definition hs))).bind fun v hv => ?_
      exact (Maintains.define scope f hv).bind fun _ _ =>
        .pure (next_some ⟨hrest, hstatements, hk⟩)
    | _ => exact .pure (next_some ⟨hrest, hstatements, hk⟩)

/-- A value that is returned has the property already, and a body that returns none gives
`Value.unit`. -/
theorem maintains_flow {f : Flow} (hf : f.Each V) {k : AfterFlow}
    (hk : k.Each I.expr I.stmt V) :
    Maintains V Stops ((Moment.flow f k).step settings : Run W _) (Next I V) := by
  cases k with
  | done =>
    -- the program is over, and no moment follows
    refine (Maintains.ask _ fun _ => h.faults rfl).bind fun _ _ => .pure ?_
    rintro _ ⟨⟩
  | rest scope statements k =>
    cases f with
    | next => exact .pure (next_some hk)
    | returned v => exact .pure (next_some ⟨hf, hk.2⟩)
  | again scope test body k =>
    obtain ⟨htest, hbody, hk⟩ := hk
    cases f with
    | next => exact h.maintains_tick.bind fun _ _ => .pure (next_some ⟨htest, htest, hbody, hk⟩)
    | returned v => exact .pure (next_some ⟨hf, hk⟩)
  | leave k =>
    cases f with
    | next => exact maintains_leave.bind fun _ _ => .pure (next_some ⟨h.unit, hk⟩)
    | returned v => exact maintains_leave.bind fun _ _ => .pure (next_some ⟨hf, hk⟩)

/-- What one step keeps. -/
theorem maintains_step {c : Moment} (hc : c.Each I.expr I.stmt V) :
    Maintains V Stops (c.step settings : Run W _) (Next I V) := by
  cases c with
  | eval scope e k => exact h.maintains_eval scope hc.1 hc.2
  | items use scope done rest k => exact h.maintains_items hc.1 scope hc.2.1 hc.2.2.1 hc.2.2.2
  | value v k => exact h.maintains_value hc.1 hc.2
  | call callee arguments k => exact h.maintains_call hc.1 hc.2.1 hc.2.2
  | exec scope s k => exact h.maintains_exec scope hc.1 hc.2
  | hoist scope pending statements k => exact h.maintains_hoist scope hc.1 hc.2.1 hc.2.2
  | execAll scope statements k =>
    obtain ⟨hstatements, hk⟩ := hc
    cases statements with
    | nil => exact .pure (next_some ⟨trivial, hk⟩)
    | cons s rest =>
      obtain ⟨hs, hrest⟩ := List.forall_mem_cons.mp hstatements
      exact .pure (next_some ⟨hs, hrest, hk⟩)
  | flow f k => exact h.maintains_flow hc.1 hc.2

/-- What a run keeps, by induction on its steps. -/
theorem of_steps {n : Nat} {c d : Moment} {m w : Machine W} (hsteps : Steps settings n c m d w)
    (hc : c.Each I.expr I.stmt V) (hm : m.store.Each V) :
    d.Each I.expr I.stmt V ∧ w.store.Each V := by
  induction hsteps with
  | refl c m => exact ⟨hc, hm⟩
  | step hstep _ ih =>
    -- the step is one that goes on, so `maintains_step` tells of the next moment
    rcases h.maintains_step hc _ hm with ⟨next, m', hrun, hm', hnext⟩ | ⟨e, m', hrun, _⟩
    · rw [hstep] at hrun
      cases hrun
      exact ih (hnext _ rfl) hm'
    · rw [hstep] at hrun
      cases hrun

/-- All that a program reaches has the properties. -/
theorem of_reachable {p : Program} (hp : ∀ s ∈ p.statements, I.stmt s) {sink : Sink W} {c : Moment}
    {m : Machine W} (hreach : Reachable settings p sink c m) :
    c.Each I.expr I.stmt V ∧ m.store.Each V := by
  obtain ⟨scope, m₀, n, hscope, hsteps⟩ := hreach
  -- before the first step the store binds `display` only
  have hstart : Maintains V Stops (programScope : Run W _) fun _ => True :=
    (Maintains.newScope none).bind fun globals _ =>
      (Maintains.define globals _ (h.builtin .display)).bind fun _ _ => Maintains.newScope _
  rcases hstart (.start sink) Store.each_empty with ⟨_, _, hrun, hm₀, _⟩ | ⟨e, _, hrun, _⟩
  · rw [hscope] at hrun
    cases hrun
    exact h.of_steps hsteps ⟨hp, hp, trivial⟩ hm₀
  · rw [hscope] at hrun
    cases hrun

/-- A program that stops does so for one of the reasons. -/
theorem stops_of_halts {p : Program} (hp : ∀ s ∈ p.statements, I.stmt s) {sink : Sink W}
    {c : Moment} {m m' : Machine W} {e : Stop} (hreach : Reachable settings p sink c m)
    (hhalts : Halts settings c m (.error e m')) : Stops e := by
  obtain ⟨hc, hm⟩ := h.of_reachable hp hreach
  unfold Halts at hhalts
  rcases h.maintains_step hc m hm with ⟨next, w, hrun, _⟩ | ⟨e', w, hrun, _, he'⟩
  · rw [hrun] at hhalts
    cases next <;> cases hhalts
  · rw [hrun] at hhalts
    cases hhalts
    exact he'

end Lasting

end SimpleLang
