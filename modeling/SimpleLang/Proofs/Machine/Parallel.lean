import SimpleLang.Proofs.Machine.Respects
import SimpleLang.Proofs.Machine.Scopes
import SimpleLang.Proofs.Machine.Sinks

/-!
# Runs of a program in two places

A run takes the same course when `d` more scopes lie around it: it ends with the same output, and
with a value that has only moved or at the same fault. Nothing depends on the number of steps
either, as long as there is no limit on them.

* `Machine.Twin d m m'`: the machine `m'` is `m` with `d` more scopes.
* `Run.Parallel`: two runs end alike on twin machines. It is closed under sequencing
  (`Run.Parallel.bind`), and so every run is parallel to itself in a moved scope
  (`Expr.parallel_eval`, `Stmt.parallel_exec`).
* `Run.parallel_invoke`: so are calls of functions, by induction on how many calls may still be
  nested.

With `d = 0` the two runs are one, and `Run.Parallel` says what it preserves
(`Run.Parallel.twin_self`).
-/

namespace SimpleLang

variable {W : Type}

open Stmt (displayName)

/-! ## Twin machines -/

abbrev Machine.size (m : Machine W) : Nat := m.store.scopes.size

/-- The second machine is the first one with `d` more scopes below the outermost one. The number of
steps and of calls in progress may differ. -/
structure Machine.Twin (d : Nat) (m m' : Machine W) : Prop where
  sane : m.store.Sane
  embeds : m.store.Embeds d m'.store
  functions : m'.functions = m.functions
  sink : m'.sink = m.sink
  reliable : m.sink.writer.Reliable

/-- A value and the same value in the other machine, of which the first has `n` scopes. -/
def Value.Moved (d n : Nat) (v v' : Value) : Prop := v.Fits n ∧ v' = v.shift d

/-- A statement ends in the same way in both machines. -/
def Flow.Moved (d n : Nat) : Flow → Flow → Prop
  | .next, .next => True
  | .returned v, .returned v' => v.Moved d n v'
  | _, _ => False

namespace Run

variable {α β γ δ : Type} {d n : Nat}

/-- Two runs end alike: with values that `V` relates on twin machines, of which the first has at
least `n` scopes, or at the same stop and with the same output. -/
def Alike (d n : Nat) (V : Nat → α → β → Prop) :
    EStateM.Result Stop (Machine W) α → EStateM.Result Stop (Machine W) β → Prop
  | .ok a m, .ok b m' => m.Twin d m' ∧ n ≤ m.size ∧ V m.size a b
  | .error e m, .error e' m' => e' = e ∧ m'.sink = m.sink
  | _, _ => False

/-- `Alike` by its two cases, for `rcases`. -/
theorem Alike.cases {V : Nat → α → β → Prop} {r : EStateM.Result Stop (Machine W) α}
    {r' : EStateM.Result Stop (Machine W) β} (h : Alike d n V r r') :
    (∃ e m m', r = .error e m ∧ r' = .error e m' ∧ m'.sink = m.sink) ∨
      ∃ a b m m', r = .ok a m ∧ r' = .ok b m' ∧ m.Twin d m' ∧ n ≤ m.size ∧ V m.size a b := by
  cases r with
  | error e m =>
    cases r' with
    | error e' m' =>
      obtain ⟨rfl, hsink⟩ := h
      exact .inl ⟨e', m, m', rfl, rfl, hsink⟩
    | ok b m' => exact h.elim
  | ok a m =>
    cases r' with
    | error e' m' => exact h.elim
    | ok b m' => exact .inr ⟨a, b, m, m', rfl, rfl, h⟩

/-- The number of scopes is a lower bound. -/
theorem Alike.mono {V : Nat → α → β → Prop} {k : Nat} (hle : n ≤ k)
    {r : EStateM.Result Stop (Machine W) α} {r' : EStateM.Result Stop (Machine W) β}
    (h : Alike d k V r r') : Alike d n V r r' := by
  rcases h.cases with ⟨e, m, m', rfl, rfl, hsink⟩ | ⟨a, b, m, m', rfl, rfl, htwin, hk, hab⟩
  · exact ⟨rfl, hsink⟩
  · exact ⟨htwin, Nat.le_trans hle hk, hab⟩

/-- Two runs end alike on all twin machines with at least `n` scopes. -/
def Parallel (d n : Nat) (r : Run W α) (r' : Run W β) (V : Nat → α → β → Prop) : Prop :=
  ∀ m m', Machine.Twin d m m' → n ≤ m.size → Alike d m.size V (r m) (r' m')

/-- The values are equal. -/
def same : Nat → α → α → Prop := fun _ a b => b = a

/-! ### Sequencing -/

namespace Parallel

/-- On machines with more scopes there is less to show. -/
theorem weaken {r : Run W α} {r' : Run W β} {V : Nat → α → β → Prop} {k : Nat}
    (h : Parallel d n r r' V) (hle : n ≤ k) : Parallel d k r r' V :=
  fun m m' htwin hk => h m m' htwin (Nat.le_trans hle hk)

/-- The values have to be related whatever number of scopes there is by then. -/
theorem pure {a : α} {b : β} {V : Nat → α → β → Prop} (h : ∀ k, n ≤ k → V k a b) :
    Parallel d n (Pure.pure a : Run W _) (Pure.pure b) V :=
  fun m _ htwin hn => ⟨htwin, Nat.le_refl m.size, h m.size hn⟩

theorem fail (f : Fault) {V : Nat → α → β → Prop} : Parallel d n (fail f : Run W _) (fail f) V :=
  fun _ _ htwin _ => ⟨rfl, htwin.sink⟩

/-- The second parts start with the values and the scopes that the first ones leave, which `hf`
takes as `k`. -/
theorem bind {r : Run W α} {r' : Run W β} {f : α → Run W γ} {f' : β → Run W δ}
    {V : Nat → α → β → Prop} {U : Nat → γ → δ → Prop} (h : Parallel d n r r' V)
    (hf : ∀ k, n ≤ k → ∀ a b, V k a b → Parallel d k (f a) (f' b) U) :
    Parallel d n (r >>= f) (r' >>= f') U := by
  intro m m' htwin hn
  have hr := h m m' htwin hn
  show Alike d m.size U (EStateM.bind r f m) (EStateM.bind r' f' m')
  unfold EStateM.bind
  rcases hr.cases with ⟨e, m₁, m₁', hm, hm', hsink⟩ | ⟨a, b, m₁, m₁', hm, hm', htwin₁, hle, hab⟩
  · rw [hm, hm']
    exact ⟨rfl, hsink⟩
  · rw [hm, hm']
    -- what follows starts with the scopes that are there by now, at least as many as before
    exact (hf m₁.size (Nat.le_trans hn hle) a b hab m₁ m₁' htwin₁ (Nat.le_refl _)).mono hle

end Parallel

/-- A run that is parallel to itself in the same place keeps what holds of the machine. -/
theorem Parallel.twin_self {r : Run W α} {V : Nat → α → α → Prop} (h : Parallel 0 n r r V)
    {m m₁ : Machine W} (htwin : m.Twin 0 m) (hn : n ≤ m.size) {a : α} (hm : r m = .ok a m₁) :
    m₁.Twin 0 m₁ ∧ m.size ≤ m₁.size ∧ V m₁.size a a := by
  have halike := h m m htwin hn
  rw [hm] at halike
  exact halike

/-! ### Steps of the machine -/

/-- Without a limit a step is always taken, and the steps of twins may differ. -/
theorem parallel_tick {settings : Settings} (hsteps : settings.maxSteps = none) :
    Parallel d n (tick settings : Run W _) (tick settings) same := by
  intro m m' htwin _
  rw [tick_of_none hsteps, tick_of_none hsteps]
  exact ⟨{ htwin with }, Nat.le_refl _, rfl⟩

/-- A new scope is not the outermost one. -/
theorem parallel_newScope {p : Nat} (hp : p < n) :
    Parallel d n (newScope (some p) : Run W _) (newScope (some (p + d)))
      fun k a b => 0 < a ∧ a < k ∧ b = a + d := by
  intro m m' htwin hn
  have hp' : p < m.size := Nat.lt_of_lt_of_le hp hn
  have hpos : 0 < m.size := Nat.zero_lt_of_lt hp'
  have hlt : m.size < (m.store.newScope (some p)).2.scopes.size := by
    rw [Store.newScope, Array.size_push]
    exact Nat.lt_succ_self _
  have htwin' : Machine.Twin d { m with store := (m.store.newScope (some p)).2 }
      { m' with store := (m'.store.newScope (some (p + d))).2 } :=
    { htwin with sane := htwin.sane.newScope hp', embeds := htwin.embeds.newScope hpos p }
  exact ⟨htwin', Nat.le_of_lt hlt, hpos, hlt, htwin.embeds.size⟩

/-- The scope is not the outermost one and the name is not that of `display`, so `Store.Sane` holds
still. -/
theorem parallel_define {scope : Nat} (hscope : 0 < scope) {x : String} (hx : x ≠ displayName)
    {v v' : Value} (hv : v.Moved d n v') :
    Parallel d n (define scope x v : Run W _) (define (scope + d) x v') same := by
  intro m m' htwin hn
  obtain ⟨hfits, rfl⟩ := hv
  have hsize : (m.store.define scope x v).scopes.size = m.size := Array.size_modify ..
  have hsane := htwin.sane.define hscope hx (Value.Fits.mono hn v hfits)
  exact ⟨{ htwin with sane := hsane, embeds := htwin.embeds.define hscope x v },
    Nat.le_of_eq hsize.symm, rfl⟩

/-- By induction on the bindings. Each leaves at least as many scopes, in which the other values
still fit. -/
theorem parallel_defineAll {scope : Nat} (hscope : 0 < scope) (bs : Bindings)
    (hbs : ∀ b ∈ bs, b.1 ≠ displayName ∧ b.2.Fits n) :
    Parallel d n (defineAll scope bs : Run W _) (defineAll (scope + d) (Bindings.shift d bs))
      same := by
  induction bs generalizing n with
  | nil => exact .pure fun _ _ => rfl
  | cons b bs ih =>
    obtain ⟨x, v⟩ := b
    obtain ⟨⟨hx, hv⟩, hrest⟩ := List.forall_mem_cons.mp hbs
    refine .bind (parallel_define hscope hx ⟨hv, rfl⟩) fun k hk _ _ _ => ?_
    exact ih fun b hb => ⟨(hrest b hb).1, Value.Fits.mono hk _ (hrest b hb).2⟩

/-- A name is found in the scope that has moved, with the value that has moved
(`Store.Embeds.get?_shift`). -/
theorem parallel_lookup {scope : Nat} (hscope : scope < n) (x : String) :
    Parallel d n (lookup scope x : Run W _) (lookup (scope + d) x) (Value.Moved d) := by
  intro m m' htwin hn
  have hget : m'.store.get? (scope + d) x = (m.store.get? scope x).map (Value.shift d) :=
    htwin.embeds.get?_shift htwin.sane scope (Nat.lt_of_lt_of_le hscope hn)
  rw [lookup_apply, lookup_apply, hget]
  cases hv : m.store.get? scope x with
  | none => exact ⟨rfl, htwin.sink⟩
  | some v => exact ⟨htwin, Nat.le_refl _, htwin.sane.fits_of_get? hv, rfl⟩

theorem parallel_assign {scope : Nat} (hscope : scope < n) {x : String} (hx : x ≠ displayName)
    {v v' : Value} (hv : v.Moved d n v') :
    Parallel d n (assign scope x v : Run W _) (assign (scope + d) x v') same := by
  intro m m' htwin hn
  rw [assign_apply, assign_apply,
    htwin.embeds.resolve?_shift htwin.sane scope (Nat.lt_of_lt_of_le hscope hn)]
  cases howner : m.store.resolve? scope x with
  | none => exact ⟨rfl, htwin.sink⟩
  | some owner =>
    -- the outermost scope holds the builtin alone, so the owner is one that has moved
    have hpos := (htwin.sane.pos_of_resolve? scope howner hx).1
    have hmoved : Store.moved d owner = owner + d := if_neg (Nat.ne_of_gt hpos)
    show Alike d m.size same (define owner x v m) (define (Store.moved d owner) x v' m')
    rw [hmoved]
    exact parallel_define hpos hx hv m m' htwin hn

/-- Both get the same serial number, since the machines have made the same number of functions. -/
theorem parallel_newClosure (name : Option String) {parameters : List String} {body : Body}
    {scope : Nat} (hparameters : displayName ∉ parameters) (hbody : body.Spares displayName)
    (hscope : scope < n) : Parallel d n (newClosure name parameters body scope : Run W _)
      (newClosure name parameters body (scope + d)) (Value.Moved d) := by
  intro m m' htwin hn
  refine ⟨{ htwin with functions := congrArg (· + 1) htwin.functions }, Nat.le_refl _,
    ⟨Nat.lt_of_lt_of_le hscope hn, hparameters, hbody⟩, ?_⟩
  rw [htwin.functions]
  rfl

/-- The machines have one sink, so it takes both lines alike. -/
theorem parallel_writeLine (pieces : List String) :
    Parallel d n (writeLine pieces : Run W _) (writeLine pieces) same := by
  intro m m' htwin _
  rcases ask_cases (·.writeEach (pieces ++ ["\n"])) .notWritten m.sink with
    hrun | ⟨reason, hrun⟩
  · rw [writeLine, hrun m rfl, hrun m' htwin.sink]
    refine ⟨{ htwin with sink := rfl, reliable := ?_ }, Nat.le_refl _, rfl⟩
    rw [Sink.writer_writeEach]
    exact htwin.reliable
  · rw [writeLine, hrun m rfl, hrun m' htwin.sink]
    exact ⟨rfl, rfl⟩

/-- The numbers of calls in progress may differ. -/
theorem parallel_counted {r : Run W α} {r' : Run W β} {V : Nat → α → β → Prop}
    (h : Parallel d n r r' V) : Parallel d n (counted r) (counted r') V := by
  intro m m' htwin hn
  have hr := h (entered m) (entered m') { htwin with } hn
  rcases hr.cases with ⟨e, m₁, m₁', hm, hm', hsink⟩ | ⟨a, b, m₁, m₁', hm, hm', htwin₁, hle, hab⟩
  · rw [counted_of_error hm, counted_of_error hm']
    exact ⟨rfl, hsink⟩
  · rw [counted_of_ok hm, counted_of_ok hm']
    exact ⟨{ htwin₁ with }, hle, hab⟩

/-! ### Questions and operations -/

/-- A plain value holds no function, so it does not move. -/
theorem parallel_ofExcept {r : Except Fault Value} (hplain : ∀ v, r = .ok v → v.isPlain) :
    Parallel d n (ofExcept r : Run W _) (ofExcept r) (Value.Moved d) := by
  cases r with
  | error f => exact .fail f
  | ok v =>
    have hv := hplain v rfl
    exact .pure fun k _ => ⟨Value.fits_of_isPlain k hv, (Value.shift_of_isPlain d hv).symm⟩

/-- The fault tells the value's type and text, and functions show their names only. -/
theorem answer_shift (d : Nat) (question : Question) (v : Value) :
    (answer question (v.shift d) : Run W Bool) = answer question v := by
  have hfail (t : ValueType) (text : String) (htext : text = v.text) :
      (fail (.notACondition question t text) : Run W Bool)
        = fail (.notACondition question t v.text) := by rw [htext]
  cases v with
  | bool _ => rfl
  | _ => exact hfail _ _ (Value.text_shift d _)

theorem parallel_answer (question : Question) {v v' : Value} (hv : v.Moved d n v') :
    Parallel d n (answer question v : Run W _) (answer question v') same := by
  obtain ⟨_, rfl⟩ := hv
  rw [answer_shift]
  cases v with
  | bool b => exact .pure fun _ _ => rfl
  | _ => exact .fail _

theorem parallel_logical (op : Operation) {v v' : Value} (hv : v.Moved d n v') :
    Parallel d n (logical op v : Run W _) (logical op v') same := by
  obtain ⟨_, rfl⟩ := hv
  cases v with
  | bool b => exact .pure fun _ _ => rfl
  | _ => exact .fail _

/-! ### Evaluation -/

end Run

/-- Calls of functions are parallel to the calls of the functions as they have moved. -/
structure Context.Uniform (d : Nat) (context : Context W) : Prop where
  steps : context.settings.maxSteps = none
  invoke : ∀ n c arguments, c.Fits n → Value.AllFit n arguments →
    Run.Parallel d n (context.invoke c arguments)
      (context.invoke (c.shift d) (Value.shiftItems d arguments)) (Value.Moved d)

namespace Run

variable {d n : Nat} {context : Context W}

/-- `display` shows the same pieces of a value that has moved, and functions are left to
`Context.Uniform`. -/
theorem parallel_call (hcontext : context.Uniform d) {callee callee' : Value}
    {arguments arguments' : List Value} (hcallee : callee.Moved d n callee')
    (hfit : Value.AllFit n arguments) (hmoved : arguments' = Value.shiftItems d arguments) :
    Parallel d n (call context callee arguments) (call context callee' arguments')
      (Value.Moved d) := by
  obtain ⟨hfits, rfl⟩ := hcallee
  subst hmoved
  refine .bind (parallel_tick hcontext.steps) fun k hk _ _ _ => ?_
  cases callee with
  | builtin f =>
    cases f with
    | display =>
      match arguments with
      | [] => exact .fail _
      | [v] =>
        -- what is displayed of a value does not show its scopes
        have hpieces : (v.shift d).pieces = v.pieces := v.pieces_shift d
        show Parallel d k (do writeLine v.pieces; return Value.unit)
          (do writeLine (v.shift d).pieces; return Value.unit) (Value.Moved d)
        rw [hpieces]
        exact .bind (parallel_writeLine v.pieces) fun _ _ _ _ _ => .pure fun _ _ => ⟨trivial, rfl⟩
      | v :: w :: rest =>
        have hlength := Value.length_shiftItems d (v :: w :: rest)
        show Parallel d k (fail (.displayArity (v :: w :: rest).length))
          (fail (.displayArity (Value.shiftItems d (v :: w :: rest)).length)) _
        rw [hlength]
        exact .fail _
  | closure c =>
    exact (hcontext.invoke n c arguments hfits hfit).weaken hk
  | _ => exact .fail _

/-- By induction on the statements, in the same scope throughout. -/
theorem parallel_hoist {scope : Nat} (hpos : 0 < scope) : (ss : List Stmt) →
    Stmt.AllSpare displayName ss → ∀ {n : Nat}, scope < n →
    Parallel d n (hoist scope ss : Run W _) (hoist (scope + d) ss) same
  | [], _, n, _ => .pure fun _ _ => rfl
  | .function f parameters body :: rest, h, n, hscope => by
    obtain ⟨⟨hf, hparameters, hbody⟩, hrest⟩ := h
    refine .bind (parallel_newClosure (some f) hparameters hbody hscope) fun k hk v v' hv => ?_
    refine .bind (parallel_define hpos hf hv) fun j hj _ _ _ => ?_
    exact parallel_hoist hpos rest hrest (by omega)
  | .declare _ _ :: rest, h, n, hscope | .assign _ _ :: rest, h, n, hscope
  | .expr _ :: rest, h, n, hscope | .ret _ :: rest, h, n, hscope
  | .cond _ _ _ :: rest, h, n, hscope | .loop _ _ :: rest, h, n, hscope
  | .block _ :: rest, h, n, hscope => parallel_hoist hpos rest h.2 hscope

/-- The rounds of a loop are parallel if its parts are, by induction on how many there may be. -/
theorem parallel_rounds {settings : Settings} (hsteps : settings.maxSteps = none)
    {condition condition' : Run W Bool} {body body' : Run W Flow}
    (hcondition : Parallel d n condition condition' same)
    (hbody : Parallel d n body body' (Flow.Moved d)) (count : Nat) :
    Parallel d n (rounds settings condition body count) (rounds settings condition' body' count)
      (Flow.Moved d) := by
  -- for all numbers of scopes at once: every round may leave more of them behind
  induction count generalizing n with
  | zero => exact fun _ _ htwin _ => ⟨rfl, htwin.sink⟩
  | succ count ih =>
    refine .bind hcondition fun k hk b b' hb => ?_
    obtain rfl : b' = b := hb
    cases b' with
    | false => exact .pure fun _ _ => trivial
    | true =>
      refine .bind (hbody.weaken hk) fun j hj flow flow' hflow => ?_
      match flow, flow', hflow with
      | .returned v, .returned v', hflow =>
        exact .pure fun l hl => ⟨Value.Fits.mono hl v hflow.1, hflow.2⟩
      | .next, .next, _ =>
        refine .bind (parallel_tick hsteps) fun l hl _ _ _ => ?_
        exact ih (hcondition.weaken (by omega)) (hbody.weaken (by omega))

end Run

/-- Values and the same values in the other machine. -/
def Value.AllMoved (d n : Nat) (vs vs' : List Value) : Prop :=
  Value.AllFit n vs ∧ vs' = Value.shiftItems d vs

section Syntax

open Run

variable {d : Nat} {context : Context W}

mutual
/-- By induction on the expression, for all numbers of scopes at once, since an operand may leave
more of them to the next. -/
theorem Expr.parallel_eval (hcontext : context.Uniform d) : (e : Expr) → e.Spares displayName →
    ∀ {n scope : Nat}, scope < n →
    Parallel d n (e.eval context scope) (e.eval context (scope + d)) (Value.Moved d)
  | .int _, _, n, scope, _ | .float _, _, n, scope, _ | .string _, _, n, scope, _
  | .bool _, _, n, scope, _ => .pure fun _ _ => ⟨trivial, rfl⟩
  | .name x, _, n, scope, hscope => parallel_lookup hscope x
  | .binary op l r, h, n, scope, hscope => by
    have hl {n : Nat} (hscope : scope < n) := Expr.parallel_eval hcontext l h.1 hscope
    have hr {n : Nat} (hscope : scope < n) := Expr.parallel_eval hcontext r h.2 hscope
    -- a logical operation asks for its right operand only after the left one
    have hlogical (op : Operation) {k : Nat} (hk : scope < k) : Parallel d k
        (do return Value.bool (← logical op (← r.eval context scope)))
        (do return Value.bool (← logical op (← r.eval context (scope + d)))) (Value.Moved d) := by
      refine .bind (hr hk) fun j hj v v' hv => ?_
      refine .bind (parallel_logical op hv) fun i hi b b' hb => ?_
      obtain rfl : b' = b := hb
      exact .pure fun _ _ => ⟨trivial, rfl⟩
    cases op with
    | and =>
      refine .bind (hl hscope) fun k hk v v' hv => ?_
      refine .bind (parallel_logical .and hv) fun j hj b b' hb => ?_
      obtain rfl : b' = b := hb
      cases b' with
      | true => exact hlogical .and (by omega)
      | false => exact .pure fun _ _ => ⟨trivial, rfl⟩
    | or =>
      refine .bind (hl hscope) fun k hk v v' hv => ?_
      refine .bind (parallel_logical .or hv) fun j hj b b' hb => ?_
      obtain rfl : b' = b := hb
      cases b' with
      | true => exact .pure fun _ _ => ⟨trivial, rfl⟩
      | false => exact hlogical .or (by omega)
    | _ =>
      refine .bind (hl hscope) fun k hk a a' ha => ?_
      refine .bind (hr (by omega)) fun j hj b b' hb => ?_
      obtain ⟨_, rfl⟩ := ha
      obtain ⟨_, rfl⟩ := hb
      rw [Operation.apply_shift]
      exact parallel_ofExcept fun v hv => Operation.isPlain_of_apply _ _ hv
  | .unary op e, h, n, scope, hscope => by
    refine .bind (Expr.parallel_eval hcontext e h hscope) fun k hk v v' hv => ?_
    obtain ⟨_, rfl⟩ := hv
    rw [Operation.negate_shift]
    exact parallel_ofExcept fun v hv => Operation.isPlain_of_negate _ hv
  | .call f args, h, n, scope, hscope => by
    refine .bind (Expr.parallel_eval hcontext f h.1 hscope) fun k hk v v' hv => ?_
    refine .bind (Expr.parallel_evalAll hcontext args h.2 (by omega)) fun j hj vs vs' hvs => ?_
    exact parallel_call hcontext ⟨Value.Fits.mono hj v hv.1, hv.2⟩ hvs.1 hvs.2
  | .array elements, h, n, scope, hscope => by
    refine .bind (Expr.parallel_evalAll hcontext elements h hscope) fun k hk vs vs' hvs => ?_
    exact .pure fun j hj => ⟨Value.AllFit.mono hj vs hvs.1, congrArg Value.array hvs.2⟩
  | .lambda parameters body, h, n, scope, hscope => parallel_newClosure none h.1 h.2 hscope
theorem Expr.parallel_evalAll (hcontext : context.Uniform d) : (es : List Expr) →
    Expr.AllSpare displayName es → ∀ {n scope : Nat}, scope < n →
    Parallel d n (Expr.evalAll context scope es) (Expr.evalAll context (scope + d) es)
      (Value.AllMoved d)
  | [], _, n, scope, _ => .pure fun _ _ => ⟨trivial, rfl⟩
  | e :: rest, h, n, scope, hscope => by
    refine .bind (Expr.parallel_eval hcontext e h.1 hscope) fun k hk v v' hv => ?_
    refine .bind (Expr.parallel_evalAll hcontext rest h.2 (by omega)) fun j hj vs vs' hvs => ?_
    refine .pure fun i hi => ⟨⟨Value.Fits.mono (Nat.le_trans hj hi) v hv.1,
      Value.AllFit.mono hi vs hvs.1⟩, ?_⟩
    rw [hv.2, hvs.2]
    rfl
end

/-- A branch or the body of a loop, before which its function is bound if it defines one. -/
theorem parallel_branch {s : Stmt} (hs : s.Spares displayName) {scope : Nat} (hpos : 0 < scope)
    (h : ∀ {n : Nat}, scope < n →
      Parallel d n (s.exec context scope) (s.exec context (scope + d)) (Flow.Moved d))
    {n : Nat} (hscope : scope < n) :
    Parallel d n (do hoist scope [s]; s.exec context scope)
      (do hoist (scope + d) [s]; s.exec context (scope + d)) (Flow.Moved d) :=
  .bind (parallel_hoist hpos [s] ⟨hs, trivial⟩ hscope) fun _ hk _ _ _ =>
    h (Nat.lt_of_lt_of_le hscope hk)

mutual
/-- By induction on the statement, with `0 < scope` as the outermost scope is never the one that
runs. -/
theorem Stmt.parallel_exec (hcontext : context.Uniform d) : (s : Stmt) → s.Spares displayName →
    ∀ {n scope : Nat}, 0 < scope → scope < n →
    Parallel d n (s.exec context scope) (s.exec context (scope + d)) (Flow.Moved d)
  | .declare x none, h, n, scope, hpos, hscope => by
    refine .bind (parallel_tick hcontext.steps) fun k hk _ _ _ => ?_
    refine .bind (parallel_define hpos h ⟨trivial, rfl⟩) fun j hj _ _ _ => ?_
    exact .pure fun _ _ => trivial
  | .declare x (some e), h, n, scope, hpos, hscope => by
    refine .bind (parallel_tick hcontext.steps) fun k hk _ _ _ => ?_
    refine .bind (Expr.parallel_eval hcontext e h.2 (by omega)) fun j hj v v' hv => ?_
    refine .bind (parallel_define hpos h.1 hv) fun i hi _ _ _ => ?_
    exact .pure fun _ _ => trivial
  | .assign x e, h, n, scope, hpos, hscope => by
    refine .bind (parallel_tick hcontext.steps) fun k hk _ _ _ => ?_
    refine .bind (Expr.parallel_eval hcontext e h.2 (by omega)) fun j hj v v' hv => ?_
    refine .bind (parallel_assign (by omega) h.1 hv) fun i hi _ _ _ => ?_
    exact .pure fun _ _ => trivial
  | .expr e, h, n, scope, hpos, hscope => by
    refine .bind (parallel_tick hcontext.steps) fun k hk _ _ _ => ?_
    refine .bind (Expr.parallel_eval hcontext e h (by omega)) fun j hj v v' hv => ?_
    exact .pure fun _ _ => trivial
  | .ret none, _, n, scope, hpos, hscope => by
    refine .bind (parallel_tick hcontext.steps) fun k hk _ _ _ => ?_
    exact .pure fun _ _ => ⟨trivial, rfl⟩
  | .ret (some e), h, n, scope, hpos, hscope => by
    refine .bind (parallel_tick hcontext.steps) fun k hk _ _ _ => ?_
    refine .bind (Expr.parallel_eval hcontext e h (by omega)) fun j hj v v' hv => ?_
    exact .pure fun i hi => ⟨Value.Fits.mono hi v hv.1, hv.2⟩
  | .cond test yes none, h, n, scope, hpos, hscope => by
    refine .bind (parallel_tick hcontext.steps) fun k hk _ _ _ => ?_
    refine .bind (Expr.parallel_eval hcontext test h.1 (by omega)) fun j hj v v' hv => ?_
    refine .bind (parallel_answer .conditional hv) fun i hi b b' hb => ?_
    obtain rfl : b' = b := hb
    cases b' with
    | false => exact .pure fun _ _ => trivial
    | true => exact parallel_branch h.2 hpos (Stmt.parallel_exec hcontext yes h.2 hpos) (by omega)
  | .cond test yes (some no), h, n, scope, hpos, hscope => by
    refine .bind (parallel_tick hcontext.steps) fun k hk _ _ _ => ?_
    refine .bind (Expr.parallel_eval hcontext test h.1 (by omega)) fun j hj v v' hv => ?_
    refine .bind (parallel_answer .conditional hv) fun i hi b b' hb => ?_
    obtain rfl : b' = b := hb
    cases b' with
    | false =>
      exact parallel_branch h.2.2 hpos (Stmt.parallel_exec hcontext no h.2.2 hpos) (by omega)
    | true =>
      exact parallel_branch h.2.1 hpos (Stmt.parallel_exec hcontext yes h.2.1 hpos) (by omega)
  | .loop test body, h, n, scope, hpos, hscope => by
    refine .bind (parallel_tick hcontext.steps) fun k hk _ _ _ => ?_
    refine parallel_rounds hcontext.steps ?_ ?_ context.patience
    · refine .bind (Expr.parallel_eval hcontext test h.1 (by omega)) fun j hj v v' hv => ?_
      exact parallel_answer .loop hv
    · exact parallel_branch h.2 hpos (Stmt.parallel_exec hcontext body h.2 hpos) (by omega)
  | .block statements, h, n, scope, hpos, hscope => by
    refine .bind (parallel_tick hcontext.steps) fun k hk _ _ _ => ?_
    refine .bind (parallel_newScope (by omega)) fun j hj inner inner' hinner => ?_
    -- new in both machines, the scope of the block is `d` further in as well
    obtain ⟨hpos', hlt, rfl⟩ := hinner
    refine .bind (parallel_hoist hpos' statements h hlt) fun i hi _ _ _ => ?_
    exact Stmt.parallel_execAll hcontext statements h hpos' (Nat.lt_of_lt_of_le hlt hi)
  | .function _ _ _, _, n, scope, hpos, hscope => by
    refine .bind (parallel_tick hcontext.steps) fun k hk _ _ _ => ?_
    exact .pure fun _ _ => trivial
theorem Stmt.parallel_execAll (hcontext : context.Uniform d) : (ss : List Stmt) →
    Stmt.AllSpare displayName ss → ∀ {n scope : Nat}, 0 < scope → scope < n →
    Parallel d n (Stmt.execAll context scope ss) (Stmt.execAll context (scope + d) ss)
      (Flow.Moved d)
  | [], _, n, scope, _, _ => .pure fun _ _ => trivial
  | s :: rest, h, n, scope, hpos, hscope => by
    refine .bind (Stmt.parallel_exec hcontext s h.1 hpos hscope) fun k hk flow flow' hflow => ?_
    match flow, flow', hflow with
    | .returned v, .returned v', hflow =>
      exact .pure fun j hj => ⟨Value.Fits.mono hj v hflow.1, hflow.2⟩
    | .next, .next, _ => exact Stmt.parallel_execAll hcontext rest h.2 hpos (by omega)
end

/-! ## Functions and programs -/

namespace Run

theorem parallel_sequence (hcontext : context.Uniform d) {ss : List Stmt}
    (h : Stmt.AllSpare displayName ss) {n scope : Nat} (hpos : 0 < scope) (hscope : scope < n) :
    Parallel d n (sequence context scope ss) (sequence context (scope + d) ss) (Flow.Moved d) := by
  refine .bind (parallel_hoist hpos ss h hscope) fun k hk _ _ _ => ?_
  exact Stmt.parallel_execAll hcontext ss h hpos (by omega)

/-- A body that returns no value gives `Value.unit`, which does not move. -/
theorem parallel_body (hcontext : context.Uniform d) {b : Body} (h : b.Spares displayName)
    {n frame : Nat} (hpos : 0 < frame) (hframe : frame < n) :
    Parallel d n (body context frame b) (body context (frame + d) b) (Value.Moved d) := by
  cases b with
  | value e => exact Expr.parallel_eval hcontext e h hframe
  | block statements =>
    refine .bind (parallel_sequence hcontext h hpos hframe) fun k hk flow flow' hflow => ?_
    match flow, flow', hflow with
    | .returned v, .returned v', hflow =>
      exact .pure fun j hj => ⟨Value.Fits.mono hj v hflow.1, hflow.2⟩
    | .next, .next, _ => exact .pure fun _ _ => ⟨trivial, rfl⟩

/-- Neither the parameters nor the number of arguments move. -/
theorem parallel_checkArity {n : Nat} (c : Closure) (arguments : List Value) :
    Parallel d n (checkArity c arguments : Run W _)
      (checkArity (c.shift d) (Value.shiftItems d arguments)) same := by
  have hlength := Value.length_shiftItems d arguments
  show Parallel d n (if _ then _ else _) (if _ then _ else _) same
  rw [hlength]
  show Parallel d n (if _ then _ else _) (if arguments.length = c.parameters.length then _ else _)
    same
  split
  · exact .pure fun _ _ => rfl
  · exact .fail _

/-- Binding parameters goes with moving the arguments. -/
theorem zip_shiftItems (xs : List String) (vs : List Value) :
    xs.zip (Value.shiftItems d vs) = Bindings.shift d (xs.zip vs) := by
  induction xs generalizing vs with
  | nil => rfl
  | cons x xs ih =>
    cases vs with
    | nil => rfl
    | cons v vs => exact congrArg ((x, v.shift d) :: ·) (ih vs)

theorem fits_of_mem {n : Nat} {v : Value} : (vs : List Value) → Value.AllFit n vs → v ∈ vs →
    v.Fits n
  | w :: rest, h, hmem => by
    rcases List.mem_cons.mp hmem with rfl | hmem
    · exact h.1
    · exact fits_of_mem rest h.2 hmem

/-- A call of a function is parallel to the call of the function as it has moved. -/
theorem parallel_invoke {settings : Settings} (hsteps : settings.maxSteps = none) (patience : Nat)
    (room n : Nat) (c : Closure) (arguments : List Value) (hc : c.Fits n)
    (harguments : Value.AllFit n arguments) :
    Parallel d n (invoke settings patience room c arguments : Run W _)
      (invoke settings patience room (c.shift d) (Value.shiftItems d arguments))
      (Value.Moved d) := by
  induction room generalizing n c arguments with
  | zero => exact .bind (parallel_checkArity c arguments) fun _ _ _ _ _ => .fail _
  | succ room ih =>
    refine .bind (parallel_checkArity c arguments) fun k hk _ _ _ => ?_
    refine .bind (parallel_newScope (Nat.lt_of_lt_of_le hc.scope hk)) fun j hj frame frame' h => ?_
    obtain ⟨hpos, hframe, rfl⟩ := h
    have hbindings : ∀ b ∈ c.parameters.zip arguments, b.1 ≠ displayName ∧ b.2.Fits j := by
      intro b hb
      obtain ⟨hname, hvalue⟩ := List.of_mem_zip hb
      refine ⟨fun h => hc.parameters (h ▸ hname), ?_⟩
      exact Value.Fits.mono (Nat.le_trans hk hj) _ (fits_of_mem arguments harguments hvalue)
    have hdefine := parallel_defineAll (W := W) (d := d) hpos _ hbindings
    rw [← zip_shiftItems] at hdefine
    refine .bind hdefine fun i hi _ _ _ => parallel_counted ?_
    -- inside of the body there is room for one call less, which is what the induction is on
    exact parallel_body ⟨hsteps, ih⟩ hc.body hpos (Nat.lt_of_lt_of_le hframe hi)

theorem uniform_outermost {settings : Settings} (hsteps : settings.maxSteps = none)
    (patience : Nat) : (outermost settings patience : Context W).Uniform d :=
  ⟨hsteps, parallel_invoke hsteps patience settings.maxCallDepth⟩

end Run

end Syntax

end SimpleLang
