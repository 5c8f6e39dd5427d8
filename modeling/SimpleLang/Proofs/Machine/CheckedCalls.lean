import SimpleLang.Proofs.Machine.Invariants
import SimpleLang.Proofs.Machine.ScopeNames

/-!
# Calls in checked programs

The checks go through all of a program, so no function of an accepted one has two parameters of one
name, wherever it stands. A run creates its functions from the program's syntax only. Hence every
call binds each parameter to its own argument, and nothing else, in a frame of its own.

* `Program.functions`: the parameters and the body of every function in a program, at every depth.
* `Inherited.checked`: syntax without mistakes whose functions are functions of the program.
* `Run.enterFrame_bindings`: the frame of a call to a function with distinct parameters.
-/

namespace SimpleLang

variable {W : Type}

open Run

/-! ## The functions of a program -/

mutual
/-- The functions in an expression, each with its parameters and its body. -/
def Expr.functions : Expr → List (List String × Body)
  | .int _ | .float _ | .string _ | .bool _ | .name _ => []
  | .binary _ l r => l.functions ++ r.functions
  | .unary _ e => e.functions
  | .call f args => f.functions ++ Expr.allFunctions args
  | .array elements => Expr.allFunctions elements
  | .lambda parameters body => (parameters, body) :: body.functions
def Expr.allFunctions : List Expr → List (List String × Body)
  | [] => []
  | e :: rest => e.functions ++ Expr.allFunctions rest
def Body.functions : Body → List (List String × Body)
  | .block statements => Stmt.allFunctions statements
  | .value e => e.functions
def Stmt.functions : Stmt → List (List String × Body)
  | .declare _ none | .ret none => []
  | .declare _ (some e) | .assign _ e | .expr e | .ret (some e) => e.functions
  | .cond test yes none => test.functions ++ yes.functions
  | .cond test yes (some no) => test.functions ++ yes.functions ++ no.functions
  | .loop test body => test.functions ++ body.functions
  | .block statements => Stmt.allFunctions statements
  | .function _ parameters body => (parameters, body) :: body.functions
def Stmt.allFunctions : List Stmt → List (List String × Body)
  | [] => []
  | s :: rest => s.functions ++ Stmt.allFunctions rest
end

/-- The functions in a program, at every depth. -/
def Program.functions (p : Program) : List (List String × Body) := Stmt.allFunctions p.statements

/-- `Expr.allFunctions` is there because `Expr.functions` recurses through lists. In proofs it is a
`List.flatMap`. -/
theorem Expr.allFunctions_eq (es : List Expr) :
    Expr.allFunctions es = es.flatMap Expr.functions := by
  induction es with
  | nil => rfl
  | cons e es ih => rw [Expr.allFunctions, ih, List.flatMap_cons]

theorem Stmt.allFunctions_eq (ss : List Stmt) :
    Stmt.allFunctions ss = ss.flatMap Stmt.functions := by
  induction ss with
  | nil => rfl
  | cons s ss ih => rw [Stmt.allFunctions, ih, List.flatMap_cons]

theorem Expr.checkAll_eq (es : List Expr) : Expr.checkAll es = es.flatMap Expr.check := by
  induction es with
  | nil => rfl
  | cons e es ih => rw [Expr.checkAll, ih, List.flatMap_cons]

theorem Stmt.checkAll_eq (ss : List Stmt) : Stmt.checkAll ss = ss.flatMap Stmt.check := by
  induction ss with
  | nil => rfl
  | cons s ss ih => rw [Stmt.checkAll, ih, List.flatMap_cons]

/-! ## What the checks establish -/

/-- No name is repeated just if the names are distinct and none was seen before. -/
theorem repeated_eq_nil_iff (seen xs : List String) :
    repeated seen xs = [] ↔ xs.Nodup ∧ ∀ x ∈ xs, x ∉ seen := by
  induction xs generalizing seen with
  | nil => simp [repeated]
  | cons x xs ih =>
    rw [repeated]
    by_cases hx : x ∈ seen
    · simp [hx]
    · rw [if_neg hx, ih, List.nodup_cons]
      constructor
      · rintro ⟨hnodup, hseen⟩
        refine ⟨⟨fun hmem => hseen x hmem List.mem_cons_self, hnodup⟩, ?_⟩
        refine List.forall_mem_cons.mpr ⟨hx, fun y hy hmem => ?_⟩
        exact hseen y hy (List.mem_cons_of_mem x hmem)
      · rintro ⟨⟨hnot, hnodup⟩, hall⟩
        refine ⟨hnodup, fun y hy hmem => ?_⟩
        rcases List.mem_cons.mp hmem with rfl | hmem
        · exact hnot hy
        · exact hall y (List.mem_cons_of_mem x hy) hmem

/-- `checkParameters` reports the names that are `repeated`, with none seen before. -/
theorem checkParameters_eq_nil_iff (owner : Option String) (parameters : List String) :
    checkParameters owner parameters = [] ↔ parameters.Nodup := by
  rw [checkParameters, List.map_eq_nil_iff, repeated_eq_nil_iff]
  exact ⟨And.left, fun h => ⟨h, fun _ _ => List.not_mem_nil⟩⟩

/-- The expression has no mistakes, and its functions are functions of the program. -/
def Expr.CheckedIn (p : Program) (e : Expr) : Prop := e.check = [] ∧ e.functions ⊆ p.functions

def Stmt.CheckedIn (p : Program) (s : Stmt) : Prop := s.check = [] ∧ s.functions ⊆ p.functions

/-- The function has distinct parameters, it is one of the program's with this body, and the body
has no mistakes. -/
def Program.Owns (p : Program) (c : Closure) : Prop :=
  (c.parameters.Nodup ∧ (c.parameters, c.body) ∈ p.functions) ∧
    c.body.check = [] ∧ c.body.functions ⊆ p.functions

/-- What the checks establish is inherited by the parts of a program. -/
def Inherited.checked (p : Program) : Inherited where
  expr := Expr.CheckedIn p
  function parameters body := (parameters.Nodup ∧ (parameters, body) ∈ p.functions) ∧
    body.check = [] ∧ body.functions ⊆ p.functions
  stmt := Stmt.CheckedIn p
  binary h := by
    simp only [Expr.CheckedIn, Expr.check, Expr.functions, List.append_eq_nil_iff,
      List.append_subset] at h
    exact ⟨⟨h.1.1, h.2.1⟩, h.1.2, h.2.2⟩
  unary h := h
  call {f args} h := by
    simp only [Expr.CheckedIn, Expr.check, Expr.functions, List.append_eq_nil_iff,
      List.append_subset, Expr.checkAll_eq, Expr.allFunctions_eq, List.flatMap_eq_nil_iff] at h
    obtain ⟨⟨⟨_, hf⟩, hargs⟩, hfunctions, hall⟩ := h
    exact ⟨⟨hf, hfunctions⟩, fun e he => ⟨hargs e he, fun g hg =>
      hall (List.mem_flatMap.mpr ⟨e, he, hg⟩)⟩⟩
  array {elements} h := by
    simp only [Expr.CheckedIn, Expr.check, Expr.functions, Expr.checkAll_eq, Expr.allFunctions_eq,
      List.flatMap_eq_nil_iff] at h
    exact fun e he => ⟨h.1 e he, fun g hg => h.2 (List.mem_flatMap.mpr ⟨e, he, hg⟩)⟩
  lambda h := by
    simp only [Expr.CheckedIn, Expr.check, Expr.functions, List.append_eq_nil_iff, List.cons_subset,
      checkParameters_eq_nil_iff] at h
    exact ⟨⟨h.1.1, h.2.1⟩, h.1.2, h.2.2⟩
  declare h := h
  assign h := h
  value h := h
  ret h := h
  cond {test yes no} h := by
    cases no with
    | none =>
      simp only [Stmt.CheckedIn, Stmt.check, Stmt.functions, List.append_eq_nil_iff,
        List.append_subset] at h
      exact ⟨⟨h.1.1, h.2.1⟩, ⟨h.1.2, h.2.2⟩, fun s hs => by cases hs⟩
    | some no =>
      simp only [Stmt.CheckedIn, Stmt.check, Stmt.functions, List.append_eq_nil_iff,
        List.append_subset] at h
      refine ⟨⟨h.1.1.1, h.2.1.1⟩, ⟨h.1.1.2, h.2.1.2⟩, fun s hs => ?_⟩
      cases hs
      exact ⟨h.1.2, h.2.2⟩
  loop h := by
    simp only [Stmt.CheckedIn, Stmt.check, Stmt.functions, List.append_eq_nil_iff,
      List.append_subset] at h
    exact ⟨⟨h.1.1, h.2.1⟩, h.1.2, h.2.2⟩
  block {statements} h := by
    simp only [Stmt.CheckedIn, Stmt.check, Stmt.functions, Stmt.checkAll_eq, Stmt.allFunctions_eq,
      List.flatMap_eq_nil_iff] at h
    exact fun s hs => ⟨h.1 s hs, fun g hg => h.2 (List.mem_flatMap.mpr ⟨s, hs, hg⟩)⟩
  definition h := by
    simp only [Stmt.CheckedIn, Stmt.check, Stmt.functions, List.append_eq_nil_iff, List.cons_subset,
      checkParameters_eq_nil_iff] at h
    exact ⟨⟨h.1.1, h.2.1⟩, h.1.2, h.2.2⟩
  result h := h.2
  statements {parameters ss} h := by
    have h := h.2
    simp only [Body.check, Body.functions, Stmt.checkAll_eq, Stmt.allFunctions_eq,
      List.flatMap_eq_nil_iff] at h
    exact fun s hs => ⟨h.1 s hs, fun g hg => h.2 (List.mem_flatMap.mpr ⟨s, hs, hg⟩)⟩

/-- The checks go through all statements of a program, and its functions are those of its
statements. -/
theorem checked_statements {p : Program} (h : p.check = []) :
    ∀ s ∈ p.statements, (Inherited.checked p).stmt s := by
  rw [Program.check, Stmt.checkAll_eq, List.flatMap_eq_nil_iff] at h
  intro s hs
  refine ⟨h s hs, fun g hg => ?_⟩
  rw [Program.functions, Stmt.allFunctions_eq]
  exact List.mem_flatMap.mpr ⟨s, hs, hg⟩

/-- The functions in all values of a run keep what the checks establish. -/
theorem lasting_checked (p : Program) (range : Integers) :
    Lasting (Inherited.checked p) range (Value.All p.Owns) fun _ => True where
  unit := trivial
  int _ := trivial
  float _ := trivial
  string _ := trivial
  bool _ := trivial
  builtin _ := trivial
  array h := Value.allItems_iff.mpr h
  closure := Iff.rfl
  apply _ _ hv := Value.all_of_isPlain (Operation.isPlain_of_apply _ _ hv)
  faults _ := trivial
  overflow _ _ _ := trivial

/-! ## The frame of a call -/

/-- A name that is not bound yet comes last. -/
theorem Bindings.insert_of_notMem {x : String} (v : Value) {b : Bindings}
    (h : x ∉ b.map Prod.fst) : b.insert x v = b ++ [(x, v)] := by
  induction b with
  | nil => rfl
  | cons p b ih =>
    obtain ⟨y, w⟩ := p
    rw [List.map_cons, List.mem_cons, not_or] at h
    rw [insert, if_neg (Ne.symm h.1), ih h.2, List.cons_append]

/-- A binding among distinct names is the one that is found. -/
theorem Bindings.get?_of_mem {x : String} {v : Value} {b : Bindings} (h : (x, v) ∈ b)
    (hnodup : (b.map Prod.fst).Nodup) : b.get? x = some v := by
  induction b with
  | nil => cases h
  | cons p b ih =>
    obtain ⟨y, w⟩ := p
    rw [List.map_cons, List.nodup_cons] at hnodup
    rcases List.mem_cons.mp h with heq | hmem
    · cases heq
      simp [get?, List.lookup]
    -- the first name is not `x`, as names are distinct
    · have hne : x ≠ y := by
        rintro rfl
        exact hnodup.1 (List.mem_map.mpr ⟨(x, v), hmem, rfl⟩)
      have hskip : get? x ((y, w) :: b) = get? x b := by
        simp [get?, List.lookup, beq_false_of_ne hne]
      rw [hskip]
      exact ih hmem hnodup.2

/-- Binding distinct new names puts them behind those of the scope. -/
theorem Run.defineAll_apply {scope : ScopeId} {bs : Bindings} {m : Machine W} {here : Scope}
    (hhere : m.store.scopes[scope]? = some here)
    (hnodup : ((here.bindings ++ bs).map Prod.fst).Nodup) :
    ∃ store, defineAll scope bs m = .ok () { m with store } ∧
      store.scopes[scope]? = some { here with bindings := here.bindings ++ bs } := by
  induction bs generalizing m here with
  | nil =>
    refine ⟨m.store, rfl, ?_⟩
    rw [List.append_nil]
    exact hhere
  | cons b bs ih =>
    obtain ⟨x, v⟩ := b
    have hnew : x ∉ here.bindings.map Prod.fst := by
      intro hmem
      rw [List.map_append, List.nodup_append] at hnodup
      exact hnodup.2.2 x hmem x List.mem_cons_self rfl
    -- a name that is not bound yet is put behind the others
    have hdefined : (m.store.define scope x v).scopes[scope]?
        = some { here with bindings := here.bindings ++ [(x, v)] } := by
      show (m.store.scopes.modify scope _)[scope]? = _
      rw [Array.getElem?_modify, if_pos rfl, hhere, Option.map_some,
        Bindings.insert_of_notMem v hnew]
    have hnodup' : (((here.bindings ++ [(x, v)]) ++ bs).map Prod.fst).Nodup := by
      rw [List.append_assoc, List.singleton_append]
      exact hnodup
    obtain ⟨store, hrun, hstore⟩ :=
      @ih { m with store := m.store.define scope x v } _ hdefined hnodup'
    refine ⟨store, hrun, ?_⟩
    rw [hstore, List.append_assoc, List.singleton_append]

/-- The frame of a call to a function with distinct parameters is new, it lies in the scope that the
function was created in, and it binds the parameters to the arguments. -/
theorem Run.enterFrame_bindings {settings : Settings} {c : Closure} {arguments : List Value}
    {m m' : Machine W} {frame : ScopeId} (hnodup : c.parameters.Nodup)
    (h : enterFrame settings c arguments m = .ok frame m') :
    arguments.length = c.parameters.length ∧ frame = m.store.scopes.size ∧
      m'.store.scopes[frame]? = some ⟨c.parameters.zip arguments, some c.scope⟩ := by
  -- the frame is entered only behind both checks
  by_cases harity : arguments.length = c.parameters.length
  · have hcheck : checkArity c arguments m = .ok () m := by
      rw [checkArity_apply, if_pos harity]
    by_cases hdepth : settings.maxCallDepth ≤ m.active
    · have hfail : checkDepth settings c m
          = .error (.fault (.callDepth settings.maxCallDepth c.label)) m := by
        rw [checkDepth_apply, if_pos hdepth]
      rw [enterFrame, bind_of_ok hcheck, bind_of_error hfail] at h
      cases h
    · have hpass : checkDepth settings c m = .ok () m := by
        rw [checkDepth_apply, if_neg hdepth]
      have hscope : newScope (some c.scope) m = .ok m.store.scopes.size
          { m with store := (m.store.newScope (some c.scope)).2 } := rfl
      have hempty : (m.store.newScope (some c.scope)).2.scopes[m.store.scopes.size]?
          = some ⟨[], some c.scope⟩ := Array.getElem?_push_size
      have hnames : (([] ++ c.parameters.zip arguments).map Prod.fst).Nodup := by
        rw [List.nil_append, List.map_fst_zip (Nat.le_of_eq harity.symm)]
        exact hnodup
      obtain ⟨store, hdefine, hframe⟩ :=
        @defineAll_apply W _ _ { m with store := (m.store.newScope (some c.scope)).2 } _ hempty
          hnames
      rw [enterFrame, bind_of_ok hcheck, bind_of_ok hpass, bind_of_ok hscope,
        bind_of_ok hdefine] at h
      cases h
      exact ⟨harity, rfl, hframe⟩
  · have hfail : checkArity c arguments m = .error (.fault
        (.arity c.label c.parameters.length arguments.length)) m := by
      rw [checkArity_apply, if_neg harity]
    rw [enterFrame, bind_of_error hfail] at h
    cases h

/-- A step that calls a function has entered its frame. -/
theorem Moment.step_call {settings : Settings} {f : Closure} {arguments : List Value}
    {k : AfterValue} {c' : Moment} {m m' : Machine W}
    (h : (Moment.call (.closure f) arguments k).step settings m = .ok (some c') m') :
    ∃ m₁ frame, m₁.store = m.store ∧ enterFrame settings f arguments m₁ = .ok frame m' ∧
      c' = f.body.start frame k := by
  have hstep : (Moment.call (.closure f) arguments k).step settings = (do
      tick settings
      let frame ← enterFrame settings f arguments
      return some (f.body.start frame k) : Run W _) := rfl
  rw [hstep] at h
  -- counting the step leaves the store as it is
  have hstore := after_tick settings m
  cases htick : tick settings m with
  | error e m₁ =>
    rw [bind_of_error htick] at h
    cases h
  | ok _ m₁ =>
    rw [htick, after_ok] at hstore
    rw [bind_of_ok htick] at h
    cases henter : enterFrame settings f arguments m₁ with
    | error e m₂ =>
      rw [bind_of_error henter] at h
      cases h
    | ok frame m₂ =>
      rw [bind_of_ok henter] at h
      cases h
      exact ⟨m₁, frame, by rw [hstore], henter, rfl⟩

/-! ## Reachable states -/

/-- What the checks before a run establish holds throughout the run. In all that an accepted program
reaches, each function has distinct parameters and comes from the program, in the values that wait
and in the scopes. So the frame of every call, as it is when the body is about to run, is a new
scope inside the function's own, its names are the parameters, and each is bound to its argument.
What is reached is what the execution goes through: it ends just as the transitions do. -/
theorem checked_calls_bind_parameters (settings : Settings) (p : Program) (hcheck : p.check = [])
    (sink : Sink W) :
    (∀ e, Executes settings p sink e ↔ ∃ c m r, Reachable settings p sink c m ∧
      Halts settings c m r ∧ Execution.ofResult r = e) ∧
    ∀ c m, Reachable settings p sink c m →
      c.Each (Expr.CheckedIn p) (Stmt.CheckedIn p) (Value.All p.Owns) ∧
      m.store.Each (Value.All p.Owns) ∧
      ∀ f arguments k c' m', c = .call (.closure f) arguments k →
        c.step settings m = .ok (some c') m' →
        arguments.length = f.parameters.length ∧ ∃ frame here,
          c' = f.body.start frame k ∧ frame = m.store.scopes.size ∧
          m'.store.scopes[frame]? = some here ∧ here.parent = some f.scope ∧
          here.names = f.parameters ∧
          ∀ x v, (x, v) ∈ f.parameters.zip arguments → here.bindings.get? x = some v := by
  refine ⟨executes_iff_halts hcheck sink, fun c m hreach => ?_⟩
  obtain ⟨hc, hm⟩ :=
    (lasting_checked p settings.integers).of_reachable (checked_statements hcheck) hreach
  refine ⟨hc, hm, fun f arguments k c' m' hcall hstep => ?_⟩
  subst hcall
  -- the function is one of the checked program, so its parameters are distinct
  have hnodup : f.parameters.Nodup := hc.1.1.1
  obtain ⟨m₁, frame, hstore, henter, rfl⟩ := Moment.step_call hstep
  obtain ⟨harity, hframe, hhere⟩ := enterFrame_bindings hnodup henter
  have hnames : (f.parameters.zip arguments).map Prod.fst = f.parameters :=
    List.map_fst_zip (Nat.le_of_eq harity.symm)
  rw [hstore] at hframe
  refine ⟨harity, frame, _, rfl, hframe, hhere, rfl, hnames, fun x v hmem => ?_⟩
  exact Bindings.get?_of_mem hmem (by rw [hnames]; exact hnodup)

/-- The function that the moment calls, and its arguments. -/
def Moment.calls? : Moment → Option (Closure × List Value)
  | .call (.closure f) arguments _ => some (f, arguments)
  | _ => none

/-- `Moment.calls?` is for evaluating runs. This is what it says. -/
theorem Moment.eq_of_calls? {c : Moment} {f : Closure} {arguments : List Value}
    (h : c.calls? = some (f, arguments)) : ∃ k, c = .call (.closure f) arguments k := by
  unfold calls? at h
  split at h
  · next f' arguments' k =>
    cases h
    exact ⟨k, rfl⟩
  · cases h

/-- Calls a function with a function and an integer, and that function with the integer twice. -/
def lambdaAsArgument : Program :=
  ⟨[.function "twice" ["g", "x"]
      (.value (.call (.name "g") [.call (.name "g") [.name "x"]])),
    .expr (.call (.name "twice")
      [.lambda ["n"] (.value (.binary .mul (.name "n") (.int 2))), .int 5])]⟩

/-- After eighteen steps the outer function is called, and its frame binds both parameters. -/
theorem checked_calls_bind_parameters_lambdaAsArgument :
    lambdaAsArgument.check = [] ∧ ∃ c m f arguments k c' m' frame here,
      Reachable {} lambdaAsArgument (.new none false) c m ∧ c = .call (.closure f) arguments k ∧
      c.step {} m = .ok (some c') m' ∧ f.parameters = ["g", "x"] ∧
      arguments.map Value.text = ["<lambda>", "5"] ∧
      c' = f.body.start frame k ∧ m'.store.scopes[frame]? = some here ∧
      here.names = ["g", "x"] ∧
      ∀ x v, (x, v) ∈ f.parameters.zip arguments → here.bindings.get? x = some v := by
  have hcheck : lambdaAsArgument.check = [] := rfl
  -- after 18 steps the function is about to be called, and the call does not fail
  have hrun : ((Moment.hoist 1 lambdaAsArgument.statements lambdaAsArgument.statements
      .done).after {} 18
      (after (programScope (.start (.new none false))))).bind (fun x =>
        (x.1.after {} 1 x.2).bind fun _ =>
          x.1.calls?.map fun y => (y.1.parameters, y.2.map Value.text))
      = some (["g", "x"], ["<lambda>", "5"]) := by decide +kernel
  obtain ⟨⟨c, m⟩, hafter, hrest⟩ := Option.bind_eq_some_iff.mp hrun
  obtain ⟨⟨c', m'⟩, hone, hcalls⟩ := Option.bind_eq_some_iff.mp hrest
  obtain ⟨⟨f, arguments⟩, hcall, heq⟩ := Option.map_eq_some_iff.mp hcalls
  obtain ⟨hparameters, htexts⟩ := Prod.mk.inj heq
  obtain ⟨k, hk⟩ := Moment.eq_of_calls? hcall
  have hreach : Reachable {} lambdaAsArgument (.new none false) c m :=
    ⟨1, _, 18, rfl, Steps.of_after hafter⟩
  have hstep : c.step {} m = .ok (some c') m' := by
    cases Steps.of_after hone with
    | step hstep hlast =>
      cases hlast
      exact hstep
  obtain ⟨_, hreached⟩ := checked_calls_bind_parameters {} lambdaAsArgument hcheck (.new none false)
  obtain ⟨_, _, hframes⟩ := hreached c m hreach
  obtain ⟨_, frame, here, hbody, _, hhere, _, hnames, hbound⟩ :=
    hframes f arguments k c' m' hk hstep
  exact ⟨hcheck, c, m, f, arguments, k, c', m', frame, here, hreach, hk, hstep, hparameters,
    htexts, hbody, hhere, hnames.trans hparameters, hbound⟩

end SimpleLang
