import SimpleLang.Proofs.Machine.Respects

/-!
# Where functions are defined

The functions of a sequence are bound before its first statement runs. Where a definition stands,
nothing is left to do but to count a step. So a sequence runs as the one that has its definitions
first and the other statements behind them.

* `Stmt.definitionsFirst`: the sequence with its definitions moved to the front.
* `Run.hoist_definitionsFirst`: it binds the same functions in the same order.
* `Run.Delays`: what a run does, it does also if more steps were taken before it.
  `Run.respects_delays`: this is so of every run without a limit on the steps.
* `Run.execAll_definitionsFirst`: so a definition may be passed at the beginning, or not at all.
-/

namespace SimpleLang

variable {W : Type}

/-! ## Moving definitions -/

namespace Stmt

def isFunction : Stmt → Bool
  | .function .. => true
  | _ => false

/-- The definitions in their order, and then the other statements in theirs. -/
def definitionsFirst (ss : List Stmt) : List Stmt :=
  ss.filter isFunction ++ ss.filter (!·.isFunction)

theorem exists_of_isFunction {s : Stmt} (h : s.isFunction) :
    ∃ f parameters body, s = .function f parameters body := by
  cases s with
  | function f parameters body => exact ⟨f, parameters, body, rfl⟩
  | _ => cases h

end Stmt

namespace Run

/-- `hoist` goes along the sequence, one definition after the other. -/
theorem hoist_append (scope : ScopeId) (ss ts : List Stmt) :
    hoist scope (ss ++ ts) = (do hoist scope ss; hoist scope ts : Run W _) := by
  induction ss with
  | nil => exact (pure_bind () fun _ => hoist scope ts).symm
  | cons s ss ih =>
    cases s with
    | function f parameters body => simp only [List.cons_append, hoist, ih, bind_assoc]
    | _ => exact ih

theorem hoist_cons_of_not_isFunction (scope : ScopeId) {s : Stmt} (h : s.isFunction = false)
    (ss : List Stmt) : (hoist scope (s :: ss) : Run W Unit) = hoist scope ss := by
  cases s with
  | function f parameters body => cases h
  | _ => rfl

/-- Only definitions matter to what is bound. -/
theorem hoist_filter_isFunction (scope : ScopeId) (ss : List Stmt) :
    (hoist scope (ss.filter Stmt.isFunction) : Run W Unit) = hoist scope ss := by
  induction ss with
  | nil => rfl
  | cons s ss ih =>
    cases hs : s.isFunction with
    | true =>
      obtain ⟨f, parameters, body, rfl⟩ := Stmt.exists_of_isFunction hs
      rw [List.filter_cons_of_pos hs, hoist, hoist, ih]
    | false =>
      rw [List.filter_cons_of_neg (by simp [hs]), hoist_cons_of_not_isFunction scope hs, ih]

/-- Without definitions there is nothing to bind. -/
theorem hoist_filter_not_isFunction (scope : ScopeId) (ss : List Stmt) :
    hoist scope (ss.filter (!·.isFunction)) = (pure () : Run W Unit) := by
  induction ss with
  | nil => rfl
  | cons s ss ih =>
    cases hs : s.isFunction with
    | true => rw [List.filter_cons_of_neg (by simp [hs]), ih]
    | false =>
      rw [List.filter_cons_of_pos (by simp [hs]), hoist_cons_of_not_isFunction scope hs, ih]

/-- The same functions are bound in the same order, so a name that is defined twice means the later
definition in both. -/
theorem hoist_definitionsFirst (scope : ScopeId) (ss : List Stmt) :
    (hoist scope (Stmt.definitionsFirst ss) : Run W Unit) = hoist scope ss := by
  rw [Stmt.definitionsFirst, hoist_append, hoist_filter_isFunction, hoist_filter_not_isFunction]
  exact bind_pure (hoist scope ss)

end Run

/-! ## Runs that start later -/

def Machine.later (m : Machine W) (k : Nat) : Machine W := { m with steps := m.steps + k }

theorem Machine.later_later (m : Machine W) (k j : Nat) :
    (m.later k).later j = m.later (k + j) := by
  simp only [Machine.later, Nat.add_assoc]

namespace Run

variable {α β : Type}

/-- The same end of a run, after so many steps more. -/
def delayed (k : Nat) : EStateM.Result Stop (Machine W) α → EStateM.Result Stop (Machine W) α
  | .ok a m => .ok a (m.later k)
  | .error e m => .error e (m.later k)

/-- As `Machine.later_later`, whether the run ends or stops. -/
theorem delayed_delayed (r : EStateM.Result Stop (Machine W) α) (k j : Nat) :
    delayed j (delayed k r) = delayed (k + j) r := by
  cases r with
  | ok a m => rw [delayed, delayed, delayed, Machine.later_later]
  | error e m => rw [delayed, delayed, delayed, Machine.later_later]

/-- Started some steps later, the second run ends as the first one does, as many steps later. -/
def Delays (α : Type) (r r' : Run W α) : Prop := ∀ k m, r' (m.later k) = delayed k (r m)

namespace Delays

/-- `OnStore` says that a run depends on the store and the number of functions alone, which
`Machine.later` leaves. -/
theorem onStore {r : Run W α} (h : OnStore r) : Delays α r r := by
  intro k m
  rcases h m.store m.functions with ⟨a, store, functions, hrun⟩ | ⟨f, store, functions, hrun⟩
  · rw [hrun m rfl rfl, hrun (m.later k) rfl rfl]
    rfl
  · rw [hrun m rfl rfl, hrun (m.later k) rfl rfl]
    rfl

/-- The second part is delayed by as much as the first. -/
theorem bind {r r' : Run W α} {f f' : α → Run W β} (h : Delays α r r')
    (hf : ∀ a, Delays β (f a) (f' a)) : Delays β (r >>= f) (r' >>= f') := by
  intro k m
  have hr := h k m
  cases hm : r m with
  | error e m₁ =>
    rw [hm] at hr
    rw [bind_of_error hm, bind_of_error hr]
    rfl
  | ok a m₁ =>
    rw [hm] at hr
    rw [bind_of_ok hm, bind_of_ok hr]
    exact hf a k m₁

/-- A limit would tell the two apart, so there must be none. -/
theorem tick {settings : Settings} (hsteps : settings.maxSteps = none) :
    Delays Unit (tick settings : Run W _) (tick settings) := by
  have htick : ∀ m : Machine W, Run.tick settings m = .ok () (m.later 1) := tick_of_none hsteps
  intro k m
  rw [htick, htick, delayed, Machine.later_later, Machine.later_later, Nat.add_comm]

/-- Only the sink is asked. -/
theorem ask (request : Sink W → Option String × Sink W) (fault : String → Fault) :
    Delays Unit (ask request fault) (ask request fault) := by
  intro k m
  rcases ask_cases request fault m.sink with hrun | ⟨reason, hrun⟩
  · rw [hrun m rfl, hrun (m.later k) rfl]
    rfl
  · rw [hrun m rfl, hrun (m.later k) rfl]
    rfl

/-- Counting a call and counting steps do not touch each other. -/
theorem counted {r r' : Run W α} (h : Delays α r r') : Delays α (counted r) (counted r') := by
  intro k m
  have hr := h k (entered m)
  cases hm : r (entered m) with
  | ok a m₁ =>
    rw [hm] at hr
    rw [counted_of_ok hm, counted_of_ok hr]
    rfl
  | error e m₁ =>
    rw [hm] at hr
    rw [counted_of_error hm, counted_of_error hr]
    rfl

end Delays

/-- Without a limit on the steps no run depends on how many were taken before it. -/
theorem respects_delays {settings : Settings} (hsteps : settings.maxSteps = none)
    (patience : Nat) : Respects (W := W) Delays settings settings patience patience where
  onStore h := .onStore h
  bind h hf := h.bind hf
  tick := .tick hsteps
  writeLine _ := .ask _ _
  flush := .ask _ _
  apply _ _ _ := .onStore (.ofExcept _)
  counted h := h.counted
  rounds hcondition hbody :=
    rounds_of_bind Delays (fun h hf => h.bind hf) (fun _ => .onStore (.pure _)) (fun _ _ => rfl)
      (.tick hsteps) hcondition hbody patience

/-! ## Sequences -/

section Sequence

variable {context : Context W} (hcontext : context.Respects Delays context)
  (hsteps : context.settings.maxSteps = none)

include hsteps in
/-- A definition only takes a step. -/
theorem execAll_cons_function (scope : ScopeId) {s : Stmt} (hs : s.isFunction) (ss : List Stmt)
    (m : Machine W) :
    Stmt.execAll context scope (s :: ss) m = Stmt.execAll context scope ss (m.later 1) := by
  obtain ⟨f, parameters, body, rfl⟩ := Stmt.exists_of_isFunction hs
  have htick : tick context.settings m = .ok () (m.later 1) := tick_of_none hsteps m
  have hexec : (Stmt.function f parameters body).exec context scope m = .ok .next (m.later 1) :=
    bind_of_ok htick
  exact bind_of_ok hexec

include hsteps in
/-- By induction on the definitions, each of which takes one step (`execAll_cons_function`). -/
theorem execAll_functions_append (scope : ScopeId) {fs : List Stmt}
    (hfs : ∀ s ∈ fs, s.isFunction) (ss : List Stmt) (m : Machine W) :
    Stmt.execAll context scope (fs ++ ss) m
      = Stmt.execAll context scope ss (m.later fs.length) := by
  induction fs generalizing m with
  | nil => rfl
  | cons s fs ih =>
    obtain ⟨hs, hfs⟩ := List.forall_mem_cons.mp hfs
    rw [List.cons_append, execAll_cons_function hsteps scope hs, ih hfs, Machine.later_later,
      List.length_cons, Nat.add_comm]

include hcontext hsteps in
/-- The definitions that a sequence does not come to, because it returns or stops before them, are
passed nevertheless if they stand first. -/
theorem execAll_definitionsFirst (scope : ScopeId) (ss : List Stmt) (m : Machine W) :
    ∃ k ≤ ss.countP Stmt.isFunction,
      Stmt.execAll context scope (Stmt.definitionsFirst ss) m
        = delayed k (Stmt.execAll context scope ss m) ∧
      ∀ m', Stmt.execAll context scope ss m = .ok .next m' → k = 0 := by
  -- with the definitions passed at once, only the other statements are compared
  have hfirst (ss : List Stmt) (m : Machine W) :
      Stmt.execAll context scope (Stmt.definitionsFirst ss) m
        = delayed (ss.countP Stmt.isFunction)
          (Stmt.execAll context scope (ss.filter (!·.isFunction)) m) := by
    rw [Stmt.definitionsFirst, execAll_functions_append hsteps scope
      fun s hs => (List.mem_filter.mp hs).2, ← List.countP_eq_length_filter]
    exact Stmt.respects_execAll hcontext scope _ _ m
  induction ss generalizing m with
  | nil => exact ⟨0, Nat.le_refl 0, rfl, fun _ _ => rfl⟩
  | cons s ss ih =>
    cases hs : s.isFunction with
    | true =>
      -- the step for this definition is taken now, or was taken at the beginning
      obtain ⟨k, hle, hrun, hnext⟩ := ih (m.later 1)
      have hcount : (s :: ss).countP Stmt.isFunction = ss.countP Stmt.isFunction + 1 :=
        List.countP_cons_of_pos hs
      refine ⟨k, by omega, ?_, ?_⟩
      · rw [execAll_cons_function hsteps scope hs, ← hrun, hfirst, hfirst, hcount,
          List.filter_cons_of_neg (by simp [hs]), Nat.add_comm, ← delayed_delayed]
        exact congrArg (delayed _) (Stmt.respects_execAll hcontext scope _ 1 m).symm
      · rw [execAll_cons_function hsteps scope hs]
        exact hnext
    | false =>
      have hcount : (s :: ss).countP Stmt.isFunction = ss.countP Stmt.isFunction :=
        List.countP_cons_of_neg (by simp [hs])
      rw [hfirst, hcount, List.filter_cons_of_pos (by simp [hs])]
      -- after a stop or a return the definitions that are left take no step, but at the front they
      -- have taken theirs
      cases hm : s.exec context scope m with
      | error e m₁ =>
        have hstop (ts : List Stmt) : Stmt.execAll context scope (s :: ts) m = .error e m₁ :=
          bind_of_error hm
        rw [hstop, hstop]
        exact ⟨_, Nat.le_refl _, rfl, fun m' h => by cases h⟩
      | ok flow m₁ =>
        cases flow with
        | returned v =>
          have hreturn (ts : List Stmt) :
              Stmt.execAll context scope (s :: ts) m = .ok (.returned v) m₁ := bind_of_ok hm
          rw [hreturn, hreturn]
          exact ⟨_, Nat.le_refl _, rfl, fun m' h => by cases h⟩
        | next =>
          have hgo (ts : List Stmt) : Stmt.execAll context scope (s :: ts) m
              = Stmt.execAll context scope ts m₁ := bind_of_ok hm
          rw [hgo, hgo, ← hfirst]
          exact ih m₁

end Sequence

end Run

open Run

/-- It does not matter where in a sequence its functions are defined. Without a limit on the steps,
in any scope and on any machine, a sequence and the same one with its definitions first end alike:
in the same flow or at the same fault, with the same scopes and the same output. Only some steps
may be added, for definitions that the sequence itself does not come to, so none if it is executed
to its end. -/
theorem definition_order_irrelevant (settings : Settings) (hsteps : settings.maxSteps = none)
    (patience room : Nat) (scope : ScopeId) (ss : List Stmt) (m : Machine W) :
    ∃ k ≤ ss.countP Stmt.isFunction,
      Run.sequence ⟨settings, patience, invoke settings patience room⟩ scope
          (Stmt.definitionsFirst ss) m
        = delayed k (Run.sequence ⟨settings, patience, invoke settings patience room⟩ scope ss m) ∧
      ∀ m', Run.sequence ⟨settings, patience, invoke settings patience room⟩ scope ss m
        = .ok .next m' → k = 0 := by
  have hrespects := respects_delays (W := W) hsteps patience
  have hcontext : Context.Respects Delays ⟨settings, patience, invoke settings patience room⟩
      ⟨settings, patience, invoke settings patience room⟩ :=
    hrespects.context fun c arguments => respects_invoke hrespects rfl room c arguments
  -- the definitions are the same for `hoist`, so the two differ in `Stmt.execAll` only
  unfold Run.sequence
  rw [hoist_definitionsFirst]
  cases hm : hoist scope ss m with
  | error e m₁ =>
    rw [bind_of_error hm, bind_of_error hm]
    exact ⟨0, Nat.zero_le _, rfl, fun m' h => by cases h⟩
  | ok _ m₁ =>
    rw [bind_of_ok hm, bind_of_ok hm]
    exact execAll_definitionsFirst hcontext hsteps scope ss m₁

/-- Displays what a function gives that is defined twice, rebinds its name and returns, before the
second definition. -/
def lateDefinitions : List Stmt :=
  [.expr (.call (.name "display") [.call (.name "f") []]),
    .function "f" [] (.value (.int 1)),
    .declare "f" (some (.int 5)),
    .ret (some (.name "f")),
    .function "f" [] (.value (.int 2))]

/-- The value that some statements return, in text. -/
def Run.returnedText? : EStateM.Result Stop (Machine W) Flow → Option String
  | .ok (.returned v) _ => some v.text
  | _ => none

/-- Both display 2, which the second definition gives, and return 5. With the definitions first the
second one is passed as well, which takes a step more. -/
theorem definition_order_irrelevant_late :
    ({} : Settings).maxSteps = none ∧ ∃ scope m,
      programScope (.start (.new none false)) = .ok scope m ∧
      returnedText? (Run.sequence (outermost {} 0) scope lateDefinitions m) = some "5" ∧
      (after (Run.sequence (outermost {} 0) scope lateDefinitions m)).sink.bytes
        = "2\n".toUTF8 ∧
      Run.sequence (outermost {} 0) scope (Stmt.definitionsFirst lateDefinitions) m
        = delayed 1 (Run.sequence (outermost {} 0) scope lateDefinitions m) := by
  have hscope : programScope (.start (.new none false))
      = .ok 1 (after (programScope (.start (.new none false)))) := rfl
  obtain ⟨k, _, hrun, _⟩ := definition_order_irrelevant {} rfl 0 256 1 lateDefinitions
    (after (programScope (.start (.new none false))))
  have hsteps : (after (Run.sequence (outermost {} 0) 1 (Stmt.definitionsFirst lateDefinitions)
      (after (programScope (.start (.new none false)))))).steps = 7 := by decide +kernel
  have hsteps' : (after (Run.sequence (outermost {} 0) 1 lateDefinitions
      (after (programScope (.start (.new none false)))))).steps = 6 := by decide +kernel
  -- one step more is taken, and so `k` is one
  obtain rfl : k = 1 := by
    have hdelayed (r : EStateM.Result Stop (Machine Nat) Flow) :
        (after (delayed k r)).steps = (after r).steps + k := by
      cases r <;> rfl
    have hsame := congrArg (fun r => (after r).steps) hrun
    have hmore := (hdelayed _).symm.trans (hsame.symm.trans hsteps)
    exact Nat.add_left_cancel (hmore.trans (congrArg (· + 1) hsteps'.symm))
  exact ⟨rfl, 1, _, hscope, by decide +kernel, by decide +kernel, hrun⟩

end SimpleLang
