import SimpleLang.Proofs.Machine.Closures
import SimpleLang.Proofs.Machine.StepLimit

/-!
# Programs without loops

A program without a `while` statement always ends, even if nothing limits its steps. Only loops are
ever left unfinished, and a run meets none: whatever it executes is part of the program or of the
body of a function, and all functions of the run come from the program (`Run.keeps_program`).
Recursion remains. It is cut when too many calls are nested, and by nothing else.
-/

namespace SimpleLang

variable {W : Type}

/-! ## Syntax without loops -/

mutual
/-- No loop occurs in the expression. -/
def Expr.loopless : Expr → Bool
  | .int _ | .float _ | .string _ | .bool _ | .name _ => true
  | .binary _ l r => l.loopless && r.loopless
  | .unary _ e => e.loopless
  | .call f args => f.loopless && Expr.allLoopless args
  | .array elements => Expr.allLoopless elements
  | .lambda _ body => body.loopless
def Expr.allLoopless : List Expr → Bool
  | [] => true
  | e :: rest => e.loopless && Expr.allLoopless rest
def Body.loopless : Body → Bool
  | .block statements => Stmt.allLoopless statements
  | .value e => e.loopless
/-- No loop occurs in the statement, nor in the bodies of functions in it. -/
def Stmt.loopless : Stmt → Bool
  | .declare _ none | .ret none => true
  | .declare _ (some e) | .assign _ e | .expr e | .ret (some e) => e.loopless
  | .cond test yes none => test.loopless && yes.loopless
  | .cond test yes (some no) => test.loopless && yes.loopless && no.loopless
  | .loop _ _ => false
  | .block statements => Stmt.allLoopless statements
  | .function _ _ body => body.loopless
def Stmt.allLoopless : List Stmt → Bool
  | [] => true
  | s :: rest => s.loopless && Stmt.allLoopless rest
end

def Program.loopless (p : Program) : Bool := Stmt.allLoopless p.statements

/-- `Expr.allLoopless` is there because `Expr.loopless` recurses through lists. In proofs it is
`List.all`. -/
theorem Expr.allLoopless_eq (es : List Expr) : Expr.allLoopless es = es.all Expr.loopless := by
  induction es with
  | nil => rfl
  | cons e es ih => rw [Expr.allLoopless, ih, List.all_cons]

theorem Stmt.allLoopless_eq (ss : List Stmt) : Stmt.allLoopless ss = ss.all Stmt.loopless := by
  induction ss with
  | nil => rfl
  | cons s ss ih => rw [Stmt.allLoopless, ih, List.all_cons]

/-- Parts of syntax without loops have none either. -/
def Inherited.loopless : Inherited where
  expr e := e.loopless
  function _ body := body.loopless
  stmt s := s.loopless
  binary h := by simpa [Expr.loopless] using h
  unary h := h
  call h := by simpa [Expr.loopless, Expr.allLoopless_eq] using h
  array h := by simpa [Expr.loopless, Expr.allLoopless_eq] using h
  lambda h := h
  declare h := h
  assign h := h
  value h := h
  ret h := h
  cond {_ _ no} h := by
    cases no with
    | none => simpa [Stmt.loopless] using h
    | some no => simpa [Stmt.loopless, and_assoc] using h
  loop h := absurd h Bool.false_ne_true
  block h := by simpa [Stmt.loopless, Stmt.allLoopless_eq] using h
  definition h := h
  result h := h
  statements h := by simpa [Body.loopless, Stmt.allLoopless_eq] using h

/-! ## Termination -/

/-- The run stopped, but neither for want of rounds nor at a limit on its steps. -/
def Stop.Unlimited (depth : Nat) (e : Stop) : Prop :=
  ∃ f, e = .fault f ∧ (f.isLimit → ∃ callee, f = .callDepth depth callee)

/-- Without a limit on steps and without loops, only faults and the limit on calls are left of
`Inherited.Reasons`. -/
theorem reasons_loopless (settings : Settings) :
    Inherited.loopless.Reasons settings.unlimited (Stop.Unlimited settings.maxCallDepth) where
  faults f hf := ⟨f, rfl, fun h => absurd h (by simp [hf])⟩
  steps n h := by cases h
  depth callee := ⟨_, rfl, fun _ => ⟨callee, rfl⟩⟩
  loops _ _ h := absurd h Bool.false_ne_true

/-- However few rounds its loops are given, a program without any stops at faults only. -/
theorem unlimited_of_loopless {settings : Settings} {patience : Nat} {p : Program}
    (h : p.loopless) {sink : Sink W} {reason : Stop}
    (hfailure : (execute settings.unlimited patience p sink).failure = some (.stopped reason)) :
    reason.Unlimited settings.maxCallDepth := by
  have hstatements : ∀ s ∈ p.statements, s.loopless := by
    rw [Program.loopless, Stmt.allLoopless_eq] at h
    exact List.all_eq_true.mp h
  have hrun := Run.keeps_program (reasons_loopless settings) patience hstatements
    (.start sink) Store.all_empty
  unfold execute at hfailure
  -- a rejected program has not stopped, it was never run
  cases hcheck : p.check with
  | cons mistake mistakes =>
    rw [hcheck] at hfailure
    cases hfailure
  | nil =>
    rw [hcheck] at hfailure
    rcases hrun with ⟨_, m, hm, _⟩ | ⟨e, m, hm, _, he⟩
    · rw [hm] at hfailure
      cases hfailure
    · rw [hm] at hfailure
      cases hfailure
      exact he

/-- What the checks reject has mistakes. -/
theorem ne_nil_of_rejected {settings : Settings} {patience : Nat} {p : Program} {sink : Sink W}
    {mistakes : List CheckError}
    (h : (execute settings patience p sink).failure = some (.rejected mistakes)) :
    mistakes ≠ [] := by
  unfold execute at h
  cases hcheck : p.check with
  | cons mistake rest =>
    rw [hcheck] at h
    cases h
    exact List.cons_ne_nil _ _
  | nil =>
    rw [hcheck] at h
    cases hrun : Run.program settings patience p.statements (.start sink) with
    | ok _ m =>
      rw [hrun] at h
      cases h
    | error e m =>
      rw [hrun] at h
      cases h

/-- A program without loops always ends, without a limit on its steps and whatever the limit on
nested calls is: it succeeds, or it fails and says why. Rounds of loops are not asked for. The one
limit that can stop it is that on nested calls, and if it does not, then the program ends in the
same way under every larger one. -/
theorem loopless_terminates (settings : Settings) (p : Program) (h : p.loopless) (sink : Sink W) :
    ∃ e : Execution W, (∀ patience, execute settings.unlimited patience p sink = e) ∧
      (∀ failure, e.failure = some failure → failure.diagnostics ≠ []) ∧
      (∀ f, e.failure = some (.stopped (.fault f)) → f.isLimit →
        ∃ callee, f = .callDepth settings.maxCallDepth callee) ∧
      ((∃ callee, e.failure =
        some (.stopped (.fault (.callDepth settings.maxCallDepth callee)))) ∨
        ∀ depth patience, settings.maxCallDepth ≤ depth →
          execute (settings.nested depth).unlimited patience p sink = e) := by
  -- being unfinished is no fault
  have hended : (execute settings.unlimited 0 p sink).Ended := by
    intro hunfinished
    obtain ⟨f, hf, _⟩ := unlimited_of_loopless h hunfinished
    cases hf
  have hsame (patience : Nat) : execute settings.unlimited patience p sink
      = execute settings.unlimited 0 p sink := execute_of_le (Nat.zero_le patience) hended
  refine ⟨_, hsame, fun failure hfailure => ?_, fun f hfailure hlimit => ?_, ?_⟩
  · cases failure with
    | rejected mistakes =>
      have hmistakes := ne_nil_of_rejected hfailure
      exact fun hnil => hmistakes (List.map_eq_nil_iff.mp hnil)
    | stopped reason =>
      obtain ⟨f, rfl, _⟩ := unlimited_of_loopless h hfailure
      exact List.cons_ne_nil _ _
  · obtain ⟨f', hf', honly⟩ := unlimited_of_loopless h hfailure
    cases hf'
    exact honly hlimit
  · by_cases hcut : ∃ callee, (execute settings.unlimited 0 p sink).failure =
        some (.stopped (.fault (.callDepth settings.maxCallDepth callee)))
    · exact .inl hcut
    · refine .inr fun depth patience hle => ?_
      have hle : settings.unlimited.maxCallDepth ≤ depth := hle
      rcases execute_nested hle patience p sink with hcut' | heq
      · rw [hsame patience] at hcut'
        exact absurd hcut' hcut
      · exact heq.trans (hsame patience)

/-- A function is called with itself, and calls what it is given with itself. -/
def selfApplied : Program :=
  ⟨[.declare "w" (some (.lambda ["g"] (.value (.call (.name "g") [.name "g"])))),
    .expr (.call (.name "w") [.name "w"])]⟩

/-- The function that is passed on without end is stopped by the limit on nested calls. -/
theorem loopless_terminates_selfApplied :
    selfApplied.loopless ∧ ∃ e : Execution Nat,
      (∀ patience,
        execute (({} : Settings).nested 3).unlimited patience selfApplied (.new none false) = e) ∧
      e.failure.map Failure.diagnostics = some [(Fault.callDepth 3 "lambda").diagnostic] := by
  have hloopless : selfApplied.loopless := by decide
  obtain ⟨e, hsame, _⟩ := loopless_terminates (({} : Settings).nested 3) selfApplied hloopless
    (.new none false)
  refine ⟨hloopless, e, hsame, ?_⟩
  rw [← hsame 0]
  decide +kernel

end SimpleLang
