import SimpleLang.Machine.Execute
import SimpleLang.Proofs.Machine.Respects

/-!
# How a program ends

A loop that is not over after the rounds it was given leaves a run unfinished. With more rounds such
a run may come to an end, but a run that has come to an end stays as it is (`Run.respects_agrees`).
So whether a program ends, and how, does not depend on the number of rounds, as long as it is large
enough: `Executes` relates a program to the execution that it has, and there is at most one
(`Executes.unique`). With room for more nested calls a run that their limit did not stop stays as it
is as well (`Run.agrees_invoke`).
-/

namespace SimpleLang

variable {W : Type}

namespace Run

variable {α β : Type}

/-- The second run ends as the first one does, unless that stops for one of the reasons in `Gap`. -/
def Agrees (Gap : Stop → Prop) (α : Type) (r r' : Run W α) : Prop :=
  ∀ m, (∃ e m', r m = .error e m' ∧ Gap e) ∨ r' m = r m

namespace Agrees

variable {Gap : Stop → Prop}

theorem refl (r : Run W α) : Agrees Gap α r r := fun _ => .inr rfl

/-- Behind a first part that is the same, the second parts are compared on the same machine. -/
theorem bind {r r' : Run W α} {f f' : α → Run W β} (h : Agrees Gap α r r')
    (hf : ∀ a, Agrees Gap β (f a) (f' a)) : Agrees Gap β (r >>= f) (r' >>= f') := by
  intro m
  rcases h m with ⟨e, m₁, hm, hgap⟩ | heq
  · exact .inl ⟨e, m₁, bind_of_error hm, hgap⟩
  · cases hm : r m with
    | error e m₁ =>
      rw [hm] at heq
      exact .inr (by rw [bind_of_error hm, bind_of_error heq])
    | ok a m₁ =>
      rw [hm] at heq
      rw [bind_of_ok hm, bind_of_ok heq]
      exact hf a m₁

/-- A call is counted alike in both. -/
theorem counted {r r' : Run W α} (h : Agrees Gap α r r') :
    Agrees Gap α (counted r) (counted r') := by
  intro m
  rcases h (entered m) with ⟨e, m₁, hm, hgap⟩ | heq
  · exact .inl ⟨e, _, counted_of_error hm, hgap⟩
  · cases hm : r (entered m) with
    | ok a m₁ => exact .inr (by rw [counted_of_ok hm, counted_of_ok (heq.trans hm)])
    | error e m₁ => exact .inr (by rw [counted_of_error hm, counted_of_error (heq.trans hm)])

/-- The rounds of a loop agree if each one does. Rounds that a loop is given on top are not made if
it was over without them. -/
theorem rounds {settings settings' : Settings}
    (htick : (tick settings' : Run W Unit) = tick settings)
    {condition condition' : Run W Bool} {body body' : Run W Flow}
    (hcondition : Agrees Gap Bool condition condition') (hbody : Agrees Gap Flow body body')
    {count count' : Nat} (hle : count ≤ count') (hgap : count < count' → Gap .unfinished) :
    Agrees Gap Flow (rounds settings condition body count)
      (rounds settings' condition' body' count') := by
  induction count generalizing count' with
  | zero =>
    rcases Nat.eq_zero_or_pos count' with rfl | hpos
    · exact fun m => .inr rfl
    · exact fun m => .inl ⟨.unfinished, m, rfl, hgap hpos⟩
  | succ count ih =>
    obtain ⟨count', rfl⟩ : ∃ k, count' = k + 1 := ⟨count' - 1, by omega⟩
    refine hcondition.bind fun b => ?_
    cases b with
    | false => exact .refl _
    | true =>
      refine hbody.bind fun flow => ?_
      cases flow with
      | returned v => exact .refl _
      | next =>
        -- the steps are counted alike, and one round less is left to both
        refine Agrees.bind (htick ▸ .refl _) fun _ => ih (by omega) fun hlt => hgap (by omega)

end Agrees

/-- Runs under two settings agree if the settings count steps alike and operations agree. -/
theorem respects_agrees_of_apply {Gap : Stop → Prop} {settings settings' : Settings}
    {patience patience' : Nat} (hsteps : settings'.maxSteps = settings.maxSteps)
    (happly : ∀ (op : Operation) (a b : Value), Agrees Gap Value
      (ofExcept (op.apply settings.integers a b) : Run W _)
      (ofExcept (op.apply settings'.integers a b)))
    (hle : patience ≤ patience') (hgap : patience < patience' → Gap .unfinished) :
    Respects (W := W) (Agrees Gap) settings settings' patience patience' := by
  have htick : (tick settings' : Run W Unit) = tick settings := by
    unfold tick
    rw [hsteps]
  exact {
    onStore := fun _ => .refl _
    bind := fun h hf => h.bind hf
    tick := htick ▸ .refl _
    writeLine := fun _ => .refl _
    flush := .refl _
    apply := happly
    counted := fun h => h.counted
    rounds := fun hcondition hbody => .rounds htick hcondition hbody hle hgap }

/-- Operations agree where the range of integers is the same. -/
theorem respects_agrees {Gap : Stop → Prop} {settings settings' : Settings}
    {patience patience' : Nat} (hsteps : settings'.maxSteps = settings.maxSteps)
    (hintegers : settings'.integers = settings.integers) (hle : patience ≤ patience')
    (hgap : patience < patience' → Gap .unfinished) :
    Respects (W := W) (Agrees Gap) settings settings' patience patience' :=
  respects_agrees_of_apply hsteps (fun _ _ _ => hintegers ▸ .refl _) hle hgap

end Run

/-! ## More room for calls -/

def Settings.nested (settings : Settings) (depth : Nat) : Settings :=
  { settings with maxCallDepth := depth }

/-- The run was stopped because too many calls were nested. -/
def Stop.IsCallDepth (limit : Nat) (e : Stop) : Prop :=
  ∃ callee, e = .fault (.callDepth limit callee)

namespace Run

variable {settings : Settings} {depth : Nat}

/-- The limit on nested calls is not looked at by steps, operations and loops. What it does to calls
is `agrees_invoke`. -/
theorem respects_nested (patience : Nat) :
    Respects (W := W) (Agrees (Stop.IsCallDepth settings.maxCallDepth)) settings
      (settings.nested depth) patience patience :=
  respects_agrees rfl rfl (Nat.le_refl patience) fun hlt => absurd hlt (Nat.lt_irrefl patience)

/-- With room for more calls a call ends in the same way, unless the limit stopped it. -/
theorem agrees_invoke (patience : Nat) {room room' : Nat} (hle : room ≤ room') (c : Closure)
    (arguments : List Value) :
    Agrees (Stop.IsCallDepth settings.maxCallDepth) Value
      (invoke settings patience room c arguments : Run W _)
      (invoke (settings.nested depth) patience room' c arguments) := by
  have h : Respects (W := W) (Agrees (Stop.IsCallDepth settings.maxCallDepth)) settings
      (settings.nested depth) patience patience := respects_nested patience
  induction room generalizing room' c arguments with
  | zero =>
    -- no room is left, so the first run stops at the limit or at what comes before it
    cases room' <;> exact (Agrees.refl _).bind fun _ m => .inl ⟨_, m, rfl, c.label, rfl⟩
  | succ room ih =>
    obtain ⟨room', rfl⟩ : ∃ k, room' = k + 1 := ⟨room' - 1, by omega⟩
    refine (Agrees.refl _).bind fun _ => (Agrees.refl _).bind fun frame => ?_
    refine (Agrees.refl _).bind fun _ => Agrees.counted (respects_body ?_ frame c.body)
    exact h.context fun c arguments => ih (Nat.le_of_succ_le_succ hle) c arguments

end Run

/-! ## Executions -/

/-- The execution has come to an end, be it at a fault. -/
def Execution.Ended (e : Execution W) : Prop := e.failure ≠ some (.stopped .unfinished)

/-- Only a run that stops unfinished has not ended. -/
theorem Execution.ended_ofResult {r : EStateM.Result Stop (Machine W) Unit}
    (h : ∀ m, r ≠ .error .unfinished m) : (Execution.ofResult r).Ended := by
  intro hfailure
  cases r with
  | ok _ m => cases hfailure
  | error e m =>
    cases hfailure
    exact h m rfl

/-- More patience does not change an execution that has ended. -/
theorem execute_of_le {settings : Settings} {patience patience' : Nat} {p : Program} {sink : Sink W}
    (hle : patience ≤ patience') (hended : (execute settings patience p sink).Ended) :
    execute settings patience' p sink = execute settings patience p sink := by
  have hrespects :
      Run.Respects (W := W) (Run.Agrees (· = .unfinished)) settings settings patience patience' :=
    Run.respects_agrees rfl rfl hle fun _ => rfl
  have hagrees := Run.respects_program hrespects rfl p.statements (.start sink)
  unfold execute at hended ⊢
  cases hcheck : p.check with
  | cons mistake mistakes => rfl
  | nil =>
    rw [hcheck] at hended
    -- the run with less patience was left unfinished, or both are the same
    rcases hagrees with ⟨e, m, hm, rfl⟩ | heq
    · rw [hm] at hended
      exact absurd rfl hended
    · rw [heq]

/-- More room for calls does not change an execution that the limit did not stop. -/
theorem execute_nested {settings : Settings} {depth : Nat} (hle : settings.maxCallDepth ≤ depth)
    (patience : Nat) (p : Program) (sink : Sink W) :
    (∃ callee, (execute settings patience p sink).failure =
      some (.stopped (.fault (.callDepth settings.maxCallDepth callee)))) ∨
    execute (settings.nested depth) patience p sink = execute settings patience p sink := by
  have hcontext : (Run.outermost settings patience).Respects
      (Run.Agrees (W := W) (Stop.IsCallDepth settings.maxCallDepth))
      (Run.outermost (settings.nested depth) patience) :=
    (Run.respects_nested patience).context fun c arguments =>
      Run.agrees_invoke patience hle c arguments
  unfold execute
  cases p.check with
  | cons mistake mistakes => exact .inr rfl
  | nil =>
    -- the smaller limit stopped the run, or both are the same
    rcases Run.respects_outermost hcontext p.statements (.start sink) with
      ⟨e, m, hm, callee, rfl⟩ | heq
    · rw [hm]
      exact .inl ⟨callee, rfl⟩
    · rw [heq]
      exact .inr rfl

/-- The program ends, with this execution. -/
def Executes (settings : Settings) (p : Program) (sink : Sink W) (e : Execution W) : Prop :=
  e.Ended ∧ ∃ patience, execute settings patience p sink = e

/-- Any patience at which the program ends will do. -/
theorem executes_of_ended {settings : Settings} {patience : Nat} {p : Program} {sink : Sink W}
    (h : (execute settings patience p sink).Ended) :
    Executes settings p sink (execute settings patience p sink) :=
  ⟨h, patience, rfl⟩

/-- A program ends in one way only. -/
theorem Executes.unique {settings : Settings} {p : Program} {sink : Sink W} {e e' : Execution W}
    (h : Executes settings p sink e) (h' : Executes settings p sink e') : e = e' := by
  obtain ⟨hended, patience, rfl⟩ := h
  obtain ⟨hended', patience', rfl⟩ := h'
  rcases Nat.le_total patience patience' with hle | hle
  · exact (execute_of_le hle hended).symm
  · exact execute_of_le hle hended'

end SimpleLang
