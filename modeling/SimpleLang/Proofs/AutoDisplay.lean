import SimpleLang.Machine.Execute
import SimpleLang.Program.AutoDisplay
import SimpleLang.Proofs.Machine.Parallel

/-!
# Showing the last value keeps the meaning

`Program.assemble` rewrites the statements at the tails of a program so that their values are shown.
What this does to a run is told by a run that watches the tails:

* `Stmt.execTail`, `Run.programTail` run statements and tell the value of the expression statement
  at a tail with which they ended, if they did. Without that value they are the ordinary run
  (`Run.programTail_erased`).
* `Stmt.agree_showing`: the rewritten statements do what the others do, and then show that value.
  `Run.Agree` is the equality of runs on the machines of a program that leaves the builtins alone,
  because only there `display` is sure to be the builtin.
* `Run.endsShowing_assemble`: the program shows the value behind its output and is otherwise the
  same. A program that is a single block runs one scope further in, which is where the runs are only
  parallel.
-/

namespace SimpleLang

variable {W : Type}

open Stmt (displayName)
open Run

/-! ## Runs that watch the tails -/

mutual
/-- Executes a statement at a tail. If it ends in an expression statement at a tail, the value of
that is told. -/
def Stmt.execTail (context : Context W) (scope : ScopeId) (tail : Tail) :
    Stmt → Run W (Flow × Option Value)
  | .expr e => do
    tick context.settings
    let v ← e.eval context scope
    return (.next, some v)
  | .cond test yes no => do
    tick context.settings
    if ← answer .conditional (← test.eval context scope) then
      hoist scope [yes]
      yes.execTail context scope .branch
    else
      match no with
      | some no =>
        hoist scope [no]
        no.execTail context scope .branch
      | none => return (.next, none)
  | .block statements =>
    match tail with
    | .program => do return (← (Stmt.block statements).exec context scope, none)
    | .branch => do
      tick context.settings
      let inner ← newScope (some scope)
      hoist inner statements
      Stmt.execAllTail context inner .branch statements
  | .declare x e => do return (← (Stmt.declare x e).exec context scope, none)
  | .assign x e => do return (← (Stmt.assign x e).exec context scope, none)
  | .ret e => do return (← (Stmt.ret e).exec context scope, none)
  | .loop test body => do return (← (Stmt.loop test body).exec context scope, none)
  | .function f ps body => do return (← (Stmt.function f ps body).exec context scope, none)
def Stmt.execAllTail (context : Context W) (scope : ScopeId) (tail : Tail) :
    List Stmt → Run W (Flow × Option Value)
  | [] => return (.next, none)
  | [s] => s.execTail context scope tail
  | s :: rest => do
    match ← s.exec context scope with
    | .returned v => return (.returned v, none)
    | .next => Stmt.execAllTail context scope tail rest
end

namespace Run

/-- Executes the statements of a program. The tails of a single block are those of what is in the
block. -/
def bodyTail (context : Context W) (scope : ScopeId) : List Stmt → Run W (Flow × Option Value)
  | [.block statements] => do
    tick context.settings
    let inner ← newScope (some scope)
    hoist inner statements
    Stmt.execAllTail context inner .program statements
  | statements => do
    hoist scope statements
    Stmt.execAllTail context scope .program statements

/-- Runs statements as a program and tells the value of the expression statement at a tail that the
run ended with, if it did. -/
def programTail (settings : Settings) (patience : Nat) (statements : List Stmt) :
    Run W (Option Value) := do
  let scope ← programScope
  let (_, shown) ← bodyTail (outermost settings patience) scope statements
  flush
  return shown

end Run

/-! ### Without the value -/

section Erased

variable (context : Context W)

/-- Statements that are never rewritten tell no value. -/
theorem erased_exec (r : Run W Flow) :
    Prod.fst <$> (do return (← r, (none : Option Value))) = r := by
  simp

/-- `Stmt.showingLast` and `Stmt.execAllTail` single out the last statement, and `Stmt.execAll` does
not. -/
theorem execAll_singleton (scope : ScopeId) (s : Stmt) :
    Stmt.execAll context scope [s] = s.exec context scope := by
  rw [Stmt.execAll]
  exact (bind_congr fun flow => by cases flow <;> rfl).trans (bind_pure _)

mutual
/-- `Stmt.execTail` does the same in the same order as `Stmt.exec`, so the two are equal as runs and
not only on some machines. -/
theorem Stmt.execTail_erased (scope : ScopeId) (tail : Tail) : (s : Stmt) →
    Prod.fst <$> s.execTail context scope tail = s.exec context scope
  | .expr e => by
    rw [Stmt.execTail, Stmt.exec]
    simp
  | .cond test yes none => by
    have hyes := Stmt.execTail_erased scope .branch yes
    simp only [Stmt.execTail, Stmt.exec, map_bind]
    refine bind_congr fun _ => bind_congr fun v => bind_congr fun b => ?_
    cases b with
    | false => rfl
    | true => simp [hyes]
  | .cond test yes (some no) => by
    have hyes := Stmt.execTail_erased scope .branch yes
    have hno := Stmt.execTail_erased scope .branch no
    simp only [Stmt.execTail, Stmt.exec, map_bind]
    refine bind_congr fun _ => bind_congr fun v => bind_congr fun b => ?_
    cases b with
    | false => simp [hno]
    | true => simp [hyes]
  | .block statements => by
    cases tail with
    -- a block at the end of a program is not gone into
    | program => exact erased_exec _
    | branch =>
      have hstatements (inner : ScopeId) := Stmt.execAllTail_erased inner .branch statements
      simp only [Stmt.execTail, Stmt.exec, map_bind, hstatements]
  | .declare x e | .assign x e | .ret e | .loop test body | .function f ps body => erased_exec _
theorem Stmt.execAllTail_erased (scope : ScopeId) (tail : Tail) : (ss : List Stmt) →
    Prod.fst <$> Stmt.execAllTail context scope tail ss = Stmt.execAll context scope ss
  | [] => rfl
  | [s] => by
    rw [Stmt.execAllTail, Stmt.execTail_erased scope tail s, execAll_singleton]
  | s :: s' :: rest => by
    have hrest := Stmt.execAllTail_erased scope tail (s' :: rest)
    rw [Stmt.execAllTail, Stmt.execAll, map_bind]
    · refine bind_congr fun flow => ?_
      cases flow with
      | returned v => rfl
      | next => exact hrest
    · simp
end

/-- The single block that `bodyTail` looks into is one that `sequence` executes as a statement. -/
theorem Run.bodyTail_erased (scope : ScopeId) (ss : List Stmt) :
    Prod.fst <$> bodyTail context scope ss = sequence context scope ss := by
  unfold bodyTail
  split
  next statements =>
    simp only [map_bind, Stmt.execAllTail_erased]
    show _ = Stmt.execAll context scope [.block statements]
    rw [execAll_singleton, Stmt.exec]
  next => simp only [map_bind, Stmt.execAllTail_erased, sequence]

/-- The run that watches the tails is the run of the program. -/
theorem Run.programTail_erased (settings : Settings) (patience : Nat) (ss : List Stmt) :
    (fun _ => ()) <$> programTail settings patience ss
      = (program settings patience ss : Run W Unit) := by
  have hbody (scope : ScopeId) := bodyTail_erased (W := W) (outermost settings patience) scope ss
  simp only [programTail, program, map_bind, ← hbody]
  simp

end Erased

/-! ## Rewritten statements -/

namespace Run

variable {α β : Type} {n : Nat}

/-- Two runs are equal on the machines of a program that leaves the builtins alone, if they have at
least `n` scopes. -/
def Agree (n : Nat) (r r' : Run W α) : Prop := ∀ m, Machine.Twin 0 m m → n ≤ m.size → r m = r' m

namespace Agree

theorem refl (r : Run W α) : Agree n r r := fun _ _ _ => rfl

/-- `Agree` is kept by whatever follows both runs. -/
theorem bind_left {r r' : Run W α} (h : Agree n r r') (f : α → Run W β) :
    Agree n (r >>= f) (r' >>= f) := by
  intro m htwin hn
  show EStateM.bind r f m = EStateM.bind r' f m
  rw [EStateM.bind, EStateM.bind, h m htwin hn]

/-- What follows has to agree only behind the machines that the first run can lead to. -/
theorem bind {r : Run W α} {V : Nat → α → α → Prop} {f f' : α → Run W β} (h : Parallel 0 n r r V)
    (hf : ∀ k, n ≤ k → ∀ a, V k a a → Agree k (f a) (f' a)) : Agree n (r >>= f) (r >>= f') := by
  intro m htwin hn
  show EStateM.bind r f m = EStateM.bind r f' m
  unfold EStateM.bind
  cases hm : r m with
  | error e m₁ => rfl
  | ok a m₁ =>
    obtain ⟨htwin₁, hle, ha⟩ := h.twin_self htwin hn hm
    exact hf m₁.size (Nat.le_trans hn hle) a ha m₁ htwin₁ (Nat.le_refl _)

end Agree

/-- Shows the value at a tail. -/
def showTail (settings : Settings) : Flow × Option Value → Run W Flow
  | (flow, none) => return flow
  | (flow, some v) => do
    tick settings
    writeLine v.pieces
    return flow

end Run

section Lockstep

variable {context : Context W}

/-- A display statement evaluates its expression and shows the value. -/
theorem agree_display (e : Expr) {n scope : Nat} (hscope : scope < n) :
    Agree n ((Expr.call (.name displayName) [e]).eval context scope) (do
      let v ← e.eval context scope
      tick context.settings
      writeLine v.pieces
      return .unit) := by
  intro m htwin hn
  -- the callee is looked up first, and then it is the builtin that is called
  have hlookup : lookup scope displayName m = .ok (.builtin .display) m := by
    rw [lookup_apply, htwin.sane.get?_display scope (Nat.lt_of_lt_of_le hscope hn)]
  have hcall : (Expr.call (.name displayName) [e]).eval context scope = (do
      let callee ← lookup scope displayName
      let v ← e.eval context scope
      call context callee [v]) := by
    simp [Expr.eval, Expr.evalAll]
  rw [hcall]
  show EStateM.bind _ _ m = _
  rw [EStateM.bind, hlookup]
  rfl

/-- At a tail only expressions, conditionals and blocks are rewritten, and `hoist` passes over
these. -/
theorem hoist_showing (scope : ScopeId) (tail : Tail) (s : Stmt) (rest : List Stmt) :
    (hoist scope (s.showing tail :: rest) : Run W Unit) = hoist scope (s :: rest) := by
  cases s with
  | cond test yes no => cases no <;> rfl
  | block statements => cases tail <;> rfl
  | _ => rfl

theorem hoist_cons {scope : ScopeId} {rest rest' : List Stmt} (s : Stmt)
    (h : (hoist scope rest : Run W Unit) = hoist scope rest') :
    (hoist scope (s :: rest) : Run W Unit) = hoist scope (s :: rest') := by
  cases s with
  | function f parameters body => rw [hoist, hoist, h]
  | _ => exact h

/-- The same functions are bound: a function is never rewritten. -/
theorem hoist_showingLast (scope : ScopeId) (tail : Tail) : (ss : List Stmt) →
    (hoist scope (Stmt.showingLast tail ss) : Run W Unit) = hoist scope ss
  | [] => rfl
  | [s] => hoist_showing scope tail s []
  | s :: s' :: rest => hoist_cons s (hoist_showingLast scope tail (s' :: rest))

/-- A statement that is not rewritten shows nothing. -/
theorem agree_unshown {n : Nat} (r : Run W Flow) :
    Agree n r ((do return (← r, none)) >>= showTail context.settings) := by
  have hnone : (do return (← r, none)) >>= showTail context.settings = r := by
    simp only [bind_assoc, pure_bind]
    exact bind_pure r
  rw [hnone]
  exact .refl r

/-- The step for a branch of a conditional, where the functions of the branch are bound before it is
executed. -/
theorem agree_branch {s : Stmt} (hs : s.Spares displayName) {n scope : Nat} (hpos : 0 < scope)
    (hscope : scope < n)
    (h : ∀ {n : Nat}, scope < n → Agree n ((s.showing .branch).exec context scope)
      (s.execTail context scope .branch >>= showTail context.settings)) :
    Agree n (do hoist scope [s.showing .branch]; (s.showing .branch).exec context scope)
      ((do hoist scope [s]; s.execTail context scope .branch) >>= showTail context.settings) := by
  rw [hoist_showing, bind_assoc]
  exact .bind (parallel_hoist hpos [s] ⟨hs, trivial⟩ hscope) fun k hk _ _ => h (by omega)

mutual
/-- A rewritten statement does what the statement does, and then shows the value at its tail. -/
theorem Stmt.agree_showing (hcontext : context.Uniform 0) (tail : Tail) : (s : Stmt) →
    s.Spares displayName → ∀ {n scope : Nat}, 0 < scope → scope < n →
    Agree n ((s.showing tail).exec context scope)
      (s.execTail context scope tail >>= showTail context.settings)
  | .expr e, h, n, scope, hpos, hscope => by
    simp only [Stmt.execTail, bind_assoc, pure_bind]
    refine .bind (parallel_tick hcontext.steps) fun k hk _ _ => ?_
    -- the display statement ends the way the expression statement does
    have hdisplay := (@agree_display W context e k scope (by omega)).bind_left
      fun _ => (return Flow.next : Run W Flow)
    simp only [bind_assoc, pure_bind] at hdisplay
    exact hdisplay
  | .cond test yes none, h, n, scope, hpos, hscope => by
    simp only [Stmt.execTail, bind_assoc]
    refine .bind (parallel_tick hcontext.steps) fun k hk _ _ => ?_
    refine .bind (Expr.parallel_eval hcontext test h.1 (by omega)) fun j hj v hv => ?_
    refine .bind (parallel_answer .conditional hv) fun i hi b _ => ?_
    cases b with
    | false => exact .refl _
    | true =>
      exact agree_branch h.2 hpos (by omega) (Stmt.agree_showing hcontext .branch yes h.2 hpos)
  | .cond test yes (some no), h, n, scope, hpos, hscope => by
    simp only [Stmt.execTail, bind_assoc]
    refine .bind (parallel_tick hcontext.steps) fun k hk _ _ => ?_
    refine .bind (Expr.parallel_eval hcontext test h.1 (by omega)) fun j hj v hv => ?_
    refine .bind (parallel_answer .conditional hv) fun i hi b _ => ?_
    cases b with
    | false =>
      exact agree_branch h.2.2 hpos (by omega) (Stmt.agree_showing hcontext .branch no h.2.2 hpos)
    | true =>
      exact agree_branch h.2.1 hpos (by omega) (Stmt.agree_showing hcontext .branch yes h.2.1 hpos)
  | .block statements, h, n, scope, hpos, hscope => by
    cases tail with
    | program => exact agree_unshown _
    | branch =>
      simp only [Stmt.execTail, bind_assoc]
      refine .bind (parallel_tick hcontext.steps) fun k hk _ _ => ?_
      refine .bind (parallel_newScope (by omega)) fun j hj inner hinner => ?_
      obtain ⟨hpos', hlt, _⟩ := hinner
      rw [hoist_showingLast]
      refine .bind (parallel_hoist hpos' statements h hlt) fun i hi _ _ => ?_
      exact Stmt.agree_showingLast hcontext .branch statements h hpos' (Nat.lt_of_lt_of_le hlt hi)
  | .declare _ _, _, _, _, _, _ | .assign _ _, _, _, _, _, _ | .ret _, _, _, _, _, _
  | .loop _ _, _, _, _, _, _ | .function _ _ _, _, _, _, _, _ => agree_unshown _
/-- Only the last statement differs. The ones before it run on a machine that is its own twin, so
what they leave is one again. -/
theorem Stmt.agree_showingLast (hcontext : context.Uniform 0) (tail : Tail) : (ss : List Stmt) →
    Stmt.AllSpare displayName ss → ∀ {n scope : Nat}, 0 < scope → scope < n →
    Agree n (Stmt.execAll context scope (Stmt.showingLast tail ss))
      (Stmt.execAllTail context scope tail ss >>= showTail context.settings)
  | [], h, n, scope, hpos, hscope => .refl _
  | [s], h, n, scope, hpos, hscope => by
    rw [Stmt.showingLast, execAll_singleton]
    exact Stmt.agree_showing hcontext tail s h.1 hpos hscope
  | s :: s' :: rest, h, n, scope, hpos, hscope => by
    have hrest {k : Nat} (hscope : scope < k) :=
      Stmt.agree_showingLast hcontext tail (s' :: rest) h.2 hpos hscope
    rw [Stmt.execAllTail, bind_assoc]
    · refine .bind (Stmt.parallel_exec hcontext s h.1 hpos hscope) fun k hk flow _ => ?_
      cases flow with
      | returned v => exact .refl _
      | next => exact hrest (by omega)
    · simp
end

/-- In whichever scope the statements of a program run. -/
theorem agree_sequence (hcontext : context.Uniform 0) {ss : List Stmt}
    (h : Stmt.AllSpare displayName ss) {n scope : Nat} (hpos : 0 < scope) (hscope : scope < n) :
    Agree n (sequence context scope (Stmt.showingLast .program ss)) (do
      hoist scope ss
      Stmt.execAllTail context scope .program ss >>= showTail context.settings) := by
  rw [Run.sequence, hoist_showingLast]
  refine .bind (parallel_hoist hpos ss h hscope) fun k hk _ _ => ?_
  exact Stmt.agree_showingLast hcontext .program ss h hpos (by omega)

end Lockstep

/-! ### What rewriting does not change -/

mutual
/-- The new calls name `display` but do not bind it. -/
theorem Stmt.spares_showing {x : String} (tail : Tail) : (s : Stmt) → s.Spares x →
    (s.showing tail).Spares x
  | .expr e, h => ⟨trivial, h, trivial⟩
  | .cond test yes none, h => ⟨h.1, Stmt.spares_showing .branch yes h.2⟩
  | .cond test yes (some no), h =>
    ⟨h.1, Stmt.spares_showing .branch yes h.2.1, Stmt.spares_showing .branch no h.2.2⟩
  | .block statements, h => by
    cases tail with
    | program => exact h
    | branch => exact Stmt.allSpare_showingLast .branch statements h
  | .declare _ _, h | .assign _ _, h | .ret _, h | .loop _ _, h | .function _ _ _, h => h
theorem Stmt.allSpare_showingLast {x : String} (tail : Tail) : (ss : List Stmt) →
    Stmt.AllSpare x ss → Stmt.AllSpare x (Stmt.showingLast tail ss)
  | [], h => h
  | [s], h => ⟨Stmt.spares_showing tail s h.1, trivial⟩
  | _ :: s' :: rest, h => ⟨h.1, Stmt.allSpare_showingLast tail (s' :: rest) h.2⟩
end

mutual
/-- The name of a builtin can be called, so a display statement is no new mistake. -/
theorem Stmt.check_showing (tail : Tail) : (s : Stmt) → (s.showing tail).check = s.check
  | .expr e => List.append_nil e.check
  | .cond test yes none => by
    rw [Stmt.showing, Stmt.check, Stmt.check, Stmt.check_showing .branch yes]
  | .cond test yes (some no) => by
    rw [Stmt.showing, Stmt.check, Stmt.check, Stmt.check_showing .branch yes,
      Stmt.check_showing .branch no]
  | .block statements => by
    cases tail with
    | program => rfl
    | branch => exact Stmt.checkAll_showingLast .branch statements
  | .declare _ _ | .assign _ _ | .ret _ | .loop _ _ | .function _ _ _ => rfl
/-- As `Stmt.check_showing`, for the last of some statements. -/
theorem Stmt.checkAll_showingLast (tail : Tail) : (ss : List Stmt) →
    Stmt.checkAll (Stmt.showingLast tail ss) = Stmt.checkAll ss
  | [] => rfl
  | [s] => congrArg (· ++ []) (Stmt.check_showing tail s)
  | s :: s' :: rest => congrArg (s.check ++ ·) (Stmt.checkAll_showingLast tail (s' :: rest))
end

/-- Taking the statements out of a single block does not change what is checked either. -/
theorem Program.check_assemble (ss : List Stmt) :
    (assemble ss).check = (⟨ss⟩ : Program).check := by
  show Stmt.checkAll (Stmt.showingLast .program (body ss)) = Stmt.checkAll ss
  rw [Stmt.checkAll_showingLast]
  unfold body
  split
  next statements => exact (List.append_nil _).symm
  next => rfl

/-! ## Whole programs -/

/-- The machine on which the statements of a program run. -/
def Machine.opened (sink : Sink W) : Machine W :=
  { Machine.start sink with store := ⟨#[.outermost, ⟨[], some 0⟩]⟩ }

/-- The same machine inside of a block: one step and one scope further. -/
def Machine.entered (sink : Sink W) : Machine W :=
  { Machine.opened sink with
    store := ⟨#[.outermost, ⟨[], some 0⟩, ⟨[], some 1⟩]⟩
    steps := 1 }

/-- The scope of the program stands below the outermost one and binds nothing. -/
theorem Store.sane_pair : (⟨#[.outermost, ⟨[], some 0⟩]⟩ : Store).Sane where
  outermost := rfl
  inner
    | 1, _, _, hhere => by
      obtain rfl := Option.some.inj hhere
      exact ⟨⟨0, Nat.zero_lt_one, rfl⟩, fun b hb => absurd hb List.not_mem_nil⟩

/-- The scope between is the filler, and the last one is that of the block. -/
theorem Store.embeds_pair :
    (⟨#[.outermost, ⟨[], some 0⟩]⟩ : Store).Embeds 1
      ⟨#[.outermost, ⟨[], some 0⟩, ⟨[], some 1⟩]⟩ where
  size := rfl
  outermost := rfl
  filler
    | 0, _ => rfl
  inner
    | 1, _ => rfl
    | k + 2, _ => by simp

namespace Run

section Whole

variable {settings : Settings} {patience : Nat} {ss : List Stmt} {sink : Sink W}

theorem twin_opened (hreliable : sink.writer.Reliable) :
    (Machine.opened sink).Twin 0 (.opened sink) :=
  ⟨Store.sane_pair, Store.sane_pair.embeds_self, rfl, rfl, hreliable⟩

/-- Outside and inside of the block the machines differ by one scope. -/
theorem twin_entered (hreliable : sink.writer.Reliable) :
    (Machine.opened sink).Twin 1 (.entered sink) :=
  ⟨Store.sane_pair, Store.embeds_pair, rfl, rfl, hreliable⟩

theorem twin_entered_self (hreliable : sink.writer.Reliable) :
    (Machine.entered sink).Twin 0 (.entered sink) :=
  have hsane : (Machine.entered sink).store.Sane := Store.sane_pair.newScope Nat.one_lt_two
  ⟨hsane, hsane.embeds_self, rfl, rfl, hreliable⟩

/-- A block is entered by a step and a new scope. -/
theorem enter_opened {α : Type} (hsteps : settings.maxSteps = none) (f : ScopeId → Run W α) :
    (do tick settings; f (← newScope (some 1))) (.opened sink) = f 2 (.entered sink) := by
  show EStateM.bind _ _ _ = _
  rw [EStateM.bind, tick_of_none hsteps]
  rfl

/-- What follows the statements of a program that are in a block. -/
theorem bodyTail_block (hsteps : settings.maxSteps = none) (h : Stmt.AllSpare displayName ss)
    (hreliable : sink.writer.Reliable) :
    (bodyTail (outermost settings patience) 1 [.block ss] >>= showTail settings) (.opened sink) =
      sequence (outermost settings patience) 2 (Stmt.showingLast .program ss) (.entered sink) := by
  have hagree := agree_sequence (uniform_outermost hsteps patience) h Nat.two_pos
    (Nat.lt_succ_self 2) _ (twin_entered_self hreliable) (Nat.le_refl _)
  simp only [bodyTail, bind_assoc]
  exact (enter_opened hsteps _).trans hagree.symm

/-- `bodyTail_block` for programs that are not a single block. The scope is then that of the
program. -/
theorem bodyTail_other (hsteps : settings.maxSteps = none) (h : Stmt.AllSpare displayName ss)
    (hreliable : sink.writer.Reliable)
    (hother : ∀ statements, ss ≠ [.block statements]) :
    (bodyTail (outermost settings patience) 1 ss >>= showTail settings) (.opened sink) =
      sequence (outermost settings patience) 1 (Stmt.showingLast .program ss) (.opened sink) := by
  have hagree := agree_sequence (uniform_outermost hsteps patience) h Nat.one_pos Nat.one_lt_two _
    (twin_opened hreliable) (Nat.le_refl _)
  rw [bodyTail, bind_assoc]
  · exact hagree.symm
  · exact hother

/-- The assembled statements do what the others do and then show the value at their tail. The single
block that is left out is the one case in which the scopes differ. -/
theorem alike_assemble (patience : Nat) (hsteps : settings.maxSteps = none)
    (h : Stmt.AllSpare displayName ss) (hreliable : sink.writer.Reliable) :
    ∃ d, Alike d 2 (Flow.Moved d)
      (sequence (outermost settings patience) 1 (Program.assemble ss).statements (.opened sink))
      ((bodyTail (outermost settings patience) 1 ss >>= showTail settings) (.opened sink)) := by
  have hparallel {d : Nat} {m' : Machine W} {statements : List Stmt}
      (hstatements : Stmt.AllSpare displayName statements)
      (htwin : (Machine.opened sink).Twin d m') :=
    parallel_sequence (uniform_outermost hsteps patience)
      (Stmt.allSpare_showingLast .program statements hstatements) Nat.one_pos Nat.one_lt_two _ _
      htwin (Nat.le_refl _)
  -- a single block runs one scope further in, any other program in the scope it has
  by_cases hblock : ∃ statements, ss = [.block statements]
  · obtain ⟨statements, rfl⟩ := hblock
    rw [bodyTail_block hsteps h.1 hreliable]
    exact ⟨1, hparallel h.1 (twin_entered hreliable)⟩
  · have hother : ∀ statements, ss ≠ [.block statements] :=
      fun statements hss => hblock ⟨statements, hss⟩
    have hbody : Program.body ss = ss := by
      rw [Program.body]
      exact hother
    rw [bodyTail_other hsteps h hreliable hother, Program.assemble, hbody]
    exact ⟨0, hparallel h (twin_opened hreliable)⟩

/-- Before the value at its tail is shown, the machine is one on which nothing is refused. -/
theorem twin_of_bodyTail (hsteps : settings.maxSteps = none) (h : Stmt.AllSpare displayName ss)
    (hreliable : sink.writer.Reliable)
    {ending : Flow × Option Value} {m : Machine W}
    (hm : bodyTail (outermost settings patience) 1 ss (.opened sink) = .ok ending m) :
    m.Twin 0 m := by
  -- what a run preserves is known of the ordinary run, which is this one without the value
  have hsequence : sequence (outermost settings patience) 1 ss (.opened sink) = .ok ending.1 m := by
    rw [← bodyTail_erased]
    show EStateM.map _ _ _ = _
    rw [EStateM.map, hm]
  have hparallel : Parallel 0 2 (sequence (outermost settings patience) 1 ss : Run W Flow) _ _ :=
    parallel_sequence (uniform_outermost hsteps patience) h Nat.one_pos Nat.one_lt_two
  exact (hparallel.twin_self (twin_opened hreliable) (Nat.le_refl _) hsequence).1

/-- The line that shows a value, if there is one. -/
def shownLine : Option Value → String
  | none => ""
  | some v => v.text ++ "\n"

/-- What the run told, as it is shown, if the run did not stop. -/
def told? : EStateM.Result Stop (Machine W) (Option Value) → Option String
  | .ok shown _ => some (shownLine shown)
  | .error _ _ => none

/-- A writer that refuses nothing takes the line. The pieces of the value and the line break are
written one by one, and together they are the line. -/
theorem showTail_ok (hsteps : settings.maxSteps = none) {m : Machine W}
    (hreliable : m.sink.writer.Reliable) (flow : Flow) (shown : Option Value) :
    ∃ m', showTail settings (flow, shown) m = .ok flow m' ∧
      m'.sink.writer = m.sink.writer ∧
      m'.sink.bytes = m.sink.bytes ++ (shownLine shown).toUTF8 := by
  cases shown with
  | none => exact ⟨m, rfl, rfl, by simp [shownLine]⟩
  | some v =>
    let ticked : Machine W := { m with steps := m.steps + 1 }
    have hshow : showTail settings (flow, some v) m =
        (writeLine v.pieces >>= fun _ => return flow) ticked := by
      show EStateM.bind _ _ _ = _
      rw [EStateM.bind, tick_of_none hsteps]
    -- a reliable writer takes all the pieces
    obtain ⟨hnone, hbytes⟩ := Sink.writeEach_of_reliable hreliable (v.pieces ++ ["\n"])
    rw [String.join_append] at hbytes
    have hwritten : writeLine v.pieces ticked = .ok () _ := ask_of_none _ hnone
    rw [hshow, bind_of_ok hwritten]
    exact ⟨_, rfl, Sink.writer_writeEach _ _, hbytes⟩

/-- The second run ends as the first one does. If that is not at a stop, then the second one has
also shown the value that the first one tells. To what state this brings the writer is left to it:
all that is known of the states of `W` is what a `Writer` answers in them. -/
def EndsShowing :
    EStateM.Result Stop (Machine W) (Option Value) → EStateM.Result Stop (Machine W) Unit → Prop
  | .ok shown m, .ok _ m' =>
    m'.sink.writer = m.sink.writer ∧
      m'.sink.bytes = m.sink.bytes ++ (shownLine shown).toUTF8
  | .error reason m, .error reason' m' => reason' = reason ∧ m'.sink = m.sink
  | _, _ => False

/-- The second run stops for a reason exactly if the first one does. -/
theorem EndsShowing.error_iff {r : EStateM.Result Stop (Machine W) (Option Value)}
    {r' : EStateM.Result Stop (Machine W) Unit} (h : EndsShowing r r') (reason : Stop) :
    (∃ m, r' = .error reason m) ↔ ∃ m, r = .error reason m := by
  cases r with
  | ok shown m =>
    cases r' with
    | ok _ m' => simp
    | error reason' m' => exact h.elim
  | error e m =>
    cases r' with
    | ok _ m' => exact h.elim
    | error e' m' =>
      obtain ⟨rfl, _⟩ := h
      simp

/-- The assembled program ends as the statements do, after it has shown the value at their tail. -/
theorem endsShowing_assemble (hsteps : settings.maxSteps = none)
    (h : Stmt.AllSpare displayName ss) (hreliable : sink.writer.Reliable) :
    EndsShowing (programTail settings patience ss (.start sink))
      (program settings patience (Program.assemble ss).statements (.start sink)) := by
  obtain ⟨d, halike⟩ := alike_assemble patience hsteps h hreliable
  have htail : programTail settings patience ss (.start sink) = EStateM.bind
      (bodyTail (outermost settings patience) 1 ss) (fun ending => do flush; return ending.2)
      (.opened sink) := rfl
  have hprogram : program settings patience (Program.assemble ss).statements (.start sink) =
      EStateM.bind (sequence (outermost settings patience) 1 (Program.assemble ss).statements)
        (fun _ => flush) (.opened sink) := rfl
  have hshown : (bodyTail (outermost settings patience) 1 ss >>= showTail settings)
      (.opened sink) = EStateM.bind (bodyTail (outermost settings patience) 1 ss)
        (showTail settings) (.opened sink) := rfl
  rw [htail, hprogram]
  rw [hshown] at halike
  unfold EStateM.bind at halike ⊢
  -- if the statements stop, so does the assembled program, before anything more is shown
  cases hbody : bodyTail (outermost settings patience) 1 ss (.opened sink) with
  | error e m =>
    rw [hbody] at halike
    rcases halike.cases with ⟨e', m', m₁, hsequence, hm₁, hsink⟩ | ⟨_, _, _, _, _, hok, _⟩
    · cases hm₁
      rw [hsequence]
      exact ⟨rfl, hsink.symm⟩
    · cases hok
  -- otherwise what is shown behind them is the value at their tail
  | ok ending m =>
    obtain ⟨flow, shown⟩ := ending
    have htwin : m.Twin 0 m := twin_of_bodyTail hsteps h hreliable hbody
    obtain ⟨m₂, hm₂, hwriter, hbytes⟩ := showTail_ok hsteps htwin.reliable flow shown
    simp only [hbody, hm₂] at halike
    rcases halike.cases with ⟨_, _, _, _, herror, _⟩ | ⟨_, _, m', m₁, hsequence, hm₁, htwin', _⟩
    · cases herror
    · cases hm₁
      rw [hsequence]
      show EndsShowing (EStateM.bind flush (fun _ => return shown) m) (flush m')
      -- neither sink fails when it is flushed, the second one being that of a twin
      rw [EStateM.bind, flush, ask_of_none _ (htwin.reliable.flush _),
        ask_of_none _ (htwin'.reliable.flush _)]
      show m'.sink.writer = m.sink.writer ∧ m'.sink.bytes = m.sink.bytes ++ _
      rw [← htwin'.sink]
      exact ⟨hwriter, hbytes⟩

/-- Stops are those of `programTail`, which is the same run (`programTail_erased`). -/
theorem program_error_iff (m : Machine W) (reason : Stop) :
    (∃ m', program settings patience ss m = .error reason m') ↔
      ∃ m', programTail settings patience ss m = .error reason m' := by
  rw [← programTail_erased]
  show (∃ m', EStateM.map _ _ m = _) ↔ _
  rw [EStateM.map]
  cases programTail settings patience ss m <;> simp

/-- The run of the statements as a program comes to an end, be it at a fault. -/
def Terminates (settings : Settings) (ss : List Stmt) (sink : Sink W) : Prop :=
  ∃ patience, ¬ ∃ m, program settings patience ss (.start sink) = .error .unfinished m

end Whole

end Run

/-- Assembling a program keeps its meaning, if nothing in it binds `display`. The checks find the
same, one run comes to an end if the other does, and both stop at the same fault after the same
output or not at all. In the latter case the assembled program has also shown the value of the
expression statement at a tail that the statements ended with, if they did. -/
theorem assemble_preserves_meaning (ss : List Stmt) (hspare : Stmt.AllSpare "display" ss)
    (settings : Settings) (hsteps : settings.maxSteps = none) (sink : Sink W)
    (hreliable : sink.writer.Reliable) :
    (Program.assemble ss).check = (⟨ss⟩ : Program).check ∧
    (Terminates settings (Program.assemble ss).statements sink ↔ Terminates settings ss sink) ∧
    ∀ patience,
      (program settings patience ss : Run W Unit)
        = (fun _ => ()) <$> programTail settings patience ss ∧
      EndsShowing (programTail settings patience ss (.start sink))
        (program settings patience (Program.assemble ss).statements (.start sink)) := by
  have hending (patience : Nat) :
      EndsShowing (programTail settings patience ss (.start sink))
        (program settings patience (Program.assemble ss).statements (.start sink)) :=
    endsShowing_assemble hsteps hspare hreliable
  refine ⟨Program.check_assemble ss, ?_, fun patience =>
    ⟨(programTail_erased settings patience ss).symm, hending patience⟩⟩
  -- for each patience the runs are unfinished together
  refine exists_congr fun patience => not_congr ?_
  rw [(hending patience).error_iff, program_error_iff]

/-- A single block that ends in a conditional, in whose branch a lambda is called. -/
def lambdaCallAtTail : List Stmt :=
  [.block
    [.declare "f" (some (.lambda ["n"] (.value (.binary .add (.name "n") (.int 1))))),
      .cond (.bool true) (.block [.expr (.call (.name "f") [.int 41])]) none]]

theorem assemble_preserves_meaning_lambdaCallAtTail :
    Stmt.AllSpare "display" lambdaCallAtTail ∧
      ∃ m m', program {} 1 lambdaCallAtTail (.start (.new none false)) = .ok () m ∧
        program {} 1 (Program.assemble lambdaCallAtTail).statements (.start (.new none false)) =
          .ok () m' ∧
        m'.sink.bytes = m.sink.bytes ++ "42\n".toUTF8 := by
  have hspare : Stmt.AllSpare "display" lambdaCallAtTail := by
    simp [lambdaCallAtTail, Stmt.AllSpare, Stmt.Spares, Expr.Spares, Expr.AllSpare, Body.Spares]
  obtain ⟨_, _, hrun⟩ :=
    assemble_preserves_meaning lambdaCallAtTail hspare {} rfl (.new none false)
      Writer.reliable_limited
  obtain ⟨herased, hshowing⟩ := hrun 1
  -- the last value is found by running the program
  have htold :
      told? (programTail {} 1 lambdaCallAtTail (.start (.new none false))) = some "42\n" := by
    decide +kernel
  cases htail : programTail {} 1 lambdaCallAtTail (.start (.new none false)) with
  | error reason m =>
    rw [htail] at htold
    cases htold
  | ok shown m =>
    rw [htail] at htold hshowing
    have hline : shownLine shown = "42\n" := Option.some.inj htold
    refine ⟨hspare, m, ?_⟩
    cases hassembled : program {} 1 (Program.assemble lambdaCallAtTail).statements
        (.start (.new none false)) with
    | error reason m' =>
      rw [hassembled] at hshowing
      exact hshowing.elim
    | ok _ m' =>
      rw [hassembled] at hshowing
      refine ⟨m', ?_, rfl, ?_⟩
      · rw [herased]
        show EStateM.map _ _ _ = _
        rw [EStateM.map, htail]
      · rw [hshowing.2, hline]

end SimpleLang
