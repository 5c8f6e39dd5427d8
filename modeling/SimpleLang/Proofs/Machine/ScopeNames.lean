import SimpleLang.Proofs.Machine.Respects
import SimpleLang.Proofs.Machine.Scopes

/-!
# Which names a run adds to a scope

A run changes a scope in two ways: it binds a name there, or it gives a new value to a name that is
bound already. What evaluates an expression does the first only in scopes that it creates itself, so
of the scopes that were there before it leaves the names and the parents as they are. A statement
may bind names in the scope it is executed in, but in no other one.

* `Store.SameNames s s'`: the scopes of `s` have the same names and parents in `s'`.
* `Store.Binds scope xs s s'`: the same, except that `scope` may bind some of `xs` as well.
* `Stmt.introduces`: the names that a statement can bind in the scope around it, itself or through
  branches and loop bodies without braces.
* `Expr.keepsNames_eval`, `Stmt.binds_exec`: what evaluation and execution do, by induction on the
  syntax, and `Run.keepsNames_invoke`: what calls do, by induction on how many may still be nested.

None of this depends on where a run started: it holds from every machine, and whether the run ends
with a value or stops.
-/

namespace SimpleLang

variable {W : Type}

/-! ## Names -/

/-- The names that a scope itself binds, in the order in which they were bound first. -/
def Scope.names (here : Scope) : List String := here.bindings.map Prod.fst

/-- The name that is bound when the sequence which the statement is part of is entered. -/
def Stmt.hoisted : Stmt → List String
  | .function f _ _ => [f]
  | _ => []

/-- The names that the execution of the statement can bind in the scope around it. -/
def Stmt.introduces : Stmt → List String
  | .declare x _ => [x]
  | .cond _ yes none => yes.hoisted ++ yes.introduces
  | .cond _ yes (some no) => yes.hoisted ++ yes.introduces ++ (no.hoisted ++ no.introduces)
  | .loop _ body => body.hoisted ++ body.introduces
  | .assign _ _ | .expr _ | .ret _ | .block _ | .function _ _ _ => []

/-- Binding a name that is bound already changes no names, and a new name comes last. -/
theorem Bindings.map_fst_insert (x : String) (v : Value) (b : Bindings) :
    (b.insert x v).map Prod.fst =
      if x ∈ b.map Prod.fst then b.map Prod.fst else b.map Prod.fst ++ [x] := by
  induction b with
  | nil => rfl
  | cons p b ih =>
    obtain ⟨y, w⟩ := p
    rw [insert]
    by_cases hy : y = x
    · rw [if_pos hy, if_pos (by simp [hy])]
      simp [hy]
    · have hmem : x ∈ ((y, w) :: b).map Prod.fst ↔ x ∈ b.map Prod.fst := by
        simp [Ne.symm hy]
      rw [if_neg hy, List.map_cons, ih]
      simp only [hmem]
      split <;> rfl

namespace Store

/-- Every scope is still there, with its parent and with the names that it bound. -/
def SameNames (s s' : Store) : Prop :=
  ∀ (i : ScopeId) (here : Scope), s.scopes[i]? = some here →
    ∃ here', s'.scopes[i]? = some here' ∧ here'.parent = here.parent ∧ here'.names = here.names

/-- Every scope is still there, with its parent and with the names that it bound. New names are
bound in `scope` alone, and they are among `xs`. -/
def Binds (scope : ScopeId) (xs : List String) (s s' : Store) : Prop :=
  ∀ (i : ScopeId) (here : Scope), s.scopes[i]? = some here →
    ∃ here' more, s'.scopes[i]? = some here' ∧ here'.parent = here.parent ∧
      here'.names = here.names ++ more ∧ ∀ x ∈ more, i = scope ∧ x ∈ xs

variable {s s' s'' : Store} {scope : ScopeId} {xs ys : List String}

/-- Nothing is bound, in whatever scope it would be allowed. -/
theorem Binds.refl (scope : ScopeId) (xs : List String) (s : Store) : s.Binds scope xs s :=
  fun _ here h => ⟨here, [], h, rfl, (List.append_nil _).symm, List.forall_mem_nil _⟩

/-- The names that the second change adds come behind those of the first. -/
theorem Binds.trans (h : s.Binds scope xs s') (h' : s'.Binds scope xs s'') :
    s.Binds scope xs s'' := by
  intro i here hhere
  obtain ⟨here', more, hhere', hparent, hnames, hmore⟩ := h i here hhere
  obtain ⟨here'', more', hhere'', hparent', hnames', hmore'⟩ := h' i here' hhere'
  refine ⟨here'', more ++ more', hhere'', hparent'.trans hparent, ?_, ?_⟩
  · rw [hnames', hnames, List.append_assoc]
  · exact List.forall_mem_append.mpr ⟨hmore, hmore'⟩

theorem Binds.mono (h : s.Binds scope xs s') (hsub : xs ⊆ ys) : s.Binds scope ys s' := by
  intro i here hhere
  obtain ⟨here', more, hhere', hparent, hnames, hmore⟩ := h i here hhere
  exact ⟨here', more, hhere', hparent, hnames, fun x hx => ⟨(hmore x hx).1, hsub (hmore x hx).2⟩⟩

/-- Where no names can be bound, the names are the same. -/
theorem binds_nil_iff : s.Binds scope [] s' ↔ s.SameNames s' := by
  constructor
  · intro h i here hhere
    obtain ⟨here', more, hhere', hparent, hnames, hmore⟩ := h i here hhere
    have hnone : more = [] := List.eq_nil_iff_forall_not_mem.mpr fun x hx => by
      simpa using (hmore x hx).2
    exact ⟨here', hhere', hparent, by rw [hnames, hnone, List.append_nil]⟩
  · intro h i here hhere
    obtain ⟨here', hhere', hparent, hnames⟩ := h i here hhere
    exact ⟨here', [], hhere', hparent, by rw [hnames, List.append_nil], List.forall_mem_nil _⟩

/-- A name that is bound already adds none (`Bindings.map_fst_insert`). -/
theorem binds_define (s : Store) (scope : ScopeId) (x : String) (v : Value) :
    s.Binds scope [x] (s.define scope x v) := by
  intro i here hhere
  have hget : (s.define scope x v).scopes[i]? = if scope = i then
      some { here with bindings := here.bindings.insert x v } else some here := by
    show (s.scopes.modify scope _)[i]? = _
    rw [Array.getElem?_modify, hhere]
    rfl
  by_cases hi : scope = i
  · rw [if_pos hi] at hget
    have hnames := Bindings.map_fst_insert x v here.bindings
    by_cases hx : x ∈ here.bindings.map Prod.fst
    · rw [if_pos hx] at hnames
      exact ⟨_, [], hget, rfl, by rw [List.append_nil]; exact hnames, List.forall_mem_nil _⟩
    · rw [if_neg hx] at hnames
      exact ⟨_, [x], hget, rfl, hnames, List.forall_mem_singleton.mpr ⟨hi.symm, by simp⟩⟩
  · rw [if_neg hi] at hget
    exact ⟨here, [], hget, rfl, (List.append_nil _).symm, List.forall_mem_nil _⟩

/-- A name that is bound where it is defined changes its value only. -/
theorem sameNames_define {owner : ScopeId} {x : String} (h : s.resolve? scope x = some owner)
    (v : Value) : s.SameNames (s.define owner x v) := by
  obtain ⟨there, w, hthere, hw⟩ := mem_of_resolve? scope h
  have hbound : x ∈ there.names := List.mem_map.mpr ⟨(x, w), Bindings.mem_of_get? hw, rfl⟩
  intro i here hhere
  by_cases hi : owner = i
  · subst hi
    obtain rfl : there = here := Option.some.inj (hthere.symm.trans hhere)
    refine ⟨{ there with bindings := there.bindings.insert x v }, ?_, rfl, ?_⟩
    · show (s.scopes.modify owner _)[owner]? = _
      rw [Array.getElem?_modify, if_pos rfl, hhere]
      rfl
    · exact (Bindings.map_fst_insert x v there.bindings).trans (if_pos hbound)
  · refine ⟨here, ?_, rfl, rfl⟩
    show (s.scopes.modify owner _)[i]? = _
    rw [Array.getElem?_modify, if_neg hi, hhere]

/-- What binds names in a new scope alone binds none in those that were there before. -/
theorem Binds.of_newScope {parent : Option ScopeId}
    (h : (s.newScope parent).2.Binds (s.newScope parent).1 xs s') : s.SameNames s' := by
  intro i here hhere
  have hlt : i < s.scopes.size := by
    by_contra hge
    rw [Array.getElem?_eq_none (Nat.le_of_not_lt hge)] at hhere
    cases hhere
  have hold : (s.newScope parent).2.scopes[i]? = some here := by
    show (s.scopes.push _)[i]? = _
    rw [Array.getElem?_push, if_neg (Nat.ne_of_lt hlt)]
    exact hhere
  obtain ⟨here', more, hhere', hparent, hnames, hmore⟩ := h i here hold
  -- names are added to the new scope only, and this is an older one
  have hnone : more = [] := List.eq_nil_iff_forall_not_mem.mpr fun x hx =>
    absurd (hmore x hx).1 (Nat.ne_of_lt hlt)
  exact ⟨here', hhere', hparent, by rw [hnames, hnone, List.append_nil]⟩

end Store

/-! ## Runs -/

namespace Run

variable {α β : Type} {scope : ScopeId} {xs ys : List String}

/-- However the run ends, it has bound new names in `scope` alone, and only some of `xs`. -/
def Binds (scope : ScopeId) (xs : List String) (r : Run W α) : Prop :=
  ∀ m : Machine W, m.store.Binds scope xs (after (r m)).store

/-- However the run ends, it has bound no new names in the scopes that were there before. -/
def KeepsNames (r : Run W α) : Prop :=
  ∀ m : Machine W, m.store.SameNames (after (r m)).store

/-- What binds no names may be taken to bind some of any. -/
theorem KeepsNames.binds {r : Run W α} (h : KeepsNames r) (scope : ScopeId) (xs : List String) :
    Binds scope xs r :=
  fun m => (Store.binds_nil_iff.mpr (h m)).mono (List.nil_subset xs)

theorem keepsNames_of_binds {r : Run W α} (h : Binds scope [] r) : KeepsNames r :=
  fun m => Store.binds_nil_iff.mp (h m)

/-- The store does not change at all, so no name is bound. -/
theorem keepsNames_of_store_eq {r : Run W α} (h : ∀ m, (after (r m)).store = m.store) :
    KeepsNames r := by
  intro m
  rw [h m]
  exact Store.binds_nil_iff.mp (.refl 0 [] m.store)

namespace Binds

theorem mono {r : Run W α} (h : Binds scope xs r) (hsub : xs ⊆ ys) : Binds scope ys r :=
  fun m => (h m).mono hsub

/-- `Store.Binds` is transitive, so both parts may bind the same names. -/
theorem bind {r : Run W α} {f : α → Run W β} (h : Binds scope xs r)
    (hf : ∀ a, Binds scope xs (f a)) : Binds scope xs (r >>= f) := by
  intro m
  have hfirst := h m
  cases hm : r m with
  | error e m₁ =>
    rw [hm] at hfirst
    rw [bind_of_error hm]
    exact hfirst
  | ok a m₁ =>
    rw [hm] at hfirst
    rw [bind_of_ok hm]
    exact hfirst.trans (hf a m₁)

end Binds

/-- By way of `Binds` with no names. -/
theorem KeepsNames.bind {r : Run W α} {f : α → Run W β} (h : KeepsNames r)
    (hf : ∀ a, KeepsNames (f a)) : KeepsNames (r >>= f) :=
  keepsNames_of_binds ((h.binds 0 []).bind fun a => (hf a).binds 0 [])

/-! ### Steps -/

theorem keepsNames_pure (a : α) : KeepsNames (pure a : Run W α) :=
  keepsNames_of_store_eq fun _ => rfl

theorem keepsNames_fail (f : Fault) : KeepsNames (fail f : Run W α) :=
  keepsNames_of_store_eq fun _ => rfl

theorem keepsNames_ofExcept (r : Except Fault α) : KeepsNames (ofExcept r : Run W _) := by
  cases r with
  | ok a => exact keepsNames_pure a
  | error f => exact keepsNames_fail f

theorem keepsNames_tick (settings : Settings) : KeepsNames (tick settings : Run W _) :=
  keepsNames_of_store_eq fun m => by rw [after_tick]

theorem keepsNames_lookup (scope : ScopeId) (x : String) :
    KeepsNames (lookup scope x : Run W _) := by
  refine keepsNames_of_store_eq fun m => ?_
  rw [lookup_apply]
  cases m.store.get? scope x <;> rfl

theorem keepsNames_newClosure (name : Option String) (parameters : List String) (body : Body)
    (scope : ScopeId) : KeepsNames (newClosure name parameters body scope : Run W _) :=
  keepsNames_of_store_eq fun _ => rfl

theorem keepsNames_writeLine (pieces : List String) : KeepsNames (writeLine pieces : Run W _) :=
  keepsNames_of_store_eq fun m => by rw [writeLine, after_ask]

theorem keepsNames_answer (question : Question) (v : Value) :
    KeepsNames (answer question v : Run W _) := by
  cases v with
  | bool b => exact keepsNames_pure b
  | _ => exact keepsNames_fail _

theorem keepsNames_logical (op : Operation) (v : Value) : KeepsNames (logical op v : Run W _) := by
  cases v with
  | bool b => exact keepsNames_pure b
  | _ => exact keepsNames_fail _

theorem keepsNames_checkArity (c : Closure) (arguments : List Value) :
    KeepsNames (checkArity c arguments : Run W _) := by
  unfold checkArity
  split
  · exact keepsNames_pure ()
  · exact keepsNames_fail _

theorem binds_define (scope : ScopeId) (x : String) (v : Value) :
    Binds scope [x] (define scope x v : Run W _) :=
  fun m => m.store.binds_define scope x v

/-- The name is bound in the scope that owns it, so it gets another value only
(`Store.sameNames_define`). -/
theorem keepsNames_assign (scope : ScopeId) (x : String) (v : Value) :
    KeepsNames (assign scope x v : Run W _) := by
  intro m
  rw [assign_apply]
  cases h : m.store.resolve? scope x with
  | none => exact Store.binds_nil_iff.mp (.refl 0 [] m.store)
  | some owner => exact Store.sameNames_define h v

/-- A run that binds names only in the scope it creates keeps those of all others. -/
theorem keepsNames_newScope_bind {parent : Option ScopeId} {f : ScopeId → Run W α}
    (xs : List String) (hf : ∀ inner, Binds inner xs (f inner)) :
    KeepsNames (newScope parent >>= f) := by
  intro m
  have hinner := hf (m.store.newScope parent).1 { m with store := (m.store.newScope parent).2 }
  exact Store.Binds.of_newScope hinner

/-- Counting a call does not touch the store. -/
theorem Binds.counted {r : Run W α} (h : Binds scope xs r) : Binds scope xs (counted r) := by
  intro m
  rw [after_counted]
  exact h (entered m)

/-- By induction on the bindings. -/
theorem binds_defineAll (scope : ScopeId) (bs : Bindings) :
    Binds scope (bs.map Prod.fst) (defineAll scope bs : Run W _) := by
  induction bs with
  | nil => exact (keepsNames_pure ()).binds scope _
  | cons b bs ih =>
    refine ((binds_define scope b.1 b.2).mono ?_).bind fun _ => ih.mono ?_
    · exact List.cons_subset.mpr ⟨List.mem_cons_self, List.nil_subset _⟩
    · exact List.subset_cons_self _ _

/-- Entering a sequence binds the functions that it defines. -/
theorem binds_hoist (scope : ScopeId) : (ss : List Stmt) →
    Binds scope (ss.flatMap Stmt.hoisted) (hoist scope ss : Run W _)
  | [] => (keepsNames_pure ()).binds scope _
  | .function f parameters body :: rest => by
    refine ((keepsNames_newClosure (some f) parameters body scope).binds scope _).bind fun v => ?_
    refine ((binds_define scope f v).mono ?_).bind fun _ => (binds_hoist scope rest).mono ?_
    · exact List.cons_subset.mpr ⟨List.mem_cons_self, List.nil_subset _⟩
    · exact List.subset_cons_self _ _
  | .declare _ _ :: rest | .assign _ _ :: rest | .expr _ :: rest | .ret _ :: rest
  | .cond _ _ _ :: rest | .loop _ _ :: rest | .block _ :: rest => binds_hoist scope rest

/-- The rounds of a loop bind what one round binds. -/
theorem binds_rounds (settings : Settings) {condition : Run W Bool} {body : Run W Flow}
    (hcondition : Binds scope xs condition) (hbody : Binds scope xs body) (count : Nat) :
    Binds scope xs (rounds settings condition body count) :=
  rounds_of_bind_self (fun _ => Binds scope xs) (fun h hf => h.bind hf)
    (fun _ => (keepsNames_pure _).binds scope xs)
    ((keepsNames_of_store_eq fun _ => rfl).binds scope xs)
    ((keepsNames_tick settings).binds scope xs) hcondition hbody count

end Run

/-! ## Evaluation and execution -/

section Syntax

open Run

variable {context : Context W}

/-- Only a function might bind names, and those are left to `h`. -/
theorem Run.keepsNames_call (h : ∀ c arguments, KeepsNames (context.invoke c arguments))
    (callee : Value) (arguments : List Value) : KeepsNames (call context callee arguments) := by
  refine (keepsNames_tick _).bind fun _ => ?_
  cases callee with
  | builtin f =>
    cases f with
    | display =>
      cases arguments with
      | nil => exact keepsNames_fail _
      | cons v rest =>
        cases rest with
        | nil => exact (keepsNames_writeLine v.pieces).bind fun _ => keepsNames_pure _
        | cons w rest => exact keepsNames_fail _
  | closure c => exact h c arguments
  | _ => exact keepsNames_fail _

mutual
/-- The evaluation of an expression binds no names in the scopes that were there before. -/
theorem Expr.keepsNames_eval (h : ∀ c arguments, KeepsNames (context.invoke c arguments))
    (scope : ScopeId) : (e : Expr) → KeepsNames (e.eval context scope)
  | .int _ | .float _ | .string _ | .bool _ => keepsNames_pure _
  | .name x => keepsNames_lookup scope x
  | .binary op l r => by
    have hl := Expr.keepsNames_eval h scope l
    have hr := Expr.keepsNames_eval h scope r
    have hlogical (op : Operation) :
        KeepsNames (do return Value.bool (← logical op (← r.eval context scope))) :=
      hr.bind fun v => (keepsNames_logical op v).bind fun b => keepsNames_pure _
    cases op with
    | and =>
      refine hl.bind fun v => (keepsNames_logical .and v).bind fun b => ?_
      cases b with
      | true => exact hlogical .and
      | false => exact keepsNames_pure _
    | or =>
      refine hl.bind fun v => (keepsNames_logical .or v).bind fun b => ?_
      cases b with
      | true => exact keepsNames_pure _
      | false => exact hlogical .or
    | _ => exact hl.bind fun a => hr.bind fun b => keepsNames_ofExcept _
  | .unary op e =>
    (Expr.keepsNames_eval h scope e).bind fun v => keepsNames_ofExcept (op.negate v)
  | .call f args =>
    (Expr.keepsNames_eval h scope f).bind fun callee =>
      (Expr.keepsNames_evalAll h scope args).bind fun values => keepsNames_call h callee values
  | .array elements => (Expr.keepsNames_evalAll h scope elements).bind fun _ => keepsNames_pure _
  | .lambda parameters body => keepsNames_newClosure none parameters body scope
theorem Expr.keepsNames_evalAll (h : ∀ c arguments, KeepsNames (context.invoke c arguments))
    (scope : ScopeId) : (es : List Expr) → KeepsNames (Expr.evalAll context scope es)
  | [] => keepsNames_pure _
  | e :: rest =>
    (Expr.keepsNames_eval h scope e).bind fun _ =>
      (Expr.keepsNames_evalAll h scope rest).bind fun _ => keepsNames_pure _
end

/-- A branch or a loop's body without braces binds its names in the scope around it. -/
theorem Run.binds_branch {s : Stmt} {scope : ScopeId}
    (h : Binds scope s.introduces (s.exec context scope)) :
    Binds scope (s.hoisted ++ s.introduces) (do hoist scope [s]; s.exec context scope) := by
  have hhoist := binds_hoist (W := W) scope [s]
  rw [List.flatMap_singleton] at hhoist
  exact (hhoist.mono (List.subset_append_left _ _)).bind fun _ =>
    h.mono (List.subset_append_right _ _)

mutual
/-- The execution of a statement binds in the scope around it what it introduces, and nothing in any
other scope that was there before. -/
theorem Stmt.binds_exec (h : ∀ c arguments, KeepsNames (context.invoke c arguments))
    (scope : ScopeId) : (s : Stmt) → Binds scope s.introduces (s.exec context scope)
  | .declare x none =>
    ((keepsNames_tick _).binds scope _).bind fun _ =>
      (binds_define scope x .unit).bind fun _ => (keepsNames_pure _).binds scope _
  | .declare x (some e) =>
    ((keepsNames_tick _).binds scope _).bind fun _ =>
      ((Expr.keepsNames_eval h scope e).binds scope _).bind fun v =>
        (binds_define scope x v).bind fun _ => (keepsNames_pure _).binds scope _
  | .assign x e =>
    ((keepsNames_tick _).bind fun _ => (Expr.keepsNames_eval h scope e).bind fun v =>
      (keepsNames_assign scope x v).bind fun _ => keepsNames_pure _).binds scope _
  | .expr e =>
    ((keepsNames_tick _).bind fun _ =>
      (Expr.keepsNames_eval h scope e).bind fun _ => keepsNames_pure _).binds scope _
  | .ret none => ((keepsNames_tick _).bind fun _ => keepsNames_pure _).binds scope _
  | .ret (some e) =>
    ((keepsNames_tick _).bind fun _ =>
      (Expr.keepsNames_eval h scope e).bind fun _ => keepsNames_pure _).binds scope _
  | .cond test yes none => by
    refine ((keepsNames_tick _).binds scope _).bind fun _ =>
      ((Expr.keepsNames_eval h scope test).binds scope _).bind fun v =>
        ((keepsNames_answer .conditional v).binds scope _).bind fun b => ?_
    cases b with
    | true => exact binds_branch (Stmt.binds_exec h scope yes)
    | false => exact (keepsNames_pure _).binds scope _
  | .cond test yes (some no) => by
    refine ((keepsNames_tick _).binds scope _).bind fun _ =>
      ((Expr.keepsNames_eval h scope test).binds scope _).bind fun v =>
        ((keepsNames_answer .conditional v).binds scope _).bind fun b => ?_
    cases b with
    | true =>
      exact (binds_branch (Stmt.binds_exec h scope yes)).mono (List.subset_append_left _ _)
    | false =>
      exact (binds_branch (Stmt.binds_exec h scope no)).mono (List.subset_append_right _ _)
  | .loop test body => by
    refine ((keepsNames_tick _).binds scope _).bind fun _ => binds_rounds _ ?_ ?_ _
    · exact ((Expr.keepsNames_eval h scope test).bind fun v =>
        keepsNames_answer .loop v).binds scope _
    · exact binds_branch (Stmt.binds_exec h scope body)
  | .block statements => by
    -- all that the statements bind is bound in the scope of the block, which is new
    refine ((keepsNames_tick _).bind fun _ => ?_).binds scope _
    refine keepsNames_newScope_bind
      (statements.flatMap Stmt.hoisted ++ statements.flatMap Stmt.introduces) fun inner => ?_
    exact ((binds_hoist inner statements).mono (List.subset_append_left _ _)).bind fun _ =>
      (Stmt.binds_execAll h inner statements).mono (List.subset_append_right _ _)
  | .function _ _ _ => ((keepsNames_tick _).bind fun _ => keepsNames_pure _).binds scope _
theorem Stmt.binds_execAll (h : ∀ c arguments, KeepsNames (context.invoke c arguments))
    (scope : ScopeId) : (ss : List Stmt) →
    Binds scope (ss.flatMap Stmt.introduces) (Stmt.execAll context scope ss)
  | [] => (keepsNames_pure _).binds scope _
  | s :: rest => by
    refine ((Stmt.binds_exec h scope s).mono ?_).bind fun flow => ?_
    · exact List.subset_append_left _ _
    · cases flow with
      | returned v => exact (keepsNames_pure _).binds scope _
      | next => exact (Stmt.binds_execAll h scope rest).mono (List.subset_append_right _ _)
end

namespace Run

theorem binds_sequence (h : ∀ c arguments, KeepsNames (context.invoke c arguments))
    (scope : ScopeId) (ss : List Stmt) :
    Binds scope (ss.flatMap Stmt.hoisted ++ ss.flatMap Stmt.introduces)
      (sequence context scope ss) :=
  ((binds_hoist scope ss).mono (List.subset_append_left _ _)).bind fun _ =>
    (Stmt.binds_execAll h scope ss).mono (List.subset_append_right _ _)

/-- The names that the body of a function can bind in its frame. -/
def frameNames : Body → List String
  | .value _ => []
  | .block statements => statements.flatMap Stmt.hoisted ++ statements.flatMap Stmt.introduces

/-- An expression binds nothing in the frame, and a block what its statements do. -/
theorem binds_body (h : ∀ c arguments, KeepsNames (context.invoke c arguments)) (frame : ScopeId)
    (b : Body) : Binds frame (frameNames b) (body context frame b) := by
  cases b with
  | value e => exact (Expr.keepsNames_eval h frame e).binds frame _
  | block statements =>
    refine (binds_sequence h frame statements).bind fun flow => ?_
    cases flow with
    | returned v => exact (keepsNames_pure _).binds frame _
    | next => exact (keepsNames_pure _).binds frame _

/-- A call binds names in its own frame, which is new, and in no other scope. -/
theorem keepsNames_invoke (settings : Settings) (patience room : Nat) (c : Closure)
    (arguments : List Value) :
    KeepsNames (invoke settings patience room c arguments : Run W _) := by
  induction room generalizing c arguments with
  | zero => exact (keepsNames_checkArity c arguments).bind fun _ => keepsNames_fail _
  | succ room ih =>
    refine (keepsNames_checkArity c arguments).bind fun _ => ?_
    refine keepsNames_newScope_bind
      ((c.parameters.zip arguments).map Prod.fst ++ frameNames c.body) fun frame => ?_
    refine ((binds_defineAll frame _).mono (List.subset_append_left _ _)).bind fun _ => ?_
    exact ((binds_body ih frame c.body).mono (List.subset_append_right _ _)).counted

end Run

end Syntax

/-! ## Scopes do not leak -/

/-- Scopes do not leak. On every machine, in every scope, and however many calls may still be
nested: an expression and a block leave the names and the parents of all scopes as they were,
whatever they end with. Any other statement binds new names in the scope that it is executed in
alone: the name that it declares, or what a branch or a loop's body without braces declares or
defines there. A sequence of statements adds to that the functions that it defines. -/
theorem scopes_do_not_leak (settings : Settings) (patience room : Nat) (scope : ScopeId)
    (m : Machine W) :
    let context : Context W := { settings, patience, invoke := Run.invoke settings patience room }
    (∀ e : Expr, m.store.SameNames (Run.after (e.eval context scope m)).store) ∧
    (∀ ss : List Stmt,
      m.store.SameNames (Run.after ((Stmt.block ss).exec context scope m)).store) ∧
    (∀ s : Stmt,
      m.store.Binds scope s.introduces (Run.after (s.exec context scope m)).store) ∧
    ∀ ss : List Stmt,
      m.store.Binds scope (ss.flatMap Stmt.hoisted ++ ss.flatMap Stmt.introduces)
        (Run.after (Run.sequence context scope ss m)).store := by
  intro context
  have hcalls : ∀ c arguments, Run.KeepsNames (context.invoke c arguments) :=
    Run.keepsNames_invoke settings patience room
  refine ⟨fun e => ?_, fun ss => ?_, fun s => ?_, fun ss => ?_⟩
  · exact Expr.keepsNames_eval hcalls scope e m
  · exact Store.binds_nil_iff.mp (Stmt.binds_exec hcalls scope (.block ss) m)
  · exact Stmt.binds_exec hcalls scope s m
  · exact Run.binds_sequence hcalls scope ss m

end SimpleLang
