import SimpleLang.Proofs.Machine.Replacement

/-!
# Scopes of a program that leaves the builtins alone

A program that never binds the name of a builtin finds it in every scope, because the outermost
scope is the only one with that name. For such programs it makes no difference either how many
scopes without bindings stand between the outermost scope and the program.

* `Stmt.Spares x`: nothing in the statement binds `x`.
* `Store.Sane`: what holds of the scopes of a run. `Store.Sane.get?_display`: in all of them the
  builtin is found.
* `Store.Embeds d s s'`: the store `s'` is `s` with `d` more scopes below the outermost one, so that
  all others have moved by `d`. Names have the same values in both (`Store.Embeds.get?_shift`), as
  far as values can be compared: the functions among them have moved too (`Value.shift`).
-/

namespace SimpleLang

open Stmt (displayName)

/-! ## Syntax that leaves a name alone -/

mutual
/-- Nothing in the expression binds the name. -/
def Expr.Spares (x : String) : Expr → Prop
  | .int _ | .float _ | .string _ | .bool _ | .name _ => True
  | .binary _ l r => l.Spares x ∧ r.Spares x
  | .unary _ e => e.Spares x
  | .call f args => f.Spares x ∧ Expr.AllSpare x args
  | .array elements => Expr.AllSpare x elements
  | .lambda parameters body => x ∉ parameters ∧ body.Spares x
def Expr.AllSpare (x : String) : List Expr → Prop
  | [] => True
  | e :: rest => e.Spares x ∧ Expr.AllSpare x rest
def Body.Spares (x : String) : Body → Prop
  | .block statements => Stmt.AllSpare x statements
  | .value e => e.Spares x
/-- Nothing in the statement binds the name: no declaration, assignment, function or parameter. -/
def Stmt.Spares (x : String) : Stmt → Prop
  | .declare y none => y ≠ x
  | .declare y (some e) => y ≠ x ∧ e.Spares x
  | .assign y e => y ≠ x ∧ e.Spares x
  | .expr e => e.Spares x
  | .ret none => True
  | .ret (some e) => e.Spares x
  | .cond test yes none => test.Spares x ∧ yes.Spares x
  | .cond test yes (some no) => test.Spares x ∧ yes.Spares x ∧ no.Spares x
  | .loop test body => test.Spares x ∧ body.Spares x
  | .block statements => Stmt.AllSpare x statements
  | .function f parameters body => f ≠ x ∧ x ∉ parameters ∧ body.Spares x
def Stmt.AllSpare (x : String) : List Stmt → Prop
  | [] => True
  | s :: rest => s.Spares x ∧ Stmt.AllSpare x rest
end

/-! ## Values whose functions have moved -/

/-- The function as if its scope were `d` further in. -/
def Closure.shift (d : Nat) (c : Closure) : Closure := { c with scope := c.scope + d }

mutual
/-- The value as if the scopes of its functions were `d` further in. -/
def Value.shift (d : Nat) : Value → Value
  | .unit => .unit
  | .int n => .int n
  | .float x => .float x
  | .string s => .string s
  | .bool b => .bool b
  | .array items => .array (Value.shiftItems d items)
  | .closure c => .closure (c.shift d)
  | .builtin f => .builtin f
def Value.shiftItems (d : Nat) : List Value → List Value
  | [] => []
  | v :: rest => v.shift d :: Value.shiftItems d rest
end

mutual
/-- Moved by nothing, every function stays in its scope. -/
theorem Value.shift_zero : (v : Value) → v.shift 0 = v
  | .unit | .int _ | .float _ | .string _ | .bool _ | .closure _ | .builtin _ => rfl
  | .array items => congrArg Value.array (Value.shiftItems_zero items)
theorem Value.shiftItems_zero : (vs : List Value) → Value.shiftItems 0 vs = vs
  | [] => rfl
  | v :: rest => by rw [Value.shiftItems, Value.shift_zero v, Value.shiftItems_zero rest]
end

mutual
/-- Moving values replaces their functions. -/
theorem Value.shift_eq (d : Nat) : (v : Value) → v.shift d = v.mapFunctions (Closure.shift d)
  | .unit | .int _ | .float _ | .string _ | .bool _ | .closure _ | .builtin _ => rfl
  | .array items => congrArg Value.array (Value.shiftItems_eq d items)
theorem Value.shiftItems_eq (d : Nat) :
    (vs : List Value) → Value.shiftItems d vs = Value.mapItems (Closure.shift d) vs
  | [] => rfl
  | v :: rest => by
    rw [Value.shiftItems, Value.mapItems, Value.shift_eq d v, Value.shiftItems_eq d rest]
end

/-- Only the scope is another one. -/
theorem Closure.hidden_shift (d : Nat) : Closure.Hidden (Closure.shift d) :=
  ⟨fun _ => rfl, fun _ => rfl⟩

@[simp] theorem Value.length_shiftItems (d : Nat) (vs : List Value) :
    (Value.shiftItems d vs).length = vs.length := by
  rw [Value.shiftItems_eq, Value.mapItems_eq, List.length_map]

/-- `Value.pieces_mapFunctions` for functions that have moved. -/
theorem Value.pieces_shift (d : Nat) (v : Value) : (v.shift d).pieces = v.pieces := by
  rw [Value.shift_eq, Value.pieces_mapFunctions (Closure.hidden_shift d)]

@[simp] theorem Value.text_shift (d : Nat) (v : Value) : (v.shift d).text = v.text := by
  rw [Value.shift_eq, Value.text_mapFunctions (Closure.hidden_shift d)]

/-! ## Values that fit a store -/

/-- The function was created in one of the first `n` scopes and leaves the builtins alone. -/
structure Closure.Fits (n : Nat) (c : Closure) : Prop where
  scope : c.scope < n
  parameters : displayName ∉ c.parameters
  body : c.body.Spares displayName

mutual
/-- All functions in the value fit a store of `n` scopes. -/
def Value.Fits (n : Nat) : Value → Prop
  | .unit | .int _ | .float _ | .string _ | .bool _ | .builtin _ => True
  | .array items => Value.AllFit n items
  | .closure c => c.Fits n
def Value.AllFit (n : Nat) : List Value → Prop
  | [] => True
  | v :: rest => v.Fits n ∧ Value.AllFit n rest
end

mutual
/-- More scopes do no harm. -/
theorem Value.Fits.mono {n k : Nat} (hle : n ≤ k) : (v : Value) → v.Fits n → v.Fits k
  | .unit, _ | .int _, _ | .float _, _ | .string _, _ | .bool _, _ | .builtin _, _ => trivial
  | .array items, h => Value.AllFit.mono hle items h
  | .closure _, h => ⟨Nat.lt_of_lt_of_le h.scope hle, h.parameters, h.body⟩
theorem Value.AllFit.mono {n k : Nat} (hle : n ≤ k) :
    (vs : List Value) → Value.AllFit n vs → Value.AllFit k vs
  | [], _ => trivial
  | v :: rest, h => ⟨Value.Fits.mono hle v h.1, Value.AllFit.mono hle rest h.2⟩
end

/-! ## Operations on moved values -/

theorem Value.shift_of_isPlain {v : Value} (d : Nat) (h : v.isPlain) : v.shift d = v := by
  rw [Value.shift_eq, Value.mapFunctions_of_isPlain _ h]

/-- A plain value holds no function. -/
theorem Value.fits_of_isPlain {v : Value} (n : Nat) (h : v.isPlain) : v.Fits n := by
  cases v with
  | int _ | float _ | string _ | bool _ => trivial
  | unit | array _ | closure _ | builtin _ => cases h

namespace Operation

variable (range : Integers) (op : Operation)

/-- `Operation.apply_mapFunctions` for functions that have moved. -/
theorem apply_shift (d : Nat) (a b : Value) :
    op.apply range (a.shift d) (b.shift d) = op.apply range a b := by
  rw [Value.shift_eq, Value.shift_eq, apply_mapFunctions range op (Closure.hidden_shift d)]

theorem negate_shift (d : Nat) (v : Value) : op.negate (v.shift d) = op.negate v := by
  rw [Value.shift_eq, negate_mapFunctions]

end Operation

/-! ## Bindings -/

namespace Bindings

def shift (d : Nat) (b : Bindings) : Bindings := b.map fun (x, v) => (x, v.shift d)

/-- `Bindings.get?_mapValues` for values that have moved. -/
theorem get?_shift (d : Nat) (x : String) (b : Bindings) :
    (b.shift d).get? x = (b.get? x).map (Value.shift d) :=
  get?_mapValues (Value.shift d) x b

theorem insert_shift (d : Nat) (x : String) (v : Value) (b : Bindings) :
    (b.shift d).insert x (v.shift d) = (b.insert x v).shift d :=
  insert_mapValues (Value.shift d) x v b

/-- What is bound after binding a name is the new binding, or was bound before. -/
theorem mem_insert {x : String} {v : Value} {b : Bindings} {p : String × Value}
    (h : p ∈ b.insert x v) : p = (x, v) ∨ p ∈ b := by
  induction b with
  | nil => exact .inl (List.mem_singleton.mp h)
  | cons q b ih =>
    obtain ⟨y, w⟩ := q
    rw [insert] at h
    split at h
    · rcases List.mem_cons.mp h with rfl | h
      · exact .inl rfl
      · exact .inr (List.mem_cons_of_mem _ h)
    · rcases List.mem_cons.mp h with rfl | h
      · exact .inr List.mem_cons_self
      · rcases ih h with h | h
        · exact .inl h
        · exact .inr (List.mem_cons_of_mem _ h)

/-- What is found is one of the bindings. -/
theorem mem_of_get? {x : String} {v : Value} {b : Bindings} (h : b.get? x = some v) :
    (x, v) ∈ b := by
  induction b with
  | nil => cases h
  | cons p b ih =>
    obtain ⟨y, w⟩ := p
    rw [get?, List.lookup_cons] at h
    cases hxy : x == y with
    | true =>
      rw [hxy] at h
      obtain rfl := Option.some.inj h
      rw [beq_iff_eq.mp hxy]
      exact List.mem_cons_self
    | false =>
      rw [hxy] at h
      exact List.mem_cons_of_mem _ (ih h)

end Bindings

/-! ## Stores of a run -/

/-- The scope with the values of its bindings and its parent moved. -/
def Scope.shift (d : Nat) (here : Scope) : Scope :=
  ⟨here.bindings.shift d, here.parent.map (· + d)⟩

/-- Moved by nothing, neither the values nor the parent change. -/
theorem Scope.shift_zero (here : Scope) : here.shift 0 = here := by
  obtain ⟨bindings, parent⟩ := here
  have hbindings : Bindings.shift 0 bindings = bindings := by
    simp [Bindings.shift, Value.shift_zero]
  have hparent : parent.map (· + 0) = parent := by simp
  rw [shift, hbindings, hparent]

/-- The scope with the builtins. -/
def Scope.outermost : Scope := ⟨[(displayName, .builtin .display)], none⟩

/-- `display` is all that the outermost scope binds. -/
theorem Scope.mem_outermost {x : String} {v : Value} (h : (x, v) ∈ Scope.outermost.bindings) :
    x = displayName ∧ v = .builtin .display :=
  Prod.mk.inj (List.mem_singleton.mp h)

/-- The `k`-th of `n` scopes: it lies in an older one and leaves the builtins alone. -/
structure Scope.Inner (n k : Nat) (here : Scope) : Prop where
  parent : ∃ p < k, here.parent = some p
  bindings : ∀ b ∈ here.bindings, b.1 ≠ displayName ∧ b.2.Fits n

/-- More scopes do no harm to the values (`Value.Fits.mono`). -/
theorem Scope.Inner.mono {n n' k : Nat} {here : Scope} (h : here.Inner n k) (hle : n ≤ n') :
    here.Inner n' k :=
  ⟨h.parent, fun b hb => ⟨(h.bindings b hb).1, Value.Fits.mono hle _ (h.bindings b hb).2⟩⟩

namespace Store

/-- The scopes of a run of a program that leaves the builtins alone. -/
structure Sane (s : Store) : Prop where
  outermost : s.scopes[0]? = some .outermost
  inner : ∀ k here, 0 < k → s.scopes[k]? = some here → here.Inner s.scopes.size k

/-- The second store has `d` more scopes without bindings below the outermost one. -/
structure Embeds (d : Nat) (s s' : Store) : Prop where
  size : s'.scopes.size = s.scopes.size + d
  outermost : s'.scopes[0]? = some .outermost
  filler : ∀ i < d, s'.scopes[i + 1]? = some ⟨[], some i⟩
  inner : ∀ k, 0 < k → s'.scopes[k + d]? = s.scopes[k]?.map (Scope.shift d)

/-- Without more scopes in between nothing moves (`Scope.shift_zero`). -/
theorem Sane.embeds_self {s : Store} (h : s.Sane) : s.Embeds 0 s where
  size := rfl
  outermost := h.outermost
  filler := fun i hi => absurd hi (Nat.not_lt_zero i)
  inner := fun k _ => by
    cases s.scopes[k]? with
    | none => rfl
    | some here => exact congrArg some here.shift_zero.symm

/-! ### Looking up names -/

section Lookup

variable {s s' : Store} {d : Nat} {x : String}

/-- The search ends here, since the outermost scope has no parent. -/
theorem resolve?_outermost (h : s.scopes[0]? = some .outermost) :
    s.resolve? 0 x = if x = displayName then some 0 else none := by
  rw [resolve?, h]
  by_cases hx : x = displayName
  · simp [hx, Scope.outermost, Bindings.get?]
  · have hne : (x == displayName) = false := beq_eq_false_iff_ne.mpr hx
    simp [hx, hne, Scope.outermost, Bindings.get?, List.lookup_cons]

/-- By induction on the scopes in between, which bind nothing and lead to the one before. -/
theorem Embeds.resolve?_filler (h : s.Embeds d s') (i : Nat) (hi : i ≤ d) :
    s'.resolve? i x = s'.resolve? 0 x := by
  induction i with
  | zero => rfl
  | succ i ih =>
    rw [resolve?, h.filler i hi, ← ih (by omega)]
    simp [Bindings.get?]

/-- Where a scope stands in the larger store. -/
def moved (d owner : ScopeId) : ScopeId := if owner = 0 then 0 else owner + d

/-- A name is found in the corresponding scope. The induction is on the chain of parents, which
leads to older scopes only. -/
theorem Embeds.resolve?_shift (hs : s.Sane) (h : s.Embeds d s') (scope : ScopeId)
    (hscope : scope < s.scopes.size) :
    s'.resolve? (scope + d) x = (s.resolve? scope x).map (moved d) := by
  induction scope using Nat.strongRecOn with
  | ind scope ih =>
    rcases Nat.eq_zero_or_pos scope with rfl | hpos
    · rw [Nat.zero_add, h.resolve?_filler d (Nat.le_refl d), resolve?_outermost h.outermost,
        resolve?_outermost hs.outermost]
      split <;> rfl
    -- an inner scope has moved, and its parent with it
    · have hhere : s.scopes[scope]? = some s.scopes[scope] := Array.getElem?_eq_getElem hscope
      obtain ⟨⟨p, hp, hparent⟩, _⟩ := hs.inner scope _ hpos hhere
      rw [resolve?, resolve?, h.inner scope hpos, hhere]
      simp only [Option.map_some, Scope.shift, Bindings.get?_shift, Option.isSome_map, hparent]
      split
      · simp [moved, Nat.ne_of_gt hpos]
      · simp only [if_pos (Nat.add_lt_add_right hp d)]
        exact ih p hp (Nat.lt_trans hp hscope)

/-- In every scope the builtin is found. -/
theorem Sane.resolve?_display (hs : s.Sane) (scope : ScopeId) (hscope : scope < s.scopes.size) :
    s.resolve? scope displayName = some 0 := by
  induction scope using Nat.strongRecOn with
  | ind scope ih =>
    rcases Nat.eq_zero_or_pos scope with rfl | hpos
    · rw [resolve?_outermost hs.outermost, if_pos rfl]
    · have hhere : s.scopes[scope]? = some s.scopes[scope] := Array.getElem?_eq_getElem hscope
      obtain ⟨⟨p, hp, hparent⟩, hbindings⟩ := hs.inner scope _ hpos hhere
      -- no inner scope binds the name of the builtin
      have hnone : s.scopes[scope].bindings.get? displayName = none := by
        cases hget : s.scopes[scope].bindings.get? displayName with
        | none => rfl
        | some v => exact absurd rfl (hbindings _ (Bindings.mem_of_get? hget)).1
      rw [resolve?, hhere]
      simp only [hnone, Option.isSome_none, Bool.false_eq_true, if_false, hparent, if_pos hp]
      exact ih p hp (Nat.lt_trans hp hscope)

/-- By `resolve?_display` it is the outermost scope that is looked at. -/
theorem Sane.get?_display (hs : s.Sane) (scope : ScopeId) (hscope : scope < s.scopes.size) :
    s.get? scope displayName = some (.builtin .display) := by
  rw [get?, hs.resolve?_display scope hscope, Option.bind_eq_bind, Option.bind_some, hs.outermost]
  rfl

/-- A name that is found stands among the bindings of a scope on the chain. -/
theorem mem_of_resolve? (scope : ScopeId) {owner : ScopeId} (h : s.resolve? scope x = some owner) :
    ∃ here v, s.scopes[owner]? = some here ∧ here.bindings.get? x = some v := by
  induction scope using Nat.strongRecOn with
  | ind scope ih =>
    rw [resolve?] at h
    cases hhere : s.scopes[scope]? with
    | none => simp [hhere] at h
    | some here =>
      simp only [hhere] at h
      split at h
      next hsome =>
        obtain rfl := Option.some.inj h
        obtain ⟨v, hv⟩ := Option.isSome_iff_exists.mp hsome
        exact ⟨here, v, hhere, hv⟩
      next =>
        split at h
        · cases h
        · split at h
          next hlt => exact ih _ hlt h
          next => cases h

/-- No other name than that of the builtin is found in the outermost scope. -/
theorem Sane.pos_of_resolve? (hs : s.Sane) (scope : ScopeId) {owner : ScopeId}
    (h : s.resolve? scope x = some owner) (hx : x ≠ displayName) :
    0 < owner ∧ owner < s.scopes.size := by
  obtain ⟨here, v, hhere, hv⟩ := mem_of_resolve? scope h
  refine ⟨Nat.pos_of_ne_zero ?_, (Array.getElem?_eq_some_iff.mp hhere).1⟩
  rintro rfl
  rw [hs.outermost] at hhere
  obtain rfl := Option.some.inj hhere
  exact hx (Scope.mem_outermost (Bindings.mem_of_get? hv)).1

/-- A name has the corresponding value in the larger store. -/
theorem Embeds.get?_shift (hs : s.Sane) (h : s.Embeds d s') (scope : ScopeId)
    (hscope : scope < s.scopes.size) :
    s'.get? (scope + d) x = (s.get? scope x).map (Value.shift d) := by
  rw [get?, get?, h.resolve?_shift hs scope hscope]
  cases hresolve : s.resolve? scope x with
  | none => rfl
  | some owner =>
    show (s'.scopes[moved d owner]?.bind fun here => here.bindings.get? x) =
      (s.scopes[owner]?.bind fun here => here.bindings.get? x).map (Value.shift d)
    -- the outermost scope stays where it is, and all others have moved
    rcases Nat.eq_zero_or_pos owner with rfl | hpos
    · rw [show moved d 0 = 0 from rfl, h.outermost, hs.outermost]
      show Bindings.get? x _ = (Bindings.get? x _).map _
      rw [← Bindings.get?_shift]
      rfl
    · rw [show moved d owner = owner + d from if_neg (Nat.ne_of_gt hpos), h.inner owner hpos]
      cases s.scopes[owner]? with
      | none => rfl
      | some here => exact Bindings.get?_shift d x here.bindings

/-- What is found is bound in some scope, and the values of all scopes fit. -/
theorem Sane.fits_of_get? (hs : s.Sane) {scope : ScopeId} {v : Value}
    (h : s.get? scope x = some v) : v.Fits s.scopes.size := by
  cases hresolve : s.resolve? scope x with
  | none => simp [get?, hresolve] at h
  | some owner =>
    obtain ⟨here, w, hhere, hw⟩ := mem_of_resolve? scope hresolve
    have hv : some v = some w := by
      rw [← h, get?, hresolve, Option.bind_eq_bind, Option.bind_some, hhere]
      exact hw
    obtain rfl := Option.some.inj hv
    have hmem := Bindings.mem_of_get? hw
    -- in the outermost scope there is only the builtin
    rcases Nat.eq_zero_or_pos owner with rfl | hpos
    · rw [hs.outermost] at hhere
      obtain rfl := Option.some.inj hhere
      rw [(Scope.mem_outermost hmem).2]
      trivial
    · exact ((hs.inner owner here hpos hhere).bindings _ hmem).2

end Lookup

/-! ### Changing a store -/

section Change

variable {s s' : Store} {d : Nat}

/-- The new scope is the youngest one and binds nothing. -/
theorem Sane.newScope (hs : s.Sane) {p : ScopeId} (hp : p < s.scopes.size) :
    (s.newScope (some p)).2.Sane := by
  have hpos : 0 < s.scopes.size := Nat.zero_lt_of_lt hp
  refine ⟨?_, fun k here hk hhere => ?_⟩
  · show (s.scopes.push _)[0]? = _
    rw [Array.getElem?_push, if_neg (Nat.ne_of_lt hpos)]
    exact hs.outermost
  · change (s.scopes.push _)[k]? = _ at hhere
    show here.Inner (s.scopes.push _).size k
    rw [Array.size_push]
    rw [Array.getElem?_push] at hhere
    split at hhere
    -- the new scope is empty
    next hlast =>
      obtain rfl := Option.some.inj hhere
      exact ⟨⟨p, hlast ▸ hp, rfl⟩, List.forall_mem_nil _⟩
    next => exact (hs.inner k here hk hhere).mono (Nat.le_succ _)

/-- The new scope is the last one in both stores. -/
theorem Embeds.newScope (h : s.Embeds d s') (hpos : 0 < s.scopes.size) (p : ScopeId) :
    (s.newScope (some p)).2.Embeds d (s'.newScope (some (p + d))).2 := by
  have hsize := h.size
  refine ⟨?_, ?_, fun i hi => ?_, fun k hk => ?_⟩
  · show (s'.scopes.push _).size = (s.scopes.push _).size + d
    rw [Array.size_push, Array.size_push]
    omega
  · show (s'.scopes.push _)[0]? = _
    rw [Array.getElem?_push, if_neg (by omega)]
    exact h.outermost
  · show (s'.scopes.push _)[i + 1]? = _
    rw [Array.getElem?_push, if_neg (by omega)]
    exact h.filler i hi
  · show (s'.scopes.push _)[k + d]? = (s.scopes.push _)[k]?.map _
    rw [Array.getElem?_push, Array.getElem?_push]
    by_cases hlast : k = s.scopes.size
    · rw [if_pos hlast, if_pos (by omega)]
      rfl
    · rw [if_neg hlast, if_neg (by omega)]
      exact h.inner k hk

/-- The binding is in an inner scope, and neither its name nor its value breaks `Scope.Inner`. -/
theorem Sane.define (hs : s.Sane) {scope : Nat} {x : String} {v : Value} (hpos : 0 < scope)
    (hx : x ≠ displayName) (hv : v.Fits s.scopes.size) : (s.define scope x v).Sane := by
  refine ⟨?_, fun k here hk hhere => ?_⟩
  · show (s.scopes.modify scope _)[0]? = _
    rw [Array.getElem?_modify, if_neg (Nat.ne_of_gt hpos)]
    exact hs.outermost
  · change (s.scopes.modify scope _)[k]? = _ at hhere
    show here.Inner (s.scopes.modify scope _).size k
    rw [Array.size_modify]
    rw [Array.getElem?_modify] at hhere
    split at hhere
    next hscope =>
      obtain ⟨old, hold, rfl⟩ := Option.map_eq_some_iff.mp hhere
      have hinner := hs.inner k old hk hold
      refine ⟨hinner.parent, fun b hb => ?_⟩
      -- a binding of the scope is the new one, or was there before
      rcases Bindings.mem_insert hb with rfl | hb
      · exact ⟨hx, hv⟩
      · exact hinner.bindings b hb
    next => exact hs.inner k here hk hhere

/-- The same binding in the scope that has moved. The scopes in between and the outermost one are
not touched, as `0 < scope`. -/
theorem Embeds.define (h : s.Embeds d s') {scope : Nat} (hpos : 0 < scope) (x : String)
    (v : Value) : (s.define scope x v).Embeds d (s'.define (scope + d) x (v.shift d)) := by
  refine ⟨?_, ?_, fun i hi => ?_, fun k hk => ?_⟩
  · show (s'.scopes.modify (scope + d) _).size = (s.scopes.modify scope _).size + d
    rw [Array.size_modify, Array.size_modify]
    exact h.size
  · show (s'.scopes.modify (scope + d) _)[0]? = _
    rw [Array.getElem?_modify, if_neg (by omega)]
    exact h.outermost
  · show (s'.scopes.modify (scope + d) _)[i + 1]? = _
    rw [Array.getElem?_modify, if_neg (by omega)]
    exact h.filler i hi
  · show (s'.scopes.modify (scope + d) _)[k + d]? = (s.scopes.modify scope _)[k]?.map _
    rw [Array.getElem?_modify, Array.getElem?_modify, h.inner k hk]
    -- only this scope is changed, in both stores
    by_cases hscope : scope = k
    · rw [if_pos hscope, if_pos (by omega)]
      cases s.scopes[k]? with
      | none => rfl
      | some here =>
        have hinsert := Bindings.insert_shift d x v here.bindings
        exact congrArg (fun b => some (Scope.mk b (here.parent.map (· + d)))) hinsert
    · rw [if_neg hscope, if_neg (by omega)]

end Change

end Store

end SimpleLang
