import Mathlib
import SimpleLang.Store

/-!
# Laws of scopes

Many chains pass through one scope, so a name that is bound or assigned in one place changes its
value in others too, and where it does is not to be seen from the operation alone. Here it is said
for every store that comes about from a first scope by creating inner scopes, binding names and
assigning to them.

* `Store.Chain`: the scopes from one outwards to the last. `Store.Reaches x i j`: the chain of `i`
  comes to `j` before any scope that binds `x`. `Store.Owns x i j`: so it does, and `j` binds `x`.
  All three go along the parents as they are stored.
* `Store.Inward`: parents are older than their children. Every operation keeps that
  (`Store.Built.inward`). So chains are finite, and looking up a name is looking at the scope itself
  and then at the one around it (`Store.Inward.get?_eq`).
* `Store.Sets s s' v P`: from `s` to `s'` the names that `P` picks have got the value `v`, and all
  others have kept theirs. `Store.Inward.sets_define` says this of binding a name. Assigning is
  binding it in the scope that owns it (`Store.Inward.owns_iff`).
* `environment_laws` puts them together.
-/

namespace SimpleLang

namespace Bindings

/-- `List.lookup` compares by `==`, here it is a proposition. -/
theorem get?_cons (x y : String) (v : Value) (b : Bindings) :
    get? y ((x, v) :: b) = if y = x then some v else b.get? y := by
  rw [get?, List.lookup_cons]
  by_cases hy : y = x
  · rw [if_pos hy, beq_iff_eq.mpr hy]
  · rw [if_neg hy, beq_eq_false_iff_ne.mpr hy]
    rfl

/-- A name that is bound anew has the new value, and no other name is affected. -/
theorem get?_insert (x y : String) (v : Value) (b : Bindings) :
    (b.insert x v).get? y = if y = x then some v else b.get? y := by
  induction b with
  | nil => exact get?_cons x y v []
  | cons p b ih =>
    obtain ⟨z, w⟩ := p
    rw [insert, get?_cons]
    by_cases hz : z = x
    · rw [if_pos hz, get?_cons, hz]
      split <;> rfl
    · rw [if_neg hz, get?_cons, ih]
      by_cases hyz : y = z
      · rw [if_pos hyz, if_pos hyz, if_neg (hyz ▸ hz)]
      · rw [if_neg hyz, if_neg hyz]

end Bindings

namespace Store

variable {s : Store} {x : String} {i j : ScopeId}

/-! ## Chains -/

/-- What the scope itself binds a name to. -/
def own? (s : Store) (i : ScopeId) (x : String) : Option Value :=
  s.scopes[i]?.bind (·.bindings.get? x)

def outer? (s : Store) (i : ScopeId) : Option ScopeId :=
  s.scopes[i]?.bind Scope.parent

/-- The scopes from `i` outwards, each the parent of the one before it, to one without a parent. -/
inductive Chain (s : Store) : ScopeId → List ScopeId → Prop where
  | last {i : ScopeId} (hi : i < s.scopes.size) (hlast : s.outer? i = none) : Chain s i [i]
  | cons {i j : ScopeId} {rest : List ScopeId} (houter : s.outer? i = some j)
      (hrest : Chain s j rest) : Chain s i (i :: rest)

/-- The chain of `i` comes to `j`, and no scope before `j` binds the name. -/
inductive Reaches (s : Store) (x : String) : ScopeId → ScopeId → Prop where
  | here {i : ScopeId} (hi : i < s.scopes.size) : Reaches s x i i
  | outward {i k j : ScopeId} (hfree : s.own? i x = none) (houter : s.outer? i = some k)
      (hreach : Reaches s x k j) : Reaches s x i j

/-- In the scope `i` the name means its binding in the scope `j`. -/
def Owns (s : Store) (x : String) (i j : ScopeId) : Prop :=
  s.Reaches x i j ∧ (s.own? j x).isSome

/-- Every parent is older than its children. -/
def Inward (s : Store) : Prop := ∀ i j, s.outer? i = some j → j < i

/-- Only scopes that exist bind anything. -/
theorem lt_size_of_own? (h : (s.own? i x).isSome) : i < s.scopes.size := by
  obtain ⟨v, hv⟩ := Option.isSome_iff_exists.mp h
  obtain ⟨here, hhere, _⟩ := Option.bind_eq_some_iff.mp hv
  exact (Array.getElem?_eq_some_iff.mp hhere).1

/-- A name is looked up in the scope that it resolves to. -/
theorem get?_eq_bind (s : Store) (i : ScopeId) (x : String) :
    s.get? i x = (s.resolve? i x).bind (s.own? · x) := rfl

namespace Inward

variable (hs : s.Inward)

include hs

/-- `Inward` makes the numbers along a chain decrease, so it comes to an end. -/
theorem exists_chain (i : ScopeId) (hi : i < s.scopes.size) : ∃ chain, s.Chain i chain := by
  -- on the scope's own number, since that of its parent is smaller
  induction i using Nat.strongRecOn with
  | ind i ih =>
    cases houter : s.outer? i with
    | none => exact ⟨[i], .last hi houter⟩
    | some j =>
      have hlt := hs i j houter
      obtain ⟨rest, hrest⟩ := ih j hlt (Nat.lt_trans hlt hi)
      exact ⟨i :: rest, .cons houter hrest⟩

/-- Since parents are older, the search for a name never ends before its chain does. -/
theorem resolve?_eq (i : ScopeId) (x : String) : s.resolve? i x =
    if (s.own? i x).isSome then some i else (s.outer? i).bind (s.resolve? · x) := by
  have hi := hs i
  rw [resolve?]
  unfold own? outer? at *
  cases hhere : s.scopes[i]? with
  | none => rfl
  | some here =>
    rw [hhere] at hi
    simp only [Option.bind_some] at hi ⊢
    split
    · rfl
    · cases hparent : here.parent with
      | none => rfl
      -- the search goes on only to an older scope, and the parent is one
      | some j => exact if_pos (hi j hparent)

/-- The same for `get?`, which is how a chain is searched: the scope itself comes before the one
around it. -/
theorem get?_eq (i : ScopeId) (x : String) :
    s.get? i x = (s.own? i x).or ((s.outer? i).bind (s.get? · x)) := by
  rw [get?_eq_bind, hs.resolve?_eq]
  cases hown : s.own? i x with
  | some v => exact hown
  | none => exact Option.bind_assoc ..

/-- The search for a name finds the scope that owns it. -/
theorem owns_iff : s.resolve? i x = some j ↔ s.Owns x i j := by
  constructor
  · intro h
    induction i using Nat.strongRecOn with
    | ind i ih =>
      rw [hs.resolve?_eq] at h
      split at h
      next hown =>
        obtain rfl := Option.some.inj h
        exact ⟨.here (lt_size_of_own? hown), hown⟩
      next hown =>
        -- the search goes on in the parent
        obtain ⟨k, houter, hk⟩ := Option.bind_eq_some_iff.mp h
        obtain ⟨hreach, hj⟩ := ih k (hs i k houter) hk
        exact ⟨.outward (Option.not_isSome_iff_eq_none.mp hown) houter hreach, hj⟩
  · rintro ⟨hreach, hown⟩
    induction hreach with
    | here => rw [hs.resolve?_eq, if_pos hown]
    | outward hfree houter _ ih =>
      rw [hs.resolve?_eq, hfree, houter]
      exact ih hown

end Inward

/-! ## Binding a name -/

/-- Only the one name in the one scope gets a new value. -/
theorem own?_define (hi : i < s.scopes.size) (x : String) (v : Value) (j : ScopeId) (y : String) :
    (s.define i x v).own? j y = if j = i ∧ y = x then some v else s.own? j y := by
  unfold own? define
  rw [Array.getElem?_modify]
  by_cases hj : j = i
  · subst hj
    rw [if_pos rfl, Array.getElem?_eq_getElem hi]
    simp only [Option.map_some, Option.bind_some, Bindings.get?_insert, true_and]
  · rw [if_neg (Ne.symm hj), if_neg fun h => hj h.1]

/-- Binding a name moves no scope. -/
theorem outer?_define (s : Store) (i : ScopeId) (x : String) (v : Value) (j : ScopeId) :
    (s.define i x v).outer? j = s.outer? j := by
  unfold outer? define
  rw [Array.getElem?_modify]
  split
  · cases s.scopes[j]? <;> rfl
  · rfl

/-- `Inward` is about parents, which stay (`outer?_define`). -/
theorem Inward.define (hs : s.Inward) (i : ScopeId) (x : String) (v : Value) :
    (s.define i x v).Inward := by
  intro j k hk
  rw [outer?_define] at hk
  exact hs j k hk

/-- From `s` to `s'` the names that `P` picks have got the value `v`, each in its scope, and all
others have kept theirs. -/
def Sets (s s' : Store) (v : Value) (P : ScopeId → String → Prop) : Prop :=
  ∀ i x, (P i x → s'.get? i x = some v) ∧ (¬ P i x → s'.get? i x = s.get? i x)

/-- By induction on the chain, from the scope that binds the name outwards. -/
theorem get?_define_of_reaches (hs : s.Inward) (hreach : s.Reaches x j i) (hi : i < s.scopes.size)
    (v : Value) : (s.define i x v).get? j x = some v := by
  have hs' := hs.define i x v
  induction hreach with
  | here =>
    rw [hs'.get?_eq, own?_define hi, if_pos ⟨rfl, rfl⟩]
    rfl
  | @outward j k i hfree houter _ ih =>
    rw [hs'.get?_eq, own?_define hi, outer?_define, hfree, houter]
    -- on the way out only the scope itself can have been given the name
    split
    · rfl
    · exact ih hi hs'

/-- By induction on the number of the scope, since the chain does not come to `i` and there is no
`Reaches` to go along. -/
theorem get?_define_of_not_reaches (hs : s.Inward) (hi : i < s.scopes.size) (v : Value)
    {y : String} (h : ¬ (y = x ∧ s.Reaches x j i)) :
    (s.define i x v).get? j y = s.get? j y := by
  have hs' := hs.define i x v
  induction j using Nat.strongRecOn with
  | ind j ih =>
    -- were it the scope itself with the name itself, the chain would reach it at once
    have hown : (s.define i x v).own? j y = s.own? j y := by
      rw [own?_define hi, if_neg]
      rintro ⟨rfl, rfl⟩
      exact h ⟨rfl, .here hi⟩
    rw [hs'.get?_eq, hs.get?_eq, hown, outer?_define]
    cases hfree : s.own? j y with
    | some w => rfl
    | none =>
      cases houter : s.outer? j with
      | none => rfl
      | some k =>
        refine ih k (hs j k houter) ?_
        rintro ⟨rfl, hreach⟩
        exact h ⟨rfl, .outward hfree houter hreach⟩

/-- A name that is bound in a scope changes where the chain comes to the scope before it finds
another binding of the name, and nowhere else. -/
theorem Inward.sets_define (hs : s.Inward) (hi : i < s.scopes.size) (x : String) (v : Value) :
    s.Sets (s.define i x v) v fun j y => y = x ∧ s.Reaches x j i := by
  intro j y
  refine ⟨?_, get?_define_of_not_reaches hs hi v⟩
  rintro ⟨rfl, hreach⟩
  exact get?_define_of_reaches hs hreach hi v

/-! ## Stores that are built -/

/-- The store after an assignment, which leaves it as it is if the name is not bound. -/
def assigned (s : Store) (i : ScopeId) (x : String) (v : Value) : Store :=
  (s.assign? i x v).getD s

/-- The store comes about from a first scope by creating scopes inside others, binding names and
assigning to them, in any order and any number. -/
inductive Built : Store → Prop where
  | first : Built (empty.newScope none).2
  | child {s : Store} {i : ScopeId} (hs : Built s) (hi : i < s.scopes.size) :
      Built (s.newScope (some i)).2
  | define {s : Store} {i : ScopeId} (hs : Built s) (hi : i < s.scopes.size) (x : String)
      (v : Value) : Built (s.define i x v)
  | assign {s : Store} {i : ScopeId} (hs : Built s) (hi : i < s.scopes.size) (x : String)
      (v : Value) : Built (s.assigned i x v)

/-- The new scope is the last one. -/
theorem outer?_newScope (s : Store) (parent : Option ScopeId) (j : ScopeId) :
    (s.newScope parent).2.outer? j = if j = s.scopes.size then parent else s.outer? j := by
  unfold outer? newScope
  rw [Array.getElem?_push]
  split <;> rfl

/-- `resolve?` finds the owner (`Inward.owns_iff`). -/
theorem assigned_of_owns (hs : s.Inward) (h : s.Owns x i j) (v : Value) :
    s.assigned i x v = s.define j x v := by
  rw [assigned, assign?, hs.owns_iff.mpr h]
  rfl

/-- An assignment is nothing or `define`, so what `define` keeps it keeps. -/
theorem assigned_eq (s : Store) (i : ScopeId) (x : String) (v : Value) :
    s.assigned i x v = s ∨ ∃ j, s.assigned i x v = s.define j x v := by
  unfold assigned assign?
  cases s.resolve? i x with
  | none => exact .inl rfl
  | some j => exact .inr ⟨j, rfl⟩

/-- No operation puts a scope inside a younger one. -/
theorem Built.inward (h : Built s) : s.Inward := by
  induction h with
  | first =>
    intro j k hk
    rw [outer?_newScope] at hk
    split at hk <;> cases hk
  | @child s i _ hi ih =>
    intro j k hk
    rw [outer?_newScope] at hk
    split at hk
    next hj =>
      -- the new scope has its parent before it
      obtain rfl := Option.some.inj hk
      exact hj ▸ hi
    next => exact ih j k hk
  | define _ _ x v ih => exact ih.define _ x v
  | @assign s i _ _ x v ih =>
    rcases assigned_eq s i x v with heq | ⟨j, heq⟩
    · rw [heq]
      exact ih
    · rw [heq]
      exact ih.define j x v

/-- A name has a value where some scope owns it, and there alone an assignment succeeds. -/
theorem isSome_assign? (s : Store) (i : ScopeId) (x : String) (v : Value) :
    (s.assign? i x v).isSome = (s.resolve? i x).isSome := by
  unfold assign?
  exact Option.isSome_map

/-- The scope that a name resolves to binds it. -/
theorem Inward.isSome_get? (hs : s.Inward) (i : ScopeId) (x : String) :
    (s.get? i x).isSome = (s.resolve? i x).isSome := by
  rw [get?_eq_bind]
  cases howner : s.resolve? i x with
  | none => rfl
  | some j => exact (hs.owns_iff.mp howner).2

/-- With `Owns` in place of the search. -/
theorem Inward.get?_eq_some_iff (hs : s.Inward) {v : Value} :
    s.get? i x = some v ↔ ∃ j, s.Owns x i j ∧ s.own? j x = some v := by
  rw [get?_eq_bind, Option.bind_eq_some_iff]
  simp only [hs.owns_iff]

/-- A name that is assigned changes where it means the same binding, and nowhere else. -/
theorem Inward.sets_assigned (hs : s.Inward) (v : Value) (h : (s.resolve? i x).isSome) :
    s.Sets (s.assigned i x v) v fun j y => y = x ∧ ∃ k, s.Owns x i k ∧ s.Owns x j k := by
  obtain ⟨k, hk⟩ := Option.isSome_iff_exists.mp h
  have hk := hs.owns_iff.mp hk
  -- only one scope owns the name from `i`, and it binds the name, so to reach it is to mean it
  have hsame (j : ScopeId) : (∃ k, s.Owns x i k ∧ s.Owns x j k) ↔ s.Reaches x j k := by
    constructor
    · rintro ⟨k', hi, hj⟩
      have heq := (hs.owns_iff.mpr hi).symm.trans (hs.owns_iff.mpr hk)
      exact Option.some.inj heq ▸ hj.1
    · exact fun hreach => ⟨k, hk, hreach, hk.2⟩
  simp only [hsame]
  rw [assigned_of_owns hs hk]
  exact hs.sets_define (lt_size_of_own? hk.2) x v

end Store

/-! ## The laws -/

/-- In a store that is built from a first scope all chains are finite, and a name means the value
that the first scope on the chain binds it to. An assignment succeeds just if the name has a value.
If it fails nothing changes; if it succeeds the name changes exactly where it means the same
binding. A name that is bound in a scope changes exactly where the chain comes to that scope with no
binding of the name before it. -/
theorem environment_laws {s : Store} (hs : s.Built) :
    (∀ i < s.scopes.size, ∃ chain, s.Chain i chain) ∧
    (∀ i x v, s.get? i x = some v ↔ ∃ j, s.Owns x i j ∧ s.own? j x = some v) ∧
    (∀ i x v, (s.assign? i x v).isSome ↔ (s.get? i x).isSome) ∧
    (∀ i x v, s.assign? i x v = none → s.Sets (s.assigned i x v) v fun _ _ => False) ∧
    (∀ i x v, (s.assign? i x v).isSome →
      s.Sets (s.assigned i x v) v fun j y => y = x ∧ ∃ k, s.Owns x i k ∧ s.Owns x j k) ∧
    (∀ i x v, i < s.scopes.size →
      s.Sets (s.define i x v) v fun j y => y = x ∧ s.Reaches x j i) := by
  have hs := hs.inward
  refine ⟨hs.exists_chain, fun i x v => hs.get?_eq_some_iff, fun i x v => ?_, fun i x v h => ?_,
    fun i x v h => ?_, fun i x v hi => hs.sets_define hi x v⟩
  · rw [Store.isSome_assign?, hs.isSome_get?]
  · intro j y
    rw [Store.assigned, h]
    exact ⟨False.elim, fun _ => rfl⟩
  · rw [Store.isSome_assign?] at h
    exact hs.sets_assigned v h

/-- A scope that binds `x` again, between one that binds it and one that does not. -/
def shadowingScopes : Store :=
  let outer := (Store.empty.newScope none).2.define 0 "x" (.int 1)
  let middle := (outer.newScope (some 0)).2.define 1 "x" (.int 9)
  (middle.newScope (some 1)).2

theorem built_shadowingScopes : shadowingScopes.Built := by
  have houter := Store.Built.first.define (i := 0) (by decide) "x" (.int 1)
  have hmiddle := (houter.child (i := 0) (by decide)).define (i := 1) (by decide) "x" (.int 9)
  exact hmiddle.child (by decide)

/-- From the innermost scope the assignment reaches the middle one and not the outermost. -/
theorem environment_laws_shadowingScopes : shadowingScopes.Built ∧
    (shadowingScopes.assigned 2 "x" (.int 5)).get? 1 "x" = some (.int 5) ∧
    (shadowingScopes.assigned 2 "x" (.int 5)).get? 0 "x" = shadowingScopes.get? 0 "x" := by
  have howns (i : ScopeId) (hi : i = 1 ∨ i = 2) : shadowingScopes.Owns "x" i 1 := by
    have hmiddle : shadowingScopes.Reaches "x" 1 1 := .here (by decide)
    rcases hi with rfl | rfl
    · exact ⟨hmiddle, rfl⟩
    · exact ⟨.outward rfl rfl hmiddle, rfl⟩
  obtain ⟨_, _, _, _, hassign, _⟩ := environment_laws built_shadowingScopes
  have hsets := hassign 2 "x" (.int 5) (by
    -- one that owns the name, so the assignment succeeds
    rw [Store.isSome_assign?, built_shadowingScopes.inward.owns_iff.mpr (howns 2 (.inr rfl))]
    rfl)
  refine ⟨built_shadowingScopes, (hsets 1 "x").1 ⟨rfl, 1, howns 2 (.inr rfl), howns 1 (.inl rfl)⟩,
    (hsets 0 "x").2 ?_⟩
  -- the outermost scope has no parent, so its chain does not come to the middle one
  rintro ⟨-, k, hk, hout⟩
  have h2 := built_shadowingScopes.inward.owns_iff.mpr hk
  rw [built_shadowingScopes.inward.owns_iff.mpr (howns 2 (.inr rfl))] at h2
  cases h2
  cases hout.1 with
  | outward _ houter _ => cases houter

end SimpleLang
