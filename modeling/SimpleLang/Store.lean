import SimpleLang.Value

/-!
# Scopes

A `Store` holds all scopes of a run. A scope binds names to values and has a parent, so from every
scope a chain leads outwards. Scopes are numbered in the order of their creation: a parent is older
than its children, and a chain is therefore finite.

A name means its innermost binding on the chain, which `Store.resolve?` finds. Reading and
assigning both go through it.
-/

namespace SimpleLang

abbrev Bindings := List (String × Value)

/-- Binds a name, in place of an earlier binding of it, so that a scope binds each name once. -/
def Bindings.insert (x : String) (v : Value) : Bindings → Bindings
  | [] => [(x, v)]
  | (y, w) :: rest => if y = x then (x, v) :: rest else (y, w) :: Bindings.insert x v rest

def Bindings.get? (x : String) (b : Bindings) : Option Value := b.lookup x

structure Scope where
  bindings : Bindings
  parent : Option ScopeId

structure Store where
  scopes : Array Scope

namespace Store

def empty : Store := ⟨#[]⟩

/-- A new scope without bindings, with the next number. -/
def newScope (s : Store) (parent : Option ScopeId) : ScopeId × Store :=
  (s.scopes.size, ⟨s.scopes.push ⟨[], parent⟩⟩)

/-- The innermost scope on the chain from `scope` that binds a name. That the parent is older is
tested, so the chain ends in whatever store. -/
def resolve? (s : Store) (scope : ScopeId) (x : String) : Option ScopeId :=
  match s.scopes[scope]? with
  | none => none
  | some here =>
    if (here.bindings.get? x).isSome then some scope
    else
      match here.parent with
      | none => none
      | some outer => if outer < scope then s.resolve? outer x else none
termination_by scope

/-- The value of a name in a scope, at the binding that `resolve?` finds. -/
def get? (s : Store) (scope : ScopeId) (x : String) : Option Value := do
  let owner ← s.resolve? scope x
  let here ← s.scopes[owner]?
  here.bindings.get? x

/-- Binds a name in a scope itself, hiding a binding further out. -/
def define (s : Store) (scope : ScopeId) (x : String) (v : Value) : Store :=
  ⟨s.scopes.modify scope fun here => { here with bindings := here.bindings.insert x v }⟩

/-- Gives a new value to the innermost binding of a name, if there is one. -/
def assign? (s : Store) (scope : ScopeId) (x : String) (v : Value) : Option Store :=
  (s.resolve? scope x).map fun owner => s.define owner x v

end Store

end SimpleLang
