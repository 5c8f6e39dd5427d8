import Mathlib
import SimpleLang.Machine.Operator
import SimpleLang.Store

/-!
# Values whose functions are replaced

A running program sees little of a function: its name, and whether it is the same as another one.
If all functions are replaced by others that agree on this, then values show the same texts, are
equal to the same values and are taken by operations in the same way.

* `Value.mapFunctions g`: the value with each function `c` in it replaced by `g c`.
* `Closure.Hidden g`: the replacement keeps what is seen of a function.
* `Operation.apply_mapFunctions`: operations make no difference between a value and the replaced
  one.
* `Bindings.mapValues`, `Store.mapValues`: names are bound and found in the same scopes, whatever
  becomes of their values.
-/

namespace SimpleLang

/-! ## Replacing functions -/

/-- The replacement keeps all that is seen of a function: its serial number and its name. -/
structure Closure.Hidden (g : Closure → Closure) : Prop where
  serial : ∀ c, (g c).serial = c.serial
  name : ∀ c, (g c).name = c.name

mutual
/-- The value with its functions replaced. -/
def Value.mapFunctions (g : Closure → Closure) : Value → Value
  | .unit => .unit
  | .int n => .int n
  | .float x => .float x
  | .string s => .string s
  | .bool b => .bool b
  | .array items => .array (Value.mapItems g items)
  | .closure c => .closure (g c)
  | .builtin f => .builtin f
def Value.mapItems (g : Closure → Closure) : List Value → List Value
  | [] => []
  | v :: rest => v.mapFunctions g :: Value.mapItems g rest
end

/-- `Value.mapItems` is there because `Value.mapFunctions` recurses through lists. In proofs it is a
`List.map`. -/
theorem Value.mapItems_eq (g : Closure → Closure) (vs : List Value) :
    Value.mapItems g vs = vs.map (Value.mapFunctions g) := by
  induction vs with
  | nil => rfl
  | cons v vs ih => rw [Value.mapItems, ih, List.map_cons]

/-- Functions show their names only. -/
theorem Value.pieces_closure_congr {c c' : Closure} (h : c'.name = c.name) :
    (Value.closure c').pieces = (Value.closure c).pieces := by
  obtain ⟨_, name, _, _, _⟩ := c
  obtain ⟨_, name', _, _, _⟩ := c'
  obtain rfl : name' = name := h
  cases name' <;> rfl

mutual
/-- By induction on the value. Only functions differ, and those show their names
(`Value.pieces_closure_congr`). -/
theorem Value.pieces_mapFunctions {g : Closure → Closure} (h : Closure.Hidden g) : (v : Value) →
    (v.mapFunctions g).pieces = v.pieces
  | .unit | .int _ | .float _ | .string _ | .bool _ | .builtin _ => rfl
  | .closure c => Value.pieces_closure_congr (h.name c)
  | .array items => by
    rw [Value.mapFunctions, Value.pieces, Value.pieces, Value.itemPieces_mapItems h items]
theorem Value.itemPieces_mapItems {g : Closure → Closure} (h : Closure.Hidden g) :
    (vs : List Value) → Value.itemPieces (Value.mapItems g vs) = Value.itemPieces vs
  | [] => rfl
  | v :: rest => by
    have hv := Value.pieces_mapFunctions h v
    have hrest := Value.itemPieces_mapItems h rest
    -- among the items a string is quoted, all others show as they do on their own
    cases v with
    | string s => exact congrArg (["\"", s, "\""] :: ·) hrest
    | _ => exact List.cons_eq_cons.mpr ⟨hv, hrest⟩
end

theorem Value.text_mapFunctions {g : Closure → Closure} (h : Closure.Hidden g) (v : Value) :
    (v.mapFunctions g).text = v.text := by
  unfold Value.text
  rw [Value.pieces_mapFunctions h v]

mutual
/-- By induction on the first value. Functions are compared by their serial numbers, which
`Closure.Hidden` keeps. -/
theorem Value.equals_mapFunctions {g : Closure → Closure} (h : Closure.Hidden g) :
    (v w : Value) → (v.mapFunctions g).equals (w.mapFunctions g) = v.equals w
  | .array vs, w => by
    have hitems := Value.equalItems_mapItems h vs
    cases w with
    | array ws => exact hitems ws
    | _ => rfl
  | .closure c, w => by
    cases w with
    | closure c' =>
      show ((g c).serial == (g c').serial) = (c.serial == c'.serial)
      rw [h.serial, h.serial]
    | _ => rfl
  | .unit, w | .int _, w | .float _, w | .string _, w | .bool _, w | .builtin _, w => by
    cases w <;> rfl
theorem Value.equalItems_mapItems {g : Closure → Closure} (h : Closure.Hidden g) :
    (vs ws : List Value) →
    Value.equalItems (Value.mapItems g vs) (Value.mapItems g ws) = Value.equalItems vs ws
  | [], [] | [], _ :: _ | _ :: _, [] => rfl
  | v :: vs, w :: ws => by
    rw [Value.mapItems, Value.mapItems, Value.equalItems, Value.equalItems,
      Value.equals_mapFunctions h v w, Value.equalItems_mapItems h vs ws]
end

/-! ## Operations -/

/-- The values that operations give: they hold no functions. -/
def Value.isPlain : Value → Bool
  | .int _ | .float _ | .string _ | .bool _ => true
  | .unit | .array _ | .closure _ | .builtin _ => false

theorem Value.mapFunctions_of_isPlain (g : Closure → Closure) {v : Value} (h : v.isPlain) :
    v.mapFunctions g = v := by
  cases v with
  | int _ | float _ | string _ | bool _ => rfl
  | unit | array _ | closure _ | builtin _ => cases h

namespace Operation

variable (range : Integers) (op : Operation)

/-- Only numbers and strings are taken, all others by their types. -/
theorem onOperands_mapFunctions (g : Closure → Closure) (a b : Value) :
    op.onOperands range (a.mapFunctions g) (b.mapFunctions g) = op.onOperands range a b := by
  cases a <;> cases b <;> rfl

/-- An operation does not tell values from those whose functions are replaced. -/
theorem apply_mapFunctions {g : Closure → Closure} (h : Closure.Hidden g) (a b : Value) :
    op.apply range (a.mapFunctions g) (b.mapFunctions g) = op.apply range a b := by
  cases op with
  | eq | ne => simp only [apply, Value.equals_mapFunctions h]
  -- a string and anything else are put together as texts
  | add =>
    cases a with
    | string s =>
      exact congrArg (fun t => Except.ok (Value.string (s ++ t))) (Value.text_mapFunctions h b)
    | _ =>
      cases b with
      | string s =>
        exact congrArg (fun t => Except.ok (Value.string (t ++ s))) (Value.text_mapFunctions h _)
      | _ => rfl
  | _ => exact onOperands_mapFunctions range _ g a b

theorem negate_mapFunctions (g : Closure → Closure) (v : Value) :
    op.negate (v.mapFunctions g) = op.negate v := by
  cases op <;> cases v <;> rfl

/-- Integers give integers and Booleans. -/
theorem isPlain_of_onIntegers {a b : Int} {v : Value} (h : op.onIntegers range a b = .ok v) :
    v.isPlain := by
  cases op with
  | div | mod =>
    simp only [onIntegers] at h
    split at h
    · cases h
    · split at h <;> cases h
      rfl
  | add | sub | mul =>
    simp only [onIntegers] at h
    split at h <;> cases h
    rfl
  | lt | gt | le | ge =>
    cases h
    rfl
  | eq | ne | and | or | not => cases h

theorem isPlain_of_onFloats? {a b : Float} {v : Value} (h : op.onFloats? a b = some v) :
    v.isPlain := by
  cases op <;> cases h <;> rfl

/-- Strings give Booleans, and floats give floats and Booleans. -/
theorem isPlain_of_onOperands {a b v : Value} (h : op.onOperands range a b = .ok v) :
    v.isPlain := by
  unfold onOperands at h
  split at h
  · exact isPlain_of_onIntegers range op h
  · split at h <;> cases h
    rfl
  · split at h
    · split at h
      next w hw =>
        cases h
        exact isPlain_of_onFloats? op hw
      next => cases h
    · cases h

/-- Equality gives a Boolean, and what is put together with a string is a string. -/
theorem isPlain_of_apply {a b v : Value} (h : op.apply range a b = .ok v) : v.isPlain := by
  unfold apply at h
  split at h
  · cases h
    rfl
  · cases h
    rfl
  · cases h
    rfl
  · cases h
    rfl
  · exact isPlain_of_onOperands range _ h

theorem isPlain_of_negate {a v : Value} (h : op.negate a = .ok v) : v.isPlain := by
  cases op <;> cases a <;> cases h
  rfl

end Operation

/-! ## Names -/

namespace Bindings

variable (h : Value → Value) (x : String)

def mapValues (b : Bindings) : Bindings := b.map fun (x, v) => (x, h v)

/-- Names are looked up by themselves, so the first binding of `x` is the same one. -/
theorem get?_mapValues (b : Bindings) : (b.mapValues h).get? x = (b.get? x).map h := by
  induction b with
  | nil => rfl
  | cons p b ih =>
    obtain ⟨y, v⟩ := p
    show List.lookup x ((y, h v) :: mapValues h b) = (List.lookup x ((y, v) :: b)).map h
    rw [List.lookup_cons, List.lookup_cons]
    cases x == y with
    | true => rfl
    | false => exact ih

/-- The binding that is replaced is the same one, and a new one comes last in both. -/
theorem insert_mapValues (v : Value) (b : Bindings) :
    (b.mapValues h).insert x (h v) = (b.insert x v).mapValues h := by
  induction b with
  | nil => rfl
  | cons p b ih =>
    obtain ⟨y, w⟩ := p
    show Bindings.insert x (h v) ((y, h w) :: mapValues h b) = _
    rw [insert, insert]
    by_cases hy : y = x
    · rw [if_pos hy, if_pos hy]
      rfl
    · rw [if_neg hy, if_neg hy, ih]
      rfl

end Bindings

namespace Store

variable (h : Value → Value) (s : Store) (scope : ScopeId) (x : String)

def mapValues : Store :=
  ⟨s.scopes.map fun here => { here with bindings := here.bindings.mapValues h }⟩

theorem getElem?_mapValues (i : ScopeId) : (s.mapValues h).scopes[i]?
    = s.scopes[i]?.map fun here => { here with bindings := here.bindings.mapValues h } :=
  Array.getElem?_map ..

theorem newScope_mapValues (parent : Option ScopeId) : (s.mapValues h).newScope parent
    = ((s.newScope parent).1, (s.newScope parent).2.mapValues h) := by
  unfold newScope mapValues
  rw [Array.size_map, Array.map_push]
  rfl

/-- Scope by scope: the one that `x` is bound in by `Bindings.insert_mapValues`, and all others as
they are. -/
theorem define_mapValues (v : Value) :
    (s.mapValues h).define scope x (h v) = (s.define scope x v).mapValues h := by
  have hscopes (i : Nat) : ((s.mapValues h).define scope x (h v)).scopes[i]?
      = ((s.define scope x v).mapValues h).scopes[i]? := by
    rw [getElem?_mapValues]
    show ((s.mapValues h).scopes.modify scope _)[i]? = (s.scopes.modify scope _)[i]?.map _
    rw [Array.getElem?_modify, Array.getElem?_modify, getElem?_mapValues]
    by_cases hi : scope = i
    · rw [if_pos hi, if_pos hi, Option.map_map, Option.map_map]
      refine congrArg (Option.map · s.scopes[i]?) (funext fun here => ?_)
      show ({ here with bindings := (here.bindings.mapValues h).insert x (h v) } : Scope) = _
      rw [Bindings.insert_mapValues]
      rfl
    · rw [if_neg hi, if_neg hi]
  -- stores with the same scopes are the same
  have harray := Array.ext_getElem? hscopes
  cases hleft : (s.mapValues h).define scope x (h v)
  cases hright : (s.define scope x v).mapValues h
  rw [hleft, hright] at harray
  exact congrArg Store.mk harray

/-- A name is found in the same scope. The induction is on the chain of parents. -/
theorem resolve?_mapValues : (s.mapValues h).resolve? scope x = s.resolve? scope x := by
  induction scope using Nat.strongRecOn with
  | ind scope ih =>
    rw [resolve?, resolve?, getElem?_mapValues]
    cases s.scopes[scope]? with
    | none => rfl
    | some here =>
      have hbound : ((here.bindings.mapValues h).get? x).isSome
          = (here.bindings.get? x).isSome := by
        rw [Bindings.get?_mapValues, Option.isSome_map]
      simp only [Option.map_some, hbound]
      split
      · rfl
      · cases here.parent with
        | none => rfl
        | some outer =>
          -- the search goes on in the parent, if that is an older scope
          by_cases houter : outer < scope
          · simp only [if_pos houter]
            exact ih outer houter
          · simp only [if_neg houter]

/-- The scope is the same one by `resolve?_mapValues`, so this is `Bindings.get?_mapValues`
there. -/
theorem get?_mapValues : (s.mapValues h).get? scope x = (s.get? scope x).map h := by
  unfold get?
  rw [resolve?_mapValues]
  cases s.resolve? scope x with
  | none => rfl
  | some owner =>
    simp only [Option.bind_eq_bind, Option.bind_some]
    rw [getElem?_mapValues]
    cases s.scopes[owner]? with
    | none => rfl
    | some here => exact Bindings.get?_mapValues h x here.bindings

end Store

end SimpleLang
