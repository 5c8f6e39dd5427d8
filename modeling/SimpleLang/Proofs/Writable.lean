import SimpleLang.Program.AutoDisplay
import SimpleLang.Proofs.Tokens

/-!
# Programs that can be written

Not every abstract syntax tree is the tree of a text: a literal may be negative, a string may hold a
quote, a name may be a keyword, and a conditional with an `else` may have a branch that would take
the `else` for itself. `Stmt.Writable` excludes these, and leaves open which floats are written.

* `Stmt.dangling`: the statement ends in a conditional without `else`.
* `Stmt.Writable.showing`: what a program shows at its end keeps it writable.
* `Stmt.Writable.of_floats`: the condition on floats can be put on their list instead, and holds of
  every float in it (`Stmt.Writable.forall_mem_floats`).
-/

namespace SimpleLang

/-- Whether the statement ends in a conditional without `else`, so that an `else` behind it would be
taken by it. -/
def Stmt.dangling : Stmt → Bool
  | .cond _ _ none => true
  | .cond _ _ (some no) => no.dangling
  | .loop _ body => body.dangling
  | _ => false

mutual
/-- An expression that some text stands for, if its floats satisfy `F`. -/
def Expr.Writable (F : Float → Prop) : Expr → Prop
  | .int n => 0 ≤ n.toInt
  | .float x => F x
  | .string s => '"' ∉ s.toList
  | .bool _ => True
  | .name x => IsName x
  | .binary op l r => op ≠ .not ∧ l.Writable F ∧ r.Writable F
  | .unary op e => op = .not ∧ e.Writable F
  | .call f args => f.Writable F ∧ Expr.AllWritable F args
  | .array elements => Expr.AllWritable F elements
  | .lambda parameters body => (∀ x ∈ parameters, IsName x) ∧ body.Writable F
/-- Expressions that some text stands for. -/
def Expr.AllWritable (F : Float → Prop) : List Expr → Prop
  | [] => True
  | e :: rest => e.Writable F ∧ Expr.AllWritable F rest
/-- The body of a lambda that some text stands for. -/
def Body.Writable (F : Float → Prop) : Body → Prop
  | .block statements => Stmt.AllWritable F statements
  | .value e => e.Writable F
/-- A statement that some text stands for. The body of a function is always a block. -/
def Stmt.Writable (F : Float → Prop) : Stmt → Prop
  | .declare x none => IsName x
  | .declare x (some e) => IsName x ∧ e.Writable F
  | .assign x e => IsName x ∧ e.Writable F
  | .expr e => e.Writable F
  | .ret none => True
  | .ret (some e) => e.Writable F
  | .cond test yes none => test.Writable F ∧ yes.Writable F
  | .cond test yes (some no) =>
    test.Writable F ∧ yes.Writable F ∧ yes.dangling = false ∧ no.Writable F
  | .loop test body => test.Writable F ∧ body.Writable F
  | .block statements => Stmt.AllWritable F statements
  | .function f parameters (.block statements) =>
    IsName f ∧ (∀ x ∈ parameters, IsName x) ∧ Stmt.AllWritable F statements
  | .function _ _ (.value _) => False
/-- Statements that some text stands for. -/
def Stmt.AllWritable (F : Float → Prop) : List Stmt → Prop
  | [] => True
  | s :: rest => s.Writable F ∧ Stmt.AllWritable F rest
end

/-! ## Showing the last value -/

/-- `display` is no keyword. -/
theorem isName_display : IsName Stmt.displayName :=
  ⟨⟨'d', ['i', 's', 'p', 'l', 'a', 'y'], by decide, by decide, List.all_eq_true.mp rfl⟩,
    by decide⟩

/-- A call with one argument. -/
theorem Stmt.writable_display {F : Float → Prop} {e : Expr} (h : e.Writable F) :
    (Stmt.display e).Writable F :=
  ⟨isName_display, h, trivial⟩

/-- What is shown at the end of a statement does not change where an `else` belongs. -/
theorem Stmt.dangling_showing (tail : Tail) : (s : Stmt) → (s.showing tail).dangling = s.dangling
  | .expr _ => by rw [Stmt.showing]; rfl
  | .cond _ _ none => by rw [Stmt.showing]; rfl
  | .cond _ _ (some no) => by
    rw [Stmt.showing, dangling, dangling]
    exact dangling_showing .branch no
  | .block _ => by cases tail <;> rfl
  | .declare _ _ | .assign _ _ | .ret _ | .loop _ _ | .function _ _ _ => by
    rw [Stmt.showing] <;> simp

mutual
/-- By induction on where the last value is. A branch still ends as it did
(`Stmt.dangling_showing`). -/
theorem Stmt.Writable.showing {F : Float → Prop} (tail : Tail) :
    (s : Stmt) → s.Writable F → (s.showing tail).Writable F
  | .expr e, h => by
    rw [Stmt.showing]
    exact Stmt.writable_display h
  | .cond test yes none, h => by
    rw [Stmt.showing]
    exact ⟨h.1, Stmt.Writable.showing .branch yes h.2⟩
  | .cond test yes (some no), h => by
    obtain ⟨htest, hyes, hdangling, hno⟩ := h
    rw [Stmt.showing]
    refine ⟨htest, Stmt.Writable.showing .branch yes hyes, ?_, Stmt.Writable.showing .branch no hno⟩
    -- the `else` still belongs to this conditional
    rw [Stmt.dangling_showing]
    exact hdangling
  | .block statements, h => by
    cases tail with
    | program =>
      rw [Stmt.showing]
      exact h
    | branch =>
      rw [Stmt.showing]
      exact Stmt.Writable.showingLast .branch statements h
  | .declare _ _, h | .assign _ _, h | .ret _, h | .loop _ _, h | .function _ _ _, h => by
    rw [Stmt.showing] <;> simp [h]
theorem Stmt.Writable.showingLast {F : Float → Prop} (tail : Tail) :
    (ss : List Stmt) → Stmt.AllWritable F ss → Stmt.AllWritable F (Stmt.showingLast tail ss)
  | [], _ => by
    rw [Stmt.showingLast]
    trivial
  | [s], h => by
    rw [Stmt.showingLast]
    exact ⟨Stmt.Writable.showing tail s h.1, trivial⟩
  | s :: s' :: rest, h => by
    rw [Stmt.showingLast]
    · exact ⟨h.1, Stmt.Writable.showingLast tail (s' :: rest) h.2⟩
    · simp
end

/-- A program that is assembled of writable statements is writable. -/
theorem Program.writable_assemble {F : Float → Prop} {statements : List Stmt}
    (h : Stmt.AllWritable F statements) : Stmt.AllWritable F (assemble statements).statements := by
  refine Stmt.Writable.showingLast .program _ ?_
  unfold body
  split
  next inner => exact h.1
  next => exact h

/-! ## Float literals -/

mutual
/-- The float literals of an expression. -/
def Expr.floats : Expr → List Float
  | .float x => [x]
  | .binary _ l r => l.floats ++ r.floats
  | .unary _ e => e.floats
  | .call f args => f.floats ++ Expr.floatsOf args
  | .array elements => Expr.floatsOf elements
  | .lambda _ body => body.floats
  | .int _ | .string _ | .bool _ | .name _ => []
def Expr.floatsOf : List Expr → List Float
  | [] => []
  | e :: rest => e.floats ++ Expr.floatsOf rest
def Body.floats : Body → List Float
  | .block statements => Stmt.floatsOf statements
  | .value e => e.floats
/-- The float literals of a statement. -/
def Stmt.floats : Stmt → List Float
  | .declare _ (some e) | .assign _ e | .expr e | .ret (some e) => e.floats
  | .declare _ none | .ret none => []
  | .cond test yes none => test.floats ++ yes.floats
  | .cond test yes (some no) => test.floats ++ yes.floats ++ no.floats
  | .loop test body => test.floats ++ body.floats
  | .block statements => Stmt.floatsOf statements
  | .function _ _ body => body.floats
def Stmt.floatsOf : List Stmt → List Float
  | [] => []
  | s :: rest => s.floats ++ Stmt.floatsOf rest
end

/-- The float literals of a program. -/
def Program.floats (p : Program) : List Float := Stmt.floatsOf p.statements

section Floats

variable {F G : Float → Prop}

mutual
/-- By induction on the syntax. The condition `G` is dropped, and `F` is asked of the floats that
are there. -/
theorem Expr.Writable.of_floats : (e : Expr) → e.Writable G → (∀ x ∈ e.floats, F x) → e.Writable F
  | .int _, h, _ | .string _, h, _ | .bool _, h, _ | .name _, h, _ => h
  | .float x, _, hF => hF x (by simp [Expr.floats])
  | .binary _ l r, ⟨hop, hl, hr⟩, hF =>
    ⟨hop, Expr.Writable.of_floats l hl fun x hx => hF x (by simp [Expr.floats, hx]),
      Expr.Writable.of_floats r hr fun x hx => hF x (by simp [Expr.floats, hx])⟩
  | .unary _ e, ⟨hop, he⟩, hF =>
    ⟨hop, Expr.Writable.of_floats e he fun x hx => hF x (by simp [Expr.floats, hx])⟩
  | .call f args, ⟨hf, hargs⟩, hF =>
    ⟨Expr.Writable.of_floats f hf fun x hx => hF x (by simp [Expr.floats, hx]),
      Expr.AllWritable.of_floats args hargs fun x hx => hF x (by simp [Expr.floats, hx])⟩
  | .array elements, h, hF =>
    Expr.AllWritable.of_floats elements h fun x hx => hF x (by simp [Expr.floats, hx])
  | .lambda _ body, ⟨hnames, hbody⟩, hF =>
    ⟨hnames, Body.Writable.of_floats body hbody fun x hx => hF x (by simp [Expr.floats, hx])⟩
theorem Expr.AllWritable.of_floats :
    (es : List Expr) → Expr.AllWritable G es → (∀ x ∈ Expr.floatsOf es, F x) →
      Expr.AllWritable F es
  | [], _, _ => trivial
  | e :: rest, ⟨he, hrest⟩, hF =>
    ⟨Expr.Writable.of_floats e he fun x hx => hF x (by simp [Expr.floatsOf, hx]),
      Expr.AllWritable.of_floats rest hrest fun x hx => hF x (by simp [Expr.floatsOf, hx])⟩
theorem Body.Writable.of_floats :
    (b : Body) → b.Writable G → (∀ x ∈ b.floats, F x) → b.Writable F
  | .block statements, h, hF =>
    Stmt.AllWritable.of_floats statements h fun x hx => hF x (by simp [Body.floats, hx])
  | .value e, h, hF => Expr.Writable.of_floats e h fun x hx => hF x (by simp [Body.floats, hx])
theorem Stmt.Writable.of_floats :
    (s : Stmt) → s.Writable G → (∀ x ∈ s.floats, F x) → s.Writable F
  | .declare _ none, h, _ => h
  | .declare _ (some e), ⟨hname, he⟩, hF =>
    ⟨hname, Expr.Writable.of_floats e he fun x hx => hF x (by simp [Stmt.floats, hx])⟩
  | .assign _ e, ⟨hname, he⟩, hF =>
    ⟨hname, Expr.Writable.of_floats e he fun x hx => hF x (by simp [Stmt.floats, hx])⟩
  | .expr e, h, hF => Expr.Writable.of_floats e h fun x hx => hF x (by simp [Stmt.floats, hx])
  | .ret none, _, _ => trivial
  | .ret (some e), h, hF =>
    Expr.Writable.of_floats e h fun x hx => hF x (by simp [Stmt.floats, hx])
  | .cond test yes none, ⟨htest, hyes⟩, hF =>
    ⟨Expr.Writable.of_floats test htest fun x hx => hF x (by simp [Stmt.floats, hx]),
      Stmt.Writable.of_floats yes hyes fun x hx => hF x (by simp [Stmt.floats, hx])⟩
  | .cond test yes (some no), ⟨htest, hyes, hdangling, hno⟩, hF =>
    ⟨Expr.Writable.of_floats test htest fun x hx => hF x (by simp [Stmt.floats, hx]),
      Stmt.Writable.of_floats yes hyes fun x hx => hF x (by simp [Stmt.floats, hx]), hdangling,
      Stmt.Writable.of_floats no hno fun x hx => hF x (by simp [Stmt.floats, hx])⟩
  | .loop test body, ⟨htest, hbody⟩, hF =>
    ⟨Expr.Writable.of_floats test htest fun x hx => hF x (by simp [Stmt.floats, hx]),
      Stmt.Writable.of_floats body hbody fun x hx => hF x (by simp [Stmt.floats, hx])⟩
  | .block statements, h, hF =>
    Stmt.AllWritable.of_floats statements h fun x hx => hF x (by simp [Stmt.floats, hx])
  | .function _ _ (.block statements), ⟨hname, hnames, hbody⟩, hF =>
    ⟨hname, hnames, Stmt.AllWritable.of_floats statements hbody
      fun x hx => hF x (by simp [Stmt.floats, Body.floats, hx])⟩
theorem Stmt.AllWritable.of_floats :
    (ss : List Stmt) → Stmt.AllWritable G ss → (∀ x ∈ Stmt.floatsOf ss, F x) →
      Stmt.AllWritable F ss
  | [], _, _ => trivial
  | s :: rest, ⟨hs, hrest⟩, hF =>
    ⟨Stmt.Writable.of_floats s hs fun x hx => hF x (by simp [Stmt.floatsOf, hx]),
      Stmt.AllWritable.of_floats rest hrest fun x hx => hF x (by simp [Stmt.floatsOf, hx])⟩
end

mutual
/-- By induction on the syntax, as the list of floats is put together. -/
theorem Expr.Writable.forall_mem_floats : (e : Expr) → e.Writable F → ∀ x ∈ e.floats, F x
  | .int _, _ | .string _, _ | .bool _, _ | .name _, _ => List.forall_mem_nil _
  | .float _, h => List.forall_mem_singleton.mpr h
  | .binary _ l r, ⟨_, hl, hr⟩ =>
    List.forall_mem_append.mpr
      ⟨Expr.Writable.forall_mem_floats l hl, Expr.Writable.forall_mem_floats r hr⟩
  | .unary _ e, ⟨_, he⟩ => Expr.Writable.forall_mem_floats e he
  | .call f args, ⟨hf, hargs⟩ =>
    List.forall_mem_append.mpr
      ⟨Expr.Writable.forall_mem_floats f hf, Expr.AllWritable.forall_mem_floats args hargs⟩
  | .array elements, h => Expr.AllWritable.forall_mem_floats elements h
  | .lambda _ body, ⟨_, hbody⟩ => Body.Writable.forall_mem_floats body hbody
theorem Expr.AllWritable.forall_mem_floats :
    (es : List Expr) → Expr.AllWritable F es → ∀ x ∈ Expr.floatsOf es, F x
  | [], _ => List.forall_mem_nil _
  | e :: rest, ⟨he, hrest⟩ =>
    List.forall_mem_append.mpr
      ⟨Expr.Writable.forall_mem_floats e he, Expr.AllWritable.forall_mem_floats rest hrest⟩
theorem Body.Writable.forall_mem_floats : (b : Body) → b.Writable F → ∀ x ∈ b.floats, F x
  | .block statements, h => Stmt.AllWritable.forall_mem_floats statements h
  | .value e, h => Expr.Writable.forall_mem_floats e h
theorem Stmt.Writable.forall_mem_floats : (s : Stmt) → s.Writable F → ∀ x ∈ s.floats, F x
  | .declare _ none, _ | .ret none, _ => List.forall_mem_nil _
  | .declare _ (some e), ⟨_, he⟩ | .assign _ e, ⟨_, he⟩ => Expr.Writable.forall_mem_floats e he
  | .expr e, h | .ret (some e), h => Expr.Writable.forall_mem_floats e h
  | .cond test yes none, ⟨htest, hyes⟩ =>
    List.forall_mem_append.mpr
      ⟨Expr.Writable.forall_mem_floats test htest, Stmt.Writable.forall_mem_floats yes hyes⟩
  | .cond test yes (some no), ⟨htest, hyes, _, hno⟩ =>
    List.forall_mem_append.mpr ⟨List.forall_mem_append.mpr
      ⟨Expr.Writable.forall_mem_floats test htest, Stmt.Writable.forall_mem_floats yes hyes⟩,
      Stmt.Writable.forall_mem_floats no hno⟩
  | .loop test body, ⟨htest, hbody⟩ =>
    List.forall_mem_append.mpr
      ⟨Expr.Writable.forall_mem_floats test htest, Stmt.Writable.forall_mem_floats body hbody⟩
  | .block statements, h => Stmt.AllWritable.forall_mem_floats statements h
  | .function _ _ (.block statements), ⟨_, _, hbody⟩ =>
    Stmt.AllWritable.forall_mem_floats statements hbody
theorem Stmt.AllWritable.forall_mem_floats :
    (ss : List Stmt) → Stmt.AllWritable F ss → ∀ x ∈ Stmt.floatsOf ss, F x
  | [], _ => List.forall_mem_nil _
  | s :: rest, ⟨hs, hrest⟩ =>
    List.forall_mem_append.mpr
      ⟨Stmt.Writable.forall_mem_floats s hs, Stmt.AllWritable.forall_mem_floats rest hrest⟩
end

/-- A weaker condition on floats leaves syntax writable. -/
theorem Stmt.AllWritable.mono (hFG : ∀ x, F x → G x) {ss : List Stmt}
    (h : Stmt.AllWritable F ss) : Stmt.AllWritable G ss :=
  Stmt.AllWritable.of_floats ss h fun x hx =>
    hFG x (Stmt.AllWritable.forall_mem_floats ss h x hx)

end Floats

end SimpleLang
