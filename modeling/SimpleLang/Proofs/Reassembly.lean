import SimpleLang.Proofs.Number.FloatOrder
import SimpleLang.Proofs.Writable

/-!
# Assembling a program twice

Assembling is meant to happen once: a second pass takes a display statement at a tail for a value
that is still to be shown, and takes a program that is a single block for what is in the block. It
changes nothing exactly if there is neither.

* `Stmt.EndsAt`, `Program.EndsAt`: the tails of a statement and of a program, as statements.
* `Expr.same_self`, `Stmt.same_self`: syntax without a float that is not a number is equal to
  itself.
* `Expr.same_call_self`, `Stmt.same_block_self`: nothing is equal to a call with itself as the only
  argument, or to a block with itself as the only statement. So a display statement is never what
  it shows, and a block never what is in it.
* `Stmt.same_showing_iff`: what is shown at the tails of a statement makes no difference exactly if
  no tail is an expression. The recursion is the one of `Stmt.showing`.
-/

namespace SimpleLang

/-! ## Tails -/

/-- The second statement is at a tail of the first one, which is reached as `tail` says: it is the
first one itself, or at a tail of a branch of a conditional, or at a tail of the last statement of a
block that is reached through a branch. -/
inductive Stmt.EndsAt : Tail → Stmt → Stmt → Prop where
  | self (tail : Tail) (s : Stmt) : EndsAt tail s s
  | yes {tail : Tail} {test : Expr} {yes t : Stmt} {no : Option Stmt} (h : EndsAt .branch yes t) :
      EndsAt tail (.cond test yes no) t
  | no {tail : Tail} {test : Expr} {yes no t : Stmt} (h : EndsAt .branch no t) :
      EndsAt tail (.cond test yes (some no)) t
  | last {ss : List Stmt} {s t : Stmt} (hlast : ss.getLast? = some s) (h : EndsAt .branch s t) :
      EndsAt .branch (.block ss) t

/-- The statement is at a tail of the program. -/
def Program.EndsAt (p : Program) (t : Stmt) : Prop :=
  ∃ s, p.statements.getLast? = some s ∧ s.EndsAt .program t

/-- No tail of the statement is an expression. -/
def Stmt.Silent (tail : Tail) (s : Stmt) : Prop := ∀ t, s.EndsAt tail t → ∀ e, t ≠ .expr e

namespace Stmt

variable {tail : Tail} {test : Expr} {yes no : Stmt} {ss : List Stmt}

/-- An expression is its own tail. -/
theorem not_silent_expr (e : Expr) : ¬ (Stmt.expr e).Silent tail :=
  fun h => h _ (.self _ _) e rfl

/-- The tails of a conditional are those of its branches, and itself. -/
theorem silent_cond_iff :
    (Stmt.cond test yes none).Silent tail ↔ yes.Silent .branch := by
  constructor
  · intro h t ht
    exact h t (.yes ht)
  · intro h t ht
    cases ht with
    | self => nofun
    | yes ht => exact h t ht

theorem silent_condElse_iff :
    (Stmt.cond test yes (some no)).Silent tail ↔ yes.Silent .branch ∧ no.Silent .branch := by
  constructor
  · intro h
    exact ⟨fun t ht => h t (.yes ht), fun t ht => h t (.no ht)⟩
  · rintro ⟨hyes, hno⟩ t ht
    cases ht with
    | self => nofun
    | yes ht => exact hyes t ht
    | no ht => exact hno t ht

/-- At the tail of a program a block is not entered. -/
theorem silent_block_program : (Stmt.block ss).Silent .program := by
  intro t ht
  cases ht with
  | self => nofun

/-- Inside of a branch a block ends as its last statement does. -/
theorem silent_block_branch_iff :
    (Stmt.block ss).Silent .branch ↔ ∀ s, ss.getLast? = some s → s.Silent .branch := by
  constructor
  · intro h s hlast t ht
    exact h t (.last hlast ht)
  · intro h t ht
    cases ht with
    | self => nofun
    | last hlast ht => exact h _ hlast t ht

end Stmt

/-! ## Comparing syntax with itself -/

mutual
/-- By induction on the syntax. Only a float might differ from itself (`FloatOrder.beq_self`). -/
theorem Expr.same_self : (e : Expr) → (∀ x ∈ e.floats, x.isNaN = false) → e.same e = true
  | .int _, _ | .string _, _ | .bool _, _ | .name _, _ => by simp [Expr.same]
  | .float x, h => by
    -- a float is the same as itself unless it is a NaN
    rw [Expr.same, FloatOrder.beq_self, h x (by simp [Expr.floats])]
    rfl
  | .binary _ l r, h => by
    simp only [Expr.floats, List.forall_mem_append] at h
    simp [Expr.same, Expr.same_self l h.1, Expr.same_self r h.2]
  | .unary _ e, h => by
    simp [Expr.same, Expr.same_self e h]
  | .call f args, h => by
    simp only [Expr.floats, List.forall_mem_append] at h
    simp [Expr.same, Expr.same_self f h.1, Expr.sameList_self args h.2]
  | .array elements, h => by
    simp [Expr.same, Expr.sameList_self elements h]
  | .lambda _ body, h => by
    simp [Expr.same, Body.same_self body h]
theorem Expr.sameList_self : (es : List Expr) → (∀ x ∈ Expr.floatsOf es, x.isNaN = false) →
    Expr.sameList es es = true
  | [], _ => by rw [Expr.sameList]
  | e :: rest, h => by
    simp only [Expr.floatsOf, List.forall_mem_append] at h
    simp [Expr.sameList, Expr.same_self e h.1, Expr.sameList_self rest h.2]
theorem Body.same_self : (b : Body) → (∀ x ∈ b.floats, x.isNaN = false) → b.same b = true
  | .block statements, h => by
    simp [Body.same, Stmt.sameList_self statements h]
  | .value e, h => by
    simp [Body.same, Expr.same_self e h]
theorem Stmt.same_self : (s : Stmt) → (∀ x ∈ s.floats, x.isNaN = false) → s.same s = true
  | .declare _ none, _ | .ret none, _ => by simp [Stmt.same]
  | .declare _ (some e), h | .assign _ e, h | .expr e, h | .ret (some e), h => by
    simp [Stmt.same, Expr.same_self e h]
  | .cond test yes none, h => by
    simp only [Stmt.floats, List.forall_mem_append] at h
    simp [Stmt.same, Expr.same_self test h.1, Stmt.same_self yes h.2]
  | .cond test yes (some no), h => by
    simp only [Stmt.floats, List.forall_mem_append] at h
    simp [Stmt.same, Expr.same_self test h.1.1, Stmt.same_self yes h.1.2, Stmt.same_self no h.2]
  | .loop test body, h => by
    simp only [Stmt.floats, List.forall_mem_append] at h
    simp [Stmt.same, Expr.same_self test h.1, Stmt.same_self body h.2]
  | .block statements, h => by
    simp [Stmt.same, Stmt.sameList_self statements h]
  | .function _ _ body, h => by
    simp [Stmt.same, Body.same_self body h]
theorem Stmt.sameList_self : (ss : List Stmt) → (∀ x ∈ Stmt.floatsOf ss, x.isNaN = false) →
    Stmt.sameList ss ss = true
  | [], _ => by rw [Stmt.sameList]
  | s :: rest, h => by
    simp only [Stmt.floatsOf, List.forall_mem_append] at h
    simp [Stmt.sameList, Stmt.same_self s h.1, Stmt.sameList_self rest h.2]
end

/-- No expression is a call with itself as the only argument. -/
theorem Expr.same_call_self (f : Expr) : (e : Expr) → (Expr.call f [e]).same e = false
  | .call g [e] => by
    -- both arguments would have to be equal, and one is a call with the other
    simp [Expr.same, Expr.sameList, Expr.same_call_self g e]
  | .call _ [] | .call _ (_ :: _ :: _) => by simp [Expr.same, Expr.sameList]
  | .int _ | .float _ | .string _ | .bool _ | .name _ | .binary _ _ _ | .unary _ _ | .array _
  | .lambda _ _ => by simp [Expr.same]

/-- No statement is a block with itself as the only statement. -/
theorem Stmt.same_block_self : (s : Stmt) → s.same (.block [s]) = false
  | .block [s] => by simp [Stmt.same, Stmt.sameList, Stmt.same_block_self s]
  | .block [] | .block (_ :: _ :: _) => by simp [Stmt.same, Stmt.sameList]
  | .declare _ _ | .assign _ _ | .expr _ | .ret _ | .cond _ _ _ | .loop _ _ | .function _ _ _ => by
    simp [Stmt.same]

/-! ## Showing what is shown already -/

mutual
/-- A display statement has the floats of what it shows. -/
theorem Stmt.floats_showing (tail : Tail) : (s : Stmt) → (s.showing tail).floats = s.floats
  | .expr e => by
    rw [Stmt.showing]
    simp [Stmt.display, Stmt.floats, Expr.floats, Expr.floatsOf]
  | .cond _ yes none => by
    rw [Stmt.showing, Stmt.floats, Stmt.floats, Stmt.floats_showing .branch yes]
  | .cond _ yes (some no) => by
    rw [Stmt.showing, Stmt.floats, Stmt.floats, Stmt.floats_showing .branch yes,
      Stmt.floats_showing .branch no]
  | .block statements => by
    cases tail with
    | program => rw [Stmt.showing]
    | branch =>
      rw [Stmt.showing, Stmt.floats, Stmt.floats, Stmt.floatsOf_showingLast .branch statements]
  | .declare _ _ | .assign _ _ | .ret _ | .loop _ _ | .function _ _ _ => by
    rw [Stmt.showing] <;> simp
theorem Stmt.floatsOf_showingLast (tail : Tail) : (ss : List Stmt) →
    Stmt.floatsOf (Stmt.showingLast tail ss) = Stmt.floatsOf ss
  | [] => by rw [Stmt.showingLast]
  | [s] => by simp only [Stmt.showingLast, Stmt.floatsOf, Stmt.floats_showing tail s]
  | s :: s' :: rest => by
    rw [Stmt.showingLast, Stmt.floatsOf, Stmt.floatsOf_showingLast tail (s' :: rest)]
    · simp only [Stmt.floatsOf]
    · simp
end

/-- Assembling a program neither adds nor drops a float literal. -/
theorem Program.floats_assemble (ss : List Stmt) :
    (assemble ss).floats = Stmt.floatsOf ss := by
  rw [Program.floats, assemble, Stmt.floatsOf_showingLast]
  unfold body
  split
  · simp [Stmt.floatsOf, Stmt.floats]
  · rfl

mutual
/-- Showing the value of a statement changes nothing exactly if no tail has a value to show. -/
theorem Stmt.same_showing_iff (tail : Tail) : (s : Stmt) → (∀ x ∈ s.floats, x.isNaN = false) →
    ((s.showing tail).same s = true ↔ s.Silent tail)
  | .expr e, _ => by
    rw [Stmt.showing, Stmt.display, Stmt.same, Expr.same_call_self]
    exact iff_of_false Bool.false_ne_true (Stmt.not_silent_expr e)
  | .cond test yes none, h => by
    simp only [Stmt.floats, List.forall_mem_append] at h
    rw [Stmt.showing, Stmt.same, Expr.same_self test h.1, Bool.true_and, Stmt.silent_cond_iff]
    exact Stmt.same_showing_iff .branch yes h.2
  | .cond test yes (some no), h => by
    simp only [Stmt.floats, List.forall_mem_append] at h
    rw [Stmt.showing, Stmt.same, Expr.same_self test h.1.1, Bool.true_and, Bool.and_eq_true,
      Stmt.silent_condElse_iff, Stmt.same_showing_iff .branch yes h.1.2,
      Stmt.same_showing_iff .branch no h.2]
  | .block statements, h => by
    cases tail with
    | program =>
      rw [Stmt.showing]
      exact iff_of_true (Stmt.same_self _ h) Stmt.silent_block_program
    | branch =>
      rw [Stmt.showing, Stmt.same, Stmt.silent_block_branch_iff]
      exact Stmt.sameList_showingLast_iff .branch statements h
  | .declare _ _, h | .assign _ _, h | .ret _, h | .loop _ _, h | .function _ _ _, h => by
    rw [Stmt.showing]
    · refine iff_of_true (Stmt.same_self _ h) fun t ht => ?_
      -- nothing is at the end of such a statement but itself, and it is no expression
      cases ht with
      | self => nofun
    all_goals simp
theorem Stmt.sameList_showingLast_iff (tail : Tail) :
    (ss : List Stmt) → (∀ x ∈ Stmt.floatsOf ss, x.isNaN = false) →
      (Stmt.sameList (Stmt.showingLast tail ss) ss = true ↔
        ∀ s, ss.getLast? = some s → s.Silent tail)
  | [], _ => by simp [Stmt.showingLast, Stmt.sameList]
  | [s], h => by
    simp only [Stmt.floatsOf, List.append_nil] at h
    simp [Stmt.showingLast, Stmt.sameList, Stmt.same_showing_iff tail s h]
  | s :: s' :: rest, h => by
    rw [Stmt.floatsOf, List.forall_mem_append] at h
    rw [Stmt.showingLast, Stmt.sameList, Stmt.same_self s h.1, Bool.true_and,
      Stmt.sameList_showingLast_iff tail (s' :: rest) h.2, List.getLast?_cons_cons]
    simp
end

/-! ## Programs -/

/-- What is shown at the end of a program leaves a block as it is, and makes none of anything
else. -/
theorem Stmt.same_showing_block : (s : Stmt) → (s.showing .program).same (.block [s]) = false
  | .block ss => by
    rw [Stmt.showing]
    exact Stmt.same_block_self (.block ss)
  | .expr _ | .cond _ _ none | .cond _ _ (some _) => by
    simp [Stmt.showing, Stmt.display, Stmt.same]
  | .declare _ _ | .assign _ _ | .ret _ | .loop _ _ | .function _ _ _ => by
    rw [Stmt.showing] <;> simp [Stmt.same]

/-- What is in a block is never the block alone, whatever is shown at its end. -/
theorem Stmt.sameList_showingLast_block (ss : List Stmt) :
    Stmt.sameList (Stmt.showingLast .program ss) [.block ss] = false := by
  rcases ss with _ | ⟨s, _ | ⟨s', _ | ⟨s'', rest⟩⟩⟩
  · simp [Stmt.showingLast, Stmt.sameList]
  · simp [Stmt.showingLast, Stmt.sameList, Stmt.same_showing_block]
  · simp [Stmt.showingLast, Stmt.sameList]
  · simp [Stmt.showingLast, Stmt.sameList]

/-- A program that is assembled of statements without a float that is not a number is the same after
a second pass exactly if it is no single block and no tail of it is an expression. -/
theorem reassembly_changes_nothing_iff (ss : List Stmt)
    (hss : ∀ x ∈ Stmt.floatsOf ss, x.isNaN = false) :
    (Program.assemble (Program.assemble ss).statements == Program.assemble ss) = true ↔
      (∀ inner, (Program.assemble ss).statements ≠ [.block inner]) ∧
        ∀ t, (Program.assemble ss).EndsAt t → ∀ e, t ≠ .expr e := by
  have hfloats : ∀ x ∈ (Program.assemble ss).floats, x.isNaN = false := by
    rw [Program.floats_assemble]
    exact hss
  generalize Program.assemble ss = p at hfloats ⊢
  obtain ⟨statements⟩ := p
  show Stmt.sameList (Stmt.showingLast .program (Program.body statements)) statements = true ↔ _
  -- a single block is taken for what is in it, and nothing else is opened
  by_cases hblock : ∃ inner, statements = [.block inner]
  · obtain ⟨inner, rfl⟩ := hblock
    rw [Program.body, Stmt.sameList_showingLast_block]
    exact iff_of_false Bool.false_ne_true fun h => h.1 inner rfl
  · have hblock : ∀ inner, statements ≠ [.block inner] := fun inner h => hblock ⟨inner, h⟩
    rw [Program.body, Stmt.sameList_showingLast_iff .program statements hfloats]
    · constructor
      · intro h
        refine ⟨hblock, ?_⟩
        rintro t ⟨s, hlast, ht⟩
        exact h s hlast t ht
      · rintro ⟨_, h⟩ s hlast t ht
        exact h t ⟨s, hlast, ht⟩
    · exact hblock

/-- A conditional with a value inside two blocks of its first branch. -/
def Stmt.valueInBranch : List Stmt :=
  [.cond (.name "c") (.block [.block [.expr (.float 1.5)]]) (some (.assign "x" (.int 1)))]

/-- The value is shown by the first pass, and shown once more by the second. -/
theorem reassembly_changes_nothing_iff_branch :
    (∀ x ∈ Stmt.floatsOf Stmt.valueInBranch, x.isNaN = false) ∧
      (Program.assemble (Program.assemble Stmt.valueInBranch).statements
        == Program.assemble Stmt.valueInBranch) = false ∧
      ((Program.assemble (Program.assemble Stmt.valueInBranch).statements
        == Program.assemble Stmt.valueInBranch) = true ↔
      (∀ inner, (Program.assemble Stmt.valueInBranch).statements ≠ [.block inner]) ∧
        ∀ t, (Program.assemble Stmt.valueInBranch).EndsAt t → ∀ e, t ≠ .expr e) := by
  have hfloats : ∀ x ∈ Stmt.floatsOf Stmt.valueInBranch, x.isNaN = false := by
    intro x hx
    rw [List.mem_singleton.mp hx]
    decide +kernel
  exact ⟨hfloats, by decide +kernel, reassembly_changes_nothing_iff _ hfloats⟩

end SimpleLang
