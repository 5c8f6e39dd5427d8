import SimpleLang.Proofs.Lowering.Congruence

/-!
# What reading a tree depends on

A program is read off the kinds of the nodes of its tree, off their arrows and off the texts of the
leaves. Where the nodes stand, and what the inner ones cover, shows in errors only.

* `Node.skeleton`: a tree without what reading it does not depend on. Two trees have the same one
  if their nodes agree in the rest, one by one (`Node.skeleton_eq_skeleton_iff`).
* `Node.readAlike_of_skeleton`: trees with the same skeleton are read alike. The induction is on the
  tree, and its step is `Node.ReadAlike.of_children`.
-/

namespace SimpleLang

/-! ## Skeletons -/

namespace Node

mutual
/-- The tree with its kinds, its arrows and the texts of its leaves, and nothing else. -/
def skeleton : Node → Node
  | ⟨kind, text, _, arrow, children⟩ =>
    ⟨kind, if kind.isToken then text else "", .nowhere, arrow, skeletonList children⟩
def skeletonList : List Node → List Node
  | [] => []
  | n :: rest => n.skeleton :: skeletonList rest
end

/-- `skeletonList` goes with `skeleton` because the children are nested. In proofs it is a
`List.map`. -/
theorem skeletonList_eq (ns : List Node) : skeletonList ns = ns.map skeleton := by
  induction ns with
  | nil => rfl
  | cons n ns ih => rw [skeletonList, ih, List.map_cons]

theorem skeleton_eq (n : Node) : n.skeleton = ⟨n.kind, if n.kind.isToken then n.text else "",
    .nowhere, n.arrow, n.children.map skeleton⟩ := by
  cases n
  rw [skeleton, skeletonList_eq]

@[simp] theorem kind_skeleton (n : Node) : n.skeleton.kind = n.kind := by rw [skeleton_eq]

@[simp] theorem arrow_skeleton (n : Node) : n.skeleton.arrow = n.arrow := by rw [skeleton_eq]

@[simp] theorem children_skeleton (n : Node) :
    n.skeleton.children = n.children.map skeleton := by rw [skeleton_eq]

/-- Leaves keep their text. -/
theorem text_skeleton {n : Node} (h : n.kind.isToken) : n.skeleton.text = n.text := by
  rw [skeleton_eq]
  exact if_pos h

theorem skeleton_marked (n : Node) (arrow : Bool) :
    { n with arrow }.skeleton = { n.skeleton with arrow } := by
  rw [skeleton_eq, skeleton_eq n]

/-- What two trees with the same skeleton have in common, node by node. -/
theorem skeleton_eq_skeleton_iff {n m : Node} : n.skeleton = m.skeleton ↔
    n.kind = m.kind ∧ n.arrow = m.arrow ∧ (n.kind.isToken → n.text = m.text) ∧
      List.Forall₂ (fun c d => c.skeleton = d.skeleton) n.children m.children := by
  have hchildren : n.children.map skeleton = m.children.map skeleton ↔
      List.Forall₂ (fun c d => c.skeleton = d.skeleton) n.children m.children := by
    rw [← List.forall₂_eq_eq_eq, List.forall₂_map_left_iff, List.forall₂_map_right_iff]
  constructor
  · intro h
    have hkind : n.kind = m.kind := by rw [← kind_skeleton n, h, kind_skeleton]
    have harrow : n.arrow = m.arrow := by rw [← arrow_skeleton n, h, arrow_skeleton]
    refine ⟨hkind, harrow, fun hleaf => ?_, hchildren.mp ?_⟩
    · rw [← text_skeleton hleaf, h, text_skeleton (hkind ▸ hleaf)]
    · rw [← children_skeleton, h, children_skeleton]
  · rintro ⟨hkind, harrow, htext, hall⟩
    rw [skeleton_eq, skeleton_eq m, ← hkind, ← harrow, hchildren.mpr hall]
    split
    next hleaf => rw [htext hleaf]
    next => rfl

/-- A skeleton has nothing more to lose. -/
theorem skeleton_skeleton (n : Node) : n.skeleton.skeleton = n.skeleton := by
  induction n using Node.induction with
  | step n ih =>
    refine skeleton_eq_skeleton_iff.mpr ⟨kind_skeleton n, arrow_skeleton n, fun hleaf => ?_, ?_⟩
    · rw [kind_skeleton] at hleaf
      exact text_skeleton hleaf
    · rw [children_skeleton, List.forall₂_map_left_iff, List.forall₂_same]
      exact ih

/-- Trees with the same skeleton are read alike. -/
theorem readAlike_of_skeleton {n m : Node} (h : n.skeleton = m.skeleton) : n.ReadAlike m := by
  induction n using Node.induction generalizing m with
  | step n ih =>
    obtain ⟨hkind, harrow, htext, hchildren⟩ := skeleton_eq_skeleton_iff.mp h
    refine .of_children hkind harrow htext ?_
    -- the children are related one by one, and each is a child of `n`
    rw [List.forall₂_iff_zip] at hchildren ⊢
    exact ⟨hchildren.1, fun hpair => ih _ (List.of_mem_zip hpair).1 (hchildren.2 hpair)⟩

end Node

/-! ## Programs -/

/-- A program is read off the skeleton of its tree. -/
theorem readsSame_ofProgram_skeleton (n : Node) :
    ReadsSame (Stmt.ofProgram n) (Stmt.ofProgram n.skeleton) :=
  readsSame_ofProgram (Node.readAlike_of_skeleton n.skeleton_skeleton.symm)

/-- A tree with the skeleton of a program is the same program. -/
theorem ofProgram_of_skeleton {n n' : Node} {ss : List Stmt} (h : n.skeleton = n'.skeleton)
    (hss : Stmt.ofProgram n = .ok ss) : Stmt.ofProgram n' = .ok ss := by
  rcases (readsSame_ofProgram (Node.readAlike_of_skeleton h)).cases with
    ⟨found, hok, hok'⟩ | ⟨e, _, herror, _⟩
  · rw [hok', ← hok, hss]
  · rw [hss] at herror
    cases herror

/-- Two trees with the same shape, kinds, arrows and leaf texts are read alike, as a program, as a
statement, as a block and as an expression: to the same syntax, or with the same error but for the
place. -/
theorem reading_depends_on_skeleton {n m : Node} (h : n.skeleton = m.skeleton) :
    ReadsSame (Stmt.ofProgram n) (Stmt.ofProgram m) ∧ ReadsSame (Stmt.ofNode n) (Stmt.ofNode m) ∧
      ReadsSame (Stmt.ofBlock n) (Stmt.ofBlock m) ∧ ReadsSame (Expr.ofNode n) (Expr.ofNode m) := by
  have halike := Node.readAlike_of_skeleton h
  have hchildren : List.Forall₂ Node.ReadAlike n.children m.children :=
    (Node.skeleton_eq_skeleton_iff.mp h).2.2.2.imp fun _ _ => Node.readAlike_of_skeleton
  exact ⟨readsSame_ofProgram halike, halike.ofNode,
    .all (Node.readsSame_stmtEach hchildren), halike.within n m⟩

/-- The function `f` with an integer literal behind its arrow, at an offset of a source; its inner
nodes have the same text. -/
def Node.constantFunction (offset : Nat) (text digits : String) : Node :=
  { Node.plain .function text ⟨offset, offset + 30⟩
      [.leaf .name "f" ⟨offset + 3, offset + 4⟩,
        .plain .expression text ⟨offset + 10, offset + 29⟩
          [.leaf .integer digits ⟨offset + 10, offset + 29⟩]] with arrow := true }

/-- A function with a literal out of range, at two places and with two texts. -/
theorem reading_depends_on_skeleton_moved :
    (Node.constantFunction 0 "f" "9223372036854775808").skeleton
        = (Node.constantFunction 7 "" "9223372036854775808").skeleton ∧
      Stmt.ofNode (.constantFunction 0 "f" "9223372036854775808")
        = .error (.function "f" ⟨0, 30⟩ (.literal .integer "9223372036854775808" ⟨10, 29⟩)) ∧
      ReadsSame (Stmt.ofNode (.constantFunction 0 "f" "9223372036854775808"))
        (Stmt.ofNode (.constantFunction 7 "" "9223372036854775808")) := by
  have h : (Node.constantFunction 0 "f" "9223372036854775808").skeleton
      = (Node.constantFunction 7 "" "9223372036854775808").skeleton := rfl
  exact ⟨h, by cbv, (reading_depends_on_skeleton h).2.1⟩

end SimpleLang
