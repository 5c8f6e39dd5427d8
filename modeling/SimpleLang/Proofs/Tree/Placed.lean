import SimpleLang.Proofs.Parser.Acceptance
import SimpleLang.Proofs.Tokens

/-!
# Where the nodes of a tree stand

The tree of a source has the tokens of the source as its leaves, and nothing is lost or moved: a
node covers a stretch of the source, its children lie inside of it, one behind the other.

* `Span.Covers`: a span covers a text of the source, cutting no character in two.
* `Node.nodes` and `Node.leaves` list what is in a tree; `Node.Placed` says how a node stands to the
  source and to its children.
* `Ordered`: tokens stand one behind the other. `ordered_scan`: those of a source do.
* `Laid i ns o`: the nodes `ns` are laid over the tokens that `i` has and `o` has not. Nodes laid
  side by side are laid (`Laid.append`), and so is the node above them (`Laid.inner`).
* `laidBy_of_reads`: what a rule reads is laid over the tokens that it takes. The induction is on
  the reading; the operands that a chain starts from are laid over the tokens before it (`LaidBy`).
-/

namespace SimpleLang

/-! ## Stretches of a source -/

/-- The offset lies between two characters of the source, or at one of its ends. -/
def CharBoundary (source : String) (offset : Nat) : Prop :=
  ∃ before after, source = before ++ after ∧ before.utf8ByteSize = offset

namespace Span

/-- The span covers the text: the source has just this text between its two ends. -/
def Covers (s : Span) (source text : String) : Prop :=
  ∃ before after, source = before ++ text ++ after ∧ s.start = before.utf8ByteSize ∧
    s.stop = before.utf8ByteSize + text.utf8ByteSize

/-- What stands before `text` ends where the span starts. -/
theorem Covers.start {s : Span} {source text : String} (h : s.Covers source text) :
    CharBoundary source s.start := by
  obtain ⟨before, after, hsource, hstart, _⟩ := h
  exact ⟨before, text ++ after, by rw [hsource, String.append_assoc], hstart.symm⟩

/-- And what stands before its end includes `text`. -/
theorem Covers.stop {s : Span} {source text : String} (h : s.Covers source text) :
    CharBoundary source s.stop := by
  obtain ⟨before, after, hsource, _, hstop⟩ := h
  exact ⟨before ++ text, after, hsource, by rw [hstop, String.utf8ByteSize_append]⟩

theorem Covers.start_le_stop {s : Span} {source text : String} (h : s.Covers source text) :
    s.start ≤ s.stop := by
  obtain ⟨before, after, _, hstart, hstop⟩ := h
  omega

/-- The covered text is what `Span.excerpt` cuts out of the source. -/
theorem Covers.excerpt_eq {s : Span} {source text : String} (h : s.Covers source text) :
    s.excerpt source = text := by
  obtain ⟨before, after, rfl, hstart, hstop⟩ := h
  obtain ⟨start, stop⟩ := s
  obtain rfl : start = _ := hstart
  obtain rfl : stop = _ := hstop
  exact excerpt_append before text after

/-- `Covers.excerpt_eq` backwards: between two boundaries the excerpt is what stands there. -/
theorem covers_excerpt {s : Span} {source : String} (hstart : CharBoundary source s.start)
    (hstop : CharBoundary source s.stop) (hle : s.start ≤ s.stop) :
    s.Covers source (s.excerpt source) := by
  obtain ⟨before, after, hsource, hbefore⟩ := hstart
  obtain ⟨upto, after', hsource', huntil⟩ := hstop
  -- of the two beginnings of the source the one with fewer bytes is a beginning of the other
  obtain ⟨mid, rfl⟩ : ∃ mid, upto = before ++ mid := by
    have hprefix : before.toList <+: source.toList := by
      rw [hsource, String.toList_append]
      exact List.prefix_append ..
    have hprefix' : upto.toList <+: source.toList := by
      rw [hsource', String.toList_append]
      exact List.prefix_append ..
    rcases List.prefix_or_prefix_of_prefix hprefix hprefix' with ⟨cs, hcs⟩ | ⟨cs, hcs⟩
    · refine ⟨String.ofList cs, ?_⟩
      rw [← String.toList_inj, String.toList_append, String.toList_ofList, hcs]
    · have heq : before = upto ++ String.ofList cs := by
        rw [← String.toList_inj, String.toList_append, String.toList_ofList, hcs]
      have hnone : String.ofList cs = "" := by
        rw [← String.utf8ByteSize_eq_zero_iff]
        have hsize := congrArg String.utf8ByteSize heq
        rw [String.utf8ByteSize_append] at hsize
        omega
      refine ⟨"", ?_⟩
      rw [heq, hnone, String.append_empty, String.append_empty]
  have hcovers : s.Covers source mid := by
    refine ⟨before, after', hsource', hbefore.symm, ?_⟩
    rw [← huntil, String.utf8ByteSize_append]
  rw [hcovers.excerpt_eq]
  exact hcovers

/-- `cover?` starts where one of the spans starts, stops where one of them stops, and has all of
them inside. By induction, since it merges one span after the other. -/
theorem cover?_spec {ss : List Span} {c : Span} (h : cover? ss = some c) :
    (∃ a ∈ ss, c.start = a.start) ∧ (∃ b ∈ ss, c.stop = b.stop) ∧
      ∀ s ∈ ss, c.start ≤ s.start ∧ s.stop ≤ c.stop := by
  cases ss with
  | nil => cases h
  | cons s ss =>
    obtain rfl : ss.foldl merge s = c := Option.some.inj h
    clear h
    induction ss generalizing s with
    | nil => simp
    | cons t ss ih =>
      -- the first two spans are merged, and the others are gone over from there
      obtain ⟨⟨a, ha, hstart⟩, ⟨b, hb, hstop⟩, hall⟩ := ih (s.merge t)
      rw [List.foldl_cons]
      have hmerged := hall (s.merge t) List.mem_cons_self
      refine ⟨?_, ?_, ?_⟩
      · rcases List.mem_cons.mp ha with rfl | ha
        · rcases Nat.le_total s.start t.start with hle | hle
          · exact ⟨s, by simp, by rw [hstart, merge, Nat.min_eq_left hle]⟩
          · exact ⟨t, by simp, by rw [hstart, merge, Nat.min_eq_right hle]⟩
        · exact ⟨a, by simp [ha], hstart⟩
      · rcases List.mem_cons.mp hb with rfl | hb
        · rcases Nat.le_total s.stop t.stop with hle | hle
          · exact ⟨t, by simp, by rw [hstop, merge, Nat.max_eq_right hle]⟩
          · exact ⟨s, by simp, by rw [hstop, merge, Nat.max_eq_left hle]⟩
        · exact ⟨b, by simp [hb], hstop⟩
      · refine List.forall_mem_cons.mpr ⟨?_, List.forall_mem_cons.mpr ⟨?_, ?_⟩⟩
        · exact ⟨Nat.le_trans hmerged.1 (Nat.min_le_left ..),
            Nat.le_trans (Nat.le_max_left ..) hmerged.2⟩
        · exact ⟨Nat.le_trans hmerged.1 (Nat.min_le_right ..),
            Nat.le_trans (Nat.le_max_right ..) hmerged.2⟩
        · exact fun u hu => hall u (List.mem_cons_of_mem _ hu)

end Span

/-! ## Trees -/

namespace Node

mutual
/-- All nodes of a tree, each before those below it. -/
def nodes : Node → List Node
  | ⟨kind, text, span, arrow, children⟩ =>
    ⟨kind, text, span, arrow, children⟩ :: nodesList children
def nodesList : List Node → List Node
  | [] => []
  | n :: rest => n.nodes ++ nodesList rest
end

/-- `nodesList` is there because `nodes` recurses through lists. -/
theorem nodesList_eq (ns : List Node) : nodesList ns = ns.flatMap nodes := by
  induction ns with
  | nil => rfl
  | cons n ns ih => rw [nodesList, ih, List.flatMap_cons]

/-- A node stands before all that is below it. `nodesList` is there only because `nodes` recurses
through lists. -/
theorem nodes_eq (n : Node) : n.nodes = n :: n.children.flatMap nodes := by
  cases n
  rw [nodes, nodesList_eq]

/-- The tokens of a tree, from left to right. -/
def leaves (n : Node) : List Node := n.nodes.filter (·.kind.isToken)

/-- A token has nothing below it. -/
theorem leaves_of_isToken {n : Node} (h : n.kind.isToken) (hchildren : n.children = []) :
    n.leaves = [n] := by
  simp [leaves, nodes_eq, hchildren, h]

/-- Other nodes have the `leaves` of their children. -/
theorem leaves_of_not_isToken {n : Node} (h : n.kind.isToken = false) :
    n.leaves = n.children.flatMap leaves := by
  rw [leaves, nodes_eq, List.filter_cons_of_neg (by simp [h]), List.filter_flatMap]
  rfl

/-- How a node stands to the source and to its children. -/
structure Placed (source : String) (n : Node) : Prop where
  /-- Its text is what its span covers. -/
  covers : n.span.Covers source n.text
  /-- Its children lie inside of it. -/
  within : ∀ c ∈ n.children, n.span.start ≤ c.span.start ∧ c.span.stop ≤ n.span.stop
  /-- They stand one behind the other. -/
  ordered : n.children.Pairwise fun a b => a.span.stop ≤ b.span.start
  /-- A call without arguments has an empty span between its parentheses. -/
  empty : n.kind = .arguments → n.children = [] → n.span.start = n.span.stop

/-- The node has just these tokens, everything in it is placed, and it lies between two offsets. -/
structure Fills (source : String) (lo hi : Nat) (tokens : List Token) (n : Node) : Prop where
  leaves : n.leaves = tokens.map (.ofToken source)
  placed : ∀ d ∈ n.nodes, d.Placed source
  lower : lo ≤ n.span.start
  upper : n.span.stop ≤ hi

/-- A node is one of its own `nodes`. -/
theorem Fills.self {source : String} {lo hi : Nat} {tokens : List Token} {n : Node}
    (h : n.Fills source lo hi tokens) : n.Placed source :=
  h.placed n (by rw [nodes_eq]; exact List.mem_cons_self)

end Node

/-- The nodes have just these tokens, and lie one behind the other between two offsets. -/
inductive Fill (source : String) : Nat → Nat → List Token → List Node → Prop where
  | nil {lo hi : Nat} (hle : lo ≤ hi) : Fill source lo hi [] []
  | cons {lo mid hi : Nat} {ts us : List Token} {n : Node} {ns : List Node}
      (hfirst : n.Fills source lo mid ts) (hothers : Fill source mid hi us ns) :
      Fill source lo hi (ts ++ us) (n :: ns)

namespace Fill

variable {source : String} {lo mid hi : Nat} {ts us : List Token} {ns ms : List Node}

/-- By induction on the nodes. None of them stops before it starts (`Covers.start_le_stop`). -/
theorem le (h : Fill source lo hi ts ns) : lo ≤ hi := by
  induction h with
  | nil hle => exact hle
  | cons hfirst _ ih =>
    have hlower := hfirst.lower
    have hspan := hfirst.self.covers.start_le_stop
    have hupper := hfirst.upper
    omega

/-- The nodes may start further to the right than `lo`. -/
theorem mono_left (h : Fill source mid hi ts ns) (hle : lo ≤ mid) : Fill source lo hi ts ns := by
  cases h with
  | nil hle' => exact .nil (Nat.le_trans hle hle')
  | cons hfirst hothers =>
    exact .cons { hfirst with lower := Nat.le_trans hle hfirst.lower } hothers

/-- Nodes from `lo` to `mid`, and others from `mid` on. -/
theorem append (h : Fill source lo mid ts ns) (h' : Fill source mid hi us ms) :
    Fill source lo hi (ts ++ us) (ns ++ ms) := by
  induction h with
  | nil hle => exact h'.mono_left hle
  | cons hfirst _ ih =>
    rw [List.append_assoc]
    exact .cons hfirst (ih h')

/-- `Fills.leaves` of each of the nodes, put together. -/
theorem leaves (h : Fill source lo hi ts ns) :
    ns.flatMap Node.leaves = ts.map (.ofToken source) := by
  induction h with
  | nil _ => rfl
  | cons hfirst _ ih => rw [List.flatMap_cons, ih, hfirst.leaves, List.map_append]

/-- `Fills.placed` of each of the nodes, put together. -/
theorem placed (h : Fill source lo hi ts ns) : ∀ d ∈ ns.flatMap Node.nodes, d.Placed source := by
  induction h with
  | nil _ => simp
  | cons hfirst _ ih =>
    rw [List.flatMap_cons]
    exact List.forall_mem_append.mpr ⟨hfirst.placed, ih⟩

/-- No node starts before `lo` or stops behind `hi`. -/
theorem bounds (h : Fill source lo hi ts ns) :
    ∀ n ∈ ns, lo ≤ n.span.start ∧ n.span.stop ≤ hi := by
  induction h with
  | nil _ => simp
  | cons hfirst hothers ih =>
    have hlower := hfirst.lower
    have hspan := hfirst.self.covers.start_le_stop
    have hupper := hfirst.upper
    have hle := hothers.le
    refine List.forall_mem_cons.mpr ⟨by omega, fun m hm => ?_⟩
    have hm := ih m hm
    omega

/-- Each node stops before the offset from which the others are, which is `Fill.bounds` of them. -/
theorem pairwise (h : Fill source lo hi ts ns) :
    ns.Pairwise fun a b => a.span.stop ≤ b.span.start := by
  induction h with
  | nil _ => exact .nil
  | cons hfirst hothers ih =>
    exact .cons (fun m hm => Nat.le_trans hfirst.upper (hothers.bounds m hm).1) ih

/-- A span around the nodes starts and stops between characters, in the right order, and between
`lo` and `hi` (`Span.cover?_spec`). -/
theorem cover? (h : Fill source lo hi ts ns) {c : Span}
    (hc : Span.cover? (ns.map Node.span) = some c) :
    CharBoundary source c.start ∧ CharBoundary source c.stop ∧ c.start ≤ c.stop ∧ lo ≤ c.start ∧
      c.stop ≤ hi ∧ ∀ n ∈ ns, c.start ≤ n.span.start ∧ n.span.stop ≤ c.stop := by
  obtain ⟨⟨a, ha, hstart⟩, ⟨b, hb, hstop⟩, hall⟩ := Span.cover?_spec hc
  obtain ⟨n, hn, rfl⟩ := List.mem_map.mp ha
  obtain ⟨m, hm, rfl⟩ := List.mem_map.mp hb
  -- each of the nodes is among its own nodes
  have hplaced (k : Node) (hk : k ∈ ns) : k.Placed source :=
    h.placed k (List.mem_flatMap.mpr ⟨k, hk, by rw [Node.nodes_eq]; exact List.mem_cons_self⟩)
  have hinside (k : Node) (hk : k ∈ ns) := hall k.span (List.mem_map_of_mem hk)
  have hn' := (hplaced n hn).covers
  have hm' := (hplaced m hm).covers
  refine ⟨hstart ▸ hn'.start, hstop ▸ hm'.stop, ?_, ?_, ?_, hinside⟩
  · have hle := hn'.start_le_stop
    have hin := hinside n hn
    omega
  · have hin := h.bounds n hn
    omega
  · have hin := h.bounds m hm
    omega

/-- The node above nodes that lie one behind the other. Without children it stands at `hi`. -/
theorem fills (h : Fill source lo hi ts ns) {n : Node} (hkind : n.kind.isToken = false)
    (hchildren : n.children = ns)
    (hspan : n.span = (Span.cover? (ns.map Node.span)).getD (.empty hi))
    (htext : n.text = n.span.excerpt source) (hhi : ns = [] → CharBoundary source hi) :
    n.Fills source lo hi ts := by
  have hleaves : n.leaves = ts.map (.ofToken source) := by
    rw [Node.leaves_of_not_isToken hkind, hchildren, h.leaves]
  have hplaced (hn : n.Placed source) : ∀ d ∈ n.nodes, d.Placed source := by
    rw [Node.nodes_eq, hchildren]
    exact List.forall_mem_cons.mpr ⟨hn, h.placed⟩
  cases hcover : Span.cover? (ns.map Node.span) with
  | none =>
    -- there are no children
    obtain rfl : ns = [] := by
      cases ns with
      | nil => rfl
      | cons m ns => cases hcover
    rw [hcover] at hspan
    have hstart : n.span.start = hi := by rw [hspan]; rfl
    have hstop : n.span.stop = hi := by rw [hspan]; rfl
    refine ⟨hleaves, hplaced ⟨?_, by simp [hchildren], by simp [hchildren], fun _ _ => ?_⟩, ?_, ?_⟩
    · rw [htext]
      exact Span.covers_excerpt (hstart ▸ hhi rfl) (hstop ▸ hhi rfl) (by omega)
    · omega
    · have hle := h.le
      omega
    · omega
  | some c =>
    rw [hcover] at hspan
    obtain rfl : c = n.span := hspan.symm
    obtain ⟨hstart, hstop, hle, hlower, hupper, hinside⟩ := h.cover? hcover
    refine ⟨hleaves, hplaced ⟨?_, ?_, ?_, fun _ hnone => ?_⟩, hlower, hupper⟩
    · rw [htext]
      exact Span.covers_excerpt hstart hstop hle
    · rw [hchildren]
      exact hinside
    · rw [hchildren]
      exact h.pairwise
    · rw [← hchildren, hnone] at hcover
      cases hcover

end Fill

/-! ## Tokens in order -/

section Tokens

variable (source : String)

/-- Where the first of some tokens starts; if there is none, where the source ends. -/
def startOf : List Token → Nat
  | [] => source.utf8ByteSize
  | t :: _ => t.span.start

/-- Tokens stand one behind the other. -/
def Ordered : List Token → Prop
  | [] => True
  | t :: ts => CharBoundary source t.span.start ∧ CharBoundary source t.span.stop ∧
    t.span.start ≤ t.span.stop ∧ t.span.stop ≤ startOf source ts ∧ Ordered ts

end Tokens

theorem Ordered.tail {source : String} {t : Token} {ts : List Token}
    (h : Ordered source (t :: ts)) : Ordered source ts := h.2.2.2.2

/-- A suffix of ordered tokens is ordered, by induction on the tokens that are left out. -/
theorem Ordered.suffix {source : String} {ts us : List Token} (h : Ordered source ts)
    (hs : us <:+ ts) : Ordered source us := by
  induction ts with
  | nil =>
    obtain rfl := List.suffix_nil.mp hs
    exact h
  | cons t ts ih =>
    rcases List.suffix_cons_iff.mp hs with rfl | hs
    · exact h
    · exact ih h.tail hs

/-- The end of a source is a boundary. -/
theorem boundary_size (source : String) : CharBoundary source source.utf8ByteSize :=
  ⟨source, "", String.append_empty.symm, rfl⟩

/-- At the start of a token, and at the end, the source can be cut. -/
theorem Ordered.boundary {source : String} {ts : List Token} (h : Ordered source ts) :
    CharBoundary source (startOf source ts) := by
  cases ts with
  | nil => exact boundary_size source
  | cons t ts => exact h.1

/-- None of the tokens starts before the first one, which is `startOf`. -/
theorem Ordered.startOf_le {source : String} {ts : List Token} (h : Ordered source ts) :
    ∀ t ∈ ts, startOf source ts ≤ t.span.start := by
  induction ts with
  | nil => exact List.forall_mem_nil _
  | cons u ts ih =>
    obtain ⟨_, _, hle, hnext, hrest⟩ := h
    refine List.forall_mem_cons.mpr ⟨Nat.le_refl _, fun t ht => ?_⟩
    have hlater := ih hrest t ht
    show u.span.start ≤ t.span.start
    omega

/-- `Ordered` compares neighbours only. For the others `Ordered.startOf_le` says where the tokens
behind start. -/
theorem Ordered.pairwise {source : String} {ts : List Token} (h : Ordered source ts) :
    ts.Pairwise fun t u => t.span.stop ≤ u.span.start := by
  induction ts with
  | nil => exact .nil
  | cons t ts ih =>
    obtain ⟨_, _, _, hnext, hrest⟩ := h
    exact .cons (fun u hu => Nat.le_trans hnext (hrest.startOf_le u hu)) (ih hrest)

/-- The pieces `ps` that are left behind `before` give tokens in order. The induction is on them,
and a piece without a token only adds to `before`. -/
theorem ordered_locate {source before : String} {ps : List Piece}
    (hsize : source.utf8ByteSize < Span.offsetCount)
    (hsource : source = before ++ String.ofList (ps.flatMap Piece.text)) :
    Ordered source ((Piece.locate before.utf8ByteSize ps).filterMap Piece.token? ++
        [⟨.eof, .between source.utf8ByteSize source.utf8ByteSize⟩]) ∧
      before.utf8ByteSize ≤ startOf source ((Piece.locate before.utf8ByteSize ps).filterMap
        Piece.token? ++ [⟨.eof, .between source.utf8ByteSize source.utf8ByteSize⟩]) := by
  have hwrap : source.utf8ByteSize % Span.offsetCount = source.utf8ByteSize :=
    Nat.mod_eq_of_lt hsize
  induction ps generalizing before with
  | nil =>
    have hend : source.utf8ByteSize = before.utf8ByteSize := by
      rw [hsource, List.flatMap_nil, String.ofList_nil, String.append_empty]
    refine ⟨⟨?_, ?_, Nat.le_refl _, ?_, trivial⟩, ?_⟩
    · rw [show (Span.between _ _).start = _ from hwrap]
      exact boundary_size source
    · rw [show (Span.between _ _).stop = _ from hwrap]
      exact boundary_size source
    · exact Nat.le_of_eq hwrap
    · exact Nat.le_of_eq (hend.symm.trans hwrap.symm)
  | cons p ps ih =>
    have hpiece : p.size = (String.ofList p.text).utf8ByteSize :=
      (Piece.utf8ByteSize_ofList p.text).symm
    have hsource' : source
        = (before ++ String.ofList p.text) ++ String.ofList (ps.flatMap Piece.text) := by
      rw [hsource, List.flatMap_cons, String.ofList_append, String.append_assoc]
    obtain ⟨hordered, hstart⟩ := ih hsource'
    rw [String.utf8ByteSize_append, ← hpiece] at hordered hstart
    rw [Piece.locate]
    cases p with
    | lexeme l =>
      have hstop : before.utf8ByteSize + (Piece.lexeme l).size < Span.offsetCount := by
        rw [hsource', String.utf8ByteSize_append, String.utf8ByteSize_append, ← hpiece] at hsize
        omega
      -- neither end of the token wraps around
      have hspan : (Piece.lexeme l).span before.utf8ByteSize
          = ⟨before.utf8ByteSize, before.utf8ByteSize + (Piece.lexeme l).size⟩ := by
        rw [Piece.span, Span.between, Nat.mod_eq_of_lt (by omega), Nat.mod_eq_of_lt hstop]
      rw [List.filterMap_cons_some (show Piece.token? (.lexeme l, _) = some ⟨l, _⟩ from rfl), hspan]
      refine ⟨⟨⟨before, _, hsource, rfl⟩, ⟨_, _, hsource', ?_⟩, Nat.le_add_right .., hstart,
        hordered⟩, Nat.le_refl _⟩
      rw [String.utf8ByteSize_append, hpiece]
    | _ =>
      rw [List.filterMap_cons_none rfl]
      exact ⟨hordered, Nat.le_trans (Nat.le_add_right ..) hstart⟩

/-- `ordered_locate` for all pieces, with nothing before them. -/
theorem ordered_scan {source : String} (hsize : source.utf8ByteSize < Span.offsetCount) :
    Ordered source (scan source).tokens := by
  have hsource : source = "" ++ String.ofList ((Piece.split source.toList).flatMap Piece.text) := by
    rw [Piece.flatMap_text_split, String.ofList_toList, String.empty_append]
  rw [tokens_scan]
  exact (ordered_locate hsize hsource).1

/-! ## Readings -/

/-- The nodes are laid over the tokens that the first list has in front of the second. -/
def Laid (source : String) (i : List Token) (ns : List Node) (o : List Token) : Prop :=
  ∃ ts, i = ts ++ o ∧ (Ordered source i → Fill source (startOf source i) (startOf source o) ts ns)

namespace Laid

variable {source : String} {i m o : List Token} {ns ms : List Node}

theorem nil (i : List Token) : Laid source i [] i :=
  ⟨[], rfl, fun _ => .nil (Nat.le_refl _)⟩

/-- Nodes over neighbouring tokens are laid side by side. -/
theorem append (h : Laid source i ns m) (h' : Laid source m ms o) :
    Laid source i (ns ++ ms) o := by
  obtain ⟨ts, rfl, hfill⟩ := h
  obtain ⟨us, rfl, hfill'⟩ := h'
  refine ⟨ts ++ us, (List.append_assoc ..).symm, fun hordered => ?_⟩
  exact (hfill hordered).append (hfill' (hordered.suffix (List.suffix_append ..)))

/-- A leaf is laid over its token. `Ordered` says that the token starts and stops between
characters. -/
theorem token (t : Token) (ts : List Token) : Laid source (t :: ts) [.ofToken source t] ts := by
  refine ⟨[t], rfl, fun hordered => ?_⟩
  obtain ⟨hstart, hstop, hle, hnext, _⟩ := hordered
  have hplaced : (Node.ofToken source t).Placed source :=
    ⟨Span.covers_excerpt hstart hstop hle, fun c hc => absurd hc List.not_mem_nil, .nil,
      fun hkind => by cases hkind⟩
  have hfills : (Node.ofToken source t).Fills source t.span.start (startOf source ts) [t] := by
    refine ⟨Node.leaves_of_isToken rfl rfl, ?_, Nat.le_refl _, hnext⟩
    rw [Node.nodes_eq]
    exact List.forall_mem_cons.mpr ⟨hplaced, fun d hd => absurd hd List.not_mem_nil⟩
  exact .cons hfills (.nil (Nat.le_refl _))

/-- A leaf in front of what is laid over the tokens behind it. -/
theorem cons {t : Token} {ts : List Token} (h : Laid source ts ns o) :
    Laid source (t :: ts) (.ofToken source t :: ns) o :=
  (token t ts).append h

/-- A leaf behind what is laid over the tokens in front of it. -/
theorem snoc {t : Token} {ts : List Token} (h : Laid source i ns (t :: ts)) :
    Laid source i (ns ++ [.ofToken source t]) ts :=
  h.append (token t ts)

/-- `Fill.fills` for the node above nodes that are laid. Without nodes it stands where the tokens go
on. -/
theorem inner (h : Laid source i ns o) {n : Node} (hkind : n.kind.isToken = false)
    (hchildren : n.children = ns)
    (hspan : n.span = (Span.cover? (ns.map Node.span)).getD (.empty (startOf source o)))
    (htext : n.text = n.span.excerpt source) : Laid source i [n] o := by
  obtain ⟨ts, rfl, hfill⟩ := h
  refine ⟨ts, rfl, fun hordered => ?_⟩
  have hend : Ordered source o := hordered.suffix (List.suffix_append ..)
  have hfills := (hfill hordered).fills hkind hchildren hspan htext fun _ => hend.boundary
  have hcons := Fill.cons hfills (.nil (Nat.le_refl _))
  rwa [List.append_nil] at hcons

/-- `Laid.inner` for a node that takes its span from its children. -/
theorem above {n : Node} (kind : NodeKind) (h : Laid source i (n :: ns) o)
    (hkind : kind.isToken = false := by rfl) :
    Laid source i [.above source kind (n :: ns)] o :=
  h.inner hkind rfl rfl rfl

theorem primaryOf {n : Node} (h : Laid source i [n] o) :
    Laid source i [.primaryOf source n] o :=
  (h.above .primary).above .expression

theorem functionOf {n : Node} {arrow : Bool} (h : Laid source i (n :: ns) o) :
    Laid source i [.functionOf source arrow (n :: ns)] o :=
  h.inner rfl rfl rfl rfl

/-- `Laid.inner` for the arguments of a call, which stand before its closing parenthesis, also if
there are none. -/
theorem arguments {t : Token} {ts : List Token} (h : Laid source i ns (t :: ts)) :
    Laid source i [.above source .arguments ns t.span.start] (t :: ts) :=
  h.inner rfl rfl rfl rfl

end Laid

/-- Names and commas are leaves, and there is one at least. -/
theorem laid_of_readsNames {source : String} {i o : List Token} {ns : List Node}
    (h : ReadsNames source i ns o) : Laid source i ns o ∧ ns ≠ [] := by
  induction h with
  | last _ _ => exact ⟨.token .., List.cons_ne_nil _ _⟩
  | more _ _ _ ih => exact ⟨ih.1.cons.cons, List.cons_ne_nil _ _⟩

/-- Without names there is no node, and nothing is laid over no tokens. -/
theorem laid_of_readsParameters {source : String} {i o : List Token} {ns : List Node}
    (h : ReadsParameters source i ns o) : Laid source i ns o := by
  cases h with
  | none _ => exact .nil _
  | some hnames =>
    obtain ⟨hlaid, hne⟩ := laid_of_readsNames hnames
    obtain ⟨n, ns, rfl⟩ := List.exists_cons_of_ne_nil hne
    exact hlaid.above .parameters

/-- What a rule reads is laid over the tokens that it takes. Where the rule goes on from nodes that
are already there, so does the layer. -/
def LaidBy (source : String) : Rule → List Token → List Node → List Token → Prop
  | .operations _ n, i, ns, o | .calls n, i, ns, o =>
    ∀ before, Laid source before [n] i → Laid source before ns o
  | .lambda head, i, ns, o => ∀ before, Laid source before head i → Laid source before ns o
  | .statement, i, ns, o | .statements, i, ns, o | .block, i, ns, o
  | .conditionAndBody, i, ns, o | .expression _, i, ns, o | .operand, i, ns, o
  | .primary, i, ns, o | .expressions, i, ns, o | .expressionsUnless _, i, ns, o =>
    Laid source i ns o

/-- By induction on the reading: each rule of `Reads` says what its nodes are put together from, and
each of them is one of the lemmas on `Laid`. -/
theorem laidBy_of_reads {source : String} {rule : Rule} {i o : List Token} {ns : List Node}
    (h : Reads source rule i ns o) : LaidBy source rule i ns o := by
  induction h with
  | stop _ | noExpressions _ => exact .nil _
  | next _ _ ih ih' => exact Laid.append ih ih'
  | block _ _ _ ih => exact (Laid.snoc (Laid.cons ih)).above .block
  -- statements
  | declare _ _ _ =>
    exact (((Laid.token _ _).cons.above .declaration).snoc).above .statement
  | declareValue _ _ _ _ _ ih =>
    exact ((Laid.above .declaration (Laid.cons (Laid.cons (Laid.cons ih)))).snoc).above .statement
  | assign _ _ _ _ ih =>
    exact ((Laid.above .assignment (Laid.cons (Laid.cons ih))).snoc).above .statement
  | functionValue _ _ _ hparams _ _ _ _ ih =>
    have hparams := laid_of_readsParameters hparams
    exact (hparams.cons.cons.cons.append (Laid.snoc ih).cons.cons).functionOf.above .statement
  | functionBlock _ _ _ hparams _ _ ih =>
    have hparams := laid_of_readsParameters hparams
    exact (hparams.cons.cons.cons.append (Laid.cons ih)).functionOf.above .statement
  | returnNothing _ _ =>
    exact (((Laid.token _ _).above .returning).snoc).above .statement
  | returnValue _ _ _ ih =>
    exact ((Laid.above .returning (Laid.cons ih)).snoc).above .statement
  | conditionAndBody _ _ _ _ ih ih' =>
    exact (Laid.cons (Laid.cons ih)).append (Laid.cons ih')
  | conditional _ hhead _ ih | loop _ hhead ih =>
    cases hhead
    exact (Laid.above _ ih).above .statement
  | conditionalElse _ hhead _ _ ih ih' =>
    cases hhead
    exact (Laid.above .conditional (Laid.append ih (Laid.cons ih'))).above .statement
  | blockStatement _ ih => exact Laid.above .statement ih
  | expressionStatement _ _ ih => exact (Laid.snoc ih).above .statement
  -- operators and calls go on from what stands before them
  | expression _ _ ih ih' | operand _ _ ih ih' => exact ih' _ ih
  | operationsEnd _ | callsEnd _ => exact fun _ hbefore => hbefore
  | operation _ _ _ _ ih ih' =>
    exact fun _ hbefore => ih' _ ((hbefore.append (Laid.cons ih)).above .expression)
  | negation _ _ ih => exact (Laid.cons ih).above .expression
  | call _ _ _ _ ih ih' =>
    refine fun _ hbefore => ih' _ ?_
    exact (hbefore.append (Laid.arguments ih).snoc.cons).above .expression
  | someExpressions _ ih => exact ih
  | lastExpression _ _ ih => exact ih
  | moreExpressions _ _ _ ih ih' => exact Laid.append ih (Laid.cons ih')
  -- primaries
  | literal _ | name _ _ => exact (Laid.token _ _).primaryOf
  | array _ _ _ ih => exact ((Laid.snoc (Laid.cons ih)).above .array).primaryOf
  | group _ _ _ _ ih => exact (Laid.snoc (Laid.cons ih)).above .expression
  | nameLambda _ _ _ ih => exact ih _ ((Laid.token _ _).above .parameters)
  | parenthesizedLambda _ _ hparams _ _ ih =>
    exact ih _ (laid_of_readsParameters hparams).cons.snoc
  | @lambdaBlock head _ _ _ _ _ _ ih | @lambdaValue head _ _ _ _ _ _ ih =>
    intro _ hhead
    cases head with
    | nil | cons _ _ => exact (Laid.above .lambda (hhead.append (Laid.cons ih))).primaryOf

/-! ## The tree of a source -/

namespace Node

/-- `Parser.reads_of_ofTokens` for the tokens of a source that the scanner has nothing against. -/
theorem reads_of_parse {source : String} {limit : Nat} {tree : Node}
    (h : parse source limit = .ok tree) :
    (scan source).errors = [] ∧ ∃ ns t, tree = root source ns ∧ t.lexeme = .eof ∧
      Reads source .statements (scan source).tokens ns [t] := by
  obtain ⟨herrors, htree⟩ := parse_eq_ok_iff.mp h
  exact ⟨herrors, Parser.reads_of_ofTokens (endsOnce_scan source) htree⟩

/-- The root covers the whole source, so it is `Placed` wherever its children stand. -/
theorem placed_root {source : String} {ts : List Token} {ns : List Node} {lo hi : Nat}
    (hsize : source.utf8ByteSize < Span.offsetCount) (h : Fill source lo hi ts ns)
    (hhi : hi ≤ source.utf8ByteSize) : (root source ns).Placed source := by
  have hstart : (root source ns).span.start = 0 := rfl
  have hstop : (root source ns).span.stop = source.utf8ByteSize := Nat.mod_eq_of_lt hsize
  refine ⟨?_, fun c hc => ?_, h.pairwise, fun hkind => by cases hkind⟩
  · refine Span.covers_excerpt ?_ (hstop ▸ boundary_size source) (by omega)
    exact ⟨"", source, String.empty_append.symm, rfl⟩
  · have hbounds := h.bounds c hc
    omega

/-- The tree of a source of less than 4 GiB keeps all of it: its leaves are the tokens up to the end
of the source, each with its span, its kind and its spelling, and every node is `Placed`. -/
theorem parse_lossless {source : String} {limit : Nat} {tree : Node}
    (hsize : source.utf8ByteSize < 2 ^ 32) (h : parse source limit = .ok tree) :
    (∃ ts t, (scan source).tokens = ts ++ [t] ∧ t.lexeme = .eof ∧
      tree.leaves = ts.map fun u => leaf (.ofLexeme u.lexeme) u.lexeme.spelling u.span) ∧
    ∀ n ∈ tree.nodes, n.Placed source := by
  obtain ⟨herrors, ns, t, rfl, ht, hreads⟩ := reads_of_parse h
  obtain ⟨ts, htokens, hfill⟩ : Laid source _ ns [t] := laidBy_of_reads hreads
  have hordered := ordered_scan hsize
  have hfill := hfill hordered
  constructor
  · refine ⟨ts, t, htokens, ht, ?_⟩
    rw [leaves_of_not_isToken rfl]
    refine hfill.leaves.trans (List.map_congr_left fun u hu => ?_)
    -- nothing was reported, so the excerpt is the spelling
    have hfaithful : u.Faithful source :=
      faithful_of_mem_scan hsize herrors (by rw [htokens]; exact List.mem_append_left _ hu)
    rw [ofToken, covering, hfaithful.excerpt, leaf]
  · obtain ⟨_, _, hle, hend, _⟩ : Ordered source [t] :=
      hordered.suffix (htokens ▸ List.suffix_append ..)
    rw [nodes_eq]
    exact List.forall_mem_cons.mpr ⟨placed_root hsize hfill (Nat.le_trans hle hend), hfill.placed⟩

/-- A call without arguments, and two characters of more than one byte, one of them in a comment. -/
theorem parse_lossless_sample :
    "f( ); // é\n!\"é\";".utf8ByteSize < 2 ^ 32 ∧
      ∃ tree, parse "f( ); // é\n!\"é\";" 8 = .ok tree ∧
        tree.leaves.map text = ["f", "(", ")", ";", "!", "\"é\"", ";"] ∧
        ∀ n ∈ tree.nodes, n.Placed "f( ); // é\n!\"é\";" := by
  have hparse : (parse "f( ); // é\n!\"é\";" 8).isOk := by decide +kernel
  refine ⟨by decide, ?_⟩
  cases h : parse "f( ); // é\n!\"é\";" 8 with
  | error e =>
    rw [h] at hparse
    cases hparse
  | ok tree =>
    obtain ⟨⟨ts, t, htokens, _, hleaves⟩, hplaced⟩ := parse_lossless (by decide) h
    have htexts : ts.map (·.lexeme.spelling)
        = (scan "f( ); // é\n!\"é\";").tokens.dropLast.map (·.lexeme.spelling) := by
      rw [htokens, List.dropLast_concat]
    refine ⟨tree, rfl, ?_, hplaced⟩
    rw [hleaves, List.map_map]
    exact htexts.trans (by decide +kernel)

end Node

end SimpleLang
