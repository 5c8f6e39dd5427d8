import Mathlib
import SimpleLang.Proofs.Parser.Levels

/-!
# The tokens from the cursor on

What a parser sees of its state is a stream of tokens: the one at the cursor and those behind it.
The tokens of a source end with an end-of-source token that is the only one (`EndsOnce`), so off any
other token the cursor can move on (`stream_advance`). The tree of a list of tokens is what a run
over them builds without an error (`ofTokens_eq_ok_iff`).
-/

namespace SimpleLang

namespace Parser

def State.stream (s : State) : List Token := s.current :: s.ahead

/-- The tokens end with an end-of-source token, and no other one is among them. -/
def EndsOnce : List Token → Prop
  | [] => False
  | [t] => t.lexeme = .eof
  | t :: u :: ts => t.lexeme ≠ .eof ∧ EndsOnce (u :: ts)

theorem EndsOnce.ne_nil {ts : List Token} (h : EndsOnce ts) : ts ≠ [] := by
  rintro rfl
  exact h

/-- `EndsOnce` passes to the tokens behind any other token than the end, as there are some. -/
theorem EndsOnce.tail {t : Token} {ts : List Token} (h : EndsOnce (t :: ts))
    (hne : t.lexeme ≠ .eof) : EndsOnce ts := by
  cases ts with
  | nil => exact absurd h hne
  | cons u us => exact h.2

/-- Looking one token further is possible off the end, so `peekSecond` does not fall back on the
current token. -/
theorem EndsOnce.exists_second {t : Token} {ts : List Token} (h : EndsOnce (t :: ts))
    (hne : t.lexeme ≠ .eof) : ∃ u us, ts = u :: us :=
  List.exists_cons_of_ne_nil (h.tail hne).ne_nil

/-- `EndsOnce` passes to every nonempty end of the tokens. The streams that a parse goes through are
such ends. -/
theorem EndsOnce.suffix {ts us : List Token} (h : EndsOnce ts) (hs : us <:+ ts) (hne : us ≠ []) :
    EndsOnce us := by
  induction ts with
  | nil => exact absurd h id
  | cons t ts ih =>
    rcases List.suffix_cons_iff.mp hs with rfl | hs
    · exact h
    · cases ts with
      | nil => exact absurd (List.suffix_nil.mp hs) hne
      | cons u ts => exact ih h.2 hs

/-- The end can only be the last token. -/
theorem EndsOnce.eq_singleton {t : Token} {ts : List Token} (h : EndsOnce (t :: ts))
    (heof : t.lexeme = .eof) : ts = [] := by
  cases ts with
  | nil => rfl
  | cons u us => exact absurd heof h.1

/-- What stands before other tokens is not the end, or there would be nothing behind it. -/
theorem EndsOnce.ne_eof {ts us : List Token} (h : EndsOnce (ts ++ us)) (hus : us ≠ []) :
    ∀ t ∈ ts, t.lexeme ≠ .eof := by
  induction ts with
  | nil => exact List.forall_mem_nil _
  | cons t ts ih =>
    have hne : t.lexeme ≠ .eof := fun heof =>
      List.append_ne_nil_of_right_ne_nil ts hus (h.eq_singleton heof)
    exact List.forall_mem_cons.mpr ⟨hne, ih (h.tail hne)⟩

/-- Tokens without an end, and one behind them: this is how a scan builds its tokens. -/
theorem endsOnce_append {ts : List Token} {t : Token} (hts : ∀ u ∈ ts, u.lexeme ≠ .eof)
    (ht : t.lexeme = .eof) : EndsOnce (ts ++ [t]) := by
  induction ts with
  | nil => exact ht
  | cons u ts ih =>
    obtain ⟨v, vs, hv⟩ := List.exists_cons_of_ne_nil (List.append_ne_nil_of_right_ne_nil ts
      (List.cons_ne_nil t []))
    have hrest := ih fun v hv => hts v (List.mem_cons_of_mem u hv)
    rw [hv] at hrest
    rw [List.cons_append, hv]
    exact ⟨hts u List.mem_cons_self, hrest⟩

/-- The lexeme at the cursor satisfies a condition. This is what a rule has tested before it goes
on. -/
def AtCursor (P : Lexeme → Prop) (i : List Token) : Prop := ∃ t ts, i = t :: ts ∧ P t.lexeme

theorem AtCursor.imp {P Q : Lexeme → Prop} {i : List Token} (h : AtCursor P i)
    (hPQ : ∀ l, P l → Q l) : AtCursor Q i := by
  obtain ⟨t, ts, rfl, ht⟩ := h
  exact ⟨t, ts, rfl, hPQ _ ht⟩

/-! ## Parsers in sequence -/

/-- The bind of `EStateM` unfolded once, so that a run is followed parser by parser. -/
theorem bind_of_ok {α β : Type} {p : Parser α} {f : α → Parser β} {s t : State} {a : α}
    (h : p s = .ok a t) : (p >>= f) s = f a t := by
  show EStateM.bind p f s = _
  rw [EStateM.bind, h]

/-- The other case of `bind_of_ok`: after `Stopped.tooDeep` nothing else runs. -/
theorem bind_of_error {α β : Type} {p : Parser α} {f : α → Parser β} {s t : State}
    {e : Stopped} (h : p s = .error e t) : (p >>= f) s = .error e t := by
  show EStateM.bind p f s = _
  rw [EStateM.bind, h]

/-- A sequence that ends has a first part that ends, in the state that the second one starts
from. -/
theorem exists_of_bind_ok {α β : Type} {p : Parser α} {f : α → Parser β} {s t : State} {b : β}
    (h : (p >>= f) s = .ok b t) : ∃ a u, p s = .ok a u ∧ f a u = .ok b t := by
  change EStateM.bind p f s = _ at h
  unfold EStateM.bind at h
  cases hp : p s with
  | ok a u =>
    rw [hp] at h
    exact ⟨a, u, rfl, h⟩
  | error e u =>
    rw [hp] at h
    cases h

/-! ## Moving the cursor -/

/-- The cursor only moves to the right, so what is ahead is always an end of what was. -/
theorem State.stream_advance_suffix (s : State) : s.advance.stream <:+ s.stream := by
  cases hahead : s.ahead with
  | nil => simp [State.advance, State.stream, hahead]
  | cons t ts => simp [State.advance, State.stream, hahead]

/-- Position and stream together keep count of the tokens: one grows as the other gets shorter. -/
theorem State.position_advance (s : State) :
    s.advance.position + s.advance.stream.length = s.position + s.stream.length := by
  cases hahead : s.ahead with
  | nil => simp [State.advance, State.stream, hahead]
  | cons t ts =>
    simp only [State.advance, State.stream, hahead, List.length_cons]
    omega

@[simp] theorem State.errors_advance (s : State) : s.advance.errors = s.errors := by
  cases hahead : s.ahead with
  | nil => simp [State.advance, hahead]
  | cons t ts => simp [State.advance, hahead]

/-- `State.advance` stays on the last token, which by `EndsOnce` is the end. Off any other one the
stream loses its first token. -/
theorem stream_advance {s : State} (hs : EndsOnce s.stream) (hne : s.current.lexeme ≠ .eof) :
    s.advance.stream = s.ahead := by
  cases hahead : s.ahead with
  | nil =>
    rw [State.stream, hahead] at hs
    exact absurd hs hne
  | cons t ts => simp [State.advance, State.stream, hahead]

/-! ## Guards -/

/-- `guardedStatement` is `level.enter .statement` where the latter reports nothing and moves the
cursor. Both tests of the guard then fail. -/
theorem guardedStatement_of_enter {level : Level} {s s' : State} {n : Node}
    (h : level.enter .statement s = .ok n s') (herrors : ¬ s.errors.size < s'.errors.size)
    (hposition : s.position ≠ s'.position) : guardedStatement level s = .ok n s' := by
  show EStateM.bind (level.enter .statement) _ s = _
  rw [EStateM.bind, h]
  show (if s.errors.size < s'.errors.size then _ else _ : Parser Node) s' = _
  rw [if_neg herrors]
  show (if s.position = s'.position then _ else _ : Parser Node) s' = _
  rw [if_neg hposition]
  rfl

/-! ## Trees -/

/-- A tree is the root over what `program` returns, if no error was reported on the way. -/
theorem ofTokens_eq_ok_iff {source : String} {limit : Nat} {tree : Node} {tokens : List Token} :
    ofTokens source tokens limit = .ok tree ↔
      ∃ ns s, program source limit (.start tokens) = .ok ns s ∧ s.errors = #[] ∧
        .covering source .program (.between 0 source.utf8ByteSize) ns = tree := by
  rw [ofTokens]
  cases hrun : program source limit (.start tokens) with
  | error e s => simp
  | ok ns s => by_cases hclean : s.errors = #[] <;> simp [hclean]

end Parser

end SimpleLang
