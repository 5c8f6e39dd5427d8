import SimpleLang.Proofs.Machine.StepLimit

/-!
# Runs on a sink that is full at some point

Nothing but a write looks at how much a sink can take. A run on a sink that takes `k` bytes is
therefore the run on a sink that takes everything, up to the write that goes beyond the `k`-th byte:
there it stops, with the first `k` bytes of the whole output.

* `Sink.writeEach_eq_write`: a line is written in pieces, and a sink with a capacity does with them
  what it does with the whole line, wherever the line is cut.
* `Run.Clips k r`: on a sink that takes `k` bytes, `r` does what it does on one that takes
  everything, or it stops because the sink is full. `Run.respects_clips`: every run is so.
* `limited_sink_truncates` is the statement for whole programs.
-/

namespace SimpleLang

namespace Sink

/-! ## Writing in pieces -/

/-- The sink once it has taken a text whole. -/
def taking (s : Sink) (text : String) : Sink :=
  { s with state := s.state + text.utf8ByteSize, bytes := s.bytes ++ text.toUTF8 }

variable {s : Sink} {capacity : Option Nat} {refusesFlush : Bool}

/-- Without a capacity the hypothesis is empty. -/
theorem write_of_fits (hwriter : s.writer = .limited capacity refusesFlush) {text : String}
    (h : ∀ limit, capacity = some limit → s.state + text.utf8ByteSize ≤ limit) :
    s.write text = (none, s.taking text) := by
  unfold write taking
  rw [hwriter]
  cases capacity with
  | none => rfl
  | some limit => simp only [Writer.limited, if_pos (h limit rfl)]

/-- The text is cut where the sink is full, and from then on its state is the limit. -/
theorem write_of_lt {limit : Nat} (hwriter : s.writer = .limited (some limit) refusesFlush)
    {text : String} (h : limit < s.state + text.utf8ByteSize) :
    s.write text = (some "sink full", { s with
      state := limit, bytes := s.bytes ++ text.toUTF8.extract 0 (limit - s.state) }) := by
  unfold write
  rw [hwriter]
  simp only [Writer.limited, if_neg (Nat.not_le.mpr h)]

theorem utf8ByteSize_join_cons (text : String) (rest : List String) :
    (String.join (text :: rest)).utf8ByteSize
      = text.utf8ByteSize + (String.join rest).utf8ByteSize := by
  rw [String.join_cons, String.utf8ByteSize_append]

/-- The first `k` bytes of all pieces are those of the first piece, and of the others as many as are
left. -/
theorem extract_join_cons (text : String) (rest : List String) (k : Nat) :
    (String.join (text :: rest)).toUTF8.extract 0 k = text.toUTF8.extract 0 k
      ++ (String.join rest).toUTF8.extract 0 (k - text.utf8ByteSize) := by
  rw [toUTF8_join_cons, ByteArray.extract_append, Nat.zero_sub]
  rfl

/-- Taking the pieces one after the other is taking them at once. -/
theorem taking_join_cons (s : Sink) (piece : String) (rest : List String) :
    s.taking (String.join (piece :: rest)) = (s.taking piece).taking (String.join rest) := by
  unfold taking
  rw [utf8ByteSize_join_cons, toUTF8_join_cons, ByteArray.append_assoc, Nat.add_assoc]

/-- A sink takes a text as it takes the pieces of the text. -/
theorem writeEach_eq_write (hwriter : s.writer = .limited capacity refusesFlush)
    (hstate : ∀ limit, capacity = some limit → s.state ≤ limit) (pieces : List String) :
    s.writeEach pieces = s.write (String.join pieces) := by
  induction pieces generalizing s with
  | nil =>
    have hwrite : s.write (String.join []) = (none, s.taking (String.join [])) :=
      write_of_fits hwriter hstate
    rw [hwrite]
    show (none, s) = (none, { s with bytes := s.bytes ++ .empty })
    rw [ByteArray.append_empty]
  | cons piece rest ih =>
    by_cases hpiece : ∀ limit, capacity = some limit → s.state + piece.utf8ByteSize ≤ limit
    · have hwrite := write_of_fits hwriter hpiece
      have hwriter' : (s.taking piece).writer = .limited capacity refusesFlush := hwriter
      rw [writeEach_cons_of_none (by rw [hwrite]), hwrite, ih hwriter' hpiece]
      by_cases hall : ∀ limit, capacity = some limit →
          (s.taking piece).state + (String.join rest).utf8ByteSize ≤ limit
      · have hall' : ∀ limit, capacity = some limit →
            s.state + (String.join (piece :: rest)).utf8ByteSize ≤ limit := by
          rw [utf8ByteSize_join_cons, ← Nat.add_assoc]
          exact hall
        rw [write_of_fits hwriter' hall, write_of_fits hwriter hall', taking_join_cons]
      · obtain ⟨limit, rfl, hlt⟩ : ∃ limit, capacity = some limit ∧
            limit < (s.taking piece).state + (String.join rest).utf8ByteSize := by
          simpa using hall
        have hlt' : limit < s.state + (String.join (piece :: rest)).utf8ByteSize := by
          rw [utf8ByteSize_join_cons, ← Nat.add_assoc]
          exact hlt
        -- the piece is taken whole, and of the rest what fits
        have hle : piece.toUTF8.size ≤ limit - s.state := by
          have := hpiece limit rfl
          show piece.utf8ByteSize ≤ _
          omega
        have hwhole : piece.toUTF8.extract 0 (limit - s.state) = piece.toUTF8 := by
          apply ByteArray.ext
          simp [ByteArray.data_extract, Array.extract_eq_self_of_le hle]
        rw [write_of_lt hwriter' hlt, write_of_lt hwriter hlt', extract_join_cons, hwhole,
          ← ByteArray.append_assoc, Nat.sub_sub]
        rfl
    · -- the sink is full within this piece, and the pieces after it change nothing
      obtain ⟨limit, rfl, hlt⟩ :
          ∃ limit, capacity = some limit ∧ limit < s.state + piece.utf8ByteSize := by
        simpa using hpiece
      have hlt' : limit < s.state + (String.join (piece :: rest)).utf8ByteSize := by
        rw [utf8ByteSize_join_cons]
        omega
      have hnone : limit - s.state - piece.utf8ByteSize = 0 := by omega
      have hwrite := write_of_lt hwriter hlt
      rw [writeEach_cons_of_some (by rw [hwrite]), hwrite, write_of_lt hwriter hlt',
        extract_join_cons, hnone, ByteArray.extract_eq_empty_iff.mpr (Nat.min_le_left _ _),
        ByteArray.append_empty]

/-! ## Sinks that take everything -/

/-- The sink takes everything, and its state counts the bytes. -/
structure Unlimited (s : Sink) : Prop where
  writer : s.writer = .limited none false
  state : s.state = s.bytes.size

/-- The sink with a capacity. -/
def capped (k : Nat) (s : Sink) : Sink := { s with writer := .limited (some k) false }

/-- The state counts the bytes that are added. -/
theorem Unlimited.taking (h : s.Unlimited) (text : String) : (s.taking text).Unlimited := by
  refine ⟨h.writer, ?_⟩
  show s.state + text.utf8ByteSize = (s.bytes ++ text.toUTF8).size
  rw [ByteArray.size_append, h.state]
  rfl

/-- Without a capacity every piece fits. -/
theorem Unlimited.writeEach (h : s.Unlimited) (pieces : List String) :
    s.writeEach pieces = (none, s.taking (String.join pieces)) := by
  have hnone (limit : Nat) (hlimit : (none : Option Nat) = some limit) {n : Nat} : n ≤ limit := by
    cases hlimit
  rw [writeEach_eq_write h.writer fun limit hlimit => hnone limit hlimit,
    write_of_fits h.writer fun limit hlimit => hnone limit hlimit]

/-- Only a writer with `refusesFlush` fails here. -/
theorem Unlimited.flush (h : s.Unlimited) : s.flush = (none, s) := by
  unfold Sink.flush
  rw [h.writer]
  show (none, { s with writer := _ }) = _
  rw [← h.writer]

/-- With a capacity the same pieces are taken, if there is room for them, or else their beginning.
-/
theorem Unlimited.writeEach_capped (h : s.Unlimited) {k : Nat} (hk : s.bytes.size ≤ k)
    (pieces : List String) :
    ((s.taking (String.join pieces)).bytes.size ≤ k ∧
      (s.capped k).writeEach pieces = (none, (s.taking (String.join pieces)).capped k)) ∨
    k < (s.taking (String.join pieces)).bytes.size ∧ ∃ s' : Sink,
      (s.capped k).writeEach pieces = (some "sink full", s') ∧
        s'.bytes = (s.taking (String.join pieces)).bytes.extract 0 k := by
  have hsize : (s.taking (String.join pieces)).bytes.size
      = (s.capped k).state + (String.join pieces).utf8ByteSize := (h.taking _).state.symm
  have hstate : (s.capped k).state ≤ k := h.state.trans_le hk
  have hjoin : (s.capped k).writeEach pieces = (s.capped k).write (String.join pieces) :=
    writeEach_eq_write rfl (fun limit hlimit => Option.some.inj hlimit ▸ hstate) pieces
  rw [hjoin, hsize]
  by_cases hle : (s.capped k).state + (String.join pieces).utf8ByteSize ≤ k
  · refine .inl ⟨hle, ?_⟩
    rw [write_of_fits rfl fun limit hlimit => Option.some.inj hlimit ▸ hle]
    rfl
  · refine .inr ⟨Nat.lt_of_not_le hle, _, write_of_lt rfl (Nat.lt_of_not_le hle), ?_⟩
    -- what was taken before is within the capacity, so it is not cut
    have hkept : s.bytes.extract 0 k = s.bytes := by
      apply ByteArray.ext
      simp [ByteArray.data_extract, Array.extract_eq_self_of_le hk]
    show s.bytes ++ _ = (s.bytes ++ (String.join pieces).toUTF8).extract 0 k
    rw [ByteArray.extract_append, hkept, Nat.zero_sub, ← h.state]
    rfl

end Sink

def Machine.capped (k : Nat) (m : Machine Nat) : Machine Nat := { m with sink := m.sink.capped k }

namespace Run

variable {α β : Type} {k : Nat}

/-! ## Runs that are clipped -/

def capped (k : Nat) : EStateM.Result Stop (Machine Nat) α → EStateM.Result Stop (Machine Nat) α
  | .ok a m => .ok a (m.capped k)
  | .error e m => .error e (m.capped k)

/-- The second result leaves at most `k` bytes and the first one is the same. Or it leaves more, and
the first one is the stop at a full sink, which has taken the first `k` of these bytes. -/
def Clipped (k : Nat) (x y : EStateM.Result Stop (Machine Nat) α) : Prop :=
  (after y).sink.bytes.size ≤ k ∧ x = capped k y ∨
    k < (after y).sink.bytes.size ∧
      ∃ m, x = .error (.fault (.notWritten "sink full")) m ∧
        m.sink.bytes = (after y).sink.bytes.extract 0 k

/-- On a sink that takes everything the run only adds to the output, and on a sink that takes `k`
bytes it is clipped. -/
structure Clips (k : Nat) (r : Run Nat α) : Prop where
  grows : ∀ m : Machine Nat, m.sink.Unlimited →
    (after (r m)).sink.Unlimited ∧ m.sink.Grows (after (r m)).sink
  clip : ∀ m : Machine Nat, m.sink.Unlimited → m.sink.bytes.size ≤ k →
    Clipped k (r (m.capped k)) (r m)

namespace Clips

/-- A run that writes nothing and does not look at the limit of the sink is not clipped. -/
theorem of_sink_eq {r : Run Nat α} (hsink : ∀ m, m.sink.Unlimited → (after (r m)).sink = m.sink)
    (hcapped : ∀ m, m.sink.Unlimited → r (m.capped k) = capped k (r m)) : Clips k r := by
  refine ⟨fun m hopen => ?_, fun m hopen hle => .inl ⟨?_, hcapped m hopen⟩⟩
  · rw [hsink m hopen]
    exact ⟨hopen, .refl _⟩
  · rwa [hsink m hopen]

/-- Neither the sink nor its capacity is looked at. -/
theorem onStore {r : Run Nat α} (h : OnStore r) : Clips k r := by
  refine .of_sink_eq (fun m _ => ?_) fun m _ => ?_
  · obtain ⟨store, functions, hm⟩ := h.after m
    rw [hm]
  · rcases h m.store m.functions with ⟨a, store, functions, hrun⟩ | ⟨f, store, functions, hrun⟩
    · rw [hrun m rfl rfl, hrun (m.capped k) rfl rfl]
      rfl
    · rw [hrun m rfl rfl, hrun (m.capped k) rfl rfl]
      rfl

/-- Where the first part is clipped, the whole is clipped at the same byte, since what follows only
adds to the output. -/
theorem bind {r : Run Nat α} {f : α → Run Nat β} (h : Clips k r) (hf : ∀ a, Clips k (f a)) :
    Clips k (r >>= f) := by
  -- what follows the run only adds to what it leaves
  have hmore (m : Machine Nat) (hopen : m.sink.Unlimited) :
      (after ((r >>= f) m)).sink.Unlimited ∧
        (after (r m)).sink.Grows (after ((r >>= f) m)).sink := by
    have hfirst := h.grows m hopen
    cases hm : r m with
    | error e m₁ =>
      rw [hm] at hfirst
      rw [bind_of_error hm]
      exact ⟨hfirst.1, .refl _⟩
    | ok a m₁ =>
      rw [hm] at hfirst
      rw [bind_of_ok hm]
      exact (hf a).grows m₁ hfirst.1
  refine ⟨fun m hopen => ⟨(hmore m hopen).1, (h.grows m hopen).2.trans (hmore m hopen).2⟩,
    fun m hopen hle => ?_⟩
  rcases h.clip m hopen hle with ⟨hsize, heq⟩ | ⟨hsize, m₁, hm, hbytes⟩
  · have hfirst := h.grows m hopen
    cases hm : r m with
    | error e m₁ =>
      rw [hm] at heq hsize
      rw [bind_of_error hm, bind_of_error heq]
      exact .inl ⟨hsize, rfl⟩
    | ok a m₁ =>
      rw [hm] at heq hsize hfirst
      rw [bind_of_ok hm, bind_of_ok heq]
      exact (hf a).clip m₁ hfirst.1 hsize
  · rw [bind_of_error hm]
    have hgrows := (hmore m hopen).2
    refine .inr ⟨hsize.trans_le hgrows.size_le, m₁, rfl, ?_⟩
    rw [hgrows.extract_eq hsize.le]
    exact hbytes

/-- The limit on steps does not depend on the sink. -/
theorem tick (settings : Settings) : Clips k (tick settings) := by
  refine .of_sink_eq (fun m _ => by rw [after_tick]) fun m _ => ?_
  rcases tick_cases settings m with hrun | ⟨limit, -, hrun⟩
  · rw [hrun m rfl, hrun (m.capped k) rfl]
    rfl
  · rw [hrun m rfl, hrun (m.capped k) rfl]
    rfl

/-- The only step that can find the sink full. -/
theorem writeLine (pieces : List String) : Clips k (writeLine pieces) := by
  have hwhole (m : Machine Nat) (hopen : m.sink.Unlimited) : Run.writeLine pieces m
      = .ok () { m with sink := m.sink.taking (String.join (pieces ++ ["\n"])) } := by
    have hwrite := hopen.writeEach (pieces ++ ["\n"])
    rw [Run.writeLine, ask_of_none _ (by rw [hwrite]), hwrite]
  refine ⟨fun m hopen => ?_, fun m hopen hle => ?_⟩
  · rw [hwhole m hopen]
    exact ⟨hopen.taking _, _, rfl⟩
  · rw [hwhole m hopen]
    -- the line fits, or its start fills the sink
    rcases hopen.writeEach_capped hle (pieces ++ ["\n"]) with
      ⟨hsize, hwrite⟩ | ⟨hsize, sink, hwrite, hbytes⟩
    · refine .inl ⟨hsize, ?_⟩
      rw [Run.writeLine, ask_of_none (m := m.capped k) _ (congrArg Prod.fst hwrite)]
      show EStateM.Result.ok () { m with sink := ((m.sink.capped k).writeEach _).2 } = _
      rw [hwrite]
      rfl
    · refine .inr ⟨hsize, _, ask_of_some (m := m.capped k) _ (congrArg Prod.fst hwrite), ?_⟩
      show ((m.sink.capped k).writeEach (pieces ++ ["\n"])).2.bytes = _
      rw [hwrite]
      exact hbytes

/-- With a capacity a flush succeeds just as well. -/
theorem flush : Clips k flush := by
  have hflush (m : Machine Nat) (hopen : m.sink.Unlimited) : Run.flush m = .ok () m := by
    rw [Run.flush, ask_of_none _ (by rw [hopen.flush]), hopen.flush]
  refine .of_sink_eq (fun m hopen => ?_) fun m hopen => ?_
  · rw [hflush m hopen, after_ok]
  · rw [hflush m hopen]
    rfl

/-- Counting a call does not touch the sink. -/
theorem counted {r : Run Nat α} (h : Clips k r) : Clips k (counted r) := by
  refine ⟨fun m hopen => ?_, fun m hopen hle => ?_⟩
  · rw [after_counted]
    exact h.grows (entered m) hopen
  · rcases h.clip (entered m) hopen hle with ⟨hsize, heq⟩ | ⟨hsize, m₁, hm, hbytes⟩
    · refine .inl ⟨by rwa [after_counted], ?_⟩
      cases hm : r (entered m) with
      | ok a m₁ =>
        rw [hm] at heq
        rw [counted_of_ok hm]
        exact counted_of_ok (m := m.capped k) heq
      | error e m₁ =>
        rw [hm] at heq
        rw [counted_of_error hm]
        exact counted_of_error (m := m.capped k) heq
    · refine .inr ⟨by rwa [after_counted], _, counted_of_error (m := m.capped k) hm, ?_⟩
      rw [after_counted]
      exact hbytes

end Clips

/-- Whatever the settings, a run is clipped at the bytes that the sink takes. -/
theorem respects_clips (settings : Settings) (patience k : Nat) :
    Respects (fun _ r _ => Clips k r) settings settings patience patience where
  onStore h := .onStore h
  bind h hf := h.bind hf
  tick := .tick settings
  writeLine pieces := .writeLine pieces
  flush := .flush
  apply _ _ _ := .onStore (.ofExcept _)
  counted h := h.counted
  rounds hcondition hbody :=
    rounds_of_bind_self (fun _ => Clips k) (fun h hf => h.bind hf) (fun _ => .onStore (.pure _))
      (.of_sink_eq (fun _ _ => rfl) fun _ _ => rfl) (.tick settings) hcondition hbody patience

end Run

/-! ## Programs -/

/-- An execution on a sink that takes `k` bytes is the one on a sink that takes everything, if that
leaves at most `k` bytes, and otherwise it fails at the full sink. -/
theorem execute_capped (settings : Settings) (patience : Nat) (p : Program)
    {k : Nat} {e : Execution Nat} (he : execute settings patience p (.new none false) = e) :
    (e.sink.bytes.size ≤ k ∧ execute settings patience p (.new (some k) false)
      = { e with sink := e.sink.capped k }) ∨
    k < e.sink.bytes.size ∧
      (execute settings patience p (.new (some k) false)).failure
        = some (.stopped (.fault (.notWritten "sink full"))) ∧
      (execute settings patience p (.new (some k) false)).sink.bytes
        = e.sink.bytes.extract 0 k := by
  subst he
  have hclip := (Run.respects_program (Run.respects_clips settings patience k) rfl
    p.statements).clip (.start (.new none false)) ⟨rfl, rfl⟩ (Nat.zero_le k)
  have hstart : (Machine.start (.new none false)).capped k
      = .start (.new (some k) false) := rfl
  rw [hstart] at hclip
  unfold execute
  -- a rejected program writes nothing
  cases p.check with
  | cons mistake mistakes => exact .inl ⟨Nat.zero_le k, rfl⟩
  | nil =>
    dsimp only
    generalize Run.program settings patience p.statements (.start (.new none false)) = y
      at hclip ⊢
    rcases hclip with ⟨hsize, heq⟩ | ⟨hsize, m, hm, hbytes⟩
    · rw [heq]
      cases y with
      | ok _ m => exact .inl ⟨hsize, rfl⟩
      | error e m => exact .inl ⟨hsize, rfl⟩
    · rw [hm]
      cases y with
      | ok _ m => exact .inr ⟨hsize, rfl, hbytes⟩
      | error e m => exact .inr ⟨hsize, rfl, hbytes⟩

/-- A sink with a limit cuts the output exactly there. Suppose that a program ends on a sink that
takes everything. On a sink that takes `k` bytes it ends in the same way and with the same output,
if that is not longer than `k` bytes. If it is longer, then the program fails for the one reason
that the sink is full, however it ended before, and the sink has the first `k` bytes of its output.
And this does not depend on the pieces in which a line is written. -/
theorem limited_sink_truncates (settings : Settings) (p : Program) (e : Execution Nat)
    (he : Executes settings p (.new none false) e) (k : Nat) :
    (e.sink.bytes.size ≤ k →
      Executes settings p (.new (some k) false) { e with sink := e.sink.capped k }) ∧
    (k < e.sink.bytes.size → ∃ e', Executes settings p (.new (some k) false) e' ∧
      e'.failure = some (.stopped (.fault (.notWritten "sink full"))) ∧
      e'.failure.map (fun f => f.diagnostics.map Diagnostic.message)
        = some ["failed to write output: sink full"] ∧
      e'.sink.bytes = e.sink.bytes.extract 0 k) ∧
    ∀ (s : Sink) (capacity : Option Nat) (refusesFlush : Bool) (pieces : List String),
      s.writer = .limited capacity refusesFlush →
      (∀ limit, capacity = some limit → s.state ≤ limit) →
        s.writeEach pieces = s.write (String.join pieces) := by
  obtain ⟨hended, patience, hrun⟩ := he
  have hcompare := execute_capped (k := k) settings patience p hrun
  refine ⟨fun hle => ?_, fun hlt => ?_, fun s capacity refusesFlush pieces hwriter hstate =>
      Sink.writeEach_eq_write hwriter hstate pieces⟩
  -- if everything fits, nothing was refused
  · rcases hcompare with ⟨_, heq⟩ | ⟨hlt, _, _⟩
    · exact ⟨hended, patience, heq⟩
    · exact absurd hle (Nat.not_le.mpr hlt)
  -- otherwise the run stops at the first write that is refused
  · rcases hcompare with ⟨hle, _⟩ | ⟨_, hfailure, hbytes⟩
    · exact absurd hle (Nat.not_le.mpr hlt)
    · have hended' : (execute settings patience p (.new (some k) false)).Ended := by
        rw [Execution.Ended, hfailure]
        simp
      refine ⟨_, executes_of_ended hended', hfailure, ?_, hbytes⟩
      rw [hfailure]
      rfl

/-- Displays a number and an array, and then fails at a division by zero. -/
def displayAndDivide : Program :=
  ⟨[.expr (.call (.name "display") [.int 1]),
    .expr (.call (.name "display") [.array [.int 10, .int 20]]),
    .expr (.binary .div (.int 1) (.int 0))]⟩

/-- Six bytes end within the array, and the division is not reached. With room for the whole output
it is the division that fails. -/
theorem limited_sink_truncates_midway :
    ∃ e, Executes {} displayAndDivide (.new none false) e ∧
      e.failure.map Failure.diagnostics = some [(Fault.divisionByZero .div 1 0).diagnostic] ∧
      e.sink.bytes = "1\n[10, 20]\n".toUTF8 ∧
      Executes {} displayAndDivide (.new (some 11) false) { e with sink := e.sink.capped 11 } ∧
      ∃ e', Executes {} displayAndDivide (.new (some 6) false) e' ∧
        e'.failure = some (.stopped (.fault (.notWritten "sink full"))) ∧
        e'.sink.bytes = "1\n[10,".toUTF8 := by
  have hfault : (execute {} 0 displayAndDivide (.new none false)).failure.map Failure.diagnostics
      = some [(Fault.divisionByZero .div 1 0).diagnostic] := by decide +kernel
  have hbytes : (execute {} 0 displayAndDivide (.new none false)).sink.bytes
      = "1\n[10, 20]\n".toUTF8 := by decide +kernel
  have hended : (execute {} 0 displayAndDivide (.new none false)).Ended := by
    intro h
    rw [h] at hfault
    cases hfault
  have he := executes_of_ended hended
  obtain ⟨hsame, _⟩ := limited_sink_truncates {} displayAndDivide _ he 11
  obtain ⟨_, hcut, _⟩ := limited_sink_truncates {} displayAndDivide _ he 6
  rw [hbytes] at hsame hcut
  obtain ⟨e', he', hfailure, _, hbytes'⟩ := hcut (by decide +kernel)
  refine ⟨_, he, hfault, hbytes, hsame (by decide +kernel), e', he', hfailure, ?_⟩
  rw [hbytes']
  decide +kernel

end SimpleLang
