import Mathlib
import SimpleLang.Machine.Sink

/-!
# What every sink does

A writer may fail whenever it likes, but it cannot take back a byte. That is all that is needed to
compare the outputs of two runs, so the results on the limits of a run hold whatever `W` is.

* `Sink.Grows`: the second sink has the bytes of the first one and possibly more.
  `Sink.grows_writeEach` and `Sink.grows_flush`: all that a run asks for makes a sink grow.
* `Writer.Reliable`: the writer never fails. `Sink.writeEach_of_reliable`: what such a sink is
  asked to write is in its bytes, whatever pieces it comes in.
-/

namespace SimpleLang

variable {W : Type}

/-- The writer takes every text whole and can always be flushed. -/
structure Writer.Reliable (w : Writer W) : Prop where
  write : ∀ state text, (w.write state text).1 = none
  flush : ∀ state, (w.flush state).1 = none

/-- Without a capacity and without `refusesFlush` nothing fails. -/
theorem Writer.reliable_limited : (Writer.limited none false).Reliable :=
  ⟨fun _ _ => rfl, fun _ => rfl⟩

namespace Sink

/-! ## What a request leaves -/

/-- The second sink has taken what the first one has, and possibly more. -/
def Grows (s s' : Sink W) : Prop := ∃ more, s'.bytes = s.bytes ++ more

namespace Grows

theorem refl (s : Sink W) : s.Grows s := ⟨.empty, ByteArray.append_empty.symm⟩

/-- What is added comes one after the other. -/
theorem trans {s s' s'' : Sink W} (h : s.Grows s') (h' : s'.Grows s'') : s.Grows s'' := by
  obtain ⟨more, hmore⟩ := h
  obtain ⟨more', hmore'⟩ := h'
  exact ⟨more ++ more', by rw [hmore', hmore, ByteArray.append_assoc]⟩

theorem size_le {s s' : Sink W} (h : s.Grows s') : s.bytes.size ≤ s'.bytes.size := by
  obtain ⟨more, hmore⟩ := h
  rw [hmore, ByteArray.size_append]
  exact Nat.le_add_right _ _

/-- What a sink has taken stays at the front of its bytes. -/
theorem extract_eq {s s' : Sink W} (h : s.Grows s') {k : Nat} (hk : k ≤ s.bytes.size) :
    s'.bytes.extract 0 k = s.bytes.extract 0 k := by
  obtain ⟨more, hmore⟩ := h
  have hnone : more.extract (0 - s.bytes.size) (k - s.bytes.size) = .empty := by
    rw [ByteArray.extract_eq_empty_iff]
    omega
  rw [hmore, ByteArray.extract_append, hnone, ByteArray.append_empty]

end Grows

/-- One text is taken whole or in part. In both cases it comes after what was taken before. -/
theorem grows_write (s : Sink W) (text : String) : s.Grows (s.write text).2 := by
  unfold write
  cases s.writer.write s.state text with
  | mk refusal? state =>
    cases refusal? with
    | none => exact ⟨_, rfl⟩
    | some refusal => exact ⟨_, rfl⟩

/-- A sink keeps its writer. Only the state and the bytes change. -/
theorem writer_write (s : Sink W) (text : String) : (s.write text).2.writer = s.writer := by
  unfold write
  cases s.writer.write s.state text with
  | mk refusal? state => cases refusal? <;> rfl

/-- The pieces behind one that was taken are written next. -/
theorem writeEach_cons_of_none {s : Sink W} {text : String} (h : (s.write text).1 = none)
    (rest : List String) : s.writeEach (text :: rest) = (s.write text).2.writeEach rest := by
  rw [writeEach]
  generalize s.write text = answer at h
  obtain ⟨reason?, s'⟩ := answer
  obtain rfl : reason? = none := h
  rfl

/-- A piece that is refused is the last one. -/
theorem writeEach_cons_of_some {s : Sink W} {text reason : String}
    (h : (s.write text).1 = some reason) (rest : List String) :
    s.writeEach (text :: rest) = (some reason, (s.write text).2) := by
  rw [writeEach]
  generalize s.write text = answer at h
  obtain ⟨reason?, s'⟩ := answer
  obtain rfl : reason? = some reason := h
  rfl

/-- By induction on the pieces, of which some may not be reached. -/
theorem grows_writeEach (s : Sink W) (texts : List String) : s.Grows (s.writeEach texts).2 := by
  induction texts generalizing s with
  | nil => exact .refl s
  | cons text rest ih =>
    cases hwrite : (s.write text).1 with
    | none =>
      rw [writeEach_cons_of_none hwrite]
      exact (grows_write s text).trans (ih _)
    | some reason =>
      rw [writeEach_cons_of_some hwrite]
      exact grows_write s text

/-- By induction on the pieces, each of which keeps the writer (`writer_write`). -/
theorem writer_writeEach (s : Sink W) (texts : List String) :
    (s.writeEach texts).2.writer = s.writer := by
  induction texts generalizing s with
  | nil => rfl
  | cons text rest ih =>
    cases hwrite : (s.write text).1 with
    | none => rw [writeEach_cons_of_none hwrite, ih, writer_write]
    | some reason => rw [writeEach_cons_of_some hwrite, writer_write]

/-- A flush adds no bytes, whether it fails or not. -/
theorem grows_flush (s : Sink W) : s.Grows s.flush.2 := .refl s

/-! ## Sinks that never fail -/

theorem toUTF8_join_cons (text : String) (rest : List String) :
    (String.join (text :: rest)).toUTF8 = text.toUTF8 ++ (String.join rest).toUTF8 := by
  rw [String.join_cons]
  exact String.toByteArray_append

/-- No refusal means that the text was taken whole. -/
theorem write_of_reliable {s : Sink W} (h : s.writer.Reliable) (text : String) :
    s.write text = (none, { s with
      state := (s.writer.write s.state text).2, bytes := s.bytes ++ text.toUTF8 }) := by
  have hnone := h.write s.state text
  unfold write
  generalize s.writer.write s.state text = answer at hnone ⊢
  obtain ⟨refusal?, state⟩ := answer
  obtain rfl : refusal? = none := hnone
  rfl

/-- A sink that never fails has all pieces of a text after it, and so the whole text. -/
theorem writeEach_of_reliable {s : Sink W} (h : s.writer.Reliable) (texts : List String) :
    (s.writeEach texts).1 = none ∧
      (s.writeEach texts).2.bytes = s.bytes ++ (String.join texts).toUTF8 := by
  induction texts generalizing s with
  | nil => exact ⟨rfl, ByteArray.append_empty.symm⟩
  | cons text rest ih =>
    have hwrite := write_of_reliable h text
    rw [writeEach_cons_of_none (by rw [hwrite]), hwrite]
    obtain ⟨hnone, hbytes⟩ := ih (s := { s with
      state := (s.writer.write s.state text).2, bytes := s.bytes ++ text.toUTF8 }) h
    refine ⟨hnone, ?_⟩
    rw [hbytes, toUTF8_join_cons, ← ByteArray.append_assoc]

end Sink

end SimpleLang
