import BootConfig.Filter.Run

/-!
# What a run writes

A run writes nothing until all of its output has been made. It succeeds only when the whole input is
a text that can be converted and the sink takes the whole output.
-/

namespace BootConfig

/-! ## Streams -/

/-- All bytes can be read, and they are those of a text. -/
structure Supply.Holds (s : Supply) (text : String) : Prop where
  refusal : s.refusal = none
  bytes : s.bytes = text.toUTF8

/-- All bytes can be read, and they are those of no text. -/
structure Supply.HoldsNoText (s : Supply) : Prop where
  refusal : s.refusal = none
  bytes : ∀ text : String, s.bytes ≠ text.toUTF8

/-- The sink takes an output of the given size to its end. -/
def Sink.HasRoom (s : Sink) (size : Nat) : Prop := ∀ room ∈ s.room, size ≤ room

/-- How many bytes of an output of the given size the sink takes. -/
def Sink.taken (s : Sink) (size : Nat) : Nat := (s.room.map (min · size)).getD size

theorem fromUTF8?_eq_some {bytes : ByteArray} {text : String} :
    String.fromUTF8? bytes = some text ↔ bytes = text.toUTF8 := by
  unfold String.fromUTF8?
  constructor
  · intro h
    split at h
    · cases h; rfl
    · cases h
  · rintro rfl
    exact dif_pos text.isValidUTF8

theorem fromUTF8?_eq_none {bytes : ByteArray} (h : String.fromUTF8? bytes = none) (text : String) :
    bytes ≠ text.toUTF8 := fun hb => by
  rw [fromUTF8?_eq_some.mpr hb] at h
  cases h

theorem Supply.Holds.text {s : Supply} {text : String} (h : s.Holds text) : s.text = .ok text := by
  simp only [Supply.text, h.refusal, fromUTF8?_eq_some.mpr h.bytes]

theorem Supply.Holds.unique {s : Supply} {text text' : String} (h : s.Holds text)
    (h' : s.Holds text') : text = text' :=
  String.toByteArray_inj.mp (h.bytes.symm.trans h'.bytes)

theorem Supply.HoldsNoText.text {s : Supply} (h : s.HoldsNoText) : s.text = .error .notText := by
  unfold Supply.text
  rw [h.refusal]
  cases hb : String.fromUTF8? s.bytes with
  | none => rfl
  | some text => exact absurd (fromUTF8?_eq_some.mp hb) (h.bytes text)

/-- A supply is refused, holds a text or holds none. -/
theorem Supply.cases (s : Supply) :
    (∃ reason, s.refusal = some reason) ∨ s.HoldsNoText ∨ ∃ text, s.Holds text := by
  cases hr : s.refusal with
  | some reason => exact Or.inl ⟨reason, rfl⟩
  | none =>
      cases hb : String.fromUTF8? s.bytes with
      | none => exact Or.inr (Or.inl ⟨hr, fromUTF8?_eq_none hb⟩)
      | some text => exact Or.inr (Or.inr ⟨text, hr, fromUTF8?_eq_some.mp hb⟩)

theorem Sink.write_taken (s : Sink) (output : ByteArray) :
    (s.write output).1 = output.extract 0 (s.taken output.size) := by
  have hall : output.extract 0 output.size = output := ByteArray.extract_zero_size
  unfold Sink.write Sink.taken
  cases s.room with
  | none => exact hall.symm
  | some room =>
      simp only [Option.map_some, Option.getD_some]
      split
      · rw [Nat.min_eq_left (by omega)]
      · rw [Nat.min_eq_right (by omega), hall]

theorem Sink.write_room {s : Sink} {output : ByteArray} (h : s.HasRoom output.size) :
    (s.write output).2 = s.flush := by
  unfold Sink.write
  cases hr : s.room with
  | none => rfl
  | some room =>
      have hle : output.size ≤ room := h room hr
      simp only [if_neg (Nat.not_lt.mpr hle)]

theorem Sink.write_noRoom {s : Sink} {output : ByteArray} (h : ¬s.HasRoom output.size) :
    (s.write output).2 = .error (.output s.refusal) := by
  unfold Sink.write
  cases hr : s.room with
  | none => exact absurd (fun _ hm => by rw [hr] at hm; cases hm) h
  | some room =>
      have hlt : room < output.size := Nat.not_le.mp fun hle => h fun r hm => by
        rw [hr] at hm
        cases hm
        exact hle
      simp only [if_pos hlt]

theorem Sink.flush_eq_ok {s : Sink} : s.flush = .ok () ↔ s.flushRefusal = none := by
  unfold Sink.flush
  cases s.flushRefusal <;> simp

/-! ## Runs -/

/-- A fault of reading or writing, with the words that say which, and its reason. -/
structure Fault.InContext (context reason : String) (f : Fault) : Prop where
  exitCode : f.exitCode = 1
  message : f.message = context ++ ": " ++ reason

/-- What a run from a supply to a sink may come to. -/
structure Run.Justified (supply : Supply) (sink : Sink) (r : Run) : Prop where
  ok_iff : r.outcome = .ok () ↔
    ∃ text output, supply.Holds text ∧ convert text = .ok output ∧ sink.HasRoom output.toUTF8.size ∧
      sink.flushRefusal = none
  /-- A refusal of the input counts before its text. -/
  refused : ∀ reason, supply.refusal = some reason → r.written = .empty ∧
    ∃ f, r.outcome = .error (.input f) ∧
      (Fault.input f).InContext "failed to read standard input" reason
  noText : supply.HoldsNoText → r.written = .empty ∧
    ∃ f, r.outcome = .error (.input f) ∧
      (Fault.input f).InContext "failed to read standard input" "stream did not contain valid UTF-8"
  unconverted : ∀ text f, supply.Holds text → convert text = .error f →
    r.written = .empty ∧ r.outcome = .error f
  written : ∀ text output, supply.Holds text → convert text = .ok output →
    r.written = output.toUTF8.extract 0 (sink.taken output.toUTF8.size)
  noRoom : ∀ text output, supply.Holds text → convert text = .ok output →
    ¬sink.HasRoom output.toUTF8.size → r.outcome = .error (.output sink.refusal) ∧
    (Fault.output sink.refusal).InContext "failed to write standard output" sink.refusal
  unflushed : ∀ text output reason, supply.Holds text → convert text = .ok output →
    sink.HasRoom output.toUTF8.size → sink.flushRefusal = some reason →
    r.outcome = .error (.output reason) ∧
      (Fault.output reason).InContext "failed to write standard output" reason

namespace Run

variable {supply : Supply} {sink : Sink} {text output : String}

theorem ofStreams_input {f : InputFault} (h : supply.text = .error f) :
    Run.ofStreams supply sink = ⟨.empty, .error (.input f), []⟩ := by
  simp only [Run.ofStreams, h]

theorem ofStreams_converted (h : supply.Holds text) (hc : convert text = .ok output) :
    (Run.ofStreams supply sink).written = (sink.write output.toUTF8).1 ∧
      (Run.ofStreams supply sink).outcome = (sink.write output.toUTF8).2 := by
  unfold convert at hc
  simp only [Run.ofStreams, h.text, hc, and_self]

theorem ofStreams_unconverted {f : Fault} (h : supply.Holds text) (hc : convert text = .error f) :
    (Run.ofStreams supply sink).written = .empty ∧
    (Run.ofStreams supply sink).outcome = .error f := by
  unfold convert at hc
  simp only [Run.ofStreams, h.text, hc, and_self]

/-- A run that succeeds has read, converted, written and flushed. -/
theorem of_outcome_ok (h : (Run.ofStreams supply sink).outcome = .ok ()) :
    ∃ text output, supply.Holds text ∧ convert text = .ok output ∧ sink.HasRoom output.toUTF8.size ∧
      sink.flushRefusal = none := by
  rcases supply.cases with ⟨reason, hr⟩ | hn | ⟨text, ht⟩
  · rw [ofStreams_input (f := .refused reason) (by simp only [Supply.text, hr])] at h
    cases h
  · rw [ofStreams_input hn.text] at h
    cases h
  · cases hc : convert text with
    | error f =>
        rw [(ofStreams_unconverted ht hc).2] at h
        cases h
    | ok output =>
        rw [(ofStreams_converted ht hc).2] at h
        by_cases hroom : sink.HasRoom output.toUTF8.size
        · rw [Sink.write_room hroom] at h
          exact ⟨text, output, ht, hc, hroom, Sink.flush_eq_ok.mp h⟩
        · rw [Sink.write_noRoom hroom] at h
          cases h

/-- Whatever is supplied and however much the sink takes, a run writes what it should and nothing
more, and says why it fails. -/
theorem ofStreams_justified (supply : Supply) (sink : Sink) :
    Justified supply sink (Run.ofStreams supply sink) where
  ok_iff := by
    refine ⟨of_outcome_ok, fun ⟨text, output, ht, hc, hroom, hflush⟩ => ?_⟩
    rw [(ofStreams_converted ht hc).2, Sink.write_room hroom]
    exact Sink.flush_eq_ok.mpr hflush
  refused reason hr := by
    rw [ofStreams_input (f := .refused reason) (by simp only [Supply.text, hr])]
    exact ⟨rfl, _, rfl, rfl, rfl⟩
  noText hn := by
    rw [ofStreams_input hn.text]
    exact ⟨rfl, _, rfl, rfl, rfl⟩
  unconverted text f ht hc := ofStreams_unconverted ht hc
  written text output ht hc := by
    rw [(ofStreams_converted ht hc).1]
    exact Sink.write_taken sink output.toUTF8
  noRoom text output ht hc hroom := by
    rw [(ofStreams_converted ht hc).2, Sink.write_noRoom hroom]
    exact ⟨rfl, rfl, rfl⟩
  unflushed text output reason ht hc hroom hflush := by
    rw [(ofStreams_converted ht hc).2, Sink.write_room hroom, Sink.flush, hflush]
    exact ⟨rfl, rfl, rfl⟩

end Run

end BootConfig
