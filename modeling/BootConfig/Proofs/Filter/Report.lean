import BootConfig.Filter.CommandLine
import BootConfig.Proofs.Config.Exact
import BootConfig.Proofs.Filter.Run
import BootConfig.Proofs.Text.Digits

/-!
# What the log tells

A log is an account of its run: what has been read, what became of each file entry, how many were
rewritten, and why the run failed. The same run is made whatever is shown of it.
-/

namespace BootConfig

open Contents

/-! ## The lines of a report -/

namespace Report

/-- Lines as they are written, each with its line break. -/
def text (lines : List String) : String := String.join (lines.map (· ++ "\n"))

def inputLine (bytes : Nat) : String :=
  "DEBUG ignition_inline::stream: read input document bytes=" ++ toString bytes

def wording : Change → String
  | .replaced => "replaced inline contents with data URL"
  | .noContents => "file entry has no contents, leaving it unchanged"
  | .noInline => "file entry has no inline contents, leaving it unchanged"

def entryLine (index : Nat) (change : Change) : String :=
  "DEBUG ignition_inline::document::files: " ++ wording change ++ " path=storage.files[" ++
    toString index ++ "]"

def summaryLine (rewritten skipped : Nat) : String :=
  "INFO ignition_inline::document: processed storage.files entries rewritten=" ++
    toString rewritten ++ " skipped=" ++ toString skipped

/-- The lines about the input, its file entries and all of them together that a supply gives rise
to. -/
inductive Tells (supply : Supply) : List String → List String → List String → Prop where
  | unread (h : ∀ text, ¬supply.Holds text) : Tells supply [] [] []
  | unparsed {text : String} {f : Fault} (h : supply.Holds text)
      (hr : readDocument text = .error f) : Tells supply [inputLine supply.bytes.size] [] []
  | faulty {text : String} {document : Tree} (h : supply.Holds text)
      (hr : readDocument text = .ok document) (hf : (embed document).fault ≠ none) :
      Tells supply [inputLine supply.bytes.size] (document.changes.mapIdx entryLine) []
  | embedded {text : String} {document : Tree} (h : supply.Holds text)
      (hr : readDocument text = .ok document) (hf : (embed document).fault = none) :
      Tells supply [inputLine supply.bytes.size] (document.changes.mapIdx entryLine)
        [summaryLine (document.changes.countP (· == .replaced))
          (document.changes.countP (· != .replaced))]

/-- Where a text says a document, the lines are those of the document. -/
theorem Tells.of_read {supply : Supply} {text : String} {document : Tree}
    {input entries summary : List String} (h : Tells supply input entries summary)
    (ht : supply.Holds text) (hr : readDocument text = .ok document) :
    input = [inputLine supply.bytes.size] ∧ entries = document.changes.mapIdx entryLine ∧
      summary = if (embed document).fault = none then
        [summaryLine (document.changes.countP (· == .replaced))
          (document.changes.countP (· != .replaced))] else [] := by
  cases h with
  | unread h => exact absurd ht (h text)
  | unparsed ht' hr' =>
      rw [ht.unique ht', hr'] at hr
      cases hr
  | faulty ht' hr' hf =>
      rw [ht.unique ht', hr'] at hr
      cases hr
      exact ⟨rfl, rfl, (if_neg hf).symm⟩
  | embedded ht' hr' hf =>
      rw [ht.unique ht', hr'] at hr
      cases hr
      exact ⟨rfl, rfl, (if_pos hf).symm⟩

/-- The exit code and the last line of a run with an outcome. -/
inductive Ends : Except Fault Unit → Nat → List String → Prop where
  | ok : Ends (.ok ()) 0 []
  | error (f : Fault) (h : f.exitCode ≠ 0) : Ends (.error f) f.exitCode ["Error: " ++ f.message]

end Report

/-! ## Records and their lines -/

namespace Log

/-- A record that a conversion may leave. -/
def Record.Informs (r : Record) : Prop := r.level = .debug ∨ r.level = .info

theorem shows_everywhere (level : Level) (r : Record) :
    Filter.shows [⟨"", level⟩] r = decide (r.level.rank ≤ level.rank) := by
  simp [Filter.shows, Filter.directive?, Directive.covers]

theorem ofSetting_debug : Filter.ofSetting (some "debug") = [⟨"", .debug⟩] := by
  have hsplit : "debug".splitOn "," = ["debug"] := by
    unfold String.splitOn
    rw [if_neg (by decide)]
    -- one step for each character and one for the end
    iterate 6 rw [String.splitOnAux]
    decide +kernel
  have hread : Directive.read? "debug" = some ⟨"", .debug⟩ := by decide +kernel
  simp [Filter.ofSetting, Filter.read?, Filter.parts, hsplit, hread]

theorem filter_debug {records : List Record} (h : ∀ r ∈ records, r.Informs) :
    records.filter (Filter.ofSetting (some "debug")).shows = records := by
  rw [ofSetting_debug]
  apply List.filter_eq_self.mpr
  intro r hr
  rw [shows_everywhere]
  rcases h r hr with hl | hl <;> rw [hl] <;> rfl

theorem filter_unset {records : List Record} (h : ∀ r ∈ records, r.Informs) :
    records.filter (Filter.ofSetting none).shows = [] := by
  have hwarn : Filter.ofSetting none = [⟨"", .warn⟩] := rfl
  rw [hwarn]
  apply List.filter_eq_nil_iff.mpr
  intro r hr
  rw [shows_everywhere]
  rcases h r hr with hl | hl <;> rw [hl] <;> decide

theorem line_ofInput (bytes : Nat) : (ofInput bytes).line = Report.inputLine bytes := by
  simp only [Record.line, ofInput, Digits.decimal_eq, List.map_cons, List.map_nil, String.join_cons,
    String.join_nil, String.append_empty, ← String.append_assoc]
  rfl

/-- What stands in front of the index of an entry. -/
theorem line_front (change : Change) :
    Level.debug.name ++ " " ++ "ignition_inline::document::files" ++ ": " ++
      (ofChange 0 change).message ++ " " ++ "path" ++ "=" ++ "storage" ++ ".files" ++ "[" =
    "DEBUG ignition_inline::document::files: " ++ Report.wording change ++
      " path=storage.files[" := by
  cases change <;> decide +kernel

theorem line_ofChange (index : Nat) (change : Change) :
    (ofChange index change).line = Report.entryLine index change := by
  unfold Report.entryLine
  simp only [← line_front, Record.line, ofChange, entryPath, filesPath, storagePath,
    Digits.decimal_eq, List.map_cons, List.map_nil, String.join_cons, String.join_nil,
    String.append_empty, ← String.append_assoc]

theorem line_ofSummary (replaced skipped : Nat) :
    (ofSummary replaced skipped).line = Report.summaryLine replaced skipped := by
  have hfront : Level.info.name ++ " " ++ "ignition_inline::document" ++ ": " ++
      "processed storage.files entries" ++ " " ++ "rewritten" ++ "=" =
        "INFO ignition_inline::document: processed storage.files entries rewritten=" := by
    decide +kernel
  have hbetween : " " ++ "skipped" ++ "=" = " skipped=" := by decide +kernel
  unfold Report.summaryLine
  simp only [← hfront, ← hbetween, Record.line, ofSummary, Digits.decimal_eq, List.map_cons,
    List.map_nil, String.join_cons, String.join_nil, String.append_empty, ← String.append_assoc]

theorem lines_ofChanges (changes : List Change) (index : Nat) :
    (ofChanges index changes).map Record.line = changes.mapIdx fun i change =>
      Report.entryLine (index + i) change := by
  induction changes generalizing index with
  | nil => rfl
  | cons change changes ih =>
      rw [ofChanges, List.map_cons, List.mapIdx_cons, line_ofChange, ih]
      simp only [Nat.add_assoc, Nat.add_comm 1, Nat.add_zero]

theorem informs_ofChanges : (changes : List Change) → (index : Nat) →
    ∀ r ∈ ofChanges index changes, r.Informs
  | [], _, _, hr => absurd hr List.not_mem_nil
  | _ :: changes, index, r, hr => by
      rcases List.mem_cons.mp hr with rfl | hr
      · exact Or.inl rfl
      · exact informs_ofChanges changes (index + 1) r hr

theorem informs_ofOutcome (o : Outcome Tree) : ∀ r ∈ ofOutcome o, r.Informs := by
  intro r hr
  rcases List.mem_append.mp hr with hr | hr
  · exact informs_ofChanges o.changes 0 r hr
  · split at hr
    · cases hr
    · cases List.mem_singleton.mp hr
      exact Or.inr rfl

theorem lines_ofOutcome (o : Outcome Tree) : (ofOutcome o).map Record.line =
    o.changes.mapIdx Report.entryLine ++ if o.fault.isSome then []
      else [Report.summaryLine o.replaced o.skipped] := by
  rw [ofOutcome, List.map_append, lines_ofChanges]
  simp only [Nat.zero_add]
  split
  · rfl
  · rw [List.map_singleton, line_ofSummary]

end Log

/-! ## The log of a run -/

variable {supply : Supply} {sink : Sink} {text : String}

theorem Run.log_of_text (h : supply.Holds text) : (Run.ofStreams supply sink).log =
    Log.ofInput supply.bytes.size ::
      ((Conversion.ofText text).outcome.map Log.ofOutcome).getD [] := by
  have hsize : supply.bytes.size = text.utf8ByteSize := by rw [h.bytes]; rfl
  rw [hsize, Run.ofStreams, h.text]
  simp only
  split <;> rfl

theorem Run.log_of_noText (h : ∀ text, ¬supply.Holds text) :
    (Run.ofStreams supply sink).log = [] := by
  rcases supply.cases with ⟨reason, hr⟩ | hn | ⟨text, ht⟩
  · rw [ofStreams_input (f := .refused reason) (by simp only [Supply.text, hr])]
  · rw [ofStreams_input hn.text]
  · exact absurd ht (h text)

theorem Run.log_informs (supply : Supply) (sink : Sink) :
    ∀ r ∈ (Run.ofStreams supply sink).log, r.Informs := by
  intro r hr
  by_cases h : ∃ text, supply.Holds text
  · obtain ⟨text, h⟩ := h
    rw [log_of_text h] at hr
    rcases List.mem_cons.mp hr with rfl | hr
    · exact Or.inl rfl
    · cases ho : (Conversion.ofText text).outcome with
      | none =>
          rw [ho] at hr
          cases hr
      | some o =>
          rw [ho] at hr
          exact Log.informs_ofOutcome o r hr
  · rw [log_of_noText (not_exists.mp h)] at hr
    cases hr

/-- The lines of a log are those that its supply gives rise to. -/
theorem Run.log_tells (supply : Supply) (sink : Sink) : ∃ input entries summary : List String,
    Report.Tells supply input entries summary ∧
    (Run.ofStreams supply sink).log.map Log.Record.line = input ++ entries ++ summary := by
  by_cases h : ∃ text, supply.Holds text
  · obtain ⟨text, h⟩ := h
    rw [log_of_text h, List.map_cons, Log.line_ofInput]
    cases hr : readDocument text with
    | error f =>
        have ho : (Conversion.ofText text).outcome = none := by
          unfold Conversion.ofText
          simp only [hr]
        refine ⟨_, _, _, .unparsed h hr, ?_⟩
        rw [ho]
        rfl
    | ok document =>
        have ho : (Conversion.ofText text).outcome = some (embed document) := by
          unfold Conversion.ofText
          simp only [hr]
          rfl
        have hlines := Log.lines_ofOutcome (embed document)
        obtain ⟨hchanges, _⟩ := embed_visited document
        rw [Outcome.replaced, Outcome.skipped, hchanges] at hlines
        cases hf : (embed document).fault with
        | none =>
            refine ⟨_, _, _, .embedded h hr hf, ?_⟩
            rw [hf] at hlines
            rw [ho]
            exact congrArg (_ :: ·) hlines
        | some f =>
            refine ⟨_, _, _, .faulty h hr (by simp [hf]), ?_⟩
            rw [hf] at hlines
            rw [ho]
            exact congrArg (_ :: ·) hlines
  · exact ⟨[], [], [], .unread (not_exists.mp h), by rw [log_of_noText (not_exists.mp h)]; rfl⟩

/-! ## The program -/

theorem Report.text_append (lines lines' : List String) :
    Report.text (lines ++ lines') = Report.text lines ++ Report.text lines' := by
  rw [Report.text, List.map_append, String.join_append]
  rfl

theorem Fault.exitCode_ne_zero (f : Fault) : f.exitCode ≠ 0 := by
  cases f <;> exact Nat.succ_ne_zero _

namespace CommandLine

theorem report_eq (filter : Log.Filter) (r : Run) : report filter r =
    Report.text ((r.log.filter filter.shows).map Log.Record.line) ++
      match r.outcome with
      | .ok () => ""
      | .error f => "Error: " ++ f.message ++ "\n" := by
  rw [report, Report.text, List.map_map]
  rfl

/-- A run ends with the line of its fault, whatever is shown of it before. -/
theorem report_ends (logSetting : Option String) (supply : Supply) (sink : Sink) :
    ∃ failure : List String,
      Report.Ends (Run.ofStreams supply sink).outcome
        (execute [] logSetting supply sink).exitCode failure ∧
      ∀ filter, report filter (Run.ofStreams supply sink) = Report.text
        (((Run.ofStreams supply sink).log.filter filter.shows).map Log.Record.line ++ failure) := by
  cases ho : (Run.ofStreams supply sink).outcome with
  | ok _ =>
      refine ⟨[], ?_, fun filter => ?_⟩
      · simp only [execute, request, ho]
        exact .ok
      · rw [report_eq, ho, List.append_nil]
        exact String.append_empty
  | error f =>
      refine ⟨["Error: " ++ f.message], ?_, fun filter => ?_⟩
      · simp only [execute, request, ho]
        exact .error f f.exitCode_ne_zero
      · rw [report_eq, ho, Report.text_append]
        simp [Report.text]

/-- The program converts in the same way whatever its log is set to. When all is shown, its lines
are those that its input gives rise to, and the line of its fault; otherwise that line alone. -/
theorem execute_reports (supply : Supply) (sink : Sink) :
    (∀ logSetting : Option String,
      (execute [] logSetting supply sink).stdout = (execute [] none supply sink).stdout ∧
      (execute [] logSetting supply sink).exitCode = (execute [] none supply sink).exitCode) ∧
    ∃ input entries summary failure : List String,
      (execute [] (some "debug") supply sink).stderr =
        some (Report.text (input ++ entries ++ summary ++ failure)) ∧
      (execute [] none supply sink).stderr = some (Report.text failure) ∧
      Report.Tells supply input entries summary ∧
      Report.Ends (Run.ofStreams supply sink).outcome
        (execute [] none supply sink).exitCode failure := by
  obtain ⟨input, entries, summary, htells, hlog⟩ := Run.log_tells supply sink
  obtain ⟨failure, hends, hreport⟩ := report_ends none supply sink
  have hinforms := Run.log_informs supply sink
  refine ⟨fun _ => ⟨rfl, rfl⟩, input, entries, summary, failure, ?_, ?_, htells, hends⟩
  · rw [← hlog, ← Log.filter_debug hinforms]
    exact congrArg some (hreport _)
  · have hunset := hreport (Log.Filter.ofSetting none)
    rw [Log.filter_unset hinforms] at hunset
    exact congrArg some hunset

/-- A file entry that is rewritten, one without contents and one without an inline text. -/
theorem execute_reports_mixed :
    ∃ text : String,
      text = "storage:\n  files:\n  - contents: \x7binline: a b\x7d\n  - path: /x\n" ++
        "  - contents: \x7bsource: y\x7d\n" ∧
      (execute [] (some "debug") ⟨text.toUTF8, none⟩ ⟨none, "", none⟩).stderr = some (
        "DEBUG ignition_inline::stream: read input document bytes=85\n" ++
        "DEBUG ignition_inline::document::files: replaced inline contents with data URL" ++
          " path=storage.files[0]\n" ++
        "DEBUG ignition_inline::document::files: file entry has no contents," ++
          " leaving it unchanged path=storage.files[1]\n" ++
        "DEBUG ignition_inline::document::files: file entry has no inline contents," ++
          " leaving it unchanged path=storage.files[2]\n" ++
        "INFO ignition_inline::document: processed storage.files entries rewritten=1 skipped=2\n") ∧
      (execute [] none ⟨text.toUTF8, none⟩ ⟨none, "", none⟩).stderr = some "" := by
  obtain ⟨text, htext⟩ :
    ∃ text, text = "storage:\n  files:\n  - contents: \x7binline: a b\x7d\n  - path: /x\n" ++
      "  - contents: \x7bsource: y\x7d\n" := ⟨_, rfl⟩
  refine ⟨text, htext, ?_⟩
  have hread : (readDocument text).toOption.map (fun d => (d.changes, (embed d).fault)) =
      some ([.replaced, .noContents, .noInline], none) := by rw [htext]; decide +kernel
  have hok : (Run.ofStreams ⟨text.toUTF8, none⟩ ⟨none, "", none⟩).outcome = .ok () :=
    Steps.eq_ok_of_toOption (by rw [htext]; decide +kernel)
  have hsize : text.toUTF8.size = 85 := by rw [htext]; rfl
  obtain ⟨document, hr, hd⟩ := Option.map_eq_some_iff.mp hread
  obtain ⟨hchanges, hfault⟩ := Prod.mk.inj hd
  obtain ⟨-, input, entries, summary, failure, hshown, hunset, htells, hends⟩ :=
    execute_reports ⟨text.toUTF8, none⟩ ⟨none, "", none⟩
  obtain ⟨rfl, rfl, rfl⟩ := htells.of_read ⟨rfl, rfl⟩ (Steps.eq_ok_of_toOption hr)
  rw [hok] at hends
  generalize (execute [] none ⟨text.toUTF8, none⟩ ⟨none, "", none⟩).exitCode = exitCode at hends
  cases hends
  rw [hshown, hunset, hchanges, hfault, hsize, if_pos rfl]
  exact ⟨by decide +kernel, rfl⟩

end CommandLine

end BootConfig
