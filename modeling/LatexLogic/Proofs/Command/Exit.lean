import LatexLogic.Command.Levels
import LatexLogic.Proofs.Table.Refusal

/-!
# Runs with syntax files that are refused

A run that cannot be prepared ends with the exit code for that, provided its syntax files are sound and
the message of the error can be written (`Command.exits_of_sound`). A file is sound if its document is
read, or refused with an error that is reported, and describes no malformed entry and no label that
cannot be looked up. Whatever the table before it was, what is wrong with the entries of such a file is
reported; what is wrong with the file of formulas always is. How documents are read, and which values
can be shown, is left to the host.

A list as the kind of an entry is enough for an error that is not reported, whatever values can be
shown (`not_reported_of_kind`).
-/

set_option autoImplicit false

namespace LatexLogic

namespace SyntaxFileError

/-- The values that are written into the message of an error, in order. -/
def shown : SyntaxFileError → List Data
  | table error => error.shown
  | _ => []

/-- The error is one that is reported once its message can be written. -/
def Sound : SyntaxFileError → Prop
  | table error => error.Sound
  | e => e.isReported (fun _ => true) = true

theorem isReported_iff {shows : Data → Bool} {e : SyntaxFileError} :
    e.isReported shows = true ↔ e.Sound ∧ Data.areWritable shows e.shown = true := by
  cases e with
  | table error => exact TableError.reported_iff
  | yaml error => cases error <;> exact (and_iff_left rfl).symm
  | _ => exact (and_iff_left rfl).symm

end SyntaxFileError

namespace Command

open SyntaxFileError (Sound)

variable {host : Host} {files : Files}

/-! ## Sound files -/

/-- Whether a text is read, or refused with an error that is reported, and describes no malformed entry
and no label that cannot be looked up. -/
def isSoundText (host : Host) (text : String) : Bool :=
  match host.readDocument text with
  | .ok (.map entries) => entries.all fun entry => !entry.2.isMalformed && entry.2.hasKeyLabel
  | .ok _ => true
  | .error e => (SyntaxFileError.yaml e).isReported host.shows

/-- Whether the text of a syntax file, if the file can be read at all, is sound. -/
def isSoundFile (host : Host) (content : Except PathError ByteArray) : Bool :=
  match content with
  | .error _ => true
  | .ok bytes =>
    match String.fromUTF8? bytes with
    | none => true
    | some text => isSoundText host text

/-- Whether the syntax files of a run are named and sound. -/
def areSoundFiles (host : Host) (files : Files) (paths : List OptionValue) : Bool :=
  paths.all fun named =>
    match named with
    | none => false
    | some path => isSoundFile host (files.read path)

/-- The entries that a sound text describes are not malformed, and their labels can be looked up. -/
theorem sound_of_isSoundText {path text : String} {d : Data} {entries : List (Data × Data)}
    (hsound : isSoundText host text = true) (hd : host.readDocument text = .ok d)
    (h : Table.entriesOfDocument path d = .ok entries) :
    (∀ entry ∈ entries, entry.2.isMalformed = false) ∧
      ∀ entry ∈ entries, entry.2.hasKeyLabel = true := by
  unfold Table.entriesOfDocument at h
  split at h
  · cases h
    exact ⟨nofun, nofun⟩
  · split at h
    · next fields =>
      cases h
      simp only [isSoundText, hd, List.all_eq_true, Bool.and_eq_true, Bool.not_eq_true'] at hsound
      exact ⟨fun entry hentry => (hsound entry hentry).1,
        fun entry hentry => (hsound entry hentry).2⟩
    · cases h

theorem sound_entriesOfDocument (path : String) (d : Data) :
    FailsWithin Sound (Table.entriesOfDocument path d) := by
  unfold Table.entriesOfDocument
  split
  · exact failsWithin_ok []
  · split
    · exact failsWithin_ok _
    · exact failsWithin_error_iff.2 rfl

/-- A sound syntax file extends a table that is reached, or is refused with an error that is reported
once its message can be written. -/
theorem sound_ofFile {content : Except PathError ByteArray} (h : isSoundFile host content = true)
    (path : String) {base : Table Data} (hbase : base.Reachable) :
    FailsWithin Sound (Table.ofFile host.readDocument path (some base) content) := by
  unfold Table.ofFile
  unfold isSoundFile at h
  split
  · exact failsWithin_error_iff.2 rfl
  · split
    · exact failsWithin_error_iff.2 rfl
    · next htext =>
      simp only [htext] at h
      split
      · next e hyaml =>
        rw [isSoundText, hyaml] at h
        exact failsWithin_error_iff.2 (SyntaxFileError.isReported_iff.1 h).1
      · next hyaml =>
        split
        · next e he => exact failsWithin_error_iff.2 (sound_entriesOfDocument path _ e he)
        · next entries hentries =>
          -- The text has no malformed entry, which alone could end in an error of another kind.
          obtain ⟨hnone, hlabels⟩ := sound_of_isSoundText h hyaml hentries
          have hextend := (Table.failsWithin_sound_extend_iff hlabels hbase).2
            (Table.reportsEntries_of_forall hnone _)
          dsimp only
          cases hresult : base.extend entries with
          | ok t => exact failsWithin_ok t
          | error e => exact failsWithin_error_iff.2 (hextend e hresult)

/-- A syntax file makes of a table that is reached another one. -/
theorem reachable_ofFile {readDocument : String → Except Yaml.YamlError Data} {path : String}
    {content : Except PathError ByteArray} {base : Table Data} (hbase : base.Reachable) :
    GivesOnly Table.Reachable (Table.ofFile readDocument path (some base) content) := by
  unfold Table.ofFile
  split
  · exact givesOnly_error _
  · split
    · exact givesOnly_error _
    · split
      · exact givesOnly_error _
      · split
        · exact givesOnly_error _
        · next entries _ =>
          dsimp only
          cases hresult : base.extend entries with
          | ok t => exact givesOnly_ok (hbase.extended hresult)
          | error e => exact givesOnly_error _

/-- The standard table is reached. -/
theorem reachable_standard : Table.standard.valued.Reachable :=
  Table.reachable_iff_wellFormed.2 Table.standard_wellFormed

theorem reachable_extendByFile {table : Table Data} (h : table.Reachable) (named : OptionValue) :
    GivesOnly Table.Reachable (extendByFile host files table named) := by
  cases named with
  | none => exact givesOnly_error _
  | some path => exact reachable_ofFile h

/-- The table of a run is reached. -/
theorem reachable_buildTable (host : Host) (files : Files) (paths : List OptionValue) :
    GivesOnly Table.Reachable (buildTable host files paths) :=
  givesOnly_foldlM (fun named _ _ htable => reachable_extendByFile htable named) reachable_standard

/-- Sound syntax files give a table one after the other, or one of them is refused with an error that
is reported once its message can be written. -/
theorem sound_buildTable {paths : List OptionValue} (h : areSoundFiles host files paths = true) :
    FailsWithin Sound (buildTable host files paths) := by
  refine failsWithin_foldlM (fun named _ _ htable => reachable_extendByFile htable named)
    (fun named hnamed table htable => ?_) reachable_standard
  have hsound := List.all_eq_true.1 h named hnamed
  cases named with
  | none => cases hsound
  | some path => exact sound_ofFile hsound path htable

/-! ## Setups -/

/-- The values that are written into the message of an error, in order. -/
def SetupError.shown : SetupError → List Data
  | syntaxFile e => e.shown
  | _ => []

/-- The error of a setup with sound syntax files is reported exactly if its message can be written. -/
theorem unreported?_eq_none_iff {options : Options} {e : SetupError}
    (h : areSoundFiles host files options.syntaxFiles = true)
    (he : setUp host files options = .error e) :
    e.unreported? host.shows = none ↔ Data.areWritable host.shows e.shown = true := by
  unfold setUp at he
  cases htable : buildTable host files options.syntaxFiles with
  | error fileError =>
    rw [htable] at he
    cases he
    have hreported : fileError.isReported host.shows = true ↔ _ :=
      SyntaxFileError.isReported_iff
    rw [and_iff_right (sound_buildTable h fileError htable)] at hreported
    rw [SetupError.shown, ← hreported, SetupError.unreported?]
    cases fileError.isReported host.shows <;> simp
  | ok table =>
    -- What is wrong with the file of formulas shows no value.
    rw [htable] at he
    have hformulas : ∀ e, formulasOfInputFile files options.input = .error e →
        e.unreported? host.shows = none ∧ e.shown = [] := by
      intro e he
      unfold formulasOfInputFile at he
      split at he
      · cases he
      · split at he
        · cases he
        · split at he
          · cases he
            exact ⟨rfl, rfl⟩
          · split at he
            · cases he
              exact ⟨rfl, rfl⟩
            · cases he
    dsimp only at he
    split at he
    · next e' he' =>
      cases he
      obtain ⟨hnone, hshown⟩ := hformulas e he'
      rw [hshown]
      exact iff_of_true hnone rfl
    · cases he

/-- A run whose log directory can be made and whose syntax files are sound ends with the exit code of
its answers; or it has no table or no formulas, and then it ends with the exit code for a failed setup
exactly if the message of the error can be written. -/
theorem exits_of_sound (host : Host) (files : Files) (options : Options) (input : String)
    (hlog : (makeLogDirectory files options).error? = none)
    (hsound : areSoundFiles host (files.withDirectories (makeLogDirectory files options).made)
      options.syntaxFiles = true) :
    match setUp host (files.withDirectories (makeLogDirectory files options).made) options with
    | .error e => (runWith host files options input).outcome = .exit setupExitCode ↔
        Data.areWritable host.shows e.shown = true
    | .ok (table, formulas) => (runWith host files options input).outcome =
        .exit (respond host.limits table options.format formulas input).1 := by
  simp only [runWith, hlog]
  cases hsetup : setUp host (files.withDirectories (makeLogDirectory files options).made) options with
  | error e =>
    dsimp only
    rw [← unreported?_eq_none_iff hsound hsetup, SetupError.report]
    cases e.unreported? host.shows <;> simp
  | ok result => rfl

end Command

/-- What is reported of an entry, of a table and of a run, given which values a host shows. An entry
ends in an error that is not reported exactly if it is malformed or the message cannot be written,
which shows parts of the entry only. For a table whose labels can be looked up this takes a malformed entry that is
the first to be refused, or again a message that cannot be written. A run whose syntax files are sound
ends with an exit code, and if it could not be prepared with the one for that, exactly if the message
can be written. -/
theorem reported_unless_malformed (shows : Data → Bool) (entry : List (Data × Data))
    {entries : List (Data × Data)} (hlabels : ∀ other ∈ entries, other.2.hasKeyLabel = true)
    {t : Table Data} (ht : t.Reachable) (host : Command.Host) (files : Command.Files)
    (options : Command.Options) (input : String) :
    (FailsWithin (EntryError.Reported shows) (Construct.ofEntries entry) ↔
      Construct.isMalformed entry = false ∧
        FailsWithin (EntryError.Writable shows) (Construct.ofEntries entry)) ∧
    FailsWithin (Construct.ShowsParts entry) (Construct.ofEntries entry) ∧
    (FailsWithin (TableError.Reported shows) (Table.ofData entries) ↔
      Table.ReportsEntries
        (fun entry => ∃ result, Table.checkItem entry.1 (.plain entry.2) = .ok result) entries ∧
        FailsWithin (TableError.Writable shows) (Table.ofData entries)) ∧
    (FailsWithin (TableError.Reported shows) (t.extend entries) ↔
      Table.ReportsEntries
        (fun entry => ∃ item, Table.Item.read (.plain entry.2) = .ok item) entries ∧
        FailsWithin (TableError.Writable shows) (t.extend entries)) ∧
    let making := Command.makeLogDirectory files options
    let files' := files.withDirectories making.made
    making.error? = none → Command.areSoundFiles host files' options.syntaxFiles = true →
      match Command.setUp host files' options with
      | .error e => (Command.runWith host files options input).outcome =
          .exit Command.setupExitCode ↔ Data.areWritable host.shows e.shown = true
      | .ok (table, formulas) => (Command.runWith host files options input).outcome =
          .exit (Command.respond host.limits table options.format formulas input).1 :=
  ⟨Construct.failsWithin_ofEntries_iff shows entry, Construct.showsParts_ofEntries entry,
    Table.failsWithin_ofData_iff hlabels shows, Table.failsWithin_extend_iff hlabels shows ht,
    Command.exits_of_sound host files options input⟩

/-- A syntax file in which a predicate takes no arguments. -/
def Command.Files.ofPredicate : Command.Files where
  entry? place :=
    if place = ["s"] then
      some (.file "P: \x7bkind: predicate, label: p, style: prefix, arity: 0\x7d".toUTF8)
    else none

/-- The options of a run with that file. -/
def Command.Options.ofPredicate : Command.Options :=
  { Command.Options.initial with syntaxFiles := [some "s"], noLogFile := true }

/-- Files among which a single one can be seen. -/
def Command.Files.single (content : String) : Command.Files where
  entry? place := if place = ["s"] then some (.file content.toUTF8) else none

theorem Command.Files.read_single (content : String) :
    ((Command.Files.single content).withDirectories []).read "s" = .ok content.toUTF8 := by
  have hsplit : "s".splitOn "/" = ["s"] := by
    rw [String.splitOn, if_neg (by decide), String.splitOnAux, if_neg (by decide +kernel),
      if_neg (by decide +kernel), String.splitOnAux, if_pos (by decide +kernel)]
    decide +kernel
  have hparts : Command.partsOf "s" = ["s"] := by
    rw [Command.partsOf, hsplit]
    decide
  have hfault : Command.pathFault? "s" "s".utf8ByteSize = none := by decide +kernel
  have hstart : Command.startOf "s" = [] := by decide +kernel
  have hslash : "s".endsWith "/" = false := by decide +kernel
  simp only [Command.Files.read, hparts, hfault, hstart, hslash]
  rfl

theorem Command.Files.read_ofPredicate :
    (Command.Files.ofPredicate.withDirectories []).read "s" =
      .ok "P: \x7bkind: predicate, label: p, style: prefix, arity: 0\x7d".toUTF8 :=
  Command.Files.read_single _

/-- The run reports the predicate and ends. -/
theorem reported_unless_malformed_predicate :
    (Command.runWith Command.levelHost .ofPredicate .ofPredicate "").outcome = .exit 2 := by
  have hsound : Command.areSoundFiles Command.levelHost
      (Command.Files.ofPredicate.withDirectories []) [some "s"] = true := by
    simp only [Command.areSoundFiles, List.all_cons, List.all_nil, Command.Files.read_ofPredicate]
    decide +kernel
  have hrefused : (((Command.buildTable Command.levelHost
      (Command.Files.ofPredicate.withDirectories []) [some "s"]).map fun _ => false).tryCatch
        fun e => .ok (Data.areWritable Command.levelHost.shows e.shown)).toOption = some true := by
    simp only [Command.buildTable, List.foldlM_cons, Command.extendByFile,
      Command.Files.read_ofPredicate]
    decide +kernel
  have hlabels : ∀ other ∈ ([] : List (Data × Data)), other.2.hasKeyLabel = true :=
    List.forall_mem_nil _
  have hrun := (reported_unless_malformed Command.levelHost.shows [] hlabels
    Command.reachable_standard Command.levelHost .ofPredicate .ofPredicate "").2.2.2.2 rfl hsound
  cases hbuilt : Command.buildTable Command.levelHost
      (Command.Files.ofPredicate.withDirectories []) [some "s"] with
  | ok table =>
    rw [hbuilt] at hrefused
    cases hrefused
  | error e =>
    rw [hbuilt] at hrefused
    have hwritable := Option.some.inj hrefused
    have hsetup : Command.setUp Command.levelHost (Command.Files.ofPredicate.withDirectories [])
        .ofPredicate = .error (.syntaxFile e) := by
      have hfiles : Command.Options.ofPredicate.syntaxFiles = [some "s"] := rfl
      rw [Command.setUp, hfiles, hbuilt]
    have hmade : (Command.makeLogDirectory .ofPredicate .ofPredicate).made = [] := by rfl
    rw [hmade, hsetup] at hrun
    exact hrun.2 hwritable

/-- A list as its kind makes an entry with a text as its label end in an error that is not reported,
whatever can be shown. -/
theorem not_reported_of_kind :
    ¬ ∀ fields : List (String × Data),
      (∀ value, fields.lookup "label" = some value → ∃ label, value = .text label) →
        FailsWithin (EntryError.Reported fun _ => true)
          (Construct.ofEntries (Data.textKeyed fields)) := by
  intro h
  have hfields : ∀ value, List.lookup "label" [("kind", .list []), ("label", Data.text "x")] =
      some value → ∃ label, value = .text label := by
    rintro value hvalue
    exact ⟨"x", (Option.some.inj hvalue).symm⟩
  have hreported := h _ hfields
  rw [Construct.failsWithin_ofEntries_iff, Construct.isMalformed_textKeyed] at hreported
  cases hreported.1

end LatexLogic
