import LatexLogic.Command.Levels
import LatexLogic.Proofs.Command.Exit
import LatexLogic.Proofs.Table.Override

/-!
# Several syntax files

A run lays its syntax files over the standard table, one after the other. If this succeeds, a single
file that describes the mappings of all of them, laid over each other in turn, gives the same table
(`Command.buildTable_merged`). For a file is an extension of the table by what it describes, and
extensions compose (`extending_is_overriding`). What a file describes is for the reader of documents to
say, which can be any.
-/

set_option autoImplicit false

namespace LatexLogic

namespace Command

variable {host : Host} {files : Files} {path : String} {m : Mapping Data} {t ext : Table Data}

/-- There is a file under the path, and it is read as a mapping from spellings to values. -/
def FileDescribes (host : Host) (files : Files) (path : String) (m : Mapping Data) : Prop :=
  ∃ bytes text d, files.read path = .ok bytes ∧ String.fromUTF8? bytes = some text ∧
    host.readDocument text = .ok d ∧
    Table.entriesOfDocument path d = .ok (Data.textKeyed m.entries)

/-- A file extends a table by what it describes. -/
theorem extendByFile_eq_ok_iff (h : FileDescribes host files path m) :
    extendByFile host files t (some path) = .ok ext ↔
      t.extendItems (m.map .plain).items = .ok ext := by
  obtain ⟨bytes, text, d, hread, htext, hd, hentries⟩ := h
  rw [← Table.extend_textKeyed]
  simp only [extendByFile, Table.ofFile, hread, htext, hd, hentries]
  -- What is left differs only in how a failure is reported.
  cases t.extend (Data.textKeyed m.entries) with
  | ok ext' => simp only [Except.ok.injEq]
  | error e => simp only [reduceCtorEq]

/-- Files extend a table by what each of them describes in turn. -/
theorem foldlM_extendByFile {ms : List (String × Mapping Data)}
    (h : ∀ m ∈ ms, FileDescribes host files m.1 m.2)
    (hbuilt : (ms.map fun m => some m.1).foldlM (extendByFile host files) t = .ok ext) :
    ((ms.map Prod.snd).map (Mapping.map Table.Item.plain)).foldlM
      (fun t m => t.extendItems m.items) t = .ok ext := by
  induction ms generalizing t with
  | nil =>
    cases hbuilt
    rfl
  | cons m ms ih =>
    rw [List.forall_mem_cons] at h
    rw [List.map_cons, List.foldlM_cons] at hbuilt
    rw [List.map_cons, List.map_cons, List.foldlM_cons]
    cases hfile : extendByFile host files t (some m.1) with
    | error e =>
      rw [hfile] at hbuilt
      cases hbuilt
    | ok mid =>
      rw [hfile] at hbuilt
      rw [(extendByFile_eq_ok_iff h.1).1 hfile]
      exact ih h.2 hbuilt

/-- Loading files in turn gives the table that loading their merge gives. -/
theorem buildTable_merged {ms : List (String × Mapping Data)}
    (h : ∀ m ∈ ms, FileDescribes host files m.1 m.2)
    (hmerged : FileDescribes host files path ((ms.map Prod.snd).foldl Mapping.override .empty))
    (hbuilt : buildTable host files (ms.map fun m => some m.1) = .ok ext) :
    buildTable host files [some path] = .ok ext := by
  have hstandard := Table.reachable_iff_wellFormed.2 Table.standard_wellFormed
  have hextended := hstandard.extendItems_foldl_override (foldlM_extendByFile h hbuilt)
  -- The values of the merged mapping are items only now.
  rw [← Mapping.map_foldl_override] at hextended
  rw [buildTable, List.foldlM_cons, (extendByFile_eq_ok_iff hmerged).2 hextended]
  rfl

end Command

/-! ## Adding a quantifier -/

/-- The mapping that describes a quantifier. -/
def Mapping.ofQuantifier (spelling label : String) : Mapping Data where
  entries := [(spelling, (Construct.quantifier label).valued.toData)]
  nodup_keys := List.nodup_singleton _

/-- The standard table with one more quantifier. -/
def Table.withQuantifier (spelling label : String) : Table :=
  ⟨insert standard.entries (spelling, .quantifier label)⟩

/-- A table is extended by the mapping that describes a quantifier. -/
theorem Table.extendItems_ofQuantifier {t : Table} {s label : String}
    (h : (⟨insert t.entries (s, .quantifier label)⟩ : Table).WellFormed) :
    t.valued.extendItems ((Mapping.ofQuantifier s label).map .plain).items =
      .ok (⟨insert t.entries (s, .quantifier label)⟩ : Table).valued :=
  extendItems_singleton_valued (Item.read_toData nofun) h

/-- Whether a document maps one spelling to a quantifier. -/
def Yaml.isQuantifier (spelling label : String) : Except YamlError Data → Bool
  | .ok (.map [(.text s, .map [(.text k, .text kind), (.text l, .text name)])]) =>
    [s, k, kind, l, name] == [spelling, "kind", "quantifier", "label", label]
  | _ => false

theorem Yaml.eq_of_isQuantifier {spelling label : String} {document : Except YamlError Data}
    (h : isQuantifier spelling label document = true) :
    document = .ok (.map [(.text spelling, (Construct.quantifier label).valued.toData)]) := by
  unfold isQuantifier at h
  split at h
  · simp only [beq_iff_eq, List.cons.injEq, and_true] at h
    obtain ⟨rfl, rfl, rfl, rfl, rfl⟩ := h
    rfl
  · cases h

/-- A file of one quantifier describes it. -/
theorem Command.fileDescribes_quantifier :
    FileDescribes levelHost
      ((Files.single "P: \x7bkind: quantifier, label: p\x7d").withDirectories []) "s"
      (.ofQuantifier "P" "p") := by
  refine ⟨_, "P: \x7bkind: quantifier, label: p\x7d",
    .map [(.text "P", (Construct.quantifier "p").valued.toData)], Files.read_single _, ?text, ?yaml,
    rfl⟩
  case text => decide +kernel
  case yaml => exact Yaml.eq_of_isQuantifier (by decide +kernel)

/-! ## Composition -/

/-- A table can be extended exactly if it can be built from its own entries with the new ones laid over
them, and then both give the same table: old spellings keep their position, new ones follow in the
order in which they are given, and a spelling means what the new entries say of it or else what it
meant before. Extending twice is extending once, by the second mapping laid over the first. Plain
values are one sort of items, and so are those of a syntax file: if syntax files can be loaded in
turn, a file with all their mappings laid over each other gives the same table. -/
theorem extending_is_overriding {t : Table Data} (ht : t.Reachable) (a b : Mapping Table.Item) :
    (∀ ext, t.extendItems a.items = .ok ext ↔
      Table.ofItems (ht.wellFormed.ownItems.override a).items = .ok ext) ∧
    (∀ ext, t.extendItems a.items = .ok ext →
      ext.spellings = t.spellings ++ a.keys.filter (· ∉ t.spellings) ∧
      (∀ s item, a.get? s = some item →
        ∃ c, item.read = .ok (.construct c) ∧ ext.get? s = some c) ∧
      ∀ s, a.get? s = none → ext.get? s = t.get? s) ∧
    (∀ mid ext, t.extendItems a.items = .ok mid → mid.extendItems b.items = .ok ext →
      t.extendItems (a.override b).items = .ok ext) ∧
    (∀ m : Mapping Data,
      t.extend (Data.textKeyed m.entries) = t.extendItems (m.map .plain).items) ∧
    ∀ (host : Command.Host) (files : Command.Files) (ms : List (String × Mapping Data))
        (path : String) (ext : Table Data),
      (∀ m ∈ ms, Command.FileDescribes host files m.1 m.2) →
      Command.FileDescribes host files path ((ms.map Prod.snd).foldl Mapping.override .empty) →
      Command.buildTable host files (ms.map fun m => some m.1) = .ok ext →
      Command.buildTable host files [some path] = .ok ext := by
  refine ⟨fun ext => Table.extendItems_eq_ok_iff ht.wellFormed, fun ext h => ⟨?order, ?new, ?old⟩,
    fun mid ext => Table.extendItems_override ht.wellFormed, t.extend_textKeyed,
    fun host files ms path ext => Command.buildTable_merged⟩
  case order => exact Table.spellings_extendItems ht.wellFormed h
  case new => exact fun s item => Table.get?_extendItems ht.wellFormed h
  case old => exact fun s => Table.get?_extendItems_of_none ht.wellFormed h

/-- A quantifier is added to the standard table and then given another label; and a file with the first
one is loaded twice. -/
theorem extending_is_overriding_quantifier :
    (Table.withQuantifier "P" "p").valued.get? "P" = some (.quantifier (.text "p")) ∧
      (Table.withQuantifier "P" "p").valued.get? "=" = Table.standard.valued.get? "=" ∧
      (Table.standard.valued.extendItems
        (((Mapping.ofQuantifier "P" "p").map Table.Item.plain).override
          ((Mapping.ofQuantifier "P" "q").map .plain)).items) =
        .ok (Table.withQuantifier "P" "q").valued ∧
      Command.buildTable Command.levelHost
        ((Command.Files.single "P: \x7bkind: quantifier, label: p\x7d").withDirectories [])
        [some "s"] = .ok (Table.withQuantifier "P" "p").valued := by
  have ht := Table.reachable_iff_wellFormed.2 Table.standard_wellFormed
  obtain ⟨-, hone, htwo, -, hfiles⟩ := extending_is_overriding ht
    ((Mapping.ofQuantifier "P" "p").map .plain) ((Mapping.ofQuantifier "P" "q").map .plain)
  have hwell : ∀ label ∈ ["p", "q"], (Table.withQuantifier "P" label).WellFormed := by
    intro label hlabel
    obtain rfl | rfl : label = "p" ∨ label = "q" := by simpa using hlabel
    all_goals exact ⟨by decide, by decide, by decide⟩
  have hp : Table.standard.valued.extendItems
      ((Mapping.ofQuantifier "P" "p").map Table.Item.plain).items =
      .ok (Table.withQuantifier "P" "p").valued :=
    Table.extendItems_ofQuantifier (hwell "p" (by simp))
  have hagain : (Table.withQuantifier "P" "p").valued.extendItems
      ((Mapping.ofQuantifier "P" "p").map Table.Item.plain).items =
      .ok (Table.withQuantifier "P" "p").valued :=
    Table.extendItems_ofQuantifier (hwell "p" (by simp))
  have hq : (Table.withQuantifier "P" "p").valued.extendItems
      ((Mapping.ofQuantifier "P" "q").map Table.Item.plain).items =
      .ok (Table.withQuantifier "P" "q").valued :=
    Table.extendItems_ofQuantifier (hwell "q" (by simp))
  obtain ⟨-, hnew, hold⟩ := hone _ hp
  obtain ⟨c, hc, hget⟩ := hnew "P" _ rfl
  have hread : Table.Item.read (.plain (Construct.quantifier "p").valued.toData) =
      .ok (.construct (Construct.quantifier "p").valued) := Table.Item.read_toData nofun
  rw [hread] at hc
  cases hc
  have hdescribed := Command.fileDescribes_quantifier
  refine ⟨hget, hold "=" rfl, htwo _ _ hp hq,
    hfiles _ _ [("s", .ofQuantifier "P" "p"), ("s", .ofQuantifier "P" "p")] "s" _ ?each ?merged
      ?loaded⟩
  case each => simpa using hdescribed
  case merged => exact hdescribed
  case loaded =>
    have hfirst := (Command.extendByFile_eq_ok_iff hdescribed).2 hp
    have hsecond := (Command.extendByFile_eq_ok_iff hdescribed).2 hagain
    simp only [List.map_cons, List.map_nil, Command.buildTable, List.foldlM_cons, List.foldlM_nil,
      hfirst, bind, Except.bind, hsecond]
    rfl

end LatexLogic
