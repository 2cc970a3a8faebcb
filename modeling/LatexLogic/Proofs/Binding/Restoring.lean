import LatexLogic.Proofs.Binding.FirstPlace
import LatexLogic.Proofs.Binding.Verdict

/-!
# Restoring stripped trees

Stripping looks for conflicts only between the declarations of an argument and those that were found
before it. Nevertheless it succeeds exactly if each metavariable is declared with one set of variables
wherever it stands. Then nothing is lost: the declarations name the metavariables in the order of
their first places, and where no atom has the name of a metavariable, putting them back into the
stripped tree gives the tree that was stripped (`Tree.strip_lossless`). What is not kept is the order
and the repetition of variables within a declaration.
-/

set_option autoImplicit false

namespace LatexLogic

/-! ## The order of declarations -/

namespace Declarations

variable {ds es : Declarations}

theorem get?_eq_none_iff {name : String} : ds.get? name = none ↔ name ∉ ds.map Prod.fst := by
  rw [get?, Option.map_eq_none_iff, List.find?_eq_none, List.mem_map]
  simp only [beq_iff_eq, not_exists, not_and]

/-- Merging puts the metavariables that are new behind the others. -/
theorem map_fst_merge (hes : (es.map Prod.fst).Nodup) :
    (ds.merge es).map Prod.fst = appendNew (ds.map Prod.fst) (es.map Prod.fst) := by
  -- A name is new if it has no declaration, however empty.
  have hnew : ∀ name, (ds.get? name).isNone = decide (name ∉ ds.map Prod.fst) := by
    intro name
    rw [Bool.eq_iff_iff, Option.isNone_iff_eq_none, get?_eq_none_iff, decide_eq_true_eq]
  rw [appendNew_of_nodup hes, merge, List.map_append, List.filter_map]
  simp only [hnew, Function.comp_def]

end Declarations

namespace Tree

/-- Stripping more trees adds their metavariables to those found before. -/
theorem map_fst_stripFrom {ts : List Tree}
    (ih : ∀ t ∈ ts, ∀ (s : Tree) (ds : Declarations), t.strip = .ok (s, ds) →
      ds.map Prod.fst = appendNew [] (t.metavariables.map Prod.fst)) :
    ∀ (found all : Declarations) (stripped : List Tree), stripFrom found ts = .ok (stripped, all) →
      all.map Prod.fst = appendNew (found.map Prod.fst) ((metavariablesList ts).map Prod.fst) := by
  induction ts with
  | nil =>
    intro found all stripped h
    obtain ⟨-, rfl⟩ : [] = stripped ∧ found = all := by simpa [stripFrom] using h
    rfl
  | cons t ts ihts =>
    intro found all stripped h
    rw [stripFrom] at h
    split at h
    · cases h
    · next s ds hstrip =>
      have hkeys := ih t List.mem_cons_self s ds hstrip
      split at h
      · cases h
      · split at h
        · next rest all' hrest =>
          obtain ⟨-, rfl⟩ : s :: rest = stripped ∧ all' = all := by simpa using h
          have hnodup : (ds.map Prod.fst).Nodup := hkeys ▸ nodup_appendNew _ [] List.nodup_nil
          -- The metavariables of the argument are collected apart, which makes no difference.
          calc all'.map Prod.fst
              = appendNew ((found.merge ds).map Prod.fst)
                  ((metavariablesList ts).map Prod.fst) :=
                ihts (fun t' ht' => ih t' (List.mem_cons_of_mem _ ht')) _ _ _ hrest
            _ = appendNew (appendNew (found.map Prod.fst) (t.metavariables.map Prod.fst))
                  ((metavariablesList ts).map Prod.fst) := by
                rw [Declarations.map_fst_merge hnodup, hkeys, appendNew_appendNew]
                rfl
            _ = appendNew (found.map Prod.fst)
                  ((metavariablesList (t :: ts)).map Prod.fst) := by
                rw [← appendNew_append, metavariablesList, List.map_append]
        · cases h

/-- The declarations name the metavariables in the order of reading, each once. -/
theorem map_fst_strip (t : Tree) : ∀ (s : Tree) (ds : Declarations), t.strip = .ok (s, ds) →
    ds.map Prod.fst = appendNew [] (t.metavariables.map Prod.fst) := by
  induction t using induction with
  | atom label =>
    intro s ds h
    obtain ⟨-, rfl⟩ : .atom label = s ∧ [] = ds := by simpa [strip] using h
    rfl
  | metavar name declared =>
    intro s ds h
    obtain ⟨-, rfl⟩ : .atom name = s ∧ [(name, variableSet declared)] = ds := by
      simpa [strip] using h
    rfl
  | node label args ih =>
    intro s ds h
    rw [strip] at h
    split at h
    · next stripped all hargs =>
      obtain ⟨-, rfl⟩ : .node label stripped = s ∧ all = ds := by simpa using h
      exact map_fst_stripFrom ih [] all stripped hargs
    · cases h

/-- A metavariable of the name stands at the path. -/
def NamedAt (t : Tree) (p : List Nat) (name : String) : Prop :=
  ∃ declared, t.at? p = some (.metavar name declared)

theorem listsFirstPlaces_names (t : Tree) :
    ListsFirstPlaces t.NamedAt (appendNew [] (t.metavariables.map Prod.fst)) := by
  have hordered : Marks.LeftToRight (t.metavariableMarks.map fun m => (m.1, m.2.1)) :=
    List.pairwise_map.2 (leftToRight_metavariableMarks t)
  have hlists := Marks.listsFirstPlaces hordered
  have hmem : ∀ p name, (p, name) ∈ t.metavariableMarks.map (fun m => (m.1, m.2.1)) ↔
      t.NamedAt p name := by
    intro p name
    simp [NamedAt, ← mem_metavariableMarks_iff]
  have hnames : (t.metavariableMarks.map fun m => (m.1, m.2.1)).map Prod.snd =
      t.metavariables.map Prod.fst := by
    rw [← map_snd_metavariableMarks, List.map_map, List.map_map]
    rfl
  rw [hnames] at hlists
  simpa only [hmem] using hlists

/-! ## Parts and shapes -/

/-- The first tree stands somewhere in the second one. -/
def IsPart (s t : Tree) : Prop :=
  ∃ p, t.at? p = some s

@[simp] theorem isPart_atom_iff {s : Tree} {label : String} :
    s.IsPart (.atom label) ↔ s = .atom label := by
  constructor
  · rintro ⟨_ | ⟨i, p⟩, hat⟩
    · simpa [eq_comm] using hat
    · simp at hat
  · rintro rfl
    exact ⟨[], rfl⟩

@[simp] theorem isPart_metavar_iff {s : Tree} {name : String} {declared : List String} :
    s.IsPart (.metavar name declared) ↔ s = .metavar name declared := by
  constructor
  · rintro ⟨_ | ⟨i, p⟩, hat⟩
    · simpa [eq_comm] using hat
    · simp at hat
  · rintro rfl
    exact ⟨[], rfl⟩

@[simp] theorem isPart_node_iff {s : Tree} {label : String} {args : List Tree} :
    s.IsPart (.node label args) ↔ s = .node label args ∨ ∃ arg ∈ args, s.IsPart arg := by
  constructor
  · rintro ⟨_ | ⟨i, p⟩, hat⟩
    · exact Or.inl (Option.some.inj hat).symm
    · obtain ⟨arg, harg, hat⟩ := at?_cons_eq_some_iff.1 hat
      exact Or.inr ⟨arg, List.mem_of_getElem? harg, p, hat⟩
  · rintro (rfl | ⟨arg, harg, p, hat⟩)
    · exact ⟨[], rfl⟩
    · obtain ⟨i, hi⟩ := List.mem_iff_getElem?.1 harg
      exact ⟨i :: p, at?_cons_eq_some_iff.2 ⟨arg, hi, hat⟩⟩

/-- The label of a node with the number of its arguments. A leaf has none. -/
def frame? : Tree → Option (String × Nat)
  | .node label args => some (label, args.length)
  | .atom _ => none
  | .metavar _ _ => none

/-- The trees have the same nodes at the same paths, and leaves at the same paths. -/
def SameShape (s t : Tree) : Prop :=
  ∀ p, (s.at? p).map frame? = (t.at? p).map frame?

theorem frame?_erased (t : Tree) : t.erased.frame? = t.frame? := by
  cases t with
  | atom label => rfl
  | metavar name declared => rfl
  | node label args => rw [erased, erasedList_eq_map, frame?, frame?, List.length_map]

theorem sameShape_erased (t : Tree) : t.erased.SameShape t := by
  intro p
  rw [at?_erased, Option.map_map, show frame? ∘ erased = frame? from funext frame?_erased]

/-- Where declarations are erased no metavariable is left. -/
theorem not_isPart_erased (t : Tree) {name : String} {declared : List String} :
    ¬ (metavar name declared).IsPart t.erased := by
  rintro ⟨p, hat⟩
  rw [at?_erased] at hat
  obtain ⟨u, -, hu⟩ := Option.map_eq_some_iff.1 hat
  cases u <;> cases hu

/-! ## Putting declarations back -/

/-- The trees differ at most in the order and the repetition of variables within declarations. -/
inductive AlikeDeclared : Tree → Tree → Prop where
  | atom (label : String) : AlikeDeclared (.atom label) (.atom label)
  | metavar (name : String) {declared declared' : List String} :
      (∀ v, v ∈ declared ↔ v ∈ declared') →
      AlikeDeclared (.metavar name declared) (.metavar name declared')
  | node (label : String) {args args' : List Tree} : List.Forall₂ AlikeDeclared args args' →
      AlikeDeclared (.node label args) (.node label args')

/-- No atom has the name of a metavariable. -/
def NamesApart (t : Tree) : Prop :=
  ∀ name declared, (atom name).IsPart t → ¬ (metavar name declared).IsPart t

mutual

/-- The tree with a declared metavariable in place of each atom that the declarations name. -/
def restore (ds : Declarations) : Tree → Tree
  | .atom label =>
    match ds.get? label with
    | some declared => .metavar label declared
    | none => .atom label
  | .metavar name declared => .metavar name declared
  | .node label args => .node label (restoreList ds args)

/-- The trees of a list with declared metavariables. -/
def restoreList (ds : Declarations) : List Tree → List Tree
  | [] => []
  | t :: ts => restore ds t :: restoreList ds ts

end

theorem restoreList_eq_map (ds : Declarations) (ts : List Tree) :
    restoreList ds ts = ts.map (restore ds) := by
  induction ts with
  | nil => rfl
  | cons t ts ih => rw [restoreList, ih, List.map_cons]

/-- Declarations restore a tree if they have the set of each of its metavariables and name none of its
atoms. -/
theorem alikeDeclared_restore {ds : Declarations} {t : Tree}
    (hset : ∀ m declared, (metavar m declared).IsPart t → ds.get? m = some (variableSet declared))
    (hnone : ∀ label, (atom label).IsPart t → ds.get? label = none) :
    (t.erased.restore ds).AlikeDeclared t := by
  induction t using induction with
  | atom label =>
    rw [erased, restore, hnone label (by simp)]
    exact .atom label
  | metavar m declared =>
    rw [erased, restore, hset m declared (by simp)]
    exact .metavar m fun v => mem_variableSet declared
  | node label args ih =>
    rw [erased, erasedList_eq_map, restore, restoreList_eq_map, List.map_map]
    refine .node label (List.forall₂_map_left_iff.2 (List.forall₂_same.2 fun arg harg => ?_))
    refine ih arg harg (fun m declared hpart => ?_) fun label' hpart => ?_
    · exact hset m declared (isPart_node_iff.2 (Or.inr ⟨arg, harg, hpart⟩))
    · exact hnone label' (isPart_node_iff.2 (Or.inr ⟨arg, harg, hpart⟩))

/-- What stripping gives is enough to restore the tree. -/
theorem alikeDeclared_restore_strip {t s : Tree} {ds : Declarations} (h : t.strip = .ok (s, ds))
    (hapart : t.NamesApart) : (s.restore ds).AlikeDeclared t := by
  obtain ⟨rfl, hdescribes⟩ := t.strip_eq_ok s ds h
  refine alikeDeclared_restore (fun m declared hpart => ?_) fun label hpart => ?_
  · exact hdescribes.get?_of_mem m declared (mem_metavariables_iff.2 hpart)
  · rw [Option.eq_none_iff_forall_ne_some]
    -- A set for the atom would be that of a metavariable with its name.
    intro set hset
    obtain ⟨declared, hmem, -⟩ := hdescribes.exists_of_mem label set (Declarations.mem_of_get? hset)
    exact hapart label declared hpart (mem_metavariables_iff.1 hmem)

/-! ## The check -/

/-- Stripping succeeds exactly if each metavariable is declared with one set of variables at all its
places, and otherwise names one that is declared with different sets. Where it succeeds, the
declarations list the metavariables by their first places, each with its set, and the tree keeps its
shape. If no atom has the name of a metavariable the two together restore the tree. -/
theorem strip_lossless (t : Tree) :
    ((∃ s ds, t.strip = .ok (s, ds)) ↔ t.DeclaresAlike) ∧
    (∀ s ds, t.strip = .ok (s, ds) →
      ListsFirstPlaces t.NamedAt (ds.map Prod.fst) ∧
      (∀ m declared, (metavar m declared).IsPart t → (m, variableSet declared) ∈ ds) ∧
      s.SameShape t ∧ (∀ m declared, ¬ (metavar m declared).IsPart s) ∧
      (t.NamesApart → (s.restore ds).AlikeDeclared t)) ∧
    ∀ m, t.strip = .error m → t.DeclaredApart m := by
  refine ⟨⟨?_, fun halike => ?_⟩, fun s ds hstrip => ?_, fun m herror => ?_⟩
  · rintro ⟨s, ds, hstrip⟩
    exact declaresAlike_of_strip hstrip
  · obtain ⟨ds, hstrip, -⟩ := halike.exists_strip
    exact ⟨t.erased, ds, hstrip⟩
  · obtain ⟨rfl, hdescribes⟩ := t.strip_eq_ok s ds hstrip
    refine ⟨?names, fun m declared hpart => ?sets, t.sameShape_erased,
      fun m declared => t.not_isPart_erased, alikeDeclared_restore_strip hstrip⟩
    case names =>
      rw [t.map_fst_strip _ ds hstrip]
      exact t.listsFirstPlaces_names
    case sets =>
      have hmem := mem_metavariables_iff.2 hpart
      exact Declarations.mem_of_get? (hdescribes.get?_of_mem m declared hmem)
  · exact (strip_eq_error_iff.1 herror).declaredApart

/-- In `\\psi \\land (\\phi(y,x,y) \\lor (\\phi(x,y) \\land \\top))` the declarations of `phi` agree, and
`psi` is declared with no variables. In `\\phi(x) \\land \\phi(y)` they do not agree. -/
theorem strip_lossless_conjunction :
    let t : Tree := .node "and" [.metavar "psi" [], .node "or" [.metavar "phi" ["y", "x", "y"],
      .node "and" [.metavar "phi" ["x", "y"], .atom "true"]]]
    let s : Tree := .node "and" [.atom "psi", .node "or" [.atom "phi",
      .node "and" [.atom "phi", .atom "true"]]]
    let u : Tree := .node "and" [.metavar "phi" ["x"], .metavar "phi" ["y"]]
    t.strip = .ok (s, [("psi", []), ("phi", ["x", "y"])]) ∧ t.DeclaresAlike ∧
      ListsFirstPlaces t.NamedAt ["psi", "phi"] ∧ t.NamesApart ∧
      (s.restore [("psi", []), ("phi", ["x", "y"])]).AlikeDeclared t ∧
      u.strip = .error "phi" ∧ u.DeclaredApart "phi" := by
  intro t s u
  have hstrip : t.strip = .ok (s, [("psi", []), ("phi", ["x", "y"])]) := by decide
  have herror : u.strip = .error "phi" := by decide
  have hapart : t.NamesApart := by
    intro name declared hatom
    obtain rfl : name = "true" := by simpa [t] using hatom
    simp [t]
  obtain ⟨hdecides, hsuccess, -⟩ := t.strip_lossless
  obtain ⟨hnames, -, -, -, hrestores⟩ := hsuccess _ _ hstrip
  obtain ⟨-, -, hfailure⟩ := u.strip_lossless
  exact ⟨hstrip, hdecides.1 ⟨_, _, hstrip⟩, hnames, hapart, hrestores hapart, herror,
    hfailure _ herror⟩

end Tree

end LatexLogic
