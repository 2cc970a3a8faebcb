import LatexLogic.Binding.Declared
import LatexLogic.Proofs.Binding.Scope

/-!
# Declarations

Stripping a tree gives the tree without declarations and a list which says for each metavariable, at
all its occurrences alike, the set of variables that is declared there (`strip_eq_ok`). Without
declarations a tree binds the same variables at the same places (`bindsAt_erased_iff`).
-/

set_option autoImplicit false

namespace LatexLogic

/-! ## Sets of variables -/

@[simp] theorem mem_insertVariable {v name : String} (vs : List String) :
    v ∈ insertVariable name vs ↔ v = name ∨ v ∈ vs := by
  induction vs with
  | nil => simp [insertVariable]
  | cons w ws ih =>
    rw [insertVariable]
    split
    · exact List.mem_cons
    · split
      · next hname => simp [hname]
      · rw [List.mem_cons, ih, List.mem_cons, or_left_comm]

/-- A set has the variables of the list that it was made from. -/
@[simp] theorem mem_variableSet {v : String} (names : List String) :
    v ∈ variableSet names ↔ v ∈ names := by
  induction names with
  | nil => simp [variableSet]
  | cons name names ih =>
    show v ∈ insertVariable name (variableSet names) ↔ _
    rw [mem_insertVariable, ih, List.mem_cons]

/-! ## Lists of declarations -/

namespace Declarations

/-- The list says for each metavariable which set it is declared with, and for no other. -/
structure Describes (ds : Declarations) (written : List (String × List String)) : Prop where
  get?_of_mem : ∀ name declared, (name, declared) ∈ written →
    ds.get? name = some (variableSet declared)
  exists_of_mem : ∀ name set, (name, set) ∈ ds →
    ∃ declared, (name, declared) ∈ written ∧ set = variableSet declared

theorem describes_nil : Describes [] [] :=
  ⟨by simp, by simp⟩

theorem describes_singleton (name : String) (declared : List String) :
    Describes [(name, variableSet declared)] [(name, declared)] := by
  constructor
  · intro name' declared' hmem
    obtain ⟨rfl, rfl⟩ := Prod.mk.inj (List.mem_singleton.1 hmem)
    simp [get?]
  · intro name' set hmem
    obtain ⟨rfl, rfl⟩ := Prod.mk.inj (List.mem_singleton.1 hmem)
    exact ⟨declared, List.mem_singleton_self _, rfl⟩

/-- What the first list says about a metavariable counts, or else what the second one says. -/
theorem get?_merge (ds es : Declarations) (name : String) :
    (ds.merge es).get? name = (ds.get? name).or (es.get? name) := by
  simp only [get?, merge, List.find?_append, Option.map_or, List.find?_filter]
  cases hfound : ds.find? fun d => d.1 == name with
  | some d => rfl
  | none =>
    simp only [Option.map_none, Option.none_or]
    congr 2
    funext e
    by_cases hname : e.1 = name
    · simp [hname, hfound]
    · simp [hname]

/-- Where there is no conflict the second list agrees with what the first one says. -/
theorem eq_of_conflict?_eq_none {ds es : Declarations} (h : ds.conflict? es = none)
    {name : String} {set other : List String} (hset : ds.get? name = some set)
    (hother : es.get? name = some other) : other = set := by
  obtain ⟨⟨found, set'⟩, hfind, rfl⟩ := Option.map_eq_some_iff.1 hset
  have hmem := List.mem_of_find?_eq_some hfind
  obtain rfl : found = name := by simpa using List.find?_some hfind
  have hnone := List.find?_eq_none.1 (Option.map_eq_none_iff.1 h) _ hmem
  simpa [hother] using hnone

theorem Describes.merge {ds es : Declarations} {written written' : List (String × List String)}
    (h : ds.Describes written) (h' : es.Describes written') (hconflict : ds.conflict? es = none) :
    (ds.merge es).Describes (written ++ written') := by
  constructor
  · intro name declared hmem
    rw [get?_merge]
    rcases List.mem_append.1 hmem with hmem | hmem
    · rw [h.get?_of_mem name declared hmem, Option.some_or]
    · -- What the first list says counts, and without a conflict it is the same.
      have hget := h'.get?_of_mem name declared hmem
      cases hset : ds.get? name with
      | none => rw [Option.none_or, hget]
      | some set => rw [Option.some_or, eq_of_conflict?_eq_none hconflict hset hget]
  · intro name set hmem
    rcases List.mem_append.1 hmem with hmem | hmem
    · obtain ⟨declared, hmem, hset⟩ := h.exists_of_mem name set hmem
      exact ⟨declared, List.mem_append_left _ hmem, hset⟩
    · obtain ⟨declared, hmem, hset⟩ := h'.exists_of_mem name set (List.mem_filter.1 hmem).1
      exact ⟨declared, List.mem_append_right _ hmem, hset⟩

end Declarations

namespace Tree

/-! ## Trees without declarations -/

mutual

/-- The tree with the names of metavariables in place of their declarations. -/
def erased : Tree → Tree
  | .atom label => .atom label
  | .metavar name _ => .atom name
  | .node label args => .node label (erasedList args)

/-- The trees of a list without declarations. -/
def erasedList : List Tree → List Tree
  | [] => []
  | t :: ts => erased t :: erasedList ts

end

/-- The arguments of a node lose their declarations one by one. -/
theorem erasedList_eq_map (ts : List Tree) : erasedList ts = ts.map erased := by
  induction ts with
  | nil => rfl
  | cons t ts ih => rw [erasedList, ih, List.map_cons]

@[simp] theorem args_erased (t : Tree) : t.erased.args = t.args.map erased := by
  cases t with
  | atom label => rfl
  | metavar name declared => rfl
  | node label args => exact erasedList_eq_map args

/-- Paths lead to the same parts, without their declarations. -/
theorem at?_erased (p : List Nat) : ∀ t : Tree, t.erased.at? p = (t.at? p).map erased := by
  induction p with
  | nil =>
    intro t
    rfl
  | cons i p ih =>
    intro t
    rw [at?_cons, at?_cons, args_erased, List.getElem?_map]
    cases t.args[i]? with
    | none => rfl
    | some arg => exact ih arg

section Binding

variable {isQuantifier : String → Bool} {t : Tree}

theorem erased_eq_node_iff {label : String} {args : List Tree} :
    t.erased = .node label args ↔ ∃ args', t = .node label args' ∧ args = args'.map erased := by
  cases t with
  | atom label' => simp [erased]
  | metavar name declared => simp [erased]
  | node label' args' =>
    rw [erased, erasedList_eq_map, Tree.node.injEq]
    constructor
    · rintro ⟨rfl, rfl⟩
      exact ⟨args', rfl, rfl⟩
    · rintro ⟨args'', heq, rfl⟩
      obtain ⟨rfl, rfl⟩ := Tree.node.inj heq
      exact ⟨rfl, rfl⟩

/-- A quantifier node without declarations stands where the tree has a quantifier node. -/
theorem at?_erased_quantifier {q : List Nat} {label : String} {binder scope : Tree}
    (h : t.erased.at? q = some (.node label [binder, scope])) :
    ∃ binder' scope', t.at? q = some (.node label [binder', scope']) ∧ binder = binder'.erased := by
  rw [at?_erased, Option.map_eq_some_iff] at h
  obtain ⟨s, hs, hnode⟩ := h
  obtain ⟨args, rfl, hargs⟩ := erased_eq_node_iff.1 hnode
  match args, hargs with
  | [binder', scope'], hargs =>
    simp only [List.map_cons, List.map_nil, List.cons.injEq, and_true] at hargs
    exact ⟨binder', scope', hs, hargs.1⟩

/-- Without declarations a tree binds the same variables. -/
theorem bindsAt_erased_iff (h : t.NamesBinders isQuantifier) {q : List Nat} {name : String} :
    t.erased.BindsAt isQuantifier q name ↔ t.BindsAt isQuantifier q name := by
  constructor
  · rintro ⟨label, scope, hat, hlabel⟩
    obtain ⟨binder, scope', hat', hbinder⟩ := at?_erased_quantifier hat
    obtain ⟨name', rfl⟩ := h q label binder scope' hat' hlabel
    obtain rfl := Tree.atom.inj hbinder
    exact ⟨label, scope', hat', hlabel⟩
  · rintro ⟨label, scope, hat, hlabel⟩
    refine ⟨label, scope.erased, ?_, hlabel⟩
    rw [at?_erased, hat]
    rfl

theorem NamesBinders.erased (h : t.NamesBinders isQuantifier) :
    t.erased.NamesBinders isQuantifier := by
  intro q label binder scope hat hlabel
  obtain ⟨binder', scope', hat', rfl⟩ := at?_erased_quantifier hat
  obtain ⟨name, rfl⟩ := h q label binder' scope' hat' hlabel
  exact ⟨name, rfl⟩

end Binding

/-! ## Stripping -/

/-- Stripping a list strips its trees and collects their declarations. -/
theorem stripFrom_eq_ok {ts : List Tree}
    (ih : ∀ t ∈ ts, ∀ (s : Tree) (ds : Declarations), t.strip = .ok (s, ds) →
      s = t.erased ∧ ds.Describes t.metavariables) :
    ∀ (found all : Declarations) (written : List (String × List String)) (stripped : List Tree),
      found.Describes written → stripFrom found ts = .ok (stripped, all) →
      stripped = ts.map erased ∧ all.Describes (written ++ metavariablesList ts) := by
  induction ts with
  | nil =>
    intro found all written stripped hfound h
    obtain ⟨rfl, rfl⟩ : [] = stripped ∧ found = all := by simpa [stripFrom] using h
    exact ⟨rfl, by simpa [metavariablesList] using hfound⟩
  | cons t ts ihts =>
    intro found all written stripped hfound h
    rw [stripFrom] at h
    split at h
    · cases h
    · next s ds hstrip =>
      obtain ⟨rfl, hds⟩ := ih t List.mem_cons_self s ds hstrip
      split at h
      · cases h
      · -- Both lists are merged before the remaining trees are stripped.
        next hconflict =>
        split at h
        · next rest all' hrest =>
          obtain ⟨rfl, rfl⟩ : t.erased :: rest = stripped ∧ all' = all := by simpa using h
          obtain ⟨rfl, hall⟩ := ihts (fun t' ht' => ih t' (List.mem_cons_of_mem _ ht')) _ _ _ _
            (hfound.merge hds hconflict) hrest
          refine ⟨rfl, ?_⟩
          rwa [metavariablesList, ← List.append_assoc]
        · cases h

/-- What stripping gives: the tree without declarations, and the declarations of all metavariables
in it. -/
theorem strip_eq_ok (t : Tree) : ∀ (s : Tree) (ds : Declarations), t.strip = .ok (s, ds) →
    s = t.erased ∧ ds.Describes t.metavariables := by
  induction t using induction with
  | atom label =>
    intro s ds h
    obtain ⟨rfl, rfl⟩ : .atom label = s ∧ [] = ds := by simpa [strip] using h
    exact ⟨rfl, Declarations.describes_nil⟩
  | metavar name declared =>
    intro s ds h
    obtain ⟨rfl, rfl⟩ : .atom name = s ∧ [(name, variableSet declared)] = ds := by
      simpa [strip] using h
    exact ⟨rfl, Declarations.describes_singleton name declared⟩
  | node label args ih =>
    intro s ds h
    rw [strip] at h
    split at h
    · next stripped all hargs =>
      obtain ⟨rfl, rfl⟩ : .node label stripped = s ∧ all = ds := by simpa using h
      obtain ⟨rfl, hall⟩ := stripFrom_eq_ok ih [] all [] stripped Declarations.describes_nil hargs
      exact ⟨by rw [erased, erasedList_eq_map], hall⟩
    · cases h

/-! ## Metavariables -/

theorem metavariablesList_eq_flatMap (ts : List Tree) :
    metavariablesList ts = ts.flatMap metavariables := by
  induction ts with
  | nil => rfl
  | cons t ts ih => rw [metavariablesList, ih, List.flatMap_cons]

/-- The metavariables of a tree are those that stand somewhere in it. -/
theorem mem_metavariables_iff {t : Tree} {name : String} {declared : List String} :
    (name, declared) ∈ t.metavariables ↔ ∃ p, t.at? p = some (.metavar name declared) := by
  induction t using induction with
  | atom label =>
    refine iff_of_false (by simp [metavariables]) ?_
    rintro ⟨_ | ⟨i, p⟩, hat⟩
    · simp at hat
    · simp at hat
  | metavar name' declared' =>
    rw [metavariables, List.mem_singleton, Prod.mk.injEq]
    constructor
    · rintro ⟨rfl, rfl⟩
      exact ⟨[], rfl⟩
    · rintro ⟨_ | ⟨i, p⟩, hat⟩
      · simpa [eq_comm] using hat
      · simp at hat
  | node label args ih =>
    rw [metavariables, metavariablesList_eq_flatMap, List.mem_flatMap]
    constructor
    · rintro ⟨arg, harg, hmem⟩
      obtain ⟨p, hp⟩ := (ih arg harg).1 hmem
      obtain ⟨i, hi⟩ := List.mem_iff_getElem?.1 harg
      exact ⟨i :: p, at?_cons_eq_some_iff.2 ⟨arg, hi, hp⟩⟩
    · rintro ⟨_ | ⟨i, p⟩, hat⟩
      · simp at hat
      · obtain ⟨arg, hi, hp⟩ := at?_cons_eq_some_iff.1 hat
        have harg := List.mem_of_getElem? hi
        exact ⟨arg, harg, (ih arg harg).2 ⟨p, hp⟩⟩

/-- No declaration has an eigenvariable if none is found. -/
theorem declaredEigenvariable?_eq_none_iff {t : Tree} :
    t.declaredEigenvariable? = none ↔ ∀ name declared, (name, declared) ∈ t.metavariables →
      ∀ v ∈ declared, isEigenvariable v = false := by
  unfold declaredEigenvariable?
  rw [List.findSome?_eq_none_iff]
  constructor
  · intro h name declared hmem v hv
    have hnone := List.find?_eq_none.1 (Option.map_eq_none_iff.1 (h (name, declared) hmem)) v hv
    simpa using hnone
  · rintro h ⟨name, declared⟩ hmem
    refine Option.map_eq_none_iff.2 (List.find?_eq_none.2 fun v hv => ?_)
    simp [h name declared hmem v hv]

end Tree

end LatexLogic
