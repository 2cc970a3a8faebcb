import LatexLogic.Proofs.Binding.Report
import LatexLogic.Proofs.Grammar.Limit

/-!
# The verdict on a tree

Four conditions on the tree of a formula decide what becomes of it: no ordinary variable is free, a
metavariable is declared with one set of variables wherever it stands, no variable is bound twice,
and no eigenvariable is declared free. A formula that meets them all is accepted, and any other one
is refused for the first condition that it violates (`Formula.parse_decided`). The conditions are
said by paths, without the checks that test them.
-/

set_option autoImplicit false

namespace LatexLogic

namespace Tree

/-! ## Conditions -/

section Conditions

variable (isQuantifier : String → Bool) (t : Tree)

/-- No ordinary variable occurs outside the scopes of the quantifiers that bind it. -/
def Closed : Prop :=
  ∀ name, isOrdinaryVariable name = true → ¬ t.OccursFree isQuantifier name

/-- Two quantifier nodes bind the variable. -/
def BoundTwice (name : String) : Prop :=
  ∃ q q', q ≠ q' ∧ t.BindsAt isQuantifier q name ∧ t.BindsAt isQuantifier q' name

/-- The metavariable is declared with different sets of variables. -/
def DeclaredApart (name : String) : Prop :=
  ∃ p p' declared declared', t.at? p = some (.metavar name declared) ∧
    t.at? p' = some (.metavar name declared') ∧ ¬ ∀ v, v ∈ declared ↔ v ∈ declared'

/-- Each metavariable is declared with one set of variables. -/
def DeclaresAlike : Prop :=
  ∀ name, ¬ t.DeclaredApart name

/-- No metavariable declares an eigenvariable. -/
def DeclaresNoEigenvariable : Prop :=
  ∀ p m declared, t.at? p = some (.metavar m declared) → ∀ v ∈ declared, isEigenvariable v = false

/-- Of the eigenvariables that are declared this is the first in the order of reading, and the
metavariable is the one that declares it there. -/
def FirstEigenvariable (v m : String) : Prop :=
  ∃ p before behind, t.at? p = some (.metavar m (before ++ v :: behind)) ∧
    isEigenvariable v = true ∧ (∀ w ∈ before, isEigenvariable w = false) ∧
    ∀ p' m' declared, t.at? p' = some (.metavar m' declared) → LeftOf p' p →
      ∀ w ∈ declared, isEigenvariable w = false

end Conditions

section Checks

variable {isQuantifier : String → Bool} {t : Tree}

theorem bindsOnce_iff : t.BindsOnce isQuantifier ↔ ∀ name, ¬ t.BoundTwice isQuantifier name := by
  constructor
  · rintro honce name ⟨q, q', hne, hq, hq'⟩
    exact hne (honce name q q' hq hq')
  · intro h name q q' hq hq'
    by_contra hne
    exact h name ⟨q, q', hne, hq, hq'⟩

/-! ## Reported faults -/

/-- A quantifier node binds one variable. -/
theorem BindsAt.name_eq {q : List Nat} {name name' : String} (h : t.BindsAt isQuantifier q name)
    (h' : t.BindsAt isQuantifier q name') : name = name' := by
  obtain ⟨label, scope, hat, -⟩ := h
  obtain ⟨label', scope', hat', -⟩ := h'
  rw [hat] at hat'
  simp only [Option.some.injEq, node.injEq, List.cons.injEq, atom.injEq] at hat'
  exact hat'.2.1

/-- A variable that is reported is bound twice. -/
theorem FirstRebound.boundTwice {name : String} (h : t.FirstRebound isQuantifier name) :
    t.BoundTwice isQuantifier name := by
  obtain ⟨p, p', q, ⟨⟨hleft, q₁, q', name', hp, rfl, hq₁, hq'⟩, -⟩, rfl, hq⟩ := h
  obtain rfl := List.append_cancel_right hp
  obtain rfl := hq.name_eq hq₁
  exact ⟨q, q', fun heq => hleft.ne (heq ▸ rfl), hq, hq'⟩

/-- A metavariable that is reported is declared with different sets. -/
theorem FirstDeclaredApart.declaredApart {name : String} (h : t.FirstDeclaredApart name) :
    t.DeclaredApart name := by
  obtain ⟨p, p', declared, ⟨⟨-, name', declared₁, declared', hat₁, hat', hapart⟩, -⟩, hat⟩ := h
  rw [hat, Option.some.injEq, metavar.injEq] at hat₁
  obtain ⟨rfl, rfl⟩ := hat₁
  exact ⟨p, p', declared, declared', hat, hat', hapart⟩

/-! ## Conditions and checks -/

theorem closed_iff (hnames : t.NamesBinders isQuantifier) :
    t.Closed isQuantifier ↔ t.freeVariables isQuantifier = [] := by
  rw [List.eq_nil_iff_forall_not_mem]
  simp only [mem_freeVariables_iff hnames, not_and]
  rfl

/-- Where stripping succeeds each metavariable is declared with one set. -/
theorem declaresAlike_of_strip {s : Tree} {ds : Declarations} (h : t.strip = .ok (s, ds)) :
    t.DeclaresAlike := by
  rintro name ⟨p, p', declared, declared', hat, hat', hapart⟩
  obtain ⟨-, hdescribes⟩ := t.strip_eq_ok s ds h
  have hset := hdescribes.get?_of_mem name declared (mem_metavariables_iff.2 ⟨p, hat⟩)
  have hset' := hdescribes.get?_of_mem name declared' (mem_metavariables_iff.2 ⟨p', hat'⟩)
  rw [hset, Option.some.injEq] at hset'
  exact hapart (variableSet_eq_iff.1 hset')

theorem DeclaresAlike.exists_strip (h : t.DeclaresAlike) :
    ∃ ds, t.strip = .ok (t.erased, ds) ∧ ds.Describes t.metavariables := by
  cases hstrip : t.strip with
  | error m => exact absurd (strip_eq_error_iff.1 hstrip).declaredApart (h m)
  | ok result =>
    obtain ⟨s, ds⟩ := result
    obtain ⟨rfl, hdescribes⟩ := t.strip_eq_ok s ds hstrip
    exact ⟨ds, rfl, hdescribes⟩

/-- The check on bound variables goes through the tree without declarations. -/
theorem BindsOnce.exists_boundVariables (hnames : t.NamesBinders isQuantifier)
    (h : t.BindsOnce isQuantifier) : ∃ bound, t.erased.boundVariables isQuantifier = .ok bound := by
  cases hbound : t.erased.boundVariables isQuantifier with
  | error e =>
    obtain ⟨name, hfirst, -⟩ := (boundVariables_eq_error_iff hnames.erased).1 hbound
    have htwice := ((firstRebound_erased_iff hnames).1 hfirst).boundTwice
    exact absurd htwice (bindsOnce_iff.1 h name)
  | ok bound => exact ⟨bound, rfl⟩

/-- The eigenvariable that is reported is the first one that is declared. -/
theorem declaredEigenvariable?_eq_some_iff {v m : String} :
    t.declaredEigenvariable? = some (v, m) ↔ t.FirstEigenvariable v m := by
  have hordered := leftToRight_metavariableMarks t
  unfold declaredEigenvariable?
  rw [← map_snd_metavariableMarks, List.findSome?_map, List.findSome?_eq_some_iff]
  constructor
  · rintro ⟨left, ⟨p, m', declared⟩, right, hmarks, hfind, hleft⟩
    obtain ⟨v', hv', heq⟩ := Option.map_eq_some_iff.1 hfind
    obtain ⟨rfl, rfl⟩ := Prod.mk.inj heq
    obtain ⟨heigen, before, behind, rfl, hbefore⟩ := List.find?_eq_some_iff_append.1 hv'
    rw [hmarks] at hordered
    obtain ⟨-, hright, -⟩ := List.pairwise_append.1 hordered
    refine ⟨p, before, behind, ?_, heigen, fun w hw => by simpa using hbefore w hw, ?_⟩
    · rw [← mem_metavariableMarks_iff, hmarks]
      exact List.mem_append_right _ List.mem_cons_self
    · intro p' m'' declared' hat hp' w hw
      have hmem := (mem_metavariableMarks_iff p').2 hat
      rw [hmarks] at hmem
      rcases List.mem_append.1 hmem with hmem | hmem
      · have hnone := List.find?_eq_none.1 (Option.map_eq_none_iff.1 (hleft _ hmem)) w hw
        simpa using hnone
      · -- A metavariable further to the right is not to the left.
        rcases List.mem_cons.1 hmem with heq | hmem
        · obtain ⟨rfl, -⟩ := Prod.mk.inj heq
          exact absurd rfl hp'.ne
        · exact absurd hp' ((List.pairwise_cons.1 hright).1 _ hmem).asymm
  · -- The marks are ordered, so the metavariables to the left are those before in the list.
    rintro ⟨p, before, behind, hat, heigen, hbefore, hleft⟩
    have hmem := (mem_metavariableMarks_iff p).2 hat
    obtain ⟨left, right, hmarks⟩ := List.append_of_mem hmem
    rw [hmarks] at hordered
    refine ⟨left, _, right, hmarks, ?_, fun n hn => ?_⟩
    · refine Option.map_eq_some_iff.2 ⟨v, List.find?_eq_some_iff_append.2 ⟨heigen, before, behind,
        rfl, fun w hw => ?_⟩, rfl⟩
      rw [hbefore w hw]
      rfl
    · obtain ⟨p', m', declared⟩ := n
      have hat' : t.at? p' = some (.metavar m' declared) := by
        rw [← mem_metavariableMarks_iff, hmarks]
        exact List.mem_append_left _ hn
      have hp' := (List.pairwise_append.1 hordered).2.2 _ hn _ List.mem_cons_self
      refine Option.map_eq_none_iff.2 (List.find?_eq_none.2 fun w hw => ?_)
      simp [hleft p' m' declared hat' hp' w hw]

/-- Where none is reported no eigenvariable is declared. -/
theorem declaresNoEigenvariable_iff :
    t.DeclaresNoEigenvariable ↔ t.declaredEigenvariable? = none := by
  rw [declaredEigenvariable?_eq_none_iff]
  constructor
  · intro h m declared hmem
    obtain ⟨p, hat⟩ := mem_metavariables_iff.1 hmem
    exact h p m declared hat
  · intro h p m declared hat
    exact h m declared (mem_metavariables_iff.2 ⟨p, hat⟩)

end Checks

end Tree

namespace Formula

section

variable {isQuantifier : String → Bool} {raw : Tree}

/-! ## The verdict -/

theorem ofTree_of_not_closed (hnames : raw.NamesBinders isQuantifier)
    (h : ¬ raw.Closed isQuantifier) :
    ∃ v, isOrdinaryVariable v = true ∧ raw.OccursFree isQuantifier v ∧
      ofTree isQuantifier raw = .error (.freeVariable v) := by
  rw [Tree.closed_iff hnames] at h
  obtain ⟨v, others, hfree⟩ := List.exists_cons_of_ne_nil h
  have hmem : v ∈ raw.freeVariables isQuantifier := hfree ▸ List.mem_cons_self
  obtain ⟨hordinary, hoccurs⟩ := (Tree.mem_freeVariables_iff hnames).1 hmem
  refine ⟨v, hordinary, hoccurs, ?_⟩
  rw [ofTree, hfree]

variable (hnames : raw.NamesBinders isQuantifier) (hclosed : raw.Closed isQuantifier)

include hnames hclosed

theorem ofTree_of_not_declaresAlike (h : ¬ raw.DeclaresAlike) :
    ∃ m, raw.DeclaredApart m ∧ ofTree isQuantifier raw = .error (.inconsistentDeclarations m) := by
  cases hstrip : raw.strip with
  | ok result => exact absurd (Tree.declaresAlike_of_strip hstrip) h
  | error m =>
    refine ⟨m, (Tree.strip_eq_error_iff.1 hstrip).declaredApart, ?_⟩
    rw [ofTree, (Tree.closed_iff hnames).1 hclosed, hstrip]

variable (halike : raw.DeclaresAlike)

include halike

theorem ofTree_of_not_bindsOnce (h : ¬ raw.BindsOnce isQuantifier) :
    ∃ v, raw.BoundTwice isQuantifier v ∧ ofTree isQuantifier raw = .error (.doubleBound v) := by
  obtain ⟨ds, hstrip, -⟩ := halike.exists_strip
  cases hbound : raw.erased.boundVariables isQuantifier with
  | ok bound => exact absurd (bindsOnce_of_boundVariables hnames hbound) h
  | error e =>
    obtain ⟨v, hfirst, rfl⟩ := (Tree.boundVariables_eq_error_iff hnames.erased).1 hbound
    refine ⟨v, ((Tree.firstRebound_erased_iff hnames).1 hfirst).boundTwice, ?_⟩
    simp only [ofTree, (Tree.closed_iff hnames).1 hclosed, hstrip, hbound, Tree.sexpr]

variable (honce : raw.BindsOnce isQuantifier)

include honce

theorem ofTree_of_not_declaresNoEigenvariable (h : ¬ raw.DeclaresNoEigenvariable) :
    ∃ v m, raw.FirstEigenvariable v m ∧
      ofTree isQuantifier raw = .error (.eigenvariableDeclaredFree v m) := by
  obtain ⟨ds, hstrip, -⟩ := halike.exists_strip
  obtain ⟨bound, hbound⟩ := honce.exists_boundVariables hnames
  cases heigen : raw.declaredEigenvariable? with
  | none => exact absurd (Tree.declaresNoEigenvariable_iff.2 heigen) h
  | some found =>
    obtain ⟨v, m⟩ := found
    refine ⟨v, m, Tree.declaredEigenvariable?_eq_some_iff.1 heigen, ?_⟩
    simp only [ofTree, (Tree.closed_iff hnames).1 hclosed, hstrip, hbound, heigen]

theorem ofTree_of_declaresNoEigenvariable (h : raw.DeclaresNoEigenvariable) :
    ∃ f, ofTree isQuantifier raw = .ok f ∧ f.tree = raw.erased ∧
      f.declarations.Describes raw.metavariables := by
  obtain ⟨ds, hstrip, hdescribes⟩ := halike.exists_strip
  obtain ⟨bound, hbound⟩ := honce.exists_boundVariables hnames
  refine ⟨⟨raw.erased, ds⟩, ?_, rfl, hdescribes⟩
  simp only [ofTree, (Tree.closed_iff hnames).1 hclosed, hstrip, hbound,
    Tree.declaresNoEigenvariable_iff.1 h]

end

/-- The outcome of parsing a text that makes up a formula is decided by the conditions on its tree:
the first one that is violated gives the error, with a name that violates it, and a formula that
violates none is accepted. A limit of depth can only add that the formula is too deep. -/
theorem parse_decided {table : Table} (htable : table.WellFormed) {text : String} {raw : Tree}
    (h : Reader.formula Level.whole (tokenize table text) = .ok raw []) :
    let isQuantifier := table.isQuantifierLabel
    (¬ raw.Closed isQuantifier → ∃ v, isOrdinaryVariable v = true ∧
      raw.OccursFree isQuantifier v ∧
      parse table text = .error (.fault (.freeVariable v))) ∧
    (raw.Closed isQuantifier → ¬ raw.DeclaresAlike → ∃ m, raw.DeclaredApart m ∧
      parse table text = .error (.fault (.inconsistentDeclarations m))) ∧
    (raw.Closed isQuantifier → raw.DeclaresAlike → ¬ raw.BindsOnce isQuantifier →
      ∃ v, raw.BoundTwice isQuantifier v ∧
        parse table text = .error (.fault (.doubleBound v))) ∧
    (raw.Closed isQuantifier → raw.DeclaresAlike → raw.BindsOnce isQuantifier →
      ¬ raw.DeclaresNoEigenvariable → ∃ v m, raw.FirstEigenvariable v m ∧
        parse table text = .error (.fault (.eigenvariableDeclaredFree v m))) ∧
    (raw.Closed isQuantifier → raw.DeclaresAlike → raw.BindsOnce isQuantifier →
      raw.DeclaresNoEigenvariable → ∃ f, parse table text = .ok f ∧ f.tree = raw.erased ∧
        f.declarations.Describes raw.metavariables) ∧
    ∀ depth, parseWithin depth table text = .error .tooDeep ∨
      parseWithin depth table text = parse table text := by
  intro isQuantifier
  have hnames : raw.NamesBinders isQuantifier := namesBinders_of_read htable 0 h
  rw [parse_of_formula h]
  refine ⟨fun hfree => ?_, fun hclosed hapart => ?_, fun hclosed halike htwice => ?_,
    fun hclosed halike honce heigen => ?_, fun hclosed halike honce hnone => ?_, fun depth => ?_⟩
  · obtain ⟨v, hordinary, hoccurs, hresult⟩ := ofTree_of_not_closed hnames hfree
    exact ⟨v, hordinary, hoccurs, by rw [hresult]; rfl⟩
  · obtain ⟨m, hm, hresult⟩ := ofTree_of_not_declaresAlike hnames hclosed hapart
    exact ⟨m, hm, by rw [hresult]; rfl⟩
  · obtain ⟨v, hv, hresult⟩ := ofTree_of_not_bindsOnce hnames hclosed halike htwice
    exact ⟨v, hv, by rw [hresult]; rfl⟩
  · obtain ⟨v, m, hv, hresult⟩ :=
      ofTree_of_not_declaresNoEigenvariable hnames hclosed halike honce heigen
    exact ⟨v, m, hv, by rw [hresult]; rfl⟩
  · obtain ⟨f, hresult, hf⟩ := ofTree_of_declaresNoEigenvariable hnames hclosed halike honce hnone
    exact ⟨f, by rw [hresult]; rfl, hf⟩
  · rw [← parse_of_formula h]
    exact parseWithin_eq_or_tooDeep depth table text

/-- A formula that binds one variable once but declares two metavariables differently is refused
for one of these. -/
theorem parse_decided_apart :
    ∃ m, declaredApart.DeclaredApart m ∧
      parse Table.standard declaredApartText = .error (.fault (.inconsistentDeclarations m)) := by
  have hnames := namesBinders_of_read Table.standard_wellFormed 0 formula_declaredApart
  have hclosed : declaredApart.Closed Table.standard.isQuantifierLabel :=
    (Tree.closed_iff hnames).2 (by decide)
  have hapart : ¬ declaredApart.DeclaresAlike := fun halike =>
    halike "phi" ⟨[1, 0, 0], [1, 1, 1], [], ["x"], rfl, rfl, by simp⟩
  exact (parse_decided Table.standard_wellFormed formula_declaredApart).2.1 hclosed hapart

end Formula

end LatexLogic
