import LatexLogic.Proofs.Binding.FirstPlace
import LatexLogic.Table.Standard

/-!
# The list of free variables

The check for free variables lists the ordinary variables that have a free mention, each once and in
the order of their first free mentions (`Tree.freeVariables_by_first_place`). Mentions that are bound
have no influence on the order, also where they stand further to the left. The variable after a
quantifier is no mention.

A path leads to a metavariable as a whole. So that the entries of its declaration can be told apart,
each of them has a place of its own below the metavariable.
-/

set_option autoImplicit false

namespace LatexLogic

namespace Tree

open Marks (ofArguments)

/-! ## Free mentions and their places -/

section

variable (isQuantifier : String → Bool) (t : Tree)

/-- The variable is mentioned at the place: by an atom in which it occurs, or by an entry of a
declaration, whose place is below the metavariable. -/
def MentionedAt (place : List Nat) (name : String) : Prop :=
  (t.at? place = some (.atom name) ∧ t.OccursAt isQuantifier place name) ∨
    ∃ p i m declared, place = p ++ [i] ∧ t.at? p = some (.metavar m declared) ∧
      declared[i]? = some name

/-- The variable is mentioned at the place, which is in the scope of no quantifier for it. -/
def FreeAt (place : List Nat) (name : String) : Prop :=
  t.MentionedAt isQuantifier place name ∧ ∀ q, t.BindsAt isQuantifier q name → ¬ InScope q place

end

variable {isQuantifier : String → Bool} {t : Tree} {label name : String} {args : List Tree}
  {p : List Nat} {i : Nat}

theorem mentionedAt_atom_iff :
    (atom label).MentionedAt isQuantifier p name ↔ p = [] ∧ label = name := by
  constructor
  · rintro (⟨-, hoccurs⟩ | ⟨q, i, m, declared, -, hat, -⟩)
    · exact occursAt_atom_iff.1 hoccurs
    · cases q with
      | nil => simp at hat
      | cons j q => simp at hat
  · rintro ⟨rfl, rfl⟩
    exact Or.inl ⟨rfl, occursAt_atom_iff.2 ⟨rfl, rfl⟩⟩

theorem freeAt_atom_iff : (atom label).FreeAt isQuantifier p name ↔ p = [] ∧ label = name := by
  simp [FreeAt, mentionedAt_atom_iff]

/-- The entries of a declaration are free in the metavariable, where nothing is bound. -/
theorem freeAt_metavar_iff {m : String} {declared : List String} :
    (metavar m declared).FreeAt isQuantifier p name ↔ ∃ i, p = [i] ∧ declared[i]? = some name := by
  constructor
  · rintro ⟨⟨hat, -⟩ | ⟨q, i, m', declared', rfl, hat, hentry⟩, -⟩
    · cases p with
      | nil => simp at hat
      | cons i p => simp at hat
    · cases q with
      | nil =>
        simp only [at?_nil, Option.some.injEq, metavar.injEq] at hat
        exact ⟨i, rfl, hat.2 ▸ hentry⟩
      | cons j q => simp at hat
  · rintro ⟨i, rfl, hentry⟩
    exact ⟨Or.inr ⟨[], i, m, declared, rfl, rfl, hentry⟩, by simp⟩

/-- A mention in an argument is one in the node, unless it is the variable of the quantifier at the
top. -/
theorem mentionedAt_node_cons_iff :
    (node label args).MentionedAt isQuantifier (i :: p) name ↔
      (∃ arg, args[i]? = some arg ∧ arg.MentionedAt isQuantifier p name) ∧
        ¬ (i = 0 ∧ p = [] ∧ (node label args).BindsAt isQuantifier [] name) := by
  constructor
  · rintro (⟨hat, hoccurs⟩ | ⟨q, j, m, declared, hplace, hat, hentry⟩)
    · obtain ⟨arg, harg, hat⟩ := at?_cons_eq_some_iff.1 hat
      obtain ⟨⟨arg', harg', hoccurs⟩, hbinder⟩ := occursAt_cons_iff.1 hoccurs
      obtain rfl : arg = arg' := Option.some.inj (harg.symm.trans harg')
      exact ⟨⟨arg, harg, Or.inl ⟨hat, hoccurs⟩⟩, hbinder⟩
    · cases q with
      | nil => simp at hat
      | cons k q =>
        -- The metavariable stands in the argument, with the entry below it.
        obtain ⟨rfl, rfl⟩ := List.cons.inj hplace
        obtain ⟨arg, harg, hat⟩ := at?_cons_eq_some_iff.1 hat
        exact ⟨⟨arg, harg, Or.inr ⟨q, j, m, declared, rfl, hat, hentry⟩⟩, by simp⟩
  · rintro ⟨⟨arg, harg, ⟨hat, hoccurs⟩ | ⟨q, j, m, declared, rfl, hat, hentry⟩⟩, hbinder⟩
    · exact Or.inl ⟨at?_cons_eq_some_iff.2 ⟨arg, harg, hat⟩,
        occursAt_cons_iff.2 ⟨⟨arg, harg, hoccurs⟩, hbinder⟩⟩
    · exact Or.inr ⟨i :: q, j, m, declared, rfl, at?_cons_eq_some_iff.2 ⟨arg, harg, hat⟩, hentry⟩

/-- Mentions have their places in the atoms and in the arguments of nodes. -/
theorem placed_mentionedAt :
    Placed isQuantifier fun t p name => t.MentionedAt isQuantifier p name where
  atom_iff := mentionedAt_atom_iff
  not_node_nil := by simp [MentionedAt]
  node_cons_iff := mentionedAt_node_cons_iff

/-! ## Marks of free mentions -/

/-- The ordinary variables in a declaration with their places. -/
def entryMarks (declared : List String) : Marks String :=
  (declared.zipIdx.map fun e => ([e.2], e.1)).filter fun m => isOrdinaryVariable m.2

mutual

/-- The ordinary variables that are mentioned free, with their places. -/
def freeMarks (isQuantifier : String → Bool) : Tree → Marks String
  | .atom label => if isOrdinaryVariable label then [([], label)] else []
  | .metavar _ declared => entryMarks declared
  | .node label [binder, scope] =>
    if isQuantifier label then
      Marks.under 1 ((freeMarks isQuantifier scope).filter fun m => binder ≠ .atom m.2)
    else freeMarksFrom isQuantifier 0 [binder, scope]
  | .node _ args => freeMarksFrom isQuantifier 0 args

/-- The marks of arguments from the given one on. -/
def freeMarksFrom (isQuantifier : String → Bool) (i : Nat) : List Tree → Marks String
  | [] => []
  | t :: ts => (freeMarks isQuantifier t).under i ++ freeMarksFrom isQuantifier (i + 1) ts

end

theorem freeMarks_node (h : ¬ ∃ binder scope, args = [binder, scope] ∧ isQuantifier label = true) :
    (node label args).freeMarks isQuantifier = ofArguments (freeMarks isQuantifier) 0 args := by
  rw [← Marks.eq_ofArguments (f := freeMarksFrom isQuantifier) (fun _ => rfl) fun _ _ _ => rfl]
  cases args, h using other_args_cases with
  | pair binder scope _ hlabel => simp [freeMarks, hlabel]
  | nil => rfl
  | single => rfl
  | more => rfl

theorem freeMarks_quantifier {binder scope : Tree} (hlabel : isQuantifier label = true) :
    (node label [binder, scope]).freeMarks isQuantifier =
      Marks.under 1 ((scope.freeMarks isQuantifier).filter fun m => binder ≠ .atom m.2) := by
  rw [freeMarks, if_pos hlabel]

theorem map_snd_entryMarks (declared : List String) :
    (entryMarks declared).map Prod.snd = declared.filter isOrdinaryVariable := by
  have hentries : (declared.zipIdx.map fun e => ([e.2], e.1)).map Prod.snd = declared := by
    rw [List.map_map]
    exact List.zipIdx_map_fst 0 declared
  rw [entryMarks, ← Function.comp_def isOrdinaryVariable Prod.snd, ← List.filter_map, hentries]

/-- The marks of a tree are its free mentions in their order. -/
theorem map_snd_freeMarks (t : Tree) :
    (t.freeMarks isQuantifier).map Prod.snd = t.freeMentions isQuantifier := by
  induction t using induction with
  | atom label =>
    rw [freeMarks, freeMentions]
    split <;> rfl
  | metavar m declared => rw [freeMarks, freeMentions, map_snd_entryMarks]
  | node label args ih =>
    by_cases hshape : ∃ binder scope, args = [binder, scope] ∧ isQuantifier label = true
    · obtain ⟨binder, scope, rfl, hlabel⟩ := hshape
      rw [freeMarks_quantifier hlabel, freeMentions_quantifier hlabel, Marks.map_snd_under,
        ← ih scope (by simp), List.filter_map]
      rfl
    · rw [freeMarks_node hshape, freeMentions_node hshape, Marks.map_snd_ofArguments]
      exact List.flatMap_congr ih

theorem leftToRight_entryMarks (declared : List String) : (entryMarks declared).LeftToRight := by
  refine List.Pairwise.filter _ (List.pairwise_iff_getElem.2 fun i j hi hj hij => ?_)
  simpa using hij

theorem leftToRight_freeMarks (t : Tree) : (t.freeMarks isQuantifier).LeftToRight := by
  induction t using induction with
  | atom label =>
    rw [freeMarks]
    split
    · exact List.pairwise_singleton _ _
    · exact Marks.leftToRight_nil
  | metavar m declared => exact leftToRight_entryMarks declared
  | node label args ih =>
    by_cases hshape : ∃ binder scope, args = [binder, scope] ∧ isQuantifier label = true
    · obtain ⟨binder, scope, rfl, hlabel⟩ := hshape
      rw [freeMarks_quantifier hlabel]
      exact Marks.LeftToRight.under ((ih scope (by simp)).filter _)
    · rw [freeMarks_node hshape]
      exact Marks.leftToRight_ofArguments ih 0

theorem mem_entryMarks_iff {declared : List String} :
    (p, name) ∈ entryMarks declared ↔
      isOrdinaryVariable name = true ∧ ∃ i, p = [i] ∧ declared[i]? = some name := by
  simp only [entryMarks, List.mem_filter, List.mem_map, Prod.exists, Prod.mk.injEq,
    List.mem_zipIdx_iff_getElem?]
  constructor
  · rintro ⟨⟨v, i, hi, rfl, rfl⟩, hordinary⟩
    exact ⟨hordinary, i, rfl, hi⟩
  · rintro ⟨hordinary, i, rfl, hi⟩
    exact ⟨⟨name, i, hi, rfl, rfl⟩, hordinary⟩

/-- The marks are the ordinary variables where they are mentioned free. -/
theorem mem_freeMarks_iff (h : t.NamesBinders isQuantifier) :
    ∀ p, (p, name) ∈ t.freeMarks isQuantifier ↔
      isOrdinaryVariable name = true ∧ t.FreeAt isQuantifier p name := by
  induction t using induction with
  | atom label =>
    intro p
    rw [freeAt_atom_iff, freeMarks]
    split
    · next hlabel =>
      rw [List.mem_singleton, Prod.mk.injEq]
      constructor
      · rintro ⟨rfl, rfl⟩
        exact ⟨hlabel, rfl, rfl⟩
      · rintro ⟨-, rfl, rfl⟩
        exact ⟨rfl, rfl⟩
    · next hlabel =>
      refine iff_of_false List.not_mem_nil ?_
      rintro ⟨hordinary, -, rfl⟩
      exact hlabel hordinary
  | metavar m declared =>
    intro p
    rw [freeAt_metavar_iff, freeMarks, mem_entryMarks_iff]
  | node label args ih =>
    intro p
    have hargs := fun arg (harg : arg ∈ args) => ih arg harg (h.of_mem_args harg)
    rcases h.cases_node with ⟨bound, scope, rfl, hlabel⟩ | htop
    · have hiff : (node label [.atom bound, scope]).FreeAt isQuantifier p name ↔
          ∃ p', p = 1 :: p' ∧ scope.FreeAt isQuantifier p' name ∧ bound ≠ name :=
        placed_mentionedAt.unbound_quantifier_iff hlabel
      -- All free mentions are in the scope, and those of the bound variable were taken away.
      rw [hiff, freeMarks_quantifier hlabel, Marks.mem_under_iff]
      simp only [List.mem_filter, hargs scope (by simp), ne_eq, atom.injEq, decide_eq_true_eq]
      constructor
      · rintro ⟨q, rfl, ⟨hordinary, hfree⟩, hne⟩
        exact ⟨hordinary, q, rfl, hfree, hne⟩
      · rintro ⟨hordinary, q, rfl, hfree, hne⟩
        exact ⟨q, rfl, ⟨hordinary, hfree⟩, hne⟩
    · have hiff : (node label args).FreeAt isQuantifier p name ↔
          ∃ i arg p', args[i]? = some arg ∧ p = i :: p' ∧ arg.FreeAt isQuantifier p' name :=
        placed_mentionedAt.unbound_node_iff htop
      rw [hiff, freeMarks_node (h.not_shape htop), Marks.mem_ofArguments_iff]
      simp only [Nat.zero_add]
      constructor
      · rintro ⟨i, arg, q, harg, rfl, hmem⟩
        obtain ⟨hordinary, hfree⟩ := (hargs arg (List.mem_of_getElem? harg) q).1 hmem
        exact ⟨hordinary, i, arg, q, harg, rfl, hfree⟩
      · rintro ⟨hordinary, i, arg, q, harg, rfl, hfree⟩
        exact ⟨i, arg, q, harg, rfl,
          (hargs arg (List.mem_of_getElem? harg) q).2 ⟨hordinary, hfree⟩⟩

/-! ## The list -/

/-- The free variables of a tree are the ordinary variables with a free mention, each once, in the
order of their first free mentions. -/
theorem freeVariables_by_first_place (table : Table) {t : Tree}
    (h : t.NamesBinders table.isQuantifierLabel) :
    ListsFirstPlaces
      (fun p name => isOrdinaryVariable name = true ∧ t.FreeAt table.isQuantifierLabel p name)
      (t.freeVariables table.isQuantifierLabel) := by
  have hordered : (t.freeMarks table.isQuantifierLabel).LeftToRight := leftToRight_freeMarks t
  have hlists := Marks.listsFirstPlaces hordered
  rw [map_snd_freeMarks, ← freeVariables_eq] at hlists
  simpa only [mem_freeMarks_iff h] using hlists

/-- In `(\\forall x x=z) \\land (\\phi(y,a,x,y) \\lor z=x)` the first mention of `x` is bound, so it
is the last of the free variables. -/
theorem freeVariables_by_first_place_conjunction :
    let t : Tree := .node "and" [.node "forall" [.atom "x", .node "eq" [.atom "x", .atom "z"]],
      .node "or" [.metavar "phi" ["y", "a", "x", "y"], .node "eq" [.atom "z", .atom "x"]]]
    t.NamesBinders Table.standard.isQuantifierLabel ∧
      t.freeVariables Table.standard.isQuantifierLabel = ["z", "y", "x"] ∧
      ListsFirstPlaces (fun p name => isOrdinaryVariable name = true ∧
        t.FreeAt Table.standard.isQuantifierLabel p name) ["z", "y", "x"] := by
  intro t
  have hand : Table.standard.isQuantifierLabel "and" = false := by decide
  have hor : Table.standard.isQuantifierLabel "or" = false := by decide
  have hnames : t.NamesBinders Table.standard.isQuantifierLabel := by simp [t, hand, hor]
  have hfree : t.freeVariables Table.standard.isQuantifierLabel = ["z", "y", "x"] := by decide
  exact ⟨hnames, hfree, hfree ▸ freeVariables_by_first_place Table.standard hnames⟩

end Tree

end LatexLogic
