import LatexLogic.Proofs.Binding.Clash
import LatexLogic.Proofs.Binding.Declaration
import Mathlib.Data.List.Sort
import Mathlib.Data.String.Basic

/-!
# Metavariables declared differently

Stripping reports the first clash of declarations (`Tree.reports_strip`). What it carries along is
not all declarations but one for each metavariable. As long as nothing clashes this makes no
difference for what is found first (`Declarations.Lists`).
-/

set_option autoImplicit false

namespace LatexLogic

/-! ## Sets of variables -/

/-- The set of the variables in a list is an increasing list. -/
theorem pairwise_insertVariable {name : String} {vs : List String} (h : vs.Pairwise (· < ·)) :
    (insertVariable name vs).Pairwise (· < ·) := by
  induction h with
  | nil => exact List.pairwise_singleton _ _
  | @cons v vs hv hvs ih =>
    rw [insertVariable]
    split
    · next hlt =>
      refine List.pairwise_cons.2 ⟨List.forall_mem_cons.2 ⟨hlt, fun w hw => ?_⟩, .cons hv hvs⟩
      exact lt_trans hlt (hv w hw)
    · next hnlt =>
      split
      · exact .cons hv hvs
      · next hne =>
        refine List.pairwise_cons.2 ⟨fun w hw => ?_, ih⟩
        rcases (mem_insertVariable vs).1 hw with rfl | hw
        · exact lt_of_le_of_ne (not_lt.1 hnlt) (Ne.symm hne)
        · exact hv w hw

theorem pairwise_variableSet (names : List String) : (variableSet names).Pairwise (· < ·) := by
  induction names with
  | nil => exact List.Pairwise.nil
  | cons name names ih => exact pairwise_insertVariable ih

/-- Lists have the same set exactly if they have the same members. -/
theorem variableSet_eq_iff {names names' : List String} :
    variableSet names = variableSet names' ↔ ∀ v, v ∈ names ↔ v ∈ names' := by
  constructor
  · intro h v
    rw [← mem_variableSet, h, mem_variableSet]
  · intro h
    refine (pairwise_variableSet names).eq_of_mem_iff (pairwise_variableSet names') fun v => ?_
    rw [mem_variableSet, mem_variableSet, h]

/-! ## Lists of declarations -/

/-- A declaration as it is kept: the metavariable with its set of variables. -/
def asSet (d : String × List String) : String × List String :=
  (d.1, variableSet d.2)

/-- The declarations are of one metavariable but not of one set of variables. -/
def DeclaresApart (d d' : String × List String) : Prop :=
  d.1 = d'.1 ∧ ¬ ∀ v, v ∈ d.2 ↔ v ∈ d'.2

namespace Declarations

/-- The first declaration of any kind is the same in the list as it was written. -/
def Lists (ds : Declarations) (written : List (String × List String)) : Prop :=
  ∀ P : String × List String → Bool, ds.find? P = (written.map asSet).find? P

variable {ds es : Declarations} {written written' : List (String × List String)}

theorem lists_nil : Lists [] [] := fun _ => rfl

theorem lists_singleton (name : String) (declared : List String) :
    Lists [(name, variableSet declared)] [(name, declared)] := fun _ => rfl

theorem mem_of_get? {name : String} {set : List String} (h : ds.get? name = some set) :
    (name, set) ∈ ds := by
  obtain ⟨⟨name', set'⟩, hfind, rfl⟩ := Option.map_eq_some_iff.1 h
  obtain rfl : name' = name := by simpa using List.find?_some hfind
  exact List.mem_of_find?_eq_some hfind

/-- What is left out when two lists agree is in the first list already. -/
theorem Lists.merge (h : ds.Lists written) (h' : es.Lists written') (hes : es.Describes written')
    (hconflict : ds.conflict? es = none) : (ds.merge es).Lists (written ++ written') := by
  intro P
  rw [Declarations.merge, List.map_append, List.find?_append, List.find?_append, ← h, ← h']
  cases hfind : ds.find? P with
  | some d => rfl
  | none =>
    -- What is left out has the set that is listed, so it is not of the kind that is looked for.
    rw [Option.none_or, Option.none_or, ← List.head?_filter, ← List.head?_filter,
      List.filter_filter]
    congr 1
    refine List.filter_congr fun e he => ?_
    cases hset : ds.get? e.1 with
    | none => simp
    | some set =>
      obtain ⟨declared, hmem, hdeclared⟩ := hes.exists_of_mem e.1 e.2 he
      have hother : es.get? e.1 = some e.2 := hdeclared ▸ hes.get?_of_mem e.1 declared hmem
      have heq := eq_of_conflict?_eq_none hconflict hset hother
      have hold : e ∈ ds := by
        have hmem := mem_of_get? hset
        rwa [← heq] at hmem
      simpa using List.find?_eq_none.1 hfind e hold

end Declarations

namespace Tree

open Marks (ofArguments)

/-! ## Metavariables with their places -/

mutual

/-- The metavariables of a tree as they are declared, with their places. -/
def metavariableMarks : Tree → Marks (String × List String)
  | .atom _ => []
  | .metavar name declared => [([], (name, declared))]
  | .node _ args => metavariableMarksFrom 0 args

/-- The metavariables of arguments from the given one on. -/
def metavariableMarksFrom (i : Nat) : List Tree → Marks (String × List String)
  | [] => []
  | t :: ts => (metavariableMarks t).under i ++ metavariableMarksFrom (i + 1) ts

end

/-- One metavariable is declared with different sets at the two places, the first of them to the
left. -/
def DeclaresApartAt (t : Tree) (p p' : List Nat) : Prop :=
  LeftOf p p' ∧ ∃ name declared declared', t.at? p = some (.metavar name declared) ∧
    t.at? p' = some (.metavar name declared') ∧ ¬ ∀ v, v ∈ declared ↔ v ∈ declared'

theorem metavariableMarks_node (label : String) (args : List Tree) :
    (node label args).metavariableMarks = ofArguments metavariableMarks 0 args :=
  Marks.eq_ofArguments (f := metavariableMarksFrom) (fun _ => rfl) (fun _ _ _ => rfl) args 0

/-- The marks of a tree are its metavariables in their order. -/
theorem map_snd_metavariableMarks (t : Tree) :
    t.metavariableMarks.map Prod.snd = t.metavariables := by
  induction t using induction with
  | atom label => rfl
  | metavar name declared => rfl
  | node label args ih =>
    rw [metavariableMarks_node, Marks.map_snd_ofArguments, metavariables,
      metavariablesList_eq_flatMap]
    exact List.flatMap_congr ih

theorem leftToRight_metavariableMarks (t : Tree) : t.metavariableMarks.LeftToRight := by
  induction t using induction with
  | atom label => exact Marks.leftToRight_nil
  | metavar name declared => exact List.pairwise_singleton _ _
  | node label args ih =>
    rw [metavariableMarks_node]
    exact Marks.leftToRight_ofArguments ih 0

/-- The marks are the metavariables at their paths. -/
theorem mem_metavariableMarks_iff {t : Tree} {name : String} {declared : List String} :
    ∀ p, (p, (name, declared)) ∈ t.metavariableMarks ↔ t.at? p = some (.metavar name declared) := by
  induction t using induction with
  | atom label =>
    rintro (_ | ⟨i, p⟩)
    · simp [metavariableMarks]
    · simp [metavariableMarks]
  | metavar name' declared' =>
    rintro (_ | ⟨i, p⟩)
    · simp [metavariableMarks, eq_comm]
    · simp [metavariableMarks]
  | node label args ih =>
    intro p
    rw [metavariableMarks_node, Marks.mem_ofArguments_iff]
    simp only [Nat.zero_add]
    constructor
    · rintro ⟨i, arg, q, harg, rfl, hmem⟩
      exact at?_cons_eq_some_iff.2 ⟨arg, harg, (ih arg (List.mem_of_getElem? harg) q).1 hmem⟩
    · cases p with
      | nil => simp
      | cons i q =>
        intro hat
        obtain ⟨arg, harg, hat⟩ := at?_cons_eq_some_iff.1 hat
        exact ⟨i, arg, q, harg, rfl, (ih arg (List.mem_of_getElem? harg) q).2 hat⟩

/-- Metavariables clash if they are declared apart. -/
theorem clashAt_metavariableMarks_iff (t : Tree) (p p' : List Nat) :
    ClashAt DeclaresApart t.metavariableMarks p p' ↔ t.DeclaresApartAt p p' := by
  refine and_congr_right fun _ => ?_
  constructor
  · rintro ⟨⟨name, declared⟩, ⟨_, declared'⟩, hmem, hmem', rfl, hapart⟩
    exact ⟨name, declared, declared', (mem_metavariableMarks_iff p).1 hmem,
      (mem_metavariableMarks_iff p').1 hmem', hapart⟩
  · rintro ⟨name, declared, declared', hat, hat', hapart⟩
    exact ⟨(name, declared), (name, declared'), (mem_metavariableMarks_iff p).2 hat,
      (mem_metavariableMarks_iff p').2 hat', rfl, hapart⟩

/-! ## The check -/

/-- Whether a set that was found differs from the one that the next argument has for the
metavariable. -/
def conflicts (es : Declarations) (d : String × List String) : Bool :=
  match es.get? d.1 with
  | some other => other ≠ d.2
  | none => false

/-- A declaration conflicts with those of an argument if one of them is apart from it. -/
theorem conflicts_asSet_iff {t : Tree} {es : Declarations} (h : es.Describes t.metavariables)
    (d : String × List String) :
    conflicts es (asSet d) = true ↔ ∃ q b, (q, b) ∈ t.metavariableMarks ∧ DeclaresApart d b := by
  have hmem : ∀ b, b ∈ t.metavariables ↔ ∃ q, (q, b) ∈ t.metavariableMarks := by
    simp [← map_snd_metavariableMarks]
  constructor
  · intro hconflict
    rw [conflicts] at hconflict
    split at hconflict
    · next other hother =>
      obtain ⟨declared, hdeclared, rfl⟩ := h.exists_of_mem _ _ (Declarations.mem_of_get? hother)
      obtain ⟨q, hq⟩ := (hmem _).1 hdeclared
      refine ⟨q, (d.1, declared), hq, rfl, fun hsame => ?_⟩
      exact of_decide_eq_true hconflict (variableSet_eq_iff.2 hsame).symm
    · cases hconflict
  · rintro ⟨q, ⟨name, declared⟩, hq, rfl, hapart⟩
    have hother := h.get?_of_mem d.1 declared ((hmem _).2 ⟨q, hq⟩)
    rw [conflicts, asSet, hother]
    exact decide_eq_true fun heq => hapart (variableSet_eq_iff.1 heq.symm)

/-- Going through more arguments, stripping reports the first clash, if it did so in each of them
and there was none before. -/
theorem reports_stripFrom {ts : List Tree}
    (ih : ∀ t ∈ ts, Reports DeclaresApart Prod.fst t.metavariableMarks t.strip ∧
      ∀ s ds, t.strip = .ok (s, ds) → ds.Lists t.metavariables) :
    ∀ (i : Nat) (marks : Marks (String × List String)) (found : Declarations), marks.Before i →
      marks.LeftToRight → NoClash DeclaresApart marks → found.Describes (marks.map Prod.snd) →
      found.Lists (marks.map Prod.snd) →
      Reports DeclaresApart Prod.fst (marks ++ ofArguments metavariableMarks i ts)
          (stripFrom found ts) ∧
        ∀ stripped all, stripFrom found ts = .ok (stripped, all) →
          all.Lists (marks.map Prod.snd ++ metavariablesList ts) := by
  induction ts with
  | nil =>
    intro i marks found _ _ hno _ hlists
    rw [ofArguments, List.append_nil]
    refine ⟨hno, fun stripped all h => ?_⟩
    obtain ⟨-, rfl⟩ : [] = stripped ∧ found = all := by simpa [stripFrom] using h
    rwa [metavariablesList, List.append_nil]
  | cons t ts ihts =>
    intro i marks found hmarks hordered hno hdescribes hlists
    obtain ⟨iht, ihlists⟩ := ih t List.mem_cons_self
    have hlater : (ofArguments metavariableMarks (i + 1) ts).From (i + 1) :=
      Marks.from_ofArguments ts (i + 1)
    rw [ofArguments, ← List.append_assoc, stripFrom, metavariablesList, ← List.append_assoc]
    cases hstrip : t.strip with
    | error name =>
      rw [hstrip] at iht
      obtain ⟨_, hfirst, rfl⟩ := iht
      refine ⟨⟨_, (firstClash_of_argument hmarks hno hfirst).append hmarks.append_under hlater,
        rfl⟩, fun _ _ h => ?_⟩
      cases h
    | ok result =>
      obtain ⟨s, ds⟩ := result
      rw [hstrip] at iht
      obtain ⟨-, hds⟩ := t.strip_eq_ok s ds hstrip
      -- The check looks through the list; the marks have the same first conflict.
      have hP : ∀ n ∈ marks, (conflicts ds ∘ asSet ∘ Prod.snd) n = true ↔
          ∃ q b, (q, b) ∈ t.metavariableMarks ∧ DeclaresApart n.2 b :=
        fun n _ => conflicts_asSet_iff hds n.2
      have hconflict : found.conflict? ds =
          (marks.find? (conflicts ds ∘ asSet ∘ Prod.snd)).map fun m => m.2.1 := by
        show (found.find? (conflicts ds)).map Prod.fst = _
        rw [hlists, List.find?_map, List.find?_map, Option.map_map, Option.map_map]
        rfl
      dsimp only
      cases hfind : marks.find? (conflicts ds ∘ asSet ∘ Prod.snd) with
      | some m =>
        rw [hconflict, hfind]
        have hfirst := firstClash_of_find? hmarks hordered hno iht hP hfind
        refine ⟨⟨m.2, hfirst.append hmarks.append_under hlater, rfl⟩, fun _ _ h => ?_⟩
        cases h
      | none =>
        rw [hfind] at hconflict
        have hwritten : (marks ++ t.metavariableMarks.under i).map Prod.snd =
            marks.map Prod.snd ++ t.metavariables := by
          rw [List.map_append, Marks.map_snd_under, map_snd_metavariableMarks]
        have hmerged := hlists.merge (ihlists s ds hstrip) hds hconflict
        have hall := hdescribes.merge hds hconflict
        rw [← hwritten] at hmerged hall
        have hnext := ihts (fun t' ht' => ih t' (List.mem_cons_of_mem _ ht')) (i + 1) _ _
          hmarks.append_under (hordered.append_under (leftToRight_metavariableMarks t) hmarks)
          (noClash_of_find? hmarks hno iht hP hfind) hall hmerged
        rw [hwritten] at hnext
        rw [hconflict]
        dsimp only [Option.map_none]
        cases hrest : stripFrom (found.merge ds) ts with
        | error name =>
          rw [hrest] at hnext
          refine ⟨hnext.1, fun _ _ h => ?_⟩
          cases h
        | ok rest =>
          rw [hrest] at hnext
          refine ⟨hnext.1, fun stripped all h => ?_⟩
          obtain ⟨-, rfl⟩ : s :: rest.1 = stripped ∧ rest.2 = all := by simpa using h
          exact hnext.2 rest.1 rest.2 rfl

/-- Stripping reports the first clash, or lists what is declared in the order of writing. -/
theorem reports_strip_and_lists (t : Tree) :
    Reports DeclaresApart Prod.fst t.metavariableMarks t.strip ∧
      ∀ s ds, t.strip = .ok (s, ds) → ds.Lists t.metavariables := by
  induction t using induction with
  | atom label =>
    refine ⟨noClash_nil, fun s ds h => ?_⟩
    obtain ⟨-, rfl⟩ : .atom label = s ∧ [] = ds := by simpa [strip] using h
    exact Declarations.lists_nil
  | metavar name declared =>
    refine ⟨noClash_singleton, fun s ds h => ?_⟩
    obtain ⟨-, rfl⟩ : .atom name = s ∧ [(name, variableSet declared)] = ds := by
      simpa [strip] using h
    exact Declarations.lists_singleton name declared
  | node label args ih =>
    obtain ⟨hreports, hlists⟩ := reports_stripFrom ih 0 [] [] (List.forall_mem_nil _)
      Marks.leftToRight_nil noClash_nil Declarations.describes_nil Declarations.lists_nil
    rw [metavariableMarks_node, strip, metavariables]
    cases hargs : stripFrom [] args with
    | error name =>
      rw [hargs] at hreports
      refine ⟨hreports, fun _ _ h => ?_⟩
      cases h
    | ok result =>
      rw [hargs] at hreports
      refine ⟨hreports, fun s ds h => ?_⟩
      obtain ⟨-, rfl⟩ : .node label result.1 = s ∧ result.2 = ds := by simpa using h
      exact hlists result.1 result.2 hargs

/-- Stripping reports the first clash of declarations. -/
theorem reports_strip (t : Tree) : Reports DeclaresApart Prod.fst t.metavariableMarks t.strip :=
  t.reports_strip_and_lists.1

end Tree

end LatexLogic
