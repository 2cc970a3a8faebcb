import LatexLogic.Proofs.Binding.Scope

/-!
# The first clash in a tree

Some checks on a tree collect marks, such as the variables that are bound in it. They go through the
arguments of a node from left to right, and each time that an argument is done they compare its
marks with those of the arguments before. Two marks that clash are noticed when they come together:
at the end of the argument with the second of them, below the smallest part of the tree that
contains both (`Tree.meeting`).

So such a check does not report clashes in the order in which their marks are read. It reports the
clash that comes together first, and of several that come together at once the one whose earlier
mark is the leftmost (`Tree.FirstOf`). This module proves that for the step from some arguments to
the next one, whatever the marks are (`Tree.firstClash_of_argument`, `Tree.firstClash_of_find?`).
-/

set_option autoImplicit false

namespace LatexLogic.Tree

/-! ## The order of places -/

/-- Where the two paths part, the first one goes through an earlier argument. -/
def LeftOf : List Nat → List Nat → Prop
  | i :: p, j :: q => i < j ∨ (i = j ∧ LeftOf p q)
  | _, _ => False

/-- The part at the first path is gone through before the one at the second: it stands inside or to
the left of it. -/
def EndsBefore : List Nat → List Nat → Prop
  | [], _ => False
  | _ :: _, [] => True
  | i :: p, j :: q => i < j ∨ (i = j ∧ EndsBefore p q)

/-- The argument at whose end two places come together: the one with the second place, below the
smallest part that contains both. -/
def meeting : List Nat → List Nat → List Nat
  | i :: p, j :: q => j :: if i = j then meeting p q else []
  | _, _ => []

/-- The first two places come together before the other two, or at once with them and with an
earlier first place. -/
def Sooner (p p' q q' : List Nat) : Prop :=
  EndsBefore (meeting p p') (meeting q q') ∨
    (meeting p p' = meeting q q' ∧ (p = q ∨ LeftOf p q))

/-- Of all pairs of places in a relation this one comes together first. -/
def FirstOf (Clash : List Nat → List Nat → Prop) (p p' : List Nat) : Prop :=
  Clash p p' ∧ ∀ q q', Clash q q' → Sooner p p' q q'

section Places

variable {i j : Nat} {p p' q q' : List Nat}

@[simp] theorem leftOf_cons_cons : LeftOf (i :: p) (j :: q) ↔ i < j ∨ (i = j ∧ LeftOf p q) :=
  Iff.rfl

@[simp] theorem not_leftOf_nil_left : ¬ LeftOf [] q := by
  cases q <;> exact id

@[simp] theorem not_leftOf_nil_right : ¬ LeftOf p [] := by
  cases p <;> exact id

@[simp] theorem endsBefore_cons_cons :
    EndsBefore (i :: p) (j :: q) ↔ i < j ∨ (i = j ∧ EndsBefore p q) := Iff.rfl

@[simp] theorem not_endsBefore_nil : ¬ EndsBefore [] q := id

@[simp] theorem endsBefore_cons_nil : EndsBefore (i :: p) [] := trivial

@[simp] theorem meeting_cons_cons :
    meeting (i :: p) (j :: q) = j :: if i = j then meeting p q else [] := rfl

/-- One step of the asymmetry of both orders. -/
theorem asymm_at_head {P Q : Prop} (hPQ : P → ¬ Q) (h : i < j ∨ (i = j ∧ P)) :
    ¬ (j < i ∨ (j = i ∧ Q)) := by
  rintro (hji | ⟨rfl, hQ⟩)
  · rcases h with hij | ⟨rfl, -⟩
    · exact Nat.lt_asymm hij hji
    · exact Nat.lt_irrefl _ hji
  · rcases h with hij | ⟨-, hP⟩
    · exact Nat.lt_irrefl _ hij
    · exact hPQ hP hQ

theorem LeftOf.asymm : ∀ {p q : List Nat}, LeftOf p q → ¬ LeftOf q p
  | [], _, h => absurd h not_leftOf_nil_left
  | _ :: _, [], h => absurd h not_leftOf_nil_right
  | _ :: _, _ :: _, h => asymm_at_head (fun hpq => LeftOf.asymm hpq) h

theorem EndsBefore.asymm : ∀ {p q : List Nat}, EndsBefore p q → ¬ EndsBefore q p
  | [], _, h => absurd h not_endsBefore_nil
  | _ :: _, [], _ => not_endsBefore_nil
  | _ :: _, _ :: _, h => asymm_at_head (fun hpq => EndsBefore.asymm hpq) h

theorem LeftOf.ne (h : LeftOf p q) : p ≠ q := by
  rintro rfl
  exact h.asymm h

/-- The first place of the first pair is determined. -/
theorem Sooner.eq (h : Sooner p p' q q') (h' : Sooner q q' p p') : p = q := by
  rcases h with h | ⟨heq, h⟩
  · rcases h' with h' | ⟨heq, -⟩
    · exact absurd h' h.asymm
    · rw [heq] at h
      exact absurd h h.asymm
  · rcases h' with h' | ⟨-, h'⟩
    · rw [heq] at h'
      exact absurd h' h'.asymm
    · rcases h with rfl | h
      · rfl
      · rcases h' with rfl | h'
        · rfl
        · exact absurd h' h.asymm

theorem FirstOf.eq {Clash : List Nat → List Nat → Prop} (h : FirstOf Clash p p')
    (h' : FirstOf Clash q q') : p = q :=
  (h.2 q q' h'.1).eq (h'.2 p p' h.1)

/-- Inside one argument the order is that of the argument. -/
theorem sooner_cons_iff : Sooner (i :: p) (i :: p') (i :: q) (i :: q') ↔ Sooner p p' q q' := by
  simp [Sooner]

/-- A pair in earlier arguments comes together sooner than one with a place in a later argument. -/
theorem sooner_of_lt {i' j' : Nat} (h : i' < j') : Sooner (i :: p) (i' :: p') (j :: q) (j' :: q') :=
  Or.inl (Or.inl h)

theorem LeftOf.meeting_ne_nil (h : LeftOf p p') : meeting p p' ≠ [] := by
  cases p with
  | nil => exact absurd h not_leftOf_nil_left
  | cons i p =>
    cases p' with
    | nil => exact absurd h not_leftOf_nil_right
    | cons j p' => exact List.cons_ne_nil _ _

/-- A pair inside an argument comes together sooner than one with a place in an argument before. -/
theorem sooner_of_inside (h : LeftOf p p') (hij : i < j) :
    Sooner (j :: p) (j :: p') (i :: q) (j :: q') := by
  refine Or.inl ?_
  rw [meeting_cons_cons, meeting_cons_cons, if_pos rfl, if_neg (Nat.ne_of_lt hij)]
  refine Or.inr ⟨rfl, ?_⟩
  obtain ⟨k, s, hs⟩ := List.exists_cons_of_ne_nil h.meeting_ne_nil
  rw [hs]
  exact endsBefore_cons_nil

/-- Pairs of a place before an argument and one in it come together at once. -/
theorem sooner_of_across {i' : Nat} (hi : i < j) (hi' : i' < j)
    (h : i :: p = i' :: q ∨ LeftOf (i :: p) (i' :: q)) :
    Sooner (i :: p) (j :: p') (i' :: q) (j :: q') := by
  refine Or.inr ⟨?_, h⟩
  rw [meeting_cons_cons, meeting_cons_cons, if_neg (Nat.ne_of_lt hi), if_neg (Nat.ne_of_lt hi')]

end Places

/-! ## Marks -/

/-- Marks at places of a tree. -/
abbrev Marks (α : Type) := List (List Nat × α)

namespace Marks

variable {α : Type}

/-- The marks of an argument as marks of the node. -/
def under (i : Nat) (ms : Marks α) : Marks α :=
  ms.map fun m => (i :: m.1, m.2)

/-- The marks come from left to right. -/
def LeftToRight (ms : Marks α) : Prop :=
  ms.Pairwise fun m n => LeftOf m.1 n.1

/-- All marks are in arguments before the given one. -/
def Before (j : Nat) (ms : Marks α) : Prop :=
  ∀ m ∈ ms, ∃ i p, m.1 = i :: p ∧ i < j

/-- All marks are in the given argument or in later ones. -/
def From (j : Nat) (ms : Marks α) : Prop :=
  ∀ m ∈ ms, ∃ i p, m.1 = i :: p ∧ j ≤ i

variable {i j : Nat} {ms found es : Marks α} {p : List Nat} {a : α}

theorem mem_under_iff : (p, a) ∈ ms.under i ↔ ∃ q, p = i :: q ∧ (q, a) ∈ ms := by
  simp only [under, List.mem_map, Prod.mk.injEq]
  constructor
  · rintro ⟨⟨q, b⟩, hmem, rfl, rfl⟩
    exact ⟨q, rfl, hmem⟩
  · rintro ⟨q, rfl, hmem⟩
    exact ⟨(q, a), hmem, rfl, rfl⟩

@[simp] theorem map_snd_under : (ms.under i).map Prod.snd = ms.map Prod.snd := by
  simp [under]

theorem Before.mono (h : found.Before i) (hij : i ≤ j) : found.Before j := by
  intro m hm
  obtain ⟨k, p, hp, hk⟩ := h m hm
  exact ⟨k, p, hp, Nat.lt_of_lt_of_le hk hij⟩

theorem before_under : (es.under i).Before (i + 1) := by
  intro m hm
  obtain ⟨q, hq, -⟩ := mem_under_iff.1 hm
  exact ⟨i, q, hq, Nat.lt_succ_self i⟩

/-- With one more argument all marks are before the next. -/
theorem Before.append_under (h : found.Before i) : (found ++ es.under i).Before (i + 1) :=
  List.forall_mem_append.2 ⟨h.mono (Nat.le_succ i), before_under⟩

theorem from_under : (es.under i).From i := by
  intro m hm
  obtain ⟨q, hq, -⟩ := mem_under_iff.1 hm
  exact ⟨i, q, hq, Nat.le_refl i⟩

/-- What begins with an argument begins with the one before it as well. -/
theorem From.under_append (h : ms.From (i + 1)) : (es.under i ++ ms).From i := by
  intro m hm
  rcases List.mem_append.1 hm with hm | hm
  · exact from_under m hm
  · obtain ⟨k, p, hp, hk⟩ := h m hm
    exact ⟨k, p, hp, Nat.le_of_succ_le hk⟩

theorem leftToRight_nil : LeftToRight ([] : Marks α) := List.Pairwise.nil

theorem LeftToRight.under (h : es.LeftToRight) : (es.under i).LeftToRight :=
  List.pairwise_map.2 (h.imp fun hlt => Or.inr ⟨rfl, hlt⟩)

/-- Marks of earlier arguments come before marks of later ones. -/
theorem LeftToRight.append (h : found.LeftToRight) (hms : ms.LeftToRight) (hfound : found.Before i)
    (hfrom : ms.From i) : (found ++ ms).LeftToRight := by
  refine List.pairwise_append.2 ⟨h, hms, fun m hm n hn => ?_⟩
  obtain ⟨j, p, hp, hj⟩ := hfound m hm
  obtain ⟨k, q, hq, hk⟩ := hfrom n hn
  rw [hp, hq]
  exact Or.inl (Nat.lt_of_lt_of_le hj hk)

/-- With one more argument the marks are still ordered. -/
theorem LeftToRight.append_under (h : found.LeftToRight) (hes : es.LeftToRight)
    (hfound : found.Before i) : (found ++ es.under i).LeftToRight :=
  h.append hes.under hfound from_under

/-- At one place there is one mark. -/
theorem LeftToRight.eq_of_mem (h : ms.LeftToRight) {a' : α} (hmem : (p, a) ∈ ms)
    (hmem' : (p, a') ∈ ms) : a = a' := by
  induction h with
  | nil => cases hmem
  | @cons m ms hm _ ih =>
    rcases List.mem_cons.1 hmem with rfl | htail
    · rcases List.mem_cons.1 hmem' with heq | htail'
      · exact (Prod.mk.inj heq).2.symm
      · exact absurd rfl (hm _ htail').ne
    · rcases List.mem_cons.1 hmem' with rfl | htail'
      · exact absurd rfl (hm _ htail).ne
      · exact ih htail htail'

/-- The first mark that is found is the leftmost one. -/
theorem LeftToRight.leftmost_of_find? (h : ms.LeftToRight) {P : List Nat × α → Bool}
    {m n : List Nat × α} (hfind : ms.find? P = some m) (hn : n ∈ ms) (hP : P n = true) :
    m.1 = n.1 ∨ LeftOf m.1 n.1 := by
  obtain ⟨-, before, behind, rfl, hbefore⟩ := List.find?_eq_some_iff_append.1 hfind
  rcases List.mem_append.1 hn with hn | hn
  · have hnot := hbefore n hn
    rw [hP] at hnot
    cases hnot
  · rcases List.mem_cons.1 hn with rfl | hn
    · exact Or.inl rfl
    · exact Or.inr ((List.pairwise_cons.1 (List.pairwise_append.1 h).2.1).1 n hn)

/-! ### Marks of arguments -/

/-- The marks of trees that are the arguments of a node from the given one on. -/
def ofArguments (marks : Tree → Marks α) (i : Nat) : List Tree → Marks α
  | [] => []
  | t :: ts => (marks t).under i ++ ofArguments marks (i + 1) ts

section Arguments

variable {marks : Tree → Marks α}

/-- What goes through arguments in this way gives their marks. -/
theorem eq_ofArguments {f : Nat → List Tree → Marks α} (hnil : ∀ i, f i [] = [])
    (hcons : ∀ i t ts, f i (t :: ts) = (marks t).under i ++ f (i + 1) ts) (ts : List Tree) :
    ∀ i, f i ts = ofArguments marks i ts := by
  induction ts with
  | nil => exact hnil
  | cons t ts ih =>
    intro i
    rw [hcons, ih, ofArguments]

theorem from_ofArguments (ts : List Tree) : ∀ i, (ofArguments marks i ts).From i := by
  induction ts with
  | nil =>
    intro i m hm
    exact absurd hm List.not_mem_nil
  | cons t ts ih =>
    intro i
    exact (ih (i + 1)).under_append

theorem leftToRight_ofArguments {ts : List Tree} (h : ∀ t ∈ ts, (marks t).LeftToRight) :
    ∀ i, (ofArguments marks i ts).LeftToRight := by
  induction ts with
  | nil =>
    intro i
    exact leftToRight_nil
  | cons t ts ih =>
    intro i
    exact (h t List.mem_cons_self).under.append
      (ih (fun t' ht' => h t' (List.mem_cons_of_mem _ ht')) (i + 1)) before_under
      (from_ofArguments ts _)

theorem mem_ofArguments_iff {ts : List Tree} :
    ∀ i, (p, a) ∈ ofArguments marks i ts ↔
      ∃ k arg q, ts[k]? = some arg ∧ p = (i + k) :: q ∧ (q, a) ∈ marks arg := by
  induction ts with
  | nil => simp [ofArguments]
  | cons t ts ih =>
    intro i
    rw [ofArguments, List.mem_append, mem_under_iff, ih]
    constructor
    · rintro (⟨q, rfl, hq⟩ | ⟨k, arg, q, harg, rfl, hq⟩)
      · exact ⟨0, t, q, rfl, rfl, hq⟩
      · exact ⟨k + 1, arg, q, harg, by rw [Nat.add_right_comm, Nat.add_assoc], hq⟩
    · rintro ⟨_ | k, arg, q, harg, rfl, hq⟩
      · obtain rfl : t = arg := by simpa using harg
        exact Or.inl ⟨q, rfl, hq⟩
      · exact Or.inr ⟨k, arg, q, harg, by rw [Nat.add_right_comm, Nat.add_assoc], hq⟩

theorem map_snd_ofArguments (ts : List Tree) :
    ∀ i, (ofArguments marks i ts).map Prod.snd = ts.flatMap fun t => (marks t).map Prod.snd := by
  induction ts with
  | nil =>
    intro i
    rfl
  | cons t ts ih =>
    intro i
    rw [ofArguments, List.map_append, map_snd_under, ih, List.flatMap_cons]

end Arguments

end Marks

/-! ## Clashes -/

section Clashes

open Marks

variable {α : Type} (clash : α → α → Prop)

/-- Marks that clash stand at the two places, the first one to the left. -/
def ClashAt (ms : Marks α) (p p' : List Nat) : Prop :=
  LeftOf p p' ∧ ∃ a a', (p, a) ∈ ms ∧ (p', a') ∈ ms ∧ clash a a'

/-- No two marks clash. -/
def NoClash (ms : Marks α) : Prop :=
  ∀ p p', ¬ ClashAt clash ms p p'

/-- The mark is the earlier one of the first clash. -/
def FirstClash (ms : Marks α) (a : α) : Prop :=
  ∃ p p', FirstOf (ClashAt clash ms) p p' ∧ (p, a) ∈ ms

variable {clash} {i : Nat} {ms found es : Marks α} {a : α}

theorem FirstClash.unique (hms : ms.LeftToRight) {b : α} (h : FirstClash clash ms a)
    (h' : FirstClash clash ms b) : a = b := by
  obtain ⟨p, p', hfirst, hmem⟩ := h
  obtain ⟨q, q', hfirst', hmem'⟩ := h'
  obtain rfl := hfirst.eq hfirst'
  exact hms.eq_of_mem hmem hmem'

theorem FirstClash.not_noClash (h : FirstClash clash ms a) : ¬ NoClash clash ms := by
  obtain ⟨p, p', hfirst, -⟩ := h
  exact fun hno => hno p p' hfirst.1

/-- A clash among the marks of some arguments and of later ones is among those of the former, or has
its second place in the latter. -/
theorem clashAt_append (hfound : found.Before i) (hms : ms.From i) {p p' : List Nat}
    (h : ClashAt clash (found ++ ms) p p') :
    ClashAt clash found p p' ∨ ∃ j q j' q', p = j :: q ∧ p' = j' :: q' ∧ i ≤ j' := by
  obtain ⟨hleft, a, a', hmem, hmem', hclash⟩ := h
  rcases List.mem_append.1 hmem' with hmem' | hmem'
  · rcases List.mem_append.1 hmem with hmem | hmem
    · exact Or.inl ⟨hleft, a, a', hmem, hmem', hclash⟩
    · -- A later argument is not to the left of an earlier one.
      obtain ⟨j, q, rfl, hj⟩ := hms _ hmem
      obtain ⟨j', q', rfl, hj'⟩ := hfound _ hmem'
      rcases hleft with hlt | ⟨rfl, -⟩
      · exact absurd (Nat.lt_trans hlt hj') (Nat.not_lt.2 hj)
      · exact absurd hj' (Nat.not_lt.2 hj)
  · obtain ⟨j', q', rfl, hj'⟩ := hms _ hmem'
    cases p with
    | nil => exact absurd hleft not_leftOf_nil_left
    | cons j q => exact Or.inr ⟨j, q, j', q', rfl, rfl, hj'⟩

/-- What later arguments add does not change which clash is the first. -/
theorem FirstClash.append (hfound : found.Before i) (hms : ms.From i)
    (h : FirstClash clash found a) : FirstClash clash (found ++ ms) a := by
  obtain ⟨p, p', ⟨hclash, hfirst⟩, hmem⟩ := h
  obtain ⟨hleft, b, b', hb, hb', hbb'⟩ := hclash
  refine ⟨p, p', ⟨⟨hleft, b, b', List.mem_append_left _ hb, List.mem_append_left _ hb', hbb'⟩,
    fun q q' hq => ?_⟩, List.mem_append_left _ hmem⟩
  rcases clashAt_append hfound hms hq with hq | ⟨j, r, j', r', rfl, rfl, hj'⟩
  · exact hfirst q q' hq
  · obtain ⟨k, s, rfl, -⟩ := hfound _ hb
    obtain ⟨k', s', rfl, hk'⟩ := hfound _ hb'
    exact sooner_of_lt (Nat.lt_of_lt_of_le hk' hj')

/-- Where the marks of some arguments do not clash, a clash with those of the next argument is
inside that argument or goes across to it. -/
theorem clashAt_append_under (hfound : found.Before i) (hno : NoClash clash found)
    {p p' : List Nat} (h : ClashAt clash (found ++ es.under i) p p') :
    (∃ q q', p = i :: q ∧ p' = i :: q' ∧ ClashAt clash es q q') ∨
      ∃ j q q' a a', p = j :: q ∧ p' = i :: q' ∧ j < i ∧ (p, a) ∈ found ∧ (q', a') ∈ es ∧
        clash a a' := by
  obtain ⟨hleft, a, a', hmem, hmem', hclash⟩ := h
  rcases List.mem_append.1 hmem' with hmem' | hmem'
  · have hold := clashAt_append hfound from_under
      ⟨hleft, a, a', hmem, List.mem_append_left _ hmem', hclash⟩
    rcases hold with hold | ⟨-, -, j', q', -, rfl, hj'⟩
    · exact absurd hold (hno p p')
    · obtain ⟨k, s, heq, hk⟩ := hfound _ hmem'
      obtain ⟨rfl, rfl⟩ := List.cons.inj heq
      exact absurd hk (Nat.not_lt.2 hj')
  · obtain ⟨q', rfl, hq'⟩ := mem_under_iff.1 hmem'
    rcases List.mem_append.1 hmem with hmem | hmem
    · obtain ⟨j, q, heq, hj⟩ := hfound _ hmem
      exact Or.inr ⟨j, q, q', a, a', heq, rfl, hj, hmem, hq', hclash⟩
    · obtain ⟨q, rfl, hq⟩ := mem_under_iff.1 hmem
      have hleft' : LeftOf q q' := by simpa using hleft
      exact Or.inl ⟨q, q', rfl, rfl, hleft', a, a', hq, hq', hclash⟩

/-- The first clash in an argument is the first of all if there was none before. -/
theorem firstClash_of_argument (hfound : found.Before i) (hno : NoClash clash found)
    (h : FirstClash clash es a) : FirstClash clash (found ++ es.under i) a := by
  obtain ⟨p, p', ⟨⟨hleft, b, b', hb, hb', hbb'⟩, hfirst⟩, hmem⟩ := h
  have hunder : ∀ {q b}, (q, b) ∈ es → (i :: q, b) ∈ found ++ es.under i := fun hq =>
    List.mem_append_right _ (mem_under_iff.2 ⟨_, rfl, hq⟩)
  refine ⟨i :: p, i :: p', ⟨⟨Or.inr ⟨rfl, hleft⟩, b, b', hunder hb, hunder hb', hbb'⟩,
    fun q q' hq => ?_⟩, hunder hmem⟩
  rcases clashAt_append_under hfound hno hq with
    ⟨r, r', rfl, rfl, hr⟩ | ⟨j, r, r', -, -, rfl, rfl, hj, -⟩
  · exact sooner_cons_iff.2 (hfirst r r' hr)
  · exact sooner_of_inside hleft hj

theorem noClash_nil : NoClash clash ([] : Marks α) := by
  rintro p p' ⟨-, a, -, hmem, -⟩
  exact List.not_mem_nil hmem

theorem noClash_singleton {m : List Nat × α} : NoClash clash [m] := by
  rintro p p' ⟨hleft, a, a', hmem, hmem', -⟩
  obtain rfl := List.mem_singleton.1 hmem
  obtain ⟨rfl, -⟩ := Prod.mk.inj (List.mem_singleton.1 hmem')
  exact hleft.ne rfl

/-- The first clash in an argument that nothing comes before. -/
theorem FirstClash.under (h : FirstClash clash es a) : FirstClash clash (es.under i) a := by
  rw [← List.nil_append (es.under i)]
  exact firstClash_of_argument (List.forall_mem_nil _) noClash_nil h

section Comparison

variable {P : List Nat × α → Bool}

/-- The first mark that clashes with one of the next argument makes the first clash, if there is none
before and none inside the argument. -/
theorem firstClash_of_find? (hfound : found.Before i) (hordered : found.LeftToRight)
    (hno : NoClash clash found) (hes : NoClash clash es)
    (hP : ∀ n ∈ found, P n = true ↔ ∃ q b, (q, b) ∈ es ∧ clash n.2 b) {m : List Nat × α}
    (hfind : found.find? P = some m) : FirstClash clash (found ++ es.under i) m.2 := by
  obtain ⟨p, a⟩ := m
  have hmem := List.mem_of_find?_eq_some hfind
  obtain ⟨p', b, hb, hclash⟩ := (hP _ hmem).1 (List.find?_some hfind)
  obtain ⟨j, q, rfl, hj⟩ := hfound _ hmem
  have hfirst : ∀ r r', ClashAt clash (found ++ es.under i) r r' →
      Sooner (j :: q) (i :: p') r r' := by
    intro r r' hr
    rcases clashAt_append_under hfound hno hr with
      ⟨s, s', rfl, rfl, hs⟩ | ⟨k, s, s', c, c', rfl, rfl, hk, hc, hc', hcc'⟩
    · exact absurd hs (hes s s')
    · refine sooner_of_across hj hk ?_
      exact hordered.leftmost_of_find? hfind hc ((hP _ hc).2 ⟨s', c', hc', hcc'⟩)
  refine ⟨j :: q, i :: p', ⟨⟨Or.inl hj, a, b, List.mem_append_left _ hmem, ?_, hclash⟩, hfirst⟩,
    List.mem_append_left _ hmem⟩
  exact List.mem_append_right _ (mem_under_iff.2 ⟨p', rfl, hb⟩)

/-- Without such a mark there is no clash up to the end of the argument. -/
theorem noClash_of_find? (hfound : found.Before i) (hno : NoClash clash found)
    (hes : NoClash clash es) (hP : ∀ n ∈ found, P n = true ↔ ∃ q b, (q, b) ∈ es ∧ clash n.2 b)
    (hfind : found.find? P = none) : NoClash clash (found ++ es.under i) := by
  intro r r' hr
  rcases clashAt_append_under hfound hno hr with
    ⟨s, s', rfl, rfl, hs⟩ | ⟨k, s, s', c, c', rfl, rfl, hk, hc, hc', hcc'⟩
  · exact hes s s' hs
  · exact List.find?_eq_none.1 hfind _ hc ((hP _ hc).2 ⟨s', c', hc', hcc'⟩)

end Comparison

theorem NoClash.under (h : NoClash clash es) : NoClash clash (es.under i) := by
  rw [← List.nil_append (es.under i)]
  exact noClash_of_find? (P := fun _ => false) (List.forall_mem_nil _) noClash_nil h
    (List.forall_mem_nil _) rfl

/-! ## Checks -/

/-- What a check says of the marks that it collects: an error names the first clash, and a success
means that there is none. -/
def Reports {β ε : Type} (clash : α → α → Prop) (name : α → ε) (ms : Marks α) : Except ε β → Prop
  | .error e => ∃ a, FirstClash clash ms a ∧ name a = e
  | .ok _ => NoClash clash ms

/-- A check that reports the first clash fails exactly if there is one, and names no other. -/
theorem Reports.eq_error_iff {β ε : Type} {name : α → ε} {outcome : Except ε β} {e : ε}
    (hms : ms.LeftToRight) (h : Reports clash name ms outcome) :
    outcome = .error e ↔ ∃ a, FirstClash clash ms a ∧ name a = e := by
  cases outcome with
  | error e' =>
    obtain ⟨a, ha, rfl⟩ := h
    rw [Except.error.injEq]
    constructor
    · rintro rfl
      exact ⟨a, ha, rfl⟩
    · rintro ⟨b, hb, rfl⟩
      rw [ha.unique hms hb]
  | ok result =>
    refine iff_of_false nofun ?_
    rintro ⟨a, ha, -⟩
    exact ha.not_noClash h

/-- Where such a check can be made, a clash anywhere gives a first one. -/
theorem Reports.exists_firstClash {β ε : Type} {name : α → ε} {outcome : Except ε β}
    (h : Reports clash name ms outcome) {p p' : List Nat} (hclash : ClashAt clash ms p p') :
    ∃ a, FirstClash clash ms a := by
  cases outcome with
  | error e =>
    obtain ⟨a, ha, -⟩ := h
    exact ⟨a, ha⟩
  | ok result => exact absurd hclash (h p p')

end Clashes

end LatexLogic.Tree
