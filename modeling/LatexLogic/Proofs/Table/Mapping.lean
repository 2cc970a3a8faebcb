import LatexLogic.Data.Basic
import Mathlib.Data.List.Forall2
import Mathlib.Data.List.Nodup
import Mathlib.Data.Option.Basic

/-!
# Mappings laid over each other

A mapping gives texts a value each and keeps the order in which the texts were first written. One
mapping is laid over another by setting its values one after the other (`Mapping.override`). What
comes of it is told by two laws: the old keys stay where they are and the new ones follow in their
order (`Mapping.keys_override`), and a value of the new mapping goes before one of the old
(`Mapping.get?_override`).

A mapping is known from its keys and its values (`Mapping.ext_get?`), so both laws together show that
it makes no difference in which order three mappings are laid over each other
(`Mapping.override_assoc`).
-/

set_option autoImplicit false

namespace LatexLogic

/-- Texts with a value each, in an order. No text stands twice. -/
structure Mapping (α : Type) where
  entries : List (String × α)
  nodup_keys : (entries.map Prod.fst).Nodup

namespace Mapping

variable {α β γ : Type}

/-- The texts that have a value, in their order. -/
def keys (m : Mapping α) : List String :=
  m.entries.map Prod.fst

/-- The value of a text. -/
def get? (m : Mapping α) (key : String) : Option α :=
  m.entries.lookup key

/-- The mapping without keys. -/
def empty : Mapping α := ⟨[], List.nodup_nil⟩

/-! ## Keys and values -/

section Lookup

variable {es : List (String × α)} {key : String} {value : α}

theorem lookup_cons (e : String × α) (es : List (String × α)) (key : String) :
    (e :: es).lookup key = if key = e.1 then some e.2 else es.lookup key := by
  rw [List.lookup_cons]
  by_cases h : key = e.1
  · simp [h]
  · have hne : (key == e.1) = false := by simpa using h
    rw [hne, if_neg h]

theorem lookup_eq_none_iff : es.lookup key = none ↔ key ∉ es.map Prod.fst := by
  induction es with
  | nil => exact iff_of_true rfl List.not_mem_nil
  | cons e es ih =>
    rw [lookup_cons, List.map_cons, List.mem_cons, not_or, ← ih]
    by_cases h : key = e.1 <;> simp [h]

/-- In a list without double keys an entry is found under its key. -/
theorem lookup_eq_some_iff (hnodup : (es.map Prod.fst).Nodup) :
    es.lookup key = some value ↔ (key, value) ∈ es := by
  induction es with
  | nil => exact iff_of_false nofun List.not_mem_nil
  | cons e es ih =>
    rw [List.map_cons, List.nodup_cons] at hnodup
    rw [lookup_cons, List.mem_cons, Prod.ext_iff]
    by_cases h : key = e.1
    · have hnot : (key, value) ∉ es := fun hmem => hnodup.1 (h ▸ List.mem_map_of_mem hmem)
      simp [h, h ▸ hnot, eq_comm]
    · simp [h, ih hnodup.2]

/-- Lists with the same keys, none of them double, are the same if they give the keys the same
values. -/
theorem eq_of_lookup_eq {fs : List (String × α)} (hkeys : es.map Prod.fst = fs.map Prod.fst)
    (hnodup : (es.map Prod.fst).Nodup) (h : ∀ key, es.lookup key = fs.lookup key) : es = fs := by
  induction es generalizing fs with
  | nil => exact (List.map_eq_nil_iff.1 hkeys.symm).symm
  | cons e es ih =>
    cases fs with
    | nil => cases hkeys
    | cons f fs =>
      rw [List.map_cons, List.map_cons] at hkeys
      obtain ⟨hkey, hkeys⟩ := List.cons.inj hkeys
      rw [List.map_cons, List.nodup_cons] at hnodup
      simp only [lookup_cons, ← hkey] at h
      have hvalue : e.2 = f.2 := by simpa using h e.1
      have hrest : ∀ key, es.lookup key = fs.lookup key := by
        intro key
        by_cases heq : key = e.1
        · -- The key stands in front and nowhere else.
          rw [heq, lookup_eq_none_iff.2 hnodup.1, lookup_eq_none_iff.2 (hkeys ▸ hnodup.1)]
        · simpa [heq] using h key
      rw [ih hkeys hnodup.2 hrest, Prod.ext hkey hvalue]

end Lookup

/-- A mapping is known from its keys and its values. -/
theorem ext_get? {m n : Mapping α} (hkeys : m.keys = n.keys)
    (h : ∀ key, m.get? key = n.get? key) : m = n := by
  obtain ⟨es, hes⟩ := m
  obtain ⟨fs, hfs⟩ := n
  congr 1
  exact eq_of_lookup_eq hkeys hes h

theorem get?_eq_some_iff {m : Mapping α} {key : String} {value : α} :
    m.get? key = some value ↔ (key, value) ∈ m.entries :=
  lookup_eq_some_iff m.nodup_keys

theorem get?_eq_none_iff {m : Mapping α} {key : String} : m.get? key = none ↔ key ∉ m.keys :=
  lookup_eq_none_iff

/-! ## Setting a value -/

section Set

variable (es : List (String × α)) (key : String) (value : α)

theorem map_fst_insertKeyed : (insertKeyed (· == ·) key value es).map Prod.fst =
    if key ∈ es.map Prod.fst then es.map Prod.fst else es.map Prod.fst ++ [key] := by
  induction es with
  | nil => rfl
  | cons e es ih =>
    rw [insertKeyed]
    by_cases hkey : key = e.1
    · simp [hkey]
    · have hne : ¬ (key == e.1) = true := by simpa using hkey
      rw [if_neg hne, List.map_cons, ih, List.map_cons]
      simp only [List.mem_cons, hkey, false_or]
      split <;> rfl

theorem lookup_insertKeyed (other : String) : (insertKeyed (· == ·) key value es).lookup other =
    if other = key then some value else es.lookup other := by
  induction es with
  | nil => exact lookup_cons _ _ _
  | cons e es ih =>
    rw [insertKeyed]
    by_cases hkey : key = e.1
    · rw [if_pos (by simpa using hkey), lookup_cons, lookup_cons, ← hkey]
      split <;> rfl
    · rw [if_neg (by simpa using hkey), lookup_cons, ih, lookup_cons]
      by_cases h : other = e.1
      · simp [h, Ne.symm hkey]
      · simp [h]

end Set

/-- The mapping with one value set. A key that is there keeps its position. -/
def set (m : Mapping α) (key : String) (value : α) : Mapping α where
  entries := insertKeyed (· == ·) key value m.entries
  nodup_keys := by
    rw [map_fst_insertKeyed]
    split
    · exact m.nodup_keys
    · next hnew =>
      rw [← List.concat_eq_append]
      exact List.Nodup.concat hnew m.nodup_keys

theorem keys_set (m : Mapping α) (key : String) (value : α) :
    (m.set key value).keys = if key ∈ m.keys then m.keys else m.keys ++ [key] :=
  map_fst_insertKeyed m.entries key value

theorem get?_set (m : Mapping α) (key : String) (value : α) (other : String) :
    (m.set key value).get? other = if other = key then some value else m.get? other :=
  lookup_insertKeyed m.entries key value other

/-! ## Laying one mapping over another -/

/-- The mapping with the values of some entries set, one after the other. -/
def setAll (m : Mapping α) (es : List (String × α)) : Mapping α :=
  es.foldl (fun m e => m.set e.1 e.2) m

section SetAll

variable {es : List (String × α)} (hnodup : (es.map Prod.fst).Nodup) (m : Mapping α)

include hnodup

theorem keys_setAll : (m.setAll es).keys = m.keys ++ (es.map Prod.fst).filter (· ∉ m.keys) := by
  induction es generalizing m with
  | nil => exact (List.append_nil _).symm
  | cons e es ih =>
    rw [List.map_cons, List.nodup_cons] at hnodup
    rw [setAll, List.foldl_cons, ← setAll, ih hnodup.2, keys_set, List.map_cons, List.filter_cons]
    by_cases hold : e.1 ∈ m.keys
    · simp [hold]
    · -- The key comes next, and it is not among those that are set later.
      have hlater : (es.map Prod.fst).filter (· ∉ m.keys ++ [e.1]) =
          (es.map Prod.fst).filter (· ∉ m.keys) := by
        apply List.filter_congr
        intro key hkey
        have hne : key ≠ e.1 := fun heq => hnodup.1 (heq ▸ hkey)
        simp [hne]
      simp only [hold, if_false, not_false_eq_true, decide_true, if_true, hlater,
        List.append_assoc, List.singleton_append]

theorem get?_setAll (key : String) : (m.setAll es).get? key = (es.lookup key).or (m.get? key) := by
  induction es generalizing m with
  | nil => rfl
  | cons e es ih =>
    rw [List.map_cons, List.nodup_cons] at hnodup
    rw [setAll, List.foldl_cons, ← setAll, ih hnodup.2, get?_set, lookup_cons]
    split
    · next heq => rw [heq, lookup_eq_none_iff.2 hnodup.1]; rfl
    · rfl

end SetAll

/-- The old mapping with all values of the new one set. -/
def override (base new : Mapping α) : Mapping α :=
  base.setAll new.entries

section Override

variable (base new : Mapping α)

/-- Old keys stay where they are, and new ones follow in their order. -/
theorem keys_override : (base.override new).keys =
    base.keys ++ new.keys.filter (· ∉ base.keys) :=
  keys_setAll new.nodup_keys base

/-- A new value goes before an old one. -/
theorem get?_override (key : String) :
    (base.override new).get? key = (new.get? key).or (base.get? key) :=
  get?_setAll new.nodup_keys base key

theorem override_empty : base.override empty = base := rfl

theorem empty_override : empty.override new = new := by
  -- The laws spare an induction over the entries that are appended one by one.
  apply ext_get?
  · rw [keys_override]
    exact List.filter_eq_self.2 fun _ _ => by simp [empty, keys]
  · intro key
    rw [get?_override]
    exact Option.or_none

/-- A mapping with the same keys takes the place of the old one. -/
theorem override_of_keys_eq (h : base.keys = new.keys) : base.override new = new := by
  apply ext_get?
  · have hnone : new.keys.filter (· ∉ base.keys) = [] :=
      List.filter_eq_nil_iff.2 fun key hkey => by simp [h, hkey]
    rw [keys_override, hnone, List.append_nil, h]
  · intro key
    rw [get?_override]
    cases hnew : new.get? key with
    | some value => rfl
    | none => rw [get?_eq_none_iff.2 (h ▸ get?_eq_none_iff.1 hnew)]; rfl

/-- Of three mappings the last two can be laid over each other first. -/
theorem override_assoc (last : Mapping α) :
    (base.override new).override last = base.override (new.override last) := by
  apply ext_get?
  · -- On both sides a key of the last mapping is appended if neither of the others has it.
    have hnot : ∀ key, key ∉ base.keys ++ new.keys.filter (· ∉ base.keys) ↔
        key ∉ base.keys ∧ key ∉ new.keys := by
      intro key
      by_cases hkey : key ∈ base.keys <;> simp [hkey]
    simp only [keys_override, List.filter_append, List.filter_filter, List.append_assoc, hnot,
      Bool.decide_and]
  · intro key
    simp only [get?_override, Option.or_assoc]

end Override

/-- Mappings laid over each other in turn are one mapping laid over the first. -/
theorem foldl_override (m : Mapping α) (ms : List (Mapping α)) :
    ms.foldl override m = m.override (ms.foldl override empty) := by
  induction ms generalizing m with
  | nil => rfl
  | cons n ms ih =>
    -- The fold starts from another mapping on each side, so both are brought back to the empty one.
    rw [List.foldl_cons, List.foldl_cons, ih (m.override n), empty_override, ih n, override_assoc]

/-! ## Mappings that correspond -/

/-- The mapping with a function of each value. -/
def map (f : α → β) (m : Mapping α) : Mapping β where
  entries := m.entries.map fun e => (e.1, f e.2)
  nodup_keys := by
    rw [List.map_map]
    exact m.nodup_keys

theorem lookup_map (f : α → β) (es : List (String × α)) (key : String) :
    (es.map fun e => (e.1, f e.2)).lookup key = (es.lookup key).map f := by
  induction es with
  | nil => rfl
  | cons e es ih =>
    rw [List.map_cons, lookup_cons, ih, lookup_cons]
    split <;> rfl

theorem keys_map (f : α → β) (m : Mapping α) : (m.map f).keys = m.keys :=
  List.map_map

theorem get?_map (f : α → β) (m : Mapping α) (key : String) :
    (m.map f).get? key = (m.get? key).map f :=
  lookup_map f m.entries key

/-- Functions of the values can be taken before or after laying over. -/
theorem map_override (f : α → β) (base new : Mapping α) :
    (base.override new).map f = (base.map f).override (new.map f) := by
  apply ext_get?
  · simp only [keys_map, keys_override]
  · intro key
    simp only [get?_map, get?_override, Option.map_or]

theorem map_foldl_override (f : α → β) (ms : List (Mapping α)) :
    (ms.foldl override empty).map f = (ms.map (map f)).foldl override empty := by
  rw [List.foldl_map]
  exact (List.foldl_hom (map f) fun m n => (map_override f m n).symm).symm

/-- Mappings with the same keys, of whose values each is related to its like. -/
def Corresponds (R : α → β → Prop) (m : Mapping α) (n : Mapping β) : Prop :=
  List.Forall₂ (fun d e => d.1 = e.1 ∧ R d.2 e.2) m.entries n.entries

section Corresponds

variable {R : α → β → Prop} {m m' : Mapping α} {n n' : Mapping β}

theorem Corresponds.refl {R : α → α → Prop} (h : ∀ x, R x x) (m : Mapping α) : Corresponds R m m :=
  List.forall₂_same.2 fun e _ => ⟨rfl, h e.2⟩

theorem corresponds_map {f : α → β} (h : ∀ e ∈ m.entries, R e.2 (f e.2)) :
    Corresponds R m (m.map f) :=
  List.forall₂_map_right_iff.2 (List.forall₂_same.2 fun e he => ⟨rfl, h e he⟩)

theorem corresponds_map_left_iff {f : γ → α} {l : Mapping γ} :
    Corresponds R (l.map f) n ↔ Corresponds (fun x y => R (f x) y) l n :=
  List.forall₂_map_left_iff

theorem corresponds_map_right_iff {f : β → γ} {R : α → γ → Prop} :
    Corresponds R m (n.map f) ↔ Corresponds (fun x y => R x (f y)) m n :=
  List.forall₂_map_right_iff

theorem map_fst_eq_of_forall₂ {es : List (String × α)} {fs : List (String × β)}
    (h : List.Forall₂ (fun d e => d.1 = e.1 ∧ R d.2 e.2) es fs) :
    es.map Prod.fst = fs.map Prod.fst := by
  rw [← List.forall₂_eq_eq_eq, List.forall₂_map_left_iff, List.forall₂_map_right_iff]
  exact h.imp fun _ _ he => he.1

theorem Corresponds.keys_eq (h : Corresponds R m n) : m.keys = n.keys :=
  map_fst_eq_of_forall₂ h

theorem forall₂_insertKeyed {es : List (String × α)} {fs : List (String × β)} {key : String}
    {value : α} {value' : β} (h : List.Forall₂ (fun d e => d.1 = e.1 ∧ R d.2 e.2) es fs)
    (hvalue : R value value') :
    List.Forall₂ (fun d e => d.1 = e.1 ∧ R d.2 e.2) (insertKeyed (· == ·) key value es)
      (insertKeyed (· == ·) key value' fs) := by
  induction h with
  | nil => exact .cons ⟨rfl, hvalue⟩ .nil
  | @cons d e es fs hhead htail ih =>
    rw [insertKeyed, insertKeyed, hhead.1]
    split
    · exact .cons ⟨rfl, hvalue⟩ htail
    · exact .cons hhead ih

theorem Corresponds.setAll {es : List (String × α)} {fs : List (String × β)}
    (hset : List.Forall₂ (fun d e => d.1 = e.1 ∧ R d.2 e.2) es fs) (h : Corresponds R m n) :
    Corresponds R (m.setAll es) (n.setAll fs) := by
  induction hset generalizing m n with
  | nil => exact h
  | @cons d e es fs hhead _ ih =>
    have hone : Corresponds R (m.set d.1 d.2) (n.set e.1 e.2) := by
      rw [hhead.1]
      exact forall₂_insertKeyed h hhead.2
    exact ih hone

/-- Laying over keeps values related. -/
theorem Corresponds.override (hbase : Corresponds R m n) (hnew : Corresponds R m' n') :
    Corresponds R (m.override m') (n.override n') :=
  hbase.setAll hnew

theorem exists_lookup_of_forall₂ {es : List (String × α)} {fs : List (String × β)}
    {key : String} {x : α} (h : List.Forall₂ (fun d e => d.1 = e.1 ∧ R d.2 e.2) es fs)
    (hx : es.lookup key = some x) : ∃ y, fs.lookup key = some y ∧ R x y := by
  induction h with
  | nil => cases hx
  | @cons d e es fs hhead _ ih =>
    rw [lookup_cons] at hx ⊢
    rw [hhead.1] at hx
    split at hx
    · next hkey =>
      rw [if_pos hkey]
      exact ⟨e.2, rfl, Option.some.inj hx ▸ hhead.2⟩
    · next hkey =>
      rw [if_neg hkey]
      exact ih hx

/-- What a text has in one mapping is related to what it has in the other. -/
theorem Corresponds.get?_eq_some (h : Corresponds R m n) {key : String} {x : α}
    (hx : m.get? key = some x) : ∃ y, n.get? key = some y ∧ R x y :=
  exists_lookup_of_forall₂ h hx

end Corresponds

end Mapping

end LatexLogic
