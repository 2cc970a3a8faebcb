import LatexLogic.Proofs.Binding.Agreement
import LatexLogic.Proofs.Table.Label

/-!
# Extended tables

What a text means does not depend on entries that it does not use. A table that is extended answers
as before for every spelling that is no new key (`Table.get?_extendItems_of_ne`), so that the tokens
of the text stay the same, and with them the tree that is read.

The checks on the tree ask the table once more: they tell quantifiers by their labels, and an
extension can bring in new quantifier labels or take old ones away. But every node of the tree
carries the label of a construct that both tables have, and in a well-formed table all constructs
with that label are of its kind. So both tables give the same answer for every node, and the text
has the same outcome (`Formula.parse_extend`). The new entries may be plain values or finished
constructs, with any keys; both tables are tables that formulas are read with, whose labels are texts.
-/

set_option autoImplicit false

namespace LatexLogic

/-! ## Keys -/

/-- Only a text is the same as a text. -/
theorem Data.eq_text_of_same {key : Data} {s : String} (h : key.same (.text s) = true) :
    key = .text s := by
  cases key with
  | text s' =>
    rw [same, beq_iff_eq] at h
    rw [h]
  | _ => simp [same, isNumber] at h

section Keyed

variable {κ α : Type} {sameKey : κ → κ → Bool} {key k : κ} {value v : α} {xs : List (κ × α)}

/-- An entry stays if its key is not the one that is set. -/
theorem mem_insertKeyed_of_mem (h : (k, v) ∈ xs) (hne : sameKey key k = false) :
    (k, v) ∈ insertKeyed sameKey key value xs := by
  induction xs with
  | nil => cases h
  | cons x xs ih =>
    rw [insertKeyed]
    rcases List.mem_cons.1 h with rfl | h
    · rw [if_neg (by simp [hne])]
      exact List.mem_cons_self
    · split
      · exact List.mem_cons_of_mem _ h
      · exact List.mem_cons_of_mem _ (ih h)

/-- An entry was there before, or its key is the one that is set or the same as that one. -/
theorem mem_of_mem_insertKeyed (h : (k, v) ∈ insertKeyed sameKey key value xs) :
    (k, v) ∈ xs ∨ k = key ∨ sameKey key k = true ∧ ∃ v', (k, v') ∈ xs := by
  induction xs with
  | nil =>
    rw [insertKeyed, List.mem_singleton, Prod.mk.injEq] at h
    exact Or.inr (Or.inl h.1)
  | cons x xs ih =>
    rw [insertKeyed] at h
    split at h
    · next hsame =>
      rcases List.mem_cons.1 h with heq | h
      · obtain ⟨rfl, -⟩ := Prod.mk.inj heq
        exact Or.inr (Or.inr ⟨hsame, x.2, List.mem_cons_self⟩)
      · exact Or.inl (List.mem_cons_of_mem _ h)
    · rcases List.mem_cons.1 h with rfl | h
      · exact Or.inl List.mem_cons_self
      · rcases ih h with hmem | hkey | ⟨hsame, v', hmem⟩
        · exact Or.inl (List.mem_cons_of_mem _ hmem)
        · exact Or.inr (Or.inl hkey)
        · exact Or.inr (Or.inr ⟨hsame, v', List.mem_cons_of_mem _ hmem⟩)

end Keyed

/-- Under text keys values are set as under the texts themselves. -/
theorem insertKeyed_text {α β : Type} (f : α → β) (es : List (String × α)) (key : String)
    (value : α) :
    insertKeyed Data.same (.text key) (f value) (es.map fun e => (.text e.1, f e.2)) =
      (insertKeyed (· == ·) key value es).map fun e => (.text e.1, f e.2) := by
  induction es with
  | nil => rfl
  | cons e es ih =>
    rw [List.map_cons, insertKeyed, insertKeyed, Data.same, ih]
    split <;> rfl

namespace Table

variable {Λ : Type} {s : String}

/-! ## Meanings -/

/-- In a list with one meaning for a spelling, the spelling has this meaning. -/
theorem get?_eq_some_iff {es : List (String × Construct Λ)} {c : Construct Λ}
    (hunique : ∀ c c', (s, c) ∈ es → (s, c') ∈ es → c = c') :
    (⟨es⟩ : Table Λ).get? s = some c ↔ (s, c) ∈ es := by
  refine ⟨exists_mem_of_get?, fun hmem => ?_⟩
  cases hget : (⟨es⟩ : Table Λ).get? s with
  | none =>
    have hnone := List.find?_eq_none.1 (Option.map_eq_none_iff.1 hget) _ hmem
    simp at hnone
  | some c' => rw [hunique c c' hmem (exists_mem_of_get? hget)]

/-- In a well-formed table an entry gives the meaning of its spelling. -/
theorem WellFormed.get?_eq_some_iff {t : Table Λ} {c : Construct Λ} (ht : t.WellFormed) :
    t.get? s = some c ↔ (s, c) ∈ t.entries := by
  refine Table.get?_eq_some_iff fun c c' hc hc' => ?_
  have hsame := List.inj_on_of_nodup_map ht.nodup_spellings hc hc' rfl
  exact (Prod.mk.inj hsame).2

variable {t ext : Table Data}

theorem mem_items_iff {key : Data} {item : Item} :
    (key, item) ∈ t.items ↔ ∃ s c, (s, c) ∈ t.entries ∧ key = .text s ∧ item = .construct c := by
  simp only [items, List.mem_map, Prod.mk.injEq, Prod.exists]
  constructor
  · rintro ⟨s, c, hmem, rfl, rfl⟩
    exact ⟨s, c, hmem, rfl, rfl⟩
  · rintro ⟨s, c, hmem, rfl, rfl⟩
    exact ⟨s, c, hmem, rfl, rfl⟩

/-- Items whose keys are not written as a spelling change nothing at the keys that are. The induction
is on the new items; it carries along that a key written as the spelling is the spelling itself. -/
theorem mem_layOver_iff {new base : List (Data × Item)}
    (hnew : ∀ item ∈ new, item.1.plainText ≠ s)
    (hbase : ∀ item ∈ base, item.1.plainText = s → item.1 = .text s) {key : Data} {item : Item}
    (hkey : key.plainText = s) :
    (key, item) ∈ layOver base new ↔ (key, item) ∈ base := by
  induction new generalizing base with
  | nil => rfl
  | cons x new ih =>
    rw [List.forall_mem_cons] at hnew
    have hother : ∀ {k v}, (k, v) ∈ base → k.plainText = s → x.1.same k = false := by
      intro k v hmem hk
      obtain rfl : k = .text s := hbase _ hmem hk
      rw [Bool.eq_false_iff]
      intro hsame
      exact hnew.1 (by rw [Data.eq_text_of_same hsame]; rfl)
    have hstep : ∀ {k v}, k.plainText = s →
        ((k, v) ∈ insertKeyed Data.same x.1 x.2 base ↔ (k, v) ∈ base) := by
      intro k v hk
      refine ⟨fun hmem => ?_, fun hmem => mem_insertKeyed_of_mem hmem (hother hmem hk)⟩
      rcases mem_of_mem_insertKeyed hmem with hmem | rfl | ⟨hsame, v', hmem⟩
      · exact hmem
      · exact absurd hk hnew.1
      · rw [hother hmem hk] at hsame
        cases hsame
    rw [layOver, List.foldl_cons, ← layOver,
      ih hnew.2 fun item hitem hk => hbase item ((hstep hk).1 hitem) hk]
    exact hstep hkey

/-- The items of an extension are under the keys that are given. -/
theorem exists_mem_of_readItem {items new : List (Data × Item)}
    (h : items.map readItem = new.map .ok) : ∀ item ∈ new, ∃ given ∈ items, given.1 = item.1 := by
  intro item hitem
  obtain ⟨given, hgiven, hread⟩ := List.mem_map.1 (h ▸ List.mem_map_of_mem hitem)
  exact ⟨given, hgiven, (readItem_eq_ok_iff.1 hread).1⟩

/-- A spelling that no new key is written as keeps its meaning, or has none as before. -/
theorem get?_extendItems_of_ne (ht : t.WellFormed) {items : List (Data × Item)}
    (h : t.extendItems items = .ok ext) (hs : ∀ item ∈ items, item.1.plainText ≠ s) :
    ext.get? s = t.get? s := by
  obtain ⟨new, hread, hbuilt⟩ := extendItems_eq_ok h
  have hnew : ∀ item ∈ new, item.1.plainText ≠ s := by
    intro item hitem
    obtain ⟨given, hgiven, hkey⟩ := exists_mem_of_readItem hread item hitem
    exact hkey ▸ hs given hgiven
  have hbase : ∀ item ∈ t.items, item.1.plainText = s → item.1 = .text s := by
    rintro ⟨key, item⟩ hitem hkey
    obtain ⟨s', c, -, rfl, -⟩ := mem_items_iff.1 hitem
    rw [← hkey]
    rfl
  obtain ⟨checked, hchecked, hentries, -⟩ := ofItems_eq_ok hbuilt
  -- The entries with the spelling are those that the table had.
  have hmem : ∀ c, (s, c) ∈ checked ↔ (s, c) ∈ t.entries := by
    intro c
    constructor
    · intro hc
      obtain ⟨⟨key, item⟩, hitem, hread⟩ := List.mem_map.1 (hchecked ▸ List.mem_map_of_mem hc)
      obtain ⟨hread, hspelling⟩ := checkItem_eq_ok_iff.1 hread
      obtain ⟨-, -, hkey⟩ := spellingOf_eq_ok_iff.1 hspelling
      rw [mem_layOver_iff hnew hbase hkey.symm] at hitem
      obtain ⟨s', c', hc', rfl, rfl⟩ := mem_items_iff.1 hitem
      cases hread
      rwa [hkey]
    · intro hc
      have hitem := (mem_layOver_iff hnew hbase rfl).2 (mem_items_iff.2 ⟨s, c, hc, rfl, rfl⟩)
      obtain ⟨⟨s', c'⟩, hc', heq⟩ := List.mem_map.1 (hchecked ▸ List.mem_map_of_mem hitem)
      obtain ⟨hread, hspelling⟩ := checkItem_eq_ok_iff.1 heq.symm
      obtain ⟨-, -, rfl⟩ := spellingOf_eq_ok_iff.1 hspelling
      cases hread
      exact hc'
  have hext : ext.get? s = (⟨checked.reverse⟩ : Table Data).get? s := by
    show (⟨ext.entries⟩ : Table Data).get? s = _
    rw [hentries, get?_foldl_insert]
    exact Option.or_none
  rw [hext]
  refine Option.ext fun c => ?_
  rw [get?_eq_some_iff, List.mem_reverse, hmem, ht.get?_eq_some_iff]
  intro c c' hc hc'
  rw [List.mem_reverse, hmem, ← ht.get?_eq_some_iff] at hc hc'
  exact Option.some.inj (hc.symm.trans hc')

end Table

/-! ## One new entry -/

namespace Table

/-- Setting a text key among the items of a table sets the meaning of a spelling. -/
theorem insertKeyed_items (es : List (String × Construct Data)) (s : String) (c : Construct Data) :
    insertKeyed Data.same (.text s) (.construct c) (⟨es⟩ : Table Data).items =
      (⟨insert es (s, c)⟩ : Table Data).items :=
  insertKeyed_text Item.construct es s c

/-- With one new entry for a spelling a table is built from its entries with the new one. -/
theorem extendItems_singleton {t : Table Data} {s : String} {item : Item} {c : Construct Data}
    (h : item.read = .ok (.construct c)) :
    t.extendItems [(.text s, item)] = ofItems (⟨insert t.entries (s, c)⟩ : Table Data).items := by
  rw [← insertKeyed_items, extendItems, List.mapM_cons, List.mapM_nil, readItem, h]
  rfl

/-- A table is extended by one new entry if the outcome is a table that could be built. -/
theorem extendItems_singleton_valued {t : Table} {s : String} {item : Item} {c : Construct}
    (h : item.read = .ok (.construct c.valued))
    (hwell : (⟨insert t.entries (s, c)⟩ : Table).WellFormed) :
    t.valued.extendItems [(.text s, item)] = .ok (⟨insert t.entries (s, c)⟩ : Table).valued := by
  rw [extendItems_singleton h, insert_valued, ofItems_items hwell]

end Table

/-! ## Texts -/

/-- A table is asked for the meaning of a lexeme unless it is the control word of a metavariable. -/
def Lexeme.IsLookedUp (l : Lexeme) : Prop :=
  ∀ letter : MetaLetter, l ≠ .control letter.name

/-- A lexeme for which two tables give the same answer, if they are asked, makes the same token. -/
theorem Token.ofLexeme_congr {s t : Table} {l : Lexeme}
    (h : l.IsLookedUp → s.get? l.spelling = t.get? l.spelling) :
    ofLexeme s l = ofLexeme t l := by
  cases l with
  | char c =>
    have hget : s.get? (String.singleton c) = t.get? (String.singleton c) := h nofun
    rw [ofLexeme, ofLexeme, hget]
  | control name =>
    rw [ofLexeme, ofLexeme]
    cases hletter : MetaLetter.ofName? name with
    | some letter => rfl
    | none =>
      have hget : s.get? name = t.get? name := by
        refine h fun letter heq => ?_
        cases heq
        rw [MetaLetter.ofName?_name] at hletter
        cases hletter
      dsimp only
      rw [hget]

/-- A text that looks up no new key has the same tokens under the extended table. -/
theorem tokenize_extendItems {t ext : Table} (ht : t.WellFormed) {items : List (Data × Table.Item)}
    (hext : t.valued.extendItems items = .ok ext.valued) {text : String}
    (hunused : ∀ l ∈ Lexeme.scan text.toList, l.IsLookedUp →
      ∀ item ∈ items, item.1.plainText ≠ l.spelling) :
    tokenize ext text = tokenize t text := by
  refine List.map_congr_left fun l hl => Token.ofLexeme_congr fun hlookedUp => ?_
  have hget := Table.get?_extendItems_of_ne (Table.wellFormed_valued_iff.2 ht) hext
    (hunused l hl hlookedUp)
  rw [Table.get?_valued, Table.get?_valued] at hget
  exact Option.map_injective Construct.valued_injective hget

/-- Extending a table is conservative, whether by plain values or by finished constructs. A text in
which no character and no control sequence that the table is asked for is written like a new key has
the same outcome under the extended table: the same formula with the same declarations, or the same
error with the same fields. -/
theorem Formula.parse_extend {t ext : Table} (ht : t.WellFormed) {items : List (Data × Table.Item)}
    (hext : t.valued.extendItems items = .ok ext.valued) {text : String}
    (hunused : ∀ l ∈ Lexeme.scan text.toList, l.IsLookedUp →
      ∀ item ∈ items, item.1.plainText ≠ l.spelling) :
    parse ext text = parse t text := by
  have htokens := tokenize_extendItems ht hext hunused
  have hwithin : ∀ token ∈ tokenize t text, token.Within fun c => ext.Has c ∧ t.Has c :=
    fun token htoken c hc =>
      ⟨within_of_mem_tokenize (htokens ▸ htoken) c hc, within_of_mem_tokenize htoken c hc⟩
  -- A tree that is read from the tokens passes the checks under one table as under the other.
  have hchecks : ∀ raw, treeOfTokens (text.length + 1) (tokenize t text) = .ok raw →
      ofTree ext.isQuantifierLabel raw = ofTree t.isQuantifierLabel raw := by
    intro raw hraw
    have hread :=
      (treeOfTokens_eq_ok_iff (Nat.lt_succ_of_le (length_tokenize_le t text))).1 hraw
    have hformula := Tree.isFormula_of_formula hread hwithin
    exact ofTree_congr
      ((Tree.IsSorted.nodesDeclared (Or.inl hformula)).agreeOn
        (Table.wellFormed_valued_iff.1 (Table.wellFormed_of_extendItems hext)) ht)
  unfold parse parseWithin
  rw [htokens]
  cases hraw : treeOfTokens (text.length + 1) (tokenize t text) with
  | error failure => rfl
  | ok raw =>
    dsimp only
    rw [hchecks raw hraw]

/-- A formula with a universal quantifier, where the existential one is replaced by a construct with
another label. -/
theorem Formula.parse_extend_forall :
    let ext : Table := ⟨Table.insert Table.standard.entries ("exists", .quantifier "some")⟩
    Table.standard.valued.extendItems
        [(.text "exists", .construct (Construct.quantifier "some").valued)] = .ok ext.valued ∧
      ext.quantifierLabels = ["some", "forall"] ∧
      parse ext "\\forall x x=x" =
        .ok ⟨.node "forall" [.atom "x", .node "eq" [.atom "x", .atom "x"]], []⟩ := by
  intro ext
  have hwell : ext.WellFormed := ⟨by decide, by decide, by decide⟩
  have hitem : (Table.Item.construct (Construct.quantifier "some").valued).read =
      .ok (.construct (Construct.quantifier "some").valued) := rfl
  have hext := Table.extendItems_singleton_valued (t := Table.standard) (s := "exists") hitem hwell
  have hscan : Lexeme.scan "\\forall x x=x".toList =
      [.control "forall", .char 'x', .char 'x', .char '=', .char 'x'] := by decide
  have hspelling : ∀ l ∈ [Lexeme.control "forall", .char 'x', .char 'x', .char '=', .char 'x'],
      "exists" ≠ l.spelling := by decide
  have hsame : parse ext "\\forall x x=x" = parse Table.standard "\\forall x x=x" := by
    refine parse_extend Table.standard_wellFormed hext ?_
    rw [hscan]
    intro l hl _ entry hentry
    obtain rfl := List.mem_singleton.1 hentry
    exact hspelling l hl
  exact ⟨hext, by rfl, hsame.trans (by decide +kernel)⟩

end LatexLogic
