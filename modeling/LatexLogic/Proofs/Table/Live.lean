import LatexLogic.Proofs.Rendering.Text
import LatexLogic.Proofs.Table.Reachable
import LatexLogic.Proofs.Token.Meaning

/-!
# Entries that are alive

A table accepts an entry under every spelling that is not empty. But a text asks the table for a single
character, or for a word of letters that does not name a metavariable, and for nothing else: whatever
the scanner makes of a text, the letters that it has collected are all that it can look up
(`Layout.isLiveSpelling`). Conversely a backslash in front of a live spelling makes up a text whose one
token is looked up under it (`Lexeme.scan_control`), be it a blank or a backslash.

So the live spellings are exactly those that take effect in some text (`lookedUp_iff_live`). Of two
tables that agree on them no text can tell one from the other (`tokenize_congr_live`,
`Formula.parse_congr_tokens`), although the dead entries of a table count when its labels are checked.
-/

set_option autoImplicit false

namespace LatexLogic

/-! ## Spellings in a text -/

section Spelling

variable {s : String}

/-- The names of the metavariables have three letters. -/
theorem notMem_metaNames_of_length (h : s.length = 1) : s ∉ ["phi", "psi", "chi"] := by
  have hnames : ∀ name ∈ ["phi", "psi", "chi"], name.length ≠ 1 := by decide
  exact fun hmem => hnames s hmem h

/-- A live spelling is looked up where it stands behind a backslash. -/
theorem IsLiveSpelling.isLookedUp (h : IsLiveSpelling s) : (Lexeme.control s).IsLookedUp := by
  apply Token.isLookedUp_iff.2
  rcases h with hlength | ⟨-, -, hname⟩
  · exact ofName?_eq_none (notMem_metaNames_of_length hlength)
  · exact ofName?_eq_none hname

/-- Behind a backslash a live spelling is one control sequence. -/
theorem Lexeme.scan_control (h : IsLiveSpelling s) : scan ("\\" ++ s).toList = [.control s] := by
  have hchars : ("\\" ++ s).toList = '\\' :: s.toList := String.toList_append
  rw [hchars]
  apply layout_iff_scan_eq.1
  have hword {letters : List Char} (hne : letters ≠ [])
      (hletters : ∀ c ∈ letters, isControlLetter c = true) :
      Layout [.control (String.ofList letters)] ('\\' :: letters) := by
    have hlayout := Layout.word hne hletters rfl .nil
    rwa [List.append_nil] at hlayout
  rcases h with hlength | ⟨hne, hletters, -⟩
  · obtain ⟨x, hx⟩ := List.length_eq_one_iff.1 (String.length_toList ▸ hlength)
    obtain rfl : s = String.ofList [x] := by rw [← hx, String.ofList_toList]
    rw [String.toList_ofList]
    -- A letter makes up a word of its own, and any other character a symbol.
    by_cases hletter : isControlLetter x = true
    · exact hword (List.cons_ne_nil x []) (List.forall_mem_singleton.2 hletter)
    · exact .symbol (Bool.eq_false_iff.2 hletter) .nil
  · have hlayout := hword (by simpa using hne) (List.all_eq_true.1 hletters)
    rwa [String.ofList_toList] at hlayout

end Spelling

/-- What is looked up in a text has a live spelling, except a backslash without anything behind it. -/
theorem Layout.isLiveSpelling {ls : List Lexeme} {cs : List Char} (h : Layout ls cs) :
    ∀ l ∈ ls, l.IsLookedUp → l.spelling = "" ∨ IsLiveSpelling l.spelling := by
  have hsingle (c : Char) : IsLiveSpelling (String.singleton c) :=
    Or.inl (String.length_singleton ..)
  induction h with
  | nil => exact List.forall_mem_nil _
  | blank _ _ ih => exact ih
  | char _ _ _ ih => exact List.forall_mem_cons.2 ⟨fun _ => Or.inr (hsingle _), ih⟩
  | symbol _ _ ih => exact List.forall_mem_cons.2 ⟨fun _ => Or.inr (hsingle _), ih⟩
  | @word letters ls cs hne hletters _ _ ih =>
    refine List.forall_mem_cons.2 ⟨fun hlookedUp => Or.inr (Or.inr ⟨?_, ?_, ?_⟩), ih⟩
    · simpa [Lexeme.spelling] using hne
    · simpa [Lexeme.spelling] using hletters
    · intro hname
      -- The word would be the control word of a metavariable.
      simp only [List.mem_cons, List.not_mem_nil, or_false] at hname
      rcases hname with hname | hname | hname
      · exact hlookedUp .phi (congrArg Lexeme.control hname)
      · exact hlookedUp .psi (congrArg Lexeme.control hname)
      · exact hlookedUp .chi (congrArg Lexeme.control hname)
  | lone => exact List.forall_mem_singleton.2 fun _ => Or.inl rfl

namespace Token

/-- The token was made by looking up the spelling in the table. -/
def LooksUp (table : Table) (s : String) (t : Token) : Prop :=
  ∃ l c, t = .known l c ∧ l.spelling = s ∧ table.get? s = some c

/-- Only a live spelling of a well-formed table is looked up in a text. -/
theorem LooksUp.isLiveSpelling {table : Table} (htable : table.WellFormed) {s text : String}
    {t : Token} (ht : t ∈ tokenize table text) (h : t.LooksUp table s) : IsLiveSpelling s := by
  obtain ⟨l, c, rfl, rfl, hget⟩ := h
  obtain ⟨l', hl', heq⟩ := List.mem_map.1 ht
  obtain rfl : l' = l := by rw [← lexeme_ofLexeme table l', heq]; rfl
  -- A metavariable is not a construct, so the lexeme was looked up.
  have hlookedUp : l'.IsLookedUp := by
    cases ofLexeme_eq_iff.1 heq with
    | known hlookedUp _ => exact hlookedUp
  rcases (layout_iff_scan_eq.2 rfl).isLiveSpelling l' hl' hlookedUp with hempty | hlive
  · exact absurd hempty (htable.spelling_ne_empty _ (Table.exists_mem_of_get? hget))
  · exact hlive

/-- Every live spelling of a table is looked up in a text. -/
theorem exists_looksUp {table : Table} {s : String} (hs : IsLiveSpelling s) {c : Construct}
    (hget : table.get? s = some c) : ∃ text, ∃ t ∈ tokenize table text, t.LooksUp table s := by
  refine ⟨"\\" ++ s, .known (.control s) c, ?_, .control s, c, rfl, rfl, hget⟩
  rw [tokenize, Lexeme.scan_control hs, List.map_singleton, List.mem_singleton, eq_comm]
  exact ofLexeme_eq_iff.2 (.known hs.isLookedUp hget)

end Token

/-! ## Tables that agree on live spellings -/

/-- Two tables say the same of every live spelling. -/
def Table.AgreeLive (t t' : Table) : Prop :=
  ∀ s, IsLiveSpelling s → t.get? s = t'.get? s

section Agreement

variable {t t' : Table} (ht : t.WellFormed) (ht' : t'.WellFormed)

theorem Table.WellFormed.get?_empty (ht : t.WellFormed) : t.get? "" = none := by
  rw [Option.eq_none_iff_forall_ne_some]
  exact fun c hget => ht.spelling_ne_empty _ (exists_mem_of_get? hget) rfl

include ht ht'

/-- A text has the same tokens under tables that agree on live spellings. -/
theorem tokenize_congr_live (h : t.AgreeLive t') (text : String) :
    tokenize t text = tokenize t' text := by
  refine List.map_congr_left fun l hl => Token.ofLexeme_congr fun hlookedUp => ?_
  rcases (layout_iff_scan_eq.2 rfl).isLiveSpelling l hl hlookedUp with hempty | hlive
  · rw [hempty, ht.get?_empty, ht'.get?_empty]
  · exact h _ hlive

/-- A text that has the same tokens under two tables has the same outcome. The checks ask for the
labels of the nodes only, and every node comes from a token whose construct both tables have. -/
theorem Formula.parse_congr_tokens {text : String} (htokens : tokenize t text = tokenize t' text) :
    parse t text = parse t' text := by
  have hwithin : ∀ token ∈ tokenize t' text, token.Within fun c => t.Has c ∧ t'.Has c :=
    fun token htoken c hc =>
      ⟨within_of_mem_tokenize (htokens ▸ htoken) c hc, within_of_mem_tokenize htoken c hc⟩
  unfold parse parseWithin
  rw [htokens]
  cases hraw : treeOfTokens (text.length + 1) (tokenize t' text) with
  | error failure => rfl
  | ok raw =>
    have hsorted := isSorted_of_treeOfTokens hwithin hraw
    dsimp only
    rw [ofTree_congr (hsorted.nodesDeclared.agreeOn ht ht')]

end Agreement

/-! ## Accepted entries -/

namespace Table

variable {t : Table} {s : String} {c : Construct}

/-- The constructs of a table with a new entry are the new one and old ones. -/
theorem eq_or_exists_of_mem_insert {es : List (String × Construct)} {entry : String × Construct}
    (h : entry ∈ insert es (s, c)) : entry.2 = c ∨ ∃ old ∈ es, old.2 = entry.2 :=
  forall_mem_insertKeyed (P := fun c' => c' = c ∨ ∃ old ∈ es, old.2 = c') (Or.inl rfl)
    (fun old hold => Or.inr ⟨old, hold, rfl⟩) entry h

/-- With a construct under a spelling that is not empty a table stays well formed, unless another kind
of construct has its label. -/
theorem WellFormed.insert (ht : t.WellFormed) (hs : s ≠ "")
    (hlabel : ∀ entry ∈ t.entries, entry.2.label = c.label → entry.2.kind = c.kind) :
    (⟨Table.insert t.entries (s, c)⟩ : Table).WellFormed where
  spelling_ne_empty entry hentry := by
    have hspelling := List.mem_map_of_mem (f := Prod.fst) hentry
    rw [map_fst_insert] at hspelling
    have hold : entry.1 ∈ t.entries.map Prod.fst → entry.1 ≠ "" := fun hmem => by
      obtain ⟨old, hold, heq⟩ := List.mem_map.1 hmem
      exact heq ▸ ht.spelling_ne_empty old hold
    split at hspelling
    · exact hold hspelling
    · rcases List.mem_append.1 hspelling with hmem | hmem
      · exact hold hmem
      · exact List.mem_singleton.1 hmem ▸ hs
  nodup_spellings := nodup_insert ht.nodup_spellings
  kind_eq_of_label_eq a ha b hb h := by
    -- The new construct is compared with itself and with the old ones, and these with each other.
    rcases eq_or_exists_of_mem_insert ha with hac | ⟨a', ha', haeq⟩ <;>
      rcases eq_or_exists_of_mem_insert hb with hbc | ⟨b', hb', hbeq⟩
    · rw [hac, hbc]
    · rw [hac, ← hbeq] at h ⊢
      exact (hlabel b' hb' h.symm).symm
    · rw [← haeq, hbc] at h ⊢
      exact hlabel a' ha' h
    · rw [← haeq, ← hbeq] at h ⊢
      exact ht.kind_eq_of_label_eq a' ha' b' hb' h

/-- Such an entry is accepted, whatever its spelling is. -/
theorem extend_of_label (ht : t.WellFormed) (hs : s ≠ "")
    (hlabel : ∀ entry ∈ t.entries, entry.2.label = c.label → entry.2.kind = c.kind) :
    t.valued.extend [(.text s, c.valued.toData)] =
      .ok (⟨insert t.entries (s, c)⟩ : Table).valued := by
  refine extendItems_singleton_valued (Item.read_toData ?_) (ht.insert hs hlabel)
  rw [Construct.label_valued]
  nofun

/-- An entry under a dead spelling changes nothing for the live ones. -/
theorem agreeLive_insert (hs : ¬ IsLiveSpelling s) :
    (⟨insert t.entries (s, c)⟩ : Table).AgreeLive t := by
  intro s' hlive
  rw [get?_insert, if_neg]
  rintro rfl
  exact hs hlive

end Table

/-! ## Live and dead entries -/

/-- A spelling of a table is looked up in some text if it is live: if it is a single character of any
kind, or a word of letters that does not name a metavariable. Under every other spelling the table
accepts an entry as well, but the entry takes effect in no text: with it, each text has the tokens and
the outcome that it has without. -/
theorem lookedUp_iff_live {table : Table} (htable : table.WellFormed) :
    (∀ s ∈ table.spellings,
      (∃ text, ∃ t ∈ tokenize table text, t.LooksUp table s) ↔ IsLiveSpelling s) ∧
    ∀ s c, s ≠ "" → ¬ IsLiveSpelling s →
      (∀ entry ∈ table.entries, entry.2.label = c.label → entry.2.kind = c.kind) →
      ∃ ext : Table, table.valued.extend [(.text s, c.valued.toData)] = .ok ext.valued ∧
        ext.get? s = some c ∧
        ∀ text, tokenize ext text = tokenize table text ∧
          Formula.parse ext text = Formula.parse table text := by
  constructor
  · intro s hs
    constructor
    · rintro ⟨text, t, ht, hlooksUp⟩
      exact hlooksUp.isLiveSpelling htable ht
    · intro hlive
      obtain ⟨⟨s', c⟩, hmem, rfl⟩ := List.mem_map.1 hs
      exact Token.exists_looksUp hlive (htable.get?_eq_some_iff.2 hmem)
  · intro s c hs hdead hlabel
    have hext := htable.insert hs hlabel
    refine ⟨_, Table.extend_of_label htable hs hlabel, ?_, fun text => ?_⟩
    · rw [Table.get?_insert, if_pos rfl]
    · have htokens := tokenize_congr_live hext htable (Table.agreeLive_insert hdead) text
      exact ⟨htokens, Formula.parse_congr_tokens hext htable htokens⟩

/-- A backslash as an operator is written after another backslash. An operator of two symbols cannot be
written at all, and a quantifier that is called `phi` is never found. -/
theorem lookedUp_iff_live_backslash :
    let table : Table := ⟨[("\\", .predicate "eq" .infixOp), ("<=", .predicate "le" .infixOp)]⟩
    table.WellFormed ∧ (∃ text, ∃ t ∈ tokenize table text, t.LooksUp table "\\") ∧
      (¬ ∃ text, ∃ t ∈ tokenize table text, t.LooksUp table "<=") ∧
      ∃ ext : Table,
        table.valued.extend [(.text "phi", (Construct.quantifier "all").valued.toData)] =
          .ok ext.valued ∧
        ext.get? "phi" = some (.quantifier "all") ∧
        ∀ text, tokenize ext text = tokenize table text ∧
          Formula.parse ext text = Formula.parse table text := by
  intro table
  have htable : table.WellFormed := ⟨by decide, by decide, by decide⟩
  have hbackslash : IsLiveSpelling "\\" := Or.inl rfl
  have hpair : ¬ IsLiveSpelling "<=" := by rw [IsLiveSpelling]; decide
  have hphi : ¬ IsLiveSpelling "phi" := by rw [IsLiveSpelling]; decide
  obtain ⟨hlive, hdead⟩ := lookedUp_iff_live htable
  exact ⟨htable, (hlive "\\" (by decide)).2 hbackslash, fun h => hpair ((hlive "<=" (by decide)).1 h),
    hdead "phi" (.quantifier "all") (by decide) hphi (by decide)⟩

end LatexLogic
