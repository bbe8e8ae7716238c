import LambdaCalc.Proofs.Keyword.Hygiene
import LambdaCalc.Proofs.Keyword.Reachable
import LambdaCalc.Proofs.Node.Soundness

set_option autoImplicit false

/-! # The names of an expression

An expression that is made of a text, reduced or not, is well-formed: its references address
parameters and its names have entries (`KeywordTable.Yields.wellFormed`). Its names are legible:
each is shown as a word that can name a variable, and two names are shown alike only if they are
shown through one entry (`KeywordTable.Yields.legible`). For the second part one follows, through
the list of spellings, which entry a spelling without its qualifier ends up at
(`Binding.exists_target`). -/

namespace LambdaCalc

open Qualifier

/-! ## Where spellings are shown -/

namespace Binding

theorem nodup_meet {keys : List (Option String)} (h : keys.Nodup) (name : Option String) :
    (meet keys name).Nodup := by
  unfold meet
  split
  · exact h
  · next hnot =>
    rw [List.nodup_append]
    exact ⟨h, List.nodup_singleton _, fun key hkey name' hname heq =>
      hnot (List.mem_singleton.mp hname ▸ heq ▸ hkey)⟩

/-- No spelling is met twice. -/
theorem nodup_meetAll {keys : List (Option String)} (h : keys.Nodup) (tokens : List Token) :
    (meetAll keys tokens).Nodup := by
  induction tokens generalizing keys with
  | nil => exact h
  | cons token tokens ih =>
    refine @ih (meetToken keys token) ?_
    unfold meetToken
    split
    · exact nodup_meet h _
    · exact nodup_meet h _
    all_goals exact h

theorem find?_zipIdx {texts : List String} (h : texts.Nodup) {place : Nat} {text : String}
    (hplace : texts[place]? = some text) :
    OrderedTable.find? { entries := texts.zipIdx } text = some place := by
  cases hfind : OrderedTable.find? { entries := texts.zipIdx } text with
  | none =>
    have hmem : (text, place) ∈ texts.zipIdx := List.mk_mem_zipIdx_iff_getElem?.mpr hplace
    exact absurd (List.lookup_eq_none_iff.mp hfind _ hmem) (by simp)
  | some place' =>
    obtain ⟨before, after, hsplit, _⟩ := List.lookup_eq_some_iff.mp hfind
    have hmem : (text, place') ∈ before ++ (text, place') :: after :=
      List.mem_append_right _ List.mem_cons_self
    rw [← hsplit] at hmem
    have hplace' := List.mk_mem_zipIdx_iff_getElem?.mp hmem
    obtain ⟨hlt, _⟩ := List.getElem?_eq_some_iff.mp hplace
    rw [(List.getElem?_inj hlt h).mp (hplace.trans hplace'.symm)]

/-- Every spelling without its qualifier has a target, the entry that aliases show it through. -/
def Shows (target : String → Option Nat) (aliases : List (Nat × Nat)) (id : Nat)
    (spellings : List String) : Prop :=
  ∀ (place : Nat) (spelling : String), spellings[place]? = some spelling →
    target (short spelling) = some ((aliases.lookup (id + place)).getD (id + place))

theorem Shows.cons {target : String → Option Nat} {aliases : List (Nat × Nat)} {id : Nat}
    {first : String} {spellings : List String}
    (hfirst : target (short first) = some ((aliases.lookup id).getD id))
    (h : Shows target aliases (id + 1) spellings) :
    Shows target aliases id (first :: spellings) := by
  intro place spelling hplace
  cases place with
  | zero =>
    obtain rfl := Option.some.inj hplace
    exact hfirst
  | succ place =>
    have hnext : id + (place + 1) = id + 1 + place := by omega
    rw [hnext]
    exact h place spelling hplace

/-- An alias of an earlier entry changes nothing. -/
theorem Shows.alias {target : String → Option Nat} {aliases : List (Nat × Nat)} {id : Nat}
    {spellings : List String} (h : Shows target aliases (id + 1) spellings) (entry : Nat) :
    Shows target ((id, entry) :: aliases) (id + 1) spellings := by
  intro place spelling hplace
  have hne : (id + 1 + place == id) = false := beq_false_of_ne (by omega)
  rw [List.lookup_cons, hne]
  exact h place spelling hplace

/-- Spellings with the same rest behind their qualifiers are shown through the same entry, the one
    that is known for the rest if there is one: by induction on the spellings. -/
theorem exists_target {spellings : List String} {known : OrderedTable String Nat} {id : Nat}
    (hknown : ∀ (place : Nat) (spelling : String), spellings[place]? = some spelling →
      strip? spelling = none → known.find? spelling = some (id + place)) :
    ∃ target : String → Option Nat,
      (∀ spelling place, known.find? spelling = some place → target spelling = some place)
        ∧ Shows target (unqualifiedFrom known id spellings).2 id spellings := by
  induction spellings generalizing known id with
  | nil => exact ⟨known.find?, fun _ _ h => h, nofun⟩
  | cons first spellings ih =>
    have hlater (place : Nat) (spelling : String) (h : spellings[place]? = some spelling)
        (hspelling : strip? spelling = none) :
        known.find? spelling = some (id + 1 + place) := by
      have hnext : id + 1 + place = id + (place + 1) := by omega
      exact hnext ▸ hknown (place + 1) spelling h hspelling
    have hnone (known : OrderedTable String Nat) :
        (unqualifiedFrom known (id + 1) spellings).2.lookup id = none :=
      lookup_unqualifiedFrom_of_lt (Nat.lt_succ_self _)
    unfold unqualifiedFrom
    split
    · next hstrip =>
      obtain ⟨target, hextends, hshows⟩ := ih hlater
      refine ⟨target, hextends, hshows.cons ?_⟩
      rw [short_of_none hstrip, hextends _ _ (hknown 0 first rfl hstrip), hnone]
      rfl
    · next rest hstrip =>
      split
      · next hfind =>
        -- The rest becomes known, and it is none of the spellings without a qualifier.
        have hput {spelling : String} {place : Nat} (h : known.find? spelling = some place) :
            (known.put rest id).find? spelling = some place := by
          rw [OrderedTable.find?_put, if_neg, h]
          rintro rfl
          rw [hfind] at h
          cases h
        obtain ⟨target, hextends, hshows⟩ :=
          @ih (known.put rest id) (id + 1) fun place spelling h hspelling =>
            hput (hlater place spelling h hspelling)
        refine ⟨target, fun _ _ h => hextends _ _ (hput h), hshows.cons ?_⟩
        rw [short_of_some hstrip, hnone]
        exact hextends _ _ (by rw [OrderedTable.find?_put, if_pos rfl]; rfl)
      · next entry hfind =>
        obtain ⟨target, hextends, hshows⟩ := ih hlater
        refine ⟨target, hextends, (hshows.alias entry).cons ?_⟩
        rw [short_of_some hstrip, hextends _ _ hfind, List.lookup_cons_self]
        rfl

/-- Names with the same rest behind their qualifiers are shown through one entry. -/
theorem exists_canonical {spellings : Spellings} {names : NameTable}
    (h : nameTable spellings = .ok names) (hnodup : spellings.keys.Nodup) :
    ∃ target : String → Option Nat, ∀ (id : Nat) (spelling : String),
      spellings.keys[id]? = some (some spelling) →
        target (short spelling) = some (names.canonical id) := by
  obtain ⟨texts, hkeys, rfl⟩ := nameTable_eq_ok h
  rw [hkeys] at hnodup ⊢
  obtain ⟨target, _, htarget⟩ := @exists_target texts { entries := texts.zipIdx } 0
    fun place _ hget _ => by rw [Nat.zero_add]; exact find?_zipIdx hnodup.of_map hget
  refine ⟨target, fun id spelling hget => ?_⟩
  rw [List.getElem?_map] at hget
  obtain ⟨_, hget, ⟨⟩⟩ := Option.map_eq_some_iff.mp hget
  rw [htarget id spelling hget, Nat.zero_add]
  rfl

end Binding

/-! ## Legible names -/

/-- Every name is shown as a word that can name a variable, and names that are shown alike are shown
    through one entry. -/
structure NameTable.Legible (names : NameTable) : Prop where
  exists_spelling {id : Nat} : id < names.size →
    ∃ spelling, names.spelling (names.canonical id) = .ok spelling ∧ Word.isName spelling = true
  canonical_eq {id id' : Nat} : id < names.size → id' < names.size →
    names.spelling (names.canonical id) = names.spelling (names.canonical id') →
      names.canonical id = names.canonical id'

theorem NameTable.spelling_eq (names : NameTable) (id : Nat) :
    names.spelling id = names.spellings[id]?.elim (.error (.mishap .missingEntry)) .ok := by
  rw [NameTable.spelling, spellings, List.getElem?_map]
  cases names.entries[id]? <;> rfl

/-- Only the spellings and the aliases of a table count for how names are shown. -/
theorem NameTable.SameNames.legible {names names' : NameTable} (h : names'.SameNames names)
    (hlegible : names.Legible) : names'.Legible := by
  have hcanonical (id : Nat) : names'.canonical id = names.canonical id := by
    rw [canonical, canonical, h.2]
  have hspelling (id : Nat) : names'.spelling id = names.spelling id := by
    rw [spelling_eq, spelling_eq, h.1]
  constructor
  · intro id hid
    rw [hcanonical, hspelling]
    exact hlegible.exists_spelling (h.size_eq ▸ hid)
  · intro id id' hid hid' heq
    rw [hcanonical, hcanonical, hspelling, hspelling] at heq
    rw [hcanonical, hcanonical]
    exact hlegible.canonical_eq (h.size_eq ▸ hid) (h.size_eq ▸ hid') heq

namespace Expression

open Binding

theorem strip?_short_of_mem_meetAll {tokens : List Token}
    (hnamed : ∀ token ∈ tokens, token.Named Proper) {spelling : String}
    (hmem : some spelling ∈ meetAll [] tokens) : strip? (short spelling) = none := by
  obtain ⟨_, ⟨⟩, hproper⟩ := named_of_mem_meetAll hnamed (List.forall_mem_nil _) _ hmem
  exact hproper.strip?_short

/-- The names of proper tokens are legible in what is built from them. -/
theorem legible_of_ofTokens {room : Option Nat} {tokens : List Token} {expression : Expression}
    (h : ofTokensWithin room tokens = .ok expression)
    (hnamed : ∀ token ∈ tokens, token.Named Proper) : expression.names.Legible := by
  obtain ⟨_, spellings, _, _, hkeys, htable⟩ := exists_of_ofTokens h
  have hmet := @named_of_mem_meetAll _ _ hnamed [] (List.forall_mem_nil _)
  rw [← hkeys] at hmet
  have honce (spelling : String) (hmem : some spelling ∈ spellings.keys) :=
    strip?_short_of_mem_meetAll hnamed (hkeys ▸ hmem)
  have hid {id : Nat} (hlt : id < expression.names.size) : ∃ spelling,
      spellings.keys[id]? = some (some spelling) ∧ Proper spelling
        ∧ expression.names.spelling (expression.names.canonical id) = .ok (short spelling) := by
    rw [size_nameTable htable] at hlt
    have hget := List.getElem?_eq_getElem hlt
    obtain ⟨spelling, heq, hproper⟩ := hmet _ (List.getElem_mem hlt)
    rw [heq] at hget
    exact ⟨spelling, hget, hproper, spelling_canonical htable honce hget⟩
  refine ⟨fun hlt => ?_, fun {id id'} hlt hlt' heq => ?_⟩
  · obtain ⟨spelling, _, hproper, hspelling⟩ := hid hlt
    exact ⟨short spelling, hspelling, hproper.isName_short⟩
  · obtain ⟨spelling, hget, _, hspelling⟩ := hid hlt
    obtain ⟨spelling', hget', _, hspelling'⟩ := hid hlt'
    rw [hspelling, hspelling', Except.ok.injEq] at heq
    -- Both spellings have the same rest, which is shown through one entry.
    obtain ⟨target, htarget⟩ :=
      exists_canonical htable (hkeys ▸ nodup_meetAll List.nodup_nil tokens)
    exact Option.some.inj ((htarget id spelling hget).symm.trans (heq ▸ htarget id' _ hget'))

/-- Every reference in the tree addresses a parameter, and every name has an entry. -/
structure WellFormed (expression : Expression) : Prop where
  wellScoped : expression.root.WellScoped []
  namesWithin : expression.root.NamesWithin expression.names.size

theorem wellFormed_of_ofTokens {room : Option Nat} {tokens : List Token} {expression : Expression}
    (h : ofTokensWithin room tokens = .ok expression) : expression.WellFormed :=
  ⟨(ofTokens_spec h).1, (ofTokens_spec h).2.1⟩

/-- Reducing changes nothing but the counters of the names. -/
theorem WellFormed.sameNames {limits : Limits} {expression reduced : Expression}
    (h : expression.WellFormed) (hreduce : expression.reduce limits = .ok reduced) :
    reduced.names.SameNames expression.names := by
  obtain ⟨root, names, hrun, rfl⟩ := reduce_eq_ok_iff.mp hreduce
  exact (Node.reduceWithin_ensures h.namesWithin hrun).2

theorem WellFormed.reduce {limits : Limits} {expression reduced : Expression}
    (h : expression.WellFormed) (hreduce : expression.reduce limits = .ok reduced) :
    reduced.WellFormed := by
  have hsame := h.sameNames hreduce
  obtain ⟨root, names, hrun, rfl⟩ := reduce_eq_ok_iff.mp hreduce
  refine ⟨(Node.reduceWithin_sound _ _ hrun h.wellScoped).1, ?_⟩
  rw [hsame.size_eq]
  exact (Node.reduceWithin_ensures h.namesWithin hrun).1

end Expression

namespace KeywordTable

/-- What is made of a text is well-formed, by induction on how often it has been reduced. -/
theorem Yields.wellFormed {table : KeywordTable} {text : String} {expression : Expression}
    (h : table.Yields text expression) : expression.WellFormed := by
  induction h with
  | built _ hbuilt => exact Expression.wellFormed_of_ofTokens hbuilt
  | reduced _ hreduce ih => exact ih.reduce hreduce

theorem Yields.legible {table : KeywordTable} (htable : table.Reachable) {text : String}
    {expression : Expression} (h : table.Yields text expression) : expression.names.Legible := by
  induction h with
  | built htokens hbuilt =>
    exact Expression.legible_of_ofTokens hbuilt (htable.named_tokenize htokens)
  | reduced hyields hreduce ih => exact (hyields.wellFormed.sameNames hreduce).legible ih

end KeywordTable

end LambdaCalc
