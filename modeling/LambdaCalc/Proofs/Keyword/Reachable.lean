import LambdaCalc.Keyword.Prelude
import LambdaCalc.Proofs.Keyword.History

set_option autoImplicit false

/-! # Keyword tables that can be reached

Starting with the prelude or without it, keywords are defined and erased (`KeywordTable.Reachable`).
Whatever the commands have been, the keywords are words that can be one
(`KeywordTable.Reachable.isKeyword`), and the tokens of every text have names that are names without
their qualifiers (`KeywordTable.Reachable.named_tokenize`). -/

namespace LambdaCalc

open Qualifier

/-- The tables that can be reached by defining and erasing keywords, whether or not a definition is
    refused. -/
inductive KeywordTable.Reachable : KeywordTable → Prop where
  | initial {withPrelude : Bool} {table : KeywordTable} :
      KeywordTable.initial withPrelude = .ok table → Reachable table
  | add {table : KeywordTable} (name source : String) :
      Reachable table → Reachable ((KeywordTable.add name source).run table).2
  | create {table : KeywordTable} (name source : String) :
      Reachable table → Reachable ((KeywordTable.create name source).run table).2
  | erase {table : KeywordTable} {name : String} : Reachable table → Reachable (table.erase name)

theorem KeywordTable.Reachable.define {table table' : KeywordTable} {name source : String}
    (h : table.Reachable) (hdefine : table.define name source = .ok table') : table'.Reachable := by
  have hadd := h.add name source
  rwa [run_add, hdefine] at hadd

theorem KeywordTable.reachable_empty : KeywordTable.Reachable {} :=
  @KeywordTable.Reachable.initial false {} rfl

/-- The expressions of a text: built from its tokens within some room, and reduced any number of
    times within any limits. -/
inductive KeywordTable.Yields (table : KeywordTable) (text : String) : Expression → Prop where
  | built {room : Option Nat} {tokens : List Token} {expression : Expression} :
      table.tokenize text = .ok tokens → Expression.ofTokensWithin room tokens = .ok expression →
      Yields table text expression
  | reduced {limits : Limits} {expression reduced : Expression} : Yields table text expression →
      expression.reduce limits = .ok reduced → Yields table text reduced

/-- A spelling that is a name once its qualifier is taken off. -/
structure Qualifier.Proper (spelling : String) : Prop where
  isName_short : Word.isName (short spelling) = true
  oneLine : Text.OneLine spelling

instance : DecidablePred Proper := fun spelling =>
  decidable_of_iff (Word.isName (short spelling) = true ∧ Text.OneLine spelling)
    ⟨fun h => ⟨h.1, h.2⟩, fun h => ⟨h.1, h.2⟩⟩

theorem Qualifier.Proper.strip?_short {spelling : String} (h : Proper spelling) :
    strip? (short spelling) = none :=
  strip?_of_isName h.isName_short

theorem Qualifier.proper_qualify {keyword : Option String}
    (hkeyword : ∀ name ∈ keyword, Word.IsKeyword name) {word : String}
    (hword : Word.isName word = true) : Proper (qualify keyword word) where
  isName_short := by
    rw [short_qualify hkeyword hword]
    exact hword
  oneLine := oneLine_qualify hkeyword (Word.isKeyword_of_isName hword).oneLine

/-! ## What every command keeps -/

namespace KeywordTable

section

variable {P : KeywordTable → Prop}

theorem defineAll_keeps
    (hdefine : ∀ {table table' : KeywordTable} {name source : String}, P table →
      table.define name source = .ok table' → P table')
    {definitions : List (String × String)} {table table' : KeywordTable} (htable : P table)
    (h : table.defineAll definitions = .ok table') : P table' := by
  unfold KeywordTable.defineAll at h
  induction definitions generalizing table with
  | nil =>
    obtain rfl := Except.ok.inj h
    exact htable
  | cons definition definitions ih =>
    rw [List.foldlM_cons] at h
    obtain ⟨between, hfirst, hrest⟩ := Outcome.bind_eq_ok.mp h
    exact ih (hdefine htable hfirst) hrest

/-- What holds without keywords and is kept by defining and erasing one holds of all tables that can
    be reached. -/
theorem Reachable.keeps (hempty : P {})
    (hdefine : ∀ {table table' : KeywordTable} {name source : String}, P table →
      table.define name source = .ok table' → P table')
    (herase : ∀ {table : KeywordTable} (name : String), P table → P (table.erase name))
    {table : KeywordTable} (h : table.Reachable) : P table := by
  induction h with
  | @initial withPrelude table h =>
    cases withPrelude with
    | false =>
      obtain rfl := Except.ok.inj h
      exact hempty
    | true => exact defineAll_keeps hdefine hempty h
  | add name source _ ih =>
    rw [run_add]
    split
    · next hdefined => exact hdefine ih hdefined
    · exact ih
  | create name source _ ih =>
    rw [run_create]
    split
    · next hdefined => exact hdefine ih hdefined
    · exact ih
    · exact ih
  | erase _ ih => exact herase _ ih

end

/-- Every keyword is a word that can be one, whatever has been defined and erased. -/
theorem Reachable.isKeyword {table : KeywordTable} (h : table.Reachable) {word : String}
    {found : List Token} (hfind : table.keywords.find? word = some found) :
    Word.IsKeyword word := by
  suffices hall : ∀ word found, table.keywords.find? word = some found → Word.IsKeyword word from
    hall word found hfind
  refine h.keeps (P := fun table => ∀ word found, table.keywords.find? word = some found →
    Word.IsKeyword word) nofun ?_ ?_
  · intro table table' name source htable hdefine word found hfind
    obtain ⟨hkeyword, tokens, _, _, rfl⟩ := define_eq_ok hdefine
    rcases OrderedTable.of_find?_put hfind with ⟨hword, _⟩ | ⟨_, hfind⟩
    · exact hword ▸ hkeyword
    · exact htable word found hfind
  · intro table name htable word found hfind
    exact htable word found (OrderedTable.of_find?_erase hfind).2

end KeywordTable

/-! ## The names in the tokens of a text -/

/-- The tokens of every keyword have good names. -/
def KeywordTable.Named (Good : String → Prop) (table : KeywordTable) : Prop :=
  ∀ word found, table.keywords.find? word = some found → ∀ token ∈ found, token.Named Good

/-- The names of the parameters of a numeral are good. -/
def Numeral.Named (Good : String → Prop) : Prop := Good Numeral.function ∧ Good Numeral.base

theorem Numeral.named_proper : Numeral.Named Proper := by
  unfold Numeral.Named
  decide +kernel

namespace TextReading

variable {table : KeywordTable} {keyword : Option String} {reading reading' : TextReading}
  {Good : String → Prop}

theorem named_numberTokens (hnumeral : Numeral.Named Good) {word : String} {tokens : List Token}
    (h : numberTokens word = .ok tokens) : ∀ token ∈ tokens, token.Named Good := by
  unfold numberTokens at h
  split at h
  · cases h
  · exact Numeral.named_tokens hnumeral.1 hnumeral.2 h

theorem named_wordTokens (htable : table.Named Good) (hnumeral : Numeral.Named Good) {word : String}
    (hgood : Word.isName word = true → Good (qualify keyword word))
    (hvalid : reading.Valid table keyword) {tokens : List Token}
    (h : wordTokens table keyword reading word = .ok tokens) :
    ∀ token ∈ tokens, token.Named Good := by
  have hown (hname : Word.isName word = true) :
      ∀ token ∈ [Token.var (qualify keyword word)], token.Named Good :=
    List.forall_mem_singleton.mpr ⟨_, rfl, hgood hname⟩
  unfold wordTokens at h
  simp only at h
  split at h
  · next hbound =>
    obtain rfl := Except.ok.inj h
    simp only [Bool.and_eq_true, decide_eq_true_eq, List.any_eq_true, beq_iff_eq] at hbound
    obtain ⟨_, param, hmem, rfl⟩ := hbound
    exact hown (hvalid.isName param hmem)
  · split at h
    · next found hfind =>
      split at h
      · cases h
      · obtain rfl := Except.ok.inj h
        exact htable word found hfind
    · split at h
      · exact named_numberTokens hnumeral h
      · split at h
        · next hname =>
          obtain rfl := Except.ok.inj h
          exact hown hname
        · cases h

/-- Reading a lexeme writes tokens with good names. -/
theorem Reads.named (htable : table.Named Good) (hnumeral : Numeral.Named Good) {lexeme : Lexeme}
    (hgood : ∀ word, lexeme = .word word → Word.isName word = true → Good (qualify keyword word))
    (hvalid : reading.Valid table keyword)
    (hnamed : ∀ token ∈ reading.tokens.toList, token.Named Good)
    (h : Reads table keyword reading lexeme reading') :
    ∀ token ∈ reading'.tokens.toList, token.Named Good := by
  have hemit {tokens : List Token} (htokens : ∀ token ∈ tokens, token.Named Good) :
      ∀ token ∈ (reading.emit tokens).tokens.toList, token.Named Good := by
    rw [emit, Array.toList_appendList]
    exact List.forall_mem_append.mpr ⟨hnamed, htokens⟩
  cases h with
  | opening | closing => exact hemit (List.forall_mem_singleton.mpr trivial)
  | lambda | dot => exact hnamed
  | word _ htokens => exact hemit (named_wordTokens htable hnumeral (hgood _ rfl) hvalid htokens)
  | parameter _ hname =>
    exact hemit (List.forall_mem_singleton.mpr ⟨_, rfl, hgood _ rfl hname⟩)

/-- Reading a whole text: by induction on its lexemes. -/
theorem named_foldlM (htable : table.Named Good) (hnumeral : Numeral.Named Good)
    {lexemes : List Lexeme} (hgood : ∀ word, .word word ∈ lexemes → Word.isName word = true →
      Good (qualify keyword word)) (hvalid : reading.Valid table keyword)
    (hnamed : ∀ token ∈ reading.tokens.toList, token.Named Good)
    (h : lexemes.foldlM (step table keyword) reading = .ok reading') :
    ∀ token ∈ reading'.tokens.toList, token.Named Good := by
  induction lexemes generalizing reading with
  | nil =>
    obtain rfl := Except.ok.inj h
    exact hnamed
  | cons lexeme lexemes ih =>
    rw [List.foldlM_cons] at h
    obtain ⟨between, hstep, hrest⟩ := Outcome.bind_eq_ok.mp h
    have hreads := reads_of_step hstep
    have hwritten := hreads.named htable hnumeral
      (fun word heq => hgood word (heq ▸ List.mem_cons_self)) hvalid hnamed
    exact ih (fun word hmem => hgood word (List.mem_cons_of_mem _ hmem)) (hvalid.step hreads)
      hwritten hrest

end TextReading

namespace KeywordTable

variable {table table' : KeywordTable} {Good : String → Prop}

theorem Named.tokenize (htable : table.Named Good) (hnumeral : Numeral.Named Good)
    {keyword : Option String} {text : String}
    (hgood : ∀ word, .word word ∈ Lexeme.ofText text → Word.isName word = true →
      Good (qualify keyword word)) {tokens : List Token}
    (h : table.tokenize text keyword = .ok tokens) :
    ∀ token ∈ tokens, token.Named Good := by
  obtain ⟨reading, hrun, hresult⟩ := Outcome.bind_eq_ok.mp h
  have hvalid : TextReading.Valid table keyword {} := ⟨nofun, nofun, nofun⟩
  have hread := TextReading.named_foldlM htable hnumeral hgood hvalid (List.forall_mem_nil _) hrun
  unfold TextReading.result at hresult
  split_ifs at hresult
  · obtain rfl := Except.ok.inj hresult
    exact nofun
  · obtain rfl := Except.ok.inj hresult
    simp only [List.forall_mem_append, List.forall_mem_singleton]
    exact ⟨⟨⟨trivial, hread⟩, fun token hmem => List.eq_of_mem_replicate hmem ▸ trivial⟩, trivial⟩

/-! ## Every command keeps the names good -/

theorem Named.define (htable : table.Named Good) (hnumeral : Numeral.Named Good)
    {name source : String}
    (hgood : ∀ word, Word.isName word = true → Good (qualify (some (Text.trim name)) word))
    (h : table.define name source = .ok table') : table'.Named Good := by
  obtain ⟨_, tokens, htokens, _, rfl⟩ := define_eq_ok h
  intro word found hfind
  rcases OrderedTable.of_find?_put hfind with ⟨_, rfl⟩ | ⟨_, hfind⟩
  · exact htable.tokenize hnumeral (fun word _ => hgood word) htokens
  · exact htable word found hfind

theorem Named.erase (htable : table.Named Good) (name : String) :
    (table.erase name).Named Good := by
  intro word found hfind
  exact htable word found (OrderedTable.of_find?_erase hfind).2

theorem Reachable.named (h : table.Reachable) : table.Named Proper := by
  refine h.keeps nofun (fun htable hdefine => ?_) fun name htable => htable.erase name
  refine htable.define Numeral.named_proper (fun word hword => proper_qualify ?_ hword) hdefine
  rintro _ ⟨⟩
  exact (define_eq_ok hdefine).1

/-- The tokens of a text have proper names, whatever has been defined and erased. -/
theorem Reachable.named_tokenize (h : table.Reachable) {text : String} {tokens : List Token}
    (htokens : table.tokenize text = .ok tokens) : ∀ token ∈ tokens, token.Named Proper :=
  h.named.tokenize Numeral.named_proper
    (fun _ _ hword => proper_qualify (fun _ hmem => absurd hmem (Option.not_mem_none _)) hword)
    htokens

end KeywordTable

end LambdaCalc
