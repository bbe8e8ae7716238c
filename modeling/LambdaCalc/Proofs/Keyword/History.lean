import LambdaCalc.Proofs.Keyword.Define
import LambdaCalc.Proofs.Keyword.Numeral
import LambdaCalc.Proofs.Keyword.Qualified

set_option autoImplicit false

/-! # Histories of keywords

Keywords are defined and erased one after the other. Beside the table, a `History` keeps an account
of what each keyword stands for (`Snapshot`): the λ-term that its body denoted when it was defined,
and the body with everything in it expanded, where every name is marked by the definition in which
it is written.

The account is right after every sequence of commands (`History.sound_ofCommands`): the tokens of a
keyword spell its expanded body, and the λ-term of that is what the keyword stands for, as long as
names of different definitions are told apart. -/

namespace LambdaCalc

open Qualifier

/-! ## What keywords stand for -/

/-- A name with the place of the definition in which it is written; the names in numbers have
    none. -/
structure Written where
  place : Option Nat
  spelling : String
deriving DecidableEq, Repr

/-- What a keyword stands for: a λ-term, and its body with everything in it expanded. -/
structure Snapshot where
  term : Term String
  body : Phrase Written
deriving DecidableEq, Repr

/-- What a number stands for. -/
def Snapshot.numeral (value : Nat) : Snapshot where
  term := Numeral.term value
  body := Numeral.phrase ⟨none, Numeral.function⟩ ⟨none, Numeral.base⟩ value

/-- A command that changes the keywords. -/
inductive Command where
  | define (name source : String)
  | erase (name : String)
deriving DecidableEq, Repr

/-- The keywords after some commands, what they stand for, and the bodies that have been defined, in
    order. -/
structure History where
  table : KeywordTable := {}
  snapshots : OrderedTable String Snapshot := {}
  bodies : List (Phrase String) := []

namespace History

/-- What a word stands for, if it is not just a name. -/
def snapshot? (history : History) (word : String) : Option Snapshot :=
  match history.snapshots.find? word with
  | some snapshot => some snapshot
  | none => if Word.isNumber word then some (.numeral (Word.number word)) else none

/-- The λ-term of a phrase: that of its words, with λ-terms in the place of those that are free and
    stand for one. -/
def denote (history : History) (phrase : Phrase String) : Term String :=
  (phrase.term []).replace fun word => ((history.snapshot? word).map (·.term)).getD (.free word)

/-- A name as it is written in the definition that comes next. -/
def own (history : History) (keyword : Option String) (word : String) : Written :=
  ⟨some history.bodies.length, qualify keyword word⟩

/-- A phrase in the body of a keyword, or outside of all keywords, with everything expanded. -/
def expand (history : History) (keyword : Option String) (phrase : Phrase String) :
    Phrase Written :=
  phrase.expand (history.own keyword) (fun word => (history.snapshot? word).map (·.body)) []

/-- Give a command. What a definition that is refused leaves of the table is kept. -/
def step (history : History) : Command → History
  | .define name source =>
      match (KeywordTable.add name source).run history.table with
      | (.ok (), table) =>
          let body := Phrase.ofText (Text.trim source)
          { table
            snapshots := history.snapshots.put (Text.trim name)
              { term := history.denote body, body := history.expand (some (Text.trim name)) body }
            bodies := history.bodies ++ [body] }
      | (.error _, table) => { history with table }
  | .erase name =>
      { history with
        table := history.table.erase name
        snapshots := history.snapshots.erase (Text.trim name) }

/-- The keywords after a sequence of commands, none of them being there at the start. -/
def ofCommands (commands : List Command) : History := commands.foldl step {}

end History

/-! ## What is right about an account -/

/-- A name is bound where it is written. -/
def Written.BoundIn (bodies : List (Phrase String)) (name : Written) : Prop :=
  ∀ place, name.place = some place →
    ∃ body, bodies[place]? = some body ∧ short name.spelling ∈ body.binders

/-- A name is free where it is written. -/
def Written.FreeIn (bodies : List (Phrase String)) (name : Written) : Prop :=
  ∃ place body, name.place = some place ∧ bodies[place]? = some body
    ∧ short name.spelling ∈ body.free []

/-- The λ-term of a snapshot is that of its body, and the names in it are bound and free where they
    are written. -/
structure Snapshot.Sound (bodies : List (Phrase String)) (snapshot : Snapshot) : Prop where
  term_eq : (snapshot.body.term []).map (fun name => short name.spelling) = snapshot.term
  boundIn : ∀ name ∈ snapshot.body.binders, name.BoundIn bodies
  freeIn : ∀ name ∈ snapshot.body.free [], name.FreeIn bodies
  nestings_ne : (∀ body ∈ bodies, body.WellNamed) →
    ∀ pair ∈ snapshot.body.nestings [], pair.1 ≠ pair.2

/-- The tokens of keywords spell the bodies of their snapshots. -/
structure History.Sound (history : History) : Prop where
  snapshot {word : String} {snapshot : Snapshot} :
    history.snapshots.find? word = some snapshot → snapshot.Sound history.bodies
  keyword {word : String} {found : List Token} : history.table.keywords.find? word = some found →
    ∃ snapshot, history.snapshots.find? word = some snapshot
      ∧ Phrase.Spells found (snapshot.body.map fun name => some name.spelling)
      ∧ ∀ token ∈ found, token.Named fun spelling => strip? (short spelling) = none
  none_of_none {word : String} : history.table.keywords.find? word = none →
    history.snapshots.find? word = none

/-! ## Further definitions leave snapshots as they are -/

section

variable {bodies : List (Phrase String)} {name : Written}

theorem Written.BoundIn.append (h : name.BoundIn bodies) (more : List (Phrase String)) :
    name.BoundIn (bodies ++ more) := by
  intro place hplace
  obtain ⟨body, hbody, hmem⟩ := h place hplace
  refine ⟨body, ?_, hmem⟩
  rw [List.getElem?_append_left (List.getElem?_eq_some_iff.mp hbody).1, hbody]

theorem Written.FreeIn.append (h : name.FreeIn bodies) (more : List (Phrase String)) :
    name.FreeIn (bodies ++ more) := by
  obtain ⟨place, body, hplace, hbody, hmem⟩ := h
  refine ⟨place, body, hplace, ?_, hmem⟩
  rw [List.getElem?_append_left (List.getElem?_eq_some_iff.mp hbody).1, hbody]

/-- What comes next is not written yet. -/
theorem Written.BoundIn.place_ne (h : name.BoundIn bodies) : name.place ≠ some bodies.length := by
  intro hplace
  obtain ⟨body, hbody, _⟩ := h _ hplace
  exact absurd (List.getElem?_eq_some_iff.mp hbody).1 (Nat.lt_irrefl _)

theorem Written.FreeIn.place_ne (h : name.FreeIn bodies) : name.place ≠ some bodies.length := by
  obtain ⟨place, body, hplace, hbody, _⟩ := h
  rw [hplace]
  intro heq
  obtain rfl := Option.some.inj heq
  exact absurd (List.getElem?_eq_some_iff.mp hbody).1 (Nat.lt_irrefl _)

theorem Snapshot.Sound.append {snapshot : Snapshot} (h : snapshot.Sound bodies)
    (more : List (Phrase String)) : snapshot.Sound (bodies ++ more) where
  term_eq := h.term_eq
  boundIn name hname := (h.boundIn name hname).append more
  freeIn name hname := (h.freeIn name hname).append more
  nestings_ne hbodies := h.nestings_ne fun body hbody => hbodies body (List.mem_append_left _ hbody)

theorem Snapshot.Sound.place_ne {snapshot : Snapshot} (h : snapshot.Sound bodies)
    (hname : name ∈ snapshot.body.names) : name.place ≠ some bodies.length := by
  rcases @Phrase.mem_names_cases _ _ [] _ _ hname with hscope | hbinder | hfree
  · cases hscope
  · exact (h.boundIn name hbinder).place_ne
  · exact (h.freeIn name hfree).place_ne

/-- If every body is well-named, so is what snapshots expand to. -/
theorem Snapshot.Sound.wellNamed {snapshot : Snapshot} (h : snapshot.Sound bodies)
    (hbodies : ∀ body ∈ bodies, body.WellNamed) : snapshot.body.WellNamed where
  nestings_ne := h.nestings_ne hbodies
  binders_not_free name hbinder hfree := by
    obtain ⟨place, body, hplace, hbody, hfree⟩ := h.freeIn name hfree
    obtain ⟨body', hbody', hbinder⟩ := h.boundIn name hbinder place hplace
    obtain rfl := Option.some.inj (hbody.symm.trans hbody')
    exact (hbodies body (List.mem_of_getElem? hbody)).binders_not_free _ hbinder hfree

end

theorem Snapshot.sound_numeral (bodies : List (Phrase String)) (value : Nat) :
    (Snapshot.numeral value).Sound bodies := by
  refine ⟨?_, ?_, ?_, fun _ => ?_⟩ <;> unfold Snapshot.numeral
  · rw [Numeral.term_phrase (by decide), Numeral.map_term]
  · rw [Numeral.binders_phrase]
    exact List.forall_mem_cons.mpr ⟨nofun, List.forall_mem_singleton.mpr nofun⟩
  · rw [Numeral.free_phrase]
    exact nofun
  · rw [Numeral.nestings_phrase]
    exact List.forall_mem_singleton.mpr (by decide)

namespace History

variable {history : History}

theorem Sound.snapshot? (h : history.Sound) {word : String} {snapshot : Snapshot}
    (hword : history.snapshot? word = some snapshot) : snapshot.Sound history.bodies := by
  unfold History.snapshot? at hword
  split at hword
  · next hfind =>
    obtain rfl := Option.some.inj hword
    exact h.snapshot hfind
  · split at hword
    · obtain rfl := Option.some.inj hword
      exact Snapshot.sound_numeral _ _
    · cases hword

/-- What a word is spelled as. -/
def body? (history : History) (word : String) : Option (Phrase (Option String)) :=
  (history.snapshot? word).map fun snapshot => snapshot.body.map fun name => some name.spelling

theorem body?_eq_none_iff {word : String} :
    history.body? word = none ↔ history.snapshot? word = none := by
  rw [body?, Option.map_eq_none_iff]

/-- The tokens of words spell what they stand for. -/
theorem Sound.spells (h : history.Sound) :
    history.table.Spells (fun spelling => strip? (short spelling) = none) history.body? where
  keyword {word found} hfind := by
    obtain ⟨snapshot, hsnapshot, hspells, hnamed⟩ := h.keyword hfind
    refine ⟨_, ?_, hspells, hnamed⟩
    rw [body?, History.snapshot?, hsnapshot]
    rfl
  number {word tokens} hnone hnumber htokens := by
    unfold TextReading.numberTokens at htokens
    split at htokens
    · cases htokens
    · refine ⟨_, ?_, Numeral.spells_tokens htokens,
        Numeral.named_tokens (by decide +kernel) (by decide +kernel) htokens⟩
      rw [body?, History.snapshot?, h.none_of_none hnone]
      simp only [hnumber, if_true, Option.map_some, Snapshot.numeral, Numeral.map_phrase]
  name {word} hnone hname := by
    rw [body?_eq_none_iff, History.snapshot?, h.none_of_none hnone]
    simp only [Word.not_isNumber_of_isName hname, Bool.false_eq_true, if_false]

theorem own_injective (history : History) (keyword : Option String) :
    Function.Injective (history.own keyword) := fun _ _ heq =>
  qualify_injective keyword (congrArg Written.spelling heq)

/-- The phrases that are put in the place of words are bodies of sound snapshots. -/
theorem Sound.exists_of_body (h : history.Sound) {word : String} {inner : Phrase Written}
    (hword : (history.snapshot? word).map (·.body) = some inner) :
    ∃ snapshot, history.snapshot? word = some snapshot ∧ snapshot.body = inner
      ∧ snapshot.Sound history.bodies := by
  obtain ⟨snapshot, hsnapshot, rfl⟩ := Option.map_eq_some_iff.mp hword
  exact ⟨snapshot, hsnapshot, rfl, h.snapshot? hsnapshot⟩

/-- What a text is expanded to denotes what the text denotes. -/
theorem Sound.term_expand (h : history.Sound) {keyword : Option String}
    (hkeyword : ∀ name ∈ keyword, Word.IsKeyword name) {phrase : Phrase String}
    (hlegal : TextReading.Legal history.body? phrase) :
    ((history.expand keyword phrase).term []).map (fun name => short name.spelling)
      = history.denote phrase := by
  refine Phrase.term_expand (history.own_injective keyword) ?_ ?_ ?_ ?_
  · intro word inner hword y hy
    obtain ⟨snapshot, _, rfl, hsound⟩ := h.exists_of_body hword
    exact hsound.place_ne hy rfl
  · intro word
    cases hword : history.snapshot? word with
    | none => exact Term.closed_free word
    | some snapshot =>
      rw [Option.map_some, Option.getD_some, ← (h.snapshot? hword).term_eq]
      exact (Phrase.closed_term _).map _
  · intro word inner hword
    obtain ⟨snapshot, hsnapshot, rfl, hsound⟩ := h.exists_of_body hword
    rw [hsnapshot, Option.map_some, Option.getD_some, hsound.term_eq]
  · intro word hmem hword
    have hnone := Option.map_eq_none_iff.mp hword
    rw [hnone, own, short_qualify hkeyword (hlegal.2 word hmem (body?_eq_none_iff.mpr hnone))]
    rfl

/-- What a text denotes and what it is expanded to make a sound snapshot. -/
theorem Sound.expand (h : history.Sound) {keyword : Option String}
    (hkeyword : ∀ name ∈ keyword, Word.IsKeyword name) {phrase : Phrase String}
    (hlegal : TextReading.Legal history.body? phrase) :
    Snapshot.Sound (history.bodies ++ [phrase])
      { term := history.denote phrase, body := history.expand keyword phrase } := by
  have hplace : (history.bodies ++ [phrase])[history.bodies.length]? = some phrase :=
    List.getElem?_concat_length
  refine ⟨h.term_expand hkeyword hlegal, ?_, ?_, ?_⟩
  · intro name hname place hplace'
    rcases Phrase.mem_binders_expand hname with ⟨word, hword, rfl⟩ | ⟨word, inner, hword, hname⟩
    · obtain rfl := Option.some.inj hplace'
      refine ⟨phrase, hplace, ?_⟩
      show short (qualify keyword word) ∈ phrase.binders
      rw [short_qualify hkeyword (hlegal.1 word hword)]
      exact hword
    · obtain ⟨snapshot, _, rfl, hsound⟩ := h.exists_of_body hword
      exact (hsound.boundIn name hname).append [phrase] place hplace'
  · intro name hname
    rcases @Phrase.mem_free_expand _ _ _ _ _ _ [] _ _ hname with
      ⟨word, hword, hnone, rfl⟩ | ⟨word, inner, hword, hname⟩
    · refine ⟨_, phrase, rfl, hplace, ?_⟩
      have hbody := body?_eq_none_iff.mpr (Option.map_eq_none_iff.mp hnone)
      have hisName := hlegal.2 word (Phrase.free_subset_names [] phrase hword) hbody
      show short (qualify keyword word) ∈ phrase.free []
      rw [short_qualify hkeyword hisName]
      exact hword
    · obtain ⟨snapshot, _, rfl, hsound⟩ := h.exists_of_body hword
      exact (hsound.freeIn name hname).append [phrase]
  · intro hbodies pair hpair
    rcases @Phrase.mem_nestings_expand _ _ _ _ _ [] _ _ hpair with
      ⟨pair', hpair', rfl⟩ | ⟨word, inner, hword, hnesting | ⟨⟨y, hy⟩, hbinder⟩⟩
    · have hphrase := hbodies phrase (List.mem_append_right _ List.mem_cons_self)
      exact fun heq => hphrase.nestings_ne pair' hpair' (history.own_injective keyword heq)
    · obtain ⟨snapshot, _, rfl, hsound⟩ := h.exists_of_body hword
      exact hsound.nestings_ne (fun body hbody => hbodies body (List.mem_append_left _ hbody)) pair
        hnesting
    · obtain ⟨snapshot, _, rfl, hsound⟩ := h.exists_of_body hword
      -- The name that is bound inside was written in an earlier definition than the one around it.
      intro heq
      refine (hsound.boundIn _ hbinder).place_ne ?_
      rw [← heq, hy, own]

/-- The tokens of a text spell what it is expanded to. -/
theorem Sound.spells_tokenize (h : history.Sound) {keyword : Option String}
    (hkeyword : ∀ name ∈ keyword, Word.IsKeyword name) {text : String} {tokens : List Token}
    (htokens : history.table.tokenize text keyword = .ok tokens) (hne : tokens ≠ []) :
    Phrase.Spells tokens
        ((history.expand keyword (Phrase.ofText text)).map fun name => some name.spelling)
      ∧ (∀ token ∈ tokens, token.Named fun spelling => strip? (short spelling) = none)
      ∧ TextReading.Legal history.body? (Phrase.ofText text) := by
  have hgood (word : String) (hword : Word.isName word = true) :
      strip? (short (qualify keyword word)) = none := by
    rw [short_qualify hkeyword hword, strip?_of_isName hword]
  obtain ⟨hspells, hnamed, hlegal⟩ :=
    KeywordTable.spells_tokenize h.spells hgood htokens hne
  refine ⟨?_, hnamed, hlegal⟩
  rw [History.expand, Phrase.map_expand]
  simp only [Option.map_map]
  exact hspells

end History

/-! ## Every command keeps the account right -/

theorem KeywordTable.define_eq_ok {table table' : KeywordTable} {name source : String}
    (h : table.define name source = .ok table') :
    Word.IsKeyword (Text.trim name) ∧ ∃ tokens,
      table.tokenize (Text.trim source) (some (Text.trim name)) = .ok tokens ∧ tokens ≠ []
      ∧ table' = table.entered name source tokens := by
  rw [define_eq] at h
  split at h
  · cases h
  · next hkeyword =>
    obtain ⟨tokens, htokens, h⟩ := Outcome.bind_eq_ok.mp h
    split at h
    · cases h
    · next hempty =>
      obtain rfl := Except.ok.inj h
      have hname : Word.IsKeyword (Text.trim name) :=
        Bool.eq_true_of_not_eq_false fun hnot => hkeyword (by rw [hnot]; rfl)
      exact ⟨hname, tokens, htokens, by simpa using hempty, rfl⟩

namespace History

variable {history : History}

/-- A definition that is refused changes nothing. -/
theorem step_define (history : History) (name source : String) :
    history.step (.define name source)
      = match history.table.define name source with
        | .ok table =>
          { table
            snapshots := history.snapshots.put (Text.trim name)
              { term := history.denote (Phrase.ofText (Text.trim source))
                body := history.expand (some (Text.trim name)) (Phrase.ofText (Text.trim source)) }
            bodies := history.bodies ++ [Phrase.ofText (Text.trim source)] }
        | .error _ => history := by
  rw [step, KeywordTable.run_add]
  cases history.table.define name source with
  | ok table | error stop => rfl

/-- A keyword that is defined stands for what its source denotes; the others are left as they
    are. -/
theorem Sound.define (h : history.Sound) (name source : String) :
    (history.step (.define name source)).Sound := by
  rw [step_define]
  cases hdefine : history.table.define name source with
  | error stop => exact h
  | ok table =>
    obtain ⟨hkeyword, tokens, htokens, hne, rfl⟩ := KeywordTable.define_eq_ok hdefine
    have hname : ∀ name' ∈ some (Text.trim name), Word.IsKeyword name' := by
      rintro _ ⟨⟩
      exact hkeyword
    obtain ⟨hspells, hnamed, hlegal⟩ := h.spells_tokenize hname htokens hne
    refine ⟨?_, ?_, ?_⟩
    · intro word snapshot hfind
      rcases OrderedTable.of_find?_put hfind with ⟨_, rfl⟩ | ⟨_, hfind⟩
      · exact h.expand hname hlegal
      · exact (h.snapshot hfind).append _
    · intro word found hfind
      rw [OrderedTable.find?_put]
      rcases OrderedTable.of_find?_put hfind with ⟨hword, rfl⟩ | ⟨hword, hfind⟩
      · exact ⟨_, if_pos hword, hspells, hnamed⟩
      · rw [if_neg hword]
        exact h.keyword hfind
    · intro word hfind
      rw [KeywordTable.entered, OrderedTable.find?_put] at hfind
      rw [OrderedTable.find?_put]
      split at hfind
      · cases hfind
      · next hword =>
        rw [if_neg hword]
        exact h.none_of_none hfind

/-- The bodies of a keyword that is erased stay, since other keywords may go on using them. -/
theorem Sound.erase (h : history.Sound) (name : String) : (history.step (.erase name)).Sound := by
  refine ⟨?_, ?_, ?_⟩
  · intro word snapshot hfind
    exact h.snapshot (OrderedTable.of_find?_erase hfind).2
  · intro word found hfind
    obtain ⟨hword, hfind⟩ := OrderedTable.of_find?_erase hfind
    show ∃ snapshot, OrderedTable.find? (history.snapshots.erase _) word = some snapshot ∧ _
    rw [OrderedTable.find?_erase, if_neg hword]
    exact h.keyword hfind
  · intro word hfind
    change OrderedTable.find? (history.table.keywords.erase _) word = _ at hfind
    show OrderedTable.find? (history.snapshots.erase _) word = none
    rw [OrderedTable.find?_erase] at hfind ⊢
    split at hfind
    · next hword => rw [if_pos hword]
    · next hword =>
      rw [if_neg hword]
      exact h.none_of_none hfind

theorem Sound.step (h : history.Sound) (command : Command) : (history.step command).Sound := by
  cases command with
  | define name source => exact h.define name source
  | erase name => exact h.erase name

/-- The account is right after every sequence of commands. -/
theorem sound_ofCommands (commands : List Command) : (ofCommands commands).Sound := by
  have hrun (history : History) (h : history.Sound) :
      (commands.foldl History.step history).Sound := by
    induction commands generalizing history with
    | nil => exact h
    | cons command commands ih => exact ih _ (h.step command)
  exact hrun {} ⟨nofun, nofun, fun _ => rfl⟩

end History

end LambdaCalc
