import LambdaCalc.Proofs.Keyword.Hygiene
import LambdaCalc.Proofs.Layout.Lexemes

set_option autoImplicit false

/-! # Reading the text of a layout

The text of a readable layout is the text of its phrase (`Layout.Readable.phrase_ofText`), and it
can be read without any keywords (`Layout.Readable.exists_tokenize`). What has been read is then
built into the phrase's λ-term, if its names are good (`Phrase.WellNamed.exists_shown`). -/

namespace LambdaCalc

/-! ## The phrase of the lexemes -/

namespace Phrase

/-- The lexemes of the content of a group, up to where it ends. -/
def Contains (lexemes : List Lexeme) (phrase : Phrase String) : Prop :=
  ∀ rest, (ofLexemes false rest).1 = .done →
    ofLexemes false (lexemes ++ rest) = (phrase, (ofLexemes false rest).2)

variable {lexemes : List Lexeme} {phrase : Phrase String}

theorem contains_nil : Contains [] .done := fun _ hrest => Prod.ext hrest rfl

/-- Lexemes in parentheses are read as a group, whatever comes behind it. -/
theorem Contains.ofLexemes_enclose (h : Contains lexemes phrase) (rest : List Lexeme) :
    ofLexemes false (Lexeme.enclose true lexemes ++ rest)
      = (group phrase (ofLexemes false rest).1, (ofLexemes false rest).2) := by
  have hlexemes : Lexeme.enclose true lexemes ++ rest
      = .opening :: (lexemes ++ .closing :: rest) := by simp [Lexeme.enclose]
  rw [hlexemes, ofLexemes, h (.closing :: rest) rfl]
  rfl

theorem Contains.grouped (h : Contains lexemes phrase) (parentheses : Bool) :
    Contains (Lexeme.enclose parentheses lexemes) (phrase.grouped parentheses) := by
  cases parentheses with
  | false => exact h
  | true =>
    intro rest hrest
    rw [h.ofLexemes_enclose, hrest]
    rfl

theorem Contains.lams (h : Contains lexemes phrase) (names : List String) :
    Contains (Lexeme.ofBinders names ++ lexemes) (lams names phrase) := by
  induction names with
  | nil => exact h
  | cons name names ih =>
    intro rest hrest
    show ofLexemes false (.lambda 'λ' :: .word name :: .dot ::
      (Lexeme.ofBinders names ++ lexemes ++ rest)) = _
    rw [ofLexemes, ofLexemes, ofLexemes, ih rest hrest]
    rfl

end Phrase

namespace Layout

open Phrase

theorem contains_lexemesList {elements : List (Layout String)}
    (h : ∀ element ∈ elements, ∀ rest, ofLexemes false (element.lexemes true ++ rest)
      = (element.before (ofLexemes false rest).1, (ofLexemes false rest).2)) :
    Contains (lexemesList elements) (phraseList elements) := by
  induction elements with
  | nil => exact contains_nil
  | cons element elements ih =>
    obtain ⟨helement, hothers⟩ := List.forall_mem_cons.mp h
    intro rest hrest
    rw [lexemesList, List.append_assoc, helement, ih hothers rest hrest]
    rfl

/-- The lexemes of an element are read as the element in front of what is read behind it: by
    induction on the layout. -/
theorem ofLexemes_lexemes (layout : Layout String) (rest : List Lexeme) :
    ofLexemes false (layout.lexemes true ++ rest)
      = (layout.before (ofLexemes false rest).1, (ofLexemes false rest).2) := by
  induction layout generalizing rest with
  | abs binders elements ih =>
    exact (((contains_lexemesList ih).grouped _).lams binders).ofLexemes_enclose rest
  | bound _ _ name | free name => rfl

/-- The text of a readable layout is read as its phrase. -/
theorem Readable.phrase_ofText {layout : Layout String} (h : layout.Readable) :
    Phrase.ofText (layout.text false) = layout.phrase := by
  rw [Phrase.ofText, h.ofText_text]
  cases layout with
  | abs binders elements =>
    have helements := contains_lexemesList fun element (_ : element ∈ elements) =>
      ofLexemes_lexemes element
    have hcontains := (helements.grouped (parentheses binders elements)).lams binders [] rfl
    rw [List.append_nil] at hcontains
    exact congrArg Prod.fst hcontains
  | bound _ _ name | free name => rfl

end Layout

/-! ## Reading without keywords -/

namespace TextReading

variable {reading reading' : TextReading}

/-- More tokens have been written, in parentheses that are as deep as before. -/
structure Advances (reading reading' : TextReading) : Prop where
  spine : reading'.mode = .spine
  depth_eq : reading'.depth = reading.depth
  size_lt : reading.tokens.size < reading'.tokens.size

theorem Advances.trans {reading'' : TextReading} (h : reading.Advances reading')
    (h' : reading'.Advances reading'') : reading.Advances reading'' :=
  ⟨h'.spine, h'.depth_eq.trans h.depth_eq, h.size_lt.trans h'.size_lt⟩

/-- Lexemes that can be read in a spine. -/
def Accepts (lexemes : List Lexeme) : Prop :=
  ∀ reading : TextReading, reading.mode = .spine →
    ∃ reading', lexemes.foldlM (step {} none) reading = .ok reading' ∧ reading.Advances reading'

variable {lexemes : List Lexeme}

theorem Accepts.append {others : List Lexeme} (h : Accepts lexemes) (hothers : Accepts others) :
    Accepts (lexemes ++ others) := by
  intro reading hmode
  obtain ⟨between, hrun, hadvances⟩ := h reading hmode
  obtain ⟨reading', hrun', hadvances'⟩ := hothers between hadvances.spine
  refine ⟨reading', ?_, hadvances.trans hadvances'⟩
  rw [List.foldlM_append]
  exact Outcome.bind_eq_ok.mpr ⟨between, hrun, hrun'⟩

theorem accepts_word {word : String} (h : Word.isName word = true) : Accepts [.word word] := by
  intro reading hmode
  have htokens : wordTokens {} none reading word = .ok [.var word] := by
    simp [wordTokens, OrderedTable.find?, Word.not_isNumber_of_isName h, h, Qualifier.qualify]
  refine ⟨reading.emit [.var word], ?_, hmode, rfl, by simp [emit]⟩
  simp only [List.foldlM_cons, List.foldlM_nil, step, hmode, htokens]
  rfl

theorem Accepts.enclose (h : Accepts lexemes) (parentheses : Bool) :
    Accepts (Lexeme.enclose parentheses lexemes) := by
  cases parentheses with
  | false => exact h
  | true =>
    intro reading hmode
    obtain ⟨inner, hrun, hadvances⟩ :=
      h { reading.emit [.opening] with depth := reading.depth + 1 } hmode
    have hopening : step {} none reading .opening
        = .ok { reading.emit [.opening] with depth := reading.depth + 1 } := by
      simp only [step, requireSpine, hmode]
      rfl
    -- The lexemes inside leave the depth as it was, so that the closing parenthesis has a partner.
    have hclosing : step {} none inner .closing
        = .ok { inner.emit [.closing] with
            depth := reading.depth
            bound := inner.bound.filter (·.2 ≤ reading.depth) } := by
      simp only [step, requireSpine, hadvances.spine, hadvances.depth_eq]
      rfl
    refine ⟨{ inner.emit [.closing] with
      depth := reading.depth
      bound := inner.bound.filter (·.2 ≤ reading.depth) }, ?_, hadvances.spine, rfl, ?_⟩
    · have hlexemes : Lexeme.enclose true lexemes = .opening :: (lexemes ++ [.closing]) := rfl
      rw [hlexemes, List.foldlM_cons]
      refine Outcome.bind_eq_ok.mpr ⟨_, hopening, ?_⟩
      rw [List.foldlM_append]
      exact Outcome.bind_eq_ok.mpr ⟨inner, hrun, Outcome.bind_eq_ok.mpr ⟨_, hclosing, rfl⟩⟩
    · have hsize := hadvances.size_lt
      simp [emit] at hsize ⊢
      omega

theorem accepts_binder {name : String} (h : Word.isName name = true) :
    Accepts [.lambda 'λ', .word name, .dot] := by
  intro reading hmode
  refine ⟨{ reading.emit [.func name] with
    mode := .spine
    bound := reading.bound ++ [(name, reading.depth)] }, ?_, rfl, rfl, by simp [emit]⟩
  have hparameter (reading : TextReading) : readParameter {} none reading name
      = .ok { reading.emit [.func name] with
          mode := .moreParameters
          bound := reading.bound ++ [(name, reading.depth)] } := by
    simp [readParameter, h, OrderedTable.contains, OrderedTable.find?, Qualifier.qualify]
  simp only [List.foldlM_cons, List.foldlM_nil, step, requireSpine, hmode]
  show (readParameter {} none _ name >>= fun reading => _) = _
  rw [hparameter]
  rfl

theorem Accepts.binders {names : List String} (h : ∀ name ∈ names, Word.isName name = true)
    (hbody : Accepts lexemes) : Accepts (Lexeme.ofBinders names ++ lexemes) := by
  induction names with
  | nil => exact hbody
  | cons name names ih =>
    obtain ⟨hname, hnames⟩ := List.forall_mem_cons.mp h
    exact (accepts_binder hname).append (ih hnames)

end TextReading

namespace Layout

open TextReading

theorem accepts_elements {elements : List (Layout String)} (hne : elements ≠ [])
    (h : ∀ element ∈ elements, Accepts (element.lexemes true)) :
    Accepts (lexemesList elements) := by
  induction elements, hne using List.recNeNil with
  | singleton element =>
    rw [lexemesList, lexemesList, List.append_nil]
    exact h element List.mem_cons_self
  | cons element elements _ ih =>
    obtain ⟨hfirst, hothers⟩ := List.forall_mem_cons.mp h
    exact hfirst.append (ih hothers)

/-- The lexemes of a readable layout can be read: by induction on the layout. -/
theorem Readable.accepts {layout : Layout String} (h : layout.Readable) (nested : Bool) :
    Accepts (layout.lexemes nested) := by
  induction layout generalizing nested with
  | abs binders elements ih =>
    obtain ⟨hnames, hne, helements⟩ := readable_abs.mp h
    have hbody := accepts_elements hne fun element hmem => ih element hmem (helements element hmem)
      true
    exact ((hbody.enclose _).binders hnames).enclose nested
  | bound _ _ name | free name => exact accepts_word h

/-- The text of a readable layout can be read. -/
theorem Readable.exists_tokenize {layout : Layout String} (h : layout.Readable) :
    ∃ tokens, KeywordTable.tokenize {} (layout.text false) = .ok tokens ∧ tokens ≠ [] := by
  obtain ⟨reading, hrun, hadvances⟩ := h.accepts false {} rfl
  have hwritten : reading.tokens.isEmpty = false := by
    rw [Array.isEmpty, decide_eq_false_iff_not]
    exact Nat.ne_of_gt hadvances.size_lt
  have hresult : reading.result = .ok ([.opening] ++ reading.tokens.toList
      ++ List.replicate reading.depth .closing ++ [.closing]) := by
    rw [result, hadvances.spine, hwritten]
    rfl
  refine ⟨_, Outcome.bind_eq_ok.mpr ⟨reading, ?_, hresult⟩, ?_⟩
  · rw [h.ofText_text]
    exact hrun
  · exact List.cons_ne_nil _ _

end Layout

/-! ## Building what has been read -/

/-- A text of names only that is well-named is built into what it spells. -/
theorem Phrase.WellNamed.exists_shown {text : String} (h : (ofText text).WellNamed)
    (hnames : ∀ word ∈ (ofText text).names, Word.isName word = true) {tokens : List Token}
    (htokens : KeywordTable.tokenize {} text = .ok tokens) (hne : tokens ≠ []) :
    ∃ expression, Expression.ofTokens tokens = .ok expression
      ∧ expression.shown = ((ofText text).term []).map .ok := by
  have hsound := History.sound_ofCommands []
  have hkeyword : ∀ name ∈ (none : Option String), Word.IsKeyword name := nofun
  obtain ⟨hspells, hnamed, _⟩ := hsound.spells_tokenize hkeyword htokens hne
  have hexpand : (History.ofCommands []).expand none (ofText text)
      = (ofText text).map ((History.ofCommands []).own none) := by
    refine expand_eq_map [] fun word hmem => Option.map_eq_none_iff.mpr ?_
    exact History.body?_eq_none_iff.mp (hsound.spells.name rfl (hnames word hmem))
  have hown : ¬ (ofText text).Clash ((History.ofCommands []).own none) :=
    h.not_clash fun _ _ _ _ heq => History.own_injective _ _ heq
  have hclash : ¬ ((ofText text).map ((History.ofCommands []).own none)).Clash
      fun name => some name.spelling := by
    refine (wellNamed_map hown).not_clash ?_
    rw [names_map]
    intro first hfirst second hsecond heq
    obtain ⟨word, _, rfl⟩ := List.mem_map.mp hfirst
    obtain ⟨word', _, rfl⟩ := List.mem_map.mp hsecond
    exact congrArg _ (Option.some.inj heq)
  rw [hexpand] at hspells
  obtain ⟨expression, hbuilt, hshown⟩ := (hspells.exists_shown_iff hnamed hne).mpr hclash
  refine ⟨expression, hbuilt, hshown.trans ?_⟩
  rw [term_map hown, Term.map_map]
  exact term_map_congr fun word hmem =>
    congrArg Except.ok (Qualifier.short_of_none (Qualifier.strip?_of_isName (hnames word hmem)))

end LambdaCalc
