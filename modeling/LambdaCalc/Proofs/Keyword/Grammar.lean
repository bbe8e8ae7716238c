import LambdaCalc.Proofs.Keyword.Text
import LambdaCalc.Proofs.Layout.Lexemes

set_option autoImplicit false

/-! # The grammar of texts

Among the lexemes of a text, expressions are given by a grammar:

    expr ::= item*
    item ::= "(" expr ")" | "λ" var+ "." expr | var | number | keyword

A variable is a name that is no keyword, and the body of a `λ` extends as far as it can. A text can
be read exactly if its lexemes are an expression once the parentheses that it leaves open are closed
(`KeywordTable.tokenize_isOk_iff_expr`), and every character of it that is not blank belongs to a
lexeme. -/

namespace LambdaCalc

/-! ## Expressions -/

/-- A decimal number of at most 4300 digits, leading zeros included, that is at most 255. -/
structure Word.IsNumeral (word : String) : Prop where
  isNumber : isNumber word = true
  length_le : word.length ≤ 4300
  number_le : number word ≤ 255

namespace KeywordTable

/-- A name that may be bound, or used without being a keyword. -/
structure IsVariable (table : KeywordTable) (word : String) : Prop where
  isName : Word.isName word = true
  not_keyword : table.contains word = false

/-- The items that expressions are made of; `items.flatten` is the expression of some items. -/
inductive Item (table : KeywordTable) : List Lexeme → Prop where
  | group {items : List (List Lexeme)} (h : ∀ item ∈ items, Item table item) :
      Item table (.opening :: (items.flatten ++ [.closing]))
  | lambda (sign : Char) {params : List String} {items : List (List Lexeme)} (hne : params ≠ [])
      (hparams : ∀ param ∈ params, table.IsVariable param) (h : ∀ item ∈ items, Item table item) :
      Item table (.lambda sign :: (params.map .word ++ .dot :: items.flatten))
  | name {word : String} (h : table.IsVariable word) : Item table [.word word]
  | number {word : String} (h : Word.IsNumeral word) : Item table [.word word]
  | keyword {word : String} (h : table.contains word = true) : Item table [.word word]

/-- An expression is any number of items. -/
def Expr (table : KeywordTable) (lexemes : List Lexeme) : Prop :=
  ∃ items : List (List Lexeme), (∀ item ∈ items, table.Item item) ∧ items.flatten = lexemes

variable {table : KeywordTable}

theorem expr_nil : table.Expr [] := ⟨[], List.forall_mem_nil _, rfl⟩

theorem Item.ne_nil {item : List Lexeme} (h : table.Item item) : item ≠ [] := by
  cases h with
  | group | lambda | name | number | keyword => exact List.cons_ne_nil _ _

theorem Expr.append {first second : List Lexeme} (hfirst : table.Expr first)
    (hsecond : table.Expr second) : table.Expr (first ++ second) := by
  obtain ⟨items, hitems, rfl⟩ := hfirst
  obtain ⟨items', hitems', rfl⟩ := hsecond
  exact ⟨items ++ items', List.forall_mem_append.mpr ⟨hitems, hitems'⟩, List.flatten_append⟩

theorem Item.expr {item : List Lexeme} (h : table.Item item) : table.Expr item :=
  ⟨[item], List.forall_mem_singleton.mpr h, List.append_nil _⟩

/-- The first lexeme of an expression begins an item. -/
theorem Expr.exists_item {lexeme : Lexeme} {rest : List Lexeme}
    (h : table.Expr (lexeme :: rest)) :
    ∃ item others, table.Item (lexeme :: item) ∧ table.Expr others ∧ rest = item ++ others := by
  obtain ⟨items, hitems, hflatten⟩ := h
  cases items with
  | nil => cases hflatten
  | cons item items =>
    obtain ⟨hitem, hothers⟩ := List.forall_mem_cons.mp hitems
    cases item with
    | nil => exact absurd rfl hitem.ne_nil
    | cons first item =>
      obtain ⟨rfl, rfl⟩ := List.cons.inj hflatten
      exact ⟨item, items.flatten, hitem, ⟨items, hothers, rfl⟩, rfl⟩

theorem item_word_iff {word : String} :
    table.Item [.word word]
      ↔ table.IsVariable word ∨ Word.IsNumeral word ∨ table.contains word = true := by
  constructor
  · intro h
    cases h with
    | name h => exact Or.inl h
    | number h => exact Or.inr (Or.inl h)
    | keyword h => exact Or.inr (Or.inr h)
  · rintro (h | h | h)
    · exact .name h
    · exact .number h
    · exact .keyword h

/-! ## What completes a text -/

/-- An expression, then as many closing parentheses, each followed by another expression. -/
def Closes (table : KeywordTable) : (depth : Nat) → List Lexeme → Prop
  | 0, lexemes => table.Expr lexemes
  | depth + 1, lexemes =>
      ∃ body rest, table.Expr body ∧ Closes table depth rest ∧ lexemes = body ++ .closing :: rest

/-- Parameters and a dot, then what closes the parentheses. -/
def Binds (table : KeywordTable) (depth : Nat) (params : List String) (lexemes : List Lexeme) :
    Prop :=
  ∃ rest, (∀ param ∈ params, table.IsVariable param) ∧ table.Closes depth rest
    ∧ lexemes = params.map .word ++ .dot :: rest

/-- The lexemes that complete a text which has been read so far that the given mode and number of
    open parentheses are reached. -/
def Completes (table : KeywordTable) (depth : Nat) : ReadingMode → List Lexeme → Prop
  | .spine, lexemes => table.Closes depth lexemes
  | .firstParameter, lexemes => ∃ params, params ≠ [] ∧ table.Binds depth params lexemes
  | .moreParameters, lexemes => ∃ params, table.Binds depth params lexemes

theorem closes_replicate (depth : Nat) :
    table.Closes depth (List.replicate depth .closing) := by
  induction depth with
  | zero => exact expr_nil
  | succ depth ih => exact ⟨[], _, expr_nil, ih, rfl⟩

/-- An expression in front does not change what is closed behind it. -/
theorem Closes.expr_append {depth : Nat} {first lexemes : List Lexeme} (hfirst : table.Expr first)
    (h : table.Closes depth lexemes) : table.Closes depth (first ++ lexemes) := by
  cases depth with
  | zero => exact hfirst.append h
  | succ depth =>
    obtain ⟨body, rest, hbody, hrest, rfl⟩ := h
    exact ⟨first ++ body, rest, hfirst.append hbody, hrest, by rw [List.append_assoc]⟩

/-- What comes first is a closing parenthesis, or else begins an item. -/
theorem Closes.cases_cons {depth : Nat} {lexeme : Lexeme} {lexemes : List Lexeme}
    (h : table.Closes depth (lexeme :: lexemes)) :
    (lexeme = .closing ∧ ∃ depth', depth = depth' + 1 ∧ table.Closes depth' lexemes)
      ∨ ∃ item rest, table.Item (lexeme :: item) ∧ table.Closes depth rest
        ∧ lexemes = item ++ rest := by
  cases depth with
  | zero => exact Or.inr h.exists_item
  | succ depth =>
    obtain ⟨body, rest, hbody, hrest, heq⟩ := h
    cases body with
    | nil =>
      obtain ⟨rfl, rfl⟩ := List.cons.inj heq
      exact Or.inl ⟨rfl, depth, rfl, hrest⟩
    | cons first body =>
      obtain ⟨rfl, rfl⟩ := List.cons.inj heq
      obtain ⟨item, others, hitem, hothers, rfl⟩ := hbody.exists_item
      exact Or.inr ⟨item, others ++ .closing :: rest, hitem, ⟨others, rest, hothers, hrest, rfl⟩,
        List.append_assoc _ _ _⟩

end KeywordTable

namespace TextReading

open KeywordTable

variable {table : KeywordTable} {reading reading' : TextReading}

/-! ## One lexeme -/

/-- Outside of keyword bodies, the words that can be read in a spine are the items of one word. -/
theorem wordTokens_isOk_iff {word : String} :
    (∃ tokens, wordTokens table none reading word = .ok tokens) ↔ table.Item [.word word] := by
  have hnumber (hword : Word.isNumber word = true) :
      (∃ tokens, numberTokens word = .ok tokens) ↔ Word.IsNumeral word := by
    unfold numberTokens Numeral.tokens
    constructor
    · rintro ⟨tokens, h⟩
      split at h
      · cases h
      · next hlength =>
        split at h
        · cases h
        · next hvalue =>
          exact ⟨hword, by simpa [Mishap.digitLimit] using hlength,
            by simpa [Numeral.inputLimit] using hvalue⟩
    · rintro ⟨_, hlength, hvalue⟩
      rw [if_neg (by simpa [Mishap.digitLimit] using hlength),
        if_neg (by simpa [Numeral.inputLimit] using hvalue)]
      exact ⟨_, rfl⟩
  rw [item_word_iff]
  unfold wordTokens
  simp only [reduceCtorEq, decide_false, Bool.false_and, Bool.false_eq_true, if_false]
  cases hfind : table.keywords.find? word with
  | some found =>
    have hcontains : table.contains word = true := by
      rw [KeywordTable.contains, OrderedTable.contains, hfind]
      rfl
    exact ⟨fun _ => Or.inr (Or.inr hcontains), fun _ => ⟨_, rfl⟩⟩
  | none =>
    have hcontains : table.contains word = false := by
      rw [KeywordTable.contains, OrderedTable.contains, hfind]
      rfl
    simp only [hcontains, Bool.false_eq_true, or_false]
    -- What is no keyword is a number, a variable or neither, and never both.
    by_cases hisNumber : Word.isNumber word = true
    · have hnot : ¬ table.IsVariable word := fun h => by
        rw [Word.not_isNumber_of_isName h.isName] at hisNumber
        cases hisNumber
      simp only [hisNumber, if_true, hnumber, hnot, false_or]
    · have hnot : ¬ Word.IsNumeral word := fun h => hisNumber h.isNumber
      simp only [hisNumber, Bool.false_eq_true, if_false, hnot, or_false]
      by_cases hname : Word.isName word = true
      · simp only [hname, if_true]
        exact ⟨fun _ => ⟨hname, hcontains⟩, fun _ => ⟨_, rfl⟩⟩
      · simp only [hname]
        refine ⟨?_, fun h => absurd h.isName hname⟩
        rintro ⟨_, ⟨⟩⟩

/-- What completes a text behind a lexeme completes it together with the lexeme. -/
theorem Reads.completes {lexeme : Lexeme} {lexemes : List Lexeme}
    (hreads : Reads table none reading lexeme reading')
    (h : table.Completes reading'.depth reading'.mode lexemes) :
    table.Completes reading.depth reading.mode (lexeme :: lexemes) := by
  cases hreads with
  | opening hmode =>
    simp only [emit, hmode, Completes] at h ⊢
    obtain ⟨body, rest, ⟨items, hitems, rfl⟩, hrest, rfl⟩ := h
    have hgroup := (Item.group hitems).expr
    simpa using hrest.expr_append hgroup
  | closing hmode hdepth =>
    simp only [emit, hmode, Completes] at h
    rw [hmode, hdepth]
    exact ⟨[], lexemes, expr_nil, h, rfl⟩
  | lambda sign hmode =>
    rw [hmode]
    obtain ⟨params, hne, rest, hparams, hrest, rfl⟩ := h
    -- The body of the `λ` is the first expression of what closes the parentheses.
    cases hdepth : reading.depth with
    | zero =>
      simp only [hdepth] at hrest
      obtain ⟨items, hitems, rfl⟩ := hrest
      exact (Item.lambda sign hne hparams hitems).expr
    | succ depth =>
      simp only [hdepth] at hrest
      obtain ⟨body, behind, ⟨items, hitems, rfl⟩, hbehind, rfl⟩ := hrest
      exact ⟨_, behind, (Item.lambda sign hne hparams hitems).expr, hbehind, by simp⟩
  | dot hmode =>
    rw [hmode]
    exact ⟨[], lexemes, List.forall_mem_nil _, h, rfl⟩
  | word hmode htokens =>
    simp only [emit, hmode, Completes] at h ⊢
    exact h.expr_append (wordTokens_isOk_iff.mp ⟨_, htokens⟩).expr
  | @parameter word hmode hname hkeyword =>
    obtain ⟨params, rest, hparams, hrest, rfl⟩ := h
    have hword : table.IsVariable word := by
      refine ⟨hname, Bool.eq_false_iff.mpr fun hcontains => ?_⟩
      cases hkeyword hcontains
    have hbinds : table.Binds reading.depth (word :: params)
        (.word word :: (params.map .word ++ .dot :: rest)) :=
      ⟨rest, List.forall_mem_cons.mpr ⟨hword, hparams⟩, hrest, rfl⟩
    cases hreading : reading.mode with
    | spine => exact absurd hreading hmode
    | firstParameter => exact ⟨word :: params, List.cons_ne_nil _ _, hbinds⟩
    | moreParameters => exact ⟨word :: params, hbinds⟩

/-- A parameter is read where one can stand. -/
theorem step_parameter {word : String} (hmode : reading.mode ≠ .spine)
    (h : table.IsVariable word) :
    ∃ reading', step table none reading (.word word) = .ok reading'
      ∧ reading'.mode = .moreParameters ∧ reading'.depth = reading.depth := by
  have hkeyword : table.keywords.contains word = false := h.not_keyword
  refine ⟨{ reading.emit [.func word] with
    mode := .moreParameters, bound := reading.bound ++ [(word, reading.depth)] }, ?_, rfl, rfl⟩
  cases hreading : reading.mode with
  | spine => exact absurd hreading hmode
  | firstParameter | moreParameters =>
    simp only [step, hreading, readParameter, h.isName, hkeyword]
    rfl

/-- The first lexeme of what completes a text can be read, and the others complete it then. -/
theorem exists_step_of_completes {lexeme : Lexeme} {lexemes : List Lexeme}
    (h : table.Completes reading.depth reading.mode (lexeme :: lexemes)) :
    ∃ reading', step table none reading lexeme = .ok reading'
      ∧ table.Completes reading'.depth reading'.mode lexemes := by
  -- Among parameters the lexeme is the first of those that are still to come.
  have hbinds {params : List String} (hmode : reading.mode ≠ .spine) (hne : params ≠ [])
      (h : table.Binds reading.depth params (lexeme :: lexemes)) :
      ∃ reading', step table none reading lexeme = .ok reading'
        ∧ table.Completes reading'.depth reading'.mode lexemes := by
    obtain ⟨rest, hparams, hrest, heq⟩ := h
    cases params with
    | nil => exact absurd rfl hne
    | cons param params =>
      obtain ⟨rfl, rfl⟩ := List.cons.inj heq
      obtain ⟨hparam, hparams⟩ := List.forall_mem_cons.mp hparams
      obtain ⟨reading', hstep, hmode', hdepth⟩ := step_parameter hmode hparam
      refine ⟨reading', hstep, ?_⟩
      rw [hmode', hdepth]
      exact ⟨params, rest, hparams, hrest, rfl⟩
  cases hmode : reading.mode with
  | firstParameter =>
    rw [hmode] at h
    obtain ⟨params, hne, h⟩ := h
    exact hbinds (by simp [hmode]) hne h
  | moreParameters =>
    rw [hmode] at h
    obtain ⟨params, h⟩ := h
    by_cases hne : params = []
    · obtain ⟨rest, _, hrest, heq⟩ := h
      subst hne
      obtain ⟨rfl, rfl⟩ := List.cons.inj heq
      refine ⟨{ reading with mode := .spine }, ?_, hrest⟩
      simp only [step, hmode]
      rfl
    · exact hbinds (by simp [hmode]) hne h
  | spine =>
    rw [hmode] at h
    rcases h.cases_cons with ⟨rfl, depth, hdepth, hrest⟩ | ⟨item, rest, hitem, hrest, rfl⟩
    · refine ⟨{ reading.emit [.closing] with depth, bound := reading.bound.filter (·.2 ≤ depth) },
        ?_, ?_⟩
      · simp only [step, requireSpine, hmode, hdepth]
        rfl
      · rw [emit, hmode]
        exact hrest
    · -- A word is read in the same way whichever of the three kinds of items it is.
      have hread {word : String} (hword : table.Item [.word word]) :
          ∃ reading', step table none reading (.word word) = .ok reading'
            ∧ table.Completes reading'.depth reading'.mode rest := by
        obtain ⟨tokens, htokens⟩ := (@wordTokens_isOk_iff table reading word).mpr hword
        refine ⟨reading.emit tokens, ?_, ?_⟩
        · simp only [step, hmode, htokens]
          rfl
        · rw [emit, hmode]
          exact hrest
      cases hitem with
      | @group items hitems =>
        refine ⟨{ reading.emit [.opening] with depth := reading.depth + 1 }, ?_, ?_⟩
        · simp only [step, requireSpine, hmode]
          rfl
        · simp only [emit, hmode]
          exact ⟨items.flatten, rest, ⟨items, hitems, rfl⟩, hrest, by simp⟩
      | @lambda sign params items hne hparams hitems =>
        refine ⟨{ reading with mode := .firstParameter }, ?_, ?_⟩
        · simp only [step, requireSpine, hmode]
          rfl
        · refine ⟨params, hne, items.flatten ++ rest, hparams, ?_, by simp⟩
          exact hrest.expr_append ⟨items, hitems, rfl⟩
      | name hword => exact hread (.name hword)
      | number hword => exact hread (.number hword)
      | keyword hword => exact hread (.keyword hword)

/-! ## A whole text -/

/-- Lexemes can be read to an end in a spine exactly if closing parentheses make them complete what
    has been read: by induction on the lexemes. -/
theorem run_isOk_iff {lexemes : List Lexeme} :
    (∃ reading', lexemes.foldlM (step table none) reading = .ok reading' ∧ reading'.mode = .spine)
      ↔ ∃ count, table.Completes reading.depth reading.mode
        (lexemes ++ List.replicate count .closing) := by
  induction lexemes generalizing reading with
  | nil =>
    constructor
    · rintro ⟨_, ⟨⟩, hmode⟩
      rw [hmode]
      exact ⟨reading.depth, closes_replicate _⟩
    · rintro ⟨count, h⟩
      refine ⟨reading, rfl, ?_⟩
      -- Among parameters, a dot would have to follow.
      have hdot {params : List String}
          (h : table.Binds reading.depth params ([] ++ List.replicate count .closing)) : False := by
        obtain ⟨rest, _, _, heq⟩ := h
        have hmem : Lexeme.dot ∈ List.replicate count Lexeme.closing := by
          rw [← List.nil_append (List.replicate count _), heq]
          simp
        cases List.eq_of_mem_replicate hmem
      cases hmode : reading.mode with
      | spine => rfl
      | firstParameter =>
        rw [hmode] at h
        obtain ⟨_, _, h⟩ := h
        exact absurd h hdot
      | moreParameters =>
        rw [hmode] at h
        obtain ⟨_, h⟩ := h
        exact absurd h hdot
  | cons lexeme lexemes ih =>
    constructor
    · rintro ⟨reading', hrun, hmode⟩
      rw [List.foldlM_cons] at hrun
      obtain ⟨between, hstep, hrest⟩ := Outcome.bind_eq_ok.mp hrun
      obtain ⟨count, h⟩ := ih.mp ⟨reading', hrest, hmode⟩
      exact ⟨count, (reads_of_step hstep).completes h⟩
    · rintro ⟨count, h⟩
      obtain ⟨between, hstep, h⟩ := exists_step_of_completes h
      obtain ⟨reading', hrest, hmode⟩ := ih.mpr ⟨count, h⟩
      exact ⟨reading', Outcome.bind_eq_ok.mpr ⟨between, hstep, hrest⟩, hmode⟩

end TextReading

/-! ## Characters and lexemes -/

namespace Lexeme

/-- A character that goes on with a lexeme is not blank. -/
theorem isBlank_of_continues {first c : Char} (h : continues first c = true) :
    Text.isBlank c = false := by
  have hword (hc : Word.isWordChar c = true) : Text.isBlank c = false :=
    (Word.plain_of_isWordChar hc).2
  unfold continues at h
  split at h
  iterate 5 cases h
  split_ifs at h with hdigit hoperator
  · refine hword ?_
    rw [Word.isWordChar, Char.isAlphanum, h, Bool.or_true, Bool.true_or]
  · exact (Word.plain_of_isOperatorChar h).2
  · exact hword h

theorem isAsciiBlank_of_continues {first c : Char} (h : continues first c = true) :
    Text.isAsciiBlank c = false := by
  have hblank := isBlank_of_continues h
  rw [Bool.eq_false_iff] at hblank ⊢
  exact fun hascii => hblank (Text.isBlank_of_isAsciiBlank hascii)

/-- A lexeme has the characters that it was made from. -/
theorem toList_text_ofChars (c : Char) (cs : List Char) :
    (ofChars c (cs.takeWhile (continues c))).text.toList = c :: cs.takeWhile (continues c) := by
  have hsingle (h : ∀ d, continues c d = false) : cs.takeWhile (continues c) = [] := by
    cases cs with
    | nil => rfl
    | cons d cs => rw [List.takeWhile_cons, h, if_neg Bool.false_ne_true]
  unfold ofChars
  split
  iterate 5
    rw [hsingle fun _ => rfl]
    rfl
  exact String.toList_ofList

/-- Splitting passes over blanks and over nothing else. -/
theorem flatMap_text_splitOnto : (cs : List Char) →
    (splitOnto [] cs).flatMap (·.text.toList) = cs.filter (!Text.isAsciiBlank ·)
  | [] => by rw [splitOnto]; rfl
  | c :: cs => by
    by_cases hblank : Text.isAsciiBlank c = true
    · rw [splitOnto, if_pos hblank, List.filter_cons_of_neg (by simp [hblank])]
      exact flatMap_text_splitOnto cs
    · have hnot : Text.isAsciiBlank c = false := by simpa using hblank
      have htake : (cs.takeWhile (continues c)).filter (!Text.isAsciiBlank ·)
          = cs.takeWhile (continues c) := by
        rw [List.filter_eq_self]
        intro d hd
        rw [isAsciiBlank_of_continues (List.mem_takeWhile_imp hd)]
        rfl
      have hfilter : cs.filter (!Text.isAsciiBlank ·) = cs.takeWhile (continues c)
          ++ (cs.dropWhile (continues c)).filter (!Text.isAsciiBlank ·) := by
        conv_lhs => rw [← List.takeWhile_append_dropWhile (p := continues c) (l := cs)]
        rw [List.filter_append, htake]
      rw [splitOnto_cons hnot, List.flatMap_cons, toList_text_ofChars,
        flatMap_text_splitOnto (cs.dropWhile (continues c)),
        List.filter_cons_of_pos (by simp [hnot]), hfilter]
      rfl
termination_by cs => cs.length
decreasing_by
  · exact Nat.lt_succ_self _
  · exact Nat.lt_succ_of_le (List.dropWhile_sublist _).length_le

theorem oneLine_of_mem_ofText {text : String} {lexeme : Lexeme} (h : lexeme ∈ ofText text) :
    Text.OneLine lexeme.text := by
  intro hmem
  have hchar : '\n' ∈ (ofText text).flatMap (·.text.toList) := List.mem_flatMap.mpr ⟨_, h, hmem⟩
  rw [ofText, flatMap_text_splitOnto] at hchar
  have hblank := (List.mem_filter.mp hchar).2
  cases hblank

end Lexeme

/-- Trimming drops nothing but blanks. -/
theorem Text.filter_trimList (cs : List Char) :
    (trimList cs).filter (!isBlank ·) = cs.filter (!isBlank ·) := by
  have hdrop (cs : List Char) :
      (cs.dropWhile isBlank).filter (!isBlank ·) = cs.filter (!isBlank ·) := by
    induction cs with
    | nil => rfl
    | cons c cs ih =>
      rw [List.dropWhile_cons]
      split
      · next hblank => rw [ih, List.filter_cons_of_neg (by simp [hblank])]
      · rfl
  rw [trimList, List.filter_reverse, hdrop, List.filter_reverse, List.reverse_reverse, hdrop]

namespace KeywordTable

/-- Whatever the keywords, a text can be read exactly if its lexemes are an expression once some
    parentheses are closed behind it; and its lexemes are made of all its characters but the
    blanks, of which there are more at its ends than inside it. -/
theorem tokenize_isOk_iff_expr (table : KeywordTable) (text : String) :
    ((∃ tokens, table.tokenize text = .ok tokens)
        ↔ ∃ count, table.Expr (Lexeme.ofText text ++ List.replicate count .closing))
      ∧ (Lexeme.ofText text).flatMap (·.text.toList)
        = (Text.trimList text.toList).filter (!Text.isAsciiBlank ·)
      ∧ ((Lexeme.ofText text).flatMap (·.text.toList)).filter (!Text.isBlank ·)
        = text.toList.filter (!Text.isBlank ·) := by
  have hchars : (Lexeme.ofText text).flatMap (·.text.toList)
      = (Text.trimList text.toList).filter (!Text.isAsciiBlank ·) :=
    Lexeme.flatMap_text_splitOnto _
  refine ⟨?_, hchars, ?_⟩
  · have hrun := @TextReading.run_isOk_iff table {} (Lexeme.ofText text)
    refine Iff.trans ?_ hrun
    constructor
    · rintro ⟨tokens, h⟩
      -- The text is refused at its end only if it ends among parameters.
      obtain ⟨reading, hread, hresult⟩ := Outcome.bind_eq_ok.mp h
      refine ⟨reading, hread, ?_⟩
      unfold TextReading.result at hresult
      split at hresult
      · cases hresult
      · next hmode => simpa using hmode
    · rintro ⟨reading, hread, hmode⟩
      have hresult : ∃ tokens, reading.result = .ok tokens := by
        unfold TextReading.result
        rw [hmode, if_neg (by simp)]
        split <;> exact ⟨_, rfl⟩
      obtain ⟨tokens, hresult⟩ := hresult
      exact ⟨tokens, Outcome.bind_eq_ok.mpr ⟨reading, hread, hresult⟩⟩
  · have hblank : ∀ c, (!Text.isBlank c && !Text.isAsciiBlank c) = !Text.isBlank c := by
      intro c
      cases hascii : Text.isAsciiBlank c with
      | false => exact Bool.and_true _
      | true => rw [Text.isBlank_of_isAsciiBlank hascii]; rfl
    rw [hchars, List.filter_filter, ← Text.filter_trimList]
    simp only [hblank]

end KeywordTable

end LambdaCalc
