import LambdaCalc.Calculation
import LambdaCalc.Proofs.Expression.Safety
import LambdaCalc.Statement

set_option autoImplicit false

/-! # Which texts are answered

Calculating a text answers with its result or with the description of a fault, except that a number
of more digits than can be read makes it stop as soon as it is reached
(`KeywordTable.Reachable.exists_answer_iff`). It is the same with a statement, which defines a
keyword or calculates a text (`KeywordTable.Reachable.tryStatement_stops`). -/

namespace LambdaCalc

/-- No keyword is a number. -/
theorem Word.IsKeyword.not_isNumber {word : String} (h : IsKeyword word) :
    isNumber word = false := by
  rcases Bool.or_eq_true_iff.mp h with hoperator | hname
  · obtain ⟨hne, hall⟩ := Bool.and_eq_true_iff.mp hoperator
    cases hword : word.toList with
    | nil =>
      rw [String.toList_eq_nil_iff.mp hword] at hne
      cases hne
    | cons c cs =>
      rw [hword, List.all_cons] at hall
      have hnot : "+-*/%^&|!?<>=".toList.all (fun c => !c.isDigit) = true := by decide
      have hdigit : c.isDigit = false := by
        simpa using List.all_eq_true.mp hnot c
          (List.contains_iff_mem.mp (Bool.and_eq_true_iff.mp hall).1)
      rw [isNumber, hword, List.all_cons, hdigit, Bool.false_and, Bool.and_false]
  · exact not_isNumber_of_isName hname

/-! ## Why a calculation stops -/

namespace Expression

theorem WellFormed.reduce_stops {expression : Expression} (h : expression.WellFormed)
    (limits : Limits) : Outcome.StopsOnly Stop.Explained (expression.reduce limits) := by
  rcases h.reduce_eq limits with ⟨reduced, hreduce⟩ | hreduce
  · rw [hreduce]
    exact .ok reduced
  · rw [hreduce]
    exact .ofKind (by decide)

theorem Safe.render_stops {expression : Expression} (h : expression.Safe) (room : Room) :
    Outcome.StopsOnly Stop.Explained (expression.renderWithin room) := by
  rcases renderWithin_cut room expression with heq | hcut
  · rw [heq]
    rcases h.render_eq with ⟨text, hrender⟩ | hrender
    · rw [hrender]
      exact .ok text
    · rw [hrender]
      exact .ofKind (by decide)
  · rw [hcut]
    exact .error trivial

end Expression

namespace KeywordTable

variable {table : KeywordTable} {text word : String}

theorem Reachable.reduceText_stops (h : table.Reachable) (text : String) :
    Outcome.StopsOnly (fun stop => stop.Explained ∨ stop.AtOverlong (table.Reaches none text))
      (table.reduceText text) := by
  refine .bind (table.tokenize_stops text none) fun tokens htokens => ?_
  refine Outcome.StopsOnly.mono (.bind (Expression.ofTokens_explained
    (h.named_tokenize htokens) _) fun expression hbuilt => ?_) fun _ => Or.inl
  exact (Yields.built htokens hbuilt).wellFormed.reduce_stops {}

/-- The reading of a text stops at a number that it reaches and that cannot be read. -/
theorem Reachable.tokenize_of_reaches (h : table.Reachable) {keyword : Option String} {stop : Stop}
    (hkeyword : ∀ name ∈ keyword, Word.IsKeyword name) (hreaches : table.Reaches keyword text word)
    (hnumber : Word.isNumber word = true) (hstop : TextReading.numberTokens word = .error stop) :
    table.tokenize text keyword = .error stop := by
  have hnot : ¬ Word.IsKeyword word := by
    intro hword
    rw [hword.not_isNumber] at hnumber
    cases hnumber
  refine KeywordTable.tokenize_of_reaches hreaches hnumber ?_ (hnot ∘ hkeyword word) hstop
  cases hfind : table.keywords.find? word with
  | none => rfl
  | some found => exact absurd (h.isKeyword hfind) hnot

theorem Reachable.safe_reduceText (h : table.Reachable) {reduced : Expression}
    (hreduced : table.reduceText text = .ok reduced) : reduced.Safe := by
  obtain ⟨tokens, htokens, hreduced⟩ := Outcome.bind_eq_ok.mp hreduced
  obtain ⟨expression, hbuilt, hreduce⟩ := Outcome.bind_eq_ok.mp hreduced
  have hyields := Yields.reduced (Yields.built htokens hbuilt) hreduce
  exact hyields.wellFormed.safe_of_legible (hyields.legible h)

/-- Calculating a text stops for a fault, or at a number of too many digits. -/
theorem Reachable.calculate_stops (h : table.Reachable) (text : String) :
    Outcome.StopsOnly (fun stop => stop.Explained ∨ stop.AtOverlong (table.Reaches none text))
      (table.calculate text) :=
  .bind (h.reduceText_stops text) fun _ hreduced =>
    ((h.safe_reduceText hreduced).render_stops _).mono fun _ => Or.inl

/-- A number that a text reaches and that cannot be read is where its calculation stops. -/
theorem Reachable.calculate_of_reaches (h : table.Reachable) {stop : Stop}
    (hreaches : table.Reaches none text word) (hnumber : Word.isNumber word = true)
    (hstop : TextReading.numberTokens word = .error stop) : table.calculate text = .error stop := by
  have htokens := h.tokenize_of_reaches (by simp) hreaches hnumber hstop
  rw [calculate, reduceText, htokens]
  rfl

/-! ## Why a statement stops -/

/-- Defining a keyword gets as far as a word of its body, if the name is one that it can have. -/
def DefinitionReaches (table : KeywordTable) (name source word : String) : Prop :=
  Word.IsKeyword (Text.trim name) ∧ table.Reaches (some (Text.trim name)) (Text.trim source) word

theorem define_stops (table : KeywordTable) (name source : String) :
    Outcome.StopsOnly
      (fun stop => (∃ reason, stop.explanation? = some reason)
        ∨ stop.AtOverlong (table.DefinitionReaches name source))
      (table.define name source) := by
  rw [define_eq]
  split
  · exact .error (Or.inl ⟨_, rfl⟩)
  · next hname =>
    have hkeyword : Word.IsKeyword (Text.trim name) :=
      Bool.eq_true_of_not_eq_false fun hnot => hname (by rw [hnot]; rfl)
    refine .bind ((table.tokenize_stops _ _).mono ?_) fun tokens _ => ?_
    · exact fun stop => Or.imp (·.exists_explanation) fun hnumber =>
        hnumber.imp fun _ hreaches => ⟨hkeyword, hreaches⟩
    · split
      · exact .error (Or.inl ⟨_, rfl⟩)
      · exact .ok _

theorem Reachable.define_of_reaches (h : table.Reachable) {name source : String} {stop : Stop}
    (hreaches : table.DefinitionReaches name source word) (hnumber : Word.isNumber word = true)
    (hstop : TextReading.numberTokens word = .error stop) :
    table.define name source = .error stop := by
  obtain ⟨hkeyword, hreaches⟩ := hreaches
  have hname : (!(Word.isOperator (Text.trim name) || Word.isName (Text.trim name))) = false := by
    rw [show (Word.isOperator _ || Word.isName _) = true from hkeyword]
    rfl
  have htokens := h.tokenize_of_reaches (fun _ heq => Option.some.inj heq ▸ hkeyword) hreaches
    hnumber hstop
  rw [define_eq, hname, htokens]
  rfl

/-- A statement is tried: it defines a keyword, or it is calculated. -/
def tryStatement (table : KeywordTable) (text : String) : Outcome Unit :=
  match Statement.definition? text with
  | some (name, source) => (table.define (Text.trim name) source).map fun _ => ()
  | none => (table.calculate text).map fun _ => ()

/-- A statement gets as far as a word. -/
def StatementReaches (table : KeywordTable) (text word : String) : Prop :=
  match Statement.definition? text with
  | some (name, source) => table.DefinitionReaches (Text.trim name) source word
  | none => table.Reaches none text word

/-- A statement stops for a fault, or at a number of too many digits. -/
theorem Reachable.tryStatement_stops (h : table.Reachable) (text : String) :
    Outcome.StopsOnly
      (fun stop => (∃ reason, stop.explanation? = some reason)
        ∨ stop.AtOverlong (table.StatementReaches text))
      (table.tryStatement text) := by
  unfold tryStatement StatementReaches
  cases Statement.definition? text with
  | some sides => exact (define_stops _ _ _).map _
  | none => exact ((h.calculate_stops text).mono fun _ => Or.imp_left (·.exists_explanation)).map _

/-- A number that a statement reaches and that cannot be read is where it stops. -/
theorem Reachable.tryStatement_of_reaches (h : table.Reachable) {stop : Stop}
    (hreaches : table.StatementReaches text word) (hnumber : Word.isNumber word = true)
    (hstop : TextReading.numberTokens word = .error stop) :
    table.tryStatement text = .error stop := by
  unfold tryStatement
  unfold StatementReaches at hreaches
  cases hdefinition : Statement.definition? text with
  | some sides =>
    simp only [hdefinition] at hreaches ⊢
    rw [h.define_of_reaches hreaches hnumber hstop]
    rfl
  | none =>
    simp only [hdefinition] at hreaches ⊢
    rw [h.calculate_of_reaches hreaches hnumber hstop]
    rfl

/-! ## Answers -/

theorem Reaches.ne_empty {keyword : Option String} (h : table.Reaches keyword text word) :
    text ≠ "" := by
  rintro rfl
  obtain ⟨before, after, reading, hlexemes, _⟩ := h
  rw [Lexeme.ofText_empty] at hlexemes
  cases before with
  | nil | cons => cases hlexemes

/-- What stops a calculation is answered by its description if it is explained. -/
theorem calculateOrExplain_of_error {stop : Stop} (hne : text ≠ "")
    (hstop : table.calculate text = .error stop) :
    table.calculateOrExplain text
      = match stop.explanation? with
        | some reason => .ok reason.description
        | none => .error stop := by
  have hempty : text.isEmpty = false := by simpa using hne
  rw [calculateOrExplain, hempty, hstop]
  cases stop with
  | fault | mishap | nestedTooDeeply | interrupted | exit => rfl

/-- A number that a text reaches and that cannot be read decides about the answer. -/
theorem Reachable.calculateOrExplain_of_reaches (h : table.Reachable) {stop : Stop}
    (hreaches : table.Reaches none text word) (hnumber : Word.isNumber word = true)
    (hstop : TextReading.numberTokens word = .error stop) :
    table.calculateOrExplain text
      = match stop.explanation? with
        | some reason => .ok reason.description
        | none => .error stop :=
  calculateOrExplain_of_error hreaches.ne_empty (h.calculate_of_reaches hreaches hnumber hstop)

/-- A number of too many digits is not answered. -/
theorem Reachable.not_answered (h : table.Reachable) (hreaches : table.Reaches none text word)
    (hlong : Word.IsOverlong word) : ¬ ∃ answer, table.calculateOrExplain text = .ok answer := by
  rintro ⟨answer, hanswer⟩
  rw [h.calculateOrExplain_of_reaches hreaches hlong.isNumber hlong.numberTokens_eq] at hanswer
  cases hanswer

/-- A text is answered unless it reaches a number of more digits than can be read. -/
theorem Reachable.exists_answer_iff (h : table.Reachable) (text : String) :
    (∃ answer, table.calculateOrExplain text = .ok answer)
      ↔ ¬ ∃ word, table.Reaches none text word ∧ Word.IsOverlong word := by
  constructor
  · rintro hanswer ⟨word, hreaches, hlong⟩
    exact h.not_answered hreaches hlong hanswer
  · intro hnot
    by_cases hempty : text = ""
    · subst hempty
      exact ⟨"", rfl⟩
    cases hcalculate : table.calculate text with
    | ok result =>
      refine ⟨result, ?_⟩
      rw [calculateOrExplain, hcalculate]
      simp [hempty]
    | error stop =>
      rcases h.calculate_stops text hcalculate with hexplained | ⟨hreaches, hlong⟩
      · obtain ⟨reason, hreason⟩ := hexplained.exists_explanation
        rw [calculateOrExplain_of_error hempty hcalculate, hreason]
        exact ⟨_, rfl⟩
      · exact absurd ⟨_, hreaches, hlong⟩ hnot

/-- What a text may be answered with: its result, or a description of what stops it in one line. -/
def IsAnswer (table : KeywordTable) (text answer : String) : Prop :=
  (text = "" ∧ answer = "") ∨ table.calculate text = .ok answer
    ∨ ∃ stop reason, table.calculate text = .error stop ∧ stop.explanation? = some reason
      ∧ answer = reason.description ∧ Text.OneLine answer

theorem Reachable.isAnswer (h : table.Reachable) {answer : String}
    (hanswer : table.calculateOrExplain text = .ok answer) : table.IsAnswer text answer := by
  by_cases hempty : text = ""
  · subst hempty
    exact Or.inl ⟨rfl, (Except.ok.inj hanswer).symm⟩
  · refine Or.inr ?_
    cases hcalculate : table.calculate text with
    | ok result =>
      rw [calculateOrExplain, hcalculate, if_neg (by simpa using hempty)] at hanswer
      exact Or.inl hanswer
    | error stop =>
      rw [calculateOrExplain_of_error hempty hcalculate] at hanswer
      rcases h.calculate_stops text hcalculate with hexplained | ⟨_, _⟩
      · obtain ⟨reason, hreason⟩ := hexplained.exists_explanation
        rw [hreason] at hanswer
        obtain rfl := Except.ok.inj hanswer
        exact Or.inr ⟨stop, reason, rfl, hreason, rfl, hexplained.oneLine hreason⟩
      · cases hanswer

/-- A number that is reached and too large, but can be read, is what the answer is about. -/
theorem Reachable.answer_of_tooLarge (h : table.Reachable)
    (hreaches : table.Reaches none text word) (hnumber : Word.isNumber word = true)
    (hlength : word.length ≤ Mishap.digitLimit) (hlarge : Numeral.inputLimit < Word.number word) :
    table.calculateOrExplain text
      = .ok s!"input error: {Word.number word} is greater than maximum integer limit (255)" := by
  have hstop : TextReading.numberTokens word = .error (.fault
      { kind := .numberTooLarge, subject := some (.number (Word.number word)) }) := by
    unfold TextReading.numberTokens Numeral.tokens
    rw [if_neg (Nat.not_lt.mpr hlength), if_pos (by exact_mod_cast hlarge)]
  rw [h.calculateOrExplain_of_reaches hreaches hnumber hstop]
  rfl

end KeywordTable

end LambdaCalc
