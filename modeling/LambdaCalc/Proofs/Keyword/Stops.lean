import LambdaCalc.Proofs.Keyword.Grammar
import LambdaCalc.Proofs.Stops

set_option autoImplicit false

/-! # Why the reading of a text stops

Reading a text stops for a fault of the text, or because it reaches a number of more digits than can
be read (`KeywordTable.tokenize_stops`). What makes it stop is the first lexeme that cannot be read,
so that a number that it reaches decides about it (`KeywordTable.tokenize_of_reaches`). -/

namespace LambdaCalc

/-! ## A number by itself -/

theorem Word.isWordChar_of_isDigit {c : Char} (h : c.isDigit = true) : isWordChar c = true := by
  rw [isWordChar, Char.isAlphanum, h, Bool.or_true, Bool.true_or]

theorem Lexeme.continues_of_isDigit {c : Char} (h : c.isDigit = true) :
    continues c = Char.isDigit := by
  funext d
  unfold continues
  split
  · cases h
  · cases h
  · cases h
  · cases h
  · cases h
  · rw [if_pos h]

/-- A number is a lexeme of its own. -/
theorem Lexeme.ofText_of_isNumber {word : String} (h : Word.isNumber word = true) :
    ofText word = [.word word] := by
  obtain ⟨hne, hall⟩ := Bool.and_eq_true_iff.mp h
  have hdigit := List.all_eq_true.mp hall
  have hblank (c : Char) (hc : c ∈ word.toList) : Text.isBlank c = false :=
    (Word.plain_of_isWordChar (Word.isWordChar_of_isDigit (hdigit c hc))).2
  cases hword : word.toList with
  | nil =>
    rw [String.toList_eq_nil_iff.mp hword] at hne
    cases hne
  | cons c cs =>
    rw [hword] at hdigit hblank
    obtain ⟨hc, hcs⟩ := List.forall_mem_cons.mp hdigit
    have htight := Text.tight_of_forall (List.cons_ne_nil c cs) hblank
    have hascii : Text.isAsciiBlank c = false := by
      rw [Bool.eq_false_iff]
      intro hascii
      have := hblank c List.mem_cons_self
      rw [Text.isBlank_of_isAsciiBlank hascii] at this
      cases this
    have htake : cs.takeWhile Char.isDigit = cs := List.takeWhile_eq_self_iff.mpr hcs
    have hdrop : cs.dropWhile Char.isDigit = [] := List.dropWhile_eq_nil_iff.mpr hcs
    have hofChars : ofChars c cs = .word word := by
      rw [← String.ofList_toList (s := word), hword]
      unfold ofChars
      split
      · cases hc
      · cases hc
      · cases hc
      · cases hc
      · cases hc
      · rfl
    rw [ofText, hword, htight.trimList_eq, splitOnto_cons hascii, continues_of_isDigit hc, htake,
      hdrop, hofChars, splitOnto]
    rfl

/-- More digits do not make a number smaller. -/
theorem Word.number_le_append (first rest : List Char) :
    number (String.ofList first) ≤ number (String.ofList (first ++ rest)) := by
  simp only [number, String.toList_ofList, List.foldl_append]
  generalize List.foldl _ 0 first = value
  induction rest generalizing value with
  | nil => exact Nat.le_refl value
  | cons c rest ih =>
    refine Nat.le_trans ?_ (ih _)
    show value ≤ 10 * value + _
    omega

/-! ## Numbers that cannot be read -/

/-- A number of more digits than can be read. -/
structure Word.IsOverlong (word : String) : Prop where
  isNumber : Word.isNumber word = true
  length_lt : Mishap.digitLimit < word.length

theorem Word.IsOverlong.numberTokens_eq {word : String} (h : IsOverlong word) :
    TextReading.numberTokens word = .error (.mishap (.numeralTooLong word.length)) :=
  if_pos h.length_lt

theorem Word.isOverlong_replicate {digit : Char} (hdigit : digit.isDigit = true) {count : Nat}
    (h : Mishap.digitLimit < count) : IsOverlong (String.ofList (List.replicate count digit)) where
  isNumber := by
    have hpos : count ≠ 0 := by omega
    rw [Word.isNumber, Bool.and_eq_true_iff]
    simp [hpos, hdigit]
  length_lt := by
    rw [String.length_ofList, List.length_replicate]
    exact h

/-- A stop at a number of too many digits, which is one of the words that are reached. -/
inductive Stop.AtOverlong (reached : String → Prop) : Stop → Prop where
  | intro {word : String} (hreached : reached word) (hlong : Word.IsOverlong word) :
      AtOverlong reached (.mishap (.numeralTooLong word.length))

theorem Stop.AtOverlong.imp {reached reached' : String → Prop} {stop : Stop}
    (h : AtOverlong reached stop) (himp : ∀ word, reached word → reached' word) :
    AtOverlong reached' stop := by
  cases h with
  | intro hreached hlong => exact .intro (himp _ hreached) hlong

/-- The reading of a text gets as far as a word: everything before it is read, and it does not stand
    among parameters. -/
def KeywordTable.Reaches (table : KeywordTable) (keyword : Option String) (text word : String) :
    Prop :=
  ∃ before after reading, Lexeme.ofText text = before ++ .word word :: after
    ∧ before.foldlM (TextReading.step table keyword) {} = .ok reading ∧ reading.mode = .spine

/-- A number by itself is reached. -/
theorem KeywordTable.reaches_self {table : KeywordTable} {keyword : Option String} {word : String}
    (h : Word.isNumber word = true) : table.Reaches keyword word word :=
  ⟨[], [], {}, Lexeme.ofText_of_isNumber h, rfl, rfl⟩

namespace TextReading

variable {table : KeywordTable} {keyword : Option String}

theorem requireSpine_stops (reading : TextReading) {lexeme : Lexeme}
    (hlexeme : Text.OneLine lexeme.text) :
    Outcome.StopsOnly Stop.Explained (reading.requireSpine lexeme) := by
  unfold requireSpine
  split
  · exact .ok ()
  · exact .about (by decide) hlexeme
  · exact .about (by decide) hlexeme

theorem readParameter_stops (reading : TextReading) {word : String} (hword : Text.OneLine word) :
    Outcome.StopsOnly Stop.Explained (readParameter table keyword reading word) := by
  unfold readParameter
  split_ifs
  · exact .about (by decide) hword
  · exact .about (by decide) hword
  · exact .ok _

/-- A word is at fault, or it is a number of too many digits. -/
theorem wordTokens_stops (reading : TextReading) {word : String} (hword : Text.OneLine word) :
    Outcome.StopsOnly (fun stop => stop.Explained ∨ stop.AtOverlong (· = word))
      (wordTokens table keyword reading word) := by
  unfold wordTokens
  simp only
  split
  · exact .ok _
  · split
    · split
      · exact .error (Or.inl (.about (by decide) hword))
      · exact .ok _
    · split_ifs with hnumber
      · unfold numberTokens Numeral.tokens
        split_ifs with hlength
        · exact .error (Or.inr (.intro rfl ⟨hnumber, hlength⟩))
        · refine .error (Or.inl ⟨(by decide : FaultKind.numberTooLarge ≠ .internalFailure), ?_⟩)
          rintro _ ⟨⟩
          exact Subject.oneLine_number _
        all_goals exact .ok _
      · exact .ok _
      · exact .error (Or.inl (.about (by decide) hword))

theorem step_stops (reading : TextReading) {lexeme : Lexeme} (hlexeme : Text.OneLine lexeme.text) :
    Outcome.StopsOnly
      (fun stop => stop.Explained
        ∨ stop.AtOverlong fun word => lexeme = .word word ∧ reading.mode = .spine)
      (step table keyword reading lexeme) := by
  cases lexeme with
  | word word =>
    rw [step]
    split
    · next hmode =>
      refine Outcome.StopsOnly.bind ((wordTokens_stops reading hlexeme).mono ?_) fun _ _ => .ok _
      refine fun stop => Or.imp_right fun hnumber => hnumber.imp ?_
      rintro _ rfl
      exact ⟨rfl, hmode⟩
    · exact (readParameter_stops reading hlexeme).mono fun _ => Or.inl
    · exact (readParameter_stops reading hlexeme).mono fun _ => Or.inl
  | opening | lambda sign =>
    exact ((requireSpine_stops _ hlexeme).bind fun _ _ => .ok _).mono fun _ => Or.inl
  | closing =>
    refine ((requireSpine_stops _ hlexeme).bind fun _ _ => ?_).mono fun _ => Or.inl
    split
    · exact .ofKind (by decide)
    · exact .ok _
  | dot =>
    rw [step]
    split
    · exact .ok _
    · exact .error (Or.inl (.about (by decide) hlexeme))
    · exact .error (Or.inl (.about (by decide) hlexeme))

end TextReading

namespace KeywordTable

/-- Reading a text stops for a fault of the text, or at a number of too many digits. -/
theorem tokenize_stops (table : KeywordTable) (text : String) (keyword : Option String) :
    Outcome.StopsOnly (fun stop => stop.Explained ∨ stop.AtOverlong (table.Reaches keyword text))
      (table.tokenize text keyword) := by
  refine Outcome.StopsOnly.bind ?_ fun reading _ => ?_
  · intro stop hstop
    obtain ⟨before, lexeme, after, reading, hlexemes, hrun, hstep⟩ :=
      Outcome.foldlM_eq_error.mp hstop
    have hlexeme : lexeme ∈ Lexeme.ofText text := by simp [hlexemes]
    have hstops :=
      TextReading.step_stops reading (Lexeme.oneLine_of_mem_ofText hlexeme) hstep
    refine hstops.imp_right fun hnumber => hnumber.imp ?_
    rintro word ⟨rfl, hmode⟩
    exact ⟨before, after, reading, hlexemes, hrun, hmode⟩
  · unfold TextReading.result
    split_ifs
    · exact .error (Or.inl (.ofKind (by decide)))
    · exact .ok _
    · exact .ok _

/-- Reading a text never stops for an internal reason, whatever the table. -/
theorem tokenize_stopsOnly (table : KeywordTable) (text : String) (keyword : Option String) :
    Outcome.StopsOnly (¬ ·.Internal) (table.tokenize text keyword) := by
  refine (table.tokenize_stops text keyword).mono ?_
  rintro stop (h | ⟨_, _⟩)
  · exact h.not_internal
  · exact not_false

/-- A number that is reached and cannot be read is where the reading of a text stops. -/
theorem tokenize_of_reaches {table : KeywordTable} {keyword : Option String} {text word : String}
    {stop : Stop} (h : table.Reaches keyword text word) (hnumber : Word.isNumber word = true)
    (hword : table.keywords.find? word = none) (hkeyword : keyword ≠ some word)
    (hstop : TextReading.numberTokens word = .error stop) :
    table.tokenize text keyword = .error stop := by
  obtain ⟨before, after, reading, hlexemes, hrun, hmode⟩ := h
  have hstep : TextReading.step table keyword reading (.word word) = .error stop := by
    simp only [TextReading.step, hmode, TextReading.wordTokens, hkeyword, decide_false,
      Bool.false_and, Bool.false_eq_true, if_false, hword, hnumber, if_true, hstop]
    rfl
  have hfold : (Lexeme.ofText text).foldlM (TextReading.step table keyword) {} = .error stop :=
    Outcome.foldlM_eq_error.mpr ⟨before, _, after, reading, hlexemes, hrun, hstep⟩
  rw [tokenize, hfold]
  rfl

end KeywordTable

end LambdaCalc
