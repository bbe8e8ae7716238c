import LambdaCalc.Proofs.Expression.Renaming
import LambdaCalc.Proofs.Keyword.Reachable

set_option autoImplicit false

/-! # Reading the same lexemes elsewhere

The same lexemes may be read with other keywords, in the body of a keyword, or behind others and
inside parentheses. If their words stand for the same tokens there, up to a renaming of names
(`TextReading.WordAlike`), a lexeme is read there as here (`TextReading.step_mirrors`): the tokens
that are written are the same with other names, and whatever is refused is refused for a fault of
the same kind. Only the parenthesis that closes nothing here may close one there. -/

namespace LambdaCalc

open Qualifier

namespace TextReading

/-- One text is read inside others: the parentheses of these, and the tokens before it, are around
    it, and its own tokens have other names. -/
structure Mirrors (f : String → String) (before : List Token) (around : Nat)
    (reading reading' : TextReading) : Prop where
  mode_eq : reading'.mode = reading.mode
  depth_eq : reading'.depth = reading.depth + around
  tokens_eq : reading'.tokens.toList = before ++ reading.tokens.toList.map (Token.rename f)

/-- A word stands for the same tokens with other names, and it is not the keyword whose body is
    read. -/
structure WordAlike (f : String → String) (table table' : KeywordTable)
    (keyword keyword' : Option String) (word : String) : Prop where
  ne : keyword ≠ some word
  ne' : keyword' ≠ some word
  tokens : Option.Rel (fun found found' => found' = found.map (Token.rename f))
    (table.keywords.find? word) (table'.keywords.find? word)
  name : Word.isName word = true → table.keywords.find? word = none →
    qualify keyword' word = f (qualify keyword word)

variable {f : String → String} {table table' : KeywordTable} {keyword keyword' : Option String}
  {before : List Token} {around : Nat} {reading reading' : TextReading}

/-- A word is looked up in the same way elsewhere, and the names of the keywords stay as they
    are. -/
theorem WordAlike.of_find? {word : String} (hne : keyword ≠ some word) (hne' : keyword' ≠ some word)
    (hfind : table'.keywords.find? word = table.keywords.find? word)
    (hfixed : ∀ found, table.keywords.find? word = some found →
      found.map (Token.rename f) = found)
    (hname : Word.isName word = true → table.keywords.find? word = none →
      qualify keyword' word = f (qualify keyword word)) :
    WordAlike f table table' keyword keyword' word := by
  refine ⟨hne, hne', ?_, hname⟩
  rw [hfind]
  generalize table.keywords.find? word = found at hfixed ⊢
  cases found with
  | none => exact .none
  | some found => exact .some (hfixed found rfl).symm

/-- The state in which a text has nothing around it. -/
theorem mirrors_start (f : String → String) : Mirrors f [] 0 {} {} := ⟨rfl, rfl, rfl⟩

theorem Mirrors.emit (h : Mirrors f before around reading reading') {tokens tokens' : List Token}
    (htokens : tokens' = tokens.map (Token.rename f)) :
    Mirrors f before around (reading.emit tokens) (reading'.emit tokens') := by
  refine ⟨h.mode_eq, h.depth_eq, ?_⟩
  rw [TextReading.emit, TextReading.emit, Array.toList_appendList, Array.toList_appendList,
    h.tokens_eq, htokens, List.map_append, List.append_assoc]

/-! ## Words -/

theorem wordTokens_alike (hnumeral : Numeral.Named fun name => f name = name) {word : String}
    (h : WordAlike f table table' keyword keyword' word) (reading reading' : TextReading) :
    Outcome.Alike Stop.SameClass (fun tokens tokens' => tokens' = tokens.map (Token.rename f))
      (wordTokens table keyword reading word) (wordTokens table' keyword' reading' word) := by
  have htokens := h.tokens
  have hname := h.name
  unfold wordTokens
  generalize table.keywords.find? word = found at htokens hname ⊢
  generalize table'.keywords.find? word = found' at htokens ⊢
  simp only [h.ne, h.ne', decide_false, Bool.false_and, Bool.false_eq_true, if_false]
  cases htokens with
  | some htokens => exact .ok htokens
  | none =>
    dsimp only
    split_ifs with hnumber hname'
    · cases hword : numberTokens word with
      | error stop => exact .error (.refl stop)
      | ok tokens => exact .ok (Token.map_rename_eq_self (named_numberTokens hnumeral hword)).symm
    · refine .ok ?_
      rw [hname hname' rfl]
      rfl
    · exact .error (.refl _)

theorem readParameter_mirrors (h : Mirrors f before around reading reading') {word : String}
    (hword : WordAlike f table table' keyword keyword' word) :
    Outcome.Alike Stop.SameClass (Mirrors f before around)
      (readParameter table keyword reading word) (readParameter table' keyword' reading' word) := by
  have htokens := hword.tokens
  have hname := hword.name
  unfold readParameter OrderedTable.contains
  generalize table.keywords.find? word = found at htokens hname ⊢
  generalize table'.keywords.find? word = found' at htokens ⊢
  rw [bne_iff_ne.mpr hword.ne, bne_iff_ne.mpr hword.ne']
  split_ifs with hnot hfound hfound' hfound'
  · exact .error (.refl _)
  · exact .error (.refl _)
  · cases htokens with
    | none => cases hfound
    | some => exact absurd rfl hfound'
  · cases htokens with
    | none => cases hfound'
    | some => exact absurd rfl hfound
  · cases htokens with
    | some => exact absurd rfl hfound
    | none =>
      have hfunc : [Token.func (qualify keyword' word)]
          = [Token.func (qualify keyword word)].map (Token.rename f) := by
        rw [hname (by simpa using hnot) rfl]
        rfl
      have hemit := h.emit hfunc
      exact .ok ⟨rfl, hemit.depth_eq, hemit.tokens_eq⟩

/-! ## Lexemes -/

theorem requireSpine_mirrors (h : Mirrors f before around reading reading') (lexeme : Lexeme) :
    reading'.requireSpine lexeme = reading.requireSpine lexeme := by
  rw [requireSpine, requireSpine, h.mode_eq]

/-- A lexeme is read as it is elsewhere, unless it closes a parenthesis only there. -/
theorem step_mirrors (h : Mirrors f before around reading reading')
    (hnumeral : Numeral.Named fun name => f name = name) {lexeme : Lexeme}
    (hword : ∀ word, lexeme = .word word → WordAlike f table table' keyword keyword' word)
    (hclosing : lexeme = .closing → reading.depth = 0 → around = 0) :
    Outcome.Alike Stop.SameClass (Mirrors f before around)
      (step table keyword reading lexeme) (step table' keyword' reading' lexeme) := by
  cases lexeme with
  | opening =>
    simp only [step, requireSpine_mirrors h]
    refine .bind_self Stop.SameClass.refl _ fun _ => ?_
    have hopening : [Token.opening] = [Token.opening].map (Token.rename f) := rfl
    have hemit := h.emit hopening
    refine .ok ⟨hemit.mode_eq, ?_, hemit.tokens_eq⟩
    show reading'.depth + 1 = reading.depth + 1 + around
    rw [h.depth_eq]
    omega
  | closing =>
    simp only [step, requireSpine_mirrors h]
    refine .bind_self Stop.SameClass.refl _ fun _ => ?_
    have hclosed : [Token.closing] = [Token.closing].map (Token.rename f) := rfl
    have hemit := h.emit hclosed
    have hdepth := h.depth_eq
    cases hopen : reading.depth with
    | zero =>
      have hopen' : reading'.depth = 0 := by
        rw [hdepth, hopen, hclosing rfl hopen]
      rw [hopen']
      exact .error (.refl _)
    | succ depth =>
      have hopen' : reading'.depth = depth + around + 1 := by
        rw [hdepth, hopen]
        omega
      rw [hopen']
      exact .ok ⟨hemit.mode_eq, rfl, hemit.tokens_eq⟩
  | lambda sign =>
    simp only [step, requireSpine_mirrors h]
    exact .bind_self Stop.SameClass.refl _ fun _ => .ok ⟨rfl, h.depth_eq, h.tokens_eq⟩
  | dot =>
    simp only [step, h.mode_eq]
    split
    · exact .ok ⟨rfl, h.depth_eq, h.tokens_eq⟩
    · exact .error (.refl _)
    · exact .error (.refl _)
  | word word =>
    simp only [step, h.mode_eq]
    split
    · exact (wordTokens_alike hnumeral (hword word rfl) reading reading').bind
        fun _ _ htokens => .ok (h.emit htokens)
    · exact readParameter_mirrors h (hword word rfl)
    · exact readParameter_mirrors h (hword word rfl)

/-- Lexemes that are read are read elsewhere: by induction on them. -/
theorem exists_foldlM_of_mirrors (h : Mirrors f before around reading reading')
    (hnumeral : Numeral.Named fun name => f name = name) {lexemes : List Lexeme}
    (hwords : ∀ word, .word word ∈ lexemes → WordAlike f table table' keyword keyword' word)
    {last : TextReading} (hlast : lexemes.foldlM (step table keyword) reading = .ok last) :
    ∃ last', lexemes.foldlM (step table' keyword') reading' = .ok last'
      ∧ Mirrors f before around last last' := by
  induction lexemes generalizing reading reading' with
  | nil =>
    obtain rfl := Except.ok.inj hlast
    exact ⟨reading', rfl, h⟩
  | cons lexeme lexemes ih =>
    rw [List.foldlM_cons] at hlast
    obtain ⟨between, hstep, hrest⟩ := Outcome.bind_eq_ok.mp hlast
    have hclosing : lexeme = .closing → reading.depth = 0 → around = 0 := by
      rintro rfl hdepth
      have hreads := reads_of_step hstep
      cases hreads with
      | closing _ hopen => cases hdepth.symm.trans hopen
    have halike := step_mirrors h hnumeral
      (fun word heq => hwords word (heq ▸ List.mem_cons_self)) hclosing
    rw [hstep] at halike
    obtain ⟨between', hstep', hbetween⟩ := halike.exists_ok
    obtain ⟨last', hrest', hmirrors⟩ :=
      ih hbetween (fun word hmem => hwords word (List.mem_cons_of_mem _ hmem)) hrest
    refine ⟨last', ?_, hmirrors⟩
    rw [List.foldlM_cons]
    exact Outcome.bind_eq_ok.mpr ⟨between', hstep', hrest'⟩

/-- The tokens of a text with nothing around it are the same with other names. -/
theorem result_mirrors (h : Mirrors f [] 0 reading reading') :
    Outcome.Alike Stop.SameClass (fun tokens tokens' => tokens' = tokens.map (Token.rename f))
      reading.result reading'.result := by
  have htokens := h.tokens_eq
  have hempty : reading'.tokens.isEmpty = reading.tokens.isEmpty := by
    rw [← Array.isEmpty_toList, ← Array.isEmpty_toList, htokens, List.nil_append, List.isEmpty_map]
  unfold result
  rw [h.mode_eq, hempty]
  split_ifs
  · exact .error (.refl _)
  · exact .ok rfl
  · refine .ok ?_
    rw [htokens, h.depth_eq, Nat.add_zero, List.map_append, List.map_append, List.map_append,
      List.map_replicate, List.nil_append]
    rfl

end TextReading

end LambdaCalc
