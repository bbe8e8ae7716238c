import LambdaCalc.Keyword.Table
import LambdaCalc.Proofs.Phrase.Expand

set_option autoImplicit false

/-! # The phrase of a text

`Phrase.ofText` reads the structure of a text and leaves its words as they are. Reading a text into
tokens spells that phrase with keywords and numbers expanded and names qualified
(`KeywordTable.spells_tokenize`), if the tokens of every keyword spell its body. -/

namespace LambdaCalc

namespace Phrase

/-- The phrase of the lexemes of a text, and the phrases that go on behind the closing parentheses
    that nothing in it has opened. Among parameters a word is bound. -/
def ofLexemes : (parameters : Bool) → List Lexeme → Phrase String × List (Phrase String)
  | _, [] => (done, [])
  | _, .lambda _ :: rest => ofLexemes true rest
  | _, .dot :: rest => ofLexemes false rest
  | true, .word x :: rest => (lam x (ofLexemes true rest).1, (ofLexemes true rest).2)
  | false, .word x :: rest => (name x (ofLexemes false rest).1, (ofLexemes false rest).2)
  | parameters, .opening :: rest =>
      (group (ofLexemes parameters rest).1 ((ofLexemes parameters rest).2.headD done),
        (ofLexemes parameters rest).2.tail)
  | parameters, .closing :: rest =>
      (done, (ofLexemes parameters rest).1 :: (ofLexemes parameters rest).2)

/-- The phrase of a text, with its words as names. -/
def ofText (text : String) : Phrase String := (ofLexemes false (Lexeme.ofText text)).1

/-- The tokens spell a phrase as one group, whatever comes behind them. -/
def Spells (tokens : List Token) (phrase : Phrase (Option String)) : Prop :=
  ∀ rest behind, tokens.foldr (readToken id) (rest, behind) = (group phrase rest, behind)

theorem Spells.ofTokens {tokens : List Token} {phrase : Phrase (Option String)}
    (h : Spells tokens phrase) : read id tokens = (group phrase done, []) := h done []

end Phrase

theorem Lexeme.ofText_empty : ofText "" = [] := by decide +kernel

/-! ## One lexeme -/

namespace TextReading

/-- What reading a lexeme does, if it is read at all. -/
inductive Reads (table : KeywordTable) (keyword : Option String) (reading : TextReading) :
    Lexeme → TextReading → Prop where
  | opening (hmode : reading.mode = .spine) :
      Reads table keyword reading .opening
        { reading.emit [.opening] with depth := reading.depth + 1 }
  | closing {depth : Nat} (hmode : reading.mode = .spine) (hdepth : reading.depth = depth + 1) :
      Reads table keyword reading .closing
        { reading.emit [.closing] with depth, bound := reading.bound.filter (·.2 ≤ depth) }
  | lambda (sign : Char) (hmode : reading.mode = .spine) :
      Reads table keyword reading (.lambda sign) { reading with mode := .firstParameter }
  | dot (hmode : reading.mode = .moreParameters) :
      Reads table keyword reading .dot { reading with mode := .spine }
  | word {word : String} {tokens : List Token} (hmode : reading.mode = .spine)
      (htokens : wordTokens table keyword reading word = .ok tokens) :
      Reads table keyword reading (.word word) (reading.emit tokens)
  | parameter {word : String} (hmode : reading.mode ≠ .spine) (hname : Word.isName word = true)
      (hkeyword : table.keywords.contains word = true → keyword = some word) :
      Reads table keyword reading (.word word)
        { reading.emit [.func (Qualifier.qualify keyword word)] with
          mode := .moreParameters
          bound := reading.bound ++ [(word, reading.depth)] }

variable {table : KeywordTable} {keyword : Option String} {reading reading' : TextReading}

theorem spine_of_requireSpine {lexeme : Lexeme} {value : Unit}
    (h : reading.requireSpine lexeme = .ok value) :
    reading.mode = .spine := by
  unfold requireSpine at h
  split at h
  · assumption
  · cases h
  · cases h

theorem reads_of_readParameter {word : String} (hmode : reading.mode ≠ .spine)
    (h : readParameter table keyword reading word = .ok reading') :
    Reads table keyword reading (.word word) reading' := by
  unfold readParameter at h
  split_ifs at h with hname hkeyword
  obtain rfl := Except.ok.inj h
  refine .parameter hmode (by simpa using hname) fun hmem => ?_
  simpa [hmem] using hkeyword

theorem reads_of_step {lexeme : Lexeme} (h : step table keyword reading lexeme = .ok reading') :
    Reads table keyword reading lexeme reading' := by
  cases lexeme with
  | opening =>
    obtain ⟨_, hmode, h⟩ := Outcome.bind_eq_ok.mp h
    obtain rfl := Except.ok.inj h
    exact .opening (spine_of_requireSpine hmode)
  | closing =>
    obtain ⟨_, hmode, h⟩ := Outcome.bind_eq_ok.mp h
    split at h
    · cases h
    · next hdepth =>
      obtain rfl := Except.ok.inj h
      exact .closing (spine_of_requireSpine hmode) hdepth
  | lambda sign =>
    obtain ⟨_, hmode, h⟩ := Outcome.bind_eq_ok.mp h
    obtain rfl := Except.ok.inj h
    exact .lambda sign (spine_of_requireSpine hmode)
  | dot =>
    simp only [step] at h
    split at h
    · next hmode =>
      obtain rfl := Except.ok.inj h
      exact .dot hmode
    · cases h
    · cases h
  | word word =>
    simp only [step] at h
    split at h
    · next hmode =>
      obtain ⟨tokens, htokens, h⟩ := Outcome.bind_eq_ok.mp h
      obtain rfl := Except.ok.inj h
      exact .word hmode htokens
    · next hmode => exact reads_of_readParameter (by simp [hmode]) h
    · next hmode => exact reads_of_readParameter (by simp [hmode]) h

/-! ## What words stand for -/

end TextReading

/-- A token that means something in an expression, with a good name if it needs one. -/
def Token.Named (Good : String → Prop) (token : Token) : Prop :=
  match token.kind with
  | .opening | .closing => True
  | .func | .var => ∃ name, token.name = some name ∧ Good name
  | .stray _ => False

theorem Token.Named.mono {Good Good' : String → Prop} {token : Token} (h : token.Named Good)
    (hmono : ∀ name, Good name → Good' name) : token.Named Good' := by
  obtain ⟨kind, _⟩ := token
  cases kind with
  | opening | closing => trivial
  | func | var =>
    obtain ⟨name, hname, hgood⟩ := h
    exact ⟨name, hname, hmono name hgood⟩
  | stray => exact h

/-- The tokens of keywords and numbers spell their bodies, and names have none. -/
structure KeywordTable.Spells (table : KeywordTable) (Good : String → Prop)
    (body : String → Option (Phrase (Option String))) : Prop where
  keyword {word : String} {found : List Token} : table.keywords.find? word = some found →
    ∃ phrase, body word = some phrase ∧ Phrase.Spells found phrase
      ∧ ∀ token ∈ found, token.Named Good
  number {word : String} {tokens : List Token} : table.keywords.find? word = none →
    Word.isNumber word = true → TextReading.numberTokens word = .ok tokens →
    ∃ phrase, body word = some phrase ∧ Phrase.Spells tokens phrase
      ∧ ∀ token ∈ tokens, token.Named Good
  name {word : String} : table.keywords.find? word = none → Word.isName word = true →
    body word = none

theorem Word.not_isNumber_of_isName {word : String} (h : isName word = true) :
    isNumber word = false := by
  unfold isName at h
  unfold isNumber
  split at h
  · next c cs hword =>
    rw [hword, List.all_cons]
    have hdigit : c.isDigit = false := by
      have halpha : c.isAlpha = true := (Bool.and_eq_true_iff.mp h).1
      simp only [Char.isAlpha, Char.isUpper, Char.isLower, Char.isDigit, ge_iff_le, Bool.or_eq_true,
        decide_eq_true_eq, Bool.and_eq_true] at halpha ⊢
      simp only [UInt32.le_iff_toNat_le] at halpha ⊢
      simp at halpha ⊢
      omega
    rw [hdigit, Bool.false_and, Bool.and_false]
  · cases h

namespace TextReading

/-- The parameters that are still in scope once parentheses are closed down to a depth. -/
def scopeAt (bound : List (String × Nat)) (depth : Nat) : List String :=
  (bound.filter (·.2 ≤ depth)).map (·.1)

/-- The parameters of a text that is being read have been bound in open parentheses, and no other
    keyword is one. -/
structure Valid (table : KeywordTable) (keyword : Option String) (reading : TextReading) :
    Prop where
  depth_le : ∀ param ∈ reading.bound, param.2 ≤ reading.depth
  isName : ∀ param ∈ reading.bound, Word.isName param.1 = true
  keyword : ∀ param ∈ reading.bound, table.keywords.contains param.1 = true → keyword = some param.1

variable {table : KeywordTable} {keyword : Option String} {reading reading' : TextReading}
  {Good : String → Prop} {body : String → Option (Phrase (Option String))}

theorem Valid.mem_scopeAt_iff (h : reading.Valid table keyword) {word : String} :
    word ∈ scopeAt reading.bound reading.depth ↔ ∃ param ∈ reading.bound, param.1 = word := by
  simp only [scopeAt, List.mem_map, List.mem_filter, decide_eq_true_eq]
  constructor
  · rintro ⟨param, ⟨hmem, _⟩, hword⟩
    exact ⟨param, hmem, hword⟩
  · rintro ⟨param, hmem, hword⟩
    exact ⟨param, ⟨hmem, h.depth_le param hmem⟩, hword⟩

/-- A keyword in scope could only be the one whose body is read, which cannot be used there. -/
theorem Valid.not_mem_scopeAt_of_find? (h : reading.Valid table keyword) {word : String}
    {found : List Token} (hfind : table.keywords.find? word = some found)
    (hkeyword : keyword ≠ some word) :
    word ∉ scopeAt reading.bound reading.depth := by
  intro hscope
  obtain ⟨param, hmem, rfl⟩ := h.mem_scopeAt_iff.mp hscope
  refine hkeyword (h.keyword param hmem ?_)
  rw [OrderedTable.contains, hfind]
  rfl

theorem Valid.not_mem_scopeAt_of_isNumber (h : reading.Valid table keyword) {word : String}
    (hnumber : Word.isNumber word = true) : word ∉ scopeAt reading.bound reading.depth := by
  intro hscope
  obtain ⟨param, hmem, rfl⟩ := h.mem_scopeAt_iff.mp hscope
  rw [Word.not_isNumber_of_isName (h.isName param hmem)] at hnumber
  cases hnumber

/-- What a phrase of a text is spelled as: names are qualified, and keywords and numbers
    expanded. -/
def spelled (keyword : Option String) (body : String → Option (Phrase (Option String)))
    (scope : List String) (phrase : Phrase String) : Phrase (Option String) :=
  phrase.expand (fun word => some (Qualifier.qualify keyword word)) body scope

/-- The tokens of a word spell what the word stands for. -/
theorem wordTokens_spec (h : reading.Valid table keyword) (hbody : table.Spells Good body)
    (hgood : ∀ word, Word.isName word = true → Good (Qualifier.qualify keyword word))
    {word : String} {tokens : List Token}
    (htokens : wordTokens table keyword reading word = .ok tokens) :
    (∀ token ∈ tokens, token.Named Good) ∧ (body word = none → Word.isName word = true)
      ∧ ∀ rest behind,
        tokens.foldr (Phrase.readToken id)
            (spelled keyword body (scopeAt reading.bound reading.depth) rest, behind)
          = (spelled keyword body (scopeAt reading.bound reading.depth) (.name word rest),
            behind) := by
  have hown (hname : Word.isName word = true) :
      ∀ token ∈ [Token.var (Qualifier.qualify keyword word)], token.Named Good :=
    List.forall_mem_singleton.mpr ⟨_, rfl, hgood word hname⟩
  -- A word is looked up among the parameters, then the keywords, then the numbers.
  unfold wordTokens at htokens
  split at htokens
  · next hbound =>
    obtain rfl := Except.ok.inj htokens
    simp only [Bool.and_eq_true, decide_eq_true_eq, List.any_eq_true, beq_iff_eq] at hbound
    obtain ⟨-, param, hmem, rfl⟩ := hbound
    have hscope := h.mem_scopeAt_iff.mpr ⟨param, hmem, rfl⟩
    refine ⟨hown (h.isName param hmem), fun _ => h.isName param hmem, ?_⟩
    intro rest behind
    rw [spelled, spelled, Phrase.expand_name_of_none (Or.inl hscope)]
    rfl
  · split at htokens
    · next found hfind =>
      split at htokens
      · cases htokens
      · next hkeyword =>
        obtain rfl := Except.ok.inj htokens
        obtain ⟨phrase, hword, hspells, hnamed⟩ := hbody.keyword hfind
        have hscope := h.not_mem_scopeAt_of_find? hfind hkeyword
        refine ⟨hnamed, fun hnone => absurd (hword.symm.trans hnone) (Option.some_ne_none _), ?_⟩
        intro rest behind
        rw [hspells, spelled, spelled, Phrase.expand_name_of_some hscope hword]
    · next hfind =>
      split at htokens
      · next hnumber =>
        obtain ⟨phrase, hword, hspells, hnamed⟩ := hbody.number hfind hnumber htokens
        have hscope := h.not_mem_scopeAt_of_isNumber hnumber
        refine ⟨hnamed, fun hnone => absurd (hword.symm.trans hnone) (Option.some_ne_none _), ?_⟩
        intro rest behind
        rw [hspells, spelled, spelled, Phrase.expand_name_of_some hscope hword]
      · split at htokens
        · next hname =>
          obtain rfl := Except.ok.inj htokens
          refine ⟨hown hname, fun _ => hname, ?_⟩
          intro rest behind
          rw [spelled, spelled, Phrase.expand_name_of_none (Or.inr (hbody.name hfind hname))]
          rfl
        · cases htokens

/-! ## A whole text -/

/-- Reading a lexeme keeps what holds of the parameters. -/
theorem Valid.step (h : reading.Valid table keyword) {lexeme : Lexeme}
    (hstep : Reads table keyword reading lexeme reading') : reading'.Valid table keyword := by
  cases hstep with
  | opening =>
    exact ⟨fun param hmem => Nat.le_succ_of_le (h.depth_le param hmem), h.isName, h.keyword⟩
  | closing =>
    refine ⟨?_, ?_, ?_⟩ <;> intro param hmem
    · exact of_decide_eq_true (List.mem_filter.mp hmem).2
    · exact h.isName param (List.mem_filter.mp hmem).1
    · exact h.keyword param (List.mem_filter.mp hmem).1
  | lambda => exact ⟨h.depth_le, h.isName, h.keyword⟩
  | dot => exact ⟨h.depth_le, h.isName, h.keyword⟩
  | word => exact ⟨h.depth_le, h.isName, h.keyword⟩
  | parameter hmode hname hkeyword =>
    refine ⟨?_, ?_, ?_⟩ <;> refine List.forall_mem_append.mpr ⟨?_, List.forall_mem_singleton.mpr ?_⟩
    · exact h.depth_le
    · exact Nat.le_refl _
    · exact h.isName
    · exact hname
    · exact h.keyword
    · exact hkeyword

/-- What the phrases behind closing parentheses are spelled as, from the inside out. -/
def spelledBehind (keyword : Option String) (body : String → Option (Phrase (Option String)))
    (bound : List (String × Nat)) :
    (depth : Nat) → List (Phrase String) → List (Phrase (Option String))
  | 0, _ => []
  | depth + 1, behind =>
      spelled keyword body (scopeAt bound depth) (behind.headD .done)
        :: spelledBehind keyword body bound depth behind.tail

theorem spelledBehind_nil (bound : List (String × Nat)) (depth : Nat) :
    spelledBehind keyword body bound depth [] = List.replicate depth .done := by
  induction depth with
  | zero => rfl
  | succ depth ih => exact congrArg (Phrase.done :: ·) ih

theorem spelledBehind_congr {bound bound' : List (String × Nat)} {depth : Nat}
    (h : ∀ depth' < depth, scopeAt bound depth' = scopeAt bound' depth')
    (behind : List (Phrase String)) :
    spelledBehind keyword body bound depth behind
      = spelledBehind keyword body bound' depth behind := by
  induction depth generalizing behind with
  | zero => rfl
  | succ depth ih =>
    rw [spelledBehind, spelledBehind, h depth (Nat.lt_succ_self _),
      ih (fun depth' hlt => h depth' (Nat.lt_succ_of_lt hlt))]

/-- Whether a word would be bound. -/
def parameters (reading : TextReading) : Bool := reading.mode != .spine

theorem parameters_of_spine (h : reading.mode = .spine) : reading.parameters = false := by
  rw [parameters, h]
  rfl

theorem parameters_of_ne_spine (h : reading.mode ≠ .spine) : reading.parameters = true :=
  bne_iff_ne.mpr h

/-- What is still to be read is spelled as, with further phrases behind it. -/
def ahead (keyword : Option String) (body : String → Option (Phrase (Option String)))
    (reading : TextReading) (lexemes : List Lexeme) (behind : List (Phrase (Option String))) :
    Phrase (Option String) × List (Phrase (Option String)) :=
  (spelled keyword body (scopeAt reading.bound reading.depth)
      (Phrase.ofLexemes reading.parameters lexemes).1,
    spelledBehind keyword body reading.bound reading.depth
      (Phrase.ofLexemes reading.parameters lexemes).2 ++ behind)

theorem scopeAt_succ {bound : List (String × Nat)} {depth : Nat}
    (h : ∀ param ∈ bound, param.2 ≤ depth) :
    scopeAt bound (depth + 1) = scopeAt bound depth := by
  unfold scopeAt
  congr 1
  refine List.filter_congr ?_
  intro param hmem
  rw [decide_eq_true (h param hmem), decide_eq_true (Nat.le_succ_of_le (h param hmem))]

theorem scopeAt_filter (bound : List (String × Nat)) {depth depth' : Nat} (h : depth' ≤ depth) :
    scopeAt (bound.filter (·.2 ≤ depth)) depth' = scopeAt bound depth' := by
  unfold scopeAt
  rw [List.filter_filter]
  congr 1
  refine List.filter_congr ?_
  intro param _
  by_cases hle : param.2 ≤ depth'
  · rw [decide_eq_true hle, decide_eq_true (Nat.le_trans hle h), Bool.and_self]
  · rw [decide_eq_false hle, Bool.false_and]

theorem scopeAt_concat_of_lt (bound : List (String × Nat)) (word : String) {depth depth' : Nat}
    (h : depth' < depth) : scopeAt (bound ++ [(word, depth)]) depth' = scopeAt bound depth' := by
  unfold scopeAt
  rw [List.filter_append, List.filter_singleton, decide_eq_false (Nat.not_le_of_lt h), cond_false,
    List.append_nil]

theorem scopeAt_concat_self (bound : List (String × Nat)) (word : String) (depth : Nat) :
    scopeAt (bound ++ [(word, depth)]) depth = scopeAt bound depth ++ [word] := by
  unfold scopeAt
  rw [List.filter_append, List.filter_singleton, decide_eq_true (Nat.le_refl depth), cond_true,
    List.map_append]
  rfl

/-- A parameter that is bound comes into scope at the depth at hand. -/
theorem spelled_concat_self (bound : List (String × Nat)) (word : String) (depth : Nat)
    (phrase : Phrase String) :
    spelled keyword body (scopeAt (bound ++ [(word, depth)]) depth) phrase
      = spelled keyword body (word :: scopeAt bound depth) phrase := by
  rw [scopeAt_concat_self]
  refine Phrase.expand_congr (fun x => ?_) phrase
  rw [List.mem_append, List.mem_singleton, List.mem_cons, or_comm]

/-- Reading a lexeme writes tokens that spell it. -/
theorem Reads.spells (h : reading.Valid table keyword) (hbody : table.Spells Good body)
    (hgood : ∀ word, Word.isName word = true → Good (Qualifier.qualify keyword word))
    {lexeme : Lexeme} (hreads : Reads table keyword reading lexeme reading') :
    ∃ tokens, reading'.tokens.toList = reading.tokens.toList ++ tokens
      ∧ (∀ token ∈ tokens, token.Named Good)
      ∧ ∀ rest behind, tokens.foldr (Phrase.readToken id) (ahead keyword body reading' rest behind)
        = ahead keyword body reading (lexeme :: rest) behind := by
  have hemit (tokens : List Token) :
      (reading.emit tokens).tokens.toList = reading.tokens.toList ++ tokens := by simp [emit]
  cases hreads with
  | opening hmode =>
    refine ⟨[.opening], hemit _, List.forall_mem_singleton.mpr trivial, ?_⟩
    intro rest behind
    -- The scope that is opened binds nothing more yet.
    have hscope := scopeAt_succ h.depth_le
    show Phrase.readToken id .opening
      (spelled keyword body (scopeAt reading.bound (reading.depth + 1)) _,
        spelledBehind keyword body reading.bound (reading.depth + 1) _ ++ behind) = _
    rw [hscope]
    rfl
  | closing hmode hdepth =>
    refine ⟨[.closing], hemit _, List.forall_mem_singleton.mpr trivial, ?_⟩
    intro rest behind
    unfold ahead
    rw [hdepth]
    simp only [scopeAt_filter reading.bound (Nat.le_refl _),
      spelledBehind_congr fun _ hlt => scopeAt_filter reading.bound (Nat.le_of_lt hlt)]
    rfl
  | lambda sign hmode =>
    refine ⟨[], (List.append_nil _).symm, nofun, ?_⟩
    intro rest behind
    unfold ahead
    rw [Phrase.ofLexemes]
    rfl
  | dot hmode =>
    refine ⟨[], (List.append_nil _).symm, nofun, ?_⟩
    intro rest behind
    unfold ahead
    rw [Phrase.ofLexemes]
    rfl
  | @word word tokens hmode htokens =>
    obtain ⟨hnamed, _, hspells⟩ := wordTokens_spec h hbody hgood htokens
    refine ⟨tokens, hemit tokens, hnamed, ?_⟩
    intro rest behind
    have hparameters := parameters_of_spine hmode
    have hparameters' : (reading.emit tokens).parameters = false := hparameters
    unfold ahead
    rw [hparameters, hparameters', Phrase.ofLexemes, ← hspells]
    rfl
  | @parameter word hmode hname hkeyword =>
    refine ⟨[.func (Qualifier.qualify keyword word)], hemit _,
      List.forall_mem_singleton.mpr ⟨_, rfl, hgood word hname⟩, ?_⟩
    intro rest behind
    have hparameters := parameters_of_ne_spine hmode
    have hbehind := @spelledBehind_congr keyword body _ reading.bound reading.depth fun _ hlt =>
      scopeAt_concat_of_lt reading.bound word hlt
    unfold ahead
    rw [hparameters, Phrase.ofLexemes]
    show Phrase.readToken id _ (spelled keyword body (scopeAt (reading.bound ++ _) reading.depth) _,
      spelledBehind keyword body (reading.bound ++ _) reading.depth _ ++ behind) = _
    rw [spelled_concat_self, hbehind]
    rfl

/-- The words that a phrase binds can be bound, and those that stand for nothing else are names. -/
def Legal (body : String → Option (Phrase (Option String))) (phrase : Phrase String) : Prop :=
  (∀ x ∈ phrase.binders, Word.isName x = true)
    ∧ ∀ x ∈ phrase.names, body x = none → Word.isName x = true

theorem legal_done : Legal body .done := ⟨nofun, nofun⟩

theorem legal_name {x : String} {rest : Phrase String} (hx : body x = none → Word.isName x = true)
    (h : Legal body rest) : Legal body (.name x rest) :=
  ⟨h.1, List.forall_mem_cons.mpr ⟨hx, h.2⟩⟩

theorem legal_group {inner rest : Phrase String} (hinner : Legal body inner)
    (hrest : Legal body rest) :
    Legal body (.group inner rest) :=
  ⟨List.forall_mem_append.mpr ⟨hinner.1, hrest.1⟩, List.forall_mem_append.mpr ⟨hinner.2, hrest.2⟩⟩

theorem legal_lam {x : String} {inner : Phrase String} (hx : Word.isName x = true)
    (h : Legal body inner) : Legal body (.lam x inner) :=
  ⟨List.forall_mem_cons.mpr ⟨hx, h.1⟩, List.forall_mem_cons.mpr ⟨fun _ => hx, h.2⟩⟩

/-- A lexeme that is read is legal. -/
theorem Reads.legal (h : reading.Valid table keyword) (hbody : table.Spells Good body)
    (hgood : ∀ word, Word.isName word = true → Good (Qualifier.qualify keyword word))
    {lexeme : Lexeme} (hreads : Reads table keyword reading lexeme reading') {rest : List Lexeme}
    (hrest : ∀ phrase ∈ (Phrase.ofLexemes reading'.parameters rest).1
      :: (Phrase.ofLexemes reading'.parameters rest).2, Legal body phrase) :
    ∀ phrase ∈ (Phrase.ofLexemes reading.parameters (lexeme :: rest)).1
      :: (Phrase.ofLexemes reading.parameters (lexeme :: rest)).2, Legal body phrase := by
  obtain ⟨hphrase, hbehind⟩ := List.forall_mem_cons.mp hrest
  cases hreads with
  | opening hmode =>
    refine List.forall_mem_cons.mpr ⟨legal_group hphrase ?_, fun phrase hmem =>
      hbehind phrase (List.mem_of_mem_tail hmem)⟩
    cases hlater : (Phrase.ofLexemes reading.parameters rest).2 with
    | nil => exact legal_done
    | cons later _ => exact hbehind later (hlater ▸ List.mem_cons_self)
  | closing hmode hdepth =>
    exact List.forall_mem_cons.mpr ⟨legal_done, List.forall_mem_cons.mpr ⟨hphrase, hbehind⟩⟩
  | lambda sign hmode =>
    rw [Phrase.ofLexemes]
    exact hrest
  | dot hmode =>
    rw [Phrase.ofLexemes]
    exact hrest
  | @word word tokens hmode htokens =>
    have hparameters := parameters_of_spine hmode
    have hparameters' : (reading.emit tokens).parameters = false := hparameters
    rw [hparameters'] at hphrase hbehind
    rw [hparameters, Phrase.ofLexemes]
    have hlegal := (wordTokens_spec h hbody hgood htokens).2.1
    exact List.forall_mem_cons.mpr ⟨legal_name hlegal hphrase, hbehind⟩
  | @parameter word hmode hname hkeyword =>
    have hparameters := parameters_of_ne_spine hmode
    rw [hparameters, Phrase.ofLexemes]
    exact List.forall_mem_cons.mpr ⟨legal_lam hname hphrase, hbehind⟩

/-- Reading lexemes to an end in a spine writes tokens that spell them: by induction on the
    lexemes. -/
theorem spells_run (h : reading.Valid table keyword) (hbody : table.Spells Good body)
    (hgood : ∀ word, Word.isName word = true → Good (Qualifier.qualify keyword word))
    {lexemes : List Lexeme} (hrun : lexemes.foldlM (step table keyword) reading = .ok reading')
    (hspine : reading'.mode = .spine) :
    ∃ tokens, reading'.tokens.toList = reading.tokens.toList ++ tokens
      ∧ (∀ token ∈ tokens, token.Named Good)
      ∧ (∀ behind, tokens.foldr (Phrase.readToken id)
          (.done, List.replicate reading'.depth .done ++ behind)
        = ahead keyword body reading lexemes behind)
      ∧ ∀ phrase ∈ (Phrase.ofLexemes reading.parameters lexemes).1
        :: (Phrase.ofLexemes reading.parameters lexemes).2, Legal body phrase := by
  induction lexemes generalizing reading with
  | nil =>
    obtain rfl := Except.ok.inj hrun
    refine ⟨[], (List.append_nil _).symm, nofun, ?_, ?_⟩
    · intro behind
      rw [ahead, Phrase.ofLexemes, spelledBehind_nil]
      rfl
    · rw [Phrase.ofLexemes]
      exact List.forall_mem_singleton.mpr legal_done
  | cons lexeme lexemes ih =>
    rw [List.foldlM_cons] at hrun
    obtain ⟨between, hstep, hrun⟩ := Outcome.bind_eq_ok.mp hrun
    have hreads := reads_of_step hstep
    obtain ⟨first, hfirst, hnamed, hspells⟩ := hreads.spells h hbody hgood
    obtain ⟨others, hothers, hnamed', hspells', hlegal⟩ := ih (h.step hreads) hrun
    refine ⟨first ++ others, ?_, List.forall_mem_append.mpr ⟨hnamed, hnamed'⟩, ?_,
      hreads.legal h hbody hgood hlegal⟩
    · rw [hothers, hfirst, List.append_assoc]
    · intro behind
      rw [List.foldr_append, hspells', hspells]

theorem foldr_closing (count : Nat) (behind : List (Phrase (Option String))) :
    (List.replicate count Token.closing).foldr (Phrase.readToken id) (.done, behind)
      = (.done, List.replicate count .done ++ behind) := by
  induction count with
  | zero => rfl
  | succ count ih =>
    rw [List.replicate_succ, List.foldr_cons, ih]
    rfl

end TextReading

namespace KeywordTable

open TextReading

/-- The tokens of a text spell its phrase as one group, with keywords and numbers expanded. -/
theorem spells_tokenize {table : KeywordTable} {keyword : Option String} {Good : String → Prop}
    {body : String → Option (Phrase (Option String))} (hbody : table.Spells Good body)
    (hgood : ∀ word, Word.isName word = true → Good (Qualifier.qualify keyword word))
    {text : String} {tokens : List Token} (h : table.tokenize text keyword = .ok tokens)
    (hne : tokens ≠ []) :
    Phrase.Spells tokens (spelled keyword body [] (Phrase.ofText text))
      ∧ (∀ token ∈ tokens, token.Named Good) ∧ Legal body (Phrase.ofText text) := by
  obtain ⟨reading, hrun, hresult⟩ := Outcome.bind_eq_ok.mp h
  have hvalid : Valid table keyword {} := ⟨nofun, nofun, nofun⟩
  unfold result at hresult
  split at hresult
  · cases hresult
  · next hmode =>
    have hspine : reading.mode = .spine := by simpa using hmode
    obtain ⟨written, hwritten, hnamed, hspells, hlegal⟩ := spells_run hvalid hbody hgood hrun hspine
    split at hresult
    · exact absurd (Except.ok.inj hresult).symm hne
    · obtain rfl := Except.ok.inj hresult
      rw [hwritten]
      refine ⟨?_, ?_, hlegal _ List.mem_cons_self⟩
      · intro rest behind
        rw [List.foldr_append, List.foldr_append, List.foldr_append]
        show [Token.opening].foldr _ (written.foldr _ ((List.replicate reading.depth
          Token.closing).foldr _ (Phrase.done, rest :: behind))) = _
        rw [foldr_closing, hspells]
        rfl
      · intro token hmem
        simp only [List.append_assoc, List.mem_append, List.mem_singleton,
          List.mem_replicate] at hmem
        rcases hmem with rfl | hmem | hmem | ⟨_, rfl⟩ | rfl
        · exact trivial
        · cases hmem
        · exact hnamed token hmem
        · exact trivial
        · exact trivial

end KeywordTable

end LambdaCalc
