import LambdaCalc.Proofs.Keyword.Grammar
import LambdaCalc.Proofs.Keyword.Groups
import LambdaCalc.Proofs.Keyword.Stops
import LambdaCalc.Proofs.Statement.Spacing

set_option autoImplicit false

/-! # Spacing and sources make no difference

A text that can be read has no blanks inside other than those that separate lexemes
(`KeywordTable.Reachable.isAsciiBlank_of_tokenize`). So a text that is spaced in another way has the
same lexemes, and tables that differ in their sources only read it alike
(`KeywordTable.SameTokens.tokenize_respaced`) and are still such tables once they have defined a
keyword by it (`KeywordTable.SameTokens.define_respaced`). -/

namespace LambdaCalc

open Text (Respaced isBlank isAsciiBlank trimList)

/-! ## Lexemes -/

namespace Lexeme

/-- A blank does not go on with a lexeme. -/
theorem continues_of_isBlank {first c : Char} (h : isBlank c = true) :
    continues first c = false := by
  cases hcontinues : continues first c with
  | false => rfl
  | true =>
    rw [isBlank_of_continues hcontinues] at h
    cases h

/-- A blank that does not separate lexemes begins a word. -/
theorem ofChars_of_isBlank {c : Char} (h : isBlank c = true) (others : List Char) :
    ofChars c others = .word (String.ofList (c :: others)) := by
  unfold ofChars
  split
  iterate 5 cases h
  rfl

/-- A blank that does not separate lexemes is a character of a word: by induction on the characters
    that have not been split. -/
theorem exists_word_of_isBlank {c : Char} (hblank : isBlank c = true)
    (hascii : isAsciiBlank c = false) : (cs : List Char) → c ∈ cs →
    ∃ word, .word word ∈ splitOnto [] cs ∧ c ∈ word.toList
  | [], hmem => absurd hmem List.not_mem_nil
  | d :: ds, hmem => by
    cases hd : isAsciiBlank d with
    | true =>
      have hne : c ≠ d := by
        rintro rfl
        rw [hascii] at hd
        cases hd
      rw [splitOnto, if_pos hd]
      exact exists_word_of_isBlank hblank hascii ds (List.mem_of_ne_of_mem hne hmem)
    | false =>
      rw [splitOnto_cons hd]
      obtain rfl | hmem := List.mem_cons.mp hmem
      · rw [ofChars_of_isBlank hblank]
        exact ⟨_, List.mem_cons_self, by simp⟩
      · have hdrop : c ∈ ds.dropWhile (continues d) := by
          rw [← List.takeWhile_append_dropWhile (p := continues d) (l := ds)] at hmem
          refine (List.mem_append.mp hmem).resolve_left fun htake => ?_
          have hcontinues := List.mem_takeWhile_imp htake
          rw [continues_of_isBlank hblank] at hcontinues
          cases hcontinues
        obtain ⟨word, hword, hc⟩ := exists_word_of_isBlank hblank hascii _ hdrop
        exact ⟨word, List.mem_cons_of_mem _ hword, hc⟩
termination_by cs => cs.length
decreasing_by
  · exact Nat.lt_succ_of_le (List.dropWhile_sublist _).length_le
  · exact Nat.lt_succ_self _

/-- Blanks in front are passed over. -/
theorem splitOnto_blanks_append {blanks : List Char} (h : ∀ c ∈ blanks, isAsciiBlank c = true)
    (cs : List Char) : splitOnto [] (blanks ++ cs) = splitOnto [] cs := by
  induction blanks with
  | nil => rfl
  | cons c blanks ih =>
    obtain ⟨hc, hblanks⟩ := List.forall_mem_cons.mp h
    rw [List.cons_append, splitOnto, if_pos hc]
    exact ih hblanks

/-- A lexeme ends at the same place, however what comes behind it is spaced. -/
theorem respaced_takeWhile {cs cs' : List Char} (h : Respaced cs cs') (first : Char) :
    cs.takeWhile (continues first) = cs'.takeWhile (continues first)
      ∧ Respaced (cs.dropWhile (continues first)) (cs'.dropWhile (continues first)) := by
  induction h with
  | nil => exact ⟨rfl, .nil⟩
  | @char c cs cs' h ih =>
    cases hc : continues first c with
    | true =>
      rw [List.takeWhile_cons_of_pos hc, List.takeWhile_cons_of_pos hc,
        List.dropWhile_cons_of_pos hc, List.dropWhile_cons_of_pos hc, ih.1]
      exact ⟨rfl, ih.2⟩
    | false =>
      have hnot : ¬ continues first c = true := by rw [hc]; exact Bool.false_ne_true
      rw [List.takeWhile_cons_of_neg hnot, List.takeWhile_cons_of_neg hnot,
        List.dropWhile_cons_of_neg hnot, List.dropWhile_cons_of_neg hnot]
      exact ⟨rfl, .char c h⟩
  | @gap blanks cs cs' hne hblanks h =>
    have hstop {c : Char} (hc : isBlank c = true) : ¬ continues first c = true := by
      rw [continues_of_isBlank hc]
      exact Bool.false_ne_true
    obtain ⟨c, blanks, rfl⟩ := List.exists_cons_of_ne_nil hne
    have hc := hstop (hblanks c List.mem_cons_self)
    have hspace := hstop (by decide : isBlank ' ' = true)
    rw [List.cons_append, List.takeWhile_cons_of_neg hc, List.takeWhile_cons_of_neg hspace,
      List.dropWhile_cons_of_neg hc, List.dropWhile_cons_of_neg hspace, ← List.cons_append]
    exact ⟨rfl, .gap hne hblanks h⟩

/-- However a text is spaced, it has the same lexemes if its blanks separate them: by induction on
    the characters that have not been split. -/
theorem splitOnto_respaced : {cs cs' : List Char} → Respaced cs cs' →
    (∀ c ∈ cs, isBlank c = true → isAsciiBlank c = true) → splitOnto [] cs = splitOnto [] cs'
  | _, _, .nil, _ => rfl
  | c :: cs, _, .char _ h, hblanks => by
    obtain ⟨_, hcs⟩ := List.forall_mem_cons.mp hblanks
    cases hc : isAsciiBlank c with
    | true =>
      rw [splitOnto, splitOnto, if_pos hc, if_pos hc]
      exact splitOnto_respaced h hcs
    | false =>
      obtain ⟨htake, hdrop⟩ := respaced_takeWhile h c
      rw [splitOnto_cons hc, splitOnto_cons hc, htake]
      rw [splitOnto_respaced hdrop fun d hd => hcs d ((List.dropWhile_sublist _).subset hd)]
  | _, _, @Respaced.gap blanks cs _ hne hgap h, hblanks => by
    have hlt : cs.length < (blanks ++ cs).length := by
      rw [List.length_append]
      exact Nat.lt_add_of_pos_left (List.length_pos_iff.mpr hne)
    obtain ⟨hfirst, hcs⟩ := List.forall_mem_append.mp hblanks
    rw [splitOnto_blanks_append fun c hc => hfirst c hc (hgap c hc), splitOnto_blank]
    exact splitOnto_respaced h hcs
termination_by cs => cs.length
decreasing_by
  · exact Nat.lt_succ_of_le (List.dropWhile_sublist _).length_le
  · exact Nat.lt_succ_self _
  · exact hlt

end Lexeme

/-! ## Texts that can be read -/

namespace TextReading

variable {table table' : KeywordTable} {keyword : Option String} {reading reading' : TextReading}

/-- A word is read only if it has no blanks. -/
theorem Reads.isBlank_eq_false
    (htable : ∀ word found, table.keywords.find? word = some found → Word.IsKeyword word)
    (hvalid : reading.Valid table keyword) {word : String}
    (h : Reads table keyword reading (.word word) reading') :
    ∀ c ∈ word.toList, isBlank c = false := by
  have hplain (hword : Word.IsKeyword word) : ∀ c ∈ word.toList, isBlank c = false :=
    fun c hc => (hword.plain.2 c hc).2
  cases h with
  | parameter _ hname => exact hplain (Word.isKeyword_of_isName hname)
  | word _ htokens =>
    unfold wordTokens at htokens
    simp only at htokens
    split at htokens
    · next hbound =>
      simp only [Bool.and_eq_true, decide_eq_true_eq, List.any_eq_true, beq_iff_eq] at hbound
      obtain ⟨_, param, hmem, rfl⟩ := hbound
      exact hplain (Word.isKeyword_of_isName (hvalid.isName param hmem))
    · split at htokens
      · next found hfind => exact hplain (htable word found hfind)
      · split at htokens
        · next hnumber =>
          intro c hc
          have hdigit := List.all_eq_true.mp (Bool.and_eq_true_iff.mp hnumber).2 c hc
          exact (Word.plain_of_isWordChar (Word.isWordChar_of_isDigit hdigit)).2
        · split at htokens
          · next hname => exact hplain (Word.isKeyword_of_isName hname)
          · cases htokens

/-- All words of a text that is read are without blanks: by induction on its lexemes. -/
theorem isBlank_eq_false_of_foldlM
    (htable : ∀ word found, table.keywords.find? word = some found → Word.IsKeyword word)
    {lexemes : List Lexeme} (hvalid : reading.Valid table keyword)
    (h : lexemes.foldlM (step table keyword) reading = .ok reading') {word : String}
    (hmem : .word word ∈ lexemes) : ∀ c ∈ word.toList, isBlank c = false := by
  induction lexemes generalizing reading with
  | nil => cases hmem
  | cons lexeme lexemes ih =>
    rw [List.foldlM_cons] at h
    obtain ⟨between, hstep, hrest⟩ := Outcome.bind_eq_ok.mp h
    have hreads := reads_of_step hstep
    obtain rfl | hmem := List.mem_cons.mp hmem
    · exact hreads.isBlank_eq_false htable hvalid
    · exact ih (hvalid.step hreads) hrest hmem

end TextReading

namespace KeywordTable

/-- Inside a text that can be read, all blanks separate lexemes. -/
theorem Reachable.isAsciiBlank_of_tokenize {table : KeywordTable} (h : table.Reachable)
    {text : String} {keyword : Option String} {tokens : List Token}
    (htokens : table.tokenize text keyword = .ok tokens) :
    ∀ c ∈ trimList text.toList, isBlank c = true → isAsciiBlank c = true := by
  intro c hc hblank
  obtain ⟨reading, hrun, _⟩ := Outcome.bind_eq_ok.mp htokens
  by_contra hascii
  obtain ⟨word, hword, hmem⟩ := Lexeme.exists_word_of_isBlank hblank (by simpa using hascii) _ hc
  have hvalid : TextReading.Valid table keyword {} := ⟨nofun, nofun, nofun⟩
  have hplain := TextReading.isBlank_eq_false_of_foldlM (fun _ _ => h.isKeyword) hvalid hrun hword
  rw [hplain c hmem] at hblank
  cases hblank

/-- A word that can be a keyword is defined by a text that has tokens. -/
theorem define_of_tokenize {table : KeywordTable} {name source : String} {tokens : List Token}
    (hname : Word.IsKeyword (Text.trim name))
    (htokens : table.tokenize (Text.trim source) (some (Text.trim name)) = .ok tokens)
    (hne : tokens ≠ []) :
    table.define name source
      = .ok (table.entered name source tokens) := by
  have hkeyword : (!(Word.isOperator (Text.trim name) || Word.isName (Text.trim name)))
      = false := by
    rw [show (Word.isOperator _ || Word.isName _) = true from hname]
    rfl
  rw [define_eq, hkeyword, htokens]
  exact if_neg fun hempty => hne (List.isEmpty_iff.mp hempty)

/-! ## Tables that differ in their sources -/

/-- The keywords are the same and have the same tokens. -/
def SameTokens (table table' : KeywordTable) : Prop := table.keywords = table'.keywords

namespace SameTokens

variable {table table' : KeywordTable}

theorem contains_eq (h : table.SameTokens table') (word : String) :
    table.contains word = table'.contains word := congrArg (·.contains word) h

/-- A word stands for the same tokens. -/
theorem wordTokens_eq (h : table.SameTokens table') (keyword : Option String)
    (reading : TextReading) (word : String) :
    TextReading.wordTokens table keyword reading word
      = TextReading.wordTokens table' keyword reading word := by
  have hfind : table.keywords.find? word = table'.keywords.find? word := congrArg (·.find? word) h
  unfold TextReading.wordTokens
  rw [hfind]

/-- A text is read alike. -/
theorem tokenize_eq (h : table.SameTokens table') (text : String) (keyword : Option String) :
    table.tokenize text keyword = table'.tokenize text keyword := by
  have hstep : TextReading.step table keyword = TextReading.step table' keyword := by
    funext reading lexeme
    cases lexeme with
    | opening | closing | lambda | dot => rfl
    | word word =>
      have hcontains : table.keywords.contains word = table'.keywords.contains word :=
        h.contains_eq word
      unfold TextReading.step TextReading.readParameter
      simp only [h.wordTokens_eq, hcontains]
  rw [tokenize, tokenize, hstep]

/-- A text that can be read is read alike however it is spaced. -/
theorem tokenize_respaced (h : table.SameTokens table') (htable : table.Reachable)
    {text text' : String} (htext : Respaced text.toList text'.toList) {keyword : Option String}
    {tokens : List Token} (htokens : table.tokenize text keyword = .ok tokens) :
    table'.tokenize text' keyword = .ok tokens := by
  have hlexemes : Lexeme.ofText text = Lexeme.ofText text' :=
    Lexeme.splitOnto_respaced htext.trimList (htable.isAsciiBlank_of_tokenize htokens)
  rw [← h.tokenize_eq, tokenize, ← hlexemes]
  exact htokens

/-- A keyword is defined alike. -/
theorem define_respaced (h : table.SameTokens table') (htable : table.Reachable)
    {name name' source source' : String} (hname : Respaced name.toList name'.toList)
    (hsource : Respaced source.toList source'.toList) {defined : KeywordTable}
    (hdefine : table.define name source = .ok defined) :
    Text.trim name = Text.trim name'
      ∧ ∃ defined', table'.define name' source' = .ok defined' ∧ defined.SameTokens defined' := by
  obtain ⟨hkeyword, tokens, htokens, hne, rfl⟩ := define_eq_ok hdefine
  have htrim : Text.trim name = Text.trim name' := by
    have hplain : ∀ c ∈ trimList name.toList, isBlank c = false := by
      intro c hc
      rw [← Text.toList_trim] at hc
      exact (hkeyword.plain.2 c hc).2
    exact congrArg String.ofList (hname.trimList.eq_of_forall hplain)
  have hsource' : Respaced (Text.trim source).toList (Text.trim source').toList := by
    rw [Text.toList_trim, Text.toList_trim]
    exact hsource.trimList
  have htokens' := h.tokenize_respaced htable hsource' htokens
  rw [htrim] at hkeyword htokens'
  refine ⟨htrim, _, define_of_tokenize hkeyword htokens' hne, ?_⟩
  show OrderedTable.put _ _ _ = OrderedTable.put _ _ _
  rw [htrim]
  exact congrArg (·.put (Text.trim name') tokens) h

end SameTokens

end KeywordTable

end LambdaCalc
