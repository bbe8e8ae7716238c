import LambdaCalc.Proofs.Keyword.Spacing

set_option autoImplicit false

/-! # Putting a body in the place of a word

`Text.replaceWord` puts a text in parentheses in the place of every lexeme that is a certain word,
and leaves all other characters as they are. Nothing goes on with a lexeme into a parenthesis, so
the lexemes of the result are those of the text, with those of the body, in parentheses, in the
place of the word (`Lexeme.ofText_replaceWord`), if all blanks of the body separate lexemes. -/

namespace LambdaCalc

namespace Lexeme

/-! ## Where lexemes end -/

/-- No lexeme goes on with the first of these characters. -/
def EndsAll (rest : List Char) : Prop := ∀ c ∈ rest.head?, ∀ first, continues first c = false

theorem continues_parenthesis (first : Char) :
    continues first '(' = false ∧ continues first ')' = false := by
  unfold continues
  split
  iterate 5 exact ⟨rfl, rfl⟩
  split_ifs
  iterate 3 exact ⟨by decide, by decide⟩

theorem endsAll_closing (rest : List Char) : EndsAll (')' :: rest) := by
  rintro _ ⟨⟩ first
  exact (continues_parenthesis first).2

theorem endsAll_blanks {blanks : List Char} (h : ∀ c ∈ blanks, Text.isAsciiBlank c = true) :
    EndsAll blanks := fun c hc _ =>
  continues_of_isBlank (Text.isBlank_of_isAsciiBlank (h c (List.mem_of_mem_head? hc)))

/-- The characters that go on with a lexeme, if the next one does not. -/
theorem span_append {first : Char} {rest : List Char}
    (h : ∀ c ∈ rest.head?, continues first c = false) (cs : List Char) :
    (cs ++ rest).takeWhile (continues first) = cs.takeWhile (continues first)
      ∧ (cs ++ rest).dropWhile (continues first) = cs.dropWhile (continues first) ++ rest := by
  have hrest : rest.takeWhile (continues first) = [] ∧ rest.dropWhile (continues first) = rest := by
    cases rest with
    | nil => exact ⟨rfl, rfl⟩
    | cons c rest =>
      have hnot : ¬ continues first c = true := by simp [h c rfl]
      exact ⟨List.takeWhile_cons_of_neg hnot, List.dropWhile_cons_of_neg hnot⟩
  induction cs with
  | nil => exact hrest
  | cons c cs ih =>
    rw [List.cons_append, List.takeWhile_cons, List.takeWhile_cons, List.dropWhile_cons,
      List.dropWhile_cons, ih.1, ih.2]
    split <;> exact ⟨rfl, rfl⟩

/-- Characters are split up to where all lexemes end, and then the rest is: by induction on the
    characters that have not been split. -/
theorem splitOnto_append {rest : List Char} (h : EndsAll rest) : (cs : List Char) →
    splitOnto [] (cs ++ rest) = splitOnto [] cs ++ splitOnto [] rest
  | [] => by rw [splitOnto]; rfl
  | c :: cs => by
    cases hc : Text.isAsciiBlank c with
    | true =>
      rw [List.cons_append, splitOnto, splitOnto, if_pos hc, if_pos hc]
      exact splitOnto_append h cs
    | false =>
      obtain ⟨htake, hdrop⟩ := span_append (fun d hd => h d hd c) cs
      rw [List.cons_append, splitOnto_cons hc, splitOnto_cons hc, htake, hdrop,
        splitOnto_append h (cs.dropWhile (continues c))]
      rfl
termination_by cs => cs.length
decreasing_by
  · exact Nat.lt_succ_of_le (List.dropWhile_sublist _).length_le
  · exact Nat.lt_succ_self _

/-- Blanks at both ends are passed over if they separate lexemes. -/
theorem splitOnto_trimList {cs : List Char}
    (h : ∀ c ∈ cs, Text.isBlank c = true → Text.isAsciiBlank c = true) :
    splitOnto [] cs = splitOnto [] (Text.trimList cs) := by
  obtain ⟨before, after, hcs, hbefore, hafter⟩ := Text.exists_blanks_trimList cs
  have hafter' : ∀ c ∈ after, Text.isAsciiBlank c = true := fun c hc =>
    h c (hcs ▸ List.mem_append_right _ hc) (hafter c hc)
  have hbefore' : ∀ c ∈ before, Text.isAsciiBlank c = true := fun c hc =>
    h c (hcs ▸ List.mem_append_left _ (List.mem_append_left _ hc)) (hbefore c hc)
  have hblank : splitOnto [] after = [] := by
    rw [← List.append_nil after, splitOnto_blanks_append hafter', splitOnto]
    rfl
  conv_lhs => rw [hcs]
  rw [splitOnto_append (endsAll_blanks hafter'), splitOnto_blanks_append hbefore', hblank,
    List.append_nil]

/-! ## Replacing a word -/

/-- The characters, with others in the place of those of every lexeme that is the word. -/
def replaceChars (word : String) (body : List Char) : List Char → List Char
  | [] => []
  | c :: cs =>
      if Text.isAsciiBlank c then
        c :: replaceChars word body cs
      else
        (if ofChars c (cs.takeWhile (continues c)) = .word word then body
          else c :: cs.takeWhile (continues c))
          ++ replaceChars word body (cs.dropWhile (continues c))
termination_by cs => cs.length
decreasing_by
  · exact Nat.lt_succ_self _
  · exact Nat.lt_succ_of_le (List.dropWhile_sublist _).length_le

/-- The lexemes, with others in the place of every one that is the word. -/
def replace (word : String) (body lexemes : List Lexeme) : List Lexeme :=
  lexemes.flatMap fun lexeme => if lexeme = .word word then body else [lexeme]

end Lexeme

/-- A text without the blanks at its ends, with a body in parentheses in the place of every lexeme
    that is the word. -/
def Text.replaceWord (word body text : String) : String :=
  String.ofList (Lexeme.replaceChars word ('(' :: body.toList ++ [')']) (trimList text.toList))

namespace Lexeme

variable {word : String} {body : List Char}

/-- What ends in front of characters ends in front of them when the word has been replaced by
    something that begins with a parenthesis. -/
theorem continues_head?_replaceChars {first : Char} {cs : List Char}
    (h : ∀ c ∈ cs.head?, continues first c = false) :
    ∀ c ∈ (replaceChars word ('(' :: body) cs).head?, continues first c = false := by
  cases cs with
  | nil =>
    rw [replaceChars]
    exact h
  | cons c cs =>
    rw [replaceChars]
    split_ifs
    · exact h
    · rintro _ ⟨⟩
      exact (continues_parenthesis first).1
    · exact h

/-- A text is split like the one with the word in it, with the lexemes of the body, in parentheses,
    in the place of the word: by induction on the characters that have not been split. -/
theorem splitOnto_replaceChars : (cs : List Char) →
    splitOnto [] (replaceChars word ('(' :: body ++ [')']) cs)
      = replace word (.opening :: splitOnto [] body ++ [.closing]) (splitOnto [] cs)
  | [] => by
    rw [replaceChars, splitOnto]
    rfl
  | c :: cs => by
    have hopening (rest : List Char) : splitOnto [] ('(' :: rest) = .opening :: splitOnto [] rest :=
      splitOnto_single (by decide) (fun _ => rfl) rest
    have hclosing (rest : List Char) : splitOnto [] (')' :: rest) = .closing :: splitOnto [] rest :=
      splitOnto_single (by decide) (fun _ => rfl) rest
    rw [replaceChars]
    cases hc : Text.isAsciiBlank c with
    | true =>
      rw [if_pos rfl, splitOnto, if_pos hc, splitOnto, if_pos hc]
      exact splitOnto_replaceChars cs
    | false =>
      have hrest := splitOnto_replaceChars (cs.dropWhile (continues c))
      rw [if_neg Bool.false_ne_true, splitOnto_cons hc cs, replace, List.flatMap_cons, ← replace,
        ← hrest]
      split_ifs with hword
      · rw [List.append_assoc, List.singleton_append, List.cons_append, hopening,
          splitOnto_append (endsAll_closing _), hclosing]
        simp
      · -- The lexeme ends where it has ended.
        have hends : ∀ d ∈ (replaceChars word ('(' :: body ++ [')'])
            (cs.dropWhile (continues c))).head?, continues c d = false := by
          refine continues_head?_replaceChars fun d hd => ?_
          have hnot := List.head?_dropWhile_not (continues c) cs
          rw [Option.mem_def.mp hd] at hnot
          simpa using hnot
        obtain ⟨htake, hdrop⟩ := span_append hends (cs.takeWhile (continues c))
        have hself : (cs.takeWhile (continues c)).takeWhile (continues c)
            = cs.takeWhile (continues c) :=
          List.takeWhile_eq_self_iff.mpr fun d hd => List.mem_takeWhile_imp hd
        have hnone : (cs.takeWhile (continues c)).dropWhile (continues c) = [] :=
          List.dropWhile_eq_nil_iff.mpr fun d hd => List.mem_takeWhile_imp hd
        rw [hself] at htake
        rw [hnone, List.nil_append] at hdrop
        show splitOnto [] (c :: (cs.takeWhile (continues c) ++ _)) = _
        rw [splitOnto_cons hc, htake, hdrop]
        rfl
termination_by cs => cs.length
decreasing_by
  · exact Nat.lt_succ_of_le (List.dropWhile_sublist _).length_le
  · exact Nat.lt_succ_self _

/-! ## Trimming -/

/-- The last character is not blank if it was not before, by induction on the characters that have
    not been split. -/
theorem last_replaceChars : (cs : List Char) → (∃ c ∈ cs.getLast?, Text.isBlank c = false) →
    ∃ c ∈ (replaceChars word (body ++ [')']) cs).getLast?, Text.isBlank c = false
  | [], h => by
    rw [replaceChars]
    exact h
  | c :: cs, h => by
    -- Only the last of two parts counts, unless it is empty.
    have hlast (first : List Char) {last : List Char}
        (h : ∃ c ∈ last.getLast?, Text.isBlank c = false) :
        ∃ c ∈ (first ++ last).getLast?, Text.isBlank c = false := by
      obtain ⟨d, hd, hblank⟩ := h
      exact ⟨d, by rw [List.getLast?_append, Option.mem_def.mp hd]; rfl, hblank⟩
    have hlast' (first : List Char) {last : List Char} (hne : last ≠ [])
        (h : ∃ c ∈ (first ++ last).getLast?, Text.isBlank c = false) :
        ∃ c ∈ last.getLast?, Text.isBlank c = false := by
      rwa [List.getLast?_append_of_ne_nil first hne] at h
    rw [replaceChars]
    cases hc : Text.isAsciiBlank c with
    | true =>
      have hne : cs ≠ [] := by
        rintro rfl
        obtain ⟨d, hd, hblank⟩ := h
        obtain rfl := Option.some.inj hd
        rw [List.getLast_singleton, Text.isBlank_of_isAsciiBlank hc] at hblank
        cases hblank
      rw [if_pos rfl]
      exact hlast [c] (last_replaceChars cs (hlast' [c] hne h))
    | false =>
      rw [if_neg Bool.false_ne_true]
      by_cases hdrop : cs.dropWhile (continues c) = []
      · have htake : cs.takeWhile (continues c) = cs :=
          List.takeWhile_eq_self_iff.mpr (List.dropWhile_eq_nil_iff.mp hdrop)
        rw [hdrop, htake, replaceChars, List.append_nil]
        split
        · exact hlast body ⟨')', rfl, by decide⟩
        · exact h
      · have hwhole : c :: cs.takeWhile (continues c) ++ cs.dropWhile (continues c) = c :: cs := by
          rw [List.cons_append, List.takeWhile_append_dropWhile]
        exact hlast _ (last_replaceChars _ (hlast' _ hdrop (hwhole ▸ h)))
termination_by cs => cs.length
decreasing_by
  · exact Nat.lt_succ_of_le (List.dropWhile_sublist _).length_le
  · exact Nat.lt_succ_self _

/-- There is still nothing to trim when a word has been replaced. -/
theorem tight_replaceChars {cs : List Char} (h : Text.Tight cs) :
    Text.Tight (replaceChars word ('(' :: body ++ [')']) cs) where
  first := by
    obtain ⟨c, hc, hblank⟩ := h.first
    obtain ⟨cs, rfl⟩ := List.head?_eq_some_iff.mp hc
    have hascii : Text.isAsciiBlank c = false := by
      rw [Bool.eq_false_iff] at hblank ⊢
      exact mt Text.isBlank_of_isAsciiBlank hblank
    rw [replaceChars, hascii, if_neg Bool.false_ne_true]
    split
    · exact ⟨'(', rfl, by decide⟩
    · exact ⟨c, rfl, hblank⟩
  last := last_replaceChars cs h.last

/-- The lexemes of a text in which a word has been replaced. -/
theorem ofText_replaceWord (word : String) {body : String} (text : String)
    (h : ∀ c ∈ body.toList, Text.isBlank c = true → Text.isAsciiBlank c = true) :
    ofText (Text.replaceWord word body text)
      = replace word (.opening :: ofText body ++ [.closing]) (ofText text) := by
  have hbody : splitOnto [] body.toList = ofText body := splitOnto_trimList h
  have htrim : Text.trimList (replaceChars word ('(' :: body.toList ++ [')'])
        (Text.trimList text.toList))
      = replaceChars word ('(' :: body.toList ++ [')']) (Text.trimList text.toList) := by
    by_cases hempty : Text.trimList text.toList = []
    · rw [hempty, replaceChars]
      rfl
    · exact (tight_replaceChars (Text.tight_trimList hempty)).trimList_eq
  rw [ofText, Text.replaceWord, String.toList_ofList, htrim, splitOnto_replaceChars, hbody]
  rfl

end Lexeme

end LambdaCalc
