import LambdaCalc.Proofs.Keyword.Exchange
import LambdaCalc.Proofs.Keyword.Mirror
import LambdaCalc.Proofs.Keyword.Replacement

set_option autoImplicit false

/-! # A keyword means its body in parentheses

A text may use a keyword, or have the body of the keyword, in parentheses, wherever it uses it. As
long as the names of the body occur nowhere else in the text, that makes no difference to what is
built (`KeywordTable.build_replaceWord`): the keyword brings its names along with a qualifier, and
the body without one, but the names of a keyword that has never been defined before are qualified
like no others, and qualifiers are taken off before a name is shown. -/

namespace LambdaCalc

open Qualifier

/-- The expression of a text, built with room for so many groups inside one another, or for any
    number. -/
def KeywordTable.build (table : KeywordTable) (room : Option Nat) (text : String) :
    Outcome Expression := do
  Expression.ofTokensWithin room (← table.tokenize text)

/-- Whether a word behind a lexeme is a parameter. -/
def Lexeme.parametersBehind (parameters : Bool) : Lexeme → Bool
  | .lambda _ => true
  | .word _ => parameters
  | .opening | .closing | .dot => false

/-- A word occurs only where an element of a spine may stand, and not among the parameters behind a
    lambda. -/
def Lexeme.InSpine (word : String) : (parameters : Bool) → List Lexeme → Prop
  | _, [] => True
  | parameters, lexeme :: rest =>
      (lexeme = .word word → parameters = false)
        ∧ InSpine word (lexeme.parametersBehind parameters) rest

theorem Lexeme.ofText_trim (text : String) : ofText (Text.trim text) = ofText text := by
  rw [ofText, ofText, Text.toList_trim, Text.trimList_trimList]

instance Lexeme.decidableInSpine (word : String) :
    ∀ (parameters : Bool) (lexemes : List Lexeme), Decidable (InSpine word parameters lexemes)
  | _, [] => isTrue trivial
  | parameters, lexeme :: rest =>
      have := decidableInSpine word (lexeme.parametersBehind parameters) rest
      inferInstanceAs (Decidable (_ ∧ _))

/-- Expressions that cannot be told apart: they have the same tree and the same text, and within any
    limits both reduce to such expressions, or stop for the same reason. -/
structure Expression.Indistinguishable (expression expression' : Expression) : Prop where
  root_eq : expression.root = expression'.root
  render_eq : expression.render = expression'.render
  reduce (limits : Limits) : Outcome.Alike Eq
    (fun reduced reduced' => reduced.root = reduced'.root ∧ reduced.render = reduced'.render)
    (expression.reduce limits) (expression'.reduce limits)

theorem Expression.Same.indistinguishable {expression expression' : Expression}
    (h : expression.Same expression') (hwellFormed : expression.WellFormed) :
    expression.Indistinguishable expression' := by
  refine ⟨h.root, h.render_eq hwellFormed, fun limits => ?_⟩
  refine (h.reduce hwellFormed limits).and_eq_ok.mono (fun _ _ => id) fun reduced reduced' h' => ?_
  obtain ⟨hsame, hreduce⟩ := h'
  exact ⟨hsame.root, hsame.render_eq (hwellFormed.reduce hreduce)⟩

/-! ## Texts that close their parentheses -/

namespace TextReading

variable {table : KeywordTable} {keyword : Option String}

/-- The parentheses that are open are those that have been opened and not closed: by induction on
    the lexemes. -/
theorem depth_foldlM {lexemes : List Lexeme} {reading last : TextReading}
    (h : lexemes.foldlM (step table keyword) reading = .ok last) :
    last.depth + lexemes.count .closing = reading.depth + lexemes.count .opening := by
  induction lexemes generalizing reading with
  | nil =>
    obtain rfl := Except.ok.inj h
    rfl
  | cons lexeme lexemes ih =>
    rw [List.foldlM_cons] at h
    obtain ⟨between, hstep, hrest⟩ := Outcome.bind_eq_ok.mp h
    have hcount := ih hrest
    rw [List.count_cons, List.count_cons]
    cases reads_of_step hstep with
    | opening =>
      simp only at hcount
      simp
      omega
    | closing _ hdepth =>
      simp only at hcount
      simp
      omega
    | lambda | dot | word | parameter => simpa [emit] using hcount

/-- What is read of a text with tokens: they are written in one group, which closes those that the
    text leaves open. -/
theorem exists_reading_of_tokenize {text : String} {tokens : List Token}
    (htokens : table.tokenize text keyword = .ok tokens) (hne : tokens ≠ []) :
    ∃ reading, (Lexeme.ofText text).foldlM (step table keyword) {} = .ok reading
      ∧ reading.mode = .spine
      ∧ tokens = .opening :: reading.tokens.toList ++ List.replicate reading.depth .closing
        ++ [.closing] := by
  obtain ⟨reading, hrun, hresult⟩ := Outcome.bind_eq_ok.mp htokens
  unfold result at hresult
  split_ifs at hresult with hmode
  · exact absurd (Except.ok.inj hresult).symm hne
  · exact ⟨reading, hrun, by simpa using hmode, (Except.ok.inj hresult).symm⟩

/-- A text in parentheses, where an element of a spine may stand, is read as it is read on its own,
    with a group around it, of which the end closes the innermost one that the text leaves open. -/
theorem exists_foldlM_group {lexemes : List Lexeme} (hword : ∀ word, keyword ≠ some word)
    {alone : TextReading} (halone : lexemes.foldlM (step table keyword) {} = .ok alone)
    (hspine : alone.mode = .spine) {reading : TextReading} (hmode : reading.mode = .spine) :
    ∃ last,
      (Lexeme.opening :: lexemes ++ [Lexeme.closing]).foldlM (step table keyword) reading = .ok last
      ∧ last.mode = .spine ∧ last.depth = reading.depth + alone.depth
      ∧ last.tokens.toList
        = reading.tokens.toList ++ (.opening :: alone.tokens.toList ++ [.closing]) := by
  have hopened : step table keyword reading .opening
      = .ok { reading.emit [.opening] with depth := reading.depth + 1 } := by
    rw [step, requireSpine, hmode]
    rfl
  -- Behind the parenthesis the text is read as it is alone, one level deeper.
  have hstart : Mirrors id (reading.tokens.toList ++ [.opening]) (reading.depth + 1) {}
      { reading.emit [.opening] with depth := reading.depth + 1 } := by
    refine ⟨hmode, (Nat.zero_add _).symm, ?_⟩
    simp [emit]
  obtain ⟨last, hlast, hmirrors⟩ := exists_foldlM_of_mirrors hstart ⟨rfl, rfl⟩
    (fun word _ => .of_find? (hword word) (hword word) rfl
      (fun found _ => Token.map_rename_id found) fun _ _ => rfl) halone
  -- The last parenthesis closes the innermost of the groups that are open then.
  have hclosed : step table keyword last .closing
      = .ok { last.emit [.closing] with
          depth := reading.depth + alone.depth
          bound := last.bound.filter (·.2 ≤ reading.depth + alone.depth) } := by
    have hlastDepth : last.depth = reading.depth + alone.depth + 1 := by
      rw [hmirrors.depth_eq]
      omega
    rw [step, requireSpine, hmirrors.mode_eq, hspine, hlastDepth]
    rfl
  refine ⟨{ last.emit [.closing] with
    depth := reading.depth + alone.depth
    bound := last.bound.filter (·.2 ≤ reading.depth + alone.depth) }, ?_,
    hmirrors.mode_eq.trans hspine, rfl, ?_⟩
  · rw [List.cons_append, List.foldlM_cons, hopened]
    show (lexemes ++ [Lexeme.closing]).foldlM (step table keyword) _ = _
    rw [List.foldlM_append, hlast]
    exact Outcome.bind_eq_ok.mpr ⟨last, rfl, Outcome.bind_eq_ok.mpr ⟨_, hclosed, rfl⟩⟩
  · simp [emit, hmirrors.tokens_eq, Token.map_rename_id]

/-! ## A body in the place of its keyword -/

theorem spine_of_reads {parameters : Bool} {lexeme : Lexeme} {reading reading' : TextReading}
    (h : Reads table keyword reading lexeme reading')
    (hmode : parameters = false → reading.mode = .spine) :
    lexeme.parametersBehind parameters = false → reading'.mode = .spine := by
  cases h with
  | opening hspine | closing hspine => exact fun _ => hspine
  | lambda => exact nofun
  | dot => exact fun _ => rfl
  | word hspine => exact fun _ => hspine
  | parameter hparameter => exact fun hfalse => absurd (hmode hfalse) hparameter

/-- Lexemes with a group in the place of a keyword are read like those with the keyword, if the
    tokens of the keyword are those of the group with other names: by induction on the lexemes. -/
theorem foldlM_replace_alike {f : String → String} {table' : KeywordTable} (word : String)
    {group : List Lexeme} {tokens : List Token}
    (hnumeral : Numeral.Named fun name => f name = name)
    (hgroup : ∀ reading : TextReading, reading.mode = .spine → ∃ last,
      group.foldlM (step table none) reading = .ok last ∧ last.mode = .spine
        ∧ last.depth = reading.depth ∧ last.tokens.toList = reading.tokens.toList ++ tokens)
    (hword : ∃ found, table'.keywords.find? word = some found
      ∧ found = tokens.map (Token.rename f))
    {lexemes : List Lexeme} (hothers : ∀ other, .word other ∈ lexemes → other ≠ word →
      WordAlike f table table' none none other)
    {parameters : Bool} (hspine : Lexeme.InSpine word parameters lexemes)
    {reading reading' : TextReading} (hmirrors : Mirrors f [] 0 reading reading')
    (hmode : parameters = false → reading.mode = .spine) :
    Outcome.Alike Stop.SameClass (Mirrors f [] 0)
      ((Lexeme.replace word group lexemes).foldlM (step table none) reading)
      (lexemes.foldlM (step table' none) reading') := by
  induction lexemes generalizing parameters reading reading' with
  | nil => exact .ok hmirrors
  | cons lexeme lexemes ih =>
    obtain ⟨hlexeme, hrest⟩ := hspine
    have ih {reading reading' : TextReading} := @ih
      (fun other hmem => hothers other (List.mem_cons_of_mem _ hmem)) _ hrest reading reading'
    rw [Lexeme.replace, List.flatMap_cons, ← Lexeme.replace, List.foldlM_append, List.foldlM_cons]
    split_ifs with heq
    · -- The group writes the tokens that the keyword stands for.
      subst heq
      have hmode := hmode (hlexeme rfl)
      obtain ⟨last, hlast, hlastMode, hdepth, htokens⟩ := hgroup reading hmode
      obtain ⟨found, hfind, hfound⟩ := hword
      have hstep : step table' none reading' (.word word) = .ok (reading'.emit found) := by
        simp only [step, hmirrors.mode_eq, hmode, wordTokens, hfind]
        rfl
      rw [hlast, hstep]
      refine ih ⟨?_, ?_, ?_⟩ fun _ => hlastMode
      · exact hmirrors.mode_eq.trans (hmode.trans hlastMode.symm)
      · exact hmirrors.depth_eq.trans (congrArg (· + 0) hdepth.symm)
      · rw [emit, Array.toList_appendList, hmirrors.tokens_eq, htokens, hfound]
        simp
    · have hstep : Outcome.Alike Stop.SameClass (Mirrors f [] 0) (step table none reading lexeme)
          (step table' none reading' lexeme) := by
        refine step_mirrors hmirrors hnumeral (fun other hother => ?_) fun _ _ => rfl
        refine hothers other (hother ▸ List.mem_cons_self) fun hsame => heq ?_
        rw [hother, hsame]
      have hone : [lexeme].foldlM (step table none) reading = step table none reading lexeme :=
        bind_pure _
      rw [hone]
      refine hstep.and_eq_ok.bind fun between between' h => ?_
      obtain ⟨hbetween, hread⟩ := h
      exact ih hbetween (spine_of_reads (reads_of_step hread) hmode)

end TextReading

namespace KeywordTable

/-! ## Defining the keyword -/

/-- Whether a word of a body is a name of its own, and no keyword. -/
def isOwnName (table : KeywordTable) (body word : String) : Bool :=
  Word.isName word && !table.contains word && decide (.word word ∈ Lexeme.ofText body)

/-- The names of a body are exchanged for those that are qualified by its keyword. -/
def ownRename (table : KeywordTable) (keyword body : String) : String → String :=
  exchange (table.isOwnName body) keyword

/-- A keyword that is new, and does not occur in its body. -/
structure New (table : KeywordTable) (keyword body : String) : Prop where
  isName : Word.isName keyword = true
  not_mem : .word keyword ∉ Lexeme.ofText body
  named : table.Named (Foreign keyword)

theorem isName_of_isOwnName {table : KeywordTable} {body word : String}
    (h : table.isOwnName body word = true) : Word.isName word = true := by
  rw [isOwnName, Bool.and_assoc] at h
  exact (Bool.and_eq_true_iff.mp h).1

theorem isOwnName_iff {table : KeywordTable} {body word : String}
    (hname : Word.isName word = true) (hfind : table.keywords.find? word = none) :
    table.isOwnName body word = true ↔ .word word ∈ Lexeme.ofText body := by
  have hcontains : table.contains word = false := by
    rw [KeywordTable.contains, OrderedTable.contains, hfind]
    rfl
  rw [isOwnName, hname, hcontains]
  simp

namespace New

variable {table : KeywordTable} {keyword body : String} (h : table.New keyword body)

include h

theorem isKeyword : Word.IsKeyword keyword := Word.isKeyword_of_isName h.isName

theorem ownRename_injective : (table.ownRename keyword body).Injective :=
  (exchange_involutive h.isKeyword fun _ => isName_of_isOwnName).injective

theorem short_ownRename (name : String) :
    short (table.ownRename keyword body name) = short name :=
  short_exchange h.isKeyword (fun _ => isName_of_isOwnName) name

omit h in
theorem ownRename_of_foreign {name : String} (hforeign : Foreign keyword name) :
    table.ownRename keyword body name = name :=
  exchange_of_foreign hforeign fun _ => isName_of_isOwnName

theorem ownRename_numeral :
    Numeral.Named fun name => table.ownRename keyword body name = name :=
  have hforeign := Numeral.named_foreign h.isKeyword
  ⟨ownRename_of_foreign hforeign.1, ownRename_of_foreign hforeign.2⟩

/-- The keywords bring along no names of the body. -/
theorem map_rename_tokens {word : String} {found : List Token}
    (hfind : table.keywords.find? word = some found) :
    found.map (Token.rename (table.ownRename keyword body)) = found :=
  Token.map_rename_eq_self fun token hmem =>
    (h.named word found hfind token hmem).mono fun _ => ownRename_of_foreign

/-- In the body of the keyword, its tokens have its names with the qualifier. -/
theorem tokenize_body {tokens : List Token} (htokens : table.tokenize body = .ok tokens) :
    table.tokenize body (some keyword)
      = .ok (tokens.map (Token.rename (table.ownRename keyword body))) := by
  obtain ⟨reading, hrun, hresult⟩ := Outcome.bind_eq_ok.mp htokens
  have hwords (word : String) (hmem : .word word ∈ Lexeme.ofText body) :
      TextReading.WordAlike (table.ownRename keyword body) table table none (some keyword)
        word := by
    refine .of_find? nofun ?_ rfl (fun found => h.map_rename_tokens) fun hname hfind => ?_
    · rintro ⟨⟩
      exact h.not_mem hmem
    · exact (exchange_of_own ((isOwnName_iff hname hfind).mpr hmem)).symm
  obtain ⟨reading', hrun', hmirrors⟩ := TextReading.exists_foldlM_of_mirrors
    (TextReading.mirrors_start _) h.ownRename_numeral hwords hrun
  have halike := TextReading.result_mirrors hmirrors
  rw [hresult] at halike
  obtain ⟨_, hresult', rfl⟩ := halike.exists_ok
  exact Outcome.bind_eq_ok.mpr ⟨reading', hrun', hresult'⟩

theorem trim_keyword : Text.trim keyword = keyword := by
  rw [Text.trim, (Word.tight_of_isName h.isName).trimList_eq, String.ofList_toList]

theorem define {tokens : List Token} (htokens : table.tokenize body = .ok tokens)
    (hne : tokens ≠ []) :
    table.define keyword body
      = .ok (table.entered keyword body
          (tokens.map (Token.rename (table.ownRename keyword body)))) := by
  have hname : Word.IsKeyword (Text.trim keyword) := by
    rw [h.trim_keyword]
    exact h.isKeyword
  refine define_of_tokenize hname ?_ fun hnil => hne (List.map_eq_nil_iff.mp hnil)
  rw [h.trim_keyword, KeywordTable.tokenize, Lexeme.ofText_trim]
  exact h.tokenize_body htokens

theorem keywords_entered (tokens : List Token) :
    (table.entered keyword body tokens).keywords = table.keywords.put keyword tokens := by
  rw [entered, h.trim_keyword]

/-! ## The text with the keyword, and with the body -/

/-- The text with the body in parentheses has the tokens of the text with the keyword, with other
    names, or is refused for a fault of the same kind. -/
theorem tokenize_replaceWord {tokens : List Token} (htokens : table.tokenize body = .ok tokens)
    (hne : tokens ≠ [])
    (hclosed : (Lexeme.ofText body).count .opening = (Lexeme.ofText body).count .closing)
    {inserted : String} (hinserted : Lexeme.ofText inserted = Lexeme.ofText body)
    (hblanks : ∀ c ∈ inserted.toList, Text.isBlank c = true → Text.isAsciiBlank c = true)
    {text : String} (hapart : ∀ word, table.isOwnName body word = true →
      .word word ∉ Lexeme.ofText text)
    (hspine : Lexeme.InSpine keyword false (Lexeme.ofText text)) {defined : KeywordTable}
    (hdefined : table.define keyword body = .ok defined) :
    Outcome.Alike Stop.SameClass
      (fun tokens tokens' => tokens' = tokens.map (Token.rename (table.ownRename keyword body)))
      (table.tokenize (Text.replaceWord keyword inserted text)) (defined.tokenize text) := by
  obtain rfl := Except.ok.inj (hdefined.symm.trans (h.define htokens hne))
  obtain ⟨alone, halone, hmode, rfl⟩ := TextReading.exists_reading_of_tokenize htokens hne
  have hnone (word : String) : none ≠ some word := nofun
  -- The body closes all that it opens, so that its group ends where the body ends.
  have hdepth : alone.depth = 0 := by
    have hcount := TextReading.depth_foldlM halone
    have hstart : (({} : TextReading)).depth = 0 := rfl
    omega
  rw [hdepth, List.replicate_zero, List.append_nil]
  rw [KeywordTable.tokenize, KeywordTable.tokenize, Lexeme.ofText_replaceWord keyword text hblanks,
    hinserted]
  have hgroup (reading : TextReading) := @TextReading.exists_foldlM_group _ _ _ hnone _ halone hmode
    reading
  simp only [hdepth, Nat.add_zero] at hgroup
  refine (TextReading.foldlM_replace_alike keyword h.ownRename_numeral hgroup ?_
    (fun word hmem hne => ?_) hspine (TextReading.mirrors_start _) fun _ => rfl).bind
    fun _ _ => TextReading.result_mirrors
  · rw [h.keywords_entered, OrderedTable.find?_put, if_pos rfl]
    exact ⟨_, rfl, rfl⟩
  · refine .of_find? (hnone word) (hnone word) ?_ (fun found => h.map_rename_tokens) ?_
    · rw [h.keywords_entered, OrderedTable.find?_put, if_neg hne]
    · intro hname _
      have hnot : table.isOwnName body word = false :=
        Bool.eq_false_iff.mpr fun hown => hapart word hown hmem
      exact (exchange_of_not_own hnot hname).symm

end New

/-! ## What the keyword means -/

/-- The keyword can be defined by the body, and what is then built of a text cannot be told apart
    from what is built before of the text with something in parentheses in the place of the keyword;
    or both texts are refused for faults of one kind. -/
def Means (table : KeywordTable) (keyword body inserted text : String) : Prop :=
  ∃ defined, table.define keyword body = .ok defined
    ∧ ∀ room, Outcome.Alike Stop.SameClass Expression.Indistinguishable
        (table.build room (Text.replaceWord keyword inserted text)) (defined.build room text)

/-- A word that may be replaced in a text by the body in parentheses: the body has tokens and closes
    all its groups, the word is a name that is not in it, and the text has the word only where an
    element of a spine may stand, and none of the names of the body. -/
structure Replaceable (table : KeywordTable) (keyword body text : String) : Prop where
  isName : Word.isName keyword = true
  not_mem : .word keyword ∉ Lexeme.ofText body
  tokenizes : ∃ tokens, table.tokenize body = .ok tokens ∧ tokens ≠ []
  closed : (Lexeme.ofText body).count .opening = (Lexeme.ofText body).count .closing
  apart (word : String) : .word word ∈ Lexeme.ofText body → Word.isName word = true →
    table.contains word = false → .word word ∉ Lexeme.ofText text
  inSpine : Lexeme.InSpine keyword false (Lexeme.ofText text)

/-- A new keyword means its body, with any blanks around it that separate lexemes. -/
theorem Replaceable.means {table : KeywordTable} {keyword body text : String}
    (h : table.Replaceable keyword body text) (htable : table.Reachable)
    (hnamed : table.Named (Foreign keyword)) {inserted : String}
    (hinserted : Lexeme.ofText inserted = Lexeme.ofText body)
    (hblanks : ∀ c ∈ inserted.toList, Text.isBlank c = true → Text.isAsciiBlank c = true) :
    table.Means keyword body inserted text := by
  have hnew : table.New keyword body := ⟨h.isName, h.not_mem, hnamed⟩
  obtain ⟨tokens, htokens, hne⟩ := h.tokenizes
  have hdefined := hnew.define htokens hne
  have hown (word : String) (hword : table.isOwnName body word = true) :
      .word word ∉ Lexeme.ofText text := by
    rw [isOwnName, Bool.and_eq_true, Bool.and_eq_true, Bool.not_eq_true', decide_eq_true_eq]
      at hword
    exact h.apart word hword.2 hword.1.1 hword.1.2
  refine ⟨_, hdefined, fun room => ?_⟩
  have halike :=
    hnew.tokenize_replaceWord htokens hne h.closed hinserted hblanks hown h.inSpine hdefined
  refine halike.and_eq_ok.bind fun plain _ hplain => ?_
  obtain ⟨rfl, hplain⟩ := hplain
  have hsame := Expression.ofTokensWithin_rename hnew.ownRename_injective hnew.short_ownRename room
    (htable.named_tokenize hplain)
  refine hsame.and_eq_ok.mono (fun _ _ => id) fun expression expression' hbuilt => ?_
  exact hbuilt.1.indistinguishable (Expression.wellFormed_of_ofTokens hbuilt.2)

/-- A keyword that has never been defined before means its body without the blanks at its ends, in
    parentheses, and with these blanks if all of them separate lexemes. -/
theorem build_replaceWord {withPrelude : Bool} {start : KeywordTable}
    (hstart : KeywordTable.initial withPrelude = .ok start) {calls : List Call}
    {keyword body text : String}
    (hnever : ∀ earlier, earlier <+: calls → (start.afterCalls earlier).contains keyword = false)
    (h : (start.afterCalls calls).Replaceable keyword body text) :
    (start.afterCalls calls).Means keyword body (Text.trim body) text
      ∧ ((∀ c ∈ body.toList, Text.isBlank c = true → Text.isAsciiBlank c = true) →
          (start.afterCalls calls).Means keyword body body text) := by
  have hreachable := (Reachable.initial hstart).afterCalls calls
  have hnamed := named_foreign_afterCalls (Word.isKeyword_of_isName h.isName) hstart hnever
  refine ⟨h.means hreachable hnamed (Lexeme.ofText_trim body) ?_, h.means hreachable hnamed rfl⟩
  obtain ⟨tokens, htokens, _⟩ := h.tokenizes
  rw [Text.toList_trim]
  exact hreachable.isAsciiBlank_of_tokenize htokens

/-- After `j = λx.x`, the text `λa.k (k a` uses `k` twice, and leaves a group open. -/
theorem means_of_two_uses :
    Text.replaceWord "k" " λy.j (y z)" "λa.k (k a" = "λa.( λy.j (y z)) (( λy.j (y z)) a"
    ∧ Replaceable (afterCalls {} [.define "j" "λx.x"]) "k" " λy.j (y z)" "λa.k (k a"
    ∧ Means (afterCalls {} [.define "j" "λx.x"]) "k" " λy.j (y z)" " λy.j (y z)" "λa.k (k a" := by
  have htokens : tokenize (afterCalls {} [.define "j" "λx.x"]) " λy.j (y z)"
      = .ok [.opening, .func "y", .opening, .func "$j$x", .var "$j$x", .closing, .opening,
        .var "y", .var "z", .closing, .closing] := by
    decide +kernel
  have hbody : Lexeme.ofText " λy.j (y z)" = [.lambda 'λ', .word "y", .dot, .word "j", .opening,
      .word "y", .word "z", .closing] := by
    decide +kernel
  have htext : Lexeme.ofText "λa.k (k a" = [.lambda 'λ', .word "a", .dot, .word "k", .opening,
      .word "k", .word "a"] := by
    decide +kernel
  have hreplaceable :
      Replaceable (afterCalls {} [.define "j" "λx.x"]) "k" " λy.j (y z)" "λa.k (k a" := by
    have hj : (afterCalls {} [.define "j" "λx.x"]).contains "j" = true := by decide +kernel
    refine ⟨by decide, by simp [hbody], ⟨_, htokens, nofun⟩, by simp [hbody], ?_, ?_⟩
    · intro word hmem _ hcontains
      have hword : word = "y" ∨ word = "j" ∨ word = "y" ∨ word = "z" := by simpa [hbody] using hmem
      rcases hword with rfl | rfl | rfl | rfl
      · simp [htext]
      · rw [hj] at hcontains
        cases hcontains
      · simp [htext]
      · simp [htext]
    · rw [htext]
      decide
  have hnever (earlier : List Call) (h : earlier <+: [.define "j" "λx.x"]) :
      (afterCalls {} earlier).contains "k" = false := by
    have hall : ∀ earlier ∈ List.inits [Call.define "j" "λx.x"],
        (afterCalls {} earlier).contains "k" = false := by decide +kernel
    exact hall earlier ((List.mem_inits _ _).mpr h)
  have hinitial : KeywordTable.initial false = .ok {} := rfl
  have hblanks : ∀ c ∈ " λy.j (y z)".toList, Text.isBlank c = true → Text.isAsciiBlank c = true :=
    List.all_iff_forall_prop.mp (by decide +kernel)
  exact ⟨by decide +kernel, hreplaceable,
    (build_replaceWord hinitial hnever hreplaceable).2 hblanks⟩

/-- A no-break space at the start of a body does not keep `k` from being defined, but cannot go into
    the place of `k`: blanks inside a text have to be among the six that separate lexemes. -/
theorem not_means_of_no_break_space :
    Replaceable {} "k" "\u00a0x" "k" ∧ ¬ Means {} "k" "\u00a0x" "\u00a0x" "k" := by
  have htokens : tokenize {} "\u00a0x" = .ok [.opening, .var "x", .closing] := by decide +kernel
  have hbody : Lexeme.ofText "\u00a0x" = [.word "x"] := by decide +kernel
  have htext : Lexeme.ofText "k" = [.word "k"] := by decide +kernel
  refine ⟨⟨by decide, by simp [hbody], ⟨_, htokens, nofun⟩, by simp [hbody], ?_, ?_⟩, ?_⟩
  · intro word hmem _ _
    obtain rfl : word = "x" := by simpa [hbody] using hmem
    simp [htext]
  · rw [htext]
    decide
  · rintro ⟨defined, hdefined, halike⟩
    have hdefine : KeywordTable.define {} "k" "\u00a0x" = .ok {
        keywords := { entries := [("k", [.opening, .var "$k$x", .closing])] }
        sources := { entries := [("k", "x")] } } := by
      decide +kernel
    obtain rfl := Except.ok.inj (hdefine.symm.trans hdefined)
    have hrefused : tokenize {} (Text.replaceWord "k" "\u00a0x" "k")
        = .error (.about .invalidName "\u00a0x") := by
      decide +kernel
    have hbuilt : build {
          keywords := { entries := [("k", [.opening, .var "$k$x", .closing])] }
          sources := { entries := [("k", "x")] } } none "k"
        = .ok { root := .free 0, names := { entries := [⟨"x", 0⟩] } } := by
      cbv
    have hboth := halike none
    rw [hbuilt, build, hrefused] at hboth
    cases hboth

end KeywordTable

end LambdaCalc
