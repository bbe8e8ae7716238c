import LambdaCalc.Proofs.Expression.Uses
import LambdaCalc.Proofs.Keyword.Body

set_option autoImplicit false

/-! # A keyword in its own body

In the body of a keyword its own name may be a parameter. Wherever it is none, it would stand for
the keyword that is about to be replaced, which is refused. The reader keeps a list of the
parameters in scope for this. What is in the list can be told from the text alone
(`TextReading.Scoped`): a parameter that has been read, if the parentheses in which it stands have
not been closed since (`Lexeme.InScope`). So the name is refused exactly where it stands outside the
scope of all parameters of this name, and otherwise it becomes a reference to one of them when the
body is built (`KeywordTable.refused_iff_not_inScope`). -/

namespace LambdaCalc

/-! ## Scopes in a text -/

namespace Lexeme

/-- Whether a word behind the given lexemes is a parameter: the last lambda before it has not been
    ended by a dot. -/
def amongParameters (before : List Lexeme) : Bool := before.foldl parametersBehind false

/-- At no point have more parentheses been closed than opened: what is around goes on. -/
def StaysOpen (lexemes : List Lexeme) : Prop :=
  ∀ first, first <+: lexemes → first.count .closing ≤ first.count .opening

/-- Behind the given lexemes a word is a parameter in scope: it is one of them, as a parameter, and
    the parentheses in which it stands go on. -/
def InScope (word : String) (before : List Lexeme) : Prop :=
  ∃ outer middle, before = outer ++ .word word :: middle ∧ amongParameters outer = true
    ∧ StaysOpen middle

/-- The same, with the number of parentheses that are open where the parameter stands. -/
def InScopeAt (word : String) (depth : Nat) (before : List Lexeme) : Prop :=
  ∃ outer middle, before = outer ++ .word word :: middle ∧ amongParameters outer = true
    ∧ StaysOpen middle ∧ depth + outer.count .closing = outer.count .opening

theorem amongParameters_concat (before : List Lexeme) (lexeme : Lexeme) :
    amongParameters (before ++ [lexeme]) = lexeme.parametersBehind (amongParameters before) :=
  List.foldl_concat ..

theorem staysOpen_nil : StaysOpen [] := by
  intro first h
  rw [List.prefix_nil.mp h]
  exact Nat.le_refl _

theorem staysOpen_concat {lexemes : List Lexeme} {lexeme : Lexeme} :
    StaysOpen (lexemes ++ [lexeme]) ↔ StaysOpen lexemes
      ∧ (lexemes ++ [lexeme]).count .closing ≤ (lexemes ++ [lexeme]).count .opening := by
  constructor
  · intro h
    exact ⟨fun first hfirst => h first (hfirst.trans (List.prefix_append _ _)),
      h _ (List.prefix_refl _)⟩
  · rintro ⟨h, hcount⟩ first hfirst
    rcases List.prefix_concat_iff.mp hfirst with rfl | hfirst
    · exact hcount
    · exact h first hfirst

theorem count_around (outer middle : List Lexeme) (word : String) :
    (outer ++ .word word :: middle).count .closing
        = outer.count .closing + middle.count .closing
      ∧ (outer ++ .word word :: middle).count .opening
        = outer.count .opening + middle.count .opening := by
  simp

theorem InScopeAt.le {word : String} {depth : Nat} {before : List Lexeme}
    (h : InScopeAt word depth before) :
    depth + before.count .closing ≤ before.count .opening := by
  obtain ⟨outer, middle, rfl, _, hopen, hdepth⟩ := h
  obtain ⟨hclosing, hopening⟩ := count_around outer middle word
  have hmiddle := hopen middle (List.prefix_refl _)
  omega

/-- One more lexeme is a parameter that comes into scope, or leaves in scope what stands in
    parentheses that it does not close. -/
theorem inScopeAt_concat {word : String} {depth : Nat} {before : List Lexeme} {lexeme : Lexeme} :
    InScopeAt word depth (before ++ [lexeme])
      ↔ (lexeme = .word word ∧ amongParameters before = true
          ∧ depth + before.count .closing = before.count .opening)
        ∨ InScopeAt word depth before
          ∧ depth + (before ++ [lexeme]).count .closing ≤ (before ++ [lexeme]).count .opening := by
  constructor
  · intro h
    have hle := h.le
    obtain ⟨outer, middle, hsplit, hparameter, hopen, hdepth⟩ := h
    rcases List.eq_nil_or_concat middle with rfl | ⟨middle, last, rfl⟩
    · obtain ⟨rfl, hlast⟩ := List.append_inj' hsplit rfl
      exact Or.inl ⟨(List.cons.inj hlast).1, hparameter, hdepth⟩
    · rw [List.concat_eq_append, ← List.cons_append, ← List.append_assoc] at hsplit
      obtain ⟨rfl, hlast⟩ := List.append_inj' hsplit rfl
      rw [List.concat_eq_append] at hopen
      exact Or.inr ⟨⟨outer, middle, rfl, hparameter, (staysOpen_concat.mp hopen).1, hdepth⟩, hle⟩
  · rintro (⟨rfl, hparameter, hdepth⟩ | ⟨⟨outer, middle, rfl, hparameter, hopen, hdepth⟩, hle⟩)
    · exact ⟨before, [], rfl, hparameter, staysOpen_nil, hdepth⟩
    · refine ⟨outer, middle ++ [lexeme], List.append_assoc _ _ _, hparameter,
        staysOpen_concat.mpr ⟨hopen, ?_⟩, hdepth⟩
      obtain ⟨hclosing, hopening⟩ := count_around outer (middle ++ [lexeme]) word
      rw [List.append_assoc, List.cons_append] at hle
      omega

end Lexeme

/-! ## The list of parameters in scope -/

namespace TextReading

open Lexeme

variable {table : KeywordTable} {keyword : Option String}

/-- What has been read of a text: whether a parameter comes next, how many parentheses are open, and
    which parameters are in scope. The binding of each of them has been written. -/
structure Scoped (keyword : Option String) (before : List Lexeme) (reading : TextReading) :
    Prop where
  mode_iff : reading.mode ≠ .spine ↔ amongParameters before = true
  depth : reading.depth + before.count .closing = before.count .opening
  staysOpen : StaysOpen before
  mem_bound_iff (word : String) (depth : Nat) :
    (word, depth) ∈ reading.bound ↔ InScopeAt word depth before
  written : ∀ param ∈ reading.bound,
    .func (Qualifier.qualify keyword param.1) ∈ reading.tokens.toList

theorem scoped_start : Scoped keyword [] {} where
  mode_iff := iff_of_false (fun h => h rfl) nofun
  depth := rfl
  staysOpen := staysOpen_nil
  mem_bound_iff _ _ := iff_of_false nofun fun ⟨_, _, hsplit, _⟩ => by simp at hsplit
  written := nofun

/-- The list of parameters tells whether a word is one in scope. -/
theorem Scoped.any_iff {before : List Lexeme} {reading : TextReading}
    (h : Scoped keyword before reading) (word : String) :
    reading.bound.any (·.1 == word) = true ↔ InScope word before := by
  simp only [List.any_eq_true, beq_iff_eq]
  constructor
  · rintro ⟨⟨word, depth⟩, hmem, rfl⟩
    obtain ⟨outer, middle, hsplit, hparameter, hopen, _⟩ := (h.mem_bound_iff word depth).mp hmem
    exact ⟨outer, middle, hsplit, hparameter, hopen⟩
  · rintro ⟨outer, middle, rfl, hparameter, hopen⟩
    have hle := h.staysOpen outer (List.prefix_append _ _)
    exact ⟨(word, outer.count .opening - outer.count .closing), (h.mem_bound_iff _ _).mpr
      ⟨outer, middle, rfl, hparameter, hopen, Nat.sub_add_cancel hle⟩, rfl⟩

theorem Scoped.depth_le {before : List Lexeme} {reading : TextReading}
    (h : Scoped keyword before reading) {param : String × Nat} (hmem : param ∈ reading.bound) :
    param.2 ≤ reading.depth := by
  have hle := ((h.mem_bound_iff param.1 param.2).mp hmem).le
  have hdepth := h.depth
  omega

/-- It is enough that a lexeme changes the list of parameters as it changes the depth: a parameter
    is added at the depth at hand, and those of greater depths than the new one are taken away. -/
theorem Scoped.concat {before : List Lexeme} {reading reading' : TextReading}
    (h : Scoped keyword before reading) {lexeme : Lexeme}
    (hmode : reading'.mode ≠ .spine ↔ lexeme.parametersBehind (amongParameters before) = true)
    (hdepth : reading'.depth + (before ++ [lexeme]).count .closing
      = (before ++ [lexeme]).count .opening)
    (hbound : ∀ param, param ∈ reading'.bound
      ↔ (lexeme = .word param.1 ∧ amongParameters before = true ∧ param.2 = reading.depth)
        ∨ param ∈ reading.bound ∧ param.2 ≤ reading'.depth)
    (hwritten : ∀ param ∈ reading'.bound,
      .func (Qualifier.qualify keyword param.1) ∈ reading'.tokens.toList) :
    Scoped keyword (before ++ [lexeme]) reading' := by
  have hbefore := h.depth
  refine ⟨?_, hdepth, staysOpen_concat.mpr ⟨h.staysOpen, by omega⟩, fun word depth => ?_, hwritten⟩
  · rw [hmode, amongParameters_concat]
  · rw [hbound, inScopeAt_concat, h.mem_bound_iff]
    have hself : depth = reading.depth ↔ depth + before.count .closing = before.count .opening := by
      omega
    have hle : depth ≤ reading'.depth
        ↔ depth + (before ++ [lexeme]).count .closing ≤ (before ++ [lexeme]).count .opening := by
      omega
    rw [hself, hle]

/-- Reading a lexeme keeps what holds of the parameters in scope. -/
theorem Scoped.step {before : List Lexeme} {reading reading' : TextReading}
    (h : Scoped keyword before reading) {lexeme : Lexeme}
    (hreads : Reads table keyword reading lexeme reading') :
    Scoped keyword (before ++ [lexeme]) reading' := by
  have hbefore := h.depth
  have hemit {tokens : List Token} {token : Token} (hmem : token ∈ reading.tokens.toList) :
      token ∈ (reading.emit tokens).tokens.toList := by
    rw [emit, Array.toList_appendList]
    exact List.mem_append_left _ hmem
  -- A lexeme that is no parameter keeps the list, if it closes no parenthesis.
  have hkept {lexeme : Lexeme} {depth : Nat} (hdepth : reading.depth ≤ depth)
      (hnone : ∀ word, lexeme = .word word → amongParameters before = false)
      (param : String × Nat) :
      param ∈ reading.bound
        ↔ (lexeme = .word param.1 ∧ amongParameters before = true ∧ param.2 = reading.depth)
          ∨ param ∈ reading.bound ∧ param.2 ≤ depth := by
    constructor
    · exact fun hmem => Or.inr ⟨hmem, (h.depth_le hmem).trans hdepth⟩
    · rintro (⟨hlexeme, hparameter, _⟩ | ⟨hmem, _⟩)
      · exact absurd (hnone _ hlexeme) (Bool.not_eq_false _ ▸ hparameter)
      · exact hmem
  cases hreads with
  | opening hmode =>
    refine h.concat (iff_of_false (fun hne => hne hmode) Bool.false_ne_true) ?_
      (hkept (Nat.le_succ _) (by rintro _ ⟨⟩))
      fun param hmem => hemit (h.written param hmem)
    simp
    omega
  | closing hmode hdepth =>
    refine h.concat (iff_of_false (fun hne => hne hmode) Bool.false_ne_true) ?_ (fun param => ?_)
      fun param hmem => hemit (h.written param (List.mem_filter.mp hmem).1)
    · simp
      omega
    · simp
  | lambda sign hmode =>
    exact h.concat (iff_of_true (by rintro ⟨⟩) rfl) (by simpa using hbefore)
      (hkept (Nat.le_refl _) (by rintro _ ⟨⟩)) h.written
  | dot hmode =>
    exact h.concat (iff_of_false (fun hne => hne rfl) Bool.false_ne_true) (by simpa using hbefore)
      (hkept (Nat.le_refl _) (by rintro _ ⟨⟩)) h.written
  | word hmode htokens =>
    have hspine : amongParameters before = false := by
      rw [← Bool.not_eq_true, ← h.mode_iff]
      exact not_not.mpr hmode
    refine h.concat ?_ (by simpa [emit] using hbefore) (hkept (Nat.le_refl _) fun _ _ => hspine)
      fun param hmem => hemit (h.written param hmem)
    rw [hspine]
    exact iff_of_false (fun hne => hne hmode) Bool.false_ne_true
  | @parameter word hmode hname hkeyword =>
    have hparameter := h.mode_iff.mp hmode
    refine h.concat (iff_of_true (by rintro ⟨⟩) hparameter) (by simpa [emit] using hbefore)
      (fun param => ?_) ?_
    · rw [List.mem_append, List.mem_singleton, or_comm]
      refine or_congr ⟨?_, ?_⟩ (iff_self_and.mpr h.depth_le)
      · rintro rfl
        exact ⟨rfl, hparameter, rfl⟩
      · rintro ⟨hword, _, hdepth⟩
        exact Prod.ext (Lexeme.word.inj hword).symm hdepth
    · refine List.forall_mem_append.mpr ⟨fun param hmem => hemit (h.written param hmem),
        List.forall_mem_singleton.mpr ?_⟩
      rw [emit, Array.toList_appendList]
      exact List.mem_append_right _ List.mem_cons_self

/-- Reading a whole text: by induction on its lexemes. -/
theorem Scoped.foldlM {before lexemes : List Lexeme} {reading reading' : TextReading}
    (h : Scoped keyword before reading)
    (hrun : lexemes.foldlM (TextReading.step table keyword) reading = .ok reading') :
    Scoped keyword (before ++ lexemes) reading' := by
  induction lexemes generalizing before reading with
  | nil =>
    obtain rfl := Except.ok.inj hrun
    rwa [List.append_nil]
  | cons lexeme lexemes ih =>
    rw [List.foldlM_cons] at hrun
    obtain ⟨between, hstep, hrest⟩ := Outcome.bind_eq_ok.mp hrun
    have hlast := ih (h.step (reads_of_step hstep)) hrest
    rwa [List.append_assoc] at hlast

/-- What is written stays: by induction on the lexemes. -/
theorem exists_written {lexemes : List Lexeme} {reading reading' : TextReading}
    (hrun : lexemes.foldlM (TextReading.step table keyword) reading = .ok reading') :
    ∃ written, reading'.tokens.toList = reading.tokens.toList ++ written := by
  induction lexemes generalizing reading with
  | nil =>
    obtain rfl := Except.ok.inj hrun
    exact ⟨[], (List.append_nil _).symm⟩
  | cons lexeme lexemes ih =>
    rw [List.foldlM_cons] at hrun
    obtain ⟨between, hstep, hrest⟩ := Outcome.bind_eq_ok.mp hrun
    obtain ⟨later, hlater⟩ := ih hrest
    have hfirst : ∃ written, between.tokens.toList = reading.tokens.toList ++ written := by
      cases reads_of_step hstep with
      | lambda | dot => exact ⟨[], (List.append_nil _).symm⟩
      | opening | closing | word | parameter => exact ⟨_, Array.toList_appendList⟩
    obtain ⟨written, hwritten⟩ := hfirst
    exact ⟨written ++ later, by rw [hlater, hwritten, List.append_assoc]⟩

/-! ## The keyword's own name -/

/-- In a spine the keyword's own name is a parameter in scope, or refused. -/
theorem wordTokens_own {own : String} (hown : table.contains own = true) (reading : TextReading) :
    wordTokens table (some own) reading own
      = if reading.bound.any (·.1 == own) then .ok [.var (Qualifier.qualify (some own) own)]
        else .error (.about .recursiveKeyword own) := by
  obtain ⟨found, hfound⟩ := Option.isSome_iff_exists.mp hown
  unfold wordTokens
  simp only [decide_true, Bool.true_and, hfound, if_true]

theorem requireSpine_stops_ne (reading : TextReading) (lexeme : Lexeme) (own : String) :
    Outcome.StopsOnly (· ≠ .about .recursiveKeyword own) (reading.requireSpine lexeme) := by
  unfold requireSpine
  split
  · exact .ok ()
  · exact .error (by rintro ⟨⟩)
  · exact .error (by rintro ⟨⟩)

theorem readParameter_stops_ne (reading : TextReading) (word own : String) :
    Outcome.StopsOnly (· ≠ .about .recursiveKeyword own)
      (readParameter table keyword reading word) := by
  unfold readParameter
  split_ifs
  · exact .error (by rintro ⟨⟩)
  · exact .error (by rintro ⟨⟩)
  · exact .ok _

theorem wordTokens_stops_ne (reading : TextReading) {word own : String} (hne : word ≠ own) :
    Outcome.StopsOnly (· ≠ .about .recursiveKeyword own)
      (wordTokens table keyword reading word) := by
  unfold wordTokens
  simp only
  split
  · exact .ok _
  · split
    · split
      · refine .error ?_
        rintro ⟨⟩
        exact hne rfl
      · exact .ok _
    · split_ifs
      · rw [numberTokens, Numeral.tokens_eq]
        split_ifs
        · exact .error (by rintro ⟨⟩)
        · exact .error (by rintro ⟨⟩)
        · exact .ok _
      · exact .ok _
      · exact .error (by rintro ⟨⟩)

/-- No other lexeme is refused for being the keyword's own name. -/
theorem eq_own_of_step {own : String} {reading : TextReading} {lexeme : Lexeme}
    (h : step table keyword reading lexeme = .error (.about .recursiveKeyword own)) :
    lexeme = .word own ∧ reading.mode = .spine := by
  cases lexeme with
  | word word =>
    rw [step] at h
    split at h
    · next hmode =>
      by_cases hword : word = own
      · exact ⟨congrArg Lexeme.word hword, hmode⟩
      · exact absurd rfl (((wordTokens_stops_ne reading hword).bind fun _ _ => .ok _) h)
    · exact absurd rfl (readParameter_stops_ne reading word own h)
    · exact absurd rfl (readParameter_stops_ne reading word own h)
  | opening | lambda =>
    exact absurd rfl (((requireSpine_stops_ne reading _ own).bind fun _ _ => .ok _) h)
  | closing =>
    refine absurd rfl (((requireSpine_stops_ne reading _ own).bind fun _ _ => ?_) h)
    split
    · exact .error (by rintro ⟨⟩)
    · exact .ok _
  | dot =>
    rw [step] at h
    split at h
    · cases h
    · cases h
    · cases h

/-- In a spine the keyword's own name is written if it is a parameter in scope. -/
theorem step_own {own : String} (hown : table.contains own = true) {before : List Lexeme}
    {reading : TextReading} (h : Scoped (some own) before reading) (hmode : reading.mode = .spine) :
    (InScope own before → step table (some own) reading (.word own)
        = .ok (reading.emit [.var (Qualifier.qualify (some own) own)]))
      ∧ (¬ InScope own before → step table (some own) reading (.word own)
        = .error (.about .recursiveKeyword own)) := by
  rw [← h.any_iff, step, hmode]
  simp only [wordTokens_own hown]
  constructor
  · intro hscope
    rw [if_pos hscope]
    rfl
  · intro hscope
    rw [if_neg hscope]
    rfl

end TextReading

/-! ## Texts -/

namespace KeywordTable

open Lexeme TextReading

variable {table : KeywordTable} {own text : String}

/-- Where a text is refused for being recursive, the keyword's own name stands in a spine and
    outside the scope of all parameters of this name. -/
theorem exists_not_inScope (hown : table.contains own = true)
    (h : table.tokenize text (some own) = .error (.about .recursiveKeyword own)) :
    ∃ before after, ofText text = before ++ .word own :: after ∧ amongParameters before = false
      ∧ ¬ InScope own before := by
  unfold tokenize at h
  cases hrun : (ofText text).foldlM (TextReading.step table (some own)) {} with
  | ok reading =>
    rw [hrun] at h
    have hresult : reading.result = .error (.about .recursiveKeyword own) := h
    unfold result at hresult
    split_ifs at hresult
    cases hresult
  | error stop =>
    rw [hrun] at h
    obtain rfl : stop = .about .recursiveKeyword own := Except.error.inj h
    obtain ⟨before, lexeme, after, reading, hsplit, hbefore, hstep⟩ :=
      Outcome.foldlM_eq_error.mp hrun
    obtain ⟨rfl, hmode⟩ := eq_own_of_step hstep
    have hscoped : Scoped (some own) before reading := scoped_start.foldlM hbefore
    refine ⟨before, after, hsplit, ?_, fun hscope => ?_⟩
    · rw [← Bool.not_eq_true, ← hscoped.mode_iff]
      exact not_not.mpr hmode
    · rw [(step_own hown hscoped hmode).1 hscope] at hstep
      cases hstep

/-- In a text with tokens, the keyword's own name in a spine is a parameter in scope, and is written
    as its use behind what is written for the text before it. -/
theorem inScope_of_tokenize (hown : table.contains own = true) {tokens : List Token}
    (h : table.tokenize text (some own) = .ok tokens) {before after : List Lexeme}
    (hsplit : ofText text = before ++ .word own :: after)
    (hspine : amongParameters before = false) :
    InScope own before ∧ ∃ reading later,
      before.foldlM (TextReading.step table (some own)) {} = .ok reading
        ∧ .func (Qualifier.qualify (some own) own) ∈ reading.tokens.toList
        ∧ tokens = .opening :: reading.tokens.toList
          ++ .var (Qualifier.qualify (some own) own) :: later := by
  obtain ⟨last, hrun, hresult⟩ := Outcome.bind_eq_ok.mp h
  rw [hsplit, List.foldlM_append] at hrun
  obtain ⟨reading, hbefore, hrun⟩ := Outcome.bind_eq_ok.mp hrun
  rw [List.foldlM_cons] at hrun
  obtain ⟨behind, hstep, hrun⟩ := Outcome.bind_eq_ok.mp hrun
  have hscoped : Scoped (some own) before reading := scoped_start.foldlM hbefore
  have hmode : reading.mode = .spine := by
    rw [← not_not (a := reading.mode = .spine), ← ne_eq, hscoped.mode_iff, hspine]
    exact Bool.false_ne_true
  obtain ⟨hwrites, hrefuses⟩ := step_own hown hscoped hmode
  have hscope : InScope own before := by
    by_contra hnot
    rw [hrefuses hnot] at hstep
    cases hstep
  rw [hwrites hscope] at hstep
  obtain rfl := Except.ok.inj hstep
  obtain ⟨written, hwritten⟩ := exists_written hrun
  rw [emit, Array.toList_appendList, List.append_assoc] at hwritten
  unfold result at hresult
  split_ifs at hresult with _ hempty
  · rw [Array.isEmpty_iff.mp hempty] at hwritten
    simp at hwritten
  · obtain rfl := Except.ok.inj hresult
    refine ⟨hscope, reading, written ++ List.replicate last.depth .closing ++ [.closing], hbefore,
      ?_, ?_⟩
    · obtain ⟨param, hmem, hname⟩ := List.any_eq_true.mp ((hscoped.any_iff own).mpr hscope)
      obtain rfl := beq_iff_eq.mp hname
      exact hscoped.written param hmem
    · rw [hwritten]
      simp only [List.cons_append, List.append_assoc, List.nil_append]

open Expression Binding in
/-- A text is read, in place of the body of a keyword, up to nothing but the keyword's own name.
    Then it is refused exactly if the name stands in a spine somewhere outside the scope of all
    parameters of this name. And if it is not refused and can be built, every occurrence of the name
    in a spine is a leaf of the tree, the one behind those of the text before it, and stands for a
    parameter of this name. -/
theorem refused_iff_not_inScope (hown : table.contains own = true)
    (hread : (∃ tokens, table.tokenize text (some own) = .ok tokens)
      ∨ table.tokenize text (some own) = .error (.about .recursiveKeyword own)) :
    (table.tokenize text (some own) = .error (.about .recursiveKeyword own)
        ↔ ∃ before after, ofText text = before ++ .word own :: after
          ∧ amongParameters before = false ∧ ¬ InScope own before)
      ∧ ∀ tokens room expression, table.tokenize text (some own) = .ok tokens →
        ofTokensWithin room tokens = .ok expression →
          ∀ before after, ofText text = before ++ .word own :: after →
            amongParameters before = false →
              ∃ reading later,
                before.foldlM (TextReading.step table (some own)) {} = .ok reading
                  ∧ tokens = .opening :: reading.tokens.toList
                    ++ .var (Qualifier.qualify (some own) own) :: later
                  ∧ (expression.root.uses {})[(usedNames reading.tokens.toList).length]?
                    = some (.parameter ((meetAll [] tokens).idxOf
                        (some (Qualifier.qualify (some own) own)))) := by
  constructor
  · refine ⟨exists_not_inScope hown, ?_⟩
    rintro ⟨before, after, hsplit, hspine, hscope⟩
    rcases hread with ⟨tokens, htokens⟩ | hrefused
    · exact absurd (inScope_of_tokenize hown htokens hsplit hspine).1 hscope
    · exact hrefused
  · intro tokens room expression htokens hbuilt before after hsplit hspine
    obtain ⟨_, reading, later, hbefore, hfunc, hwritten⟩ :=
      inScope_of_tokenize hown htokens hsplit hspine
    have hused : usedNames tokens = usedNames reading.tokens.toList
        ++ some (Qualifier.qualify (some own) own) :: usedNames later := by
      rw [hwritten, usedNames_append]
      rfl
    have hbound : .func (Qualifier.qualify (some own) own) ∈ tokens := by
      rw [hwritten]
      exact List.mem_append_left _ (List.mem_cons_of_mem _ hfunc)
    refine ⟨reading, later, hbefore, hwritten, ?_⟩
    -- The leaves of the tree are the names that the tokens use, in the same order.
    rw [uses_of_ofTokens hbuilt, List.getElem?_map, hused,
      List.getElem?_append_right (Nat.le_refl _), Nat.sub_self]
    exact congrArg some (if_pos hbound)

open Expression in
/-- While `k` is a keyword, `(λk.k) k` is refused as its body, since the last `k` stands behind the
    parentheses of the parameter. And the second `k` in `λx k.k x` becomes a reference to the second
    parameter. -/
theorem refused_iff_not_inScope_twice :
    let table : KeywordTable :=
      { keywords := { entries := [("k", [.opening, .func "$k$k", .var "$k$k", .closing])] }
        sources := { entries := [("k", "λk.k")] } }
    let tokens := [.opening, .func "$k$x", .func "$k$k", .var "$k$k", .var "$k$x", .closing]
    let expression : Expression := {
      root := .abs [⟨0, 0⟩, ⟨1, 0⟩] [.bound 0 1, .bound 0 0]
      names := { entries := [⟨"x", 1⟩, ⟨"k", 1⟩] } }
    (table.tokenize "(λk.k) k" (some "k") = .error (.about .recursiveKeyword "k")
        ∧ ∃ before after, ofText "(λk.k) k" = before ++ .word "k" :: after
          ∧ amongParameters before = false ∧ ¬ InScope "k" before)
      ∧ table.tokenize "λx k.k x" (some "k") = .ok tokens
      ∧ ofTokens tokens = .ok expression
      ∧ ∃ place : Nat, (expression.root.uses {})[place]? = some (.parameter 1) := by
  intro table tokens expression
  have hrefused : table.tokenize "(λk.k) k" (some "k") = .error (.about .recursiveKeyword "k") := by
    decide +kernel
  have htokens : table.tokenize "λx k.k x" (some "k") = .ok tokens := by decide +kernel
  have hbuilt : ofTokens tokens = .ok expression := by cbv
  have hown : table.contains "k" = true := by decide +kernel
  have hsplit : ofText "λx k.k x"
      = [.lambda 'λ', .word "x", .word "k", .dot] ++ .word "k" :: [.word "x"] := by decide +kernel
  obtain ⟨_, _, _, _, huse⟩ := (refused_iff_not_inScope hown (Or.inl ⟨tokens, htokens⟩)).2 tokens
    none expression htokens hbuilt _ _ hsplit rfl
  exact ⟨⟨hrefused, (refused_iff_not_inScope hown (Or.inr hrefused)).1.mp hrefused⟩, htokens,
    hbuilt, _, huse⟩

end KeywordTable

end LambdaCalc
