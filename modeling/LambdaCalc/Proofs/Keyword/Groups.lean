import LambdaCalc.Proofs.Expression.Groups
import LambdaCalc.Proofs.Keyword.Reachable

set_option autoImplicit false

/-! # Keyword tables stay consistent

Whatever calls are made to define and erase keywords, and however they fail, the tokens and the
sources are those of the same keywords, and the tokens of every keyword are one group
(`KeywordTable.Consistent`). So reading a text writes one group or nothing, however many parentheses
the text leaves open, and from that an expression is built without meeting a parenthesis that has
none to match (`KeywordTable.consistent_after`). -/

namespace LambdaCalc

open Token (OneGroup depthAfter)

/-! ## Numbers -/

namespace Numeral

/-- The groups of the applications are closed again: by induction on their number. -/
theorem depthAfter_applied (count depth : Nat) : depthAfter depth (applied count) = some depth := by
  induction count using applied.induct generalizing depth with
  | case1 | case2 => rfl
  | case3 count ih =>
    show depthAfter (depth + 1) (applied (count + 1) ++ [.closing]) = some depth
    rw [Token.depthAfter_append (ih (depth + 1))]
    rfl

/-- The tokens of a number are one group. -/
theorem oneGroup_tokens {count : Nat} {limit : Int} {tokens : List Token}
    (h : Numeral.tokens count limit = .ok tokens) : OneGroup tokens :=
  ⟨.func function :: .func base :: applied count, eq_written_of_tokens h,
    depthAfter_applied count 0⟩

end Numeral

/-! ## Texts -/

/-- The tokens of every keyword are one group. -/
def KeywordTable.Grouped (table : KeywordTable) : Prop :=
  ∀ word found, table.keywords.find? word = some found → OneGroup found

namespace TextReading

variable {table : KeywordTable} {keyword : Option String} {reading reading' : TextReading}

/-- Behind a word as many groups are open as in front of it. -/
theorem depthAfter_wordTokens (htable : table.Grouped) {word : String} {tokens : List Token}
    (h : wordTokens table keyword reading word = .ok tokens) (depth : Nat) :
    depthAfter depth tokens = some depth := by
  unfold wordTokens at h
  simp only at h
  split at h
  · obtain rfl := Except.ok.inj h
    rfl
  · split at h
    · next found hfind =>
      split at h
      · cases h
      · obtain rfl := Except.ok.inj h
        exact (htable word found hfind).depthAfter depth
    · split at h
      · unfold numberTokens at h
        split at h
        · cases h
        · exact (Numeral.oneGroup_tokens h).depthAfter depth
      · split at h
        · obtain rfl := Except.ok.inj h
          rfl
        · cases h

/-- The groups that are open in what has been written are the parentheses open in the text. -/
def Tracks (reading : TextReading) : Prop :=
  depthAfter 0 reading.tokens.toList = some reading.depth

theorem Tracks.emit (h : reading.Tracks) {tokens : List Token} {depth : Nat}
    (htokens : depthAfter reading.depth tokens = some depth) :
    depthAfter 0 (reading.emit tokens).tokens.toList = some depth := by
  rw [TextReading.emit, Array.toList_appendList, Token.depthAfter_append h, htokens]

theorem Tracks.step (h : reading.Tracks) (htable : table.Grouped) {lexeme : Lexeme}
    (hreads : Reads table keyword reading lexeme reading') : reading'.Tracks := by
  cases hreads with
  | opening => exact h.emit rfl
  | closing _ hdepth => exact h.emit (by rw [hdepth]; rfl)
  | lambda | dot => exact h
  | word _ htokens => exact h.emit (depthAfter_wordTokens htable htokens _)
  | parameter => exact h.emit rfl

/-- Reading a whole text: by induction on its lexemes. -/
theorem Tracks.foldlM (h : reading.Tracks) (htable : table.Grouped) {lexemes : List Lexeme}
    (hrun : lexemes.foldlM (TextReading.step table keyword) reading = .ok reading') :
    reading'.Tracks := by
  induction lexemes generalizing reading with
  | nil =>
    obtain rfl := Except.ok.inj hrun
    exact h
  | cons lexeme lexemes ih =>
    rw [List.foldlM_cons] at hrun
    obtain ⟨between, hstep, hrest⟩ := Outcome.bind_eq_ok.mp hrun
    exact ih (h.step htable (reads_of_step hstep)) hrest

end TextReading

namespace KeywordTable

variable {table table' : KeywordTable}

/-- A text is read as one group, or as nothing. -/
theorem Grouped.tokenize (htable : table.Grouped) {text : String} {keyword : Option String}
    {tokens : List Token} (h : table.tokenize text keyword = .ok tokens) :
    tokens = [] ∨ OneGroup tokens := by
  obtain ⟨reading, hrun, hresult⟩ := Outcome.bind_eq_ok.mp h
  have htracks := @TextReading.Tracks.foldlM _ _ {} _ rfl htable _ hrun
  unfold TextReading.result at hresult
  split_ifs at hresult
  · exact Or.inl (Except.ok.inj hresult).symm
  · obtain rfl := Except.ok.inj hresult
    exact Or.inr (Token.oneGroup_of_depthAfter htracks)

theorem Grouped.define (htable : table.Grouped) {name source : String}
    (h : table.define name source = .ok table') : table'.Grouped := by
  obtain ⟨_, tokens, htokens, hne, rfl⟩ := define_eq_ok h
  intro word found hfind
  rcases OrderedTable.of_find?_put hfind with ⟨_, rfl⟩ | ⟨_, hfind⟩
  · exact (htable.tokenize htokens).resolve_left hne
  · exact htable word found hfind

theorem Grouped.erase (htable : table.Grouped) (name : String) : (table.erase name).Grouped := by
  intro word found hfind
  exact htable word found (OrderedTable.of_find?_erase hfind).2

/-! ## Tables -/

/-- The tokens and the sources are those of the same keywords in the same order, and the tokens of
    each are one group. -/
structure Consistent (table : KeywordTable) : Prop where
  keys_eq : table.keywords.keys = table.sources.keys
  nodup : table.keywords.keys.Nodup
  oneGroup {word : String} {tokens : List Token} :
    table.keywords.find? word = some tokens → OneGroup tokens

theorem Reachable.nodup_keys (h : table.Reachable) : table.keywords.keys.Nodup := by
  refine h.keeps (P := fun table => table.keywords.keys.Nodup) List.nodup_nil ?_ ?_
  · intro table table' name source htable hdefine
    obtain ⟨_, tokens, _, _, rfl⟩ := define_eq_ok hdefine
    exact OrderedTable.nodup_keys_put htable _ _
  · intro table name htable
    exact OrderedTable.nodup_keys_erase htable _

theorem Reachable.grouped (h : table.Reachable) : table.Grouped :=
  h.keeps nofun (fun htable hdefine => htable.define hdefine) fun name htable => htable.erase name

/-- A keyword is entered under the same name in both tables, and erased from both. -/
theorem Reachable.keys_eq (h : table.Reachable) : table.keywords.keys = table.sources.keys := by
  refine h.keeps (P := fun table => table.keywords.keys = table.sources.keys) rfl ?_ ?_
  · intro table table' name source htable hdefine
    obtain ⟨_, tokens, _, _, rfl⟩ := define_eq_ok hdefine
    exact OrderedTable.keys_put_congr htable _ _ _
  · intro table name htable
    rw [erase_eq, OrderedTable.keys_erase, OrderedTable.keys_erase, htable]

theorem Reachable.consistent (h : table.Reachable) : table.Consistent where
  keys_eq := h.keys_eq
  nodup := h.nodup_keys
  oneGroup hfind := h.grouped _ _ hfind

/-! ## Calls -/

/-- A call that may change the table. -/
inductive Call where
  | define (name source : String)
  | tryDefine (name source : String)
  | erase (name : String)
deriving DecidableEq, Repr

/-- What a call does, and what it answers, if anything. -/
def Call.calculation : Call → KeywordM (Option String)
  | .define name source => do
      add name source
      return none
  | .tryDefine name source => return some (← create name source)
  | .erase name => do
      remove name
      return none

/-- How a call ends, and the table that it leaves behind. -/
def Call.run (table : KeywordTable) (call : Call) : Outcome (Option String) × KeywordTable :=
  call.calculation.run table

/-- A call stops, or answers by an empty text. -/
def Call.Fails (table : KeywordTable) (call : Call) : Prop :=
  (∃ stop, (call.run table).1 = .error stop) ∨ (call.run table).1 = .ok (some "")

/-- The table after some calls, also if they fail. -/
def afterCalls (table : KeywordTable) (calls : List Call) : KeywordTable :=
  calls.foldl (fun table call => (call.run table).2) table

/-- A blank text defines nothing. -/
theorem trim_ne_empty_of_define {name source : String} (h : table.define name source = .ok table') :
    Text.trim source ≠ "" := by
  obtain ⟨_, tokens, htokens, hne, _⟩ := define_eq_ok h
  intro hempty
  rw [hempty, KeywordTable.tokenize, Lexeme.ofText_empty] at htokens
  exact hne (Except.ok.inj htokens).symm

/-- What becomes of the tokens becomes of the sources: a keyword is entered in both tables, or
    erased from both. -/
inductive Updates (table table' : KeywordTable) : Prop where
  | entered {name source : String} {tokens : List Token}
      (htokens : table'.keywords = table.keywords.put name tokens)
      (hsources : table'.sources = table.sources.put name source) : Updates table table'
  | erased {name : String} (htokens : table'.keywords = table.keywords.erase name)
      (hsources : table'.sources = table.sources.erase name) : Updates table table'

theorem updates_of_define {name source : String} (h : table.define name source = .ok table') :
    table.Updates table' := by
  obtain ⟨_, tokens, _, _, rfl⟩ := define_eq_ok h
  exact .entered rfl rfl

/-- How a call ends if it defines a keyword, and what it leaves behind then. -/
theorem Call.run_define (table : KeywordTable) (name source : String) :
    (Call.define name source).run table
      = match table.define name source with
        | .ok defined => (.ok none, defined)
        | .error stop => (.error stop, table) := by
  unfold Call.run calculation
  rw [run_bind_pure, run_add]
  cases table.define name source with
  | ok defined | error stop => rfl

theorem Call.run_tryDefine (table : KeywordTable) (name source : String) :
    (Call.tryDefine name source).run table
      = match table.define name source with
        | .ok defined => (.ok (some (Text.trim source)), defined)
        | .error (.fault _) => (.ok (some ""), table)
        | .error stop => (.error stop, table) := by
  unfold Call.run calculation
  rw [run_bind_pure, run_create]
  cases table.define name source with
  | ok defined => rfl
  | error stop => cases stop <;> rfl

theorem Call.run_erase (table : KeywordTable) (name : String) :
    (Call.erase name).run table = (.ok none, table.erase name) := rfl

/-- A call that fails leaves the table as it is, and any other call updates it. -/
theorem Call.run_cases (table : KeywordTable) (call : Call) :
    call.Fails table ∧ (call.run table).2 = table
      ∨ ¬ call.Fails table ∧ table.Updates (call.run table).2 := by
  unfold Call.Fails
  cases call with
  | define name source =>
    rw [run_define]
    cases hdefine : table.define name source with
    | error stop => exact .inl ⟨.inl ⟨stop, rfl⟩, rfl⟩
    | ok defined => exact .inr ⟨by simp, updates_of_define hdefine⟩
  | tryDefine name source =>
    rw [run_tryDefine]
    cases hdefine : table.define name source with
    | error stop =>
      cases stop with
      | fault reason => exact .inl ⟨.inr rfl, rfl⟩
      | mishap | nestedTooDeeply | interrupted | exit => exact .inl ⟨.inl ⟨_, rfl⟩, rfl⟩
    | ok defined =>
      refine .inr ⟨?_, updates_of_define hdefine⟩
      simpa using trim_ne_empty_of_define hdefine
  | erase name =>
    rw [run_erase]
    exact .inr ⟨by simp, .erased rfl rfl⟩

/-- What holds of a table, and of those that are made of it by defining or erasing a keyword, holds
    of the table that a call leaves behind. -/
theorem Call.run_keeps {P : KeywordTable → Prop} (htable : P table)
    (hdefine : ∀ {name source : String} {defined : KeywordTable},
      table.define name source = .ok defined → P defined)
    (herase : ∀ name, P (table.erase name)) (call : Call) : P (call.run table).2 := by
  cases call with
  | define name source =>
    rw [run_define]
    split
    · next hdefined => exact hdefine hdefined
    · exact htable
  | tryDefine name source =>
    rw [run_tryDefine]
    split
    · next hdefined => exact hdefine hdefined
    · exact htable
    · exact htable
  | erase name => exact herase name

theorem Reachable.run (h : table.Reachable) (call : Call) : (call.run table).2.Reachable :=
  call.run_keeps h h.define fun _ => h.erase

/-- The table after any calls can be reached: by induction on them. -/
theorem Reachable.afterCalls (h : table.Reachable) (calls : List Call) :
    (table.afterCalls calls).Reachable := by
  induction calls generalizing table with
  | nil => exact h
  | cons call calls ih => exact ih (h.run call)

/-- Whatever calls are made, with the prelude or without it, the tokens and the sources are those of
    the same keywords, and the tokens of each are one group. A call that fails then leaves both as
    they are, and any other call updates both. And any text, also as the body of a keyword, is read
    as one group or as nothing, so that no parenthesis lacks its match when an expression is built,
    and no group is left open. -/
theorem consistent_after {withPrelude : Bool} {start : KeywordTable}
    (hstart : KeywordTable.initial withPrelude = .ok start) (calls : List Call) :
    (start.afterCalls calls).Consistent
      ∧ (∀ call : Call,
          call.Fails (start.afterCalls calls)
              ∧ (call.run (start.afterCalls calls)).2 = start.afterCalls calls
            ∨ ¬ call.Fails (start.afterCalls calls)
              ∧ (start.afterCalls calls).Updates (call.run (start.afterCalls calls)).2)
      ∧ ∀ text keyword tokens, (start.afterCalls calls).tokenize text keyword = .ok tokens →
          (tokens = [] ∨ OneGroup tokens)
            ∧ ∀ room,
              (∀ reason, Expression.ofTokensWithin room tokens = .error (.fault reason) →
                reason.kind ≠ .unmatchedParenthesis)
              ∧ ∀ reading, tokens.foldlM (Binding.Reading.step room) {} = .ok reading →
                reading.outer = [] := by
  have hreachable := (Reachable.initial hstart).afterCalls calls
  refine ⟨hreachable.consistent, Call.run_cases _, ?_⟩
  intro text keyword tokens htokens
  have hgroup := hreachable.grouped.tokenize htokens
  refine ⟨hgroup, fun room => ?_⟩
  obtain rfl | hgroup := hgroup
  · constructor
    · rintro reason ⟨⟩
      exact FaultKind.noConfusion
    · rintro reading ⟨⟩
      rfl
  · exact ⟨fun reason hstop => Expression.ofTokens_matched hgroup room hstop,
      (Binding.Reading.foldlM_oneGroup hgroup).2⟩

/-- `k` is defined and `j` by it, with a parenthesis left open; defining `k` by itself and defining
    a number fail, and `k` is erased. -/
theorem consistent_after_failures :
    KeywordTable.initial false = .ok {}
    ∧ afterCalls {} [.define "k" "λx.x", .tryDefine " j" "(k y ", .tryDefine "k" "k",
        .define "1" "x", .erase "k"]
      = { keywords := { entries := [("j", [.opening, .opening, .opening, .func "$k$x",
            .var "$k$x", .closing, .var "$j$y", .closing, .closing])] }
          sources := { entries := [("j", "(k y")] } }
    ∧ OneGroup [.opening, .opening, .opening, .func "$k$x", .var "$k$x", .closing, .var "$j$y",
        .closing, .closing] := by
  have hinitial : KeywordTable.initial false = .ok {} := rfl
  have hcalls :
      afterCalls {} [.define "k" "λx.x", .tryDefine " j" "(k y ", .tryDefine "k" "k",
        .define "1" "x", .erase "k"]
      = { keywords := { entries := [("j", [.opening, .opening, .opening, .func "$k$x",
            .var "$k$x", .closing, .var "$j$y", .closing, .closing])] }
          sources := { entries := [("j", "(k y")] } } := by
    decide +kernel
  refine ⟨hinitial, hcalls, ?_⟩
  have hconsistent := (consistent_after hinitial [.define "k" "λx.x", .tryDefine " j" "(k y ",
    .tryDefine "k" "k", .define "1" "x", .erase "k"]).1
  rw [hcalls] at hconsistent
  exact @hconsistent.oneGroup "j" _ rfl

end KeywordTable

end LambdaCalc
