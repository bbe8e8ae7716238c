import LambdaCalc.Proofs.Keyword.Spacing
import LambdaCalc.Session

set_option autoImplicit false

/-! # Performing statements

A statement defines a keyword or has a result (`KeywordTable.perform`). Statements are performed one
after the other, each with the keywords that those before it leave behind
(`KeywordTable.performAll`). However they are spaced and whatever the sources of the keywords, they
answer the same (`KeywordTable.SameTokens.perform_respaced`). -/

namespace LambdaCalc

open Text (Respaced isBlank)

/-- What a statement answers: nothing, that it has defined a keyword again, or a result. -/
inductive Reply where
  | silent
  | redefined (keyword : String)
  | result (result : Result)
deriving DecidableEq, Repr

/-- The result that is answered. -/
def Reply.result? : Reply → Option Result
  | .result answer => some answer
  | .silent | .redefined _ => none

/-- The two sides of a definition differ in their blanks only if the definition does. -/
theorem Statement.respaced_definition? {text text' : String}
    (h : Respaced text.toList text'.toList) :
    Option.Rel (fun sides sides' => Respaced sides.1.toList sides'.1.toList
        ∧ Respaced sides.2.toList sides'.2.toList)
      (definition? text) (definition? text') := by
  have hcut := respaced_cutAt (by decide : isBlank ':' = false) (by decide : isBlank '=' = false) h
  unfold definition?
  generalize cutAt ':' '=' text.toList = cut at hcut
  generalize cutAt ':' '=' text'.toList = cut' at hcut
  cases hcut with
  | none => exact .none
  | some hcut => exact .some (by simpa only [String.toList_ofList] using hcut)

namespace KeywordTable

/-! ## One statement -/

/-- The result of a text. -/
def resultOf (table : KeywordTable) (text : String) : Outcome Result := do
  let expression ← table.reduceText text
  return {
    text := ← expression.renderWithin (some callLimit)
    number := expression.number? }

theorem calculate_eq (table : KeywordTable) (text : String) :
    table.calculate text = (table.resultOf text).map (·.text) := by
  unfold calculate resultOf
  cases table.reduceText text with
  | error stop => rfl
  | ok expression =>
    show expression.renderWithin _ = (expression.renderWithin _ >>= _).map _
    cases expression.renderWithin _ with
    | error stop | ok text => rfl

/-- What is answered to the definition of a keyword. -/
def replyTo (table : KeywordTable) (keyword : String) : Reply :=
  if table.contains keyword then .redefined keyword else .silent

/-- What a statement answers, and the table that it leaves behind. -/
def perform (table : KeywordTable) (text : String) : Outcome (Reply × KeywordTable) :=
  match Statement.definition? text with
  | some (name, source) => do
      let defined ← table.define (Text.trim name) source
      return (table.replyTo (Text.trim name), defined)
  | none => return (.result (← table.resultOf text), table)

variable {table table' : KeywordTable} {text text' : String} {reply : Reply}

theorem perform_of_definition {name source : String}
    (h : Statement.definition? text = some (name, source)) :
    table.perform text = do
      let defined ← table.define (Text.trim name) source
      return (table.replyTo (Text.trim name), defined) := by
  rw [perform, h]

theorem perform_of_none (h : Statement.definition? text = none) :
    table.perform text = do return (.result (← table.resultOf text), table) := by
  rw [perform, h]

theorem Reachable.perform (h : table.Reachable) {left : KeywordTable}
    (hperform : table.perform text = .ok (reply, left)) : left.Reachable := by
  unfold KeywordTable.perform at hperform
  split at hperform
  · obtain ⟨defined, hdefine, heq⟩ := Outcome.bind_eq_ok.mp hperform
    obtain ⟨_, rfl⟩ := Prod.mk.inj (Except.ok.inj heq)
    exact h.define hdefine
  · obtain ⟨result, _, heq⟩ := Outcome.bind_eq_ok.mp hperform
    obtain ⟨_, rfl⟩ := Prod.mk.inj (Except.ok.inj heq)
    exact h

namespace SameTokens

/-- A text that has a result has the same one however it is spaced. -/
theorem resultOf_respaced (h : table.SameTokens table') (htable : table.Reachable)
    (htext : Respaced text.toList text'.toList) {result : Result}
    (hresult : table.resultOf text = .ok result) : table'.resultOf text' = .ok result := by
  unfold resultOf reduceText at hresult ⊢
  obtain ⟨expression, hreduce, hrest⟩ := Outcome.bind_eq_ok.mp hresult
  obtain ⟨tokens, htokens, hbuild⟩ := Outcome.bind_eq_ok.mp hreduce
  rw [h.tokenize_respaced htable htext htokens]
  exact Outcome.bind_eq_ok.mpr ⟨expression, hbuild, hrest⟩

/-- A statement that succeeds answers the same however it is spaced. -/
theorem perform_respaced (h : table.SameTokens table') (htable : table.Reachable)
    (htext : Respaced text.toList text'.toList) {left : KeywordTable}
    (hperform : table.perform text = .ok (reply, left)) :
    ∃ left', table'.perform text' = .ok (reply, left') ∧ left.SameTokens left' := by
  have hsides := Statement.respaced_definition? htext
  cases hdefinition : Statement.definition? text with
  | none =>
    rw [perform_of_none hdefinition] at hperform
    rw [hdefinition] at hsides
    generalize hdefinition' : Statement.definition? text' = sides' at hsides
    cases hsides
    obtain ⟨result, hresult, heq⟩ := Outcome.bind_eq_ok.mp hperform
    obtain ⟨rfl, rfl⟩ := Prod.mk.inj (Except.ok.inj heq)
    refine ⟨table', ?_, h⟩
    rw [perform_of_none hdefinition', h.resultOf_respaced htable htext hresult]
    rfl
  | some sides =>
    rw [perform_of_definition hdefinition] at hperform
    rw [hdefinition] at hsides
    generalize hdefinition' : Statement.definition? text' = found at hsides
    obtain @⟨_, sides', hname, hsource⟩ := hsides
    obtain ⟨defined, hdefine, heq⟩ := Outcome.bind_eq_ok.mp hperform
    obtain ⟨rfl, rfl⟩ := Prod.mk.inj (Except.ok.inj heq)
    have htrimmed : Respaced (Text.trim sides.1).toList (Text.trim sides'.1).toList := by
      rw [Text.toList_trim, Text.toList_trim]
      exact hname.trimList
    obtain ⟨hkeyword, defined', hdefine', hsame⟩ :=
      h.define_respaced htable htrimmed hsource hdefine
    rw [Text.trim_trim, Text.trim_trim] at hkeyword
    refine ⟨defined', ?_, hsame⟩
    rw [perform_of_definition hdefinition', hdefine', replyTo, replyTo, hkeyword, h.contains_eq]
    rfl

end SameTokens

/-! ## Statement after statement -/

/-- What statements answer that are performed one after the other, and the table that they leave
    behind. -/
def performAll (table : KeywordTable) : List String → Outcome (List Reply × KeywordTable)
  | [] => return ([], table)
  | text :: texts => do
      let (reply, table) ← table.perform text
      let (replies, table) ← table.performAll texts
      return (reply :: replies, table)

theorem performAll_cons_eq_ok {texts : List String} {replies : List Reply} {left : KeywordTable} :
    table.performAll (text :: texts) = .ok (replies, left) ↔ ∃ reply between replies',
      table.perform text = .ok (reply, between) ∧ between.performAll texts = .ok (replies', left)
        ∧ replies = reply :: replies' := by
  rw [performAll, Outcome.bind_eq_ok]
  constructor
  · rintro ⟨⟨reply, between⟩, hfirst, hrest⟩
    obtain ⟨⟨replies', left'⟩, hothers, heq⟩ := Outcome.bind_eq_ok.mp hrest
    obtain ⟨rfl, rfl⟩ := Prod.mk.inj (Except.ok.inj heq)
    exact ⟨reply, between, replies', hfirst, hothers, rfl⟩
  · rintro ⟨reply, between, replies', hfirst, hothers, rfl⟩
    exact ⟨_, hfirst, Outcome.bind_eq_ok.mpr ⟨_, hothers, rfl⟩⟩

/-- Statements are performed behind others with the keywords that those leave behind. -/
theorem performAll_append_eq_ok {first second : List String} {replies : List Reply}
    {left : KeywordTable} :
    table.performAll (first ++ second) = .ok (replies, left) ↔ ∃ between replies' others,
      table.performAll first = .ok (replies', between)
        ∧ between.performAll second = .ok (others, left) ∧ replies = replies' ++ others := by
  induction first generalizing table replies with
  | nil =>
    constructor
    · exact fun h => ⟨table, [], replies, rfl, h, rfl⟩
    · rintro ⟨between, replies', others, hfirst, hsecond, rfl⟩
      obtain ⟨rfl, rfl⟩ := Prod.mk.inj (Except.ok.inj hfirst)
      exact hsecond
  | cons text texts ih =>
    simp only [List.cons_append, performAll_cons_eq_ok, ih]
    constructor
    · rintro ⟨reply, next, _, hperform, ⟨between, replies', others, hrest, hsecond, rfl⟩, rfl⟩
      exact ⟨between, reply :: replies', others, ⟨reply, next, replies', hperform, hrest, rfl⟩,
        hsecond, rfl⟩
    · rintro ⟨between, _, others, ⟨reply, next, replies', hperform, hrest, rfl⟩, hsecond, rfl⟩
      exact ⟨reply, next, replies' ++ others, hperform, ⟨between, replies', others, hrest, hsecond,
        rfl⟩, rfl⟩

theorem length_of_performAll {texts : List String} {replies : List Reply} {left : KeywordTable}
    (h : table.performAll texts = .ok (replies, left)) : replies.length = texts.length := by
  induction texts generalizing table replies with
  | nil =>
    obtain ⟨rfl, rfl⟩ := Prod.mk.inj (Except.ok.inj h)
    rfl
  | cons text texts ih =>
    obtain ⟨reply, next, rest, _, hrest, rfl⟩ := performAll_cons_eq_ok.mp h
    rw [List.length_cons, List.length_cons, ih hrest]

end KeywordTable

end LambdaCalc
