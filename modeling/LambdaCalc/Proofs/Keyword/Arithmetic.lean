import LambdaCalc.Keyword.Prelude
import LambdaCalc.Proofs.Expression.Decoding
import LambdaCalc.Proofs.Expression.LexicalScope
import LambdaCalc.Proofs.Expression.Normalization
import LambdaCalc.Proofs.Keyword.Hygiene
import LambdaCalc.Proofs.Term.Arithmetic

set_option autoImplicit false

/-! # Arithmetic with the keywords of the prelude

A keyword of the prelude stands for a group without free names, the λ-term of which is one of the
operations on Church numerals. So applied to numbers, however large they are, it is built into an
expression that reduces to the result of the operation (`KeywordTable.evaluates_prelude`). Powers
are numbers only where the exponent is not zero (`KeywordTable.evaluates_pow`).

Numbers are closed groups as well, and closed groups make up a closed group
(`ClosedGroup.ofGroups`), so that it only matters which λ-term is applied to which. -/

namespace LambdaCalc

open Qualifier

/-! ## Phrases made of groups -/

namespace Phrase

variable {ν : Type}

/-- Phrases as groups, one after the other. -/
def ofGroups (phrases : List (Phrase ν)) : Phrase ν := phrases.foldr group done

theorem terms_ofGroups [DecidableEq ν] (scope : List ν) (phrases : List (Phrase ν)) :
    (ofGroups phrases).terms scope = phrases.map (term scope) := by
  induction phrases with
  | nil => rfl
  | cons phrase phrases ih =>
    rw [List.map_cons, ← ih]
    rfl

theorem free_ofGroups [DecidableEq ν] {phrases : List (Phrase ν)}
    (h : ∀ phrase ∈ phrases, phrase.free [] = []) : (ofGroups phrases).free [] = [] := by
  induction phrases with
  | nil => rfl
  | cons phrase phrases ih =>
    obtain ⟨hphrase, hphrases⟩ := List.forall_mem_cons.mp h
    exact List.append_eq_nil_iff.mpr ⟨hphrase, ih hphrases⟩

theorem forall_nestings_ofGroups {phrases : List (Phrase ν)} {P : ν × ν → Prop}
    (h : ∀ phrase ∈ phrases, ∀ pair ∈ phrase.nestings [], P pair) :
    ∀ pair ∈ (ofGroups phrases).nestings [], P pair := by
  induction phrases with
  | nil => exact nofun
  | cons phrase phrases ih =>
    obtain ⟨hphrase, hphrases⟩ := List.forall_mem_cons.mp h
    exact List.forall_mem_append.mpr ⟨hphrase, ih hphrases⟩

end Phrase

/-! ## Closed groups -/

/-- Tokens and the phrase that they spell as one group, in which no name is free and none is bound
    while it is bound already. -/
structure ClosedGroup where
  tokens : List Token
  phrase : Phrase (Option String)
  spells : Phrase.Spells tokens phrase
  named : ∀ token ∈ tokens, token.Named fun spelling => strip? (short spelling) = none
  nestings_ne : ∀ pair ∈ phrase.nestings [], pair.1 ≠ pair.2
  free_eq : phrase.free [] = []

namespace ClosedGroup

/-- The λ-term of a closed group. -/
def term (group : ClosedGroup) : Term (Option String) := group.phrase.term []

theorem wellNamed (group : ClosedGroup) : group.phrase.WellNamed where
  nestings_ne := group.nestings_ne
  binders_not_free name _ hfree := by
    rw [group.free_eq] at hfree
    cases hfree

/-- Groups are read from the right, each in front of those behind it. -/
theorem foldr_flatten (groups : List ClosedGroup) (behind : List (Phrase (Option String))) :
    (groups.map (·.tokens)).flatten.foldr (Phrase.readToken id) (.done, behind)
      = (Phrase.ofGroups (groups.map (·.phrase)), behind) := by
  induction groups with
  | nil => rfl
  | cons group groups ih =>
    rw [List.map_cons, List.flatten_cons, List.foldr_append, ih, group.spells]
    rfl

/-- A group of closed groups. -/
def ofGroups (groups : List ClosedGroup) : ClosedGroup where
  tokens := [.opening] ++ (groups.map (·.tokens)).flatten ++ [.closing]
  phrase := Phrase.ofGroups (groups.map (·.phrase))
  spells rest behind := by
    have hclosing : [Token.closing].foldr (Phrase.readToken id) (rest, behind)
        = (.done, rest :: behind) := rfl
    rw [List.foldr_append, List.foldr_append, hclosing, foldr_flatten]
    rfl
  named := by
    simp only [List.forall_mem_append, List.forall_mem_singleton]
    refine ⟨⟨trivial, ?_⟩, trivial⟩
    intro token htoken
    obtain ⟨_, hmem, htoken⟩ := List.mem_flatten.mp htoken
    obtain ⟨group, _, rfl⟩ := List.mem_map.mp hmem
    exact group.named token htoken
  nestings_ne := Phrase.forall_nestings_ofGroups
    (List.forall_mem_map.mpr fun group _ => group.nestings_ne)
  free_eq := Phrase.free_ofGroups (List.forall_mem_map.mpr fun group _ => group.free_eq)

theorem term_ofGroups (groups : List ClosedGroup) :
    (ofGroups groups).term = .ofSpine (groups.map term) := by
  rw [term, ofGroups, Phrase.term, Phrase.terms_ofGroups, List.map_map]
  rfl

/-! ## Building a closed group -/

/-- A closed group is built into an expression. -/
theorem exists_ofTokens (group : ClosedGroup) :
    ∃ expression, Expression.ofTokens group.tokens = .ok expression := by
  have hstray : ∀ token ∈ group.tokens, ∀ label, token.kind ≠ .stray label := by
    intro token htoken label hlabel
    have hnamed := group.named token htoken
    rw [Token.Named, hlabel] at hnamed
    exact hnamed
  have hread := group.spells.ofTokens
  refine (Expression.ofTokens_isOk_iff hstray).mpr ⟨?_, ?_, by rw [hread], ?_⟩
  · intro hempty
    rw [hempty] at hread
    cases hread
  · intro hnone
    obtain ⟨_, heq, _⟩ :=
      Binding.named_of_mem_meetAll group.named (List.forall_mem_nil _) none hnone
    cases heq
  · rw [Phrase.ofTokens, hread, Phrase.wellNamed_group_done_iff]
    exact group.wellNamed

/-- What a closed group is built into has its λ-term, in which there are no names to change. -/
theorem term_ofTokens (group : ClosedGroup) {room : Option Nat} {expression : Expression}
    (h : Expression.ofTokensWithin room group.tokens = .ok expression) :
    expression.root.term []
      = group.term.map (Binding.meetAll [] group.tokens).idxOf := by
  obtain ⟨_, _, hterm⟩ := Expression.ofTokens_spec h
  have hphrase : Phrase.ofTokens group.tokens = .group group.phrase .done := by
    rw [Phrase.ofTokens, group.spells.ofTokens]
  have hnames := Binding.names_subset_meetAll group.tokens [] _ List.mem_cons_self
  have hseparates : Phrase.Separates (Binding.meetAll [] group.tokens).idxOf
      (Phrase.ofTokens group.tokens).names :=
    fun x hx y _ heq => (List.idxOf_inj (hnames hx)).mp heq
  have hwellNamed : (Phrase.ofTokens group.tokens).WellNamed := by
    rw [hphrase, Phrase.wellNamed_group_done_iff]
    exact group.wellNamed
  rw [hterm, Phrase.term_map (hwellNamed.not_clash hseparates), hphrase]
  rfl

/-! ## Numbers -/

/-- A number within the limit is a closed group. -/
theorem exists_numeral {value : Nat} {limit : Int} (h : (value : Int) ≤ limit) :
    ∃ group : ClosedGroup, Numeral.tokens value limit = .ok group.tokens
      ∧ group.term = Numeral.term value := by
  have htokens := (Numeral.tokens_eq value limit).trans (if_neg (not_lt.mpr h))
  have hne : some Numeral.function ≠ some Numeral.base := by decide
  refine ⟨{
    tokens := Numeral.written value
    phrase := Numeral.phrase (some Numeral.function) (some Numeral.base) value
    spells := Numeral.spells_tokens htokens
    named := Numeral.named_tokens (by decide +kernel) (by decide +kernel) htokens
    nestings_ne := ?_
    free_eq := Numeral.free_phrase _ _ value }, htokens, Numeral.term_phrase hne value⟩
  rw [Numeral.nestings_phrase]
  exact List.forall_mem_singleton.mpr hne

theorem exists_numerals {values : List Nat} {limit : Int}
    (h : ∀ value ∈ values, (value : Int) ≤ limit) :
    ∃ groups : List ClosedGroup,
      values.mapM (fun value : Nat => Numeral.tokens value limit) = .ok (groups.map (·.tokens))
        ∧ groups.map term = values.map Numeral.term := by
  induction values with
  | nil => exact ⟨[], rfl, rfl⟩
  | cons value values ih =>
    obtain ⟨hvalue, hvalues⟩ := List.forall_mem_cons.mp h
    obtain ⟨group, htokens, hterm⟩ := exists_numeral hvalue
    obtain ⟨groups, htokens', hterm'⟩ := ih hvalues
    refine ⟨group :: groups, ?_, by rw [List.map_cons, List.map_cons, hterm, hterm']⟩
    rw [List.mapM_cons, htokens, htokens']
    rfl

end ClosedGroup

/-! ## What an expression is reduced to -/

namespace Expression

/-- Whatever is reduced has the normal form of its λ-term. -/
theorem term_of_reduce {room : Option Nat} {tokens : List Token} {limits : Limits}
    {expression reduced : Expression} {normal : Term Nat}
    (hbuilt : ofTokensWithin room tokens = .ok expression)
    (hreduce : expression.reduce limits = .ok reduced)
    (hreduces : Term.Reduces (expression.root.term []) normal) (hnormal : normal.Normal) :
    reduced.root.term [] = normal := by
  obtain ⟨hreduces', hnormal'⟩ := functionFirst_of_reduce (ofTokens_spec hbuilt).1 hreduce
  exact hreduces'.reduces.normal_unique hnormal' hreduces hnormal

end Expression

/-! ## Keywords of the prelude -/

namespace History

/-- The account of the keywords of the prelude. -/
def ofPrelude : History :=
  ofCommands (prelude.map fun definition => .define definition.1 definition.2)

/-- Definitions that all succeed are commands that do so. -/
theorem table_of_defineAll {history : History} {definitions : List (String × String)}
    {table : KeywordTable} (h : history.table.defineAll definitions = .ok table) :
    ((definitions.map fun definition => Command.define definition.1 definition.2).foldl step
      history).table = table := by
  unfold KeywordTable.defineAll at h
  induction definitions generalizing history with
  | nil => exact Except.ok.inj h
  | cons definition definitions ih =>
    rw [List.foldlM_cons] at h
    obtain ⟨between, hdefine, hrest⟩ := Outcome.bind_eq_ok.mp h
    rw [List.map_cons, List.foldl_cons]
    refine ih ?_
    rw [step_define, hdefine]
    exact hrest

theorem table_ofPrelude {table : KeywordTable} (h : KeywordTable.initial true = .ok table) :
    ofPrelude.table = table :=
  @table_of_defineAll {} prelude table h

/-- What the operations on numbers and the truth values are called. They have no free names. -/
def operations : List (String × Term Empty) := [
  ("true", .truth true),
  ("false", .truth false),
  ("succ", .successor),
  ("++", .successor),
  ("pred", .predecessor),
  ("--", .predecessor),
  ("add", .addition),
  ("sub", .subtraction),
  ("mul", .multiplication),
  ("pow", .exponentiation),
  ("is_null", .isZero),
  ("is_ge", .isAtLeast),
  ("is_le", .isAtMost),
  ("is_eq", .isEqual)]

/-- The bodies of the operations are closed, also once they are spelled out. -/
theorem body_of_operation :
    ∀ operation ∈ operations, ∃ snapshot ∈ ofPrelude.snapshots.find? operation.1,
      (∀ pair ∈ (snapshot.body.map fun name => some name.spelling).nestings [], pair.1 ≠ pair.2)
        ∧ (snapshot.body.map fun name => some name.spelling).free [] = []
        ∧ (snapshot.body.map fun name => some name.spelling).term []
          = operation.2.map Empty.elim := by
  decide +kernel

/-- Where a text has the name of an operation, a closed group with the λ-term of the operation is
    read. -/
theorem exists_group_of_operation {name : String} {operation : Term Empty}
    (h : (name, operation) ∈ operations) :
    ∃ group : ClosedGroup,
      TextReading.wordTokens ofPrelude.table none {} name = .ok group.tokens
        ∧ group.term = operation.map Empty.elim := by
  obtain ⟨snapshot, hsnapshot, hnestings, hfree, hterm⟩ := body_of_operation _ h
  have hsound : ofPrelude.Sound := sound_ofCommands _
  cases hfind : ofPrelude.table.keywords.find? name with
  | none =>
    rw [hsound.none_of_none hfind] at hsnapshot
    cases hsnapshot
  | some found =>
    obtain ⟨snapshot', hsnapshot', hspells, hnamed⟩ := hsound.keyword hfind
    obtain rfl := Option.some.inj (hsnapshot.symm.trans hsnapshot')
    refine ⟨⟨found, _, hspells, hnamed, hnestings, hfree⟩, ?_, hterm⟩
    simp [TextReading.wordTokens, hfind]

end History

/-! ## Applying keywords to numbers -/

/-- A λ-term without free names applied to numbers. -/
def Term.applyNumerals (operation : Term Empty) (values : List Nat) : Term Nat :=
  (operation.map Empty.elim).apply (values.map Numeral.term)

namespace KeywordTable

/-- Build the expression of a keyword applied to numbers, which are written within a limit. -/
def buildApplication (table : KeywordTable) (room : Option Nat) (limit : Int) (name : String)
    (values : List Nat) : Outcome Expression := do
  let function ← TextReading.wordTokens table none {} name
  let arguments ← values.mapM fun value : Nat => Numeral.tokens value limit
  Expression.ofTokensWithin room ([.opening] ++ (function :: arguments).flatten ++ [.closing])

/-- A keyword applied to numbers is built into an expression, and whatever this is reduced to is as
    described. -/
def Evaluates (table : KeywordTable) (limit : Int) (name : String) (values : List Nat)
    (Result : Expression → Prop) : Prop :=
  (∃ expression, table.buildApplication none limit name values = .ok expression)
    ∧ ∀ room expression, table.buildApplication room limit name values = .ok expression →
        ∀ limits reduced, expression.reduce limits = .ok reduced → Result reduced

theorem Evaluates.mono {table : KeywordTable} {limit : Int} {name : String} {values : List Nat}
    {Result Result' : Expression → Prop} (h : table.Evaluates limit name values Result)
    (hresult : ∀ reduced, Result reduced → Result' reduced) :
    table.Evaluates limit name values Result' :=
  ⟨h.1, fun room expression hbuilt limits reduced hreduce =>
    hresult reduced (h.2 room expression hbuilt limits reduced hreduce)⟩

/-- The expression is read as a number. -/
def Counts (count : Nat) (expression : Expression) : Prop := expression.number? = some count

/-- The expression is a truth value. -/
def Decides (answer : Bool) (expression : Expression) : Prop :=
  expression.root.term [] = .truth answer

variable {limit : Int} {name : String} {values : List Nat}

/-- What an operation applied to numbers reduces to is what its λ-term does. -/
theorem evaluates_operation {operation : Term Empty} {result : Term Nat}
    (h : (name, operation) ∈ History.operations)
    (hvalues : ∀ value ∈ values, (value : Int) ≤ limit)
    (hreduces : (operation.applyNumerals values).Reduces result) (hnormal : result.Normal) :
    History.ofPrelude.table.Evaluates limit name values
      fun reduced => reduced.root.Canonical ∧ reduced.root.term [] = result := by
  obtain ⟨function, hfunction, hterm⟩ := History.exists_group_of_operation h
  obtain ⟨arguments, harguments, hterms⟩ := ClosedGroup.exists_numerals hvalues
  have happlication (room : Option Nat) :
      History.ofPrelude.table.buildApplication room limit name values
        = Expression.ofTokensWithin room (ClosedGroup.ofGroups (function :: arguments)).tokens := by
    rw [buildApplication, hfunction, harguments]
    rfl
  constructor
  · rw [happlication]
    exact ClosedGroup.exists_ofTokens _
  · intro room expression hbuilt limits reduced hreduce
    rw [happlication] at hbuilt
    have hclosed (f : Option String → Nat) : f ∘ Empty.elim = Empty.elim := by
      funext name
      cases name
    have hroot : expression.root.term [] = operation.applyNumerals values := by
      rw [Term.applyNumerals, ClosedGroup.term_ofTokens _ hbuilt, ClosedGroup.term_ofGroups,
        List.map_cons, hterms, hterm, Term.ofSpine, Term.map_apply, Term.map_map, hclosed,
        List.map_map]
      simp only [Function.comp_def, Numeral.map_term]
    obtain ⟨root, names, hrun, rfl⟩ := Expression.reduce_eq_ok_iff.mp hreduce
    refine ⟨(Node.reduceWithin_settles limits.copying limits.nesting).canonical hrun, ?_⟩
    exact Expression.term_of_reduce hbuilt hreduce (hroot ▸ hreduces) hnormal

theorem counts_operation (operation : Term Empty) {count : Nat}
    (h : (name, operation) ∈ History.operations)
    (hvalues : ∀ value ∈ values, (value : Int) ≤ limit)
    (hreduces : (operation.applyNumerals values).Reduces (Numeral.term count)) :
    History.ofPrelude.table.Evaluates limit name values (Counts count) := by
  refine (evaluates_operation h hvalues hreduces (Numeral.normal_term count)).mono ?_
  rintro reduced ⟨hcanonical, hterm⟩
  exact hcanonical.number?_eq_some_iff.mpr hterm

theorem decides_operation (operation : Term Empty) {answer : Bool}
    (h : (name, operation) ∈ History.operations)
    (hvalues : ∀ value ∈ values, (value : Int) ≤ limit)
    (hreduces : (operation.applyNumerals values).Reduces (.truth answer)) :
    History.ofPrelude.table.Evaluates limit name values (Decides answer) :=
  (evaluates_operation h hvalues hreduces (Numeral.normal_truth answer)).mono
    fun _ hresult => hresult.2

/-- With the prelude, arithmetic and comparisons are right on all numbers, however large the limit
    allows them to be: whatever reducing an application returns is the number or the truth value
    that it should be. -/
theorem evaluates_prelude {table : KeywordTable} (htable : KeywordTable.initial true = .ok table)
    {m n : Nat} (hm : (m : Int) ≤ limit) (hn : (n : Int) ≤ limit) :
    (table.Evaluates limit "succ" [m] (Counts (m + 1))
        ∧ table.Evaluates limit "++" [m] (Counts (m + 1))
        ∧ table.Evaluates limit "pred" [m] (Counts (m - 1))
        ∧ table.Evaluates limit "--" [m] (Counts (m - 1))
        ∧ table.Evaluates limit "add" [m, n] (Counts (m + n))
        ∧ table.Evaluates limit "sub" [m, n] (Counts (m - n))
        ∧ table.Evaluates limit "mul" [m, n] (Counts (m * n)))
      ∧ (table.Evaluates limit "true" [] (Decides true)
        ∧ table.Evaluates limit "false" [] (Decides false)
        ∧ table.Evaluates limit "is_null" [m] (Decides (m = 0))
        ∧ table.Evaluates limit "is_ge" [m, n] (Decides (n ≤ m))
        ∧ table.Evaluates limit "is_le" [m, n] (Decides (m ≤ n))
        ∧ table.Evaluates limit "is_eq" [m, n] (Decides (m = n))) := by
  obtain rfl := History.table_ofPrelude htable
  have hone : ∀ value ∈ [m], (value : Int) ≤ limit := List.forall_mem_singleton.mpr hm
  have htwo : ∀ value ∈ [m, n], (value : Int) ≤ limit :=
    List.forall_mem_cons.mpr ⟨hm, List.forall_mem_singleton.mpr hn⟩
  refine ⟨⟨?_, ?_, ?_, ?_, ?_, ?_, ?_⟩, ?_, ?_, ?_, ?_, ?_, ?_⟩
  · exact counts_operation .successor (by decide) hone (Numeral.reduces_successor m)
  · exact counts_operation .successor (by decide) hone (Numeral.reduces_successor m)
  · exact counts_operation .predecessor (by decide) hone (Numeral.reduces_predecessor m)
  · exact counts_operation .predecessor (by decide) hone (Numeral.reduces_predecessor m)
  · exact counts_operation .addition (by decide) htwo (Numeral.reduces_addition m n)
  · exact counts_operation .subtraction (by decide) htwo (Numeral.reduces_subtraction m n)
  · exact counts_operation .multiplication (by decide) htwo (Numeral.reduces_multiplication m n)
  · exact decides_operation (.truth true) (by decide) nofun (.refl _)
  · exact decides_operation (.truth false) (by decide) nofun (.refl _)
  · exact decides_operation .isZero (by decide) hone (Numeral.reduces_isZero m)
  · exact decides_operation .isAtLeast (by decide) htwo (Numeral.reduces_isAtLeast m n)
  · exact decides_operation .isAtMost (by decide) htwo (Numeral.reduces_isAtMost m n)
  · exact decides_operation .isEqual (by decide) htwo (Numeral.reduces_isEqual m n)

/-- Within the usual limits, `sub 2 1` is reduced to a numeral. -/
theorem evaluates_prelude_returning :
    ((2 : Nat) : Int) ≤ 2 ∧ ((1 : Nat) : Int) ≤ 2
      ∧ ∃ table expression reduced, KeywordTable.initial true = .ok table
        ∧ table.buildApplication none 2 "sub" [2, 1] = .ok expression
        ∧ expression.reduce {} = .ok reduced ∧ reduced.number? = some 1 := by
  have hm : ((2 : Nat) : Int) ≤ 2 := by decide
  have hn : ((1 : Nat) : Int) ≤ 2 := by decide
  have hreturns : (KeywordTable.initial true
      >>= (·.buildApplication none 2 "sub" [2, 1] >>= (·.reduce {}))).isOk = true := by
    decide +kernel
  cases hrun : KeywordTable.initial true
      >>= (·.buildApplication none 2 "sub" [2, 1] >>= (·.reduce {})) with
  | error stop =>
    rw [hrun] at hreturns
    cases hreturns
  | ok reduced =>
    obtain ⟨table, htable, hrun⟩ := Outcome.bind_eq_ok.mp hrun
    obtain ⟨expression, hbuilt, hreduce⟩ := Outcome.bind_eq_ok.mp hrun
    obtain ⟨_, _, _, _, _, hsub, _⟩ := (evaluates_prelude htable hm hn).1
    exact ⟨hm, hn, table, expression, reduced, htable, hbuilt, hreduce,
      hsub.2 none expression hbuilt {} reduced hreduce⟩

/-! ## Powers -/

/-- The expression is the identity, which is not read as a number. -/
def PassesOn (expression : Expression) : Prop :=
  expression.root.term [] = .lam (.var 0) ∧ expression.number? = none

/-- The identity has one binder less than any numeral. -/
theorem passesOn_of_term {expression : Expression} (hcanonical : expression.root.Canonical)
    (hterm : expression.root.term [] = .lam (.var 0)) : PassesOn expression := by
  refine ⟨hterm, Option.eq_none_iff_forall_ne_some.mpr fun count hcount => ?_⟩
  have hnumeral : Term.lam (.var 0) = (Numeral.term count : Term Nat) :=
    hterm.symm.trans (hcanonical.number?_eq_some_iff.mp hcount)
  rw [Numeral.term_eq_lam] at hnumeral
  cases Term.lam.inj hnumeral

/-- With the prelude, what reducing a power of a number returns is the right number where the
    exponent is not zero. Where it is zero, the base is applied to nothing, and the identity is
    returned: it becomes the numeral of one only by an η-expansion, and is not read as a number. -/
theorem evaluates_pow {table : KeywordTable} (htable : KeywordTable.initial true = .ok table)
    {m n : Nat} (hm : (m : Int) ≤ limit) (hn : (n : Int) ≤ limit) :
    table.Evaluates limit "pow" [m, n] (if n = 0 then PassesOn else Counts (m ^ n)) := by
  obtain rfl := History.table_ofPrelude htable
  have hvalues : ∀ value ∈ [m, n], (value : Int) ≤ limit :=
    List.forall_mem_cons.mpr ⟨hm, List.forall_mem_singleton.mpr hn⟩
  have hreduces := Numeral.reduces_exponentiation (ν := Nat) m n
  by_cases hzero : n = 0
  · rw [if_pos hzero] at hreduces ⊢
    have hnormal : (Term.lam (.var 0) : Term Nat).Normal :=
      Term.normal_lam_iff.mpr (Term.normal_var 0)
    have hmem : ("pow", Term.exponentiation) ∈ History.operations := by decide
    refine (evaluates_operation hmem hvalues hreduces hnormal).mono ?_
    rintro reduced ⟨hcanonical, hterm⟩
    exact passesOn_of_term hcanonical hterm
  · rw [if_neg hzero] at hreduces ⊢
    exact counts_operation .exponentiation (by decide) hvalues hreduces

/-- The steps of a calculation with the prelude that returns what is seen as told. -/
theorem exists_run {α : Type} (limit : Int) (name : String) (values : List Nat)
    (view : Expression → α) (seen : α)
    (h : (do
      let table ← KeywordTable.initial true
      let expression ← table.buildApplication none limit name values
      let reduced ← expression.reduce {}
      return view reduced : Outcome α) = .ok seen) :
    ∃ table expression reduced, KeywordTable.initial true = .ok table
      ∧ table.buildApplication none limit name values = .ok expression
      ∧ expression.reduce {} = .ok reduced ∧ view reduced = seen := by
  obtain ⟨table, htable, h⟩ := Outcome.bind_eq_ok.mp h
  obtain ⟨expression, hbuilt, h⟩ := Outcome.bind_eq_ok.mp h
  obtain ⟨reduced, hreduce, h⟩ := Outcome.bind_eq_ok.mp h
  exact ⟨table, expression, reduced, htable, hbuilt, hreduce, Except.ok.inj h⟩

/-- Within the usual limits, `pow 2 2` is reduced to the numeral of four. -/
theorem evaluates_pow_returning :
    ((2 : Nat) : Int) ≤ 2 ∧ ∃ table expression reduced, KeywordTable.initial true = .ok table
      ∧ table.buildApplication none 2 "pow" [2, 2] = .ok expression
      ∧ expression.reduce {} = .ok reduced ∧ reduced.number? = some 4 := by
  have htwo : ((2 : Nat) : Int) ≤ 2 := by decide
  obtain ⟨table, expression, reduced, htable, hbuilt, hreduce, _⟩ :=
    exists_run 2 "pow" [2, 2] (fun _ => ()) () (by decide +kernel)
  exact ⟨htwo, table, expression, reduced, htable, hbuilt, hreduce,
    (evaluates_pow htable htwo htwo).2 none expression hbuilt {} reduced hreduce⟩

/-- `pow 2 0` is reduced to what is not read as a number. -/
theorem not_counts_pow_zero :
    ∃ table, KeywordTable.initial true = .ok table
      ∧ ¬table.Evaluates 2 "pow" [2, 0] (Counts (2 ^ 0)) := by
  obtain ⟨table, expression, reduced, htable, hbuilt, hreduce, hnumber⟩ :=
    exists_run 2 "pow" [2, 0] Expression.number? none (by decide +kernel)
  refine ⟨table, htable, fun h => ?_⟩
  have hcounts := h.2 none expression hbuilt {} reduced hreduce
  rw [Counts, hnumber] at hcounts
  cases hcounts

end KeywordTable

end LambdaCalc
