import LambdaCalc.CommandLine
import LambdaCalc.Proofs.Statement.Lines
import LambdaCalc.Proofs.Statement.Pending
import LambdaCalc.Proofs.Statement.Sessions

set_option autoImplicit false

/-! # Loading files

The definitions in a file are taken in order, and the other statements are kept; these are run in
order then, with all the definitions in force. If nothing fails, what is printed are the warnings of
the definitions and then the results (`Session.run_runFile_of_ok`). Otherwise the file stops at the
first definition that is refused, or else at the first other statement that has no result
(`KeywordTable.FirstFailure`, `Session.run_runFile_of_firstFailure`). -/

namespace LambdaCalc

/-! ## The statements of a file -/

namespace Statement

/-- The statements that are no definitions. -/
def expressions (statements : List Statement) : List Statement :=
  statements.filter fun statement => (definition? statement.text).isNone

/-- A statement as it is kept until it is run. -/
def entry (statement : Statement) : Int × String := (statement.line, statement.text)

/-- A statement is kept behind those of the lines in front of it. -/
theorem put_entry {pending : OrderedTable Int String} {statement : Statement}
    (h : ∀ line ∈ pending.keys, line < (statement.line : Int)) :
    pending.put (statement.line : Int) statement.text
      = { entries := pending.entries ++ [statement.entry] } := by
  have hkey : pending.contains (statement.line : Int) = false := by
    rw [Bool.eq_false_iff, ne_eq, pending.contains_iff_mem_keys]
    exact fun hmem => Int.lt_irrefl _ (h _ hmem)
  rw [OrderedTable.put, hkey, if_neg Bool.false_ne_true]
  rfl

/-- The place of a statement in its file. -/
def place (statement : Statement) : Place :=
  { text := statement.text, number := some statement.line }

end Statement

namespace KeywordTable

/-- Enter the keyword that a statement defines, if it is a definition. -/
def enter (table : KeywordTable) (statement : Statement) : Outcome KeywordTable :=
  match Statement.definition? statement.text with
  | some (name, source) => table.define name source
  | none => return table

/-- Enter the keywords that statements define one after the other. -/
def enterAll (table : KeywordTable) (statements : List Statement) : Outcome KeywordTable :=
  statements.foldlM enter table

/-- The keyword that a statement is to define again, with the line of the statement. -/
def redefinition (table : KeywordTable) (statement : Statement) : List (Nat × String) :=
  match Statement.definition? statement.text with
  | some (name, _) =>
      if table.contains (Text.trim name) then [(statement.line, Text.trim name)] else []
  | none => []

/-- The keywords that statements are to define again, up to the first definition that is refused. -/
def redefinitions (table : KeywordTable) : List Statement → List (Nat × String)
  | [] => []
  | statement :: statements =>
      table.redefinition statement ++
        match table.enter statement with
        | .ok left => left.redefinitions statements
        | .error _ => []

/-- Some of the statements of a file fails: a definition is refused, or another statement has no
    result with all the definitions in force. -/
def Fails (table : KeywordTable) (statements : List Statement) : Prop :=
  (∃ stop, table.enterAll statements = .error stop)
    ∨ ∃ left, table.enterAll statements = .ok left
      ∧ ∃ statement ∈ Statement.expressions statements, ∃ stop,
        left.resultOf statement.text = .error stop

/-- The first definition of a file that is refused, or, if there is none, the first other statement
    that has no result with all the definitions in force. -/
inductive FirstFailure (table : KeywordTable) (statements : List Statement) :
    Statement → Stop → Prop where
  | definition {before after : List Statement} {statement : Statement} {between : KeywordTable}
      {stop : Stop} :
      statements = before ++ statement :: after → table.enterAll before = .ok between →
      between.enter statement = .error stop → FirstFailure table statements statement stop
  | expression {before after : List Statement} {statement : Statement} {left : KeywordTable}
      {results : List Result} {stop : Stop} :
      table.enterAll statements = .ok left →
      Statement.expressions statements = before ++ statement :: after →
      before.map (fun earlier => left.resultOf earlier.text) = results.map .ok →
      left.resultOf statement.text = .error stop → FirstFailure table statements statement stop

variable {table left between : KeywordTable} {statement : Statement}
  {statements before after : List Statement} {name source : String} {stop : Stop}

theorem enter_of_definition (h : Statement.definition? statement.text = some (name, source)) :
    table.enter statement = table.define (Text.trim name) source := by
  rw [enter, h]
  simp only [define_eq, entered, Text.trim_trim]

theorem enter_of_none (h : Statement.definition? statement.text = none) :
    table.enter statement = .ok table := by
  rw [enter, h]
  rfl

theorem enterAll_cons_eq_ok : table.enterAll (statement :: statements) = .ok left
    ↔ ∃ next, table.enter statement = .ok next ∧ next.enterAll statements = .ok left := by
  rw [enterAll, List.foldlM_cons, Outcome.bind_eq_ok]
  rfl

theorem Reachable.enter (h : table.Reachable) (hleft : table.enter statement = .ok left) :
    left.Reachable := by
  unfold KeywordTable.enter at hleft
  split at hleft
  · exact h.define hleft
  · obtain rfl := Except.ok.inj hleft
    exact h

theorem Reachable.enterAll (h : table.Reachable) (hleft : table.enterAll statements = .ok left) :
    left.Reachable := by
  induction statements generalizing table with
  | nil =>
    obtain rfl := Except.ok.inj hleft
    exact h
  | cons statement statements ih =>
    obtain ⟨next, hnext, hrest⟩ := enterAll_cons_eq_ok.mp hleft
    exact ih (h.enter hnext) hrest

/-- Behind statements that are all entered, redefinitions are found with the keywords that those
    leave behind. -/
theorem redefinitions_append (h : table.enterAll before = .ok between) :
    table.redefinitions (before ++ statements)
      = table.redefinitions before ++ between.redefinitions statements := by
  induction before generalizing table with
  | nil =>
    obtain rfl := Except.ok.inj h
    rfl
  | cons statement before ih =>
    obtain ⟨next, hnext, hrest⟩ := enterAll_cons_eq_ok.mp h
    rw [List.cons_append, redefinitions, redefinitions, hnext]
    simp only [ih hrest, List.append_assoc]

/-- A file of which some statement fails has a first failure. -/
theorem Fails.exists_firstFailure (h : table.Fails statements) :
    ∃ statement stop, table.FirstFailure statements statement stop := by
  rcases h with ⟨stop, hstop⟩ | ⟨left, hleft, statement, hmem, stop, hstop⟩
  · obtain ⟨before, statement, after, between, hsplit, hbefore, hrefused⟩ :=
      Outcome.foldlM_eq_error.mp hstop
    exact ⟨statement, stop, .definition hsplit hbefore hrefused⟩
  · cases hall : (Statement.expressions statements).mapM fun statement =>
        left.resultOf statement.text with
    | ok results =>
      have hresult := List.mem_map_of_mem (f := fun statement => left.resultOf statement.text) hmem
      rw [Outcome.mapM_eq_ok.mp hall, hstop] at hresult
      obtain ⟨_, _, heq⟩ := List.mem_map.mp hresult
      cases heq
    | error stop =>
      obtain ⟨before, statement, after, results, hsplit, hresults, hstop⟩ :=
        Outcome.mapM_eq_error.mp hall
      exact ⟨statement, stop, .expression hleft hsplit hresults hstop⟩

/-- If no statement of a file fails, all of them succeed. -/
theorem exists_results_of_not_fails (h : ¬ table.Fails statements) :
    ∃ (left : KeywordTable) (results : List Result), table.enterAll statements = .ok left
      ∧ (Statement.expressions statements).map (fun statement => left.resultOf statement.text)
        = results.map .ok := by
  cases hleft : table.enterAll statements with
  | error stop => exact absurd (.inl ⟨stop, hleft⟩) h
  | ok left =>
    cases hall : (Statement.expressions statements).mapM fun statement =>
        left.resultOf statement.text with
    | ok results => exact ⟨left, results, rfl, Outcome.mapM_eq_ok.mp hall⟩
    | error stop =>
      obtain ⟨before, statement, after, results, hsplit, -, hstop⟩ := Outcome.mapM_eq_error.mp hall
      exact absurd (.inr ⟨left, hleft, statement, by simp [hsplit], stop, hstop⟩) h

end KeywordTable

/-- The warnings that keywords are redefined in lines. -/
def Reporter.redefinitions (path : String) (style : Text.Style) (again : List (Nat × String)) :
    String :=
  String.join (again.map fun (line, keyword) => redefinition path style line keyword)

theorem Reporter.redefinitions_append (path : String) (style : Text.Style)
    (again others : List (Nat × String)) :
    redefinitions path style (again ++ others)
      = redefinitions path style again ++ redefinitions path style others := by
  rw [redefinitions, List.map_append, String.join_append]
  rfl

/-- What is printed with a definition is the warning, if the keyword is defined again. -/
theorem KeywordTable.notice_replyTo (table : KeywordTable) {statement : Statement}
    {name source : String} (h : Statement.definition? statement.text = some (name, source))
    (path : String) (style : Text.Style) :
    (table.replyTo (Text.trim name)).notice path style statement.line
      = Reporter.redefinitions path style (table.redefinition statement) := by
  unfold replyTo redefinition
  rw [h]
  simp only
  split_ifs
  · rw [Reply.notice, Reporter.redefinitions, List.map_singleton, String.join_cons, String.join_nil,
      String.append_empty]
  · exact String.join_nil.symm

namespace Session

/-- Take a statement under its line. -/
def takeStatement (statement : Statement) : SessionM Unit :=
  take statement.text (some (statement.line : Int))

section

variable (path : String) (fatal : Bool) (style : Text.Style) (printed : String)
  (table : KeywordTable) (pending : OrderedTable Int String) (results : List Result)

/-! ## Taking statements -/

variable {statement : Statement} {statements before after : List Statement}
  {left between : KeywordTable} {stop : Stop}

/-- Statements are taken one after the other: definitions print their warnings, and the other
    statements are kept in order, if their lines go up. By induction on the statements. -/
theorem run_takeAll (hne : ∀ statement ∈ statements, statement.text ≠ "")
    (hlines : statements.Pairwise fun first second => first.line < second.line)
    (hnew : ∀ line ∈ pending.keys, ∀ statement ∈ statements, line < (statement.line : Int))
    (hleft : table.enterAll statements = .ok left) :
    (statements.forM takeStatement).run
        ⟨.on path none fatal style printed, path, table, pending, results⟩
      = (.ok (), ⟨.on path none fatal style
            (printed ++ Reporter.redefinitions path style (table.redefinitions statements)),
          path, left,
          { entries := pending.entries
              ++ (Statement.expressions statements).map Statement.entry },
          results⟩) := by
  induction statements generalizing printed table pending with
  | nil =>
    obtain rfl := Except.ok.inj hleft
    rw [KeywordTable.redefinitions, Reporter.redefinitions, List.map_nil, String.join_nil,
      String.append_empty, Statement.expressions, List.filter_nil, List.map_nil, List.append_nil]
    rfl
  | cons statement statements ih =>
    obtain ⟨hfirst, hothers⟩ := List.forall_mem_cons.mp hne
    obtain ⟨hlt, hlines⟩ := List.pairwise_cons.mp hlines
    obtain ⟨next, hnext, hrest⟩ := KeywordTable.enterAll_cons_eq_ok.mp hleft
    have hnew' : ∀ line ∈ pending.keys, ∀ later ∈ statements, line < (later.line : Int) :=
      fun line hmem later hlater => hnew line hmem later (List.mem_cons_of_mem _ hlater)
    rw [List.forM_eq_forM, List.forM_cons, ← List.forM_eq_forM, KeywordTable.redefinitions, hnext,
      Reporter.redefinitions_append, ← String.append_assoc, Statement.expressions,
      List.filter_cons]
    cases hdefinition : Statement.definition? statement.text with
    | some sides =>
      have htake : (takeStatement statement).run _ = _ := run_take_definition path fatal style
        printed table pending results statement.line hdefinition hfirst
      rw [← KeywordTable.enter_of_definition hdefinition, hnext,
        table.notice_replyTo hdefinition] at htake
      rw [run_bind_of_ok htake]
      exact ih _ next pending hothers hlines hnew' hrest
    | none =>
      have htake : (takeStatement statement).run _ = _ := run_take_expression path fatal style
        printed table pending results statement.line hdefinition
      rw [KeywordTable.enter_of_none hdefinition] at hnext
      obtain rfl := Except.ok.inj hnext
      -- Its line is greater than all that are pending, so it is added behind them.
      have hput := Statement.put_entry fun line hmem => hnew line hmem statement List.mem_cons_self
      have hkeys : ∀ line ∈ (OrderedTable.mk (pending.entries ++ [statement.entry])).keys,
          ∀ later ∈ statements, line < (later.line : Int) := by
        intro line hmem later hlater
        rw [OrderedTable.keys, List.map_append, List.mem_append] at hmem
        rcases hmem with hmem | hmem
        · exact hnew' line hmem later hlater
        · obtain rfl := List.mem_singleton.mp hmem
          exact Int.ofNat_lt.mpr (hlt later hlater)
      rw [run_bind_of_ok htake, hput, ih printed table _ hothers hlines hkeys hrest]
      simp [KeywordTable.redefinition, hdefinition, Reporter.redefinitions, Statement.expressions]

/-- Statements are taken up to the first definition that is refused. Then its place is still
    known. -/
theorem run_takeAll_of_refused
    (hne : ∀ taken ∈ before ++ statement :: after, taken.text ≠ "")
    (hlines : (before ++ statement :: after).Pairwise fun first second => first.line < second.line)
    (hbefore : table.enterAll before = .ok between)
    (hrefused : between.enter statement = .error stop) :
    ((before ++ statement :: after).forM takeStatement).run
        ⟨.on path none fatal style printed, path, table, {}, []⟩
      = (.error stop, ⟨.on path (some statement.place) fatal style
            (printed ++ Reporter.redefinitions path style
              (table.redefinitions (before ++ statement :: after))),
          path, between, { entries := (Statement.expressions before).map Statement.entry },
          []⟩) := by
  have htaken := run_takeAll path fatal style printed table {} []
    (fun earlier hmem => hne earlier (List.mem_append_left _ hmem))
    (List.pairwise_append.mp hlines).1 (List.forall_mem_nil _) hbefore
  have hsides : Statement.definition? statement.text ≠ none := by
    intro hnone
    rw [KeywordTable.enter_of_none hnone] at hrefused
    cases hrefused
  obtain ⟨⟨name, source⟩, hdefinition⟩ := Option.ne_none_iff_exists'.mp hsides
  have htake : (takeStatement statement).run _ = _ := run_take_definition path fatal style
    (printed ++ Reporter.redefinitions path style (table.redefinitions before)) between
    { entries := (Statement.expressions before).map Statement.entry } [] statement.line
    hdefinition (hne statement (by simp))
  rw [← KeywordTable.enter_of_definition hdefinition, hrefused,
    between.notice_replyTo hdefinition] at htake
  rw [List.forM_eq_forM, List.forM_append, ← List.forM_eq_forM, run_bind_of_ok htaken,
    List.forM_eq_forM, List.forM_cons, KeywordTable.redefinitions_append hbefore,
    KeywordTable.redefinitions, hrefused, List.append_nil, Reporter.redefinitions_append,
    ← String.append_assoc]
  exact run_bind_of_error htake

/-! ## Running what is pending -/

/-- The session once all statements of a file have been taken. -/
def loaded (statements : List Statement) : Session :=
  ⟨.on path none fatal style printed, path, table,
    { entries := (Statement.expressions statements).map Statement.entry }, []⟩

theorem nodup_keys_loaded
    (hlines : statements.Pairwise fun first second => first.line < second.line) :
    (loaded path fatal style printed table statements).pending.keys.Nodup := by
  have hkeys : (loaded path fatal style printed table statements).pending.keys
      = (Statement.expressions statements).map fun statement => (statement.line : Int) :=
    List.map_map
  rw [hkeys, List.nodup_iff_pairwise_ne, List.pairwise_map]
  exact (hlines.sublist List.filter_sublist).imp fun hlt => (Int.ofNat_lt.mpr hlt).ne

theorem map_resultOf_entry (session : Session) (statements : List Statement) :
    (statements.map Statement.entry).map session.resultOf
      = statements.map fun statement => session.table.resultOf statement.text :=
  List.map_map

/-- Results are printed line by line. -/
theorem run_print_all (answers : List Result) :
    (answers.forM fun result => tell (·.print result.text)).run
        ⟨.on path none fatal style printed, path, table, pending, results⟩
      = (.ok (), ⟨.on path none fatal style
          (printed ++ String.join (answers.map (·.text ++ "\n"))), path, table, pending,
          results⟩) := by
  induction answers generalizing printed with
  | nil =>
    rw [List.map_nil, String.join_nil, String.append_empty]
    rfl
  | cons result answers ih =>
    rw [List.forM_eq_forM, List.forM_cons, ← List.forM_eq_forM, run_bind_of_ok (run_tell _ _)]
    simp only [Reporter.print_on]
    rw [ih, List.map_cons, String.join_cons]
    simp only [String.append_assoc]

/-- Run what is pending and print the results. -/
def printResults : SessionM Unit := do
  Session.run
  (← takeResults).forM fun result => tell (·.print result.text)

/-- If all statements that are kept have results, these are printed in order. -/
theorem run_printResults {answers : List Result}
    (hlines : statements.Pairwise fun first second => first.line < second.line)
    (hanswers : (Statement.expressions statements).map (fun statement =>
      table.resultOf statement.text) = answers.map .ok) :
    printResults.run (loaded path fatal style printed table statements)
      = (.ok (), ⟨.on path none fatal style
          (printed ++ String.join (answers.map (·.text ++ "\n"))), path, table, {}, []⟩) := by
  have hrun := run_of_ok (nodup_keys_loaded path fatal style printed table hlines)
    ((map_resultOf_entry _ _).trans hanswers)
  have hreporter (entries : List (Int × String)) :
      (loaded path fatal style printed table statements).past entries answers []
        = ⟨.on path none fatal style printed, path, table, {}, answers⟩ := by
    simp only [past, loaded, Reporter.clear_on, ite_self, List.nil_append]
  rw [hreporter] at hrun
  unfold printResults
  rw [run_bind_of_ok hrun, run_bind_of_ok (run_takeResults _)]
  exact run_print_all path fatal style printed table {} [] answers

/-- Running stops at the first statement that has no result, and nothing is printed. -/
theorem run_printResults_of_failing {answers : List Result}
    (hlines : statements.Pairwise fun first second => first.line < second.line)
    (hsplit : Statement.expressions statements = before ++ statement :: after)
    (hanswers : before.map (fun earlier => table.resultOf earlier.text) = answers.map .ok)
    (hstop : table.resultOf statement.text = .error stop) :
    printResults.run (loaded path fatal style printed table statements)
      = (.error stop, ⟨.on path (some statement.place) fatal style printed, path, table,
          { entries := after.map Statement.entry }, answers⟩) := by
  have hentries : (loaded path fatal style printed table statements).pending.entries
      = before.map Statement.entry ++ statement.entry :: after.map Statement.entry := by
    rw [← List.map_cons, ← List.map_append, ← hsplit]
    rfl
  have hrun := run_of_error (nodup_keys_loaded path fatal style printed table hlines) hentries
    ((map_resultOf_entry _ _).trans hanswers) hstop
  have hentered : (loaded path fatal style printed table statements).entered statement.line
      statement.text = .on path (some statement.place) fatal style printed :=
    Reporter.enter_on path none fatal style printed statement.place
  rw [hentered] at hrun
  exact run_bind_of_error hrun

/-! ## Whole files -/

theorem runFile_eq (read : String → Option String) :
    CommandLine.runFile read = Session.begin read >>= fun _ => printResults :=
  rfl

variable {text : String} {read : String → Option String}

/-- A session begins with a file by taking the statements in it. -/
theorem run_begin_file (hpath : path ≠ interactivePath) (hread : read path = some text) :
    (Session.begin read).run ⟨.on path none fatal style printed, path, table, {}, []⟩
      = if path.toList.contains '\x00' then
          (.error (.mishap (.refused "embedded null byte")),
            ⟨.on path none fatal style printed, path, table, {}, []⟩)
        else
          ((Statement.ofLines (Text.fileLines text)).forM takeStatement).run
            ⟨.on path none fatal style printed, path, table, {}, []⟩ := by
  unfold Session.begin
  rw [run_bind_of_ok (run_get _)]
  simp only [if_neg hpath]
  split_ifs
  · rfl
  · rw [hread]
    rfl

/-- A file of which no statement fails is run to its end: it prints the warnings of its definitions,
    and then its results. -/
theorem run_runFile_of_ok (hpath : path ≠ interactivePath) (hnull : '\x00' ∉ path.toList)
    (hread : read path = some text)
    (hleft : table.enterAll (Statement.ofLines (Text.fileLines text)) = .ok left)
    {answers : List Result}
    (hanswers : (Statement.expressions (Statement.ofLines (Text.fileLines text))).map
      (fun statement => left.resultOf statement.text) = answers.map .ok) :
    (CommandLine.runFile read).run ⟨.on path none fatal style printed, path, table, {}, []⟩
      = (.ok (), ⟨.on path none fatal style
          (printed ++ Reporter.redefinitions path style
              (table.redefinitions (Statement.ofLines (Text.fileLines text)))
            ++ String.join (answers.map (·.text ++ "\n"))), path, left, {}, []⟩) := by
  have hlines := Statement.pairwise_ofLines (Text.fileLines text)
  have hne : ∀ statement ∈ Statement.ofLines (Text.fileLines text), statement.text ≠ "" :=
    fun statement => Statement.text_ne_empty_of_mem
  have hbegin := run_begin_file path fatal style printed table hpath hread
  rw [if_neg (by simpa using hnull), run_takeAll path fatal style printed table {} [] hne hlines
    (List.forall_mem_nil _) hleft] at hbegin
  rw [runFile_eq, run_bind_of_ok hbegin]
  exact run_printResults path fatal style _ left hlines hanswers

/-- A file stops at its first failure. Then the place of that statement is known, and nothing has
    been printed but the warnings of the definitions. -/
theorem run_runFile_of_firstFailure (hpath : path ≠ interactivePath)
    (hnull : '\x00' ∉ path.toList) (hread : read path = some text)
    (hfails : table.FirstFailure (Statement.ofLines (Text.fileLines text)) statement stop) :
    ∃ session,
      (CommandLine.runFile read).run ⟨.on path none fatal style printed, path, table, {}, []⟩
        = (.error stop, session)
      ∧ session.reporter = .on path (some statement.place) fatal style
          (printed ++ Reporter.redefinitions path style
            (table.redefinitions (Statement.ofLines (Text.fileLines text)))) := by
  have hlines := Statement.pairwise_ofLines (Text.fileLines text)
  have hne : ∀ statement ∈ Statement.ofLines (Text.fileLines text), statement.text ≠ "" :=
    fun statement => Statement.text_ne_empty_of_mem
  have hbegin := run_begin_file path fatal style printed table hpath hread
  rw [if_neg (by simpa using hnull)] at hbegin
  rw [runFile_eq]
  cases hfails with
  | @definition before after _ between _ hsplit hbefore hrefused =>
    rw [hsplit] at hbegin hne hlines ⊢
    rw [run_takeAll_of_refused path fatal style printed table hne hlines hbefore hrefused]
      at hbegin
    exact ⟨_, run_bind_of_error hbegin, rfl⟩
  | @expression before after _ left answers _ hleft hsplit hanswers hstop =>
    rw [run_takeAll path fatal style printed table {} [] hne hlines (List.forall_mem_nil _)
      hleft] at hbegin
    rw [run_bind_of_ok hbegin]
    exact ⟨_, run_printResults_of_failing path fatal style _ left hlines hsplit hanswers hstop,
      rfl⟩

end

end Session

end LambdaCalc
