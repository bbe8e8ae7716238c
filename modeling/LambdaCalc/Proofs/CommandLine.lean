import LambdaCalc.Proofs.Statement.Loading
import LambdaCalc.Proofs.Statement.Typing
import LambdaCalc.Text.Terminal

set_option autoImplicit false

/-! # Files and the shell

A file whose definitions come first can be run, or its lines can be typed into the shell. If its
statements succeed, both answer the same to them: the file prints the results at its end, and the
shell prints each one in the turn of the line that completes its statement
(`CommandLine.file_agrees_with_shell`). -/

namespace LambdaCalc

/-! ## Stops that end the program -/

/-- The fault that is printed for what ends the program, if one is. A mishap is printed as an
    unknown error. -/
def Stop.notice? : Stop → Option Fault
  | .fault reason => some reason
  | .nestedTooDeeply => some { kind := .expressionSizeLimit }
  | .interrupted => some (.worded .general (.text "keyboard interrupt"))
  | .mishap cause =>
      some (.worded .internalFailure (.text s!"unknown error: '{cause.sort}: {cause.message}'"))
  | .exit _ => none

namespace Reporter

variable {reporter : Reporter}

theorem report_of_fatal (h : reporter.fatal = true) (reason : Fault) :
    reporter.report reason
      = (.error (.exit (some failureStatus)),
          reporter.adding (reporter.faultText reason ++ "\n")) := by
  rw [report, print_eq_adding]
  exact if_pos h

/-- If faults are fatal, the program ends once one has been printed. -/
theorem absorb_of_notice (h : reporter.fatal = true) {stop : Stop} {reason : Fault}
    (hreason : stop.notice? = some reason) :
    reporter.absorb stop
      = (.error (.exit (some failureStatus)),
          reporter.adding (reporter.faultText reason ++ "\n")) := by
  cases stop with
  | fault | nestedTooDeeply | interrupted =>
    obtain rfl := Option.some.inj hreason
    exact report_of_fatal h _
  | mishap mishap =>
    obtain rfl := Option.some.inj hreason
    rw [absorb, report_of_fatal h]
  | exit => cases hreason

/-- If faults are fatal, nothing goes on after a calculation that stopped. -/
theorem absorb_ne_ok (h : reporter.fatal = true) (stop : Stop) :
    (reporter.absorb stop).1 ≠ .ok () := by
  intro hok
  cases hreason : stop.notice? with
  | some reason =>
    rw [absorb_of_notice h hreason] at hok
    cases hok
  | none =>
    cases stop with
    | exit => cases hok
    | fault | nestedTooDeeply | interrupted | mishap => cases hreason

end Reporter

namespace CommandLine

variable {style : Text.Style} {withPrelude : Bool} {read : String → Option String}
  {typed arguments : List String} {path : String} {table : KeywordTable} {request : Request}

/-! ## Running a request -/

theorem Request.shell_of_ok (htable : KeywordTable.initial request.withPrelude = .ok table)
    (reporter : Reporter) :
    request.shell reporter = .ok { session := .start reporter request.path table } := by
  unfold Request.shell
  rw [htable]
  rfl

/-- A program that does not fail has keywords to start with. -/
theorem exists_initial_of_run (hrequest : readArguments arguments = .ok request)
    (hrun : (run style read typed arguments).1 = .ok ()) :
    ∃ table, KeywordTable.initial request.withPrelude = .ok table := by
  cases htable : KeywordTable.initial request.withPrelude with
  | ok table => exact ⟨table, rfl⟩
  | error stop =>
    have hprepared : (do
        let request ← readArguments arguments
        return (request, ← request.shell { style }) : Outcome (Request × Shell))
        = .error stop := by
      rw [hrequest]
      show (request.shell { style } >>= _) = _
      unfold Request.shell
      rw [htable]
      rfl
    unfold run at hrun
    simp only [hprepared] at hrun
    exact absurd hrun (Reporter.absorb_ne_ok rfl stop)

/-- A request is carried out by the shell that it begins with. -/
theorem run_of_request (hrequest : readArguments arguments = .ok request)
    (htable : KeywordTable.initial request.withPrelude = .ok table) :
    run style read typed arguments
      = let ended := (match request.file with
            | some _ => Shell.inSession (runFile read)
            | none => runShell read typed).run
          { session := .start { style } request.path table }
        conclude ended.1 ended.2.session.reporter := by
  have hprepared : (do
      let request ← readArguments arguments
      return (request, ← request.shell { style }) : Outcome (Request × Shell))
      = .ok (request, { session := .start { style } request.path table }) := by
    rw [hrequest]
    show (request.shell { style } >>= _) = _
    rw [Request.shell_of_ok htable]
    rfl
  unfold run
  simp only [hprepared]
  rfl

/-- A file is run by a session that works on it. -/
theorem run_of_file (hrequest : readArguments arguments = .ok { file := some path, withPrelude })
    (htable : KeywordTable.initial withPrelude = .ok table) :
    run style read typed arguments
      = let ended := (runFile read).run ⟨.on path none true style "", path, table, {}, []⟩
        conclude ended.1 ended.2.reporter :=
  run_of_request hrequest htable

/-- Without a file the shell introduces itself and answers lines. -/
theorem run_of_shell (hrequest : readArguments arguments = .ok { file := none, withPrelude })
    (htable : KeywordTable.initial withPrelude = .ok table) :
    run style read typed arguments
      = let ended := (Shell.answerAll typed).run
          (Shell.idle style (Shell.introduction ++ "\n") table "" 0)
        conclude ended.1 ended.2.session.reporter :=
  run_of_request hrequest htable

end CommandLine

/-! ## What a file answers -/

namespace Session

/-- What is printed when statements are taken that answer these. -/
def notices (path : String) (style : Text.Style) (statements : List Statement)
    (replies : List Reply) : String :=
  String.join (List.zipWith (fun statement reply => reply.notice path style statement.line)
    statements replies)

theorem notices_append (path : String) (style : Text.Style) {statements : List Statement}
    {replies : List Reply} (h : statements.length = replies.length) (others : List Statement)
    (replies' : List Reply) :
    notices path style (statements ++ others) (replies ++ replies')
      = notices path style statements replies ++ notices path style others replies' := by
  rw [notices, List.zipWith_append h, String.join_append]
  rfl

/-- Results are not printed when statements are taken. -/
theorem notices_results (path : String) (style : Text.Style) (statements : List Statement)
    (answers : List Result) :
    notices path style statements (answers.map .result) = "" := by
  unfold notices
  induction statements generalizing answers with
  | nil => rw [List.zipWith_nil_left, String.join_nil]
  | cons statement statements ih =>
    cases answers with
    | nil => rw [List.map_nil, List.zipWith_nil_right, String.join_nil]
    | cons answer answers =>
      rw [List.map_cons, List.zipWith_cons_cons, String.join_cons, ih, Reply.notice,
        String.append_empty]

end Session

namespace KeywordTable

variable {table left : KeywordTable} {definitions expressions : List Statement}
  {answers : List Result}

/-- Definitions that are all entered are performed one after the other, and answer what is printed
    with them. -/
theorem performAll_definitions (path : String) (style : Text.Style)
    (hdefinitions : ∀ statement ∈ definitions, (Statement.definition? statement.text).isSome)
    (hleft : table.enterAll definitions = .ok left) :
    ∃ replies, table.performAll (definitions.map (·.text)) = .ok (replies, left)
      ∧ (∀ reply ∈ replies, reply.result? = none)
      ∧ Session.notices path style definitions replies
        = Reporter.redefinitions path style (table.redefinitions definitions) := by
  induction definitions generalizing table with
  | nil =>
    obtain rfl := Except.ok.inj hleft
    exact ⟨[], rfl, List.forall_mem_nil _, rfl⟩
  | cons statement definitions ih =>
    obtain ⟨hstatement, hdefinitions⟩ := List.forall_mem_cons.mp hdefinitions
    obtain ⟨⟨name, source⟩, hdefinition⟩ := Option.isSome_iff_exists.mp hstatement
    obtain ⟨next, hnext, hrest⟩ := enterAll_cons_eq_ok.mp hleft
    obtain ⟨replies, hperform, hnone, hnotices⟩ := ih hdefinitions hrest
    have hfirst : table.perform statement.text = .ok (table.replyTo (Text.trim name), next) := by
      rw [perform_of_definition hdefinition, ← enter_of_definition hdefinition, hnext]
      rfl
    refine ⟨table.replyTo (Text.trim name) :: replies,
      performAll_cons_eq_ok.mpr ⟨_, _, _, hfirst, hperform, rfl⟩,
      List.forall_mem_cons.mpr ⟨?_, hnone⟩, ?_⟩
    · unfold replyTo
      split_ifs <;> rfl
    · rw [redefinitions, hnext, Reporter.redefinitions_append, ← hnotices,
        ← table.notice_replyTo hdefinition, Session.notices, List.zipWith_cons_cons,
        String.join_cons]
      rfl

/-- Statements that are no definitions are performed one after the other, and answer their
    results. -/
theorem performAll_expressions
    (hexpressions : ∀ statement ∈ expressions, Statement.definition? statement.text = none)
    (hanswers : expressions.map (fun statement => table.resultOf statement.text)
      = answers.map .ok) :
    table.performAll (expressions.map (·.text)) = .ok (answers.map .result, table) := by
  induction expressions generalizing answers with
  | nil =>
    obtain rfl := List.map_eq_nil_iff.mp hanswers.symm
    rfl
  | cons statement expressions ih =>
    obtain ⟨hstatement, hexpressions⟩ := List.forall_mem_cons.mp hexpressions
    cases answers with
    | nil => cases hanswers
    | cons answer answers =>
      obtain ⟨hfirst, hanswers⟩ := List.cons.inj hanswers
      have hanswer : table.resultOf statement.text = .ok answer := hfirst
      refine performAll_cons_eq_ok.mpr
        ⟨.result answer, table, _, ?_, ih hexpressions hanswers, rfl⟩
      rw [perform_of_none hstatement, hanswer]
      rfl

/-- Statements that are no definitions enter nothing. -/
theorem enterAll_expressions (table : KeywordTable)
    (h : ∀ statement ∈ expressions, Statement.definition? statement.text = none) :
    table.enterAll expressions = .ok table ∧ table.redefinitions expressions = [] := by
  induction expressions with
  | nil => exact ⟨rfl, rfl⟩
  | cons statement expressions ih =>
    obtain ⟨hstatement, hexpressions⟩ := List.forall_mem_cons.mp h
    obtain ⟨henter, hnone⟩ := ih hexpressions
    have hfirst : table.enter statement = .ok table := enter_of_none hstatement
    refine ⟨enterAll_cons_eq_ok.mpr ⟨table, hfirst, henter⟩, ?_⟩
    rw [redefinitions, hfirst, redefinition, hstatement]
    exact hnone

theorem enterAll_append_eq_ok {statements others : List Statement} :
    table.enterAll (statements ++ others) = .ok left
      ↔ ∃ between, table.enterAll statements = .ok between
        ∧ between.enterAll others = .ok left := by
  rw [enterAll, List.foldlM_append, Outcome.bind_eq_ok]
  rfl

/-- If definitions come first and no statement fails, then the statements are performed one after
    the other, and answer what a file prints. -/
theorem performAll_of_enterAll (path : String) (style : Text.Style)
    (hdefinitions : ∀ statement ∈ definitions, (Statement.definition? statement.text).isSome)
    (hexpressions : ∀ statement ∈ expressions, Statement.definition? statement.text = none)
    (hleft : table.enterAll (definitions ++ expressions) = .ok left)
    (hanswers : (Statement.expressions (definitions ++ expressions)).map (fun statement =>
      left.resultOf statement.text) = answers.map .ok) :
    ∃ replies, table.performAll ((definitions ++ expressions).map (·.text)) = .ok (replies, left)
      ∧ replies.filterMap Reply.result? = answers
      ∧ Session.notices path style (definitions ++ expressions) replies
        = Reporter.redefinitions path style
          (table.redefinitions (definitions ++ expressions)) := by
  obtain ⟨between, hbetween, hrest⟩ := enterAll_append_eq_ok.mp hleft
  -- The definitions are behind now, and what follows leaves the table as it is.
  obtain ⟨hsame, hnothing⟩ := between.enterAll_expressions hexpressions
  obtain rfl := Except.ok.inj (hsame.symm.trans hrest)
  have hsplit : Statement.expressions (definitions ++ expressions) = expressions := by
    rw [Statement.expressions, List.filter_append, List.filter_eq_nil_iff.mpr,
      List.filter_eq_self.mpr, List.nil_append]
    · intro statement hmem
      rw [hexpressions statement hmem]
      rfl
    · intro statement hmem
      rw [Option.isNone_iff_eq_none]
      exact Option.ne_none_iff_isSome.mpr (hdefinitions statement hmem)
  rw [hsplit] at hanswers
  obtain ⟨replies, hperform, hnone, hnotices⟩ :=
    performAll_definitions path style hdefinitions hbetween
  have hlength := length_of_performAll hperform
  rw [List.length_map] at hlength
  refine ⟨replies ++ answers.map .result, ?_, ?_, ?_⟩
  · rw [List.map_append]
    exact performAll_append_eq_ok.mpr
      ⟨_, _, _, hperform, performAll_expressions hexpressions hanswers, rfl⟩
  · have hresults : (answers.map Reply.result).filterMap Reply.result? = answers := by
      rw [List.filterMap_map]
      exact List.filterMap_some
    rw [List.filterMap_append, List.filterMap_eq_nil_iff.mpr hnone, hresults, List.nil_append]
  · rw [Session.notices_append path style hlength.symm, Session.notices_results,
      String.append_empty, hnotices, redefinitions_append hbetween, hnothing, List.append_nil]

end KeywordTable

/-! ## The same answers -/

namespace CommandLine

variable {style : Text.Style} {withPrelude : Bool} {read : String → Option String}
  {typed arguments : List String} {path : String}

/-- If a file is run to its end whose definitions come before its other statements, whose last line
    leaves no statement open, and none of whose lines begins with a command of the shell, then the
    shell answers the same when the lines of the file are typed, with the prelude if the file was
    run with it. What is answered is what the statements answer one after the other. The file prints
    the warnings of the definitions and then the results. The shell prints the answers in the turns
    of the lines, with its value behind a numeral, and goes on to the end of the input. -/
theorem file_agrees_with_shell {style' : Text.Style} {read' : String → Option String}
    {arguments' : List String} {text : String} {definitions expressions : List Statement}
    (hfile : readArguments arguments = .ok { file := some path, withPrelude })
    (hshell : readArguments arguments' = .ok { file := none, withPrelude })
    (hpath : path ≠ Session.interactivePath) (hread : read path = some text)
    (hsplit : Statement.ofLines (Text.fileLines text) = definitions ++ expressions)
    (hdefinitions : ∀ statement ∈ definitions, (Statement.definition? statement.text).isSome)
    (hexpressions : ∀ statement ∈ expressions, Statement.definition? statement.text = none)
    (hbegun : Statement.begunAfter "" (Text.fileLines text) = "")
    (hcommands : ∀ line ∈ Text.fileLines text, ¬ Shell.BeginsCommand line)
    (hrun : (run style read typed arguments).1 = .ok ()) :
    ∃ (start : KeywordTable) (replies : List Reply) (left : KeywordTable) (turns : List Turn),
      KeywordTable.initial withPrelude = .ok start
      ∧ start.performAll ((definitions ++ expressions).map (·.text)) = .ok (replies, left)
      ∧ (run style read typed arguments).2.printed
        = Session.notices path style (definitions ++ expressions) replies
          ++ String.join ((replies.filterMap Reply.result?).map (·.text ++ "\n"))
      ∧ turns.length = (Text.fileLines text).length ∧ turns.filterMap (·.reply) = replies
      ∧ (run style' read' (Text.fileLines text) arguments').1 = .ok ()
      ∧ (run style' read' (Text.fileLines text) arguments').2.printed
        = Shell.introduction ++ "\n" ++ String.join (turns.map (·.shown style')) ++ "λ> \n" := by
  obtain ⟨start, hstart⟩ := exists_initial_of_run hfile hrun
  rw [run_of_file hfile hstart] at hrun ⊢
  rw [run_of_shell hshell hstart]
  -- Faults are fatal for a file, so that a run that comes to its end has met none.
  have hstops {stop : Stop} {session : Session}
      (hended : (runFile read).run ⟨.on path none true style "", path, start, {}, []⟩
        = (.error stop, session)) (hfatal : session.reporter.fatal = true) : False := by
    rw [hended] at hrun
    exact Reporter.absorb_ne_ok hfatal stop hrun
  have hnull : '\x00' ∉ path.toList := by
    intro hmem
    have hbegin := Session.run_begin_file path true style "" start hpath hread
    rw [if_pos (by simpa using hmem)] at hbegin
    exact hstops (run_bind_of_error hbegin) rfl
  have hsucceeds : ¬ start.Fails (Statement.ofLines (Text.fileLines text)) := by
    intro hfails
    obtain ⟨statement, stop, hfirst⟩ := hfails.exists_firstFailure
    obtain ⟨session, hended, hreporter⟩ :=
      Session.run_runFile_of_firstFailure path true style "" start hpath hnull hread hfirst
    exact hstops hended (by rw [hreporter]; rfl)
  -- What the file answers, statement by statement, is what the shell has to answer.
  obtain ⟨left, answers, hleft, hanswers⟩ := KeywordTable.exists_results_of_not_fails hsucceeds
  have hended :=
    Session.run_runFile_of_ok path true style "" start hpath hnull hread hleft hanswers
  rw [hsplit] at hleft hanswers hended
  obtain ⟨replies, hperform, hresults, hnotices⟩ :=
    KeywordTable.performAll_of_enterAll path style hdefinitions hexpressions hleft hanswers
  obtain ⟨turns, shell, hlength, hreplies, htyped, hprinted⟩ :=
    Shell.run_answerAll hcommands hbegun (hsplit ▸ hperform) .nothing rfl (.initial hstart)
      style' (Shell.introduction ++ "\n") 0
  refine ⟨start, replies, left, turns, hstart, hperform, ?_, hlength, hreplies, ?_, ?_⟩
  · rw [hended, hnotices, hresults]
    exact congrArg (· ++ _) String.empty_append
  · rw [htyped]
    rfl
  · rw [htyped]
    exact hprinted

/-- A file of four lines, the first two of which define a keyword, and its lines when they are
    typed. -/
theorem file_agrees_with_shell_held :
    (run Text.plain (fun _ => some "k := (λx.\n  x)\nk a\nk (k b)\n") [] ["f", "--no-prelude"]).1
      = .ok ()
    ∧ ∃ (start : KeywordTable) (replies : List Reply) (left : KeywordTable) (turns : List Turn),
      KeywordTable.initial false = .ok start
      ∧ start.performAll ["k := (λx.   x)", "k a", "k (k b)"] = .ok (replies, left)
      ∧ "a\nb\n"
        = Session.notices "f" Text.plain [⟨"k := (λx.   x)", 2⟩, ⟨"k a", 3⟩, ⟨"k (k b)", 4⟩] replies
          ++ String.join ((replies.filterMap Reply.result?).map (·.text ++ "\n"))
      ∧ turns.length = 4 ∧ turns.filterMap (·.reply) = replies
      ∧ (run Text.plain (fun _ => none) ["k := (λx.", "  x)", "k a", "k (k b)"] ["--no-prelude"]).1
        = .ok ()
      ∧ Shell.introduction ++ "\nλ> . λ> a\nλ> b\nλ> \n"
        = Shell.introduction ++ "\n" ++ String.join (turns.map (·.shown Text.plain))
          ++ "λ> \n" := by
  have hlines : Text.fileLines "k := (λx.\n  x)\nk a\nk (k b)\n"
      = ["k := (λx.", "  x)", "k a", "k (k b)"] := by decide +kernel
  have hrun : (run Text.plain (fun _ => some "k := (λx.\n  x)\nk a\nk (k b)\n") []
      ["f", "--no-prelude"]).1 = .ok () := by decide +kernel
  have hprinted : (run Text.plain (fun _ => some "k := (λx.\n  x)\nk a\nk (k b)\n") []
      ["f", "--no-prelude"]).2.printed = "a\nb\n" := by decide +kernel
  have hshown : (run Text.plain (fun _ => none) ["k := (λx.", "  x)", "k a", "k (k b)"]
      ["--no-prelude"]).2.printed
      = Shell.introduction ++ "\nλ> . λ> a\nλ> b\nλ> \n" := by decide +kernel
  have hagrees := @file_agrees_with_shell Text.plain false
    (fun _ => some "k := (λx.\n  x)\nk a\nk (k b)\n") [] ["f", "--no-prelude"] "f" Text.plain
    (fun _ => none) ["--no-prelude"] _ [⟨"k := (λx.   x)", 2⟩] [⟨"k a", 3⟩, ⟨"k (k b)", 4⟩]
    (by decide +kernel) (by decide +kernel) (by decide) rfl (by decide +kernel) (by decide +kernel)
    (by decide +kernel) (by decide +kernel) (by decide +kernel) hrun
  rw [hlines, hprinted, hshown] at hagrees
  exact ⟨hrun, hagrees⟩

end CommandLine

end LambdaCalc
