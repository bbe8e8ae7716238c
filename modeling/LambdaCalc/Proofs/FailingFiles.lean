import LambdaCalc.Proofs.CommandLine
import LambdaCalc.Proofs.Statement.Runs

set_option autoImplicit false

/-! # Files that fail

If a statement of a file fails, the program ends with the status of failure. It prints no result,
but the warnings of the definitions that it has come to and one message, about the first definition
that is refused or else the first other statement that has no result. The message names the last of
the lines that this statement was written on (`CommandLine.run_failing_file`). -/

namespace LambdaCalc

/-! ## What is printed for a failure -/

theorem Stop.exists_notice {stop : Stop} {reached : String → Prop}
    (h : (∃ reason, stop.explanation? = some reason) ∨ stop.AtOverlong reached) :
    ∃ reason, stop.notice? = some reason := by
  rcases h with ⟨reason, hreason⟩ | ⟨_, _⟩
  · cases stop with
    | fault | nestedTooDeeply => exact ⟨_, rfl⟩
    | mishap | interrupted | exit => cases hreason
  · exact ⟨_, rfl⟩

namespace KeywordTable

variable {table : KeywordTable} {statements : List Statement} {statement : Statement} {stop : Stop}

/-- There is a message for every failure. -/
theorem FirstFailure.exists_notice (h : table.FirstFailure statements statement stop)
    (htable : table.Reachable) : ∃ reason, stop.notice? = some reason := by
  cases h with
  | definition _ _ hrefused =>
    unfold enter at hrefused
    split at hrefused
    · exact Stop.exists_notice (define_stops _ _ _ hrefused)
    · cases hrefused
  | @expression _ _ _ left _ _ hleft _ _ hstop =>
    have hcalculate : left.calculate statement.text = .error stop := by
      rw [calculate_eq, hstop]
      rfl
    exact Stop.exists_notice
      (((htable.enterAll hleft).calculate_stops _ hcalculate).imp_left (·.exists_explanation))

theorem FirstFailure.mem (h : table.FirstFailure statements statement stop) :
    statement ∈ statements := by
  cases h with
  | definition hsplit _ _ => simp [hsplit]
  | expression _ hsplit _ _ =>
    have hmem : statement ∈ Statement.expressions statements := by simp [hsplit]
    exact List.mem_of_mem_filter hmem

end KeywordTable

namespace CommandLine

variable {style : Text.Style} {withPrelude : Bool} {read : String → Option String}
  {typed arguments : List String} {path text : String} {start : KeywordTable}

/-- If some statement of a file fails, then one of them is the first failure, and the program ends
    with the status of failure. All that is printed are the warnings of the definitions that are
    reached and then one message, about this failure and with the number of the last line of the
    statement. If all that a style does to a text is to put marks around it, then the message begins
    with the path and the number as they are, up to the marks. -/
theorem run_failing_file (hstyle : style.Wraps)
    (hrequest : readArguments arguments = .ok { file := some path, withPrelude })
    (hpath : path ≠ Session.interactivePath) (hnull : '\x00' ∉ path.toList)
    (hread : read path = some text) (hstart : KeywordTable.initial withPrelude = .ok start)
    (hfails : start.Fails (Statement.ofLines (Text.fileLines text))) :
    (∃ statement stop,
      start.FirstFailure (Statement.ofLines (Text.fileLines text)) statement stop)
    ∧ ∀ statement stop,
      start.FirstFailure (Statement.ofLines (Text.fileLines text)) statement stop →
      (run style read typed arguments).1 = .error (.exit (some Reporter.failureStatus))
      ∧ (∃ reason, stop.notice? = some reason
        ∧ (run style read typed arguments).2.printed
          = Reporter.redefinitions path style
              (start.redefinitions (Statement.ofLines (Text.fileLines text)))
            ++ Reporter.complaint path style statement.line reason
        ∧ ∃ before behind, (∀ text, style .bold none text = before ++ text ++ behind)
          ∧ Reporter.complaint path style statement.line reason
            = before ++ s!"{path}:{statement.line}: " ++ behind ++ Reporter.blame style reason
              ++ reason.message ++ "\n")
      ∧ ∃ runs, Statement.Runs (Text.fileLines text) runs
        ∧ ∃ run ∈ Statement.numberedFrom 0 runs, Statement.Gives run statement := by
  refine ⟨hfails.exists_firstFailure, fun statement stop hfirst => ?_⟩
  obtain ⟨reason, hreason⟩ := hfirst.exists_notice (.initial hstart)
  obtain ⟨session, hended, hreporter⟩ :=
    Session.run_runFile_of_firstFailure path true style "" start hpath hnull hread hfirst
  have hfatal : session.reporter.fatal = true := by
    rw [hreporter]
    rfl
  have hrun : run style read typed arguments = (.error (.exit (some Reporter.failureStatus)),
      session.reporter.adding (session.reporter.faultText reason ++ "\n")) := by
    rw [run_of_file hrequest hstart, hended]
    exact Reporter.absorb_of_notice hfatal hreason
  have hne := Statement.text_ne_empty_of_mem hfirst.mem
  rw [hrun]
  obtain ⟨before, behind, hmarks⟩ := hstyle .bold none
  refine ⟨rfl, ⟨reason, hreason, ?_, before, behind, hmarks, ?_⟩,
    Statement.exists_gives hfirst.mem⟩
  · rw [hreporter, Statement.place, Reporter.faultText_on path true style _ hne]
    exact congrArg (· ++ _) String.empty_append
  · rw [Reporter.complaint, hmarks]
    rfl

/-- A file with a statement in its second and third lines that has no result, and behind it a
    definition in its last two lines that is refused. -/
theorem run_failing_file_refused :
    Text.Style.Wraps Text.plain
    ∧ (run Text.plain (fun _ => some "k := a\n(k\n  b))\nk := b\nj := (c ;; open\n  k))\n") []
      ["f", "--no-prelude"]).1 = .error (.exit (some Reporter.failureStatus))
    ∧ (∃ reason, (Stop.ofKind .unmatchedParenthesis).notice? = some reason
      ∧ "f:4: warning: keyword 'k' redefined\n"
          ++ "f:6: syntax error: closing parenthesis without matching open parenthesis\n"
        = Reporter.redefinitions "f" Text.plain [(4, "k")]
          ++ Reporter.complaint "f" Text.plain 6 reason
      ∧ ∃ before behind, (∀ text, Text.plain .bold none text = before ++ text ++ behind)
        ∧ Reporter.complaint "f" Text.plain 6 reason
          = before ++ "f:6: " ++ behind ++ Reporter.blame Text.plain reason
            ++ reason.message ++ "\n")
    ∧ ∃ runs,
      Statement.Runs ["k := a", "(k", "  b))", "k := b", "j := (c ;; open", "  k))"] runs
      ∧ ∃ run ∈ Statement.numberedFrom 0 runs, Statement.Gives run ⟨"j := (c   k))", 6⟩ := by
  have hlines : Text.fileLines "k := a\n(k\n  b))\nk := b\nj := (c ;; open\n  k))\n"
      = ["k := a", "(k", "  b))", "k := b", "j := (c ;; open", "  k))"] := by decide +kernel
  have hstatements : Statement.ofLines
      ["k := a", "(k", "  b))", "k := b", "j := (c ;; open", "  k))"]
      = [⟨"k := a", 1⟩, ⟨"(k   b))", 3⟩, ⟨"k := b", 4⟩, ⟨"j := (c   k))", 6⟩] := by decide +kernel
  have hbetween : KeywordTable.enterAll {} [⟨"k := a", 1⟩, ⟨"(k   b))", 3⟩, ⟨"k := b", 4⟩]
      = .ok ⟨⟨[("k", [.opening, .var "$k$b", .closing])]⟩, ⟨[("k", "b")]⟩⟩ := by decide +kernel
  have hrefused : KeywordTable.enter
      ⟨⟨[("k", [.opening, .var "$k$b", .closing])]⟩, ⟨[("k", "b")]⟩⟩ ⟨"j := (c   k))", 6⟩
      = .error (.ofKind .unmatchedParenthesis) := by decide +kernel
  have hprinted : (run Text.plain
      (fun _ => some "k := a\n(k\n  b))\nk := b\nj := (c ;; open\n  k))\n") []
      ["f", "--no-prelude"]).2.printed = "f:4: warning: keyword 'k' redefined\n"
        ++ "f:6: syntax error: closing parenthesis without matching open parenthesis\n" := by
    decide +kernel
  have hagain : KeywordTable.redefinitions {}
      [⟨"k := a", 1⟩, ⟨"(k   b))", 3⟩, ⟨"k := b", 4⟩, ⟨"j := (c   k))", 6⟩] = [(4, "k")] := by
    decide +kernel
  have hfirst : KeywordTable.FirstFailure {} (Statement.ofLines (Text.fileLines
      "k := a\n(k\n  b))\nk := b\nj := (c ;; open\n  k))\n")) ⟨"j := (c   k))", 6⟩
      (.ofKind .unmatchedParenthesis) := by
    rw [hlines, hstatements]
    exact .definition rfl hbetween hrefused
  have hfails : KeywordTable.Fails {} (Statement.ofLines (Text.fileLines
      "k := a\n(k\n  b))\nk := b\nj := (c ;; open\n  k))\n")) := by
    rw [hlines, hstatements]
    exact .inl ⟨_, Outcome.foldlM_eq_error.mpr ⟨_, _, [], _, rfl, hbetween, hrefused⟩⟩
  have hreported := (@run_failing_file Text.plain false
    (fun _ => some "k := a\n(k\n  b))\nk := b\nj := (c ;; open\n  k))\n") []
    ["f", "--no-prelude"] "f" _ {} Text.wraps_plain (by decide +kernel) (by decide) (by decide) rfl
    rfl hfails).2 _ _ hfirst
  rw [hlines, hstatements, hagain, hprinted] at hreported
  exact ⟨Text.wraps_plain, hreported⟩

end CommandLine

end LambdaCalc
