import LambdaCalc.Proofs.Session

set_option autoImplicit false

/-! # What sessions print

Between two statements the reporter of a session knows its path and nothing else (`Reporter.on`).
Then taking a definition prints a warning if the keyword is defined already, and nothing otherwise
(`Session.run_take_definition`), and running a pending statement appends its result
(`Session.run_runPending_on`). -/

namespace LambdaCalc

/-! ## The reporter -/

namespace Reporter

/-- The reporter of a session that works on a path. -/
def on (path : String) (place : Option Place) (fatal : Bool) (style : Text.Style)
    (printed : String) : Reporter :=
  { fatal, style, places := { entries := [(path, place)] }, printed }

variable (path : String) (place : Option Place) (fatal : Bool) (style : Text.Style)
  (printed : String)

@[simp]
theorem enter_on (place' : Place) :
    (on path place fatal style printed).enter path place'
      = on path (some place') fatal style printed := by
  simp [enter, on, OrderedTable.put, OrderedTable.contains, OrderedTable.find?]

@[simp]
theorem clear_on :
    (on path place fatal style printed).clear path = on path none fatal style printed := by
  simp [clear, on, OrderedTable.put, OrderedTable.contains, OrderedTable.find?]

@[simp]
theorem print_on (line : String) :
    (on path place fatal style printed).print line
      = on path place fatal style (printed ++ line ++ "\n") :=
  rfl

/-- The only statement at hand is the one that the reporter knows. -/
theorem active_on {text : String} (hne : text ≠ "") (line : Int) :
    (on path (some { text, number := some line }) fatal style printed).active
      = [(path, { text, number := some line })] := by
  simp [active, on, hne]

theorem boldLocation_on {text : String} (hne : text ≠ "") (line : Int) :
    (on path (some { text, number := some line }) fatal style printed).boldLocation
      = style .bold none s!"{path}:{line}: " := by
  rw [boldLocation, location, active_on path fatal style printed hne]
  rfl

/-- The warning that a keyword is redefined in a line. -/
def redefinition (path : String) (style : Text.Style) (line : Int) (keyword : String) : String :=
  style .bold none s!"{path}:{line}: "
    ++ style .bold (some .magenta) "warning: " ++ s!"keyword '{keyword}' redefined"
    ++ "\n"

theorem warn_on {text : String} (hne : text ≠ "") (line : Int) (keyword : String) :
    (on path (some { text, number := some line }) fatal style printed).warn
        s!"keyword '{keyword}' redefined"
      = on path (some { text, number := some line }) fatal style
          (printed ++ redefinition path style line keyword) := by
  rw [warn, boldLocation_on path fatal style printed hne, print_on]
  simp only [redefinition, on, String.append_assoc]

/-- The words in front of the message of a fault. -/
def blame (style : Text.Style) (reason : Fault) : String :=
  (if reason.kind.isInternal then style .bold (some .red) "[internal] " else "")
    ++ style .bold (some .red) s!"{reason.kind.category.word} error: "

/-- The message of a fault in a line. -/
def complaint (path : String) (style : Text.Style) (line : Int) (reason : Fault) : String :=
  style .bold none s!"{path}:{line}: " ++ blame style reason ++ reason.message ++ "\n"

theorem faultText_on {text : String} (hne : text ≠ "") (line : Int) (reason : Fault) :
    (on path (some { text, number := some line }) fatal style printed).faultText reason ++ "\n"
      = complaint path style line reason := by
  have hone : ¬ 1 < (on path (some { text, number := some line }) fatal style
      printed).active.length := by
    rw [active_on path fatal style printed hne]
    exact Nat.lt_irrefl 1
  rw [faultText, origin, if_neg hone, boldLocation_on path fatal style printed hne]
  simp only [complaint, blame, on, String.append_assoc]

end Reporter

/-- What is printed with a statement that is taken. -/
def Reply.notice (path : String) (style : Text.Style) (line : Int) : Reply → String
  | .redefined keyword => Reporter.redefinition path style line keyword
  | .silent | .result _ => ""

/-! ## Sessions -/

namespace Session

section

variable (path : String) (fatal : Bool) (style : Text.Style) (printed : String)
  (table : KeywordTable) (pending : OrderedTable Int String) (results : List Result) {text : String}

/-! ## Taking -/

/-- A definition is taken and has its warning printed. If it fails, its place is still known. -/
theorem run_take_definition {name source : String} (line : Int)
    (h : Statement.definition? text = some (name, source)) (hne : text ≠ "") :
    (take text (some line)).run
        ⟨.on path none fatal style printed, path, table, pending, results⟩
      = match table.define (Text.trim name) source with
        | .ok defined =>
          (.ok (), ⟨.on path none fatal style
              (printed ++ (table.replyTo (Text.trim name)).notice path style line),
            path, defined, pending, results⟩)
        | .error stop =>
          (.error stop, ⟨.on path (some { text, number := some line }) fatal style
              (printed ++ (table.replyTo (Text.trim name)).notice path style line),
            path, table, pending, results⟩) := by
  have hwarned : warned table (Text.trim name)
        (.on path (some { text, number := some line }) fatal style printed)
      = .on path (some { text, number := some line }) fatal style
          (printed ++ (table.replyTo (Text.trim name)).notice path style line) := by
    unfold warned KeywordTable.replyTo
    split_ifs
    · exact Reporter.warn_on path fatal style printed hne line (Text.trim name)
    · rw [Reply.notice, String.append_empty]
  have hrun := run_take_of_definition line h
    ⟨.on path none fatal style printed, path, table, pending, results⟩
  simp only [entered, Reporter.enter_on, hwarned, Reporter.clear_on] at hrun
  refine hrun.trans ?_
  cases table.define (Text.trim name) source with
  | ok defined | error stop => rfl

/-- A statement that is no definition is kept under its line. -/
theorem run_take_expression (line : Int) (h : Statement.definition? text = none) :
    (take text (some line)).run
        ⟨.on path none fatal style printed, path, table, pending, results⟩
      = (.ok (), ⟨.on path none fatal style printed, path, table, pending.put line text,
          results⟩) := by
  rw [run_take_of_none line h]
  simp only [entered, Reporter.enter_on, Reporter.clear_on]

/-! ## Running -/

/-- A pending statement is run. If it fails, its place is still known. -/
theorem run_runPending_on (line : Int) (text : String) :
    (runPending path line text).run
        ⟨.on path none fatal style printed, path, table, pending, results⟩
      = match table.resultOf text with
        | .ok result =>
          (.ok (), ⟨.on path none fatal style printed, path, table, pending.erase line,
            results ++ [result]⟩)
        | .error stop =>
          (.error stop, ⟨.on path (some { text, number := some line }) fatal style printed, path,
            table, pending.erase line, results⟩) := by
  have hrun := run_runPending line text
    ⟨.on path none fatal style printed, path, table, pending, results⟩
  simp only [entered, Reporter.enter_on, Reporter.clear_on] at hrun
  refine hrun.trans ?_
  cases table.resultOf text with
  | ok result | error stop => rfl

end

end Session

end LambdaCalc
