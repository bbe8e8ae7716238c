import LambdaCalc.Proofs.Shell
import LambdaCalc.Proofs.Statement.Lines
import LambdaCalc.Proofs.Statement.Sessions

set_option autoImplicit false

/-! # Typing lines

A line that begins with no command is a statement or a part of one (`Shell.BeginsCommand`). While
such lines are typed, the shell performs the statements that they complete one after the other, and
prints in each turn its prompt and what the statement answers (`Turn`). If the statements of a file
succeed one after the other, the shell answers the same to the lines of the file
(`Shell.run_answerAll`). -/

namespace LambdaCalc

open Text (isBlank trimList)

/-- What the shell prints with the answer to a statement. -/
def Reply.shown (style : Text.Style) (line : Nat) : Reply → String
  | .result answer => Shell.resultLine { style } answer ++ "\n"
  | .redefined keyword =>
      Reply.notice Session.interactivePath style line (.redefined keyword)
  | .silent => ""

/-- What is typed and answered in one line. -/
structure Turn where
  /-- Whether the line goes on with a statement that is held back. -/
  goesOn : Bool
  /-- The number of the line among those that are not blank. -/
  line : Nat
  /-- What is answered to the statement that the line completes. -/
  reply : Option Reply
deriving DecidableEq, Repr

/-- The prompt of a shell, which depends on whether it holds the beginning of a statement. -/
def Turn.prompt (goesOn : Bool) : String := if goesOn then ". " else "λ> "

/-- What the shell prints in a turn. -/
def Turn.shown (style : Text.Style) (turn : Turn) : String :=
  prompt turn.goesOn ++ (turn.reply.map (·.shown style turn.line)).getD ""

namespace Shell

/-! ## Lines that are no commands -/

/-- A line begins, behind its blanks, with a question mark or with the word of a command. -/
def BeginsCommand (line : String) : Prop :=
  (trimList line.toList).head? = some '?'
    ∨ String.ofList ((trimList line.toList).takeWhile Word.isWordChar)
      ∈ ["keywords", "remove", "help", "EOF", "exit"]

instance : DecidablePred BeginsCommand := fun _ => inferInstanceAs (Decidable (_ ∨ _))

theorem ofName?_eq_none {word : String}
    (h : word ∉ ["keywords", "remove", "help", "EOF", "exit"]) : Command.ofName? word = none := by
  simp only [List.mem_cons, List.not_mem_nil, or_false, not_or] at h
  obtain ⟨hkeywords, hremove, hhelp, heof, hexit⟩ := h
  unfold Command.ofName?
  split <;> first | contradiction | rfl

theorem command?_eq_none {line : String} (h : ¬ BeginsCommand line) :
    command? (trimList line.toList) = none := by
  obtain ⟨hmark, hword⟩ := not_or.mp h
  generalize trimList line.toList = cs at hmark hword
  unfold command?
  split
  · exact absurd rfl hmark
  · simp only [ofName?_eq_none hword, Option.map_none]

/-! ## One statement -/

section

variable (style : Text.Style) (printed : String) (table : KeywordTable)

/-- A shell that is not in the middle of a statement, though it may hold the beginning of one. -/
def idle (held : String) (lines : Nat) : Shell where
  session := ⟨.on Session.interactivePath none false style printed, Session.interactivePath,
    table, {}, []⟩
  held
  prompt := promptFor held
  lines

variable {table} {left : KeywordTable} {text line : String} {reply : Reply}

/-- A statement that succeeds has its answer printed. -/
theorem run_runStatement (hperform : table.perform text = .ok (reply, left)) (hne : text ≠ "")
    (number : Nat) (held : String) (lines : Nat) :
    (runStatement text number).run (idle style printed table held lines).session
      = (.ok (),
          (idle style (printed ++ reply.shown style number) left held lines).session) := by
  unfold runStatement idle
  cases hdefinition : Statement.definition? text with
  | some sides =>
    rw [KeywordTable.perform_of_definition hdefinition] at hperform
    obtain ⟨defined, hdefine, heq⟩ := Outcome.bind_eq_ok.mp hperform
    obtain ⟨rfl, rfl⟩ := Prod.mk.inj (Except.ok.inj heq)
    have htake := Session.run_take_definition Session.interactivePath false style printed table
      {} [] (number : Int) hdefinition hne
    have hshown : (table.replyTo (Text.trim sides.1)).notice Session.interactivePath style number
        = (table.replyTo (Text.trim sides.1)).shown style number := by
      unfold KeywordTable.replyTo
      split_ifs <;> rfl
    rw [hdefine, hshown] at htake
    rw [run_bind_of_ok htake]
    rfl
  | none =>
    rw [KeywordTable.perform_of_none hdefinition] at hperform
    obtain ⟨result, hresult, heq⟩ := Outcome.bind_eq_ok.mp hperform
    obtain ⟨rfl, rfl⟩ := Prod.mk.inj (Except.ok.inj heq)
    -- Nothing else is pending, so that its result is the only one.
    have hput : ({} : OrderedTable Int String).put (number : Int) text
        = { entries := [((number : Int), text)] } := rfl
    have hrun := Session.run_runPending_on Session.interactivePath false style printed table
      { entries := [((number : Int), text)] } [] number text
    have herase : ({ entries := [((number : Int), text)] } : OrderedTable Int String).erase number
        = {} := by
      simp [OrderedTable.erase]
    rw [hresult, herase] at hrun
    have hran : Session.run.run ⟨.on Session.interactivePath none false style printed,
          Session.interactivePath, table, { entries := [((number : Int), text)] }, []⟩
        = (.ok (), ⟨.on Session.interactivePath none false style printed,
            Session.interactivePath, table, {}, [result]⟩) :=
      (Session.run_run _).trans (run_bind_of_ok hrun)
    have hprint : (Reporter.on Session.interactivePath none false style printed).print
          (resultLine { style } result)
        = .on Session.interactivePath none false style
            (printed ++ (Reply.result result).shown style number) := by
      rw [Reporter.print_on, String.append_assoc]
      rfl
    rw [run_bind_of_ok (Session.run_take_expression _ _ _ _ _ _ _ (number : Int) hdefinition), hput,
      run_bind_of_ok hran, run_bind_of_ok (Session.run_takeResults _), ← hprint]
    rfl

/-! ## One line -/

variable {style printed}

variable {held : String}

/-- A line that completes no statement prints nothing. -/
theorem run_takeLine_of_none (h : (Statement.advance held line).2 = none) (lines : Nat) :
    (takeLine line).run (idle style printed table held lines)
      = (.ok (), idle style printed table
          (Statement.advance held line).1 (lines + 1)) := by
  rw [run_takeLine]
  simp only [idle]
  generalize Statement.advance held line = advanced at h
  obtain ⟨begun, _ | text⟩ := advanced
  · rfl
  · cases h

/-- A line that completes a statement prints what it answers. -/
theorem run_takeLine_of_some (h : (Statement.advance held line).2 = some text)
    (hperform : table.perform text = .ok (reply, left)) (lines : Nat) :
    (takeLine line).run (idle style printed table held lines)
      = (.ok (), idle style (printed ++ reply.shown style (lines + 1)) left
          (Statement.advance held line).1 (lines + 1)) := by
  have hguarded := Session.run_guarded_of_ok (run_runStatement style printed hperform
    (Statement.ne_empty_of_advance h) (lines + 1) held lines)
  rw [run_takeLine]
  simp only [idle] at hguarded ⊢
  generalize Statement.advance held line = advanced at h
  obtain ⟨begun, _ | text⟩ := advanced
  · cases h
  · obtain rfl := Option.some.inj h
    simp only [run_bind_pure, run_inSession, hguarded]
    rfl

theorem run_answer_of_blank (h : trimList line.toList = []) (shell : Shell) :
    (answer line).run shell = (.ok .blank, shell) := by
  unfold answer
  simp only [h]
  rfl

theorem answer_of_not_command (hne : trimList line.toList ≠ []) (h : ¬ BeginsCommand line) :
    answer line = takeLine (Text.trim line) >>= fun _ => pure .continued := by
  have hempty : (trimList line.toList).isEmpty = false := by
    rw [Bool.eq_false_iff, ne_eq, List.isEmpty_iff]
    exact hne
  unfold answer
  simp only [hempty, command?_eq_none h, Bool.false_eq_true, if_false]
  rfl

/-! ## One turn -/

theorem prompt_eq (held : String) : Turn.prompt (!held.isEmpty) = promptFor held := by
  unfold Turn.prompt promptFor
  cases held.isEmpty <;> rfl

theorem run_showPrompt (held : String) (lines : Nat) :
    showPrompt.run (idle style printed table held lines)
      = (.ok (), idle style (printed ++ promptFor held) table held lines) := rfl

/-- In a turn the shell follows a file whose next line is typed: the line completes the same
    statement, but for its blanks, and is answered alike. -/
theorem exists_turn {begun : String} {table' : KeywordTable} {replies : List Reply}
    (hcommand : ¬ BeginsCommand line) (hfollows : Statement.Follows begun held)
    (hsame : table.SameTokens table') (htable : table.Reachable)
    (hperform : table.performAll (Statement.advance begun line).2.toList = .ok (replies, left))
    (style : Text.Style) (printed : String) (lines : Nat) :
    ∃ (turn : Turn) (left' : KeywordTable) (held' : String) (lines' : Nat)
      (answered : Answer), answered ≠ .finished
      ∧ (answer line).run
          (idle style (printed ++ promptFor held) table' held lines)
        = (.ok answered, idle style (printed ++ turn.shown style) left' held' lines')
      ∧ Statement.Follows (Statement.advance begun line).1 held' ∧ left.SameTokens left'
      ∧ left.Reachable ∧ turn.reply.toList = replies := by
  by_cases hblank : trimList line.toList = []
  · rw [hfollows.advance_blank hblank] at hperform ⊢
    obtain ⟨rfl, rfl⟩ := Prod.mk.inj (Except.ok.inj hperform)
    refine ⟨⟨!held.isEmpty, lines, none⟩, table', held, lines, .blank, nofun, ?_, hfollows, hsame,
      htable, rfl⟩
    rw [run_answer_of_blank hblank, Turn.shown, prompt_eq, Option.map_none, Option.getD_none,
      String.append_empty]
  · rw [answer_of_not_command hblank hcommand]
    -- The shell trims the line and a file does not, so that blanks differ and nothing else.
    obtain ⟨hfollows', hspaced⟩ := hfollows.advance line
    generalize hstatement : (Statement.advance begun line).2 = statement at hperform hspaced
    generalize hstatement' : (Statement.advance held (Text.trim line)).2 = statement'
      at hspaced
    cases hspaced with
    | none =>
      obtain ⟨rfl, rfl⟩ := Prod.mk.inj (Except.ok.inj hperform)
      refine ⟨⟨!held.isEmpty, lines + 1, none⟩, table', _, lines + 1, .continued, nofun, ?_,
        hfollows', hsame, htable, rfl⟩
      rw [run_bind_of_ok (run_takeLine_of_none hstatement' lines), Turn.shown, prompt_eq,
        Option.map_none, Option.getD_none, String.append_empty]
      rfl
    | some htext =>
      obtain ⟨reply, between, _, hreply, hnone, rfl⟩ :=
        KeywordTable.performAll_cons_eq_ok.mp hperform
      obtain ⟨rfl, rfl⟩ := Prod.mk.inj (Except.ok.inj hnone)
      obtain ⟨left', hreply', hsame'⟩ := hsame.perform_respaced htable htext hreply
      refine ⟨⟨!held.isEmpty, lines + 1, some reply⟩, left', _, lines + 1, .continued, nofun, ?_,
        hfollows', hsame', htable.perform hreply, rfl⟩
      rw [run_bind_of_ok (run_takeLine_of_some hstatement' hreply' lines), Turn.shown, prompt_eq,
        String.append_assoc]
      rfl

/-! ## All turns -/

/-- A line that is answered leaves the other lines to be answered. -/
theorem run_answerAll_cons {table' : KeywordTable} {printed' : String} {held' : String}
    {lines lines' : Nat} {answered : Answer} (hne : answered ≠ .finished)
    (hanswer : (answer line).run
        (idle style (printed ++ promptFor held) table held lines)
      = (.ok answered, idle style printed' table' held' lines')) (others : List String) :
    (answerAll (line :: others)).run (idle style printed table held lines)
      = (answerAll others).run (idle style printed' table' held' lines') := by
  rw [answerAll, run_bind_of_ok (run_showPrompt held lines), run_bind_of_ok hanswer]
  cases answered with
  | continued | blank => rfl
  | finished => exact absurd rfl hne

theorem run_answerAll_nil (style : Text.Style) (printed : String) (table : KeywordTable)
    (held : String) (lines : Nat) :
    (answerAll []).run (idle style printed table held lines)
      = (.ok (), idle style (printed ++ promptFor held ++ "\n") table held lines) := by
  rw [answerAll, run_bind_of_ok (run_showPrompt held lines)]
  show (Except.ok (), idle style (printed ++ promptFor held ++ "" ++ "\n") table held
    lines) = _
  rw [String.append_empty]

/-- The lines of a file are typed. If its statements succeed one after the other and the last line
    completes what has been begun, there is a turn for each line, and the same is answered: by
    induction on the lines, while the shell follows the file. -/
theorem run_answerAll {typed : List String} (hcommands : ∀ line ∈ typed, ¬ BeginsCommand line)
    {number : Nat} {begun : String} (hbegun : Statement.begunAfter begun typed = "")
    {replies : List Reply} (hperform : table.performAll
      ((Statement.ofLinesFrom number begun typed).map (·.text)) = .ok (replies, left))
    (hfollows : Statement.Follows begun held) {table' : KeywordTable}
    (hsame : table.SameTokens table') (htable : table.Reachable)
    (style : Text.Style) (printed : String) (lines : Nat) :
    ∃ (turns : List Turn) (shell : Shell),
      turns.length = typed.length ∧ turns.filterMap (·.reply) = replies
      ∧ (answerAll typed).run (idle style printed table' held lines) = (.ok (), shell)
      ∧ shell.session.reporter.printed
        = printed ++ String.join (turns.map (·.shown style)) ++ "λ> \n" := by
  induction typed generalizing table number begun replies held table' printed lines with
  | nil =>
    obtain rfl : begun = "" := hbegun
    obtain ⟨rfl, rfl⟩ := Prod.mk.inj (Except.ok.inj hperform)
    have hheld : held = "" := by
      cases hfollows with
      | nothing => rfl
      | begun _ hopen => exact absurd rfl (Statement.ne_empty_of_isOpen hopen)
    subst hheld
    refine ⟨[], _, rfl, rfl, run_answerAll_nil style printed table' "" lines, ?_⟩
    rw [List.map_nil, String.join_nil, String.append_empty]
    exact String.append_assoc
  | cons line others ih =>
    obtain ⟨hcommand, hcommands⟩ := List.forall_mem_cons.mp hcommands
    rw [Statement.begunAfter_cons] at hbegun
    rw [Statement.ofLinesFrom_cons, List.map_append] at hperform
    obtain ⟨between, first, rest, hfirst, hrest, rfl⟩ :=
      KeywordTable.performAll_append_eq_ok.mp hperform
    -- The line completes a statement or none, and the other lines complete the rest.
    have hfirst' : table.performAll (Statement.advance begun line).2.toList
        = .ok (first, between) := by
      rw [← hfirst]
      cases (Statement.advance begun line).2 <;> rfl
    obtain ⟨turn, between', held', lines', answered, hne, hanswer, hfollows', hsame', hbetween,
      rfl⟩ := exists_turn hcommand hfollows hsame htable hfirst' style printed lines
    obtain ⟨turns, shell, hlength, hreplies, hrun, hprinted⟩ := ih hcommands hbegun hrest hfollows'
      hsame' hbetween (printed ++ turn.shown style) lines'
    refine ⟨turn :: turns, shell, ?_, ?_, (run_answerAll_cons hne hanswer others).trans hrun, ?_⟩
    · rw [List.length_cons, List.length_cons, hlength]
    · rw [List.filterMap_cons, hreplies]
      cases turn.reply <;> rfl
    · rw [hprinted, List.map_cons, String.join_cons, String.append_assoc, String.append_assoc,
        String.append_assoc, String.append_assoc]

end

end Shell

end LambdaCalc
