import LambdaCalc.CommandLine
import LambdaCalc.Proofs.Session
import LambdaCalc.Proofs.Statement.Lines
import LambdaCalc.Text.Terminal

set_option autoImplicit false

/-! # The shell goes on

A line has the session try something: a statement that the line completes, the removal of a keyword,
or nothing (`Shell.work`). Whatever lines a shell has answered before, it reports what is wrong with
the next one and goes on, unless a statement reaches a number of more digits than can be read
(`Shell.Running.exists_answer_iff`). -/

namespace LambdaCalc

/-! ## Reporting -/

namespace Reporter

variable {reporter : Reporter} {stop : Stop} {reason : Fault}

theorem faultText_adding (said : String) (reason : Fault) :
    (reporter.adding said).faultText reason = reporter.faultText reason :=
  rfl

theorem report_of_not_fatal (h : reporter.fatal = false) (reason : Fault) :
    reporter.report reason
      = (.ok (), (reporter.adding (reporter.faultText reason ++ "\n")).clearAll) := by
  rw [report, print_eq_adding]
  exact if_neg (by rw [adding, h]; exact Bool.false_ne_true)

/-- What is explained is reported, and work goes on. -/
theorem absorb_of_explanation (h : stop.explanation? = some reason)
    (hfatal : reporter.fatal = false) :
    reporter.absorb stop
      = (.ok (), (reporter.adding (reporter.faultText reason ++ "\n")).clearAll) := by
  cases stop with
  | fault | nestedTooDeeply =>
    obtain rfl := Option.some.inj h
    exact report_of_not_fatal hfatal _
  | mishap | interrupted | exit => cases h

/-- A mishap is reported, and passes through. -/
theorem exists_absorb_mishap (mishap : Mishap) (hfatal : reporter.fatal = false) :
    ∃ said, reporter.absorb (.mishap mishap)
      = (.error (.mishap mishap), (reporter.adding said).clearAll) := by
  rw [absorb, report_of_not_fatal hfatal]
  exact ⟨_, rfl⟩

end Reporter

/-! ## Sessions -/

namespace Session

/-- A session between two lines. -/
structure Ready (session : Session) : Prop where
  eq_interactive : session = interactive session.reporter session.table
  fatal_eq : session.reporter.fatal = false
  reachable : session.table.Reachable

/-- A session gets over an attempt: it is ready again, and what stops the attempt is reported, but a
    mishap passes through. -/
structure Survives {α : Type} (session : Session) (origin : Reporter) (attempt : Outcome Unit)
    (failed : α) (outcome : Outcome α) (session' : Session) : Prop where
  ready : session'.Ready
  of_ok : attempt = .ok () → ∃ value, outcome = .ok value
  of_explanation : ∀ {stop reason}, attempt = .error stop → stop.explanation? = some reason →
    outcome = .ok failed ∧ session'.table = session.table
      ∧ ∃ said, session'.reporter.printed
          = session.reporter.printed ++ said ++ origin.faultText reason ++ "\n"
  of_mishap : ∀ {mishap}, attempt = .error (.mishap mishap) → outcome = .error (.mishap mishap)

variable {α β : Type} {session session' : Session} {origin : Reporter} {attempt : Outcome Unit}

theorem Survives.map {failed : α} {outcome : Outcome α}
    (h : Survives session origin attempt failed outcome session') (f : α → β) :
    Survives session origin attempt (f failed) (outcome.map f) session' where
  ready := h.ready
  of_ok := by
    intro hattempt
    obtain ⟨value, rfl⟩ := h.of_ok hattempt
    exact ⟨f value, rfl⟩
  of_explanation := by
    intro stop reason hattempt hreason
    obtain ⟨rfl, hreported⟩ := h.of_explanation hattempt hreason
    exact ⟨rfl, hreported⟩
  of_mishap := by
    intro mishap hattempt
    rw [h.of_mishap hattempt]
    rfl

/-- Where nothing is tried, there is nothing to get over. -/
theorem Survives.nothing {failed value : α} (h : session'.Ready) :
    Survives session origin (.ok ()) failed (.ok value) session' :=
  ⟨h, fun _ => ⟨value, rfl⟩, nofun, nofun⟩

theorem Survives.explained {failed : α} {stop : Stop} {reason : Fault} (h : session'.Ready)
    (hreason : stop.explanation? = some reason) (htable : session'.table = session.table)
    (said : String) (hprinted : session'.reporter.printed
      = session.reporter.printed ++ said ++ origin.faultText reason ++ "\n") :
    Survives session origin (.error stop) failed (.ok failed) session' where
  ready := h
  of_ok := nofun
  of_explanation := by
    rintro _ reason' ⟨⟩ hreason'
    obtain rfl := Option.some.inj (hreason.symm.trans hreason')
    exact ⟨rfl, htable, said, hprinted⟩
  of_mishap := by
    rintro mishap ⟨⟩
    cases hreason

theorem Survives.mishap {failed : α} {mishap : Mishap} (h : session'.Ready) :
    Survives session origin (.error (.mishap mishap)) failed (.error (.mishap mishap))
      session' where
  ready := h
  of_ok := nofun
  of_explanation := by
    rintro _ reason ⟨⟩ hreason
    cases hreason
  of_mishap := by
    rintro _ ⟨⟩
    rfl

/-- An attempt that is guarded is survived. -/
theorem Ready.survives (h : session.Ready) (hprinted : origin.printed = session.reporter.printed)
    (hstops : Outcome.StopsOnly
      (fun stop => (∃ reason, stop.explanation? = some reason) ∨ ∃ mishap, stop = .mishap mishap)
      attempt)
    {calculation : SessionM Unit}
    (htries : Tries calculation session.reporter session.table origin attempt) :
    Survives session origin attempt none ((guarded calculation).run session).1
      ((guarded calculation).run session).2 := by
  obtain ⟨reporter', table', hrun, hleaves⟩ := htries
  rw [← h.eq_interactive] at hrun
  have hfatal := hleaves.fatal_eq.trans h.fatal_eq
  have htable := hleaves.reachable h.reachable
  cases attempt with
  | ok value =>
    rw [run_guarded_of_ok hrun]
    exact .nothing ⟨rfl, hfatal, htable⟩
  | error stop =>
    obtain ⟨rfl, said, rfl⟩ := hleaves.of_error rfl
    have hreporter : (interactive (origin.adding said) session.table).reporter
        = origin.adding said := rfl
    rw [run_guarded_of_error hrun, hreporter]
    rcases hstops rfl with ⟨reason, hreason⟩ | ⟨mishap, rfl⟩
    · rw [Reporter.absorb_of_explanation hreason hfatal]
      refine .explained ⟨rfl, hfatal, htable⟩ hreason rfl said ?_
      rw [← hprinted, Reporter.faultText_adding, String.append_assoc]
      rfl
    · obtain ⟨said', habsorb⟩ := Reporter.exists_absorb_mishap mishap hfatal
      rw [habsorb]
      exact .mishap ⟨rfl, hfatal, htable⟩

/-- Printing leaves a session ready. -/
theorem Ready.adding (h : session.Ready) (said : String) :
    Ready { session with reporter := session.reporter.adding said } where
  eq_interactive := by
    conv_lhs => rw [h.eq_interactive]
    rfl
  fatal_eq := h.fatal_eq
  reachable := h.reachable

end Session

/-! ## Lines -/

namespace Shell

/-- What a line has the session try. -/
inductive Work where
  | nothing
  | statement (text : String)
  | removal (name : String)
deriving DecidableEq, Repr

/-- The work of a command: `remove` has a keyword removed. -/
def commandWork (argument : String) : Command → Work
  | .remove => .removal (Text.trim argument)
  | .keywords | .help | .endOfInput | .exit => .nothing

/-- The work of a line that is no command: the statement that it completes behind what is held. -/
def statementWork (shell : Shell) (line : String) : Work :=
  let (text, goesOn) := Statement.prepare s!"{shell.held} {line}"
  if goesOn || text.isEmpty then .nothing else .statement text

/-- The work of a line. -/
def work (shell : Shell) (line : String) : Work :=
  let line := Text.trimList line.toList
  if line.isEmpty then .nothing
  else
    match command? line with
    | some (command, argument) => commandWork argument command
    | none => shell.statementWork (String.ofList line)

/-- What comes of a piece of work. -/
def Work.attempt (table : KeywordTable) : Work → Outcome Unit
  | .nothing => .ok ()
  | .statement text => table.tryStatement text
  | .removal name =>
      if table.contains name then .ok () else .error (.about .invalidKeyword name)

/-- A piece of work gets as far as a word. -/
def Work.Reaches (table : KeywordTable) (word : String) : Work → Prop
  | .statement text => table.StatementReaches text word
  | .nothing | .removal _ => False

/-- The reporter during a piece of work: it knows the statement, if there is one. -/
def origin (shell : Shell) : Work → Reporter
  | .statement text =>
      shell.session.reporter.enter Session.interactivePath
        { text, number := some ((shell.lines + 1 : Nat) : Int) }
  | .nothing | .removal _ => shell.session.reporter

theorem run_inSession {α : Type} (calculation : SessionM α) (shell : Shell) :
    (inSession calculation).run shell
      = ((calculation.run shell.session).1,
          { shell with session := (calculation.run shell.session).2 }) :=
  rfl

variable {shell : Shell}

theorem tries_removeKeyword (reporter : Reporter) (table : KeywordTable) (name : String) :
    Session.Tries (removeKeyword name) reporter table reporter
      ((Work.removal (Text.trim name)).attempt table) := by
  have htable : (Session.interactive reporter table).table = table := rfl
  have hattempt : (Work.removal (Text.trim name)).attempt table
      = if table.contains (Text.trim name) then .ok ()
        else .error (.about .invalidKeyword (Text.trim name)) := rfl
  unfold Session.Tries removeKeyword
  rw [run_bind_of_ok (run_get _), htable, hattempt]
  split_ifs
  · exact ⟨reporter, table.erase (Text.trim name), rfl, rfl, fun h => h.erase, nofun⟩
  · refine ⟨reporter, table, rfl, rfl, id, ?_⟩
    intro stop _
    exact ⟨rfl, "", reporter.adding_empty.symm⟩

/-- Listing something prints it. -/
theorem run_forM_print {α : Type} (values : List α) (text : Reporter → α → String)
    (session : Session) :
    ∃ said, (values.forM fun value =>
        Session.tell fun reporter => reporter.print (text reporter value)).run session
      = (.ok (), { session with reporter := session.reporter.adding said }) := by
  induction values generalizing session with
  | nil =>
    refine ⟨"", ?_⟩
    rw [Reporter.adding_empty]
    rfl
  | cons value values ih =>
    obtain ⟨said, hrun⟩ := ih
      { session with reporter := session.reporter.print (text session.reporter value) }
    refine ⟨text session.reporter value ++ "\n" ++ said, ?_⟩
    rw [List.forM_eq_forM, List.forM_cons, ← List.forM_eq_forM,
      run_bind_of_ok (Session.run_tell _ _), hrun]
    simp only [Reporter.print, Reporter.adding, String.append_assoc]

theorem run_listKeywords (session : Session) :
    ∃ said, listKeywords.run session
      = (.ok (), { session with reporter := session.reporter.adding said }) := by
  obtain ⟨said, hlist⟩ := run_forM_print session.table.definitions (fun reporter definition =>
    s!"{reporter.style .bold none definition.1} := {definition.2}") session
  refine ⟨said, ?_⟩
  unfold listKeywords
  rw [run_bind_of_ok (run_get _)]
  exact hlist

/-- Work stops for a fault, or at a number of too many digits. -/
theorem Work.attempt_stops {table : KeywordTable} (h : table.Reachable) (work : Work) :
    Outcome.StopsOnly
      (fun stop => (∃ reason, stop.explanation? = some reason)
        ∨ stop.AtOverlong (work.Reaches table))
      (work.attempt table) := by
  cases work with
  | nothing => exact .ok ()
  | statement text => exact h.tryStatement_stops text
  | removal name =>
    simp only [attempt]
    split_ifs
    · exact .ok ()
    · exact .error (Or.inl ⟨_, rfl⟩)

/-- A number that work reaches and that cannot be read is where it stops. -/
theorem Work.attempt_of_reaches {table : KeywordTable} (h : table.Reachable) {work : Work}
    {word : String} {stop : Stop} (hreaches : work.Reaches table word)
    (hnumber : Word.isNumber word = true) (hstop : TextReading.numberTokens word = .error stop) :
    work.attempt table = .error stop := by
  cases work with
  | nothing | removal name => exact hreaches.elim
  | statement text => exact h.tryStatement_of_reaches hreaches hnumber hstop

theorem Work.attempt_stops_mishap {table : KeywordTable} (h : table.Reachable) (work : Work) :
    Outcome.StopsOnly
      (fun stop => (∃ reason, stop.explanation? = some reason) ∨ ∃ mishap, stop = .mishap mishap)
      (work.attempt table) := by
  refine (attempt_stops h work).mono ?_
  rintro stop (hexplained | ⟨_, _⟩)
  · exact Or.inl hexplained
  · exact Or.inr ⟨_, rfl⟩

theorem survives_runStatement (h : shell.session.Ready) (text : String) :
    Session.Survives shell.session (shell.origin (.statement text))
      ((Work.statement text).attempt shell.session.table) none
      ((Session.guarded (runStatement text (shell.lines + 1))).run shell.session).1
      ((Session.guarded (runStatement text (shell.lines + 1))).run shell.session).2 := by
  have htries := Session.tries_statement shell.session.reporter shell.session.table text
    (shell.lines + 1)
  refine h.survives ?_ (Work.attempt_stops_mishap h.reachable (.statement text)) htries
  rfl

theorem survives_removeKeyword (h : shell.session.Ready) (name : String) :
    Session.Survives shell.session (shell.origin (.removal (Text.trim name)))
      ((Work.removal (Text.trim name)).attempt shell.session.table) none
      ((Session.guarded (removeKeyword name)).run shell.session).1
      ((Session.guarded (removeKeyword name)).run shell.session).2 := by
  have htries := tries_removeKeyword shell.session.reporter shell.session.table name
  exact h.survives rfl (Work.attempt_stops_mishap h.reachable (.removal (Text.trim name))) htries

/-- The prompt that goes with what is held back. -/
def promptFor (held : String) : String := if held.isEmpty then primaryPrompt else secondaryPrompt

/-- A line either completes a statement, which is run, or what is begun is held back. -/
theorem run_takeLine (line : String) (shell : Shell) :
    (takeLine line).run shell
      = match Statement.advance shell.held line with
        | (begun, none) =>
          (.ok (),
            { shell with held := begun, prompt := promptFor begun, lines := shell.lines + 1 })
        | (begun, some text) =>
          (inSession (Session.guarded (runStatement text (shell.lines + 1))) >>= fun _ =>
              pure ()).run
            { shell with held := begun, prompt := promptFor begun, lines := shell.lines + 1 } := by
  unfold takeLine
  rw [run_bind_of_ok (run_get _)]
  simp only [Statement.prepare_join]
  unfold Statement.advance
  generalize Statement.joined shell.held line = text
  simp only
  cases hopen : Statement.isOpen text with
  | true =>
    have hempty : text.isEmpty = false := by
      rw [Bool.eq_false_iff, ne_eq, String.isEmpty_iff]
      exact Statement.ne_empty_of_isOpen hopen
    simp only [if_true, promptFor, hempty, Bool.false_eq_true, if_false, run_set]
  | false =>
    simp only [Bool.false_eq_true, if_false]
    cases text.isEmpty with
    | true =>
      simp only [Bool.not_true, Bool.false_eq_true, if_false, if_true]
      rfl
    | false =>
      simp only [Bool.not_false, Bool.false_eq_true, if_false, if_true]
      rfl

theorem statementWork_eq (shell : Shell) (line : String) :
    shell.statementWork line
      = match (Statement.advance shell.held line).2 with
        | some text => .statement text
        | none => .nothing := by
  unfold statementWork Statement.advance
  simp only [Statement.prepare_join]
  generalize Statement.joined shell.held line = text
  cases Statement.isOpen text with
  | true => rfl
  | false => cases text.isEmpty <;> rfl

/-- A line that is no command is survived. -/
theorem survives_takeLine (h : shell.session.Ready) (line : String) :
    Session.Survives shell.session (shell.origin (shell.statementWork line))
      ((shell.statementWork line).attempt shell.session.table) ()
      ((takeLine line).run shell).1 ((takeLine line).run shell).2.session := by
  rw [run_takeLine, statementWork_eq]
  generalize Statement.advance shell.held line = advanced
  obtain ⟨begun, _ | text⟩ := advanced
  · exact .nothing h
  · simp only [run_bind_pure, run_inSession]
    exact (survives_runStatement h text).map fun _ => ()

/-- Printing is survived. -/
theorem survives_print (h : shell.session.Ready) (line : String) {origin : Reporter}
    {failed value : Answer} :
    Session.Survives shell.session origin (.ok ()) failed
      ((inSession (Session.tell (·.print line)) >>= fun _ =>
        pure value : ShellM Answer).run shell).1
      ((inSession (Session.tell (·.print line)) >>= fun _ =>
        pure value : ShellM Answer).run shell).2.session := by
  rw [run_bind_pure, run_inSession, Session.run_tell, Reporter.print_eq_adding]
  exact .nothing (h.adding (line ++ "\n"))

/-- A command is survived. -/
theorem survives_obey (h : shell.session.Ready) (command : Command) (argument : String) :
    Session.Survives shell.session (shell.origin (commandWork argument command))
      ((commandWork argument command).attempt shell.session.table) .continued
      ((obey command argument).run shell).1 ((obey command argument).run shell).2.session := by
  cases command with
  | keywords =>
    obtain ⟨said, hlist⟩ := run_listKeywords shell.session
    unfold obey
    simp only
    rw [run_bind_pure, run_inSession, hlist]
    exact .nothing (h.adding said)
  | remove =>
    unfold obey
    simp only
    rw [run_bind_pure, run_inSession]
    exact (survives_removeKeyword h argument).map fun _ => Answer.continued
  | help => exact survives_print h helpText
  | endOfInput => exact survives_print h ""
  | exit => exact .nothing h

/-- A line is survived. -/
theorem survives_answer (h : shell.session.Ready) (line : String) :
    Session.Survives shell.session (shell.origin (shell.work line))
      ((shell.work line).attempt shell.session.table) .continued
      ((answer line).run shell).1 ((answer line).run shell).2.session := by
  unfold answer work
  simp only
  split_ifs
  · exact .nothing h
  · cases command? (Text.trimList line.toList) with
    | some command =>
      simp only
      exact survives_obey h command.1 command.2
    | none =>
      simp only [run_bind_pure]
      exact (survives_takeLine h _).map fun _ => Answer.continued

/-! ## Shells at work -/

/-- A shell that has been begun, with the prelude or without it, and has answered any lines. -/
inductive Running : Shell → Prop where
  | begun {withPrelude : Bool} {style : Text.Style} {read : String → Option String}
      {shell : Shell} :
      CommandLine.Request.shell { withPrelude } { style } = .ok shell →
      Running ((inSession (Session.begin read)).run shell).2
  | introduced {shell : Shell} : Running shell →
      Running ((inSession (Session.tell (·.print introduction))).run shell).2
  | prompted {shell : Shell} : Running shell → Running (showPrompt.run shell).2
  | answered {shell : Shell} (line : String) : Running shell → Running ((answer line).run shell).2

/-- Between two lines the session is ready: by induction on what the shell has done. -/
theorem Running.ready (h : shell.Running) : shell.session.Ready := by
  induction h with
  | begun hshell =>
    obtain ⟨table, htable, hshell⟩ := Outcome.bind_eq_ok.mp hshell
    obtain rfl := Except.ok.inj hshell
    exact ⟨rfl, rfl, .initial htable⟩
  | introduced _ ih =>
    rw [run_inSession, Session.run_tell, Reporter.print_eq_adding]
    exact ih.adding _
  | prompted _ ih =>
    unfold showPrompt
    rw [run_bind_of_ok (run_get _), run_inSession, Session.run_tell]
    exact ih.adding _
  | answered line _ ih => exact (survives_answer ih line).ready

/-- A line is answered unless a statement reaches a number of more digits than can be read. -/
theorem Running.exists_answer_iff (h : shell.Running) (line : String) :
    (∃ result, ((answer line).run shell).1 = .ok result)
      ↔ ¬ ∃ word, (shell.work line).Reaches shell.session.table word ∧ Word.IsOverlong word := by
  have hsurvives := survives_answer h.ready line
  constructor
  · rintro ⟨result, hresult⟩ ⟨word, hreaches, hlong⟩
    have hattempt := Work.attempt_of_reaches h.ready.reachable hreaches hlong.isNumber
      hlong.numberTokens_eq
    rw [hsurvives.of_mishap hattempt] at hresult
    cases hresult
  · intro hnot
    cases hattempt : (shell.work line).attempt shell.session.table with
    | ok value => exact hsurvives.of_ok hattempt
    | error stop =>
      rcases Work.attempt_stops h.ready.reachable _ hattempt with
        ⟨reason, hreason⟩ | ⟨hreaches, hlong⟩
      · exact ⟨_, (hsurvives.of_explanation hattempt hreason).1⟩
      · exact absurd ⟨_, hreaches, hlong⟩ hnot

end Shell

/-! ## Every text is answered -/

/-- Whatever has been defined and erased, a text is answered, by its result or by a description in
    one line of what is wrong with it, unless it reaches a number of more digits than can be read;
    and any other number beyond the limit is named by the answer. Whatever lines a shell has
    answered, the next one does not stop it unless it completes a statement that reaches such a
    number: what is wrong with it is printed, the keywords stay what they were, and the shell goes
    on. -/
theorem answered_unless_overlong {table : KeywordTable} (htable : table.Reachable) {shell : Shell}
    (hshell : shell.Running) :
    (∀ text,
      ((∃ answer, table.calculateOrExplain text = .ok answer)
        ↔ ¬ ∃ word, table.Reaches none text word ∧ Word.IsOverlong word)
      ∧ (∀ answer, table.calculateOrExplain text = .ok answer → table.IsAnswer text answer)
      ∧ ∀ word, table.Reaches none text word → Word.isNumber word = true →
          word.length ≤ Mishap.digitLimit → Numeral.inputLimit < Word.number word →
          table.calculateOrExplain text
            = .ok s!"input error: {Word.number word} is greater than maximum integer limit (255)")
    ∧ ∀ line,
      ((∃ answer, ((Shell.answer line).run shell).1 = .ok answer)
        ↔ ¬ ∃ word, (shell.work line).Reaches shell.session.table word ∧ Word.IsOverlong word)
      ∧ ∀ stop reason, (shell.work line).attempt shell.session.table = .error stop →
          stop.explanation? = some reason →
          ((Shell.answer line).run shell).1 = .ok .continued
            ∧ ((Shell.answer line).run shell).2.session.table = shell.session.table
            ∧ ∃ said, ((Shell.answer line).run shell).2.session.reporter.printed
                = shell.session.reporter.printed ++ said
                  ++ (shell.origin (shell.work line)).faultText reason ++ "\n" := by
  refine ⟨fun text => ⟨htable.exists_answer_iff text, fun _ => htable.isAnswer, fun word =>
    htable.answer_of_tooLarge⟩, fun line => ⟨hshell.exists_answer_iff line, ?_⟩⟩
  intro stop reason hattempt hreason
  exact (Shell.survives_answer hshell.ready line).of_explanation hattempt hreason

/-- Without keywords, the number 300 is named by the answer, and a shell that has just begun goes on
    after the line `x)`. -/
theorem answered_unless_overlong_refusing :
    KeywordTable.Reachable {}
    ∧ Shell.Running ((Shell.inSession (Session.begin fun _ => none)).run
        { session := .start { style := Text.plain } Session.interactivePath {} }).2
    ∧ KeywordTable.calculateOrExplain {} "300"
      = .ok "input error: 300 is greater than maximum integer limit (255)"
    ∧ ((Shell.answer "x)").run ((Shell.inSession (Session.begin fun _ => none)).run
        { session := .start { style := Text.plain } Session.interactivePath {} }).2).1
        = .ok .continued := by
  have htable := KeywordTable.reachable_empty
  have hshell : Shell.Running ((Shell.inSession (Session.begin fun _ => none)).run
      { session := .start { style := Text.plain } Session.interactivePath {} }).2 :=
    @Shell.Running.begun false Text.plain _ _ rfl
  have hattempt : (Shell.Work.statement "x)").attempt {}
      = .error (.ofKind .unmatchedParenthesis) := by
    decide +kernel
  obtain ⟨htexts, hlines⟩ := answered_unless_overlong htable hshell
  refine ⟨htable, hshell, ?_, ?_⟩
  · exact (htexts "300").2.2 "300" (KeywordTable.reaches_self (by decide)) (by decide) (by decide)
      (by decide)
  · exact ((hlines "x)").2 _ _ hattempt rfl).1

/-- A number of 4301 nines is beyond the limit, and is not answered. -/
theorem not_answered_of_nines :
    KeywordTable.Reachable {}
    ∧ Numeral.inputLimit < Word.number (String.ofList (List.replicate 4301 '9'))
    ∧ ¬ ∃ answer, KeywordTable.calculateOrExplain {} (String.ofList (List.replicate 4301 '9'))
      = .ok answer := by
  refine ⟨KeywordTable.reachable_empty, ?_, ?_⟩
  · rw [show 4301 = 3 + 4298 from rfl, List.replicate_add]
    exact Nat.lt_of_lt_of_le (by decide) (Word.number_le_append (List.replicate 3 '9') _)
  · have hlong := Word.isOverlong_replicate (by decide : '9'.isDigit = true)
      (by decide : Mishap.digitLimit < 4301)
    exact KeywordTable.reachable_empty.not_answered (KeywordTable.reaches_self hlong.isNumber) hlong

end LambdaCalc
