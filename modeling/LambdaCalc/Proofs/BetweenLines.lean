import LambdaCalc.Proofs.Shell

set_option autoImplicit false

/-! # Between two lines

Whatever a line has come to, nothing is left of it between two lines but what it was about: the
keywords that it has defined or removed, and the beginning of a statement whose parentheses are
still open, which the prompt shows (`Shell.Running.nothing_left`). In particular the reporter knows
no statement any more (`Reporter.Quiet`), also if the line has been stopped. -/

namespace LambdaCalc

/-! ## What the reporter knows -/

namespace Reporter

variable {reporter : Reporter}

/-- No statement is known of any file. -/
def Quiet (reporter : Reporter) : Prop := ∀ entry ∈ reporter.places.entries, entry.2 = none

theorem quiet_clearAll (reporter : Reporter) : reporter.clearAll.Quiet := by
  intro entry hmem
  obtain ⟨_, -, rfl⟩ := List.mem_map.mp hmem
  rfl

theorem Quiet.adding (h : reporter.Quiet) (said : String) : (reporter.adding said).Quiet := h

theorem Quiet.clear (h : reporter.Quiet) (path : String) : (reporter.clear path).Quiet := by
  intro entry hmem
  simp only [Reporter.clear, OrderedTable.put] at hmem
  split at hmem
  · obtain ⟨entry', hmem', rfl⟩ := List.mem_map.mp hmem
    split
    · rfl
    · exact h entry' hmem'
  · rcases List.mem_append.mp hmem with hmem | hmem
    · exact h entry hmem
    · rw [List.mem_singleton.mp hmem]

/-- Once a calculation that stopped is dealt with, no statement is known. -/
theorem quiet_absorb {stop : Stop} (hfatal : reporter.fatal = false)
    (hstop : (∃ reason, stop.explanation? = some reason) ∨ ∃ mishap, stop = .mishap mishap) :
    (reporter.absorb stop).2.Quiet := by
  rcases hstop with ⟨reason, hreason⟩ | ⟨mishap, rfl⟩
  · rw [absorb_of_explanation hreason hfatal]
    exact quiet_clearAll _
  · obtain ⟨said, habsorb⟩ := exists_absorb_mishap mishap hfatal
    rw [habsorb]
    exact quiet_clearAll _

end Reporter

namespace Shell

/-! ## What a line leaves of a session -/

/-- A piece of work changes the keywords: it succeeds in defining one or in removing one. -/
inductive Work.Changes (table : KeywordTable) : Work → KeywordTable → Prop where
  | definition {text name source : String} {left : KeywordTable} :
      Statement.definition? text = some (name, source) →
      table.define (Text.trim name) source = .ok left → Changes table (.statement text) left
  | removal {name : String} :
      table.contains name = true → Changes table (.removal name) (table.erase name)

/-- A piece of work leaves a session in which no statement is known, with the same keywords unless
    it has changed them. -/
structure Settles (work : Work) (session session' : Session) : Prop where
  quiet : session'.reporter.Quiet
  table : session'.table = session.table ∨ work.Changes session.table session'.table

/-- Where nothing is said but what is printed, nothing is left. -/
theorem Settles.of_adding {session : Session} (h : session.reporter.Quiet) (work : Work)
    (said : String) :
    Settles work session { session with reporter := session.reporter.adding said } :=
  ⟨h.adding said, .inl rfl⟩

variable {shell : Shell}

/-- A statement that succeeds in being performed leaves the keywords alone unless it is a
    definition. -/
theorem changes_of_perform {table left : KeywordTable} {text : String} {reply : Reply}
    (h : table.perform text = .ok (reply, left)) :
    left = table ∨ (Work.statement text).Changes table left := by
  cases hdefinition : Statement.definition? text with
  | none =>
    rw [KeywordTable.perform_of_none hdefinition] at h
    obtain ⟨_, -, heq⟩ := Outcome.bind_eq_ok.mp h
    exact .inl (Prod.mk.inj (Except.ok.inj heq)).2.symm
  | some sides =>
    rw [KeywordTable.perform_of_definition hdefinition] at h
    obtain ⟨defined, hdefine, heq⟩ := Outcome.bind_eq_ok.mp h
    obtain ⟨-, rfl⟩ := Prod.mk.inj (Except.ok.inj heq)
    exact .inr (.definition hdefinition hdefine)

theorem settles_runStatement (h : shell.session.Ready) (hquiet : shell.session.reporter.Quiet)
    (text : String) (line : Nat) :
    Settles (.statement text) shell.session
      ((Session.guarded (runStatement text line)).run shell.session).2 := by
  obtain ⟨said, hrun⟩ :=
    Session.exists_ending shell.session.reporter shell.session.table text line
  rw [← h.eq_interactive] at hrun
  have hstops := Work.attempt_stops_mishap h.reachable (.statement text)
  rw [Work.attempt, KeywordTable.tryStatement_eq] at hstops
  cases hperform : shell.session.table.perform text with
  | error stop =>
    rw [hperform] at hrun hstops
    rw [Session.run_guarded_of_error hrun]
    exact ⟨Reporter.quiet_absorb h.fatal_eq (hstops rfl), .inl rfl⟩
  | ok performed =>
    rw [hperform] at hrun
    rw [Session.run_guarded_of_ok hrun]
    exact ⟨(hquiet.clear _).adding said, changes_of_perform hperform⟩

theorem settles_removeKeyword (h : shell.session.Ready) (hquiet : shell.session.reporter.Quiet)
    (name : String) :
    Settles (.removal (Text.trim name)) shell.session
      ((Session.guarded (removeKeyword name)).run shell.session).2 := by
  have hrun : (removeKeyword name).run shell.session
      = if shell.session.table.contains (Text.trim name) then
          (.ok (), { shell.session with table := shell.session.table.erase (Text.trim name) })
        else (.error (.about .invalidKeyword (Text.trim name)), shell.session) := by
    unfold removeKeyword
    rw [run_bind_of_ok (run_get _)]
    split_ifs <;> rfl
  split_ifs at hrun with hcontains
  · rw [Session.run_guarded_of_ok hrun]
    exact ⟨hquiet, .inr (.removal hcontains)⟩
  · rw [Session.run_guarded_of_error hrun]
    exact ⟨Reporter.quiet_absorb h.fatal_eq (.inl ⟨_, rfl⟩), .inl rfl⟩

theorem settles_takeLine (h : shell.session.Ready) (hquiet : shell.session.reporter.Quiet)
    (line : String) :
    Settles (shell.statementWork line) shell.session ((takeLine line).run shell).2.session := by
  rw [run_takeLine, statementWork_eq]
  generalize Statement.advance shell.held line = advanced
  obtain ⟨begun, _ | text⟩ := advanced
  · exact ⟨hquiet, .inl rfl⟩
  · simp only [run_bind_pure, run_inSession]
    exact settles_runStatement h hquiet text _

theorem settles_print (hquiet : shell.session.reporter.Quiet) (work : Work) (line : String)
    {value : Answer} :
    Settles work shell.session
      ((inSession (Session.tell (·.print line)) >>= fun _ =>
        pure value : ShellM Answer).run shell).2.session := by
  rw [run_bind_pure, run_inSession, Session.run_tell, Reporter.print_eq_adding]
  exact .of_adding hquiet work _

theorem settles_obey (h : shell.session.Ready) (hquiet : shell.session.reporter.Quiet)
    (command : Command) (argument : String) :
    Settles (commandWork argument command) shell.session
      ((obey command argument).run shell).2.session := by
  cases command with
  | keywords =>
    obtain ⟨said, hlist⟩ := run_listKeywords shell.session
    unfold obey
    simp only
    rw [run_bind_pure, run_inSession, hlist]
    exact .of_adding hquiet _ said
  | remove =>
    unfold obey
    simp only
    rw [run_bind_pure, run_inSession]
    exact settles_removeKeyword h hquiet argument
  | help => exact settles_print hquiet _ helpText
  | endOfInput => exact settles_print hquiet _ ""
  | exit => exact ⟨hquiet, .inl rfl⟩

theorem settles_answer (h : shell.session.Ready) (hquiet : shell.session.reporter.Quiet)
    (line : String) :
    Settles (shell.work line) shell.session ((answer line).run shell).2.session := by
  unfold answer work
  simp only
  split_ifs
  · exact ⟨hquiet, .inl rfl⟩
  · cases command? (Text.trimList line.toList) with
    | some command =>
      simp only
      exact settles_obey h hquiet command.1 command.2
    | none =>
      simp only [run_bind_pure]
      exact settles_takeLine h hquiet _

/-! ## What a line leaves held back -/

/-- The prompt tells what is held back: the beginning of a statement whose parentheses are still
    open, or nothing. -/
def Tells (prompt held : String) : Prop :=
  prompt = secondaryPrompt ∧ Statement.isOpen held = true ∨ prompt = primaryPrompt ∧ held = ""

theorem tells_advance (begun line : String) :
    Tells (promptFor (Statement.advance begun line).1) (Statement.advance begun line).1 := by
  unfold Statement.advance
  dsimp only
  split_ifs with hopen
  · refine .inl ⟨?_, hopen⟩
    rw [promptFor, if_neg]
    rw [String.isEmpty_iff]
    exact Statement.ne_empty_of_isOpen hopen
  · exact .inr ⟨rfl, rfl⟩
  · exact .inr ⟨rfl, rfl⟩

/-- However a line that is no command ends, it sets the prompt together with what is held back. -/
theorem tells_takeLine (line : String) (shell : Shell) :
    Tells ((takeLine line).run shell).2.prompt ((takeLine line).run shell).2.held := by
  have htells := tells_advance shell.held line
  rw [run_takeLine]
  generalize Statement.advance shell.held line = advanced at htells
  obtain ⟨begun, _ | _⟩ := advanced
  · exact htells
  · simpa only [run_bind_pure, run_inSession] using htells

/-- A command has nothing to do with what is held back, nor with the prompt. -/
theorem run_obey_keeps (command : Command) (argument : String) :
    ((obey command argument).run shell).2.prompt = shell.prompt
      ∧ ((obey command argument).run shell).2.held = shell.held := by
  have hinSession {α : Type} (calculation : SessionM α) (value : Answer) :
      ((inSession calculation >>= fun _ => pure value).run shell).2.prompt = shell.prompt
        ∧ ((inSession calculation >>= fun _ => pure value).run shell).2.held = shell.held := by
    rw [run_bind_pure, run_inSession]
    exact ⟨rfl, rfl⟩
  cases command with
  | keywords => exact hinSession listKeywords .continued
  | remove => exact hinSession (Session.guarded (removeKeyword argument)) .continued
  | help => exact hinSession (Session.tell (·.print helpText)) .continued
  | endOfInput => exact hinSession (Session.tell (·.print "")) .finished
  | exit => exact ⟨rfl, rfl⟩

theorem Tells.answer (h : Tells shell.prompt shell.held) (line : String) :
    Tells ((answer line).run shell).2.prompt ((answer line).run shell).2.held := by
  unfold Shell.answer
  simp only
  split_ifs
  · exact h
  · cases command? (Text.trimList line.toList) with
    | some command =>
      obtain ⟨hprompt, hheld⟩ := @run_obey_keeps shell command.1 command.2
      rw [hprompt, hheld]
      exact h
    | none =>
      simp only [run_bind_pure]
      exact tells_takeLine _ shell

/-! ## Shells at work -/

/-- Between two lines no statement is known and the prompt tells what is held back: by induction on
    what the shell has done. -/
theorem Running.quiet (h : shell.Running) :
    shell.session.reporter.Quiet ∧ Tells shell.prompt shell.held := by
  induction h with
  | begun hshell =>
    obtain ⟨table, -, hshell⟩ := Outcome.bind_eq_ok.mp hshell
    obtain rfl := Except.ok.inj hshell
    refine ⟨?_, .inr ⟨rfl, rfl⟩⟩
    intro entry hmem
    rw [List.mem_singleton.mp hmem]
  | introduced _ ih =>
    rw [run_inSession, Session.run_tell, Reporter.print_eq_adding]
    exact ih
  | prompted _ ih =>
    unfold showPrompt
    rw [run_bind_of_ok (run_get _), run_inSession, Session.run_tell]
    exact ih
  | answered line hrunning ih =>
    exact ⟨(settles_answer hrunning.ready ih.1 line).quiet, ih.2.answer line⟩

/-- Whatever lines a shell has answered, and whether or not the next one stops it, nothing of that
    line is left behind: no statement is pending, no result is left to be taken, and the reporter
    knows no statement of any file. Either the prompt is the secondary one and the beginning of a
    statement is held back, whose parentheses are still open, or the prompt is the primary one and
    nothing is held back. The keywords are the same as before, unless the line has succeeded in
    defining or removing one. -/
theorem Running.nothing_left (h : shell.Running) (line : String) :
    ((answer line).run shell).2.session.pending = {}
      ∧ ((answer line).run shell).2.session.results = []
      ∧ (∀ entry ∈ ((answer line).run shell).2.session.reporter.places.entries, entry.2 = none)
      ∧ (((answer line).run shell).2.prompt = ". "
            ∧ Statement.isOpen ((answer line).run shell).2.held = true
          ∨ ((answer line).run shell).2.prompt = "λ> "
            ∧ ((answer line).run shell).2.held = "")
      ∧ (((answer line).run shell).2.session.table = shell.session.table
          ∨ (shell.work line).Changes shell.session.table
            ((answer line).run shell).2.session.table) := by
  have hready := (Running.answered line h).ready
  obtain ⟨hquiet, htells⟩ := (Running.answered line h).quiet
  have htable := (settles_answer h.ready h.quiet.1 line).table
  generalize ((answer line).run shell).2 = after at hready hquiet htells htable ⊢
  refine ⟨?_, ?_, hquiet, htells, htable⟩
  · rw [hready.eq_interactive]
    rfl
  · rw [hready.eq_interactive]
    rfl

/-- A shell that has just begun holds back the line `k := (x`, and its prompt shows it. -/
theorem Running.nothing_left_held :
    Running ((inSession (Session.begin fun _ => none)).run
        { session := .start { style := Text.plain } Session.interactivePath {} }).2
    ∧ ((answer "k := (x").run ((inSession (Session.begin fun _ => none)).run {
      session := .start { style := Text.plain } Session.interactivePath {} }).2).2.session.results
        = []
    ∧ ((answer "k := (x").run ((inSession (Session.begin fun _ => none)).run
        { session := .start { style := Text.plain } Session.interactivePath {} }).2).2.prompt
        = ". " := by
  have hrunning : Running ((inSession (Session.begin fun _ => none)).run
      { session := .start { style := Text.plain } Session.interactivePath {} }).2 :=
    @Running.begun false Text.plain _ _ rfl
  obtain ⟨-, hresults, -, hprompt, -⟩ := hrunning.nothing_left "k := (x"
  refine ⟨hrunning, hresults, ?_⟩
  rcases hprompt with ⟨hprompt, -⟩ | ⟨-, hheld⟩
  · exact hprompt
  · exact absurd hheld (by decide +kernel)

end Shell

end LambdaCalc
