import LambdaCalc.Proofs.Keyword.Stops
import LambdaCalc.Proofs.Layout.Outline
import LambdaCalc.Proofs.Node.Stops

set_option autoImplicit false

/-! # No text leads to an internal error

Reading a text, building an expression from its tokens, reducing it and printing it stop only for a
fault of the text or for a limit (`KeywordTable.Reachable.safe`). What is built and reduced on the
way is well-formed, so that every entry that is looked up is there. -/

namespace LambdaCalc

open Qualifier

namespace Binding.Reading

/-! ## Why building an expression stops -/

variable {room : Option Nat}

theorem enter_stopsOnly (reading : Reading) (inlined : Bool) :
    Outcome.StopsOnly Stop.Explained (reading.enter room inlined) := by
  unfold Reading.enter
  split
  · exact .error trivial
  · exact .ok _

theorem bind_stopsOnly (reading : Reading) {name : Option String}
    (hname : ∀ text ∈ name, Text.OneLine text) :
    Outcome.StopsOnly Stop.Explained (reading.bind name) := by
  unfold Reading.bind
  simp only
  split
  · exact .ok _
  · exact .ok _
  · exact .aboutName (by decide) hname
  · exact .aboutName (by decide) hname

theorem use_stopsOnly (reading : Reading) {name : Option String}
    (hname : ∀ text ∈ name, Text.OneLine text) :
    Outcome.StopsOnly Stop.Explained (reading.use name) := by
  unfold Reading.use
  split
  · exact .ok _
  · exact .aboutName (by decide) hname
  · exact .ok _
  · exact .ok _

theorem leave_stopsOnly (inner : Frame) (spellings : Spellings) (outer : List Frame) :
    Outcome.StopsOnly Stop.Explained (leave inner spellings outer) := by
  induction outer generalizing inner spellings with
  | nil => exact .ofKind (by decide)
  | cons frame outer ih =>
    rw [leave]
    split
    · exact ih _ _
    · exact .ok _

/-- A token that means something is read or at fault. -/
theorem step_stopsOnly {token : Token} (htoken : token.Named Proper) (reading : Reading) :
    Outcome.StopsOnly Stop.Explained (reading.step room token) := by
  obtain ⟨kind, name⟩ := token
  have hname (h : ∃ text, name = some text ∧ Proper text) : ∀ text ∈ name, Text.OneLine text := by
    obtain ⟨_, rfl, hproper⟩ := h
    rintro _ ⟨⟩
    exact hproper.oneLine
  cases kind with
  | opening => exact enter_stopsOnly reading false
  | closing => exact leave_stopsOnly _ _ _
  | func =>
    unfold Reading.step
    split_ifs
    · exact bind_stopsOnly reading (hname htoken)
    · exact (enter_stopsOnly reading true).bind fun entered _ =>
        bind_stopsOnly entered (hname htoken)
  | var => exact use_stopsOnly reading (hname htoken)
  | stray label => exact absurd htoken id

end Binding.Reading

namespace Expression

open Binding

/-- Building an expression from tokens with names stops only for what is wrong with them, or because
    they nest too deeply. -/
theorem ofTokens_explained {tokens : List Token}
    (hnamed : ∀ token ∈ tokens, token.Named Proper) (room : Option Nat) :
    Outcome.StopsOnly Stop.Explained (ofTokensWithin room tokens) := by
  unfold ofTokensWithin
  split
  · exact .ofKind (by decide)
  · refine (Outcome.StopsOnly.foldlM (fun reading token hmem =>
      Reading.step_stopsOnly (hnamed token hmem) reading) _).bind fun reading hrun => ?_
    obtain ⟨hsound, hkeys, _⟩ := Reading.foldlM_spec
      (sound_start (meetAll [] tokens)) (List.prefix_refl _) hrun
    have hmet := (Reading.finish_spec hsound).2.1.trans hkeys
    -- All names are there, so that there is a name table.
    have hnone : none ∉ (Reading.finish reading.inner reading.spellings reading.outer).2.keys := by
      rw [hmet]
      intro hmem
      obtain ⟨_, heq, _⟩ := named_of_mem_meetAll hnamed (List.forall_mem_nil _) none hmem
      cases heq
    obtain ⟨names, hnames⟩ := exists_nameTable (Reading.closed_finish hsound) hnone
    simp only [hnames]
    exact .ok _

/-- Building an expression from tokens with names never stops for an internal reason. -/
theorem ofTokens_stopsOnly {tokens : List Token}
    (hnamed : ∀ token ∈ tokens, token.Named Proper) (room : Option Nat) :
    Outcome.StopsOnly (¬ ·.Internal) (ofTokensWithin room tokens) :=
  (ofTokens_explained hnamed room).mono fun _ => Stop.Explained.not_internal

/-- An expression that can be printed, unless the text is too long, and reduced. -/
structure Safe (expression : Expression) : Prop where
  wellFormed : expression.WellFormed
  render_eq : (∃ text, expression.render = .ok text)
    ∨ expression.render = .error (.ofKind .characterLimitExceeded)

theorem WellFormed.safe_of_legible {expression : Expression} (h : expression.WellFormed)
    (hlegible : expression.names.Legible) : expression.Safe := by
  obtain ⟨text, htext⟩ := (h.printable hlegible).exists_inFull
  refine ⟨h, ?_⟩
  rw [render_of_inFull htext, Printer.limited]
  split
  · exact Or.inl ⟨_, rfl⟩
  · exact Or.inr rfl

/-- Reducing a well-formed expression returns or goes beyond a limit. -/
theorem WellFormed.reduce_eq {expression : Expression} (h : expression.WellFormed)
    (limits : Limits) :
    (∃ reduced, expression.reduce limits = .ok reduced)
      ∨ expression.reduce limits = .error (.ofKind .expressionSizeLimit) := by
  have hstops := @Node.reduceWithin_stopsOnly _ limits.copying limits.nesting _ _ h.wellScoped
    h.namesWithin _ rfl
  unfold Expression.reduce Node.reduce StateT.run
  cases hrun : expression.root.reduceWithin limits.copying limits.nesting expression.names with
  | ok result => exact Or.inl ⟨_, rfl⟩
  | error stop =>
    rcases hstops hrun with rfl | rfl
    · exact Or.inr rfl
    · exact Or.inr rfl

end Expression

namespace KeywordTable

/-- Whatever has been defined and erased, no stage of calculating a text stops for an internal
    reason: the text is read or at fault; its tokens are built into an expression, are at fault, or
    nest too deeply; and every expression that is built, and every one that is reduced, is
    well-formed, is printed unless its text is too long, and is reduced unless it outgrows the
    limits. -/
theorem Reachable.safe {table : KeywordTable} (htable : table.Reachable) (text : String) :
    Outcome.StopsOnly (¬ ·.Internal) (table.tokenize text)
      ∧ (∀ tokens, table.tokenize text = .ok tokens → ∀ room,
          Outcome.StopsOnly (¬ ·.Internal) (Expression.ofTokensWithin room tokens))
      ∧ ∀ expression, table.Yields text expression → expression.Safe ∧ ∀ limits,
          (∃ reduced, expression.reduce limits = .ok reduced ∧ reduced.Safe)
            ∨ expression.reduce limits = .error (.ofKind .expressionSizeLimit) := by
  have hsafe {expression : Expression} (hyields : table.Yields text expression) :
      expression.Safe := hyields.wellFormed.safe_of_legible (hyields.legible htable)
  refine ⟨tokenize_stopsOnly table text none, fun tokens htokens => ?_, fun expression hyields =>
    ⟨hsafe hyields, fun limits => ?_⟩⟩
  · exact Expression.ofTokens_stopsOnly (htable.named_tokenize htokens)
  · refine (hyields.wellFormed.reduce_eq limits).imp_left fun ⟨reduced, hreduce⟩ => ?_
    exact ⟨reduced, hreduce, hsafe (.reduced hyields hreduce)⟩

/-- After `k = λx.x x`, the text `k (k` with a group left open is built and printed, and outgrows
    the limits when it is reduced. -/
theorem Reachable.safe_looping :
    Reachable {
      keywords := {
        entries := [("k", [.opening, .func "$k$x", .var "$k$x", .var "$k$x", .closing])] }
      sources := { entries := [("k", "λx.x x")] } }
    ∧ Yields {
      keywords := {
        entries := [("k", [.opening, .func "$k$x", .var "$k$x", .var "$k$x", .closing])] }
      sources := { entries := [("k", "λx.x x")] } } "k (k" {
        root := .abs [] [.abs [⟨0, 0⟩] [.bound 0 0, .bound 0 0],
          .abs [⟨0, 1⟩] [.bound 0 0, .bound 0 0]]
        names := { entries := [⟨"x", 2⟩] } }
    ∧ Expression.Safe {
        root := .abs [] [.abs [⟨0, 0⟩] [.bound 0 0, .bound 0 0],
          .abs [⟨0, 1⟩] [.bound 0 0, .bound 0 0]]
        names := { entries := [⟨"x", 2⟩] } }
    ∧ Expression.reduce { nesting := 8, copying := 8 } {
        root := .abs [] [.abs [⟨0, 0⟩] [.bound 0 0, .bound 0 0],
          .abs [⟨0, 1⟩] [.bound 0 0, .bound 0 0]]
        names := { entries := [⟨"x", 2⟩] } }
      = .error (.ofKind .expressionSizeLimit) := by
  have hdefine : KeywordTable.define {} "k" "λx.x x" = .ok {
      keywords := {
        entries := [("k", [.opening, .func "$k$x", .var "$k$x", .var "$k$x", .closing])] }
      sources := { entries := [("k", "λx.x x")] } } := by
    decide +kernel
  have htokens : tokenize {
      keywords := {
        entries := [("k", [.opening, .func "$k$x", .var "$k$x", .var "$k$x", .closing])] }
      sources := { entries := [("k", "λx.x x")] } } "k (k"
      = .ok [.opening, .opening, .func "$k$x", .var "$k$x", .var "$k$x", .closing, .opening,
        .opening, .func "$k$x", .var "$k$x", .var "$k$x", .closing, .closing, .closing] := by
    decide +kernel
  have hbuilt : Expression.ofTokensWithin none [.opening, .opening, .func "$k$x", .var "$k$x",
        .var "$k$x", .closing, .opening, .opening, .func "$k$x", .var "$k$x", .var "$k$x", .closing,
        .closing, .closing]
      = .ok {
        root := .abs [] [.abs [⟨0, 0⟩] [.bound 0 0, .bound 0 0],
          .abs [⟨0, 1⟩] [.bound 0 0, .bound 0 0]]
        names := { entries := [⟨"x", 2⟩] } } := by cbv
  have hreachable := Reachable.define reachable_empty hdefine
  have hyields := Yields.built htokens hbuilt
  exact ⟨hreachable, hyields, ((hreachable.safe "k (k").2.2 _ hyields).1, by cbv⟩

end KeywordTable

end LambdaCalc
