import LambdaCalc.Proofs.Expression.Reading
import LambdaCalc.Proofs.Stops

set_option autoImplicit false

/-! # Token streams that are one group

`Token.depthAfter` counts the groups that are open after some tokens. A stream is one group
(`Token.OneGroup`) if its first token opens a group that its last token closes. An expression is
built from one group without meeting a closing token too many, and nothing is left open for the end
of the stream to close (`Binding.Reading.foldlM_oneGroup`). -/

namespace LambdaCalc

/-! ## Counting open groups -/

namespace Token

/-- The number of open groups after a token; `none` if it closes one though none is open. -/
def deepen (depth : Nat) (token : Token) : Option Nat :=
  match token.kind, depth with
  | .opening, depth => some (depth + 1)
  | .closing, 0 => none
  | .closing, depth + 1 => some depth
  | .func, depth | .var, depth | .stray _, depth => some depth

/-- The number of open groups after some tokens; `none` if they close one where none is open. -/
def depthAfter (depth : Nat) (tokens : List Token) : Option Nat := tokens.foldlM deepen depth

/-- A stream of tokens is one group: the first one opens it and the last one closes it. -/
def OneGroup (tokens : List Token) : Prop :=
  ∃ inner, tokens = .opening :: (inner ++ [.closing]) ∧ depthAfter 0 inner = some 0

variable {depth depth' : Nat} {tokens tokens' : List Token}

theorem depthAfter_append (h : depthAfter depth tokens = some depth') (others : List Token) :
    depthAfter depth (tokens ++ others) = depthAfter depth' others := by
  rw [depthAfter, List.foldlM_append]
  exact congrArg (· >>= fun depth => others.foldlM deepen depth) h

/-- Groups around a token change nothing for it. -/
theorem deepen_add {token : Token} (h : token.deepen depth = some depth') (around : Nat) :
    token.deepen (depth + around) = some (depth' + around) := by
  obtain ⟨kind, name⟩ := token
  cases kind with
  | opening =>
    obtain rfl := Option.some.inj h
    exact congrArg some (Nat.add_right_comm depth around 1)
  | closing =>
    cases depth with
    | zero => cases h
    | succ depth =>
      obtain rfl := Option.some.inj h
      rw [Nat.succ_add]
      rfl
  | func | var | stray =>
    obtain rfl := Option.some.inj h
    rfl

/-- Groups around a stream change nothing for it: by induction on its tokens. -/
theorem depthAfter_add (h : depthAfter depth tokens = some depth') (around : Nat) :
    depthAfter (depth + around) tokens = some (depth' + around) := by
  unfold depthAfter at h ⊢
  induction tokens generalizing depth with
  | nil =>
    obtain rfl := Option.some.inj h
    rfl
  | cons token tokens ih =>
    obtain ⟨between, hfirst, hrest⟩ := Option.bind_eq_some_iff.mp h
    exact Option.bind_eq_some_iff.mpr ⟨between + around, deepen_add hfirst around, ih hrest⟩

theorem depthAfter_replicate_closing (count depth : Nat) :
    depthAfter (depth + count) (List.replicate count .closing) = some depth := by
  induction count with
  | zero => rfl
  | succ count ih => exact ih

/-- Behind a group as many groups are open as in front of it. -/
theorem OneGroup.depthAfter (h : OneGroup tokens) (depth : Nat) :
    depthAfter depth tokens = some depth := by
  obtain ⟨inner, rfl, hinner⟩ := h
  have hinside := depthAfter_add hinner (depth + 1)
  rw [Nat.zero_add] at hinside
  exact depthAfter_append hinside [.closing]

/-- What opens some groups becomes one group if as many are closed at the end. -/
theorem oneGroup_of_depthAfter (h : depthAfter 0 tokens = some depth) :
    OneGroup ([.opening] ++ tokens ++ List.replicate depth .closing ++ [.closing]) := by
  refine ⟨tokens ++ List.replicate depth .closing, by simp, ?_⟩
  rw [depthAfter_append h]
  have hclosing := depthAfter_replicate_closing depth 0
  rwa [Nat.zero_add] at hclosing

end Token

/-- A stop for a closing parenthesis that nothing has opened. -/
def Stop.IsUnmatched : Stop → Prop
  | .fault reason => reason.kind = .unmatchedParenthesis
  | .mishap _ | .nestedTooDeeply | .interrupted | .exit _ => False

theorem Stop.not_isUnmatched_aboutName {kind : FaultKind} (h : kind ≠ .unmatchedParenthesis)
    (name : Option String) : ¬ (Stop.aboutName kind name).IsUnmatched :=
  h

namespace Binding

/-! ## Building from a group -/

/-- Inside one group of the stream so many others are open, given for each group from the inside out
    whether it is inlined. Around that one there is the implicit group only. -/
inductive Inside : Nat → List Bool → Prop where
  | group : Inside 0 [false, false]
  | inlined {depth : Nat} {marks : List Bool} : Inside depth marks → Inside depth (true :: marks)
  | opened {depth : Nat} {marks : List Bool} :
      Inside depth marks → Inside (depth + 1) (false :: marks)

theorem not_inside_singleton {depth : Nat} {mark : Bool} : ¬ Inside depth [mark] := by
  intro h
  cases h with
  | inlined h => cases h
  | opened h => cases h

/-- Which groups are inlined. -/
def marks (frames : List Frame) : List Bool := frames.map Frame.inlined

namespace Reading

variable {room : Option Nat} {reading reading' : Reading} {depth depth' : Nat}
  {name : Option String}

/-! ### Inside the group -/

theorem marks_of_bind (h : reading.bind name = .ok reading') :
    marks reading'.frames = marks reading.frames := by
  obtain ⟨_, copy, _, rfl⟩ := bind_eq_ok_iff.mp h
  rfl

theorem marks_of_use (h : reading.use name = .ok reading') :
    marks reading'.frames = marks reading.frames := by
  rcases use_eq_ok h with ⟨_, _, _, _, rfl⟩ | ⟨_, rfl⟩ | ⟨_, rfl⟩ <;> rfl

/-- Closing a group inside closes the abstractions inlined in it and nothing else: by induction on
    the groups around. -/
theorem leave_inside {inner : Frame} {outer : List Frame} (spellings : Spellings)
    (h : Inside (depth + 1) (marks (inner :: outer))) :
    ∃ reading, leave inner spellings outer = .ok reading ∧ Inside depth (marks reading.frames) := by
  induction outer generalizing inner spellings with
  | nil => exact absurd h not_inside_singleton
  | cons frame outer ih =>
    rw [marks, List.map_cons] at h
    rw [leave]
    generalize hinlined : inner.inlined = inlined at h
    cases h with
    | inlined h => exact ih _ h
    | opened h => exact ⟨_, rfl, h⟩

/-- Closing the group itself leaves the implicit group alone. -/
theorem leave_group {inner : Frame} {outer : List Frame} (spellings : Spellings)
    (h : Inside 0 (marks (inner :: outer))) :
    ∃ reading, leave inner spellings outer = .ok reading ∧ reading.outer = [] := by
  induction outer generalizing inner spellings with
  | nil => exact absurd h not_inside_singleton
  | cons frame outer ih =>
    rw [marks, List.map_cons] at h
    rw [leave]
    generalize hinlined : inner.inlined = inlined at h
    generalize hmarks : (frame :: outer).map Frame.inlined = others at h
    cases h with
    | inlined h =>
      rw [← hmarks] at h
      exact ih _ h
    | group => exact ⟨_, rfl, List.map_eq_nil_iff.mp (List.cons.inj hmarks).2⟩

theorem enter_matched (reading : Reading) (inlined : Bool) :
    Outcome.StopsOnly (¬ ·.IsUnmatched) (reading.enter room inlined) := by
  unfold Reading.enter
  split
  · exact .error not_false
  · exact .ok _

theorem bind_matched (reading : Reading) (name : Option String) :
    Outcome.StopsOnly (¬ ·.IsUnmatched) (reading.bind name) := by
  unfold Reading.bind
  simp only
  split
  · exact .ok _
  · exact .ok _
  · exact .error (Stop.not_isUnmatched_aboutName (by decide) name)
  · exact .error (Stop.not_isUnmatched_aboutName (by decide) name)

theorem use_matched (reading : Reading) (name : Option String) :
    Outcome.StopsOnly (¬ ·.IsUnmatched) (reading.use name) := by
  unfold Reading.use
  split
  · exact .ok _
  · exact .error (Stop.not_isUnmatched_aboutName (by decide) name)
  · exact .ok _
  · exact .ok _

/-- Reading a token inside the group keeps count of the open groups, and no closing token is one too
    many. -/
theorem step_inside (room : Option Nat) {token : Token} (h : Inside depth (marks reading.frames))
    (hdepth : token.deepen depth = some depth') :
    Outcome.StopsOnly (¬ ·.IsUnmatched) (reading.step room token)
      ∧ ∀ reading', reading.step room token = .ok reading' →
        Inside depth' (marks reading'.frames) := by
  obtain ⟨kind, name⟩ := token
  cases kind with
  | opening =>
    obtain rfl := Option.some.inj hdepth
    refine ⟨enter_matched reading false, fun reading' hstep => ?_⟩
    rw [eq_of_enter hstep]
    exact .opened h
  | closing =>
    cases depth with
    | zero => cases hdepth
    | succ depth =>
      obtain rfl := Option.some.inj hdepth
      obtain ⟨closed, hclosed, hinside⟩ := leave_inside reading.spellings h
      unfold Reading.step
      rw [hclosed]
      refine ⟨.ok closed, ?_⟩
      rintro _ ⟨⟩
      exact hinside
  | func =>
    obtain rfl := Option.some.inj hdepth
    unfold Reading.step
    by_cases hempty : reading.inner.elements.isEmpty
    · simp only [if_pos hempty]
      exact ⟨bind_matched reading name, fun reading' hstep => marks_of_bind hstep ▸ h⟩
    · simp only [if_neg hempty]
      refine ⟨(enter_matched reading true).bind fun entered _ => bind_matched entered name, ?_⟩
      intro reading' hstep
      obtain ⟨entered, henter, hbind⟩ := Outcome.bind_eq_ok.mp hstep
      rw [marks_of_bind hbind, eq_of_enter henter]
      exact .inlined h
  | var =>
    obtain rfl := Option.some.inj hdepth
    exact ⟨use_matched reading name, fun reading' hstep => marks_of_use hstep ▸ h⟩
  | stray label => exact ⟨.error nofun, nofun⟩

/-- Reading tokens inside the group: by induction on them. -/
theorem foldlM_inside (room : Option Nat) {tokens : List Token}
    (h : Inside depth (marks reading.frames))
    (hdepth : Token.depthAfter depth tokens = some depth') :
    Outcome.StopsOnly (¬ ·.IsUnmatched) (tokens.foldlM (Reading.step room) reading)
      ∧ ∀ reading', tokens.foldlM (Reading.step room) reading = .ok reading' →
        Inside depth' (marks reading'.frames) := by
  induction tokens generalizing reading depth with
  | nil =>
    obtain rfl := Option.some.inj hdepth
    refine ⟨.ok reading, ?_⟩
    rintro _ ⟨⟩
    exact h
  | cons token tokens ih =>
    obtain ⟨between, hfirst, hrest⟩ := Option.bind_eq_some_iff.mp hdepth
    obtain ⟨hmatched, hinside⟩ := step_inside room h hfirst
    rw [List.foldlM_cons]
    refine ⟨hmatched.bind fun state hstep => (ih (hinside state hstep) hrest).1, ?_⟩
    intro reading' hrun
    obtain ⟨state, hstep, hrun⟩ := Outcome.bind_eq_ok.mp hrun
    exact (ih (hinside state hstep) hrest).2 reading' hrun

/-! ### The group itself -/

/-- Reading one group meets no closing token too many, and leaves the implicit group alone. -/
theorem foldlM_oneGroup {tokens : List Token} (h : Token.OneGroup tokens) :
    Outcome.StopsOnly (¬ ·.IsUnmatched) (tokens.foldlM (Reading.step room) {})
      ∧ ∀ reading, tokens.foldlM (Reading.step room) {} = .ok reading → reading.outer = [] := by
  obtain ⟨inner, rfl, hdepth⟩ := h
  have hclosing {reading : Reading} (hinside : Inside 0 (marks reading.frames)) :
      ∃ closed, [Token.closing].foldlM (Reading.step room) reading = .ok closed
        ∧ closed.outer = [] := by
    obtain ⟨closed, hclosed, houter⟩ := leave_group reading.spellings hinside
    refine ⟨closed, ?_, houter⟩
    rw [List.foldlM_cons]
    exact Outcome.bind_eq_ok.mpr ⟨closed, hclosed, rfl⟩
  have hstart {reading : Reading} (hstep : ({} : Reading).step room .opening = .ok reading) :
      Inside 0 (marks reading.frames) := by
    rw [eq_of_enter hstep]
    exact .group
  rw [List.foldlM_cons]
  constructor
  · refine (enter_matched {} false).bind fun reading hstep => ?_
    obtain ⟨hmatched, hinside⟩ := foldlM_inside room (hstart hstep) hdepth
    rw [List.foldlM_append]
    refine hmatched.bind fun reading' hrun => ?_
    obtain ⟨closed, hclosed, _⟩ := hclosing (hinside reading' hrun)
    rw [hclosed]
    exact .ok closed
  · intro reading hrun
    obtain ⟨opened, hstep, hrun⟩ := Outcome.bind_eq_ok.mp hrun
    rw [List.foldlM_append] at hrun
    obtain ⟨reading', hrun, hlast⟩ := Outcome.bind_eq_ok.mp hrun
    have hinside := (foldlM_inside room (hstart hstep) hdepth).2 reading' hrun
    obtain ⟨closed, hclosed, houter⟩ := hclosing hinside
    obtain rfl := Except.ok.inj (hclosed.symm.trans hlast)
    exact houter

end Reading

end Binding

namespace Expression

open Binding

/-- Building an expression from one group does not fail for a closing token too many. -/
theorem ofTokens_matched {tokens : List Token} (h : Token.OneGroup tokens) (room : Option Nat) :
    Outcome.StopsOnly (¬ ·.IsUnmatched) (ofTokensWithin room tokens) := by
  unfold ofTokensWithin
  split
  · exact .error nofun
  · refine (Reading.foldlM_oneGroup h).1.bind fun reading _ => ?_
    refine Outcome.StopsOnly.bind ?_ fun names _ => .ok _
    refine (nameTable_stopsOnly _).mono ?_
    rintro stop (rfl | rfl)
    · exact not_false
    · exact FaultKind.noConfusion

end Expression

end LambdaCalc
