import LambdaCalc.Proofs.Expression.Decoding
import LambdaCalc.Proofs.Keyword.Groups
import LambdaCalc.Proofs.Node.Calls

set_option autoImplicit false

/-! # Numbers as expressions

A number within the limit is written as one group of tokens, from which an expression is built that
is read as this number and that a reduction leaves as it is (`Numeral.tokens_roundTrip`).

The tokens and the tree have the same groups: every argument but the innermost one is a group with
one application less (`Numeral.applied` for the tokens, `Numeral.spine` for the nodes). Such a group
is read alike wherever it stands inside the number (`Numeral.foldlM_applied`). -/

namespace LambdaCalc

namespace Binding.Reading

theorem foldlM_cons_of_ok {room : Option Nat} {reading next : Reading} {token : Token}
    (h : reading.step room token = .ok next) (tokens : List Token) :
    (token :: tokens).foldlM (step room) reading = tokens.foldlM (step room) next := by
  rw [List.foldlM_cons, h]
  rfl

/-- A group is opened if there is room for one more. -/
theorem step_opening (room : Option Nat) (reading : Reading) :
    reading.step room .opening
      = if room.any (· < reading.level + 1) then .error .nestedTooDeeply
        else .ok { reading with inner := {}, outer := reading.inner :: reading.outer } := by
  change reading.enter room false = _
  simp only [enter, Nat.lt_succ_iff]

end Binding.Reading

namespace Numeral

open Binding Node
open Reading (foldlM_cons_of_ok step_opening)

/-! ## The tree -/

/-- The spine of a function applied to a base so many times, so many groups inside the abstraction
    that binds both. -/
def spine : (level count : Nat) → List Node
  | level, 0 => [.bound level 1]
  | level, 1 => [.bound level 0, .bound level 1]
  | level, count + 2 => [.bound level 0, .abs [] (spine (level + 1) (count + 1))]

/-- The expression of a number, with the qualifiers taken off its parameters. -/
def expression (count : Nat) : Expression where
  root := .abs [⟨0, 0⟩, ⟨1, 0⟩] (spine 0 count)
  names := { entries := [⟨"f", 1⟩, ⟨"x", 1⟩] }

theorem applications?_spine (level count : Nat) :
    applications? (0, 0) (0, 1) level (spine level count) = some count := by
  fun_induction spine level count with
  | case1 level => simp [applications?]
  | case2 level => simp [applications?]
  | case3 level count ih => simp [applications?, ih]

theorem headAtRest_spine (level count : Nat) : HeadAtRest (spine level count) := by
  fun_cases spine level count with
  | case1 | case2 | case3 => exact ⟨rfl, fun _ => rfl⟩

theorem canonical_spine (level count : Nat) : ∀ node ∈ spine level count, node.Canonical := by
  fun_induction spine level count with
  | case1 level => exact List.forall_mem_singleton.mpr trivial
  | case2 level => exact List.forall_mem_cons.mpr ⟨trivial, List.forall_mem_singleton.mpr trivial⟩
  | case3 level count ih =>
    refine List.forall_mem_cons.mpr ⟨trivial, List.forall_mem_singleton.mpr ?_⟩
    exact canonical_abs.mpr ⟨headAtRest_spine _ _, by cases count <;> simp [spine], ih⟩

theorem calls_spine (params : List Param) (level count : Nat) :
    (Node.abs params (spine level count)).calls = max count 1 + 2 := by
  fun_induction spine level count generalizing params with
  | case1 | case2 => rfl
  | case3 level count ih =>
    simp only [calls, callsList, ih]
    omega

/-- No reference leaves the abstraction that binds the function and the base. -/
theorem unshiftList_spine (level count : Nat) :
    unshiftList (level + 1) (spine level count) = spine level count := by
  fun_induction spine level count with
  | case1 | case2 => simp [unshiftList, unshift]
  | case3 level count ih =>
    rw [Int.natCast_succ] at ih
    simp [unshiftList, unshift, ih]

/-! ## Reading the tokens -/

/-- Inside the group of a number its two parameters stand at its level. -/
def standings : Spellings :=
  { entries := [(some function, .live 2 0 0), (some base, .live 2 1 0)] }

variable {room : Option Nat} {inner : Frame} {outer : List Frame} {level : Nat}

theorem any_lt_of_le {least greater : Nat} (hle : least ≤ greater)
    (h : room.any (· < least) = true) : room.any (· < greater) = true := by
  cases room with
  | none => cases h
  | some most =>
    simp only [Option.any_some, decide_eq_true_eq] at h ⊢
    omega

/-- A parameter is as many levels away as there are groups around. -/
theorem step_var (houter : outer.length = level + 1) {name : String} {position : Nat} {copy : Int}
    (hfind : standings.find? (some name) = some (.live 2 position copy)) :
    ({ inner, outer, spellings := standings } : Reading).step room (.var name)
      = .ok { inner := inner.add (.bound level position), outer, spellings := standings } := by
  have hdepth : ((level + 1 + 1 : Nat) : Int) - (2 : Nat) = level := by omega
  change Reading.use (some name) { inner, outer, spellings := standings } = _
  rw [Reading.use, hfind]
  simp only [Reading.level, houter, hdepth]

/-- Closing a group inside the number leaves both parameters where they stand. -/
theorem step_closing (room : Option Nat) (houter : outer.length = level + 1) (count : Nat) :
    ({ inner := { elements := (spine (level + 1) (count + 1)).reverse }, outer := inner :: outer,
       spellings := standings } : Reading).step room .closing
      = .ok { inner := inner.add (.abs [] (spine (level + 1) (count + 1))), outer,
              spellings := standings } := by
  have hstandings : standings.mapValues (·.closeLevel (outer.length + 2)) = standings := by
    rw [houter]
    simp [standings, OrderedTable.mapValues, Standing.closeLevel]
  have hnode : ({ elements := (spine (level + 1) (count + 1)).reverse } : Frame).node
      = .abs [] (spine (level + 1) (count + 1)) := by
    rw [Frame.node, List.reverse_reverse]
    cases count with
    | zero | succ => rfl
  change Reading.leave _ _ _ = _
  rw [Reading.leave]
  simp only [hstandings, hnode, Bool.false_eq_true, if_false]

/-- Reading the applications adds their spine to a group without elements, if there is room for the
    groups inside it: by induction on their number, wherever this group stands. -/
theorem foldlM_applied {inlined : Bool} {params : List Param} (houter : outer.length = level + 1)
    (hroom : room.any (· < level + 1 + 1) = false) (count : Nat) :
    (applied count).foldlM (Reading.step room)
        { inner := { inlined, params }, outer, spellings := standings }
      = if room.any (· < level + max count 1 + 1) then .error .nestedTooDeeply
        else .ok {
          inner := { inlined, params, elements := (spine level count).reverse }
          outer, spellings := standings } := by
  induction count using applied.induct generalizing inlined params outer level with
  | case1 =>
    have hnone : ¬ room.any (· < level + max 0 1 + 1) = true := by simpa using hroom
    rw [if_neg hnone, applied, foldlM_cons_of_ok (step_var houter rfl)]
    rfl
  | case2 =>
    have hnone : ¬ room.any (· < level + max 1 1 + 1) = true := by simpa using hroom
    rw [if_neg hnone, applied, foldlM_cons_of_ok (step_var houter rfl),
      foldlM_cons_of_ok (step_var houter rfl)]
    rfl
  | case3 count ih =>
    have hdeepest : level + max (count + 2) 1 + 1 = level + 1 + max (count + 1) 1 + 1 := by omega
    have hopening := step_opening room {
      inner := ({ inlined, params } : Frame).add (.bound level 0), outer, spellings := standings }
    rw [Reading.level, houter] at hopening
    rw [applied, foldlM_cons_of_ok (step_var houter rfl), hdeepest]
    cases hopen : room.any (· < level + 1 + 1 + 1) with
    | true =>
      rw [List.foldlM_cons, hopening, if_pos hopen, if_pos (any_lt_of_le (by omega) hopen)]
      rfl
    | false =>
      rw [if_neg (by rw [hopen]; exact Bool.false_ne_true)] at hopening
      rw [foldlM_cons_of_ok hopening, List.foldlM_append, ih (congrArg (· + 1) houter) hopen]
      split
      · rfl
      · exact foldlM_cons_of_ok (step_closing room houter count) []

/-- Reading the tokens of a number adds its tree to the implicit group. -/
theorem foldlM_written (count : Nat) :
    (written count).foldlM (Reading.step room) {}
      = if room.any (· < max count 1 + 1) then .error .nestedTooDeeply
        else .ok {
          inner := { elements := [(expression count).root] }
          spellings := { entries := [(some function, .closed 0), (some base, .closed 0)] } } := by
  have hopening : ({} : Reading).step room .opening
      = if room.any (· < 2) then .error .nestedTooDeeply else .ok { outer := [{}] } :=
    step_opening room {}
  have hfunction : ({ outer := [{}] } : Reading).step room (.func function)
      = .ok { inner := { params := [⟨0, 0⟩] }, outer := [{}]
              spellings := { entries := [(some function, .live 2 0 0)] } } := rfl
  have hbase : ({ inner := { params := [⟨0, 0⟩] }, outer := [{}]
                  spellings := { entries := [(some function, .live 2 0 0)] } } : Reading).step room
        (.func base)
      = .ok { inner := { params := [⟨0, 0⟩, ⟨1, 0⟩] }, outer := [{}]
              spellings := standings } := rfl
  have hclosing : ({ inner := { params := [⟨0, 0⟩, ⟨1, 0⟩], elements := (spine 0 count).reverse }
                     outer := [{}], spellings := standings } : Reading).step room .closing
      = .ok {
          inner := { elements := [(expression count).root] }
          spellings := { entries := [(some function, .closed 0), (some base, .closed 0)] } } := by
    have hnode : ({ params := [⟨0, 0⟩, ⟨1, 0⟩], elements := (spine 0 count).reverse } : Frame).node
        = (expression count).root := by
      rw [Frame.node, List.reverse_reverse]
      rfl
    rw [← hnode]
    rfl
  -- The group itself takes one level, before any application is read.
  cases hopen : room.any (· < 2) with
  | true =>
    rw [hopen] at hopening
    rw [written, List.foldlM_cons, hopening, if_pos (any_lt_of_le (by omega) hopen)]
    rfl
  | false =>
    rw [hopen] at hopening
    have happlied := @foldlM_applied room [{}] 0 false [⟨0, 0⟩, ⟨1, 0⟩] rfl hopen count
    rw [Nat.zero_add] at happlied
    rw [written, foldlM_cons_of_ok hopening, foldlM_cons_of_ok hfunction, foldlM_cons_of_ok hbase,
      List.foldlM_append, happlied]
    split
    · rfl
    · exact foldlM_cons_of_ok hclosing []

/-- What is built from the tokens of a number: its expression, if there is room for its groups. -/
theorem ofTokens_written (room : Option Nat) (count : Nat) :
    Expression.ofTokensWithin room (written count)
      = if room.any (· < max count 1 + 1) then .error .nestedTooDeeply
        else .ok (expression count) := by
  have hroot : (expression count).root.unshift 0 = (expression count).root :=
    congrArg (Node.abs _) (unshiftList_spine 0 count)
  have hnames : nameTable { entries := [(some function, .closed 0), (some base, .closed 0)] }
      = .ok (expression count).names := by cbv
  have hempty : ¬ (written count).isEmpty = true := Bool.false_ne_true
  rw [Expression.ofTokensWithin, if_neg hempty, foldlM_written]
  split
  · rfl
  · refine Outcome.bind_eq_ok.mpr ⟨_, rfl, Outcome.bind_eq_ok.mpr ⟨_, hnames, ?_⟩⟩
    exact congrArg (fun root => (.ok ⟨root, (expression count).names⟩ : Outcome Expression)) hroot

/-! ## There and back -/

/-- Writing a number fails exactly if the number is beyond the limit. Otherwise its tokens are one
    group, which is built into the expression of the number, wherever there is room for as many
    groups as this expression has levels. The expression is read as the number, its λ-term is the
    Church numeral, and reducing it changes nothing, wherever there is room for the calls that this
    takes, one more than there are levels. -/
theorem tokens_roundTrip (count : Nat) (limit : Int) :
    (tokens count limit
          = .error (.fault { kind := .numberTooLarge, subject := some (.number count) })
        ↔ limit < count)
      ∧ (count ≤ limit →
        tokens count limit = .ok (written count)
          ∧ Token.OneGroup (written count)
          ∧ (∀ room, Expression.ofTokensWithin room (written count)
              = if room.any (· < max count 1 + 1) then .error .nestedTooDeeply
                else .ok (expression count))
          ∧ (expression count).number? = some count
          ∧ (expression count).root.term [] = term count
          ∧ ∀ limits, (expression count).reduce limits
              = if max count 1 + 2 ≤ limits.nesting then .ok (expression count)
                else .error (.ofKind .expressionSizeLimit)) := by
  have heq := tokens_eq count limit
  refine ⟨⟨fun herror => ?_, fun hlimit => heq.trans (if_pos hlimit)⟩, fun hlimit => ?_⟩
  · by_contra hnot
    rw [heq, if_neg hnot] at herror
    cases herror
  · have htokens := heq.trans (if_neg (not_lt.mpr hlimit))
    have hcanonical : (expression count).root.Canonical :=
      canonical_abs.mpr ⟨headAtRest_spine 0 count, by simp, canonical_spine 0 count⟩
    have hnumber : (expression count).root.number? = some count := applications?_spine 0 count
    have hcalls : (expression count).root.calls = max count 1 + 2 := calls_spine _ 0 count
    refine ⟨htokens, oneGroup_tokens htokens, fun room => ofTokens_written room count, hnumber,
      hcanonical.number?_eq_some_iff.mp hnumber, ?_⟩
    rw [← hcalls]
    exact Expression.reduce_canonical hcanonical

/-- The number three is `λf x.f (f (f x))`, in four levels. It is not written if the limit is
    two. -/
theorem tokens_roundTrip_three :
    let written : List Token := [.opening, .func "$#$f", .func "$#$x", .var "$#$f", .opening,
      .var "$#$f", .opening, .var "$#$f", .var "$#$x", .closing, .closing, .closing]
    let expression : Expression := {
      root := .abs [⟨0, 0⟩, ⟨1, 0⟩]
        [.bound 0 0, .abs [] [.bound 1 0, .abs [] [.bound 2 0, .bound 2 1]]]
      names := { entries := [⟨"f", 1⟩, ⟨"x", 1⟩] } }
    tokens 3 255 = .ok written ∧ Token.OneGroup written
      ∧ Expression.ofTokens written = .ok expression ∧ expression.number? = some 3
      ∧ expression.root.term [] = .lam (.lam
        (.app (.var 1) (.app (.var 1) (.app (.var 1) (.var 0)))))
      ∧ expression.reduce { nesting := 5, copying := 0 } = .ok expression
      ∧ expression.reduce { nesting := 4, copying := 0 } = .error (.ofKind .expressionSizeLimit)
      ∧ tokens 3 2 = .error (.fault { kind := .numberTooLarge, subject := some (.number 3) }) := by
  obtain ⟨htokens, hgroup, hbuilds, hnumber, hterm, hreduce⟩ :=
    (tokens_roundTrip 3 255).2 (by decide)
  exact ⟨htokens, hgroup, hbuilds none, hnumber, hterm, hreduce { nesting := 5, copying := 0 },
    hreduce { nesting := 4, copying := 0 }, (tokens_roundTrip 3 2).1.mpr (by decide)⟩

end Numeral

end LambdaCalc
