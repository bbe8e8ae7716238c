import LambdaCalc.Proofs.Node.Budget
import LambdaCalc.Proofs.Node.Copies
import LambdaCalc.Proofs.Node.Depths

set_option autoImplicit false

/-! # What a copy is

A copy gets fresh copy ids for its parameters as they stand from left to right, those of an
abstraction before those inside it: each is as far behind the counter of its name as there are
parameters with this name before it (`Param.Renewed`). With this, with what becomes of the
references and with when a copy exceeds its budget, copies are described in full
(`Node.copyOf_unless_exceeding`). -/

namespace LambdaCalc

namespace Param

/-! ## Consecutive ids -/

/-- How many of some parameters have a name. -/
def countName (name : Nat) (params : List Param) : Nat := (params.map (·.name)).count name

theorem countName_append (name : Nat) (params more : List Param) :
    countName name (params ++ more) = countName name params + countName name more := by
  rw [countName, List.map_append, List.count_append]
  rfl

/-- Parameters with fresh copy ids in the place of others. -/
structure Renewed (counters counters' : List Int) (params params' : List Param) : Prop where
  length_eq : params'.length = params.length
  /-- Each keeps its name, and its copy id is as far behind the counter of the name as there are
      parameters with this name before it. -/
  consecutive : ∀ (place : Nat) (param : Param), params[place]? = some param →
    ∃ counter, counters[param.name]? = some counter
      ∧ params'[place]? = some ⟨param.name, counter + countName param.name (params.take place)⟩
  /-- Each counter has gone up by the number of parameters with its name. -/
  counted : ∀ name : Nat, counters'[name]? = counters[name]?.map (· + (countName name params : Int))

variable {counters counters' counters'' : List Int} {params params' more more' : List Param}

theorem Renewed.nil (counters : List Int) : Renewed counters counters [] [] where
  length_eq := rfl
  consecutive := nofun
  counted name := by simp [countName]

/-- What is renewed behind others goes on from the counters that they have left. -/
theorem Renewed.append (h : Renewed counters counters' params params')
    (h' : Renewed counters' counters'' more more') :
    Renewed counters counters'' (params ++ more) (params' ++ more') where
  length_eq := by rw [List.length_append, List.length_append, h.length_eq, h'.length_eq]
  consecutive := by
    intro place param hplace
    by_cases hlt : place < params.length
    · rw [List.getElem?_append_left hlt] at hplace
      obtain ⟨counter, hcounter, hparam⟩ := h.consecutive place param hplace
      refine ⟨counter, hcounter, ?_⟩
      rw [List.getElem?_append_left (h.length_eq ▸ hlt), hparam,
        List.take_append_of_le_length hlt.le]
    · -- The counter has gone up by the parameters in front, which are counted at this place too.
      have hle := Nat.le_of_not_lt hlt
      rw [List.getElem?_append_right hle] at hplace
      obtain ⟨reached, hreached, hparam⟩ := h'.consecutive _ param hplace
      rw [h.counted] at hreached
      obtain ⟨counter, hcounter, rfl⟩ := Option.map_eq_some_iff.mp hreached
      refine ⟨counter, hcounter, ?_⟩
      rw [List.getElem?_append_right (h.length_eq ▸ hle), h.length_eq, hparam, List.take_append,
        List.take_of_length_le hle, countName_append, Int.natCast_add, Int.add_assoc]
  counted := by
    intro name
    rw [h'.counted, h.counted, Option.map_map]
    congr 1
    funext counter
    rw [Function.comp_apply, countName_append, Int.natCast_add, Int.add_assoc]

/-- A copy id that is handed out renews a parameter. -/
theorem renewed_freshCopy {table table' : NameTable} {param : Param} {copy : Int}
    (h : table.freshCopy param.name = .ok (copy, table')) :
    Renewed table.copies table'.copies [param] [⟨param.name, copy⟩] := by
  unfold NameTable.freshCopy at h
  split at h
  · next entry hentry =>
    obtain ⟨rfl, rfl⟩ := Prod.mk.inj (Except.ok.inj h)
    refine ⟨rfl, fun place param' hplace => ?_, fun name => ?_⟩
    · obtain ⟨rfl, rfl⟩ : place = 0 ∧ param' = param := by
        cases place with
        | zero => exact ⟨rfl, (Option.some.inj hplace).symm⟩
        | succ => cases hplace
      refine ⟨entry.nextCopy, ?_, ?_⟩
      · rw [NameTable.copies, List.getElem?_map, hentry]
        rfl
      · simp [countName]
    · rw [NameTable.copies_bump, List.getElem?_modify]
      by_cases hname : param.name = name
      · simp [countName, hname]
      · simp [countName, hname]
  · cases h

end Param

open Param (Renewed)

namespace Node

theorem copyParams_renewed {params params' : List Param} {table table' : NameTable}
    (h : Param.copyList params table = .ok (params', table')) :
    Renewed table.copies table'.copies params params' := by
  induction params generalizing params' table table' with
  | nil =>
    obtain ⟨rfl, rfl⟩ := Copying.pure_inj h
    exact .nil _
  | cons param params ih =>
    rw [Param.copyList_cons] at h
    obtain ⟨copy, between, hcopy, h⟩ := Copying.bind_eq_ok.mp h
    obtain ⟨rest, _, hrest, h⟩ := Copying.bind_eq_ok.mp h
    obtain ⟨rfl, rfl⟩ := Copying.pure_inj h
    exact (Param.renewed_freshCopy hcopy).append (ih hrest)

mutual

/-- A copy renews the parameters of a tree. -/
theorem copy_renewed {budget : Nat} {offset : Int} (level : Int) :
    (node : Node) → {node' : Node} → {table table' : NameTable} →
    node.copy budget offset level table = .ok (node', table') →
    Renewed table.copies table'.copies node.allParams node'.allParams
  | .abs params spine, _, _, _, h => by
    obtain ⟨params', _, spine', hparams, hspine, rfl⟩ := exists_of_copy_abs h
    exact (copyParams_renewed hparams).append (copyList_renewed (level + 1) spine hspine)
  | .bound _ _, _, _, _, h => by
    obtain ⟨rfl, rfl⟩ := eq_of_copy_bound h
    exact .nil _
  | .free _, _, _, _, h => by
    obtain ⟨rfl, rfl⟩ := eq_of_copy_free h
    exact .nil _
  | .hole, _, _, _, h => absurd h Copying.throw_ne_ok

/-- Copies of the elements of a spine renew their parameters, from the first element to the last. -/
theorem copyList_renewed {budget : Nat} {offset : Int} (level : Int) :
    (nodes : List Node) → {nodes' : List Node} → {table table' : NameTable} →
    copyList budget offset level nodes table = .ok (nodes', table') →
    Renewed table.copies table'.copies (allParamsList nodes) (allParamsList nodes')
  | [], _, _, _, h => by
    obtain ⟨rfl, rfl⟩ := Copying.pure_inj h
    exact .nil _
  | node :: nodes, _, _, _, h => by
    obtain ⟨node', _, hnode, h⟩ := Copying.bind_eq_ok.mp h
    obtain ⟨nodes', _, hnodes, h⟩ := Copying.bind_eq_ok.mp h
    obtain ⟨rfl, rfl⟩ := Copying.pure_inj h
    exact (copy_renewed level node hnode).append (copyList_renewed level nodes hnodes)

end

/-- A tree is a copy of another one, which stands at a level, for a place that is `offset + 1`
    levels further in. -/
structure CopyOf (offset level : Int) (table table' : NameTable) (node node' : Node) : Prop where
  /-- But for copy ids the copy is the original in which the references that leave it are raised. -/
  alike : node'.alike (node.mapDepths (raisedDepth (offset + 1)) level) = true
  renewed : Renewed table.copies table'.copies node.allParams node'.allParams
  sameNames : table'.SameNames table

/-- A copy exceeds the budget exactly if its deepest node does; otherwise it is returned, and it is
    a copy in all respects. -/
theorem copyOf_unless_exceeding {budget : Nat} {offset level : Int} {node : Node}
    {table : NameTable} (hwhole : node.hasHole = false) (hnames : node.NamesWithin table.size) :
    (node.copy budget offset level table = .error (.ofKind .expressionSizeLimit)
        ↔ budget < offset + level + node.levelsBelow)
      ∧ (offset + level + node.levelsBelow ≤ budget →
          ∃ result, node.copy budget offset level table = .ok result)
      ∧ ∀ node' table', node.copy budget offset level table = .ok (node', table') →
          CopyOf offset level table table' node node' := by
  have hstops : Copying.StopsIff table.size _ _ (node.copy budget offset level) :=
    copy_stopsIff hwhole hnames
  obtain ⟨hexceeds, hreturns⟩ := hstops rfl
  refine ⟨⟨fun herror => ?_, hexceeds⟩, fun hle => hreturns (Int.not_lt.mpr hle), ?_⟩
  · by_contra hnot
    obtain ⟨result, hresult⟩ := hreturns hnot
    cases hresult.symm.trans herror
  · intro node' table' h
    exact ⟨decide_eq_true (copy_bare h), copy_renewed level node h, (copy_ensures hnames h).2⟩

/-- The tree has two levels below its root, and two parameters of each name. From level one a copy
    for a place three levels further in needs a budget of five. -/
theorem copyOf_unless_exceeding_renewing :
    (Node.abs [⟨0, 0⟩, ⟨1, 0⟩] [.abs [⟨0, 7⟩] [.bound 1 1, .bound 3 0], .abs [⟨1, 2⟩] [],
        .free 1]).hasHole = false
      ∧ (Node.abs [⟨0, 0⟩, ⟨1, 0⟩] [.abs [⟨0, 7⟩] [.bound 1 1, .bound 3 0], .abs [⟨1, 2⟩] [],
          .free 1]).NamesWithin 2
      ∧ (Node.abs [⟨0, 0⟩, ⟨1, 0⟩] [.abs [⟨0, 7⟩] [.bound 1 1, .bound 3 0], .abs [⟨1, 2⟩] [],
          .free 1]).copy 4 2 1 { entries := [⟨"x", 4⟩, ⟨"y", 9⟩] }
        = .error (.ofKind .expressionSizeLimit)
      ∧ (Node.abs [⟨0, 0⟩, ⟨1, 0⟩] [.abs [⟨0, 7⟩] [.bound 1 1, .bound 3 0], .abs [⟨1, 2⟩] [],
          .free 1]).copy 5 2 1 { entries := [⟨"x", 4⟩, ⟨"y", 9⟩] }
        = .ok (.abs [⟨0, 4⟩, ⟨1, 9⟩] [.abs [⟨0, 5⟩] [.bound 1 1, .bound 6 0], .abs [⟨1, 10⟩] [],
          .free 1], { entries := [⟨"x", 6⟩, ⟨"y", 11⟩] })
      ∧ CopyOf 2 1 { entries := [⟨"x", 4⟩, ⟨"y", 9⟩] } { entries := [⟨"x", 6⟩, ⟨"y", 11⟩] }
        (.abs [⟨0, 0⟩, ⟨1, 0⟩] [.abs [⟨0, 7⟩] [.bound 1 1, .bound 3 0], .abs [⟨1, 2⟩] [], .free 1])
        (.abs [⟨0, 4⟩, ⟨1, 9⟩] [.abs [⟨0, 5⟩] [.bound 1 1, .bound 6 0], .abs [⟨1, 10⟩] [],
          .free 1]) := by
  have hwhole : (Node.abs [⟨0, 0⟩, ⟨1, 0⟩] [.abs [⟨0, 7⟩] [.bound 1 1, .bound 3 0],
      .abs [⟨1, 2⟩] [], .free 1]).hasHole = false := rfl
  have hnames : (Node.abs [⟨0, 0⟩, ⟨1, 0⟩] [.abs [⟨0, 7⟩] [.bound 1 1, .bound 3 0],
      .abs [⟨1, 2⟩] [], .free 1]).NamesWithin
      (NameTable.size { entries := [⟨"x", 4⟩, ⟨"y", 9⟩] }) :=
    ⟨by decide, ⟨by decide, trivial, trivial, trivial⟩, ⟨by decide, trivial⟩, Nat.one_lt_two,
      trivial⟩
  have hcopy :
      (Node.abs [⟨0, 0⟩, ⟨1, 0⟩] [.abs [⟨0, 7⟩] [.bound 1 1, .bound 3 0], .abs [⟨1, 2⟩] [],
          .free 1]).copy 5 2 1 { entries := [⟨"x", 4⟩, ⟨"y", 9⟩] }
        = .ok (.abs [⟨0, 4⟩, ⟨1, 9⟩] [.abs [⟨0, 5⟩] [.bound 1 1, .bound 6 0], .abs [⟨1, 10⟩] [],
          .free 1], { entries := [⟨"x", 6⟩, ⟨"y", 11⟩] }) := rfl
  refine ⟨hwhole, hnames, ?_, hcopy, ?_⟩
  · exact (copyOf_unless_exceeding hwhole hnames).1.mpr (by decide)
  · exact (copyOf_unless_exceeding hwhole hnames).2.2 _ _ hcopy

end Node

end LambdaCalc
