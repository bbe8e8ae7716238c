import LambdaCalc.Proofs.Expression.Groups
import LambdaCalc.Proofs.Keyword.Text
import LambdaCalc.Proofs.Node.Closed

set_option autoImplicit false

/-! # Reading a group behind a closed name

A stream that is one group may stand inside another group, behind elements and behind a name that
has been bound and closed again. If it does not use this name, it is read there as it is read alone
(`Binding.Reading.passed_of_oneGroup`): the group becomes the same tree, in which every name has the
next id. References are counted from the inside and levels from the outside, so that there is one
more level behind the standings of its spellings, and nothing else is different. -/

namespace LambdaCalc

open Node (Matches)

/-! ## Tables with an entry in front -/

namespace OrderedTable

variable {κ ν μ : Type}

/-- The table with another entry in front of all others. -/
def behind (key : κ) (value : ν) (table : OrderedTable κ ν) : OrderedTable κ ν :=
  { entries := (key, value) :: table.entries }

theorem mapValues_behind (f : ν → μ) (key : κ) (value : ν) (table : OrderedTable κ ν) :
    (table.behind key value).mapValues f = (table.mapValues f).behind key (f value) := rfl

variable [DecidableEq κ] {key other : κ}

theorem find?_behind (h : other ≠ key) (value : ν) (table : OrderedTable κ ν) :
    (table.behind key value).find? other = table.find? other := by
  have hne : (other == key) = false := beq_eq_false_iff_ne.mpr h
  rw [find?, behind, List.lookup_cons, hne]
  rfl

theorem put_behind (h : other ≠ key) (value value' : ν) (table : OrderedTable κ ν) :
    (table.behind key value).put other value' = (table.put other value').behind key value := by
  have hcontains : (table.behind key value).contains other = table.contains other := by
    rw [contains, contains, find?_behind h]
  unfold put
  rw [hcontains]
  split
  · simp [behind, h.symm]
  · rfl

end OrderedTable

namespace Binding

/-! ## Spellings behind a closed one -/

/-- The standing of a spelling one level further in. -/
def Standing.deepen : Standing → Standing
  | .live level position copy => .live (level + 1) position copy
  | .closed copy => .closed copy
  | .constant => .constant

theorem Standing.nextCopy_deepen (standing : Standing) :
    standing.deepen.nextCopy = standing.nextCopy := by
  cases standing <;> rfl

theorem Standing.closeLevel_deepen (level : Nat) (standing : Standing) :
    standing.deepen.closeLevel (level + 1) = (standing.closeLevel level).deepen := by
  cases standing with
  | live level' position copy =>
    simp only [deepen, closeLevel, Nat.add_right_cancel_iff]
    split <;> rfl
  | closed | constant => rfl

namespace Spellings

/-- The spellings one level further in, behind one that is closed. -/
def behind (name : Option String) (copy : Int) (spellings : Spellings) : Spellings :=
  OrderedTable.behind name (.closed copy) (spellings.mapValues Standing.deepen)

variable {name other : Option String} {copy : Int} {spellings : Spellings}

theorem find?_behind (h : other ≠ name) :
    (spellings.behind name copy).find? other = (spellings.find? other).map Standing.deepen := by
  rw [behind, OrderedTable.find?_behind h, OrderedTable.find?_mapValues]

theorem id_behind (h : other ≠ name) : (spellings.behind name copy).id other
    = spellings.id other + 1 := by
  have hkeys : (spellings.behind name copy).keys = name :: spellings.keys :=
    congrArg (name :: ·) (OrderedTable.keys_mapValues _ _)
  rw [Spellings.id, Spellings.id, hkeys, List.idxOf_cons_ne _ h.symm]

theorem put_behind (h : other ≠ name) (standing : Standing) :
    (spellings.behind name copy).put other standing.deepen
      = behind name copy (spellings.put other standing) := by
  rw [behind, behind, OrderedTable.put_behind h, OrderedTable.mapValues_put]

theorem closeLevel_behind (level : Nat) :
    (spellings.behind name copy).mapValues (·.closeLevel (level + 1))
      = behind name copy (spellings.mapValues (·.closeLevel level)) := by
  rw [behind, behind, OrderedTable.mapValues_behind]
  refine congrArg (OrderedTable.behind name _) (congrArg OrderedTable.mk ?_)
  simp only [OrderedTable.mapValues, List.map_map]
  exact List.map_congr_left fun entry _ =>
    congrArg (Prod.mk entry.1) (entry.2.closeLevel_deepen level)

end Spellings

/-! ## Groups with the next names -/

/-- A group with as many parameters and with matching elements, in which every name has the next
    id. -/
structure Frame.Behind (frame frame' : Frame) : Prop where
  inlined : frame.inlined = frame'.inlined
  params : List.Forall₂ (Param.Named (· + 1 = ·)) frame.params frame'.params
  elements : List.Forall₂ (Matches (· + 1 = ·) (Param.Named (· + 1 = ·))) frame.elements
    frame'.elements

namespace Frame.Behind

variable {frame frame' : Frame}

theorem start (inlined : Bool) : Frame.Behind { inlined } { inlined } := ⟨rfl, .nil, .nil⟩

theorem add (h : frame.Behind frame') {element element' : Node}
    (helement : element.Matches (· + 1 = ·) (Param.Named (· + 1 = ·)) element') :
    (frame.add element).Behind (frame'.add element') :=
  ⟨h.inlined, h.params, .cons helement h.elements⟩

theorem bind (h : frame.Behind frame') {param param' : Param}
    (hparam : Param.Named (· + 1 = ·) param param') :
    (frame.bind param).Behind (frame'.bind param') :=
  ⟨h.inlined, List.rel_append h.params (.cons hparam .nil), h.elements⟩

theorem node (h : frame.Behind frame') :
    frame.node.Matches (· + 1 = ·) (Param.Named (· + 1 = ·)) frame'.node :=
  (Matches.abs h.params (List.forall₂_reverse_iff.mpr h.elements)).collapse

theorem isEmpty_elements (h : frame.Behind frame') :
    frame.elements.isEmpty = frame'.elements.isEmpty := by
  have helements := h.elements
  generalize frame.elements = elements at helements ⊢
  generalize frame'.elements = elements' at helements ⊢
  cases helements <;> rfl

end Frame.Behind

namespace Reading

/-- Alone, a group is open and nothing has been read outside it. Elsewhere the same group is open,
    inside another one, and behind a closed name that is not used in it. -/
structure Behind (name : Option String) (copy : Int) (around : Frame) (reading reading' : Reading) :
    Prop where
  inner : reading.inner.Behind reading'.inner
  outer : ∃ frames frames', reading.outer = frames ++ [({} : Frame)]
    ∧ reading'.outer = frames' ++ [around, ({} : Frame)]
    ∧ List.Forall₂ Frame.Behind frames frames'
  spellings : reading'.spellings = reading.spellings.behind name copy

/-- The group has been closed, alone and elsewhere. -/
def Passed (name : Option String) (copy : Int) (around : Frame) (reading reading' : Reading) :
    Prop :=
  ∃ node node', node.Matches (· + 1 = ·) (Param.Named (· + 1 = ·)) node'
    ∧ reading = { inner := ({} : Frame).add node, spellings := reading.spellings }
    ∧ reading' = { inner := around.add node', outer := [{}]
                   spellings := reading.spellings.behind name copy }

variable {name : Option String} {copy : Int} {around : Frame} {room room' : Option Nat}
  {reading reading' next next' : Reading}

theorem Behind.level_eq (h : Behind name copy around reading reading') :
    reading'.level = reading.level + 1 := by
  obtain ⟨frames, frames', houter, houter', hframes⟩ := h.outer
  rw [level, level, houter, houter', List.length_append, List.length_append, hframes.length_eq]
  rfl

theorem Behind.enter (h : Behind name copy around reading reading') {inlined : Bool}
    (hnext : reading.enter room inlined = .ok next)
    (hnext' : reading'.enter room' inlined = .ok next') : Behind name copy around next next' := by
  obtain ⟨frames, frames', houter, houter', hframes⟩ := h.outer
  rw [eq_of_enter hnext, eq_of_enter hnext']
  refine ⟨.start inlined, ⟨reading.inner :: frames, reading'.inner :: frames', ?_, ?_, ?_⟩,
    h.spellings⟩
  · rw [houter, List.cons_append]
  · rw [houter', List.cons_append]
  · exact .cons h.inner hframes

theorem Behind.bind (h : Behind name copy around reading reading') {other : Option String}
    (hother : other ≠ name) (hnext : reading.bind other = .ok next)
    (hnext' : reading'.bind other = .ok next') : Behind name copy around next next' := by
  obtain ⟨_, _, rfl, rfl⟩ := bind_eq_ok_iff.mp hnext
  obtain ⟨_, _, rfl, rfl⟩ := bind_eq_ok_iff.mp hnext'
  have hcopy : ((reading'.spellings.find? other).elim 0 Standing.nextCopy)
      = (reading.spellings.find? other).elim 0 Standing.nextCopy := by
    rw [h.spellings, Spellings.find?_behind hother]
    cases reading.spellings.find? other with
    | none => rfl
    | some standing => exact standing.nextCopy_deepen
  refine ⟨h.inner.bind ?_, h.outer, ?_⟩
  · rw [h.spellings]
    exact (Spellings.id_behind hother).symm
  · rw [hcopy, h.spellings, h.level_eq, ← h.inner.params.length_eq]
    exact Spellings.put_behind hother (.live _ _ _)

theorem Behind.use (h : Behind name copy around reading reading') {other : Option String}
    (hother : other ≠ name) (hnext : reading.use other = .ok next)
    (hnext' : reading'.use other = .ok next') : Behind name copy around next next' := by
  have hid : reading'.spellings.id other = reading.spellings.id other + 1 := by
    rw [h.spellings, Spellings.id_behind hother]
  have hfind : reading'.spellings.find? other
      = (reading.spellings.find? other).map Standing.deepen := by
    rw [h.spellings, Spellings.find?_behind hother]
  unfold Reading.use at hnext hnext'
  rw [hfind, hid, h.level_eq] at hnext'
  cases hstanding : reading.spellings.find? other with
  | none =>
    rw [hstanding] at hnext hnext'
    obtain rfl := Except.ok.inj hnext
    obtain rfl := Except.ok.inj hnext'
    refine ⟨h.inner.add (.free rfl), h.outer, ?_⟩
    rw [h.spellings]
    exact Spellings.put_behind hother .constant
  | some standing =>
    rw [hstanding] at hnext hnext'
    cases standing with
    | live level position copy =>
      obtain rfl := Except.ok.inj hnext
      obtain rfl := Except.ok.inj hnext'
      have hdepth : ((reading.level + 1 : Nat) : Int) - ((level + 1 : Nat) : Int)
          = (reading.level : Int) - level := by omega
      rw [hdepth]
      exact ⟨h.inner.add (.bound _ _), h.outer, h.spellings⟩
    | closed copy => cases hnext
    | constant =>
      obtain rfl := Except.ok.inj hnext
      obtain rfl := Except.ok.inj hnext'
      exact ⟨h.inner.add (.free rfl), h.outer, h.spellings⟩

/-- Closing groups: by induction on those around the innermost one. -/
theorem leave_behind {inner inner' : Frame} {spellings : Spellings} {frames frames' : List Frame}
    (hinner : inner.Behind inner') (hframes : List.Forall₂ Frame.Behind frames frames')
    (hnext : leave inner spellings (frames ++ [({} : Frame)]) = .ok next)
    (hnext' : leave inner' (spellings.behind name copy) (frames' ++ [around, ({} : Frame)])
      = .ok next') :
    Behind name copy around next next' ∨ Passed name copy around next next' := by
  induction hframes generalizing inner inner' spellings with
  | nil =>
    rw [List.nil_append, leave] at hnext hnext'
    cases hinlined : inner.inlined with
    | true =>
      rw [hinlined] at hnext
      cases hnext
    | false =>
      rw [← hinner.inlined, hinlined] at hnext'
      rw [hinlined] at hnext
      obtain rfl := Except.ok.inj hnext
      obtain rfl := Except.ok.inj hnext'
      exact .inr ⟨inner.node, inner'.node, hinner.node, rfl,
        congrArg (Reading.mk _ _) (Spellings.closeLevel_behind 2)⟩
  | @cons frame frame' frames frames' hframe hframes ih =>
    -- There is one group more around, so that every level is one higher.
    have hlength : (frames' ++ [around, ({} : Frame)]).length + 2
        = (frames ++ [({} : Frame)]).length + 2 + 1 := by
      rw [List.length_append, List.length_append, hframes.length_eq]
      rfl
    rw [List.cons_append, leave] at hnext hnext'
    rw [hlength, Spellings.closeLevel_behind, ← hinner.inlined] at hnext'
    have hadd := hframe.add hinner.node
    cases hinlined : inner.inlined with
    | true =>
      rw [hinlined] at hnext hnext'
      exact ih hadd hnext hnext'
    | false =>
      rw [hinlined] at hnext hnext'
      obtain rfl := Except.ok.inj hnext
      obtain rfl := Except.ok.inj hnext'
      exact .inl ⟨hadd, ⟨frames, frames', rfl, rfl, hframes⟩, rfl⟩

/-- Reading a token that does not have the closed name: the group goes on, or has been closed. -/
theorem Behind.step (h : Behind name copy around reading reading') {token : Token}
    (htoken : token.Named (some · ≠ name)) (hnext : reading.step room token = .ok next)
    (hnext' : reading'.step room' token = .ok next') :
    Behind name copy around next next' ∨ Passed name copy around next next' := by
  obtain ⟨kind, other⟩ := token
  cases kind with
  | opening => exact .inl (h.enter hnext hnext')
  | closing =>
    obtain ⟨frames, frames', houter, houter', hframes⟩ := h.outer
    unfold Reading.step at hnext hnext'
    rw [houter] at hnext
    rw [houter', h.spellings] at hnext'
    exact leave_behind h.inner hframes hnext hnext'
  | func =>
    unfold Reading.step at hnext hnext'
    rw [← h.inner.isEmpty_elements] at hnext'
    obtain ⟨other, rfl, hother⟩ := htoken
    by_cases hempty : reading.inner.elements.isEmpty
    · simp only [if_pos hempty] at hnext hnext'
      exact .inl (h.bind hother hnext hnext')
    · simp only [if_neg hempty] at hnext hnext'
      obtain ⟨entered, henter, hbind⟩ := Outcome.bind_eq_ok.mp hnext
      obtain ⟨entered', henter', hbind'⟩ := Outcome.bind_eq_ok.mp hnext'
      exact .inl ((h.enter henter henter').bind hother hbind hbind')
  | var =>
    obtain ⟨other, rfl, hother⟩ := htoken
    exact .inl (h.use hother hnext hnext')
  | stray label => cases hnext

/-- Reading tokens inside the group: by induction on them. -/
theorem Behind.foldlM {tokens : List Token} {depth depth' : Nat}
    (h : Behind name copy around reading reading')
    (hinside : Inside depth (marks reading.frames))
    (hdepth : Token.depthAfter depth tokens = some depth')
    (htokens : ∀ token ∈ tokens, token.Named (some · ≠ name))
    (hnext : tokens.foldlM (Reading.step room) reading = .ok next)
    (hnext' : tokens.foldlM (Reading.step room') reading' = .ok next') :
    Behind name copy around next next' := by
  induction tokens generalizing reading reading' depth with
  | nil =>
    obtain rfl := Except.ok.inj hnext
    obtain rfl := Except.ok.inj hnext'
    exact h
  | cons token tokens ih =>
    obtain ⟨between, hfirst, hrest⟩ := Option.bind_eq_some_iff.mp hdepth
    obtain ⟨hhead, hothers⟩ := List.forall_mem_cons.mp htokens
    rw [List.foldlM_cons] at hnext hnext'
    obtain ⟨state, hstep, hnext⟩ := Outcome.bind_eq_ok.mp hnext
    obtain ⟨state', hstep', hnext'⟩ := Outcome.bind_eq_ok.mp hnext'
    have hstill := (step_inside room hinside hfirst).2 state hstep
    rcases h.step hhead hstep hstep' with hbehind | ⟨_, _, _, hpassed, _⟩
    · exact ih hbehind hstill hrest hothers hnext hnext'
    · -- The group is open for as long as its tokens are read.
      rw [hpassed] at hstill
      exact absurd hstill not_inside_singleton

/-- Reading a stream that is one group, alone and elsewhere. -/
theorem passed_of_oneGroup {tokens : List Token} (hgroup : Token.OneGroup tokens)
    (htokens : ∀ token ∈ tokens, token.Named (some · ≠ name))
    (hnext : tokens.foldlM (Reading.step room) {} = .ok next)
    (hnext' : tokens.foldlM (Reading.step room')
      { inner := around, outer := [{}], spellings := Spellings.behind name copy {} } = .ok next') :
    Passed name copy around next next' := by
  obtain ⟨inner, rfl, hdepth⟩ := hgroup
  obtain ⟨-, hinner⟩ := List.forall_mem_cons.mp htokens
  obtain ⟨hinner, hlast⟩ := List.forall_mem_append.mp hinner
  rw [List.foldlM_cons] at hnext hnext'
  obtain ⟨opened, hopen, hnext⟩ := Outcome.bind_eq_ok.mp hnext
  obtain ⟨opened', hopen', hnext'⟩ := Outcome.bind_eq_ok.mp hnext'
  obtain rfl := eq_of_enter hopen
  obtain rfl := eq_of_enter hopen'
  rw [List.foldlM_append] at hnext hnext'
  obtain ⟨read, hread, hnext⟩ := Outcome.bind_eq_ok.mp hnext
  obtain ⟨read', hread', hnext'⟩ := Outcome.bind_eq_ok.mp hnext'
  have hbehind : Behind name copy around read read' :=
    Behind.foldlM ⟨.start false, ⟨[], [], rfl, rfl, .nil⟩, rfl⟩ .group hdepth hinner hread hread'
  have hinside := (foldlM_inside room .group hdepth).2 read hread
  obtain ⟨closed, hclose, hnext⟩ := Outcome.bind_eq_ok.mp hnext
  obtain ⟨closed', hclose', hnext'⟩ := Outcome.bind_eq_ok.mp hnext'
  obtain rfl := Except.ok.inj hnext
  obtain rfl := Except.ok.inj hnext'
  rcases hbehind.step (hlast _ List.mem_cons_self) hclose hclose' with hbehind | hpassed
  · -- Only the implicit group is open at the end.
    obtain ⟨left, hleft, houter⟩ := leave_group read.spellings hinside
    obtain rfl := Except.ok.inj (hleft.symm.trans hclose)
    obtain ⟨frames, _, hframes, _, _⟩ := hbehind.outer
    rw [houter] at hframes
    cases frames <;> cases hframes
  · exact hpassed

end Reading

end Binding

end LambdaCalc
