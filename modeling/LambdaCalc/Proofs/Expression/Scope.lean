import LambdaCalc.Expression.Binding
import LambdaCalc.Proofs.Node.Names
import LambdaCalc.Proofs.Node.Term
import LambdaCalc.Proofs.Phrase.Basic

set_option autoImplicit false

/-! # The scope of what is being read

While a token stream is read, the standings of the spellings and the parameters of the open groups
have to tell the same story (`Binding.Sound`): a spelling is live exactly if it is in scope, and
then its level and position address the parameter that lexical scoping finds. Every way in which
reading changes its state keeps this.

Names are compared by their ids in the list of all spellings that the stream will turn out to have.
That list is known from the start: it is the spellings met so far, followed by the others in order
of first occurrence (`Binding.meetAll`). -/

namespace LambdaCalc.Binding

/-! ## Spellings in order of first occurrence -/

/-- The spellings met once a name has been read as well. -/
def meet (keys : List (Option String)) (name : Option String) : List (Option String) :=
  if name ∈ keys then keys else keys ++ [name]

/-- The spellings met once a token has been read as well. -/
def meetToken (keys : List (Option String)) (token : Token) : List (Option String) :=
  match token.kind with
  | .func | .var => meet keys token.name
  | .opening | .closing | .stray _ => keys

/-- The spellings met once further tokens have been read. -/
def meetAll (keys : List (Option String)) (tokens : List Token) : List (Option String) :=
  tokens.foldl meetToken keys

theorem prefix_meet (keys : List (Option String)) (name : Option String) :
    keys <+: meet keys name := by
  unfold meet
  split
  · exact List.prefix_refl keys
  · exact List.prefix_append keys [name]

theorem mem_meet (keys : List (Option String)) (name : Option String) : name ∈ meet keys name := by
  unfold meet
  split
  · assumption
  · exact List.mem_append_right _ List.mem_cons_self

theorem prefix_meetToken (keys : List (Option String)) (token : Token) :
    keys <+: meetToken keys token := by
  unfold meetToken
  split
  · exact prefix_meet keys token.name
  · exact prefix_meet keys token.name
  all_goals exact List.prefix_refl keys

theorem prefix_meetAll (keys : List (Option String)) (tokens : List Token) :
    keys <+: meetAll keys tokens := by
  induction tokens generalizing keys with
  | nil => exact List.prefix_refl keys
  | cons token tokens ih => exact (prefix_meetToken keys token).trans (ih _)

/-- Entering a spelling puts it in its place. -/
theorem keys_put (spellings : Spellings) (name : Option String) (standing : Standing) :
    (spellings.put name standing).keys = meet spellings.keys name := by
  unfold meet
  split
  · next h => exact spellings.keys_put_of_mem standing (spellings.contains_iff_mem_keys.mpr h)
  · next h =>
    refine spellings.keys_put_of_not_mem standing (Bool.eq_false_iff.mpr fun hmem => h ?_)
    exact spellings.contains_iff_mem_keys.mp hmem

theorem mem_keys_of_find? {spellings : Spellings} {name : Option String} {standing : Standing}
    (h : spellings.find? name = some standing) : name ∈ spellings.keys := by
  rw [← OrderedTable.contains_iff_mem_keys, OrderedTable.contains, h]
  rfl

/-- The id of a spelling is its place among all spellings of the stream. -/
theorem id_eq_idxOf {known : List (Option String)} {spellings : Spellings} {name : Option String}
    (h : meet spellings.keys name <+: known) : spellings.id name = known.idxOf name := by
  rw [← h.idxOf_eq_of_mem (mem_meet _ _), Spellings.id, meet]
  split
  · rfl
  · next hnot => rw [List.idxOf_append_of_notMem hnot, List.idxOf_of_notMem hnot]; simp

/-! ## Open groups -/

/-- The numbers of parameters of the open groups, from the inside out. -/
def counts (frames : List Frame) : List Nat := frames.map (·.params.length)

/-- The ids in scope inside the open groups, from the inside out. -/
def scope (frames : List Frame) : List Nat :=
  frames.flatMap fun frame => (frame.params.map (·.name)).reverse

/-- The elements read so far are well-scoped where they stand, and their names are less than a
    bound. -/
def ElementsSound (bound : Nat) : List Frame → Prop
  | [] => True
  | frame :: outer =>
      (∀ element ∈ frame.elements,
        element.WellScoped (counts (frame :: outer)) ∧ element.NamesWithin bound)
        ∧ ElementsSound bound outer

/-- A level and a position address the parameter that lexical scoping finds for a name. -/
def Addressed (known : List (Option String)) (frames : List Frame) (name : Option String)
    (level position : Nat) : Prop :=
  ∃ index, Node.index? (counts frames) ((frames.length : Int) - level) position = some index
    ∧ Phrase.resolve (scope frames) (known.idxOf name) = .var index

/-- The open groups and the standings of the spellings agree. -/
structure Sound (known : List (Option String)) (frames : List Frame) (spellings : Spellings) :
    Prop where
  keys : spellings.keys <+: known
  elements : ElementsSound known.length frames
  nodup : (scope frames).Nodup
  addressed {name : Option String} {level position : Nat} {copy : Int} :
    spellings.find? name = some (.live level position copy) →
      Addressed known frames name level position
  live {id : Nat} : id ∈ scope frames → ∃ name level position copy,
    spellings.find? name = some (.live level position copy) ∧ known.idxOf name = id

/-- Nothing is in scope before the first token. -/
theorem sound_start (known : List (Option String)) : Sound known [{}] {} where
  keys := List.nil_prefix
  elements := ⟨nofun, trivial⟩
  nodup := List.nodup_nil
  addressed := nofun
  live := nofun

theorem Sound.not_mem_scope {known : List (Option String)} {frames : List Frame}
    {spellings : Spellings} (h : Sound known frames spellings) {name : Option String}
    (hmem : name ∈ known)
    (hlive : ∀ level position copy, spellings.find? name ≠ some (.live level position copy)) :
    known.idxOf name ∉ scope frames := by
  intro hscope
  obtain ⟨name', level, position, copy, hfind, hid⟩ := h.live hscope
  obtain rfl := (List.idxOf_inj hmem).mp hid.symm
  exact hlive _ _ _ hfind

/-! ## Opening a group and binding its parameters -/

/-- An address is at a level that is open. -/
theorem level_le_of_index? {frames : List Frame} {level position index : Nat}
    (h : Node.index? (counts frames) ((frames.length : Int) - level) position = some index) :
    level ≤ frames.length := by
  by_contra hlevel
  rw [Node.index?_of_neg (by omega)] at h
  cases h

theorem Sound.enter {known : List (Option String)} {frames : List Frame} {spellings : Spellings}
    (h : Sound known frames spellings) (inlined : Bool) :
    Sound known ({ inlined } :: frames) spellings where
  keys := h.keys
  elements := ⟨nofun, h.elements⟩
  nodup := h.nodup
  addressed {_ level position _} hfind := by
    obtain ⟨index, hindex, hresolve⟩ := h.addressed hfind
    have hlevel := level_le_of_index? hindex
    -- The new group has no parameter yet, so that it only adds a level to cross.
    have hdepth : ((frames.length + 1 : Nat) : Int) - level - 1 = frames.length - level := by omega
    refine ⟨index, ?_, hresolve⟩
    show Node.index? (0 :: counts frames) ((frames.length + 1 : Nat) - level) position = some index
    rw [Node.index?, if_neg (by omega), hdepth, hindex]
    rfl
  live := h.live

/-- The innermost group with one more parameter. -/
def Frame.bind (frame : Frame) (param : Param) : Frame :=
  { frame with params := frame.params ++ [param] }

theorem scope_bind (frame : Frame) (param : Param) (outer : List Frame) :
    scope (frame.bind param :: outer) = param.name :: scope (frame :: outer) := by
  simp [scope, Frame.bind]

/-- A new parameter is the innermost one, which shifts the others. -/
theorem index?_bind {frame : Frame} {outer : List Frame} (param : Param) {depth : Int}
    {position index : Nat} (h : Node.index? (counts (frame :: outer)) depth position = some index) :
    Node.index? (counts (frame.bind param :: outer)) depth position = some (index + 1) := by
  simp only [counts, List.map_cons, Frame.bind, Node.index?, List.length_append, List.length_cons,
    List.length_nil] at h ⊢
  split_ifs at h ⊢ with hdepth hposition
  · -- One of the same group: there is one parameter more between it and the end of the list.
    simp only [Option.some.injEq] at h ⊢
    omega
  · omega
  · obtain ⟨outerIndex, houter, rfl⟩ := Option.map_eq_some_iff.mp h
    rw [houter]
    rfl

/-- A name that is not in scope can be bound in a group without elements. -/
theorem Sound.bind {known : List (Option String)} {inner : Frame} {outer : List Frame}
    {spellings : Spellings} {name : Option String} (h : Sound known (inner :: outer) spellings)
    (hempty : inner.elements = []) (hknown : meet spellings.keys name <+: known)
    (hlive : ∀ level position copy, spellings.find? name ≠ some (.live level position copy))
    (copy : Int) :
    Sound known (inner.bind { name := spellings.id name, copy } :: outer)
      (spellings.put name (.live (outer.length + 1) inner.params.length copy)) := by
  have hid := id_eq_idxOf hknown
  have hmem : name ∈ known := hknown.subset (mem_meet _ _)
  have hnot := h.not_mem_scope hmem hlive
  have hscope := scope_bind inner { name := spellings.id name, copy } outer
  rw [hid] at hscope ⊢
  refine ⟨?_, ⟨?_, h.elements.2⟩, ?_, ?_, ?_⟩
  · rw [keys_put]
    exact hknown
  · show ∀ element ∈ inner.elements, _
    rw [hempty]
    exact List.forall_mem_nil _
  · rw [hscope]
    exact List.nodup_cons.mpr ⟨hnot, h.nodup⟩
  · intro name' level position copy' hfind
    unfold Addressed
    rw [hscope]
    rcases OrderedTable.of_find?_put hfind with ⟨hname, hbound⟩ | ⟨hname, hfind⟩
    · cases hbound
      refine ⟨0, ?_, hname ▸ Phrase.resolve_cons_self _ _⟩
      simp [counts, Frame.bind, Node.index?]
    · obtain ⟨index, hindex, hresolve⟩ := h.addressed hfind
      -- Every other parameter is one place further out.
      have hne : known.idxOf name' ≠ known.idxOf name := by
        intro heq
        exact hname ((List.idxOf_inj hmem).mp heq.symm).symm
      refine ⟨index + 1, index?_bind _ hindex, ?_⟩
      rw [Phrase.resolve_cons_of_ne _ hne, hresolve]
      rfl
  · intro id hid'
    rw [hscope] at hid'
    rcases List.mem_cons.mp hid' with rfl | hid'
    · exact ⟨name, _, _, _, by rw [OrderedTable.find?_put, if_pos rfl], rfl⟩
    · obtain ⟨name', level, position, copy', hfind, rfl⟩ := h.live hid'
      refine ⟨name', level, position, copy', ?_, rfl⟩
      rw [OrderedTable.find?_put, if_neg, hfind]
      rintro rfl
      exact hlive _ _ _ hfind

/-! ## Adding elements -/

/-- What an element has to be in the innermost group. -/
def ElementSound (bound : Nat) (frames : List Frame) (element : Node) : Prop :=
  element.WellScoped (counts frames) ∧ element.NamesWithin bound

theorem Sound.add {known : List (Option String)} {inner : Frame} {outer : List Frame}
    {spellings : Spellings} (h : Sound known (inner :: outer) spellings) {element : Node}
    (helement : ElementSound known.length (inner :: outer) element) :
    Sound known (inner.add element :: outer) spellings :=
  ⟨h.keys, ⟨List.forall_mem_cons.mpr ⟨helement, h.elements.1⟩, h.elements.2⟩, h.nodup, h.addressed,
    h.live⟩

/-- A reference to a live name addresses the parameter that lexical scoping finds. -/
theorem Sound.reference {known : List (Option String)} {frames : List Frame} {spellings : Spellings}
    (h : Sound known frames spellings) {name : Option String} {level position : Nat} {copy : Int}
    (hfind : spellings.find? name = some (.live level position copy)) :
    ElementSound known.length frames (.bound ((frames.length : Int) - level) position)
      ∧ (Node.bound ((frames.length : Int) - level) position).term (counts frames)
        = Phrase.resolve (scope frames) (known.idxOf name) := by
  obtain ⟨index, hindex, hresolve⟩ := h.addressed hfind
  rw [hresolve, Node.term_bound hindex]
  exact ⟨⟨Node.wellScoped_bound.mpr ⟨index, hindex⟩, trivial⟩, rfl⟩

/-- A name that is not in scope is free. -/
theorem Sound.freeName {known : List (Option String)} {frames : List Frame} {spellings : Spellings}
    (h : Sound known frames spellings) {name : Option String} (hmem : name ∈ known)
    (hlive : ∀ level position copy, spellings.find? name ≠ some (.live level position copy)) :
    ElementSound known.length frames (.free (known.idxOf name))
      ∧ (Node.free (known.idxOf name)).term (counts frames)
        = Phrase.resolve (scope frames) (known.idxOf name) :=
  ⟨⟨trivial, List.idxOf_lt_length_of_mem hmem⟩,
    (Phrase.resolve_of_not_mem (h.not_mem_scope hmem hlive)).symm⟩

/-- A new spelling that is used becomes a free name, which concerns no other spelling. -/
theorem Sound.putConstant {known : List (Option String)} {frames : List Frame}
    {spellings : Spellings} (h : Sound known frames spellings) {name : Option String}
    (hknown : meet spellings.keys name <+: known) (hnew : spellings.find? name = none) :
    Sound known frames (spellings.put name .constant) where
  keys := by
    rw [keys_put]
    exact hknown
  elements := h.elements
  nodup := h.nodup
  addressed {name' _ _ _} hfind := by
    rcases OrderedTable.of_find?_put hfind with ⟨_, hconstant⟩ | ⟨_, hfind⟩
    · cases hconstant
    · exact h.addressed hfind
  live {id} hid := by
    obtain ⟨name', level, position, copy, hfind, hid'⟩ := h.live hid
    refine ⟨name', level, position, copy, ?_, hid'⟩
    rw [OrderedTable.find?_put, if_neg, hfind]
    rintro rfl
    rw [hnew] at hfind
    cases hfind

/-! ## Closing a group -/

theorem closeLevel_eq_live_iff {standing : Standing} {closed level position : Nat} {copy : Int} :
    standing.closeLevel closed = .live level position copy
      ↔ standing = .live level position copy ∧ level ≠ closed := by
  cases standing with
  | live level' position' copy' =>
    rw [Standing.closeLevel]
    by_cases hlevel : level' = closed
    · rw [if_pos hlevel]
      simp only [reduceCtorEq, false_iff, not_and, not_not, Standing.live.injEq]
      rintro ⟨rfl, _⟩
      exact hlevel
    · rw [if_neg hlevel]
      simp only [Standing.live.injEq]
      constructor
      · rintro ⟨rfl, hrest⟩
        exact ⟨⟨rfl, hrest⟩, hlevel⟩
      · exact And.left
  | closed | constant => simp [Standing.closeLevel]

theorem find?_closeLevel {spellings : Spellings} {closed : Nat} {name : Option String}
    {level position : Nat} {copy : Int} :
    (spellings.mapValues (·.closeLevel closed)).find? name = some (.live level position copy)
      ↔ spellings.find? name = some (.live level position copy) ∧ level ≠ closed := by
  rw [OrderedTable.find?_mapValues, Option.map_eq_some_iff]
  constructor
  · rintro ⟨standing, hfind, hstanding⟩
    obtain ⟨rfl, hlevel⟩ := closeLevel_eq_live_iff.mp hstanding
    exact ⟨hfind, hlevel⟩
  · rintro ⟨hfind, hlevel⟩
    exact ⟨_, hfind, closeLevel_eq_live_iff.mpr ⟨rfl, hlevel⟩⟩

/-- The parameters of the innermost group come first in scope, and are those at its level. -/
theorem Sound.mem_innermost_iff {known : List (Option String)} {inner : Frame} {outer : List Frame}
    {spellings : Spellings} (h : Sound known (inner :: outer) spellings) {name : Option String}
    {level position : Nat} {copy : Int}
    (hfind : spellings.find? name = some (.live level position copy)) :
    level = outer.length + 1 ↔ known.idxOf name ∈ (inner.params.map (·.name)).reverse := by
  obtain ⟨index, hindex, hresolve⟩ := h.addressed hfind
  have hscope : scope (inner :: outer) = (inner.params.map (·.name)).reverse ++ scope outer := rfl
  simp only [counts, List.map_cons, List.length_cons, Node.index?] at hindex
  constructor
  · rintro rfl
    rw [if_pos (by omega)] at hindex
    by_contra hnot
    -- Scoping would find it further out, with an index behind all those of the innermost group.
    rw [hscope, Phrase.resolve_append_of_not_mem _ hnot, Phrase.resolve] at hresolve
    split_ifs at hresolve hindex
    · have := Term.var.inj hresolve
      simp only [Option.some.injEq] at hindex
      simp only [List.length_reverse, List.length_map] at this
      omega
    · cases hresolve
  · intro hmem
    by_contra hlevel
    rw [if_neg (by omega)] at hindex
    obtain ⟨outerIndex, _, rfl⟩ := Option.map_eq_some_iff.mp hindex
    rw [hscope, Phrase.resolve_append_of_mem _ hmem] at hresolve
    have hlt := List.idxOf_lt_length_of_mem hmem
    rw [Term.var.inj hresolve] at hlt
    simp only [List.length_reverse, List.length_map] at hlt
    omega

/-- Closing the innermost group takes its parameters out of scope and leaves the others in it. -/
theorem Sound.pop {known : List (Option String)} {inner : Frame} {outer : List Frame}
    {spellings : Spellings} (h : Sound known (inner :: outer) spellings) :
    Sound known outer (spellings.mapValues (·.closeLevel (outer.length + 1))) := by
  have hscope : scope (inner :: outer) = (inner.params.map (·.name)).reverse ++ scope outer := rfl
  have hnodup := h.nodup
  rw [hscope, List.nodup_append] at hnodup
  obtain ⟨_, hnodup, hdisjoint⟩ := hnodup
  refine ⟨?_, h.elements.2, hnodup, ?_, ?_⟩
  · rw [OrderedTable.keys_mapValues]
    exact h.keys
  · intro name level position copy hfind
    obtain ⟨hfind, hlevel⟩ := find?_closeLevel.mp hfind
    have hnot := mt (h.mem_innermost_iff hfind).mpr hlevel
    obtain ⟨index, hindex, hresolve⟩ := h.addressed hfind
    have hle := level_le_of_index? hindex
    rw [List.length_cons] at hle
    have hdepth : ((outer.length + 1 : Nat) : Int) - level - 1 = outer.length - level := by omega
    simp only [counts, List.map_cons, List.length_cons, Node.index?] at hindex
    rw [if_neg (by omega), hdepth] at hindex
    -- The address crosses one level less, and scoping looks past as many names less.
    obtain ⟨outerIndex, houter, rfl⟩ := Option.map_eq_some_iff.mp hindex
    refine ⟨outerIndex, houter, ?_⟩
    rw [hscope, Phrase.resolve_append_of_not_mem _ hnot, Phrase.resolve] at hresolve
    rw [Phrase.resolve]
    split_ifs at hresolve ⊢
    · have := Term.var.inj hresolve
      simp only [List.length_reverse, List.length_map, Nat.add_right_cancel_iff] at this
      rw [this]
    · cases hresolve
  · intro id hid
    obtain ⟨name, level, position, copy, hfind, rfl⟩ := h.live (List.mem_append_right _ hid)
    refine ⟨name, level, position, copy, find?_closeLevel.mpr ⟨hfind, fun hlevel => ?_⟩, rfl⟩
    exact hdisjoint _ ((h.mem_innermost_iff hfind).mp hlevel) _ hid rfl

/-- A closed group is an element of the group around it, and its λ-term is that of its elements
    under its parameters. -/
theorem Sound.node {known : List (Option String)} {inner : Frame} {outer : List Frame}
    {spellings : Spellings} (h : Sound known (inner :: outer) spellings) :
    ElementSound known.length outer inner.node
      ∧ inner.node.term (counts outer)
        = .lams inner.params.length (.ofSpine
            (inner.elements.reverse.map (Node.term (counts (inner :: outer))))) := by
  have hscoped : (Node.abs inner.params inner.elements.reverse).WellScoped (counts outer) :=
    Node.wellScoped_abs.mpr fun element hmem =>
      (h.elements.1 element (List.mem_reverse.mp hmem)).1
  have hnames : (Node.abs inner.params inner.elements.reverse).NamesWithin known.length := by
    refine Node.namesWithin_abs.mpr ⟨fun param hparam => ?_, fun element hmem =>
      (h.elements.1 element (List.mem_reverse.mp hmem)).2⟩
    have hscope : param.name ∈ scope (inner :: outer) := List.mem_append_left _
      (List.mem_reverse.mpr (List.mem_map.mpr ⟨param, hparam, rfl⟩))
    obtain ⟨name, _, _, _, hfind, hid⟩ := h.live hscope
    rw [← hid]
    exact List.idxOf_lt_length_of_mem (h.keys.subset (mem_keys_of_find? hfind))
  obtain ⟨hcollapsed, hterm⟩ := Node.collapse_spec hscoped
  refine ⟨⟨hcollapsed, hnames.collapse⟩, hterm.trans ?_⟩
  rw [Node.term_abs]
  rfl

end LambdaCalc.Binding
