import LambdaCalc.Proofs.Expression.Roles
import LambdaCalc.Proofs.Layout.Basic

set_option autoImplicit false

/-! # Names that are used become leaves

Every name that a token stream uses becomes one leaf of the tree that is built, in the same order
(`Expression.uses_of_ofTokens`). If the stream binds the name anywhere, the leaf is a reference, and
it addresses a parameter of this name. Otherwise it is a free name.

The leaves of the open groups are followed from token to token (`Binding.Reading.Used`). Closing a
group moves its elements one level further out if it dissolves, and the references among them still
address the same parameters (`Node.uses_collapse`). -/

namespace LambdaCalc

/-! ## The leaves of a tree -/

/-- What a leaf of a tree stands for. -/
inductive Use where
  /-- A parameter of a name. -/
  | parameter (name : Nat)
  /-- A free name. -/
  | free (name : Nat)
  /-- Nothing: a reference that addresses no parameter, or a missing term. -/
  | nothing
deriving DecidableEq, Repr

/-- What a reference stands for. -/
def Scopes.use (scopes : Scopes Param) (depth : Int) (position : Nat) : Use :=
  match scopes.resolve depth position with
  | .ok param => .parameter param.name
  | .error _ => .nothing

namespace Node

mutual

/-- What the leaves of a tree stand for, from left to right. -/
def uses (scopes : Scopes Param) : Node → List Use
  | .abs params spine => usesList (scopes.push params) spine
  | .bound depth position => [scopes.use depth position]
  | .free name => [.free name]
  | .hole => [.nothing]

/-- What the leaves of the elements of a spine stand for. -/
def usesList (scopes : Scopes Param) : List Node → List Use
  | [] => []
  | node :: nodes => node.uses scopes ++ usesList scopes nodes

end

theorem uses_abs (scopes : Scopes Param) (params : List Param) (spine : List Node) :
    (Node.abs params spine).uses scopes = spine.flatMap (uses (scopes.push params)) := by
  have hlist (scopes : Scopes Param) (nodes : List Node) :
      usesList scopes nodes = nodes.flatMap (uses scopes) := by
    induction nodes with
    | nil => rfl
    | cons node nodes ih => rw [usesList, ih, List.flatMap_cons]
  rw [uses, hlist]

/-- A reference that leaves an abstraction without parameters still addresses the same one. -/
theorem use_unshift {inner outer : List (List Param)} {depth : Int} {position index : Nat}
    (h : index? (inner.map List.length ++ 0 :: outer.map List.length) depth position = some index) :
    Scopes.use { scopes := inner ++ outer }
        (if (inner.length : Int) < depth then depth - 1 else depth) position
      = Scopes.use { scopes := inner ++ [] :: outer } depth position := by
  have hcounts : Scopes.counts { scopes := inner ++ [] :: outer }
      = inner.map List.length ++ 0 :: outer.map List.length := List.map_append
  have hcounts' : Scopes.counts { scopes := inner ++ outer }
      = inner.map List.length ++ outer.map List.length := List.map_append
  have hentries : Scopes.entries { scopes := inner ++ [] :: outer }
      = Scopes.entries { scopes := inner ++ outer } := by simp [Scopes.entries]
  obtain ⟨param, hparam⟩ := Scopes.exists_resolve (hcounts ▸ h)
  obtain ⟨index', hindex', hentry⟩ := Scopes.resolve_eq_ok_iff.mp hparam
  obtain rfl := Option.some.inj (h.symm.trans (hcounts ▸ hindex'))
  have houter := index?_unshift h
  rw [List.length_map] at houter
  have hparam' := Scopes.resolve_eq_ok_iff.mpr ⟨index, hcounts' ▸ houter, hentries ▸ hentry⟩
  rw [Scopes.use, Scopes.use, hparam, hparam']

/-- Unshifting takes an empty scope away, and changes no leaf: by induction on the tree. -/
theorem uses_unshift (inner : List (List Param)) {outer : List (List Param)} {node : Node}
    (h : node.WellScoped (inner.map List.length ++ 0 :: outer.map List.length)) :
    (node.unshift inner.length).uses { scopes := inner ++ outer }
      = node.uses { scopes := inner ++ [] :: outer } := by
  induction node generalizing inner with
  | abs params spine ih =>
    rw [unshift, unshiftList_eq_map, uses_abs, uses_abs, List.flatMap_map]
    exact List.flatMap_congr fun element hmem =>
      ih element hmem (params :: inner) (wellScoped_abs.mp h element hmem)
  | bound depth position =>
    obtain ⟨index, hindex⟩ := wellScoped_bound.mp h
    exact congrArg (fun use => [use]) (use_unshift hindex)
  | free _ | hole => rfl

/-- An abstraction that dissolves into its only element keeps its leaves. -/
theorem uses_collapse {scopes : Scopes Param} {node : Node} (h : node.WellScoped scopes.counts) :
    node.collapse.uses scopes = node.uses scopes := by
  unfold collapse
  split
  · next element =>
    rw [uses_abs, List.flatMap_singleton]
    exact @uses_unshift [] scopes.scopes element
      (List.forall_mem_singleton.mp (wellScoped_abs.mp h))
  · rfl

end Node

namespace Binding

/-! ## The leaves of open groups -/

/-- The parameters in scope inside the open groups. -/
def openScopes (frames : List Frame) : Scopes Param := { scopes := frames.map (·.params) }

/-- What the leaves of the elements read so far stand for. -/
def uses : List Frame → List Use
  | [] => []
  | frame :: outer =>
      uses outer ++ frame.elements.reverse.flatMap (Node.uses (openScopes (frame :: outer)))

theorem counts_openScopes (frames : List Frame) : (openScopes frames).counts = counts frames :=
  List.map_map

theorem names_openScopes (frames : List Frame) :
    (openScopes frames).entries.map (·.name) = scope frames := by
  rw [Scopes.entries, openScopes, List.flatMap_map, List.map_flatMap, scope]
  exact List.flatMap_congr fun frame _ => List.map_reverse

/-- A reference to a live name stands for a parameter of that name. -/
theorem Sound.use_eq {known : List (Option String)} {frames : List Frame} {spellings : Spellings}
    (h : Sound known frames spellings) {name : Option String} {level position : Nat} {copy : Int}
    (hfind : spellings.find? name = some (.live level position copy)) :
    (openScopes frames).use ((frames.length : Int) - level) position
      = .parameter (known.idxOf name) := by
  obtain ⟨index, hindex, hresolve⟩ := h.addressed hfind
  have hmem := Phrase.mem_of_resolve_eq_var hresolve
  have hscope : (scope frames)[index]? = some (known.idxOf name) := by
    rw [Phrase.resolve, if_pos hmem] at hresolve
    rw [← Term.var.inj hresolve, List.getElem?_eq_getElem (List.idxOf_lt_length_of_mem hmem),
      List.getElem_idxOf]
  rw [← names_openScopes, List.getElem?_map] at hscope
  obtain ⟨param, hparam, hname⟩ := Option.map_eq_some_iff.mp hscope
  have hentry := Scopes.resolve_eq_ok_iff.mpr ⟨index, counts_openScopes frames ▸ hindex, hparam⟩
  rw [Scopes.use, hentry, ← hname]

theorem uses_bind {frame : Frame} (hempty : frame.elements = []) (param : Param)
    (outer : List Frame) : uses (frame.bind param :: outer) = uses (frame :: outer) := by
  have hempty' : (frame.bind param).elements = [] := hempty
  rw [uses, uses, hempty, hempty']
  rfl

theorem uses_add (frame : Frame) (outer : List Frame) (element : Node) :
    uses (frame.add element :: outer)
      = uses (frame :: outer) ++ element.uses (openScopes (frame :: outer)) := by
  have helements : (frame.add element).elements.reverse = frame.elements.reverse ++ [element] :=
    List.reverse_cons
  have hscopes : openScopes (frame.add element :: outer) = openScopes (frame :: outer) := rfl
  rw [uses, helements, hscopes, List.flatMap_append, List.flatMap_singleton, ← List.append_assoc,
    uses]

/-- A closed group has the leaves of its elements. -/
theorem Sound.uses_node {known : List (Option String)} {inner : Frame} {outer : List Frame}
    {spellings : Spellings} (h : Sound known (inner :: outer) spellings) :
    inner.node.uses (openScopes outer)
      = inner.elements.reverse.flatMap (Node.uses (openScopes (inner :: outer))) := by
  have hscoped : (Node.abs inner.params inner.elements.reverse).WellScoped
      (openScopes outer).counts := by
    rw [counts_openScopes]
    exact Node.wellScoped_abs.mpr fun element hmem =>
      (h.elements.1 element (List.mem_reverse.mp hmem)).1
  rw [Frame.node, Node.uses_collapse hscoped, Node.uses_abs]
  rfl

theorem Sound.uses_close {known : List (Option String)} {inner around : Frame}
    {outer : List Frame} {spellings : Spellings}
    (h : Sound known (inner :: around :: outer) spellings) :
    uses (around.add inner.node :: outer) = uses (inner :: around :: outer) := by
  rw [uses_add, h.uses_node]
  rfl

/-! ## Names that are bound -/

/-- A spelling that has been met is bound, by a group that is open or closed. -/
def IsBound (spellings : Spellings) (name : Option String) : Prop :=
  ∃ standing, spellings.find? name = some standing ∧ standing ≠ .constant

theorem isBound_closeLevel {spellings : Spellings} {level : Nat} {name : Option String} :
    IsBound (spellings.mapValues (·.closeLevel level)) name ↔ IsBound spellings name := by
  unfold IsBound
  rw [OrderedTable.find?_mapValues]
  constructor
  · rintro ⟨closed, hfind, hne⟩
    obtain ⟨standing, hstanding, rfl⟩ := Option.map_eq_some_iff.mp hfind
    exact ⟨standing, hstanding, mt closeLevel_eq_constant_iff.mpr hne⟩
  · rintro ⟨standing, hfind, hne⟩
    refine ⟨standing.closeLevel level, ?_, mt closeLevel_eq_constant_iff.mp hne⟩
    rw [hfind, Option.map_some]

theorem isBound_put_iff {spellings : Spellings} {standing : Standing} {name other : Option String} :
    IsBound (spellings.put name standing) other
      ↔ if other = name then standing ≠ .constant else IsBound spellings other := by
  unfold IsBound
  rw [OrderedTable.find?_put]
  split <;> simp

/-! ## Reading -/

/-- The names that tokens use, in order. -/
def usedNames (tokens : List Token) : List (Option String) :=
  (tokens.filter (·.kind = .var)).map (·.name)

/-- What the use of a name stands for: a parameter if the name is bound somewhere in the tokens. -/
def useIn (known : List (Option String)) (tokens : List Token) (name : Option String) : Use :=
  if { kind := .func, name } ∈ tokens then .parameter (known.idxOf name)
  else .free (known.idxOf name)

theorem usedNames_append (first second : List Token) :
    usedNames (first ++ second) = usedNames first ++ usedNames second := by
  rw [usedNames, List.filter_append, List.map_append]
  rfl

theorem usedNames_subset_meetAll (tokens : List Token) (keys : List (Option String)) :
    usedNames tokens ⊆ meetAll keys tokens := by
  intro name hname
  obtain ⟨token, hmem, rfl⟩ := List.mem_map.mp hname
  obtain ⟨hmem, hkind⟩ := List.mem_filter.mp hmem
  obtain ⟨before, after, rfl⟩ := List.append_of_mem hmem
  have hmet : token.name ∈ meetToken (meetAll keys before) token := by
    rw [meetToken, of_decide_eq_true hkind]
    exact mem_meet _ _
  rw [meetAll, List.foldl_append]
  exact (prefix_meetAll _ after).subset hmet

namespace Reading

/-- The names that the tokens read so far use are the leaves, and the names that they bind are
    bound. -/
structure Used (known : List (Option String)) (tokens : List Token) (reading : Reading) :
    Prop where
  keys : reading.spellings.keys = meetAll [] tokens
  leaves : uses reading.frames = (usedNames tokens).map (useIn known tokens)
  isBound_iff (name : Option String) :
    IsBound reading.spellings name ↔ { kind := .func, name } ∈ tokens

variable {known : List (Option String)} {room : Option Nat} {reading reading' : Reading}
  {tokens : List Token} {name : Option String}

/-- Closing groups changes no leaf and binds nothing: by induction on the groups around. -/
theorem uses_leave {outer : List Frame} {inner : Frame} {spellings : Spellings}
    (h : Sound known (inner :: outer) spellings)
    (hleave : leave inner spellings outer = .ok reading') :
    uses reading'.frames = uses (inner :: outer)
      ∧ ∀ name, IsBound reading'.spellings name ↔ IsBound spellings name := by
  induction outer generalizing inner spellings with
  | nil => cases hleave
  | cons around outer ih =>
    simp only [leave] at hleave
    split at hleave
    · obtain ⟨huses, hbound⟩ := ih (h.pop.add h.node.1) hleave
      exact ⟨huses.trans h.uses_close, fun name => (hbound name).trans isBound_closeLevel⟩
    · obtain rfl := Except.ok.inj hleave
      exact ⟨h.uses_close, fun name => isBound_closeLevel⟩

/-- A name that is bound is not a free one, and is bound from then on. -/
theorem uses_of_bind (hempty : reading.inner.elements = [])
    (hbind : reading.bind name = .ok reading') :
    uses reading'.frames = uses reading.frames
      ∧ (∀ other, IsBound reading'.spellings other ↔ other = name ∨ IsBound reading.spellings other)
      ∧ (name ∈ reading.spellings.keys → IsBound reading.spellings name) := by
  obtain ⟨hbindable, copy, -, rfl⟩ := bind_eq_ok_iff.mp hbind
  refine ⟨uses_bind hempty _ _, fun other => ?_, fun hmem => ?_⟩
  · rw [isBound_put_iff]
    by_cases heq : other = name
    · simp [heq]
    · simp [heq]
  · rcases hbindable with hnone | ⟨copy, hclosed⟩
    · rw [← OrderedTable.contains_iff_mem_keys, OrderedTable.contains, hnone] at hmem
      cases hmem
    · exact ⟨_, hclosed, by rintro ⟨⟩⟩

/-- A name that is used becomes the last leaf: a reference to a parameter of its name if it is
    bound, and otherwise a free name, which stays free. -/
theorem uses_of_use (h : Sound known reading.frames reading.spellings)
    (hknown : meet reading.spellings.keys name <+: known) (huse : reading.use name = .ok reading') :
    (∀ other, IsBound reading'.spellings other ↔ IsBound reading.spellings other)
      ∧ ∃ leaf, uses reading'.frames = uses reading.frames ++ [leaf]
        ∧ (IsBound reading.spellings name ∧ leaf = .parameter (known.idxOf name)
          ∨ ¬ IsBound reading.spellings name ∧ leaf = .free (known.idxOf name)) := by
  rw [← id_eq_idxOf hknown]
  rcases use_eq_ok huse with ⟨level, position, copy, hfind, rfl⟩ | ⟨hfind, rfl⟩ | ⟨hfind, rfl⟩
  · refine ⟨fun _ => Iff.rfl, _, uses_add _ _ _, Or.inl ⟨⟨_, hfind, nofun⟩, ?_⟩⟩
    rw [id_eq_idxOf hknown]
    exact h.use_eq hfind
  · refine ⟨fun _ => Iff.rfl, _, uses_add _ _ _, Or.inr ⟨?_, rfl⟩⟩
    rintro ⟨standing, hfind', hne⟩
    exact hne (Option.some.inj (hfind'.symm.trans hfind))
  · have hnot : ¬ IsBound reading.spellings name := by
      rintro ⟨standing, hfind', _⟩
      cases hfind'.symm.trans hfind
    refine ⟨fun other => ?_, _, uses_add _ _ _, Or.inr ⟨hnot, rfl⟩⟩
    rw [isBound_put_iff]
    by_cases heq : other = name
    · simp [heq, hnot]
    · simp [heq]

/-- Reading a token that binds nothing keeps what holds of the leaves, and adds one if the token
    uses a name. -/
theorem Used.add (h : reading.Used known tokens) {token : Token} (hkind : token.kind ≠ .func)
    (hkeys : reading'.spellings.keys = meetToken reading.spellings.keys token)
    (hleaves : uses reading'.frames
      = uses reading.frames ++ (usedNames [token]).map (useIn known tokens))
    (hbound : ∀ name, IsBound reading'.spellings name ↔ IsBound reading.spellings name) :
    reading'.Used known (tokens ++ [token]) := by
  have hmem (name : Option String) :
      Token.mk .func name ∈ tokens ++ [token] ↔ Token.mk .func name ∈ tokens := by
    rw [List.mem_append, List.mem_singleton, or_iff_left]
    rintro rfl
    exact hkind rfl
  have huse : useIn known (tokens ++ [token]) = useIn known tokens := by
    funext name
    simp only [useIn, hmem]
  refine ⟨?_, ?_, fun name => by rw [hbound, h.isBound_iff, hmem]⟩
  · rw [hkeys, h.keys, meetAll, meetAll, List.foldl_append]
    rfl
  · rw [hleaves, h.leaves, huse, usedNames_append, List.map_append]

/-- Reading a bound name keeps what holds of the leaves: if the name has been used before, it has
    been bound before as well. -/
theorem Used.bind (h : reading.Used known tokens) (hempty : reading.inner.elements = [])
    (hbind : reading.bind name = .ok reading')
    (hkeys : reading'.spellings.keys = meet reading.spellings.keys name) :
    reading'.Used known (tokens ++ [{ kind := .func, name }]) := by
  obtain ⟨huses, hbound, hmet⟩ := uses_of_bind hempty hbind
  have hmem (other : Option String) : Token.mk .func other ∈ tokens ++ [{ kind := .func, name }]
      ↔ other = name ∨ Token.mk .func other ∈ tokens := by
    rw [List.mem_append, List.mem_singleton, Token.mk.injEq, or_comm]
    simp
  refine ⟨?_, ?_, fun other => by rw [hbound, h.isBound_iff, hmem]⟩
  · rw [hkeys, h.keys, meetAll, meetAll, List.foldl_append]
    rfl
  · have hnone : usedNames [{ kind := .func, name }] = [] := rfl
    rw [huses, h.leaves, usedNames_append, hnone, List.append_nil]
    refine List.map_congr_left fun other hother => ?_
    have hsame : Token.mk .func other ∈ tokens ++ [{ kind := .func, name }]
        ↔ Token.mk .func other ∈ tokens := by
      rw [hmem, or_iff_right_of_imp]
      rintro rfl
      rw [← h.isBound_iff]
      exact hmet (h.keys ▸ usedNames_subset_meetAll tokens [] hother)
    simp only [useIn, hsame]

/-- Reading a token keeps what holds of the leaves. -/
theorem Used.step (h : reading.Used known tokens)
    (hsound : Sound known reading.frames reading.spellings) {token : Token}
    (hknown : meetToken reading.spellings.keys token <+: known)
    (hstep : reading.step room token = .ok reading') :
    reading'.Used known (tokens ++ [token]) := by
  have hkeys := (step_spec hsound hknown hstep).keys
  obtain ⟨kind, name⟩ := token
  cases kind with
  | opening =>
    obtain rfl := eq_of_enter hstep
    exact h.add nofun hkeys rfl fun _ => Iff.rfl
  | closing =>
    obtain ⟨huses, hbound⟩ := uses_leave hsound hstep
    exact h.add nofun hkeys (huses.trans (List.append_nil _).symm) hbound
  | func =>
    unfold Reading.step at hstep
    by_cases hempty : reading.inner.elements.isEmpty
    · rw [if_pos hempty] at hstep
      exact h.bind (List.isEmpty_iff.mp hempty) hstep hkeys
    · rw [if_neg hempty] at hstep
      obtain ⟨entered, henter, hbind⟩ := Outcome.bind_eq_ok.mp hstep
      obtain rfl := eq_of_enter henter
      have hentered : Used known tokens
          { reading with inner := { inlined := true }, outer := reading.inner :: reading.outer } :=
        ⟨h.keys, (List.append_nil _).trans h.leaves, h.isBound_iff⟩
      exact hentered.bind rfl hbind hkeys
  | var =>
    obtain ⟨hbound, leaf, hleaf, hcases⟩ := uses_of_use hsound hknown hstep
    refine h.add nofun hkeys (hleaf.trans (congrArg (_ ++ [·]) ?_)) hbound
    show leaf = useIn known tokens name
    rcases hcases with ⟨hname, rfl⟩ | ⟨hname, rfl⟩
    · exact (if_pos ((h.isBound_iff name).mp hname)).symm
    · exact (if_neg (mt (h.isBound_iff name).mpr hname)).symm
  | stray label => cases hstep

/-- Reading a whole stream: by induction on its tokens. -/
theorem Used.foldlM {later : List Token} (h : reading.Used known tokens)
    (hsound : Sound known reading.frames reading.spellings)
    (hknown : meetAll reading.spellings.keys later <+: known)
    (hrun : later.foldlM (Reading.step room) reading = .ok reading') :
    reading'.Used known (tokens ++ later) ∧ Sound known reading'.frames reading'.spellings := by
  induction later generalizing reading tokens with
  | nil =>
    obtain rfl := Except.ok.inj hrun
    exact ⟨(List.append_nil tokens).symm ▸ h, hsound⟩
  | cons token later ih =>
    rw [List.foldlM_cons] at hrun
    obtain ⟨between, hstep, hrun⟩ := Outcome.bind_eq_ok.mp hrun
    have hprefix := (prefix_meetAll (meetToken reading.spellings.keys token) later).trans hknown
    obtain ⟨hsound', hkeys, _⟩ := step_spec hsound hprefix hstep
    have hlast := ih (h.step hsound hprefix hstep) hsound' (hkeys ▸ hknown) hrun
    rwa [List.append_assoc] at hlast

/-- The end of the stream closes all groups and changes no leaf: by induction on those around the
    innermost one. -/
theorem uses_finish {outer : List Frame} {inner : Frame} {spellings : Spellings}
    (h : Sound known (inner :: outer) spellings) :
    (finish inner spellings outer).1.uses {} = uses (inner :: outer) := by
  induction outer generalizing inner spellings with
  | nil => exact h.uses_node
  | cons around outer ih => exact (ih (h.pop.add h.node.1)).trans h.uses_close

end Reading

end Binding

namespace Expression

open Binding

/-- Whatever the tokens, the names that they use are the leaves of the expression that is built from
    them, in order: a name that the tokens bind is a reference that addresses a parameter of this
    name, and any other one is free. -/
theorem uses_of_ofTokens {room : Option Nat} {tokens : List Token} {expression : Expression}
    (h : ofTokensWithin room tokens = .ok expression) :
    expression.root.uses {} = (usedNames tokens).map (useIn (meetAll [] tokens) tokens) := by
  obtain ⟨reading, spellings, hrun, hfinish, _⟩ := exists_of_ofTokens h
  have hnone (name : Option String) : ¬ IsBound {} name := fun ⟨_, hfind, _⟩ => nomatch hfind
  have hstart : Reading.Used (meetAll [] tokens) [] {} :=
    ⟨rfl, rfl, fun name => iff_of_false (hnone name) List.not_mem_nil⟩
  obtain ⟨hused, hsound⟩ := hstart.foldlM (sound_start _) (List.prefix_refl _) hrun
  have huses := Reading.uses_finish hsound
  rw [hfinish] at huses
  exact huses.trans hused.leaves

end Expression

end LambdaCalc
