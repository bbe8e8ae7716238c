import LambdaCalc.Proofs.Expression.Reading
import LambdaCalc.Proofs.Node.Copies

set_option autoImplicit false

/-! # Copy ids of an expression

While a token stream is read, each spelling keeps the copy id of the last parameter that it has been
given to, whether its group is still open or not, so that the next parameter of that spelling gets
another one (`Binding.Counted`). The counters of the name table start behind these. So the
parameters of a built expression are told apart by their copy ids, and they still are once it has
been reduced (`Expression.apart_of_ofTokens`). -/

namespace LambdaCalc

open Param (Apart)

namespace Binding

/-! ## Copy ids given to spellings -/

/-- What a key has in a list stands at the key's place. -/
theorem getElem?_idxOf_of_lookup {κ ν : Type} [BEq κ] [LawfulBEq κ] {entries : List (κ × ν)}
    {key : κ} {value : ν} (h : entries.lookup key = some value) :
    entries[(entries.map (·.1)).idxOf key]? = some (key, value) := by
  induction entries with
  | nil => cases h
  | cons entry entries ih =>
    obtain ⟨first, found⟩ := entry
    rw [List.map_cons, List.idxOf_cons]
    by_cases hkey : key = first
    · subst hkey
      rw [List.lookup_cons_self] at h
      obtain rfl := Option.some.inj h
      rw [beq_self_eq_true]
      rfl
    · rw [List.lookup_cons, beq_false_of_ne hkey] at h
      rw [beq_false_of_ne (Ne.symm hkey)]
      exact ih h

/-- Parameters are told apart by their copy ids, and for each of them its spelling goes on with a
    larger one. -/
structure Counted (known : List (Option String)) (spellings : Spellings) (params : List Param) :
    Prop where
  nodup : params.Nodup
  counted : ∀ param ∈ params, ∃ name standing, spellings.find? name = some standing
    ∧ known.idxOf name = param.name ∧ param.copy < standing.nextCopy

namespace Counted

variable {known : List (Option String)} {spellings : Spellings} {params params' : List Param}
  {name : Option String}

theorem perm (h : Counted known spellings params) (hperm : params.Perm params') :
    Counted known spellings params' :=
  ⟨hperm.nodup_iff.mp h.nodup, fun param hmem => h.counted param (hperm.mem_iff.mpr hmem)⟩

/-- A parameter gets the copy id that its spelling goes on with. -/
theorem bind (h : Counted known spellings params) (hknown : meet spellings.keys name <+: known)
    {copy : Int} (hcopy : copy = (spellings.find? name).elim 0 Standing.nextCopy)
    (level position : Nat) :
    Counted known (spellings.put name (.live level position copy))
      (⟨spellings.id name, copy⟩ :: params) := by
  have hid := id_eq_idxOf hknown
  have hmem : name ∈ known := hknown.subset (mem_meet _ _)
  have hnext {standing : Standing} (hfind : spellings.find? name = some standing) :
      standing.nextCopy = copy := by
    rw [hcopy, hfind]
    rfl
  refine ⟨List.nodup_cons.mpr ⟨fun hparam => ?_, h.nodup⟩, List.forall_mem_cons.mpr ⟨?_, ?_⟩⟩
  · obtain ⟨name', standing, hfind, hid', hlt⟩ := h.counted _ hparam
    obtain rfl := (List.idxOf_inj hmem).mp (hid.symm.trans hid'.symm)
    exact absurd (hnext hfind ▸ hlt) (Int.lt_irrefl copy)
  · refine ⟨name, .live level position copy, ?_, hid.symm, Int.lt_succ copy⟩
    rw [OrderedTable.find?_put, if_pos rfl]
  · intro param hparam
    obtain ⟨name', standing, hfind, hid', hlt⟩ := h.counted param hparam
    by_cases hname : name' = name
    · subst hname
      refine ⟨name', .live level position copy, ?_, hid', ?_⟩
      · rw [OrderedTable.find?_put, if_pos rfl]
      · exact Int.lt_trans hlt (hnext hfind ▸ Int.lt_succ copy)
    · exact ⟨name', standing, by rw [OrderedTable.find?_put, if_neg hname, hfind], hid', hlt⟩

/-- A spelling that is new has not been given to a parameter. -/
theorem putConstant (h : Counted known spellings params) (hnew : spellings.find? name = none) :
    Counted known (spellings.put name .constant) params := by
  refine ⟨h.nodup, fun param hparam => ?_⟩
  obtain ⟨name', standing, hfind, hid, hlt⟩ := h.counted param hparam
  refine ⟨name', standing, ?_, hid, hlt⟩
  rw [OrderedTable.find?_put, if_neg, hfind]
  rintro rfl
  rw [hnew] at hfind
  cases hfind

/-- Closing groups changes no copy id. -/
theorem closeLevel (h : Counted known spellings params) (level : Nat) :
    Counted known (spellings.mapValues (·.closeLevel level)) params := by
  refine ⟨h.nodup, fun param hparam => ?_⟩
  obtain ⟨name, standing, hfind, hid, hlt⟩ := h.counted param hparam
  refine ⟨name, standing.closeLevel level, ?_, hid, ?_⟩
  · rw [OrderedTable.find?_mapValues, hfind]
    rfl
  · cases standing with
    | live level' position copy =>
      rw [Standing.closeLevel]
      split <;> exact hlt
    | closed | constant => exact hlt

/-- The counters of the name table are those that the spellings go on with. -/
theorem apart (h : Counted spellings.keys spellings params) {names : NameTable}
    (hnames : nameTable spellings = .ok names) : Apart names.copies params := by
  refine ⟨h.nodup, fun param hparam => ?_⟩
  obtain ⟨name, standing, hfind, hid, hlt⟩ := h.counted param hparam
  have hentry : spellings.entries[param.name]? = some (name, standing) := by
    rw [← hid, OrderedTable.keys]
    convert @getElem?_idxOf_of_lookup _ _ instBEqOfDecidableEq _ _ _ _ hfind
  have hbound : param.name < names.size := by
    rw [size_nameTable hnames, OrderedTable.keys, List.length_map]
    exact (List.getElem?_eq_some_iff.mp hentry).1
  have hget : names.entries[param.name]? = some names.entries[param.name] :=
    List.getElem?_eq_getElem hbound
  obtain ⟨texts, -, hnames⟩ := nameTable_eq_ok hnames
  refine ⟨standing.nextCopy, ?_, hlt⟩
  rw [NameTable.copies, List.getElem?_map, hget]
  subst hnames
  obtain ⟨shown, copy, _, hcopy, hentry'⟩ := List.getElem?_zipWith_eq_some.mp hget
  rw [List.getElem?_map, hentry] at hcopy
  rw [← hentry']
  exact hcopy.symm

end Counted

/-! ## Reading -/

/-- All parameters of a group and of its elements. -/
def Frame.allParams (frame : Frame) : List Param :=
  frame.params ++ frame.elements.flatMap Node.allParams

/-- All parameters of groups and of their elements. -/
def allParams (frames : List Frame) : List Param := frames.flatMap Frame.allParams

theorem Frame.allParams_bind (frame : Frame) (param : Param) :
    (frame.bind param).allParams.Perm (param :: frame.allParams) := by
  rw [Frame.allParams, Frame.bind, List.append_assoc]
  exact List.perm_middle

theorem Frame.allParams_add (frame : Frame) (element : Node) :
    (frame.add element).allParams.Perm (element.allParams ++ frame.allParams) := by
  rw [Frame.allParams, Frame.add, List.flatMap_cons, ← List.append_assoc, Frame.allParams,
    ← List.append_assoc]
  exact List.perm_append_comm.append_right _

/-- A closed group has the parameters that it had when it was open. -/
theorem Frame.allParams_node (frame : Frame) : frame.node.allParams.Perm frame.allParams := by
  rw [Frame.node, Node.allParams_collapse, Node.allParams_abs, Frame.allParams]
  exact ((List.reverse_perm _).flatMap_right _).append_left _

theorem allParams_close (inner around : Frame) (outer : List Frame) :
    (allParams (around.add inner.node :: outer)).Perm (allParams (inner :: around :: outer)) := by
  rw [allParams, allParams, List.flatMap_cons, List.flatMap_cons, List.flatMap_cons,
    ← List.append_assoc]
  refine List.Perm.append_right _ ((around.allParams_add inner.node).trans ?_)
  exact inner.allParams_node.append_right _

namespace Reading

variable {known : List (Option String)}

/-- The copy ids of what has been read so far. -/
def Counts (known : List (Option String)) (reading : Reading) : Prop :=
  Counted known reading.spellings (allParams reading.frames)

variable {room : Option Nat} {reading reading' : Reading} {name : Option String}

theorem Counts.bind (h : reading.Counts known)
    (hknown : meet reading.spellings.keys name <+: known)
    (hbind : reading.bind name = .ok reading') : reading'.Counts known := by
  obtain ⟨_, copy, hcopy, rfl⟩ := bind_eq_ok_iff.mp hbind
  refine (Counted.bind h hknown hcopy _ _).perm ?_
  rw [frames, frames, allParams, allParams, List.flatMap_cons, List.flatMap_cons,
    ← List.cons_append]
  exact (reading.inner.allParams_bind _).symm.append_right _

theorem Counts.enter (h : reading.Counts known) {inlined : Bool}
    (henter : reading.enter room inlined = .ok reading') : reading'.Counts known := by
  rw [eq_of_enter henter]
  exact h

/-- A name that becomes an element has no parameters. -/
theorem Counts.add {spellings : Spellings} {element : Node}
    (h : Counted known spellings (allParams reading.frames)) (hnone : element.allParams = []) :
    Counts known { reading with inner := reading.inner.add element, spellings } := by
  refine Counted.perm h ?_
  have hadd := reading.inner.allParams_add element
  rw [hnone, List.nil_append] at hadd
  exact hadd.symm.append_right _

theorem Counts.use (h : reading.Counts known) (huse : reading.use name = .ok reading') :
    reading'.Counts known := by
  rcases use_eq_ok huse with ⟨_, _, _, _, rfl⟩ | ⟨_, rfl⟩ | ⟨hfind, rfl⟩
  · exact Counts.add h rfl
  · exact Counts.add h rfl
  · exact Counts.add (Counted.putConstant h hfind) rfl

/-- Closing groups moves their parameters to an element: by induction on the groups around. -/
theorem counts_of_leave {outer : List Frame} {inner : Frame} {spellings : Spellings}
    (h : Counted known spellings (allParams (inner :: outer)))
    (hleave : leave inner spellings outer = .ok reading') : reading'.Counts known := by
  induction outer generalizing inner spellings with
  | nil => cases hleave
  | cons around outer ih =>
    have hclose := (h.perm (allParams_close inner around outer).symm).closeLevel (outer.length + 2)
    rw [leave] at hleave
    cases hinlined : inner.inlined with
    | true =>
      simp only [hinlined, if_true] at hleave
      exact ih hclose hleave
    | false =>
      simp only [hinlined, Bool.false_eq_true, if_false] at hleave
      obtain rfl := Except.ok.inj hleave
      exact hclose

/-- Reading a token keeps the parameters apart. -/
theorem Counts.step (h : reading.Counts known) {token : Token}
    (hknown : meetToken reading.spellings.keys token <+: known)
    (hstep : reading.step room token = .ok reading') : reading'.Counts known := by
  obtain ⟨kind, name⟩ := token
  cases kind with
  | opening => exact h.enter hstep
  | closing => exact counts_of_leave h hstep
  | func =>
    unfold Reading.step at hstep
    by_cases hempty : reading.inner.elements.isEmpty
    · rw [if_pos hempty] at hstep
      exact h.bind hknown hstep
    · rw [if_neg hempty] at hstep
      obtain ⟨entered, henter, hbind⟩ := Outcome.bind_eq_ok.mp hstep
      have hspellings : entered.spellings = reading.spellings := by rw [eq_of_enter henter]
      exact (h.enter henter).bind (hspellings ▸ hknown) hbind
  | var => exact h.use hstep
  | stray label => cases hstep

/-- Reading a whole stream: by induction on its tokens. -/
theorem Counts.foldlM {tokens : List Token} (hsound : Sound known reading.frames reading.spellings)
    (h : reading.Counts known) (hknown : meetAll reading.spellings.keys tokens <+: known)
    (hrun : tokens.foldlM (Reading.step room) reading = .ok reading') : reading'.Counts known := by
  induction tokens generalizing reading with
  | nil =>
    obtain rfl := Except.ok.inj hrun
    exact h
  | cons token tokens ih =>
    rw [List.foldlM_cons] at hrun
    obtain ⟨between, hstep, hrun⟩ := Outcome.bind_eq_ok.mp hrun
    have hprefix := (prefix_meetAll (meetToken reading.spellings.keys token) tokens).trans hknown
    obtain ⟨hsound', hkeys, _⟩ := step_spec hsound hprefix hstep
    exact ih hsound' (h.step hprefix hstep) (hkeys ▸ hknown) hrun

/-- The end of the stream closes all groups: by induction on those around the innermost one. -/
theorem counted_finish {outer : List Frame} {inner : Frame} {spellings : Spellings}
    (h : Counted known spellings (allParams (inner :: outer))) :
    Counted known (finish inner spellings outer).2 (finish inner spellings outer).1.allParams := by
  induction outer generalizing inner spellings with
  | nil =>
    have hnode : (allParams [inner]).Perm inner.node.allParams := by
      rw [allParams, List.flatMap_singleton]
      exact inner.allParams_node.symm
    exact (h.perm hnode).closeLevel 1
  | cons around outer ih =>
    exact ih ((h.perm (allParams_close inner around outer).symm).closeLevel (outer.length + 2))

end Reading

end Binding

namespace Expression

open Binding

/-- The parameters of an expression are told apart by their copy ids, all of which its name table
    has handed out. -/
def CopiesApart (expression : Expression) : Prop :=
  Apart expression.names.copies expression.root.allParams

theorem copiesApart_of_ofTokens {room : Option Nat} {tokens : List Token} {expression : Expression}
    (h : ofTokensWithin room tokens = .ok expression) : expression.CopiesApart := by
  obtain ⟨reading, spellings, hrun, hfinish, hkeys, hnames⟩ := exists_of_ofTokens h
  have hstart : Reading.Counts (meetAll [] tokens) {} := ⟨List.nodup_nil, nofun⟩
  have hread := hstart.foldlM (sound_start _) (List.prefix_refl _) hrun
  have hcounted := Reading.counted_finish hread
  rw [hfinish, ← hkeys] at hcounted
  exact hcounted.apart hnames

/-- Reducing keeps the parameters apart and lowers no counter. -/
theorem CopiesApart.reduce {limits : Limits} {expression reduced : Expression}
    (h : expression.CopiesApart) (hreduce : expression.reduce limits = .ok reduced) :
    reduced.CopiesApart
      ∧ List.Forall₂ (· ≤ ·) expression.names.copies reduced.names.copies := by
  obtain ⟨root, names, hrun, rfl⟩ := reduce_eq_ok_iff.mp hreduce
  obtain ⟨hle, hapart⟩ := Node.reduceWithin_keepsApart _ _ _ hrun
  have hnone := hapart []
  rw [List.append_nil, List.append_nil] at hnone
  exact ⟨hnone h, hle⟩

/-- The parameters of what has been built from any token stream are told apart by their copy ids,
    and so are those of what it reduces to. Reducing keeps the names and lowers no counter. -/
theorem apart_of_ofTokens {room : Option Nat} {tokens : List Token} {expression : Expression}
    (hbuilt : ofTokensWithin room tokens = .ok expression) :
    expression.CopiesApart
      ∧ ∀ limits reduced, expression.reduce limits = .ok reduced →
        reduced.CopiesApart
          ∧ reduced.names.SameNames expression.names
          ∧ List.Forall₂ (· ≤ ·) expression.names.copies reduced.names.copies := by
  have hapart := copiesApart_of_ofTokens hbuilt
  refine ⟨hapart, fun limits reduced hreduce => ?_⟩
  obtain ⟨hapart', hle⟩ := hapart.reduce hreduce
  obtain ⟨root, names, hrun, rfl⟩ := reduce_eq_ok_iff.mp hreduce
  have hsame := (Node.reduceWithin_ensures (ofTokens_spec hbuilt).2.1 hrun).2
  exact ⟨hapart', hsame, hle⟩

/-- In `(λx.x x x) (λx.λy.x)` the spelling `x` is bound twice, and the second abstraction is copied
    three times. -/
theorem apart_of_ofTokens_rebound :
    ofTokensWithin none [.opening, .func "x", .var "x", .var "x", .var "x", .closing,
        .opening, .func "x", .func "y", .var "x", .closing]
      = .ok {
          root := .abs [] [.abs [⟨0, 0⟩] [.bound 0 0, .bound 0 0, .bound 0 0],
            .abs [⟨0, 1⟩, ⟨1, 0⟩] [.bound 0 0]],
          names := { entries := [⟨"x", 2⟩, ⟨"y", 1⟩] } }
    ∧ reduce {} {
          root := .abs [] [.abs [⟨0, 0⟩] [.bound 0 0, .bound 0 0, .bound 0 0],
            .abs [⟨0, 1⟩, ⟨1, 0⟩] [.bound 0 0]],
          names := { entries := [⟨"x", 2⟩, ⟨"y", 1⟩] } }
      = .ok {
          root := .abs [⟨0, 5⟩, ⟨1, 4⟩] [.bound 0 0],
          names := { entries := [⟨"x", 6⟩, ⟨"y", 5⟩] } }
    ∧ CopiesApart {
          root := .abs [⟨0, 5⟩, ⟨1, 4⟩] [.bound 0 0],
          names := { entries := [⟨"x", 6⟩, ⟨"y", 5⟩] } } := by
  have hbuilt :
      ofTokensWithin none [.opening, .func "x", .var "x", .var "x", .var "x", .closing,
        .opening, .func "x", .func "y", .var "x", .closing]
      = .ok {
          root := .abs [] [.abs [⟨0, 0⟩] [.bound 0 0, .bound 0 0, .bound 0 0],
            .abs [⟨0, 1⟩, ⟨1, 0⟩] [.bound 0 0]],
          names := { entries := [⟨"x", 2⟩, ⟨"y", 1⟩] } } := by cbv
  have hreduce :
      reduce {} {
          root := .abs [] [.abs [⟨0, 0⟩] [.bound 0 0, .bound 0 0, .bound 0 0],
            .abs [⟨0, 1⟩, ⟨1, 0⟩] [.bound 0 0]],
          names := { entries := [⟨"x", 2⟩, ⟨"y", 1⟩] } }
      = .ok {
          root := .abs [⟨0, 5⟩, ⟨1, 4⟩] [.bound 0 0],
          names := { entries := [⟨"x", 6⟩, ⟨"y", 5⟩] } } := by cbv
  exact ⟨hbuilt, hreduce, ((apart_of_ofTokens hbuilt).2 _ _ hreduce).1⟩

end Expression

end LambdaCalc
