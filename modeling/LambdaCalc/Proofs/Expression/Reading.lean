import LambdaCalc.Proofs.Expression.Qualifiers

set_option autoImplicit false

/-! # What is read is what is written

At each point of a token stream, the open groups together with the phrases still to be read spell
the λ-term of the whole stream (`Binding.whole`). Reading a token changes neither
(`Reading.step_spec`), so that the tree built in the end has the λ-term of the phrase that the
stream spells (`Expression.ofTokens_spec`), and no reference in it leads nowhere. -/

namespace LambdaCalc

namespace Binding

/-! ## The λ-term of the whole stream -/

/-- The λ-term of an open group, once further elements have been read. -/
def Frame.close (frame : Frame) (outer : List Frame) (later : List (Term Nat)) : Term Nat :=
  .lams frame.params.length
    (.ofSpine (frame.elements.reverse.map (Node.term (counts (frame :: outer))) ++ later))

/-- A group without further elements has the λ-term of the abstraction that it becomes. -/
theorem Sound.close_nil {known : List (Option String)} {inner : Frame} {outer : List Frame}
    {spellings : Spellings} (h : Sound known (inner :: outer) spellings) :
    inner.close outer [] = inner.node.term (counts outer) := by
  rw [h.node.2, Frame.close, List.append_nil]

/-- The λ-term of all open groups, once further elements of the innermost one and the phrases behind
    it have been read. -/
def whole : Frame → List Frame → List (Term Nat) → List (Phrase Nat) → Term Nat
  | frame, [], later, _ => frame.close [] later
  | frame, around :: outer, later, behind =>
      if frame.inlined then
        whole around outer [frame.close (around :: outer) later] behind
      else
        whole around outer
          (frame.close (around :: outer) later
            :: (behind.headD .done).terms (scope (around :: outer)))
          behind.tail

theorem whole_congr {frame frame' : Frame} {outer : List Frame} {later later' : List (Term Nat)}
    (hinlined : frame.inlined = frame'.inlined)
    (hclose : frame.close outer later = frame'.close outer later') (behind : List (Phrase Nat)) :
    whole frame outer later behind = whole frame' outer later' behind := by
  cases outer with
  | nil => exact hclose
  | cons around outer => rw [whole, whole, hinlined, hclose]

/-- An element read already and one still to be read come to the same. -/
theorem whole_add (frame : Frame) (outer : List Frame) (element : Node) (later : List (Term Nat))
    (behind : List (Phrase Nat)) :
    whole (frame.add element) outer later behind
      = whole frame outer (element.term (counts (frame :: outer)) :: later) behind := by
  have hinlined : (frame.add element).inlined = frame.inlined := rfl
  refine whole_congr hinlined ?_ behind
  have hcounts : counts (frame.add element :: outer) = counts (frame :: outer) := rfl
  have helements : (frame.add element).elements.reverse = frame.elements.reverse ++ [element] :=
    List.reverse_cons
  rw [Frame.close, Frame.close, hcounts, helements, List.map_append, List.append_assoc]
  rfl

/-- A parameter of a group without elements, bound already or still to be bound. -/
theorem whole_bind {frame : Frame} (hempty : frame.elements = []) (param : Param)
    (outer : List Frame) (later : List (Term Nat)) (behind : List (Phrase Nat)) :
    whole (frame.bind param) outer later behind
      = whole frame outer [.lam (.ofSpine later)] behind := by
  have hinlined : (frame.bind param).inlined = frame.inlined := rfl
  refine whole_congr hinlined ?_ behind
  have helements : (frame.bind param).elements = [] := hempty
  have hparams : (frame.bind param).params.length = frame.params.length + 1 := List.length_append
  rw [Frame.close, Frame.close, helements, hempty, hparams, Term.lams_succ]
  rfl

/-- A group that has just been opened contains what is still to be read up to its end. -/
theorem whole_enter (frame : Frame) (outer : List Frame) (later : List (Term Nat))
    (behind : List (Phrase Nat)) :
    whole {} (frame :: outer) later behind
      = whole frame outer (.ofSpine later :: (behind.headD .done).terms (scope (frame :: outer)))
          behind.tail := rfl

/-- An inlined group contains all that is still to be read of the group around it. -/
theorem whole_enter_inlined (frame : Frame) (outer : List Frame) (later : List (Term Nat))
    (behind : List (Phrase Nat)) :
    whole { inlined := true } (frame :: outer) later behind
      = whole frame outer [.ofSpine later] behind := rfl

namespace Reading

/-- The groups open while reading, from the inside out. -/
def frames (reading : Reading) : List Frame := reading.inner :: reading.outer

/-- The λ-term of the whole stream, with the phrases still to be read. -/
def wholeWith (reading : Reading) (ahead : Phrase Nat × List (Phrase Nat)) : Term Nat :=
  whole reading.inner reading.outer (ahead.1.terms (scope reading.frames)) ahead.2

/-- What one token does to what has been read: the standings stay right, the spelling of the token
    is met, and the λ-term of the whole stream is the same with the token still to be read. -/
structure Advanced (known : List (Option String)) (reading : Reading) (token : Token)
    (reading' : Reading) : Prop where
  sound : Sound known reading'.frames reading'.spellings
  keys : reading'.spellings.keys = meetToken reading.spellings.keys token
  wholeWith (ahead : Phrase Nat × List (Phrase Nat)) :
    reading.wholeWith (Phrase.readToken known.idxOf token ahead) = reading'.wholeWith ahead

/-! ## What each token does -/

/-- A name can be bound if it is new or has been bound by groups that are closed. -/
def Bindable (spellings : Spellings) (name : Option String) : Prop :=
  spellings.find? name = none ∨ ∃ copy, spellings.find? name = some (.closed copy)

theorem Bindable.not_live {spellings : Spellings} {name : Option String}
    (h : Bindable spellings name) (level position : Nat) (copy : Int) :
    spellings.find? name ≠ some (.live level position copy) := by
  intro hlive
  rcases h with hnone | ⟨_, hclosed⟩
  · rw [hnone] at hlive
    cases hlive
  · rw [hclosed] at hlive
    cases hlive

theorem bind_eq_ok_iff {reading reading' : Reading} {name : Option String} :
    reading.bind name = .ok reading'
      ↔ Bindable reading.spellings name
        ∧ ∃ copy, copy = (reading.spellings.find? name).elim 0 Standing.nextCopy
          ∧ reading' = { reading with
              inner := reading.inner.bind { name := reading.spellings.id name, copy }
              spellings := reading.spellings.put name
                (.live reading.level reading.inner.params.length copy) } := by
  unfold Reading.bind Bindable
  cases hfind : reading.spellings.find? name with
  | none => simp [Frame.bind, eq_comm]
  | some standing => cases standing <;> simp [Frame.bind, eq_comm, Standing.nextCopy]

/-- What using a name does: it adds a reference if the name is bound by an open group, and otherwise
    a free name, which has been free before or is new. -/
theorem use_eq_ok {reading reading' : Reading} {name : Option String}
    (h : reading.use name = .ok reading') :
    (∃ level position copy, reading.spellings.find? name = some (.live level position copy)
      ∧ reading' = { reading with
          inner := reading.inner.add (.bound ((reading.level : Int) - level) position) })
    ∨ (reading.spellings.find? name = some .constant
      ∧ reading' = { reading with inner := reading.inner.add (.free (reading.spellings.id name)) })
    ∨ (reading.spellings.find? name = none
      ∧ reading' = { reading with
          inner := reading.inner.add (.free (reading.spellings.id name))
          spellings := reading.spellings.put name .constant }) := by
  unfold Reading.use at h
  split at h
  · next hfind => exact Or.inl ⟨_, _, _, hfind, (Except.ok.inj h).symm⟩
  · cases h
  · next hfind => exact Or.inr (Or.inl ⟨hfind, (Except.ok.inj h).symm⟩)
  · next hfind => exact Or.inr (Or.inr ⟨hfind, (Except.ok.inj h).symm⟩)

theorem bind_spec {known : List (Option String)} {reading reading' : Reading} {name : Option String}
    (h : Sound known reading.frames reading.spellings) (hempty : reading.inner.elements = [])
    (hknown : meet reading.spellings.keys name <+: known)
    (hbind : reading.bind name = .ok reading') :
    Advanced known reading { kind := .func, name } reading' := by
  obtain ⟨hbindable, copy, -, rfl⟩ := bind_eq_ok_iff.mp hbind
  refine ⟨h.bind hempty hknown hbindable.not_live copy, keys_put _ _ _, ?_⟩
  intro ahead
  have hscope := scope_bind reading.inner { name := reading.spellings.id name, copy } reading.outer
  rw [wholeWith, wholeWith, frames, frames, hscope, whole_bind hempty, id_eq_idxOf hknown]
  rfl

/-- A name becomes an element with the λ-term that it has by lexical scoping. -/
theorem advanced_add {known : List (Option String)} {reading : Reading} {name : Option String}
    {spellings : Spellings} {element : Node} (h : Sound known reading.frames spellings)
    (hkeys : spellings.keys = meet reading.spellings.keys name)
    (helement : ElementSound known.length reading.frames element)
    (hterm : element.term (counts reading.frames)
      = Phrase.resolve (scope reading.frames) (known.idxOf name)) :
    Advanced known reading { kind := .var, name }
      { reading with inner := reading.inner.add element, spellings } := by
  refine ⟨h.add helement, hkeys, ?_⟩
  intro ahead
  rw [wholeWith, wholeWith, whole_add]
  exact congrArg (whole _ _ · _) (congrArg (· :: _) hterm.symm)

theorem use_spec {known : List (Option String)} {reading reading' : Reading} {name : Option String}
    (h : Sound known reading.frames reading.spellings)
    (hknown : meet reading.spellings.keys name <+: known) (huse : reading.use name = .ok reading') :
    Advanced known reading { kind := .var, name } reading' := by
  have hmem : name ∈ known := hknown.subset (mem_meet _ _)
  have hmet {standing : Standing} (hfind : reading.spellings.find? name = some standing) :
      reading.spellings.keys = meet reading.spellings.keys name :=
    (if_pos (mem_keys_of_find? hfind)).symm
  rcases use_eq_ok huse with ⟨level, position, copy, hfind, rfl⟩ | ⟨hfind, rfl⟩ | ⟨hfind, rfl⟩
  · obtain ⟨helement, hterm⟩ := h.reference hfind
    exact advanced_add h (hmet hfind) helement hterm
  · obtain ⟨helement, hterm⟩ := h.freeName hmem (by rw [hfind]; nofun)
    rw [id_eq_idxOf hknown]
    exact advanced_add h (hmet hfind) helement hterm
  · obtain ⟨helement, hterm⟩ := h.freeName hmem (by rw [hfind]; nofun)
    rw [id_eq_idxOf hknown]
    exact advanced_add (h.putConstant hknown hfind) (keys_put _ _ _) helement hterm

/-- Closing groups: by induction on the groups around, since those inlined in a group end with
    it. -/
theorem leave_spec {known : List (Option String)} {outer : List Frame} {inner : Frame}
    {spellings : Spellings} {reading' : Reading} (h : Sound known (inner :: outer) spellings)
    (hleave : leave inner spellings outer = .ok reading') :
    Sound known reading'.frames reading'.spellings ∧ reading'.spellings.keys = spellings.keys
      ∧ ∀ ahead, whole inner outer [] (ahead.1 :: ahead.2) = reading'.wholeWith ahead := by
  induction outer generalizing inner spellings with
  | nil => cases hleave
  | cons around outer ih =>
    have hpop := h.pop.add h.node.1
    have hkeys := OrderedTable.keys_mapValues (·.closeLevel (outer.length + 2)) spellings
    rw [leave] at hleave
    cases hinlined : inner.inlined with
    | true =>
      simp only [hinlined, if_true] at hleave
      obtain ⟨hsound, hkeys', hwhole⟩ := ih hpop hleave
      refine ⟨hsound, hkeys'.trans hkeys, ?_⟩
      intro ahead
      rw [← hwhole, whole_add, whole, hinlined, if_pos rfl, h.close_nil]
    | false =>
      simp only [hinlined, Bool.false_eq_true, if_false] at hleave
      obtain rfl := Except.ok.inj hleave
      refine ⟨hpop, hkeys, ?_⟩
      intro ahead
      rw [wholeWith, whole_add, whole, hinlined, if_neg Bool.false_ne_true, h.close_nil]
      rfl

theorem eq_of_enter {room : Option Nat} {inlined : Bool} {reading reading' : Reading}
    (h : reading.enter room inlined = .ok reading') :
    reading' = { reading with inner := { inlined }, outer := reading.inner :: reading.outer } := by
  unfold Reading.enter at h
  split at h
  · cases h
  · exact (Except.ok.inj h).symm

/-- A name bound behind other elements opens an inlined group. -/
theorem abstraction_spec {known : List (Option String)} {room : Option Nat}
    {reading entered reading' : Reading} {name : Option String}
    (h : Sound known reading.frames reading.spellings)
    (hknown : meet reading.spellings.keys name <+: known)
    (henter : reading.enter room true = .ok entered) (hbind : entered.bind name = .ok reading') :
    Advanced known reading { kind := .func, name } reading' := by
  have hentered := eq_of_enter henter
  have hsound : Sound known entered.frames entered.spellings := by
    rw [hentered]
    exact h.enter true
  have hempty : entered.inner.elements = [] := by rw [hentered]
  have hspellings : entered.spellings = reading.spellings := by rw [hentered]
  rw [← hspellings] at hknown
  obtain ⟨hsound', hkeys, hwhole⟩ := bind_spec hsound hempty hknown hbind
  rw [hspellings] at hkeys
  refine ⟨hsound', hkeys, fun ahead => Eq.trans ?_ (hwhole ahead)⟩
  rw [hentered]
  exact (whole_enter_inlined reading.inner reading.outer
    [.lam (.ofSpine (ahead.1.terms (known.idxOf name :: scope reading.frames)))] ahead.2).symm

/-- Reading a token keeps the λ-term of the whole stream. -/
theorem step_spec {known : List (Option String)} {room : Option Nat} {reading reading' : Reading}
    {token : Token} (h : Sound known reading.frames reading.spellings)
    (hknown : meetToken reading.spellings.keys token <+: known)
    (hstep : reading.step room token = .ok reading') : Advanced known reading token reading' := by
  obtain ⟨kind, name⟩ := token
  cases kind with
  | opening =>
    obtain rfl := eq_of_enter hstep
    exact ⟨h.enter false, rfl, fun ahead => (whole_enter reading.inner reading.outer _ _).symm⟩
  | closing =>
    obtain ⟨hsound, hkeys, hwhole⟩ := leave_spec h hstep
    exact ⟨hsound, hkeys, hwhole⟩
  | func =>
    unfold Reading.step at hstep
    -- Behind other elements a bound name opens a group of its own.
    by_cases hempty : reading.inner.elements.isEmpty
    · rw [if_pos hempty] at hstep
      exact bind_spec h (List.isEmpty_iff.mp hempty) hknown hstep
    · rw [if_neg hempty] at hstep
      cases henter : reading.enter room true with
      | error stop =>
        rw [henter] at hstep
        cases hstep
      | ok entered =>
        rw [henter] at hstep
        exact abstraction_spec h hknown henter hstep
  | var => exact use_spec h hknown hstep
  | stray label => cases hstep

/-- Reading a whole stream, by induction on its tokens. -/
theorem foldlM_spec {known : List (Option String)} {room : Option Nat} {tokens : List Token}
    {reading reading' : Reading} (h : Sound known reading.frames reading.spellings)
    (hknown : meetAll reading.spellings.keys tokens <+: known)
    (hrun : tokens.foldlM (Reading.step room) reading = .ok reading') :
    Sound known reading'.frames reading'.spellings
      ∧ reading'.spellings.keys = meetAll reading.spellings.keys tokens
      ∧ reading.wholeWith (Phrase.read known.idxOf tokens) = reading'.wholeWith (.done, []) := by
  induction tokens generalizing reading with
  | nil =>
    obtain rfl := Except.ok.inj hrun
    exact ⟨h, rfl, rfl⟩
  | cons token tokens ih =>
    rw [List.foldlM_cons] at hrun
    cases hstep : reading.step room token with
    | error stop =>
      rw [hstep] at hrun
      cases hrun
    | ok between =>
      rw [hstep] at hrun
      have hprefix := (prefix_meetAll (meetToken reading.spellings.keys token) tokens).trans hknown
      obtain ⟨hsound, hkeys, hwhole⟩ := step_spec h hprefix hstep
      obtain ⟨hsound', hkeys', hwhole'⟩ := ih hsound (hkeys ▸ hknown) hrun
      refine ⟨hsound', hkeys'.trans (by rw [hkeys]; rfl), ?_⟩
      exact (hwhole (Phrase.read known.idxOf tokens)).trans hwhole'

/-- The end of the stream closes all groups: by induction on those around the innermost one. -/
theorem finish_spec {known : List (Option String)} {outer : List Frame} {inner : Frame}
    {spellings : Spellings} (h : Sound known (inner :: outer) spellings) :
    ElementSound known.length [] (finish inner spellings outer).1
      ∧ (finish inner spellings outer).2.keys = spellings.keys
      ∧ (finish inner spellings outer).1.term [] = whole inner outer [] [] := by
  induction outer generalizing inner spellings with
  | nil =>
    exact ⟨h.node.1, OrderedTable.keys_mapValues _ _, h.close_nil.symm⟩
  | cons around outer ih =>
    obtain ⟨hroot, hkeys, hwhole⟩ := ih (h.pop.add h.node.1)
    refine ⟨hroot, hkeys.trans (OrderedTable.keys_mapValues _ _), hwhole.trans ?_⟩
    rw [whole_add, whole, h.close_nil]
    -- Nothing is left to be read, so that an inlined group and any other one end alike.
    split <;> rfl

end Reading

/-! ## The name table -/

/-- Every spelling has an entry in the name table. -/
theorem size_nameTable {spellings : Spellings} {names : NameTable}
    (h : nameTable spellings = .ok names) : names.size = spellings.keys.length := by
  obtain ⟨texts, hkeys, rfl⟩ := nameTable_eq_ok h
  have hlength := congrArg List.length hkeys
  rw [List.length_map] at hlength
  have hentries : spellings.entries.length = texts.length := by
    rw [← hlength, OrderedTable.keys, List.length_map]
  simp only [namesOf, unqualified, NameTable.size, List.length_zipWith, List.length_map, hentries,
    hlength, length_unqualifiedFrom, Nat.min_self]

end Binding

namespace Expression

open Binding

/-- What has been read when an expression has been built: the tree, and a name for every
    spelling. -/
theorem exists_of_ofTokens {room : Option Nat} {tokens : List Token} {expression : Expression}
    (h : ofTokensWithin room tokens = .ok expression) :
    ∃ reading spellings, tokens.foldlM (Reading.step room) {} = .ok reading
      ∧ Reading.finish reading.inner reading.spellings reading.outer = (expression.root, spellings)
      ∧ spellings.keys = meetAll [] tokens ∧ nameTable spellings = .ok expression.names := by
  unfold ofTokensWithin at h
  split at h
  · cases h
  · obtain ⟨reading, hrun, h⟩ := Outcome.bind_eq_ok.mp h
    obtain ⟨names, hnames, ⟨⟩⟩ := Outcome.bind_eq_ok.mp h
    obtain ⟨hsound, hkeys, _⟩ := Reading.foldlM_spec
      (sound_start (meetAll [] tokens)) (List.prefix_refl _) hrun
    exact ⟨reading, _, hrun, rfl, (Reading.finish_spec hsound).2.1.trans hkeys, hnames⟩

/-- An expression that is built has no reference that leads nowhere and no name without an entry,
    and its λ-term is that of the phrase that its tokens spell. -/
theorem ofTokens_spec {room : Option Nat} {tokens : List Token} {expression : Expression}
    (h : ofTokensWithin room tokens = .ok expression) :
    expression.root.WellScoped [] ∧ expression.root.NamesWithin expression.names.size
      ∧ expression.root.term []
        = ((Phrase.ofTokens tokens).map (meetAll [] tokens).idxOf).term [] := by
  obtain ⟨reading, spellings, hrun, hfinish, hkeys, hnames⟩ := exists_of_ofTokens h
  obtain ⟨hsound, _, hwhole⟩ := Reading.foldlM_spec
    (sound_start (meetAll [] tokens)) (List.prefix_refl _) hrun
  obtain ⟨⟨hscoped, hwithin⟩, _, hterm⟩ := Reading.finish_spec hsound
  rw [hfinish] at hscoped hwithin hterm
  refine ⟨hscoped, ?_, hterm.trans (hwhole.symm.trans ?_)⟩
  · rw [size_nameTable hnames, hkeys]
    exact hwithin
  · have hread := Phrase.read_map id (meetAll [] tokens).idxOf tokens
    exact congrArg (fun ahead => Term.ofSpine (ahead.1.terms [])) hread

end Expression

end LambdaCalc
