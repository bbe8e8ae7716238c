import LambdaCalc.Proofs.Expression.Aliases
import LambdaCalc.Proofs.Layout.Outline
import LambdaCalc.Proofs.Node.Matching

set_option autoImplicit false

/-! # Names that are shown alike

Name tables may have different spellings, and different aliases between them, and still show every
name by the same text and merge the same names (`NameTable.ShownAlike`); or the names of the one may
have other ids in the other one (`NameTable.ShownThrough`). Trees that match are then printed alike
(`Expression.render_eq_of_matches`): the printer asks for the entry that a name is shown through,
but only counts how often it is taken and looks its text up.

So it is with the tables of spellings that differ in nothing but their qualifiers
(`Binding.shownThrough_of_nameTable`), whichever of the spellings that are merged comes first, and
whether or not one of them has no qualifier. -/

namespace LambdaCalc

/-- Every name is shown by the same text, and the same names are merged. -/
structure NameTable.ShownAlike (names names' : NameTable) : Prop where
  size_eq : names.size = names'.size
  spelling_eq {id : Nat} : id < names.size →
    names.spelling (names.canonical id) = names'.spelling (names'.canonical id)
  canonical_eq_iff {id id' : Nat} : id < names.size → id' < names.size →
    (names.canonical id = names.canonical id' ↔ names'.canonical id = names'.canonical id')

/-- Names that are related are shown by the same text, and they are merged where those are that they
    are related to. -/
structure NameTable.ShownThrough (N : Nat → Nat → Prop) (names names' : NameTable) : Prop where
  spelling_eq {id id' : Nat} : N id id' →
    names.spelling (names.canonical id) = names'.spelling (names'.canonical id')
  canonical_eq_iff {id id' other other' : Nat} : N id id' → N other other' →
    (names.canonical id = names.canonical other ↔ names'.canonical id' = names'.canonical other')

namespace NameTable

variable {table table' : NameTable}

theorem SameNames.symm (h : table.SameNames table') : table'.SameNames table :=
  ⟨h.1.symm, h.2.symm⟩

theorem SameNames.canonical_eq (h : table.SameNames table') (id : Nat) :
    table.canonical id = table'.canonical id := by
  rw [canonical, canonical, h.2]

theorem SameNames.spelling_eq (h : table.SameNames table') (id : Nat) :
    table.spelling id = table'.spelling id := by
  rw [NameTable.spelling_eq, NameTable.spelling_eq, h.1]

end NameTable

namespace NameTable.ShownThrough

variable {N : Nat → Nat → Prop} {names names' : NameTable}

/-- Only the spellings and the aliases count for how names are shown. -/
theorem congr (h : names.ShownThrough N names') {counted counted' : NameTable}
    (hsame : counted.SameNames names) (hsame' : counted'.SameNames names') :
    counted.ShownThrough N counted' := by
  constructor
  · intro id id' hid
    rw [hsame.canonical_eq, hsame.spelling_eq, hsame'.canonical_eq, hsame'.spelling_eq]
    exact h.spelling_eq hid
  · intro id id' other other' hid hother
    rw [hsame.canonical_eq, hsame.canonical_eq, hsame'.canonical_eq, hsame'.canonical_eq]
    exact h.canonical_eq_iff hid hother

theorem mono (h : names.ShownThrough N names') {N' : Nat → Nat → Prop}
    (hN : ∀ id id', N' id id' → N id id') : names.ShownThrough N' names' :=
  ⟨fun hid => h.spelling_eq (hN _ _ hid),
    fun hid hother => h.canonical_eq_iff (hN _ _ hid) (hN _ _ hother)⟩

theorem canonical_lt_iff (h : names.ShownThrough N names') {id id' : Nat} (hid : N id id') :
    names.canonical id < names.size ↔ names'.canonical id' < names'.size := by
  constructor
  · intro hlt
    exact Printer.lt_of_spelling ((h.spelling_eq hid).symm.trans (Printer.spelling_of_lt hlt))
  · intro hlt
    exact Printer.lt_of_spelling ((h.spelling_eq hid).trans (Printer.spelling_of_lt hlt))

end NameTable.ShownThrough

namespace NameTable.ShownAlike

variable {names names' : NameTable}

/-- Names that are shown alike are related to themselves. -/
theorem through (h : names.ShownAlike names') :
    names.ShownThrough (fun id id' => id = id' ∧ id < names.size) names' := by
  constructor
  · rintro id _ ⟨rfl, hid⟩
    exact h.spelling_eq hid
  · rintro id _ other _ ⟨rfl, hid⟩ ⟨rfl, hother⟩
    exact h.canonical_eq_iff hid hother

/-- Only the spellings and the aliases count for how names are shown. -/
theorem congr (h : names.ShownAlike names') {counted counted' : NameTable}
    (hsame : counted.SameNames names) (hsame' : counted'.SameNames names') :
    counted.ShownAlike counted' := by
  have hthrough := h.through.congr hsame hsame'
  rw [← hsame.size_eq] at hthrough
  refine ⟨?_, fun hid => hthrough.spelling_eq ⟨rfl, hid⟩,
    fun hid hid' => hthrough.canonical_eq_iff ⟨rfl, hid⟩ ⟨rfl, hid'⟩⟩
  rw [hsame.size_eq, hsame'.size_eq, h.size_eq]

end NameTable.ShownAlike

namespace Printer

variable {N : Nat → Nat → Prop} {names names' : NameTable}

/-! ## Counts and labels -/

/-- Related names are taken equally often. -/
def CountsAlike (N : Nat → Nat → Prop) (names names' : NameTable) (counts counts' : List Nat) :
    Prop :=
  ∀ ⦃id id'⦄, N id id' → counts[names.canonical id]? = counts'[names'.canonical id']?

/-- Labels with the same suffix of names that are related. -/
inductive Label.Alike (N : Nat → Nat → Prop) (names names' : NameTable) : Label → Label → Prop where
  | mk {id id' : Nat} (h : N id id') (suffix : Nat) :
      Alike N names names' ⟨names.canonical id, suffix⟩ ⟨names'.canonical id', suffix⟩

/-- Scopes in which there are such labels at the same places. -/
def ScopesAlike (N : Nat → Nat → Prop) (names names' : NameTable) (scopes scopes' : Scopes Label) :
    Prop :=
  List.Forall₂ (List.Forall₂ (Label.Alike N names names')) scopes.scopes scopes'.scopes

section

variable (h : names.ShownThrough N names')

include h

/-- Counting a name keeps the counts alike, because it is merged with the same names. -/
theorem CountsAlike.set {counts counts' : List Nat}
    (hcounts : CountsAlike N names names' counts counts') {id id' : Nat} (hid : N id id')
    (count : Nat) :
    CountsAlike N names names' (counts.set (names.canonical id) count)
      (counts'.set (names'.canonical id') count) := by
  intro other other' hother
  have hmerged := h.canonical_eq_iff hid hother
  rw [List.getElem?_set', List.getElem?_set', hcounts hother]
  by_cases heq : names.canonical id = names.canonical other
  · rw [if_pos heq, if_pos (hmerged.mp heq)]
  · rw [if_neg heq, if_neg (mt hmerged.mpr heq)]

/-- Parameters are labelled alike: by induction on them. -/
theorem labels_alike {params params' : List Param}
    (hparams : List.Forall₂ (Param.Named N) params params')
    {counts counts' : List Nat} (hcounts : CountsAlike N names names' counts counts') :
    Outcome.Alike Eq (fun made made' => List.Forall₂ (Label.Alike N names names') made.1 made'.1
        ∧ CountsAlike N names names' made.2 made'.2)
      (labels names counts params) (labels names' counts' params') := by
  induction hparams generalizing counts counts' with
  | nil => exact .ok ⟨.nil, hcounts⟩
  | cons hparam _ ih =>
    rw [labels, labels]
    simp only [← hcounts hparam]
    split
    · exact .error rfl
    · next suffix _ =>
      refine (ih (hcounts.set h hparam (suffix + 1))).bind fun made made' hmade => ?_
      exact .ok ⟨.cons (.mk hparam suffix) hmade.1, hmade.2⟩

theorem Label.Alike.text_eq {label label' : Label} (hlabel : label.Alike N names names' label') :
    label.text names = label'.text names' := by
  obtain ⟨hid, suffix⟩ := hlabel
  rw [Label.text, Label.text, h.spelling_eq hid]

theorem texts_eq {made made' : List Label}
    (hmade : List.Forall₂ (Label.Alike N names names') made made') :
    made.mapM (Label.text names) = made'.mapM (Label.text names') := by
  induction hmade with
  | nil => rfl
  | cons hlabel _ ih => rw [List.mapM_cons, List.mapM_cons, hlabel.text_eq h, ih]

end

theorem resolve_alike {scopes scopes' : Scopes Label}
    (hscopes : ScopesAlike N names names' scopes scopes') (depth : Int) (position : Nat) :
    Outcome.Alike Eq (Label.Alike N names names') (scopes.resolve depth position)
      (scopes'.resolve depth position) := by
  have hget {α β : Type} {R : α → β → Prop} {values : List α} {values' : List β}
      (hvalues : List.Forall₂ R values values') (place : Nat) :
      Option.Rel R values[place]? values'[place]? := by
    induction hvalues generalizing place with
    | nil => exact .none
    | cons hvalue _ ih =>
      cases place with
      | zero => exact .some hvalue
      | succ place => exact ih place
  have hlookup (depth : Nat) : Option.Rel (Label.Alike N names names')
      (scopes.lookup? depth position) (scopes'.lookup? depth position) := by
    unfold Scopes.lookup?
    generalize hscope : scopes.scopes[depth]? = scope
    generalize hscope' : scopes'.scopes[depth]? = scope'
    have hrel := hget hscopes depth
    rw [hscope, hscope'] at hrel
    cases hrel with
    | none => exact .none
    | some hlabels => exact hget hlabels position
  unfold Scopes.resolve
  cases depth with
  | negSucc depth => exact .error rfl
  | ofNat depth =>
    have hrel := hlookup depth
    dsimp only
    generalize scopes.lookup? depth position = label at hrel ⊢
    generalize scopes'.lookup? depth position = label' at hrel ⊢
    cases hrel with
    | none => exact .error rfl
    | some hlabel => exact .ok hlabel

/-! ## Texts -/

theorem spineUnder_congr {scopes scopes' : Scopes Label} {counts counts' : List Nat}
    {spine spine' : List Node} (helements : List.Forall₂ (fun element element' =>
      nodeUnder limited names scopes counts true element
        = nodeUnder limited names' scopes' counts' true element') spine spine') :
    spineUnder limited names scopes counts spine
      = spineUnder limited names' scopes' counts' spine' := by
  induction helements with
  | nil => rfl
  | cons helement _ ih => rw [spineUnder, spineUnder, helement, ih]

/-- Matching trees are printed alike: by induction on the first of them. -/
theorem node_eq (h : names.ShownThrough N names') {node node' : Node}
    (hnode : node.Matches N (Param.Named N) node') {scopes scopes' : Scopes Label}
    (hscopes : ScopesAlike N names names' scopes scopes') {counts counts' : List Nat}
    (hcounts : CountsAlike N names names' counts counts') (nested : Bool) :
    nodeUnder limited names scopes counts nested node
      = nodeUnder limited names' scopes' counts' nested node' := by
  induction node generalizing node' scopes scopes' counts counts' nested with
  | abs params spine ih =>
    cases hnode with
    | abs hparams hspine =>
      rw [nodeUnder, nodeUnder]
      refine ((labels_alike h hparams hcounts).bind fun made made' hmade => ?_).eq
      have hscopes' : ScopesAlike N names names' (scopes.push made.1) (scopes'.push made'.1) :=
        .cons hmade.1 hscopes
      have helements := spineUnder_congr (Node.forall₂_imp_of_mem hspine
        fun element hmem _ helement => ih element hmem helement hscopes' hmade.2 true)
      dsimp only
      rw [texts_eq h hmade.1, helements]
      exact .of_eq (fun _ => rfl) (fun _ => rfl) _
  | bound depth position =>
    cases hnode
    rw [nodeUnder, nodeUnder]
    refine ((resolve_alike hscopes depth position).bind fun label label' hlabel => ?_).eq
    rw [hlabel.text_eq h]
    exact .of_eq (fun _ => rfl) (fun _ => rfl) _
  | free name =>
    cases hnode with
    | free hname =>
      rw [nodeUnder, nodeUnder]
      exact h.spelling_eq hname
  | hole =>
    cases hnode
    rfl

end Printer

/-- Matching trees have related free names. -/
theorem Node.Matches.freeNames {N : Nat → Nat → Prop} {P : Param → Param → Prop} {node node' : Node}
    (h : node.Matches N P node') : List.Forall₂ N node.freeNames node'.freeNames := by
  induction node generalizing node' with
  | abs params spine ih =>
    cases h with
    | abs _ hspine =>
      have hnames := Node.forall₂_imp_of_mem hspine fun node hmem _ h => ih node hmem h
      rw [Node.freeNames, Node.freeNames]
      clear hspine ih
      induction hnames with
      | nil => exact .nil
      | cons hfirst _ ih => exact List.rel_append hfirst ih
  | bound depth position =>
    cases h
    exact .nil
  | free name =>
    cases h with
    | free h => exact .cons h .nil
  | hole =>
    cases h
    exact .nil

namespace Expression

open Printer

variable {N : Nat → Nat → Prop} {expression expression' : Expression}

/-- The free names are counted alike. -/
theorem outerCounts_alike (h : expression.names.ShownThrough N expression'.names)
    (hroot : expression.root.Matches N (Param.Named N) expression'.root) :
    Outcome.Alike Eq (CountsAlike N expression.names expression'.names) expression.outerCounts
      expression'.outerCounts := by
  have hfree := hroot.freeNames
  unfold outerCounts
  generalize expression.root.freeNames = free at hfree
  generalize expression'.root.freeNames = free' at hfree
  dsimp only
  have hall : ((free.map expression.names.canonical).all (· < expression.names.size))
      = ((free'.map expression'.names.canonical).all (· < expression'.names.size)) := by
    rw [List.all_map, List.all_map]
    induction hfree with
    | nil => rfl
    | cons hname _ ih =>
      rw [List.all_cons, List.all_cons, ih]
      exact congrArg (· && _) (decide_eq_decide.mpr (h.canonical_lt_iff hname))
  rw [hall]
  split
  · next hwithin =>
    refine .ok ?_
    have hstart : CountsAlike N expression.names expression'.names
        (List.replicate expression.names.size 0) (List.replicate expression'.names.size 0) := by
      intro id id' hid
      rw [List.getElem?_replicate, List.getElem?_replicate]
      exact if_congr (h.canonical_lt_iff hid) rfl rfl
    -- Each free name is counted in both, one after the other.
    generalize List.replicate expression.names.size 0 = counts at hstart ⊢
    generalize List.replicate expression'.names.size 0 = counts' at hstart ⊢
    clear hall hwithin
    induction hfree generalizing counts counts' with
    | nil => exact hstart
    | cons hname _ ih => exact ih _ _ (hstart.set h hname 1)
  · exact .error rfl

/-- Expressions with matching trees are printed alike if the names that are related are shown
    alike. -/
theorem render_eq_of_matches (h : expression.names.ShownThrough N expression'.names)
    (hroot : expression.root.Matches N (Param.Named N) expression'.root) :
    expression.render = expression'.render := by
  rw [render_eq_nodeUnder, render_eq_nodeUnder]
  refine ((outerCounts_alike h hroot).bind fun counts counts' hcounts => ?_).eq
  have hscopes : ScopesAlike N expression.names expression'.names {} {} := .nil
  rw [node_eq h hroot hscopes hcounts]
  exact .of_eq (fun _ => rfl) (fun _ => rfl) _

/-- Expressions with the same tree are printed alike if their names are shown alike. -/
theorem render_eq (h : expression.names.ShownAlike expression'.names)
    (hroot : expression.root = expression'.root) (hwellFormed : expression.WellFormed) :
    expression.render = expression'.render := by
  refine render_eq_of_matches h.through ?_
  rw [← hroot]
  have hself := Node.matches_self (N := Eq) (P := Param.Named Eq) (fun _ => rfl) (fun _ => rfl)
    expression.root
  exact hself.within hwellFormed.namesWithin

end Expression

/-! ## Spellings that differ in their qualifiers -/

namespace Binding

open Qualifier

variable {spellings spellings' : Spellings} {names names' : NameTable}

/-- The spellings at two places differ in nothing but their qualifiers. -/
def Spellings.AlikeAt (spellings spellings' : Spellings) (id id' : Nat) : Prop :=
  ∃ spelling spelling', spellings.keys[id]? = some (some spelling)
    ∧ spellings'.keys[id']? = some (some spelling') ∧ short spelling = short spelling'

/-- Names are shown alike if nothing but their qualifiers differs, wherever they are in the
    tables. -/
theorem shownThrough_of_nameTable (h : nameTable spellings = .ok names)
    (h' : nameTable spellings' = .ok names') (hnodup : spellings.keys.Nodup)
    (hnodup' : spellings'.keys.Nodup)
    (honce : ∀ spelling, some spelling ∈ spellings.keys → strip? (short spelling) = none)
    (honce' : ∀ spelling, some spelling ∈ spellings'.keys → strip? (short spelling) = none) :
    names.ShownThrough (spellings.AlikeAt spellings') names' := by
  constructor
  · rintro id id' ⟨_, _, hget, hget', hshort⟩
    rw [spelling_canonical h honce hget, spelling_canonical h' honce' hget', hshort]
  · rintro id id' other other' ⟨_, _, hid, hid', hshort⟩ ⟨_, _, hother, hother', hshort'⟩
    rw [canonical_eq_iff h hnodup honce hid hother, canonical_eq_iff h' hnodup' honce' hid' hother',
      hshort, hshort']

/-- Every place in a name table is that of a spelling. -/
theorem exists_spelling_of_lt (h : nameTable spellings = .ok names) {id : Nat}
    (hid : id < names.size) : ∃ spelling, spellings.keys[id]? = some (some spelling) := by
  obtain ⟨texts, htexts, -⟩ := nameTable_eq_ok h
  rw [size_nameTable h, htexts, List.length_map] at hid
  refine ⟨texts[id], ?_⟩
  rw [htexts, List.getElem?_map, List.getElem?_eq_getElem hid]
  rfl

/-- Renaming spellings changes nothing about how names are shown, if it keeps the spellings apart
    and changes nothing but qualifiers. -/
theorem shownAlike_of_nameTable (h : nameTable spellings = .ok names)
    (h' : nameTable spellings' = .ok names') (hnodup : spellings.keys.Nodup)
    {rename : String → String} (hrename : rename.Injective)
    (hshort : ∀ spelling, short (rename spelling) = short spelling)
    (hkeys : spellings'.keys = spellings.keys.map (Option.map rename))
    (honce : ∀ spelling, some spelling ∈ spellings.keys → strip? (short spelling) = none) :
    names.ShownAlike names' := by
  have hnodup' : spellings'.keys.Nodup := by
    rw [hkeys]
    exact hnodup.map (Option.map_injective hrename)
  have honce' : ∀ spelling, some spelling ∈ spellings'.keys → strip? (short spelling) = none := by
    intro spelling hmem
    rw [hkeys] at hmem
    obtain ⟨key, hkey, heq⟩ := List.mem_map.mp hmem
    obtain ⟨spelling, rfl, rfl⟩ := Option.map_eq_some_iff.mp heq
    rw [hshort]
    exact honce spelling hkey
  -- Every entry is that of a spelling, and of the same spelling renamed.
  have hplace {id : Nat} (hid : id < names.size) : spellings.AlikeAt spellings' id id := by
    obtain ⟨spelling, hget⟩ := exists_spelling_of_lt h hid
    refine ⟨spelling, rename spelling, hget, ?_, (hshort spelling).symm⟩
    rw [hkeys, List.getElem?_map, hget]
    rfl
  have hthrough := shownThrough_of_nameTable h h' hnodup hnodup' honce honce'
  refine ⟨?_, fun hid => hthrough.spelling_eq (hplace hid),
    fun hid hid' => hthrough.canonical_eq_iff (hplace hid) (hplace hid')⟩
  rw [size_nameTable h, size_nameTable h', hkeys, List.length_map]

end Binding

end LambdaCalc
