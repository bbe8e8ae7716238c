import LambdaCalc.Proofs.Layout.Reading
import LambdaCalc.Proofs.Layout.Spelling

set_option autoImplicit false

/-! # Reading back what is printed

If no abstraction is empty and no spelling looks like one with a suffix, the text that is printed
for an expression can be read without any keywords, and built into an expression with the same
λ-term (`Expression.shown_eq_of_render`). The text is that of a readable layout, since all labels
are spelled like names; its phrase is well-named, since different labels are spelled differently. -/

namespace LambdaCalc

/-! ## Trees -/

namespace Node

mutual

/-- No abstraction in a tree is empty. -/
def Filled : Node → Prop
  | .abs _ spine => spine ≠ [] ∧ AllFilled spine
  | .bound .. | .free _ | .hole => True

/-- No abstraction in the elements of a spine is empty. -/
def AllFilled : List Node → Prop
  | [] => True
  | node :: nodes => node.Filled ∧ AllFilled nodes

end

theorem allFilled_iff {nodes : List Node} : AllFilled nodes ↔ ∀ node ∈ nodes, node.Filled := by
  induction nodes with
  | nil => simp [AllFilled]
  | cons node nodes ih => simp [AllFilled, ih]

theorem filled_abs {params : List Param} {spine : List Node} :
    (Node.abs params spine).Filled ↔ spine ≠ [] ∧ ∀ node ∈ spine, node.Filled := by
  rw [Filled, allFilled_iff]

/-- Only the free names in a tree count for how its λ-term is changed: by induction on the tree. -/
theorem NamesWithin.map_term_congr {μ : Type} {f g : Nat → μ} {count : Nat}
    (h : ∀ name < count, f name = g name) {node : Node} (hnames : node.NamesWithin count)
    (scopes : List Nat) : (node.term scopes).map f = (node.term scopes).map g := by
  induction node generalizing scopes with
  | abs params spine ih =>
    have hspine := (namesWithin_abs.mp hnames).2
    rw [term_abs, Term.map_lams, Term.map_lams, Term.map_ofSpine, Term.map_ofSpine, List.map_map,
      List.map_map]
    congr 2
    exact List.map_congr_left fun node hmem => ih node hmem (hspine node hmem) _
  | bound depth position =>
    rw [term, referenceTerm]
    split <;> rfl
  | free name => exact congrArg Term.free (h name hnames)
  | hole => rfl

end Node

/-! ## Labels are spelled like names -/

namespace Printer

theorem isName_suffixed {spelling : String} (h : Word.isName spelling = true) (suffix : Nat) :
    Word.isName (suffixed spelling suffix) = true := by
  unfold Word.isName at h ⊢
  rw [toList_suffixed]
  split at h
  · next c cs hspelling =>
    obtain ⟨halpha, hall⟩ := Bool.and_eq_true_iff.mp h
    have hdigits : (Nat.toDigits 10 suffix).all Word.isWordChar = true := by
      refine List.all_eq_true.mpr fun c hc => ?_
      have hdigit := Nat.isDigit_of_mem_toDigits (by decide : 0 < 10) (by decide) hc
      rw [Word.isWordChar, Char.isAlphanum, hdigit, Bool.or_true, Bool.true_or]
    rw [hspelling, List.cons_append]
    show (c.isAlpha && (cs ++ '_' :: Nat.toDigits 10 suffix).all Word.isWordChar) = true
    rw [List.all_append, List.all_cons, halpha, hall, hdigits]
    rfl
  · cases h

variable {names : NameTable}

theorem Label.isName_shown (hlegible : names.Legible) {label : Label} (h : label.Listed names) :
    Word.isName (label.shown names) = true := by
  have hlt := h.lt hlegible
  obtain ⟨id, hid, hname⟩ := h
  obtain ⟨spelling, hspelling, hisName⟩ := hlegible.exists_spelling hid
  rw [hname, spelling_of_lt hlt, Except.ok.injEq] at hspelling
  unfold Label.shown
  simp only [hspelling]
  split
  · exact hisName
  · exact isName_suffixed hisName label.suffix

/-- The outline of a tree without empty abstractions is readable: by induction on the tree. -/
theorem readable_of_outline (hlegible : names.Legible) {node : Node} {scopes : Scopes Label}
    {counts : List Nat} {layout : Layout Label} (hfilled : node.Filled)
    (hnames : node.NamesWithin names.size)
    (hscopes : ∀ label ∈ scopes.entries, label.Listed names)
    (h : outline names scopes counts node = .ok layout) :
    (layout.map (Label.shown names)).Readable := by
  induction node generalizing scopes counts layout with
  | abs params spine ih =>
    obtain ⟨hne, hspine⟩ := Node.filled_abs.mp hfilled
    obtain ⟨hparams, hnames⟩ := Node.namesWithin_abs.mp hnames
    obtain ⟨made, counts', elements, hmade, helements, rfl⟩ := outline_abs_eq_ok_iff.mp h
    have hlisted := listed_of_labels hparams hmade
    have hscopes' : ∀ label ∈ (scopes.push made).entries, label.Listed names := by
      rw [Scopes.entries_push]
      exact List.forall_mem_append.mpr
        ⟨fun label hmem => hlisted label (List.mem_reverse.mp hmem), hscopes⟩
    have hreadable := forall_of_map_eq helements fun node hmem layout houtline =>
      ih node hmem (hspine node hmem) (hnames node hmem) hscopes' houtline
    rw [Layout.map, Layout.mapList_eq_map, Layout.readable_abs]
    refine ⟨List.forall_mem_map.mpr fun label hmem =>
      Label.isName_shown hlegible (hlisted label hmem), ?_, List.forall_mem_map.mpr hreadable⟩
    intro hempty
    rw [List.map_eq_nil_iff] at hempty
    rw [hempty] at helements
    exact hne (List.map_eq_nil_iff.mp helements)
  | bound depth position =>
    obtain ⟨label, hlabel, ⟨⟩⟩ := Outcome.bind_eq_ok.mp h
    exact Label.isName_shown hlegible (hscopes label (Scopes.mem_entries_of_resolve hlabel))
  | free name =>
    cases h
    exact Label.isName_shown hlegible ⟨name, hnames, rfl⟩
  | hole => cases h

/-- In the phrase of a clear layout no labels clash when they are spelled out. -/
theorem not_clash_shown (hlegible : names.Legible) (hunsuffixed : names.Unsuffixed)
    {free : List Label} {layout : Layout Label} (hclear : layout.Clear free {})
    (hlisted : ∀ label ∈ layout.phrase.names, label.Listed names) :
    ¬ layout.phrase.Clash (Label.shown names) := by
  refine hclear.wellNamed_phrase.not_clash fun a ha b hb heq => ?_
  by_contra hne
  exact (Label.shown_ne_iff hlegible (hlisted a ha) (hlisted b hb) hne).mpr
    ⟨Label.not_mimics hlegible hunsuffixed (hlisted a ha) (hlisted b hb),
      Label.not_mimics hlegible hunsuffixed (hlisted b hb) (hlisted a ha)⟩ heq

end Printer

/-! ## Expressions -/

namespace Expression

open Printer

/-- What is printed is read back as the same λ-term, in which each free variable has the name that
    is shown for it. -/
theorem shown_eq_of_render {table : KeywordTable} (htable : table.Reachable)
    {text printed : String} {expression : Expression} (hyields : table.Yields text expression)
    (hfilled : expression.root.Filled) (hunsuffixed : expression.names.Unsuffixed)
    (hrender : expression.render = .ok printed) :
    ∃ (tokens : List Token) (readBack : Expression) (term : Term String),
      KeywordTable.tokenize {} printed = .ok tokens
      ∧ ofTokens tokens = .ok readBack
      ∧ readBack.shown = term.map .ok ∧ expression.shown = term.map .ok := by
  have hformed := hyields.wellFormed
  have hlegible := hyields.legible htable
  obtain ⟨layout, hlayout, hclear, hlisted, hprinted⟩ := hyields.exists_outline hrender
  obtain ⟨_, _, houtline⟩ := Outcome.bind_eq_ok.mp hlayout
  have hreadable := @readable_of_outline _ hlegible _ {} _ _ hfilled hformed.namesWithin
    (List.forall_mem_nil _) houtline
  -- What is read is the phrase of the layout, with the labels spelled out.
  have hphrase : Phrase.ofText printed = layout.phrase.map (Label.shown expression.names) := by
    rw [hprinted, hreadable.phrase_ofText, Layout.phrase_map]
  have hlisted' (label : Label) (hmem : label ∈ layout.phrase.names) :
      label.Listed expression.names := hlisted label (hclear.names_phrase hmem)
  have hclash := not_clash_shown hlegible hunsuffixed hclear hlisted'
  have hnamed : (Phrase.ofText printed).WellNamed := hphrase ▸ Phrase.wellNamed_map hclash
  have hwords : ∀ word ∈ (Phrase.ofText printed).names, Word.isName word = true := by
    rw [hphrase, Phrase.names_map]
    exact List.forall_mem_map.mpr fun label hmem =>
      Label.isName_shown hlegible (hlisted' label hmem)
  obtain ⟨tokens, htokens, hne⟩ := hprinted ▸ hreadable.exists_tokenize
  obtain ⟨readBack, hbuilt, hshown⟩ := hnamed.exists_shown hwords htokens hne
  have hterm : layout.phrase.term [] = (expression.root.term []).map fun id =>
      .bare (expression.names.canonical id) :=
    @term_phrase _ _ _ {} _ _ hclear List.nodup_nil (List.forall_mem_nil _) houtline
  -- Spelling labels out changes only the names of free variables in the λ-term.
  refine ⟨tokens, readBack, (Phrase.ofText printed).term [], htokens, hbuilt, hshown, ?_⟩
  rw [hphrase, Phrase.term_map hclash, hterm, Term.map_map, Term.map_map, shown]
  refine hformed.namesWithin.map_term_congr (fun id hid => ?_) []
  obtain ⟨_, hspelling, _⟩ := hlegible.exists_spelling hid
  exact spelling_of_lt (lt_of_spelling hspelling)

/-- In `(λg.g k) (λf.λy.y f x)` after `k = λx.x`, the parameter of `k` is told apart from the free
    `x` by a suffix, with which it is read back. -/
theorem shown_eq_of_render_suffix :
    KeywordTable.Reachable {
      keywords := { entries := [("k", [.opening, .func "$k$x", .var "$k$x", .closing])] }
      sources := { entries := [("k", "λx.x")] } }
    ∧ KeywordTable.Yields {
      keywords := { entries := [("k", [.opening, .func "$k$x", .var "$k$x", .closing])] }
      sources := { entries := [("k", "λx.x")] } }
        "(λg.g k) (λf.λy.y f x)" {
        root := .abs [⟨3, 1⟩] [.bound 0 0, .abs [⟨1, 1⟩] [.bound 0 0], .free 4]
        names := {
          entries := [⟨"g", 1⟩, ⟨"$k$x", 2⟩, ⟨"f", 2⟩, ⟨"y", 2⟩, ⟨"x", 0⟩]
          aliases := { entries := [(1, 4)] } } }
    ∧ (Node.abs [⟨3, 1⟩] [.bound 0 0, .abs [⟨1, 1⟩] [.bound 0 0], .free 4]).Filled
    ∧ NameTable.Unsuffixed {
        entries := [⟨"g", 1⟩, ⟨"$k$x", 2⟩, ⟨"f", 2⟩, ⟨"y", 2⟩, ⟨"x", 0⟩]
        aliases := { entries := [(1, 4)] } }
    ∧ Expression.render {
        root := .abs [⟨3, 1⟩] [.bound 0 0, .abs [⟨1, 1⟩] [.bound 0 0], .free 4]
        names := {
          entries := [⟨"g", 1⟩, ⟨"$k$x", 2⟩, ⟨"f", 2⟩, ⟨"y", 2⟩, ⟨"x", 0⟩]
          aliases := { entries := [(1, 4)] } } } = .ok "λy.(y (λx_1.x_1) x)"
    ∧ ∃ tokens readBack, KeywordTable.tokenize {} "λy.(y (λx_1.x_1) x)" = .ok tokens
      ∧ ofTokens tokens = .ok readBack
      ∧ readBack.shown = .lam (.app (.app (.var 0) (.lam (.var 0))) (.free (.ok "x"))) := by
  have hdefine : KeywordTable.define {} "k" "λx.x" = .ok {
      keywords := { entries := [("k", [.opening, .func "$k$x", .var "$k$x", .closing])] }
      sources := { entries := [("k", "λx.x")] } } := by decide +kernel
  have htable := KeywordTable.Reachable.define KeywordTable.reachable_empty hdefine
  have htokens : KeywordTable.tokenize {
      keywords := { entries := [("k", [.opening, .func "$k$x", .var "$k$x", .closing])] }
      sources := { entries := [("k", "λx.x")] } }
      "(λg.g k) (λf.λy.y f x)"
      = .ok [.opening, .opening, .func "g", .var "g", .opening, .func "$k$x", .var "$k$x", .closing,
        .closing, .opening, .func "f", .func "y", .var "y", .var "f", .var "x", .closing,
        .closing] := by decide +kernel
  have hbuilt : ofTokensWithin none [.opening, .opening, .func "g", .var "g", .opening,
        .func "$k$x", .var "$k$x", .closing, .closing, .opening, .func "f", .func "y", .var "y",
        .var "f", .var "x", .closing, .closing]
      = .ok {
        root := .abs [] [.abs [⟨0, 0⟩] [.bound 0 0, .abs [⟨1, 0⟩] [.bound 0 0]],
          .abs [⟨2, 0⟩, ⟨3, 0⟩] [.bound 0 1, .bound 0 0, .free 4]]
        names := {
          entries := [⟨"g", 1⟩, ⟨"$k$x", 1⟩, ⟨"f", 1⟩, ⟨"y", 1⟩, ⟨"x", 0⟩]
          aliases := { entries := [(1, 4)] } } } := by cbv
  have hreduce : reduce { nesting := 16, copying := 16 } {
        root := .abs [] [.abs [⟨0, 0⟩] [.bound 0 0, .abs [⟨1, 0⟩] [.bound 0 0]],
          .abs [⟨2, 0⟩, ⟨3, 0⟩] [.bound 0 1, .bound 0 0, .free 4]]
        names := {
          entries := [⟨"g", 1⟩, ⟨"$k$x", 1⟩, ⟨"f", 1⟩, ⟨"y", 1⟩, ⟨"x", 0⟩]
          aliases := { entries := [(1, 4)] } } }
      = .ok {
        root := .abs [⟨3, 1⟩] [.bound 0 0, .abs [⟨1, 1⟩] [.bound 0 0], .free 4]
        names := {
          entries := [⟨"g", 1⟩, ⟨"$k$x", 2⟩, ⟨"f", 2⟩, ⟨"y", 2⟩, ⟨"x", 0⟩]
          aliases := { entries := [(1, 4)] } } } := rfl
  have hyields := KeywordTable.Yields.reduced (.built htokens hbuilt) hreduce
  have hfilled :
      (Node.abs [⟨3, 1⟩] [.bound 0 0, .abs [⟨1, 1⟩] [.bound 0 0], .free 4]).Filled := by
    simp [Node.Filled, Node.AllFilled]
  have hunsuffixed : NameTable.Unsuffixed {
        entries := [⟨"g", 1⟩, ⟨"$k$x", 2⟩, ⟨"f", 2⟩, ⟨"y", 2⟩, ⟨"x", 0⟩]
        aliases := { entries := [(1, 4)] } } :=
    NameTable.unsuffixed_of_not_mem (by decide)
  have hrender : Expression.render {
        root := .abs [⟨3, 1⟩] [.bound 0 0, .abs [⟨1, 1⟩] [.bound 0 0], .free 4]
        names := {
          entries := [⟨"g", 1⟩, ⟨"$k$x", 2⟩, ⟨"f", 2⟩, ⟨"y", 2⟩, ⟨"x", 0⟩]
          aliases := { entries := [(1, 4)] } } } = .ok "λy.(y (λx_1.x_1) x)" := by decide +kernel
  obtain ⟨tokens, readBack, term, hread, hbuilt', hshown, hshown'⟩ :=
    shown_eq_of_render htable hyields hfilled hunsuffixed hrender
  exact ⟨htable, hyields, hfilled, hunsuffixed, hrender, tokens, readBack, hread, hbuilt',
    hshown.trans hshown'.symm⟩

end Expression

end LambdaCalc
