import LambdaCalc.Proofs.Keyword.History

set_option autoImplicit false

/-! # When keywords are expanded without capture

The names in the body of a keyword are qualified by the keyword alone. So a text and the definitions
behind it cannot get in each other's way, unless a keyword has been defined more than once and an
older definition of it is still in use: the names of both are spelled alike. Where one of them is
bound inside the scope of the other, or one is bound and the other free, the definitions collide
(`History.Collides`).

A text that is well-named itself, after definitions with well-named bodies, is built into an
expression that denotes what the text denotes exactly if no definitions collide in it
(`History.denotes_iff_not_collides`). -/

namespace LambdaCalc

open Qualifier

/-! ## Names in tokens -/

namespace Binding

theorem named_of_mem_meetAll {Good : String → Prop} {tokens : List Token}
    (htokens : ∀ token ∈ tokens, token.Named Good) {keys : List (Option String)}
    (hkeys : ∀ name ∈ keys, ∃ spelling, name = some spelling ∧ Good spelling) :
    ∀ name ∈ meetAll keys tokens, ∃ spelling, name = some spelling ∧ Good spelling := by
  induction tokens generalizing keys with
  | nil => exact hkeys
  | cons token tokens ih =>
    obtain ⟨htoken, htokens⟩ := List.forall_mem_cons.mp htokens
    refine @ih htokens (meetToken keys token) ?_
    have hmeet (hname : ∃ name, token.name = some name ∧ Good name) :
        ∀ name ∈ meet keys token.name, ∃ spelling, name = some spelling ∧ Good spelling := by
      unfold meet
      split
      · exact hkeys
      · exact List.forall_mem_append.mpr ⟨hkeys, List.forall_mem_singleton.mpr hname⟩
    obtain ⟨kind, name⟩ := token
    cases kind with
    | opening | closing => exact hkeys
    | func | var => exact hmeet htoken
    | stray label => cases htoken

end Binding

/-! ## Names that clash -/

theorem Phrase.wellNamed_group_done_iff {ν : Type} [DecidableEq ν] {phrase : Phrase ν} :
    (Phrase.group phrase .done).WellNamed ↔ phrase.WellNamed := by
  have hnestings : (Phrase.group phrase .done).nestings [] = phrase.nestings [] := List.append_nil _
  have hbinders : (Phrase.group phrase .done).binders = phrase.binders := List.append_nil _
  have hfree : (Phrase.group phrase .done).free [] = phrase.free [] := List.append_nil _
  constructor <;> rintro ⟨hne, hnot⟩
  · exact ⟨hnestings ▸ hne, hfree ▸ hbinders ▸ hnot⟩
  · exact ⟨hnestings.symm ▸ hne, hfree.symm ▸ hbinders.symm ▸ hnot⟩

/-- Tokens that spell a phrase are built into an expression with its λ-term unless names clash once
    they are spelled out. -/
theorem Phrase.Spells.exists_shown_iff {tokens : List Token} {phrase : Phrase Written}
    (hspells : Phrase.Spells tokens (phrase.map fun name => some name.spelling))
    (hnamed : ∀ token ∈ tokens, token.Named fun spelling => strip? (short spelling) = none)
    (hne : tokens ≠ []) :
    (∃ expression, Expression.ofTokens tokens = .ok expression
        ∧ expression.shown = (phrase.term []).map fun name => .ok (short name.spelling))
      ↔ ¬ phrase.Clash fun name => some name.spelling := by
  have hphrase :
      Phrase.ofTokens tokens = .group (phrase.map fun name => some name.spelling) .done := by
    rw [Phrase.ofTokens, hspells.ofTokens]
  have hmet := @Binding.named_of_mem_meetAll _ _ hnamed [] (List.forall_mem_nil _)
  have hstray : ∀ token ∈ tokens, ∀ label, token.kind ≠ .stray label := by
    intro token htoken label hlabel
    have hnot := hnamed token htoken
    rw [Token.Named, hlabel] at hnot
    exact hnot
  -- Every name is spelled, so that nothing but the use of names can be wrong.
  have hbuilt : (∃ expression, Expression.ofTokens tokens = .ok expression)
      ↔ (phrase.map fun name => some name.spelling).WellNamed := by
    rw [Expression.ofTokens_isOk_iff hstray, hspells.ofTokens, hphrase,
      Phrase.wellNamed_group_done_iff]
    refine ⟨fun h => h.2.2.2, fun h => ⟨hne, fun hmem => ?_, rfl, h⟩⟩
    obtain ⟨_, heq, _⟩ := hmet none hmem
    cases heq
  have hshown {expression : Expression} (h : Expression.ofTokens tokens = .ok expression) :
      expression.shown = ((phrase.map fun name => some name.spelling).term []).map
        fun name => .ok (short (name.getD "")) := by
    rw [Expression.shown_ofTokens h hstray fun spelling hmem => ?_, hphrase]
    · rfl
    · obtain ⟨_, ⟨⟩, hgood⟩ := hmet _ hmem
      exact hgood
  rw [← Phrase.wellNamed_and_term_eq_iff
    (g := fun name => (.ok (short (name.getD "")) : Outcome String)), ← hbuilt]
  constructor
  · rintro ⟨expression, hexpression, heq⟩
    exact ⟨⟨expression, hexpression⟩, (hshown hexpression).symm.trans heq⟩
  · rintro ⟨⟨expression, hexpression⟩, heq⟩
    exact ⟨expression, hexpression, (hshown hexpression).trans heq⟩

/-! ## Definitions in each other's way -/

/-- Names of different definitions are spelled alike, and one is bound inside the scope of the
    other, or one is bound and the other is free. -/
def Phrase.Collides (phrase : Phrase Written) : Prop :=
  (∃ pair ∈ phrase.nestings [], pair.1.place ≠ pair.2.place ∧ pair.1.spelling = pair.2.spelling)
    ∨ ∃ x ∈ phrase.binders, ∃ y ∈ phrase.free [], x.place ≠ y.place ∧ x.spelling = y.spelling

instance (phrase : Phrase Written) : Decidable phrase.Collides := by
  unfold Phrase.Collides
  infer_instance

/-- In a well-named phrase, names that clash are of different definitions. -/
theorem Phrase.WellNamed.clash_iff_collides {phrase : Phrase Written} (h : phrase.WellNamed) :
    phrase.Clash (fun name => some name.spelling) ↔ phrase.Collides := by
  have hplace {x y : Written} (hne : x ≠ y) (heq : x.spelling = y.spelling) :
      x.place ≠ y.place := by
    intro hplace
    cases x
    cases y
    cases hplace
    cases heq
    exact hne rfl
  constructor
  · rintro (⟨pair, hpair, heq⟩ | ⟨x, hx, y, hy, heq⟩)
    · have hspelling := Option.some.inj heq
      exact Or.inl ⟨pair, hpair, hplace (h.nestings_ne pair hpair) hspelling, hspelling⟩
    · have hspelling := Option.some.inj heq
      have hne : x ≠ y := fun hxy => h.binders_not_free x hx (hxy ▸ hy)
      exact Or.inr ⟨x, hx, y, hy, hplace hne hspelling, hspelling⟩
  · rintro (⟨pair, hpair, _, heq⟩ | ⟨x, hx, y, hy, _, heq⟩)
    · exact Or.inl ⟨pair, hpair, congrArg some heq⟩
    · exact Or.inr ⟨x, hx, y, hy, congrArg some heq⟩

namespace History

/-- After definitions with well-named bodies, a text that is well-named itself is built into an
    expression that denotes it exactly if it can be read and no definitions collide in it. -/
theorem denotes_iff_not_collides (commands : List Command)
    (hbodies : ∀ body ∈ (ofCommands commands).bodies, body.WellNamed) {text : String}
    (htext : (Phrase.ofText text).WellNamed) :
    (∃ tokens expression, (ofCommands commands).table.tokenize text = .ok tokens
        ∧ Expression.ofTokens tokens = .ok expression
        ∧ expression.shown = ((ofCommands commands).denote (Phrase.ofText text)).map .ok)
      ↔ (∃ tokens, (ofCommands commands).table.tokenize text = .ok tokens ∧ tokens ≠ [])
        ∧ ¬ ((ofCommands commands).expand none (Phrase.ofText text)).Collides := by
  have hsound := sound_ofCommands commands
  have hkeyword : ∀ name ∈ (none : Option String), Word.IsKeyword name := by
    intro name hmem
    cases hmem
  have hiff {tokens : List Token} (htokens : (ofCommands commands).table.tokenize text = .ok tokens)
      (hne : tokens ≠ []) :
      (∃ expression, Expression.ofTokens tokens = .ok expression
          ∧ expression.shown = ((ofCommands commands).denote (Phrase.ofText text)).map .ok)
        ↔ ¬ ((ofCommands commands).expand none (Phrase.ofText text)).Collides := by
    obtain ⟨hspells, hnamed, hlegal⟩ := hsound.spells_tokenize hkeyword htokens hne
    -- The text counts as one more definition, the last one.
    have hnamed' : ((ofCommands commands).expand none (Phrase.ofText text)).WellNamed :=
      (hsound.expand hkeyword hlegal).wellNamed
        (List.forall_mem_append.mpr ⟨hbodies, List.forall_mem_singleton.mpr htext⟩)
    rw [← hnamed'.clash_iff_collides, ← hspells.exists_shown_iff hnamed hne,
      ← hsound.term_expand hkeyword hlegal, Term.map_map]
    exact Iff.rfl
  constructor
  · rintro ⟨tokens, expression, htokens, hexpression, heq⟩
    have hne : tokens ≠ [] := by
      rintro rfl
      cases hexpression
    exact ⟨⟨tokens, htokens, hne⟩, (hiff htokens hne).mp ⟨expression, hexpression, heq⟩⟩
  · rintro ⟨⟨tokens, htokens, hne⟩, hcollides⟩
    obtain ⟨expression, hexpression, heq⟩ := (hiff htokens hne).mpr hcollides
    exact ⟨tokens, expression, htokens, hexpression, heq⟩

/-- In `k y 2` after `k = λx.x y`, `j = k k` and `k = λz.j z`, two definitions of `k` are in use,
    but their names differ. -/
theorem denotes_iff_not_collides_apart :
    (∀ body ∈ (ofCommands [.define "k" "λx.x y", .define "j" "k k", .define "k" "λz.j z"]).bodies,
        body.WellNamed)
      ∧ (Phrase.ofText "k y 2").WellNamed
      ∧ ∃ tokens expression,
        (ofCommands [.define "k" "λx.x y", .define "j" "k k",
            .define "k" "λz.j z"]).table.tokenize "k y 2" = .ok tokens
        ∧ Expression.ofTokens tokens = .ok expression
        ∧ expression.shown = ((ofCommands [.define "k" "λx.x y", .define "j" "k k",
            .define "k" "λz.j z"]).denote (Phrase.ofText "k y 2")).map .ok := by
  have hbodies : ∀ body ∈
      (ofCommands [.define "k" "λx.x y", .define "j" "k k", .define "k" "λz.j z"]).bodies,
      body.WellNamed := by decide +kernel
  have htext : (Phrase.ofText "k y 2").WellNamed := by decide +kernel
  have htokens : (ofCommands [.define "k" "λx.x y", .define "j" "k k",
      .define "k" "λz.j z"]).table.tokenize "k y 2"
      = .ok [.opening, .opening, .func "$k$z", .opening, .opening, .func "$k$x", .var "$k$x",
        .var "$k$y", .closing, .opening, .func "$k$x", .var "$k$x", .var "$k$y", .closing, .closing,
        .var "$k$z", .closing, .var "y", .opening, .func "$#$f", .func "$#$x", .var "$#$f",
        .opening, .var "$#$f", .var "$#$x", .closing, .closing, .closing] := by decide +kernel
  exact ⟨hbodies, htext, (denotes_iff_not_collides _ hbodies htext).mpr
    ⟨⟨_, htokens, List.cons_ne_nil _ _⟩, by decide +kernel⟩⟩

/-- In `k a` after `k = x`, `j = k` and `k = λx.j x`, the name that the older definition of `k`
    leaves free is captured by the newer one. -/
theorem captures_after_redefinition :
    (∀ body ∈ (ofCommands [.define "k" "x", .define "j" "k", .define "k" "λx.j x"]).bodies,
        body.WellNamed)
      ∧ (Phrase.ofText "k a").WellNamed
      ∧ (ofCommands [.define "k" "x", .define "j" "k",
          .define "k" "λx.j x"]).denote (Phrase.ofText "k a")
        = .app (.lam (.app (.free "x") (.var 0))) (.free "a")
      ∧ ∃ tokens expression,
        (ofCommands [.define "k" "x", .define "j" "k", .define "k" "λx.j x"]).table.tokenize "k a"
          = .ok tokens
        ∧ Expression.ofTokens tokens = .ok expression
        ∧ expression.shown = .app (.lam (.app (.var 0) (.var 0))) (.free (.ok "a"))
        ∧ expression.shown ≠ ((ofCommands [.define "k" "x", .define "j" "k",
            .define "k" "λx.j x"]).denote (Phrase.ofText "k a")).map .ok := by
  have htokens : (ofCommands [.define "k" "x", .define "j" "k",
      .define "k" "λx.j x"]).table.tokenize "k a"
      = .ok [.opening, .opening, .func "$k$x", .opening, .opening, .var "$k$x", .closing, .closing,
        .var "$k$x", .closing, .var "a", .closing] := by decide +kernel
  have hbuilt : Expression.ofTokens [.opening, .opening, .func "$k$x", .opening, .opening,
        .var "$k$x", .closing, .closing, .var "$k$x", .closing, .var "a", .closing]
      = .ok {
          root := .abs [] [.abs [⟨0, 0⟩] [.bound 0 0, .bound 0 0], .free 1]
          names := { entries := [⟨"x", 1⟩, ⟨"a", 0⟩] } } := by cbv
  have hdenotes : (ofCommands [.define "k" "x", .define "j" "k",
      .define "k" "λx.j x"]).denote (Phrase.ofText "k a")
      = .app (.lam (.app (.free "x") (.var 0))) (.free "a") := by decide +kernel
  have hshown : Expression.shown {
        root := .abs [] [.abs [⟨0, 0⟩] [.bound 0 0, .bound 0 0], .free 1]
        names := { entries := [⟨"x", 1⟩, ⟨"a", 0⟩] } }
      = .app (.lam (.app (.var 0) (.var 0))) (.free (.ok "a")) := rfl
  refine ⟨by decide +kernel, by decide +kernel, hdenotes, _, _, htokens, hbuilt, hshown, ?_⟩
  rw [hshown, hdenotes]
  simp [Term.map]

end History

end LambdaCalc
