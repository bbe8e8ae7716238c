import LambdaCalc.Proofs.Expression.Roles

set_option autoImplicit false

/-! # How the names of an expression are shown

When qualifiers are taken off, every name is shown as its spelling without the qualifier: itself, if
nothing else is shown that way yet, or else through an alias (`Binding.spelling_canonical`). So the
λ-term of an expression, with its free names as they are shown, is that of the phrase that its
tokens spell, with the qualifiers of the free names taken off (`Expression.shown_ofTokens`). -/

namespace LambdaCalc

namespace Qualifier

/-- A spelling without its qualifier, if it has one. -/
def short (spelling : String) : String := (strip? spelling).getD spelling

theorem short_of_none {spelling : String} (h : strip? spelling = none) :
    short spelling = spelling := by
  rw [short, h]
  rfl

theorem short_of_some {spelling rest : String} (h : strip? spelling = some rest) :
    short spelling = rest := by
  rw [short, h]
  rfl

end Qualifier

namespace Binding

open Qualifier

/-! ## Taking off qualifiers -/

/-- A spelling without a qualifier is shown as it is. -/
theorem getElem?_unqualifiedFrom_of_none {spellings : List String} {place : Nat} {spelling : String}
    (hspelling : strip? spelling = none) (hplace : spellings[place]? = some spelling)
    (known : OrderedTable String Nat) (id : Nat) :
    (unqualifiedFrom known id spellings).1[place]? = some spelling := by
  induction spellings generalizing known id place with
  | nil => cases hplace
  | cons first spellings ih =>
    unfold unqualifiedFrom
    cases place with
    | zero =>
      obtain rfl := Option.some.inj hplace
      rw [hspelling]
      rfl
    | succ place =>
      split
      · exact ih hplace _ _
      · split
        · exact ih hplace _ _
        · exact ih hplace _ _

/-- Only the names at hand and later ones get aliases. -/
theorem lookup_unqualifiedFrom_of_lt {spellings : List String} {known : OrderedTable String Nat}
    {id id' : Nat} (h : id' < id) : (unqualifiedFrom known id spellings).2.lookup id' = none := by
  induction spellings generalizing known id with
  | nil => rfl
  | cons first spellings ih =>
    unfold unqualifiedFrom
    split
    · exact ih (Nat.lt_succ_of_lt h)
    · split
      · exact ih (Nat.lt_succ_of_lt h)
      · have hne : (id' == id) = false := beq_false_of_ne (Nat.ne_of_lt h)
        rw [List.lookup_cons, hne]
        exact ih (Nat.lt_succ_of_lt h)

/-- Spellings without a qualifier are known by the place where they are shown, earlier or later. -/
def Known (known : OrderedTable String Nat) (earlier spellings : List String) : Prop :=
  ∀ spelling target, strip? spelling = none → known.find? spelling = some target →
    earlier[target]? = some spelling
      ∨ ∃ place, target = earlier.length + place ∧ spellings[place]? = some spelling

theorem Known.next {known : OrderedTable String Nat} {earlier spellings : List String}
    {first shown : String} (h : Known known earlier (first :: spellings))
    (hfirst : strip? first = none → shown = first) :
    Known known (earlier ++ [shown]) spellings := by
  intro spelling target hspelling hfind
  rcases h spelling target hspelling hfind with hearlier | ⟨place, rfl, hplace⟩
  · refine Or.inl ?_
    rw [List.getElem?_append_left (List.getElem?_eq_some_iff.mp hearlier).1, hearlier]
  · cases place with
    | zero =>
      obtain rfl := Option.some.inj hplace
      refine Or.inl ?_
      rw [hfirst hspelling, Nat.add_zero, List.getElem?_concat_length]
    | succ place =>
      refine Or.inr ⟨place, ?_, hplace⟩
      rw [List.length_append, List.length_singleton]
      omega

theorem Known.put {known : OrderedTable String Nat} {earlier spellings : List String}
    {rest : String} (h : Known known (earlier ++ [rest]) spellings) :
    Known (known.put rest earlier.length) (earlier ++ [rest]) spellings := by
  intro spelling target hspelling hfind
  rcases OrderedTable.of_find?_put hfind with ⟨heq, rfl⟩ | ⟨_, hfind⟩
  · exact Or.inl (by rw [heq, List.getElem?_concat_length])
  · exact h spelling target hspelling hfind

/-- Where a spelling without a qualifier is known to be shown, it is, whatever is shown for the
    others with a qualifier. -/
theorem Known.getElem?_shown {known : OrderedTable String Nat} {earlier spellings : List String}
    {first rest : String} {target : Nat} (h : Known known earlier (first :: spellings))
    (hfirst : strip? first = some rest) (hrest : strip? rest = none)
    (hfind : known.find? rest = some target) (known' : OrderedTable String Nat) (id : Nat) :
    (earlier ++ first :: (unqualifiedFrom known' id spellings).1)[target]? = some rest := by
  rcases h rest target hrest hfind with hearlier | ⟨place, rfl, hplace⟩
  · rw [List.getElem?_append_left (List.getElem?_eq_some_iff.mp hearlier).1, hearlier]
  · rw [List.getElem?_append_right (Nat.le_add_right _ _), Nat.add_sub_cancel_left]
    cases place with
    | zero =>
      obtain rfl := Option.some.inj hplace
      exact absurd (hrest.symm.trans hfirst) nofun
    | succ place => exact @getElem?_unqualifiedFrom_of_none spellings place rest hrest hplace _ _

/-- Every name is shown as its spelling without the qualifier, through its alias if it has one: by
    induction on the spellings, behind those shown already. -/
theorem unqualifiedFrom_spec {spellings : List String} {known : OrderedTable String Nat}
    {earlier : List String} (hknown : Known known earlier spellings)
    (honce : ∀ spelling ∈ spellings, strip? (short spelling) = none) {place : Nat}
    {spelling : String} (hplace : spellings[place]? = some spelling) :
    (earlier ++ (unqualifiedFrom known earlier.length spellings).1)[
        ((unqualifiedFrom known earlier.length spellings).2.lookup (earlier.length + place)).getD
          (earlier.length + place)]? = some (short spelling) := by
  induction spellings generalizing known earlier place with
  | nil => cases hplace
  | cons first spellings ih =>
    obtain ⟨hfirst, hspellings⟩ := List.forall_mem_cons.mp honce
    -- What is shown for the first spelling joins those shown earlier.
    have hlater {known : OrderedTable String Nat} {shown : String} {place : Nat}
        (hknown : Known known (earlier ++ [shown]) spellings)
        (hplace : spellings[place]? = some spelling) :
        (earlier ++ shown :: (unqualifiedFrom known (earlier.length + 1) spellings).1)[
          ((unqualifiedFrom known (earlier.length + 1) spellings).2.lookup
            (earlier.length + (place + 1))).getD (earlier.length + (place + 1))]?
          = some (short spelling) := by
      have h := ih hknown hspellings hplace
      rw [List.length_append, List.length_singleton, List.append_assoc, Nat.add_assoc,
        Nat.add_comm 1 place] at h
      exact h
    have hnone (known : OrderedTable String Nat) :
        (unqualifiedFrom known (earlier.length + 1) spellings).2.lookup earlier.length = none :=
      lookup_unqualifiedFrom_of_lt (Nat.lt_succ_self _)
    -- The first spelling has no qualifier, or is the first one that is shown that way, or has an
    -- alias for the place where another one is.
    unfold unqualifiedFrom
    split
    · next hstrip =>
      cases place with
      | zero =>
        obtain rfl := Option.some.inj hplace
        simp [hnone, short_of_none hstrip]
      | succ place => exact hlater (hknown.next fun _ => rfl) hplace
    · next rest hstrip =>
      have hrest : strip? rest = none := short_of_some hstrip ▸ hfirst
      have hnext (shown : String) : Known known (earlier ++ [shown]) spellings :=
        hknown.next fun hnot => absurd (hnot.symm.trans hstrip) nofun
      split
      · next hfind =>
        cases place with
        | zero =>
          obtain rfl := Option.some.inj hplace
          simp [hnone, short_of_some hstrip]
        | succ place => exact hlater (hnext rest).put hplace
      · next target hfind =>
        cases place with
        | zero =>
          obtain rfl := Option.some.inj hplace
          simp only [Nat.add_zero, List.lookup_cons, beq_self_eq_true, Option.getD_some,
            short_of_some hstrip]
          exact hknown.getElem?_shown hstrip hrest hfind _ _
        | succ place =>
          have hne : (earlier.length + (place + 1) == earlier.length) = false :=
            beq_false_of_ne (by omega)
          simp only [List.lookup_cons, hne]
          exact hlater (hnext first) hplace

/-- At first every spelling is known by its own place. -/
theorem known_zipIdx (texts : List String) : Known { entries := texts.zipIdx } [] texts := by
  intro spelling target _ hfind
  refine Or.inr ⟨target, (Nat.zero_add target).symm, ?_⟩
  obtain ⟨before, after, hsplit, _⟩ := List.lookup_eq_some_iff.mp hfind
  have hmem : (spelling, target) ∈ before ++ (spelling, target) :: after :=
    List.mem_append_right _ List.mem_cons_self
  rw [← hsplit] at hmem
  exact List.mk_mem_zipIdx_iff_getElem?.mp hmem

/-- Every name is shown as its spelling without the qualifier. -/
theorem spelling_canonical {spellings : Spellings} {names : NameTable}
    (h : nameTable spellings = .ok names)
    (honce : ∀ spelling, some spelling ∈ spellings.keys → strip? (short spelling) = none)
    {id : Nat} {spelling : String} (hid : spellings.keys[id]? = some (some spelling)) :
    names.spelling (names.canonical id) = .ok (short spelling) := by
  obtain ⟨texts, hkeys, rfl⟩ := nameTable_eq_ok h
  rw [hkeys] at hid honce
  rw [List.getElem?_map] at hid
  obtain ⟨text, htext, ⟨⟩⟩ := Option.map_eq_some_iff.mp hid
  have hshown := unqualifiedFrom_spec (known_zipIdx texts)
    (fun spelling hmem => honce spelling (List.mem_map.mpr ⟨spelling, hmem, rfl⟩)) htext
  rw [List.nil_append, List.length_nil, Nat.zero_add] at hshown
  set place := ((unqualifiedFrom { entries := texts.zipIdx } 0 texts).2.lookup id).getD id
    with hplace
  have hlength : texts.length = spellings.entries.length := by
    have := congrArg List.length hkeys
    rwa [OrderedTable.keys, List.length_map, List.length_map, eq_comm] at this
  have hlt : place < (spellings.entries.map (·.2.nextCopy)).length := by
    have := (List.getElem?_eq_some_iff.mp hshown).1
    rwa [length_unqualifiedFrom, hlength, ← List.length_map (f := (·.2.nextCopy))] at this
  have hentry : (List.zipWith NameEntry.mk (unqualifiedFrom { entries := texts.zipIdx } 0 texts).1
      (spellings.entries.map (·.2.nextCopy)))[place]?
      = some ⟨short spelling, (spellings.entries.map (·.2.nextCopy))[place]⟩ := by
    rw [List.getElem?_zipWith, hshown, List.getElem?_eq_getElem hlt]
  unfold NameTable.spelling
  split
  · next entry hfound =>
    obtain rfl := Option.some.inj (hfound.symm.trans hentry)
    rfl
  · next hmissing => cases hmissing.symm.trans hentry

end Binding

namespace Expression

open Binding Qualifier

/-- The λ-term of an expression, with its free names as they are shown. -/
def shown (expression : Expression) : Term (Outcome String) :=
  (expression.root.term []).map fun id => expression.names.spelling (expression.names.canonical id)

/-- What has been built is shown as the phrase that its tokens spell, with the qualifiers of the
    free names taken off. -/
theorem shown_ofTokens {tokens : List Token} {expression : Expression}
    (h : ofTokens tokens = .ok expression)
    (hstray : ∀ token ∈ tokens, ∀ label, token.kind ≠ .stray label)
    (honce : ∀ spelling, some spelling ∈ meetAll [] tokens → strip? (short spelling) = none) :
    expression.shown
      = ((Phrase.ofTokens tokens).term []).map fun name => .ok (short (name.getD "")) := by
  obtain ⟨_, hnone, _, hnamed⟩ := (ofTokens_isOk_iff hstray).mp ⟨expression, h⟩
  obtain ⟨_, _, hterm⟩ := ofTokens_spec h
  obtain ⟨_, _, _, _, hkeys, htable⟩ := exists_of_ofTokens h
  have hnames := names_subset_meetAll tokens [] (Phrase.ofTokens tokens) List.mem_cons_self
  have hseparates : Phrase.Separates (meetAll [] tokens).idxOf (Phrase.ofTokens tokens).names :=
    fun x hx y _ heq => (List.idxOf_inj (hnames hx)).mp heq
  rw [shown, hterm, Phrase.term_map (hnamed.not_clash hseparates), Term.map_map]
  refine Phrase.term_map_congr ?_
  intro name hname
  have hmem := hnames hname
  cases name with
  | none => exact absurd hmem hnone
  | some spelling =>
    rw [← hkeys] at honce hmem
    have hid := List.getElem?_eq_getElem (List.idxOf_lt_length_of_mem hmem)
    rw [List.getElem_idxOf] at hid
    rw [Function.comp_apply, ← hkeys]
    exact spelling_canonical htable honce hid

end Expression

end LambdaCalc
