import LambdaCalc.Proofs.Expression.Reading
import LambdaCalc.Proofs.Phrase.Clash

set_option autoImplicit false

/-! # Which token streams can be read

A spelling keeps to one role, so that a stream is read to its end exactly if the phrase that it
spells is well-named and every closing token closes a group (`Expression.ofTokens_isOk_iff`).

The condition is stated for every point of the stream: what has been read and what is still to be
read must agree on the roles of names (`Reading.Fits`). Reading a token succeeds exactly if they do,
and then they still do (`Reading.fits_step`). -/

namespace LambdaCalc

namespace Binding

/-! ## What is still to be read -/

/-- The phrases still to be read, from the inside out, each with the ids in scope for it. -/
def parts : Frame → List Frame → Phrase Nat → List (Phrase Nat) → List (List Nat × Phrase Nat)
  | frame, [], phrase, _ => [(scope [frame], phrase)]
  | frame, around :: outer, phrase, behind =>
      (scope (frame :: around :: outer), phrase) ::
        if frame.inlined then parts around outer .done behind
        else parts around outer (behind.headD .done) behind.tail

/-- How many closing tokens can follow. -/
def closable : Frame → List Frame → Nat
  | _, [] => 0
  | frame, around :: outer => closable around outer + if frame.inlined then 0 else 1

/-- The parts behind the innermost one. -/
def partsBehind (frame : Frame) : List Frame → List (Phrase Nat) → List (List Nat × Phrase Nat)
  | [], _ => []
  | around :: outer, behind =>
      if frame.inlined then parts around outer .done behind
      else parts around outer (behind.headD .done) behind.tail

theorem parts_eq_cons (frame : Frame) (outer : List Frame) (phrase : Phrase Nat)
    (behind : List (Phrase Nat)) :
    parts frame outer phrase behind
      = (scope (frame :: outer), phrase) :: partsBehind frame outer behind := by
  cases outer <;> rfl

/-- The names that further parts bind. -/
def laterBinders (parts : List (List Nat × Phrase Nat)) : List Nat := parts.flatMap (·.2.binders)

/-- The names that further parts use free. -/
def laterFree (parts : List (List Nat × Phrase Nat)) : List Nat :=
  parts.flatMap fun part => part.2.free part.1

/-- The names that further parts bind, each with every name in whose scope they do. -/
def laterNestings (parts : List (List Nat × Phrase Nat)) : List (Nat × Nat) :=
  parts.flatMap fun part => part.2.nestings part.1

/-! ## Roles -/

/-- A name has a standing with some property. -/
def HasRole (P : Standing → Prop) (known : List (Option String)) (spellings : Spellings)
    (id : Nat) : Prop :=
  ∃ name standing, spellings.find? name = some standing ∧ P standing ∧ known.idxOf name = id

/-- What is still to be bound and used free agrees with what has been: nothing is to be bound inside
    its own scope, and nothing is bound and free. -/
structure Agree (bound constant : Nat → Prop) (binders free : List Nat)
    (nestings : List (Nat × Nat)) : Prop where
  nestings_ne : ∀ pair ∈ nestings, pair.1 ≠ pair.2
  roles : ∀ id, bound id ∨ id ∈ binders → ¬ (constant id ∨ id ∈ free)

/-- A name that is bound next might as well have been bound already. -/
theorem agree_bind_iff {bound constant : Nat → Prop} {binders free scope : List Nat}
    {nestings : List (Nat × Nat)} {id : Nat} (hid : id ∉ scope) :
    Agree bound constant (id :: binders) free (scope.map (·, id) ++ nestings)
      ↔ Agree (fun other => other = id ∨ bound other) constant binders free nestings := by
  constructor
  · intro h
    refine ⟨fun pair hpair => h.nestings_ne pair (List.mem_append_right _ hpair), ?_⟩
    intro other hother
    refine h.roles other ?_
    rcases hother with (rfl | hbound) | hbinder
    · exact Or.inr List.mem_cons_self
    · exact Or.inl hbound
    · exact Or.inr (List.mem_cons_of_mem _ hbinder)
  · intro h
    constructor
    · intro pair hpair
      rcases List.mem_append.mp hpair with hscope | hnesting
      · obtain ⟨y, hy, rfl⟩ := List.mem_map.mp hscope
        exact fun heq : y = id => hid (heq ▸ hy)
      · exact h.nestings_ne pair hnesting
    · intro other hother
      refine h.roles other ?_
      rcases hother with hbound | hbinder
      · exact Or.inl (Or.inr hbound)
      · rcases List.mem_cons.mp hbinder with rfl | hbinder
        · exact Or.inl (Or.inl rfl)
        · exact Or.inr hbinder

/-- A name that is used free next might as well have been free already. -/
theorem agree_use_iff {bound constant : Nat → Prop} {binders free : List Nat}
    {nestings : List (Nat × Nat)} {id : Nat} :
    Agree bound constant binders (id :: free) nestings
      ↔ Agree bound (fun other => other = id ∨ constant other) binders free nestings := by
  constructor
  · intro h
    refine ⟨h.nestings_ne, fun other hother hfree => h.roles other hother ?_⟩
    rcases hfree with (rfl | hconstant) | hmem
    · exact Or.inr List.mem_cons_self
    · exact Or.inl hconstant
    · exact Or.inr (List.mem_cons_of_mem _ hmem)
  · intro h
    refine ⟨h.nestings_ne, fun other hother hfree => h.roles other hother ?_⟩
    rcases hfree with hconstant | hmem
    · exact Or.inl (Or.inr hconstant)
    · rcases List.mem_cons.mp hmem with rfl | hmem
      · exact Or.inl (Or.inl rfl)
      · exact Or.inr hmem

theorem closeLevel_eq_constant_iff {standing : Standing} {level : Nat} :
    standing.closeLevel level = .constant ↔ standing = .constant := by
  cases standing with
  | live level' position copy =>
    rw [Standing.closeLevel]
    split <;> simp
  | closed | constant => rfl

/-- Closing a group changes no role. -/
theorem hasRole_closeLevel {P : Standing → Prop} {level : Nat}
    (hP : ∀ standing : Standing, P (standing.closeLevel level) ↔ P standing)
    (known : List (Option String)) (spellings : Spellings) :
    HasRole P known (spellings.mapValues (·.closeLevel level)) = HasRole P known spellings := by
  funext id
  apply propext
  constructor
  · rintro ⟨name, _, hfind, hrole, hid⟩
    rw [OrderedTable.find?_mapValues] at hfind
    obtain ⟨standing, hstanding, rfl⟩ := Option.map_eq_some_iff.mp hfind
    exact ⟨name, standing, hstanding, (hP standing).mp hrole, hid⟩
  · rintro ⟨name, standing, hfind, hrole, hid⟩
    refine ⟨name, standing.closeLevel level, ?_, (hP standing).mpr hrole, hid⟩
    rw [OrderedTable.find?_mapValues, hfind]
    rfl

/-- A name takes on a role, and the others keep theirs. -/
theorem hasRole_put {P : Standing → Prop} {standing : Standing} (hP : P standing)
    (known : List (Option String)) (spellings : Spellings) (name : Option String) :
    HasRole P known (spellings.put name standing)
      = fun id => id = known.idxOf name ∨ HasRole P known spellings id := by
  funext id
  apply propext
  have hself : HasRole P known (spellings.put name standing) (known.idxOf name) :=
    ⟨name, standing, by rw [OrderedTable.find?_put, if_pos rfl], hP, rfl⟩
  constructor
  · rintro ⟨name', standing', hfind, hrole, rfl⟩
    rcases OrderedTable.of_find?_put hfind with ⟨hname, _⟩ | ⟨_, hfind⟩
    · exact Or.inl (by rw [hname])
    · exact Or.inr ⟨name', standing', hfind, hrole, rfl⟩
  · rintro (rfl | ⟨name', standing', hfind, hrole, rfl⟩)
    · exact hself
    · by_cases hname : name' = name
      · exact hname ▸ hself
      · exact ⟨name', standing', by rw [OrderedTable.find?_put, if_neg hname, hfind], hrole, rfl⟩

/-- A name without a role takes on another one. -/
theorem hasRole_put_of_not {P : Standing → Prop} {standing : Standing} (hP : ¬ P standing)
    (known : List (Option String)) {spellings : Spellings} {name : Option String}
    (hold : ∀ old, spellings.find? name = some old → ¬ P old) :
    HasRole P known (spellings.put name standing) = HasRole P known spellings := by
  funext id
  apply propext
  constructor
  · rintro ⟨name', standing', hfind, hrole, rfl⟩
    rcases OrderedTable.of_find?_put hfind with ⟨_, rfl⟩ | ⟨_, hfind⟩
    · exact absurd hrole hP
    · exact ⟨name', standing', hfind, hrole, rfl⟩
  · rintro ⟨name', standing', hfind, hrole, rfl⟩
    refine ⟨name', standing', ?_, hrole, rfl⟩
    rw [OrderedTable.find?_put, if_neg, hfind]
    rintro rfl
    exact hold _ hfind hrole

namespace Reading

/-! ## What each token may do -/

/-- What has been read and what is still to be read fit together: no more groups are closed than are
    open, and they agree on the roles of names. -/
structure Fits (known : List (Option String)) (inner : Frame) (outer : List Frame)
    (spellings : Spellings) (ahead : Phrase Nat × List (Phrase Nat)) : Prop where
  closings : ahead.2.length ≤ closable inner outer
  agree : Agree (HasRole (· ≠ .constant) known spellings) (HasRole (· = .constant) known spellings)
    (laterBinders (parts inner outer ahead.1 ahead.2))
    (laterFree (parts inner outer ahead.1 ahead.2))
    (laterNestings (parts inner outer ahead.1 ahead.2))

section

variable {known : List (Option String)} {inner : Frame} {outer : List Frame} {spellings : Spellings}

theorem fits_iff {ahead : Phrase Nat × List (Phrase Nat)} :
    Fits known inner outer spellings ahead
      ↔ ahead.2.length ≤ closable inner outer
        ∧ Agree (HasRole (· ≠ .constant) known spellings) (HasRole (· = .constant) known spellings)
          (laterBinders (parts inner outer ahead.1 ahead.2))
          (laterFree (parts inner outer ahead.1 ahead.2))
          (laterNestings (parts inner outer ahead.1 ahead.2)) :=
  ⟨fun h => ⟨h.closings, h.agree⟩, fun h => ⟨h.1, h.2⟩⟩

/-- A group that is opened takes what is in it from the group around it. -/
theorem fits_enter {phrase : Phrase Nat} {behind : List (Phrase Nat)} :
    Fits known inner outer spellings (.group phrase (behind.headD .done), behind.tail)
      ↔ Fits known {} (inner :: outer) spellings (phrase, behind) := by
  have hparts : parts {} (inner :: outer) phrase behind
      = (scope (inner :: outer), phrase) :: (scope (inner :: outer), behind.headD .done)
        :: partsBehind inner outer behind.tail := by
    rw [parts_eq_cons, partsBehind, if_neg Bool.false_ne_true, parts_eq_cons]
    rfl
  have hclosable : closable {} (inner :: outer) = closable inner outer + 1 := rfl
  rw [fits_iff, fits_iff, hparts, parts_eq_cons, hclosable]
  refine and_congr ?_ ?_
  · rw [List.length_tail]
    exact Nat.sub_le_iff_le_add
  · simp only [laterBinders, laterFree, laterNestings, List.flatMap_cons, Phrase.binders,
      Phrase.free, Phrase.nestings, List.append_assoc]

/-- A group that is inlined takes all that is left of the group around it. -/
theorem fits_enter_inlined {phrase : Phrase Nat} {behind : List (Phrase Nat)} :
    Fits known inner outer spellings (phrase, behind)
      ↔ Fits known { inlined := true } (inner :: outer) spellings (phrase, behind) := by
  have hparts : parts { inlined := true } (inner :: outer) phrase behind
      = (scope (inner :: outer), phrase) :: (scope (inner :: outer), .done)
        :: partsBehind inner outer behind := by
    rw [parts_eq_cons, partsBehind, if_pos rfl, parts_eq_cons]
    rfl
  rw [fits_iff, fits_iff, hparts, parts_eq_cons]
  exact Iff.rfl

theorem partsBehind_congr {frame frame' : Frame} (h : frame.inlined = frame'.inlined)
    (outer : List Frame) (behind : List (Phrase Nat)) :
    partsBehind frame outer behind = partsBehind frame' outer behind := by
  cases outer with
  | nil => rfl
  | cons around outer => rw [partsBehind, partsBehind, h]

theorem closable_congr {frame frame' : Frame} (h : frame.inlined = frame'.inlined)
    (outer : List Frame) : closable frame outer = closable frame' outer := by
  cases outer with
  | nil => rfl
  | cons around outer => rw [closable, closable, h]

/-- An element that has been read changes nothing about what may follow. -/
theorem fits_add (element : Node) {ahead : Phrase Nat × List (Phrase Nat)} :
    Fits known (inner.add element) outer spellings ahead
      ↔ Fits known inner outer spellings ahead := by
  have hinlined : (inner.add element).inlined = inner.inlined := rfl
  rw [fits_iff, fits_iff, parts_eq_cons, parts_eq_cons, partsBehind_congr hinlined,
    closable_congr hinlined]
  exact Iff.rfl

theorem fits_closeLevel (level : Nat) {ahead : Phrase Nat × List (Phrase Nat)} :
    Fits known inner outer (spellings.mapValues (·.closeLevel level)) ahead
      ↔ Fits known inner outer spellings ahead := by
  have hconstant (standing : Standing) :
      standing.closeLevel level = .constant ↔ standing = .constant := closeLevel_eq_constant_iff
  have hbound (standing : Standing) := not_congr (hconstant standing)
  rw [fits_iff, fits_iff, hasRole_closeLevel hbound, hasRole_closeLevel hconstant]

end

/-! ## What each token does -/

variable {known : List (Option String)}

/-- What is still to be read behind a name that has just been bound. -/
theorem fits_bound {reading : Reading} (h : Sound known reading.frames reading.spellings)
    {name : Option String} (hknown : meet reading.spellings.keys name <+: known)
    (hbindable : Bindable reading.spellings name) (copy : Int) {phrase : Phrase Nat}
    {behind : List (Phrase Nat)} :
    Fits known reading.inner reading.outer reading.spellings
        (.lam (known.idxOf name) phrase, behind)
      ↔ Fits known (reading.inner.bind { name := reading.spellings.id name, copy }) reading.outer
        (reading.spellings.put name (.live reading.level reading.inner.params.length copy))
        (phrase, behind) := by
  have hnot := h.not_mem_scope (hknown.subset (mem_meet _ _)) hbindable.not_live
  have hinlined : (reading.inner.bind { name := reading.spellings.id name, copy }).inlined
      = reading.inner.inlined := rfl
  have hold : ∀ old, reading.spellings.find? name = some old → ¬ old = .constant := by
    rintro old hfind rfl
    rcases hbindable with hnone | ⟨_, hclosed⟩
    · rw [hnone] at hfind
      cases hfind
    · rw [hclosed] at hfind
      cases hfind
  rw [fits_iff, fits_iff, parts_eq_cons, parts_eq_cons, partsBehind_congr hinlined,
    closable_congr hinlined, scope_bind, id_eq_idxOf hknown, hasRole_put (by nofun),
    hasRole_put_of_not (by nofun) known hold]
  refine and_congr Iff.rfl (Iff.trans ?_ (agree_bind_iff hnot))
  simp only [laterBinders, laterFree, laterNestings, List.flatMap_cons, Phrase.binders, Phrase.free,
    Phrase.nestings, List.append_assoc, List.cons_append]
  exact Iff.rfl

/-- A name that is bound next is neither live nor free. -/
theorem bindable_of_fits {reading : Reading} (h : Sound known reading.frames reading.spellings)
    {name : Option String} {phrase : Phrase Nat} {behind : List (Phrase Nat)}
    (hfits : Fits known reading.inner reading.outer reading.spellings
      (.lam (known.idxOf name) phrase, behind)) : Bindable reading.spellings name := by
  have hagree := hfits.agree
  rw [parts_eq_cons] at hagree
  cases hfind : reading.spellings.find? name with
  | none => exact Or.inl hfind
  | some standing =>
    cases standing with
    | closed copy => exact Or.inr ⟨copy, hfind⟩
    | live level position copy =>
      -- A live name would be bound inside its own scope.
      obtain ⟨index, _, hresolve⟩ := h.addressed hfind
      have hscope := Phrase.mem_of_resolve_eq_var hresolve
      have hnesting : (known.idxOf name, known.idxOf name)
          ∈ (Phrase.lam (known.idxOf name) phrase).nestings (scope reading.frames) :=
        List.mem_append_left _ (List.mem_map.mpr ⟨_, hscope, rfl⟩)
      exact absurd rfl (hagree.nestings_ne _ (List.mem_append_left _ hnesting))
    | constant =>
      exact absurd (Or.inl ⟨name, _, hfind, rfl, rfl⟩)
        (hagree.roles (known.idxOf name) (Or.inr List.mem_cons_self))

/-- A name can be bound next if it has no other role, and what follows fits behind it. -/
theorem fits_bind {reading : Reading} (h : Sound known reading.frames reading.spellings)
    {name : Option String} (hknown : meet reading.spellings.keys name <+: known)
    {phrase : Phrase Nat} {behind : List (Phrase Nat)} :
    Fits known reading.inner reading.outer reading.spellings
        (.lam (known.idxOf name) phrase, behind)
      ↔ ∃ reading', reading.bind name = .ok reading'
        ∧ Fits known reading'.inner reading'.outer reading'.spellings (phrase, behind) := by
  constructor
  · intro hfits
    have hbindable := bindable_of_fits h hfits
    obtain ⟨reading', hbind⟩ : ∃ reading', reading.bind name = .ok reading' :=
      ⟨_, bind_eq_ok_iff.mpr ⟨hbindable, _, rfl, rfl⟩⟩
    refine ⟨reading', hbind, ?_⟩
    obtain ⟨_, copy, _, rfl⟩ := bind_eq_ok_iff.mp hbind
    exact (fits_bound h hknown hbindable copy).mp hfits
  · rintro ⟨reading', hbind, hfits⟩
    obtain ⟨hbindable, copy, _, rfl⟩ := bind_eq_ok_iff.mp hbind
    exact (fits_bound h hknown hbindable copy).mpr hfits

section

variable {inner : Frame} {outer : List Frame} {spellings : Spellings} {id : Nat}
  {phrase : Phrase Nat} {behind : List (Phrase Nat)}

/-- What is in scope may be used. -/
theorem fits_name_of_mem (h : id ∈ scope (inner :: outer)) :
    Fits known inner outer spellings (.name id phrase, behind)
      ↔ Fits known inner outer spellings (phrase, behind) := by
  rw [fits_iff, fits_iff, parts_eq_cons, parts_eq_cons]
  simp only [laterBinders, laterFree, laterNestings, List.flatMap_cons, Phrase.binders, Phrase.free,
    Phrase.nestings, if_pos h]

/-- What is not in scope is used as a free name. -/
theorem fits_name_of_not_mem (h : id ∉ scope (inner :: outer)) :
    Fits known inner outer spellings (.name id phrase, behind)
      ↔ behind.length ≤ closable inner outer
        ∧ Agree (HasRole (· ≠ .constant) known spellings)
          (fun other => other = id ∨ HasRole (· = .constant) known spellings other)
          (laterBinders (parts inner outer phrase behind))
          (laterFree (parts inner outer phrase behind))
          (laterNestings (parts inner outer phrase behind)) := by
  rw [fits_iff, parts_eq_cons, parts_eq_cons]
  refine and_congr Iff.rfl (Iff.trans ?_ agree_use_iff)
  simp only [laterBinders, laterFree, laterNestings, List.flatMap_cons, Phrase.binders, Phrase.free,
    Phrase.nestings, if_neg h, List.cons_append]

end

/-- A name can be used next unless it has been bound in groups that are closed, and what follows
    fits behind it. -/
theorem fits_use {reading : Reading} (h : Sound known reading.frames reading.spellings)
    {name : Option String} (hknown : meet reading.spellings.keys name <+: known)
    {phrase : Phrase Nat} {behind : List (Phrase Nat)} :
    Fits known reading.inner reading.outer reading.spellings
        (.name (known.idxOf name) phrase, behind)
      ↔ ∃ reading', reading.use name = .ok reading'
        ∧ Fits known reading'.inner reading'.outer reading'.spellings (phrase, behind) := by
  have hmem : name ∈ known := hknown.subset (mem_meet _ _)
  have hok {reading₁ : Reading} {P : Reading → Prop} :
      (∃ reading', (Except.ok reading₁ : Outcome Reading) = .ok reading' ∧ P reading')
        ↔ P reading₁ := by simp
  unfold Reading.use
  cases hfind : reading.spellings.find? name with
  | none =>
    have hnot := h.not_mem_scope hmem (by rw [hfind]; nofun)
    have hold : ∀ old, reading.spellings.find? name = some old → ¬ old ≠ .constant := by
      rw [hfind]
      nofun
    rw [fits_name_of_not_mem hnot, hok, fits_add, fits_iff, hasRole_put (P := (· = .constant)) rfl,
      hasRole_put_of_not (P := (· ≠ .constant)) (not_not_intro rfl) known hold]
  | some standing =>
    cases standing with
    | live level position copy =>
      obtain ⟨index, _, hresolve⟩ := h.addressed hfind
      rw [fits_name_of_mem (Phrase.mem_of_resolve_eq_var hresolve), hok, fits_add]
    | closed copy =>
      have hnot := h.not_mem_scope hmem (by rw [hfind]; nofun)
      rw [fits_name_of_not_mem hnot]
      constructor
      · rintro ⟨_, hagree⟩
        -- It has been bound and would be free here.
        exact absurd (Or.inl (Or.inl rfl))
          (hagree.roles (known.idxOf name) (Or.inl ⟨name, _, hfind, nofun, rfl⟩))
      · rintro ⟨_, huse, _⟩
        cases huse
    | constant =>
      have hnot := h.not_mem_scope hmem (by rw [hfind]; nofun)
      -- A name that is free already takes on no further role.
      have hrole : (fun other => other = known.idxOf name
            ∨ HasRole (· = .constant) known reading.spellings other)
          = HasRole (· = .constant) known reading.spellings := by
        funext other
        refine propext ⟨?_, Or.inr⟩
        rintro (rfl | hother)
        · exact ⟨name, _, hfind, rfl, rfl⟩
        · exact hother
      rw [fits_name_of_not_mem hnot, hrole, hok, fits_add, fits_iff]

/-- Groups can be closed if there is one to close: by induction on the groups around, since those
    inlined in a group end with it. -/
theorem fits_leave {outer : List Frame} {inner : Frame} {spellings : Spellings}
    {phrase : Phrase Nat} {behind : List (Phrase Nat)} :
    Fits known inner outer spellings (.done, phrase :: behind)
      ↔ ∃ reading', leave inner spellings outer = .ok reading'
        ∧ Fits known reading'.inner reading'.outer reading'.spellings (phrase, behind) := by
  induction outer generalizing inner spellings with
  | nil =>
    constructor
    · intro h
      exact absurd h.closings (Nat.not_succ_le_zero _)
    · rintro ⟨reading', hleave, _⟩
      cases hleave
  | cons around outer ih =>
    rw [leave]
    cases hinlined : inner.inlined with
    | true =>
      simp only [if_true]
      rw [← ih, fits_add, fits_closeLevel, fits_iff, fits_iff, parts_eq_cons, partsBehind, hinlined,
        if_pos rfl, closable, hinlined, if_pos rfl]
      exact Iff.rfl
    | false =>
      have hparts : Fits known inner (around :: outer) spellings (.done, phrase :: behind)
          ↔ Fits known around outer spellings (phrase, behind) := by
        rw [fits_iff, fits_iff, parts_eq_cons, partsBehind, hinlined, if_neg Bool.false_ne_true,
          closable, hinlined, if_neg Bool.false_ne_true]
        exact and_congr Nat.add_le_add_iff_right Iff.rfl
      simp only [Bool.false_eq_true, if_false]
      rw [hparts, ← fits_closeLevel (outer.length + 2), ← fits_add inner.node]
      constructor
      · intro h
        exact ⟨_, rfl, h⟩
      · rintro ⟨reading', hleave, h⟩
        obtain rfl := Except.ok.inj hleave
        exact h

/-- A token can be read if what has been read fits together with it and what follows. -/
theorem fits_step {reading : Reading} (h : Sound known reading.frames reading.spellings)
    {token : Token} (hknown : meetToken reading.spellings.keys token <+: known)
    (hstray : ∀ label, token.kind ≠ .stray label) {ahead : Phrase Nat × List (Phrase Nat)} :
    Fits known reading.inner reading.outer reading.spellings
        (Phrase.readToken known.idxOf token ahead)
      ↔ ∃ reading', reading.step none token = .ok reading'
        ∧ Fits known reading'.inner reading'.outer reading'.spellings ahead := by
  obtain ⟨kind, name⟩ := token
  obtain ⟨phrase, behind⟩ := ahead
  have henter (inlined : Bool) : reading.enter none inlined
      = .ok { reading with inner := { inlined }, outer := reading.inner :: reading.outer } := rfl
  cases kind with
  | opening =>
    refine fits_enter.trans ⟨fun hfits => ⟨_, henter false, hfits⟩, ?_⟩
    rintro ⟨reading', hstep, hfits⟩
    obtain rfl := eq_of_enter hstep
    exact hfits
  | closing => exact fits_leave
  | func =>
    unfold Reading.step
    by_cases hempty : reading.inner.elements.isEmpty
    · rw [if_pos hempty]
      exact fits_bind h hknown
    · rw [if_neg hempty, henter true]
      exact fits_enter_inlined.trans (@fits_bind known
        { reading with inner := { inlined := true }, outer := reading.inner :: reading.outer }
        (h.enter true) name hknown phrase behind)
  | var => exact fits_use h hknown
  | stray label => exact absurd rfl (hstray label)

/-- Nothing is left to be bound or used behind the last token. -/
theorem parts_done (frame : Frame) (outer : List Frame) :
    ∀ part ∈ parts frame outer .done [], part.2 = .done := by
  induction outer generalizing frame with
  | nil => exact List.forall_mem_singleton.mpr rfl
  | cons around outer ih =>
    rw [parts_eq_cons, partsBehind]
    refine List.forall_mem_cons.mpr ⟨rfl, ?_⟩
    split <;> exact ih around

theorem flatMap_parts_done {α : Type} {f : List Nat × Phrase Nat → List α}
    (hf : ∀ scope, f (scope, .done) = []) (inner : Frame) (outer : List Frame) :
    (parts inner outer .done []).flatMap f = [] := by
  refine List.flatMap_eq_nil_iff.mpr ?_
  intro part hpart
  obtain ⟨scope, phrase⟩ := part
  obtain rfl : phrase = .done := parts_done inner outer _ hpart
  exact hf scope

/-- What has been read fits together with nothing further, since every spelling has one standing. -/
theorem fits_done {frames : List Frame} {spellings : Spellings} (h : Sound known frames spellings)
    (inner : Frame) (outer : List Frame) : Fits known inner outer spellings (.done, []) := by
  have hbinders : laterBinders (parts inner outer .done []) = [] :=
    flatMap_parts_done (fun _ => rfl) inner outer
  have hfree : laterFree (parts inner outer .done []) = [] :=
    flatMap_parts_done (fun _ => rfl) inner outer
  have hnestings : laterNestings (parts inner outer .done []) = [] :=
    flatMap_parts_done (fun _ => rfl) inner outer
  rw [fits_iff, hbinders, hfree, hnestings]
  refine ⟨Nat.zero_le _, nofun, ?_⟩
  rintro id (⟨name, standing, hfind, hbound, rfl⟩ | hnil) (⟨name', _, hfind', rfl, hid⟩ | hnil')
  · have hname : name' = name :=
      (List.idxOf_inj (h.keys.subset (mem_keys_of_find? hfind'))).mp hid
    rw [hname, hfind] at hfind'
    exact hbound (Option.some.inj hfind')
  · cases hnil'
  · cases hnil
  · cases hnil

/-- A whole stream can be read if what has been read fits together with it: by induction on its
    tokens. -/
theorem fits_read {tokens : List Token}
    (hstray : ∀ token ∈ tokens, ∀ label, token.kind ≠ .stray label)
    {reading : Reading} (h : Sound known reading.frames reading.spellings)
    (hknown : meetAll reading.spellings.keys tokens <+: known) :
    Fits known reading.inner reading.outer reading.spellings (Phrase.read known.idxOf tokens)
      ↔ ∃ reading', tokens.foldlM (Reading.step none) reading = .ok reading' := by
  induction tokens generalizing reading with
  | nil => exact ⟨fun _ => ⟨reading, rfl⟩, fun _ => fits_done h reading.inner reading.outer⟩
  | cons token tokens ih =>
    obtain ⟨htoken, htokens⟩ := List.forall_mem_cons.mp hstray
    have hprefix := (prefix_meetAll (meetToken reading.spellings.keys token) tokens).trans hknown
    refine (fits_step h hprefix htoken).trans ?_
    rw [List.foldlM_cons]
    constructor
    · rintro ⟨between, hstep, hfits⟩
      obtain ⟨hsound, hkeys, _⟩ := step_spec h hprefix hstep
      rw [hstep]
      exact (ih htokens hsound (hkeys ▸ hknown)).mp hfits
    · rintro ⟨reading', hrun⟩
      obtain ⟨between, hstep, hrest⟩ := Outcome.bind_eq_ok.mp hrun
      obtain ⟨hsound, hkeys, _⟩ := step_spec h hprefix hstep
      exact ⟨between, hstep, (ih htokens hsound (hkeys ▸ hknown)).mpr ⟨reading', hrest⟩⟩

/-- Before the first token, what is to be read fits if it is well-named and closes no group. -/
theorem fits_start_iff {ahead : Phrase Nat × List (Phrase Nat)} :
    Fits known {} [] {} ahead ↔ ahead.2 = [] ∧ ahead.1.WellNamed := by
  have hrole (P : Standing → Prop) (id : Nat) : ¬ HasRole P known {} id := by
    rintro ⟨_, _, hfind, _⟩
    cases hfind
  have hscope : scope [({} : Frame)] = [] := rfl
  rw [fits_iff, closable, Nat.le_zero, List.length_eq_zero_iff]
  simp only [parts, laterBinders, laterFree, laterNestings, List.flatMap_cons, List.flatMap_nil,
    List.append_nil, hscope]
  refine and_congr_right fun _ => ⟨fun h => ⟨h.nestings_ne, fun x hx hfree => ?_⟩, fun h =>
    ⟨h.nestings_ne, fun x hx hfree => ?_⟩⟩
  · exact h.roles x (Or.inr hx) (Or.inr hfree)
  · exact h.binders_not_free x (hx.resolve_left (hrole _ x)) (hfree.resolve_left (hrole _ x))

end Reading

/-! ## Spellings and ids -/

/-- What a stream spells is met in it. -/
theorem names_subset_meetAll (tokens : List Token) (keys : List (Option String)) :
    ∀ phrase ∈ (Phrase.read id tokens).1 :: (Phrase.read id tokens).2,
      phrase.names ⊆ meetAll keys tokens := by
  induction tokens generalizing keys with
  | nil => exact List.forall_mem_singleton.mpr (List.nil_subset _)
  | cons token tokens ih =>
    obtain ⟨hphrase, hbehind⟩ := List.forall_mem_cons.mp (ih (meetToken keys token))
    have hmet : meetToken keys token ⊆ meetAll keys (token :: tokens) :=
      (prefix_meetAll (meetToken keys token) tokens).subset
    obtain ⟨kind, name⟩ := token
    cases kind with
    | opening =>
      have hnext : ((Phrase.read id tokens).2.headD .done).names ⊆ meetAll keys tokens := by
        cases hlater : (Phrase.read id tokens).2 with
        | nil => exact List.nil_subset _
        | cons later _ => exact hbehind later (by rw [hlater]; exact List.mem_cons_self)
      exact List.forall_mem_cons.mpr ⟨List.append_subset.mpr ⟨hphrase, hnext⟩, fun phrase hmem =>
        hbehind phrase (List.mem_of_mem_tail hmem)⟩
    | closing =>
      exact List.forall_mem_cons.mpr
        ⟨List.nil_subset _, List.forall_mem_cons.mpr ⟨hphrase, hbehind⟩⟩
    | func | var =>
      exact List.forall_mem_cons.mpr
        ⟨List.cons_subset.mpr ⟨hmet (mem_meet _ _), hphrase⟩, hbehind⟩
    | stray label => exact List.forall_mem_cons.mpr ⟨hphrase, hbehind⟩

/-- Going from spellings to ids and back keeps the good names of a stream. -/
theorem wellNamed_map_idxOf_iff (tokens : List Token) :
    ((Phrase.ofTokens tokens).map (meetAll [] tokens).idxOf).WellNamed
      ↔ (Phrase.ofTokens tokens).WellNamed := by
  refine Phrase.wellNamed_map_iff (g := fun id => (meetAll [] tokens)[id]?.join)
    fun name hname => ?_
  have hmem := names_subset_meetAll tokens [] _ List.mem_cons_self hname
  rw [List.getElem?_eq_getElem (List.idxOf_lt_length_of_mem hmem), List.getElem_idxOf]
  rfl

end Binding

namespace Expression

open Binding

/-- What has been read to the end of a stream is made an expression if all spellings are there. -/
theorem exists_ofTokens_of_foldlM {room : Option Nat} {tokens : List Token} {reading : Reading}
    (hempty : tokens ≠ []) (hnone : none ∉ meetAll [] tokens)
    (hreading : tokens.foldlM (Reading.step room) {} = .ok reading) :
    ∃ expression, ofTokensWithin room tokens = .ok expression := by
  obtain ⟨hsound, hkeys, _⟩ := Reading.foldlM_spec
    (sound_start (meetAll [] tokens)) (List.prefix_refl _) hreading
  have hmet := (Reading.finish_spec hsound).2.1.trans hkeys
  obtain ⟨names, htable⟩ := exists_nameTable (Reading.closed_finish hsound) (hmet ▸ hnone)
  refine ⟨{ root := (Reading.finish reading.inner reading.spellings reading.outer).1, names }, ?_⟩
  rw [ofTokensWithin, if_neg (by simpa using hempty)]
  exact Outcome.bind_eq_ok.mpr ⟨reading, hreading, Outcome.bind_eq_ok.mpr ⟨names, htable, rfl⟩⟩

/-- A stream of tokens that mean something is read to its end exactly if there are any, all
    spellings are there, every closing token closes a group, and the phrase that it spells is
    well-named. -/
theorem ofTokens_isOk_iff {tokens : List Token}
    (hstray : ∀ token ∈ tokens, ∀ label, token.kind ≠ .stray label) :
    (∃ expression, ofTokens tokens = .ok expression)
      ↔ tokens ≠ [] ∧ none ∉ meetAll [] tokens ∧ (Phrase.read id tokens).2 = []
        ∧ (Phrase.ofTokens tokens).WellNamed := by
  have hread := Phrase.read_map id (meetAll [] tokens).idxOf tokens
  have hrun := @Reading.fits_read (meetAll [] tokens) tokens hstray {}
    (sound_start (meetAll [] tokens)) (List.prefix_refl _)
  rw [Reading.fits_start_iff, ← Function.comp_id (meetAll [] tokens).idxOf, hread,
    List.map_eq_nil_iff] at hrun
  have hnames := wellNamed_map_idxOf_iff tokens
  rw [Phrase.ofTokens] at hnames
  constructor
  · rintro ⟨expression, h⟩
    have hempty : tokens ≠ [] := by
      rintro rfl
      cases h
    obtain ⟨reading, _, hreading, _, hkeys, htable⟩ := exists_of_ofTokens h
    obtain ⟨hbehind, hphrase⟩ := hrun.mpr ⟨reading, hreading⟩
    have hnone := none_notMem_keys_of_nameTable htable
    rw [hkeys] at hnone
    exact ⟨hempty, hnone, hbehind, hnames.mp hphrase⟩
  · rintro ⟨hempty, hnone, hbehind, hphrase⟩
    obtain ⟨reading, hreading⟩ := hrun.mp ⟨hbehind, hnames.mpr hphrase⟩
    exact exists_ofTokens_of_foldlM hempty hnone hreading

end Expression

end LambdaCalc
