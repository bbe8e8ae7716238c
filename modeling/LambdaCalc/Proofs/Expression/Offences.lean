import LambdaCalc.Proofs.Expression.Groups
import LambdaCalc.Proofs.Expression.LexicalScope
import LambdaCalc.Proofs.Keyword.Hygiene

set_option autoImplicit false

/-! # The first offence of a token stream

Whether a token may stand where it does depends on the tokens before it: which groups they leave
open, and which names they bind and use free (`Token.Offends`). An expression is built from a stream
exactly if no token offends, and otherwise the first one that does is what is wrong with the stream
(`Expression.ofTokens_eq_error_iff_offends`).

While a stream is read, the open groups and the standings of the spellings say the same about a name
as the tokens that have been read (`Binding.Reading.Follows`). -/

namespace LambdaCalc

/-! ## What tokens say about the next one -/

namespace Token

/-- A token of one of the four usual forms. -/
inductive Usual : Token → Prop where
  | opening : Usual .opening
  | closing : Usual .closing
  | func (name : String) : Usual (.func name)
  | var (name : String) : Usual (.var name)

theorem Usual.named {token : Token} (h : token.Usual) : token.Named fun _ => True := by
  cases h with
  | opening | closing => trivial
  | func name | var name => exact ⟨name, rfl, trivial⟩

/-- A name is bound by a group that is still open, with so many others open inside it. -/
def OpenAt (before : List Token) (name : String) (depth : Nat) : Prop :=
  ∃ earlier later, before = earlier ++ .func name :: later ∧ depthAfter 0 later = some depth

/-- A name is bound by a group that is still open. -/
def BoundOpen (before : List Token) (name : String) : Prop := ∃ depth, OpenAt before name depth

/-- A name has been used where no open group bound it. -/
def UsedFree (before : List Token) (name : String) : Prop :=
  ∃ earlier later, before = earlier ++ .var name :: later ∧ ¬ BoundOpen earlier name

/-- A token that cannot stand behind others, and what is wrong with it: no group is open that it
    could close, it binds a name inside its own scope or one that has been used free, or it uses a
    name that has been bound but not by a group that is still open. -/
inductive Offends (before : List Token) : Token → Stop → Prop where
  | unmatched :
      depthAfter 0 before = some 0 → Offends before .closing (.ofKind .unmatchedParenthesis)
  | active {name : String} :
      BoundOpen before name → Offends before (.func name) (.about .activeName name)
  | reserved {name : String} :
      UsedFree before name → Offends before (.func name) (.about .reservedName name)
  | unavailable {name : String} : .func name ∈ before → ¬ BoundOpen before name →
      Offends before (.var name) (.about .unavailableName name)

/-- No token of a stream offends. -/
def Inoffensive (tokens : List Token) : Prop :=
  ∀ before token after, tokens = before ++ token :: after → ∀ stop, ¬ Offends before token stop

variable {before : List Token} {token : Token} {name : String} {depth : Nat}

/-- A token stands among others or comes last. -/
theorem exists_concat_iff {wanted : Token} {P : List Token → List Token → Prop} :
    (∃ earlier later, before ++ [token] = earlier ++ wanted :: later ∧ P earlier later)
      ↔ (∃ earlier later, before = earlier ++ wanted :: later ∧ P earlier (later ++ [token]))
        ∨ (token = wanted ∧ P before []) := by
  constructor
  · rintro ⟨earlier, later, heq, hP⟩
    rcases List.eq_nil_or_concat later with rfl | ⟨later, last, rfl⟩
    · obtain ⟨rfl, rfl⟩ := List.concat_inj.mp (by simpa using heq)
      exact .inr ⟨rfl, hP⟩
    · rw [List.concat_eq_append] at heq hP
      rw [← List.cons_append, ← List.append_assoc] at heq
      obtain ⟨rfl, hlast⟩ := List.append_inj' heq rfl
      obtain rfl := List.singleton_inj.mp hlast
      exact .inl ⟨earlier, later, rfl, hP⟩
  · rintro (⟨earlier, later, rfl, hP⟩ | ⟨rfl, hP⟩)
    · exact ⟨earlier, later ++ [token], by simp, hP⟩
    · exact ⟨before, [], rfl, hP⟩

theorem depthAfter_concat_eq_some :
    depthAfter 0 (before ++ [token]) = some depth
      ↔ ∃ depth', depthAfter 0 before = some depth' ∧ token.deepen depth' = some depth := by
  rw [depthAfter, List.foldlM_append]
  simp only [List.foldlM_cons, List.foldlM_nil, bind_pure]
  exact Option.bind_eq_some_iff

theorem deepen_closing_eq_some {depth' : Nat} :
    Token.closing.deepen depth' = some depth ↔ depth' = depth + 1 := by
  cases depth' with
  | zero => exact ⟨nofun, nofun⟩
  | succ depth' => exact Option.some_inj.trans Nat.succ_inj.symm

theorem openAt_concat_iff :
    OpenAt (before ++ [token]) name depth
      ↔ (∃ depth', OpenAt before name depth' ∧ token.deepen depth' = some depth)
        ∨ (token = .func name ∧ depth = 0) := by
  rw [OpenAt, exists_concat_iff]
  refine or_congr ?_ (and_congr Iff.rfl ?_)
  · simp only [OpenAt, depthAfter_concat_eq_some]
    constructor
    · rintro ⟨earlier, later, heq, depth', hdepth', hdepth⟩
      exact ⟨depth', ⟨earlier, later, heq, hdepth'⟩, hdepth⟩
    · rintro ⟨depth', ⟨earlier, later, heq, hdepth'⟩, hdepth⟩
      exact ⟨earlier, later, heq, depth', hdepth', hdepth⟩
  · exact Option.some_inj.trans eq_comm

theorem usedFree_concat_iff :
    UsedFree (before ++ [token]) name
      ↔ UsedFree before name ∨ (token = .var name ∧ ¬ BoundOpen before name) := by
  rw [UsedFree, exists_concat_iff]
  exact Iff.rfl

end Token

/-! ## Calculations with bounded room -/

namespace Outcome

variable {α β σ : Type}

/-- The first calculation does what the second one does, unless it is nested too deeply. -/
def Within (first second : Outcome α) : Prop := first = second ∨ first = .error .nestedTooDeeply

theorem Within.refl (outcome : Outcome α) : Within outcome outcome := .inl rfl

theorem Within.bind {first second : Outcome α} {first' second' : α → Outcome β}
    (h : Within first second) (h' : ∀ value, Within (first' value) (second' value)) :
    Within (first >>= first') (second >>= second') := by
  rcases h with rfl | rfl
  · cases first with
    | error stop => exact .refl _
    | ok value => exact h' value
  · exact .inr rfl

theorem Within.foldlM {step step' : σ → α → Outcome σ}
    (h : ∀ state value, Within (step state value) (step' state value)) (values : List α)
    (state : σ) : Within (values.foldlM step state) (values.foldlM step' state) := by
  induction values generalizing state with
  | nil => exact .refl _
  | cons value values ih =>
    rw [List.foldlM_cons, List.foldlM_cons]
    exact (h state value).bind fun state' => ih state'

end Outcome

namespace Binding

/-! ## What is known about a name -/

/-- How many groups that are not inlined are open inside the one at a level. -/
def crossed (level : Nat) : List Bool → Nat
  | [] => 0
  | mark :: marks =>
      if level = marks.length + 1 then 0 else crossed level marks + if mark then 0 else 1

theorem crossed_cons_of_le {level : Nat} {marks : List Bool} (h : level ≤ marks.length)
    (mark : Bool) :
    crossed level (mark :: marks) = crossed level marks + if mark then 0 else 1 :=
  if_neg (by omega)

/-- The standing of a spelling once the innermost group is closed that is not inlined. -/
def Standing.closeInner (marks : List Bool) : Standing → Standing
  | .live level position copy =>
      if crossed level marks = 0 then .closed copy else .live level position copy
  | standing => standing

/-- An inlined group is closed together with the one around it. -/
theorem Standing.closeInner_cons (mark : Bool) (marks : List Bool) (standing : Standing) :
    standing.closeInner (mark :: marks)
      = if mark then (standing.closeLevel (marks.length + 1)).closeInner marks
        else standing.closeLevel (marks.length + 1) := by
  cases standing with
  | live level position copy =>
    rw [Standing.closeInner, Standing.closeLevel, crossed]
    by_cases hlevel : level = marks.length + 1
    · cases mark <;> simp [hlevel, Standing.closeInner]
    · cases mark <;> simp [hlevel, Standing.closeInner]
  | closed | constant => cases mark <;> rfl

theorem Standing.closeInner_eq_live_iff {marks : List Bool} {standing : Standing}
    {level position : Nat} {copy : Int} :
    standing.closeInner marks = .live level position copy
      ↔ standing = .live level position copy ∧ crossed level marks ≠ 0 := by
  cases standing with
  | live level' position' copy' =>
    rw [Standing.closeInner]
    split
    · next hcrossed =>
      simp only [reduceCtorEq, Standing.live.injEq, false_iff, not_and, not_not]
      rintro ⟨rfl, -⟩
      exact hcrossed
    · next hcrossed =>
      refine (and_iff_left_of_imp ?_).symm
      rintro ⟨⟩
      exact hcrossed
  | closed | constant => simp [Standing.closeInner]

theorem Standing.closeInner_eq_constant_iff {marks : List Bool} {standing : Standing} :
    standing.closeInner marks = .constant ↔ standing = .constant := by
  cases standing with
  | live level position copy =>
    rw [Standing.closeInner]
    split <;> simp
  | closed | constant => rfl

namespace Reading

/-- What has been read so far says the same about a name as the tokens that have been read. -/
structure Follows (before : List Token) (reading : Reading) : Prop where
  depth : Token.depthAfter 0 before = some (crossed 1 (marks reading.frames))
  bound (name : String) : .func name ∈ before ↔ ∃ standing,
    reading.spellings.find? (some name) = some standing ∧ standing ≠ .constant
  openAt (name : String) (depth : Nat) : Token.OpenAt before name depth ↔ ∃ level position copy,
    reading.spellings.find? (some name) = some (.live level position copy)
      ∧ crossed level (marks reading.frames) = depth
  usedFree (name : String) :
    Token.UsedFree before name ↔ reading.spellings.find? (some name) = some .constant

variable {before : List Token} {token : Token} {reading reading' : Reading} {name : String}
  {stop : Stop}

theorem Follows.boundOpen (h : Follows before reading) (name : String) :
    Token.BoundOpen before name ↔ ∃ level position copy,
      reading.spellings.find? (some name) = some (.live level position copy) := by
  simp only [Token.BoundOpen, h.openAt]
  constructor
  · rintro ⟨_, level, position, copy, hfind, -⟩
    exact ⟨level, position, copy, hfind⟩
  · rintro ⟨level, position, copy, hfind⟩
    exact ⟨_, level, position, copy, hfind, rfl⟩

/-! ## What is wrong with a token -/

/-- What has been read, with one more group open. -/
def opened (inlined : Bool) (reading : Reading) : Reading :=
  { reading with inner := { inlined }, outer := reading.inner :: reading.outer }

/-- Behind other elements a name is bound in a group of its own. -/
theorem step_func (reading : Reading) (name : String) :
    reading.step none (.func name)
      = (if reading.inner.elements.isEmpty then reading else reading.opened true).bind
          (some name) := by
  have hstep : reading.step none (.func name)
      = if reading.inner.elements.isEmpty then reading.bind (some name)
        else reading.enter none true >>= fun reading => reading.bind (some name) := rfl
  rw [hstep]
  split_ifs
  · rfl
  · rfl

theorem bind_eq_error_iff :
    reading.bind (some name) = .error stop
      ↔ (∃ level position copy, reading.spellings.find? (some name)
            = some (.live level position copy)) ∧ stop = .about .activeName name
        ∨ reading.spellings.find? (some name) = some .constant
          ∧ stop = .about .reservedName name := by
  unfold Reading.bind
  cases hfind : reading.spellings.find? (some name) with
  | none => simp
  | some standing =>
    cases standing with
    | live | constant => simp [Stop.aboutName, Stop.about, Fault.about, eq_comm]
    | closed => simp

theorem use_eq_error_iff :
    reading.use (some name) = .error stop
      ↔ (∃ copy, reading.spellings.find? (some name) = some (.closed copy))
        ∧ stop = .about .unavailableName name := by
  unfold Reading.use
  cases hfind : reading.spellings.find? (some name) with
  | none => simp
  | some standing =>
    cases standing with
    | closed => simp [Stop.aboutName, Stop.about, Fault.about, eq_comm]
    | live | constant => simp

/-- Closing a group where there is only the implicit one: by induction on the groups around, which
    are all inlined. -/
theorem leave_eq_error {inner : Frame} {outer : List Frame} (spellings : Spellings)
    (h : crossed 1 (marks (inner :: outer)) = 0) :
    leave inner spellings outer = .error (.ofKind .unmatchedParenthesis) := by
  induction outer generalizing inner spellings with
  | nil => rfl
  | cons frame outer ih =>
    rw [marks, List.map_cons, crossed_cons_of_le (by simp)] at h
    obtain ⟨hcrossed, hinlined⟩ := Nat.add_eq_zero_iff.mp h
    have hinlined : inner.inlined = true := by
      by_contra hnot
      simp [hnot] at hinlined
    rw [leave, if_pos hinlined]
    exact ih _ hcrossed

/-- Closing a group closes those inlined in it as well: by induction on the groups around. -/
theorem leave_eq_ok {inner : Frame} {outer : List Frame} (spellings : Spellings)
    (h : crossed 1 (marks (inner :: outer)) ≠ 0) :
    ∃ reading, leave inner spellings outer = .ok reading
      ∧ reading.spellings = spellings.mapValues (·.closeInner (marks (inner :: outer)))
      ∧ ∀ level depth, crossed level (marks (inner :: outer)) = depth + 1 →
          crossed level (marks reading.frames) = depth := by
  induction outer generalizing inner spellings with
  | nil => exact absurd rfl h
  | cons frame outer ih =>
    have hmarks : marks (inner :: frame :: outer) = inner.inlined :: marks (frame :: outer) := rfl
    have hlength : (marks (frame :: outer)).length + 1 = outer.length + 2 := by simp [marks]
    rw [hmarks, crossed_cons_of_le (by simp [marks])] at h
    simp only [hmarks, Standing.closeInner_cons, crossed, hlength]
    rw [leave]
    cases hinlined : inner.inlined with
    | true =>
      simp only [hinlined, if_true, Nat.add_zero] at h ⊢
      obtain ⟨reading, hleave, hspellings, hlevels⟩ := @ih (frame.add inner.node)
        (spellings.mapValues (·.closeLevel (outer.length + 2))) h
      refine ⟨reading, hleave, ?_, ?_⟩
      · rw [hspellings, OrderedTable.mapValues, OrderedTable.mapValues, OrderedTable.mapValues,
          List.map_map]
        rfl
      · intro level depth hdepth
        split at hdepth
        · cases hdepth
        · exact hlevels level depth hdepth
    | false =>
      simp only [Bool.false_eq_true, if_false]
      refine ⟨_, rfl, rfl, ?_⟩
      intro level depth hdepth
      split at hdepth
      · cases hdepth
      · exact Nat.succ.inj hdepth

/-- A token is refused exactly if it offends behind the tokens that have been read. -/
theorem Follows.step_eq_error_iff (h : Follows before reading) (htoken : token.Usual) :
    reading.step none token = .error stop ↔ token.Offends before stop := by
  cases htoken with
  | opening => exact ⟨nofun, nofun⟩
  | closing =>
    have hstep : reading.step none .closing
      = leave reading.inner reading.spellings reading.outer := rfl
    rw [hstep]
    by_cases hcrossed : crossed 1 (marks reading.frames) = 0
    · have hdepth := h.depth
      rw [hcrossed] at hdepth
      rw [leave_eq_error reading.spellings hcrossed, Except.error.injEq]
      constructor
      · rintro rfl
        exact .unmatched hdepth
      · rintro ⟨⟩
        rfl
    · obtain ⟨_, hleave, -⟩ := leave_eq_ok reading.spellings hcrossed
      rw [hleave]
      constructor
      · nofun
      · rintro ⟨hdepth⟩
        exact absurd (Option.some.inj (h.depth.symm.trans hdepth)) hcrossed
  | func name =>
    -- A group that is opened changes nothing about the name that is bound in it.
    have hspellings : (if reading.inner.elements.isEmpty then reading
        else reading.opened true).spellings = reading.spellings := by split <;> rfl
    rw [step_func, bind_eq_error_iff, hspellings, ← h.boundOpen, ← h.usedFree]
    constructor
    · rintro (⟨hopen, rfl⟩ | ⟨hfree, rfl⟩)
      · exact .active hopen
      · exact .reserved hfree
    · rintro (_ | hopen | hfree)
      · exact .inl ⟨hopen, rfl⟩
      · exact .inr ⟨hfree, rfl⟩
  | var name =>
    have hstep : reading.step none (.var name) = reading.use (some name) := rfl
    rw [hstep, use_eq_error_iff]
    constructor
    · rintro ⟨⟨copy, hfind⟩, rfl⟩
      refine .unavailable ((h.bound name).mpr ⟨_, hfind, nofun⟩) ?_
      rw [h.boundOpen, hfind]
      nofun
    · rintro (_ | _ | _ | ⟨hbound, hopen⟩)
      obtain ⟨standing, hfind, hconstant⟩ := (h.bound name).mp hbound
      rw [h.boundOpen, hfind] at hopen
      cases standing with
      | live level position copy => exact absurd ⟨level, position, copy, rfl⟩ hopen
      | closed copy => exact ⟨⟨copy, hfind⟩, rfl⟩
      | constant => exact absurd rfl hconstant

/-! ## What is known behind a token -/

/-- The levels that are known are open. -/
def Leveled (reading : Reading) : Prop := ∀ name level position copy,
  reading.spellings.find? name = some (.live level position copy) → level ≤ reading.frames.length

theorem crossed_opened {level : Nat} (h : level ≤ reading.frames.length) (inlined : Bool) :
    crossed level (marks (reading.opened inlined).frames)
      = crossed level (marks reading.frames) + if inlined then 0 else 1 := by
  refine crossed_cons_of_le ?_ inlined
  rw [List.length_map]
  exact h

/-- A group that is inlined is not opened by a token. -/
theorem Follows.inlined (h : Follows before reading) (hlevels : Leveled reading) :
    Follows before (reading.opened true) where
  depth := h.depth
  bound := h.bound
  openAt name depth := by
    rw [h.openAt]
    refine exists_congr fun level => exists_congr fun position => exists_congr fun copy => ?_
    refine and_congr_right fun hfind => ?_
    rw [crossed_opened (hlevels _ _ _ _ hfind)]
    exact Iff.rfl
  usedFree := h.usedFree

theorem Follows.opening (h : Follows before reading) (hlevels : Leveled reading) :
    Follows (before ++ [.opening]) (reading.opened false) where
  depth := Token.depthAfter_concat_eq_some.mpr ⟨_, h.depth, rfl⟩
  bound name := by
    rw [List.mem_append, List.mem_singleton, h.bound]
    exact or_iff_left (by rintro ⟨⟩)
  openAt name depth := by
    rw [Token.openAt_concat_iff, or_iff_left (by rintro ⟨⟨⟩, -⟩)]
    simp only [h.openAt]
    constructor
    · rintro ⟨_, ⟨level, position, copy, hfind, rfl⟩, hdepth⟩
      obtain rfl := Option.some.inj hdepth
      exact ⟨level, position, copy, hfind, crossed_opened (hlevels _ _ _ _ hfind) false⟩
    · rintro ⟨level, position, copy, hfind, rfl⟩
      refine ⟨_, ⟨level, position, copy, hfind, rfl⟩, ?_⟩
      exact congrArg some (crossed_opened (hlevels _ _ _ _ hfind) false).symm
  usedFree name := by
    rw [Token.usedFree_concat_iff, or_iff_left (by rintro ⟨⟨⟩, -⟩)]
    exact h.usedFree name

theorem Follows.closing (h : Follows before reading)
    (hleave : leave reading.inner reading.spellings reading.outer = .ok reading') :
    Follows (before ++ [.closing]) reading' := by
  have hcrossed : crossed 1 (marks reading.frames) ≠ 0 := by
    intro hcrossed
    cases (leave_eq_error reading.spellings hcrossed).symm.trans hleave
  obtain ⟨_, hleave', hspellings, hlevels⟩ := leave_eq_ok reading.spellings hcrossed
  obtain rfl := Except.ok.inj (hleave.symm.trans hleave')
  have hfind (name : Option String) : reading'.spellings.find? name
      = (reading.spellings.find? name).map (·.closeInner (marks reading.frames)) := by
    rw [hspellings, OrderedTable.find?_mapValues]
    rfl
  constructor
  · obtain ⟨depth, hdepth⟩ := Nat.exists_eq_succ_of_ne_zero hcrossed
    rw [Token.depthAfter_concat_eq_some, h.depth, hlevels 1 depth hdepth]
    exact ⟨_, rfl, Token.deepen_closing_eq_some.mpr hdepth⟩
  · intro name
    rw [List.mem_append, List.mem_singleton, or_iff_left (by rintro ⟨⟩), h.bound, hfind]
    simp [Standing.closeInner_eq_constant_iff]
  · intro name depth
    rw [Token.openAt_concat_iff, or_iff_left (by rintro ⟨⟨⟩, -⟩)]
    simp only [h.openAt, Token.deepen_closing_eq_some, hfind, Option.map_eq_some_iff,
      Standing.closeInner_eq_live_iff]
    constructor
    · rintro ⟨_, ⟨level, position, copy, hlive, hlevel⟩, rfl⟩
      exact ⟨level, position, copy, ⟨_, hlive, rfl, by omega⟩, hlevels level depth hlevel⟩
    · rintro ⟨level, position, copy, ⟨_, hlive, rfl, hne⟩, rfl⟩
      obtain ⟨depth, hdepth⟩ := Nat.exists_eq_succ_of_ne_zero hne
      exact ⟨_, ⟨level, position, copy, hlive, rfl⟩, by rw [hlevels level depth hdepth, hdepth]⟩
  · intro name
    rw [Token.usedFree_concat_iff, or_iff_left (by rintro ⟨⟨⟩, -⟩), h.usedFree, hfind]
    simp [Standing.closeInner_eq_constant_iff]

/-- No group is opened or closed where a name is bound or used. -/
theorem Follows.depthAfter_concat (h : Follows before reading)
    (htoken : ∀ depth, token.deepen depth = some depth)
    (hmarks : marks reading'.frames = marks reading.frames) :
    Token.depthAfter 0 (before ++ [token]) = some (crossed 1 (marks reading'.frames)) := by
  rw [Token.depthAfter_concat_eq_some, hmarks]
  exact ⟨_, h.depth, htoken _⟩

theorem Follows.bind (h : Follows before reading)
    (hbind : reading.bind (some name) = .ok reading') :
    Follows (before ++ [.func name]) reading' := by
  have hmarks := marks_of_bind hbind
  obtain ⟨hbindable, copy, -, rfl⟩ := bind_eq_ok_iff.mp hbind
  have hlevel : crossed reading.level (marks reading.frames) = 0 := by
    rw [frames, marks, List.map_cons, crossed, if_pos (by simp [level])]
  constructor
  · exact h.depthAfter_concat (fun _ => rfl) hmarks
  · intro other
    simp only [List.mem_append, List.mem_singleton, h.bound, OrderedTable.find?_put]
    by_cases hname : other = name
    · simp [hname]
    · simp [hname]
  · intro other depth
    rw [Token.openAt_concat_iff, hmarks]
    simp only [h.openAt, OrderedTable.find?_put]
    by_cases hname : other = name
    · subst hname
      simp [hbindable.not_live, hlevel, eq_comm]
    · have hne : name ≠ other := Ne.symm hname
      simp [hname, hne, Token.deepen]
  · intro other
    rw [Token.usedFree_concat_iff, or_iff_left (by rintro ⟨⟨⟩, -⟩), h.usedFree,
      OrderedTable.find?_put]
    by_cases hname : other = name
    · subst hname
      rcases hbindable with hnone | ⟨_, hclosed⟩
      · simp [hnone]
      · simp [hclosed]
    · simp [hname]

/-- Where nothing is entered, a name is used that is bound by an open group or free already. -/
theorem Follows.concat_var (h : Follows before reading)
    (hmarks : marks reading'.frames = marks reading.frames)
    (hspellings : reading'.spellings = reading.spellings)
    (hused : Token.BoundOpen before name ∨ Token.UsedFree before name) :
    Follows (before ++ [.var name]) reading' := by
  constructor
  · exact h.depthAfter_concat (fun _ => rfl) hmarks
  · intro other
    rw [hspellings, ← h.bound]
    simp
  · intro other depth
    rw [hspellings, hmarks, ← h.openAt, Token.openAt_concat_iff]
    simp [Token.deepen]
  · intro other
    rw [hspellings, ← h.usedFree, Token.usedFree_concat_iff]
    refine or_iff_left_of_imp ?_
    rintro ⟨⟨⟩, hnot⟩
    exact hused.resolve_left hnot

theorem Follows.use (h : Follows before reading)
    (huse : reading.use (some name) = .ok reading') :
    Follows (before ++ [.var name]) reading' := by
  have hmarks := marks_of_use huse
  rcases use_eq_ok huse with ⟨level, position, copy, hfind, rfl⟩ | ⟨hfind, rfl⟩ | ⟨hfind, rfl⟩
  · exact h.concat_var hmarks rfl (.inl ((h.boundOpen name).mpr ⟨_, _, _, hfind⟩))
  · exact h.concat_var hmarks rfl (.inr ((h.usedFree name).mpr hfind))
  · -- A new spelling is neither bound nor free so far.
    constructor
    · exact h.depthAfter_concat (fun _ => rfl) hmarks
    · intro other
      rw [List.mem_append, List.mem_singleton, or_iff_left (by rintro ⟨⟩), h.bound,
        OrderedTable.find?_put]
      by_cases hname : other = name
      · subst hname
        simp [hfind]
      · simp [hname]
    · intro other depth
      rw [Token.openAt_concat_iff, hmarks]
      simp only [h.openAt, OrderedTable.find?_put]
      by_cases hname : other = name
      · subst hname
        simp [hfind]
      · simp [hname, Token.deepen]
    · intro other
      rw [Token.usedFree_concat_iff, h.usedFree, h.boundOpen, OrderedTable.find?_put]
      by_cases hname : other = name
      · subst hname
        simp [hfind]
      · simp [hname, Ne.symm hname]

/-- Reading a token keeps what is known. -/
theorem Follows.step (h : Follows before reading) (hlevels : Leveled reading)
    (htoken : token.Usual) (hstep : reading.step none token = .ok reading') :
    Follows (before ++ [token]) reading' := by
  cases htoken with
  | opening =>
    obtain rfl := Except.ok.inj hstep
    exact h.opening hlevels
  | closing => exact h.closing hstep
  | func name =>
    rw [step_func] at hstep
    split at hstep
    · exact h.bind hstep
    · exact (h.inlined hlevels).bind hstep
  | var name => exact h.use hstep

/-! ## Streams -/

variable {tokens : List Token}

theorem follows_start : Follows [] {} := by
  refine ⟨rfl, fun name => ?_, fun name depth => ?_, fun name => ?_⟩
  · exact ⟨nofun, nofun⟩
  · refine ⟨?_, nofun⟩
    rintro ⟨earlier, later, heq, -⟩
    simp at heq
  · refine ⟨?_, nofun⟩
    rintro ⟨earlier, later, heq, -⟩
    simp at heq

theorem leveled_of_foldlM (hrun : tokens.foldlM (Reading.step none) {} = .ok reading) :
    Leveled reading := by
  obtain ⟨hsound, -, -⟩ := foldlM_spec (sound_start (meetAll [] tokens)) (List.prefix_refl _) hrun
  intro name level position copy hfind
  obtain ⟨index, hindex, -⟩ := hsound.addressed hfind
  exact level_le_of_index? hindex

/-- Reading keeps what is known: by induction on the tokens, from the last one. -/
theorem follows_of_foldlM (htokens : ∀ token ∈ tokens, token.Usual)
    (hrun : tokens.foldlM (Reading.step none) {} = .ok reading) : Follows tokens reading := by
  induction tokens using List.reverseRecOn generalizing reading with
  | nil =>
    obtain rfl := Except.ok.inj hrun
    exact follows_start
  | append_singleton before token ih =>
    obtain ⟨hbefore, htoken⟩ := List.forall_mem_append.mp htokens
    rw [List.foldlM_append] at hrun
    obtain ⟨between, hrun, hlast⟩ := Outcome.bind_eq_ok.mp hrun
    simp only [List.foldlM_cons, List.foldlM_nil, bind_pure] at hlast
    exact (ih hbefore hrun).step (leveled_of_foldlM hrun) (List.forall_mem_singleton.mp htoken)
      hlast

theorem step_eq_error_iff_of_foldlM {after : List Token}
    (htokens : ∀ token' ∈ before ++ token :: after, token'.Usual)
    (hrun : before.foldlM (Reading.step none) {} = .ok reading) :
    reading.step none token = .error stop ↔ token.Offends before stop := by
  obtain ⟨hbefore, hbehind⟩ := List.forall_mem_append.mp htokens
  exact (follows_of_foldlM hbefore hrun).step_eq_error_iff (List.forall_mem_cons.mp hbehind).1

/-- A stream is read to its end exactly if no token offends. -/
theorem inoffensive_iff (htokens : ∀ token ∈ tokens, token.Usual) :
    Token.Inoffensive tokens ↔ ∃ reading, tokens.foldlM (Reading.step none) {} = .ok reading := by
  constructor
  · intro h
    cases hrun : tokens.foldlM (Reading.step none) {} with
    | ok reading => exact ⟨reading, rfl⟩
    | error stop =>
      obtain ⟨before, token, after, between, rfl, hbefore, hstep⟩ :=
        Outcome.foldlM_eq_error.mp hrun
      exact absurd ((step_eq_error_iff_of_foldlM htokens hbefore).mp hstep)
        (h before token after rfl stop)
  · rintro ⟨reading, hrun⟩ before token after rfl stop hstop
    have hrun' := hrun
    rw [List.foldlM_append] at hrun'
    obtain ⟨between, hbefore, -⟩ := Outcome.bind_eq_ok.mp hrun'
    have hstep := (step_eq_error_iff_of_foldlM htokens hbefore).mpr hstop
    have herror :=
      Outcome.foldlM_eq_error.mpr ⟨before, token, after, between, rfl, hbefore, hstep⟩
    cases hrun.symm.trans herror

/-- Reading stops at the first token that offends. -/
theorem foldlM_eq_error_iff (htokens : ∀ token ∈ tokens, token.Usual) :
    tokens.foldlM (Reading.step none) {} = .error stop ↔ ∃ before token after,
      tokens = before ++ token :: after ∧ Token.Inoffensive before ∧ token.Offends before stop := by
  rw [Outcome.foldlM_eq_error]
  constructor
  · rintro ⟨before, token, after, reading, rfl, hrun, hstep⟩
    refine ⟨before, token, after, rfl, ?_, (step_eq_error_iff_of_foldlM htokens hrun).mp hstep⟩
    exact (inoffensive_iff (List.forall_mem_append.mp htokens).1).mpr ⟨reading, hrun⟩
  · rintro ⟨before, token, after, rfl, hinoffensive, hstop⟩
    obtain ⟨reading, hrun⟩ :=
      (inoffensive_iff (List.forall_mem_append.mp htokens).1).mp hinoffensive
    exact ⟨before, token, after, reading, rfl, hrun,
      (step_eq_error_iff_of_foldlM htokens hrun).mpr hstop⟩

/-! ## Room for groups -/

theorem enter_within (room : Option Nat) (inlined : Bool) (reading : Reading) :
    Outcome.Within (reading.enter room inlined) (reading.enter none inlined) := by
  rw [enter]
  split
  · exact .inr rfl
  · exact .inl rfl

theorem step_within (room : Option Nat) (reading : Reading) (token : Token) :
    Outcome.Within (reading.step room token) (reading.step none token) := by
  unfold Reading.step
  split
  · exact enter_within room false reading
  · exact .refl _
  · split
    · exact .refl _
    · exact (enter_within room true reading).bind fun entered => .refl _
  · exact .refl _
  · exact .refl _

end Reading

end Binding

namespace Expression

open Binding

/-- Less room for groups makes a difference only if a stream is nested too deeply. -/
theorem ofTokens_within (room : Option Nat) (tokens : List Token) :
    Outcome.Within (ofTokensWithin room tokens) (ofTokens tokens) := by
  unfold ofTokens ofTokensWithin
  split
  · exact .refl _
  · exact (Outcome.Within.foldlM (Reading.step_within room) tokens {}).bind fun reading => .refl _

theorem ofTokens_eq_error_iff {tokens : List Token} (htokens : ∀ token ∈ tokens, token.Usual)
    (hne : tokens ≠ []) {stop : Stop} :
    ofTokens tokens = .error stop ↔ tokens.foldlM (Reading.step none) {} = .error stop := by
  cases hrun : tokens.foldlM (Reading.step none) {} with
  | error stop' =>
    have hbuilt : ofTokens tokens = .error stop' := by
      rw [ofTokens, ofTokensWithin, if_neg (by simpa using hne), hrun]
      rfl
    rw [hbuilt, Except.error.injEq, Except.error.injEq]
  | ok reading =>
    have hnone : none ∉ meetAll [] tokens := fun hmem => by
      obtain ⟨_, ⟨⟩, -⟩ := @named_of_mem_meetAll (fun _ => True) tokens
        (fun token hmem => (htokens token hmem).named) [] (List.forall_mem_nil _) none hmem
    obtain ⟨expression, hbuilt⟩ := exists_ofTokens_of_foldlM hne hnone hrun
    rw [ofTokens, hbuilt]
    constructor
    · rintro ⟨⟩
    · rintro ⟨⟩

/-- Nothing is built from no tokens. From others an expression is built exactly if none of them
    offends, and otherwise the first one that does says what is wrong. With less room for groups
    nothing else is different than that tokens may be nested too deeply, and the calculator never
    contradicts itself. -/
theorem ofTokens_eq_error_iff_offends {tokens : List Token}
    (htokens : ∀ token ∈ tokens, token.Usual) :
    (tokens = [] → ofTokens tokens = .error (.ofKind .emptyExpression))
      ∧ (tokens ≠ [] → (∀ stop, ofTokens tokens = .error stop ↔ ∃ before token after,
            tokens = before ++ token :: after ∧ Token.Inoffensive before
              ∧ token.Offends before stop)
          ∧ ((∃ expression, ofTokens tokens = .ok expression) ↔ Token.Inoffensive tokens))
      ∧ ∀ room, (ofTokensWithin room tokens = ofTokens tokens
            ∨ ofTokensWithin room tokens = .error .nestedTooDeeply)
          ∧ ofTokensWithin room tokens ≠ .error (.ofKind .internalFailure) := by
  refine ⟨?_, fun hne => ⟨fun stop => ?_, ?_⟩, fun room => ⟨ofTokens_within room tokens, ?_⟩⟩
  · rintro rfl
    rfl
  · rw [ofTokens_eq_error_iff htokens hne]
    exact Reading.foldlM_eq_error_iff htokens
  · rw [Reading.inoffensive_iff htokens]
    constructor
    · rintro ⟨expression, hbuilt⟩
      obtain ⟨reading, -, hrun, -⟩ := exists_of_ofTokens hbuilt
      exact ⟨reading, hrun⟩
    · rintro ⟨reading, hrun⟩
      cases hbuilt : ofTokens tokens with
      | ok expression => exact ⟨expression, rfl⟩
      | error stop => cases hrun.symm.trans ((ofTokens_eq_error_iff htokens hne).mp hbuilt)
  · intro hstop
    rcases ofTokens_within room tokens with heq | heq
    · rw [heq] at hstop
      by_cases hne : tokens = []
      · subst hne
        cases hstop
      · rw [ofTokens_eq_error_iff htokens hne, Reading.foldlM_eq_error_iff htokens] at hstop
        obtain ⟨_, _, _, -, -, hoffends⟩ := hstop
        cases hoffends
    · cases heq.symm.trans hstop

/-- In `λx.(x λy.y) y` the last name has been bound, but by a group that is closed. -/
theorem ofTokens_eq_error_iff_offends_closed :
    (∀ token ∈ [Token.func "x", .opening, .var "x", .func "y", .var "y", .closing, .var "y"],
        token.Usual)
      ∧ ∃ before token after,
        [Token.func "x", .opening, .var "x", .func "y", .var "y", .closing, .var "y"]
            = before ++ token :: after
          ∧ Token.Inoffensive before ∧ token.Offends before (.about .unavailableName "y") := by
  have htokens : ∀ token ∈
      [Token.func "x", .opening, .var "x", .func "y", .var "y", .closing, .var "y"],
      token.Usual := by
    simp only [List.forall_mem_cons]
    exact ⟨.func "x", .opening, .var "x", .func "y", .var "y", .closing, .var "y", nofun⟩
  refine ⟨htokens, ?_⟩
  exact (((ofTokens_eq_error_iff_offends htokens).2.1 (by simp)).1 _).mp (by cbv)

end Expression

end LambdaCalc
