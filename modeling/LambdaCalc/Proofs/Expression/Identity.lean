import LambdaCalc.Proofs.Expression.Behind
import LambdaCalc.Proofs.Expression.CopyIds

set_option autoImplicit false

/-! # The identity in front of a group

The tokens of the identity may stand in front of one group of tokens that does not use its name, and
both in a group of their own. What is built is the identity applied to what is built of the group
alone (`Expression.exists_argument_of_ofTokens`), and one more name, with the first id. When it is
reduced, the argument is copied and the copy is reduced to what the argument alone is reduced to, so
that the results are the same numbers and have the same text
(`Expression.shown_eq_of_identityOn`). -/

namespace LambdaCalc

open Node (Matches)

/-- The tokens of the identity, applied to what other tokens spell. -/
def Token.identityOn (name : String) (tokens : List Token) : List Token :=
  [.opening, .opening, .func name, .var name, .closing] ++ tokens ++ [.closing]

namespace Binding

variable {name : String} {tokens : List Token}

/-! ## Reading the identity -/

/-- The identity is the first element of the group that stands around it, and its name is closed. -/
theorem Reading.foldlM_identity {room : Option Nat} {next : Reading}
    (hnext : [Token.opening, .opening, .func name, .var name, .closing].foldlM (step room) {}
      = .ok next) :
    next = { inner := ({} : Frame).add (.abs [⟨0, 0⟩] [.bound 0 0]), outer := [{}],
             spellings := Spellings.behind (some name) 0 {} } := by
  have hbind : ({ outer := [{}, {}] } : Reading).step room (.func name)
      = .ok { inner := { params := [⟨0, 0⟩] }, outer := [{}, {}]
              spellings := { entries := [(some name, .live 3 0 0)] } } := rfl
  have huse : ({ inner := { params := [⟨0, 0⟩] }, outer := [{}, {}]
                 spellings := { entries := [(some name, .live 3 0 0)] } } : Reading).step room
        (.var name)
      = .ok { inner := { params := [⟨0, 0⟩], elements := [.bound 0 0] }, outer := [{}, {}]
              spellings := { entries := [(some name, .live 3 0 0)] } } := by
    simp [step, use, OrderedTable.find?, level, Frame.add]
  rw [List.foldlM_cons] at hnext
  obtain ⟨_, hopen, hnext⟩ := Outcome.bind_eq_ok.mp hnext
  obtain rfl := eq_of_enter hopen
  rw [List.foldlM_cons] at hnext
  obtain ⟨_, hopen, hnext⟩ := Outcome.bind_eq_ok.mp hnext
  obtain rfl := eq_of_enter hopen
  exact Except.ok.inj (hnext.symm.trans
    (Outcome.bind_eq_ok.mpr ⟨_, hbind, Outcome.bind_eq_ok.mpr ⟨_, huse, rfl⟩⟩))

/-! ## The names -/

/-- A spelling that has been met and does not occur any more stays in front of the others. -/
theorem meetAll_cons {key : Option String} (h : ∀ token ∈ tokens, token.Named (some · ≠ key))
    (keys : List (Option String)) : meetAll (key :: keys) tokens = key :: meetAll keys tokens := by
  have hmeet {other : Option String} (hother : other ≠ key) (keys : List (Option String)) :
      meet (key :: keys) other = key :: meet keys other := by
    simp only [meet, List.mem_cons, hother, false_or]
    split <;> rfl
  induction tokens generalizing keys with
  | nil => rfl
  | cons token tokens ih =>
    obtain ⟨hfirst, hothers⟩ := List.forall_mem_cons.mp h
    rw [meetAll, meetAll, List.foldl_cons, List.foldl_cons, ← meetAll, ← meetAll, ← ih hothers]
    refine congrArg (meetAll · tokens) ?_
    obtain ⟨kind, other⟩ := token
    cases kind with
    | opening | closing => rfl
    | func | var =>
      obtain ⟨_, rfl, hother⟩ := hfirst
      exact hmeet hother keys
    | stray => cases hfirst

theorem meetAll_identityOn (h : ∀ token ∈ tokens, token.Named (· ≠ name)) :
    meetAll [] (Token.identityOn name tokens) = some name :: meetAll [] tokens := by
  have hstart : meetAll [] [Token.opening, .opening, .func name, .var name, .closing]
      = [some name] := by
    simp [meetAll, meetToken, meet]
  rw [Token.identityOn, meetAll, List.foldl_append, List.foldl_append, ← meetAll, ← meetAll,
    ← meetAll, hstart]
  refine meetAll_cons (fun token hmem => (h token hmem).mono fun other hne heq => hne ?_) []
  exact Option.some.inj heq

end Binding

namespace Expression

open Binding Qualifier

variable {room room' : Option Nat} {name : String} {tokens : List Token}
  {expression expression' reduced reduced' : Expression}

/-! ## What is built -/

/-- The identity applied to one group is built with the tree of the group as its argument, but for
    the ids of the names. -/
theorem exists_argument_of_ofTokens (hgroup : Token.OneGroup tokens)
    (htokens : ∀ token ∈ tokens, token.Named (· ≠ name))
    (h : ofTokensWithin room tokens = .ok expression)
    (h' : ofTokensWithin room' (Token.identityOn name tokens) = .ok expression') :
    ∃ argument, expression'.root = .abs [] [.abs [⟨0, 0⟩] [.bound 0 0], argument]
      ∧ expression.root.Matches (· + 1 = ·) (Param.Named (· + 1 = ·)) argument := by
  obtain ⟨reading, spellings, hrun, hfinish, -, -⟩ := exists_of_ofTokens h
  obtain ⟨reading', spellings', hrun', hfinish', -, -⟩ := exists_of_ofTokens h'
  rw [Token.identityOn, List.append_assoc, List.foldlM_append] at hrun'
  obtain ⟨_, hidentity, hrun'⟩ := Outcome.bind_eq_ok.mp hrun'
  obtain rfl := Reading.foldlM_identity hidentity
  rw [List.foldlM_append] at hrun'
  obtain ⟨passed, hrun', hclose⟩ := Outcome.bind_eq_ok.mp hrun'
  have hsound := (Reading.foldlM_spec (sound_start (meetAll [] tokens)) (List.prefix_refl _) hrun).1
  have hothers (token : Token) (hmem : token ∈ tokens) : token.Named (some · ≠ some name) :=
    (htokens token hmem).mono fun _ hne heq => hne (Option.some.inj heq)
  obtain ⟨node, node', hnode, hreading, rfl⟩ :=
    Reading.passed_of_oneGroup hgroup hothers hrun hrun'
  rw [hreading] at hfinish hsound
  obtain rfl := Except.ok.inj hclose
  -- Nothing is bound in the implicit group, so that it dissolves without moving the group in it.
  have hscoped : node.WellScoped ([] ++ [0]) := (hsound.elements.1 node List.mem_cons_self).1
  have hzero : ∀ count ∈ [0], count = 0 := List.forall_mem_singleton.mpr rfl
  have hroot : node.unshift 0 = expression.root := congrArg Prod.fst hfinish
  have hroot' : Node.abs [] [.abs [⟨0, 0⟩] [.bound 0 0], node'.unshift 1] = expression'.root :=
    congrArg Prod.fst hfinish'
  rw [hscoped.unshift_eq [] hzero (Int.le_refl 0)] at hroot
  rw [Node.WellScoped.unshift_eq [] hzero (hnode.wellScoped hscoped) (Int.zero_le_ofNat 1)]
    at hroot'
  exact ⟨node', hroot'.symm, hroot ▸ hnode⟩

/-- Behind the name of the identity every name is shown as it is without it. -/
theorem shownThrough_of_identityOn (hname : Proper name)
    (htokens : ∀ token ∈ tokens, token.Named (· ≠ name))
    (hproper : ∀ token ∈ tokens, token.Named Proper)
    (h : ofTokensWithin room tokens = .ok expression)
    (h' : ofTokensWithin room' (Token.identityOn name tokens) = .ok expression') :
    expression'.names.size = expression.names.size + 1
      ∧ expression.names.ShownThrough (fun id id' => id + 1 = id' ∧ id < expression.names.size)
          expression'.names := by
  obtain ⟨_, spellings, -, -, hkeys, htable⟩ := exists_of_ofTokens h
  obtain ⟨_, spellings', -, -, hkeys', htable'⟩ := exists_of_ofTokens h'
  have hbehind : spellings'.keys = some name :: spellings.keys := by
    rw [hkeys, hkeys', meetAll_identityOn htokens]
  have honce (spelling : String) (hmem : some spelling ∈ spellings.keys) :=
    strip?_short_of_mem_meetAll hproper (hkeys ▸ hmem)
  have honce' (spelling : String) (hmem : some spelling ∈ spellings'.keys) :
      strip? (short spelling) = none := by
    rw [hbehind] at hmem
    rcases List.mem_cons.mp hmem with heq | hmem
    · obtain rfl := Option.some.inj heq
      exact hname.strip?_short
    · exact honce spelling hmem
  refine ⟨by rw [size_nameTable htable, size_nameTable htable', hbehind, List.length_cons], ?_⟩
  refine (shownThrough_of_nameTable htable htable' (hkeys ▸ nodup_meetAll List.nodup_nil tokens)
    (hkeys' ▸ nodup_meetAll List.nodup_nil _) honce honce').mono ?_
  rintro id _ ⟨rfl, hid⟩
  obtain ⟨spelling, hget⟩ := exists_spelling_of_lt htable hid
  refine ⟨spelling, spelling, hget, ?_, rfl⟩
  rw [hbehind, List.getElem?_cons_succ, hget]

/-! ## What it is reduced to -/

/-- What matches an argument is reduced to what matches that to which the identity, applied to the
    argument, is reduced. -/
theorem reduce_identity_matches {N : Nat → Nat → Prop} {param : Param} {argument : Node}
    {limits : Limits} (hroot : expression'.root = .abs [] [.abs [param] [.bound 0 0], argument])
    (hmatches : expression.root.Matches N (Param.Named N) argument)
    (hN : ∀ id id', N id id' → (id < expression.names.size ↔ id' < expression'.names.size))
    (hwellFormed : expression.WellFormed) (hwellFormed' : expression'.WellFormed)
    (hreduce : expression.reduce limits = .ok reduced)
    (hreduce' : expression'.reduce limits = .ok reduced') :
    reduced.root.Matches N (Param.Named N) reduced'.root := by
  obtain ⟨root, names, hrun, rfl⟩ := reduce_eq_ok_iff.mp hreduce
  obtain ⟨root', names', hrun', rfl⟩ := reduce_eq_ok_iff.mp hreduce'
  have hclosed := hmatches.wellScoped hwellFormed.wellScoped
  have hwithin := hwellFormed'.namesWithin
  rw [hroot] at hrun' hwithin
  have hnames := (Node.namesWithin_abs.mp hwithin).2 argument (by simp)
  obtain ⟨nesting, hnesting, copied, between, hcopy, hrest⟩ :=
    Node.exists_of_reduceWithin_identity hclosed hrun'
  -- The copy of the argument is reduced in parallel, within limits that are no larger.
  have hparallel := Node.reduceWithin_parallel (copiesAlike_names hN) limits.copying nesting
    (hmatches.trans_copy hclosed hcopy) ⟨.refl _, (Node.copy_ensures hnames hcopy).2⟩
  rw [hrest] at hparallel
  generalize hfirst : expression.root.reduceWithin limits.copying nesting expression.names = outcome
    at hparallel
  cases hparallel with
  | ok h =>
    have hmore := Node.reduceWithin_mono (Nat.le_refl _) hnesting _ hfirst
    obtain rfl := Except.ok.inj (hmore.symm.trans hrun)
    exact h.1

/-- The identity applied to one group is reduced to the same number, and has the same text, as the
    group alone, if both reductions return. -/
theorem shown_eq_of_identityOn {limits : Limits} (hgroup : Token.OneGroup tokens)
    (hname : Proper name) (htokens : ∀ token ∈ tokens, token.Named (· ≠ name))
    (hproper : ∀ token ∈ tokens, token.Named Proper)
    (h : ofTokensWithin room tokens = .ok expression)
    (h' : ofTokensWithin room' (Token.identityOn name tokens) = .ok expression')
    (hreduce : expression.reduce limits = .ok reduced)
    (hreduce' : expression'.reduce limits = .ok reduced') :
    reduced.number? = reduced'.number? ∧ reduced.render = reduced'.render := by
  have hwellFormed := wellFormed_of_ofTokens h
  have hwellFormed' := wellFormed_of_ofTokens h'
  obtain ⟨argument, hroot, hmatches⟩ := exists_argument_of_ofTokens hgroup htokens h h'
  obtain ⟨hsize, hshown⟩ := shownThrough_of_identityOn hname htokens hproper h h'
  have hmatches := reduce_identity_matches hroot (hmatches.within hwellFormed.namesWithin)
    (by omega) hwellFormed hwellFormed' hreduce hreduce'
  exact ⟨hmatches.number?_eq, render_eq_of_matches (hshown.congr (hwellFormed.sameNames hreduce)
    (hwellFormed'.sameNames hreduce')) hmatches⟩

end Expression

end LambdaCalc
