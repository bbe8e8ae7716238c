import LambdaCalc.Proofs.Expression.ShownAlike
import LambdaCalc.Proofs.Node.Counters

set_option autoImplicit false

/-! # Renaming the names of a token stream

The binder only compares names with one another. So it reads a stream whose names have been renamed,
different ones differently, step by step like the stream itself (`Binding.Reading.step_rename`): it
stops at the same token for a fault of the same kind, or builds the same tree with the same
counters. If the names are renamed in nothing but their qualifiers, they are shown alike as well,
and then the two expressions cannot be told apart, neither by printing nor by reducing them
(`Expression.ofTokensWithin_rename`). -/

namespace LambdaCalc

/-! ## Tables with other keys -/

namespace OrderedTable

variable {κ κ' ν μ : Type}

/-- Change every key and keep the values. -/
def mapKeys (f : κ → κ') (table : OrderedTable κ ν) : OrderedTable κ' ν :=
  { entries := table.entries.map fun entry => (f entry.1, entry.2) }

theorem keys_mapKeys (f : κ → κ') (table : OrderedTable κ ν) :
    (table.mapKeys f).keys = table.keys.map f := by
  simp only [keys, mapKeys, List.map_map]
  rfl

theorem mapValues_mapKeys (f : κ → κ') (g : ν → μ) (table : OrderedTable κ ν) :
    (table.mapKeys f).mapValues g = (table.mapValues g).mapKeys f := by
  simp only [mapKeys, mapValues, List.map_map]
  rfl

variable [DecidableEq κ] [DecidableEq κ'] {f : κ → κ'}

theorem find?_mapKeys (hf : f.Injective) (table : OrderedTable κ ν) (key : κ) :
    (table.mapKeys f).find? (f key) = table.find? key := by
  unfold mapKeys find?
  induction table.entries with
  | nil => rfl
  | cons entry rest ih =>
    have hkey : (f key == f entry.1) = (key == entry.1) := by
      rw [Bool.eq_iff_iff, beq_iff_eq, beq_iff_eq, hf.eq_iff]
    rw [List.map_cons, List.lookup_cons, List.lookup_cons, ih, hkey]

theorem mapKeys_put (hf : f.Injective) (table : OrderedTable κ ν) (key : κ) (value : ν) :
    (table.put key value).mapKeys f = (table.mapKeys f).put (f key) value := by
  have hcontains : (table.mapKeys f).contains (f key) = table.contains key := by
    rw [contains, contains, find?_mapKeys hf]
  unfold put
  rw [hcontains]
  split
  · simp only [mapKeys, List.map_map, mk.injEq]
    refine List.map_congr_left fun entry _ => ?_
    by_cases hkey : entry.1 = key
    · simp [hkey]
    · have hne : f entry.1 ≠ f key := hf.ne hkey
      simp [hkey, hne]
  · simp [mapKeys]

end OrderedTable

/-! ## Reading renamed tokens -/

/-- The token with another name, if it is one that needs a name. -/
def Token.rename (f : String → String) (token : Token) : Token :=
  match token.kind with
  | .func | .var => { token with name := token.name.map f }
  | .opening | .closing | .stray _ => token

theorem Token.rename_id (token : Token) : token.rename id = token := by
  obtain ⟨kind, name⟩ := token
  cases kind with
  | func | var => simp only [Token.rename, Option.map_id_fun, id]
  | opening | closing | stray => rfl

theorem Token.map_rename_id (tokens : List Token) : tokens.map (Token.rename id) = tokens :=
  (List.map_congr_left fun token _ => token.rename_id).trans (List.map_id tokens)

theorem Token.rename_eq_self {f : String → String} {token : Token}
    (h : token.Named fun name => f name = name) : token.rename f = token := by
  obtain ⟨kind, name⟩ := token
  cases kind with
  | func | var =>
    obtain ⟨name, rfl, hname⟩ := h
    simp only [Token.rename, Option.map_some, hname]
  | opening | closing | stray => rfl

theorem Token.map_rename_eq_self {f : String → String} {tokens : List Token}
    (h : ∀ token ∈ tokens, token.Named fun name => f name = name) :
    tokens.map (Token.rename f) = tokens :=
  (List.map_congr_left fun token hmem => Token.rename_eq_self (h token hmem)).trans
    (List.map_id tokens)

namespace Binding

variable {f : String → String}

/-! ### The spellings -/

namespace Spellings

/-- The spellings with other names. -/
def rename (f : String → String) (spellings : Spellings) : Spellings :=
  spellings.mapKeys (Option.map f)

theorem keys_rename (f : String → String) (spellings : Spellings) :
    (spellings.rename f).keys = spellings.keys.map (Option.map f) :=
  OrderedTable.keys_mapKeys _ _

theorem none_mem_keys_rename {spellings : Spellings} :
    none ∈ (spellings.rename f).keys ↔ none ∈ spellings.keys := by
  simp [keys_rename]

theorem find?_rename (hf : f.Injective) (spellings : Spellings) (name : Option String) :
    (spellings.rename f).find? (name.map f) = spellings.find? name :=
  OrderedTable.find?_mapKeys (Option.map_injective hf) _ _

theorem put_rename (hf : f.Injective) (spellings : Spellings) (name : Option String)
    (standing : Standing) :
    (spellings.rename f).put (name.map f) standing = rename f (spellings.put name standing) :=
  (OrderedTable.mapKeys_put (Option.map_injective hf) _ _ _).symm

theorem id_rename (hf : f.Injective) (spellings : Spellings) (name : Option String) :
    (spellings.rename f).id (name.map f) = spellings.id name := by
  rw [Spellings.id, Spellings.id, keys_rename]
  induction spellings.keys with
  | nil => rfl
  | cons key keys ih =>
    have hkey : (key.map f == name.map f) = (key == name) := by
      rw [Bool.eq_iff_iff, beq_iff_eq, beq_iff_eq, (Option.map_injective hf).eq_iff]
    rw [List.map_cons, List.idxOf_cons, List.idxOf_cons, ih, hkey]

/-- Names are bound by open groups whatever they are called. -/
theorem Closed.rename (hf : f.Injective) {spellings : Spellings} (h : spellings.Closed) :
    (spellings.rename f).Closed := by
  intro name level position copy hfind
  have hmem := mem_keys_of_find? hfind
  rw [keys_rename] at hmem
  obtain ⟨name, -, rfl⟩ := List.mem_map.mp hmem
  rw [find?_rename hf] at hfind
  exact h name level position copy hfind

end Spellings

namespace Reading

/-- The state of reading with other names. -/
def rename (f : String → String) (reading : Reading) : Reading :=
  { reading with spellings := reading.spellings.rename f }

/-- Both stop for faults of the same kind, or the one state is the other one with other names. -/
abbrev AlikeBut (f : String → String) : Outcome Reading → Outcome Reading → Prop :=
  Outcome.Alike Stop.SameClass fun reading reading' => reading' = reading.rename f

/-! ### One token -/

theorem enter_rename (room : Option Nat) (inlined : Bool) (reading : Reading) :
    AlikeBut f (reading.enter room inlined) ((reading.rename f).enter room inlined) := by
  have hlevel : (reading.rename f).level = reading.level := rfl
  unfold enter
  rw [hlevel]
  split
  · exact .error (.refl _)
  · exact .ok rfl

theorem bind_rename (hf : f.Injective) (name : Option String) (reading : Reading) :
    AlikeBut f (reading.bind name) ((reading.rename f).bind (name.map f)) := by
  unfold bind
  simp only [rename, level, Spellings.find?_rename hf, Spellings.id_rename hf,
    Spellings.put_rename hf]
  split
  · exact .ok rfl
  · exact .ok rfl
  · exact .error (.fault rfl)
  · exact .error (.fault rfl)

theorem use_rename (hf : f.Injective) (name : Option String) (reading : Reading) :
    AlikeBut f (reading.use name) ((reading.rename f).use (name.map f)) := by
  unfold use
  simp only [rename, level, Spellings.find?_rename hf, Spellings.id_rename hf,
    Spellings.put_rename hf]
  split
  · exact .ok rfl
  · exact .error (.fault rfl)
  · exact .ok rfl
  · exact .ok rfl

/-- Closing groups: by induction on the groups around. -/
theorem leave_rename (inner : Frame) (spellings : Spellings) (outer : List Frame) :
    AlikeBut f (leave inner spellings outer) (leave inner (spellings.rename f) outer) := by
  induction outer generalizing inner spellings with
  | nil => exact .error (.refl _)
  | cons frame outer ih =>
    have hclose : (spellings.rename f).mapValues (·.closeLevel (outer.length + 2))
        = Spellings.rename f (spellings.mapValues (·.closeLevel (outer.length + 2))) :=
      OrderedTable.mapValues_mapKeys _ _ _
    unfold leave
    simp only [hclose]
    split
    · exact ih _ _
    · exact .ok rfl

theorem finish_rename (inner : Frame) (spellings : Spellings) (outer : List Frame) :
    finish inner (spellings.rename f) outer
      = ((finish inner spellings outer).1, (finish inner spellings outer).2.rename f) := by
  induction outer generalizing inner spellings with
  | nil =>
    rw [finish, finish, Spellings.rename, OrderedTable.mapValues_mapKeys]
    rfl
  | cons frame outer ih =>
    rw [finish, finish, Spellings.rename, OrderedTable.mapValues_mapKeys]
    exact ih _ _

/-- Reading a token. -/
theorem step_rename (hf : f.Injective) (room : Option Nat) (token : Token) (reading : Reading) :
    AlikeBut f (reading.step room token) ((reading.rename f).step room (token.rename f)) := by
  obtain ⟨kind, name⟩ := token
  cases kind with
  | opening => exact enter_rename room false reading
  | closing => exact leave_rename _ _ _
  | func =>
    have hinner : (reading.rename f).inner = reading.inner := rfl
    simp only [step, Token.rename, hinner]
    split
    · exact bind_rename hf name reading
    · refine (enter_rename room true reading).bind ?_
      rintro entered _ rfl
      exact bind_rename hf name entered
  | var => exact use_rename hf name reading
  | stray label => exact .error (.refl _)

end Reading

/-! ### The name table -/

/-- The counters are those of the spellings. -/
theorem copies_nameTable {spellings : Spellings} {names : NameTable}
    (h : nameTable spellings = .ok names) :
    names.copies = spellings.entries.map (·.2.nextCopy) := by
  have hsize := size_nameTable h
  rw [OrderedTable.keys, List.length_map] at hsize
  obtain ⟨texts, htexts, rfl⟩ := nameTable_eq_ok h
  refine List.ext_getElem ?_ fun place _ _ => ?_
  · rw [NameTable.copies, List.length_map, List.length_map]
    exact hsize
  · simp only [namesOf, NameTable.copies, List.getElem_map, List.getElem_zipWith]

end Binding

namespace Expression

open Binding Qualifier

/-- The trees and the counters are the same, and the names are shown alike. -/
structure Same (expression expression' : Expression) : Prop where
  root : expression.root = expression'.root
  copies : expression.names.copies = expression'.names.copies
  shown : expression.names.ShownAlike expression'.names

/-- What is built from a stream with other names is the same, if they differ from the names there in
    nothing but their qualifiers. -/
theorem ofTokensWithin_rename {f : String → String} (hf : f.Injective)
    (hshort : ∀ spelling, short (f spelling) = short spelling) (room : Option Nat)
    {tokens : List Token} (hnamed : ∀ token ∈ tokens, token.Named Proper) :
    Outcome.Alike Stop.SameClass Same (ofTokensWithin room tokens)
      (ofTokensWithin room (tokens.map (Token.rename f))) := by
  have hrun : Reading.AlikeBut f (tokens.foldlM (Reading.step room) {})
      ((tokens.map (Token.rename f)).foldlM (Reading.step room) {}) := by
    rw [List.foldlM_map]
    refine Outcome.Alike.foldlM (fun token _ reading reading' h => ?_) rfl
    rw [h]
    exact Reading.step_rename hf room token reading
  have hmet := @named_of_mem_meetAll _ _ hnamed [] (List.forall_mem_nil _)
  unfold ofTokensWithin
  rw [List.isEmpty_map]
  split
  · exact .error (.refl _)
  · refine hrun.and_eq_ok.bind ?_
    rintro reading _ ⟨rfl, hreading⟩
    obtain ⟨hsound, hkeys, _⟩ := Reading.foldlM_spec
      (sound_start (meetAll [] tokens)) (List.prefix_refl _) hreading
    have hkeys := (Reading.finish_spec hsound).2.1.trans hkeys
    have hclosed := Reading.closed_finish hsound
    have hfinish := @Reading.finish_rename f reading.inner reading.spellings reading.outer
    simp only [Reading.rename, hfinish]
    generalize Reading.finish reading.inner reading.spellings reading.outer = finished
      at hkeys hclosed ⊢
    obtain ⟨root, spellings⟩ := finished
    -- No name is missing, so that both name tables can be made.
    have hnone : none ∉ spellings.keys := by
      rw [hkeys]
      intro hmem
      obtain ⟨_, heq, _⟩ := hmet _ hmem
      cases heq
    obtain ⟨names, htable⟩ := exists_nameTable hclosed hnone
    obtain ⟨names', htable'⟩ := exists_nameTable (hclosed.rename hf)
      (mt Spellings.none_mem_keys_rename.mp hnone)
    dsimp only
    rw [htable, htable']
    refine .ok ⟨rfl, ?_, ?_⟩
    · rw [copies_nameTable htable, copies_nameTable htable', Spellings.rename,
        OrderedTable.mapKeys, List.map_map]
      rfl
    · refine shownAlike_of_nameTable htable htable' ?_ hf hshort (Spellings.keys_rename f spellings)
        fun spelling hmem => ?_
      · rw [hkeys]
        exact nodup_meetAll List.nodup_nil tokens
      · exact strip?_short_of_mem_meetAll hnamed (hkeys ▸ hmem)

namespace Same

variable {expression expression' : Expression}

theorem wellFormed (h : expression.Same expression') (hwellFormed : expression.WellFormed) :
    expression'.WellFormed :=
  ⟨h.root ▸ hwellFormed.wellScoped, h.shown.size_eq ▸ h.root ▸ hwellFormed.namesWithin⟩

/-- Expressions that are the same are printed alike. -/
theorem render_eq (h : expression.Same expression') (hwellFormed : expression.WellFormed) :
    expression.render = expression'.render :=
  Expression.render_eq h.shown h.root hwellFormed

/-- Expressions that are the same reduce to such expressions. -/
theorem reduce (h : expression.Same expression') (hwellFormed : expression.WellFormed)
    (limits : Limits) :
    Outcome.Alike Eq Same (expression.reduce limits) (expression'.reduce limits) := by
  have halike := reduce_alike h.root h.copies limits
  cases hreduce : expression.reduce limits with
  | error stop =>
    rw [hreduce] at halike
    obtain ⟨stop', hreduce', heq⟩ := halike.exists_error
    rw [hreduce']
    exact .error heq
  | ok reduced =>
    rw [hreduce] at halike
    obtain ⟨reduced', hreduce', hroot, hcopies⟩ := halike.exists_ok
    rw [hreduce']
    exact .ok ⟨hroot, hcopies, h.shown.congr (hwellFormed.sameNames hreduce)
      ((h.wellFormed hwellFormed).sameNames hreduce')⟩

end Same

end Expression

end LambdaCalc
