import LambdaCalc.Proofs.Node.Matching

set_option autoImplicit false

/-! # What counting copies depends on

The copy ids that a name table hands out depend on its counters, but not on the spellings and the
aliases. So expressions with the same tree and the same counters stay such expressions when they are
reduced (`Expression.reduce_alike`).

And whether a copy id is handed out at all depends on nothing but how many names there are. So
expressions with matching trees and names stay such expressions, whatever their copy ids and
counters are (`Expression.reduce_matches`). -/

namespace LambdaCalc

namespace NameTable

theorem freshCopy_eq (table : NameTable) (id : Nat) :
    table.freshCopy id = match table.copies[id]? with
      | some copy => .ok (copy, table.bump id)
      | none => .error (.mishap .missingEntry) := by
  rw [freshCopy, copies, List.getElem?_map]
  cases table.entries[id]? <;> rfl

theorem freshCopy_eq_error {table : NameTable} {id : Nat} (h : ¬id < table.size) :
    table.freshCopy id = .error (.mishap .missingEntry) := by
  have hnone : table.entries[id]? = none := List.getElem?_eq_none (Nat.le_of_not_lt h)
  rw [freshCopy, hnone]

end NameTable

/-- Tables with the same counters hand out the same copy ids. -/
theorem copiesAlike_eq :
    CopiesAlike Eq fun table table' : NameTable => table.copies = table'.copies := by
  rintro param _ rfl table table' h
  show Outcome.Alike Eq _ (table.freshCopy param.name) (table'.freshCopy param.name)
  rw [table.freshCopy_eq, table'.freshCopy_eq, ← h]
  cases table.copies[param.name]? with
  | none => exact .error rfl
  | some copy =>
    refine .ok ⟨rfl, ?_⟩
    show (table.bump param.name).copies = (table'.bump param.name).copies
    rw [NameTable.copies_bump, NameTable.copies_bump, h]

/-- Tables with given names hand out copy ids for names that are both in them. -/
theorem copiesAlike_names {N : Nat → Nat → Prop} {names names' : NameTable}
    (hN : ∀ id id', N id id' → (id < names.size ↔ id' < names'.size)) :
    CopiesAlike (Param.Named N)
      fun table table' => table.SameNames names ∧ table'.SameNames names' := by
  rintro param param' hname table table' ⟨hsame, hsame'⟩
  show Outcome.Alike Eq _ (table.freshCopy param.name) (table'.freshCopy param'.name)
  have hsize := hN _ _ hname
  rw [← hsame.size_eq, ← hsame'.size_eq] at hsize
  by_cases hlt : param.name < table.size
  · obtain ⟨copy, hcopy⟩ := NameTable.freshCopy_eq_ok hlt
    obtain ⟨copy', hcopy'⟩ := NameTable.freshCopy_eq_ok (hsize.mp hlt)
    have hbump := (NameTable.sameNames_of_freshCopy hcopy).trans hsame
    have hbump' := (NameTable.sameNames_of_freshCopy hcopy').trans hsame'
    rw [hcopy, hcopy']
    exact .ok ⟨hname, hbump, hbump'⟩
  · rw [NameTable.freshCopy_eq_error hlt, NameTable.freshCopy_eq_error (mt hsize.mpr hlt)]
    exact .error rfl

namespace Expression

variable {expression expression' : Expression}

/-- Expressions with the same tree and the same counters are reduced alike, within any limits. -/
theorem reduce_alike (hroot : expression.root = expression'.root)
    (hcopies : expression.names.copies = expression'.names.copies) (limits : Limits) :
    Outcome.Alike Eq (fun reduced reduced' => reduced.root = reduced'.root
        ∧ reduced.names.copies = reduced'.names.copies)
      (expression.reduce limits) (expression'.reduce limits) :=
  (reduce_parallel copiesAlike_eq (Node.matches_eq_iff.mpr hroot) hcopies limits).mono
    (fun _ _ => id) fun _ _ h => ⟨Node.matches_eq_iff.mp h.1, h.2⟩

/-- Expressions with matching trees, in which the names that are related are both in their tables or
    both not, are reduced alike, within any limits; only the counters of the tables change. -/
theorem reduce_matches {N : Nat → Nat → Prop}
    (hN : ∀ id id', N id id' → (id < expression.names.size ↔ id' < expression'.names.size))
    (hroot : expression.root.Matches N (Param.Named N) expression'.root) (limits : Limits) :
    Outcome.Alike Eq (fun reduced reduced' =>
        reduced.root.Matches N (Param.Named N) reduced'.root
          ∧ reduced.names.SameNames expression.names
          ∧ reduced'.names.SameNames expression'.names)
      (expression.reduce limits) (expression'.reduce limits) :=
  reduce_parallel (copiesAlike_names hN) hroot ⟨.refl _, .refl _⟩ limits

end Expression

end LambdaCalc
