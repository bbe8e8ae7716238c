import LambdaCalc.Keyword.Table
import LambdaCalc.Proofs.Expression.Unqualify
import LambdaCalc.Text.Lines

set_option autoImplicit false

/-! # Qualified words

A word that can be a name has no qualifier, and one that is qualified by a keyword is shown as
itself (`Qualifier.short_qualify`). Different words stay different when they are qualified. -/

namespace LambdaCalc

namespace Word

/-- A word that can be a keyword. -/
def IsKeyword (word : String) : Prop := (isOperator word || isName word) = true

theorem isWordChar_of_isName {word : String} (h : isName word = true) :
    word.toList ≠ [] ∧ ∀ c ∈ word.toList, isWordChar c = true := by
  unfold isName at h
  split at h
  · next c cs hword =>
    obtain ⟨halpha, hall⟩ := Bool.and_eq_true_iff.mp h
    rw [hword]
    refine ⟨List.cons_ne_nil _ _, List.forall_mem_cons.mpr ⟨?_, List.all_eq_true.mp hall⟩⟩
    rw [isWordChar, Char.isAlphanum, halpha, Bool.true_or, Bool.true_or]
  · cases h

/-- A character of a word is neither the mark of a qualifier nor blank. -/
theorem plain_of_isWordChar {c : Char} (h : isWordChar c = true) :
    c ≠ '$' ∧ Text.isBlank c = false := by
  constructor
  · rintro rfl
    cases h
  · simp only [isWordChar, Char.isAlphanum, Char.isAlpha, Char.isUpper, Char.isLower, Char.isDigit,
      Bool.or_eq_true, Bool.and_eq_true, decide_eq_true_eq, beq_iff_eq, ge_iff_le,
      UInt32.le_iff_toNat_le] at h
    -- All of them are between the first digit and the last letter; blanks are below and above.
    have hrange : 48 ≤ c.toNat ∧ c.toNat ≤ 122 := by
      rcases h with ((h | h) | h) | rfl
      · exact ⟨Nat.le_trans (by decide) h.1, Nat.le_trans h.2 (by decide)⟩
      · exact ⟨Nat.le_trans (by decide) h.1, Nat.le_trans h.2 (by decide)⟩
      · exact ⟨Nat.le_trans (by decide) h.1, Nat.le_trans h.2 (by decide)⟩
      · decide
    simp only [Text.isBlank, Bool.or_eq_false_iff, Bool.and_eq_false_iff, decide_eq_false_iff_not,
      beq_eq_false_iff_ne]
    omega

theorem plain_of_isOperatorChar {c : Char} (h : isOperatorChar c = true) :
    c ≠ '$' ∧ Text.isBlank c = false := by
  have hall : "+-*/%^&|!?<>=".toList.all (fun c => c != '$' && !Text.isBlank c) = true := by decide
  simpa using List.all_eq_true.mp hall c (List.contains_iff_mem.mp h)

theorem IsKeyword.plain {word : String} (h : IsKeyword word) :
    word.toList ≠ [] ∧ ∀ c ∈ word.toList, c ≠ '$' ∧ Text.isBlank c = false := by
  rcases Bool.or_eq_true_iff.mp h with hoperator | hname
  · obtain ⟨hne, hall⟩ := Bool.and_eq_true_iff.mp hoperator
    refine ⟨?_, fun c hc => plain_of_isOperatorChar (List.all_eq_true.mp hall c hc)⟩
    intro hnil
    rw [String.toList_eq_nil_iff.mp hnil] at hne
    cases hne
  · obtain ⟨hne, hall⟩ := isWordChar_of_isName hname
    exact ⟨hne, fun c hc => plain_of_isWordChar (hall c hc)⟩

theorem IsKeyword.oneLine {word : String} (h : IsKeyword word) : Text.OneLine word := by
  intro hmem
  have hblank := (h.plain.2 _ hmem).2
  cases hblank

theorem isKeyword_of_isName {word : String} (h : isName word = true) : IsKeyword word := by
  rw [IsKeyword, h, Bool.or_true]

end Word

namespace Qualifier

theorem toList_qualify_some (keyword word : String) :
    (qualify (some keyword) word).toList = '$' :: keyword.toList ++ '$' :: word.toList := by
  have hself (text : String) : toString text = text := rfl
  simp only [qualify, String.toList_append, hself]
  simp

/-- Qualifying keeps words apart. -/
theorem qualify_injective (keyword : Option String) : Function.Injective (qualify keyword) := by
  intro first second h
  cases keyword with
  | none => exact h
  | some keyword =>
    have hlist := congrArg String.toList h
    rw [toList_qualify_some, toList_qualify_some] at hlist
    exact String.toList_inj.mp (List.cons.inj (List.append_cancel_left hlist)).2

theorem strip?_of_isName {word : String} (h : Word.isName word = true) : strip? word = none := by
  obtain ⟨hne, hall⟩ := Word.isWordChar_of_isName h
  unfold strip? stripList
  split
  · next mark first cs hword =>
    have hmark := (Word.plain_of_isWordChar (hall mark (by rw [hword]; exact List.mem_cons_self))).1
    rw [if_neg (by simp [hmark])]
    rfl
  · rfl

theorem strip?_qualify {keyword : String} (h : Word.IsKeyword keyword) (word : String) :
    strip? (qualify (some keyword) word) = some word := by
  obtain ⟨hne, hall⟩ := h.plain
  rw [strip?, toList_qualify_some, stripList_qualified word.toList hne
    (fun hmem => (hall _ hmem).1 rfl) (fun c hc => (hall c hc).2)]
  exact congrArg some (String.ofList_toList)

/-- A qualified name is shown as the name. -/
theorem short_qualify {keyword : Option String} (h : ∀ name ∈ keyword, Word.IsKeyword name)
    {word : String} (hword : Word.isName word = true) : short (qualify keyword word) = word := by
  cases keyword with
  | none => exact short_of_none (strip?_of_isName hword)
  | some keyword => exact short_of_some (strip?_qualify (h keyword rfl) word)

theorem oneLine_qualify {keyword : Option String} (h : ∀ name ∈ keyword, Word.IsKeyword name)
    {word : String} (hword : Text.OneLine word) : Text.OneLine (qualify keyword word) := by
  cases keyword with
  | none => exact hword
  | some keyword =>
    rw [Text.OneLine, toList_qualify_some]
    have hkeyword := (h keyword rfl).oneLine
    unfold Text.OneLine at hword hkeyword
    simp [hword, hkeyword]

end Qualifier

end LambdaCalc
