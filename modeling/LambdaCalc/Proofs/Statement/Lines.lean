import LambdaCalc.Proofs.Statement.Spacing

set_option autoImplicit false

/-! # Lines as they come

Statements are cut out of lines one line after the other: a line goes on with what has been begun,
and either completes a statement or not (`Statement.advance`). What is begun while lines are typed
follows what is begun while a file is read (`Statement.Follows`), so that the same line completes
the same statement on both sides, up to its blanks (`Statement.Follows.advance`). -/

namespace LambdaCalc.Statement

open Text (Respaced isBlank trimList)

/-! ## One line -/

/-- A line behind what has been begun, without its comment and the blanks at its ends. -/
def joined (begun line : String) : String :=
  String.ofList (prepared (begun.toList ++ ' ' :: line.toList))

theorem prepare_join (begun line : String) :
    prepare s!"{begun} {line}" = (joined begun line, isOpen (joined begun line)) := by
  have htext : (s!"{begun} {line}").toList = begun.toList ++ ' ' :: line.toList := by
    simp [toString]
  rw [prepare_eq, htext]
  rfl

/-- What is begun after a line, and the statement that it completes. -/
def advance (begun line : String) : String × Option String :=
  let text := joined begun line
  if isOpen text then (text, none)
  else if text.isEmpty then ("", none)
  else ("", some text)

/-- What is still begun after some lines. -/
def begunAfter (begun : String) (lines : List String) : String :=
  lines.foldl (fun begun line => (advance begun line).1) begun

theorem begunAfter_cons (begun line : String) (lines : List String) :
    begunAfter begun (line :: lines) = begunAfter (advance begun line).1 lines :=
  List.foldl_cons

theorem ofLinesFrom_cons (line : Nat) (begun text : String) (texts : List String) :
    ofLinesFrom line begun (text :: texts)
      = ((advance begun text).2.map fun text => { text, line : Statement }).toList
        ++ ofLinesFrom (line + 1) (advance begun text).1 texts := by
  rw [ofLinesFrom, prepare_join, advance]
  simp only
  split_ifs <;> rfl

/-- A line that opens more parentheses than it closes is not empty. -/
theorem ne_empty_of_isOpen {line : String} (h : isOpen line = true) : line ≠ "" := by
  rintro rfl
  cases h

theorem ne_empty_of_advance {begun line text : String} (h : (advance begun line).2 = some text) :
    text ≠ "" := by
  unfold advance at h
  simp only at h
  split_ifs at h with _ hempty
  obtain rfl := Option.some.inj h
  intro hnil
  rw [hnil] at hempty
  exact hempty rfl

/-- Nothing is begun behind a line that completes a statement. -/
theorem begun_of_advance {begun line text : String} (h : (advance begun line).2 = some text) :
    (advance begun line).1 = "" := by
  unfold advance at h ⊢
  simp only at h ⊢
  split_ifs at h ⊢
  rfl

/-! ## All lines -/

/-- Every statement has a text. -/
theorem text_ne_empty_of_mem {lines : List String} {line : Nat} {begun : String}
    {statement : Statement} (h : statement ∈ ofLinesFrom line begun lines) :
    statement.text ≠ "" := by
  induction lines generalizing line begun with
  | nil =>
    rw [ofLinesFrom] at h
    split_ifs at h with hempty
    · cases h
    · obtain rfl := List.mem_singleton.mp h
      rintro rfl
      exact hempty rfl
  | cons text texts ih =>
    rw [ofLinesFrom_cons, List.mem_append, Option.mem_toList] at h
    rcases h with h | h
    · obtain ⟨text', htext, rfl⟩ := Option.map_eq_some_iff.mp h
      exact ne_empty_of_advance htext
    · exact ih h

/-- Statements have line numbers that go up, from the line on that is begun with if nothing is begun
    there, and from the one in front of it otherwise. -/
theorem pairwise_line_lt {lines : List String} {line : Nat} {begun : String} :
    (∀ statement ∈ ofLinesFrom line begun lines,
      line ≤ statement.line + 1 ∧ (begun = "" → line ≤ statement.line))
    ∧ (ofLinesFrom line begun lines).Pairwise fun first second => first.line < second.line := by
  induction lines generalizing line begun with
  | nil =>
    rw [ofLinesFrom]
    split_ifs with hempty
    · exact ⟨List.forall_mem_nil _, .nil⟩
    · refine ⟨List.forall_mem_singleton.mpr ⟨Nat.le_add_of_sub_le (Nat.le_refl _), ?_⟩,
        List.pairwise_singleton _ _⟩
      rintro rfl
      exact absurd rfl hempty
  | cons text texts ih =>
    obtain ⟨hle, hlt⟩ := @ih (line + 1) (advance begun text).1
    have hothers : ∀ statement ∈ ofLinesFrom (line + 1) (advance begun text).1 texts,
        line ≤ statement.line + 1 ∧ (begun = "" → line ≤ statement.line) := by
      intro statement hmem
      have hline := Nat.le_of_succ_le_succ (hle statement hmem).1
      exact ⟨Nat.le_succ_of_le hline, fun _ => hline⟩
    rw [ofLinesFrom_cons]
    cases hadvance : (advance begun text).2 with
    | none => exact ⟨hothers, hlt⟩
    | some text' =>
      exact ⟨List.forall_mem_cons.mpr ⟨⟨Nat.le_succ line, fun _ => Nat.le_refl line⟩, hothers⟩,
        List.pairwise_cons.mpr
          ⟨fun statement hmem => (hle statement hmem).2 (begun_of_advance hadvance), hlt⟩⟩

theorem pairwise_ofLines (lines : List String) :
    (ofLines lines).Pairwise fun first second => first.line < second.line :=
  pairwise_line_lt.2

/-! ## Typed lines -/

/-- What is held back while lines are typed follows what is begun while a file is read. -/
inductive Follows : String → String → Prop where
  | nothing : Follows "" ""
  | begun {text text' : String} (hspaced : Respaced text.toList text'.toList)
      (hopen : isOpen text = true) (hprepared : prepared text.toList = text.toList) :
      Follows text text'

namespace Follows

variable {begun held : String}

theorem respaced (h : Follows begun held) : Respaced begun.toList held.toList := by
  cases h with
  | nothing => exact .nil
  | begun hspaced => exact hspaced

theorem prepared_eq (h : Follows begun held) : prepared begun.toList = begun.toList := by
  cases h with
  | nothing => rfl
  | begun _ _ hprepared => exact hprepared

/-- A blank line completes nothing, and what is begun stays begun. -/
theorem advance_blank (h : Follows begun held) {line : String} (hline : trimList line.toList = []) :
    Statement.advance begun line = (begun, none) := by
  have hjoined : joined begun line = begun := by
    rw [joined, prepared_join_blank h.prepared_eq hline, String.ofList_toList]
  unfold Statement.advance
  simp only [hjoined]
  cases h with
  | nothing => rfl
  | begun _ hopen => exact if_pos hopen

/-- A line completes the same statement on both sides, but for its blanks, or none on either, and
    what is begun then is still followed. -/
theorem advance (h : Follows begun held) (line : String) :
    Follows (Statement.advance begun line).1
        (Statement.advance held (Text.trim line)).1
      ∧ Option.Rel (fun text text' => Respaced text.toList text'.toList)
          (Statement.advance begun line).2
          (Statement.advance held (Text.trim line)).2 := by
  have hspaced : Respaced (joined begun line).toList
      (joined held (Text.trim line)).toList := by
    simp only [joined, String.toList_ofList, Text.toList_trim]
    exact respaced_join h.respaced line.toList
  have hprepared : prepared (joined begun line).toList = (joined begun line).toList := by
    simp only [joined, String.toList_ofList, prepared_prepared]
  have hopen : isOpen (joined begun line) = isOpen (joined held (Text.trim line)) := by
    have hopen := isOpen_of_respaced hspaced
    rwa [String.ofList_toList, String.ofList_toList] at hopen
  have hempty : (joined begun line).isEmpty
      = (joined held (Text.trim line)).isEmpty := by
    rw [Bool.eq_iff_iff, String.isEmpty_iff, String.isEmpty_iff, ← String.toList_eq_nil_iff,
      ← String.toList_eq_nil_iff]
    exact hspaced.eq_nil_iff
  unfold Statement.advance
  simp only [← hopen, ← hempty]
  split_ifs with hisOpen hisEmpty
  · exact ⟨.begun hspaced hisOpen hprepared, .none⟩
  · exact ⟨.nothing, .none⟩
  · exact ⟨.nothing, .some hspaced⟩

end Follows

end LambdaCalc.Statement
