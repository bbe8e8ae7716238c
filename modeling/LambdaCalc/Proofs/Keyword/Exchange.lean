import LambdaCalc.Proofs.Expression.Renaming
import LambdaCalc.Proofs.Keyword.Groups
import LambdaCalc.Proofs.Layout.Spelling

set_option autoImplicit false

/-! # Names that a keyword has to itself

Qualifying some plain names by a keyword, and taking the qualifier off those that have it already,
is a renaming that keeps different names different and changes nothing but qualifiers
(`Qualifier.exchange`). It leaves every other name as it is, and among them are all names that the
keywords of a table bring along, unless one of these is or was the keyword itself
(`KeywordTable.named_foreign_afterCalls`). -/

namespace LambdaCalc

namespace Qualifier

/-! ## Exchanging qualified and plain names -/

/-- Exchange the names of some kind for themselves qualified by a keyword. -/
def exchange (own : String → Bool) (keyword name : String) : String :=
  if own name then qualify (some keyword) name
  else if own (short name) && name == qualify (some keyword) (short name) then short name
  else name

theorem not_isName_qualify (keyword word : String) :
    Word.isName (qualify (some keyword) word) = false := by
  rw [Word.isName, toList_qualify_some]
  rfl

variable {own : String → Bool} {keyword : String}

theorem exchange_of_own {word : String} (h : own word = true) :
    exchange own keyword word = qualify (some keyword) word := if_pos h

theorem exchange_of_not_own {word : String} (h : own word = false)
    (hname : Word.isName word = true) : exchange own keyword word = word := by
  rw [exchange, short_of_none (strip?_of_isName hname), h, Bool.false_and,
    if_neg Bool.false_ne_true, if_neg Bool.false_ne_true]

section

variable (hkeyword : Word.IsKeyword keyword)
  (hown : ∀ word, own word = true → Word.isName word = true)

include hkeyword hown

theorem exchange_qualify {word : String} (h : own word = true) :
    exchange own keyword (qualify (some keyword) word) = word := by
  have hnot : ¬ own (qualify (some keyword) word) = true := by
    intro hqualified
    have hname := hown _ hqualified
    rw [not_isName_qualify] at hname
    cases hname
  have hshort : short (qualify (some keyword) word) = word :=
    short_of_some (strip?_qualify hkeyword word)
  rw [exchange, if_neg hnot, hshort, if_pos (by simp [h])]

/-- Exchanged twice, a name is the same as before. -/
theorem exchange_involutive : Function.Involutive (exchange own keyword) := by
  intro name
  by_cases h : own name = true
  · rw [exchange_of_own h, exchange_qualify hkeyword hown h]
  · by_cases hqualified : (own (short name) && name == qualify (some keyword) (short name)) = true
    · obtain ⟨hshort, heq⟩ := Bool.and_eq_true_iff.mp hqualified
      have hexchange : exchange own keyword name = short name := by
        rw [exchange, if_neg h, if_pos hqualified]
      rw [hexchange, exchange_of_own hshort]
      exact (beq_iff_eq.mp heq).symm
    · have hexchange : exchange own keyword name = name := by
        rw [exchange, if_neg h, if_neg hqualified]
      rw [hexchange, hexchange]

/-- Nothing but the qualifier is exchanged. -/
theorem short_exchange (name : String) : short (exchange own keyword name) = short name := by
  have hplain {word : String} (h : own word = true) : short word = word :=
    short_of_none (strip?_of_isName (hown word h))
  unfold exchange
  split_ifs with h hqualified
  · rw [short_of_some (strip?_qualify hkeyword name), hplain h]
  · exact hplain (Bool.and_eq_true_iff.mp hqualified).1
  · rfl

end

/-! ## Foreign names -/

/-- A name that is neither plain nor qualified by the keyword. -/
structure Foreign (keyword name : String) : Prop where
  isName_eq_false : Word.isName name = false
  ne_qualify (word : String) : name ≠ qualify (some keyword) word

theorem exchange_of_foreign {name : String} (h : Foreign keyword name)
    (hown : ∀ word, own word = true → Word.isName word = true) :
    exchange own keyword name = name := by
  have hnot : ¬ own name = true := by
    intro hname
    have hfalse := hown name hname
    rw [h.isName_eq_false] at hfalse
    cases hfalse
  have hqualified : (name == qualify (some keyword) (short name)) = false :=
    beq_false_of_ne (h.ne_qualify _)
  rw [exchange, if_neg hnot, hqualified, Bool.and_false, if_neg Bool.false_ne_true]

/-- Qualifiers that are not the same make names that are not the same. -/
theorem foreign_qualify {keyword other : String} (hne : other ≠ keyword)
    (hkeyword : '$' ∉ keyword.toList) (hother : '$' ∉ other.toList) (word : String) :
    Foreign keyword (qualify (some other) word) := by
  refine ⟨not_isName_qualify other word, fun word' heq => hne ?_⟩
  have hlist := congrArg String.toList heq
  rw [toList_qualify_some, toList_qualify_some] at hlist
  have hlist : other.toList ++ '$' :: word.toList = keyword.toList ++ '$' :: word'.toList :=
    (List.cons.inj hlist).2
  exact String.toList_inj.mp (append_cons_inj hother hkeyword hlist).1

end Qualifier

theorem Word.IsKeyword.not_mem_mark {word : String} (h : IsKeyword word) : '$' ∉ word.toList :=
  fun hmem => (h.plain.2 _ hmem).1 rfl

open Qualifier

theorem Numeral.named_foreign {keyword : String} (h : Word.IsKeyword keyword) :
    Numeral.Named (Foreign keyword) := by
  have hne : "#" ≠ keyword := by
    rintro rfl
    cases h
  have hforeign := foreign_qualify hne h.not_mem_mark (by decide)
  exact ⟨hforeign "f", hforeign "x"⟩

namespace KeywordTable

variable {table table' : KeywordTable} {keyword : String}

/-- A table in which a keyword is defined has it as well as those that it had before. -/
theorem contains_of_define {name source : String} (h : table.define name source = .ok table')
    {word : String} :
    table'.contains word = true ↔ word = Text.trim name ∨ table.contains word = true := by
  obtain ⟨_, _, _, _, rfl⟩ := define_eq_ok h
  unfold KeywordTable.contains OrderedTable.contains
  rw [entered, OrderedTable.find?_put]
  split <;> simp [*]

/-- Defining another keyword brings foreign names along. -/
theorem named_foreign_of_define (hkeyword : Word.IsKeyword keyword)
    (htable : table.Named (Foreign keyword)) {name source : String}
    (h : table.define name source = .ok table') (hnot : table'.contains keyword = false) :
    table'.Named (Foreign keyword) := by
  have hne : Text.trim name ≠ keyword := by
    rintro rfl
    rw [(contains_of_define h).mpr (Or.inl rfl)] at hnot
    cases hnot
  refine htable.define (Numeral.named_foreign hkeyword) (fun word _ => ?_) h
  exact foreign_qualify hne hkeyword.not_mem_mark (define_eq_ok h).1.not_mem_mark word

theorem named_foreign_of_initial (hkeyword : Word.IsKeyword keyword) {withPrelude : Bool}
    (h : KeywordTable.initial withPrelude = .ok table) (hnot : table.contains keyword = false) :
    table.Named (Foreign keyword) := by
  cases withPrelude with
  | false =>
    obtain rfl := Except.ok.inj h
    exact nofun
  | true =>
    have hempty : KeywordTable.Named (Foreign keyword) {} := nofun
    -- Keywords are only added, so that this one has not been among them.
    refine defineAll_keeps (P := fun table => table.contains keyword = false →
      table.Named (Foreign keyword)) (fun htable hdefine hnot => ?_) (fun _ => hempty) h hnot
    have hbefore := mt (fun hmem => (contains_of_define hdefine).mpr (Or.inr hmem))
      (Bool.eq_false_iff.mp hnot)
    exact named_foreign_of_define hkeyword (htable (Bool.eq_false_iff.mpr hbefore)) hdefine hnot

/-- As long as a keyword has never been defined, all names that keywords bring along are foreign to
    it: by induction on the calls, from the last one back. -/
theorem named_foreign_afterCalls (hkeyword : Word.IsKeyword keyword) {withPrelude : Bool}
    {start : KeywordTable} (hstart : KeywordTable.initial withPrelude = .ok start)
    {calls : List Call}
    (hnever : ∀ earlier, earlier <+: calls → (start.afterCalls earlier).contains keyword = false) :
    (start.afterCalls calls).Named (Foreign keyword) := by
  induction calls using List.reverseRecOn with
  | nil => exact named_foreign_of_initial hkeyword hstart (hnever [] (List.prefix_refl _))
  | append_singleton calls call ih =>
    have htable := ih fun earlier hearlier =>
      hnever earlier (hearlier.trans (List.prefix_append calls [call]))
    have hnot := hnever _ (List.prefix_refl _)
    have hlast : start.afterCalls (calls ++ [call]) = (call.run (start.afterCalls calls)).2 := by
      rw [afterCalls, List.foldl_append]
      rfl
    rw [hlast] at hnot ⊢
    exact call.run_keeps (P := fun table => table.contains keyword = false →
        table.Named (Foreign keyword))
      (fun _ => htable) (named_foreign_of_define hkeyword htable)
      (fun name _ => htable.erase name) hnot

end KeywordTable

end LambdaCalc
