import LambdaCalc.Proofs.Keyword.Qualified
import LambdaCalc.Proofs.Layout.Phrase

set_option autoImplicit false

/-! # The lexemes of a layout

The text of a readable layout, in which all names can name variables and no abstraction is empty, is
split into the lexemes that it was put together from (`Layout.Readable.ofText_text`): a name ends
where a blank, a dot or a parenthesis follows. -/

namespace LambdaCalc

/-! ## Splitting what comes first -/

namespace Lexeme

/-- A name that comes before these characters ends there. -/
def Ends (rest : List Char) : Prop := ∀ c ∈ rest.head?, Word.isWordChar c = false

theorem ends_cons {c : Char} (h : Word.isWordChar c = false) (rest : List Char) :
    Ends (c :: rest) := by
  rintro _ ⟨⟩
  exact h

theorem splitOnto_blank (rest : List Char) : splitOnto [] (' ' :: rest) = splitOnto [] rest := by
  rw [splitOnto, if_pos (by decide)]

theorem splitOnto_cons {c : Char} (h : Text.isAsciiBlank c = false) (rest : List Char) :
    splitOnto [] (c :: rest)
      = ofChars c (rest.takeWhile (continues c))
        :: splitOnto [] (rest.dropWhile (continues c)) := by
  rw [splitOnto, h, if_neg Bool.false_ne_true, splitOnto_eq_append]
  rfl

/-- A character that nothing continues is a lexeme of its own. -/
theorem splitOnto_single {c : Char} (hblank : Text.isAsciiBlank c = false)
    (h : ∀ d, continues c d = false) (rest : List Char) :
    splitOnto [] (c :: rest) = ofChars c [] :: splitOnto [] rest := by
  rw [splitOnto_cons hblank]
  cases rest with
  | nil => rfl
  | cons d rest => rw [List.takeWhile_cons, List.dropWhile_cons, h, if_neg Bool.false_ne_true,
      if_neg Bool.false_ne_true]

theorem continues_of_isAlpha {c : Char} (h : c.isAlpha = true) : continues c = Word.isWordChar := by
  have hdigit : c.isDigit = false := by
    simp only [Char.isAlpha, Char.isUpper, Char.isLower, Char.isDigit, ge_iff_le, Bool.or_eq_true,
      decide_eq_true_eq, Bool.and_eq_true, Bool.and_eq_false_iff, decide_eq_false_iff_not,
      UInt32.le_iff_toNat_le] at h ⊢
    simp at h ⊢
    omega
  have hoperator : Word.isOperatorChar c = false := by
    have hall : "+-*/%^&|!?<>=".toList.all (fun c => !c.isAlpha) = true := by decide
    rw [Bool.eq_false_iff]
    intro hmem
    have hnot := List.all_eq_true.mp hall c (List.contains_iff_mem.mp hmem)
    rw [h] at hnot
    cases hnot
  funext d
  unfold continues
  split
  · cases h
  · cases h
  · cases h
  · cases h
  · cases h
  · rw [hdigit, if_neg Bool.false_ne_true, hoperator, if_neg Bool.false_ne_true]

/-- A name is split off as a whole. -/
theorem splitOnto_name {name : String} (h : Word.isName name = true) {rest : List Char}
    (hrest : Ends rest) :
    splitOnto [] (name.toList ++ rest) = .word name :: splitOnto [] rest := by
  unfold Word.isName at h
  split at h
  · next c cs hname =>
    obtain ⟨halpha, hall⟩ := Bool.and_eq_true_iff.mp h
    have hword : Word.isWordChar c = true := by
      rw [Word.isWordChar, Char.isAlphanum, halpha, Bool.true_or, Bool.true_or]
    have hblank : Text.isAsciiBlank c = false := by
      rw [Bool.eq_false_iff]
      intro hblank
      have := (Word.plain_of_isWordChar hword).2
      rw [Text.isBlank_of_isAsciiBlank hblank] at this
      cases this
    have htake : (cs ++ rest).takeWhile Word.isWordChar = cs := by
      rw [List.takeWhile_append_of_pos (List.all_eq_true.mp hall)]
      cases rest with
      | nil => exact List.append_nil cs
      | cons d rest =>
        rw [List.takeWhile_cons, hrest d rfl, if_neg Bool.false_ne_true, List.append_nil]
    have hdrop : (cs ++ rest).dropWhile Word.isWordChar = rest := by
      rw [List.dropWhile_append_of_pos (List.all_eq_true.mp hall)]
      cases rest with
      | nil => rfl
      | cons d rest => rw [List.dropWhile_cons, hrest d rfl, if_neg Bool.false_ne_true]
    have hofChars : ofChars c cs = .word name := by
      rw [← String.ofList_toList (s := name), hname]
      unfold ofChars
      split
      · cases halpha
      · cases halpha
      · cases halpha
      · cases halpha
      · cases halpha
      · rfl
    rw [hname, List.cons_append, splitOnto_cons hblank, continues_of_isAlpha halpha, htake, hdrop,
      hofChars]
  · cases h

/-! ## Splitting a text that has been put together -/

/-- Characters that are split into these lexemes, whatever follows that no name goes on with. -/
def Splits (cs : List Char) (lexemes : List Lexeme) : Prop :=
  ∀ rest, Ends rest → splitOnto [] (cs ++ rest) = lexemes ++ splitOnto [] rest

/-- Characters in parentheses, or as they are. -/
def encloseChars (parentheses : Bool) (cs : List Char) : List Char :=
  if parentheses then '(' :: cs ++ [')'] else cs

/-- Lexemes in parentheses, or as they are. -/
def enclose (parentheses : Bool) (lexemes : List Lexeme) : List Lexeme :=
  if parentheses then .opening :: lexemes ++ [.closing] else lexemes

theorem Splits.enclose {cs : List Char} {lexemes : List Lexeme} (h : Splits cs lexemes)
    (parentheses : Bool) :
    Splits (encloseChars parentheses cs) (Lexeme.enclose parentheses lexemes) := by
  cases parentheses with
  | false => exact h
  | true =>
    intro rest _
    have hopening := splitOnto_single (c := '(') (by decide) (fun _ => rfl) (cs ++ ')' :: rest)
    have hclosing := splitOnto_single (c := ')') (by decide) (fun _ => rfl) rest
    have hinner := h (')' :: rest) (ends_cons (by decide) rest)
    have hchars : encloseChars true cs ++ rest = '(' :: (cs ++ ')' :: rest) := by
      simp [encloseChars]
    rw [hchars, hopening, hinner, hclosing, Lexeme.enclose, if_pos rfl, List.cons_append,
      List.cons_append, List.append_assoc]
    rfl

/-- The characters of the binders of an abstraction. -/
def binderChars (names : List String) : List Char :=
  names.flatMap fun name => 'λ' :: name.toList ++ ['.']

/-- The lexemes of the binders of an abstraction. -/
def ofBinders (names : List String) : List Lexeme :=
  names.flatMap fun name => [.lambda 'λ', .word name, .dot]

theorem Splits.binders {names : List String} (h : ∀ name ∈ names, Word.isName name = true)
    {cs : List Char} {lexemes : List Lexeme} (hbody : Splits cs lexemes) :
    Splits (binderChars names ++ cs) (ofBinders names ++ lexemes) := by
  induction names with
  | nil => exact hbody
  | cons name names ih =>
    obtain ⟨hname, hnames⟩ := List.forall_mem_cons.mp h
    intro rest hrest
    have hlambda := splitOnto_single (c := 'λ') (by decide) (fun _ => rfl)
      (name.toList ++ '.' :: (binderChars names ++ cs ++ rest))
    have hdot := splitOnto_single (c := '.') (by decide) (fun _ => rfl)
      (binderChars names ++ cs ++ rest)
    have hword := splitOnto_name hname
      (ends_cons (by decide : Word.isWordChar '.' = false) (binderChars names ++ cs ++ rest))
    have hchars : binderChars (name :: names) ++ cs ++ rest
        = 'λ' :: (name.toList ++ '.' :: (binderChars names ++ cs ++ rest)) := by
      simp [binderChars]
    rw [hchars, hlambda, hword, hdot, ih hnames rest hrest]
    rfl

end Lexeme

/-! ## Nothing to trim -/

namespace Text

/-- There are characters, and neither the first nor the last one is blank. -/
structure Tight (cs : List Char) : Prop where
  first : ∃ c ∈ cs.head?, isBlank c = false
  last : ∃ c ∈ cs.getLast?, isBlank c = false

theorem dropWhile_isBlank {cs : List Char} (h : ∃ c ∈ cs.head?, isBlank c = false) :
    cs.dropWhile isBlank = cs := by
  obtain ⟨c, hc, hblank⟩ := h
  obtain ⟨cs, rfl⟩ := List.head?_eq_some_iff.mp hc
  rw [List.dropWhile_cons, hblank, if_neg Bool.false_ne_true]

theorem Tight.trimList_eq {cs : List Char} (h : Tight cs) : trimList cs = cs := by
  have hlast : ∃ c ∈ cs.reverse.head?, isBlank c = false := List.head?_reverse ▸ h.last
  rw [trimList, dropWhile_isBlank h.first, dropWhile_isBlank hlast, List.reverse_reverse]

theorem tight_of_forall {cs : List Char} (hne : cs ≠ []) (h : ∀ c ∈ cs, isBlank c = false) :
    Tight cs :=
  ⟨⟨_, List.head?_eq_some_head hne, h _ (List.head_mem hne)⟩,
    _, List.getLast?_eq_some_getLast hne, h _ (List.getLast_mem hne)⟩

theorem tight_singleton {c : Char} (h : isBlank c = false) : Tight [c] := ⟨⟨c, rfl, h⟩, c, rfl, h⟩

/-- Only what comes first and what comes last counts. -/
theorem Tight.append {first last : List Char} (hfirst : Tight first) (hlast : Tight last)
    (middle : List Char) : Tight (first ++ middle ++ last) := by
  obtain ⟨c, hc, hblank⟩ := hfirst.first
  obtain ⟨d, hd, hblank'⟩ := hlast.last
  refine ⟨⟨c, ?_, hblank⟩, d, ?_, hblank'⟩
  · rw [List.append_assoc, List.head?_append, Option.mem_def.mp hc]
    rfl
  · rw [List.getLast?_append, Option.mem_def.mp hd]
    rfl

end Text

theorem Word.tight_of_isName {name : String} (h : isName name = true) : Text.Tight name.toList := by
  obtain ⟨hne, hall⟩ := isWordChar_of_isName h
  exact Text.tight_of_forall hne fun c hc => (plain_of_isWordChar (hall c hc)).2

namespace Lexeme

theorem tight_encloseChars {cs : List Char} (h : Text.Tight cs) (parentheses : Bool) :
    Text.Tight (encloseChars parentheses cs) := by
  cases parentheses with
  | false => exact h
  | true =>
    exact (Text.tight_singleton (by decide : Text.isBlank '(' = false)).append
      (Text.tight_singleton (by decide : Text.isBlank ')' = false)) cs

theorem tight_binderChars {cs : List Char} (h : Text.Tight cs) (names : List String) :
    Text.Tight (binderChars names ++ cs) := by
  cases names with
  | nil => exact h
  | cons name names =>
    exact (Text.tight_singleton (by decide : Text.isBlank 'λ' = false)).append h
      (name.toList ++ ['.'] ++ binderChars names)

end Lexeme

/-! ## The lexemes of a layout -/

namespace Layout

mutual

/-- The lexemes of a layout. -/
def lexemes (nested : Bool) : Layout String → List Lexeme
  | .abs binders elements =>
      Lexeme.enclose nested (Lexeme.ofBinders binders ++
        Lexeme.enclose (parentheses binders elements) (lexemesList elements))
  | .bound _ _ name | .free name => [.word name]

/-- The lexemes of the elements of an abstraction. -/
def lexemesList : List (Layout String) → List Lexeme
  | [] => []
  | element :: elements => element.lexemes true ++ lexemesList elements

end

mutual

/-- Every name can name a variable, and no abstraction is empty. -/
def Readable : Layout String → Prop
  | .abs binders elements =>
      (∀ name ∈ binders, Word.isName name = true) ∧ elements ≠ [] ∧ ReadableList elements
  | .bound _ _ name | .free name => Word.isName name = true

/-- The elements of an abstraction are readable. -/
def ReadableList : List (Layout String) → Prop
  | [] => True
  | element :: elements => element.Readable ∧ ReadableList elements

end

theorem readableList_iff {elements : List (Layout String)} :
    ReadableList elements ↔ ∀ element ∈ elements, element.Readable := by
  induction elements with
  | nil => simp [ReadableList]
  | cons element elements ih => simp [ReadableList, ih]

theorem readable_abs {binders : List String} {elements : List (Layout String)} :
    (Layout.abs binders elements).Readable
      ↔ (∀ name ∈ binders, Word.isName name = true) ∧ elements ≠ []
        ∧ ∀ element ∈ elements, element.Readable := by
  rw [Readable, readableList_iff]

/-! ## The characters of its text -/

theorem toList_binders (names : List String) :
    (Printer.binders true names).toList = Lexeme.binderChars names := by
  induction names with
  | nil => rfl
  | cons name names ih =>
    have hname : s!"λ{name}.".toList = 'λ' :: name.toList ++ ['.'] := by
      have hself (text : String) : toString text = text := rfl
      simp [hself]
    cases names with
    | nil => rw [Printer.binders, if_pos rfl, hname, Lexeme.binderChars, List.flatMap_singleton]
    | cons second names =>
      rw [Printer.binders, String.toList_append, hname, ih]
      · rfl
      · exact List.cons_ne_nil _ _

theorem texts_ne_nil {elements : List (Layout String)} (h : elements ≠ []) :
    texts elements ≠ [] := by
  rw [texts_eq_map]
  exact mt List.map_eq_nil_iff.mp h

/-- The characters of an abstraction that is not empty. -/
theorem toList_text_abs (nested : Bool) (binders : List String) {elements : List (Layout String)}
    (h : elements ≠ []) :
    ((Layout.abs binders elements).text nested).toList
      = Lexeme.encloseChars nested (Lexeme.binderChars binders ++
          Lexeme.encloseChars (parentheses binders elements)
            (" ".intercalate (texts elements)).toList) := by
  have hself (text : String) : toString text = text := rfl
  have hparen (text : String) : s!"({text})".toList = '(' :: text.toList ++ [')'] := by
    simp [hself]
  have hlength : (texts elements).length = elements.length := by
    rw [texts_eq_map, List.length_map]
  have hbody : (!(texts elements).isEmpty) = true := by
    rw [Bool.not_eq_true', List.isEmpty_eq_false_iff]
    exact texts_ne_nil h
  rw [text, Printer.assemble, hbody, hlength]
  cases nested <;> by_cases hparentheses : parentheses binders elements = true <;>
    simp only [parentheses] at hparentheses ⊢ <;>
    simp [hparentheses, Lexeme.encloseChars, toList_binders, hparen, String.toList_append]

theorem toList_intercalate_cons (element : String) {elements : List String} (h : elements ≠ []) :
    (" ".intercalate (element :: elements)).toList
      = element.toList ++ ' ' :: (" ".intercalate elements).toList := by
  cases elements with
  | nil => exact absurd rfl h
  | cons second elements =>
    rw [String.intercalate_cons_cons, String.toList_append, String.toList_append,
      List.append_assoc]
    rfl

/-- The elements of an abstraction are split one after the other, at the blanks between them. -/
theorem splits_elements {elements : List (Layout String)} (hne : elements ≠ [])
    (h : ∀ element ∈ elements, Lexeme.Splits (element.text true).toList (element.lexemes true)) :
    Lexeme.Splits (" ".intercalate (texts elements)).toList (lexemesList elements) := by
  induction elements, hne using List.recNeNil with
  | singleton element =>
    rw [texts, texts, String.intercalate_singleton, lexemesList, lexemesList, List.append_nil]
    exact h element List.mem_cons_self
  | cons element elements hne ih =>
    obtain ⟨hfirst, hothers⟩ := List.forall_mem_cons.mp h
    intro rest hrest
    -- The blank behind an element ends its last name and is not a lexeme itself.
    rw [texts, toList_intercalate_cons _ (texts_ne_nil hne), List.append_assoc, List.cons_append,
      hfirst _ (Lexeme.ends_cons (by decide) _), lexemesList, List.append_assoc,
      Lexeme.splitOnto_blank, ih hothers rest hrest]

/-- A readable layout is split into its lexemes: by induction on the layout. -/
theorem Readable.splits {layout : Layout String} (h : layout.Readable) (nested : Bool) :
    Lexeme.Splits (layout.text nested).toList (layout.lexemes nested) := by
  induction layout generalizing nested with
  | abs binders elements ih =>
    obtain ⟨hnames, hne, helements⟩ := readable_abs.mp h
    have hsplits := splits_elements hne fun element hmem => ih element hmem (helements element hmem)
      true
    rw [toList_text_abs nested binders hne, lexemes]
    exact ((hsplits.enclose _).binders hnames).enclose nested
  | bound _ _ name | free name =>
    intro rest hrest
    exact Lexeme.splitOnto_name h hrest

theorem tight_elements {elements : List (Layout String)} (hne : elements ≠ [])
    (h : ∀ element ∈ elements, Text.Tight (element.text true).toList) :
    Text.Tight (" ".intercalate (texts elements)).toList := by
  induction elements, hne using List.recNeNil with
  | singleton element =>
    rw [texts, texts, String.intercalate_singleton]
    exact h element List.mem_cons_self
  | cons element elements hne ih =>
    obtain ⟨hfirst, hothers⟩ := List.forall_mem_cons.mp h
    rw [texts, toList_intercalate_cons _ (texts_ne_nil hne), ← List.singleton_append,
      ← List.append_assoc]
    exact hfirst.append (ih hothers) [' ']

/-- The text of a readable layout begins and ends with a name or a sign. -/
theorem Readable.tight {layout : Layout String} (h : layout.Readable) (nested : Bool) :
    Text.Tight (layout.text nested).toList := by
  induction layout generalizing nested with
  | abs binders elements ih =>
    obtain ⟨_, hne, helements⟩ := readable_abs.mp h
    have hbody := tight_elements hne fun element hmem => ih element hmem (helements element hmem)
      true
    rw [toList_text_abs nested binders hne]
    exact Lexeme.tight_encloseChars
      (Lexeme.tight_binderChars (Lexeme.tight_encloseChars hbody _) _) _
  | bound _ _ name | free name => exact Word.tight_of_isName h

/-- The lexemes of the text of a readable layout. -/
theorem Readable.ofText_text {layout : Layout String} (h : layout.Readable) (nested : Bool) :
    Lexeme.ofText (layout.text nested) = layout.lexemes nested := by
  have hsplits := h.splits nested [] nofun
  rw [List.append_nil, Lexeme.splitOnto] at hsplits
  rw [Lexeme.ofText, (h.tight nested).trimList_eq, hsplits]
  exact List.append_nil _

end Layout

end LambdaCalc
