import LambdaCalc.Statement
import LambdaCalc.Proofs.Layout.Lexemes

set_option autoImplicit false

/-! # Spacing of statements

Lines that belong together are joined by a space. A line that is typed has been trimmed before,
while a line of a file keeps the blanks in front of it, so that the same statement may be spaced in
two ways (`Text.Respaced`). That makes no difference for parentheses, comments and the sign of a
definition, and preparing lines keeps it so (`Statement.respaced_prepared`). -/

namespace LambdaCalc

/-! ## Spacing -/

namespace Text

/-- The second text has a space where the first one has some blanks, and is like the first one
    otherwise. -/
inductive Respaced : List Char → List Char → Prop where
  | nil : Respaced [] []
  | char (c : Char) {cs cs' : List Char} : Respaced cs cs' → Respaced (c :: cs) (c :: cs')
  | gap {blanks cs cs' : List Char} (hne : blanks ≠ [])
      (hblanks : ∀ c ∈ blanks, isBlank c = true) :
      Respaced cs cs' → Respaced (blanks ++ cs) (' ' :: cs')

namespace Respaced

variable {cs cs' ds ds' : List Char}

theorem refl (cs : List Char) : Respaced cs cs := by
  induction cs with
  | nil => exact .nil
  | cons c cs ih => exact .char c ih

theorem append (h : Respaced cs cs') (hd : Respaced ds ds') :
    Respaced (cs ++ ds) (cs' ++ ds') := by
  induction h with
  | nil => exact hd
  | char c _ ih => exact .char c ih
  | gap hne hblanks _ ih =>
    rw [List.append_assoc]
    exact .gap hne hblanks ih

theorem blanks {blanks : List Char} (hne : blanks ≠ []) (h : ∀ c ∈ blanks, isBlank c = true) :
    Respaced blanks [' '] := by
  have hgap := Respaced.gap hne h .nil
  rwa [List.append_nil] at hgap

theorem reverse (h : Respaced cs cs') : Respaced cs.reverse cs'.reverse := by
  induction h with
  | nil => exact .nil
  | char c _ ih =>
    rw [List.reverse_cons, List.reverse_cons]
    exact ih.append (.refl [c])
  | gap hne hblanks _ ih =>
    rw [List.reverse_append, List.reverse_cons]
    refine ih.append (.blanks (mt List.reverse_eq_nil_iff.mp hne) fun c hc => ?_)
    exact hblanks c (List.mem_reverse.mp hc)

theorem eq_nil_iff (h : Respaced cs cs') : cs = [] ↔ cs' = [] := by
  cases h with
  | nil => exact Iff.rfl
  | char => exact iff_of_false (List.cons_ne_nil _ _) (List.cons_ne_nil _ _)
  | gap hne =>
    exact iff_of_false (fun hnil => hne (List.append_eq_nil_iff.mp hnil).1) (List.cons_ne_nil _ _)

/-- Where there are no blanks, there is nothing to be spaced. -/
theorem eq_of_forall (h : Respaced cs cs') (hcs : ∀ c ∈ cs, isBlank c = false) : cs = cs' := by
  induction h with
  | nil => rfl
  | char c _ ih => rw [ih fun d hd => hcs d (List.mem_cons_of_mem c hd)]
  | @gap blanks _ _ hne hblanks _ _ =>
    obtain ⟨c, hc⟩ := List.exists_mem_of_ne_nil blanks hne
    have hblank := hcs c (List.mem_append_left _ hc)
    rw [hblanks c hc] at hblank
    cases hblank

end Respaced

theorem dropWhile_isBlank_append {blanks : List Char} (h : ∀ c ∈ blanks, isBlank c = true)
    (cs : List Char) : (blanks ++ cs).dropWhile isBlank = cs.dropWhile isBlank :=
  List.dropWhile_append_of_pos h

namespace Respaced

variable {cs cs' : List Char}

theorem dropWhile_isBlank (h : Respaced cs cs') :
    Respaced (cs.dropWhile isBlank) (cs'.dropWhile isBlank) := by
  induction h with
  | nil => exact .nil
  | @char c cs cs' h ih =>
    rw [List.dropWhile_cons, List.dropWhile_cons]
    split
    · exact ih
    · exact .char c h
  | gap _ hblanks _ ih =>
    rw [dropWhile_isBlank_append hblanks, List.dropWhile_cons_of_pos (by decide)]
    exact ih

theorem trimList (h : Respaced cs cs') : Respaced (trimList cs) (Text.trimList cs') :=
  h.dropWhile_isBlank.reverse.dropWhile_isBlank.reverse

/-- A character that is not blank occurs as often. -/
theorem count_eq (h : Respaced cs cs') {c : Char} (hc : isBlank c = false) :
    cs.count c = cs'.count c := by
  induction h with
  | nil => rfl
  | char d _ ih => rw [List.count_cons, List.count_cons, ih]
  | @gap blanks _ _ _ hblanks _ ih =>
    have hnot : c ∉ blanks := by
      intro hmem
      rw [hblanks c hmem] at hc
      cases hc
    have hspace : ' ' ≠ c := by
      rintro rfl
      cases hc
    rw [List.count_append, List.count_eq_zero_of_not_mem hnot, Nat.zero_add,
      List.count_cons_of_ne hspace, ih]

/-- Either both texts begin with the same character, or both begin with a blank. -/
theorem cases_head (h : Respaced cs cs') :
    (cs = [] ∧ cs' = []) ∨ (∃ c ds ds', cs = c :: ds ∧ cs' = c :: ds' ∧ Respaced ds ds')
      ∨ (∃ c ∈ cs.head?, isBlank c = true) ∧ ∃ c ∈ cs'.head?, isBlank c = true := by
  cases h with
  | nil => exact Or.inl ⟨rfl, rfl⟩
  | char c h => exact Or.inr (Or.inl ⟨c, _, _, rfl, rfl, h⟩)
  | @gap blanks _ _ hne hblanks =>
    obtain ⟨c, blanks, rfl⟩ := List.exists_cons_of_ne_nil hne
    exact Or.inr (Or.inr ⟨⟨c, rfl, hblanks c List.mem_cons_self⟩, ' ', rfl, by decide⟩)

end Respaced

/-! ## Trimming -/

theorem toList_trim (text : String) : (trim text).toList = trimList text.toList :=
  String.toList_ofList

theorem trimList_append_blanks (cs : List Char) {blanks : List Char}
    (h : ∀ c ∈ blanks, isBlank c = true) : trimList (cs ++ blanks) = trimList cs := by
  unfold trimList
  rw [List.dropWhile_append]
  split
  · next hempty =>
    rw [List.dropWhile_eq_nil_iff.mpr h, List.isEmpty_iff.mp hempty]
  · rw [List.reverse_append, dropWhile_isBlank_append fun c hc => h c (List.mem_reverse.mp hc)]

/-- Trimming drops blanks at both ends. -/
theorem exists_blanks_trimList (cs : List Char) :
    ∃ before after, cs = before ++ trimList cs ++ after
      ∧ (∀ c ∈ before, isBlank c = true) ∧ ∀ c ∈ after, isBlank c = true := by
  refine ⟨cs.takeWhile isBlank, ((cs.dropWhile isBlank).reverse.takeWhile isBlank).reverse, ?_, ?_,
    ?_⟩
  · rw [trimList, List.append_assoc, ← List.reverse_append, List.takeWhile_append_dropWhile,
      List.reverse_reverse, List.takeWhile_append_dropWhile]
  · exact fun c hc => List.mem_takeWhile_imp hc
  · exact fun c hc => List.mem_takeWhile_imp (List.mem_reverse.mp hc)

theorem isBlank_head?_dropWhile {cs : List Char} {c : Char}
    (h : (cs.dropWhile isBlank).head? = some c) : isBlank c = false := by
  have hnot := List.head?_dropWhile_not isBlank cs
  rw [h] at hnot
  simpa using hnot

/-- What is left by trimming has nothing to trim. -/
theorem tight_trimList {cs : List Char} (h : trimList cs ≠ []) : Tight (trimList cs) where
  first := by
    have hprefix : trimList cs <+: cs.dropWhile isBlank := by
      rw [← List.reverse_suffix, trimList, List.reverse_reverse]
      exact List.dropWhile_suffix _
    obtain ⟨rest, hrest⟩ := hprefix
    have hfirst := List.head?_eq_some_head h
    have hdropped : (cs.dropWhile isBlank).head? = some ((trimList cs).head h) := by
      rw [← hrest, List.head?_append, hfirst]
      rfl
    exact ⟨_, hfirst, isBlank_head?_dropWhile hdropped⟩
  last := by
    have hlast := List.getLast?_eq_some_getLast h
    have hdropped : ((cs.dropWhile isBlank).reverse.dropWhile isBlank).head?
        = some ((trimList cs).getLast h) := by
      rw [← List.getLast?_reverse]
      exact hlast
    exact ⟨_, hlast, isBlank_head?_dropWhile hdropped⟩

theorem trimList_trimList (cs : List Char) : trimList (trimList cs) = trimList cs := by
  by_cases h : trimList cs = []
  · rw [h]
    rfl
  · exact (tight_trimList h).trimList_eq

theorem trim_trim (text : String) : trim (trim text) = trim text := by
  rw [trim, toList_trim, trimList_trimList]
  rfl

end Text

namespace Statement

open Text (Respaced isBlank trimList)

/-! ## Cutting at a mark -/

section

variable {first second : Char} {cs cs' before after : List Char}

theorem cutAt_cons (first second c : Char) (cs : List Char) :
    cutAt first second (c :: cs)
      = if c = first ∧ cs.head? = some second then some ([], cs.tail)
        else (cutAt first second cs).map fun cut => (c :: cut.1, cut.2) := by
  cases cs with
  | nil => simp [cutAt]
  | cons d cs => simp [cutAt]

/-- There is nothing to cut exactly if the mark does not occur. -/
theorem cutAt_eq_none_iff : cutAt first second cs = none ↔ ¬ [first, second] <:+: cs := by
  induction cs with
  | nil => simp [cutAt]
  | cons c cs ih =>
    have hprefix : [first, second] <+: c :: cs ↔ c = first ∧ cs.head? = some second := by
      cases cs with
      | nil => simp
      | cons d cs => simp [eq_comm]
    rw [cutAt_cons, List.infix_cons_iff, hprefix, not_or, ← ih]
    split
    · next hmark => exact iff_of_false (Option.some_ne_none _) fun hnot => hnot.1 hmark
    · next hmark => rw [Option.map_eq_none_iff, and_iff_right hmark]

/-- The cut is at the first mark. -/
theorem cutAt_before (h : cutAt first second cs = some (before, after)) :
    cutAt first second before = none := by
  induction cs generalizing before with
  | nil => cases h
  | cons c cs ih =>
    rw [cutAt_cons] at h
    split at h
    · obtain ⟨rfl, rfl⟩ := Prod.mk.inj (Option.some.inj h)
      rfl
    · next hmark =>
      obtain ⟨⟨before', after'⟩, hrest, heq⟩ := Option.map_eq_some_iff.mp h
      obtain ⟨rfl, rfl⟩ := Prod.mk.inj heq
      rw [cutAt_cons, if_neg, ih hrest]
      · rfl
      · rintro ⟨hfirst, hsecond⟩
        refine hmark ⟨hfirst, ?_⟩
        rw [eq_of_cutAt hrest, List.head?_append, hsecond]
        rfl

/-- What comes behind a text does not change where it is cut. -/
theorem cutAt_append (h : cutAt first second cs = some (before, after)) (others : List Char) :
    cutAt first second (cs ++ others) = some (before, after ++ others) := by
  induction cs generalizing before with
  | nil => cases h
  | cons c cs ih =>
    rw [cutAt_cons] at h
    rw [List.cons_append, cutAt_cons]
    split at h
    · next hmark =>
      obtain ⟨rfl, rfl⟩ := Prod.mk.inj (Option.some.inj h)
      obtain ⟨cs, rfl⟩ := List.head?_eq_some_iff.mp hmark.2
      rw [if_pos ⟨hmark.1, rfl⟩]
      rfl
    · next hmark =>
      obtain ⟨⟨before', after'⟩, hrest, heq⟩ := Option.map_eq_some_iff.mp h
      obtain ⟨rfl, rfl⟩ := Prod.mk.inj heq
      have hne : cs ≠ [] := by
        rintro rfl
        cases hrest
      rw [if_neg, ih hrest]
      · rfl
      · rwa [List.head?_append_of_ne_nil _ hne]

/-- A mark does not begin with a blank. -/
theorem cutAt_blanks_append (hfirst : isBlank first = false) {blanks : List Char}
    (h : ∀ c ∈ blanks, isBlank c = true) (cs : List Char) :
    cutAt first second (blanks ++ cs)
      = (cutAt first second cs).map fun cut => (blanks ++ cut.1, cut.2) := by
  induction blanks with
  | nil => exact Option.map_id'.symm
  | cons c blanks ih =>
    obtain ⟨hc, hblanks⟩ := List.forall_mem_cons.mp h
    have hne : c ≠ first := by
      rintro rfl
      rw [hc] at hfirst
      cases hfirst
    rw [List.cons_append, cutAt_cons, if_neg fun hmark => hne hmark.1, ih hblanks, Option.map_map]
    rfl

/-- A mark does not end with a blank either. -/
theorem cutAt_append_blanks (hfirst : isBlank first = false) (hsecond : isBlank second = false)
    {blanks : List Char} (h : ∀ c ∈ blanks, isBlank c = true)
    (hnone : cutAt first second cs = none) : cutAt first second (cs ++ blanks) = none := by
  induction cs with
  | nil =>
    have hblanks := @cutAt_blanks_append first second hfirst blanks h []
    rwa [hnone, List.append_nil] at hblanks
  | cons c cs ih =>
    rw [cutAt_cons] at hnone
    split at hnone
    · cases hnone
    · next hmark =>
      rw [List.cons_append, cutAt_cons, if_neg, ih (Option.map_eq_none_iff.mp hnone)]
      · rfl
      · rintro ⟨hc, hhead⟩
        refine hmark ⟨hc, ?_⟩
        cases cs with
        | nil =>
          have hblank := h second (List.mem_of_mem_head? hhead)
          rw [hblank] at hsecond
          cases hsecond
        | cons d cs => exact hhead

/-- A text that is spaced in another way is cut at the same place. -/
theorem respaced_cutAt (hfirst : isBlank first = false) (hsecond : isBlank second = false)
    (h : Respaced cs cs') :
    Option.Rel (fun cut cut' => Respaced cut.1 cut'.1 ∧ Respaced cut.2 cut'.2)
      (cutAt first second cs) (cutAt first second cs') := by
  induction h with
  | nil => exact .none
  | @char c cs cs' h ih =>
    have hothers : Option.Rel (fun cut cut' => Respaced cut.1 cut'.1 ∧ Respaced cut.2 cut'.2)
        ((cutAt first second cs).map fun cut => (c :: cut.1, cut.2))
        ((cutAt first second cs').map fun cut => (c :: cut.1, cut.2)) := by
      generalize cutAt first second cs = cut at ih
      generalize cutAt first second cs' = cut' at ih
      cases ih with
      | none => exact .none
      | some hcut => exact .some ⟨.char c hcut.1, hcut.2⟩
    have hnot {cs : List Char} (hblank : ∃ c ∈ cs.head?, isBlank c = true) :
        ¬ (c = first ∧ cs.head? = some second) := by
      rintro ⟨_, hhead⟩
      obtain ⟨d, hd, hblank⟩ := hblank
      obtain rfl := Option.some.inj (hd.symm.trans hhead)
      rw [hblank] at hsecond
      cases hsecond
    rw [cutAt_cons, cutAt_cons]
    rcases h.cases_head with ⟨rfl, rfl⟩ | ⟨d, ds, ds', rfl, rfl, htail⟩ | ⟨hblank, hblank'⟩
    · rw [if_neg (fun hmark => nomatch hmark.2)]
      exact hothers
    · by_cases hmark : c = first ∧ some d = some second
      · rw [List.head?_cons, List.head?_cons, if_pos hmark, if_pos hmark]
        exact .some ⟨.nil, htail⟩
      · rw [List.head?_cons, List.head?_cons, if_neg hmark, if_neg hmark]
        exact hothers
    · rw [if_neg (hnot hblank), if_neg (hnot hblank')]
      exact hothers
  | @gap blanks cs cs' hne hblanks h ih =>
    rw [cutAt_blanks_append hfirst hblanks, ← List.singleton_append,
      cutAt_blanks_append hfirst (List.forall_mem_singleton.mpr rfl)]
    generalize cutAt first second cs = cut at ih
    generalize cutAt first second cs' = cut' at ih
    cases ih with
    | none => exact .none
    | some hcut => exact .some ⟨.append (.blanks hne hblanks) hcut.1, hcut.2⟩

end

/-! ## Preparing lines -/

/-- The characters of a line without its comment and the blanks at its ends. -/
def prepared (line : List Char) : List Char := trimList (withoutComment line)

theorem prepare_eq (line : String) :
    prepare line = (String.ofList (prepared line.toList),
      isOpen (String.ofList (prepared line.toList))) :=
  rfl

variable {cs cs' blanks : List Char}

theorem cutAt_withoutComment (cs : List Char) : cutAt ';' ';' (withoutComment cs) = none := by
  unfold withoutComment
  split
  · next hcut => exact cutAt_before hcut
  · next hnone => exact hnone

theorem withoutComment_of_none (h : cutAt ';' ';' cs = none) : withoutComment cs = cs := by
  rw [withoutComment, h]

theorem cutAt_prepared (cs : List Char) : cutAt ';' ';' (prepared cs) = none := by
  obtain ⟨before, after, hcs, _⟩ := Text.exists_blanks_trimList (withoutComment cs)
  rw [cutAt_eq_none_iff]
  intro hoccurs
  refine cutAt_eq_none_iff.mp (cutAt_withoutComment cs) (hoccurs.trans ?_)
  exact ⟨before, after, hcs.symm⟩

/-- A prepared line has no comment and nothing to trim. -/
theorem prepared_prepared (cs : List Char) : prepared (prepared cs) = prepared cs := by
  rw [prepared, withoutComment_of_none (cutAt_prepared cs), prepared, Text.trimList_trimList]

/-- Blanks at the end make no difference, also not behind a comment. -/
theorem prepared_append_blanks (cs : List Char) (h : ∀ c ∈ blanks, isBlank c = true) :
    prepared (cs ++ blanks) = prepared cs := by
  unfold prepared withoutComment
  cases hcut : cutAt ';' ';' cs with
  | none =>
    rw [cutAt_append_blanks (by decide) (by decide) h hcut]
    exact Text.trimList_append_blanks cs h
  | some cut => rw [cutAt_append hcut]

theorem respaced_prepared (h : Respaced cs cs') : Respaced (prepared cs) (prepared cs') := by
  have hcut := respaced_cutAt (by decide : isBlank ';' = false) (by decide : isBlank ';' = false) h
  refine Respaced.trimList ?_
  unfold withoutComment
  generalize cutAt ';' ';' cs = cut at hcut
  generalize cutAt ';' ';' cs' = cut' at hcut
  cases hcut with
  | none => exact h
  | some hcut => exact hcut.1

/-- As many parentheses are open. -/
theorem isOpen_of_respaced (h : Respaced cs cs') :
    isOpen (String.ofList cs) = isOpen (String.ofList cs') := by
  simp only [isOpen, String.toList_ofList]
  rw [h.count_eq (by decide : isBlank '(' = false), h.count_eq (by decide : isBlank ')' = false)]

/-! ## Joining lines -/

/-- A line of a file goes on like the line without the blanks at its ends, which is what is
    typed. -/
theorem respaced_join {begun begun' : List Char} (h : Respaced begun begun') (line : List Char) :
    Respaced (prepared (begun ++ ' ' :: line)) (prepared (begun' ++ ' ' :: trimList line)) := by
  obtain ⟨before, after, hline, hbefore, hafter⟩ := Text.exists_blanks_trimList line
  have hgap : Respaced (' ' :: before) [' '] :=
    .blanks (List.cons_ne_nil _ _) (List.forall_mem_cons.mpr ⟨by decide, hbefore⟩)
  have hjoin := (h.append hgap).append (.refl (trimList line))
  have hfile : begun ++ ' ' :: line = begun ++ ' ' :: before ++ trimList line ++ after := by
    conv_lhs => rw [hline]
    simp
  rw [hfile, prepared_append_blanks _ hafter]
  simpa using respaced_prepared hjoin

/-- A blank line adds nothing. -/
theorem prepared_join_blank {begun line : List Char} (hbegun : prepared begun = begun)
    (hline : trimList line = []) : prepared (begun ++ ' ' :: line) = begun := by
  obtain ⟨before, after, hblank, hbefore, hafter⟩ := Text.exists_blanks_trimList line
  rw [hline, List.append_nil] at hblank
  rw [prepared_append_blanks, hbegun]
  rw [hblank]
  exact List.forall_mem_cons.mpr ⟨by decide, List.forall_mem_append.mpr ⟨hbefore, hafter⟩⟩

end Statement

end LambdaCalc
