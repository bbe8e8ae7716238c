import LambdaCalc.Session
import LambdaCalc.Proofs.Statement.Lines

set_option autoImplicit false

/-! # Runs of lines

The lines of a file fall into runs (`Statement.Runs`): a run goes on as long as its lines, without
their comments, leave a parenthesis open, and ends at the first line that does not. Reading a file
collects each run in one text that has the words of its lines (`Statement.Collects`), so every run
that is not blank gives one statement, in the line that the run ends with, and nothing else does
(`Statement.statements_of_runs`). -/

namespace LambdaCalc

/-! ## Words -/

namespace Text

/-- The words of a text: what stands between its blanks. -/
def words (cs : List Char) : List (List Char) :=
  (cs.splitOnP isBlank).filter fun word => !word.isEmpty

variable {cs ds blanks : List Char} {c : Char}

/-- No word goes across a blank. -/
theorem words_append_blank (hc : isBlank c = true) (cs ds : List Char) :
    words (cs ++ c :: ds) = words cs ++ words ds := by
  unfold words
  rw [List.splitOnP_append_cons cs ds hc, List.filter_append]

theorem words_blanks_append (h : ∀ c ∈ blanks, isBlank c = true) (cs : List Char) :
    words (blanks ++ cs) = words cs := by
  induction blanks with
  | nil => rfl
  | cons c blanks ih =>
    obtain ⟨hc, hblanks⟩ := List.forall_mem_cons.mp h
    exact (words_append_blank hc [] (blanks ++ cs)).trans (ih hblanks)

theorem words_blanks (h : ∀ c ∈ blanks, isBlank c = true) : words blanks = [] := by
  have hwords := words_blanks_append h []
  rwa [List.append_nil] at hwords

theorem words_append_blanks (cs : List Char) (h : ∀ c ∈ blanks, isBlank c = true) :
    words (cs ++ blanks) = words cs := by
  cases blanks with
  | nil => rw [List.append_nil]
  | cons c blanks =>
    obtain ⟨hc, hblanks⟩ := List.forall_mem_cons.mp h
    rw [words_append_blank hc, words_blanks hblanks, List.append_nil]

/-- Trimming takes no word away. -/
theorem words_trimList (cs : List Char) : words (trimList cs) = words cs := by
  obtain ⟨before, after, hcs, hbefore, hafter⟩ := exists_blanks_trimList cs
  conv_rhs => rw [hcs, words_append_blanks _ hafter, words_blanks_append hbefore]

/-- The words hold every character that is not blank. -/
theorem flatten_words (cs : List Char) : (words cs).flatten = cs.filter fun c => !isBlank c := by
  rw [words, List.flatten_filter_not_isEmpty]
  induction cs with
  | nil => rfl
  | cons c cs ih =>
    rw [List.splitOnP_cons_eq_if_modifyHead, List.filter_cons, ← ih]
    cases isBlank c with
    | true => rfl
    | false =>
      obtain ⟨word, others, hsplit⟩ :=
        List.exists_cons_of_ne_nil (List.splitOnP_ne_nil isBlank cs)
      rw [hsplit]
      rfl

theorem words_eq_nil_iff : words cs = [] ↔ cs.all isBlank = true := by
  rw [List.all_eq_true]
  constructor
  · intro h c hc
    have hnone : cs.filter (fun c => !isBlank c) = [] := by
      rw [← flatten_words, h, List.flatten_nil]
    simpa using List.filter_eq_nil_iff.mp hnone c hc
  · exact words_blanks

/-- A character that is not blank occurs as often in texts of the same words. -/
theorem count_eq_of_words_eq (h : words cs = words ds) (hc : isBlank c = false) :
    cs.count c = ds.count c := by
  have hcount (cs : List Char) : cs.count c = (words cs).flatten.count c := by
    rw [flatten_words, List.count_filter]
    rw [hc]
    rfl
  rw [hcount, h, ← hcount]

/-- A text with nothing to trim has words, unless it is empty. -/
theorem eq_nil_of_words_eq_nil (htrim : trimList cs = cs) (h : words cs = []) : cs = [] := by
  have hblank := List.all_eq_true.mp (words_eq_nil_iff.mp h)
  rw [← htrim, trimList, List.dropWhile_eq_nil_iff.mpr hblank]
  rfl

end Text

namespace Statement

open Text (isBlank words trimList)

/-! ## Joining lines -/

/-- A mark does not go across a space. -/
theorem cutAt_append_space {first second : Char} (hfirst : isBlank first = false)
    (hsecond : isBlank second = false) {cs : List Char} (h : cutAt first second cs = none)
    (ds : List Char) :
    cutAt first second (cs ++ ' ' :: ds)
      = (cutAt first second ds).map fun cut => (cs ++ ' ' :: cut.1, cut.2) := by
  induction cs with
  | nil => exact cutAt_blanks_append hfirst (List.forall_mem_singleton.mpr rfl) ds
  | cons c cs ih =>
    rw [cutAt_cons] at h
    split at h
    · cases h
    · next hmark =>
      rw [List.cons_append, cutAt_cons, if_neg, ih (Option.map_eq_none_iff.mp h), Option.map_map]
      · rfl
      · rintro ⟨hc, hhead⟩
        cases cs with
        | nil =>
          obtain rfl := Option.some.inj hhead
          cases hsecond
        | cons d cs => exact hmark ⟨hc, hhead⟩

/-- What comes behind a text without a comment has the comment that it has by itself. -/
theorem withoutComment_append_space {cs : List Char} (h : cutAt ';' ';' cs = none)
    (line : List Char) : withoutComment (cs ++ ' ' :: line) = cs ++ ' ' :: withoutComment line := by
  unfold withoutComment
  rw [cutAt_append_space (by decide) (by decide) h]
  cases cutAt ';' ';' line with
  | none | some cut => rfl

/-! ## Runs -/

/-- The text of some lines: without their comments, joined by spaces. -/
def runText (lines : List String) : List Char :=
  [' '].intercalate (lines.map fun line => withoutComment line.toList)

/-- Some lines open more parentheses than they close, comments aside. -/
def LeavesOpen (lines : List String) : Prop :=
  (runText lines).count ')' < (runText lines).count '('

instance : DecidablePred LeavesOpen := fun _ => inferInstanceAs (Decidable (_ < _))

/-- Lines never get to where no parenthesis is left open. -/
def NeverCloses (lines : List String) : Prop :=
  ∀ part, part <+: lines → part ≠ [] → LeavesOpen part

/-- Lines fall into runs. Each run ends at its first line that leaves no parenthesis open, but the
    last one may end with the lines. -/
inductive Runs : List String → List (List String) → Prop where
  | done : Runs [] []
  | unfinished {run : List String} : run ≠ [] → NeverCloses run → Runs run [run]
  | run {begun lines : List String} {line : String} {runs : List (List String)} :
      NeverCloses begun → ¬ LeavesOpen (begun ++ [line]) → Runs lines runs →
      Runs (begun ++ line :: lines) ((begun ++ [line]) :: runs)

/-- The runs of lines behind those of a run that has begun. -/
def runsFrom (begun : List String) : List String → List (List String)
  | [] => if begun.isEmpty then [] else [begun]
  | line :: lines =>
      if LeavesOpen (begun ++ [line]) then runsFrom (begun ++ [line]) lines
      else (begun ++ [line]) :: runsFrom [] lines

theorem neverCloses_nil : NeverCloses [] := by
  intro part hpart hne
  exact absurd (List.prefix_nil.mp hpart) hne

theorem NeverCloses.concat {begun : List String} {line : String} (h : NeverCloses begun)
    (hline : LeavesOpen (begun ++ [line])) : NeverCloses (begun ++ [line]) := by
  intro part hpart hne
  rcases List.prefix_concat_iff.mp hpart with rfl | hpart
  · exact hline
  · exact h part hpart hne

theorem runsFrom_nil {begun : List String} (hne : begun ≠ []) : runsFrom begun [] = [begun] := by
  rw [runsFrom, if_neg (by rwa [List.isEmpty_iff])]

/-- Lines that never close belong to the run that has begun: by induction on them, from the
    first. -/
theorem runsFrom_append {begun part : List String} (h : NeverCloses (begun ++ part))
    (lines : List String) : runsFrom begun (part ++ lines) = runsFrom (begun ++ part) lines := by
  induction part generalizing begun with
  | nil => rw [List.nil_append, List.append_nil]
  | cons line part ih =>
    have hassoc : begun ++ line :: part = begun ++ [line] ++ part := by simp
    rw [hassoc] at h ⊢
    have hline : LeavesOpen (begun ++ [line]) := h _ (List.prefix_append _ _) (by simp)
    rw [List.cons_append, runsFrom, if_pos hline, ih h]

/-- Behind lines that never close, the runs are found one after the other. -/
theorem runs_runsFrom {begun : List String} (h : NeverCloses begun) (lines : List String) :
    Runs (begun ++ lines) (runsFrom begun lines) := by
  induction lines generalizing begun with
  | nil =>
    rw [List.append_nil]
    by_cases hne : begun = []
    · subst hne
      exact .done
    · rw [runsFrom_nil hne]
      exact .unfinished hne h
  | cons line lines ih =>
    rw [runsFrom]
    split
    · next hline =>
      have hruns := ih (h.concat hline)
      rwa [List.append_assoc] at hruns
    · next hline => exact .run h hline (ih neverCloses_nil)

/-- Lines fall into runs in one way. -/
theorem runs_iff {lines : List String} {runs : List (List String)} :
    Runs lines runs ↔ runs = runsFrom [] lines := by
  constructor
  · intro h
    induction h with
    | done => rfl
    | @unfinished run hne hopen =>
      have hruns := @runsFrom_append [] run hopen []
      rw [List.append_nil] at hruns
      rw [hruns, List.nil_append, runsFrom_nil hne]
    | @run begun lines line runs hopen hline _ ih =>
      rw [@runsFrom_append [] begun hopen, List.nil_append, runsFrom, if_neg hline, ih]
  · rintro rfl
    exact runs_runsFrom neverCloses_nil lines

example : Runs ["k := (a ;; (", "", "b)", ";; c", "d))", "(e"]
    [["k := (a ;; (", "", "b)"], [";; c"], ["d))"], ["(e"]] := by
  rw [runs_iff]
  decide +kernel

/-- Runs with the numbers of their last lines, behind so many other lines. -/
def numberedFrom (line : Nat) : List (List String) → List (Nat × List String)
  | [] => []
  | run :: runs => (line + run.length, run) :: numberedFrom (line + run.length) runs

/-! ## Collecting a run -/

/-- A text has the words of some lines, and neither a comment nor anything to trim. -/
structure Collects (run : List String) (text : String) : Prop where
  words_eq : words text.toList = words (runText run)
  prepared_eq : prepared text.toList = text.toList

theorem words_runText (run : List String) :
    words (runText run) = run.flatMap fun line => words (withoutComment line.toList) := by
  unfold runText
  induction run with
  | nil => rfl
  | cons line run ih =>
    rw [List.flatMap_cons, ← ih]
    cases run with
    | nil =>
      rw [List.map_singleton, List.intercalate_singleton, List.map_nil, List.intercalate_nil,
        Text.words_blanks (List.forall_mem_nil _), List.append_nil]
    | cons next run =>
      rw [List.map_cons, List.map_cons, List.intercalate_cons_cons, List.append_assoc,
        List.singleton_append, Text.words_append_blank rfl]

namespace Collects

variable {run : List String} {text : String}

theorem nil : Collects [] "" := ⟨rfl, rfl⟩

/-- As many parentheses are left open. -/
theorem isOpen_iff (h : Collects run text) : isOpen text = true ↔ LeavesOpen run := by
  rw [isOpen, decide_eq_true_iff, LeavesOpen,
    Text.count_eq_of_words_eq h.words_eq (by decide : isBlank ')' = false),
    Text.count_eq_of_words_eq h.words_eq (by decide : isBlank '(' = false)]

/-- The text is empty exactly if the lines are blank. -/
theorem isEmpty_iff (h : Collects run text) :
    text.isEmpty = true ↔ (runText run).all isBlank = true := by
  rw [String.isEmpty_iff, ← Text.words_eq_nil_iff, ← h.words_eq, ← String.toList_eq_nil_iff]
  constructor
  · intro hnil
    rw [hnil]
    rfl
  · refine Text.eq_nil_of_words_eq_nil ?_
    rw [← h.prepared_eq, prepared, Text.trimList_trimList]

/-- One more line is collected. -/
theorem concat (h : Collects run text) (line : String) :
    Collects (run ++ [line]) (joined text line) where
  words_eq := by
    have hcut : cutAt ';' ';' text.toList = none := h.prepared_eq ▸ cutAt_prepared text.toList
    rw [words_runText, List.flatMap_append, ← words_runText, ← h.words_eq, joined,
      String.toList_ofList, prepared, Text.words_trimList, withoutComment_append_space hcut,
      Text.words_append_blank rfl, List.flatMap_singleton]
  prepared_eq := by rw [joined, String.toList_ofList, prepared_prepared]

end Collects

/-! ## Statements -/

/-- A run gives a statement: it has the words of the run, and the number of its last line. -/
structure Gives (run : Nat × List String) (statement : Statement) : Prop where
  line_eq : statement.line = run.1
  words_eq : words statement.text.toList = words (runText run.2)

/-- Runs that are not blank. -/
def notBlank (runs : List (Nat × List String)) : List (Nat × List String) :=
  runs.filter fun run => !(runText run.2).all isBlank

theorem notBlank_cons_of_isEmpty {run : Nat × List String} {text : String}
    (hcollects : Collects run.2 text) (h : text.isEmpty = true) (runs : List (Nat × List String)) :
    notBlank (run :: runs) = notBlank runs := by
  rw [notBlank, List.filter_cons_of_neg, notBlank]
  rw [hcollects.isEmpty_iff.mp h]
  exact Bool.false_ne_true

theorem notBlank_cons_of_not_isEmpty {run : Nat × List String} {text : String}
    (hcollects : Collects run.2 text) (h : text.isEmpty ≠ true) (runs : List (Nat × List String)) :
    notBlank (run :: runs) = run :: notBlank runs := by
  rw [notBlank, List.filter_cons_of_pos, notBlank]
  rw [Bool.not_eq_true', Bool.eq_false_iff, ne_eq, ← hcollects.isEmpty_iff]
  exact h

/-- Behind the lines of a run that has been begun, the runs give the statements: by induction on the
    lines, while the text that has been begun collects the run. -/
theorem gives_runsFrom {run : List String} {begun : String} (hcollects : Collects run begun)
    (hopen : run ≠ [] → LeavesOpen run) (before : Nat) (lines : List String) :
    List.Forall₂ Gives (notBlank (numberedFrom before (runsFrom run lines)))
      (ofLinesFrom (before + run.length + 1) begun lines) := by
  induction lines generalizing run begun before with
  | nil =>
    by_cases hne : run = []
    · subst hne
      have hempty : begun.isEmpty = true := hcollects.isEmpty_iff.mpr rfl
      rw [ofLinesFrom, if_pos hempty]
      exact .nil
    · have hempty : begun.isEmpty ≠ true := by
        rw [ne_eq, String.isEmpty_iff]
        exact ne_empty_of_isOpen (hcollects.isOpen_iff.mpr (hopen hne))
      rw [ofLinesFrom, if_neg hempty, runsFrom_nil hne, numberedFrom,
        notBlank_cons_of_not_isEmpty hcollects hempty]
      exact .cons ⟨rfl, hcollects.words_eq⟩ .nil
  | cons line lines ih =>
    have hnext := hcollects.concat line
    have hlength : before + run.length + 1 = before + (run ++ [line]).length := by
      rw [List.length_append, List.length_singleton, Nat.add_assoc]
    rw [ofLinesFrom_cons, runsFrom, advance, hlength]
    -- The line ends the run, unless parentheses are left open.
    simp only [hnext.isOpen_iff]
    split
    · next hline => exact ih hnext (fun _ => hline) before
    · rw [numberedFrom]
      have hrest := ih Collects.nil (fun hne => absurd rfl hne) (before + (run ++ [line]).length)
      split
      · next hempty =>
        rw [notBlank_cons_of_isEmpty hnext hempty]
        exact hrest
      · next hempty =>
        rw [notBlank_cons_of_not_isEmpty hnext hempty]
        exact .cons ⟨rfl, hnext.words_eq⟩ hrest

theorem exists_gives_of_mem {runs : List (Nat × List String)} {statements : List Statement}
    (h : List.Forall₂ Gives runs statements) {statement : Statement}
    (hmem : statement ∈ statements) : ∃ run ∈ runs, Gives run statement := by
  induction h with
  | nil => cases hmem
  | @cons run _ runs _ hgives _ ih =>
    rcases List.mem_cons.mp hmem with rfl | hmem
    · exact ⟨run, List.mem_cons_self, hgives⟩
    · obtain ⟨run', hrun', hgives'⟩ := ih hmem
      exact ⟨run', List.mem_cons_of_mem _ hrun', hgives'⟩

/-- Every statement of a file is given by one of its runs. -/
theorem exists_gives {lines : List String} {statement : Statement} (h : statement ∈ ofLines lines) :
    ∃ runs, Runs lines runs ∧ ∃ run ∈ numberedFrom 0 runs, Gives run statement := by
  have hgives := gives_runsFrom .nil (fun hne => absurd rfl hne) 0 lines
  obtain ⟨run, hrun, hstatement⟩ := exists_gives_of_mem hgives h
  exact ⟨runsFrom [] lines, runs_iff.mpr rfl, run, List.mem_of_mem_filter hrun, hstatement⟩

/-- Lines fall into runs in exactly one way, and what a file is read for are the statements of its
    runs in order: a run that is not blank gives one statement, with the words of its lines without
    their comments and the number of its last line, and a blank run gives none. A session that works
    on the file takes these statements and no others. -/
theorem statements_of_runs (lines : List String) :
    ∃ runs, (∀ others, Runs lines others ↔ others = runs)
      ∧ List.Forall₂ Gives (notBlank (numberedFrom 0 runs)) (ofLines lines)
      ∧ ∀ text, Text.fileLines text = lines →
          Session.takeFile (some text) = (ofLines lines).forM fun statement =>
            Session.take statement.text (some (statement.line : Int)) := by
  refine ⟨runsFrom [] lines, fun others => runs_iff, ?_, ?_⟩
  · exact gives_runsFrom .nil (fun hne => absurd rfl hne) 0 lines
  · rintro text rfl
    rfl

end Statement

end LambdaCalc
