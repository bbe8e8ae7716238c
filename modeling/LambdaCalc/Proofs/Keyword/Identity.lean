import LambdaCalc.Proofs.Expression.Identity
import LambdaCalc.Proofs.Keyword.Body
import LambdaCalc.Proofs.Keyword.Calculation

set_option autoImplicit false

/-! # Applying the identity to a text

The identity may be written in front of a text in parentheses, with any name that is not a keyword
and does not occur in the text. Then its tokens come in front of the tokens of the text
(`KeywordTable.tokenize_identityOn`), whatever parentheses the text leaves open, and where both
texts can be calculated, the results are the same number and have the same text
(`KeywordTable.reduceText_identityOn`). -/

namespace LambdaCalc

open Qualifier

namespace Text

/-- The text of the identity, applied to a text in parentheses. -/
def identityOn (name text : String) : String := "(λ" ++ name ++ "." ++ name ++ ") (" ++ text ++ ")"

variable (name text : String)

theorem toList_identityOn : (identityOn name text).toList
    = ['('] ++ ('λ' :: (name.toList ++ '.' :: (name.toList ++ ')' :: ' ' :: '(' :: text.toList)))
      ++ [')'] := by
  simp [identityOn, String.toList_append]

theorem trimList_identityOn :
    trimList (identityOn name text).toList = (identityOn name text).toList := by
  rw [toList_identityOn]
  exact ((tight_singleton (by decide)).append (tight_singleton (by decide)) _).trimList_eq

end Text

/-! ## Lexemes -/

namespace Lexeme

/-- The lexemes of the identity. -/
def ofIdentity (name : String) : List Lexeme :=
  [.opening, .lambda 'λ', .word name, .dot, .word name, .closing]

/-- The lexemes of the identity come before those of the text in parentheses. -/
theorem ofText_identityOn {name text : String} (hname : Word.isName name = true)
    (hblanks : ∀ c ∈ text.toList, Text.isBlank c = true → Text.isAsciiBlank c = true) :
    ofText (Text.identityOn name text)
      = ofIdentity name ++ (.opening :: ofText text ++ [.closing]) := by
  have hnil : splitOnto [] [] = [] := by
    rw [splitOnto]
    rfl
  rw [ofText, Text.trimList_identityOn, Text.toList_identityOn]
  simp only [List.cons_append, List.nil_append, List.append_assoc]
  rw [splitOnto_single (c := '(') (by decide) fun _ => rfl,
    splitOnto_single (c := 'λ') (by decide) fun _ => rfl,
    splitOnto_name hname (ends_cons (by decide) _),
    splitOnto_single (c := '.') (by decide) fun _ => rfl,
    splitOnto_name hname (ends_cons (by decide) _),
    splitOnto_single (c := ')') (by decide) fun _ => rfl, splitOnto_blank,
    splitOnto_single (c := '(') (by decide) fun _ => rfl, splitOnto_append (endsAll_closing []),
    splitOnto_trimList hblanks, splitOnto_single (c := ')') (by decide) fun _ => rfl, hnil]
  rfl

end Lexeme

namespace TextReading

variable {table : KeywordTable} {name : String}

/-- The tokens of the identity are written, and nothing is open or bound behind it. -/
theorem foldlM_ofIdentity (hname : Word.isName name = true)
    (hfind : table.keywords.find? name = none) :
    (Lexeme.ofIdentity name).foldlM (step table none) {}
      = .ok { tokens := #[.opening, .func name, .var name, .closing] } := by
  have hparameter (reading : TextReading) : readParameter table none reading name
      = .ok { reading.emit [.func name] with
          mode := .moreParameters, bound := reading.bound ++ [(name, reading.depth)] } := by
    rw [readParameter, OrderedTable.contains, hname, hfind]
    rfl
  have hword (reading : TextReading) : wordTokens table none reading name = .ok [.var name] := by
    simp only [wordTokens, hfind, Word.not_isNumber_of_isName hname, hname]
    rfl
  have hread (reading : TextReading) (hmode : reading.mode = .spine) :
      step table none reading (.word name) = .ok (reading.emit [.var name]) := by
    simp only [step, hmode]
    exact Outcome.bind_eq_ok.mpr ⟨_, hword reading, rfl⟩
  exact Outcome.bind_eq_ok.mpr ⟨_, rfl, Outcome.bind_eq_ok.mpr ⟨_, rfl,
    Outcome.bind_eq_ok.mpr ⟨_, hparameter _, Outcome.bind_eq_ok.mpr ⟨_, rfl,
      Outcome.bind_eq_ok.mpr ⟨_, hread _ rfl, Outcome.bind_eq_ok.mpr ⟨_, rfl, rfl⟩⟩⟩⟩⟩⟩

end TextReading

namespace KeywordTable

variable {table : KeywordTable} {name text : String}

/-- The names in the tokens of a text are those in the text, and others that are qualified. -/
theorem Reachable.named_ne (htable : table.Reachable) (hname : Word.isName name = true)
    (hnot : .word name ∉ Lexeme.ofText text) {tokens : List Token}
    (htokens : table.tokenize text = .ok tokens) : ∀ token ∈ tokens, token.Named (· ≠ name) := by
  have hne {other : String} (hother : Word.isName other = false) : other ≠ name := by
    rintro rfl
    rw [hname] at hother
    cases hother
  have hqualified (keyword word : String) : qualify (some keyword) word ≠ name :=
    hne (not_isName_qualify keyword word)
  have hnumeral : Numeral.Named (· ≠ name) := ⟨hqualified "#" "f", hqualified "#" "x"⟩
  have hnamed : table.Named (· ≠ name) := by
    refine htable.keeps nofun (fun htable hdefine => ?_) fun name htable => htable.erase name
    exact htable.define hnumeral (fun word _ => hqualified _ word) hdefine
  refine hnamed.tokenize hnumeral (fun word hmem _ heq => hnot ?_) htokens
  exact (show word = name from heq) ▸ hmem

/-- The tokens of the identity come before those of the text. -/
theorem tokenize_identityOn (hname : Word.isName name = true)
    (hkeyword : table.contains name = false)
    (hblanks : ∀ c ∈ text.toList, Text.isBlank c = true → Text.isAsciiBlank c = true)
    {tokens : List Token} (htokens : table.tokenize text = .ok tokens) (hne : tokens ≠ []) :
    table.tokenize (Text.identityOn name text) = .ok (Token.identityOn name tokens) := by
  have hfind : table.keywords.find? name = none := by
    rwa [KeywordTable.contains, OrderedTable.contains, Option.isSome_eq_false_iff,
      Option.isNone_iff_eq_none] at hkeyword
  have hnone (word : String) : none ≠ some word := (Option.some_ne_none word).symm
  have hspine :
      TextReading.mode { tokens := #[.opening, .func name, .var name, .closing] } = .spine := rfl
  obtain ⟨alone, halone, hmode, rfl⟩ := TextReading.exists_reading_of_tokenize htokens hne
  obtain ⟨last, hlast, hmode, hdepth, hwritten⟩ :=
    TextReading.exists_foldlM_group hnone halone hmode hspine
  have hempty : last.tokens.isEmpty = false := by
    rw [← Array.isEmpty_toList, hwritten]
    rfl
  rw [KeywordTable.tokenize, Lexeme.ofText_identityOn hname hblanks, List.foldlM_append,
    TextReading.foldlM_ofIdentity hname hfind]
  refine Outcome.bind_eq_ok.mpr ⟨last, hlast, ?_⟩
  rw [TextReading.result, hmode, hempty, hwritten, hdepth, Nat.zero_add]
  refine congrArg Except.ok ?_
  -- The last parenthesis closes what the text has left open, and the end of the text all others.
  have hends : Token.closing :: List.replicate alone.depth .closing
      = List.replicate alone.depth .closing ++ [.closing] :=
    List.replicate_succ.symm.trans List.replicate_succ'
  simp [Token.identityOn, hends]

/-- The identity changes nothing: wherever a text and the identity, applied to it, can both be
    calculated, the results are the same number, and have the same text or are both too long to be
    shown. -/
theorem reduceText_identityOn (htable : table.Reachable) (hname : Word.isName name = true)
    (hkeyword : table.contains name = false) (hnot : .word name ∉ Lexeme.ofText text)
    {reduced reduced' : Expression} (h : table.reduceText text = .ok reduced)
    (h' : table.reduceText (Text.identityOn name text) = .ok reduced') :
    reduced.number? = reduced'.number?
      ∧ ((∃ shown, reduced.render = .ok shown ∧ reduced'.render = .ok shown)
        ∨ reduced.render = .error (.ofKind .characterLimitExceeded)
          ∧ reduced'.render = .error (.ofKind .characterLimitExceeded)) := by
  have hsafe := htable.safe_reduceText h
  obtain ⟨tokens, htokens, h⟩ := Outcome.bind_eq_ok.mp h
  obtain ⟨expression, hbuilt, hreduce⟩ := Outcome.bind_eq_ok.mp h
  obtain ⟨tokens', htokens', h'⟩ := Outcome.bind_eq_ok.mp h'
  obtain ⟨expression', hbuilt', hreduce'⟩ := Outcome.bind_eq_ok.mp h'
  have hne : tokens ≠ [] := by
    rintro rfl
    cases hbuilt
  have hblanks : ∀ c ∈ text.toList, Text.isBlank c = true → Text.isAsciiBlank c = true := by
    intro c hc
    refine htable.isAsciiBlank_of_tokenize htokens' c ?_
    rw [Text.trimList_identityOn, Text.toList_identityOn]
    simp [hc]
  obtain rfl := Except.ok.inj
    (htokens'.symm.trans (tokenize_identityOn hname hkeyword hblanks htokens hne))
  have hgroup := (htable.grouped.tokenize htokens).resolve_left hne
  have hnone : ∀ keyword ∈ (none : Option String), Word.IsKeyword keyword := by simp
  have hproper : Proper (qualify none name) := proper_qualify hnone hname
  obtain ⟨hnumber, hrender⟩ := Expression.shown_eq_of_identityOn hgroup hproper
    (htable.named_ne hname hnot htokens) (htable.named_tokenize htokens) hbuilt hbuilt' hreduce
    hreduce'
  refine ⟨hnumber, ?_⟩
  rw [← hrender]
  rcases hsafe.render_eq with ⟨shown, hshown⟩ | hlong
  · exact .inl ⟨shown, hshown, hshown⟩
  · exact .inr ⟨hlong, hlong⟩

/-- After `k = λv.λw.v w`, the text `k (k` leaves a group open and has the name `v` from the
    keyword, which is merged with that of the identity in `(λv.v) (k (k)`. Both are the number one,
    shown as `λw.(λw_1.(w w_1))`. -/
theorem reduceText_identityOn_merged : ∃ table reduced reduced',
    KeywordTable.define {} "k" "λv.λw.v w" = .ok table ∧ table.reduceText "k (k" = .ok reduced
      ∧ table.reduceText (Text.identityOn "v" "k (k") = .ok reduced' ∧ reduced'.number? = some 1
      ∧ reduced'.render = .ok "λw.(λw_1.(w w_1))" := by
  have hrun : (do
      let table ← KeywordTable.define {} "k" "λv.λw.v w"
      let reduced ← table.reduceText "k (k"
      let _ ← table.reduceText (Text.identityOn "v" "k (k")
      return (table.contains "v", reduced.root, reduced.render))
        = Except.ok (false, .abs [⟨1, 0⟩] [.abs [⟨1, 2⟩] [.bound 1 0, .bound 0 0]],
            .ok "λw.(λw_1.(w w_1))") := by
    decide +kernel
  obtain ⟨table, hdefine, hrun⟩ := Outcome.bind_eq_ok.mp hrun
  obtain ⟨reduced, hreduce, hrun⟩ := Outcome.bind_eq_ok.mp hrun
  obtain ⟨reduced', hreduce', hrun⟩ := Outcome.bind_eq_ok.mp hrun
  obtain ⟨hkeyword, hroot, hrender⟩ : table.contains "v" = false
      ∧ reduced.root = .abs [⟨1, 0⟩] [.abs [⟨1, 2⟩] [.bound 1 0, .bound 0 0]]
      ∧ reduced.render = .ok "λw.(λw_1.(w w_1))" := by
    simpa using Except.ok.inj hrun
  have hnumber : reduced.number? = some 1 := by
    rw [Expression.number?, hroot]
    cbv
  have hinitial : KeywordTable.initial false = .ok {} := rfl
  obtain ⟨hnumber', hshown⟩ := reduceText_identityOn (.define (.initial hinitial) hdefine)
    (by decide) hkeyword (by decide +kernel) hreduce hreduce'
  rw [hrender] at hshown
  rcases hshown with ⟨_, ⟨⟩, hrender'⟩ | ⟨⟨⟩, _⟩
  exact ⟨table, reduced, reduced', hdefine, hreduce, hreduce', hnumber'.symm.trans hnumber,
    hrender'⟩

end KeywordTable

end LambdaCalc
