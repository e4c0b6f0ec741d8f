import QueryLint.Proofs.Rule.Relabel
import QueryLint.Proofs.Token.LetterCase

/-!
# Linting and letter case

Texts that differ in the case of ASCII letters are one text in lower case, so they
have the same tokens but for the case of letters, at the same places. They are cut
into the same statements, and rules find the same; only the text that the rule on
parentheses behind DISTINCT copies keeps its case (`letterCase_irrelevant`).
-/
namespace QueryLint

open Keyword (lower)

/-- Whether a text comes from another one by changing the case of ASCII letters. -/
def Text.Recased (text text' : List Char) : Prop :=
  List.Forall₂ (fun c d => d = c ∨ d = c.toLower ∨ d = c.toUpper) text text'

theorem Text.Recased.lower_eq {text text' : List Char} (h : Text.Recased text text') :
    lower text' = lower text := by
  induction h with
  | nil => rfl
  | @cons c d cs ds hd _ ih =>
    have hlower : d.toLower = c.toLower := by
      rcases hd with rfl | rfl | rfl
      · rfl
      · exact Char.toLower_toLower_eq_toLower c
      · exact Char.toLower_toUpper_eq_toLower c
    rw [Scan.lower_cons, Scan.lower_cons, hlower, ih]

theorem lower_eq_iff {word : List Char} (hword : ∀ d ∈ word, d.isAlpha = false) (cs : List Char) :
    lower cs = word ↔ cs = word := by
  induction word generalizing cs with
  | nil => exact List.map_eq_nil_iff
  | cons d word ih =>
    cases cs with
    | nil => simp [lower]
    | cons c cs =>
      rw [Scan.lower_cons, List.cons.injEq, List.cons.injEq,
        Text.toLower_eq_iff (hword d List.mem_cons_self),
        ih fun x hx => hword x (List.mem_cons_of_mem d hx)]

theorem relabels_lowered : Token.Relabels Char.toLower Token.lowered where
  kind _ := rfl
  range _ := rfl
  isLineComment t := by
    have hdashes : ['-', '-'].isPrefixOf (lower t.chars) = ['-', '-'].isPrefixOf t.chars :=
      Scan.isPrefixOf_lower (by simp) t.chars
    have hhash : ['#'].isPrefixOf (lower t.chars) = ['#'].isPrefixOf t.chars :=
      Scan.isPrefixOf_lower (by simp) t.chars
    unfold Lexeme.isLineComment
    simp only [Token.lowered, hdashes, hhash]
    rfl
  isKeyword t word := by
    unfold Lexeme.isKeyword
    simp only [Token.lowered, Scan.lower_lower]
  isPunctuation t mark hmark := by
    have hchars : (lower t.chars == mark.toList) = (t.chars == mark.toList) := by
      rw [Bool.eq_iff_iff, beq_iff_eq, beq_iff_eq]
      apply lower_eq_iff
      intro d hd
      simpa using List.all_eq_true.mp hmark d hd
    unfold Lexeme.isPunctuation
    simp only [Token.lowered, hchars]
  chars t _ := Scan.lower_lower t.chars

section Statements

variable (s : Statement)

theorem kind_relabel_lowered : (s.relabel Token.lowered).kind = s.kind := by
  have hsignificant : (fun t : Token => t.isSignificant) ∘ Token.lowered =
      fun t => t.isSignificant :=
    funext relabels_lowered.isSignificant
  unfold Statement.kind Token.firstSignificant? Statement.relabel
  simp only [List.find?_map, hsignificant]
  cases s.tokens.find? (·.isSignificant) with
  | none => rfl
  | some t => simp only [Option.map_some, Token.lowered, Scan.upper_lower]

theorem range_relabel_lowered : (s.relabel Token.lowered).range = s.range := by
  unfold Statement.range Statement.relabel
  simp only [List.head?_map, List.getLast?_map]
  cases s.tokens.head? <;> cases s.tokens.getLast? <;> rfl

theorem span_relabel_lowered : (s.relabel Token.lowered).span = s.span := by
  unfold Statement.span Statement.relabel
  simp only [List.head?_map, List.getLast?_map]
  cases s.tokens.head? <;> cases s.tokens.getLast? <;> rfl

theorem tokenSpan_relabel_lowered : (s.relabel Token.lowered).tokenSpan = s.tokenSpan := by
  unfold Statement.tokenSpan Statement.relabel
  rw [List.length_map]

end Statements

theorem statements_lower (text : List Char) :
    (Document.parse (lower text)).statements =
      (Document.parse text).statements.map (·.relabel Token.lowered) := by
  unfold Document.parse
  simp only [tokenize_lower, relabels_lowered.pieces_map, relabels_lowered.ofPieces_map]

/-- The case of ASCII letters makes no difference to the kinds and places of
tokens, nor to where statements lie, what they start with and whether they are
closed. Nor does it to the diagnostics, except for the case of the new text that
the rule on parentheses behind DISTINCT offers. -/
theorem letterCase_irrelevant (text text' : List Char) (h : Text.Recased text text') :
    (tokenize text').map (fun t => (t.kind, t.range, t.span)) =
        (tokenize text).map (fun t => (t.kind, t.range, t.span)) ∧
      (Document.parse text').statements.map
          (fun s => (s.id, s.tokenSpan, s.range, s.span, s.kind, s.terminated)) =
        (Document.parse text).statements.map
          (fun s => (s.id, s.tokenSpan, s.range, s.span, s.kind, s.terminated)) ∧
      ∀ s : Settings,
        (lint s text').map (·.mapCopied Char.toLower) =
          (lint s text).map (·.mapCopied Char.toLower) := by
  have hlower := h.lower_eq
  have htokens : (tokenize text').map Token.lowered = (tokenize text).map Token.lowered := by
    rw [← tokenize_lower, ← tokenize_lower, hlower]
  have hstatements : (Document.parse text').statements.map (·.relabel Token.lowered) =
      (Document.parse text).statements.map (·.relabel Token.lowered) := by
    rw [← statements_lower, ← statements_lower, hlower]
  refine ⟨?_, ?_, ?_⟩
  · have hplaces := congrArg (List.map fun t => (t.kind, t.range, t.span)) htokens
    rwa [List.map_map, List.map_map] at hplaces
  · have hplaces := congrArg
      (List.map fun s => (s.id, s.tokenSpan, s.range, s.span, s.kind, s.terminated)) hstatements
    simp only [List.map_map, Function.comp_def, tokenSpan_relabel_lowered, range_relabel_lowered,
      span_relabel_lowered, kind_relabel_lowered] at hplaces
    exact hplaces
  · intro s
    exact map_lint_of_relabels relabels_lowered htokens s

/-- Keywords in mixed case, and a column whose parentheses are not needed. -/
theorem letterCase_irrelevant_distinct :
    let s : Settings := {}
    let text := "select distinct (a)\n".toList
    let text' := "SELECT Distinct (A)\n".toList
    Text.Recased text text' ∧ (lint s text).length = 1 ∧
      (lint s text').map (·.mapCopied Char.toLower) =
        (lint s text).map (·.mapCopied Char.toLower) := by
  intro s text text'
  have h : Text.Recased text text' := by
    unfold Text.Recased
    decide
  have hlength : (lint s text).length = 1 := by
    unfold lint Settings.lintDocument Linter.run
    rw [List.length_take, List.length_mergeSort]
    decide +kernel
  exact ⟨h, hlength, (letterCase_irrelevant text text' h).2.2 s⟩

end QueryLint
