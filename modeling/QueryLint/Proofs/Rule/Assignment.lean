import QueryLint.Proofs.Rule.Significant
import Mathlib.Data.List.Nodup

/-!
# Assignments taken for comparisons

The list that SET opens holds assignments, up to the WHERE or FROM that follows it
outside brackets. The rule on comparisons with NULL does not count brackets: it goes by
the last SET, WHERE or FROM before a sign, wherever that stands
(`Null.mem_findingsFrom_iff`). So it passes over the assignments of a list up to the first
subquery, and reports those behind it (`assignment_reported_iff`).
-/
namespace QueryLint

theorem Lexeme.not_isKeyword_of_ne {l : Lexeme} {word other : String}
    (h : l.isKeyword word = true)
    (hne : Keyword.lower word.toList ≠ Keyword.lower other.toList) :
    l.isKeyword other = false := by
  rw [isKeyword, Bool.and_eq_true, beq_iff_eq, beq_iff_eq] at h
  simp only [isKeyword, h.2, beq_eq_false_iff_ne.mpr hne, Bool.and_false]

namespace Null

/-- Whether a token is a keyword that ends a list of assignments. -/
def endsList (t : Token) : Bool :=
  t.isKeyword "WHERE" || t.isKeyword "FROM"

/-- Whether the rule counts what stands behind a token as assignments. -/
def assigningBehind (assigning : Bool) (t : Token) : Bool :=
  if t.isKeyword "SET" then true else if endsList t then false else assigning

def assigningAfter (assigning : Bool) (ts : List Token) : Bool :=
  ts.foldl assigningBehind assigning

section Findings

variable {f : Finding} {t : Token} {ts : List Token} {assigning : Bool}

theorem finding?_of_isKeyword {word : String} (h : t.isKeyword word = true) (ts : List Token) :
    finding? t ts = none := by
  rw [Lexeme.isKeyword, Bool.and_eq_true, beq_iff_eq] at h
  simp [finding?, instead?, Lexeme.isPunctuation, h.1]

theorem findingsFrom_cons (assigning : Bool) (t : Token) (ts : List Token) :
    findingsFrom assigning (t :: ts) =
      (if assigning then [] else (finding? t ts).toList) ++
        findingsFrom (assigningBehind assigning t) ts := by
  have hkeyword : ∀ word, t.isKeyword word = true →
      (if assigning then [] else (finding? t ts).toList) = [] := by
    intro word hword
    rw [finding?_of_isKeyword hword, Option.toList_none, ite_self]
  unfold assigningBehind endsList
  rw [findingsFrom]
  by_cases hset : t.isKeyword "SET" = true
  · rw [if_pos hset, if_pos hset, hkeyword _ hset, List.nil_append]
  · rw [if_neg hset, if_neg hset]
    by_cases hends : t.isKeyword "WHERE" = true ∨ t.isKeyword "FROM" = true
    · rw [if_pos hends, if_pos (Bool.or_eq_true_iff.mpr hends),
        hends.elim (hkeyword _) (hkeyword _), List.nil_append]
    · rw [if_neg hends, if_neg (fun h => hends (Bool.or_eq_true_iff.mp h))]
      cases assigning <;> rfl

/-- What the rule finds in a statement: the comparisons with NULL behind which tokens
that leave no list of assignments open. -/
theorem mem_findingsFrom_iff :
    f ∈ findingsFrom assigning ts ↔
      ∃ before t rest, ts = before ++ t :: rest ∧ finding? t rest = some f ∧
        assigningAfter assigning before = false := by
  induction ts generalizing assigning with
  | nil => simp [findingsFrom]
  | cons u ts ih =>
    rw [findingsFrom_cons, List.mem_append, ih]
    constructor
    · rintro (hf | ⟨before, t, rest, rfl, hf, hafter⟩)
      · cases assigning with
        | true => simp at hf
        | false => exact ⟨[], u, ts, rfl, Option.mem_toList.mp hf, rfl⟩
      · exact ⟨u :: before, t, rest, rfl, hf, hafter⟩
    · rintro ⟨before, t, rest, hsplit, hf, hafter⟩
      cases before with
      | nil =>
        obtain ⟨rfl, rfl⟩ := List.cons.inj hsplit
        obtain rfl : assigning = false := hafter
        exact Or.inl (Option.mem_toList.mpr hf)
      | cons v before =>
        obtain ⟨rfl, rfl⟩ := List.cons.inj hsplit
        exact Or.inr ⟨before, t, rest, rfl, hf, hafter⟩

end Findings

theorem not_set_of_endsList {t : Token} (h : endsList t = true) : t.isKeyword "SET" = false := by
  rcases Bool.or_eq_true_iff.mp h with h | h
  · exact Lexeme.not_isKeyword_of_ne h (by decide)
  · exact Lexeme.not_isKeyword_of_ne h (by decide)

theorem assigningBehind_eq_false_iff {assigning : Bool} {t : Token} :
    assigningBehind assigning t = false ↔
      endsList t = true ∨ assigning = false ∧ t.isKeyword "SET" = false := by
  unfold assigningBehind
  by_cases hends : endsList t = true
  · simp [hends, not_set_of_endsList hends]
  · cases t.isKeyword "SET" <;> simp [hends]

/-- The last keyword that opens or ends a list decides. -/
theorem assigningAfter_eq_false_iff {assigning : Bool} {ts : List Token} :
    assigningAfter assigning ts = false ↔
      (∃ front t rest, ts = front ++ t :: rest ∧ endsList t = true ∧
        ∀ u ∈ rest, u.isKeyword "SET" = false) ∨
      assigning = false ∧ ∀ u ∈ ts, u.isKeyword "SET" = false := by
  induction ts generalizing assigning with
  | nil => simp [assigningAfter]
  | cons v ts ih =>
    change assigningAfter (assigningBehind assigning v) ts = false ↔ _
    rw [ih, assigningBehind_eq_false_iff, List.forall_mem_cons]
    constructor
    · rintro (⟨front, t, rest, rfl, ht, hrest⟩ | ⟨hends | ⟨hfalse, hset⟩, hall⟩)
      · exact Or.inl ⟨v :: front, t, rest, rfl, ht, hrest⟩
      · exact Or.inl ⟨[], v, ts, rfl, hends, hall⟩
      · exact Or.inr ⟨hfalse, hset, hall⟩
    · rintro (⟨front, t, rest, hsplit, ht, hrest⟩ | ⟨hfalse, hset, hall⟩)
      · cases front with
        | nil =>
          obtain ⟨rfl, rfl⟩ := List.cons.inj hsplit
          exact Or.inr ⟨Or.inl ht, hrest⟩
        | cons w front =>
          obtain ⟨rfl, rfl⟩ := List.cons.inj hsplit
          exact Or.inl ⟨front, t, rest, rfl, ht, hrest⟩
      · exact Or.inr ⟨Or.inr ⟨hfalse, hset⟩, hall⟩

/-- Whether the token at place `i` satisfies `p` and stands outside brackets. -/
def outermost (p : Token → Bool) (ts : List Token) (i : Nat) : Bool :=
  ts[i]?.any p && bracketDepth (ts.take i) == 0

/-- Whether what comes behind the tokens `before` of a statement stands in its list of
assignments: outside brackets, behind the first SET outside brackets, and before the
first WHERE or FROM outside brackets that follows it. -/
def Assigned (before : List Token) : Prop :=
  bracketDepth before = 0 ∧
    ∃ first < before.length, outermost (·.isKeyword "SET") before first = true ∧
      (∀ i < first, outermost (·.isKeyword "SET") before i = false) ∧
      ∀ i < before.length, first < i → outermost endsList before i = false

instance (before : List Token) : Decidable (Assigned before) :=
  inferInstanceAs (Decidable (_ ∧ _))

/-- In a list of assignments, only a WHERE or FROM in brackets can make the rule look for
comparisons. -/
theorem Assigned.assigningAfter_eq_false_iff {before : List Token} (h : Assigned before) :
    assigningAfter false before = false ↔
      ∃ front t rest, before = front ++ t :: rest ∧ endsList t = true ∧ 0 < bracketDepth front ∧
        ∀ u ∈ rest, u.isKeyword "SET" = false := by
  obtain ⟨-, first, hlt, hset, -, hends⟩ := h
  obtain ⟨hset, -⟩ := Bool.and_eq_true_iff.mp hset
  rw [List.getElem?_eq_getElem hlt, Option.any_some] at hset
  rw [Null.assigningAfter_eq_false_iff]
  constructor
  · rintro (⟨front, t, rest, rfl, ht, hrest⟩ | ⟨-, hall⟩)
    · have hfirst : first < front.length := by
        by_contra hle
        rw [List.getElem_append_right (by omega)] at hset
        rcases List.mem_cons.mp (List.getElem_mem (l := t :: rest) _) with heq | hmem
        · rw [heq, not_set_of_endsList ht] at hset
          cases hset
        · rw [hrest _ hmem] at hset
          cases hset
      refine ⟨front, t, rest, rfl, ht, ?_, hrest⟩
      have hinside := hends front.length (by simp) hfirst
      simp only [outermost, List.getElem?_append_right (Nat.le_refl _), Nat.sub_self,
        List.getElem?_cons_zero, Option.any_some, ht, List.take_left', Bool.true_and,
        beq_eq_false_iff_ne] at hinside
      omega
    · rw [hall _ (List.getElem_mem hlt)] at hset
      cases hset
  · rintro ⟨front, t, rest, hsplit, ht, -, hrest⟩
    exact Or.inl ⟨front, t, rest, hsplit, ht, hrest⟩

end Null

section Document

variable {text : List Char} {s s' : Statement} {t u : Token}

theorem token_eq_of_range_eq (ht : t ∈ tokenize text) (hu : u ∈ tokenize text)
    (h : t.range = u.range) : t = u := by
  have hnodup : ((tokenize text).map (·.range.start)).Nodup := by
    rw [List.Nodup, List.pairwise_map]
    apply (pairwise_tokenize text).imp
    intro a b hlt heq
    rw [heq] at hlt
    exact Position.lt_irrefl _ hlt.1
  exact List.inj_on_of_nodup_map hnodup ht hu (congrArg Range.start h)

theorem nodup_tokenize (text : List Char) : (tokenize text).Nodup := by
  apply (pairwise_tokenize text).imp
  rintro a b hlt rfl
  exact Position.lt_irrefl _ hlt.1

theorem statement_eq_of_mem (hs : s ∈ (Document.parse text).statements)
    (hs' : s' ∈ (Document.parse text).statements) (ht : t ∈ s.tokens) (ht' : t ∈ s'.tokens) :
    s = s' := by
  have hapart : ∀ a ∈ (Document.parse text).statements, ∀ b ∈ (Document.parse text).statements,
      t ∈ a.tokens → t ∈ b.tokens → ¬a.tokenSpan.stop < b.tokenSpan.start := by
    intro a ha b hb hta htb hlt
    rw [(exists_segment_of_mem ha).2] at hta
    rw [(exists_segment_of_mem hb).2] at htb
    have hnodup := nodup_tokenize text
    rw [← List.take_append_drop a.tokenSpan.stop (tokenize text)] at hnodup
    apply List.disjoint_of_nodup_append hnodup (mem_take_of_mem_tokensAt hta)
    exact List.drop_subset_drop_left _ (Nat.le_of_lt hlt) (mem_drop_of_mem_tokensAt htb)
  have hsymm : Std.Symm fun a b : Statement =>
      a.tokenSpan.stop < b.tokenSpan.start ∨ b.tokenSpan.stop < a.tokenSpan.start :=
    ⟨fun _ _ => Or.symm⟩
  have hpairwise : (Document.parse text).statements.Pairwise fun a b =>
      a.tokenSpan.stop < b.tokenSpan.start ∨ b.tokenSpan.stop < a.tokenSpan.start :=
    (pairwise_tokenSpan text).imp Or.inl
  by_contra hne
  rcases hpairwise.forall hs hs' hne with hlt | hlt
  · exact hapart s hs s' hs' ht ht' hlt
  · exact hapart s' hs' s hs ht' ht hlt

theorem exists_comparison_iff (hs : s ∈ (Document.parse text).statements)
    {before rest : List Token} {sign : Token} (hsplit : s.tokens = before ++ sign :: rest) :
    (∃ f ∈ Null.comparisons (Document.parse text), f.range = sign.range) ↔
      (Null.finding? sign rest).isSome = true ∧ Null.assigningAfter false before = false := by
  have hsign : sign ∈ s.tokens := by rw [hsplit]; simp
  constructor
  · rintro ⟨f, hf, hrange⟩
    obtain ⟨s', hs', hf⟩ := List.mem_flatMap.mp hf
    obtain ⟨before', t, rest', hsplit', hfinding, hafter⟩ := Null.mem_findingsFrom_iff.mp hf
    have ht : t ∈ s'.tokens := by rw [hsplit']; simp
    obtain rfl : t = sign := by
      apply token_eq_of_range_eq (mem_tokenize_of_statement hs' ht)
        (mem_tokenize_of_statement hs hsign)
      obtain ⟨_, -, -, rfl⟩ := exists_of_finding? hfinding
      exact hrange
    obtain rfl := statement_eq_of_mem hs hs' hsign ht
    have hnodup : s.tokens.Nodup := by
      rw [(exists_segment_of_mem hs).2]
      exact ((List.drop_sublist _ _).trans (List.take_sublist _ _)).nodup (nodup_tokenize text)
    rw [hsplit, List.nodup_middle, List.nodup_cons, List.mem_append, not_or] at hnodup
    obtain ⟨rfl, -, rfl⟩ := (List.append_cons_inj_of_notMem hnodup.1.1 hnodup.1.2).mp
      (hsplit.symm.trans hsplit')
    exact ⟨Option.isSome_of_mem hfinding, hafter⟩
  · rintro ⟨hfinding, hafter⟩
    obtain ⟨f, hf⟩ := Option.isSome_iff_exists.mp hfinding
    refine ⟨f, List.mem_flatMap_of_mem hs ?_, ?_⟩
    · exact Null.mem_findingsFrom_iff.mpr ⟨before, sign, rest, hsplit, hf, hafter⟩
    · obtain ⟨_, -, -, rfl⟩ := exists_of_finding? hf
      rfl

end Document

/-- The assignments that are reported. An equality sign in the list of assignments of a
statement is reported as a comparison with NULL if and only if NULL follows it and a WHERE
or FROM in brackets comes before it, with no SET in between. So no assignment is reported
in a list without a subquery before it. -/
theorem assignment_reported_iff (text : List Char) {s : Statement}
    (hs : s ∈ (Document.parse text).statements) {before rest : List Token} {sign : Token}
    (hsplit : s.tokens = before ++ sign :: rest) (hsign : sign.isPunctuation "=" = true)
    (hassigned : Null.Assigned before) :
    (∃ f ∈ Check.isNull.findings (Document.parse text), f.range = sign.range) ↔
      (Finding.nextIf? (·.isKeyword "NULL") rest).isSome = true ∧
        ∃ front t list, before = front ++ t :: list ∧ Null.endsList t = true ∧
          0 < bracketDepth front ∧ ∀ u ∈ list, u.isKeyword "SET" = false := by
  have hfinding : (Null.finding? sign rest).isSome =
      (Finding.nextIf? (·.isKeyword "NULL") rest).isSome := by
    rw [Null.finding?, Null.instead?, if_pos hsign]
    cases Finding.nextIf? (·.isKeyword "NULL") rest <;> rfl
  rw [← hassigned.assigningAfter_eq_false_iff, ← hfinding]
  exact exists_comparison_iff hs hsplit

/-- The assignment of an UPDATE without a subquery is not reported. -/
theorem assignment_passed_over :
    let d := Document.parse "update t set a = null".toList
    ∃ s ∈ d.statements, ∃ before sign rest, s.tokens = before ++ sign :: rest ∧
      sign.isPunctuation "=" = true ∧ Null.Assigned before ∧
      ¬∃ f ∈ Check.isNull.findings d, f.range = sign.range := by
  intro d
  obtain ⟨s, hs, hsign, hassigned, hnone⟩ : ∃ s ∈ d.statements,
      s.tokens[8]?.any (·.isPunctuation "=") = true ∧ Null.Assigned (s.tokens.take 8) ∧
      ∀ t ∈ s.tokens.take 8, Null.endsList t = false := by
    decide +kernel
  obtain ⟨sign, hget, hsign⟩ := (Option.any_eq_true _ _).mp hsign
  obtain ⟨hlt, rfl⟩ := List.getElem?_eq_some_iff.mp hget
  have hsplit : s.tokens = s.tokens.take 8 ++ s.tokens[8] :: s.tokens.drop 9 := by
    rw [← List.drop_eq_getElem_cons hlt, List.take_append_drop]
  refine ⟨s, hs, _, _, _, hsplit, hsign, hassigned, ?_⟩
  rw [assignment_reported_iff _ hs hsplit hsign hassigned]
  rintro ⟨-, front, t, list, hbefore, hends, -⟩
  rw [hnone t (by rw [hbefore]; simp)] at hends
  cases hends

/-- The FROM of a subquery ends the list for the rule, and the assignment behind it is
reported. -/
theorem assignment_reported_subquery :
    let d := Document.parse "update t set a = (select x from u), b = null".toList
    ∃ s ∈ d.statements, s.kind = some "UPDATE".toList ∧
      Null.outermost (·.isPunctuation "=") s.tokens 23 = true ∧
      Null.Assigned (s.tokens.take 23) ∧
      ∃ f ∈ Check.isNull.findings d, s.tokens[23]?.map (·.range) = some f.range := by
  decide +kernel

end QueryLint
