import QueryLint.Proofs.Rule.Piecewise

/-!
# Layout makes no difference

The significant tokens of a text stand in order, so each of them can be told by
its ordinal, and so can what a rule finds: by the ordinals of the tokens that its
range starts and stops with (`Range.ordinals?`). Moving every range to these
ordinals makes texts alike that have the same significant tokens, and rules that
look from one significant token to the next follow that move. So they find the
same in both, at the same ordinals (`layout_irrelevant`).
-/
namespace QueryLint

/-- The ordinals, among the significant tokens of a text, of the token that a range
starts with and of the token that it stops with. -/
def Range.ordinals? (text : List Char) (r : Range) : Option (Nat × Nat) := do
  let first ← (Token.significant (tokenize text)).findIdx? (·.range.start == r.start)
  let last ← (Token.significant (tokenize text)).findIdx? (·.range.stop == r.stop)
  return (first, last)

/-- How many tokens have an end, start or stop, before a position. -/
def Token.rank (ending : Token → Position) (ts : List Token) (p : Position) : Position :=
  ⟨0, ts.countP fun t => ending t < p⟩

section Rank

variable {ending : Token → Position} {ts : List Token}

theorem rank_le_rank {p q : Position} (h : p ≤ q) :
    Token.rank ending ts p ≤ Token.rank ending ts q := by
  refine Or.inr ⟨rfl, ?_⟩
  apply List.countP_mono_left
  intro t _ ht
  have hlt : ending t < p := of_decide_eq_true ht
  exact decide_eq_true (Position.lt_of_lt_of_le hlt h)

/-- In order, the rank of a token is the number of tokens before it. -/
theorem rank_append {before after : List Token} {t : Token}
    (h : (before ++ t :: after).Pairwise fun s t => ending s < ending t) :
    Token.rank ending (before ++ t :: after) (ending t) = ⟨0, before.length⟩ := by
  obtain ⟨-, hafter, hbefore⟩ := List.pairwise_append.mp h
  have hall : before.countP (fun s => ending s < ending t) = before.length := by
    rw [List.countP_eq_length]
    intro s hs
    exact decide_eq_true (hbefore s hs t List.mem_cons_self)
  have hnone : (t :: after).countP (fun s => ending s < ending t) = 0 := by
    rw [List.countP_eq_zero]
    intro s hs
    have hle : ending t ≤ ending s := by
      rcases List.mem_cons.mp hs with rfl | hs
      · exact Position.le_refl _
      · exact Position.le_of_lt (List.rel_of_pairwise_cons hafter hs)
    simpa using Position.not_lt.mpr hle
  rw [Token.rank, List.countP_append, hall, hnone, Nat.add_zero]

theorem findIdx?_eq_rank {t : Token} (h : ts.Pairwise fun s t => ending s < ending t)
    (ht : t ∈ ts) :
    ts.findIdx? (fun s => ending s == ending t) =
      some (Token.rank ending ts (ending t)).character := by
  obtain ⟨before, after, rfl⟩ := List.append_of_mem ht
  have hnone : before.findIdx? (fun s => ending s == ending t) = none := by
    rw [List.findIdx?_eq_none_iff]
    intro s hs
    have hlt := (List.pairwise_append.mp h).2.2 s hs t List.mem_cons_self
    apply beq_false_of_ne
    intro heq
    exact Position.lt_irrefl _ (heq ▸ hlt)
  rw [rank_append h, List.findIdx?_append, hnone, List.findIdx?_cons]
  simp

end Rank

theorem pairwise_tokenize (text : List Char) :
    (tokenize text).Pairwise fun s t =>
      s.range.start < t.range.start ∧ s.range.stop < t.range.stop := by
  apply (pairwise_place Position.origin 0 (lexemes text)).imp_of_mem
  intro s t hs ht hle
  change s ∈ tokenize text at hs
  change t ∈ tokenize text at ht
  have hstart := start_lt_stop_of_mem_tokenize hs
  have hstop := start_lt_stop_of_mem_tokenize ht
  simp only [Position.lt_def, Position.le_def] at *
  omega

theorem pairwise_significant (text : List Char) :
    (Token.significant (tokenize text)).Pairwise fun s t =>
      s.range.start < t.range.start ∧ s.range.stop < t.range.stop :=
  (pairwise_tokenize text).filter _

/-- A range moved to the ordinals of its ends among some tokens. -/
def Range.toRanks (ts : List Token) (r : Range) : Range :=
  r.map (Token.rank (·.range.start) ts) (Token.rank (·.range.stop) ts)

def Token.toRanks (ts : List Token) (t : Token) : Token :=
  { t with range := t.range.toRanks ts, span := ⟨0, 0⟩ }

theorem moves_toRanks (ts : List Token) : Token.Moves (Range.toRanks ts) (Token.toRanks ts) where
  kind _ := rfl
  toLexeme _ _ := rfl
  range _ _ := rfl
  cover := Range.map_cover (fun _ _ => rank_le_rank) fun _ _ => rank_le_rank

/-- A lexeme as a token that stands at its ordinal. -/
def Lexeme.atRank (l : Lexeme) (i : Nat) : Token :=
  { l with range := ⟨⟨0, i⟩, ⟨0, i⟩⟩, span := ⟨0, 0⟩ }

theorem map_toRanks {ts before rest : List Token}
    (h : ts.Pairwise fun s t => s.range.start < t.range.start ∧ s.range.stop < t.range.stop)
    (hts : ts = before ++ rest) :
    rest.map (Token.toRanks ts) =
      ((rest.map Token.toLexeme).zipIdx before.length).map fun (l, i) => l.atRank i := by
  induction rest generalizing before with
  | nil => rfl
  | cons t rest ih =>
    have hstart : Token.rank (·.range.start) ts t.range.start = ⟨0, before.length⟩ := by
      rw [hts] at h ⊢
      exact rank_append (h.imp And.left)
    have hstop : Token.rank (·.range.stop) ts t.range.stop = ⟨0, before.length⟩ := by
      rw [hts] at h ⊢
      exact rank_append (h.imp And.right)
    have hhead : Token.toRanks ts t = t.toLexeme.atRank before.length := by
      simp only [Token.toRanks, Range.toRanks, Range.map, hstart, hstop, Lexeme.atRank]
    have hrest := ih (hts.trans (List.append_cons before t rest))
    rw [List.length_append, List.length_singleton] at hrest
    rw [List.map_cons, List.map_cons, List.zipIdx_cons, List.map_cons, hhead, hrest]

theorem flatMap_pieces_significant (check : Check) (ts : List Token) :
    (pieces 0 (Token.significant ts)).flatMap check.findingsIn =
      (pieces 0 ts).flatMap check.findingsIn := by
  rw [pieces_significant, List.flatMap_map]
  simp only [Check.findingsIn_significant]

/-- What a check finds, moved to ordinals, depends on the significant lexemes. -/
theorem map_toRanks_flatMap {check : Check} (hcheck : check ≠ .selectModifiers)
    (text : List Char) :
    ((pieces 0 (tokenize text)).flatMap check.findingsIn).map
        (·.mapRange (Range.toRanks (Token.significant (tokenize text)))) =
      (pieces 0 ((((Token.significant (tokenize text)).map Token.toLexeme).zipIdx).map
        fun (l, i) => l.atRank i)).flatMap check.findingsIn := by
  have hadmits : check.Admits (Range.toRanks (Token.significant (tokenize text))) :=
    fun h => absurd h hcheck
  have hmoves := moves_toRanks (Token.significant (tokenize text))
  have hranks := map_toRanks (pairwise_significant text) (List.nil_append _).symm
  rw [List.length_nil] at hranks
  rw [← hranks, flatMap_pieces_map hadmits hmoves, flatMap_pieces_significant]

theorem endsIn_of_mem_flatMap {check : Check} {ts : List Token} {x : Finding}
    (h : x ∈ (pieces 0 ts).flatMap check.findingsIn) : x.EndsIn (Token.significant ts) := by
  rw [← flatMap_pieces_significant] at h
  exact endsIn_of_mem_pieces h

/-- A fix with ordinals in place of positions: its label, and where it puts which
texts. -/
structure Fix.Outline where
  label : String
  edits : List (Option (Nat × Nat) × String)
  deriving DecidableEq

/-- A diagnostic with ordinals in place of positions. -/
structure Diagnostic.Outline where
  place : Option (Nat × Nat)
  fix : Option Fix.Outline
  deriving DecidableEq

def Diagnostic.outline (text : List Char) (x : Diagnostic) : Diagnostic.Outline where
  place := x.range.ordinals? text
  fix := x.fix.map fun fix =>
    ⟨fix.label, fix.edits.map fun e => (e.range.ordinals? text, e.newText)⟩

theorem ordinals?_eq_toRanks {text : List Char} {x : Finding}
    (h : x.EndsIn (Token.significant (tokenize text))) :
    x.range.ordinals? text =
      some ((x.range.toRanks (Token.significant (tokenize text))).start.character,
        (x.range.toRanks (Token.significant (tokenize text))).stop.character) := by
  obtain ⟨t, ht, hstart⟩ := h.start
  obtain ⟨u, hu, hstop⟩ := h.stop
  have hfirst := findIdx?_eq_rank ((pairwise_significant text).imp And.left) ht
  have hlast := findIdx?_eq_rank ((pairwise_significant text).imp And.right) hu
  unfold Range.ordinals?
  rw [← hstart, ← hstop, hfirst, hlast]
  simp only [Range.toRanks, Range.map, ← hstart, ← hstop]
  rfl

/-- The outline of a finding that has been moved to ordinals already. -/
def Finding.outline (x : Finding) : Diagnostic.Outline where
  place := some (x.range.start.character, x.range.stop.character)
  fix := x.fix.map fun fix =>
    ⟨fix.label, fix.edits.map fun e =>
      (some (e.range.start.character, e.range.stop.character), e.newText)⟩

theorem outline_diagnose {text : List Char} {x : Finding}
    (h : x.EndsIn (Token.significant (tokenize text))) (r : Rule) :
    (r.diagnose x).outline text =
      (x.mapRange (Range.toRanks (Token.significant (tokenize text)))).outline := by
  have hrange := ordinals?_eq_toRanks h
  simp only [Diagnostic.outline, Finding.outline, Finding.mapRange, Option.map_map, Rule.diagnose,
    hrange]
  congr 1
  apply Option.map_congr
  intro fix hfix
  simp only [Function.comp_apply, Fix.mapRange, List.map_map]
  congr 1
  apply List.map_congr_left
  intro e he
  simp only [Function.comp_apply, Edit.mapRange, h.edits fix hfix e he, hrange]

/-- Texts with the same significant tokens, whatever stands between them, show the
same comparisons with NULL, commas before FROM and parentheses behind DISTINCT: as
many, at the same ordinals, and with fixes that say and write the same. What is
found always has ordinals, and a fix edits just what is found. -/
theorem layout_irrelevant (a b : List Char)
    (h : (Token.significant (tokenize a)).map Token.toLexeme =
      (Token.significant (tokenize b)).map Token.toLexeme)
    (r : Rule)
    (hr : r.check = .isNull ∨ r.check = .selectTrailingComma ∨ r.check = .distinctParentheses) :
    (r.diagnostics (Document.parse a)).map (·.outline a) =
        (r.diagnostics (Document.parse b)).map (·.outline b) ∧
      ∀ x ∈ r.diagnostics (Document.parse a),
        (x.range.ordinals? a).isSome = true ∧
          ∀ fix ∈ x.fix, ∀ e ∈ fix.edits, e.range = x.range := by
  have hlocal : r.check.isLocal = true := by
    rcases hr with hr | hr | hr <;> rw [hr] <;> rfl
  have hcheck : r.check ≠ .selectModifiers := by
    rcases hr with hr | hr | hr <;> rw [hr] <;> decide
  have houtline : ∀ text, (r.diagnostics (Document.parse text)).map (·.outline text) =
      if r.isEnabled then
        ((pieces 0 ((((Token.significant (tokenize text)).map Token.toLexeme).zipIdx).map
          fun (l, i) => l.atRank i)).flatMap r.check.findingsIn).map Finding.outline
      else [] := by
    intro text
    rw [diagnostics_eq_flatMap hlocal, ← map_toRanks_flatMap hcheck]
    split_ifs
    · rw [List.map_map, List.map_map]
      apply List.map_congr_left
      intro x hx
      exact outline_diagnose (endsIn_of_mem_flatMap hx) r
    · rfl
  refine ⟨?_, ?_⟩
  · rw [houtline a, houtline b, h]
  · intro x hx
    rw [diagnostics_eq_flatMap hlocal] at hx
    split_ifs at hx
    · obtain ⟨y, hy, rfl⟩ := List.mem_map.mp hx
      have hends := endsIn_of_mem_flatMap hy
      refine ⟨?_, hends.edits⟩
      change (y.range.ordinals? a).isSome = true
      rw [ordinals?_eq_toRanks hends]
      rfl
    · simp at hx

/-- A comparison and a list of assignments, once on a line and once over several,
with a comment in the middle and a statement of a comment only in front. -/
theorem layout_irrelevant_comment :
    let r : Rule := ⟨.isNull, some .warning, 0⟩
    let a := "; SELECT a = NULL; UPDATE t SET a = NULL".toList
    let b := "-- c\n;SELECT a =\n# ; NULL\n  NULL;\tUPDATE t SET a = NULL\n".toList
    (Token.significant (tokenize a)).map Token.toLexeme =
        (Token.significant (tokenize b)).map Token.toLexeme ∧
      (r.diagnostics (Document.parse a)).map (·.outline a) =
        [⟨some (3, 3), some ⟨"Replace with IS", [(some (3, 3), "IS")]⟩⟩] ∧
      (r.diagnostics (Document.parse a)).map (·.outline a) =
        (r.diagnostics (Document.parse b)).map (·.outline b) := by
  intro r a b
  have h : (Token.significant (tokenize a)).map Token.toLexeme =
      (Token.significant (tokenize b)).map Token.toLexeme := by decide +kernel
  have hfound : (r.diagnostics (Document.parse a)).map (·.outline a) =
      [⟨some (3, 3), some ⟨"Replace with IS", [(some (3, 3), "IS")]⟩⟩] := by decide +kernel
  exact ⟨h, hfound, (layout_irrelevant a b h r (.inl rfl)).1⟩

end QueryLint
