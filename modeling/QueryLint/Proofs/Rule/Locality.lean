import QueryLint.Proofs.Rule.Piecewise

/-!
# Statement by statement

Behind a separator a text starts anew: its tokens are those of the text behind it,
shifted to where that text stands (`tokenize_eq_append`), and its pieces are the pieces on
either side (`pieces_of_isSeparator`). So what a rule of statements finds in a text
is what it finds up to a separator and, shifted, what it finds behind it, and no
range that it reports or edits reaches over the separator.
-/
namespace QueryLint

theorem moves_shift (p : Position) (offset : Nat) :
    Token.Moves (Range.shift p) (Token.shift p offset) where
  kind _ := rfl
  toLexeme _ _ := rfl
  range _ _ := rfl
  cover := Range.map_cover (fun _ _ => p.shift_le_shift) fun _ _ => p.shift_le_shift

theorem keepsLines_shift (p : Position) : Select.KeepsLines (Range.shift p) := by
  intro r s
  simp only [Range.shift, Range.map, Position.line_shift]
  omega

/-- Brackets that stand before the last separator are closed. -/
theorem bracketDepth_take {ts : List Token} {i : Nat} (hle : i ≤ ts.length) :
    bracketDepth (ts.take i) = bracketDepth (tokensAt ts ⟨segmentStart ts i, i⟩) := by
  induction i with
  | zero => rfl
  | succ i ih =>
    have hi : ts[i]? = some ts[i] := List.getElem?_eq_getElem hle
    have hdrop : ts.drop i = ts[i] :: ts.drop (i + 1) := List.drop_eq_getElem_cons hle
    rw [List.take_add_one, hi, Option.toList_some, bracketDepth_append, ih (Nat.le_of_lt hle)]
    by_cases hsep : isSeparator ts i = true
    · rw [segmentStart_succ_of_separator hsep, tokensAt_self]
      rw [isSeparator_of_drop hdrop] at hsep
      obtain ⟨hsemicolon, hdepth⟩ := Lexeme.separates_iff.mp hsep
      rw [hsemicolon, hdepth]
      rfl
    · rw [segmentStart_succ_of_not hsep, tokensAt_succ (segmentStart_le ts i) hi,
        bracketDepth_append]

theorem pieces_append_separator {separator : Token} {depth : Nat} {ts : List Token}
    (h : separator.separates (ts.foldl (fun depth t => t.depthAfter depth) depth) = true)
    (more : List Token) :
    pieces depth (ts ++ separator :: more) = pieces depth ts ++ pieces 0 more := by
  induction ts generalizing depth with
  | nil => exact pieces_of_separates h more
  | cons t ts ih =>
    have hrest := ih h
    rw [List.cons_append]
    by_cases ht : t.separates depth = true
    · obtain ⟨hsemicolon, rfl⟩ := Lexeme.separates_iff.mp ht
      have hdepth : t.depthAfter 0 = 0 := by
        rw [hsemicolon]
        rfl
      dsimp only at hrest
      rw [hdepth] at hrest
      rw [pieces_of_separates ht, pieces_of_separates ht, hrest]
      rfl
    · rw [pieces_of_not ht, pieces_of_not ht, hrest]
      obtain ⟨piece, rest, hcons⟩ :=
        List.exists_cons_of_ne_nil (pieces_ne_nil (t.depthAfter depth) ts)
      rw [hcons]
      rfl

theorem pieces_of_isSeparator {before after : List Token} {t : Token}
    (h : isSeparator (before ++ t :: after) before.length = true) (more : List Token) :
    pieces 0 (before ++ t :: more) = pieces 0 before ++ pieces 0 more := by
  apply pieces_append_separator
  rw [← bracketDepth_eq_foldl]
  have htake : (before ++ t :: after).take before.length = before := List.take_left
  have hdrop : (before ++ t :: after).drop before.length = t :: after := List.drop_left
  have hle : before.length ≤ (before ++ t :: after).length := by
    rw [List.length_append]
    omega
  rwa [isSeparator_of_drop hdrop, ← bracketDepth_take hle, htake] at h

/-- Up to a semicolon a text reads alone, and behind it another one starts. -/
theorem exists_tokens_of_semicolon {front behind : List Char} {i : Nat} {t : Token}
    (ht : (tokenize (front ++ ';' :: behind))[i]? = some t)
    (hstart : t.span.start = Text.byteLength front) (hsemicolon : t.toLexeme = Lexeme.semicolon) :
    ∃ before, before.length = i ∧ tokenize (front ++ [';']) = before ++ [t] ∧
      tokenize (front ++ ';' :: behind) =
        before ++ t :: (tokenize behind).map (Token.shift t.range.stop t.span.stop) := by
  obtain ⟨before, after, hlexemes, hlength, hfront, hrest, hplaced⟩ :=
    exists_lexemes_of_token ht hstart
  rw [hsemicolon] at hlexemes hplaced hrest
  have hbehind : Lexeme.join after = behind := (List.cons.inj hrest).2
  have hsplit : lexemes (front ++ ';' :: behind) = (before ++ [Lexeme.semicolon]) ++ after := by
    rw [hlexemes, List.append_cons]
  have hjoin : Lexeme.join (before ++ [Lexeme.semicolon]) = front ++ [';'] := by
    rw [Lexeme.join_concat, hfront]
    rfl
  have hposition : Position.origin.advanceAll (before ++ [Lexeme.semicolon]) = t.range.stop := by
    rw [Position.advanceAll_concat, hplaced]
    rfl
  have hoffset : Text.byteLength (front ++ [';']) = t.span.stop := by
    rw [Text.byteLength_append, hplaced]
    rfl
  have hleft : tokenize (front ++ [';']) = place Position.origin 0 before ++ [t] := by
    rw [← hjoin, tokenize_join_left hsplit, place_append, hfront, Nat.zero_add, place_cons,
      ← hplaced]
    rfl
  refine ⟨place Position.origin 0 before, ?_, hleft, ?_⟩
  · rw [length_place, hlength]
  · rw [tokenize_eq_append hsplit, hposition, hjoin, hoffset, hbehind, hleft, List.append_assoc,
      List.singleton_append]

namespace Null

/-- The comparisons with NULL in the tokens of a statement, if NULL is looked for also
among the tokens `behind` the statement. -/
def findingsBefore (behind : List Token) (assigning : Bool) : List Token → List Finding
  | [] => []
  | t :: ts =>
    if t.isKeyword "SET" then findingsBefore behind true ts
    else if t.isKeyword "WHERE" ∨ t.isKeyword "FROM" then findingsBefore behind false ts
    else if assigning then findingsBefore behind assigning ts
    else (finding? t (ts ++ behind)).toList ++ findingsBefore behind assigning ts

theorem findingsBefore_eq {behind : List Token}
    (h : ∀ t ∈ behind.head?, t.toLexeme = Lexeme.semicolon) (assigning : Bool) (ts : List Token) :
    findingsBefore behind assigning ts = findingsFrom assigning ts := by
  have hlook : ∀ t ts, finding? t (ts ++ behind) = finding? t ts := by
    intro t ts
    cases behind with
    | nil => rw [List.append_nil]
    | cons semicolon more =>
      exact finding?_looks.look_change (.append (h semicolon rfl) more) t ts
  induction ts generalizing assigning with
  | nil => rfl
  | cons t ts ih => simp only [findingsBefore, findingsFrom, hlook, ih]

end Null

theorem stop_of_mem_segments {ts : List Token} {span : Span} (h : span ∈ segments ts) :
    isSeparator ts span.stop = true ∨ span.stop = ts.length := by
  revert h
  refine segmentsFrom_induction
    (motive := fun _ _ spans => span ∈ spans → isSeparator ts span.stop = true ∨
      span.stop = ts.length) ts ?_ ?_ ?_ 0 0 (Nat.zero_le _)
  · intro start hspan
    obtain rfl := List.mem_singleton.mp hspan
    exact Or.inr rfl
  · intro start i spans _ hsep ih hspan
    rcases List.mem_cons.mp hspan with rfl | hspan
    · exact Or.inl hsep
    · exact ih hspan
  · intro start i spans _ _ ih
    exact ih

/-- It makes no difference if NULL is looked for in the rest of the document. -/
theorem comparisons_eq_findingsBefore (text : List Char) :
    Null.comparisons (Document.parse text) =
      (Document.parse text).statements.flatMap fun s =>
        Null.findingsBefore ((tokenize text).drop s.tokenSpan.stop) false s.tokens := by
  unfold Null.comparisons
  apply List.flatMap_congr
  intro s hs
  rw [Null.findingsBefore_eq]
  intro t ht
  obtain ⟨rest, hdrop⟩ := List.head?_eq_some_iff.mp ht
  have hspan := List.mem_of_mem_filter (exists_segment_of_mem hs).1
  rcases stop_of_mem_segments hspan with hsep | hlength
  · rw [isSeparator_of_drop hdrop] at hsep
    exact (Lexeme.separates_iff.mp hsep).1
  · rw [hlength, List.drop_length] at hdrop
    exact absurd hdrop (List.cons_ne_nil t rest).symm

theorem apart_of_endsIn {before after : List Token} {t : Token} {x : Finding}
    (h : (before ++ t :: after).Pairwise fun s t => s.range.stop ≤ t.range.start)
    (hx : x.EndsIn before ∨ x.EndsIn after) :
    x.range.stop ≤ t.range.start ∨ t.range.stop ≤ x.range.start := by
  obtain ⟨-, hafter, hbefore⟩ := List.pairwise_append.mp h
  rcases hx with hx | hx
  · obtain ⟨u, hu, hstop⟩ := hx.stop
    exact Or.inl (hstop ▸ hbefore u hu t List.mem_cons_self)
  · obtain ⟨u, hu, hstart⟩ := hx.start
    exact Or.inr (hstart ▸ List.rel_of_pairwise_cons hafter hu)

/-- A rule that works statement by statement finds, in a text with a separator, what
it finds up to the separator and then what it finds in the text behind it, shifted to
where that text stands. What it finds, and edits, lies on one side of the separator;
and comparisons with NULL are the same if NULL is looked for up to the end of the
document. -/
theorem diagnostics_of_separator (front behind : List Char) (i : Nat) (t : Token)
    (ht : (tokenize (front ++ ';' :: behind))[i]? = some t)
    (hstart : t.span.start = Text.byteLength front)
    (hsep : isSeparator (tokenize (front ++ ';' :: behind)) i = true) (r : Rule)
    (hr : r.check ∈ [Check.isNull, .selectTrailingComma, .selectModifiers, .distinctParentheses]) :
    let d := Document.parse (front ++ ';' :: behind)
    r.diagnostics d =
        r.diagnostics (Document.parse (front ++ [';'])) ++
          (r.diagnostics (Document.parse behind)).map
            (·.mapRange (Range.shift t.range.stop)) ∧
      (∀ x ∈ r.diagnostics d,
        (x.range.stop ≤ t.range.start ∨ t.range.stop ≤ x.range.start) ∧
          ∀ fix ∈ x.fix, ∀ e ∈ fix.edits, e.range = x.range) ∧
      Null.comparisons d = d.statements.flatMap fun s =>
        Null.findingsBefore (d.tokens.drop s.tokenSpan.stop) false s.tokens := by
  intro d
  have hlocal : r.check.isLocal = true := by
    simp only [List.mem_cons, List.not_mem_nil, or_false] at hr
    rcases hr with hr | hr | hr | hr <;> rw [hr] <;> rfl
  have hsemicolon : t.toLexeme = Lexeme.semicolon := by
    obtain ⟨hlt, rfl⟩ := List.getElem?_eq_some_iff.mp ht
    rw [isSeparator_of_drop (List.drop_eq_getElem_cons hlt)] at hsep
    exact (Lexeme.separates_iff.mp hsep).1
  obtain ⟨before, rfl, hfront, htext⟩ := exists_tokens_of_semicolon ht hstart hsemicolon
  rw [htext] at hsep
  -- On the left nothing is found behind the semicolon; on the right all is shifted.
  have hleft := pieces_of_isSeparator hsep []
  have hboth := pieces_of_isSeparator hsep
    ((tokenize behind).map (Token.shift t.range.stop t.span.stop))
  have hadmits : r.check.Admits (Range.shift t.range.stop) := fun _ => keepsLines_shift _
  have hshifted := flatMap_pieces_map hadmits (moves_shift t.range.stop t.span.stop)
    (tokenize behind)
  refine ⟨?_, ?_, comparisons_eq_findingsBefore _⟩
  · simp only [d, diagnostics_eq_flatMap hlocal, hfront, htext, hleft, hboth, List.flatMap_append,
      hshifted]
    split_ifs
    · simp only [pieces, List.flatMap_cons, List.flatMap_nil, Check.findingsIn_nil, List.append_nil,
        List.map_append, List.map_map]
      rfl
    · rfl
  · intro x hx
    simp only [d, diagnostics_eq_flatMap hlocal, htext, hboth, List.flatMap_append] at hx
    split_ifs at hx
    · obtain ⟨y, hy, rfl⟩ := List.mem_map.mp hx
      have hpairwise := pairwise_place Position.origin 0 (lexemes (front ++ ';' :: behind))
      rw [← tokenize, htext] at hpairwise
      have hends := (List.mem_append.mp hy).imp endsIn_of_mem_pieces endsIn_of_mem_pieces
      refine ⟨apart_of_endsIn hpairwise hends, ?_⟩
      rcases hends with hends | hends
      · exact hends.edits
      · exact hends.edits
    · simp at hx

/-- A list of assignments before the separator, and on the same line behind it and on
the next line comparisons. -/
theorem diagnostics_of_separator_set :
    let front := "SET a = NULL".toList
    let behind := " SELECT a = NULL,\n b <> NULL".toList
    let t : Token := ⟨Lexeme.semicolon, ⟨⟨0, 12⟩, ⟨0, 13⟩⟩, ⟨12, 13⟩⟩
    let r : Rule := ⟨.isNull, some .warning, 0⟩
    let d := Document.parse (front ++ ';' :: behind)
    (tokenize (front ++ ';' :: behind))[7]? = some t ∧
      isSeparator (tokenize (front ++ ';' :: behind)) 7 = true ∧
      (r.diagnostics (Document.parse behind)).map (·.range) =
        [⟨⟨0, 10⟩, ⟨0, 11⟩⟩, ⟨⟨1, 3⟩, ⟨1, 5⟩⟩] ∧
      (r.diagnostics d).map (·.range) = [⟨⟨0, 23⟩, ⟨0, 24⟩⟩, ⟨⟨1, 3⟩, ⟨1, 5⟩⟩] ∧
      r.diagnostics d = r.diagnostics (Document.parse (front ++ [';'])) ++
        (r.diagnostics (Document.parse behind)).map (·.mapRange (Range.shift t.range.stop)) := by
  intro front behind t r d
  have ht : (tokenize (front ++ ';' :: behind))[7]? = some t := by decide +kernel
  have hsep : isSeparator (tokenize (front ++ ';' :: behind)) 7 = true := by decide +kernel
  have hbehind : (r.diagnostics (Document.parse behind)).map (·.range) =
      [⟨⟨0, 10⟩, ⟨0, 11⟩⟩, ⟨⟨1, 3⟩, ⟨1, 5⟩⟩] := by decide +kernel
  have hfound : (r.diagnostics d).map (·.range) =
      [⟨⟨0, 23⟩, ⟨0, 24⟩⟩, ⟨⟨1, 3⟩, ⟨1, 5⟩⟩] := by decide +kernel
  refine ⟨ht, hsep, hbehind, hfound, ?_⟩
  exact (diagnostics_of_separator front behind 7 t ht rfl hsep r List.mem_cons_self).1

end QueryLint
