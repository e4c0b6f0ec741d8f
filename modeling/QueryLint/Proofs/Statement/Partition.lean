import QueryLint.Document
import QueryLint.Proofs.Statement.Segments
import QueryLint.Proofs.Token.Tiling

/-!
# The partition of a document into statements

Consecutive tokens of a document cover one stretch of its text and one range of
positions, which their lexemes determine. With the account of segments this says
all about the statements of a document: which tokens each holds, how it is
numbered and found, what text it has, and that no token outside trivia and
separators is lost or counted twice.
-/
namespace QueryLint

namespace Position

theorem le_advanceAll (p : Position) (ls : List Lexeme) : p ≤ p.advanceAll ls := by
  induction ls generalizing p with
  | nil => exact le_refl p
  | cons l ls ih => exact le_trans (le_advance p l.chars) (ih (p.advance l.chars))

theorem lt_advanceAll (p : Position) {ls : List Lexeme} (hne : ls ≠ [])
    (h : ∀ l ∈ ls, l.chars ≠ []) : p < p.advanceAll ls := by
  obtain ⟨l, ls, rfl⟩ := List.exists_cons_of_ne_nil hne
  exact lt_of_lt_of_le (lt_advance p (h l List.mem_cons_self)) (le_advanceAll _ ls)

end Position

section Place

variable {p : Position} {offset : Nat} {ls : List Lexeme}

theorem length_place (p : Position) (offset : Nat) (ls : List Lexeme) :
    (place p offset ls).length = ls.length := by
  rw [← List.length_map Token.toLexeme, map_toLexeme_place]

theorem pairwise_place (p : Position) (offset : Nat) (ls : List Lexeme) :
    (place p offset ls).Pairwise fun s t => s.range.stop ≤ t.range.start := by
  induction ls generalizing p offset with
  | nil => exact List.Pairwise.nil
  | cons l ls ih =>
    rw [place_cons]
    refine List.Pairwise.cons ?_ (ih _ _)
    intro t ht
    obtain ⟨before, m, after, -, rfl⟩ := exists_of_mem_place ht
    exact Position.le_advanceAll _ before

/-- Consecutive tokens of a text are consecutive lexemes of it, placed behind
those before them. -/
theorem exists_place_of_tokenize {text : List Char} {before mid after : List Token}
    (h : tokenize text = before ++ mid ++ after) :
    ∃ ls ms ns, lexemes text = ls ++ ms ++ ns ∧
      mid = place (Position.origin.advanceAll ls) (Text.byteLength (Lexeme.join ls)) ms := by
  have hlexemes : lexemes text =
      before.map Token.toLexeme ++ mid.map Token.toLexeme ++ after.map Token.toLexeme := by
    rw [← List.map_append, ← List.map_append, ← h, tokenize, map_toLexeme_place]
  refine ⟨_, _, _, hlexemes, ?_⟩
  rw [tokenize, hlexemes, place_append, place_append, Nat.zero_add] at h
  obtain ⟨hfront, -⟩ := List.append_inj h (by simp [length_place])
  exact (List.append_inj hfront (by simp [length_place])).2.symm

theorem exists_ends_of_place (p : Position) (offset : Nat) (hne : ls ≠ []) :
    ∃ first last, (place p offset ls).head? = some first ∧
      (place p offset ls).getLast? = some last ∧ first.span.start = offset ∧
      first.range.start = p ∧ last.span.stop = offset + Text.byteLength (Lexeme.join ls) ∧
      last.range.stop = p.advanceAll ls := by
  have htokens : place p offset ls ≠ [] := by
    rw [← List.length_pos_iff, length_place, List.length_pos_iff]
    exact hne
  have hfirst := List.head?_eq_some_head htokens
  have hlast := List.getLast?_eq_some_getLast htokens
  obtain ⟨hstart, hstart'⟩ := start_of_head?_place hfirst
  obtain ⟨hstop, hstop'⟩ := stop_of_getLast?_place hlast
  exact ⟨_, _, hfirst, hlast, hstart, hstart', hstop, hstop'⟩

end Place

namespace Statement

variable {s : Statement} {p : Position} {offset : Nat} {ls : List Lexeme}

theorem span_of_place (h : s.tokens = place p offset ls) (hne : ls ≠ []) :
    s.span = ⟨offset, offset + Text.byteLength (Lexeme.join ls)⟩ := by
  obtain ⟨first, last, hfirst, hlast, hstart, -, hstop, -⟩ := exists_ends_of_place p offset hne
  rw [span, h, hfirst, hlast, Option.elim_some, Option.elim_some, hstart, hstop]

theorem range_of_place (h : s.tokens = place p offset ls) (hne : ls ≠ []) :
    s.range = ⟨p, p.advanceAll ls⟩ := by
  obtain ⟨first, last, hfirst, hlast, -, hstart, -, hstop⟩ := exists_ends_of_place p offset hne
  rw [range, h, hfirst, hlast, Option.elim_some, Option.elim_some, hstart, hstop,
    Range.between_of_le (p.le_advanceAll ls)]

end Statement

section Parse

variable {text : List Char} {s : Statement}

theorem statements_parse (text : List Char) :
    (Document.parse text).statements =
      (filledSegments (tokenize text)).zipIdx.map fun (span, id) =>
        segmentStatement (tokenize text) id span :=
  ofPieces_pieces (tokenize text)

theorem find?_id_zipIdx (ts : List Token) (spans : List Span) (id i : Nat) (hle : id ≤ i) :
    ((spans.zipIdx id).map fun (span, id) => segmentStatement ts id span).find? (·.id == i) =
      ((spans.zipIdx id).map fun (span, id) => segmentStatement ts id span)[i - id]? := by
  induction spans generalizing id with
  | nil => rfl
  | cons span spans ih =>
    rw [List.zipIdx_cons, List.map_cons]
    by_cases heq : id = i
    · subst heq
      simp [segmentStatement]
    · have hsub : i - id = i - (id + 1) + 1 := by omega
      rw [List.find?_cons_of_neg (by simpa [segmentStatement] using heq), hsub,
        List.getElem?_cons_succ]
      exact ih (id + 1) (by omega)

theorem map_tokenSpan_statements (text : List Char) :
    (Document.parse text).statements.map (·.tokenSpan) = filledSegments (tokenize text) := by
  have hspan : ∀ pair ∈ (filledSegments (tokenize text)).zipIdx,
      (segmentStatement (tokenize text) pair.2 pair.1).tokenSpan = pair.1 := by
    intro pair hpair
    have hmem : pair.1 ∈ segments (tokenize text) :=
      List.mem_of_mem_filter (List.fst_mem_of_mem_zipIdx hpair)
    exact tokenSpan_segmentStatement hmem pair.2
  rw [statements_parse, List.map_map]
  exact (List.map_congr_left hspan).trans (List.zipIdx_map_fst 0 _)

theorem exists_segment_of_mem (h : s ∈ (Document.parse text).statements) :
    s.tokenSpan ∈ filledSegments (tokenize text) ∧
      s = segmentStatement (tokenize text) s.id s.tokenSpan := by
  have hspan : s.tokenSpan ∈ filledSegments (tokenize text) := by
    rw [← map_tokenSpan_statements]
    exact List.mem_map_of_mem h
  refine ⟨hspan, ?_⟩
  rw [statements_parse, List.mem_map] at h
  obtain ⟨⟨span, id⟩, hpair, rfl⟩ := h
  have hmem : span ∈ segments (tokenize text) :=
    List.mem_of_mem_filter (List.fst_mem_of_mem_zipIdx hpair)
  exact congrArg (segmentStatement _ id) (tokenSpan_segmentStatement hmem id).symm

theorem exists_append_of_statement (h : s ∈ (Document.parse text).statements) :
    ∃ front behind, tokenize text = front ++ s.tokens ++ behind := by
  obtain ⟨hspan, heq⟩ := exists_segment_of_mem h
  have htokens : s.tokens = tokensAt (tokenize text) s.tokenSpan := congrArg Statement.tokens heq
  rw [htokens]
  exact ⟨_, _, (take_append_tokensAt (le_of_mem_segments (List.mem_filter.mp hspan).1).1).symm⟩

theorem exists_place_of_statement (h : s ∈ (Document.parse text).statements) :
    ∃ ls ms ns, lexemes text = ls ++ ms ++ ns ∧ ms ≠ [] ∧
      s.tokens = place (Position.origin.advanceAll ls) (Text.byteLength (Lexeme.join ls)) ms := by
  obtain ⟨hspan, heq⟩ := exists_segment_of_mem h
  obtain ⟨hsegment, hcontent⟩ := List.mem_filter.mp hspan
  obtain ⟨ls, ms, ns, hsplit, hmid⟩ := exists_place_of_tokenize
    (take_append_tokensAt (le_of_mem_segments hsegment).1).symm
  refine ⟨ls, ms, ns, hsplit, ?_, ?_⟩
  · rintro rfl
    simp [hmid, hasContent, place] at hcontent
  · rw [heq]
    exact hmid

theorem map_id_statements (text : List Char) :
    (Document.parse text).statements.map (·.id) =
      List.range (Document.parse text).statements.length := by
  rw [statements_parse, List.map_map, List.length_map, List.length_zipIdx, List.range_eq_range',
    ← List.zipIdx_map_snd]
  rfl

theorem slice?_statement (h : s ∈ (Document.parse text).statements) :
    Text.slice? text s.span = some s.raw := by
  obtain ⟨ls, ms, ns, hsplit, hne, htokens⟩ := exists_place_of_statement h
  have htext : text = Lexeme.join ls ++ Lexeme.join ms ++ Lexeme.join ns := by
    rw [← Lexeme.join_append, ← Lexeme.join_append, ← hsplit, join_lexemes]
  rw [Statement.span_of_place htokens hne, Statement.raw, htokens, join_place, htext]
  exact Text.slice?_append _ _ _

theorem range_lt_of_statement (h : s ∈ (Document.parse text).statements) :
    s.range.start < s.range.stop := by
  obtain ⟨ls, ms, ns, hsplit, hne, htokens⟩ := exists_place_of_statement h
  rw [Statement.range_of_place htokens hne]
  apply Position.lt_advanceAll _ hne
  intro l hl
  have hmem : l ∈ lexemes text := by
    rw [hsplit]
    exact List.mem_append_left ns (List.mem_append_right ls hl)
  exact chars_ne_nil_of_mem_lexemes hmem

theorem pairwise_tokenSpan (text : List Char) :
    (Document.parse text).statements.Pairwise fun a b => a.tokenSpan.stop < b.tokenSpan.start := by
  rw [← List.pairwise_map (R := fun a b : Span => a.stop < b.start), map_tokenSpan_statements]
  exact (segmentsFrom_ordered (Nat.zero_le _) (Nat.le_refl 0)).2.filter _

theorem exists_tokens_of_range (h : s ∈ (Document.parse text).statements) :
    ∃ first ∈ s.tokens, ∃ last ∈ s.tokens, s.range = ⟨first.range.start, last.range.stop⟩ := by
  obtain ⟨ls, ms, ns, -, hne, htokens⟩ := exists_place_of_statement h
  obtain ⟨first, last, hfirst, hlast, -, hstart, -, hstop⟩ :=
    exists_ends_of_place (Position.origin.advanceAll ls) (Text.byteLength (Lexeme.join ls)) hne
  refine ⟨first, ?_, last, ?_, ?_⟩
  · rw [htokens]
    exact List.mem_of_head? hfirst
  · rw [htokens]
    exact List.mem_of_getLast? hlast
  · rw [Statement.range_of_place htokens hne, hstart, hstop]

theorem range_le_of_tokenSpan_lt {a b : Statement} (ha : a ∈ (Document.parse text).statements)
    (hb : b ∈ (Document.parse text).statements) (h : a.tokenSpan.stop < b.tokenSpan.start) :
    a.range.stop ≤ b.range.start := by
  obtain ⟨_, _, last, hlast, hrange⟩ := exists_tokens_of_range ha
  obtain ⟨first, hfirst, _, _, hrange'⟩ := exists_tokens_of_range hb
  rw [(exists_segment_of_mem ha).2] at hlast
  rw [(exists_segment_of_mem hb).2] at hfirst
  have hpairwise := pairwise_place Position.origin 0 (lexemes text)
  rw [← List.take_append_drop a.tokenSpan.stop (place _ _ _)] at hpairwise
  rw [hrange, hrange']
  apply (List.pairwise_append.mp hpairwise).2.2 last (mem_take_of_mem_tokensAt hlast) first
  exact List.drop_subset_drop_left _ (Nat.le_of_lt h) (mem_drop_of_mem_tokensAt hfirst)

/-- A token that is neither trivia nor a separator lies in one statement only. -/
theorem existsUnique_statement {i : Nat} {t : Token} (ht : (tokenize text)[i]? = some t)
    (htrivia : t.isTrivia = false) (hsep : isSeparator (tokenize text) i = false) :
    ∃! s, s ∈ (Document.parse text).statements ∧ s.tokenSpan.start ≤ i ∧ i < s.tokenSpan.stop := by
  obtain ⟨hlt, -⟩ := List.getElem?_eq_some_iff.mp ht
  obtain ⟨span, hmem, hstart, hstop⟩ :=
    exists_segment (i := 0) hsep hlt (Nat.zero_le _) (Nat.zero_le i)
  have hcontent : hasContent (tokensAt (tokenize text) span) = true :=
    List.any_eq_true.mpr ⟨t, mem_tokensAt ht hstart hstop, by simpa using htrivia⟩
  have hfilled : span ∈ filledSegments (tokenize text) := List.mem_filter.mpr ⟨hmem, hcontent⟩
  rw [← map_tokenSpan_statements, List.mem_map] at hfilled
  obtain ⟨s, hs, rfl⟩ := hfilled
  refine ⟨s, ⟨hs, hstart, hstop⟩, ?_⟩
  rintro r ⟨hr, hstart', hstop'⟩
  by_contra hne
  have hsymm : Std.Symm fun a b : Statement =>
      a.tokenSpan.stop < b.tokenSpan.start ∨ b.tokenSpan.stop < a.tokenSpan.start :=
    ⟨fun _ _ => Or.symm⟩
  have hapart : (Document.parse text).statements.Pairwise fun a b =>
      a.tokenSpan.stop < b.tokenSpan.start ∨ b.tokenSpan.stop < a.tokenSpan.start :=
    (pairwise_tokenSpan text).imp Or.inl
  rcases hapart.forall hr hs hne with hlt | hlt <;> omega

theorem not_isBlank_of_mem {t : Token} (ht : t ∈ tokenize text) (htrivia : t.isTrivia = false)
    (hsemicolon : t.isPunctuation ";" = false) : ¬(Document.parse text).isBlank = true := by
  obtain ⟨i, hi⟩ := List.getElem?_of_mem ht
  have hsep : isSeparator (tokenize text) i = false := by
    simp [isSeparator, separatesSince, hi, hsemicolon]
  obtain ⟨s, ⟨hs, -⟩, -⟩ := existsUnique_statement hi htrivia hsep
  rw [Document.isBlank, List.isEmpty_iff]
  exact List.ne_nil_of_mem hs

end Parse

/-- The statements of a document are the stretches between its separators that
hold more than trivia: numbered and found in order, terminated if a separator
follows, with the text at their own bytes, one for each token that is neither
trivia nor a separator, and in ranges that follow one another. -/
theorem parse_partitions (text : List Char) :
    let d := Document.parse text
    let ts := tokenize text
    d.statements.map (·.tokenSpan) =
      (segments ts).filter (fun span => hasContent (tokensAt ts span)) ∧
    d.statements.map (·.id) = List.range d.statements.length ∧
    (∀ i, d.statement? i = d.statements[i]?) ∧
    (∀ s ∈ d.statements,
      s.tokens = tokensAt ts s.tokenSpan ∧
      s.terminated = isSeparator ts s.tokenSpan.stop ∧
      s.raw = Token.join (tokensAt ts s.tokenSpan) ∧
      Text.slice? text s.span = some s.raw ∧
      s.range.start < s.range.stop) ∧
    (∀ i t, ts[i]? = some t → t.isTrivia = false → isSeparator ts i = false →
      ∃! s, s ∈ d.statements ∧ s.tokenSpan.start ≤ i ∧ i < s.tokenSpan.stop) ∧
    d.statements.Pairwise (fun a b =>
      a.range.stop ≤ b.range.start ∧ a.range.overlaps b.range = false) := by
  intro d ts
  refine ⟨map_tokenSpan_statements text, map_id_statements text, ?_, ?_, ?_, ?_⟩
  · intro i
    simp only [d, Document.statement?, statements_parse]
    exact find?_id_zipIdx _ _ 0 i (Nat.zero_le i)
  · intro s hs
    obtain ⟨-, heq⟩ := exists_segment_of_mem hs
    have htokens : s.tokens = tokensAt ts s.tokenSpan := congrArg Statement.tokens heq
    exact ⟨htokens, congrArg Statement.terminated heq, congrArg Token.join htokens,
      slice?_statement hs, range_lt_of_statement hs⟩
  · intro i t ht htrivia hsep
    exact existsUnique_statement ht htrivia hsep
  · apply (pairwise_tokenSpan text).imp_of_mem
    intro a b ha hb h
    have hle := range_le_of_tokenSpan_lt ha hb h
    refine ⟨hle, ?_⟩
    simp [Range.overlaps, Position.not_lt.mpr hle]

/-- Of two semicolons, the one outside the brackets ends a statement, and the other is a
token of the statement around it. -/
theorem parse_partitions_bracketed :
    let d := Document.parse "a;(b;c)".toList
    let ts := tokenize "a;(b;c)".toList
    isSeparator ts 1 = true ∧ isSeparator ts 4 = false ∧
      d.statements.map (fun s => (s.tokenSpan, s.terminated)) =
        [(⟨0, 1⟩, true), (⟨2, 7⟩, false)] ∧
      ∃! s, s ∈ d.statements ∧ s.tokenSpan.start ≤ 4 ∧ 4 < s.tokenSpan.stop := by
  intro d ts
  let t : Token := ⟨⟨.punctuation, [';']⟩, ⟨⟨0, 4⟩, ⟨0, 5⟩⟩, ⟨4, 5⟩⟩
  have ht : ts[4]? = some t := by decide +kernel
  have hsep : isSeparator ts 4 = false := by decide +kernel
  exact ⟨by decide +kernel, hsep, by decide +kernel,
    (parse_partitions "a;(b;c)".toList).2.2.2.2.1 4 t ht rfl hsep⟩

end QueryLint
