import QueryLint.Proofs.Statement.Partition
import QueryLint.Proofs.Statement.Pieces

/-!
# Parsing the statements of a document again

The text and the kind of a statement are matters of its lexemes, and its place
is that of its tokens. Since pieces can be joined again, so can statements: the
document that they make up has the same statements, and each of them on its own
is a document of one statement.
-/
namespace QueryLint

namespace Statement

def lexical (s : Statement) : List Lexeme :=
  s.tokens.map Token.toLexeme

/-- What a piece says as a statement: its text and the keyword that leads it. -/
def gist (piece : List Lexeme) : List Char × Option (List Char) :=
  (Lexeme.join piece,
    match piece.find? (·.isSignificant) with
    | some l => if l.kind = .keyword then some (Keyword.upper l.chars) else none
    | none => none)

theorem raw_eq_join (s : Statement) : s.raw = Lexeme.join s.lexical := by
  rw [raw, Token.join, Lexeme.join, lexical, List.flatMap_map]

theorem gist_lexical (s : Statement) : gist s.lexical = (s.raw, s.kind) := by
  have hfind : s.lexical.find? (·.isSignificant) =
      (s.tokens.find? (·.isSignificant)).map Token.toLexeme := by
    rw [lexical, List.find?_map]
    rfl
  rw [gist, ← raw_eq_join, hfind, kind, Token.firstSignificant?]
  cases s.tokens.find? (·.isSignificant) <;> rfl

theorem map_range_span_of_tokens {ss rs : List Statement}
    (h : ss.map (·.tokens) = rs.map (·.tokens)) :
    ss.map (·.range) = rs.map (·.range) ∧ ss.map (·.span) = rs.map (·.span) := by
  have hmap : ∀ {α : Type} (f : Statement → α) (g : List Token → α), (∀ s, f s = g s.tokens) →
      ss.map f = rs.map f := by
    intro α f g hfg
    obtain rfl : f = g ∘ (·.tokens) := funext hfg
    rw [← List.map_map, h, List.map_map]
  exact ⟨hmap _ (fun ts => (⟨0, 0, ts, false⟩ : Statement).range) fun _ => rfl,
    hmap _ (fun ts => (⟨0, 0, ts, false⟩ : Statement).span) fun _ => rfl⟩

end Statement

theorem map_tokens_ofPieces (id first : Nat) (ps : List (List Token)) :
    (Statement.ofPieces id first ps).map (·.tokens) = ps.filter hasContent := by
  induction ps generalizing id first with
  | nil => rfl
  | cons piece rest ih =>
    rw [ofPieces_cons, List.filter_cons]
    split_ifs
    · rw [List.map_cons, ih]
    · exact ih _ _

theorem hasContent_eq_filled (ts : List Token) :
    hasContent ts = Lexeme.filled (ts.map Token.toLexeme) := by
  rw [hasContent, Lexeme.filled, List.any_map]
  rfl

theorem map_tokens_statements (text : List Char) :
    (Document.parse text).statements.map (·.tokens) =
      (Lexeme.placePieces Position.origin 0 (Lexeme.pieces 0 (lexemes text))).filter
        hasContent := by
  rw [← Lexeme.pieces_place]
  exact map_tokens_ofPieces 0 0 _

theorem map_toLexeme_filter_placePieces (p : Position) (offset : Nat) (ps : List (List Lexeme)) :
    ((Lexeme.placePieces p offset ps).filter hasContent).map (·.map Token.toLexeme) =
      ps.filter Lexeme.filled := by
  have hfilled : hasContent = Lexeme.filled ∘ (·.map Token.toLexeme) :=
    funext hasContent_eq_filled
  rw [hfilled, ← List.filter_map, Lexeme.map_toLexeme_placePieces]

theorem map_lexical_statements (text : List Char) :
    (Document.parse text).statements.map (·.lexical) = Lexeme.kept text := by
  have hlexical : (Document.parse text).statements.map (·.lexical) =
      ((Document.parse text).statements.map (·.tokens)).map (·.map Token.toLexeme) := by
    rw [List.map_map]
    rfl
  rw [hlexical, map_tokens_statements, map_toLexeme_filter_placePieces]
  rfl

theorem map_gist_kept (text : List Char) :
    (Document.parse text).statements.map (fun s => (s.raw, s.kind)) =
      (Lexeme.kept text).map Statement.gist := by
  rw [← map_lexical_statements, List.map_map]
  exact List.map_congr_left fun s _ => s.gist_lexical.symm

/-- Where the kept pieces come first, the tokens of the statements stand where
those pieces alone would place them. -/
theorem map_tokens_of_kept_first {text : List Char}
    (h : Lexeme.kept text <+: Lexeme.pieces 0 (lexemes text)) :
    (Document.parse text).statements.map (·.tokens) =
      Lexeme.placePieces Position.origin 0 (Lexeme.kept text) := by
  obtain ⟨dropped, hpieces⟩ := h
  have hdropped : dropped.filter Lexeme.filled = [] := by
    have hfilter : (Lexeme.kept text ++ dropped).filter Lexeme.filled = Lexeme.kept text := by
      rw [hpieces]
      rfl
    rw [List.filter_append, List.filter_eq_self.mpr fun _ => Lexeme.filled_of_mem_kept] at hfilter
    exact List.append_right_eq_self.mp hfilter
  obtain ⟨p, offset, happend⟩ :=
    Lexeme.exists_placePieces_append Position.origin 0 (Lexeme.kept text) dropped
  have hkept : ∀ ts ∈ Lexeme.placePieces Position.origin 0 (Lexeme.kept text),
      hasContent ts = true := by
    intro ts hts
    rw [hasContent_eq_filled]
    have hmem : ts.map Token.toLexeme ∈ Lexeme.kept text := by
      rw [← Lexeme.map_toLexeme_placePieces Position.origin 0 (Lexeme.kept text)]
      exact List.mem_map_of_mem hts
    exact Lexeme.filled_of_mem_kept hmem
  have hrest : (Lexeme.placePieces p offset dropped).filter hasContent = [] := by
    rw [← List.map_eq_nil_iff, map_toLexeme_filter_placePieces, hdropped]
  rw [map_tokens_statements, ← hpieces, happend, List.filter_append,
    List.filter_eq_self.mpr hkept, hrest, List.append_nil]

theorem map_toLexeme_pieces (text : List Char) :
    (pieces 0 (tokenize text)).map (·.map Token.toLexeme) = Lexeme.pieces 0 (lexemes text) := by
  rw [tokenize, Lexeme.pieces_place, Lexeme.map_toLexeme_placePieces]

theorem kept_first_of_segments {text : List Char}
    (h : (Document.parse text).statements.map (·.tokenSpan) <+: segments (tokenize text)) :
    Lexeme.kept text <+: Lexeme.pieces 0 (lexemes text) := by
  have hpieces : (segments (tokenize text)).map
      (fun span => (tokensAt (tokenize text) span).map Token.toLexeme) =
        Lexeme.pieces 0 (lexemes text) := by
    rw [← map_toLexeme_pieces, ← map_tokensAt_segments, List.map_map]
    rfl
  have hkept : ((Document.parse text).statements.map (·.tokenSpan)).map
      (fun span => (tokensAt (tokenize text) span).map Token.toLexeme) = Lexeme.kept text := by
    rw [List.map_map, ← map_lexical_statements]
    apply List.map_congr_left
    intro s hs
    exact congrArg (·.tokens.map Token.toLexeme) (exists_segment_of_mem hs).2.symm
  rw [← hpieces, ← hkept]
  exact h.map _

/-- Parsing is stable under taking statements apart and joining them again: the
statements of the texts joined by semicolons have the same texts and kinds, and
the same places if only segments behind the last statement were dropped; and
each text on its own is one statement of that kind. -/
theorem reparse_stable (text : List Char) :
    let d := Document.parse text
    let again := Document.parse ([';'].intercalate (d.statements.map (·.raw)))
    again.statements.map (fun s => (s.raw, s.kind)) =
      d.statements.map (fun s => (s.raw, s.kind)) ∧
    (d.statements.map (·.tokenSpan) <+: segments d.tokens →
      again.statements.map (·.range) = d.statements.map (·.range) ∧
      again.statements.map (·.span) = d.statements.map (·.span)) ∧
    ∀ s ∈ d.statements,
      (Document.parse s.raw).statements.map (fun r => (r.raw, r.kind)) = [(s.raw, s.kind)] := by
  intro d again
  have hraws : d.statements.map (·.raw) = (Lexeme.kept text).map Lexeme.join := by
    rw [← map_lexical_statements, List.map_map]
    exact List.map_congr_left fun s _ => s.raw_eq_join
  obtain ⟨hkept, hfirst⟩ :=
    Lexeme.kept_intercalate (Lexeme.joinable_kept text) fun _ => Lexeme.filled_of_mem_kept
  rw [← hraws] at hkept hfirst
  refine ⟨?_, ?_, ?_⟩
  · rw [map_gist_kept, map_gist_kept, hkept]
  · intro hspans
    have hkept_first := kept_first_of_segments hspans
    rw [← hkept] at hfirst
    apply Statement.map_range_span_of_tokens
    rw [map_tokens_of_kept_first hfirst, hkept, map_tokens_of_kept_first hkept_first]
  · intro s hs
    have hmem : s.lexical ∈ Lexeme.kept text := by
      rw [← map_lexical_statements]
      exact List.mem_map_of_mem hs
    have hone := (Lexeme.joinable_kept text).sublist (List.singleton_sublist.mpr hmem)
    have hfilled : ∀ piece ∈ [s.lexical], Lexeme.filled piece = true := by
      intro piece hpiece
      obtain rfl := List.mem_singleton.mp hpiece
      exact Lexeme.filled_of_mem_kept hmem
    have hkept := (Lexeme.kept_intercalate hone hfilled).1
    rw [List.map_singleton, List.intercalate_singleton, ← s.raw_eq_join] at hkept
    rw [map_gist_kept, hkept, List.map_singleton, s.gist_lexical]

/-- Segments dropped behind the last statement move nothing. -/
theorem reparse_stable_trailing :
    let d := Document.parse "a;(b;c)\n;;".toList
    let again := Document.parse ([';'].intercalate (d.statements.map (·.raw)))
    d.statements.map (·.tokenSpan) <+: segments d.tokens ∧
      again.statements.map (·.range) = d.statements.map (·.range) := by
  intro d again
  have hfirst : d.statements.map (·.tokenSpan) <+: segments d.tokens := by decide +kernel
  exact ⟨hfirst, ((reparse_stable "a;(b;c)\n;;".toList).2.1 hfirst).1⟩

end QueryLint
