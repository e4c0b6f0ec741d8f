import QueryLint.Proofs.Statement.Segments
import QueryLint.Proofs.Token.Relex

/-!
# Pieces of a text and joining them

Where a document is cut depends on its lexemes alone. A cut changes nothing on
either side of it: no lexeme before a semicolon depends on what follows it, and
at a separator no bracket is open. So the pieces of a text, or some of them,
joined by semicolons, read as themselves again (`kept_intercalate`).
-/
namespace QueryLint

namespace Lexeme

def semicolon : Lexeme := ⟨.punctuation, [';']⟩

/-- The depth of nesting behind lexemes that start at a given depth. -/
def depthAll (depth : Nat) (ls : List Lexeme) : Nat :=
  ls.foldl (fun depth l => l.depthAfter depth) depth

def pieces (depth : Nat) : List Lexeme → List (List Lexeme)
  | [] => [[]]
  | l :: ls =>
    if l.separates depth then [] :: pieces 0 ls
    else (pieces (l.depthAfter depth) ls).modifyHead (l :: ·)

section Pieces

variable {l : Lexeme} {depth : Nat} {ls piece : List Lexeme}

theorem isPunctuation_semicolon_iff : l.isPunctuation ";" = true ↔ l = semicolon := by
  have hchars : (";" : String).toList = [';'] := rfl
  obtain ⟨kind, chars⟩ := l
  simp [isPunctuation, semicolon, hchars]

theorem separates_iff : l.separates depth = true ↔ l = semicolon ∧ depth = 0 := by
  rw [separates, Bool.and_eq_true, isPunctuation_semicolon_iff, beq_iff_eq]

theorem depthAfter_of_not_significant (h : ¬l.isSignificant = true) :
    l.depthAfter depth = depth := by
  have hkind : l.kind ≠ .punctuation := by
    intro hkind
    exact h (by simp [isSignificant, isTrivia, isComment, hkind])
  rw [depthAfter, if_neg hkind]

theorem pieces_of_separates (h : l.separates depth = true) :
    pieces depth (l :: ls) = [] :: pieces 0 ls :=
  if_pos h

theorem pieces_of_not (h : ¬l.separates depth = true) :
    pieces depth (l :: ls) = (pieces (l.depthAfter depth) ls).modifyHead (l :: ·) :=
  if_neg h

theorem pieces_ne_nil (depth : Nat) (ls : List Lexeme) : pieces depth ls ≠ [] := by
  induction ls generalizing depth with
  | nil => exact List.cons_ne_nil _ _
  | cons l ls ih =>
    by_cases h : l.separates depth = true
    · rw [pieces_of_separates h]
      exact List.cons_ne_nil _ _
    · rw [pieces_of_not h]
      simpa [List.modifyHead_eq_nil_iff] using ih _

/-- A text is one piece, or its first piece ends at a separator and the pieces
of the rest follow. -/
theorem pieces_cut (depth : Nat) (ls : List Lexeme) :
    pieces depth ls = [ls] ∨
      ∃ piece rest, ls = piece ++ semicolon :: rest ∧ pieces depth ls = piece :: pieces 0 rest ∧
        pieces depth piece = [piece] ∧ depthAll depth piece = 0 := by
  induction ls generalizing depth with
  | nil => exact Or.inl rfl
  | cons l ls ih =>
    by_cases h : l.separates depth = true
    · obtain ⟨rfl, rfl⟩ := separates_iff.mp h
      exact Or.inr ⟨[], ls, rfl, pieces_of_separates h, rfl, rfl⟩
    · rcases ih (l.depthAfter depth) with hone | ⟨piece, rest, rfl, hpieces, hone, hdepth⟩
      · refine Or.inl ?_
        rw [pieces_of_not h, hone]
        rfl
      · refine Or.inr ⟨l :: piece, rest, rfl, ?_, ?_, hdepth⟩
        · rw [pieces_of_not h, hpieces]
          rfl
        · rw [pieces_of_not h, hone]
          rfl

theorem pieces_append (hone : pieces depth piece = [piece]) (hdepth : depthAll depth piece = 0)
    (ls : List Lexeme) : pieces depth (piece ++ semicolon :: ls) = piece :: pieces 0 ls := by
  induction piece generalizing depth with
  | nil => exact pieces_of_separates (separates_iff.mpr ⟨rfl, hdepth⟩)
  | cons l piece ih =>
    by_cases h : l.separates depth = true
    · rw [pieces_of_separates h] at hone
      exact absurd (List.cons.inj hone).1 (List.cons_ne_nil _ _).symm
    · rw [pieces_of_not h] at hone
      have hone' : pieces (l.depthAfter depth) piece = [piece] := by
        obtain ⟨first, rest, hcons⟩ := List.exists_cons_of_ne_nil (pieces_ne_nil _ piece)
        rw [hcons] at hone ⊢
        simpa using hone
      rw [List.cons_append, pieces_of_not h, ih hone' hdepth]
      rfl

end Pieces

/-- Pieces placed one behind the other, with a semicolon behind each. -/
def placePieces (p : Position) (offset : Nat) : List (List Lexeme) → List (List Token)
  | [] => []
  | piece :: rest =>
    place p offset piece ::
      placePieces (p.advanceAll (piece ++ [semicolon]))
        (offset + Text.byteLength (join (piece ++ [semicolon]))) rest

theorem placePieces_modifyHead (p : Position) (offset : Nat) (l : Lexeme)
    (ps : List (List Lexeme)) :
    placePieces p offset (ps.modifyHead (l :: ·)) =
      (placePieces (p.advance l.chars) (offset + Text.byteLength l.chars) ps).modifyHead
        (l.placed p offset :: ·) := by
  cases ps with
  | nil => rfl
  | cons piece rest =>
    simp only [List.modifyHead_cons, placePieces, place_cons, List.cons_append, join_cons,
      Text.byteLength_append, Nat.add_assoc]
    rfl

theorem pieces_place (p : Position) (offset depth : Nat) (ls : List Lexeme) :
    QueryLint.pieces depth (place p offset ls) = placePieces p offset (pieces depth ls) := by
  induction ls generalizing p offset depth with
  | nil => rfl
  | cons l ls ih =>
    rw [place_cons]
    by_cases h : l.separates depth = true
    · rw [QueryLint.pieces_of_separates (t := l.placed p offset) h, pieces_of_separates h, ih]
      obtain ⟨rfl, -⟩ := separates_iff.mp h
      rfl
    · rw [QueryLint.pieces_of_not (t := l.placed p offset) h, pieces_of_not h,
        placePieces_modifyHead, ← ih]
      rfl

theorem map_toLexeme_placePieces (p : Position) (offset : Nat) (ps : List (List Lexeme)) :
    (placePieces p offset ps).map (·.map Token.toLexeme) = ps := by
  induction ps generalizing p offset with
  | nil => rfl
  | cons piece rest ih => rw [placePieces, List.map_cons, map_toLexeme_place, ih]

theorem exists_placePieces_append (p : Position) (offset : Nat) (ps qs : List (List Lexeme)) :
    ∃ p' offset', placePieces p offset (ps ++ qs) =
      placePieces p offset ps ++ placePieces p' offset' qs := by
  induction ps generalizing p offset with
  | nil => exact ⟨p, offset, rfl⟩
  | cons piece rest ih =>
    obtain ⟨p', offset', h⟩ := ih (p.advanceAll (piece ++ [semicolon]))
      (offset + Text.byteLength (join (piece ++ [semicolon])))
    exact ⟨p', offset', congrArg (place p offset piece :: ·) h⟩

/-- A piece that reads as itself. -/
structure Reads (piece : List Lexeme) : Prop where
  lexemes_join : lexemes (join piece) = piece
  pieces_eq : pieces 0 piece = [piece]

/-- A piece behind which a semicolon separates. -/
structure Ends (piece : List Lexeme) : Prop where
  lexemes_join : ∀ rest, lexemes (join piece ++ ';' :: rest) = piece ++ semicolon :: lexemes rest
  depth_eq : depthAll 0 piece = 0

/-- Pieces that read as themselves when they are joined by semicolons. -/
structure Joinable (ps : List (List Lexeme)) : Prop where
  reads : ∀ piece ∈ ps, Reads piece
  ends : ps.Pairwise fun piece _ => Ends piece

theorem scan_semicolon (cs : List Char) : scan ';' cs = ⟨.punctuation, 0⟩ := by
  have hopening : opening ';' cs.head? = .mark := by
    rw [opening_none (by simp) (by simp) (by simp)]
    decide
  have hmarks : Lexer.marks.contains ';' = true := by decide
  have hoperator : ∀ d, Lexer.operators.contains (';', d) = false := by simp [Lexer.operators]
  rw [scan_eq_opening, hopening, Opening.scan, Scan.punctuation, if_pos hmarks]
  simp only [hoperator, Option.any_false, Bool.false_eq_true, if_false]

theorem lexemes_semicolon (cs : List Char) : lexemes (';' :: cs) = semicolon :: lexemes cs := by
  rw [lexemes_cons, scan_semicolon]
  rfl

/-- Cutting a text at its separators leaves pieces that can be joined again. -/
theorem joinable_pieces (text : List Char) : Joinable (pieces 0 (lexemes text)) := by
  generalize hls : lexemes text = ls
  -- The text behind the first separator has fewer lexemes and reads as the rest of them.
  induction hn : ls.length using Nat.strongRecOn generalizing text ls with
  | ind n ih =>
    rcases pieces_cut 0 ls with hone | ⟨piece, rest, rfl, hpieces, hone, hdepth⟩
    · rw [hone]
      refine ⟨?_, List.pairwise_singleton _ _⟩
      intro piece hpiece
      obtain rfl := List.mem_singleton.mp hpiece
      exact ⟨hls ▸ congrArg lexemes (join_lexemes text), hone⟩
    · have hsplit : lexemes text = (piece ++ [semicolon]) ++ rest := by
        rw [hls, List.append_cons]
      have hrest := ih rest.length (by simp [← hn]; omega) (join rest) rest
        (lexemes_join_right hsplit) rfl
      have hreads : Reads piece := ⟨lexemes_join_left hls, hone⟩
      have hends : Ends piece := by
        refine ⟨?_, hdepth⟩
        intro tail
        have hsettling : Settling [';'] := settling_of_settles (by decide)
        rw [← lexemes_semicolon]
        exact lexemes_join_resume hsettling hls rfl tail
      rw [hpieces]
      refine ⟨?_, hrest.ends.cons fun _ _ => hends⟩
      intro q hq
      rcases List.mem_cons.mp hq with rfl | hq
      · exact hreads
      · exact hrest.reads q hq

namespace Joinable

variable {ps qs : List (List Lexeme)}

theorem sublist (h : Joinable ps) (hsub : List.Sublist qs ps) : Joinable qs :=
  ⟨fun piece hpiece => h.reads piece (hsub.subset hpiece), h.ends.sublist hsub⟩

theorem lexemes_intercalate (h : Joinable ps) :
    lexemes ([';'].intercalate (ps.map join)) = [semicolon].intercalate ps := by
  induction ps with
  | nil => exact lexemes_nil
  | cons piece rest ih =>
    have hrest := ih (h.sublist (List.sublist_cons_self _ _))
    cases rest with
    | nil =>
      rw [List.map_singleton, List.intercalate_singleton, List.intercalate_singleton]
      exact (h.reads piece List.mem_cons_self).lexemes_join
    | cons next rest =>
      have hends := List.rel_of_pairwise_cons h.ends List.mem_cons_self
      rw [List.map_cons, List.map_cons, List.intercalate_cons_cons, List.append_assoc,
        List.singleton_append, hends.lexemes_join, ← List.map_cons, hrest,
        List.intercalate_cons_cons, List.append_assoc, List.singleton_append]

theorem pieces_intercalate (h : Joinable ps) (hne : ps ≠ []) :
    pieces 0 ([semicolon].intercalate ps) = ps := by
  induction ps with
  | nil => exact absurd rfl hne
  | cons piece rest ih =>
    have hreads := h.reads piece List.mem_cons_self
    cases rest with
    | nil =>
      rw [List.intercalate_singleton]
      exact hreads.pieces_eq
    | cons next rest =>
      have hends := List.rel_of_pairwise_cons h.ends List.mem_cons_self
      have hrest := ih (h.sublist (List.sublist_cons_self _ _)) (List.cons_ne_nil _ _)
      rw [List.intercalate_cons_cons, List.append_assoc, List.singleton_append,
        pieces_append hreads.pieces_eq hends.depth_eq, hrest]

end Joinable

/-- Whether there is anything but trivia among some lexemes. -/
def filled (ls : List Lexeme) : Bool :=
  ls.any (!·.isTrivia)

/-- The pieces of a text that make a statement. -/
def kept (text : List Char) : List (List Lexeme) :=
  (pieces 0 (lexemes text)).filter filled

theorem joinable_kept (text : List Char) : Joinable (kept text) :=
  (joinable_pieces text).sublist List.filter_sublist

theorem filled_of_mem_kept {text : List Char} {piece : List Lexeme} (h : piece ∈ kept text) :
    filled piece = true :=
  List.of_mem_filter h

theorem kept_intercalate {ps : List (List Lexeme)} (h : Joinable ps)
    (hfilled : ∀ piece ∈ ps, filled piece = true) :
    kept ([';'].intercalate (ps.map join)) = ps ∧
      List.IsPrefix ps (pieces 0 (lexemes ([';'].intercalate (ps.map join)))) := by
  by_cases hne : ps = []
  · subst hne
    refine ⟨?_, List.nil_prefix⟩
    rw [kept, List.map_nil, List.intercalate_nil, lexemes_nil]
    rfl
  · have hpieces : pieces 0 (lexemes ([';'].intercalate (ps.map join))) = ps := by
      rw [h.lexemes_intercalate, h.pieces_intercalate hne]
    rw [kept, hpieces]
    exact ⟨List.filter_eq_self.mpr hfilled, List.prefix_refl ps⟩

end Lexeme

end QueryLint
