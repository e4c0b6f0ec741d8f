import QueryLint.Proofs.Edit.OneKind
import QueryLint.Proofs.Rule.Ahead
import QueryLint.Proofs.Token.Words

/-!
# The fix of parentheses behind DISTINCT

The fix writes DISTINCT, a blank and the column where all of DISTINCT and its parentheses
stood. It takes the words from the tokens it looked at, so comments between them are
lost, and it puts nothing in the place of the closing parenthesis, so the column's name
may go on with what follows. It removes the parentheses and nothing else if and only if
neither happens (`parentheses_fix_removes`).
-/
namespace QueryLint

/-- A column is a name, or the name of a table, a point and a name. -/
inductive IsColumn : List Lexeme → Lexeme → Prop
  | plain {name : Lexeme} (h : name.kind = .identifier) : IsColumn [name] name
  | qualified {table point name : Lexeme} (htable : table.kind = .identifier)
      (hpoint : point.isPunctuation "." = true) (h : name.kind = .identifier) :
      IsColumn [table, point, name] name

theorem IsColumn.kind_name {column : List Lexeme} {name : Lexeme} (h : IsColumn column name) :
    name.kind = .identifier := by
  cases h <;> assumption

namespace Lexeme.ReadBefore

variable {l : Lexeme} {after rest : List Char}

theorem exists_cons_of_name (h : l.ReadBefore after) (hname : l.kind = .identifier) :
    ∃ c front, l.chars = c :: front ∧ c.isDigit = false ∧ Text.isInlineBlank c = false := by
  have hblank := mt h.whitespace_iff.mpr (by rw [hname]; decide)
  obtain ⟨c, front, hchars, hscan⟩ := h
  refine ⟨c, front, hchars, ?_, ?_⟩
  · rw [Bool.eq_false_iff]
    intro hdigit
    have hkind := kind_scan_mem c (front ++ after)
    rw [hscan, opening_of_isDigit hdigit, hname] at hkind
    simp [Opening.kinds] at hkind
  · simpa [hchars] using hblank

/-- A name that goes on behind it is lost. -/
theorem significant_ne_of_goesOn (h : l.ReadBefore after) (hname : l.kind = .identifier)
    (hgoes : l.goesOn rest = true) (ls : List Lexeme) :
    (lexemes (l.chars ++ rest)).filter (·.isSignificant) ≠ l :: ls := by
  have hread : ¬l.ReadBefore rest := by
    rw [h.name_iff (Or.inr hname), hgoes]
    decide
  have htakes : l.takesLetters = true := by
    obtain ⟨c, front, hchars, -⟩ := h
    have hbacktick : c ≠ '\x60' := by
      rintro rfl
      have hends : l.goesOn rest = false := (goesOn_eq_false_iff hchars).mpr fun x _ =>
        ⟨Or.inl rfl, Scan.not_marks (by decide) front x⟩
      rw [hgoes] at hends
      cases hends
    simp [takesLetters, hname, hchars, hbacktick]
  exact (h.startsName_of_takesLetters htakes).significant_ne hread ls

end Lexeme.ReadBefore

theorem readBefore_point {rest : List Char} (h : rest.head?.any Char.isDigit = false) :
    Lexeme.ReadBefore ⟨.punctuation, ['.']⟩ rest := by
  refine ⟨'.', [], rfl, ?_⟩
  rw [List.nil_append, scan_eq_opening, opening_none (by simp) (by simp) (by simp [h])]
  change Scan.punctuation '.' rest = _
  have hoperator : ¬rest.head?.any (fun d => Lexer.operators.contains ('.', d)) = true := by
    cases rest.head? <;> simp [Lexer.operators]
  rw [Scan.punctuation, if_neg hoperator, if_pos (by decide)]
  rfl

theorem IsColumn.lexemes_join {column : List Lexeme} {name : Lexeme} (h : IsColumn column name)
    (hread : ∀ l ∈ column, ∃ after, l.ReadBefore after) :
    ∃ lead, column = lead ++ [name] ∧
      (∃ c front, Lexeme.join column = c :: front ∧ Text.isInlineBlank c = false) ∧
      ∀ rest, lexemes (Lexeme.join column ++ rest) = lead ++ lexemes (name.chars ++ rest) := by
  cases h with
  | plain hname =>
    obtain ⟨after, hread⟩ := hread name (by simp)
    obtain ⟨c, front, hchars, -, hblank⟩ := hread.exists_cons_of_name hname
    refine ⟨[], rfl, ⟨c, front, by simp [Lexeme.join_cons, hchars], hblank⟩, fun rest => ?_⟩
    simp [Lexeme.join_cons]
  | @qualified table point _ htable hpoint hname =>
    obtain ⟨behind, htableRead⟩ := hread table (by simp)
    obtain ⟨after, hnameRead⟩ := hread name (by simp)
    obtain ⟨c, front, hchars, -, hblank⟩ := htableRead.exists_cons_of_name htable
    obtain ⟨d, back, hback, hdigit, -⟩ := hnameRead.exists_cons_of_name hname
    obtain rfl : point = ⟨.punctuation, ['.']⟩ := Lexeme.isPunctuation_iff.mp hpoint
    refine ⟨[table, ⟨.punctuation, ['.']⟩], rfl, ⟨c, front ++ '.' :: name.chars, ?_, hblank⟩,
      fun rest => ?_⟩
    · simp [Lexeme.join_cons, hchars]
    · have hpointRead : Lexeme.ReadBefore ⟨.punctuation, ['.']⟩ (name.chars ++ rest) :=
        readBefore_point (by simp [hback, hdigit])
      have htableKept : table.ReadBefore ('.' :: (name.chars ++ rest)) :=
        htableRead.name_of_ends (Or.inr htable) (by decide)
      have hjoin : Lexeme.join [table, ⟨.punctuation, ['.']⟩, name] ++ rest =
          table.chars ++ (['.'] ++ (name.chars ++ rest)) := by
        simp [Lexeme.join_cons]
      rw [hjoin]
      exact htableKept.lexemes_eq.trans (congrArg (table :: ·) hpointRead.lexemes_eq)

section Replaced

variable {text : List Char} {before gap inside column after : List Lexeme}
  {distinct opened closed name : Lexeme}

theorem settles_distinct (h : distinct.isKeyword "DISTINCT" = true) :
    ∃ d ∈ distinct.chars.head?, Scan.settles d = true := by
  obtain ⟨d, hd, hletter⟩ := Lexeme.exists_head_of_isKeyword h
    (show (Keyword.lower "DISTINCT".toList).head? = some 'd' by decide)
  refine ⟨d, hd, ?_⟩
  rcases hletter with rfl | rfl <;> decide

theorem lexemes_replaced
    (h : lexemes text = before ++ distinct :: (gap ++ opened :: (inside ++ closed :: after)))
    (hdistinct : distinct.isKeyword "DISTINCT" = true)
    (hinside : inside.filter (·.isSignificant) = column) (hcolumn : IsColumn column name) :
    ∃ lead, column = lead ++ [name] ∧
      lexemes (Lexeme.join before ++ (distinct.chars ++ ' ' :: Lexeme.join column) ++
          Lexeme.join after) =
        before ++ distinct :: ⟨.whitespace, [' ']⟩ ::
          (lead ++ lexemes (name.chars ++ Lexeme.join after)) := by
  have hwords : ∀ l ∈ column, ∃ rest, l.ReadBefore rest := by
    intro l hl
    rw [← hinside] at hl
    have hmem : l ∈ lexemes text := by simp [h, List.mem_of_mem_filter hl]
    exact exists_readBefore_of_mem hmem
  obtain ⟨lead, hlead, ⟨c, front, hjoin, hblank⟩, hlexemes⟩ := hcolumn.lexemes_join hwords
  refine ⟨lead, hlead, ?_⟩
  have hkeyword : distinct.kind = .keyword := by
    simp only [Lexeme.isKeyword, Bool.and_eq_true, beq_iff_eq] at hdistinct
    exact hdistinct.1
  have hread := (readBefore_of_lexemes (lexemes_join_right h)).1
  have hkept : ∀ rest, distinct.ReadBefore (' ' :: rest) := fun rest =>
    hread.name_of_ends (Or.inl hkeyword) (by decide)
  have hspace : Lexeme.ReadBefore ⟨.whitespace, [' ']⟩
      (Lexeme.join column ++ Lexeme.join after) := by
    refine ⟨' ', [], rfl, ?_⟩
    rw [List.nil_append, scan_of_isInlineBlank (by decide), hjoin, List.cons_append]
    simp [Scan.runLength, hblank]
  have hwritten : lexemes (' ' :: (Lexeme.join column ++ Lexeme.join after)) =
      ⟨.whitespace, [' ']⟩ :: (lead ++ lexemes (name.chars ++ Lexeme.join after)) :=
    hspace.lexemes_eq.trans (congrArg (_ :: ·) (hlexemes _))
  obtain ⟨d, hd, hsettles⟩ := settles_distinct hdistinct
  obtain ⟨letters, hletters⟩ := List.head?_eq_some_iff.mp hd
  have hresume := lexemes_join_resume (settling_of_settles hsettles) h
    (by rw [Lexeme.join_cons, hletters]; rfl)
    (letters ++ ' ' :: (Lexeme.join column ++ Lexeme.join after))
  rw [List.singleton_append, ← List.cons_append, ← hletters, (hkept _).lexemes_eq] at hresume
  rw [List.append_assoc, List.append_assoc, List.cons_append, hresume, hwritten]

theorem contents_of_words (hdistinct : distinct.isSignificant = true)
    (hwords : (gap ++ inside).filter (·.isSignificant) = column) :
    (before ++ distinct :: ⟨.whitespace, [' ']⟩ :: (column ++ after)).filter (!·.isTrivia) =
        (before ++ distinct :: (gap ++ (inside ++ after))).filter (!·.isTrivia) ↔
      ∀ l ∈ gap ++ inside, l.isComment = false := by
  have htrivia : distinct.isTrivia = false := by
    rw [Lexeme.isSignificant, Bool.and_eq_true, Bool.not_eq_true'] at hdistinct
    exact hdistinct.1
  have hspace : Lexeme.isTrivia ⟨.whitespace, [' ']⟩ = true := rfl
  have hcolumn : column.filter (!·.isTrivia) = column := by
    rw [← hwords, List.filter_comm, Lexeme.filter_significant_contents]
  have hleft : (before ++ distinct :: ⟨.whitespace, [' ']⟩ :: (column ++ after)).filter
      (!·.isTrivia) =
      before.filter (!·.isTrivia) ++ distinct :: (column ++ after.filter (!·.isTrivia)) := by
    simp [htrivia, hspace, hcolumn]
  have hright : (before ++ distinct :: (gap ++ (inside ++ after))).filter (!·.isTrivia) =
      before.filter (!·.isTrivia) ++ distinct ::
        ((gap ++ inside).filter (!·.isTrivia) ++ after.filter (!·.isTrivia)) := by
    simp [htrivia]
  rw [hleft, hright, List.append_cancel_left_eq, List.cons_inj_right, List.append_cancel_right_eq,
    eq_comm, ← hwords, Lexeme.contents_eq_significant_iff]

/-- The contents are kept if no comment is lost and the name does not go on. -/
theorem contents_replaced
    (h : lexemes text = before ++ distinct :: (gap ++ opened :: (inside ++ closed :: after)))
    (hdistinct : distinct.isKeyword "DISTINCT" = true) (hgap : gap.filter (·.isSignificant) = [])
    (hinside : inside.filter (·.isSignificant) = column) (hcolumn : IsColumn column name) :
    (lexemes (Lexeme.join before ++ (distinct.chars ++ ' ' :: Lexeme.join column) ++
        Lexeme.join after)).filter (!·.isTrivia) =
        (before ++ distinct :: (gap ++ (inside ++ after))).filter (!·.isTrivia) ↔
      (∀ l ∈ gap ++ inside, l.isComment = false) ∧ name.goesOn (Lexeme.join after) = false := by
  have hname := hcolumn.kind_name
  obtain ⟨lead, rfl, hlexemes⟩ := lexemes_replaced h hdistinct hinside hcolumn
  have hwords : ∀ l ∈ lead ++ [name], l ∈ lexemes text ∧ l.isSignificant = true := by
    intro l hl
    rw [← hinside, List.mem_filter] at hl
    exact ⟨by simp [h, hl.1], hl.2⟩
  obtain ⟨rest, hread⟩ := exists_readBefore_of_mem (hwords name (by simp)).1
  have hsignificant := Lexeme.isSignificant_of_isKeyword hdistinct
  have hspace : Lexeme.isSignificant ⟨.whitespace, [' ']⟩ = false := rfl
  rw [hlexemes]
  cases hgoes : name.goesOn (Lexeme.join after) with
  | true =>
    refine iff_of_false (fun heq => ?_) (by simp)
    have hlead : lead.filter (·.isSignificant) = lead :=
      List.filter_eq_self.mpr fun l hl => (hwords l (by simp [hl])).2
    have hne := hread.significant_ne_of_goesOn hname hgoes (after.filter (·.isSignificant))
    have hfiltered := congrArg (List.filter (·.isSignificant)) heq
    rw [Lexeme.filter_significant_contents, Lexeme.filter_significant_contents] at hfiltered
    simp [hsignificant, hspace, hgap, hinside, hlead] at hfiltered
    exact hne hfiltered
  | false =>
    have hkept := (hread.name_iff (Or.inr hname) _).mpr hgoes
    have hafter : lexemes (Lexeme.join after) = after := by
      have hcut : lexemes text = (before ++ distinct :: (gap ++ opened :: (inside ++ [closed]))) ++
          after := by simp [h]
      exact lexemes_join_right hcut
    rw [hkept.lexemes_eq, hafter, List.append_cons lead, contents_of_words hsignificant]
    · simp
    · rw [List.filter_append, hgap, hinside, List.nil_append]

end Replaced

theorem Range.cover_of_le {r s : Range} (hstart : r.start ≤ s.start) (hstop : r.stop ≤ s.stop) :
    r.cover s = ⟨r.start, s.stop⟩ := by
  unfold Range.cover
  rw [Position.min_eq, Position.max_eq, if_neg (Position.not_lt.mpr hstart),
    if_neg (Position.not_lt.mpr hstop)]

/-- What is found in parentheses is a column, and all that is significant there. -/
theorem Select.exists_of_closedColumn? {ts : List Token} {written : List Char} {closed : Token}
    (h : Select.closedColumn? ts = some (written, closed)) :
    ∃ inside name after, ts = inside ++ closed :: after ∧ closed.isPunctuation ")" = true ∧
      IsColumn ((Token.significant inside).map Token.toLexeme) name ∧
      written = Lexeme.join ((Token.significant inside).map Token.toLexeme) := by
  have hname : ∀ {t : Token}, Select.isName t = true → t.kind = .identifier := by
    intro t ht
    simpa [Select.isName] using ht
  unfold Select.closedColumn? at h
  obtain ⟨⟨first, rest⟩, hfirst, h⟩ := Option.bind_eq_some_iff.mp h
  obtain ⟨lead, hts, hlead, hword, hidentifier⟩ := Finding.exists_gap_of_nextIf? hfirst
  dsimp only at h
  split at h
  · obtain ⟨⟨closed, after⟩, hclosed, h⟩ := Option.bind_eq_some_iff.mp h
    obtain ⟨rfl, rfl⟩ := Prod.mk.inj (Option.some.inj h)
    obtain ⟨gap, rfl, hgap, -, hmark⟩ := Finding.exists_gap_of_nextIf? hclosed
    have hinside : Token.significant (lead ++ first :: gap) = [first] := by
      rw [Token.significant_gap hlead hword, hgap]
    refine ⟨lead ++ first :: gap, first.toLexeme, after, by simp [hts], hmark, ?_, ?_⟩
    · rw [hinside]
      exact .plain (hname hidentifier)
    · simp [hinside, Lexeme.join_cons]
  · rename_i point rest' hpoint
    obtain ⟨⟨second, rest''⟩, hsecond, h⟩ := Option.bind_eq_some_iff.mp h
    obtain ⟨⟨closed, after⟩, hclosed, h⟩ := Option.bind_eq_some_iff.mp h
    obtain ⟨rfl, rfl⟩ := Prod.mk.inj (Option.some.inj h)
    obtain ⟨gap, rfl, hgap, hpointWord, hpointMark⟩ := Finding.exists_gap_of_nextIf? hpoint
    obtain ⟨gap', rfl, hgap', hsecondWord, hsecondName⟩ := Finding.exists_gap_of_nextIf? hsecond
    obtain ⟨gap'', rfl, hgap'', -, hmark⟩ := Finding.exists_gap_of_nextIf? hclosed
    have hinside : Token.significant
        (lead ++ first :: (gap ++ point :: (gap' ++ second :: gap''))) =
        [first, point, second] := by
      rw [Token.significant_gap hlead hword, Token.significant_gap hgap hpointWord,
        Token.significant_gap hgap' hsecondWord, hgap'']
    refine ⟨lead ++ first :: (gap ++ point :: (gap' ++ second :: gap'')), second.toLexeme, after,
      by simp [hts], hmark, ?_, ?_⟩
    · rw [hinside]
      exact .qualified (hname hidentifier) hpointMark (hname hsecondName)
    · have hdot : point.chars = ['.'] :=
        congrArg Lexeme.chars (Lexeme.isPunctuation_iff.mp hpointMark)
      simp [hinside, Lexeme.join_cons, hdot]

theorem exists_parentheses_of_mem {text : List Char} {f : Finding}
    (h : f ∈ Select.distinctParentheses (Document.parse text)) :
    ∃ before distinct gap opened inside name closed after,
      tokenize text = before ++ distinct :: (gap ++ opened :: (inside ++ closed :: after)) ∧
      distinct.isKeyword "DISTINCT" = true ∧ opened.isPunctuation "(" = true ∧
      closed.isPunctuation ")" = true ∧ Token.significant gap = [] ∧
      IsColumn ((Token.significant inside).map Token.toLexeme) name ∧
      f = { range := distinct.range.cover closed.range,
            fix := Fix.replace "Remove parentheses" (distinct.range.cover closed.range)
              (String.ofList (distinct.chars ++
                ' ' :: Lexeme.join ((Token.significant inside).map Token.toLexeme))) } := by
  rw [Select.distinctParentheses_eq_along] at h
  obtain ⟨select, rest, hlook, ⟨front, hfront⟩⟩ := Finding.exists_of_mem_along h
  obtain ⟨-, distinct, behind, opened, rest', written, closed, hdistinct, hopened, hclosed, rfl⟩ :=
    Select.exists_of_parenthesesAt hlook
  obtain ⟨lead, rfl, -, -, hkeyword⟩ := Finding.exists_gap_of_nextIf? hdistinct
  obtain ⟨gap, rfl, hgap, -, hmark⟩ := Finding.exists_gap_of_nextIf? hopened
  obtain ⟨inside, name, after, rfl, hclosedMark, hcolumn, rfl⟩ :=
    Select.exists_of_closedColumn? hclosed
  refine ⟨front ++ select :: lead, distinct, gap, opened, inside, name, closed, after, ?_, hkeyword,
    hmark, hclosedMark, hgap, hcolumn, rfl⟩
  rw [show tokenize text = (Document.parse text).tokens from rfl, ← hfront]
  simp

theorem range_cover_of_tokenize {text : List Char} {before between after : List Token}
    {t u : Token} (h : tokenize text = before ++ t :: (between ++ u :: after)) :
    t.range.cover u.range = ⟨Position.origin.advanceAll (before.map Token.toLexeme),
      Position.origin.advanceAll
        (before.map Token.toLexeme ++ (t :: (between ++ [u])).map Token.toLexeme)⟩ := by
  obtain ⟨-, ht⟩ := lexemes_of_tokenize h
  have hlast : tokenize text = (before ++ t :: between) ++ u :: after := by simp [h]
  obtain ⟨-, hu⟩ := lexemes_of_tokenize hlast
  have hstarts : (before ++ t :: between).map Token.toLexeme =
      before.map Token.toLexeme ++ [t.toLexeme] ++ between.map Token.toLexeme := by simp
  have hstops : (before ++ t :: between).map Token.toLexeme ++ [u.toLexeme] =
      before.map Token.toLexeme ++ [t.toLexeme] ++ (between ++ [u]).map Token.toLexeme := by simp
  have hle : ∀ ls ms : List Lexeme,
      Position.origin.advanceAll ls ≤ Position.origin.advanceAll (ls ++ ms) := by
    intro ls ms
    rw [Position.advanceAll_append]
    exact Position.le_advanceAll _ ms
  rw [hstops, hstarts] at hu
  rw [ht, hu, Range.cover_of_le]
  · simp
  · rw [List.append_assoc]
    exact hle _ _
  · exact hle _ _

/-- Removal of the parentheses. Every finding covers DISTINCT and a column in parentheses,
and its fix can be applied. The contents of the fixed text are those of the text without
the two parentheses if and only if no comment stands between DISTINCT and the closing
parenthesis, and the column's name does not go on with what follows that. -/
theorem parentheses_fix_removes (text : List Char) {f : Finding}
    (h : f ∈ Check.distinctParentheses.findings (Document.parse text)) :
    ∃ before distinct gap opened inside name closed after fix fixed,
      tokenize text = before ++ distinct :: (gap ++ opened :: (inside ++ closed :: after)) ∧
      distinct.isKeyword "DISTINCT" = true ∧ opened.isPunctuation "(" = true ∧
      closed.isPunctuation ")" = true ∧ Token.significant gap = [] ∧
      IsColumn ((Token.significant inside).map Token.toLexeme) name ∧
      f.range = distinct.range.cover closed.range ∧
      f.fix = some fix ∧ fix.applyTo? text = some fixed ∧
      (Token.contents (tokenize fixed) =
          Token.contents (before ++ distinct :: (gap ++ (inside ++ after))) ↔
        (∀ t ∈ gap ++ inside, t.isComment = false) ∧
          name.goesOn (Lexeme.join (after.map Token.toLexeme)) = false) := by
  obtain ⟨before, distinct, gap, opened, inside, name, closed, after, hsplit, hdistinct, hopened,
    hclosed, hgap, hcolumn, rfl⟩ := exists_parentheses_of_mem h
  have hcover : tokenize text =
      before ++ distinct :: ((gap ++ opened :: inside) ++ closed :: after) := by simp [hsplit]
  have hlexemes : lexemes text = before.map Token.toLexeme ++
      (distinct :: ((gap ++ opened :: inside) ++ [closed])).map Token.toLexeme ++
      after.map Token.toLexeme := by
    rw [(lexemes_of_tokenize hcover).1]
    simp
  have happly := Fix.applyTo?_replace hlexemes "Remove parentheses" (String.ofList
    (distinct.chars ++ ' ' :: Lexeme.join ((Token.significant inside).map Token.toLexeme)))
  rw [← range_cover_of_tokenize hcover] at happly
  refine ⟨before, distinct, gap, opened, inside, name, closed, after, _, _, hsplit, hdistinct,
    hopened, hclosed, hgap, hcolumn, rfl, rfl, happly, ?_⟩
  have hwords : lexemes text = before.map Token.toLexeme ++ distinct.toLexeme ::
      (gap.map Token.toLexeme ++ opened.toLexeme ::
        (inside.map Token.toLexeme ++ closed.toLexeme :: after.map Token.toLexeme)) := by
    simp [hlexemes]
  have hempty : (gap.map Token.toLexeme).filter (·.isSignificant) = [] := by
    rw [← Token.map_toLexeme_significant, hgap]
    rfl
  have hreplaced := contents_replaced hwords hdistinct hempty
    (Token.map_toLexeme_significant inside).symm hcolumn
  have hcomments : (∀ l ∈ gap.map Token.toLexeme ++ inside.map Token.toLexeme,
      l.isComment = false) ↔ ∀ t ∈ gap ++ inside, t.isComment = false := by
    rw [← List.map_append, List.forall_mem_map]
  rw [hcomments] at hreplaced
  rw [contents_tokenize, Token.contents_eq_filter, String.toList_ofList]
  simpa only [List.map_append, List.map_cons] using hreplaced

/-- A column with its table, before a blank. -/
theorem parentheses_fix_removes_column :
    let text := "select distinct (t.a) from t".toList
    let range : Range := ⟨⟨0, 7⟩, ⟨0, 21⟩⟩
    let f : Finding :=
      { range, fix := Fix.replace "Remove parentheses" range "distinct t.a" }
    f ∈ Check.distinctParentheses.findings (Document.parse text) ∧
      ∃ before distinct gap opened inside name closed after fix fixed,
        tokenize text = before ++ distinct :: (gap ++ opened :: (inside ++ closed :: after)) ∧
        distinct.isKeyword "DISTINCT" = true ∧ opened.isPunctuation "(" = true ∧
        closed.isPunctuation ")" = true ∧ Token.significant gap = [] ∧
        IsColumn ((Token.significant inside).map Token.toLexeme) name ∧
        f.range = distinct.range.cover closed.range ∧
        f.fix = some fix ∧ fix.applyTo? text = some fixed ∧
        (Token.contents (tokenize fixed) =
            Token.contents (before ++ distinct :: (gap ++ (inside ++ after))) ↔
          (∀ t ∈ gap ++ inside, t.isComment = false) ∧
            name.goesOn (Lexeme.join (after.map Token.toLexeme)) = false) := by
  intro text range f
  have hf : f ∈ Check.distinctParentheses.findings (Document.parse text) := by decide +kernel
  exact ⟨hf, parentheses_fix_removes text hf⟩

/-- The comment in the parentheses is lost, and the column's name goes on with FROM. -/
theorem parentheses_fix_loses :
    let text := "select distinct(/**/a)from t".toList
    let range : Range := ⟨⟨0, 7⟩, ⟨0, 22⟩⟩
    let f : Finding := { range, fix := Fix.replace "Remove parentheses" range "distinct a" }
    let fixed := "select distinct afrom t".toList
    f ∈ Check.distinctParentheses.findings (Document.parse text) ∧
      f.fix.bind (·.applyTo? text) = some fixed ∧
      Token.contents (tokenize text) =
        [⟨.keyword, "select".toList⟩, ⟨.keyword, "distinct".toList⟩, ⟨.punctuation, ['(']⟩,
          ⟨.comment, "/**/".toList⟩, ⟨.identifier, ['a']⟩, ⟨.punctuation, [')']⟩,
          ⟨.keyword, "from".toList⟩, ⟨.identifier, ['t']⟩] ∧
      Token.contents (tokenize fixed) =
        [⟨.keyword, "select".toList⟩, ⟨.keyword, "distinct".toList⟩,
          ⟨.identifier, "afrom".toList⟩, ⟨.identifier, ['t']⟩] := by
  decide +kernel

end QueryLint
