import QueryLint.Proofs.Token.Boundary
import QueryLint.Rule.Basic

/-!
# Where findings lie

Every rule reports ranges that go from one token boundary of the document to
another, and offers at most one edit, which does so too. An edit that only
inserts does so at the end of the document (`anchored_of_mem_findings`).
-/
namespace QueryLint

namespace Position

theorem le_of_lt {a b : Position} (h : a < b) : a ≤ b := by
  simp only [lt_def, le_def] at *
  omega

theorem lt_irrefl (a : Position) : ¬a < a :=
  not_lt.mpr (le_refl a)

theorem min_eq (a b : Position) : min a b = if b < a then b else a := rfl

theorem max_eq (a b : Position) : max a b = if b < a then a else b := rfl

theorem min_le_left (a b : Position) : min a b ≤ a := by
  rw [min_eq]
  split_ifs with h
  · exact le_of_lt h
  · exact le_refl a

theorem le_max_left (a b : Position) : a ≤ max a b := by
  rw [max_eq]
  split_ifs with h
  · exact le_refl a
  · exact not_lt.mp h

end Position

theorem Rule.ranges_diagnostics {r : Rule} {d : Document} (henabled : r.isEnabled = true)
    (hstatement : d.isBlank = false) :
    (r.diagnostics d).map (·.range) = (r.check.findings d).map (·.range) := by
  rw [Rule.diagnostics, if_pos ⟨henabled, by simp [hstatement]⟩, List.map_map]
  rfl

/-- Whether an edit replaces what stands between two token boundaries of a text,
or adds to its end. -/
structure Edit.Anchored (text : List Char) (e : Edit) : Prop where
  within : e.range.Within text
  stop_of_insertion : e.range.start = e.range.stop → e.range.start = (Document.parse text).stop

/-- Whether a finding has its range, and that of its one edit, at token boundaries
of a text. -/
structure Finding.Anchored (text : List Char) (f : Finding) : Prop where
  within : f.range.Within text
  fix : ∀ fix ∈ f.fix, ∃ e : Edit, fix.edits = [e] ∧ e.Anchored text

section Anchored

variable {text : List Char} {r s : Range} {t : Token}

theorem Range.Within.cover (hr : r.Within text) (hs : s.Within text) : (r.cover s).Within text := by
  apply Range.Within.of_boundaries
  · rw [Position.min_eq]
    split_ifs
    · exact hs.start_boundary
    · exact hr.start_boundary
  · rw [Position.max_eq]
    split_ifs
    · exact hr.stop_boundary
    · exact hs.stop_boundary
  · apply Position.le_trans (Position.min_le_left r.start s.start)
    apply Position.le_trans hr.start_le_stop
    exact Position.le_max_left r.stop s.stop

theorem Range.cover_start_lt_stop (h : r.start < r.stop) :
    (r.cover s).start < (r.cover s).stop := by
  have hstart := Position.min_le_left r.start s.start
  have hstop := Position.le_max_left r.stop s.stop
  simp only [Range.cover, Position.lt_def, Position.le_def] at *
  omega

theorem Edit.Anchored.of_lt (h : r.Within text) (hlt : r.start < r.stop) (newText : String) :
    Edit.Anchored text ⟨r, newText⟩ := by
  refine ⟨h, ?_⟩
  intro heq
  rw [show r.start = r.stop from heq] at hlt
  exact absurd hlt (Position.lt_irrefl r.stop)

theorem Finding.Anchored.plain (h : r.Within text) : Finding.Anchored text { range := r } := by
  refine ⟨h, ?_⟩
  intro fix hfix
  simp at hfix

theorem Finding.Anchored.replace (h : r.Within text) {e : Edit} (he : e.Anchored text)
    (label : String) : Finding.Anchored text { range := r, fix := some ⟨label, [e]⟩ } := by
  refine ⟨h, ?_⟩
  intro fix hfix
  obtain rfl := Option.mem_some_iff.mp hfix
  exact ⟨e, rfl, he⟩

theorem Finding.Anchored.ofToken (ht : t ∈ tokenize text) (label newText : String) :
    Finding.Anchored text { range := t.range, fix := some ⟨label, [⟨t.range, newText⟩]⟩ } := by
  apply Finding.Anchored.replace (within_of_mem_tokenize ht)
  exact .of_lt (within_of_mem_tokenize ht) (start_lt_stop_of_mem_tokenize ht) newText

end Anchored

/-- Each token starts behind the start of the one before it, and not before its end. -/
theorem pairwise_range_tokenize (text : List Char) :
    ((tokenize text).map (·.range)).Pairwise fun r s => r.start < s.start ∧ r.stop ≤ s.start := by
  rw [List.pairwise_map]
  apply (pairwise_place Position.origin 0 (lexemes text)).imp_of_mem
  intro s t hs _ hle
  exact ⟨Position.lt_of_lt_of_le (start_lt_stop_of_mem_tokenize hs) hle, hle⟩

theorem exists_split_cons_iff {α : Type} {x : α} {xs : List α} {P : List α → α → List α → Prop} :
    (∃ before y after, x :: xs = before ++ y :: after ∧ P before y after) ↔
      P [] x xs ∨ ∃ before y after, xs = before ++ y :: after ∧ P (x :: before) y after := by
  constructor
  · rintro ⟨before, y, after, hsplit, hP⟩
    cases before with
    | nil =>
      obtain ⟨rfl, rfl⟩ := List.cons.inj hsplit
      exact Or.inl hP
    | cons z before =>
      obtain ⟨rfl, rfl⟩ := List.cons.inj hsplit
      exact Or.inr ⟨before, y, after, rfl, hP⟩
  · rintro (hP | ⟨before, y, after, rfl, hP⟩)
    · exact ⟨[], x, xs, rfl, hP⟩
    · exact ⟨x :: before, y, after, rfl, hP⟩

namespace Finding

variable {ts rest : List Token} {t : Token} {f : Finding}

theorem exists_of_mem_along {look : Token → List Token → Option Finding} (h : f ∈ along look ts) :
    ∃ t rest, look t rest = some f ∧ (t :: rest) <:+ ts := by
  induction ts with
  | nil => simp [along] at h
  | cons t ts ih =>
    rw [along, List.mem_append, Option.mem_toList] at h
    rcases h with h | h
    · exact ⟨t, ts, h, List.suffix_rfl⟩
    · obtain ⟨u, rest, hlook, hsuffix⟩ := ih h
      exact ⟨u, rest, hlook, hsuffix.trans (List.suffix_cons t ts)⟩

/-- Whether a look finds the lexemes that satisfy `p`, given those behind them, and reports each
with its own range. -/
def Reports (look : Token → List Token → Option Finding) (p : Lexeme → List Lexeme → Bool) : Prop :=
  ∀ t rest, (look t rest).map (·.range) =
    if p t.toLexeme (rest.map Token.toLexeme) then some t.range else none

section Reports

variable {look : Token → List Token → Option Finding} {p : Lexeme → List Lexeme → Bool}

theorem Reports.sublist (h : Reports look p) (ts : List Token) :
    ((along look ts).map (·.range)).Sublist (ts.map (·.range)) := by
  induction ts with
  | nil => exact List.Sublist.slnil
  | cons t ts ih =>
    have ht := h t ts
    rw [along, List.map_append, List.map_cons]
    cases hlook : look t ts with
    | none => exact ih.cons t.range
    | some f =>
      rw [hlook, Option.map_some] at ht
      split_ifs at ht
      rw [← Option.some.inj ht]
      exact ih.cons_cons f.range

theorem Reports.mem_iff (h : Reports look p) {q : Position} {offset : Nat} {ls : List Lexeme}
    {range : Range} :
    range ∈ (along look (place q offset ls)).map (·.range) ↔
      ∃ before l after, ls = before ++ l :: after ∧ p l after = true ∧
        range = ⟨q.advanceAll before, (q.advanceAll before).advance l.chars⟩ := by
  induction ls generalizing q offset with
  | nil => simp [place, along]
  | cons l ls ih =>
    have hl := h (l.placed q offset)
      (place (q.advance l.chars) (offset + Text.byteLength l.chars) ls)
    rw [map_toLexeme_place] at hl
    have hhere : range ∈ ((look (l.placed q offset)
        (place (q.advance l.chars) (offset + Text.byteLength l.chars) ls)).toList).map (·.range) ↔
          p l ls = true ∧ range = ⟨q, q.advance l.chars⟩ := by
      rw [← Option.toList_map, hl, Option.mem_toList,
        show (l.placed q offset).toLexeme = l from rfl]
      split_ifs with hp
      · simp [hp, Lexeme.placed, eq_comm]
      · simp [hp]
    rw [place_cons, along, List.map_append, List.mem_append, hhere, ih, exists_split_cons_iff]
    rfl

end Reports

theorem suffix_of_next? (h : next? ts = some (t, rest)) : (t :: rest) <:+ ts := by
  induction ts with
  | nil => simp [next?] at h
  | cons u ts ih =>
    rw [next?] at h
    split_ifs at h
    · obtain ⟨rfl, rfl⟩ := Prod.mk.inj (Option.some.inj h)
      exact List.suffix_rfl
    · exact (ih h).trans (List.suffix_cons u ts)

theorem mem_of_nextIf? {p : Token → Bool} (h : nextIf? p ts = some (t, rest)) : t ∈ ts :=
  (suffix_of_next? (Option.filter_eq_some_iff.mp h).1).subset List.mem_cons_self

theorem suffix_of_nextIf? {p : Token → Bool} (h : nextIf? p ts = some (t, rest)) : rest <:+ ts :=
  (List.suffix_cons t rest).trans (suffix_of_next? (Option.filter_eq_some_iff.mp h).1)

end Finding

namespace Select

/-- What the rule on commas before FROM finds at a token. -/
def commaAt (t : Token) (rest : List Token) : Option Finding :=
  if t.isPunctuation "," ∧ (Finding.nextIf? (·.isKeyword "FROM") rest).isSome then
    some { range := t.range, fix := Fix.delete "Remove trailing comma" t.range }
  else none

/-- What the rule on modifiers of SELECT finds at a token. -/
def modifierAt (select : Token) (rest : List Token) : Option Finding :=
  if select.isKeyword "SELECT" then do
    let (modifier, _) ←
      Finding.nextIf? (fun t => modifierWords.any fun word => t.isKeyword word) rest
    if modifier.range.start.line ≠ select.range.stop.line then
      some { range := select.range.cover modifier.range }
    else none
  else none

/-- What the rule on parentheses behind DISTINCT finds at a token. -/
def parenthesesAt (select : Token) (rest : List Token) : Option Finding :=
  if select.isKeyword "SELECT" then do
    let (distinct, rest) ← Finding.nextIf? (·.isKeyword "DISTINCT") rest
    let (_, rest) ← Finding.nextIf? (·.isPunctuation "(") rest
    let (column, close) ← closedColumn? rest
    let range := distinct.range.cover close.range
    some
      { range
        fix := Fix.replace "Remove parentheses" range
          (String.ofList (distinct.chars ++ ' ' :: column)) }
  else none

theorem trailingComma_eq_along (d : Document) : trailingComma d = Finding.along commaAt d.tokens :=
  rfl

theorem modifiers_eq_along (d : Document) : modifiers d = Finding.along modifierAt d.tokens :=
  rfl

theorem distinctParentheses_eq_along (d : Document) :
    distinctParentheses d = Finding.along parenthesesAt d.tokens :=
  rfl

section Looks

variable {select t : Token} {ts rest : List Token} {f : Finding}

theorem of_commaAt (h : commaAt t rest = some f) :
    t.isPunctuation "," = true ∧
      (Finding.nextIf? (·.isKeyword "FROM") rest).isSome = true ∧
      f = { range := t.range, fix := Fix.delete "Remove trailing comma" t.range } := by
  unfold commaAt at h
  split_ifs at h with hcomma
  exact ⟨hcomma.1, hcomma.2, (Option.some.inj h).symm⟩

theorem exists_of_modifierAt (h : modifierAt select rest = some f) :
    select.isKeyword "SELECT" = true ∧ ∃ modifier behind,
      Finding.nextIf? (fun t => modifierWords.any fun word => t.isKeyword word) rest =
        some (modifier, behind) ∧
      modifier.range.start.line ≠ select.range.stop.line ∧
      f = { range := select.range.cover modifier.range } := by
  unfold modifierAt at h
  split_ifs at h with hselect
  obtain ⟨⟨modifier, behind⟩, hnext, h⟩ := Option.bind_eq_some_iff.mp h
  dsimp only at h
  split_ifs at h with hline
  exact ⟨hselect, modifier, behind, hnext, hline, (Option.some.inj h).symm⟩

theorem exists_close_of_closedColumn? {column : List Char} {close : Token}
    (h : closedColumn? ts = some (column, close)) :
    ∃ rest behind, rest <:+ ts ∧
      Finding.nextIf? (·.isPunctuation ")") rest = some (close, behind) := by
  unfold closedColumn? at h
  obtain ⟨⟨first, rest⟩, hfirst, h⟩ := Option.bind_eq_some_iff.mp h
  have hrest := Finding.suffix_of_nextIf? hfirst
  dsimp only at h
  split at h
  · obtain ⟨⟨close, behind⟩, hclose, h⟩ := Option.bind_eq_some_iff.mp h
    obtain ⟨-, rfl⟩ := Prod.mk.inj (Option.some.inj h)
    exact ⟨rest, behind, hrest, hclose⟩
  · rename_i dot rest' hdot
    obtain ⟨⟨second, rest''⟩, hsecond, h⟩ := Option.bind_eq_some_iff.mp h
    obtain ⟨⟨close, behind⟩, hclose, h⟩ := Option.bind_eq_some_iff.mp h
    obtain ⟨-, rfl⟩ := Prod.mk.inj (Option.some.inj h)
    have hdotted := (Finding.suffix_of_nextIf? hsecond).trans (Finding.suffix_of_nextIf? hdot)
    exact ⟨rest'', behind, hdotted.trans hrest, hclose⟩

theorem exists_of_parenthesesAt (h : parenthesesAt select rest = some f) :
    select.isKeyword "SELECT" = true ∧ ∃ distinct behind opened inside column close,
      Finding.nextIf? (·.isKeyword "DISTINCT") rest = some (distinct, behind) ∧
      Finding.nextIf? (·.isPunctuation "(") behind = some (opened, inside) ∧
      closedColumn? inside = some (column, close) ∧
      f = { range := distinct.range.cover close.range,
            fix := Fix.replace "Remove parentheses" (distinct.range.cover close.range)
              (String.ofList (distinct.chars ++ ' ' :: column)) } := by
  unfold parenthesesAt at h
  split_ifs at h with hselect
  obtain ⟨⟨distinct, behind⟩, hdistinct, h⟩ := Option.bind_eq_some_iff.mp h
  obtain ⟨⟨opened, inside⟩, hopened, h⟩ := Option.bind_eq_some_iff.mp h
  obtain ⟨⟨column, close⟩, hclosed, h⟩ := Option.bind_eq_some_iff.mp h
  exact ⟨hselect, distinct, behind, opened, inside, column, close, hdistinct, hopened, hclosed,
    (Option.some.inj h).symm⟩

theorem exists_cover_of_parenthesesAt (h : parenthesesAt select rest = some f) :
    ∃ distinct ∈ rest, ∃ close ∈ rest, ∃ newText,
      f = { range := distinct.range.cover close.range,
            fix := Fix.replace "Remove parentheses" (distinct.range.cover close.range)
              newText } := by
  obtain ⟨-, distinct, behind, opened, inside, column, close, hdistinct, hopened, hclosed, rfl⟩ :=
    exists_of_parenthesesAt h
  obtain ⟨between, after, hbetween, hclose⟩ := exists_close_of_closedColumn? hclosed
  refine ⟨distinct, Finding.mem_of_nextIf? hdistinct, close, ?_, _, rfl⟩
  apply (Finding.suffix_of_nextIf? hdistinct).subset
  apply (Finding.suffix_of_nextIf? hopened).subset
  exact hbetween.subset (Finding.mem_of_nextIf? hclose)

end Looks

end Select

section Rules

variable {text : List Char} {f : Finding}

/-- What a document starts with, if that is trivia, ends before the content. -/
theorem lt_content_of_trivia {t : Token} {ts : List Token} (h : tokenize text = t :: ts)
    (htrivia : t.isTrivia = true) :
    let content := (((tokenize text).find? fun t => !t.isTrivia).map (·.range.start)).getD
      (Document.parse text).stop
    IsBoundary text content ∧ t.range.start < content := by
  intro content
  have ht : t ∈ tokenize text := h ▸ List.mem_cons_self
  have hlt := start_lt_stop_of_mem_tokenize ht
  cases hfind : (tokenize text).find? fun t => !t.isTrivia with
  | none =>
    have hcontent : content = (Document.parse text).stop := by simp only [content, hfind]; rfl
    rw [hcontent]
    exact ⟨isBoundary_parse_stop ht, Position.lt_of_lt_of_le hlt (isBoundary_stop ht).le_stop⟩
  | some u =>
    have hcontent : content = u.range.start := by simp only [content, hfind]; rfl
    have hu : u ∈ tokenize text := List.mem_of_find?_eq_some hfind
    have huts : u ∈ ts := by
      rw [h] at hu
      rcases List.mem_cons.mp hu with rfl | hu
      · have hkept := List.find?_some hfind
        simp [htrivia] at hkept
      · exact hu
    have hpairwise := pairwise_place Position.origin 0 (lexemes text)
    change (tokenize text).Pairwise _ at hpairwise
    rw [h] at hpairwise
    rw [hcontent]
    exact ⟨isBoundary_start hu,
      Position.lt_of_lt_of_le hlt (List.rel_of_pairwise_cons hpairwise huts)⟩

theorem anchored_of_leadingWhitespace
    (h : f ∈ Layout.leadingWhitespace (Document.parse text)) : f.Anchored text := by
  unfold Layout.leadingWhitespace at h
  split at h
  · simp at h
  · rename_i t ts htokens
    split_ifs at h with htrivia
    · obtain rfl := List.mem_singleton.mp h
      change tokenize text = t :: ts at htokens
      have ht : t ∈ tokenize text := htokens ▸ List.mem_cons_self
      obtain ⟨hcontent, hlt⟩ := lt_content_of_trivia htokens htrivia
      apply Finding.Anchored.replace (within_of_mem_tokenize ht)
      have hle := Position.le_of_lt hlt
      apply Edit.Anchored.of_lt (.between (isBoundary_start ht) hcontent hle)
      exact (Range.between_of_le hle).symm ▸ hlt
    · simp at h

theorem anchored_of_trailingWhitespace
    (h : f ∈ Layout.trailingWhitespace (Document.parse text)) : f.Anchored text := by
  obtain ⟨t, rest, hlook, hsuffix⟩ := Finding.exists_of_mem_along h
  split_ifs at hlook
  obtain rfl := Option.some.inj hlook
  exact .ofToken (hsuffix.subset List.mem_cons_self) _ _

theorem anchored_of_finalNewline
    (h : f ∈ Layout.finalNewline (Document.parse text)) : f.Anchored text := by
  unfold Layout.finalNewline at h
  dsimp only at h
  split at h
  · simp at h
  · rename_i last rest hlast
    split_ifs at h
    · simp at h
    · obtain rfl := List.mem_singleton.mp h
      have hmem : last ∈ tokenize text := by
        rw [← List.mem_reverse]
        exact (List.dropWhile_suffix _).subset (hlast ▸ List.mem_cons_self)
      have hstop := isBoundary_parse_stop hmem
      have hle := (isBoundary_stop hmem).le_stop
      apply Finding.Anchored.replace (.of_boundaries hstop hstop (Position.le_refl _))
      refine ⟨.between (isBoundary_stop hmem) hstop hle, ?_⟩
      intro hempty
      rw [Range.between_of_le hle] at hempty ⊢
      exact hempty

theorem exists_of_mem_lineStartCommas {fresh : Bool} {ts : List Token}
    (h : f ∈ Layout.lineStartCommas fresh ts) : ∃ t ∈ ts, f = { range := t.range } := by
  induction ts generalizing fresh with
  | nil => simp [Layout.lineStartCommas] at h
  | cons t ts ih =>
    rw [Layout.lineStartCommas, List.mem_append] at h
    rcases h with h | h
    · split_ifs at h
      · exact ⟨t, List.mem_cons_self, List.mem_singleton.mp h⟩
      · simp at h
    · obtain ⟨u, hu, rfl⟩ := ih h
      exact ⟨u, List.mem_cons_of_mem t hu, rfl⟩

theorem anchored_of_commas {position : CommaPosition}
    (h : f ∈ Layout.commas position (Document.parse text)) : f.Anchored text := by
  cases position with
  | trailing =>
    obtain ⟨t, ht, rfl⟩ := exists_of_mem_lineStartCommas h
    exact .plain (within_of_mem_tokenize ht)
  | leading =>
    obtain ⟨t, rest, hlook, hsuffix⟩ := Finding.exists_of_mem_along h
    split_ifs at hlook
    obtain rfl := Option.some.inj hlook
    exact .plain (within_of_mem_tokenize (hsuffix.subset List.mem_cons_self))

theorem anchored_of_trailingComma
    (h : f ∈ Select.trailingComma (Document.parse text)) : f.Anchored text := by
  rw [Select.trailingComma_eq_along] at h
  obtain ⟨t, rest, hlook, hsuffix⟩ := Finding.exists_of_mem_along h
  obtain ⟨-, -, rfl⟩ := Select.of_commaAt hlook
  exact .ofToken (hsuffix.subset List.mem_cons_self) _ _

theorem mem_tokenize_of_statement {s : Statement} {t : Token}
    (hs : s ∈ (Document.parse text).statements) (ht : t ∈ s.tokens) : t ∈ tokenize text := by
  rw [(exists_segment_of_mem hs).2] at ht
  exact List.mem_of_mem_take (mem_take_of_mem_tokensAt ht)

theorem exists_of_finding? {t : Token} {rest : List Token} (h : Null.finding? t rest = some f) :
    ∃ replacement, Null.instead? t = some replacement ∧
      (Finding.nextIf? (·.isKeyword "NULL") rest).isSome = true ∧
      f = { range := t.range,
            fix := Fix.replace ("Replace with " ++ replacement) t.range replacement } := by
  rw [Null.finding?] at h
  obtain ⟨replacement, hinstead, h⟩ := Option.bind_eq_some_iff.mp h
  obtain ⟨next, hnext, h⟩ := Option.bind_eq_some_iff.mp h
  exact ⟨replacement, hinstead, Option.isSome_of_mem hnext, (Option.some.inj h).symm⟩

theorem exists_suffix_of_mem_findingsFrom {assigning : Bool} {ts : List Token}
    (h : f ∈ Null.findingsFrom assigning ts) :
    ∃ t rest, Null.finding? t rest = some f ∧ (t :: rest) <:+ ts := by
  induction ts generalizing assigning with
  | nil => simp [Null.findingsFrom] at h
  | cons t ts ih =>
    have hlater : ∀ assigning, f ∈ Null.findingsFrom assigning ts →
        ∃ u rest, Null.finding? u rest = some f ∧ (u :: rest) <:+ t :: ts := by
      intro assigning h
      obtain ⟨u, rest, hf, hsuffix⟩ := ih h
      exact ⟨u, rest, hf, hsuffix.trans (List.suffix_cons t ts)⟩
    rw [Null.findingsFrom] at h
    split_ifs at h
    · exact hlater _ h
    · exact hlater _ h
    · exact hlater _ h
    · rcases List.mem_append.mp h with h | h
      · exact ⟨t, ts, Option.mem_toList.mp h, List.suffix_rfl⟩
      · exact hlater _ h

theorem exists_of_mem_findingsFrom {assigning : Bool} {ts : List Token}
    (h : f ∈ Null.findingsFrom assigning ts) :
    ∃ t ∈ ts, ∃ label newText,
      f = { range := t.range, fix := Fix.replace label t.range newText } := by
  obtain ⟨t, rest, hf, hsuffix⟩ := exists_suffix_of_mem_findingsFrom h
  obtain ⟨replacement, -, -, rfl⟩ := exists_of_finding? hf
  exact ⟨t, hsuffix.subset List.mem_cons_self, _, _, rfl⟩

theorem anchored_of_comparisons
    (h : f ∈ Null.comparisons (Document.parse text)) : f.Anchored text := by
  obtain ⟨s, hs, h⟩ := List.mem_flatMap.mp h
  obtain ⟨t, ht, label, newText, rfl⟩ := exists_of_mem_findingsFrom h
  exact .ofToken (mem_tokenize_of_statement hs ht) label newText

theorem anchored_of_modifiers
    (h : f ∈ Select.modifiers (Document.parse text)) : f.Anchored text := by
  rw [Select.modifiers_eq_along] at h
  obtain ⟨select, rest, hlook, hsuffix⟩ := Finding.exists_of_mem_along h
  obtain ⟨-, modifier, behind, hnext, -, rfl⟩ := Select.exists_of_modifierAt hlook
  have hmodifier : modifier ∈ tokenize text := by
    apply hsuffix.subset
    apply List.mem_cons_of_mem
    exact Finding.mem_of_nextIf? hnext
  apply Finding.Anchored.plain
  exact (within_of_mem_tokenize (hsuffix.subset List.mem_cons_self)).cover
    (within_of_mem_tokenize hmodifier)

theorem anchored_of_distinctParentheses
    (h : f ∈ Select.distinctParentheses (Document.parse text)) : f.Anchored text := by
  rw [Select.distinctParentheses_eq_along] at h
  obtain ⟨select, rest, hlook, hsuffix⟩ := Finding.exists_of_mem_along h
  obtain ⟨distinct, hdistinct, close, hclose, newText, rfl⟩ :=
    Select.exists_cover_of_parenthesesAt hlook
  have hrest : rest <:+ tokenize text := (List.suffix_cons select rest).trans hsuffix
  have hmem : distinct ∈ tokenize text := hrest.subset hdistinct
  have hwithin := (within_of_mem_tokenize hmem).cover (within_of_mem_tokenize (hrest.subset hclose))
  apply Finding.Anchored.replace hwithin
  exact .of_lt hwithin (Range.cover_start_lt_stop (start_lt_stop_of_mem_tokenize hmem)) _

end Rules

theorem anchored_of_mem_findings {text : List Char} {check : Check} {f : Finding}
    (h : f ∈ check.findings (Document.parse text)) : f.Anchored text := by
  cases check with
  | leadingWhitespace => exact anchored_of_leadingWhitespace h
  | trailingWhitespace => exact anchored_of_trailingWhitespace h
  | finalNewline => exact anchored_of_finalNewline h
  | leadingComma position => exact anchored_of_commas h
  | selectTrailingComma => exact anchored_of_trailingComma h
  | isNull => exact anchored_of_comparisons h
  | selectModifiers => exact anchored_of_modifiers h
  | distinctParentheses => exact anchored_of_distinctParentheses h

end QueryLint
