import QueryLint.Linter
import QueryLint.Proofs.Rule.Order
import QueryLint.Proofs.Token.Boundary

/-!
# What rules look at

Of a token, rules look at the kind and the range, at the keyword or mark that it
is, and at whether it is a comment up to the end of its line; one rule copies the
characters of names. A map of tokens that keeps this much (`Token.Relabels`) cuts
a document into the same statements, and rules find in it what they found before
(`map_diagnostics_relabel`). So texts whose tokens agree up to such a map are
linted alike (`map_lint_of_relabels`).
-/
namespace QueryLint

/-- Whether a map of tokens keeps what rules look at. It keeps the characters of
names and keywords as far as `f` tells them apart. -/
structure Token.Relabels (f : Char → Char) (g : Token → Token) : Prop where
  kind : ∀ t, (g t).kind = t.kind
  range : ∀ t, (g t).range = t.range
  isLineComment : ∀ t, (g t).isLineComment = t.isLineComment
  isKeyword : ∀ t word, (g t).isKeyword word = t.isKeyword word
  isPunctuation : ∀ t (mark : String), (mark.toList.all fun c => !c.isAlpha) = true →
    (g t).isPunctuation mark = t.isPunctuation mark
  chars : ∀ t, t.kind = .identifier ∨ t.kind = .keyword → (g t).chars.map f = t.chars.map f

def Statement.relabel (g : Token → Token) (s : Statement) : Statement :=
  { s with tokens := s.tokens.map g }

theorem Statement.ofPieces_relabel {g : Token → Token} (hg : ∀ t, (g t).isTrivia = t.isTrivia)
    (id first : Nat) (ps : List (List Token)) :
    Statement.ofPieces id first (ps.map (List.map g)) =
      (Statement.ofPieces id first ps).map (·.relabel g) := by
  induction ps generalizing id first with
  | nil => rfl
  | cons piece ps ih =>
    have hall : (piece.map g).all (·.isTrivia) = piece.all (·.isTrivia) := by
      rw [List.all_map]
      exact congrArg piece.all (funext hg)
    simp only [List.map_cons, Statement.ofPieces, hall, ih, List.length_map]
    split_ifs
    · rfl
    · simp [Statement.relabel]

/-- A document with its tokens mapped. No rule looks at the text itself, and it
is left out. -/
def Document.relabel (g : Token → Token) (d : Document) : Document :=
  { d with text := [], tokens := d.tokens.map g, statements := d.statements.map (·.relabel g) }

/-- A fix with the characters of its new texts mapped. -/
def Fix.mapText (f : Char → Char) (fix : Fix) : Fix :=
  { fix with
    edits := fix.edits.map fun e => { e with newText := String.ofList (e.newText.toList.map f) } }

def Finding.mapText (f : Char → Char) (x : Finding) : Finding :=
  { x with fix := x.fix.map (·.mapText f) }

namespace Token.Relabels

variable {f : Char → Char} {g : Token → Token} (h : Token.Relabels f g) (t : Token)
include h

theorem isTrivia : (g t).isTrivia = t.isTrivia := by
  simp only [Lexeme.isTrivia, h.kind]

theorem isSignificant : (g t).isSignificant = t.isSignificant := by
  simp only [Lexeme.isSignificant, Lexeme.isComment, h.isTrivia, h.kind]

theorem separates (depth : Nat) : (g t).separates depth = t.separates depth := by
  simp only [Lexeme.separates, h.isPunctuation t ";" (by decide)]

theorem chars_eq_singleton (hkind : t.kind = .punctuation) {c : Char} (hc : c.isAlpha = false) :
    (g t).chars = [c] ↔ t.chars = [c] := by
  have hmark := h.isPunctuation t (String.ofList [c]) (by simp [hc])
  rw [Bool.eq_iff_iff] at hmark
  simpa [Lexeme.isPunctuation, h.kind, hkind] using hmark

theorem depthAfter (depth : Nat) : (g t).depthAfter depth = t.depthAfter depth := by
  unfold Lexeme.depthAfter
  rw [h.kind]
  by_cases hkind : t.kind = .punctuation
  · simp (disch := decide) only [if_pos hkind, h.chars_eq_singleton t hkind]
  · rw [if_neg hkind, if_neg hkind]

theorem pieces_map (depth : Nat) (ts : List Token) :
    pieces depth (ts.map g) = (pieces depth ts).map (List.map g) :=
  QueryLint.pieces_map h.separates h.depthAfter depth ts

theorem ofPieces_map (id first : Nat) (ps : List (List Token)) :
    Statement.ofPieces id first (ps.map (List.map g)) =
      (Statement.ofPieces id first ps).map (·.relabel g) :=
  Statement.ofPieces_relabel h.isTrivia id first ps

end Token.Relabels

namespace Finding

variable {f : Char → Char} {g : Token → Token}

theorem along_map {α : Type} {look : Token → List Token → Option Finding} {v : Finding → α}
    (hlook : ∀ t ts, (look (g t) (ts.map g)).map v = (look t ts).map v) (ts : List Token) :
    (along look (ts.map g)).map v = (along look ts).map v := by
  induction ts with
  | nil => rfl
  | cons t ts ih =>
    rw [List.map_cons, along, along, List.map_append, List.map_append, ih]
    rw [← Option.toList_map, ← Option.toList_map, hlook]

theorem along_relabel {look : Token → List Token → Option Finding}
    (hlook : ∀ t ts, look (g t) (ts.map g) = look t ts) (ts : List Token) :
    along look (ts.map g) = along look ts := by
  have h := along_map (v := id) (fun t ts => congrArg (Option.map id) (hlook t ts)) ts
  rwa [List.map_id, List.map_id] at h

theorem next?_map (h : Token.Relabels f g) (ts : List Token) :
    next? (ts.map g) = (next? ts).map (Prod.map g (List.map g)) := by
  induction ts with
  | nil => rfl
  | cons t ts ih =>
    rw [List.map_cons, next?, next?, h.isSignificant, ih]
    split_ifs <;> rfl

theorem nextIf?_map (h : Token.Relabels f g) {p : Token → Bool} (hp : ∀ t, p (g t) = p t)
    (ts : List Token) :
    nextIf? p (ts.map g) = (nextIf? p ts).map (Prod.map g (List.map g)) := by
  rw [nextIf?, next?_map h, nextIf?]
  cases next? ts with
  | none => rfl
  | some found => simp only [Option.map_some, Option.filter_some, Prod.map_fst, hp]; split <;> rfl

theorem nextKeyword_map (h : Token.Relabels f g) (word : String) (ts : List Token) :
    nextIf? (·.isKeyword word) (ts.map g) =
      (nextIf? (·.isKeyword word) ts).map (Prod.map g (List.map g)) :=
  nextIf?_map h (fun t => h.isKeyword t word) ts

theorem nextMark_map (h : Token.Relabels f g) {mark : String}
    (hmark : (mark.toList.all fun c => !c.isAlpha) = true) (ts : List Token) :
    nextIf? (·.isPunctuation mark) (ts.map g) =
      (nextIf? (·.isPunctuation mark) ts).map (Prod.map g (List.map g)) :=
  nextIf?_map h (fun t => h.isPunctuation t mark hmark) ts

end Finding

section Rules

variable {f : Char → Char} {g : Token → Token} (h : Token.Relabels f g) (d : Document)
include h

theorem leadingWhitespace_relabel :
    Layout.leadingWhitespace (d.relabel g) = Layout.leadingWhitespace d := by
  have hfind : ((d.tokens.map g).find? fun t => !t.isTrivia).map (·.range.start) =
      (d.tokens.find? fun t => !t.isTrivia).map (·.range.start) := by
    have hp : (fun t : Token => !t.isTrivia) ∘ g = fun t => !t.isTrivia :=
      funext fun t => congrArg not (h.isTrivia t)
    rw [List.find?_map, hp, Option.map_map]
    exact congrArg (Option.map · _) (funext fun t => congrArg Range.start (h.range t))
  unfold Layout.leadingWhitespace
  simp only [Document.relabel, hfind]
  cases d.tokens with
  | nil => rfl
  | cons t ts => simp only [List.map_cons, h.isTrivia, h.range]

theorem trailingWhitespace_relabel :
    Layout.trailingWhitespace (d.relabel g) = Layout.trailingWhitespace d := by
  apply Finding.along_relabel
  intro t ts
  have hhead : (ts.map g).head?.all (·.kind == .newline) = ts.head?.all (·.kind == .newline) := by
    cases ts with
    | nil => rfl
    | cons u ts => exact congrArg (· == TokenKind.newline) (h.kind u)
  simp only [hhead, h.kind, h.range]

theorem finalNewline_relabel : Layout.finalNewline (d.relabel g) = Layout.finalNewline d := by
  have htrivia : (fun t : Token => t.isTrivia) ∘ g = fun t => t.isTrivia := funext h.isTrivia
  have hnewline : (fun t : Token => t.kind == .newline) ∘ g = fun t => t.kind == .newline :=
    funext fun t => congrArg (· == TokenKind.newline) (h.kind t)
  unfold Layout.finalNewline
  simp only [Document.relabel, ← List.map_reverse, List.dropWhile_map, List.takeWhile_map,
    List.countP_map, List.head?_map, Option.any_map, htrivia, hnewline, h.kind]
  cases d.tokens.reverse.dropWhile (·.isTrivia) with
  | nil => rfl
  | cons last rest => simp only [List.map_cons, h.range]

theorem lineStartCommas_relabel (fresh : Bool) (ts : List Token) :
    Layout.lineStartCommas fresh (ts.map g) = Layout.lineStartCommas fresh ts := by
  induction ts generalizing fresh with
  | nil => rfl
  | cons t ts ih =>
    simp only [List.map_cons, Layout.lineStartCommas, ih, h.isPunctuation t "," (by decide), h.kind,
      h.range]

theorem atLineEnd_relabel (ts : List Token) :
    Layout.atLineEnd (ts.map g) = Layout.atLineEnd ts := by
  have hkept : (fun t : Token => t.kind != .whitespace && !t.isLineComment) ∘ g =
      fun t => t.kind != .whitespace && !t.isLineComment := by
    funext t
    simp only [Function.comp_apply, h.kind, h.isLineComment]
  unfold Layout.atLineEnd
  rw [List.find?_map, hkept, Option.all_map]
  simp only [h.kind]

theorem commas_relabel (position : CommaPosition) :
    Layout.commas position (d.relabel g) = Layout.commas position d := by
  cases position with
  | trailing => exact lineStartCommas_relabel h true d.tokens
  | leading =>
    apply Finding.along_relabel
    intro t ts
    simp only [atLineEnd_relabel h, h.isPunctuation t "," (by decide), h.range]

theorem trailingComma_relabel :
    Select.trailingComma (d.relabel g) = Select.trailingComma d := by
  apply Finding.along_relabel
  intro t ts
  simp only [Finding.nextKeyword_map h, Option.isSome_map, h.isPunctuation t "," (by decide),
    h.range]

theorem instead?_relabel (t : Token) : Null.instead? (g t) = Null.instead? t := by
  simp only [Null.instead?, h.isPunctuation t "=" (by decide), h.isPunctuation t "!=" (by decide),
    h.isPunctuation t "<>" (by decide)]

theorem finding?_relabel (t : Token) (ts : List Token) :
    Null.finding? (g t) (ts.map g) = Null.finding? t ts := by
  unfold Null.finding?
  rw [instead?_relabel h, Finding.nextKeyword_map h, h.range]
  cases Null.instead? t with
  | none => rfl
  | some replacement => cases Finding.nextIf? (·.isKeyword "NULL") ts <;> rfl

theorem findingsFrom_relabel (assigning : Bool) (ts : List Token) :
    Null.findingsFrom assigning (ts.map g) = Null.findingsFrom assigning ts := by
  induction ts generalizing assigning with
  | nil => rfl
  | cons t ts ih =>
    simp only [List.map_cons, Null.findingsFrom, ih, h.isKeyword, finding?_relabel h]

theorem comparisons_relabel : Null.comparisons (d.relabel g) = Null.comparisons d := by
  unfold Null.comparisons
  simp only [Document.relabel, List.flatMap_map, Statement.relabel, findingsFrom_relabel h]

theorem modifiers_relabel : Select.modifiers (d.relabel g) = Select.modifiers d := by
  apply Finding.along_relabel
  intro select ts
  have hmodifier : ∀ t, (Select.modifierWords.any fun word => (g t).isKeyword word) =
      Select.modifierWords.any fun word => t.isKeyword word := by
    intro t
    simp only [h.isKeyword]
  rw [h.isKeyword, Finding.nextIf?_map h hmodifier]
  split_ifs
  · cases Finding.nextIf? (fun t => Select.modifierWords.any fun word => t.isKeyword word) ts with
    | none => rfl
    | some found => simp only [Option.map_some, Option.bind_eq_bind, Option.bind_some,
        Prod.map_fst, h.range]
  · rfl

theorem closedColumn?_relabel (ts : List Token) :
    (Select.closedColumn? (ts.map g)).map (Prod.map (List.map f) Token.range) =
      (Select.closedColumn? ts).map (Prod.map (List.map f) Token.range) := by
  have hname : ∀ t, Select.isName (g t) = Select.isName t := fun t => by
    simp only [Select.isName, h.kind]
  have hchars : ∀ {ts t rest}, Finding.nextIf? Select.isName ts = some (t, rest) →
      (g t).chars.map f = t.chars.map f := by
    intro ts t rest hnext
    have hkind : Select.isName t = true := (Option.filter_eq_some_iff.mp hnext).2
    exact h.chars t (Or.inl (by simpa [Select.isName] using hkind))
  unfold Select.closedColumn?
  rw [Finding.nextIf?_map h hname]
  cases hfirst : Finding.nextIf? Select.isName ts with
  | none => rfl
  | some found =>
    obtain ⟨first, rest⟩ := found
    simp only [Option.map_some, Option.bind_eq_bind, Option.bind_some, Prod.map_fst, Prod.map_snd]
    rw [Finding.nextMark_map h (by decide)]
    cases Finding.nextIf? (·.isPunctuation ".") rest with
    | none =>
      simp only [Option.map_none]
      rw [Finding.nextMark_map h (by decide)]
      cases Finding.nextIf? (·.isPunctuation ")") rest with
      | none => rfl
      | some close =>
        simp [hchars hfirst, h.range]
    | some dot =>
      simp only [Option.map_some, Prod.map_snd]
      rw [Finding.nextIf?_map h hname]
      cases hsecond : Finding.nextIf? Select.isName dot.2 with
      | none => rfl
      | some second =>
        simp only [Option.map_some, Option.bind_some, Prod.map_fst, Prod.map_snd]
        rw [Finding.nextMark_map h (by decide)]
        cases Finding.nextIf? (·.isPunctuation ")") second.2 with
        | none => rfl
        | some close =>
          simp [hchars hfirst, hchars hsecond, h.range]

theorem distinctParentheses_relabel :
    (Select.distinctParentheses (d.relabel g)).map (·.mapText f) =
      (Select.distinctParentheses d).map (·.mapText f) := by
  apply Finding.along_map
  intro select ts
  rw [h.isKeyword, Finding.nextKeyword_map h]
  split_ifs
  · cases hdistinct : Finding.nextIf? (·.isKeyword "DISTINCT") ts with
    | none => rfl
    | some distinct =>
      simp only [Option.map_some, Option.bind_eq_bind, Option.bind_some, Prod.map_snd]
      rw [Finding.nextMark_map h (by decide)]
      cases Finding.nextIf? (·.isPunctuation "(") distinct.2 with
      | none => rfl
      | some parenthesis =>
        simp only [Option.map_some, Option.bind_some, Prod.map_snd]
        have hcolumn := closedColumn?_relabel h parenthesis.2
        cases hclosed : Select.closedColumn? parenthesis.2 with
        | none =>
          rw [hclosed, Option.map_none, Option.map_eq_none_iff] at hcolumn
          rw [hcolumn]
          rfl
        | some closed =>
          rw [hclosed, Option.map_some, Option.map_eq_some_iff] at hcolumn
          obtain ⟨closed', hclosed', hsame⟩ := hcolumn
          obtain ⟨hchars, hrange⟩ := Prod.mk.inj hsame
          have hkeyword : distinct.1.kind = .keyword := by
            have hfound := (Option.filter_eq_some_iff.mp hdistinct).2
            simp only [Lexeme.isKeyword, Bool.and_eq_true, beq_iff_eq] at hfound
            exact hfound.1
          rw [hclosed']
          simp [Finding.mapText, Fix.mapText, Fix.replace, h.range, hchars, hrange,
            h.chars distinct.1 (Or.inr hkeyword)]
  · rfl

end Rules

/-- A diagnostic with the characters mapped that the rule on parentheses behind
DISTINCT copies from the text. -/
def Diagnostic.mapCopied (f : Char → Char) (x : Diagnostic) : Diagnostic :=
  if x.source = RuleKind.distinctParentheses.name then { x with fix := x.fix.map (·.mapText f) }
  else x

section Diagnostics

variable {f : Char → Char} {g : Token → Token}

theorem findings_relabel (h : Token.Relabels f g) (d : Document) {check : Check}
    (hcheck : check.kind ≠ .distinctParentheses) :
    check.findings (d.relabel g) = check.findings d := by
  cases check with
  | leadingWhitespace => exact leadingWhitespace_relabel h d
  | trailingWhitespace => exact trailingWhitespace_relabel h d
  | finalNewline => exact finalNewline_relabel h d
  | leadingComma position => exact commas_relabel h d position
  | selectTrailingComma => exact trailingComma_relabel h d
  | isNull => exact comparisons_relabel h d
  | selectModifiers => exact modifiers_relabel h d
  | distinctParentheses => exact absurd rfl hcheck

theorem mapCopied_diagnose (r : Rule) (x : Finding) :
    (r.diagnose x).mapCopied f =
      r.diagnose (if r.kind = .distinctParentheses then x.mapText f else x) := by
  have hsource : (r.diagnose x).source = RuleKind.distinctParentheses.name ↔
      r.kind = .distinctParentheses :=
    RuleKind.name_injective.eq_iff
  unfold Diagnostic.mapCopied
  simp only [hsource]
  split_ifs <;> rfl

theorem map_findings_relabel (h : Token.Relabels f g) (d : Document) (r : Rule) :
    ((r.check.findings (d.relabel g)).map fun x => (r.diagnose x).mapCopied f) =
      (r.check.findings d).map fun x => (r.diagnose x).mapCopied f := by
  simp only [mapCopied_diagnose]
  -- One rule copies characters of the text; the others find exactly the same.
  by_cases hkind : r.kind = .distinctParentheses
  · have hcheck : r.check = .distinctParentheses := by
      cases hr : r.check <;> simp_all [Rule.kind, Check.kind]
    have hfindings := congrArg (List.map r.diagnose) (distinctParentheses_relabel h d)
    rw [List.map_map, List.map_map] at hfindings
    simp only [if_pos hkind, hcheck]
    exact hfindings
  · rw [findings_relabel h d hkind]

theorem map_diagnostics_relabel (h : Token.Relabels f g) (d : Document) (r : Rule) :
    (r.diagnostics (d.relabel g)).map (·.mapCopied f) = (r.diagnostics d).map (·.mapCopied f) := by
  have hblank : (d.relabel g).isBlank = d.isBlank := List.isEmpty_map
  unfold Rule.diagnostics
  rw [hblank]
  split_ifs
  · rw [List.map_map, List.map_map]
    exact map_findings_relabel h d r
  · rfl

theorem ordered_mapCopied (a b : Diagnostic) :
    (a.mapCopied f).ordered (b.mapCopied f) = a.ordered b := by
  unfold Diagnostic.mapCopied
  split_ifs <;> rfl

theorem map_lintDocument (s : Settings) (d : Document) :
    (s.lintDocument d).map (·.mapCopied f) =
      (((Linter.collect s.lint.buildRules d).map (·.mapCopied f)).mergeSort
        Diagnostic.ordered).take s.maxProblems := by
  unfold Settings.lintDocument Linter.run
  rw [List.map_take, List.map_mergeSort]
  intro a _ b _
  exact (ordered_mapCopied a b).symm

theorem map_lintDocument_relabel (h : Token.Relabels f g) (s : Settings) (d : Document) :
    (s.lintDocument (d.relabel g)).map (·.mapCopied f) =
      (s.lintDocument d).map (·.mapCopied f) := by
  rw [map_lintDocument, map_lintDocument]
  unfold Linter.collect
  simp only [List.map_flatMap, map_diagnostics_relabel h]

theorem parse_stop_eq_getLast? (text : List Char) :
    (Document.parse text).stop =
      ((tokenize text).getLast?.map (·.range.stop)).getD Position.origin := by
  have hstop := parse_stop_eq_advanceAll text
  cases hlast : (tokenize text).getLast? with
  | none =>
    have hnil : lexemes text = [] := by
      rw [← map_toLexeme_place Position.origin 0 (lexemes text)]
      exact congrArg (List.map Token.toLexeme) (List.getLast?_eq_none_iff.mp hlast)
    rw [hstop, hnil]
    rfl
  | some t =>
    rw [hstop]
    exact (stop_of_getLast?_place hlast).2.symm

theorem relabel_parse_eq_of_pieces
    (hpieces : ∀ depth ts, pieces depth (ts.map g) = (pieces depth ts).map (List.map g))
    (htrivia : ∀ t, (g t).isTrivia = t.isTrivia) {a b : List Char}
    (htokens : (tokenize a).map g = (tokenize b).map g)
    (hstop : (Document.parse a).stop = (Document.parse b).stop) :
    (Document.parse a).relabel g = (Document.parse b).relabel g := by
  have hstatements : (Document.parse a).statements.map (·.relabel g) =
      (Document.parse b).statements.map (·.relabel g) := by
    unfold Document.parse
    simp only [← Statement.ofPieces_relabel htrivia, ← hpieces, htokens]
  unfold Document.relabel
  rw [hstop, hstatements]
  exact congrArg (Document.mk [] · _ _) htokens

theorem relabel_parse_eq (h : Token.Relabels f g) {a b : List Char}
    (htokens : (tokenize a).map g = (tokenize b).map g) :
    (Document.parse a).relabel g = (Document.parse b).relabel g := by
  have hlast : ∀ ts : List Token,
      ts.getLast?.map (·.range.stop) = (ts.map g).getLast?.map (·.range.stop) := by
    intro ts
    simp only [List.getLast?_map, Option.map_map, Function.comp_def, h.range]
  apply relabel_parse_eq_of_pieces h.pieces_map h.isTrivia htokens
  rw [parse_stop_eq_getLast?, parse_stop_eq_getLast?, hlast, htokens, ← hlast]

/-- Texts whose tokens agree in what rules look at are linted alike. -/
theorem map_lint_of_relabels (h : Token.Relabels f g) {a b : List Char}
    (htokens : (tokenize a).map g = (tokenize b).map g) (s : Settings) :
    (lint s a).map (·.mapCopied f) = (lint s b).map (·.mapCopied f) := by
  unfold lint
  rw [← map_lintDocument_relabel h, ← map_lintDocument_relabel h s (Document.parse b),
    relabel_parse_eq h htokens]

end Diagnostics

end QueryLint
