import QueryLint.Proofs.Rule.Finding
import QueryLint.Proofs.Statement.Pieces
import QueryLint.Proofs.Token.Restart

/-!
# Looking ahead

The rules on comparisons with NULL and on SELECT look at a token and from there to
the next significant token, once or several times, and never past a semicolon.
So they follow every change of the tokens that keeps the next significant token
(`Finding.Follows`) and moves ranges along with it (`Token.Moves`): tokens that
are moved, that lose what is not significant, or that go on behind a semicolon.
`Finding.Looks` says so of a look, and each rule's look is shown to be one.
-/
namespace QueryLint

theorem Range.map_cover {start stop : Position → Position}
    (hstart : ∀ p q, p ≤ q → start p ≤ start q) (hstop : ∀ p q, p ≤ q → stop p ≤ stop q)
    (r s : Range) :
    (r.cover s).map start stop = (r.map start stop).cover (s.map start stop) := by
  have hmin : ∀ p q, start (min p q) = min (start p) (start q) := by
    intro p q
    rw [Position.min_eq, Position.min_eq]
    split_ifs with h h' h'
    · rfl
    · exact Position.le_antisymm (hstart q p (Position.le_of_lt h)) (Position.not_lt.mp h')
    · exact Position.le_antisymm (hstart p q (Position.not_lt.mp h)) (Position.le_of_lt h')
    · rfl
  have hmax : ∀ p q, stop (max p q) = max (stop p) (stop q) := by
    intro p q
    rw [Position.max_eq, Position.max_eq]
    split_ifs with h h' h'
    · rfl
    · exact Position.le_antisymm (Position.not_lt.mp h') (hstop q p (Position.le_of_lt h))
    · exact Position.le_antisymm (Position.le_of_lt h') (hstop p q (Position.not_lt.mp h))
    · rfl
  simp only [Range.map, Range.cover, hmin, hmax]

def Edit.mapRange (f : Range → Range) (e : Edit) : Edit :=
  { e with range := f e.range }

def Fix.mapRange (f : Range → Range) (fix : Fix) : Fix :=
  { fix with edits := fix.edits.map (·.mapRange f) }

def Finding.mapRange (f : Range → Range) (x : Finding) : Finding :=
  { range := f x.range, fix := x.fix.map (·.mapRange f) }

def Diagnostic.mapRange (f : Range → Range) (x : Diagnostic) : Diagnostic :=
  { x with range := f x.range, fix := x.fix.map (·.mapRange f) }

theorem Finding.mapRange_id (x : Finding) : x.mapRange id = x := by
  have hedit : Edit.mapRange id = id := rfl
  have hfix : Fix.mapRange id = id := by
    funext fix
    simp [Fix.mapRange, hedit]
  simp [Finding.mapRange, hfix]

def Token.significant (ts : List Token) : List Token :=
  ts.filter (·.isSignificant)

theorem Token.significant_cons_of_pos {t : Token} (h : t.isSignificant = true) (ts : List Token) :
    Token.significant (t :: ts) = t :: Token.significant ts :=
  List.filter_cons_of_pos (p := fun t : Token => t.isSignificant) h

theorem Token.significant_cons_of_neg {t : Token} (h : ¬t.isSignificant = true)
    (ts : List Token) : Token.significant (t :: ts) = Token.significant ts :=
  List.filter_cons_of_neg (p := fun t : Token => t.isSignificant) h

theorem Token.significant_gap {gap : List Token} (hgap : Token.significant gap = []) {t : Token}
    (h : t.isSignificant = true) (ts : List Token) :
    Token.significant (gap ++ t :: ts) = t :: Token.significant ts := by
  rw [Token.significant, List.filter_append, ← Token.significant, ← Token.significant, hgap,
    List.nil_append, Token.significant_cons_of_pos h]

theorem Token.map_toLexeme_significant (ts : List Token) :
    (Token.significant ts).map Token.toLexeme =
      (ts.map Token.toLexeme).filter (·.isSignificant) := by
  rw [List.filter_map]
  rfl

/-- Whether a map of tokens keeps what significant tokens say and moves their
ranges, and all ranges that cover some of them, by `f`. -/
structure Token.Moves (f : Range → Range) (g : Token → Token) : Prop where
  kind : ∀ t, (g t).kind = t.kind
  toLexeme : ∀ t, t.isSignificant = true → (g t).toLexeme = t.toLexeme
  range : ∀ t, t.isSignificant = true → (g t).range = f t.range
  cover : ∀ r s, f (r.cover s) = (f r).cover (f s)

theorem Token.Moves.refl : Token.Moves id id :=
  ⟨fun _ => rfl, fun _ _ => rfl, fun _ _ => rfl, fun _ _ => rfl⟩

namespace Lexeme

variable {l : Lexeme}

theorem isSignificant_of_isKeyword {word : String} (h : l.isKeyword word = true) :
    l.isSignificant = true := by
  rw [isKeyword, Bool.and_eq_true, beq_iff_eq] at h
  simp [isSignificant, isTrivia, isComment, h.1]

theorem isPunctuation_iff {mark : String} :
    l.isPunctuation mark = true ↔ l = ⟨.punctuation, mark.toList⟩ := by
  cases l
  simp [isPunctuation]

theorem isSignificant_of_isPunctuation {mark : String} (h : l.isPunctuation mark = true) :
    l.isSignificant = true := by
  rw [isPunctuation, Bool.and_eq_true, beq_iff_eq] at h
  simp [isSignificant, isTrivia, isComment, h.1]

theorem isSignificant_congr {m : Lexeme} (h : l.kind = m.kind) :
    l.isSignificant = m.isSignificant := by
  simp only [isSignificant, isTrivia, isComment, h]

end Lexeme

namespace Token.Moves

variable {f : Range → Range} {g : Token → Token} (h : Token.Moves f g) (t : Token)
include h

theorem isSignificant : (g t).isSignificant = t.isSignificant :=
  Lexeme.isSignificant_congr (h.kind t)

theorem apply_toLexeme {p : Lexeme → Bool} (hp : ∀ l, p l = true → l.isSignificant = true) :
    p (g t).toLexeme = p t.toLexeme := by
  by_cases hsignificant : t.isSignificant = true
  · rw [h.toLexeme t hsignificant]
  · have hafter : p (g t).toLexeme = false := by
      rw [Bool.eq_false_iff]
      intro hyes
      exact hsignificant (h.isSignificant t ▸ hp _ hyes)
    have hbefore : p t.toLexeme = false := by
      rw [Bool.eq_false_iff]
      intro hyes
      exact hsignificant (hp _ hyes)
    rw [hafter, hbefore]

theorem isKeyword (word : String) : (g t).isKeyword word = t.isKeyword word :=
  h.apply_toLexeme t (p := (·.isKeyword word)) fun _ => Lexeme.isSignificant_of_isKeyword

theorem isPunctuation (mark : String) : (g t).isPunctuation mark = t.isPunctuation mark :=
  h.apply_toLexeme t (p := (·.isPunctuation mark)) fun _ => Lexeme.isSignificant_of_isPunctuation

end Token.Moves

namespace Finding

/-- Whether a change of tokens keeps the next significant token, moved by `g`, for
everyone who does not look for a semicolon. -/
def Follows (g : Token → Token) (change : List Token → List Token) : Prop :=
  ∀ p : Lexeme → Bool, p Lexeme.semicolon = false → ∀ ts,
    nextIf? (fun t => p t.toLexeme) (change ts) =
      (nextIf? (fun t => p t.toLexeme) ts).map (Prod.map g change)

/-- Nothing significant stands before the next token that is looked for. -/
theorem exists_gap_of_nextIf? {p : Token → Bool} {ts rest : List Token} {t : Token}
    (h : nextIf? p ts = some (t, rest)) :
    ∃ gap, ts = gap ++ t :: rest ∧ Token.significant gap = [] ∧ t.isSignificant = true ∧
      p t = true := by
  obtain ⟨hnext, hp⟩ := Option.filter_eq_some_iff.mp h
  clear h
  induction ts with
  | nil => simp [next?] at hnext
  | cons u ts ih =>
    rw [next?] at hnext
    split_ifs at hnext with hu
    · obtain ⟨rfl, rfl⟩ := Prod.mk.inj (Option.some.inj hnext)
      exact ⟨[], rfl, rfl, hu, hp⟩
    · obtain ⟨gap, rfl, hgap, hfound⟩ := ih hnext
      exact ⟨u :: gap, rfl, (Token.significant_cons_of_neg hu gap).trans hgap, hfound⟩

theorem isSignificant_of_nextIf? {p : Token → Bool} {ts rest : List Token} {t : Token}
    (h : nextIf? p ts = some (t, rest)) : t.isSignificant = true := by
  obtain ⟨gap, -, -, hsignificant, -⟩ := exists_gap_of_nextIf? h
  exact hsignificant

theorem exists_head_of_nextIf? {p : Token → Bool} {ts : List Token}
    (h : (nextIf? p ts).isSome = true) :
    ∃ t ∈ ts.head?, t.isSignificant = false ∨ p t = true := by
  obtain ⟨⟨t, rest⟩, hnext⟩ := Option.isSome_iff_exists.mp h
  obtain ⟨gap, rfl, hgap, -, hp⟩ := exists_gap_of_nextIf? hnext
  cases gap with
  | nil => exact ⟨t, rfl, Or.inr hp⟩
  | cons u gap =>
    refine ⟨u, rfl, Or.inl (Bool.eq_false_iff.mpr fun hu => ?_)⟩
    rw [Token.significant_cons_of_pos hu] at hgap
    cases hgap

theorem nextIf?_cons_of_not {p : Token → Bool} {t : Token} {ts : List Token}
    (h : ¬t.isSignificant = true) : nextIf? p (t :: ts) = nextIf? p ts := by
  rw [nextIf?, next?, if_neg h, nextIf?]

theorem nextIf?_cons_of_significant {p : Token → Bool} {t : Token} {ts : List Token}
    (h : t.isSignificant = true) :
    nextIf? p (t :: ts) = if p t then some (t, ts) else none := by
  rw [nextIf?, next?, if_pos h, Option.filter_some]

namespace Follows

section

variable {g : Token → Token} {change : List Token → List Token} (h : Follows g change)
include h

theorem keyword (word : String) (ts : List Token) :
    nextIf? (·.isKeyword word) (change ts) =
      (nextIf? (·.isKeyword word) ts).map (Prod.map g change) :=
  h (·.isKeyword word) rfl ts

theorem keywords (words : List String) (ts : List Token) :
    nextIf? (fun t => words.any fun word => t.isKeyword word) (change ts) =
      (nextIf? (fun t => words.any fun word => t.isKeyword word) ts).map (Prod.map g change) := by
  refine h (fun l => words.any fun word => l.isKeyword word) ?_ ts
  rw [List.any_eq_false]
  intro word _
  exact Bool.false_ne_true

theorem mark {mark : String} (hmark : mark ≠ ";") (ts : List Token) :
    nextIf? (·.isPunctuation mark) (change ts) =
      (nextIf? (·.isPunctuation mark) ts).map (Prod.map g change) := by
  refine h (·.isPunctuation mark) ?_ ts
  have hchars : mark.toList ≠ [';'] := by
    intro heq
    exact hmark (String.toList_inj.mp heq)
  simp [Lexeme.isPunctuation, Lexeme.semicolon, hchars.symm]

theorem name (ts : List Token) :
    nextIf? Select.isName (change ts) = (nextIf? Select.isName ts).map (Prod.map g change) :=
  h (·.kind == .identifier) rfl ts

end

theorem map {f : Range → Range} {g : Token → Token} (h : Token.Moves f g) :
    Follows g (List.map g) := by
  intro p _ ts
  induction ts with
  | nil => rfl
  | cons t ts ih =>
    rw [List.map_cons]
    by_cases ht : t.isSignificant = true
    · have hgt : (g t).isSignificant = true := (h.isSignificant t).trans ht
      rw [nextIf?_cons_of_significant ht, nextIf?_cons_of_significant hgt, h.toLexeme t ht]
      split_ifs <;> rfl
    · have hgt : ¬(g t).isSignificant = true := by rwa [h.isSignificant t]
      rw [nextIf?_cons_of_not ht, nextIf?_cons_of_not hgt, ih]

theorem significant : Follows id Token.significant := by
  intro p _ ts
  induction ts with
  | nil => rfl
  | cons t ts ih =>
    by_cases ht : t.isSignificant = true
    · rw [Token.significant_cons_of_pos ht, nextIf?_cons_of_significant ht,
        nextIf?_cons_of_significant ht]
      split_ifs <;> rfl
    · rw [Token.significant_cons_of_neg ht, nextIf?_cons_of_not ht, ih]

theorem append {semicolon : Token} (hsemicolon : semicolon.toLexeme = Lexeme.semicolon)
    (more : List Token) : Follows id (· ++ semicolon :: more) := by
  intro p hp ts
  induction ts with
  | nil =>
    have hsignificant : semicolon.isSignificant = true := by
      rw [hsemicolon]
      rfl
    change nextIf? _ (semicolon :: more) = none
    rw [nextIf?_cons_of_significant hsignificant, hsemicolon, hp]
    rfl
  | cons t ts ih =>
    change nextIf? _ (t :: (ts ++ semicolon :: more)) = _
    by_cases ht : t.isSignificant = true
    · rw [nextIf?_cons_of_significant ht, nextIf?_cons_of_significant ht]
      split_ifs <;> rfl
    · rw [nextIf?_cons_of_not ht, nextIf?_cons_of_not ht, ih]

end Follows

/-- Whether a look at a token and the tokens behind it sees significant tokens only,
no semicolon, and follows the moves that it `admits`. -/
structure Looks (admits : (Range → Range) → Prop) (look : Token → List Token → Option Finding) :
    Prop where
  admits_id : admits id
  isSignificant : ∀ {t rest x}, look t rest = some x → t.isSignificant = true
  ne_semicolon : ∀ {t rest x}, look t rest = some x → t.toLexeme ≠ Lexeme.semicolon
  follow : ∀ {f g change}, admits f → Token.Moves f g → Follows g change → ∀ t rest,
    look (g t) (change rest) = (look t rest).map (·.mapRange f)

namespace Looks

variable {admits : (Range → Range) → Prop} {look : Token → List Token → Option Finding}
  (h : Looks admits look)
include h

theorem look_of_not_significant {t : Token} (ht : ¬t.isSignificant = true) (rest : List Token) :
    look t rest = none := by
  rw [Option.eq_none_iff_forall_ne_some]
  intro x hx
  exact ht (h.isSignificant hx)

theorem look_semicolon {t : Token} (ht : t.toLexeme = Lexeme.semicolon) (rest : List Token) :
    look t rest = none := by
  rw [Option.eq_none_iff_forall_ne_some]
  intro x hx
  exact h.ne_semicolon hx ht

/-- A change that moves nothing makes no difference. -/
theorem look_change {change : List Token → List Token} (hchange : Follows id change) (t : Token)
    (rest : List Token) : look t (change rest) = look t rest := by
  have hfollow := h.follow h.admits_id Token.Moves.refl hchange t rest
  rw [id_eq] at hfollow
  rw [hfollow]
  cases look t rest with
  | none => rfl
  | some x => exact congrArg some x.mapRange_id

theorem along_map {f : Range → Range} {g : Token → Token} (hf : admits f) (hg : Token.Moves f g)
    (ts : List Token) : along look (ts.map g) = (along look ts).map (·.mapRange f) := by
  induction ts with
  | nil => rfl
  | cons t ts ih =>
    rw [List.map_cons, along, along, List.map_append, ih, h.follow hf hg (.map hg),
      Option.toList_map]

theorem along_significant (ts : List Token) :
    along look (Token.significant ts) = along look ts := by
  induction ts with
  | nil => rfl
  | cons t ts ih =>
    by_cases ht : t.isSignificant = true
    · rw [Token.significant_cons_of_pos ht, along, along, ih, h.look_change .significant]
    · rw [Token.significant_cons_of_neg ht, along, ih, h.look_of_not_significant ht]
      rfl

theorem along_append {semicolon : Token} (hsemicolon : semicolon.toLexeme = Lexeme.semicolon)
    (ts more : List Token) :
    along look (ts ++ semicolon :: more) = along look ts ++ along look more := by
  induction ts with
  | nil =>
    change (look semicolon more).toList ++ along look more = _
    rw [h.look_semicolon hsemicolon]
    rfl
  | cons t ts ih =>
    rw [List.cons_append, along, along, ih, h.look_change (.append hsemicolon more),
      List.append_assoc]

end Looks

end Finding

namespace Select

theorem ne_semicolon_of_isKeyword {l : Lexeme} {word : String} (h : l.isKeyword word = true) :
    l ≠ Lexeme.semicolon := by
  rintro rfl
  exact Bool.false_ne_true h

theorem commaAt_looks : Finding.Looks (fun _ => True) commaAt where
  admits_id := trivial
  isSignificant h := Lexeme.isSignificant_of_isPunctuation (of_commaAt h).1
  ne_semicolon {t rest x} h := by
    obtain ⟨hcomma, -, -⟩ := of_commaAt h
    intro hsemicolon
    rw [hsemicolon] at hcomma
    exact absurd hcomma (by decide)
  follow {f g change} _ hg hchange t rest := by
    unfold commaAt
    rw [hg.isPunctuation, hchange.keyword, Option.isSome_map]
    split_ifs with hcomma
    · rw [hg.range t (Lexeme.isSignificant_of_isPunctuation hcomma.1)]
      rfl
    · rfl

/-- Whether a move of ranges keeps apart, and together, what starts on one line and
what stops on another. -/
def KeepsLines (f : Range → Range) : Prop :=
  ∀ r s, (f r).start.line = (f s).stop.line ↔ r.start.line = s.stop.line

theorem modifierAt_looks : Finding.Looks KeepsLines modifierAt where
  admits_id _ _ := Iff.rfl
  isSignificant h := Lexeme.isSignificant_of_isKeyword (exists_of_modifierAt h).1
  ne_semicolon h := ne_semicolon_of_isKeyword (exists_of_modifierAt h).1
  follow {f g change} hf hg hchange select rest := by
    unfold modifierAt
    rw [hg.isKeyword, hchange.keywords]
    split_ifs with hselect
    · have hrange := hg.range select (Lexeme.isSignificant_of_isKeyword hselect)
      cases hnext :
          Finding.nextIf? (fun t => modifierWords.any fun word => t.isKeyword word) rest with
      | none => rfl
      | some found =>
        obtain ⟨modifier, behind⟩ := found
        have hmodifier := hg.range modifier (Finding.isSignificant_of_nextIf? hnext)
        simp only [Option.map_some, Prod.map_apply, Option.bind_eq_bind, Option.bind_some, hrange,
          hmodifier, ne_eq, hf modifier.range select.range, ← hg.cover]
        split_ifs <;> rfl
    · rfl

/-- The closing parenthesis moves and the column stays. -/
theorem closedColumn?_follow {f : Range → Range} {g : Token → Token}
    {change : List Token → List Token} (hg : Token.Moves f g) (hchange : Finding.Follows g change)
    (ts : List Token) : closedColumn? (change ts) = (closedColumn? ts).map (Prod.map id g) := by
  have hchars : ∀ {p ts t rest}, Finding.nextIf? p ts = some (t, rest) → (g t).chars = t.chars := by
    intro p ts t rest hnext
    rw [hg.toLexeme t (Finding.isSignificant_of_nextIf? hnext)]
  unfold closedColumn?
  rw [hchange.name]
  cases hfirst : Finding.nextIf? isName ts with
  | none => rfl
  | some found =>
    obtain ⟨first, rest⟩ := found
    simp only [Option.map_some, Prod.map_apply, Option.bind_eq_bind, Option.bind_some,
      hchars hfirst]
    rw [hchange.mark (by decide)]
    cases Finding.nextIf? (·.isPunctuation ".") rest with
    | none =>
      simp only [Option.map_none]
      rw [hchange.mark (by decide)]
      cases Finding.nextIf? (·.isPunctuation ")") rest <;> rfl
    | some dot =>
      simp only [Option.map_some, Prod.map_snd]
      rw [hchange.name]
      cases hsecond : Finding.nextIf? isName dot.2 with
      | none => rfl
      | some found =>
        obtain ⟨second, rest⟩ := found
        simp only [Option.map_some, Prod.map_apply, Option.bind_some, hchars hsecond]
        rw [hchange.mark (by decide)]
        cases Finding.nextIf? (·.isPunctuation ")") rest <;> rfl

theorem closedColumn?_significant {ts : List Token} {column : List Char} {close : Token}
    (h : closedColumn? ts = some (column, close)) : close.isSignificant = true := by
  obtain ⟨rest, behind, -, hclose⟩ := exists_close_of_closedColumn? h
  exact Finding.isSignificant_of_nextIf? hclose

theorem parenthesesAt_looks : Finding.Looks (fun _ => True) parenthesesAt where
  admits_id := trivial
  isSignificant h := Lexeme.isSignificant_of_isKeyword (exists_of_parenthesesAt h).1
  ne_semicolon h := ne_semicolon_of_isKeyword (exists_of_parenthesesAt h).1
  follow {f g change} _ hg hchange select rest := by
    unfold parenthesesAt
    rw [hg.isKeyword, hchange.keyword]
    split_ifs
    · cases hdistinct : Finding.nextIf? (·.isKeyword "DISTINCT") rest with
      | none => rfl
      | some found =>
        obtain ⟨distinct, rest⟩ := found
        have hsignificant := Finding.isSignificant_of_nextIf? hdistinct
        simp only [Option.map_some, Prod.map_apply, Option.bind_eq_bind, Option.bind_some]
        rw [hchange.mark (by decide)]
        cases Finding.nextIf? (·.isPunctuation "(") rest with
        | none => rfl
        | some parenthesis =>
          simp only [Option.map_some, Prod.map_snd, Option.bind_some]
          rw [closedColumn?_follow hg hchange]
          cases hclosed : closedColumn? parenthesis.2 with
          | none => rfl
          | some closed =>
            obtain ⟨column, close⟩ := closed
            simp only [Option.map_some, Prod.map_apply, Option.bind_some, id_eq,
              hg.range distinct hsignificant, hg.range close (closedColumn?_significant hclosed),
              hg.toLexeme distinct hsignificant, ← hg.cover]
            rfl
    · rfl

end Select

namespace Null

variable {f : Range → Range} {g : Token → Token}

theorem instead?_moves (h : Token.Moves f g) (t : Token) : instead? (g t) = instead? t := by
  simp only [instead?, h.isPunctuation]

theorem isSignificant_of_instead? {t : Token} {replacement : String}
    (h : instead? t = some replacement) : t.isSignificant = true := by
  unfold instead? at h
  split_ifs at h with heq hne
  · exact Lexeme.isSignificant_of_isPunctuation heq
  · rcases hne with hne | hne
    · exact Lexeme.isSignificant_of_isPunctuation hne
    · exact Lexeme.isSignificant_of_isPunctuation hne

theorem finding?_looks : Finding.Looks (fun _ => True) finding? where
  admits_id := trivial
  isSignificant {t rest x} h := by
    obtain ⟨replacement, hinstead, -⟩ := Option.bind_eq_some_iff.mp h
    exact isSignificant_of_instead? hinstead
  ne_semicolon {t rest x} h := by
    obtain ⟨replacement, hinstead, -⟩ := Option.bind_eq_some_iff.mp h
    intro hsemicolon
    have hnone : instead? t = none := by
      simp only [instead?, hsemicolon]
      decide
    simp [hnone] at hinstead
  follow {f g change} _ hg hchange t rest := by
    unfold finding?
    rw [instead?_moves hg, hchange.keyword]
    cases hinstead : instead? t with
    | none => rfl
    | some replacement =>
      rw [hg.range t (isSignificant_of_instead? hinstead)]
      cases Finding.nextIf? (·.isKeyword "NULL") rest <;> rfl

theorem findingsFrom_map (h : Token.Moves f g) (assigning : Bool) (ts : List Token) :
    findingsFrom assigning (ts.map g) = (findingsFrom assigning ts).map (·.mapRange f) := by
  induction ts generalizing assigning with
  | nil => rfl
  | cons t ts ih =>
    simp only [List.map_cons, findingsFrom, h.isKeyword, ih,
      finding?_looks.follow trivial h (.map h)]
    split_ifs
    · rfl
    · rfl
    · rfl
    · rw [List.map_append, Option.toList_map]

theorem findingsFrom_significant (assigning : Bool) (ts : List Token) :
    findingsFrom assigning (Token.significant ts) = findingsFrom assigning ts := by
  induction ts generalizing assigning with
  | nil => rfl
  | cons t ts ih =>
    by_cases ht : t.isSignificant = true
    · rw [Token.significant_cons_of_pos ht, findingsFrom, findingsFrom]
      simp only [ih, finding?_looks.look_change .significant]
    · have hword : ∀ word, t.isKeyword word = false := by
        intro word
        rw [Bool.eq_false_iff]
        intro hkeyword
        exact ht (Lexeme.isSignificant_of_isKeyword hkeyword)
      rw [Token.significant_cons_of_neg ht, findingsFrom, ih]
      simp [hword, finding?_looks.look_of_not_significant ht]

end Null

end QueryLint
