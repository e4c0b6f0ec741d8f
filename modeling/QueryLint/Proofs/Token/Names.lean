import QueryLint.Proofs.Token.Kinds
import QueryLint.Proofs.Token.LetterCase
import QueryLint.Proofs.Token.Relex

/-!
# Where a name ends

A name or keyword that was read before one text is read before another one unless it
goes on there (`Lexeme.ReadBefore.name_iff`): with more of its name, if it is in no
backticks, or with a quote, if it marks literals.
-/
namespace QueryLint

theorem opening_of_name {c : Char} {o : Opening} (ho : o ∈ [Opening.letter, .sigil, .digit])
    {next : Option Char} (h : opening c next = o) (next' : Option Char) : opening c next' = o := by
  have hfits := opening_fits c next
  rw [h] at hfits
  have hc : c ≠ '-' ∧ c ≠ '/' ∧ c ≠ '.' := by
    simp only [List.mem_cons, List.not_mem_nil, or_false] at ho
    rcases ho with rfl | rfl | rfl
    · have hstart : Text.isNameStart c = true := hfits
      refine ⟨?_, ?_, ?_⟩ <;> rintro rfl <;> exact absurd hstart (by decide)
    · obtain rfl : c = '@' := hfits
      decide
    · have hdigit : c.isDigit = true := hfits
      refine ⟨?_, ?_, ?_⟩ <;> rintro rfl <;> exact absurd hdigit (by decide)
  have hnone : ∀ next, opening c next = opening c none := fun next =>
    opening_none (fun h => hc.1 h.1) (fun h => hc.2.1 h.1) fun h => hc.2.2 h.1
  rw [hnone next', ← hnone next, h]

theorem opening_sigil (next : Option Char) : opening '@' next = .sigil :=
  opening_of_name (by decide) (show opening '@' none = .sigil by decide) next

theorem opening_backtick (next : Option Char) : opening '\x60' next = .backtick :=
  opening_none (by simp) (by simp) (by simp)

theorem opening_of_isDigit {c : Char} (h : c.isDigit = true) (next : Option Char) :
    opening c next = .digit := by
  have hdigits : ∀ n ∈ List.range' 48 10, opening (Char.ofNat n) none = .digit := by decide
  simp only [Char.isDigit, Bool.and_eq_true, decide_eq_true_eq, ge_iff_le,
    UInt32.le_iff_toNat_le] at h
  obtain ⟨hfirst, hlast⟩ : 48 ≤ c.toNat ∧ c.toNat ≤ 57 := h
  have hopening := hdigits c.toNat (List.mem_range'_1.mpr ⟨hfirst, by omega⟩)
  rw [Char.ofNat_toNat] at hopening
  exact opening_of_name (by decide) hopening next

theorem name_of_isLower {c : Char} (h : (c.isLower || c == '_') = true) :
    opening c none = .letter ∧ Text.isNamePart c = true := by
  rcases Bool.or_eq_true_iff.mp h with hlower | hmark
  · have hletters : ∀ n ∈ List.range' 97 26,
        opening (Char.ofNat n) none = .letter ∧ Text.isNamePart (Char.ofNat n) = true := by decide
    obtain ⟨hfirst, hlast⟩ : 97 ≤ c.toNat ∧ c.toNat ≤ 122 := by
      simpa [Char.isLower, UInt32.le_iff_toNat_le] using hlower
    have hname := hletters c.toNat (List.mem_range'_1.mpr ⟨hfirst, by omega⟩)
    rwa [Char.ofNat_toNat] at hname
  · obtain rfl : c = '_' := beq_iff_eq.mp hmark
    decide

/-- A word is a name in any mixture of cases if it is one in lower case. -/
theorem names_of_lower {words : List (List Char)}
    (hwords : words.all (·.all fun x => x.isLower || x == '_') = true) {word : List Char}
    (h : Keyword.lower word ∈ words) :
    ∀ x ∈ word, opening x none = .letter ∧ Text.isNamePart x = true := by
  intro x hx
  have hword := List.all_eq_true.mp hwords _ h
  have hname := name_of_isLower (List.all_eq_true.mp hword x.toLower (List.mem_map_of_mem hx))
  have hopening : opening x.toLower none = opening x none := opening_lower x none
  rwa [hopening, Text.isNamePart_toLower] at hname

theorem names_of_isKeyword {word : List Char} (h : Keyword.isKeyword word = true) :
    ∀ x ∈ word, opening x none = .letter ∧ Text.isNamePart x = true := by
  have hspellings : (Keyword.spellings.map Keyword.lower).all (·.all fun x =>
      x.isLower || x == '_') = true := by decide +kernel
  have hlower : Keyword.lower word = Keyword.lower (Keyword.upper word) := by
    simp [Keyword.lower, Keyword.upper, Char.toLower_toUpper_eq_toLower]
  refine names_of_lower hspellings ?_
  rw [hlower]
  exact List.mem_map_of_mem (List.contains_iff_mem.mp h)

theorem opening_of_kind {c : Char} {cs : List Char}
    (h : (scan c cs).kind = .keyword ∨ (scan c cs).kind = .identifier ∧ c ≠ '\x60') :
    opening c cs.head? = .letter ∨ opening c cs.head? = .sigil := by
  have hfits := opening_fits c cs.head?
  have hkind := kind_scan_mem c cs
  generalize opening c cs.head? = o at hfits hkind ⊢
  cases o with
  | letter => exact Or.inl rfl
  | sigil => exact Or.inr rfl
  | backtick =>
    rcases h with h | ⟨-, hne⟩
    · rw [h] at hkind
      exact absurd hkind (by decide)
    · exact absurd hfits hne
  | _ =>
    rcases h with h | ⟨h, -⟩
    · rw [h] at hkind
      exact absurd hkind (by decide)
    · rw [h] at hkind
      exact absurd hkind (by decide)

namespace Scan

theorem word_eq_iff {c : Char} {front rest : List Char} {kind : TokenKind}
    (hkind : kind = .keyword ∨ kind = .identifier) :
    word c (front ++ rest) = ⟨kind, front.length⟩ ↔
      (∀ x ∈ front, Text.isNamePart x = true) ∧
        (∀ x ∈ rest.head?, Text.isNamePart x = false ∧ ¬Marks (c :: front) x) ∧
        plainWord (c :: front) front.length = ⟨kind, front.length⟩ := by
  have hliteral : ∀ {word extra quote behind n},
      markedLiteral word extra quote behind ≠ ⟨kind, n⟩ := by
    intro word extra quote behind n h
    have hmem := markedLiteral_kind word extra quote behind
    rw [h] at hmem
    rcases hkind with rfl | rfl <;> simp at hmem
  constructor
  · intro h
    rcases word_cases c (front ++ rest) with ⟨quote, behind, -, -, heq⟩ | heq
    · exact absurd (heq.symm.trans h) hliteral
    · have hrun : runLength Text.isNamePart (front ++ rest) = front.length :=
        congrArg extra (heq.symm.trans h)
      obtain ⟨hfront, hrest⟩ := runLength_append_eq_iff.mp hrun
      rw [hrun, List.take_left] at heq
      refine ⟨hfront, ?_, heq.symm.trans h⟩
      intro x hx
      refine ⟨hrest x hx, fun hmark => ?_⟩
      obtain ⟨behind, rfl⟩ := List.head?_eq_some_iff.mp hx
      rw [word_eq, hrun, List.take_left, List.drop_left, wordBefore_marked hmark] at h
      exact hliteral h
  · rintro ⟨hfront, hrest, hplain⟩
    have hrun := runLength_append_eq_iff.mpr ⟨hfront, fun x hx => (hrest x hx).1⟩
    rw [word_eq, hrun, List.take_left, List.drop_left, wordBefore_plain fun x hx => (hrest x hx).2,
      hplain]

theorem not_marks {c : Char} (h : Text.isNameStart c = false) (cs : List Char) (quote : Char) :
    ¬Marks (c :: cs) quote := by
  rintro ⟨-, hmark⟩
  have hstarts : Lexer.literalMarks.all (fun mark => mark.head?.any Text.isNameStart) = true := by
    decide
  have hstart := List.all_eq_true.mp hstarts _ (List.contains_iff_mem.mp hmark)
  rw [any_head?_lower Text.isNameStart_toLower, List.head?_cons, Option.any_some, h] at hstart
  cases hstart

theorem parameterName_eq_iff {sigils : Nat} {name rest : List Char} :
    parameterName sigils (name ++ rest) = ⟨.identifier, sigils + name.length⟩ ↔
      name.head?.any Text.isNameStart = true ∧ (∀ x ∈ name, Text.isNamePart x = true) ∧
        ∀ x ∈ rest.head?, Text.isNamePart x = false := by
  rw [← runLength_append_eq_iff, parameterName_eq]
  cases name with
  | nil =>
    simp only [List.nil_append, List.head?_nil, Option.any_none, Bool.false_eq_true, false_and,
      iff_false]
    split_ifs with hstart
    · intro h
      have hzero : runLength Text.isNamePart rest = 0 := Nat.add_left_cancel (congrArg extra h)
      exact openedRun_ne_zero (fun c => Text.isNamePart_of_isNameStart) hstart
        ((openedRun_of_starts hstart).trans hzero)
    · simp
  | cons x name =>
    simp only [List.cons_append, List.head?_cons]
    split_ifs with hstart
    · simp [hstart]
    · simp [hstart]

theorem parameter_eq_iff {front after : List Char}
    (h : parameter (front ++ after) = ⟨.identifier, front.length⟩) (rest : List Char) :
    parameter (front ++ rest) = ⟨.identifier, front.length⟩ ↔
      ∀ x ∈ rest.head?, Text.isNamePart x = false := by
  cases front with
  | nil =>
    exfalso
    by_cases hsigil : ([] ++ after).head? = some '@'
    · obtain ⟨name, hname⟩ := List.head?_eq_some_iff.mp hsigil
      rw [hname, parameter_sigil, parameterName_eq] at h
      split_ifs at h
      · have hextra := congrArg extra h
        simp at hextra
      · cases h
    · rw [parameter_of_ne hsigil] at h
      exact absurd (parameterName_eq_iff.mp h).1 (by simp)
  | cons y front =>
    by_cases hsigil : y = '@'
    · subst hsigil
      rw [List.cons_append, parameter_sigil, List.length_cons, Nat.add_comm,
        parameterName_eq_iff] at h ⊢
      exact ⟨fun h => h.2.2, fun hrest => ⟨h.1, h.2.1, hrest⟩⟩
    · have hhead : ∀ tail, (y :: front ++ tail).head? ≠ some '@' := by
        intro tail
        simpa using hsigil
      rw [parameter_of_ne (hhead _), ← Nat.zero_add (y :: front).length,
        parameterName_eq_iff] at h ⊢
      exact ⟨fun h => h.2.2, fun hrest => ⟨h.1, h.2.1, hrest⟩⟩

theorem single_extend_of_closed {quote : Char} {escapes : Bool} {cs ds : List Char}
    (h : (single quote escapes cs).1 = true) :
    single quote escapes (cs ++ ds) = single quote escapes cs := by
  fun_induction single quote escapes cs with
  | case1 => simp at h
  | case2 c cs hc => simp at h
  | case3 cs hc => rw [List.cons_append, single_of_quote hc]
  | case4 c hc hq he => simp at h
  | case5 c hc hq he d cs hd => simp at h
  | case6 c hc hq he d cs hd r ih =>
    rw [List.cons_append, List.cons_append, single_of_escape hc hq he hd, ih h]
    rfl
  | case7 c cs hc hq he r ih =>
    rw [List.cons_append, single_of_plain hc hq he, ih h]
    rfl

theorem quotedName_of_closed {cs ds : List Char}
    (h : quotedName (cs ++ ds) = ⟨.identifier, cs.length⟩) (es : List Char) :
    quotedName (cs ++ es) = ⟨.identifier, cs.length⟩ := by
  rw [quotedName_truncate (by rw [h])] at h
  have hclosed : (single '\x60' true cs).1 = true := by
    by_contra hopen
    have hkind := congrArg kind h
    simp [quotedName, hopen] at hkind
  rw [← h, quotedName, quotedName, single_extend_of_closed hclosed]

end Scan

namespace Lexeme

/-- Whether a name or keyword would go on with the text behind it: with part of a name, if
it is in no backticks, or with a quote, if it marks literals. -/
def goesOn (l : Lexeme) (rest : List Char) : Bool :=
  rest.head?.any fun x =>
    (l.chars.head? != some '\x60' && Text.isNamePart x) ||
      ((x == '\'' || x == '"') && Lexer.literalMarks.contains (Keyword.lower l.chars))

variable {l : Lexeme} {after rest : List Char}

theorem goesOn_eq_false_iff {c : Char} {front : List Char} (h : l.chars = c :: front) :
    l.goesOn rest = false ↔ ∀ x ∈ rest.head?,
      (c = '\x60' ∨ Text.isNamePart x = false) ∧ ¬Scan.Marks (c :: front) x := by
  unfold goesOn
  rw [h]
  cases rest with
  | nil => simp
  | cons x rest => simp [Scan.Marks, or_iff_not_imp_left]

theorem readBefore_iff_scan {c : Char} {front : List Char} (h : l.chars = c :: front) :
    l.ReadBefore rest ↔ scan c (front ++ rest) = ⟨l.kind, front.length⟩ := by
  constructor
  · rintro ⟨c', front', hchars, hscan⟩
    obtain ⟨rfl, rfl⟩ := List.cons.inj (h.symm.trans hchars)
    exact hscan
  · exact fun hscan => ⟨c, front, h, hscan⟩

/-- A keyword is known by its spelling. -/
theorem ReadBefore.keyword_iff (h : l.ReadBefore after) :
    l.kind = .keyword ↔ Keyword.isKeyword l.chars = true := by
  obtain ⟨c, front, hchars, hscan⟩ := h
  rw [hchars]
  constructor
  · intro hkind
    have hkinds := kind_scan_mem c (front ++ after)
    rw [hscan] at hkinds
    rcases opening_of_kind (Or.inl ((congrArg Scan.kind hscan).trans hkind)) with ho | ho
    · rw [scan_eq_opening, ho] at hscan
      have hplain := ((Scan.word_eq_iff (Or.inl hkind)).mp hscan).2.2
      by_contra hnot
      have hidentifier := congrArg Scan.kind hplain
      simp [Scan.plainWord, hnot, hkind] at hidentifier
    · rw [ho] at hkinds
      simp [hkind, Opening.kinds] at hkinds
  · intro hkeyword
    have hnames := names_of_isKeyword hkeyword
    have hrun : Scan.runLength Text.isNamePart (front ++ after) =
        front.length + Scan.runLength Text.isNamePart after := by
      unfold Scan.runLength
      rw [List.takeWhile_append_of_pos fun x hx => (hnames x (List.mem_cons_of_mem c hx)).2,
        List.length_append]
    rw [scan_eq_opening, opening_of_name (by decide) (hnames c List.mem_cons_self).1,
      Opening.scan] at hscan
    have hcases := Scan.word_cases c (front ++ after)
    rw [hrun] at hcases
    rcases hcases with ⟨quote, behind, -, -, heq⟩ | heq
    · have hextra := congrArg Scan.extra (heq.symm.trans hscan)
      simp only [Scan.markedLiteral] at hextra
      omega
    · have hplain := heq.symm.trans hscan
      have hextra : front.length + Scan.runLength Text.isNamePart after = front.length :=
        congrArg Scan.extra hplain
      rw [hextra, List.take_left, Scan.plainWord, if_pos hkeyword] at hplain
      exact (congrArg Scan.kind hplain).symm

/-- A name or keyword ends where it does not go on. -/
theorem ReadBefore.name_iff (h : l.ReadBefore after)
    (hname : l.kind = .keyword ∨ l.kind = .identifier) (rest : List Char) :
    l.ReadBefore rest ↔ l.goesOn rest = false := by
  obtain ⟨c, front, hchars, hscan⟩ := h
  have hkind := kind_scan_mem c (front ++ after)
  rw [hscan] at hkind
  rw [readBefore_iff_scan hchars, goesOn_eq_false_iff hchars]
  by_cases hbacktick : c = '\x60'
  · subst hbacktick
    rw [opening_backtick] at hkind
    obtain hidentifier : l.kind = .identifier := by
      rcases hname with hkeyword | hidentifier
      · simp [hkeyword, Opening.kinds] at hkind
      · exact hidentifier
    rw [scan_eq_opening, opening_backtick, hidentifier] at hscan ⊢
    refine iff_of_true (Scan.quotedName_of_closed hscan rest) ?_
    exact fun x _ => ⟨Or.inl rfl, Scan.not_marks (by decide) front x⟩
  · have hopening : opening c (front ++ after).head? = .letter ∨
        opening c (front ++ after).head? = .sigil := by
      apply opening_of_kind
      rw [hscan]
      exact hname.imp_right fun hidentifier => ⟨hidentifier, hbacktick⟩
    simp only [hbacktick, false_or]
    rw [scan_eq_opening] at hscan ⊢
    rcases hopening with ho | ho
    · rw [ho] at hscan
      obtain ⟨hfront, -, hplain⟩ := (Scan.word_eq_iff hname).mp hscan
      rw [opening_of_name (by decide) ho]
      exact (Scan.word_eq_iff hname).trans ⟨fun h => h.2.1, fun h => ⟨hfront, h, hplain⟩⟩
    · have hfits := opening_fits c (front ++ after).head?
      rw [ho] at hkind hscan hfits
      obtain rfl : c = '@' := hfits
      obtain hidentifier : l.kind = .identifier := by
        rcases hname with hkeyword | hidentifier
        · simp [hkeyword, Opening.kinds] at hkind
        · exact hidentifier
      rw [hidentifier] at hscan ⊢
      rw [opening_sigil]
      refine (Scan.parameter_eq_iff hscan rest).trans (forall₂_congr fun x _ => ?_)
      simp [Scan.not_marks (show Text.isNameStart '@' = false by decide) front x]

theorem ReadBefore.name_of_ends (h : l.ReadBefore after)
    (hname : l.kind = .keyword ∨ l.kind = .identifier) {c : Char}
    (hc : Text.isNamePart c = false ∧ ¬(c = '\'' ∨ c = '"')) : l.ReadBefore (c :: rest) := by
  rw [h.name_iff hname]
  obtain ⟨x, front, hchars, -⟩ := h
  rw [goesOn_eq_false_iff hchars]
  intro y hy
  obtain rfl : c = y := by simpa using hy
  exact ⟨Or.inr hc.1, fun hmarks => hc.2 hmarks.1⟩

end Lexeme
end QueryLint
