import QueryLint.Statement
import Mathlib.Data.List.Basic
import Mathlib.Tactic.SplitIfs

/-!
# The segments of a document

A second account of where statements begin and end, by the places of tokens. A
semicolon is a separator if the tokens since the last separator leave no bracket
open; the segments are the stretches between separators. `ofPieces_pieces` says
that cutting a document into pieces gives exactly the segments that hold more
than trivia.
-/
namespace QueryLint

def isBracket (brackets : List Char) (t : Token) : Bool :=
  t.kind == .punctuation && brackets.any fun c => t.chars == [c]

/-- The depth of nesting behind tokens that start outside all brackets: an opening
bracket adds one, and a closing one takes one away, if there is one. -/
def bracketDepth (ts : List Token) : Nat :=
  ts.foldl (fun depth t =>
    if isBracket ['(', '[', '\x7b'] t then depth + 1
    else if isBracket [')', ']', '\x7d'] t then depth - 1
    else depth) 0

def tokensAt (ts : List Token) (span : Span) : List Token :=
  (ts.take span.stop).drop span.start

/-- Whether there is a semicolon at place `i` that no bracket opened at place
`start` or later encloses. -/
def separatesSince (ts : List Token) (start i : Nat) : Bool :=
  ts[i]?.any (·.isPunctuation ";") && bracketDepth (tokensAt ts ⟨start, i⟩) == 0

/-- The place behind the last separator before place `i`, or the first place. -/
def segmentStart (ts : List Token) : Nat → Nat
  | 0 => 0
  | i + 1 => if separatesSince ts (segmentStart ts i) i then i + 1 else segmentStart ts i

/-- Whether the token at a place is a separator. -/
def isSeparator (ts : List Token) (i : Nat) : Bool :=
  separatesSince ts (segmentStart ts i) i

/-- The places from `i` on at which there is a separator. -/
def separatorsFrom (ts : List Token) (i : Nat) : List Nat :=
  (List.range' i (ts.length - i)).filter (isSeparator ts)

/-- The stretches from place `start` to the end between the separators that
stand at place `i` or later. -/
def segmentsFrom (ts : List Token) (start i : Nat) : List Span :=
  List.zipWith Span.mk (start :: (separatorsFrom ts i).map (· + 1))
    (separatorsFrom ts i ++ [ts.length])

/-- The stretches of tokens between two separators or a separator and an end of
the document. -/
def segments (ts : List Token) : List Span :=
  segmentsFrom ts 0 0

/-- Whether there is anything but trivia among some tokens. -/
def hasContent (ts : List Token) : Bool :=
  ts.any (!·.isTrivia)

def filledSegments (ts : List Token) : List Span :=
  (segments ts).filter fun span => hasContent (tokensAt ts span)

def segmentStatement (ts : List Token) (id : Nat) (span : Span) : Statement :=
  ⟨id, span.start, tokensAt ts span, isSeparator ts span.stop⟩

section Places

variable {ts rest : List Token} {t : Token} {start i : Nat}

theorem segmentStart_le (ts : List Token) (i : Nat) : segmentStart ts i ≤ i := by
  induction i with
  | zero => exact Nat.le_refl 0
  | succ i ih =>
    simp only [segmentStart]
    split_ifs
    · exact Nat.le_refl _
    · exact Nat.le_succ_of_le ih

theorem getElem?_of_drop (h : ts.drop i = t :: rest) : ts[i]? = some t := by
  rw [← List.head?_drop, h]
  rfl

theorem drop_succ_of_drop (h : ts.drop i = t :: rest) : ts.drop (i + 1) = rest := by
  rw [← List.drop_drop, h]
  rfl

theorem lt_length_of_drop (h : ts.drop i = t :: rest) : i < ts.length := by
  obtain ⟨hlt, -⟩ := List.getElem?_eq_some_iff.mp (getElem?_of_drop h)
  exact hlt

theorem tokensAt_self (ts : List Token) (i : Nat) : tokensAt ts ⟨i, i⟩ = [] :=
  List.drop_eq_nil_of_le (List.length_take_le _ _)

theorem tokensAt_succ (hle : start ≤ i) (h : ts[i]? = some t) :
    tokensAt ts ⟨start, i + 1⟩ = tokensAt ts ⟨start, i⟩ ++ [t] := by
  obtain ⟨hlt, -⟩ := List.getElem?_eq_some_iff.mp h
  have hstart : start ≤ (ts.take i).length := by
    rw [List.length_take]
    omega
  simp only [tokensAt]
  rw [List.take_add_one, h, List.drop_append_of_le_length hstart]
  rfl

theorem length_tokensAt (hle : i ≤ ts.length) : (tokensAt ts ⟨start, i⟩).length = i - start := by
  simp only [tokensAt, List.length_drop, List.length_take]
  omega

theorem isSeparator_of_drop (h : ts.drop i = t :: rest) :
    isSeparator ts i = t.separates (bracketDepth (tokensAt ts ⟨segmentStart ts i, i⟩)) := by
  rw [isSeparator, separatesSince, getElem?_of_drop h]
  rfl

theorem isSeparator_length (ts : List Token) : isSeparator ts ts.length = false := by
  simp [isSeparator, separatesSince]

theorem segmentStart_succ_of_separator (h : isSeparator ts i = true) :
    segmentStart ts (i + 1) = i + 1 :=
  if_pos h

theorem segmentStart_succ_of_not (h : ¬isSeparator ts i = true) :
    segmentStart ts (i + 1) = segmentStart ts i :=
  if_neg h

theorem separatorsFrom_length (ts : List Token) : separatorsFrom ts ts.length = [] := by
  simp [separatorsFrom]

theorem range'_cons (h : i < ts.length) :
    List.range' i (ts.length - i) = i :: List.range' (i + 1) (ts.length - (i + 1)) := by
  rw [show ts.length - i = ts.length - (i + 1) + 1 by omega, List.range'_succ]

theorem segmentsFrom_length (ts : List Token) (start : Nat) :
    segmentsFrom ts start ts.length = [⟨start, ts.length⟩] := by
  rw [segmentsFrom, separatorsFrom_length]
  rfl

theorem segmentsFrom_of_separator (hlt : i < ts.length) (h : isSeparator ts i = true) :
    segmentsFrom ts start i = ⟨start, i⟩ :: segmentsFrom ts (i + 1) (i + 1) := by
  have hcons : separatorsFrom ts i = i :: separatorsFrom ts (i + 1) := by
    rw [separatorsFrom, range'_cons hlt, List.filter_cons_of_pos h]
    rfl
  rw [segmentsFrom, hcons]
  rfl

theorem segmentsFrom_of_not (hlt : i < ts.length) (h : ¬isSeparator ts i = true) :
    segmentsFrom ts start i = segmentsFrom ts start (i + 1) := by
  have hskip : separatorsFrom ts i = separatorsFrom ts (i + 1) := by
    rw [separatorsFrom, range'_cons hlt, List.filter_cons_of_neg h]
    rfl
  rw [segmentsFrom, hskip]
  rfl

/-- Segments are found by walking to the end: a separator closes one, and any
other token is passed. -/
theorem segmentsFrom_induction {motive : Nat → Nat → List Span → Prop} (ts : List Token)
    (length : ∀ start, motive start ts.length [⟨start, ts.length⟩])
    (separator : ∀ start i spans, i < ts.length → isSeparator ts i = true →
      motive (i + 1) (i + 1) spans → motive start i (⟨start, i⟩ :: spans))
    (other : ∀ start i spans, i < ts.length → isSeparator ts i = false →
      motive start (i + 1) spans → motive start i spans)
    (start i : Nat) (hle : i ≤ ts.length) : motive start i (segmentsFrom ts start i) := by
  induction hk : ts.length - i generalizing start i with
  | zero =>
    obtain rfl : i = ts.length := by omega
    rw [segmentsFrom_length]
    exact length start
  | succ k ih =>
    have hlt : i < ts.length := by omega
    have hnext := fun start => ih start (i + 1) hlt (by omega)
    by_cases hsep : isSeparator ts i = true
    · rw [segmentsFrom_of_separator hlt hsep]
      exact separator start i _ hlt hsep (hnext (i + 1))
    · rw [segmentsFrom_of_not hlt hsep]
      exact other start i _ hlt (Bool.eq_false_iff.mpr hsep) (hnext start)

end Places

theorem depthAfter_eq (t : Token) (depth : Nat) :
    t.depthAfter depth =
      if isBracket ['(', '[', '\x7b'] t then depth + 1
      else if isBracket [')', ']', '\x7d'] t then depth - 1
      else depth := by
  by_cases hkind : t.kind = .punctuation
  · simp [Lexeme.depthAfter, isBracket, hkind]
  · simp [Lexeme.depthAfter, isBracket, hkind]

theorem bracketDepth_eq_foldl (ts : List Token) :
    bracketDepth ts = ts.foldl (fun depth t => t.depthAfter depth) 0 := by
  simp only [bracketDepth, depthAfter_eq]

theorem bracketDepth_append (ts : List Token) (t : Token) :
    bracketDepth (ts ++ [t]) = t.depthAfter (bracketDepth ts) := by
  simp [bracketDepth_eq_foldl]

theorem pieces_of_separates {t : Token} {depth : Nat} (h : t.separates depth = true)
    (ts : List Token) : pieces depth (t :: ts) = [] :: pieces 0 ts := by
  have hdepth : depth = 0 := by
    simp only [Lexeme.separates, Bool.and_eq_true, beq_iff_eq] at h
    exact h.2
  subst hdepth
  rw [pieces, if_pos h]

theorem pieces_of_not {t : Token} {depth : Nat} (h : ¬t.separates depth = true)
    (ts : List Token) :
    pieces depth (t :: ts) = (pieces (t.depthAfter depth) ts).modifyHead (t :: ·) := by
  rw [pieces, if_neg h]
  split
  · rename_i hnil
    exact absurd hnil (pieces_ne_nil _ _)
  · rename_i piece rest hcons
    rw [hcons]
    rfl

theorem pieces_map {g : Token → Token}
    (hseparates : ∀ t depth, (g t).separates depth = t.separates depth)
    (hdepth : ∀ t depth, (g t).depthAfter depth = t.depthAfter depth) (depth : Nat)
    (ts : List Token) : pieces depth (ts.map g) = (pieces depth ts).map (List.map g) := by
  induction ts generalizing depth with
  | nil => rfl
  | cons t ts ih =>
    rw [List.map_cons]
    by_cases ht : t.separates depth = true
    · rw [pieces_of_separates ht, pieces_of_separates ((hseparates t depth).trans ht), ih]
      rfl
    · have hgt : ¬(g t).separates depth = true := by rwa [hseparates]
      rw [pieces_of_not ht, pieces_of_not hgt, hdepth, ih]
      cases pieces (t.depthAfter depth) ts <;> rfl

theorem modifyHead_nil_append (ps : List (List Token)) : ps.modifyHead ([] ++ ·) = ps := by
  cases ps <;> rfl

/-- From any place on, with the tokens since the last separator put back in front
of the first piece, the pieces are the tokens of the segments. -/
theorem map_tokensAt_segmentsFrom {ts rest : List Token} {i : Nat} (hrest : ts.drop i = rest)
    (hle : i ≤ ts.length) :
    (segmentsFrom ts (segmentStart ts i) i).map (tokensAt ts) =
      (pieces (bracketDepth (tokensAt ts ⟨segmentStart ts i, i⟩)) rest).modifyHead
        (tokensAt ts ⟨segmentStart ts i, i⟩ ++ ·) := by
  induction rest generalizing i with
  | nil =>
    obtain rfl : i = ts.length := by
      have := List.drop_eq_nil_iff.mp hrest
      omega
    rw [segmentsFrom_length, pieces, List.modifyHead_cons, List.append_nil]
    rfl
  | cons t rest ih =>
    have hlt := lt_length_of_drop hrest
    have hnext := ih (drop_succ_of_drop hrest) hlt
    by_cases hsep : isSeparator ts i = true
    · rw [segmentStart_succ_of_separator hsep, tokensAt_self, modifyHead_nil_append] at hnext
      rw [segmentsFrom_of_separator hlt hsep, List.map_cons, hnext,
        pieces_of_separates (isSeparator_of_drop hrest ▸ hsep), List.modifyHead_cons,
        List.append_nil]
      rfl
    · rw [segmentStart_succ_of_not hsep,
        tokensAt_succ (segmentStart_le ts i) (getElem?_of_drop hrest), bracketDepth_append] at hnext
      rw [segmentsFrom_of_not hlt hsep, hnext, pieces_of_not (isSeparator_of_drop hrest ▸ hsep),
        List.modifyHead_modifyHead]
      simp [Function.comp_def]

theorem map_tokensAt_segments (ts : List Token) :
    (segments ts).map (tokensAt ts) = pieces 0 ts := by
  rw [← modifyHead_nil_append (pieces 0 ts)]
  exact map_tokensAt_segmentsFrom (i := 0) List.drop_zero (Nat.zero_le _)

theorem ofPieces_cons (id first : Nat) (piece : List Token) (rest : List (List Token)) :
    Statement.ofPieces id first (piece :: rest) =
      if hasContent piece then
        ⟨id, first, piece, !rest.isEmpty⟩ ::
          Statement.ofPieces (id + 1) (first + piece.length + 1) rest
      else Statement.ofPieces id (first + piece.length + 1) rest := by
  rw [Statement.ofPieces, hasContent, ← List.not_all_eq_any_not]
  cases piece.all (·.isTrivia) <;> rfl

theorem ofPieces_segmentsFrom {ts : List Token} {start i : Nat} (hle : i ≤ ts.length)
    (hstart : start ≤ i) (id : Nat) :
    Statement.ofPieces id start ((segmentsFrom ts start i).map (tokensAt ts)) =
      (((segmentsFrom ts start i).filter fun span => hasContent (tokensAt ts span)).zipIdx id).map
        fun (span, id) => segmentStatement ts id span := by
  revert id
  refine And.right (segmentsFrom_induction
    (motive := fun start i spans => start ≤ i → spans ≠ [] ∧ ∀ id,
      Statement.ofPieces id start (spans.map (tokensAt ts)) =
        ((spans.filter fun span => hasContent (tokensAt ts span)).zipIdx id).map
          fun (span, id) => segmentStatement ts id span)
    ts ?_ ?_ ?_ start i hle hstart)
  · intro start hstart
    refine ⟨List.cons_ne_nil _ _, ?_⟩
    intro id
    rw [List.map_singleton, ofPieces_cons, List.filter_cons, List.filter_nil]
    split_ifs
    · simp [segmentStatement, Statement.ofPieces, isSeparator_length]
    · rfl
  · intro start i spans hlt hsep ih hstart
    obtain ⟨hne, ih⟩ := ih (Nat.le_refl _)
    refine ⟨List.cons_ne_nil _ _, ?_⟩
    intro id
    have hlen : start + (tokensAt ts ⟨start, i⟩).length + 1 = i + 1 := by
      rw [length_tokensAt (Nat.le_of_lt hlt)]
      omega
    have hmore : (!(spans.map (tokensAt ts)).isEmpty) = isSeparator ts i := by
      rw [hsep, List.isEmpty_map, List.isEmpty_eq_false_iff.mpr hne]
      rfl
    rw [List.map_cons, ofPieces_cons, hlen, ih, ih, hmore, List.filter_cons]
    split_ifs <;> rfl
  · intro start i spans _ _ ih hstart
    exact ih (Nat.le_succ_of_le hstart)

/-- The statements of a document are its filled segments, numbered in order. -/
theorem ofPieces_pieces (ts : List Token) :
    Statement.ofPieces 0 0 (pieces 0 ts) =
      (filledSegments ts).zipIdx.map fun (span, id) => segmentStatement ts id span := by
  rw [← map_tokensAt_segments]
  exact ofPieces_segmentsFrom (Nat.zero_le _) (Nat.le_refl 0) 0

section Order

variable {ts : List Token} {start i : Nat}

theorem segmentsFrom_ordered (hle : i ≤ ts.length) (hstart : start ≤ i) :
    (∀ span ∈ segmentsFrom ts start i,
      start ≤ span.start ∧ span.start ≤ span.stop ∧ span.stop ≤ ts.length) ∧
    (segmentsFrom ts start i).Pairwise fun a b => a.stop < b.start := by
  revert hstart
  refine segmentsFrom_induction
    (motive := fun start i spans => start ≤ i →
      (∀ span ∈ spans, start ≤ span.start ∧ span.start ≤ span.stop ∧ span.stop ≤ ts.length) ∧
      spans.Pairwise fun a b => a.stop < b.start)
    ts ?_ ?_ ?_ start i hle
  · intro start hstart
    refine ⟨fun span hspan => ?_, List.pairwise_singleton _ _⟩
    obtain rfl := List.mem_singleton.mp hspan
    exact ⟨Nat.le_refl _, hstart, Nat.le_refl _⟩
  · intro start i spans hlt _ ih hstart
    obtain ⟨hbounds, hpairwise⟩ := ih (Nat.le_refl _)
    constructor
    · intro span hspan
      rcases List.mem_cons.mp hspan with rfl | hspan
      · exact ⟨Nat.le_refl _, hstart, Nat.le_of_lt hlt⟩
      · obtain ⟨hfirst, hlast⟩ := hbounds span hspan
        exact ⟨by omega, hlast⟩
    · exact hpairwise.cons fun span hspan => (hbounds span hspan).1
  · intro start i spans _ _ ih hstart
    exact ih (Nat.le_succ_of_le hstart)

theorem exists_segment {j : Nat} (hsep : isSeparator ts j = false) (hj : j < ts.length)
    (hle : i ≤ ts.length) (hstart : start ≤ j) :
    ∃ span ∈ segmentsFrom ts start i, span.start ≤ j ∧ j < span.stop := by
  revert hstart
  refine segmentsFrom_induction
    (motive := fun start _ spans => start ≤ j → ∃ span ∈ spans, span.start ≤ j ∧ j < span.stop)
    ts ?_ ?_ ?_ start i hle
  · intro start hstart
    exact ⟨_, List.mem_singleton_self _, hstart, hj⟩
  · intro start i spans _ hi ih hstart
    have hne : i ≠ j := by
      rintro rfl
      simp [hsep] at hi
    rcases Nat.lt_or_gt_of_ne hne with hlt | hlt
    · obtain ⟨span, hmem, hspan⟩ := ih hlt
      exact ⟨span, List.mem_cons_of_mem _ hmem, hspan⟩
    · exact ⟨_, List.mem_cons_self, hstart, hlt⟩
  · intro start i spans _ _ ih
    exact ih

theorem le_of_mem_segments {span : Span} (h : span ∈ segments ts) :
    span.start ≤ span.stop ∧ span.stop ≤ ts.length :=
  ((segmentsFrom_ordered (Nat.zero_le _) (Nat.le_refl 0)).1 span h).2

theorem take_append_tokensAt {span : Span} (h : span.start ≤ span.stop) :
    ts.take span.start ++ tokensAt ts span ++ ts.drop span.stop = ts := by
  have hfront : (ts.take span.stop).take span.start = ts.take span.start := by
    rw [List.take_take, Nat.min_eq_left h]
  rw [tokensAt, ← hfront, List.take_append_drop, List.take_append_drop]

theorem mem_take_of_mem_tokensAt {span : Span} {t : Token} (h : t ∈ tokensAt ts span) :
    t ∈ ts.take span.stop :=
  List.mem_of_mem_drop h

theorem mem_drop_of_mem_tokensAt {span : Span} {t : Token} (h : t ∈ tokensAt ts span) :
    t ∈ ts.drop span.start := by
  rw [tokensAt, List.drop_take] at h
  exact List.mem_of_mem_take h

theorem mem_tokensAt {span : Span} {t : Token} (h : ts[i]? = some t) (hstart : span.start ≤ i)
    (hstop : i < span.stop) : t ∈ tokensAt ts span := by
  refine List.mem_of_getElem? (i := i - span.start) ?_
  rw [tokensAt, List.getElem?_drop, Nat.add_sub_cancel' hstart, List.getElem?_take_of_lt hstop, h]

theorem tokenSpan_segmentStatement {span : Span} (h : span ∈ segments ts) (id : Nat) :
    (segmentStatement ts id span).tokenSpan = span := by
  obtain ⟨hle, hlen⟩ := le_of_mem_segments h
  rw [Statement.tokenSpan, segmentStatement, length_tokensAt hlen, Nat.add_sub_cancel' hle]

end Order

end QueryLint
