import QueryLint.Proofs.Edit.OneKind
import QueryLint.Proofs.Rule.Order
import QueryLint.Proofs.Text.Inverse

/-!
# Edits that overwrite an insertion

Of two edits with the same start that do not clash, the first to be taken inserts and
the second replaces what follows. The insertion goes in first, and the other edit then
cuts its bytes out of the inserted text. `Edit.GoesIn` says what comes of that, and when
nothing does; edits without such a pair go in together (`fixes_apply_iff_goesIn`).
-/
namespace QueryLint

theorem Text.append_inj_of_byteLength {before after before' after' : List Char}
    (h : before ++ after = before' ++ after') (hlength : byteLength before = byteLength before') :
    before = before' ∧ after = after' := by
  have hcut := cutAt?_byteLength before after
  rw [h, hlength, cutAt?_byteLength before' after'] at hcut
  obtain ⟨hbefore, hafter⟩ := Prod.mk.inj (Option.some.inj hcut)
  exact ⟨hbefore.symm, hafter.symm⟩

theorem Text.append_inj_of_span {before cut after before' cut' after' : List Char}
    (h : before ++ cut ++ after = before' ++ cut' ++ after')
    (hspan : (⟨byteLength before, byteLength before + byteLength cut⟩ : Span) =
      ⟨byteLength before', byteLength before' + byteLength cut'⟩) :
    before = before' ∧ cut = cut' ∧ after = after' := by
  obtain ⟨hstart, hstop⟩ := Span.mk.inj hspan
  rw [List.append_assoc, List.append_assoc] at h
  obtain ⟨rfl, hbehind⟩ := append_inj_of_byteLength h hstart
  exact ⟨rfl, append_inj_of_byteLength hbehind (Nat.add_left_cancel hstop)⟩

/-- Bytes that are cut out where a text was inserted are some of that text's and of those
behind it, and the others stay. -/
theorem Text.exists_parts_of_cut {before lost after front inserted cut more : List Char}
    (h : before ++ lost ++ after = front ++ inserted ++ (cut ++ more))
    (hstart : byteLength before = byteLength front) (hbytes : byteLength lost = byteLength cut) :
    before = front ∧ ∃ left, inserted ++ cut = lost ++ left ∧ after = left ++ more := by
  rw [List.append_assoc, List.append_assoc] at h
  obtain ⟨rfl, hcut⟩ := append_inj_of_byteLength h hstart
  have hlost : lost <+: inserted ++ cut ++ more := by
    rw [List.append_assoc, ← hcut]
    exact List.prefix_append _ _
  obtain ⟨left, hparts⟩ := prefix_of_byteLength_le hlost (List.prefix_append _ _)
    (by rw [byteLength_append, hbytes]; exact Nat.le_add_left _ _)
  refine ⟨rfl, left, hparts.symm, ?_⟩
  rw [← List.append_assoc, ← hparts, List.append_assoc] at hcut
  exact List.append_cancel_left hcut

namespace Edit

/-- Whether an edit replaces what follows the place where another inserts. -/
def LiesOver (b a : Edit) : Prop :=
  a.range = Range.point b.range.start ∧ b.range.start < b.range.stop

instance (b a : Edit) : Decidable (LiesOver b a) := inferInstanceAs (Decidable (_ ∧ _))

/-- How edits stand to each other that do not clash. -/
theorem before_or_liesOver_of_not_clashes {a b : Edit} (ha : a.range.start ≤ a.range.stop)
    (hb : b.range.start ≤ b.range.stop) (h : b.clashes a = false) :
    Before a b ∨ Before b a ∨ LiesOver b a := by
  simp only [clashes, Range.overlaps, Range.isEmpty, Bool.or_eq_false_iff, Bool.and_eq_false_iff,
    decide_eq_false_iff_not, Position.not_lt, beq_eq_false_iff_ne] at h
  obtain ⟨hoverlap, hinsertion⟩ := h
  by_cases hsame : b.range.start = a.range.start
  · have hlt : b.range.start < b.range.stop := by
      by_contra hge
      have hempty := Position.le_antisymm hb (Position.not_lt.mp hge)
      exact hinsertion.elim (absurd hempty) (absurd hsame)
    refine Or.inr (Or.inr ⟨?_, hlt⟩)
    rcases hoverlap with hend | hend
    · rw [hsame] at hend ⊢
      exact congrArg (Range.mk a.range.start) (Position.le_antisymm hend ha)
    · rw [← hsame] at hend
      exact absurd hlt (Position.not_lt.mpr hend)
  · rcases hoverlap with hend | hend
    · refine Or.inl ⟨?_, hend⟩
      by_contra hge
      exact hsame (Position.le_antisymm (Position.not_lt.mp hge) (Position.le_trans ha hend))
    · refine Or.inr (Or.inl ⟨?_, hend⟩)
      by_contra hge
      exact hsame (Position.le_antisymm (Position.le_trans hb hend) (Position.not_lt.mp hge))

/-- Edits in the order of a text: each stands before all that follow, or lies over the
next and stands before the rest. -/
inductive Laid : List Edit → Prop
  | nil : Laid []
  | alone {e : Edit} {es : List Edit} (before : ∀ z ∈ es, Before e z) (behind : Laid es) :
      Laid (e :: es)
  | atop {b a : Edit} {es : List Edit} (liesOver : LiesOver b a) (before : ∀ z ∈ es, Before b z)
      (behind : Laid es) : Laid (b :: a :: es)

theorem start_le_of_laid {x y : Edit} (h : Before x y ∨ LiesOver x y) :
    x.range.start ≤ y.range.start := by
  rcases h with h | ⟨hpoint, -⟩
  · exact Position.le_of_lt h.1
  · rw [hpoint]
    exact Position.le_refl _

theorem laid_of_pairwise {es : List Edit}
    (h : es.Pairwise fun x y => Before x y ∨ LiesOver x y) : Laid es := by
  match es with
  | [] => exact .nil
  | [e] => exact .alone (by simp) .nil
  | x :: y :: es =>
    obtain ⟨hx, htail⟩ := List.pairwise_cons.mp h
    obtain ⟨hy, hes⟩ := List.pairwise_cons.mp htail
    obtain ⟨hxy, hx⟩ := List.forall_mem_cons.mp hx
    rcases hxy with hxy | hxy
    · refine .alone (List.forall_mem_cons.mpr ⟨hxy, ?_⟩) (laid_of_pairwise htail)
      intro z hz
      apply (hx z hz).resolve_right
      rintro ⟨hpoint, -⟩
      have hle := start_le_of_laid (hy z hz)
      rw [hpoint] at hle
      exact Position.not_lt.mpr hle hxy.1
    · refine .atop hxy ?_ (laid_of_pairwise hes)
      intro z hz
      apply (hx z hz).resolve_right
      rintro ⟨hpoint, -⟩
      rcases hy z hz with hyz | hyz
      · have hlt := hyz.1
        rw [hpoint, hxy.1] at hlt
        exact Position.lt_irrefl _ hlt
      · have hlt := hyz.2
        rw [hxy.1] at hlt
        exact Position.lt_irrefl _ hlt

theorem sublist_of_backToFront {es : List Edit} {x y : Edit}
    (h : [x, y].Sublist (backToFront es)) (hsame : y.range.start = x.range.start) :
    [x, y].Sublist es := by
  have hfilter := h.filter fun e => e.range.start = x.range.start
  have htied := filter_mergeSort_of_tied start_le_trans start_le_total
    (p := fun e => e.range.start = x.range.start) (by
      intro a b ha hb
      rw [of_decide_eq_true ha, of_decide_eq_true hb]
      exact decide_eq_true (Position.le_refl _)) es
  unfold backToFront at hfilter
  rw [htied] at hfilter
  simp only [List.filter_cons, decide_true, hsame, if_true, List.filter_nil] at hfilter
  exact hfilter.trans List.filter_sublist

theorem laid_reverse_backToFront {es : List Edit} (hle : ∀ e ∈ es, e.range.start ≤ e.range.stop)
    (h : es.Pairwise fun a b => b.clashes a = false) : Laid (backToFront es).reverse := by
  have hplaced : es.Pairwise fun a b => Before a b ∨ Before b a ∨ LiesOver b a := by
    apply h.imp_of_mem
    intro a b ha hb hclash
    exact before_or_liesOver_of_not_clashes (hle a ha) (hle b hb) hclash
  have hapart : ∀ a ∈ es, ∀ b ∈ es, a.range.start < b.range.start → Before a b := by
    have hsymm : Std.Symm fun a b : Edit =>
        a.range.start ≠ b.range.start → Before a b ∨ Before b a :=
      ⟨fun _ _ hab hne => (hab hne.symm).symm⟩
    have hpairwise : es.Pairwise fun a b =>
        a.range.start ≠ b.range.start → Before a b ∨ Before b a := by
      apply hplaced.imp
      rintro a b (hab | hba | hover) hne
      · exact Or.inl hab
      · exact Or.inr hba
      · exact absurd (congrArg Range.start hover.1) hne
    intro a ha b hb hlt
    have hne : a.range.start ≠ b.range.start := by
      intro heq
      rw [heq] at hlt
      exact Position.lt_irrefl _ hlt
    apply (hpairwise.forall ha hb (fun heq => hne (congrArg (·.range.start) heq)) hne).resolve_right
    intro hba
    exact Position.not_lt.mpr (Position.le_of_lt hlt) hba.1
  apply laid_of_pairwise
  rw [List.pairwise_reverse, List.pairwise_iff_forall_sublist]
  intro x y hsublist
  have hmem : ∀ e ∈ [x, y], e ∈ es := by
    intro e he
    exact (List.mergeSort_perm es _).subset (hsublist.subset he)
  by_cases hlt : y.range.start < x.range.start
  · exact Or.inl (hapart y (hmem y (by simp)) x (hmem x (by simp)) hlt)
  · have hsame : y.range.start = x.range.start :=
      Position.le_antisymm (List.pairwise_iff_forall_sublist.mp (pairwise_backToFront es) hsublist)
        (Position.not_lt.mp hlt)
    rcases List.pairwise_iff_forall_sublist.mp hplaced (sublist_of_backToFront hsublist hsame)
      with hxy | hyx | hyx
    · have hstart := hxy.1
      rw [hsame] at hstart
      exact absurd hstart (Position.lt_irrefl _)
    · exact Or.inl hyx
    · exact Or.inr hyx

/-- The text from byte `offset` on, before and after edits go into it from the last to
the first. An edit that lies over an insertion cuts its bytes out of the text with the
insertion in it: `lost` is cut out, and `left` stays. -/
inductive GoesIn (index : Text.LineIndex) : Nat → List Edit → List Char → List Char → Prop
  | nil (offset : Nat) (text : List Char) : GoesIn index offset [] text text
  | alone {offset : Nat} {e : Edit} {es : List Edit} {gap cut rest result : List Char}
      (span : e.span index = ⟨offset + Text.byteLength gap,
        offset + Text.byteLength gap + Text.byteLength cut⟩)
      (behind : GoesIn index (offset + Text.byteLength gap + Text.byteLength cut) es rest result) :
      GoesIn index offset (e :: es) (gap ++ cut ++ rest) (gap ++ e.newText.toList ++ result)
  | atop {offset : Nat} {b a : Edit} {es : List Edit} {gap cut rest result lost left : List Char}
      (span : b.span index = ⟨offset + Text.byteLength gap,
        offset + Text.byteLength gap + Text.byteLength cut⟩)
      (point : a.span index = Span.point (offset + Text.byteLength gap))
      (parts : a.newText.toList ++ cut = lost ++ left)
      (bytes : Text.byteLength lost = Text.byteLength cut)
      (behind : GoesIn index (offset + Text.byteLength gap + Text.byteLength cut) es rest result) :
      GoesIn index offset (b :: a :: es) (gap ++ cut ++ rest)
        (gap ++ b.newText.toList ++ left ++ result)

section GoesIn

variable {index : Text.LineIndex} {offset : Nat} {es : List Edit} {text result front : List Char}

theorem GoesIn.foldlM_reverse (h : GoesIn index offset es text result)
    (hfront : Text.byteLength front = offset) :
    es.reverse.foldlM (fun result e =>
      splice? (e.span index).start (e.span index).stop e.newText.toList result) (front ++ text) =
      some (front ++ result) := by
  induction h generalizing front with
  | nil offset text => rfl
  | @alone offset e es gap cut rest result hspan _ ih =>
    subst hfront
    have hbehind := @ih (front ++ gap ++ cut) (by simp only [Text.byteLength_append])
    rw [foldlM_reverse_cons_eq_some_iff]
    refine ⟨front ++ gap, cut, result, ?_, ?_, ?_⟩
    · simpa only [List.append_assoc] using hbehind
    · rw [hspan, Text.byteLength_append]
    · simp only [List.append_assoc]
  | @atop offset b a es gap cut rest result lost left hspan hpoint hparts hbytes _ ih =>
    subst hfront
    have hbehind := @ih (front ++ gap ++ cut) (by simp only [Text.byteLength_append])
    rw [foldlM_reverse_cons_eq_some_iff]
    refine ⟨front ++ gap, lost, left ++ result, ?_, ?_, ?_⟩
    · rw [foldlM_reverse_cons_eq_some_iff]
      refine ⟨front ++ gap, [], cut ++ result, ?_, ?_, ?_⟩
      · simpa only [List.append_assoc, List.nil_append] using hbehind
      · rw [hpoint, Text.byteLength_append]
        rfl
      · rw [List.append_assoc _ lost, ← List.append_assoc lost, ← hparts]
        simp only [List.append_assoc]
    · rw [hspan, Text.byteLength_append, hbytes]
    · simp only [List.append_assoc]

theorem exists_slices_behind (hmono : ∀ p q : Position, p ≤ q → index.offset p ≤ index.offset q)
    {e : Edit} (hslice : IsSlice index offset text e)
    (hslices : ∀ z ∈ es, IsSlice index offset text z) (hbefore : ∀ z ∈ es, Before e z) :
    ∃ gap cut rest, text = gap ++ cut ++ rest ∧
      e.span index = ⟨offset + Text.byteLength gap,
        offset + Text.byteLength gap + Text.byteLength cut⟩ ∧
      ∀ z ∈ es, IsSlice index (offset + Text.byteLength gap + Text.byteLength cut) rest z := by
  obtain ⟨gap, cut, rest, rfl, hspan⟩ := hslice
  refine ⟨gap, cut, rest, rfl, hspan, ?_⟩
  intro z hz
  exact (hslices z hz).behind_cut hspan (hmono _ _ (hbefore z hz).2)

theorem LiesOver.span_eq {b a : Edit} (h : LiesOver b a) :
    a.span index = Span.point (b.span index).start := by
  rw [span, h.1]
  rfl

theorem Laid.exists_goesIn (h : Laid es)
    (hmono : ∀ p q : Position, p ≤ q → index.offset p ≤ index.offset q)
    (hslice : ∀ e ∈ es, IsSlice index offset text e) (hfront : Text.byteLength front = offset)
    (hfold : es.reverse.foldlM (fun result e =>
      splice? (e.span index).start (e.span index).stop e.newText.toList result) (front ++ text) =
      some result) :
    ∃ more, result = front ++ more ∧ GoesIn index offset es text more := by
  induction h generalizing offset text front result with
  | nil =>
    obtain rfl := Option.some.inj hfold
    exact ⟨text, rfl, .nil offset text⟩
  | @alone e es hbefore _ ih =>
    subst hfront
    obtain ⟨hslice, hslices⟩ := List.forall_mem_cons.mp hslice
    obtain ⟨gap, cut, rest, rfl, hspan, hbehind⟩ :=
      exists_slices_behind hmono hslice hslices hbefore
    obtain ⟨before, cut', after, hothers, hspan', rfl⟩ := foldlM_reverse_cons_eq_some_iff.mp hfold
    rw [← List.append_assoc, ← List.append_assoc] at hothers
    obtain ⟨more, hmore, hgoes⟩ := ih hbehind (by simp only [Text.byteLength_append]) hothers
    rw [hspan, ← Text.byteLength_append] at hspan'
    obtain ⟨rfl, rfl, rfl⟩ := Text.append_inj_of_span hmore hspan'.symm
    refine ⟨gap ++ e.newText.toList ++ after, ?_, .alone hspan hgoes⟩
    simp only [List.append_assoc]
  | @atop b a es hover hbefore _ ih =>
    subst hfront
    obtain ⟨hslice, hslices⟩ := List.forall_mem_cons.mp hslice
    obtain ⟨gap, cut, rest, rfl, hspan, hbehind⟩ :=
      exists_slices_behind hmono hslice (List.forall_mem_cons.mp hslices).2 hbefore
    obtain ⟨before, lost, after, hothers, hspan', rfl⟩ := foldlM_reverse_cons_eq_some_iff.mp hfold
    obtain ⟨before', cut', after', hothers', hspan'', hinserted⟩ :=
      foldlM_reverse_cons_eq_some_iff.mp hothers
    rw [← List.append_assoc, ← List.append_assoc] at hothers'
    obtain ⟨more, hmore, hgoes⟩ := ih hbehind (by simp only [Text.byteLength_append]) hothers'
    have hpoint : a.span index = Span.point (Text.byteLength front + Text.byteLength gap) := by
      rw [hover.span_eq, hspan]
    obtain ⟨rfl, rfl, rfl⟩ : before' = front ++ gap ∧ cut' = [] ∧ after' = cut ++ more := by
      apply Text.append_inj_of_span
      · rw [hmore, List.append_nil, List.append_assoc _ cut]
      · rw [← hspan'', hpoint, Text.byteLength_append]
        rfl
    rw [hspan, ← Text.byteLength_append] at hspan'
    obtain ⟨hstart, hstop⟩ := Span.mk.inj hspan'
    have hbytes : Text.byteLength lost = Text.byteLength cut := by
      rw [hstart] at hstop
      exact (Nat.add_left_cancel hstop).symm
    obtain ⟨rfl, left, hparts, rfl⟩ := Text.exists_parts_of_cut hinserted hstart.symm hbytes
    refine ⟨gap ++ b.newText.toList ++ left ++ more, ?_,
      .atop hspan hpoint hparts hbytes hgoes⟩
    simp only [List.append_assoc]

section Atop

variable {a b : Edit} {order : List Edit} {gap cut rest : List Char}

theorem GoesIn.replaces_of_nothing
    (hspan : b.span index = ⟨offset + Text.byteLength gap,
      offset + Text.byteLength gap + Text.byteLength cut⟩)
    (hpoint : a.span index = Span.point (offset + Text.byteLength gap)) (hnothing : a.newText = "")
    (hreplaces : Replaces index (offset + Text.byteLength gap + Text.byteLength cut) order rest
      result)
    (hgoes : GoesIn index (offset + Text.byteLength gap + Text.byteLength cut) es rest result) :
    Replaces index offset (a :: b :: order) (gap ++ cut ++ rest)
        (gap ++ b.newText.toList ++ result) ∧
      GoesIn index offset (b :: a :: es) (gap ++ cut ++ rest)
        (gap ++ b.newText.toList ++ result) := by
  have hnew : a.newText.toList = [] := by rw [hnothing]; rfl
  have hinner : Replaces index (offset + Text.byteLength gap) (b :: order) ([] ++ cut ++ rest)
      ([] ++ b.newText.toList ++ result) := .cons hspan hreplaces
  have houter : Replaces index offset (a :: b :: order) (gap ++ [] ++ (cut ++ rest))
      (gap ++ a.newText.toList ++ (b.newText.toList ++ result)) := .cons hpoint hinner
  have hatop : GoesIn index offset (b :: a :: es) (gap ++ cut ++ rest)
      (gap ++ b.newText.toList ++ [] ++ result) :=
    .atop hspan hpoint (by rw [hnew, List.nil_append, List.append_nil]) rfl hgoes
  refine ⟨?_, ?_⟩
  · simpa only [hnew, List.append_nil, ← List.append_assoc] using houter
  · rwa [List.append_nil] at hatop

theorem GoesIn.replaces_of_empty
    (hspan : b.span index = ⟨offset + Text.byteLength gap,
      offset + Text.byteLength gap + Text.byteLength cut⟩)
    (hpoint : a.span index = Span.point (offset + Text.byteLength gap))
    (hempty : (b.span index).isEmpty = true)
    (hreplaces : Replaces index (offset + Text.byteLength gap + Text.byteLength cut) order rest
      result)
    (hgoes : GoesIn index (offset + Text.byteLength gap + Text.byteLength cut) es rest result) :
    Replaces index offset (b :: a :: order) (gap ++ cut ++ rest)
        (gap ++ b.newText.toList ++ (a.newText.toList ++ result)) ∧
      GoesIn index offset (b :: a :: es) (gap ++ cut ++ rest)
        (gap ++ b.newText.toList ++ (a.newText.toList ++ result)) := by
  obtain rfl : cut = [] := by
    rw [hspan, Span.isEmpty, beq_iff_eq] at hempty
    by_contra hne
    have hpos := Text.byteLength_pos_of_ne_nil hne
    exact absurd hempty (by dsimp only; omega)
  have hinner : Replaces index (offset + Text.byteLength gap) (a :: order) ([] ++ [] ++ rest)
      ([] ++ a.newText.toList ++ result) := .cons hpoint hreplaces
  have hatop : GoesIn index offset (b :: a :: es) (gap ++ [] ++ rest)
      (gap ++ b.newText.toList ++ a.newText.toList ++ result) :=
    .atop hspan hpoint (List.append_nil _) rfl hgoes
  refine ⟨.cons hspan hinner, ?_⟩
  rwa [← List.append_assoc]

end Atop

/-- Edits of which none cuts into an insertion go in together. -/
theorem Laid.exists_replaces (h : Laid es)
    (hmono : ∀ p q : Position, p ≤ q → index.offset p ≤ index.offset q)
    (hslice : ∀ e ∈ es, IsSlice index offset text e)
    (hfree : ∀ a ∈ es, ∀ b ∈ es, LiesOver b a → a.newText = "" ∨ (b.span index).isEmpty = true) :
    ∃ order result, order.Perm es ∧
      order.Pairwise (fun a b => (a.span index).stop ≤ (b.span index).start) ∧
      Replaces index offset order text result ∧ GoesIn index offset es text result := by
  induction h generalizing offset text with
  | nil => exact ⟨[], text, .refl _, .nil, .nil offset text, .nil offset text⟩
  | @alone e es hbefore _ ih =>
    obtain ⟨hslice, hslices⟩ := List.forall_mem_cons.mp hslice
    obtain ⟨gap, cut, rest, rfl, hspan, hbehind⟩ :=
      exists_slices_behind hmono hslice hslices hbefore
    obtain ⟨order, result, hperm, hordered, hreplaces, hgoes⟩ := ih hbehind (by
      intro a ha b hb
      exact hfree a (List.mem_cons_of_mem _ ha) b (List.mem_cons_of_mem _ hb))
    refine ⟨e :: order, _, hperm.cons e, List.pairwise_cons.mpr ⟨?_, hordered⟩,
      .cons hspan hreplaces, .alone hspan hgoes⟩
    intro z hz
    exact hmono _ _ (hbefore z (hperm.subset hz)).2
  | @atop b a es hover hbefore _ ih =>
    obtain ⟨hslice, hslices⟩ := List.forall_mem_cons.mp hslice
    obtain ⟨gap, cut, rest, rfl, hspan, hbehind⟩ :=
      exists_slices_behind hmono hslice (List.forall_mem_cons.mp hslices).2 hbefore
    obtain ⟨order, result, hperm, hordered, hreplaces, hgoes⟩ := ih hbehind (by
      intro a ha b hb
      exact hfree a (by simp [ha]) b (by simp [hb]))
    have hpoint : a.span index = Span.point (offset + Text.byteLength gap) := by
      rw [hover.span_eq, hspan]
    have hb : ∀ z ∈ order, (b.span index).stop ≤ (z.span index).start := by
      intro z hz
      exact hmono _ _ (hbefore z (hperm.subset hz)).2
    have ha : ∀ z ∈ order, (a.span index).stop ≤ (z.span index).start := by
      intro z hz
      have hle := hb z hz
      rw [hspan] at hle
      rw [hpoint]
      exact Nat.le_trans (Nat.le_add_right _ _) hle
    rcases hfree a (by simp) b (by simp) hover with hnothing | hempty
    · obtain ⟨hreplaces, hgoes⟩ := hgoes.replaces_of_nothing hspan hpoint hnothing hreplaces
      refine ⟨a :: b :: order, _, (List.Perm.swap b a order).trans ((hperm.cons a).cons b), ?_,
        hreplaces, hgoes⟩
      refine List.pairwise_cons.mpr ⟨?_, List.pairwise_cons.mpr ⟨hb, hordered⟩⟩
      rw [List.forall_mem_cons]
      refine ⟨?_, ha⟩
      rw [hpoint, hspan]
      exact Nat.le_refl _
    · obtain ⟨hreplaces, hgoes⟩ := hgoes.replaces_of_empty hspan hpoint hempty hreplaces
      refine ⟨b :: a :: order, _, (hperm.cons a).cons b, ?_, hreplaces, hgoes⟩
      refine List.pairwise_cons.mpr ⟨?_, List.pairwise_cons.mpr ⟨ha, hordered⟩⟩
      rw [List.forall_mem_cons]
      refine ⟨?_, hb⟩
      have hsame : (b.span index).start = (b.span index).stop := by
        simpa [Span.isEmpty] using hempty
      rw [hpoint, ← hsame, hspan]
      exact Nat.le_refl _

theorem Replaces.isInfix_of_mem (h : Replaces index offset es text result) {e : Edit}
    (he : e ∈ es) : e.newText.toList <:+: result := by
  induction h with
  | nil => simp at he
  | @cons offset e' es gap cut rest result _ _ ih =>
    rcases List.mem_cons.mp he with rfl | he
    · exact ⟨gap, result, rfl⟩
    · exact (ih he).trans ⟨gap ++ e'.newText.toList, [], by rw [List.append_nil]⟩

end GoesIn

theorem backToFront_eq_self {es : List Edit}
    (h : es.Pairwise fun a b => b.range.start ≤ a.range.start) : backToFront es = es :=
  List.mergeSort_of_pairwise (h.imp decide_eq_true)

/-- The bytes between two positions in order are a slice of the text, wherever the
positions lie. -/
theorem isSlice_of_le {text : List Char} {e : Edit} (h : e.range.start ≤ e.range.stop) :
    IsSlice (Text.LineIndex.ofText text) 0 text e := by
  obtain ⟨front, rest, htext, -, hstart, -⟩ :=
    Text.LineIndex.exists_cut_of_offset text e.range.start
  obtain ⟨upTo, after, htext', -, hstop, -⟩ :=
    Text.LineIndex.exists_cut_of_offset text e.range.stop
  have hle : Text.byteLength front ≤ Text.byteLength upTo := by
    rw [← hstart, ← hstop]
    exact Text.LineIndex.offset_le_offset h
  obtain ⟨cut, rfl⟩ := Text.prefix_of_byteLength_le ⟨rest, htext.symm⟩ ⟨after, htext'.symm⟩ hle
  refine ⟨front, cut, after, htext', ?_⟩
  rw [span, hstart, hstop, Text.byteLength_append, Nat.zero_add]

end Edit

/-- What comes of the fixes of diagnostics with one edit each, wherever the edits stand.
The edits that are kept go in as `GoesIn` says, or not at all if there is no such result.
If none of them cuts into what another one inserts, there is one, and they go in
together. -/
theorem fixes_apply_iff_goesIn (text : List Char) {gs : List Diagnostic}
    (hedits : ∀ g ∈ gs, ∀ fix ∈ g.fix, ∃ e : Edit,
      fix.edits = [e] ∧ e.range.start ≤ e.range.stop) :
    let index := Text.LineIndex.ofText text
    let kept := Fix.keptEdits [] (gs.filterMap (·.fix))
    (∀ result, Diagnostic.applyFixes? text gs = some result ↔
      Edit.GoesIn index 0 (Edit.backToFront kept).reverse text result) ∧
    ((∀ a ∈ kept, ∀ b ∈ kept, b.LiesOver a →
        a.newText = "" ∨ (b.span index).isEmpty = true) →
      ∃ order result, order.Perm kept ∧
        order.Pairwise (fun a b => (a.span index).stop ≤ (b.span index).start) ∧
        Edit.Replaces index 0 order text result ∧
        Diagnostic.applyFixes? text gs = some result) := by
  intro index kept
  have hfixes : ∀ fix ∈ gs.filterMap (·.fix), ∃ e : Edit,
      fix.edits = [e] ∧ e.range.start ≤ e.range.stop := by
    intro fix hfix
    obtain ⟨g, hg, hfix⟩ := List.mem_filterMap.mp hfix
    exact hedits g hg fix hfix
  have hle : ∀ e ∈ kept, e.range.start ≤ e.range.stop := by
    intro e he
    rcases Fix.mem_of_mem_keptEdits he with he | ⟨fix, hfix, he⟩
    · simp at he
    · obtain ⟨e', hsingle, hle⟩ := hfixes fix hfix
      rw [hsingle] at he
      obtain rfl := List.mem_singleton.mp he
      exact hle
  have hlaid : Edit.Laid (Edit.backToFront kept).reverse := by
    apply Edit.laid_reverse_backToFront hle
    apply Fix.pairwise_keptEdits ?_ List.Pairwise.nil
    intro fix hfix
    obtain ⟨e, hsingle, -⟩ := hfixes fix hfix
    exact ⟨e, hsingle⟩
  have hperm : (Edit.backToFront kept).reverse.Perm kept :=
    (List.reverse_perm _).trans (List.mergeSort_perm kept _)
  have hslice : ∀ e ∈ (Edit.backToFront kept).reverse, Edit.IsSlice index 0 text e := by
    intro e he
    exact Edit.isSlice_of_le (hle e (hperm.subset he))
  have hmono : ∀ p q : Position, p ≤ q → index.offset p ≤ index.offset q := by
    intro p q h
    exact Text.LineIndex.offset_le_offset h
  have hzero : Text.byteLength [] = 0 := rfl
  have happly : ∀ result, Edit.GoesIn index 0 (Edit.backToFront kept).reverse text result →
      Diagnostic.applyFixes? text gs = some result := by
    intro result hgoes
    have hfold := hgoes.foldlM_reverse hzero
    rw [List.reverse_reverse] at hfold
    exact hfold
  constructor
  · intro result
    refine ⟨fun hfold => ?_, happly result⟩
    rw [Diagnostic.applyFixes?, Fix.applyAll?, Edit.applyAll?,
      ← List.reverse_reverse (Edit.backToFront _)] at hfold
    obtain ⟨more, rfl, hgoes⟩ := hlaid.exists_goesIn hmono hslice hzero hfold
    exact hgoes
  · intro hfree
    obtain ⟨order, result, hsame, hordered, hreplaces, hgoes⟩ :=
      hlaid.exists_replaces hmono hslice (by
        intro a ha b hb
        exact hfree a (hperm.subset ha) b (hperm.subset hb))
    exact ⟨order, result, hsame.trans hperm, hordered, hreplaces, happly result hgoes⟩

/-- An insertion behind what another edit replaces. -/
theorem fixes_apply_insertion_behind :
    let report (e : Edit) : Diagnostic := ⟨"", .warning, e.range, "", "", some ⟨"", [e]⟩⟩
    let gs := [report ⟨⟨⟨0, 1⟩, ⟨0, 1⟩⟩, "X"⟩, report ⟨⟨⟨0, 0⟩, ⟨0, 1⟩⟩, "Y"⟩]
    ∃ order result, order.Perm (Fix.keptEdits [] (gs.filterMap (·.fix))) ∧
      Edit.Replaces (Text.LineIndex.ofText "abc".toList) 0 order "abc".toList result ∧
      Diagnostic.applyFixes? "abc".toList gs = some result := by
  intro report gs
  have hedits : ∀ g ∈ gs, ∀ fix ∈ g.fix, ∃ e : Edit,
      fix.edits = [e] ∧ e.range.start ≤ e.range.stop := by
    intro g hg fix hfix
    obtain ⟨e, he, rfl⟩ : ∃ e : Edit, e.range.start ≤ e.range.stop ∧ report e = g := by
      rcases List.mem_cons.mp hg with rfl | hg
      · exact ⟨_, by decide, rfl⟩
      · exact ⟨_, by decide, (List.mem_singleton.mp hg).symm⟩
    obtain rfl := Option.some.inj hfix
    exact ⟨e, rfl, he⟩
  obtain ⟨order, result, hperm, -, hreplaces, happly⟩ :=
    (fixes_apply_iff_goesIn "abc".toList hedits).2 (by decide)
  exact ⟨order, result, hperm, hreplaces, happly⟩

/-- An insertion, and then an edit with the same start, are both kept. The edit cuts its
byte out of the inserted text: the insertion is lost and what was to be replaced stays, or,
if the byte is no whole character, nothing comes of it. -/
theorem fixes_overwrite_insertion :
    let report (e : Edit) : Diagnostic := ⟨"", .warning, e.range, "", "", some ⟨"", [e]⟩⟩
    let inserting (new : String) : List Diagnostic :=
      [report ⟨⟨⟨0, 0⟩, ⟨0, 0⟩⟩, new⟩, report ⟨⟨⟨0, 0⟩, ⟨0, 1⟩⟩, "Y"⟩]
    let kept := Fix.keptEdits [] ((inserting "X").filterMap (·.fix))
    kept.map (·.newText) = ["X", "Y"] ∧
      Diagnostic.applyFixes? "abc".toList (inserting "X") = some "Yabc".toList ∧
      (¬∃ order result, order.Perm kept ∧
        Edit.Replaces (Text.LineIndex.ofText "abc".toList) 0 order "abc".toList result ∧
        Diagnostic.applyFixes? "abc".toList (inserting "X") = some result) ∧
      Diagnostic.applyFixes? "abc".toList (inserting "é") = none := by
  intro report inserting kept
  have hkept : kept.map (·.newText) = ["X", "Y"] := by decide
  have happly : Diagnostic.applyFixes? "abc".toList (inserting "X") = some "Yabc".toList := by
    unfold Diagnostic.applyFixes? Fix.applyAll? Edit.applyAll?
    rw [Edit.backToFront_eq_self (by decide)]
    decide +kernel
  refine ⟨hkept, happly, ?_, ?_⟩
  · rintro ⟨order, result, hperm, hreplaces, hresult⟩
    obtain rfl := Option.some.inj (happly.symm.trans hresult)
    obtain ⟨e, he, hnew⟩ : ∃ e ∈ kept, e.newText = "X" := by
      rw [← List.mem_map, hkept]
      exact List.mem_cons_self
    have hinfix := hreplaces.isInfix_of_mem (hperm.mem_iff.mpr he)
    rw [hnew] at hinfix
    exact absurd hinfix (by decide)
  · unfold Diagnostic.applyFixes? Fix.applyAll? Edit.applyAll?
    rw [Edit.backToFront_eq_self (by decide)]
    decide +kernel

end QueryLint
