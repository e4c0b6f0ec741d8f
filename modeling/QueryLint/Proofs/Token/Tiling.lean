import QueryLint.Proofs.Text.Walk
import QueryLint.Proofs.Token.Extent
import Mathlib.Data.List.Chain

/-!
# Tokens tile their text

The lexemes of a text make up the text again, and placing them one behind the
other leaves neither gaps nor overlaps: in bytes, where each token's span cuts
out its own characters, and in editor coordinates, where each token ends behind
its start.
-/
namespace QueryLint

namespace Lexeme

/-- The text that a list of lexemes was read from. -/
def join (ls : List Lexeme) : List Char :=
  ls.flatMap (·.chars)

@[simp]
theorem join_nil : join [] = [] := rfl

@[simp]
theorem join_cons (l : Lexeme) (ls : List Lexeme) : join (l :: ls) = l.chars ++ join ls := rfl

@[simp]
theorem join_append (ls ms : List Lexeme) : join (ls ++ ms) = join ls ++ join ms :=
  List.flatMap_append

theorem join_concat (ls : List Lexeme) (l : Lexeme) : join (ls ++ [l]) = join ls ++ l.chars := by
  simp

/-- The token that a lexeme makes at a position and a byte offset. -/
def placed (l : Lexeme) (p : Position) (offset : Nat) : Token :=
  { l with
    range := ⟨p, p.advance l.chars⟩
    span := ⟨offset, offset + Text.byteLength l.chars⟩ }

end Lexeme

theorem join_lexemes (text : List Char) : Lexeme.join (lexemes text) = text := by
  fun_induction lexemes text with
  | case1 => rfl
  | case2 c cs hcut =>
    rw [Lexer.cutAt?_extent] at hcut
    cases hcut
  | case3 c cs chars rest hcut ih =>
    rw [Lexeme.join_cons, ih]
    exact (Text.append_eq_of_cutAt? hcut).1

theorem lexemes_eq_cons {text : List Char} {l : Lexeme} {ls : List Lexeme}
    (h : lexemes text = l :: ls) :
    ∃ c cs, text = c :: cs ∧ l = ⟨(scan c cs).kind, c :: cs.take (scan c cs).extra⟩ ∧
      lexemes (cs.drop (scan c cs).extra) = ls := by
  cases text with
  | nil =>
    rw [lexemes_nil] at h
    exact absurd h (List.cons_ne_nil l ls).symm
  | cons c cs =>
    rw [lexemes_cons, List.cons.injEq] at h
    exact ⟨c, cs, rfl, h.1.symm, h.2⟩

theorem chars_ne_nil_of_mem_lexemes {text : List Char} {l : Lexeme} (h : l ∈ lexemes text) :
    l.chars ≠ [] := by
  fun_induction lexemes text with
  | case1 => simp at h
  | case2 => simp at h
  | case3 c cs chars rest hcut ih =>
    rcases List.mem_cons.mp h with rfl | h
    · rintro rfl
      have hsize := (Text.append_eq_of_cutAt? hcut).2
      have hpos := Lexer.extent_pos c cs
      rw [← hsize] at hpos
      exact Nat.lt_irrefl 0 hpos
    · exact ih h

theorem eq_nil_of_join_eq_nil {text : List Char} {before mid after : List Lexeme}
    (h : lexemes text = before ++ mid ++ after) (hjoin : Lexeme.join mid = []) : mid = [] := by
  cases mid with
  | nil => rfl
  | cons l mid =>
    have hl : l ∈ lexemes text := by
      rw [h]
      exact List.mem_append_left after (List.mem_append_right before List.mem_cons_self)
    rw [Lexeme.join_cons, List.append_eq_nil_iff] at hjoin
    exact absurd hjoin.1 (chars_ne_nil_of_mem_lexemes hl)

/-- The position reached from `p` by walking over lexemes one at a time. -/
def Position.advanceAll (p : Position) (ls : List Lexeme) : Position :=
  ls.foldl (fun p l => p.advance l.chars) p

theorem Position.advanceAll_append (p : Position) (ls ms : List Lexeme) :
    p.advanceAll (ls ++ ms) = (p.advanceAll ls).advanceAll ms :=
  List.foldl_append

theorem Position.advanceAll_concat (p : Position) (ls : List Lexeme) (l : Lexeme) :
    p.advanceAll (ls ++ [l]) = (p.advanceAll ls).advance l.chars := by
  simp [Position.advanceAll]

theorem Position.advanceAll_le_byteLength (p : Position) (ls : List Lexeme) :
    (p.advanceAll ls).line + (p.advanceAll ls).character ≤
      p.line + p.character + Text.byteLength (Lexeme.join ls) := by
  induction ls generalizing p with
  | nil => simp [Position.advanceAll, Text.byteLength]
  | cons l ls ih =>
    have hl := p.advance_le_byteLength l.chars
    have hls := ih (p.advance l.chars)
    simp only [Position.advanceAll, List.foldl_cons, Lexeme.join_cons,
      Text.byteLength_append] at hls ⊢
    omega

section Place

variable (p : Position) (offset : Nat) (l : Lexeme) (ls ms : List Lexeme)

theorem place_cons :
    place p offset (l :: ls) =
      l.placed p offset :: place (p.advance l.chars) (offset + Text.byteLength l.chars) ls :=
  rfl

theorem map_toLexeme_place : (place p offset ls).map Token.toLexeme = ls := by
  induction ls generalizing p offset with
  | nil => rfl
  | cons l ls ih => rw [place_cons, List.map_cons, ih]; rfl

theorem place_append :
    place p offset (ls ++ ms) =
      place p offset ls ++
        place (p.advanceAll ls) (offset + Text.byteLength (Lexeme.join ls)) ms := by
  induction ls generalizing p offset with
  | nil => rfl
  | cons l ls ih =>
    rw [List.cons_append, place_cons, ih, place_cons, List.cons_append, Lexeme.join_cons,
      Text.byteLength_append, Nat.add_assoc]
    rfl

theorem join_place : Token.join (place p offset ls) = Lexeme.join ls := by
  induction ls generalizing p offset with
  | nil => rfl
  | cons l ls ih => exact congrArg (l.chars ++ ·) (ih _ _)

variable {p offset ls}

/-- A placed token stands where the lexemes before it end. -/
theorem exists_of_mem_place {t : Token} (h : t ∈ place p offset ls) :
    ∃ before l after, ls = before ++ l :: after ∧
      t = l.placed (p.advanceAll before) (offset + Text.byteLength (Lexeme.join before)) := by
  induction ls generalizing p offset with
  | nil => simp [place] at h
  | cons l ls ih =>
    rw [place_cons] at h
    rcases List.mem_cons.mp h with rfl | h
    · exact ⟨[], l, ls, rfl, rfl⟩
    · obtain ⟨before, m, after, rfl, ht⟩ := ih h
      refine ⟨l :: before, m, after, rfl, ?_⟩
      rw [ht, Lexeme.join_cons, Text.byteLength_append, Nat.add_assoc]
      rfl

theorem start_of_head?_place {t : Token} (h : t ∈ (place p offset ls).head?) :
    t.span.start = offset ∧ t.range.start = p := by
  cases ls with
  | nil => simp [place] at h
  | cons l ls =>
    obtain rfl : l.placed p offset = t := by simpa [place_cons] using h
    exact ⟨rfl, rfl⟩

theorem stop_of_getLast?_place {t : Token} (h : t ∈ (place p offset ls).getLast?) :
    t.span.stop = offset + Text.byteLength (Lexeme.join ls) ∧ t.range.stop = p.advanceAll ls := by
  induction ls generalizing p offset with
  | nil => simp [place] at h
  | cons l ls ih =>
    rw [place_cons, List.getLast?_cons, Option.mem_some_iff] at h
    cases hlast : (place (p.advance l.chars) (offset + Text.byteLength l.chars) ls).getLast? with
    | none =>
      obtain rfl : ls = [] := by
        rw [← map_toLexeme_place _ _ ls, List.getLast?_eq_none_iff.mp hlast, List.map_nil]
      rw [hlast, Option.getD_none] at h
      subst h
      exact ⟨by simp [Lexeme.placed], rfl⟩
    | some s =>
      rw [hlast, Option.getD_some] at h
      subst h
      obtain ⟨hspan, hrange⟩ := ih hlast
      refine ⟨?_, hrange⟩
      rw [hspan, Lexeme.join_cons, Text.byteLength_append, Nat.add_assoc]

theorem isChain_place :
    (place p offset ls).IsChain fun s t =>
      s.span.stop = t.span.start ∧ s.range.stop = t.range.start := by
  induction ls generalizing p offset with
  | nil => exact List.IsChain.nil
  | cons l ls ih =>
    rw [place_cons]
    apply ih.cons
    intro t ht
    obtain ⟨hspan, hrange⟩ := start_of_head?_place ht
    exact ⟨hspan.symm, hrange.symm⟩

end Place

/-- Lossless tiling: no token is empty, each span cuts its token's characters out
of the text, and the tokens follow one another without a gap from the beginning
of the text to its end. No line or column exceeds the text's length in bytes. -/
theorem tokenize_tiles (text : List Char) :
    Token.join (tokenize text) = text ∧
    (∀ t ∈ tokenize text,
      t.chars ≠ [] ∧ t.span.start < t.span.stop ∧ Text.slice? text t.span = some t.chars ∧
        t.range.start < t.range.stop ∧
        t.range.stop.line + t.range.stop.character ≤ Text.byteLength text) ∧
    (∀ t ∈ (tokenize text).head?, t.span.start = 0 ∧ t.range.start = Position.origin) ∧
    (tokenize text).IsChain (fun s t =>
      s.span.stop = t.span.start ∧ s.range.stop = t.range.start) ∧
    ∀ t ∈ (tokenize text).getLast?, t.span.stop = Text.byteLength text := by
  refine ⟨?_, ?_, ?_, isChain_place, ?_⟩
  · rw [tokenize, join_place, join_lexemes]
  · intro t ht
    obtain ⟨before, l, after, hsplit, rfl⟩ := exists_of_mem_place ht
    have htext : text = Lexeme.join before ++ l.chars ++ Lexeme.join after := by
      rw [← join_lexemes text, hsplit, Lexeme.join_append, Lexeme.join_cons, List.append_assoc]
    have hmem : l ∈ lexemes text := by
      rw [hsplit]
      exact List.mem_append_right before List.mem_cons_self
    have hchars : l.chars ≠ [] := chars_ne_nil_of_mem_lexemes hmem
    have hpos := Text.byteLength_pos_of_ne_nil hchars
    have hstop := Position.origin.advanceAll_le_byteLength (before ++ [l])
    rw [Position.advanceAll_concat, Lexeme.join_concat] at hstop
    refine ⟨hchars, Nat.lt_add_of_pos_right hpos, ?_, Position.lt_advance _ hchars, ?_⟩
    · rw [htext]
      simp only [Lexeme.placed, Nat.zero_add]
      exact Text.slice?_append _ _ _
    · rw [htext, Text.byteLength_append]
      simp only [Lexeme.placed, Position.origin] at hstop ⊢
      omega
  · intro t ht
    exact start_of_head?_place ht
  · intro t ht
    rw [(stop_of_getLast?_place ht).1, join_lexemes, Nat.zero_add]

/-- A line break of two characters is one token. -/
theorem tokenize_tiles_lineBreak :
    let t : Token := ⟨⟨.newline, ['\r', '\n']⟩, ⟨⟨0, 1⟩, ⟨1, 0⟩⟩, ⟨1, 3⟩⟩
    t ∈ tokenize "x\r\ny".toList ∧ Text.slice? "x\r\ny".toList t.span = some t.chars ∧
      t.range.start < t.range.stop := by
  intro t
  have ht : t ∈ tokenize "x\r\ny".toList := by decide +kernel
  obtain ⟨-, -, hslice, hrange, -⟩ := (tokenize_tiles "x\r\ny".toList).2.1 t ht
  exact ⟨ht, hslice, hrange⟩

end QueryLint
