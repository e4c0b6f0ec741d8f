import QueryLint.Proofs.Token.Opening
import QueryLint.Proofs.Token.Rows

/-!
# The kinds an opening can make

How a lexeme opens leaves few kinds for it (`Opening.kind_scan`). What depends on a
lexeme's kind alone is then settled by a look at these kinds, opening by opening.
-/
namespace QueryLint

def Opening.kinds : Opening → List TokenKind
  | lineFeed | carriageReturn => [.newline]
  | blank => [.whitespace]
  | lineComment => [.comment]
  | blockComment => [.comment, .other]
  | quote => [.stringLiteral, .other]
  | backtick => [.identifier, .other]
  | sigil => [.identifier, .punctuation]
  | digit | point => [.numberLiteral]
  | letter => [.keyword, .identifier, .stringLiteral, .other]
  | mark => [.punctuation, .other]

namespace Scan

theorem blockComment_kind (cs : List Char) :
    (blockComment cs).kind ∈ [TokenKind.comment, .other] := by
  unfold blockComment
  split <;> simp

theorem string_kind (quote : Char) (escapes : Bool) (cs : List Char) :
    (string quote escapes cs).kind ∈ [TokenKind.stringLiteral, .other] := by
  unfold string
  dsimp only
  split_ifs <;> simp

theorem markedLiteral_kind (word : List Char) (extra : Nat) (quote : Char) (rest : List Char) :
    (markedLiteral word extra quote rest).kind ∈ [TokenKind.stringLiteral, .other] :=
  string_kind quote _ rest

theorem quotedName_kind (cs : List Char) :
    (quotedName cs).kind ∈ [TokenKind.identifier, .other] := by
  unfold quotedName
  dsimp only
  split_ifs <;> simp

theorem word_kind (c : Char) (cs : List Char) :
    (word c cs).kind ∈ [TokenKind.keyword, .identifier, .stringLiteral, .other] := by
  rcases word_cases c cs with ⟨quote, behind, -, -, heq⟩ | heq
  · rw [heq]
    exact List.mem_cons_of_mem _ (List.mem_cons_of_mem _ (markedLiteral_kind _ _ quote behind))
  · rw [heq]
    unfold plainWord
    dsimp only
    split_ifs <;> simp

theorem parameter_kind (cs : List Char) :
    (parameter cs).kind ∈ [TokenKind.identifier, .punctuation] := by
  rw [parameter]
  split_ifs <;> simp

theorem number_kind (c : Char) (cs : List Char) : (number c cs).kind ∈ [.numberLiteral] := by
  unfold number
  dsimp only
  split_ifs <;> simp

theorem punctuation_kind (c : Char) (cs : List Char) :
    (punctuation c cs).kind ∈ [TokenKind.punctuation, .other] := by
  unfold punctuation
  split_ifs <;> simp

end Scan

theorem Opening.kind_scan (o : Opening) (c : Char) (cs : List Char) :
    (o.scan c cs).kind ∈ o.kinds := by
  cases o with
  | lineFeed => exact List.mem_cons_self
  | carriageReturn => exact List.mem_cons_self
  | blank => exact List.mem_cons_self
  | lineComment => exact List.mem_cons_self
  | blockComment => exact Scan.blockComment_kind cs
  | quote => exact Scan.string_kind c true cs
  | backtick => exact Scan.quotedName_kind cs
  | sigil => exact Scan.parameter_kind cs
  | digit => exact Scan.number_kind c cs
  | point => exact Scan.number_kind c cs
  | letter => exact Scan.word_kind c cs
  | mark => exact Scan.punctuation_kind c cs

theorem kind_scan_mem (c : Char) (cs : List Char) :
    (scan c cs).kind ∈ (opening c cs.head?).kinds :=
  scan_eq_opening c cs ▸ Opening.kind_scan _ c cs

end QueryLint
