import ChomskyForm.Json.Lexer
import ChomskyForm.Json.Writer
import ChomskyForm.Proofs.PrefixCode

set_option autoImplicit false
set_option relaxedAutoImplicit false

/-!
# The tokens of written JSON text

What the writer puts down is cut into the tokens that were meant: a quoted text is one string token
with this text as its content, whatever characters it has, and brackets, braces, commas and colons
stand for themselves. None of this depends on what follows, so texts can be put together.

## Main definitions

* `ChomskyForm.Json.Token.mark?`: the character that a token of punctuation consists of.

## Main results

* `ChomskyForm.Json.scanString_escaped`: what is scanned of an escaped text, up to its quotation
  mark.
* `ChomskyForm.Json.lex_quote`: the token of a quoted text.
* `ChomskyForm.Json.lex_mark`: the tokens of punctuation.
* `ChomskyForm.Json.toList_array_cons`, `ChomskyForm.Json.toList_object_cons`: arrays and objects,
  character by character.
* `ChomskyForm.Json.lex_object_quote`: an object with a single text, token by token.
-/

namespace ChomskyForm

namespace Json

/-! ## Strings -/

/-- The four digits of a control character are those of its number. There are only 32 of them, so
this is checked one by one. -/
lemma codeUnit?_hexDigit {n : Nat} (hn : n < 32) :
    codeUnit? '0' '0' (hexDigit (n / 16)) (hexDigit (n % 16)) = some n := by
  revert n
  decide

/-- A code unit that is not half of a surrogate pair is decoded by itself, whatever follows it.
Control characters are the only ones that are written in this way. -/
lemma decodePieces_codeUnit {n : Nat} (hhigh : isHighSurrogate n = false)
    (hlow : isLowSurrogate n = false) (pieces : List Piece) :
    decodePieces (.codeUnit n :: pieces) = (decodePieces pieces).map (Char.ofNat n :: ·) := by
  rcases pieces with _ | ⟨_ | _, _⟩ <;> simp [decodePieces, hhigh, hlow]

/-- **An escaped character** is scanned as one piece, and this piece is decoded to the character.

**Proof sketch.** The cases are those of the writer: seven characters have a short escape, the
other control characters are written as a code unit, and all others stand for themselves, which the
scanner admits because they are neither control characters nor special. -/
lemma exists_piece (c : Char) :
    ∃ piece, (∀ cs, scanString (escapeChar c ++ cs) =
        (scanString cs).map fun scanned => (piece :: scanned.1, scanned.2)) ∧
      ∀ pieces, decodePieces (piece :: pieces) = (decodePieces pieces).map (c :: ·) := by
  unfold escapeChar
  -- seven characters have a short escape
  iterate 7
    split
    · next heq =>
      refine ⟨.char c, fun cs => ?_, fun _ => rfl⟩
      rw [heq]
      simp [scanString, shortEscape?]
  split
  · next hcontrol =>
    refine ⟨.codeUnit c.toNat, fun cs => ?_, fun pieces => ?_⟩
    · simp [scanString, codeUnit?_hexDigit hcontrol]
    · have hhigh : isHighSurrogate c.toNat = false := by simp [isHighSurrogate]; omega
      have hlow : isLowSurrogate c.toNat = false := by simp [isLowSurrogate]; omega
      rw [decodePieces_codeUnit hhigh hlow, Char.ofNat_toNat]
  · next hquote hbackslash _ _ _ _ _ hcontrol =>
    refine ⟨.char c, fun cs => ?_, fun _ => rfl⟩
    rw [List.singleton_append, scanString]
    · simp [hcontrol, hbackslash]
    all_goals simp [hquote, hbackslash]

/-- **An escaped text** is scanned up to its closing quotation mark, and decoded to itself. By
induction on the text, as each character is a piece of its own. -/
theorem scanString_escaped (text rest : List Char) :
    ∃ pieces, scanString (text.flatMap escapeChar ++ '"' :: rest) = some (pieces, rest) ∧
      decodePieces pieces = some text := by
  induction text with
  | nil => exact ⟨[], rfl, rfl⟩
  | cons c text ih =>
    obtain ⟨pieces, hscan, hdecode⟩ := ih
    obtain ⟨piece, hpiece, hc⟩ := exists_piece c
    refine ⟨piece :: pieces, ?_, ?_⟩
    · rw [List.flatMap_cons, List.append_assoc, hpiece, hscan]
      rfl
    · rw [hc, hdecode]
      rfl

/-- A token and what follows it: whatever is not a blank begins a token. -/
lemma lex_cons {c : Char} (hc : isBlank c = false) (cs : List Char) :
    lex (c :: cs) = (scanToken c cs).1 :: lex (scanToken c cs).2 := by
  rw [lex, hc]
  rfl

/-- **The token of a quoted text** has the text as its content, whatever characters the text has. -/
theorem lex_quote (text : String) (cs : List Char) :
    lex ((quote text).toList ++ cs) = .string text :: lex cs := by
  obtain ⟨pieces, hscan, hdecode⟩ := scanString_escaped text.toList cs
  have htoken : scanToken '"' (text.toList.flatMap escapeChar ++ '"' :: cs) =
      (stringToken pieces, cs) := by
    simp only [scanToken, hscan]
  have hcontent : stringToken pieces = .string text := by
    rw [stringToken, hdecode]
    exact congrArg Token.string String.ofList_toList
  simp only [quote, String.toList_ofList, List.cons_append, List.append_assoc, List.nil_append]
  rw [lex_cons (by decide), htoken, hcontent]

/-! ## Punctuation -/

/-- **The character of a token**, if the token is one of punctuation. Strings, and what cannot be
scanned, are none. -/
def Token.mark? : Token → Option Char
  | openBracket => some '['
  | closeBracket => some ']'
  | openBrace => some '\x7b'
  | closeBrace => some '\x7d'
  | comma => some ','
  | colon => some ':'
  | _ => none

/-- **The tokens of punctuation** consist of one character and do not depend on what follows. -/
theorem lex_mark (token : Token) {c : Char} (h : token.mark? = some c) (cs : List Char) :
    lex (c :: cs) = token :: lex cs := by
  cases token <;> cases h <;> exact lex_cons (by decide) cs

/-! ## Arrays and objects -/

/-- Parts with commas between them: the first part, and then a comma before each of the others. -/
lemma toList_intercalate_cons (part : String) (parts : List String) :
    (",".intercalate (part :: parts)).toList =
      part.toList ++ parts.flatMap fun part => ',' :: part.toList := by
  rw [String.toList_intercalate, List.map_cons, intercalate_cons, List.flatMap_map]
  rfl

/-- An array without items is a pair of brackets. -/
lemma toList_array_nil : (array []).toList = ['[', ']'] := rfl

/-- **An array**, character by character: a comma stands before each item but the first one. -/
lemma toList_array_cons (item : String) (items : List String) :
    (array (item :: items)).toList =
      '[' :: item.toList ++ (items.flatMap fun item => ',' :: item.toList) ++ [']'] := by
  simp only [array, String.toList_append, toList_intercalate_cons]
  simp

/-- A field of an object: its quoted key, a colon, and the text of its value. -/
def fieldText (field : String × String) : List Char :=
  (quote field.1).toList ++ ':' :: field.2.toList

/-- The tokens of a field: its key, a colon, and the tokens of its value with what follows. -/
lemma lex_fieldText (key text : String) (cs : List Char) :
    lex (fieldText (key, text) ++ cs) = .string key :: .colon :: lex (text.toList ++ cs) := by
  rw [fieldText, List.append_assoc, lex_quote, List.cons_append, lex_mark .colon rfl]

/-- An object without fields is a pair of braces. -/
lemma toList_object_nil : (object []).toList = ['\x7b', '\x7d'] := rfl

/-- **An object**, character by character: a comma stands before each field but the first one. -/
lemma toList_object_cons (field : String × String) (fields : List (String × String)) :
    (object (field :: fields)).toList =
      '\x7b' :: fieldText field ++ (fields.flatMap fun field => ',' :: fieldText field) ++
        ['\x7d'] := by
  simp only [object, String.toList_append, List.map_cons, toList_intercalate_cons]
  simp [fieldText, List.flatMap_map]

/-- **An object with a single text**, token by token. It has no blanks, so there are no other
tokens. -/
theorem lex_object_quote (key content : String) :
    lex (object [(key, quote content)]).toList =
      [.openBrace, .string key, .colon, .string content, .closeBrace] := by
  have hclose : lex ['\x7d'] = [.closeBrace] := by
    rw [lex_mark .closeBrace rfl, lex]
  rw [toList_object_cons, List.append_assoc, List.cons_append, lex_mark .openBrace rfl,
    lex_fieldText, List.flatMap_nil, List.nil_append, lex_quote, hclose]

end Json

end ChomskyForm
