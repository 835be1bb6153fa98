import ChomskyForm.Json.Number

set_option autoImplicit false
set_option relaxedAutoImplicit false

/-!
# Tokens of JSON text

A text is cut into tokens: brackets, braces, commas, colons and scalars. Where no token begins,
the list of tokens ends with one that stands for the failure, so that whoever reads the list meets
a failure at its place in the text.

A string may contain, as escapes, halves of surrogate pairs that do not belong together. Such a
string is a token without content, because it is not an error where its content does not matter.

## Main definitions

* `ChomskyForm.Json.Token`: tokens.
* `ChomskyForm.Json.lex`: the tokens of a text.
-/

namespace ChomskyForm

namespace Json

/-- **Tokens.** Strings and numbers carry what has been read of them, and whatever else a text may
hold is told apart only as far as a reader needs it. -/
inductive Token where
  | openBracket
  | closeBracket
  | openBrace
  | closeBrace
  | comma
  | colon
  | null
  | bool (value : Bool)
  | number (value : Number)
  /-- A string and its content. -/
  | string (content : String)
  /-- A string with half of a surrogate pair. -/
  | brokenString
  /-- No token: the text is not JSON from here on. -/
  | invalid
deriving DecidableEq, Repr

/-! ## Strings -/

/-- **Pieces of a string**: characters, and code units given by number. They are kept apart because
two code units may make up one character, which no other two pieces do. -/
inductive Piece where
  /-- A character, given by itself or by a short escape. -/
  | char (c : Char)
  /-- A code unit of 16 bits, given by four digits of base 16. -/
  | codeUnit (n : Nat)
deriving DecidableEq, Repr

/-- The value of a digit of base 16, in lower or upper case. -/
def hexValue? (c : Char) : Option Nat :=
  if '0' ≤ c ∧ c ≤ '9' then some (c.toNat - 48)
  else if 'a' ≤ c ∧ c ≤ 'f' then some (c.toNat - 87)
  else if 'A' ≤ c ∧ c ≤ 'F' then some (c.toNat - 55)
  else none

/-- The value of four digits of base 16, the first one being the most significant. -/
def codeUnit? (a b c d : Char) : Option Nat := do
  let a ← hexValue? a
  let b ← hexValue? b
  let c ← hexValue? c
  let d ← hexValue? d
  return ((a * 16 + b) * 16 + c) * 16 + d

/-- The character of a short escape: the part after the backslash is given. -/
def shortEscape? : Char → Option Char
  | '"' => some '"'
  | '\\' => some '\\'
  | '/' => some '/'
  | 'b' => some '\x08'
  | 'f' => some '\x0c'
  | 'n' => some '\n'
  | 'r' => some '\r'
  | 't' => some '\t'
  | _ => none

/-- **The pieces of a string** up to its closing quotation mark, and what follows it. A character
below the blank may not stand in a string, nor a backslash that begins no escape. Whether code
units belong together is not asked here. -/
def scanString : List Char → Option (List Piece × List Char)
  | [] => none
  | '"' :: rest => some ([], rest)
  | '\\' :: 'u' :: a :: b :: c :: d :: rest =>
    (codeUnit? a b c d).bind fun n =>
      (scanString rest).map fun (pieces, rest) => (.codeUnit n :: pieces, rest)
  | '\\' :: e :: rest =>
    (shortEscape? e).bind fun c =>
      (scanString rest).map fun (pieces, rest) => (.char c :: pieces, rest)
  | c :: rest =>
    if c.toNat < 32 ∨ c = '\\' then none
    else (scanString rest).map fun (pieces, rest) => (.char c :: pieces, rest)

/-- **A string leaves no more than it was given**, so that cutting a text into tokens ends.

**Proof sketch.** Induction along the scan. The closing quotation mark ends it; an escape with four
digits uses up six characters, a short escape two and any other character one, and what comes after
leaves no more than it was given. -/
theorem length_le_of_scanString {cs rest : List Char} {pieces : List Piece}
    (h : scanString cs = some (pieces, rest)) : rest.length ≤ cs.length := by
  fun_induction scanString cs generalizing pieces rest with
  | case1 => cases h
  | case2 => cases h; simp
  | case3 a b c d r ih =>
    obtain ⟨n, _, h⟩ := Option.bind_eq_some_iff.1 h
    obtain ⟨⟨ps, r'⟩, hs, h⟩ := Option.map_eq_some_iff.1 h
    simp only [Prod.mk.injEq] at h
    rw [← h.2]
    exact Nat.le_trans (ih hs) (Nat.le_add_right _ 6)
  | case4 e r _ ih =>
    obtain ⟨n, _, h⟩ := Option.bind_eq_some_iff.1 h
    obtain ⟨⟨ps, r'⟩, hs, h⟩ := Option.map_eq_some_iff.1 h
    simp only [Prod.mk.injEq] at h
    rw [← h.2]
    exact Nat.le_trans (ih hs) (Nat.le_add_right _ 2)
  | case5 => cases h
  | case6 c r _ _ _ _ ih =>
    obtain ⟨⟨ps, r'⟩, hs, h⟩ := Option.map_eq_some_iff.1 h
    simp only [Prod.mk.injEq] at h
    rw [← h.2]
    exact Nat.le_trans (ih hs) (Nat.le_add_right _ 1)

/-- Whether a code unit is the first half of a surrogate pair. -/
def isHighSurrogate (n : Nat) : Bool := 0xD800 ≤ n && n < 0xDC00

/-- Whether a code unit is the second half of a surrogate pair. -/
def isLowSurrogate (n : Nat) : Bool := 0xDC00 ≤ n && n < 0xE000

/-- **The content of a string**, if the halves of surrogate pairs in it belong together. A first
half has to be followed by a second one, and a second half may not stand alone; a pair stands for
one character beyond the first 2¹⁶. -/
def decodePieces : List Piece → Option (List Char)
  | [] => some []
  | .char c :: pieces => (decodePieces pieces).map (c :: ·)
  | .codeUnit h :: pieces =>
    if isHighSurrogate h then
      match pieces with
      | .codeUnit l :: pieces =>
        if isLowSurrogate l then
          (decodePieces pieces).map
            (Char.ofNat (0x10000 + (h - 0xD800) * 0x400 + (l - 0xDC00)) :: ·)
        else none
      | _ => none
    else if isLowSurrogate h then none
    else (decodePieces pieces).map (Char.ofNat h :: ·)

/-- The token of a string with the given pieces. A string whose content cannot be had is a token
all the same, since it may stand where it does not matter. -/
def stringToken (pieces : List Piece) : Token :=
  match decodePieces pieces with
  | some content => .string (String.ofList content)
  | none => .brokenString

/-! ## Numbers -/

/-- Whether a character is a decimal digit. -/
def isDigit (c : Char) : Bool := '0' ≤ c && c ≤ '9'

/-- **Digits** at the beginning of a text, as many as there are, and what follows them. -/
def scanDigits (cs : List Char) : List Nat × List Char :=
  ((cs.takeWhile isDigit).map (·.toNat - 48), cs.dropWhile isDigit)

/-- Digits of which there has to be one. -/
def scanSomeDigits (cs : List Char) : Option (List Nat × List Char) :=
  let (digits, rest) := scanDigits cs
  if digits.isEmpty then none else some (digits, rest)

/-- **The digits before the point.** A zero at the beginning has to be the only one. -/
def scanWhole (cs : List Char) : Option (List Nat × List Char) :=
  match scanSomeDigits cs with
  | some (0 :: _ :: _, _) => none
  | scanned => scanned

/-- **The point and the digits after it**, if there is a point. -/
def scanFraction : List Char → Option (Option (List Nat) × List Char)
  | '.' :: rest => (scanSomeDigits rest).map fun (digits, rest) => (some digits, rest)
  | rest => some (none, rest)

/-- The sign of an exponent, and what follows it. Without a sign the exponent is positive. -/
def scanSign : List Char → Bool × List Char
  | '+' :: rest => (false, rest)
  | '-' :: rest => (true, rest)
  | rest => (false, rest)

/-- **The exponent**, if there is one. -/
def scanExponent : List Char → Option (Option (Bool × List Nat) × List Char)
  | [] => some (none, [])
  | c :: rest =>
    if c = 'e' ∨ c = 'E' then
      let (negative, rest) := scanSign rest
      (scanSomeDigits rest).map fun (digits, rest) => (some (negative, digits), rest)
    else some (none, c :: rest)

/-- **A number** after its sign at the beginning of a text, and what follows it. The fraction and
the exponent may be absent, but a point or an `e` calls for a digit. -/
def scanNumeral (negative : Bool) (cs : List Char) : Option (Numeral × List Char) :=
  (scanWhole cs).bind fun (whole, cs) =>
    (scanFraction cs).bind fun (fraction, cs) =>
      (scanExponent cs).map fun (exponent, cs) => (⟨negative, whole, fraction, exponent⟩, cs)

/-- **Digits of which there has to be one leave less than they were given**: the digits and what
follows them make up the text, and there is a digit. -/
theorem length_lt_of_scanSomeDigits {cs rest : List Char} {digits : List Nat}
    (h : scanSomeDigits cs = some (digits, rest)) : rest.length < cs.length := by
  have hsplit := congrArg List.length (cs.takeWhile_append_dropWhile (p := isDigit))
  rw [List.length_append] at hsplit
  unfold scanSomeDigits scanDigits at h
  cases hd : cs.takeWhile isDigit with
  | nil => simp [hd] at h
  | cons c ds =>
    simp only [hd, List.map_cons, List.isEmpty_cons, Bool.false_eq_true, if_false,
      Option.some.injEq, Prod.mk.injEq] at h
    rw [hd, List.length_cons] at hsplit
    rw [← h.2]
    omega

/-- The digits before the point leave less than they were given. -/
theorem length_lt_of_scanWhole {cs rest : List Char} {digits : List Nat}
    (h : scanWhole cs = some (digits, rest)) : rest.length < cs.length := by
  unfold scanWhole at h
  split at h
  · cases h
  · exact length_lt_of_scanSomeDigits h

/-- A fraction leaves no more than it was given: just as much where there is no point, and less
where there is one, which has to be followed by a digit. -/
theorem length_le_of_scanFraction {cs rest : List Char} {digits : Option (List Nat)}
    (h : scanFraction cs = some (digits, rest)) : rest.length ≤ cs.length := by
  unfold scanFraction at h
  split at h
  · next r =>
    obtain ⟨⟨ds, r'⟩, hs, heq⟩ := Option.map_eq_some_iff.1 h
    simp only [Prod.mk.injEq] at heq
    have := length_lt_of_scanSomeDigits hs
    rw [← heq.2]
    simp only [List.length_cons]
    omega
  · simp only [Option.some.injEq, Prod.mk.injEq] at h
    exact h.2 ▸ Nat.le_refl _

/-- A sign leaves no more than it was given. -/
theorem length_scanSign_le (cs : List Char) : (scanSign cs).2.length ≤ cs.length := by
  unfold scanSign
  split <;> simp

/-- An exponent leaves no more than it was given: just as much where there is no letter for it, and
less where there is one. The sign uses up one character at most, and a digit has to follow it. -/
theorem length_le_of_scanExponent {cs rest : List Char} {exponent : Option (Bool × List Nat)}
    (h : scanExponent cs = some (exponent, rest)) : rest.length ≤ cs.length := by
  unfold scanExponent at h
  split at h
  · simp only [Option.some.injEq, Prod.mk.injEq] at h
    exact h.2 ▸ Nat.le_refl _
  · next c r =>
    split at h
    · obtain ⟨⟨ds, r'⟩, hs, heq⟩ := Option.map_eq_some_iff.1 h
      simp only [Prod.mk.injEq] at heq
      have := length_lt_of_scanSomeDigits hs
      have := length_scanSign_le r
      rw [← heq.2]
      exact Nat.le_of_lt (Nat.lt_of_lt_of_le ‹_› (Nat.le_succ_of_le this))
    · simp only [Option.some.injEq, Prod.mk.injEq] at h
      exact h.2 ▸ Nat.le_refl _

/-- **A number leaves less than it was given**, because at least one of its digits stands before
the point. -/
theorem length_lt_of_scanNumeral {negative : Bool} {cs rest : List Char} {n : Numeral}
    (h : scanNumeral negative cs = some (n, rest)) : rest.length < cs.length := by
  obtain ⟨⟨whole, cs₁⟩, hw, h⟩ := Option.bind_eq_some_iff.1 h
  obtain ⟨⟨fraction, cs₂⟩, hf, h⟩ := Option.bind_eq_some_iff.1 h
  obtain ⟨⟨exponent, cs₃⟩, he, h⟩ := Option.map_eq_some_iff.1 h
  simp only [Prod.mk.injEq] at h
  have := length_lt_of_scanWhole hw
  have := length_le_of_scanFraction hf
  have := length_le_of_scanExponent he
  rw [← h.2]
  omega

/-! ## Tokens of a text -/

/-- A fixed word after its first letter, by which it was recognized. What follows the word is not
looked at. -/
def scanWord (word : List Char) (token : Token) (rest : List Char) : Token × List Char :=
  if word.isPrefixOf rest then (token, rest.drop word.length) else (.invalid, [])

/-- The token of a number, or the failure to find one. After a failure nothing is left to be
read. -/
def numberToken : Option (Numeral × List Char) → Token × List Char
  | some (n, rest) => (.number n.value, rest)
  | none => (.invalid, [])

/-- **The first token** of a text that begins with `c` and goes on with `rest`, and what follows
it. The first character alone tells which kind of token it is. -/
def scanToken (c : Char) (rest : List Char) : Token × List Char :=
  match c with
  | '[' => (.openBracket, rest)
  | ']' => (.closeBracket, rest)
  | '\x7b' => (.openBrace, rest)
  | '\x7d' => (.closeBrace, rest)
  | ',' => (.comma, rest)
  | ':' => (.colon, rest)
  | 'n' => scanWord ['u', 'l', 'l'] .null rest
  | 't' => scanWord ['r', 'u', 'e'] (.bool true) rest
  | 'f' => scanWord ['a', 'l', 's', 'e'] (.bool false) rest
  | '"' =>
    match scanString rest with
    | some (pieces, rest) => (stringToken pieces, rest)
    | none => (.invalid, [])
  | '-' => numberToken (scanNumeral true rest)
  | c => if isDigit c then numberToken (scanNumeral false (c :: rest)) else (.invalid, [])

/-- A fixed word leaves no more than it was given. -/
theorem length_scanWord_le (word : List Char) (token : Token) (rest : List Char) :
    (scanWord word token rest).2.length ≤ rest.length := by
  unfold scanWord
  split <;> simp

/-- The token of a number without a sign leaves less than the text with its first digit. -/
theorem length_numberToken_lt (negative : Bool) (c : Char) (rest : List Char) :
    (numberToken (scanNumeral negative (c :: rest))).2.length < (c :: rest).length := by
  unfold numberToken
  split
  · next h => exact length_lt_of_scanNumeral h
  · exact Nat.zero_lt_succ _

/-- The token of a number leaves no more than what follows its sign. -/
theorem length_numberToken_le (negative : Bool) (rest : List Char) :
    (numberToken (scanNumeral negative rest)).2.length ≤ rest.length := by
  unfold numberToken
  split
  · next h => exact Nat.le_of_lt (length_lt_of_scanNumeral h)
  · exact Nat.zero_le _

/-- **Every token leaves less than it was given**: its first character at least is used up. This is
what the recursion of `lex` goes by.

**Proof sketch.** One case for each first character. Brackets, braces, commas and colons use up
just themselves; words, strings and numbers leave no more than what follows their first
character. -/
theorem length_scanToken_lt (c : Char) (rest : List Char) :
    (scanToken c rest).2.length < (c :: rest).length := by
  have word := fun word token => Nat.lt_succ_of_le (length_scanWord_le word token rest)
  unfold scanToken
  split
  case h_7 | h_8 | h_9 => exact word _ _
  case h_10 =>
    split
    · next h => exact Nat.lt_succ_of_le (length_le_of_scanString h)
    · exact Nat.zero_lt_succ _
  case h_11 => exact Nat.lt_succ_of_le (length_numberToken_le true rest)
  case h_12 =>
    split
    · exact length_numberToken_lt false c rest
    · exact Nat.zero_lt_succ _
  all_goals exact Nat.lt_succ_self _

/-- Blanks between tokens: the blank itself, the tabulator and the two ends of a line. -/
def isBlank (c : Char) : Bool := c = ' ' || c = '\n' || c = '\t' || c = '\r'

/-- **The tokens of a text.** Blanks between tokens are passed over. A failure to find a token is
the last token of the list. -/
def lex : List Char → List Token
  | [] => []
  | c :: rest =>
    if isBlank c then lex rest
    else
      let scanned := scanToken c rest
      scanned.1 :: lex scanned.2
termination_by cs => cs.length
decreasing_by
  · simp
  · exact length_scanToken_lt c rest

end Json

end ChomskyForm
