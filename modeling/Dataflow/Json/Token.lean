import Dataflow.Json.Basic

/-!
# JSON tokens

`Token.chars` writes a token and `Token.lex` cuts a text into tokens.  Blanks separate tokens and
are otherwise ignored.  The text of a string literal is found in two stages: `Literal.pieces`
follows the grammar, and `Literal.text` joins surrogate pairs.
-/

namespace Dataflow.Json

/-- The lexical units of JSON. -/
inductive Token where
  | leftBracket
  | rightBracket
  | leftBrace
  | rightBrace
  | colon
  | comma
  | null
  | bool (b : Bool)
  | int (n : Int)
  | float
  | str (text : Text)
  deriving DecidableEq, Repr

/-! ### String literals -/

namespace Literal

/-- The hexadecimal digit of a number below sixteen. -/
def hexDigit (n : Nat) : Char := Nat.digitChar n

/-- The value of a hexadecimal digit in either case. -/
def hexValue? (c : Char) : Option Nat :=
  if '0' ≤ c ∧ c ≤ '9' then some (c.toNat - '0'.toNat)
  else if 'a' ≤ c ∧ c ≤ 'f' then some (c.toNat - 'a'.toNat + 10)
  else if 'A' ≤ c ∧ c ≤ 'F' then some (c.toNat - 'A'.toNat + 10)
  else none

/-- A character inside a literal: the quote, the backslash and the control characters are
escaped, and nothing else is. -/
def escape (c : Char) : List Char :=
  match c with
  | '"' => ['\\', '"']
  | '\\' => ['\\', '\\']
  | '\x08' => ['\\', 'b']
  | '\t' => ['\\', 't']
  | '\n' => ['\\', 'n']
  | '\x0c' => ['\\', 'f']
  | '\r' => ['\\', 'r']
  | c =>
    if c.toNat < 0x20 then
      ['\\', 'u', '0', '0', hexDigit (c.toNat / 16), hexDigit (c.toNat % 16)]
    else [c]

/-- The character that a one-letter escape stands for. -/
def unescape? : Char → Option Char
  | '"' => some '"'
  | '\\' => some '\\'
  | '/' => some '/'
  | 'b' => some '\x08'
  | 't' => some '\t'
  | 'n' => some '\n'
  | 'f' => some '\x0c'
  | 'r' => some '\r'
  | _ => none

/-- One item between the quotes: a character, or a code unit given by four hexadecimal digits. -/
inductive Piece where
  | char (c : Char)
  | unit (n : Nat)
  deriving DecidableEq, Repr

/-- The code unit with the given four digits. -/
def unit? (a b c d : Char) : Option Nat := do
  let a ← hexValue? a
  let b ← hexValue? b
  let c ← hexValue? c
  let d ← hexValue? d
  return ((a * 16 + b) * 16 + c) * 16 + d

/-- Read up to the closing quote, and return what follows it. -/
def pieces : List Char → Option (List Piece × List Char)
  | [] => none
  | '"' :: rest => some ([], rest)
  | '\\' :: 'u' :: a :: b :: c :: d :: rest =>
    match unit? a b c d, pieces rest with
    | some n, some (ps, rest') => some (.unit n :: ps, rest')
    | _, _ => none
  | '\\' :: e :: rest =>
    match unescape? e, pieces rest with
    | some c, some (ps, rest') => some (.char c :: ps, rest')
    | _, _ => none
  | c :: rest =>
    if c = '\\' ∨ c.toNat < 0x20 then none
    else match pieces rest with
      | some (ps, rest') => some (.char c :: ps, rest')
      | none => none

/-- The first half of a surrogate pair. -/
def isHigh (n : Nat) : Bool := 0xD800 ≤ n && n < 0xDC00

/-- The second half of a surrogate pair. -/
def isLow (n : Nat) : Bool := 0xDC00 ≤ n && n < 0xE000

/-- The characters of a literal.  A high and a low surrogate in a row are one character; a
surrogate on its own is none. -/
def text : List Piece → Option (List Char)
  | [] => some []
  | .char c :: ps => (text ps).map (c :: ·)
  | .unit hi :: .unit lo :: ps =>
    if isHigh hi then
      if isLow lo then
        (text ps).map (Char.ofNat (0x10000 + (hi - 0xD800) * 0x400 + (lo - 0xDC00)) :: ·)
      else none
    else if isLow hi then none
    else (text (.unit lo :: ps)).map (Char.ofNat hi :: ·)
  | .unit n :: ps =>
    if isHigh n || isLow n then none else (text ps).map (Char.ofNat n :: ·)

/-- Read a literal after its opening quote. -/
def read (cs : List Char) : Option (Text × List Char) :=
  (pieces cs).map fun (ps, rest) => ((text ps).map String.ofList, rest)

/-- The characters of a literal with its quotes.  No text at all is written as half a surrogate
pair. -/
def chars : Text → List Char
  | some s => '"' :: (s.toList.flatMap escape ++ ['"'])
  | none => ['"', '\\', 'u', 'd', '8', '0', '0', '"']

/-- Reading a literal uses up at least its closing quote. -/
theorem length_pieces_lt {cs : List Char} {ps : List Piece} {rest : List Char}
    (h : pieces cs = some (ps, rest)) : rest.length < cs.length := by
  fun_induction pieces cs generalizing ps rest with
  | case1 => cases h
  | case2 => cases h; simp
  | case3 _ _ _ _ _ _ _ _ hp _ ih => cases h; have := ih hp; simp only [List.length_cons]; omega
  | case5 _ _ _ _ _ _ hp _ ih => cases h; have := ih hp; simp only [List.length_cons]; omega
  | case8 _ _ _ _ _ _ _ _ hp ih => cases h; have := ih hp; simp only [List.length_cons]; omega
  | _ => cases h

theorem length_read_lt {cs : List Char} {t : Text} {rest : List Char}
    (h : read cs = some (t, rest)) : rest.length < cs.length := by
  simp only [read, Option.map_eq_some_iff] at h
  obtain ⟨⟨ps, rest'⟩, hp, heq⟩ := h
  cases heq
  exact length_pieces_lt hp

end Literal

/-! ### Numbers -/

namespace Number

/-- The digits at the front of a text; there must be one. -/
def digits? (cs : List Char) : Option (List Char × List Char) :=
  match cs.takeWhile Char.isDigit with
  | [] => none
  | ds => some (ds, cs.dropWhile Char.isDigit)

/-- The digits of a whole number: no zero stands before another digit. -/
def whole? (cs : List Char) : Option (Nat × List Char) :=
  match digits? cs with
  | some ('0' :: _ :: _, _) => none
  | some (ds, rest) => some (Nat.ofDigitChars 10 ds 0, rest)
  | none => none

/-- Pass over the exponent after its mark. -/
def exponent? (cs : List Char) : Option (List Char) :=
  let unsigned := match cs with
    | '+' :: rest | '-' :: rest => rest
    | cs => cs
  (digits? unsigned).map (·.2)

/-- Pass over a fraction and an exponent.  The flag tells whether there was one of them. -/
def tail? : List Char → Option (Bool × List Char)
  | '.' :: rest =>
    match digits? rest with
    | none => none
    | some (_, 'e' :: rest) | some (_, 'E' :: rest) => (exponent? rest).map (true, ·)
    | some (_, rest) => some (true, rest)
  | 'e' :: rest | 'E' :: rest => (exponent? rest).map (true, ·)
  | rest => some (false, rest)

/-- Read a number. -/
def read (cs : List Char) : Option (Token × List Char) :=
  let (negative, unsigned) := match cs with
    | '-' :: rest => (true, rest)
    | cs => (false, cs)
  match whole? unsigned with
  | none => none
  | some (n, rest) =>
    match tail? rest with
    | none => none
    | some (true, rest) => some (.float, rest)
    | some (false, rest) =>
      if negative then
        if n = 0 then some (.float, rest) else some (.int (-(n : Int)), rest)
      else some (.int n, rest)

/-- The digits of an integer. -/
def chars : Int → List Char
  | .ofNat n => Nat.toDigits 10 n
  | .negSucc n => '-' :: Nat.toDigits 10 (n + 1)

theorem length_digits_lt {cs ds rest : List Char} (h : digits? cs = some (ds, rest)) :
    rest.length < cs.length := by
  have key := congrArg List.length (List.takeWhile_append_dropWhile (p := Char.isDigit) (l := cs))
  rw [List.length_append] at key
  rw [digits?] at h
  rcases hd : cs.takeWhile Char.isDigit with _ | ⟨d, tail⟩
  · simp [hd] at h
  · simp only [hd, Option.some.injEq, Prod.mk.injEq] at h
    rw [hd, List.length_cons] at key
    rw [← h.2]
    omega

theorem length_whole_lt {cs : List Char} {n : Nat} {rest : List Char}
    (h : whole? cs = some (n, rest)) : rest.length < cs.length := by
  simp only [whole?] at h
  split at h
  · cases h
  · rename_i hd
    cases h
    exact length_digits_lt hd
  · cases h

theorem length_exponent_lt {cs rest : List Char} (h : exponent? cs = some rest) :
    rest.length < cs.length := by
  simp only [exponent?, Option.map_eq_some_iff] at h
  obtain ⟨⟨ds, rest'⟩, hd, rfl⟩ := h
  have := length_digits_lt hd
  split at this
  all_goals simp only [List.length_cons] at *; omega

theorem length_tail_le {cs : List Char} {b : Bool} {rest : List Char}
    (h : tail? cs = some (b, rest)) : rest.length ≤ cs.length := by
  unfold tail? at h
  split at h
  · split at h
    · cases h
    · rename_i hd
      simp only [Option.map_eq_some_iff, Prod.mk.injEq] at h
      obtain ⟨_, he, _, rfl⟩ := h
      have := length_digits_lt hd
      have := length_exponent_lt he
      simp only [List.length_cons] at *
      omega
    · rename_i hd
      simp only [Option.map_eq_some_iff, Prod.mk.injEq] at h
      obtain ⟨_, he, _, rfl⟩ := h
      have := length_digits_lt hd
      have := length_exponent_lt he
      simp only [List.length_cons] at *
      omega
    · rename_i hd
      cases h
      have := length_digits_lt hd
      simp only [List.length_cons]
      omega
  · simp only [Option.map_eq_some_iff, Prod.mk.injEq] at h
    obtain ⟨_, he, _, rfl⟩ := h
    have := length_exponent_lt he
    simp only [List.length_cons]
    omega
  · simp only [Option.map_eq_some_iff, Prod.mk.injEq] at h
    obtain ⟨_, he, _, rfl⟩ := h
    have := length_exponent_lt he
    simp only [List.length_cons]
    omega
  · cases h
    omega

/-- Reading a number uses up at least a digit. -/
theorem length_read_lt {cs : List Char} {t : Token} {rest : List Char}
    (h : read cs = some (t, rest)) : rest.length < cs.length := by
  simp only [read] at h
  split at h
  · cases h
  · rename_i n after hw
    have hlt := length_whole_lt hw
    have hle : (match cs with | '-' :: rest => (true, rest) | cs => (false, cs)).2.length
        ≤ cs.length := by
      split <;> simp
    split at h
    · cases h
    · rename_i ht
      cases h
      have := length_tail_le ht
      omega
    · rename_i ht
      have := length_tail_le ht
      repeat' split at h
      all_goals cases h; omega

end Number

/-! ### Cutting a text into tokens -/

namespace Token

/-- The characters of a token. -/
def chars : Token → List Char
  | leftBracket => ['[']
  | rightBracket => [']']
  | leftBrace => ['\x7b']
  | rightBrace => ['\x7d']
  | colon => [':']
  | comma => [',']
  | null => ['n', 'u', 'l', 'l']
  | bool true => ['t', 'r', 'u', 'e']
  | bool false => ['f', 'a', 'l', 's', 'e']
  | int n => Number.chars n
  | float => ['0', '.', '0']
  | str text => Literal.chars text

/-- Read one token at the front of a text. -/
def scan : List Char → Option (Token × List Char)
  | '[' :: rest => some (leftBracket, rest)
  | ']' :: rest => some (rightBracket, rest)
  | '\x7b' :: rest => some (leftBrace, rest)
  | '\x7d' :: rest => some (rightBrace, rest)
  | ':' :: rest => some (colon, rest)
  | ',' :: rest => some (comma, rest)
  | 'n' :: 'u' :: 'l' :: 'l' :: rest => some (null, rest)
  | 't' :: 'r' :: 'u' :: 'e' :: rest => some (bool true, rest)
  | 'f' :: 'a' :: 'l' :: 's' :: 'e' :: rest => some (bool false, rest)
  | '"' :: rest => (Literal.read rest).map fun (text, rest) => (str text, rest)
  | cs => Number.read cs

/-- A token has at least one character. -/
theorem length_scan_lt {cs : List Char} {t : Token} {rest : List Char}
    (h : scan cs = some (t, rest)) : rest.length < cs.length := by
  unfold scan at h
  split at h
  case h_10 =>
    simp only [Option.map_eq_some_iff, Prod.mk.injEq] at h
    obtain ⟨⟨text, rest'⟩, hl, _, rfl⟩ := h
    have := Literal.length_read_lt hl
    simp only [List.length_cons]
    omega
  case h_11 => exact Number.length_read_lt h
  all_goals cases h; simp only [List.length_cons]; omega

/-- The characters that may stand between tokens. -/
def isBlank (c : Char) : Bool := c == ' ' || c == '\t' || c == '\n' || c == '\r'

/-- The tokens of a text. -/
def lex (cs : List Char) : Option (List Token) :=
  match hb : cs.dropWhile isBlank with
  | [] => some []
  | c :: rest =>
    match ht : scan (c :: rest) with
    | none => none
    | some (t, after) =>
      have : after.length < cs.length :=
        Nat.lt_of_lt_of_le (length_scan_lt ht)
          (hb ▸ (List.dropWhile_sublist isBlank (l := cs)).length_le)
      (lex after).map (t :: ·)
termination_by cs.length

end Token

end Dataflow.Json
