import Dataflow.Json.Token

/-!
# Tokens read back

Every token is read back from its characters, whatever text follows (`Token.scan_chars`).  Only a
number cares about what follows: more digits, a fraction or an exponent would belong to it.
`Boundary` says that none of them comes next.

`Token.Lexes ts` lifts this to a list of tokens written without blanks: put in front of a text,
they are cut off one by one and the rest of the text is cut as it would be alone.  It is closed
under the ways in which a tree is written: a token that is no number may stand in front of
anything, and two lists may stand side by side if the second does not begin with a number.
-/

namespace Dataflow.Json

/-! ### String literals -/

namespace Literal

/-- The piece stands for the single character `c`. -/
inductive Piece.Denotes : Piece → Char → Prop
  | char (c : Char) : Denotes (.char c) c
  | unit {n : Nat} (h : n < 0xD800) : Denotes (.unit n) (Char.ofNat n)

theorem text_unit_cons {n : Nat} (h : n < 0xD800) (ps : List Piece) :
    text (.unit n :: ps) = (text ps).map (Char.ofNat n :: ·) := by
  have hhigh : isHigh n = false := by simp [isHigh]; omega
  have hlow : isLow n = false := by simp [isLow]; omega
  rcases ps with _ | ⟨_ | lo, ps⟩ <;> simp [text, hhigh, hlow]

theorem Piece.Denotes.text_cons {p : Piece} {c : Char} (h : p.Denotes c) (ps : List Piece) :
    text (p :: ps) = (text ps).map (c :: ·) := by
  cases h with
  | char => rfl
  | unit h => exact text_unit_cons h ps

theorem hexValue?_hexDigit {n : Nat} (h : n < 16) : hexValue? (hexDigit n) = some n := by
  have all : ∀ n : Fin 16, hexValue? (hexDigit n) = some n.val := by decide
  exact all ⟨n, h⟩

/-- The two digits of a control character, with the zeros in front, give its number. -/
theorem unit?_hexDigit {n : Nat} (h : n < 256) :
    unit? '0' '0' (hexDigit (n / 16)) (hexDigit (n % 16)) = some n := by
  have hzero : hexValue? '0' = some 0 := by decide
  have hhi := hexValue?_hexDigit (show n / 16 < 16 by omega)
  have hlo := hexValue?_hexDigit (show n % 16 < 16 by omega)
  simp only [unit?, hzero, hhi, hlo, Option.bind_eq_bind, Option.bind_some, Option.pure_def]
  congr 1
  omega

theorem pieces_unit {a b c d : Char} {n : Nat} (h : unit? a b c d = some n) (rest : List Char) :
    pieces ('\\' :: 'u' :: a :: b :: c :: d :: rest) =
      (pieces rest).map fun r => (.unit n :: r.1, r.2) := by
  rw [pieces, h]
  cases pieces rest <;> rfl

theorem pieces_letter {e c : Char} (he : e ≠ 'u') (h : unescape? e = some c) (rest : List Char) :
    pieces ('\\' :: e :: rest) = (pieces rest).map fun r => (.char c :: r.1, r.2) := by
  rw [pieces]
  · rw [h]
    cases pieces rest <;> rfl
  · rintro _ _ _ _ _ hu
    exact absurd hu he

theorem pieces_plain {c : Char} (hquote : c ≠ '"') (hslash : c ≠ '\\') (hc : ¬ c.toNat < 0x20)
    (rest : List Char) :
    pieces (c :: rest) = (pieces rest).map fun r => (.char c :: r.1, r.2) := by
  rw [pieces]
  · rw [if_neg (by simp [hslash, hc])]
    cases pieces rest <;> rfl
  all_goals simp_all

/-- An escaped character is read as one piece that stands for it. -/
theorem pieces_escape (c : Char) (rest : List Char) :
    ∃ p : Piece, p.Denotes c ∧
      pieces (escape c ++ rest) = (pieces rest).map fun r => (p :: r.1, r.2) := by
  unfold escape
  split
  case h_8 hquote hslash _ _ _ _ _ =>
    by_cases hc : c.toNat < 0x20
    · have hdenotes : (Piece.unit c.toNat).Denotes c := by
        simpa using Piece.Denotes.unit (n := c.toNat) (by omega)
      rw [if_pos hc]
      exact ⟨_, hdenotes, pieces_unit (unit?_hexDigit (by omega)) rest⟩
    · rw [if_neg hc]
      exact ⟨_, .char c, pieces_plain hquote hslash hc rest⟩
  -- The characters with an escape of their own.
  all_goals exact ⟨_, .char _, pieces_letter (by decide) rfl rest⟩

/-- Escaped characters are read back up to the closing quote. -/
theorem exists_pieces_flatMap_escape (cs rest : List Char) :
    ∃ ps, pieces (cs.flatMap escape ++ '"' :: rest) = some (ps, rest) ∧ text ps = some cs := by
  induction cs with
  | nil => exact ⟨[], rfl, rfl⟩
  | cons c cs ih =>
    obtain ⟨ps, hps, htext⟩ := ih
    obtain ⟨p, hp, hpieces⟩ := pieces_escape c (cs.flatMap escape ++ '"' :: rest)
    refine ⟨p :: ps, ?_, ?_⟩
    · rw [List.flatMap_cons, List.append_assoc, hpieces, hps, Option.map_some]
    · rw [hp.text_cons, htext, Option.map_some]

/-- A literal is read back after its opening quote. -/
theorem exists_chars_eq_cons (t : Text) :
    ∃ body, chars t = '"' :: body ∧ ∀ rest, read (body ++ rest) = some (t, rest) := by
  cases t with
  | none => exact ⟨_, rfl, fun rest => rfl⟩
  | some s =>
    refine ⟨_, rfl, fun rest => ?_⟩
    obtain ⟨ps, hps, htext⟩ := exists_pieces_flatMap_escape s.toList rest
    rw [List.append_assoc, List.singleton_append, read, hps]
    simp [htext]

end Literal

/-! ### Numbers -/

/-- What follows does not carry on a number: no digit, no fraction and no exponent. -/
def Boundary (rest : List Char) : Prop :=
  ∀ c ∈ rest.head?, ¬ c.isDigit ∧ c ≠ '.' ∧ c ≠ 'e' ∧ c ≠ 'E'

namespace Number

theorem digits?_append {ds rest : List Char} (hne : ds ≠ []) (hds : ∀ d ∈ ds, d.isDigit)
    (hrest : ∀ c ∈ rest.head?, ¬ c.isDigit) : digits? (ds ++ rest) = some (ds, rest) := by
  have hstop : rest.takeWhile Char.isDigit = [] ∧ rest.dropWhile Char.isDigit = rest := by
    cases rest with
    | nil => exact ⟨rfl, rfl⟩
    | cons c rest =>
      have hc : ¬ c.isDigit := hrest c rfl
      exact ⟨List.takeWhile_cons_of_neg hc, List.dropWhile_cons_of_neg hc⟩
  obtain ⟨d, ds, rfl⟩ := List.exists_cons_of_ne_nil hne
  have htake : (d :: ds ++ rest).takeWhile Char.isDigit = d :: ds := by
    rw [List.takeWhile_append_of_pos hds, hstop.1, List.append_nil]
  have hdrop : (d :: ds ++ rest).dropWhile Char.isDigit = rest := by
    rw [List.dropWhile_append_of_pos hds, hstop.2]
  simp only [digits?, htake, hdrop]

/-- A number above zero has no zero in front. -/
theorem head?_toDigits_ne {n : Nat} (h : 0 < n) : (Nat.toDigits 10 n).head? ≠ some '0' := by
  induction n using Nat.strongRecOn with
  | _ n ih =>
    rw [Nat.toDigits_eq_if (by omega)]
    by_cases hn : n < 10
    · have all : ∀ n : Fin 10, 0 < n.val → Nat.digitChar n ≠ '0' := by decide
      rw [if_pos hn]
      simpa using all ⟨n, hn⟩ h
    · have hdiv := ih (n / 10) (by omega) (by omega)
      rw [if_neg hn]
      rcases hds : Nat.toDigits 10 (n / 10) with _ | ⟨d, ds⟩
      · exact absurd hds Nat.toDigits_ne_nil
      · rw [hds] at hdiv
        simpa using hdiv

theorem whole?_toDigits (n : Nat) {rest : List Char} (h : ∀ c ∈ rest.head?, ¬ c.isDigit) :
    whole? (Nat.toDigits 10 n ++ rest) = some (n, rest) := by
  have hdigits : digits? (Nat.toDigits 10 n ++ rest) = some (Nat.toDigits 10 n, rest) :=
    digits?_append Nat.toDigits_ne_nil
      (fun d hd => Nat.isDigit_of_mem_toDigits (by omega) (by omega) hd) h
  rw [whole?, hdigits]
  split
  · -- A zero in front of another digit is refused, and is never written.
    rename_i d ds _ heq
    rcases Nat.eq_zero_or_pos n with rfl | hn
    · simp [Nat.toDigits_zero] at heq
    · exact absurd (by simp_all) (head?_toDigits_ne hn)
  · rename_i heq
    cases heq
    rw [Nat.ofDigitChars_ten_toDigits]
  · rename_i heq
    cases heq

theorem tail?_of_boundary {rest : List Char} (h : Boundary rest) :
    tail? rest = some (false, rest) := by
  cases rest with
  | nil => rfl
  | cons c rest =>
    obtain ⟨-, hdot, he, hE⟩ := h c rfl
    unfold tail?
    split <;> simp_all

theorem tail?_fraction {rest : List Char} (h : Boundary rest) :
    tail? ('.' :: '0' :: rest) = some (true, rest) := by
  have hdigits : digits? (['0'] ++ rest) = some (['0'], rest) :=
    digits?_append (by simp) (by simp) fun c hc => (h c hc).1
  rw [List.singleton_append] at hdigits
  cases rest with
  | nil => rfl
  | cons c rest =>
    obtain ⟨-, -, he, hE⟩ := h c rfl
    simp [tail?, hdigits, he, hE]

theorem exists_toDigits_eq_cons (n : Nat) : ∃ d ds, Nat.toDigits 10 n = d :: ds ∧ d.isDigit := by
  obtain ⟨d, ds, hds⟩ := List.exists_cons_of_ne_nil (Nat.toDigits_ne_nil (n := n) (b := 10))
  exact ⟨d, ds, hds, Nat.isDigit_of_mem_toDigits (b := 10) (n := n) (by omega) (by omega)
    (hds ▸ List.mem_cons_self)⟩

/-- An integer is read back up to a boundary. -/
theorem read_chars (n : Int) {rest : List Char} (h : Boundary rest) :
    read (chars n ++ rest) = some (.int n, rest) := by
  have hdigit : ∀ c ∈ rest.head?, ¬ c.isDigit := fun c hc => (h c hc).1
  cases n with
  | ofNat n =>
    obtain ⟨d, ds, hds, hd⟩ := exists_toDigits_eq_cons n
    have hwhole := whole?_toDigits n hdigit
    have hminus : d ≠ '-' := by rintro rfl; simp at hd
    rw [chars]
    rw [hds, List.cons_append] at hwhole ⊢
    simp [read, hminus, hwhole, tail?_of_boundary h]
  | negSucc n =>
    have hwhole := whole?_toDigits (n + 1) hdigit
    simp [read, chars, hwhole, tail?_of_boundary h, Int.negSucc_eq]

/-- A number with a fraction is read as one. -/
theorem read_float {rest : List Char} (h : Boundary rest) :
    read ('0' :: '.' :: '0' :: rest) = some (.float, rest) := by
  have hwhole : whole? (Nat.toDigits 10 0 ++ '.' :: '0' :: rest) = some (0, '.' :: '0' :: rest) :=
    whole?_toDigits 0 (by simp)
  rw [Nat.toDigits_zero, List.singleton_append] at hwhole
  simp [read, hwhole, tail?_fraction h]

end Number

/-! ### Tokens -/

namespace Token

/-- The tokens that what follows could carry on. -/
def isNumber : Token → Bool
  | int _ | float => true
  | _ => false

theorem scan_of_digit {c : Char} (hc : c.isDigit ∨ c = '-') (rest : List Char) :
    scan (c :: rest) = Number.read (c :: rest) := by
  unfold scan
  split <;> simp_all

theorem exists_number_eq_cons (n : Int) :
    ∃ c cs, Number.chars n = c :: cs ∧ (c.isDigit ∨ c = '-') := by
  cases n with
  | ofNat n =>
    obtain ⟨d, ds, hds, hd⟩ := Number.exists_toDigits_eq_cons n
    exact ⟨d, ds, hds, .inl hd⟩
  | negSucc n => exact ⟨_, _, rfl, .inr rfl⟩

/-- A token is read back from its characters; only after a number does it matter what follows. -/
theorem scan_chars (t : Token) {rest : List Char} (h : t.isNumber → Boundary rest) :
    scan (t.chars ++ rest) = some (t, rest) := by
  cases t with
  | int n =>
    obtain ⟨c, cs, hcs, hc⟩ := exists_number_eq_cons n
    have hread := Number.read_chars n (h rfl)
    rw [chars]
    rw [hcs, List.cons_append] at hread ⊢
    rw [scan_of_digit hc, hread]
  | float =>
    change scan ('0' :: '.' :: '0' :: rest) = _
    rw [scan_of_digit (.inl rfl), Number.read_float (h rfl)]
  | str text =>
    obtain ⟨body, hbody, hread⟩ := Literal.exists_chars_eq_cons text
    rw [chars, hbody]
    simp [scan, hread]
  | bool b => cases b <;> rfl
  | _ => rfl

theorem isBlank_of_digit {c : Char} (hc : c.isDigit ∨ c = '-') : isBlank c = false := by
  rw [Bool.eq_false_iff]
  intro hblank
  simp only [isBlank, Bool.or_eq_true, beq_iff_eq] at hblank
  rcases hblank with ((rfl | rfl) | rfl) | rfl <;> simp at hc

theorem exists_chars_eq_cons (t : Token) : ∃ c cs, t.chars = c :: cs ∧ isBlank c = false := by
  cases t with
  | int n =>
    obtain ⟨c, cs, hcs, hc⟩ := exists_number_eq_cons n
    exact ⟨c, cs, hcs, isBlank_of_digit hc⟩
  | str text =>
    obtain ⟨body, hbody, -⟩ := Literal.exists_chars_eq_cons text
    exact ⟨_, body, hbody, rfl⟩
  | bool b => cases b <;> exact ⟨_, _, rfl, rfl⟩
  | _ => exact ⟨_, _, rfl, rfl⟩

theorem lex_nil : lex [] = some [] := by
  rw [lex]
  rfl

theorem lex_chars_append (t : Token) {rest : List Char} (h : t.isNumber → Boundary rest) :
    lex (t.chars ++ rest) = (lex rest).map (t :: ·) := by
  obtain ⟨c, cs, hcs, hblank⟩ := exists_chars_eq_cons t
  have hscan := scan_chars t h
  rw [hcs, List.cons_append] at hscan ⊢
  have hdrop : (c :: (cs ++ rest)).dropWhile isBlank = c :: (cs ++ rest) :=
    List.dropWhile_cons_of_neg (by simp [hblank])
  rw [lex]
  split
  · rename_i hnil
    simp [hdrop] at hnil
  · rename_i heq
    rw [hdrop] at heq
    cases heq
    split
    · rename_i hnone
      simp [hscan] at hnone
    · rename_i hsome
      rw [hscan] at hsome
      cases hsome
      rfl

/-- In front of a text that does not carry on a number, the tokens are cut off one by one. -/
def Lexes (ts : List Token) : Prop :=
  ∀ rest, Boundary rest → lex (ts.flatMap chars ++ rest) = (lex rest).map (ts ++ ·)

theorem boundary_chars_append {t : Token} (h : t.isNumber = false) (rest : List Char) :
    Boundary (t.chars ++ rest) := by
  cases t with
  | int | float => cases h
  | str text =>
    obtain ⟨body, hbody, -⟩ := Literal.exists_chars_eq_cons text
    simp [Boundary, chars, hbody]
  | bool b => cases b <;> simp [Boundary, chars]
  | _ => simp [Boundary, chars]

namespace Lexes

theorem nil : Lexes [] := by
  intro rest _
  simp

theorem singleton (t : Token) : Lexes [t] := by
  intro rest h
  simpa using lex_chars_append t fun _ => h

/-- A token that is no number may stand in front of anything. -/
theorem cons {t : Token} {ts : List Token} (ht : t.isNumber = false) (hts : Lexes ts) :
    Lexes (t :: ts) := by
  intro rest h
  rw [List.flatMap_cons, List.append_assoc, lex_chars_append t (by simp [ht]), hts rest h]
  simp [Function.comp_def]

/-- Two lists may stand side by side if the second does not begin with a number. -/
theorem append {ts us : List Token} (hts : Lexes ts) (hus : Lexes us)
    (hhead : ∀ u ∈ us.head?, u.isNumber = false) : Lexes (ts ++ us) := by
  intro rest h
  have hboundary : Boundary (us.flatMap chars ++ rest) := by
    cases us with
    | nil => exact h
    | cons u us =>
      rw [List.flatMap_cons, List.append_assoc]
      exact boundary_chars_append (hhead u rfl) _
  rw [List.flatMap_append, List.append_assoc, hts _ hboundary, hus rest h]
  simp [Function.comp_def]

end Lexes

end Token

end Dataflow.Json
