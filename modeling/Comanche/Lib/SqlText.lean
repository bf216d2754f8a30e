import Mathlib.Data.List.TakeWhile

/-!
# The text of SQL statements

Literals as they stand in a statement: a string between quotes, in which a quote is written twice, and a
number in decimal digits.
-/

namespace Comanche.Lib.SqlText

def quote : Char := Char.ofNat 39

inductive Literal where
  | text (chars : List Char)
  | number (n : Nat)

def scanString : List Char → Option (List Char × List Char)
  | [] => none
  | c :: cs =>
    if c = quote then
      match cs with
      | [] => some ([], [])
      | d :: ds =>
        if d = quote then (scanString ds).map fun (s, rest) => (quote :: s, rest) else some ([], d :: ds)
    else (scanString cs).map fun (s, rest) => (c :: s, rest)

def skipSpaces (cs : List Char) : List Char := cs.dropWhile (· = ' ')

def digits (n : Nat) : List Char := Nat.toDigits 10 n

def scanNumber (cs : List Char) : Option (Nat × List Char) :=
  let ds := cs.takeWhile Char.isDigit
  if ds = [] then none else some (Nat.ofDigitChars 10 ds 0, cs.dropWhile Char.isDigit)

def scanLiteral (cs : List Char) : Option (Literal × List Char) :=
  match skipSpaces cs with
  | [] => none
  | c :: cs =>
    if c = quote then (scanString cs).map fun (s, rest) => (.text s, rest)
    else (scanNumber (c :: cs)).map fun (n, rest) => (.number n, rest)

def scanRow : Nat → List Char → Option (List Literal × List Char)
  | 0, _ => none
  | left + 1, cs =>
    match scanLiteral cs with
    | none => none
    | some (l, cs) =>
      match skipSpaces cs with
      | ',' :: cs => (scanRow left cs).map fun (ls, rest) => (l :: ls, rest)
      | ')' :: cs => some ([l], cs)
      | _ => none

/-- The rows of `VALUES`, with the number of rows that are left. -/
def scanRows : Nat → List Char → Option (List (List Literal))
  | 0, _ => none
  | left + 1, cs =>
    match skipSpaces cs with
    | '(' :: cs =>
      match scanRow cs.length cs with
      | none => none
      | some (row, cs) =>
        match skipSpaces cs with
        | [] | [';'] => some [row]
        | ',' :: cs => (scanRows left cs).map (row :: ·)
        | _ => none
    | _ => none

def escape (s : List Char) : List Char := s.flatMap fun c => if c = quote then [quote, quote] else [c]

def after : List Char → List Char → Option (List Char)
  | [], cs => some cs
  | _ :: _, [] => none
  | w :: ws, c :: cs => if w = c then after ws cs else none

section Scan

variable {s rest cs : List Char} {n : Nat}

theorem escape_cons (c : Char) : escape (c :: s) = (if c = quote then [quote, quote] else [c]) ++ escape s := rfl

theorem scanString_escape (hrest : rest.head? ≠ some quote) :
    scanString (escape s ++ quote :: rest) = some (s, rest) := by
  induction s with
  | nil =>
    change scanString (quote :: rest) = _
    unfold scanString
    rw [if_pos rfl]
    cases rest with
    | nil => rfl
    | cons d ds => exact if_neg fun hd => hrest (congrArg some hd)
  | cons c s ih =>
    rw [escape_cons]
    split
    · next hc =>
      subst hc
      change scanString (quote :: quote :: (escape s ++ quote :: rest)) = _
      unfold scanString
      rw [if_pos rfl]
      dsimp only
      rw [if_pos rfl, ih]
      rfl
    · next hc =>
      change scanString (c :: (escape s ++ quote :: rest)) = _
      unfold scanString
      rw [if_neg hc, ih]
      rfl

theorem skipSpaces_cons {c : Char} (h : c ≠ ' ') : skipSpaces (c :: cs) = c :: cs := by
  simp [skipSpaces, h]

theorem skipSpaces_space : skipSpaces (' ' :: cs) = skipSpaces cs := by
  simp [skipSpaces]

theorem scanNumber_append (hrest : ∀ c ∈ rest.head?, c.isDigit = false) :
    scanNumber (digits n ++ rest) = some (n, rest) := by
  have hdigits : ∀ c ∈ digits n, c.isDigit = true := fun c hc =>
    Nat.isDigit_of_mem_toDigits (by decide) (by decide) hc
  have hstop : rest.takeWhile Char.isDigit = [] ∧ rest.dropWhile Char.isDigit = rest := by
    cases rest with
    | nil => exact ⟨rfl, rfl⟩
    | cons c cs =>
      have hc := hrest c rfl
      simp [hc]
  unfold scanNumber
  rw [List.takeWhile_append_of_pos hdigits, List.dropWhile_append_of_pos hdigits, hstop.1, hstop.2, List.append_nil]
  unfold digits
  dsimp only
  rw [if_neg Nat.toDigits_ne_nil, Nat.ofDigitChars_ten_toDigits]

theorem scanLiteral_text (hrest : rest.head? ≠ some quote) :
    scanLiteral (quote :: (escape s ++ quote :: rest)) = some (.text s, rest) := by
  unfold scanLiteral
  rw [skipSpaces_cons (by decide)]
  dsimp only
  rw [if_pos rfl, scanString_escape hrest]
  rfl

theorem scanLiteral_number (hrest : ∀ c ∈ rest.head?, c.isDigit = false) :
    scanLiteral (digits n ++ rest) = some (.number n, rest) := by
  obtain ⟨c, ds, hds⟩ := List.exists_cons_of_ne_nil (Nat.toDigits_ne_nil (n := n) (b := 10))
  have hc : c.isDigit = true :=
    Nat.isDigit_of_mem_toDigits (b := 10) (n := n) (by decide) (by decide) (hds ▸ List.mem_cons_self)
  have hspace : c ≠ ' ' := fun h => by
    rw [h] at hc
    cases hc
  have hquote : c ≠ quote := fun h => by
    rw [h] at hc
    cases hc
  have hscan := scanNumber_append (n := n) hrest
  unfold digits at hscan ⊢
  rw [hds, List.cons_append] at hscan ⊢
  unfold scanLiteral
  rw [skipSpaces_cons hspace]
  dsimp only
  rw [if_neg hquote, hscan]
  rfl

theorem scanLiteral_space : scanLiteral (' ' :: cs) = scanLiteral cs := by
  unfold scanLiteral
  rw [skipSpaces_space]

theorem scanRow_comma {l : Literal} {left : Nat} (h : scanLiteral cs = some (l, ',' :: rest)) :
    scanRow (left + 1) cs = (scanRow left rest).map fun (ls, rest) => (l :: ls, rest) := by
  have hcomma : skipSpaces (',' :: rest) = ',' :: rest := skipSpaces_cons (by decide)
  simp only [scanRow, h, hcomma]

theorem scanRow_bracket {l : Literal} {left : Nat} (h : scanLiteral cs = some (l, ')' :: rest)) :
    scanRow (left + 1) cs = some ([l], rest) := by
  have hbracket : skipSpaces (')' :: rest) = ')' :: rest := skipSpaces_cons (by decide)
  simp only [scanRow, h, hbracket]

theorem after_append (word cs : List Char) : after word (word ++ cs) = some cs := by
  induction word with
  | nil => rfl
  | cons w ws ih => exact (if_pos rfl).trans ih

end Scan

end Comanche.Lib.SqlText
