import Mathlib.Algebra.Group.Nat.Defs
import Mathlib.Data.List.Basic

/-! Text files of the C library: reading character by character, and unsigned decimal conversions.

    A file that is open for reading has a text and a part of it that is still to be read. At the end
    of the text `fgetc` returns EOF and changes nothing, so a loop that reads until some character
    comes (`readUntil`) never ends if that character does not come (`readUntil_eof`).

    `%u` prints an unsigned integer in decimal. Scanning `%u` skips white space, takes an optional
    sign and then digits as long as there are any, so it reads back what was printed if no further
    digit follows (`scanUnsigned_printUnsigned`). -/

namespace Stdio

/-- A file opened for reading. -/
structure File where
  text : List Char
  rest : List Char

/-- `fopen(.., "r")` of a file with this text. -/
def fopen (text : List Char) : File := ⟨text, text⟩

/-- `fgetc`; `none` is EOF. -/
def File.fgetc (fp : File) : Option Char × File :=
  match fp.rest with
  | [] => (none, fp)
  | c :: rest => (some c, { fp with rest := rest })

/-- `rewind`. -/
def File.rewind (fp : File) : File := { fp with rest := fp.text }

/-- `do { c = fgetc(fp); } while (..)` up to the first character with `stop`, for at most `fuel`
    rounds. -/
def readUntil (stop : Char → Bool) : ℕ → File → Option (Char × File)
  | 0, _ => none
  | fuel + 1, fp =>
    match fp.fgetc with
    | (some c, fp') => if stop c then some (c, fp') else readUntil stop fuel fp'
    | (none, fp') => readUntil stop fuel fp'

theorem readUntil_append {stop : Char → Bool} {c : Char} (hstop : stop c = true)
    {l rest : List Char} (hpass : ∀ a ∈ l, stop a = false) (text : List Char) (fuel : ℕ) :
    readUntil stop fuel ⟨text, l ++ c :: rest⟩
      = if l.length < fuel then some (c, ⟨text, rest⟩) else none := by
  induction l generalizing fuel with
  | nil =>
    cases fuel with
    | zero => rfl
    | succ fuel => simp [readUntil, File.fgetc, hstop]
  | cons a l ih =>
    cases fuel with
    | zero => rfl
    | succ fuel =>
      have ha : stop a = false := hpass a (by simp)
      simpa [readUntil, File.fgetc, ha] using ih (fun b hb => hpass b (by simp [hb])) fuel

/-- The loop does not end if the character does not come. -/
theorem readUntil_eof {stop : Char → Bool} {text rest : List Char}
    (hpass : ∀ a ∈ rest, stop a = false) (fuel : ℕ) : readUntil stop fuel ⟨text, rest⟩ = none := by
  induction fuel generalizing rest with
  | zero => rfl
  | succ fuel ih =>
    cases rest with
    | nil => exact ih hpass
    | cons a rest =>
      have ha : stop a = false := hpass a (by simp)
      simp only [readUntil, File.fgetc, ha]
      exact ih fun b hb => hpass b (by simp [hb])

/-- `isspace` in the C locale. -/
def isspace (c : Char) : Bool := c ∈ [' ', '\t', '\n', '\x0b', '\x0c', '\r']

/-- What white space in a format string does. -/
def skipSpace (s : List Char) : List Char := s.dropWhile isspace

/-- The conversion `%u` of `fprintf`. -/
def printUnsigned (x : UInt32) : List Char := Nat.toDigits 10 x.toNat

/-- The conversion `%u` of `fscanf`, as `strtoul` makes it: the number, if there is one, and the
    characters that are left. -/
def scanUnsigned (s : List Char) : Option UInt32 × List Char :=
  let s := skipSpace s
  let negative := s.head? = some '-'
  let s := if negative ∨ s.head? = some '+' then s.tail else s
  let digits := s.takeWhile Char.isDigit
  let value := Nat.ofDigitChars 10 digits 0
  let rest := s.dropWhile Char.isDigit
  if digits = [] then (none, rest)
  else if 2 ^ 64 ≤ value then (some (UInt32.ofNat (2 ^ 64 - 1)), rest)
  else if negative then (some (-UInt32.ofNat value), rest)
  else (some (UInt32.ofNat value), rest)

theorem isDigit_of_mem_printUnsigned {x : UInt32} {c : Char} (hc : c ∈ printUnsigned x) :
    c.isDigit = true := Nat.isDigit_of_mem_toDigits (by decide) (by decide) hc

theorem length_printUnsigned_le (x : UInt32) : (printUnsigned x).length ≤ 10 :=
  (Nat.length_toDigits_le_iff (by decide) (by decide)).mpr
    (Nat.lt_of_lt_of_le x.toNat_lt (by decide))

/-- The text of a number starts with a digit. -/
theorem exists_printUnsigned (x : UInt32) :
    ∃ c digits, printUnsigned x = c :: digits ∧ c.isDigit = true := by
  have hne : Nat.toDigits 10 x.toNat ≠ [] := Nat.toDigits_ne_nil
  obtain ⟨c, digits, hprint⟩ := List.exists_cons_of_ne_nil hne
  exact ⟨c, digits, hprint, isDigit_of_mem_printUnsigned (by rw [printUnsigned, hprint]; simp)⟩

theorem isspace_eq_false_of_isDigit {c : Char} (hc : c.isDigit = true) : isspace c = false := by
  rw [Bool.eq_false_iff, isspace, Ne, decide_eq_true_iff]
  intro hmem
  simp only [List.mem_cons, List.not_mem_nil, or_false] at hmem
  rcases hmem with rfl | rfl | rfl | rfl | rfl | rfl <;> exact absurd hc (by decide)

/-- White space is skipped up to a digit. -/
theorem skipSpace_printUnsigned (x : UInt32) (rest : List Char) :
    skipSpace (printUnsigned x ++ rest) = printUnsigned x ++ rest := by
  obtain ⟨c, digits, hprint, hc⟩ := exists_printUnsigned x
  rw [hprint, List.cons_append, skipSpace,
    List.dropWhile_cons_of_neg (by simp [isspace_eq_false_of_isDigit hc])]

/-- What was printed is read back. -/
theorem scanUnsigned_printUnsigned (x : UInt32) {rest : List Char}
    (hrest : ∀ c ∈ rest.head?, c.isDigit = false) :
    scanUnsigned (printUnsigned x ++ rest) = (some x, rest) := by
  have hdigit : ∀ c ∈ printUnsigned x, c.isDigit = true := fun c hc =>
    isDigit_of_mem_printUnsigned hc
  have hstop : rest.takeWhile Char.isDigit = [] ∧ rest.dropWhile Char.isDigit = rest := by
    cases rest with
    | nil => exact ⟨rfl, rfl⟩
    | cons c rest =>
      have hc : c.isDigit = false := hrest c rfl
      simp [hc]
  have htake : (printUnsigned x ++ rest).takeWhile Char.isDigit = printUnsigned x := by
    rw [List.takeWhile_append_of_pos hdigit, hstop.1, List.append_nil]
  have hdrop : (printUnsigned x ++ rest).dropWhile Char.isDigit = rest := by
    rw [List.dropWhile_append_of_pos hdigit, hstop.2]
  have hvalue : Nat.ofDigitChars 10 (printUnsigned x) 0 = x.toNat := Nat.ofDigitChars_ten_toDigits
  have hsmall : ¬ 2 ^ 64 ≤ x.toNat := by have := x.toNat_lt; omega
  obtain ⟨c, digits, hprint, hc⟩ := exists_printUnsigned x
  -- the first character is no sign
  have hsign : ∀ sign : Char, sign.isDigit = false →
      ¬ (printUnsigned x ++ rest).head? = some sign := by
    intro sign hsign heq
    rw [hprint, List.cons_append, List.head?_cons, Option.some.injEq] at heq
    rw [heq, hsign] at hc; cases hc
  simp only [scanUnsigned, skipSpace_printUnsigned, hsign '-' (by decide), hsign '+' (by decide),
    or_self, if_false, htake, hdrop, hvalue, if_neg hsmall, UInt32.ofNat_toNat]
  rw [if_neg (by rw [hprint]; exact List.cons_ne_nil c digits)]

end Stdio
