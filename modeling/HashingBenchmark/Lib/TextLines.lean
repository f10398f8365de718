import Mathlib.Data.List.DropRight
import Mathlib.Data.List.Infix

/-! Texts as lists of characters: the whitespace at their ends, and their lines.

    `readlines` cuts a text after every newline, so a text that ends with one is cut by itself
    (`readlines_append`). Whether a stripped text starts with a given one is decided by its first
    character that is not whitespace, or by the given text being there. -/

namespace TextLines

/-- `str.isspace` of one character. -/
def isSpace (c : Char) : Bool :=
  (9 ≤ c.toNat && c.toNat ≤ 13) || (0x1c ≤ c.toNat && c.toNat ≤ 0x20) ||
    (0x2000 ≤ c.toNat && c.toNat ≤ 0x200a) ||
    [0x85, 0xa0, 0x1680, 0x2028, 0x2029, 0x202f, 0x205f, 0x3000].contains c.toNat

/-- `lstrip`. -/
def lstrip (s : List Char) : List Char := s.dropWhile isSpace

/-- `strip`. -/
def strip (s : List Char) : List Char := (lstrip s).rdropWhile isSpace

/-- `readlines`. -/
def readlines : List Char → List (List Char)
  | [] => []
  | c :: s =>
    if c = '\n' then [c] :: readlines s
    else match readlines s with
      | [] => [[c]]
      | line :: lines => (c :: line) :: lines

theorem readlines_cons_newline (s : List Char) : readlines ('\n' :: s) = ['\n'] :: readlines s := by
  rw [readlines, if_pos rfl]

theorem readlines_line {l : List Char} (hl : '\n' ∉ l) (s : List Char) :
    readlines (l ++ '\n' :: s) = (l ++ ['\n']) :: readlines s := by
  induction l with
  | nil => exact readlines_cons_newline s
  | cons c l ih =>
    have hc : c ≠ '\n' := fun h => hl (h ▸ List.mem_cons_self)
    have hl' : '\n' ∉ l := fun h => hl (List.mem_cons_of_mem c h)
    rw [List.cons_append, readlines, if_neg hc, ih hl']
    rfl

/-- The last line may have no newline. -/
theorem readlines_last {l : List Char} (hl : '\n' ∉ l) (hne : l ≠ []) : readlines l = [l] := by
  induction l with
  | nil => exact absurd rfl hne
  | cons c l ih =>
    have hc : c ≠ '\n' := fun h => hl (h ▸ List.mem_cons_self)
    have hl' : '\n' ∉ l := fun h => hl (List.mem_cons_of_mem c h)
    rw [readlines, if_neg hc]
    cases l with
    | nil => rfl
    | cons c' l => rw [ih hl' (List.cons_ne_nil c' l)]

theorem flatten_readlines (s : List Char) : (readlines s).flatten = s := by
  induction s with
  | nil => rfl
  | cons c s ih =>
    rw [readlines]
    by_cases hc : c = '\n'
    · rw [if_pos hc, List.flatten_cons, ih]
      rfl
    · rw [if_neg hc]
      cases hlines : readlines s with
      | nil =>
        rw [hlines] at ih
        rw [← ih]
        rfl
      | cons line lines =>
        rw [hlines] at ih
        rw [← ih]
        rfl

theorem readlines_ne_nil {s : List Char} (hs : s ≠ []) : readlines s ≠ [] := by
  intro h
  have hflatten := flatten_readlines s
  rw [h] at hflatten
  exact hs hflatten.symm

/-- A text that ends with a newline is cut by itself. -/
theorem readlines_append {t : List Char} (ht : ∃ s, t = s ++ ['\n']) (x : List Char) :
    readlines (t ++ x) = readlines t ++ readlines x := by
  obtain ⟨s, rfl⟩ := ht
  induction s with
  | nil => simp [readlines]
  | cons c s ih =>
    rw [List.cons_append, List.cons_append, readlines, readlines, ih]
    by_cases hc : c = '\n'
    · rw [if_pos hc, if_pos hc]
      rfl
    · rw [if_neg hc, if_neg hc]
      cases hlines : readlines (s ++ ['\n']) with
      | nil => exact absurd hlines (readlines_ne_nil (by simp))
      | cons line lines => rfl

/-- What is up to a character that stays is not stripped from the end. -/
theorem rdropWhile_append_cons (p : Char → Bool) {c : Char} (hc : p c = false) (a x : List Char) :
    (a ++ c :: x).rdropWhile p = a ++ c :: x.rdropWhile p := by
  have hreverse : (a ++ c :: x).reverse = x.reverse ++ (c :: a.reverse) := by simp
  rw [List.rdropWhile, hreverse, List.rdropWhile, List.dropWhile_append]
  cases hx : x.reverse.dropWhile p with
  | nil => simp [hc]
  | cons d y => simp

/-- The first character of a stripped text. -/
theorem strip_append_cons {sp : List Char} (hsp : ∀ c ∈ sp, isSpace c = true) {c : Char}
    (hc : isSpace c = false) (r : List Char) :
    strip (sp ++ c :: r) = c :: r.rdropWhile isSpace := by
  have hfront : lstrip (sp ++ c :: r) = c :: r := by
    rw [lstrip, List.dropWhile_append_of_pos hsp, List.dropWhile_cons_of_neg]
    rw [hc]
    exact Bool.false_ne_true
  rw [strip, hfront]
  exact rdropWhile_append_cons isSpace hc [] r

end TextLines
