import Mathlib.Data.List.Basic
import Mathlib.Data.List.Infix

/-! JSON texts: a reader, and how the texts it reads are put together.

    A number and what is between the quotes of a string are kept as they are written. `Reads t v` says
    that the reader takes exactly `t` off the front of any text that goes on with a delimiter, and
    makes it `v`; the rules for arrays and objects (`ReadsElements`, `ReadsMembers`) allow whitespace
    wherever the format does. -/

/-- A JSON value; of an object all members, also those of a name that comes again. -/
inductive Json where
  | null
  | bool (b : Bool)
  | number (text : List Char)
  | str (text : List Char)
  | arr (elements : List Json)
  | obj (members : List (List Char × Json))

namespace Json

/-! ### The reader -/

def isWs (c : Char) : Bool := c = ' ' || c = '\t' || c = '\n' || c = '\r'

/-- Leave whitespace out. -/
def skip (s : List Char) : List Char := s.dropWhile isWs

def isHex (c : Char) : Bool :=
  c.isDigit || ('a' ≤ c && c ≤ 'f') || ('A' ≤ c && c ≤ 'F')

/-- The length of the escape sequence that a text after a backslash starts with. -/
def escape : List Char → Option ℕ
  | [] => none
  | e :: r =>
    if e = 'u' then
      if (r.take 4).length = 4 ∧ (r.take 4).all isHex then some 5 else none
    else if e ∈ ['"', '\\', '/', 'b', 'f', 'n', 'r', 't'] then some 1
    else none

/-- The rest of a string after its opening quote; the next `k` characters are still part of an escape
    sequence. -/
def scanString : ℕ → List Char → Option (List Char × List Char)
  | _, [] => none
  | k + 1, c :: r => (scanString k r).map fun p => (c :: p.1, p.2)
  | 0, c :: r =>
    if c = '"' then some ([], r)
    else if c = '\\' then (escape r).bind fun k => (scanString k r).map fun p => (c :: p.1, p.2)
    else if c.toNat < 0x20 then none
    else (scanString 0 r).map fun p => (c :: p.1, p.2)
termination_by structural _ s => s

/-- The digits at the front of a text, if it starts with one, behind `lead`. -/
def digitsAfter (lead s : List Char) : Option (List Char × List Char) :=
  match s with
  | d :: r => if d.isDigit then some (lead ++ d :: r.takeWhile Char.isDigit, r.dropWhile Char.isDigit)
      else none
  | [] => none

/-- The integer part of a number. -/
def intPart : List Char → Option (List Char × List Char)
  | '-' :: '0' :: r => some (['-', '0'], r)
  | '-' :: r => digitsAfter ['-'] r
  | '0' :: r => some (['0'], r)
  | r => digitsAfter [] r

/-- The fraction of a number, if there is one. -/
def fracPart : List Char → List Char × List Char
  | '.' :: r => (digitsAfter ['.'] r).getD ([], '.' :: r)
  | r => ([], r)

/-- The exponent of a number, if there is one. -/
def expPart : List Char → List Char × List Char
  | [] => ([], [])
  | e :: r =>
    if e = 'e' ∨ e = 'E' then
      match r with
      | '+' :: r' => (digitsAfter [e, '+'] r').getD ([], e :: r)
      | '-' :: r' => (digitsAfter [e, '-'] r').getD ([], e :: r)
      | r => (digitsAfter [e] r).getD ([], e :: r)
    else ([], e :: r)

def scanNumber (s : List Char) : Option (List Char × List Char) :=
  (intPart s).map fun p =>
    let q := fracPart p.2
    let q' := expPart q.2
    (p.1 ++ q.1 ++ q'.1, q'.2)

/-- A text that starts with a word. -/
def word (w : List Char) (v : Json) (s : List Char) : Option (Json × List Char) :=
  if w.isPrefixOf s then some (v, s.drop w.length) else none

def NaN : List Char := ['N', 'a', 'N']

def Infinity : List Char := ['I', 'n', 'f', 'i', 'n', 'i', 't', 'y']

/-- A value that is no string, array or object. -/
def scalar (s : List Char) : Option (Json × List Char) :=
  word ['n', 'u', 'l', 'l'] .null s <|> word ['t', 'r', 'u', 'e'] (.bool true) s <|>
    word ['f', 'a', 'l', 's', 'e'] (.bool false) s <|>
    (scanNumber s).map (fun p => (.number p.1, p.2)) <|> word NaN (.number NaN) s <|>
    word Infinity (.number Infinity) s <|> word ('-' :: Infinity) (.number ('-' :: Infinity)) s

mutual

/-- A value at the front of a text, with at most `n` calls inside each other. -/
def value : ℕ → List Char → Option (Json × List Char)
  | 0, _ => none
  | _ + 1, [] => none
  | n + 1, c :: r =>
    if c = '"' then (scanString 0 r).map fun p => (.str p.1, p.2)
    else if c = '{' then
      match skip r with
      | '}' :: r' => some (.obj [], r')
      | r' => (members n r').map fun p => (.obj p.1, p.2)
    else if c = '[' then
      match skip r with
      | ']' :: r' => some (.arr [], r')
      | r' => (elements n r').map fun p => (.arr p.1, p.2)
    else scalar (c :: r)

/-- The members of an object up to its closing brace. -/
def members : ℕ → List Char → Option (List (List Char × Json) × List Char)
  | 0, _ => none
  | n + 1, s =>
    match s with
    | '"' :: r =>
      (scanString 0 r).bind fun p =>
        match skip p.2 with
        | ':' :: r' =>
          (value n (skip r')).bind fun q =>
            match skip q.2 with
            | '}' :: r'' => some ([(p.1, q.1)], r'')
            | ',' :: r'' => (members n (skip r'')).map fun m => ((p.1, q.1) :: m.1, m.2)
            | _ => none
        | _ => none
    | _ => none

/-- The elements of an array up to its closing bracket. -/
def elements : ℕ → List Char → Option (List Json × List Char)
  | 0, _ => none
  | n + 1, s =>
    (value n s).bind fun q =>
      match skip q.2 with
      | ']' :: r => some ([q.1], r)
      | ',' :: r => (elements n (skip r)).map fun m => (q.1 :: m.1, m.2)
      | _ => none

end

/-- The value a text is, with whitespace around it. -/
def loads (s : List Char) : Option Json :=
  (value (s.length + 1) (skip s)).bind fun p => if skip p.2 = [] then some p.1 else none

/-- The member of an object with a name, the last one if there are several. -/
def member (name : List Char) (members : List (List Char × Json)) : Option Json :=
  members.reverse.lookup name

/-! ### Texts it reads -/

/-- Whitespace only. -/
def Ws (w : List Char) : Prop := ∀ c ∈ w, isWs c = true

/-- A text that starts with something no value goes on with. -/
def Delimited (s : List Char) : Prop :=
  ∃ c r, s = c :: r ∧ (isWs c = true ∨ c = ',' ∨ c = '}' ∨ c = ']')

/-- Characters that stand for themselves in a string. -/
def Plain (k : List Char) : Prop := ∀ c ∈ k, c ≠ '"' ∧ c ≠ '\\' ∧ 0x20 ≤ c.toNat

/-- A text that starts with neither whitespace nor a closing bracket. -/
def Opens (t : List Char) : Prop := ∃ c r, t = c :: r ∧ isWs c = false ∧ c ≠ '}' ∧ c ≠ ']'

/-- The text is read as a value, or refused whatever comes behind it. -/
structure Reads (t : List Char) (v : Option Json) : Prop where
  opens : Opens t
  read : ∀ n rest, t.length ≤ n → (v.isSome → Delimited rest) →
    value n (t ++ rest) = v.map fun v => (v, rest)

/-- The text is read as the elements of an array and its closing bracket, or refused. -/
structure ReadsElements (t : List Char) (vs : Option (List Json)) : Prop where
  opens : Opens t
  read : ∀ n rest, t.length ≤ n → elements n (t ++ rest) = vs.map fun vs => (vs, rest)

/-- The text is read as the members of an object and its closing brace, or refused. -/
structure ReadsMembers (t : List Char) (ms : Option (List (List Char × Json))) : Prop where
  opens : Opens t
  read : ∀ n rest, t.length ≤ n → members n (t ++ rest) = ms.map fun ms => (ms, rest)

theorem skip_append {w : List Char} (hw : Ws w) (s : List Char) : skip (w ++ s) = skip s := by
  induction w with
  | nil => rfl
  | cons c w ih =>
    rw [skip, List.cons_append, List.dropWhile_cons_of_pos (hw c List.mem_cons_self)]
    exact ih fun c' hc' => hw c' (List.mem_cons_of_mem c hc')

theorem skip_cons {c : Char} (hc : isWs c = false) (s : List Char) : skip (c :: s) = c :: s :=
  List.dropWhile_cons_of_neg (by rw [hc]; exact Bool.false_ne_true)

theorem plain_of_all {k : List Char}
    (h : (k.all fun c => decide (c ≠ '"' ∧ c ≠ '\\' ∧ 0x20 ≤ c.toNat)) = true) : Plain k :=
  fun c hc => of_decide_eq_true (List.all_eq_true.1 h c hc)

theorem scanString_plain {k : List Char} (hk : Plain k) (r : List Char) :
    scanString 0 (k ++ '"' :: r) = some (k, r) := by
  induction k with
  | nil => rfl
  | cons c k ih =>
    obtain ⟨hquote, hescape, hcontrol⟩ := hk c List.mem_cons_self
    rw [List.cons_append, scanString, if_neg hquote, if_neg hescape, if_neg (Nat.not_lt.mpr hcontrol),
      ih fun c' hc' => hk c' (List.mem_cons_of_mem c hc')]
    rfl

/-- Whitespace in front is left out. -/
theorem Opens.skip_eq {t : List Char} (h : Opens t) {w : List Char} (hw : Ws w) (s : List Char) :
    skip (w ++ (t ++ s)) = t ++ s := by
  obtain ⟨c, r, rfl, hc, -, -⟩ := h
  rw [skip_append hw]
  exact skip_cons hc (r ++ s)

theorem Opens.append {t : List Char} (h : Opens t) (s : List Char) : Opens (t ++ s) := by
  obtain ⟨c, r, rfl, hc⟩ := h
  exact ⟨c, r ++ s, rfl, hc⟩

/-! ### Rules -/

theorem Delimited.of_append {w : List Char} (hw : Ws w) {s : List Char} (hs : Delimited s) :
    Delimited (w ++ s) := by
  cases w with
  | nil => exact hs
  | cons c w => exact ⟨c, w ++ s, rfl, Or.inl (hw c List.mem_cons_self)⟩

theorem delimited_comma (s : List Char) : Delimited (',' :: s) := ⟨',', s, rfl, Or.inr (Or.inl rfl)⟩

theorem delimited_brace (s : List Char) : Delimited ('}' :: s) :=
  ⟨'}', s, rfl, Or.inr (Or.inr (Or.inl rfl))⟩

theorem delimited_bracket (s : List Char) : Delimited (']' :: s) :=
  ⟨']', s, rfl, Or.inr (Or.inr (Or.inr rfl))⟩

theorem opens_quote (s : List Char) : Opens ('"' :: s) := ⟨'"', s, rfl, rfl, by decide, by decide⟩

theorem opens_bracket (s : List Char) : Opens ('[' :: s) := ⟨'[', s, rfl, rfl, by decide, by decide⟩

theorem opens_brace (s : List Char) : Opens ('{' :: s) := ⟨'{', s, rfl, rfl, by decide, by decide⟩

theorem Reads.str {k : List Char} (hk : Plain k) : Reads ('"' :: (k ++ ['"'])) (some (.str k)) := by
  refine ⟨opens_quote _, fun n rest hn hrest => ?_⟩
  obtain ⟨m, rfl⟩ : ∃ m, n = m + 1 := ⟨n - 1, by simp at hn; omega⟩
  have hscan := scanString_plain hk rest
  have hshape : '"' :: (k ++ ['"']) ++ rest = '"' :: (k ++ '"' :: rest) := by simp
  rw [hshape, value, if_pos rfl, hscan]
  rfl

/-- An element and what is neither a comma nor the closing bracket. -/
theorem Reads.noElement {t : List Char} {v : Json} (h : Reads t (some v)) {w : List Char} (hw : Ws w)
    (hne : w ≠ []) {c : Char} (hc : isWs c = false) (hcomma : c ≠ ',') (hbracket : c ≠ ']') :
    ReadsElements (t ++ (w ++ [c])) none := by
  refine ⟨h.opens.append _, fun n rest hn => ?_⟩
  rw [List.length_append, List.length_append, List.length_singleton] at hn
  obtain ⟨m, rfl⟩ : ∃ m, n = m + 1 := ⟨n - 1, by omega⟩
  have hshape : t ++ (w ++ [c]) ++ rest = t ++ (w ++ c :: rest) := by simp
  have hskip : skip (w ++ c :: rest) = c :: rest := by rw [skip_append hw, skip_cons hc]
  have hdelimited : Delimited (w ++ c :: rest) := by
    cases w with
    | nil => exact absurd rfl hne
    | cons d w => exact ⟨d, w ++ c :: rest, rfl, Or.inl (hw d List.mem_cons_self)⟩
  rw [hshape, elements, h.read m _ (by omega) fun _ => hdelimited]
  simp only [Option.map_some, Option.bind_some, hskip]
  split
  · next heq => exact absurd (List.cons.inj heq).1 hbracket
  · next heq => exact absurd (List.cons.inj heq).1 hcomma
  · rfl

/-- The last element. -/
theorem Reads.last {t : List Char} {v : Json} (h : Reads t (some v)) {w : List Char} (hw : Ws w) :
    ReadsElements (t ++ (w ++ [']'])) (some [v]) := by
  refine ⟨h.opens.append _, fun n rest hn => ?_⟩
  rw [List.length_append, List.length_append, List.length_singleton] at hn
  obtain ⟨m, rfl⟩ : ∃ m, n = m + 1 := ⟨n - 1, by omega⟩
  have hshape : t ++ (w ++ [']']) ++ rest = t ++ (w ++ ']' :: rest) := by simp
  have hskip : skip (w ++ ']' :: rest) = ']' :: rest := by rw [skip_append hw, skip_cons rfl]
  have hread := h.read m _ (by omega) fun _ => Delimited.of_append hw (delimited_bracket rest)
  rw [hshape, elements, hread]
  simp only [Option.map_some, Option.bind_some, hskip]

/-- An element in front of others. -/
theorem Reads.cons {t : List Char} {v : Json} (h : Reads t (some v)) {w : List Char} (hw : Ws w)
    {u : List Char} {vs : Option (List Json)} (hu : ReadsElements u vs) :
    ReadsElements (t ++ ',' :: (w ++ u)) (vs.map (v :: ·)) := by
  refine ⟨h.opens.append _, fun n rest hn => ?_⟩
  rw [List.length_append, List.length_cons, List.length_append] at hn
  obtain ⟨m, rfl⟩ : ∃ m, n = m + 1 := ⟨n - 1, by omega⟩
  have hshape : t ++ ',' :: (w ++ u) ++ rest = t ++ ',' :: (w ++ (u ++ rest)) := by simp
  have hskip : skip (',' :: (w ++ (u ++ rest))) = ',' :: (w ++ (u ++ rest)) := skip_cons rfl _
  have hread := h.read m _ (by omega) fun _ => delimited_comma (w ++ (u ++ rest))
  rw [hshape, elements, hread]
  simp only [Option.map_some, Option.bind_some, hskip, hu.opens.skip_eq hw,
    hu.read m rest (by omega), Option.map_map]
  rfl

theorem Reads.emptyArr {w : List Char} (hw : Ws w) :
    Reads ('[' :: (w ++ [']'])) (some (.arr [])) := by
  refine ⟨opens_bracket _, fun n rest hn hrest => ?_⟩
  obtain ⟨m, rfl⟩ : ∃ m, n = m + 1 := ⟨n - 1, by simp at hn; omega⟩
  have hshape : '[' :: (w ++ [']']) ++ rest = '[' :: (w ++ ']' :: rest) := by simp
  have hskip : skip (w ++ ']' :: rest) = ']' :: rest := by rw [skip_append hw, skip_cons rfl]
  rw [hshape, value, if_neg (by decide), if_neg (by decide), if_pos rfl]
  simp only [hskip, Option.map_some]

/-- An array with its elements. -/
theorem ReadsElements.arr {t : List Char} {vs : Option (List Json)} (h : ReadsElements t vs)
    {w : List Char} (hw : Ws w) : Reads ('[' :: (w ++ t)) (vs.map .arr) := by
  refine ⟨opens_bracket _, fun n rest hn hrest => ?_⟩
  rw [List.length_cons, List.length_append] at hn
  obtain ⟨m, rfl⟩ : ∃ m, n = m + 1 := ⟨n - 1, by omega⟩
  have hskip : skip (w ++ t ++ rest) = t ++ rest := by
    rw [List.append_assoc]
    exact h.opens.skip_eq hw rest
  have hread := h.read m rest (by omega)
  obtain ⟨c, r, rfl, -, -, hc⟩ := h.opens
  rw [List.cons_append, value, if_neg (by decide), if_neg (by decide), if_pos rfl, hskip]
  rw [List.cons_append] at hread ⊢
  split
  · next heq => exact absurd (List.cons.inj heq).1 hc
  · rw [hread, Option.map_map, Option.map_map]
    rfl

/-- A member up to its value. -/
theorem members_name {k : List Char} (hk : Plain k) {w : List Char} (hw : Ws w) {t : List Char}
    {v : Option Json} (h : Reads t v) {m : ℕ} (hm : t.length ≤ m) {s : List Char}
    (hs : v.isSome → Delimited s) : members (m + 1) ('"' :: (k ++ '"' :: ':' :: (w ++ (t ++ s)))) =
      v.bind fun v => match skip s with
        | '}' :: r => some ([(k, v)], r)
        | ',' :: r => (members m (skip r)).map fun p => ((k, v) :: p.1, p.2)
        | _ => none := by
  have hcolon : skip (':' :: (w ++ (t ++ s))) = ':' :: (w ++ (t ++ s)) := skip_cons rfl _
  rw [members, scanString_plain hk]
  simp only [Option.bind_some, hcolon, h.opens.skip_eq hw, h.read m s hm hs]
  cases v with
  | none => rfl
  | some v => rfl

/-- A member whose value is refused. -/
theorem Reads.noMember {t : List Char} (h : Reads t none) {k : List Char} (hk : Plain k)
    {w : List Char} (hw : Ws w) : ReadsMembers ('"' :: (k ++ '"' :: ':' :: (w ++ t))) none := by
  refine ⟨opens_quote _, fun n rest hn => ?_⟩
  simp only [List.length_cons, List.length_append] at hn
  obtain ⟨m, rfl⟩ : ∃ m, n = m + 1 := ⟨n - 1, by omega⟩
  have hshape : '"' :: (k ++ '"' :: ':' :: (w ++ t)) ++ rest
      = '"' :: (k ++ '"' :: ':' :: (w ++ (t ++ rest))) := by simp
  rw [hshape, members_name hk hw h (by omega) fun hsome => absurd hsome Bool.false_ne_true]
  rfl

/-- The last member. -/
theorem Reads.lastMember {t : List Char} {v : Json} (h : Reads t (some v)) {k : List Char}
    (hk : Plain k) {w w' : List Char} (hw : Ws w) (hw' : Ws w') :
    ReadsMembers ('"' :: (k ++ '"' :: ':' :: (w ++ (t ++ (w' ++ ['}']))))) (some [(k, v)]) := by
  refine ⟨opens_quote _, fun n rest hn => ?_⟩
  simp only [List.length_cons, List.length_append] at hn
  obtain ⟨m, rfl⟩ : ∃ m, n = m + 1 := ⟨n - 1, by omega⟩
  have hshape : '"' :: (k ++ '"' :: ':' :: (w ++ (t ++ (w' ++ ['}'])))) ++ rest
      = '"' :: (k ++ '"' :: ':' :: (w ++ (t ++ (w' ++ '}' :: rest)))) := by simp
  have hskip : skip (w' ++ '}' :: rest) = '}' :: rest := by rw [skip_append hw', skip_cons rfl]
  rw [hshape, members_name hk hw h (by omega)
    fun _ => Delimited.of_append hw' (delimited_brace rest)]
  simp only [Option.bind_some, hskip, Option.map_some]

/-- A member in front of others. -/
theorem Reads.consMember {t : List Char} {v : Json} (h : Reads t (some v)) {k : List Char}
    (hk : Plain k) {w w' : List Char} (hw : Ws w) (hw' : Ws w') {u : List Char}
    {ms : Option (List (List Char × Json))} (hu : ReadsMembers u ms) :
    ReadsMembers ('"' :: (k ++ '"' :: ':' :: (w ++ (t ++ ',' :: (w' ++ u)))))
      (ms.map ((k, v) :: ·)) := by
  refine ⟨opens_quote _, fun n rest hn => ?_⟩
  simp only [List.length_cons, List.length_append] at hn
  obtain ⟨m, rfl⟩ : ∃ m, n = m + 1 := ⟨n - 1, by omega⟩
  have hshape : '"' :: (k ++ '"' :: ':' :: (w ++ (t ++ ',' :: (w' ++ u)))) ++ rest
      = '"' :: (k ++ '"' :: ':' :: (w ++ (t ++ ',' :: (w' ++ (u ++ rest))))) := by simp
  have hskip : skip (',' :: (w' ++ (u ++ rest))) = ',' :: (w' ++ (u ++ rest)) := skip_cons rfl _
  rw [hshape, members_name hk hw h (by omega) fun _ => delimited_comma _]
  simp only [Option.bind_some, hskip, hu.opens.skip_eq hw', hu.read m rest (by omega),
    Option.map_map]
  rfl

/-- An object with its members. -/
theorem ReadsMembers.obj {t : List Char} {ms : Option (List (List Char × Json))}
    (h : ReadsMembers t ms) {w : List Char} (hw : Ws w) : Reads ('{' :: (w ++ t)) (ms.map .obj) := by
  refine ⟨opens_brace _, fun n rest hn hrest => ?_⟩
  rw [List.length_cons, List.length_append] at hn
  obtain ⟨m, rfl⟩ : ∃ m, n = m + 1 := ⟨n - 1, by omega⟩
  have hskip : skip (w ++ t ++ rest) = t ++ rest := by
    rw [List.append_assoc]
    exact h.opens.skip_eq hw rest
  have hread := h.read m rest (by omega)
  obtain ⟨c, r, rfl, -, hc, -⟩ := h.opens
  rw [List.cons_append, value, if_neg (by decide), if_pos rfl, hskip]
  rw [List.cons_append] at hread ⊢
  split
  · next heq => exact absurd (List.cons.inj heq).1 hc
  · rw [hread, Option.map_map, Option.map_map]
    rfl

/-- CORRECT: a text that is read as a value is that value, with whitespace behind it. -/
theorem Reads.loads {t : List Char} {v : Json} (h : Reads t (some v)) {w : List Char} (hw : Ws w)
    (hne : w ≠ []) : loads (t ++ w) = some v := by
  have hdelimited : Delimited w := by
    cases w with
    | nil => exact absurd rfl hne
    | cons c w => exact ⟨c, w, rfl, Or.inl (hw c List.mem_cons_self)⟩
  have hfront : skip (t ++ w) = t ++ w := h.opens.skip_eq (fun _ hc => absurd hc List.not_mem_nil) w
  have hback : skip w = [] := by
    have happend := skip_append hw []
    rw [List.append_nil] at happend
    exact happend
  rw [Json.loads, hfront, h.read _ _ (by rw [List.length_append]; omega) fun _ => hdelimited]
  simp only [Option.map_some, Option.bind_some, hback, if_pos]

theorem Reads.not_loads {t : List Char} (h : Reads t none) (rest : List Char) :
    Json.loads (t ++ rest) = none := by
  have hfront : skip (t ++ rest) = t ++ rest :=
    h.opens.skip_eq (fun _ hc => absurd hc List.not_mem_nil) rest
  rw [Json.loads, hfront, h.read _ _ (by rw [List.length_append]; omega)
    fun hsome => absurd hsome Bool.false_ne_true]
  rfl

end Json
