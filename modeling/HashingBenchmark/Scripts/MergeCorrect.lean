import HashingBenchmark.Scripts.ResultFile
import Mathlib.Algebra.Order.BigOperators.Group.List
import Mathlib.Algebra.Order.Ring.Nat

/-! What the loop over the lines makes of a result file, run by run, and what the merge loop makes of
    all files. -/

namespace HashingBenchmark
namespace Scripts
open TextLines Json

/-! ### Lines that are kept -/

theorem isPrefixOf_cons_of_ne {c d : Char} (h : c ≠ d) (p r : List Char) :
    (c :: p).isPrefixOf (d :: r) = false := by
  rw [List.isPrefixOf, beq_false_of_ne h, Bool.false_and]

theorem fixLine_of_head {sp : List Char} (hsp : ∀ c ∈ sp, isSpace c = true) {c : Char}
    (hc : isSpace c = false) (hS : c ≠ 'S') (hbrace : c ≠ '}') (r : List Char) :
    fixLine (sp ++ c :: r) = sp ++ c :: r := by
  have hmarked : ('}' :: startHere).isPrefixOf (c :: r.rdropWhile isSpace) = false :=
    isPrefixOf_cons_of_ne hbrace.symm _ _
  have hstart : startHere.isPrefixOf (c :: r.rdropWhile isSpace) = false :=
    isPrefixOf_cons_of_ne hS.symm _ _
  rw [fixLine, strip_append_cons hsp hc, hmarked, if_neg Bool.false_ne_true,
    strip_append_cons hsp hc, hstart, if_neg Bool.false_ne_true]

theorem isSpace_spaces {n : ℕ} {c : Char} (hc : c ∈ spaces n) : isSpace c = true := by
  rw [List.eq_of_mem_replicate hc]
  rfl

theorem Quiet.append {t t' : List Char} (h : Quiet t) (h' : Quiet t') : Quiet (t ++ t') := by
  obtain ⟨s', hs'⟩ := h'.ends
  refine ⟨⟨t ++ s', by rw [hs', List.append_assoc]⟩, fun line hline => ?_⟩
  rw [readlines_append h.ends, List.mem_append] at hline
  exact hline.elim (h.kept line) (h'.kept line)

/-- One line that is kept. -/
theorem quiet_line {l : List Char} (hl : '\n' ∉ l)
    (hkept : fixLine (l ++ ['\n']) = l ++ ['\n'] ∧ l ++ ['\n'] ≠ closing ∧ l ++ ['\n'] ≠ repaired) :
    Quiet (l ++ ['\n']) := by
  refine ⟨⟨l, rfl⟩, fun line hline => ?_⟩
  rw [readlines_line hl, readlines, List.mem_singleton] at hline
  rw [hline]
  exact hkept

/-- An indented line that starts with neither a brace nor a marker. -/
theorem quiet_indented {n : ℕ} {c : Char} {r : List Char} (hn : 0 < n) (hc : isSpace c = false)
    (hS : c ≠ 'S') (hbrace : c ≠ '}') (hr : '\n' ∉ c :: r) :
    Quiet (spaces n ++ (c :: r ++ ['\n'])) := by
  obtain ⟨m, rfl⟩ : ∃ m, n = m + 1 := ⟨n - 1, by omega⟩
  have hline : '\n' ∉ spaces (m + 1) ++ c :: r := by
    rw [List.mem_append]
    rintro (hsp | hmem)
    · exact absurd (List.eq_of_mem_replicate hsp) (by decide)
    · exact hr hmem
  have hspace : spaces (m + 1) = ' ' :: spaces m := rfl
  rw [← List.append_assoc]
  refine quiet_line hline ⟨?_, ?_, ?_⟩
  · rw [List.append_assoc]
    exact fixLine_of_head (fun _ => isSpace_spaces) hc hS hbrace (r ++ ['\n'])
  · rw [hspace]
    simp [closing]
  · rw [hspace]
    simp [repaired]

theorem Field.quiet (f : Field) {tail : List Char} (htail : '\n' ∉ tail) :
    Quiet (f.line ++ (tail ++ ['\n'])) := by
  have hname : '\n' ∉ f.name := fun h => absurd (f.plain '\n' h).2.2 (by decide)
  have hline : '\n' ∉ '"' :: (f.name ++ ['"', ':', ' '] ++ (f.text ++ tail)) := by
    simp [hname, f.oneLine, htail]
  have hquiet := quiet_indented (n := 6) (by decide) rfl (by decide) (by decide) hline
  simpa [Field.line, quoted] using hquiet

theorem quiet_fieldsText (f : Field) (fs : List Field) : Quiet (fieldsText f fs) := by
  induction fs generalizing f with
  | nil =>
    have hline : Quiet (f.line ++ ([] ++ ['\n'])) := f.quiet List.not_mem_nil
    exact hline
  | cons f' fs ih =>
    have hline : Quiet (f.line ++ ([','] ++ ['\n'])) := f.quiet (by decide)
    have happend := hline.append (ih f')
    rw [List.append_assoc] at happend
    exact happend

theorem ResultEntry.quiet (e : ResultEntry) : Quiet e.text := by
  have hopen : Quiet (spaces 4 ++ (['{'] ++ ['\n'])) :=
    quiet_indented (by decide) rfl (by decide) (by decide) (by decide)
  have happend := hopen.append (quiet_fieldsText e.first e.others)
  rw [List.append_assoc] at happend
  exact happend

theorem quiet_entriesText (e : ResultEntry) (es : List ResultEntry) : Quiet (entriesText e es) := by
  induction es generalizing e with
  | nil => exact e.quiet
  | cons e' es ih =>
    have hclose : Quiet ((spaces 4 ++ ['}', ',']) ++ ['\n']) := quiet_line (by decide) (by decide)
    have happend := e.quiet.append (hclose.append (ih e'))
    rw [List.append_assoc, List.append_assoc] at happend
    exact happend

theorem Run.quiet_front (r : Run) : Quiet r.front := by
  have hopen : Quiet (['{'] ++ ['\n']) := quiet_line (by decide) (by decide)
  have hbenchmarks : Quiet ((spaces 2 ++ (quoted "benchmarks".toList ++ ['['])) ++ ['\n']) :=
    quiet_line (by decide) (by decide)
  have hheader : Quiet (spaces 2 ++ (quoted "benchmarks".toList ++ ['[', '\n']) ++ r.entriesText) := by
    rw [Run.entriesText]
    cases r.entries with
    | nil => simpa using hbenchmarks
    | cons e es => simpa using hbenchmarks.append (quiet_entriesText e es)
  exact hopen.append (r.context.quiet.append hheader)

/-! ### What the loop makes of a run -/

/-- The JSON texts that the loop makes of a text when it has `current_string` already. -/
def objectsFrom (current_string text : List Char) : List (List Char) :=
  ((readlines text).foldl splitLine ⟨[], current_string⟩).json_objects

/-- What is already in `json_objects` stays in front. -/
theorem foldl_splitLine (objects : List (List Char)) (current_string : List Char)
    (lines : List (List Char)) : (lines.foldl splitLine ⟨objects, current_string⟩).json_objects
      = objects ++ (lines.foldl splitLine ⟨[], current_string⟩).json_objects := by
  induction lines generalizing objects current_string with
  | nil => simp
  | cons line lines ih =>
    rw [List.foldl_cons, List.foldl_cons, splitLine, splitLine]
    split_ifs with h
    · rw [ih (objects ++ _), ih ([] ++ _)]
      simp
    · rw [ih objects]

theorem objectsFrom_nil (current_string : List Char) : objectsFrom current_string [] = [] := rfl

theorem objectsFrom_quiet {t : List Char} (ht : Quiet t) (current_string x : List Char) :
    objectsFrom current_string (t ++ x) = objectsFrom (current_string ++ t) x := by
  have hlines : ∀ (lines : List (List Char)) (current_string : List Char),
      (∀ line ∈ lines, fixLine line = line ∧ line ≠ closing ∧ line ≠ repaired) →
      lines.foldl splitLine ⟨[], current_string⟩ = ⟨[], current_string ++ lines.flatten⟩ := by
    intro lines
    induction lines with
    | nil => simp
    | cons line lines ih =>
      intro current_string hkept
      obtain ⟨hfix, hclosing, hrepaired⟩ := hkept line List.mem_cons_self
      have hstep : splitLine ⟨[], current_string⟩ line = ⟨[], current_string ++ line⟩ := by
        rw [splitLine, hfix, if_neg (not_or.mpr ⟨hclosing, hrepaired⟩)]
      rw [List.foldl_cons, hstep, ih _ fun line' h => hkept line' (List.mem_cons_of_mem line h),
        List.flatten_cons, List.append_assoc]
  rw [objectsFrom, readlines_append ht.ends, List.foldl_append, hlines _ _ ht.kept,
    flatten_readlines, objectsFrom]

/-- A line that ends a JSON text, perhaps after a repair. -/
theorem objectsFrom_flush {l : List Char} (hl : '\n' ∉ l) {fixed : List Char}
    (hfix : fixLine (l ++ ['\n']) = fixed) (hfixed : fixed = closing ∨ fixed = repaired)
    (current_string x : List Char) : objectsFrom current_string (l ++ '\n' :: x)
      = (current_string ++ fixed) :: objectsFrom [] x := by
  have hstep : splitLine ⟨[], current_string⟩ (l ++ ['\n']) = ⟨[current_string ++ fixed], []⟩ := by
    rw [splitLine, hfix, if_pos hfixed]
    rfl
  rw [objectsFrom, readlines_line hl, List.foldl_cons, hstep, foldl_splitLine]
  rfl

/-- What a marker line starts with after its indentation. -/
theorem strip_marked {sp : List Char} (hsp : ∀ c ∈ sp, isSpace c = true) {c : Char}
    (hc : isSpace c = false) (p : List Char) (info : List Char) :
    (c :: p ++ ['e']).isPrefixOf (strip (sp ++ (c :: p ++ ['e'] ++ info))) = true := by
  have hshape : sp ++ (c :: p ++ ['e'] ++ info) = sp ++ c :: (p ++ 'e' :: info) := by simp
  rw [hshape, strip_append_cons hsp hc, rdropWhile_append_cons isSpace rfl,
    List.isPrefixOf_iff_prefix]
  exact ⟨info.rdropWhile isSpace, by simp⟩

theorem objectsFrom_marker (current_string : List Char) {r : Run} (x : List Char) :
    objectsFrom current_string (r.markerText ++ x) = objectsFrom current_string x := by
  rw [Run.markerText]
  cases hmarker : r.marker with
  | none => rfl
  | some info =>
    have hinfo : '\n' ∉ info := r.markerLine info hmarker
    have hline : '\n' ∉ startHere ++ info := by
      rw [List.mem_append]
      rintro (h | h)
      · exact absurd h (by decide)
      · exact hinfo h
    have hstart : startHere.isPrefixOf (strip (startHere ++ (info ++ ['\n']))) = true :=
      strip_marked (fun c hc => absurd hc List.not_mem_nil) rfl
        ['t', 'a', 'r', 't', ' ', 'H', 'e', 'r'] (info ++ ['\n'])
    have hbrace : ('}' :: startHere).isPrefixOf (strip (startHere ++ (info ++ ['\n']))) = false := by
      have hshape : startHere ++ (info ++ ['\n']) = [] ++ 'S' ::
          (['t', 'a', 'r', 't', ' ', 'H', 'e', 'r', 'e'] ++ (info ++ ['\n'])) := rfl
      rw [hshape, strip_append_cons (fun c hc => absurd hc List.not_mem_nil) rfl]
      exact isPrefixOf_cons_of_ne (by decide) _ _
    have hfix : fixLine (startHere ++ (info ++ ['\n'])) = [] := by
      rw [fixLine, hbrace, if_neg Bool.false_ne_true, hstart, if_pos rfl]
    have hshape : startHere ++ (info ++ ['\n']) ++ x = (startHere ++ info) ++ '\n' :: x := by simp
    simp only
    rw [hshape, objectsFrom, readlines_line hline, List.foldl_cons, splitLine, List.append_assoc,
      hfix, List.append_nil, if_neg (by decide), objectsFrom]

namespace Run
variable {r : Run}

theorem quiet_lastBrace (r : Run) : Quiet (r.lastBrace ++ ['\n']) := by
  rw [lastBrace]
  cases r.entries with
  | nil =>
    simp only
    exact quiet_line (by decide) (by decide)
  | cons e es =>
    simp only
    exact quiet_line (by decide) (by decide)

theorem lastBrace_of_cut (hr : r.ending ≠ .complete) : r.lastBrace = spaces 4 ++ ['}'] := by
  have hne := r.cutAfterEntry hr
  rw [lastBrace]
  cases hentries : r.entries with
  | nil => exact absurd hentries hne
  | cons e es => rfl

theorem objectsFrom_complete (hr : r.ending = .complete) (current_string x : List Char) :
    objectsFrom current_string (r.text ++ x) = (current_string ++ r.text) :: objectsFrom [] x := by
  have hbracket : Quiet ((spaces 2 ++ [']']) ++ ['\n']) := quiet_line (by decide) (by decide)
  have hquiet := r.quiet_front.append (r.quiet_lastBrace.append hbracket)
  have hshape : r.text
      = r.front ++ ((r.lastBrace ++ ['\n']) ++ ((spaces 2 ++ [']']) ++ ['\n'])) ++ closing := by
    rw [text, hr]
    simp [Ending.text]
  have hclosing : closing ++ x = ['}'] ++ '\n' :: x := rfl
  have hfix : fixLine (['}'] ++ ['\n']) = closing := by decide
  rw [hshape, List.append_assoc, objectsFrom_quiet hquiet, hclosing,
    objectsFrom_flush (by decide) hfix (Or.inl rfl), List.append_assoc]

/-- A run that was cut is repaired by the marker behind it. -/
theorem objectsFrom_marked (hr : r.ending = .cut false) {r' : Run} (hmarker : r'.marker.isSome)
    (current_string x : List Char) : objectsFrom current_string (r.text ++ (r'.markerText ++ x))
      = (current_string ++ (r.front ++ repaired)) :: objectsFrom [] x := by
  obtain ⟨info, hinfo⟩ := Option.isSome_iff_exists.mp hmarker
  have hline : '\n' ∉ spaces 4 ++ ('}' :: startHere ++ info) := by
    rw [List.mem_append, List.mem_append]
    rintro (h | h | h)
    · exact absurd h (by decide)
    · exact absurd h (by decide)
    · exact r'.markerLine info hinfo h
  have hstart : ('}' :: startHere).isPrefixOf
      (strip (spaces 4 ++ ('}' :: startHere ++ (info ++ ['\n'])))) = true :=
    strip_marked (fun _ => isSpace_spaces) rfl ['S', 't', 'a', 'r', 't', ' ', 'H', 'e', 'r']
      (info ++ ['\n'])
  have hfix : fixLine (spaces 4 ++ ('}' :: startHere ++ info) ++ ['\n']) = repaired := by
    rw [List.append_assoc, List.append_assoc, fixLine, hstart, if_pos rfl]
    decide
  have hshape : r.text ++ (r'.markerText ++ x)
      = r.front ++ ((spaces 4 ++ ('}' :: startHere ++ info)) ++ '\n' :: x) := by
    rw [text, hr, r.lastBrace_of_cut (by rw [hr]; decide), markerText, hinfo]
    simp [Ending.text]
  rw [hshape, objectsFrom_quiet r.quiet_front, objectsFrom_flush hline hfix (Or.inr rfl),
    List.append_assoc]

theorem objectsFrom_newline (hr : r.ending = .cut true) (current_string x : List Char) :
    objectsFrom current_string (r.text ++ x) = objectsFrom (current_string ++ r.text) x := by
  have hshape : r.text = r.front ++ (r.lastBrace ++ ['\n']) := by
    rw [text, hr]
    rfl
  rw [hshape]
  exact objectsFrom_quiet (r.quiet_front.append r.quiet_lastBrace) current_string x

/-- Nothing is made of a run that was cut at the end of the file. -/
theorem objectsFrom_end (hr : r.ending ≠ .complete) (current_string : List Char) :
    objectsFrom current_string r.text = [] := by
  cases hending : r.ending with
  | complete => exact absurd hending hr
  | cut newline =>
    cases newline with
    | true =>
      have h := objectsFrom_newline hending current_string []
      rw [List.append_nil, objectsFrom_nil] at h
      exact h
    | false =>
      have hshape : r.text = r.front ++ (spaces 4 ++ ['}']) := by
        rw [text, hending, r.lastBrace_of_cut hr]
        rfl
      have hkept : fixLine (spaces 4 ++ ['}']) = spaces 4 ++ ['}'] := by decide
      rw [hshape, objectsFrom_quiet r.quiet_front, objectsFrom,
        readlines_last (by decide) (by decide), List.foldl_cons, List.foldl_nil, splitLine, hkept,
        if_neg (by decide)]

/-- The JSON text that is made of a run. -/
def piece (r : Run) : List Char :=
  match r.ending with
  | .complete => r.text
  | .cut _ => r.front ++ repaired

theorem ws_newline_nil : Ws ['\n'] := ws_newline (ws_spaces 0)

theorem loads_piece (r : Run) : loads r.piece = some r.json := by
  rw [piece]
  cases hending : r.ending with
  | complete =>
    cases hr : r.entries with
    | nil =>
      have hshape : r.text = (r.front ++ (('\n' :: spaces 2) ++ ']' :: (['\n'] ++ ['}'])))
          ++ ['\n'] := by
        rw [text, lastBrace, hr, hending]
        simp [Ending.text, closing]
      simp only
      rw [hshape]
      exact (reads_nil hr (ws_newline (ws_spaces 2)) ws_newline_nil).loads ws_newline_nil
        (List.cons_ne_nil _ _)
    | cons e es =>
      have hshape : r.text = (r.front ++ (spaces 4 ++ '}' :: (('\n' :: spaces 2) ++ ']' ::
          (['\n'] ++ ['}'])))) ++ ['\n'] := by
        rw [text, lastBrace, hr, hending]
        simp [Ending.text, closing]
      simp only
      rw [hshape]
      exact (reads hr (ws_spaces 4) (ws_newline (ws_spaces 2)) ws_newline_nil).loads ws_newline_nil
        (List.cons_ne_nil _ _)
  | cut newline =>
    obtain ⟨e, es, hr⟩ := List.exists_cons_of_ne_nil
      (r.cutAfterEntry (by rw [hending]; exact Ending.noConfusion))
    have hshape : r.front ++ repaired = (r.front ++ (spaces 0 ++ '}' :: (['\n'] ++ ']' ::
        (['\n'] ++ ['}'])))) ++ ['\n'] := by
      simp [repaired, spaces]
    simp only
    rw [hshape]
    exact (reads hr (ws_spaces 0) ws_newline_nil ws_newline_nil).loads ws_newline_nil
      (List.cons_ne_nil _ _)

theorem front_head (r : Run) : ∃ s, r.front = '{' :: s := ⟨_, rfl⟩

theorem text_head (r : Run) : ∃ s, r.text = '{' :: s := ⟨_, rfl⟩

end Run

/-- Nothing that goes on with a document is JSON any more. -/
def Stuck (current_string : List Char) : Prop :=
  ∀ s, loads (current_string ++ '{' :: s) = none

theorem Stuck.append {current_string : List Char} (h : Stuck current_string) (r : Run) :
    Stuck (current_string ++ r.text) := by
  intro s
  obtain ⟨t, ht⟩ := r.text_head
  rw [List.append_assoc, ht]
  exact h (t ++ '{' :: s)

theorem stuck_newline {r : Run} (hr : r.ending = .cut true) : Stuck r.text := by
  intro s
  obtain ⟨e, es, hentries⟩ := List.exists_cons_of_ne_nil (r.cutAfterEntry (by rw [hr]; decide))
  have hrefused := Run.refused hentries (ws_spaces 4) Run.ws_newline_nil (List.cons_ne_nil _ _)
  have hshape : r.text ++ '{' :: s = r.front ++ (spaces 4 ++ '}' :: (['\n'] ++ ['{'])) ++ s := by
    rw [Run.text, hr, r.lastBrace_of_cut (by rw [hr]; decide)]
    simp [Ending.text]
  rw [hshape]
  exact hrefused.not_loads s

/-! ### What the loop makes of a file -/

/-- A file from the document of its first run on. -/
def bodyText (r : Run) (rest : List Run) : List Char :=
  r.text ++ rest.flatMap fun r => r.markerText ++ r.text

theorem bodyText_cons (r r' : Run) (rest : List Run) :
    bodyText r (r' :: rest) = r.text ++ (r'.markerText ++ bodyText r' rest) := by
  simp [bodyText]

/-- The last run is complete, and the newline is missing where a run before it was cut. -/
def Recoverable : Run → List Run → Prop
  | r, [] => r.ending = .complete
  | r, r' :: rest => r.ending ≠ .cut true ∧ Recoverable r' rest

/-- A marker line behind every run that was cut. -/
abbrev Marked (runs : List Run) : Prop :=
  runs.IsChain fun r r' => r.ending ≠ .complete → r'.marker.isSome

/-- A run in front of others becomes a text of its own. -/
theorem objectsFrom_cons {r r' : Run} {rest : List Run} (hmarked : Marked (r :: r' :: rest))
    (h : r.ending ≠ .cut true) :
    objectsFrom [] (bodyText r (r' :: rest)) = r.piece :: objectsFrom [] (bodyText r' rest) := by
  obtain ⟨hmarker, -⟩ := List.isChain_cons_cons.mp hmarked
  rw [bodyText_cons, Run.piece]
  cases hending : r.ending with
  | complete =>
    rw [Run.objectsFrom_complete hending, objectsFrom_marker]
    rfl
  | cut newline =>
    cases newline with
    | true => exact absurd hending h
    | false =>
      have hsome := hmarker (by rw [hending]; decide)
      rw [Run.objectsFrom_marked hending hsome]
      rfl

/-- A file that can be recovered becomes one text for each run. -/
theorem objectsFrom_recoverable {r : Run} {rest : List Run} (hmarked : Marked (r :: rest))
    (h : Recoverable r rest) : objectsFrom [] (bodyText r rest) = (r :: rest).map Run.piece := by
  induction rest generalizing r with
  | nil =>
    rw [bodyText, List.flatMap_nil, Run.objectsFrom_complete h, objectsFrom_nil, List.map_cons,
      Run.piece, h]
    rfl
  | cons r' rest ih =>
    obtain ⟨hnewline, hrest⟩ := h
    rw [objectsFrom_cons hmarked hnewline, ih (List.isChain_cons_cons.mp hmarked).2 hrest]
    rfl

theorem objectsFrom_stuck {current_string : List Char} (h : Stuck current_string) {r : Run}
    {rest : List Run} (hmarked : Marked (r :: rest)) :
    objectsFrom current_string (bodyText r rest) = [] ∨
      ∃ t ∈ objectsFrom current_string (bodyText r rest), loads t = none := by
  have hcomplete : loads (current_string ++ r.text) = none := by
    obtain ⟨s, hs⟩ := r.text_head
    rw [hs]
    exact h s
  induction rest generalizing r current_string with
  | nil =>
    rw [bodyText, List.flatMap_nil]
    by_cases hending : r.ending = .complete
    · rw [Run.objectsFrom_complete hending]
      exact Or.inr ⟨_, List.mem_cons_self, hcomplete⟩
    · rw [List.append_nil]
      exact Or.inl (Run.objectsFrom_end hending current_string)
  | cons r' rest ih =>
    obtain ⟨hmarker, hmarked'⟩ := List.isChain_cons_cons.mp hmarked
    rw [bodyText_cons]
    cases hending : r.ending with
    | complete =>
      rw [Run.objectsFrom_complete hending]
      exact Or.inr ⟨_, List.mem_cons_self, hcomplete⟩
    | cut newline =>
      cases newline with
      | true =>
        rw [Run.objectsFrom_newline hending, objectsFrom_marker]
        obtain ⟨s, hs⟩ := r'.text_head
        refine ih (h.append r) hmarked' ?_
        rw [hs]
        exact h.append r s
      | false =>
        have hsome := hmarker (by rw [hending]; decide)
        obtain ⟨s, hs⟩ := r.front_head
        rw [Run.objectsFrom_marked hending hsome]
        refine Or.inr ⟨_, List.mem_cons_self, ?_⟩
        rw [hs]
        exact h (s ++ repaired)

/-- How many entries there are. -/
def entryCount (runs : List Run) : ℕ := (runs.map fun r => r.entries.length).sum

theorem entryCount_cons (r : Run) (rest : List Run) :
    entryCount (r :: rest) = r.entries.length + entryCount rest := by
  rw [entryCount, List.map_cons, List.sum_cons, entryCount]

theorem entryCount_pos {r : Run} (hr : r.ending ≠ .complete) (rest : List Run) :
    0 < entryCount (r :: rest) := by
  have hpos := List.length_pos_iff.mpr (r.cutAfterEntry hr)
  rw [entryCount_cons]
  omega

/-- A file that cannot be recovered becomes a text that is no JSON, or loses entries. -/
theorem objectsFrom_not_recoverable {r : Run} {rest : List Run} (hmarked : Marked (r :: rest))
    (h : ¬ Recoverable r rest) : (∃ t ∈ objectsFrom [] (bodyText r rest), loads t = none) ∨
      ∃ rs, objectsFrom [] (bodyText r rest) = rs.map Run.piece ∧
        entryCount rs < entryCount (r :: rest) := by
  induction rest generalizing r with
  | nil =>
    rw [bodyText, List.flatMap_nil, List.append_nil]
    exact Or.inr ⟨[], Run.objectsFrom_end h [], entryCount_pos h []⟩
  | cons r' rest ih =>
    have hmarked' := (List.isChain_cons_cons.mp hmarked).2
    by_cases hnewline : r.ending = .cut true
    · have hskip : objectsFrom [] (bodyText r (r' :: rest))
          = objectsFrom r.text (bodyText r' rest) := by
        rw [bodyText_cons, Run.objectsFrom_newline hnewline, objectsFrom_marker]
        rfl
      rw [hskip]
      rcases objectsFrom_stuck (stuck_newline hnewline) hmarked' with hnil | hnone
      · exact Or.inr ⟨[], hnil, entryCount_pos (by rw [hnewline]; decide) (r' :: rest)⟩
      · exact Or.inl hnone
    · rw [objectsFrom_cons hmarked hnewline]
      rcases ih hmarked' fun hrest => h ⟨hnewline, hrest⟩ with ⟨t, ht, hnone⟩ | ⟨rs, hrs, hlt⟩
      · exact Or.inl ⟨t, List.mem_cons_of_mem _ ht, hnone⟩
      · refine Or.inr ⟨r :: rs, by rw [hrs]; rfl, ?_⟩
        rw [entryCount_cons r rs, entryCount_cons r (r' :: rest)]
        omega

/-! ### Whole files -/

namespace ResultFile
variable (file : ResultFile)

/-- The JSON texts that are made of a file. -/
def objects : List (List Char) := objectsFrom [] file.text

theorem objects_eq : file.objects = objectsFrom [] (bodyText file.first file.others) := by
  have htext : file.text = file.first.markerText ++ bodyText file.first file.others := by
    simp [text, runs, bodyText]
  rw [objects, htext, objectsFrom_marker]

/-- The last run is complete, and the newline is missing where another run was cut. -/
def Recoverable : Prop := Scripts.Recoverable file.first file.others

theorem three_le_length_readlines : 3 ≤ (readlines file.text).length := by
  have hbody : ∀ s, 3 ≤ (readlines (file.first.text ++ s)).length := by
    intro s
    obtain ⟨t, ht⟩ : ∃ t, file.first.text ++ s = ['{'] ++ '\n' ::
        (spaces 2 ++ (quoted "context".toList ++ (file.first.context.text ++ [',', '\n'])) ++
          (spaces 2 ++ t)) := by
      simp [Run.text, Run.front]
    have hcontext : readlines (spaces 2 ++ (quoted "context".toList ++
        (file.first.context.text ++ [',', '\n']))) ≠ [] := readlines_ne_nil (List.cons_ne_nil _ _)
    have hrest : readlines (spaces 2 ++ t) ≠ [] := readlines_ne_nil (List.cons_ne_nil _ _)
    have hlen := List.length_pos_iff.mpr hcontext
    have hlen' := List.length_pos_iff.mpr hrest
    rw [ht, readlines_line (by decide), readlines_append file.first.context.quiet.ends,
      List.length_cons, List.length_append]
    omega
  have htext : file.text = file.first.markerText ++
      (file.first.text ++ file.others.flatMap fun r => r.markerText ++ r.text) := by
    simp [text, runs]
  rw [htext, Run.markerText]
  cases hmarker : file.first.marker with
  | none => exact hbody _
  | some info =>
    have hends : ∃ s, startHere ++ (info ++ ['\n']) = s ++ ['\n'] :=
      ⟨startHere ++ info, (List.append_assoc _ _ _).symm⟩
    simp only
    rw [readlines_append hends, List.length_append]
    exact (hbody _).trans (Nat.le_add_left _ _)

end ResultFile

theorem checkLast_ok {lines : List (List Char)} (h : 3 ≤ lines.length) (current_string : List Char) :
    ∃ s, checkLast lines current_string = .ok s := by
  have hlines : ∀ i, i < 3 → ∃ line, lines.reverse[i]? = some line := by
    intro i hi
    have hlt : i < lines.reverse.length := by rw [List.length_reverse]; omega
    exact ⟨_, List.getElem?_eq_getElem hlt⟩
  obtain ⟨line, hline⟩ := hlines 0 (by decide)
  obtain ⟨line', hline'⟩ := hlines 1 (by decide)
  obtain ⟨line'', hline''⟩ := hlines 2 (by decide)
  have hone : fromEnd lines 1 = .ok line := by rw [fromEnd, Nat.sub_self, hline]
  have htwo : fromEnd lines 2 = .ok line' := by
    rw [fromEnd, Nat.add_sub_cancel (n := 1) (m := 1), hline']
  have hthree : fromEnd lines 3 = .ok line'' := by
    rw [fromEnd, Nat.add_sub_cancel (n := 2) (m := 1), hline'']
  simp only [checkLast, hone, htwo, hthree, bind, Except.bind, pure, Except.pure]
  split_ifs
  · exact ⟨_, rfl⟩
  · exact ⟨_, rfl⟩
  · exact ⟨_, rfl⟩
  · exact ⟨_, rfl⟩

theorem splitFile_eq (file : ResultFile) (json_objects : List (List Char)) :
    splitFile json_objects file.text = .ok (json_objects ++ file.objects) := by
  have hlen : 3 ≤ ((readlines file.text).map fixLine).length := by
    rw [List.length_map]
    exact file.three_le_length_readlines
  obtain ⟨s, hs⟩ := checkLast_ok hlen
    ((readlines file.text).foldl splitLine ⟨json_objects, []⟩).current_string
  simp only [splitFile, hs, bind, Except.bind, pure, Except.pure]
  rw [foldl_splitLine]
  rfl

theorem foldlM_splitFile (files : List ResultFile) (json_objects : List (List Char)) :
    (files.map ResultFile.text).foldlM splitFile json_objects
      = .ok (json_objects ++ files.flatMap ResultFile.objects) := by
  induction files generalizing json_objects with
  | nil => simp [pure, Except.pure]
  | cons file files ih =>
    rw [List.map_cons, List.foldlM_cons, splitFile_eq]
    simp only [bind, Except.bind]
    rw [ih, List.flatMap_cons, List.append_assoc]

/-! ### The merge loop -/

theorem member_benchmarks (v w : Json) : Json.member "benchmarks".toList
    [("context".toList, v), ("benchmarks".toList, w)] = some w := by
  rw [Json.member, List.reverse_cons, List.reverse_cons]
  exact List.lookup_cons_self

theorem member_context (v w : Json) : Json.member "context".toList
    [("context".toList, v), ("benchmarks".toList, w)] = some v := by
  simp [Json.member, List.lookup_cons]

theorem mergeObject_piece (m : Merged) (r : Run) : mergeObject m r.piece
    = .ok ⟨some r.json, m.benchmarks ++ r.entries.map ResultEntry.json⟩ := by
  rw [mergeObject, r.loads_piece]
  simp only [Run.json, getItem, member_benchmarks, iterate, bind, Except.bind, pure, Except.pure]

theorem foldlM_mergeObject (runs : List Run) (m : Merged) :
    (runs.map Run.piece).foldlM mergeObject m =
      .ok ⟨((runs.getLast?).map Run.json).or m.data,
        m.benchmarks ++ runs.flatMap fun r => r.entries.map ResultEntry.json⟩ := by
  induction runs generalizing m with
  | nil => simp [pure, Except.pure]
  | cons r runs ih =>
    rw [List.map_cons, List.foldlM_cons, mergeObject_piece]
    simp only [bind, Except.bind]
    rw [ih, List.flatMap_cons, List.append_assoc]
    cases hlast : runs.getLast? with
    | none =>
      have hnil : runs = [] := List.getLast?_eq_none_iff.mp hlast
      rw [hnil]
      rfl
    | some r' =>
      rw [List.getLast?_cons, hlast]
      rfl

/-- A text that is no JSON stops the merge. -/
theorem loads_of_foldlM {json_objects : List (List Char)} {m m' : Merged}
    (h : json_objects.foldlM mergeObject m = .ok m') : ∀ t ∈ json_objects, loads t ≠ none := by
  induction json_objects generalizing m with
  | nil => exact fun t ht => absurd ht List.not_mem_nil
  | cons json_object json_objects ih =>
    rw [List.foldlM_cons] at h
    intro t ht hnone
    cases hstep : mergeObject m json_object with
    | error e =>
      rw [hstep] at h
      cases h
    | ok m'' =>
      rw [hstep] at h
      rcases List.mem_cons.mp ht with rfl | ht
      · rw [mergeObject, hnone] at hstep
        cases hstep
      · exact ih h t ht hnone

/-! ### All files -/

/-- All entries of a file. -/
def ResultFile.entries (file : ResultFile) : List Json :=
  file.runs.flatMap fun r => r.entries.map ResultEntry.json

/-- The script ends without an exception, and every entry of every file is in the merged list. -/
def Keeps (files : String → ResultFile) : Prop :=
  ∃ context benchmarks, mergeOutput (fun name => (files name).text) = .ok (context, benchmarks) ∧
    (targets.flatMap fun name => (files name).entries).Sublist benchmarks

theorem foldlM_splitFile_targets (files : String → ResultFile) :
    (targets.map fun name => (files name).text).foldlM splitFile []
      = .ok (targets.flatMap fun name => (files name).objects) := by
  have hsplit := foldlM_splitFile (targets.map files) []
  rw [List.map_map, List.nil_append, List.flatMap_map] at hsplit
  exact hsplit

/-- The texts of the files that are made of runs, and what the merge makes of them. -/
theorem mergeOutput_eq {files : String → ResultFile} {runs : String → List Run}
    (h : ∀ name ∈ targets, (files name).objects = (runs name).map Run.piece) :
    mergeOutput (fun name => (files name).text) =
      match ((targets.flatMap runs).getLast?).map Run.json with
      | none => .error .nameError
      | some data => (getItem "context".toList data).map fun context =>
          (context, (targets.flatMap runs).flatMap fun r => r.entries.map ResultEntry.json) := by
  have hobjects : (targets.flatMap fun name => (files name).objects)
      = (targets.flatMap runs).map Run.piece := by
    rw [List.map_flatMap]
    exact List.flatMap_congr h
  rw [mergeOutput, foldlM_splitFile_targets, hobjects]
  simp only [bind, Except.bind]
  rw [foldlM_mergeObject]
  cases (targets.flatMap runs).getLast? with
  | none => rfl
  | some r => rfl

theorem loads_of_mergeOutput {files : String → ResultFile} {merged : Json × List Json}
    (h : mergeOutput (fun name => (files name).text) = .ok merged) {name : String}
    (hname : name ∈ targets) : ∀ t ∈ (files name).objects, loads t ≠ none := by
  rw [mergeOutput, foldlM_splitFile_targets] at h
  simp only [bind, Except.bind] at h
  cases hfold : (targets.flatMap fun name => (files name).objects).foldlM mergeObject ⟨none, []⟩ with
  | error e =>
    rw [hfold] at h
    cases h
  | ok m =>
    intro t ht
    exact loads_of_foldlM hfold t (List.mem_flatMap.mpr ⟨name, hname, ht⟩)

/-- A file of which no text is refused becomes texts of some of its runs. -/
theorem ResultFile.exists_runs (file : ResultFile) (h : ∀ t ∈ file.objects, loads t ≠ none) :
    ∃ rs : List Run, file.objects = rs.map Run.piece ∧ entryCount rs ≤ entryCount file.runs ∧
      (¬ file.Recoverable → entryCount rs < entryCount file.runs) := by
  rw [file.objects_eq] at h ⊢
  by_cases hrecoverable : file.Recoverable
  · exact ⟨file.runs, objectsFrom_recoverable file.marked hrecoverable, le_rfl,
      fun hnot => absurd hrecoverable hnot⟩
  · rcases objectsFrom_not_recoverable file.marked hrecoverable with ⟨t, ht, hnone⟩ | ⟨rs, hrs, hlt⟩
    · exact absurd hnone (h t ht)
    · exact ⟨rs, hrs, hlt.le, fun _ => hlt⟩

theorem length_flatMap_entries (names : List String) (runs : String → List Run) :
    (names.flatMap fun name => (runs name).flatMap fun r => r.entries.map ResultEntry.json).length
      = (names.map fun name => entryCount (runs name)).sum := by
  simp [entryCount, List.length_flatMap]

/-- A merged list that has as many entries comes from files that can be recovered. -/
theorem recoverable_of_keeps {files : String → ResultFile} (h : Keeps files) {name : String}
    (hname : name ∈ targets) : (files name).Recoverable := by
  obtain ⟨context, benchmarks, hmerge, hsublist⟩ := h
  have hruns : ∀ name, ∃ rs : List Run, name ∈ targets →
      (files name).objects = rs.map Run.piece ∧ entryCount rs ≤ entryCount (files name).runs ∧
        (¬ (files name).Recoverable → entryCount rs < entryCount (files name).runs) := by
    intro name
    by_cases hname : name ∈ targets
    · obtain ⟨rs, hrs⟩ := (files name).exists_runs (loads_of_mergeOutput hmerge hname)
      exact ⟨rs, fun _ => hrs⟩
    · exact ⟨[], fun hmem => absurd hmem hname⟩
  choose runs hruns using hruns
  rw [mergeOutput_eq fun name hname => (hruns name hname).1] at hmerge
  have hlen := hsublist.length_le
  have hall : (targets.flatMap fun name => (files name).entries).length
      = (targets.map fun name => entryCount (files name).runs).sum :=
    length_flatMap_entries targets fun name => (files name).runs
  by_contra hnot
  have hlt := List.sum_lt_sum (l := targets) (fun name => entryCount (runs name))
    (fun name => entryCount (files name).runs) (fun name hname => (hruns name hname).2.1)
    ⟨name, hname, (hruns name hname).2.2 hnot⟩
  cases hlast : (targets.flatMap runs).getLast? with
  | none =>
    rw [hlast] at hmerge
    cases hmerge
  | some r =>
    rw [hlast] at hmerge
    simp only [Option.map_some, Run.json, getItem, member_context, Except.map, Except.ok.injEq,
      Prod.mk.injEq] at hmerge
    rw [← hmerge.2, List.flatMap_assoc, length_flatMap_entries, hall] at hlen
    omega

/-- `"name": "a"`. -/
def sampleField : Field where
  name := "name".toList
  text := '"' :: (['a'] ++ ['"'])
  json := .str ['a']
  plain := plain_of_all (by decide)
  oneLine := by decide
  reads := Reads.str (plain_of_all (by decide))

/-- `{"date": "b"}`. -/
def sampleContext : Context where
  text := '{' :: (spaces 0 ++ ('"' :: ("date".toList ++ '"' :: ':' ::
    (spaces 1 ++ ('"' :: (['b'] ++ ['"']) ++ (spaces 0 ++ ['}']))))))
  json := .obj [("date".toList, .str ['b'])]
  reads := ((Reads.str (plain_of_all (by decide))).lastMember (plain_of_all (by decide)) (ws_spaces 1)
    (ws_spaces 0)).obj (ws_spaces 0)
  quiet := quiet_line (l := spaces 2 ++ (quoted "context".toList ++
    "\x7b\"date\": \"b\"\x7d,".toList)) (by decide) (by decide)

/-- A run with one entry. -/
def sampleRun (ending : Ending) : Run where
  marker := some [' ', '1']
  context := sampleContext
  entries := [⟨sampleField, []⟩]
  ending := ending
  markerLine := by rintro info ⟨⟩; decide
  cutAfterEntry := fun _ => List.cons_ne_nil _ _

/-- A run that is complete and one that was cut at the end of the file: the second one is lost, from
    each of the seven files. -/
theorem merge_output_loses_cut_last_run :
    let file : ResultFile := ⟨sampleRun .complete, [sampleRun (.cut false)],
      List.isChain_cons_cons.mpr ⟨fun _ => rfl, .singleton _⟩⟩
    (mergeOutput fun _ => file.text).map (fun merged => merged.2.length) = .ok 7 ∧
      (targets.flatMap fun _ => file.entries).length = 14 ∧ ¬ Keeps fun _ => file := by
  intro file
  refine ⟨by decide +kernel, by decide +kernel, fun h => ?_⟩
  have hlast : (sampleRun (.cut false)).ending = .complete :=
    (recoverable_of_keeps h (List.mem_cons_self)).2
  cases hlast

/-- CORRECT: the script ends without an exception and keeps every entry exactly if in each file the
    last run is complete, and no other one was cut behind the newline of an entry. -/
theorem merge_output_keeps_iff (files : String → ResultFile) :
    Keeps files ↔ ∀ name ∈ targets, (files name).Recoverable := by
  constructor
  · exact fun h name hname => recoverable_of_keeps h hname
  · intro h
    have hobjects : ∀ name ∈ targets, (files name).objects = (files name).runs.map Run.piece := by
      intro name hname
      rw [ResultFile.objects_eq]
      exact objectsFrom_recoverable (files name).marked (h name hname)
    have hmerge := mergeOutput_eq hobjects
    have hne : (targets.flatMap fun name => (files name).runs) ≠ [] := by
      rw [targets, List.flatMap_cons]
      exact List.append_ne_nil_of_left_ne_nil (List.cons_ne_nil _ _) _
    rw [List.getLast?_eq_some_getLast hne] at hmerge
    simp only [Option.map_some, Run.json, getItem, member_context, Except.map] at hmerge
    refine ⟨_, _, hmerge, ?_⟩
    rw [List.flatMap_assoc]
    exact List.Sublist.refl _

end Scripts
end HashingBenchmark
