import HashingBenchmark.Scripts.MergeOutput

/-! The temporary result files: what the benchmark library writes, run after run.

    A run is a JSON document with a context and an array of entries, each member of an entry on a line
    of its own. A complete run has its closing lines. A run that was cut ends right after an entry,
    perhaps with the newline there; the next one then starts with a marker line. -/

namespace HashingBenchmark
namespace Scripts
open TextLines Json

def spaces (n : ℕ) : List Char := List.replicate n ' '

/-- `"name": `. -/
def quoted (name : List Char) : List Char := '"' :: (name ++ ['"', ':', ' '])

/-- A line, or some lines, that the loop over the lines keeps and goes on after. -/
structure Quiet (text : List Char) : Prop where
  ends : ∃ s, text = s ++ ['\n']
  kept : ∀ line ∈ readlines text, fixLine line = line ∧ line ≠ closing ∧ line ≠ repaired

/-- A member of an entry: its name, and its value on one line. -/
structure Field where
  name : List Char
  text : List Char
  json : Json
  plain : Plain name
  oneLine : '\n' ∉ text
  reads : Reads text (some json)

/-- A benchmark entry. -/
structure ResultEntry where
  first : Field
  others : List Field

/-- The context of a run. -/
structure Context where
  text : List Char
  json : Json
  reads : Reads text (some json)
  quiet : Quiet (spaces 2 ++ (quoted "context".toList ++ (text ++ [',', '\n'])))

/-- How a run ends. -/
inductive Ending where
  | complete
  | cut (newline : Bool)
  deriving DecidableEq

/-- A run, and the rest of the marker line in front of it, if there is one. -/
structure Run where
  marker : Option (List Char)
  context : Context
  entries : List ResultEntry
  ending : Ending
  markerLine : ∀ info, marker = some info → '\n' ∉ info
  cutAfterEntry : ending ≠ .complete → entries ≠ []

/-! ### The text -/

def Field.line (f : Field) : List Char := spaces 6 ++ (quoted f.name ++ f.text)

def fieldsText : Field → List Field → List Char
  | f, [] => f.line ++ ['\n']
  | f, f' :: fs => f.line ++ ([',', '\n'] ++ fieldsText f' fs)

/-- An entry without its closing brace. -/
def ResultEntry.text (e : ResultEntry) : List Char :=
  spaces 4 ++ (['{', '\n'] ++ fieldsText e.first e.others)

/-- Entries without the closing brace of the last one. -/
def entriesText : ResultEntry → List ResultEntry → List Char
  | e, [] => e.text
  | e, e' :: es => e.text ++ (spaces 4 ++ (['}', ',', '\n'] ++ entriesText e' es))

/-- The entries of a run without the closing brace of the last one. -/
def Run.entriesText (r : Run) : List Char :=
  match r.entries with
  | [] => []
  | e :: es => Scripts.entriesText e es

/-- A run up to the closing brace of its last entry. -/
def Run.front (r : Run) : List Char :=
  ['{', '\n'] ++ ((spaces 2 ++ (quoted "context".toList ++ (r.context.text ++ [',', '\n']))) ++
    ((spaces 2 ++ (quoted "benchmarks".toList ++ ['[', '\n'])) ++ r.entriesText))

/-- The closing brace of the last entry. -/
def Run.lastBrace (r : Run) : List Char :=
  match r.entries with
  | [] => []
  | _ :: _ => spaces 4 ++ ['}']

def Ending.text : Ending → List Char
  | .complete => ['\n'] ++ ((spaces 2 ++ [']', '\n']) ++ closing)
  | .cut newline => if newline then ['\n'] else []

def Run.text (r : Run) : List Char := r.front ++ (r.lastBrace ++ r.ending.text)

def Run.markerText (r : Run) : List Char :=
  match r.marker with
  | none => []
  | some info => startHere ++ (info ++ ['\n'])

/-- A temporary file: one or more runs, each with a marker line if the one before it was cut. -/
structure ResultFile where
  first : Run
  others : List Run
  marked : (first :: others).IsChain fun r r' => r.ending ≠ .complete → r'.marker.isSome

def ResultFile.runs (file : ResultFile) : List Run := file.first :: file.others

def ResultFile.text (file : ResultFile) : List Char :=
  file.runs.flatMap fun r => r.markerText ++ r.text

/-! ### Its meaning -/

def Field.member (f : Field) : List Char × Json := (f.name, f.json)

def ResultEntry.json (e : ResultEntry) : Json := .obj ((e.first :: e.others).map Field.member)

/-- The document that a run is or, if it was cut, would be with closing lines. -/
def Run.json (r : Run) : Json :=
  .obj [("context".toList, r.context.json),
    ("benchmarks".toList, .arr (r.entries.map ResultEntry.json))]

theorem ws_spaces (n : ℕ) : Ws (spaces n) := by
  intro c hc
  rw [List.eq_of_mem_replicate hc]
  rfl

theorem ws_newline {w : List Char} (hw : Ws w) : Ws ('\n' :: w) := by
  intro c hc
  rcases List.mem_cons.mp hc with rfl | hc
  · rfl
  · exact hw c hc

theorem fieldsText_reads (f : Field) (fs : List Field) {w : List Char} (hw : Ws w) :
    ∃ u, fieldsText f fs ++ (w ++ ['}']) = spaces 6 ++ u ∧
      ReadsMembers u (some ((f :: fs).map Field.member)) := by
  induction fs generalizing f with
  | nil =>
    refine ⟨_, ?_, f.reads.lastMember f.plain (ws_spaces 1) (ws_newline hw)⟩
    simp [fieldsText, Field.line, quoted, spaces]
  | cons f' fs ih =>
    obtain ⟨u, hu, hreads⟩ := ih f'
    refine ⟨_, ?_, f.reads.consMember f.plain (ws_spaces 1) (ws_newline (ws_spaces 6)) hreads⟩
    rw [fieldsText, List.append_assoc, List.append_assoc, hu]
    simp [Field.line, quoted, spaces]

theorem ResultEntry.text_reads (e : ResultEntry) {w : List Char} (hw : Ws w) :
    ∃ t, e.text ++ (w ++ ['}']) = spaces 4 ++ t ∧ Reads t (some e.json) := by
  obtain ⟨u, hu, hreads⟩ := fieldsText_reads e.first e.others hw
  refine ⟨_, ?_, hreads.obj (ws_newline (ws_spaces 6))⟩
  rw [ResultEntry.text, List.append_assoc, List.append_assoc, hu]
  simp

/-- The entries, with a closing bracket or something else behind the last one. -/
theorem entriesText_reads (e : ResultEntry) (es : List ResultEntry) {w : List Char} (hw : Ws w)
    (tail : List Char) (o : Option (List Json))
    (hlast : ∀ t v, Reads t (some v) → ReadsElements (t ++ tail) (o.map (v :: ·))) :
    ∃ u, entriesText e es ++ (w ++ '}' :: tail) = spaces 4 ++ u ∧
      ReadsElements u (o.map ((e :: es).map ResultEntry.json ++ ·)) := by
  induction es generalizing e with
  | nil =>
    obtain ⟨t, ht, hreads⟩ := e.text_reads hw
    refine ⟨t ++ tail, ?_, hlast t e.json hreads⟩
    calc entriesText e [] ++ (w ++ '}' :: tail)
        = (e.text ++ (w ++ ['}'])) ++ tail := by simp [entriesText]
      _ = spaces 4 ++ (t ++ tail) := by rw [ht, List.append_assoc]
  | cons e' es ih =>
    obtain ⟨t, ht, hreads⟩ := e.text_reads (ws_spaces 4)
    obtain ⟨u, hu, hrest⟩ := ih e'
    refine ⟨t ++ ',' :: (('\n' :: spaces 4) ++ u), ?_, ?_⟩
    · calc entriesText e (e' :: es) ++ (w ++ '}' :: tail)
          = (e.text ++ (spaces 4 ++ ['}'])) ++
              (',' :: '\n' :: (entriesText e' es ++ (w ++ '}' :: tail))) := by simp [entriesText]
        _ = spaces 4 ++ (t ++ ',' :: (('\n' :: spaces 4) ++ u)) := by rw [ht, hu]; simp
    · have hcons := hreads.cons (ws_newline (ws_spaces 4)) hrest
      rw [Option.map_map] at hcons
      exact hcons

theorem plain_context : Plain "context".toList := plain_of_all (by decide)

theorem plain_benchmarks : Plain "benchmarks".toList := plain_of_all (by decide)

/-- The members of a document: its context, and its benchmarks. -/
theorem Context.document_reads (c : Context) {u : List Char}
    {ms : Option (List (List Char × Json))} (h : ReadsMembers u ms) :
    Reads (['{', '\n'] ++ ((spaces 2 ++ (quoted "context".toList ++ (c.text ++ [',', '\n']))) ++
      (spaces 2 ++ u))) (ms.map fun ms => .obj (("context".toList, c.json) :: ms)) := by
  have hobj := (c.reads.consMember plain_context (ws_spaces 1) (ws_newline (ws_spaces 2)) h).obj
    (ws_newline (ws_spaces 2))
  rw [Option.map_map] at hobj
  have hshape : ['{', '\n'] ++ ((spaces 2 ++ (quoted "context".toList ++ (c.text ++ [',', '\n']))) ++
      (spaces 2 ++ u)) = '{' :: (('\n' :: spaces 2) ++ '"' :: ("context".toList ++ '"' :: ':' ::
        (spaces 1 ++ (c.text ++ ',' :: (('\n' :: spaces 2) ++ u))))) := by
    simp [quoted, spaces]
  rw [hshape]
  exact hobj

namespace Run
variable {r : Run} {e : ResultEntry} {es : List ResultEntry}

/-- A run whose array of benchmarks is read, or refused. -/
theorem front_reads (r : Run) {s t : List Char} {ms : Option (List (List Char × Json))}
    (ht : '\n' :: (r.entriesText ++ s) = t)
    (h : ReadsMembers ('"' :: ("benchmarks".toList ++ '"' :: ':' :: (spaces 1 ++ '[' :: t))) ms) :
    Reads (r.front ++ s) (ms.map fun ms => .obj (("context".toList, r.context.json) :: ms)) := by
  have hdoc := r.context.document_reads h
  have hshape : r.front ++ s = ['{', '\n'] ++ ((spaces 2 ++ (quoted "context".toList ++
      (r.context.text ++ [',', '\n']))) ++ (spaces 2 ++ '"' :: ("benchmarks".toList ++ '"' :: ':' ::
        (spaces 1 ++ '[' :: t)))) := by
    rw [← ht]
    simp [front, quoted, spaces]
  rw [hshape]
  exact hdoc

/-- A closed run is its document. -/
theorem reads (hr : r.entries = e :: es) {w w' w'' : List Char} (hw : Ws w) (hw' : Ws w')
    (hw'' : Ws w'') :
    Reads (r.front ++ (w ++ '}' :: (w' ++ ']' :: (w'' ++ ['}'])))) (some r.json) := by
  obtain ⟨u, hu, hreads⟩ := Scripts.entriesText_reads e es hw (w' ++ [']']) (some [])
    fun t v h => h.last hw'
  have hmembers := (hreads.arr (ws_newline (ws_spaces 4))).lastMember plain_benchmarks (ws_spaces 1)
    hw''
  have hentries : '\n' :: (r.entriesText ++ (w ++ '}' :: (w' ++ ']' :: (w'' ++ ['}']))))
      = (('\n' :: spaces 4) ++ u) ++ (w'' ++ ['}']) := by
    rw [List.cons_append, List.cons_append, ← hu, entriesText, hr]
    simp
  have hdoc := r.front_reads hentries hmembers
  simp only [Option.map_some, List.append_nil, ← hr] at hdoc
  exact hdoc

theorem reads_nil (hr : r.entries = []) {w w' : List Char} (hw : Ws w) (hw' : Ws w') :
    Reads (r.front ++ (w ++ ']' :: (w' ++ ['}']))) (some r.json) := by
  have hmembers := (Reads.emptyArr (ws_newline hw)).lastMember plain_benchmarks (ws_spaces 1) hw'
  have hentries : '\n' :: (r.entriesText ++ (w ++ ']' :: (w' ++ ['}'])))
      = (('\n' :: w) ++ [']']) ++ (w' ++ ['}']) := by
    rw [entriesText, hr]
    simp
  have hdoc := r.front_reads hentries hmembers
  rw [json, hr]
  exact hdoc

/-- A run that was cut and goes on with another document is none. -/
theorem refused (hr : r.entries = e :: es) {w w' : List Char} (hw : Ws w) (hw' : Ws w')
    (hne : w' ≠ []) : Reads (r.front ++ (w ++ '}' :: (w' ++ ['{']))) none := by
  obtain ⟨u, hu, hreads⟩ := Scripts.entriesText_reads e es hw (w' ++ ['{']) none
    fun t v h => h.noElement hw' hne rfl (by decide) (by decide)
  have hmembers := (hreads.arr (ws_newline (ws_spaces 4))).noMember plain_benchmarks (ws_spaces 1)
  have hentries : '\n' :: (r.entriesText ++ (w ++ '}' :: (w' ++ ['{'])))
      = ('\n' :: spaces 4) ++ u := by
    rw [List.cons_append, ← hu, entriesText, hr]
  exact r.front_reads hentries hmembers

end Run
end Scripts
end HashingBenchmark
