import HashingBenchmark.Lib.Json
import HashingBenchmark.Lib.TextLines

/-! `merge_output.py`: the temporary result files, taken apart into JSON texts, and the benchmarks of
    these texts in one list.

    A file is its content. The loop over its lines collects them in `current_string` and makes what is
    collected a JSON text at certain lines; lines that hold a marker are replaced first. -/

namespace HashingBenchmark
namespace Scripts
open TextLines

/-- The exceptions of the script. -/
inductive PyError where
  | indexError
  | jsonDecodeError
  | keyError
  | nameError
  | typeError
  deriving DecidableEq

/-- `targets`. -/
def targets : List String :=
  ["learned_linear", "traditional_linear", "perfect_linear", "traditional_chained",
    "perfect_chained", "learned_cuckoo", "traditional_cuckoo"]

/-- `"Start Here"`. -/
def startHere : List Char := ['S', 't', 'a', 'r', 't', ' ', 'H', 'e', 'r', 'e']

/-- `"}\n"`. -/
def closing : List Char := ['}', '\n']

/-- `"}\n]\n}\n"`. -/
def repaired : List Char := ['}', '\n', ']', '\n', '}', '\n']

/-- What becomes of `lines[i]`. -/
def fixLine (line : List Char) : List Char :=
  let line := if ('}' :: startHere).isPrefixOf (strip line) then repaired else line
  if startHere.isPrefixOf (strip line) then [] else line

/-- The variables of the loop over the lines. -/
structure Splitter where
  json_objects : List (List Char)
  current_string : List Char
  deriving DecidableEq

/-- The body of the loop over the lines. -/
def splitLine (s : Splitter) (line : List Char) : Splitter :=
  let current_string := s.current_string ++ fixLine line
  if fixLine line = closing ∨ fixLine line = repaired then
    ⟨s.json_objects ++ [current_string], []⟩
  else ⟨s.json_objects, current_string⟩

/-- `lines[-i]`. -/
def fromEnd (lines : List (List Char)) (i : ℕ) : Except PyError (List Char) :=
  match lines.reverse[i - 1]? with
  | none => .error .indexError
  | some line => .ok line

/-- The check of the last lines, and `current_string` after it. -/
def checkLast (lines : List (List Char)) (current_string : List Char) :
    Except PyError (List Char) := do
  let last ← fromEnd lines 1
  if last ≠ closing then return current_string ++ [']', '\n', '}', '\n']
  let last' ← fromEnd lines 2
  if lstrip last' ≠ [']', '\n'] then return current_string ++ [']', '\n', '}', '\n']
  let last'' ← fromEnd lines 3
  if lstrip last'' ≠ closing then return current_string ++ [']', '\n', '}', '\n']
  return current_string

/-- One temporary file. Nothing reads `current_string` after the check. -/
def splitFile (json_objects : List (List Char)) (text : List Char) :
    Except PyError (List (List Char)) := do
  let lines := readlines text
  let s := lines.foldl splitLine ⟨json_objects, []⟩
  let _current_string ← checkLast (lines.map fixLine) s.current_string
  return s.json_objects

/-- `data[name]`. -/
def getItem (name : List Char) (data : Json) : Except PyError Json :=
  match data with
  | .obj members =>
    match Json.member name members with
    | none => .error .keyError
    | some v => .ok v
  | _ => .error .typeError

/-- What `extend` takes from a value: elements, names, or characters. -/
def iterate : Json → Except PyError (List Json)
  | .arr elements => .ok elements
  | .obj members => .ok ((members.map Prod.fst).eraseDups.map .str)
  | .str text => .ok (text.map fun c => .str [c])
  | _ => .error .typeError

/-- The variables of the merge loop; `data` has no value at first. -/
structure Merged where
  data : Option Json
  benchmarks : List Json

/-- The body of the merge loop. -/
def mergeObject (m : Merged) (json_object : List Char) : Except PyError Merged :=
  match Json.loads json_object with
  | none => .error .jsonDecodeError
  | some data => do
    let benchmarks ← getItem "benchmarks".toList data
    let entries ← iterate benchmarks
    return ⟨some data, m.benchmarks ++ entries⟩

/-- `merged_data`: the context and the benchmarks. The file of a prefix has the content `tmp`. -/
def mergeOutput (tmp : String → List Char) : Except PyError (Json × List Json) := do
  let json_objects ← (targets.map tmp).foldlM splitFile []
  let m ← json_objects.foldlM mergeObject ⟨none, []⟩
  match m.data with
  | none => .error .nameError
  | some data => do
    let context ← getItem "context".toList data
    return (context, m.benchmarks)

end Scripts
end HashingBenchmark
