import HashingBenchmark.Join.Runner
import HashingBenchmark.Lib.Stdio

/-! Persisting and loading a relation, `io.h`, for keys and payloads that are `uint32_t`.

    Both directions cut the relation into one partition per thread, `num_tuples / nthreads` long but
    for the last, and every thread has a file of its own: a header line and a line for each tuple.
    The threads share no file and no tuple, so a run is the threads' calls in the order in which
    they get through, any order of the partitions.

    A loop that has not ended after `fuel` rounds ends the call with `diverges`, and `fgetc` on the
    null pointer of a file that does not exist with `outOfBounds`. -/

namespace HashingBenchmark
namespace Join
open Stdio

/-- A directory: the text of every file in it. -/
abbrev Files := String → Option (List Char)

/-- The arguments that the file names are made from. -/
structure Path where
  folder_path : String
  filename : String
  file_extension : String

/-- `write_read_arg_t`; `rel` is a part of the relation. -/
structure WriteReadArg where
  thread_id : ℕ
  rel : Slice

/-- `full_filename`. -/
def Path.full_filename (path : Path) (thread_id : ℕ) : String :=
  path.folder_path ++ path.filename ++ "_" ++ Nat.repr thread_id ++ path.file_extension

/-- The loop that sets up the threads that are left. -/
def writeReadArgsLoop (nthreads ntuples_perthr ntuples_lastthr : ℕ) :
    ℕ → ℕ → ℕ → List WriteReadArg
  | 0, _, _ => []
  | threads + 1, i, offset =>
    ⟨i, ⟨offset, if i = nthreads - 1 then ntuples_lastthr else ntuples_perthr⟩⟩ ::
      writeReadArgsLoop nthreads ntuples_perthr ntuples_lastthr threads (i + 1)
        (offset + ntuples_perthr)

/-- `args` of `write_relation_threaded` and of `read_relation_threaded`. -/
def writeReadArgs (nthreads num_tuples : ℕ) : List WriteReadArg :=
  let ntuples_perthr := num_tuples / nthreads
  let ntuples_lastthr := num_tuples - ntuples_perthr * (nthreads - 1)
  writeReadArgsLoop nthreads ntuples_perthr ntuples_lastthr nthreads 0 0

/-! ### Writing -/

def header : List Char := "#KEY, VAL\n".toList

/-- `fprintf(fp, "%u %u\n", key, payload)`. -/
def printTuple (t : Tuple) : List Char :=
  printUnsigned t.key ++ ' ' :: printUnsigned t.payload ++ ['\n']

/-- The loop of `write_relation`, from position `i` of the whole relation. -/
def writeLoop (tuples : List Tuple) : ℕ → ℕ → List Char → Except Fault (List Char)
  | 0, _, text => .ok text
  | remaining + 1, i, text =>
    match tuples[i]? with
    | none => .error .outOfBounds
    | some t => writeLoop tuples remaining (i + 1) (text ++ printTuple t)

/-- `write_relation`: the text of the file. -/
def writeRelation (tuples : List Tuple) (rel : Slice) : Except Fault (List Char) :=
  writeLoop tuples rel.num_tuples rel.offset header

/-- `write_relation_thread`. -/
def writeRelationThread (path : Path) (tuples : List Tuple) (arg : WriteReadArg) (files : Files) :
    Outcome Fault Files :=
  match writeRelation tuples arg.rel with
  | .ok text => .returned (Function.update files (path.full_filename arg.thread_id) (some text))
  | .error fault => .threw fault files

/-- `write_relation_threaded`; the threads of `writeReadArgs` get through in the order `schedule`. -/
def writeRelationThreaded (path : Path) (tuples : List Tuple) (schedule : List WriteReadArg)
    (files : Files) : Outcome Fault Files :=
  Outcome.runAll (writeRelationThread path tuples) schedule files

/-! ### Reading -/

/-- Skip the header line. -/
def skipLine (fuel : ℕ) (fp : File) : Option File :=
  (readUntil (· = '\n') fuel fp).map Prod.snd

/-- Search for a white space in the line: the value of `fmtspace`. -/
def findSpace (fuel : ℕ) (fp : File) : Option Bool :=
  (readUntil (fun c => c = ' ' ∨ c = '\n') fuel fp).map fun r => r.1 = ' '

/-- `fscanf(fp, "%u %u\n", &key, &payload)`: the first conversion that fails ends the scan, and its
    variable keeps its value. -/
def scanTuple (key payload : UInt32) (s : List Char) : UInt32 × UInt32 × List Char :=
  match scanUnsigned s with
  | (none, s) => (key, payload, s)
  | (some key, s) =>
    match scanUnsigned (skipSpace s) with
    | (none, s) => (key, payload, s)
    | (some payload, s) => (key, payload, skipSpace s)

/-- The loop of `read_relation`, into position `i` of the whole relation. -/
def readLoop : ℕ → ℕ → UInt32 → UInt32 → List Char → List Tuple → Outcome Fault (List Tuple)
  | 0, _, _, _, _, tuples => .returned tuples
  | remaining + 1, i, key, payload, s, tuples =>
    let (key, payload, s) := scanTuple key payload s
    if i < tuples.length then
      readLoop remaining (i + 1) key payload s (tuples.set i ⟨key, payload⟩)
    else .threw .outOfBounds tuples

/-- `read_relation` of a file with this text; `key` is not initialised. A file in another format
    leaves the relation as it is. -/
def readRelation (fuel : ℕ) (key : UInt32) (text : List Char) (rel : Slice) (tuples : List Tuple) :
    Outcome Fault (List Tuple) :=
  match skipLine fuel (fopen text) with
  | none => .threw .diverges tuples
  | some fp =>
    match findSpace fuel fp with
    | none => .threw .diverges tuples
    | some fmtspace =>
      match skipLine fuel fp.rewind with
      | none => .threw .diverges tuples
      | some fp =>
        if fmtspace then readLoop rel.num_tuples rel.offset key 0 fp.rest tuples
        else .returned tuples

/-- `read_relation_thread`. -/
def readRelationThread (fuel : ℕ) (key : UInt32) (path : Path) (files : Files)
    (arg : WriteReadArg) (tuples : List Tuple) : Outcome Fault (List Tuple) :=
  match files (path.full_filename arg.thread_id) with
  | none => .threw .outOfBounds tuples
  | some text => readRelation fuel key text arg.rel tuples

/-- `read_relation_threaded`; the threads of `writeReadArgs` get through in the order `schedule`. -/
def readRelationThreaded (fuel : ℕ) (key : UInt32) (path : Path) (files : Files)
    (schedule : List WriteReadArg) (tuples : List Tuple) : Outcome Fault (List Tuple) :=
  Outcome.runAll (readRelationThread fuel key path files) schedule tuples

/-- `load_relation_threaded` into tuples from `alloc_aligned`; `none` is the return value -1. -/
def loadRelationThreaded (fuel : ℕ) (alloc_aligned : ℕ → Option (List Tuple)) (key : UInt32)
    (path : Path) (files : Files) (schedule : List WriteReadArg) (num_tuples : ℕ) :
    Except Fault (Option (List Tuple)) :=
  match alloc_aligned num_tuples with
  | none => .ok none
  | some tuples =>
    match readRelationThreaded fuel key path files schedule tuples with
    | .returned tuples => .ok (some tuples)
    | .threw fault _ => .error fault

end Join
end HashingBenchmark
