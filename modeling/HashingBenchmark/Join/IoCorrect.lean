import HashingBenchmark.Join.Correct
import HashingBenchmark.Join.Io

/-! Which relations come back from their files.

    The text of a partition is the header and the lines of its tuples (`writeRelation_eq`). Reading
    puts these tuples back (`readRelation_partition`), except where the partition holds none: behind
    the header nothing is left, and the search for a white space does not end
    (`readRelation_header`). All partitions hold a tuple exactly if there are as many tuples as
    partitions (`num_tuples_pos_iff`). -/

namespace HashingBenchmark
namespace Join
open Stdio

/-! ### One partition -/

/-- The text of the file of a partition. -/
def partitionText (l : List Tuple) : List Char := header ++ l.flatMap printTuple

/-- The tuples `t` have those of `tuples` in the slice `rel`. -/
def Agrees (tuples : List Tuple) (rel : Slice) (t : List Tuple) : Prop :=
  ∀ j, rel.offset ≤ j → j < rel.offset + rel.num_tuples → t[j]? = tuples[j]?

theorem writeLoop_eq {tuples : List Tuple} {remaining i : ℕ} {text : List Char}
    (hfits : i + remaining ≤ tuples.length) :
    writeLoop tuples remaining i text
      = .ok (text ++ ((tuples.drop i).take remaining).flatMap printTuple) := by
  induction remaining generalizing i text with
  | zero => simp [writeLoop]
  | succ remaining ih =>
    have hi : i < tuples.length := by omega
    rw [writeLoop, List.getElem?_eq_getElem hi]
    simp only
    rw [ih (by omega), List.drop_eq_getElem_cons hi, List.take_succ_cons, List.flatMap_cons,
      List.append_assoc]

theorem writeRelation_eq {tuples : List Tuple} {rel : Slice}
    (hfits : rel.offset + rel.num_tuples ≤ tuples.length) :
    writeRelation tuples rel = .ok (partitionText (window tuples rel)) := writeLoop_eq hfits

/-- A line is read back, and the scan goes on to the next one. -/
theorem scanTuple_printTuple (t : Tuple) (l : List Tuple) (key payload : UInt32) :
    scanTuple key payload (printTuple t ++ l.flatMap printTuple)
      = (t.key, t.payload, l.flatMap printTuple) := by
  have hsplit : printTuple t ++ l.flatMap printTuple = printUnsigned t.key ++
      ' ' :: (printUnsigned t.payload ++ '\n' :: l.flatMap printTuple) := by simp [printTuple]
  have hnext : skipSpace (l.flatMap printTuple) = l.flatMap printTuple := by
    cases l with
    | nil => rfl
    | cons u l =>
      rw [List.flatMap_cons, printTuple, List.append_assoc, List.append_assoc,
        skipSpace_printUnsigned]
  have hspace : ∀ (x : UInt32) (rest : List Char),
      skipSpace (' ' :: (printUnsigned x ++ rest)) = printUnsigned x ++ rest := fun x rest => by
    rw [skipSpace, List.dropWhile_cons_of_pos (by decide)]
    exact skipSpace_printUnsigned x rest
  have hnewline : ∀ rest, skipSpace ('\n' :: rest) = skipSpace rest := fun rest => by
    rw [skipSpace, List.dropWhile_cons_of_pos (by decide), skipSpace]
  have hblank : ∀ rest : List Char, ∀ c ∈ (' ' :: rest).head?, c.isDigit = false := by
    rintro rest c ⟨⟩
    decide
  have hend : ∀ rest : List Char, ∀ c ∈ ('\n' :: rest).head?, c.isDigit = false := by
    rintro rest c ⟨⟩
    decide
  rw [hsplit, scanTuple, scanUnsigned_printUnsigned t.key (hblank _)]
  simp only
  rw [hspace, scanUnsigned_printUnsigned t.payload (hend _)]
  simp only
  rw [hnewline, hnext]

/-- Run lemma: the loop stores the tuples of the lines one after the other. -/
theorem readLoop_eq {l tuples : List Tuple} {i : ℕ} {key payload : UInt32}
    (hfits : i + l.length ≤ tuples.length) :
    readLoop l.length i key payload (l.flatMap printTuple) tuples
      = .returned (tuples.take i ++ l ++ tuples.drop (i + l.length)) := by
  induction l generalizing i key payload tuples with
  | nil => simp [readLoop]
  | cons t l ih =>
    have hi : i < tuples.length := by simp only [List.length_cons] at hfits; omega
    rw [List.length_cons] at hfits
    rw [List.length_cons, readLoop, List.flatMap_cons, scanTuple_printTuple]
    simp only [if_pos hi]
    rw [ih (by rw [List.length_set]; omega)]
    have htake : (tuples.set i t).take (i + 1) = tuples.take i ++ [t] := by
      rw [List.take_add_one, List.take_set_of_le (le_refl i), List.getElem?_set_self hi]
      rfl
    have hdrop : (tuples.set i t).drop (i + 1 + l.length) = tuples.drop (i + (l.length + 1)) := by
      rw [List.drop_set_of_lt (by omega)]
      congr 1
      omega
    rw [htake, hdrop]
    simp

theorem skipLine_header (fuel : ℕ) (text rest : List Char) :
    skipLine fuel ⟨text, header ++ rest⟩ = if 9 < fuel then some ⟨text, rest⟩ else none := by
  have hsplit : header = "#KEY, VAL".toList ++ ['\n'] := by decide
  have hpass : ∀ a ∈ "#KEY, VAL".toList, (a = '\n' : Bool) = false := by simp
  have hlength : "#KEY, VAL".toList.length = 9 := by decide
  rw [skipLine, hsplit, List.append_assoc, List.singleton_append,
    readUntil_append (by decide) hpass, hlength]
  split_ifs <;> rfl

/-- The search in the first line of a partition with tuples finds the white space. -/
theorem findSpace_flatMap {fuel : ℕ} (hfuel : 12 ≤ fuel) (text : List Char) (t : Tuple)
    (l : List Tuple) : findSpace fuel ⟨text, (t :: l).flatMap printTuple⟩ = some true := by
  have hpass : ∀ a ∈ printUnsigned t.key, (a = ' ' ∨ a = '\n' : Bool) = false := by
    intro a ha
    have hdigit := isDigit_of_mem_printUnsigned ha
    rw [decide_eq_false_iff_not]
    rintro (rfl | rfl) <;> exact absurd hdigit (by decide)
  have hlength := length_printUnsigned_le t.key
  rw [findSpace, List.flatMap_cons, printTuple, List.append_assoc, List.append_assoc,
    List.cons_append, readUntil_append (by decide) hpass, if_pos (by omega)]
  rfl

theorem length_window {tuples : List Tuple} {rel : Slice}
    (hfits : rel.offset + rel.num_tuples ≤ tuples.length) :
    (window tuples rel).length = rel.num_tuples := by
  rw [window, List.length_take, List.length_drop]
  omega

/-- The tuples with a window of them replaced by that of another relation. -/
theorem getElem?_reloaded {tuples t : List Tuple} (hlen : t.length = tuples.length) {rel : Slice}
    (hfits : rel.offset + rel.num_tuples ≤ tuples.length) (j : ℕ) :
    (t.take rel.offset ++ window tuples rel ++ t.drop (rel.offset + rel.num_tuples))[j]?
      = if rel.offset ≤ j ∧ j < rel.offset + rel.num_tuples then tuples[j]? else t[j]? := by
  have hcount : (window tuples rel).length = rel.num_tuples := length_window hfits
  have htake : (t.take rel.offset).length = rel.offset := by rw [List.length_take]; omega
  rw [List.append_assoc, List.getElem?_append, htake]
  split_ifs with hlt hin hin
  · omega
  · rw [List.getElem?_take_of_lt hlt]
  · rw [List.getElem?_append_left (by omega), window, List.getElem?_take_of_lt (by omega),
      List.getElem?_drop]
    congr 1
    omega
  · rw [List.getElem?_append_right (by omega), List.getElem?_drop]
    congr 1
    omega

/-- Reading the file of a partition with tuples puts them where they were. -/
theorem readRelation_partition {fuel : ℕ} (hfuel : 12 ≤ fuel) (key : UInt32)
    {tuples t : List Tuple} (hlen : t.length = tuples.length) {rel : Slice}
    (hfits : rel.offset + rel.num_tuples ≤ tuples.length) (hpos : 0 < rel.num_tuples) :
    ∃ t', readRelation fuel key (partitionText (window tuples rel)) rel t = .returned t' ∧
      t'.length = tuples.length ∧ Agrees tuples rel t' ∧
      ∀ j : ℕ, t[j]? = tuples[j]? → t'[j]? = tuples[j]? := by
  have hcount : (window tuples rel).length = rel.num_tuples := length_window hfits
  obtain ⟨u, l, hl⟩ : ∃ u l, window tuples rel = u :: l :=
    List.exists_cons_of_ne_nil (List.ne_nil_of_length_pos (by omega))
  have hread : readRelation fuel key (partitionText (window tuples rel)) rel t
      = .returned (t.take rel.offset ++ window tuples rel ++ t.drop (rel.offset + rel.num_tuples)) := by
    have hspace : findSpace fuel ⟨partitionText (window tuples rel),
        (window tuples rel).flatMap printTuple⟩ = some true := by
      rw [hl]; exact findSpace_flatMap hfuel _ u l
    rw [readRelation, fopen, partitionText, skipLine_header, if_pos (by omega)]
    simp only
    rw [← partitionText, hspace]
    simp only [File.rewind, if_true]
    rw [partitionText, skipLine_header, if_pos (by omega)]
    simp only
    rw [← hcount]
    exact readLoop_eq (by rw [hcount, hlen]; exact hfits)
  have hget := getElem?_reloaded hlen hfits
  refine ⟨_, hread, ?_, ?_, ?_⟩
  · rw [List.length_append, List.length_append, hcount, List.length_take, List.length_drop]
    omega
  · intro j hle hlt
    rw [hget, if_pos ⟨hle, hlt⟩]
  · intro j hj
    rw [hget]
    split_ifs
    · rfl
    · exact hj

/-- Reading a file that holds the header only does not end. -/
theorem readRelation_header (fuel : ℕ) (key : UInt32) (rel : Slice) (t : List Tuple) :
    readRelation fuel key (partitionText []) rel t = .threw .diverges t := by
  have hend : ∀ text, findSpace fuel ⟨text, []⟩ = none := fun text => by
    rw [findSpace, readUntil_eof (by simp)]
    rfl
  have hskip : skipLine fuel (fopen header) = if 9 < fuel then some ⟨header, []⟩ else none := by
    have hsplit := skipLine_header fuel header []
    rwa [List.append_nil] at hsplit
  rw [readRelation, partitionText, List.flatMap_nil, List.append_nil, hskip]
  split_ifs
  · simp only [hend]
  · rfl

/-! ### The partitions -/

/-- The arguments of thread `i`. -/
def partitionArg (nthreads num_tuples i : ℕ) : WriteReadArg :=
  ⟨i, ⟨num_tuples / nthreads * i, if i = nthreads - 1
    then num_tuples - num_tuples / nthreads * (nthreads - 1) else num_tuples / nthreads⟩⟩

theorem writeReadArgs_eq (nthreads num_tuples : ℕ) :
    writeReadArgs nthreads num_tuples
      = (List.range nthreads).map (partitionArg nthreads num_tuples) := by
  have hloop : ∀ threads i, writeReadArgsLoop nthreads (num_tuples / nthreads)
      (num_tuples - num_tuples / nthreads * (nthreads - 1)) threads i (num_tuples / nthreads * i)
      = (List.range' i threads).map (partitionArg nthreads num_tuples) := by
    intro threads
    induction threads with
    | zero => intro i; rfl
    | succ threads ih =>
      intro i
      rw [writeReadArgsLoop, ← Nat.mul_succ, ih, List.range'_succ, List.map_cons, partitionArg]
  rw [List.range_eq_range', ← hloop]
  rfl

theorem mem_writeReadArgs {nthreads num_tuples : ℕ} {arg : WriteReadArg} :
    arg ∈ writeReadArgs nthreads num_tuples ↔
      ∃ i < nthreads, partitionArg nthreads num_tuples i = arg := by
  rw [writeReadArgs_eq, List.mem_map]
  simp only [List.mem_range]

section Partition
variable {nthreads num_tuples i : ℕ}

/-- The partitions lie in the relation. -/
theorem partitionArg_fits (hi : i < nthreads) :
    (partitionArg nthreads num_tuples i).rel.offset +
      (partitionArg nthreads num_tuples i).rel.num_tuples ≤ num_tuples := by
  have hall : num_tuples / nthreads * nthreads ≤ num_tuples := Nat.div_mul_le_self _ _
  simp only [partitionArg]
  split_ifs with hlast
  · have hbefore : num_tuples / nthreads * (nthreads - 1) ≤ num_tuples :=
      le_trans (Nat.mul_le_mul_left _ (Nat.sub_le _ _)) hall
    rw [hlast]; omega
  · calc num_tuples / nthreads * i + num_tuples / nthreads
        = num_tuples / nthreads * (i + 1) := (Nat.mul_succ ..).symm
      _ ≤ num_tuples / nthreads * nthreads := Nat.mul_le_mul_left _ hi
      _ ≤ num_tuples := hall

/-- Every tuple is in a partition. -/
theorem exists_partitionArg (hthreads : 1 ≤ nthreads) {j : ℕ} (hj : j < num_tuples) :
    ∃ i < nthreads, (partitionArg nthreads num_tuples i).rel.offset ≤ j ∧
      j < (partitionArg nthreads num_tuples i).rel.offset +
        (partitionArg nthreads num_tuples i).rel.num_tuples := by
  simp only [partitionArg]
  generalize num_tuples / nthreads = q
  by_cases hlast : q * (nthreads - 1) ≤ j
  · exact ⟨nthreads - 1, by omega, hlast, by rw [if_pos rfl]; omega⟩
  · have hq : 0 < q := by
      by_contra hzero
      obtain rfl : q = 0 := by omega
      rw [Nat.zero_mul] at hlast
      omega
    have hi : j / q < nthreads - 1 := Nat.div_lt_of_lt_mul (not_le.mp hlast)
    have hlt : j < q * (j / q) + q := Nat.lt_mul_div_succ j hq
    exact ⟨j / q, by omega, Nat.mul_div_le j q, by rw [if_neg (by omega)]; exact hlt⟩

/-- Every partition holds a tuple exactly if there are as many tuples as partitions. -/
theorem num_tuples_pos_iff (hthreads : 1 ≤ nthreads) :
    (∀ i < nthreads, 0 < (partitionArg nthreads num_tuples i).rel.num_tuples) ↔
      nthreads ≤ num_tuples := by
  constructor
  · intro hpos
    by_contra hlt
    have hfirst := hpos 0 (by omega)
    have hq : num_tuples / nthreads = 0 := Nat.div_eq_of_lt (by omega)
    simp only [partitionArg, hq] at hfirst
    split_ifs at hfirst <;> omega
  · intro hle i hi
    have hq : 0 < num_tuples / nthreads := Nat.div_pos hle hthreads
    have hall : num_tuples / nthreads * nthreads ≤ num_tuples := Nat.div_mul_le_self _ _
    simp only [partitionArg]
    split_ifs with hlast
    · have hsplit : num_tuples / nthreads * nthreads
          = num_tuples / nthreads * (nthreads - 1) + num_tuples / nthreads := by
        rw [← Nat.mul_succ]
        congr 1
        omega
      omega
    · exact hq

end Partition

/-! ### The threads -/

theorem full_filename_inj {path : Path} {i j : ℕ}
    (h : path.full_filename i = path.full_filename j) : i = j := by
  have hchars := congrArg String.toList h
  simp only [Path.full_filename, String.toList_append, List.append_cancel_right_eq,
    List.append_cancel_left_eq, Nat.toList_repr] at hchars
  have hvalue := congrArg (fun digits => Nat.ofDigitChars 10 digits 0) hchars
  simpa only [Nat.ofDigitChars_ten_toDigits] using hvalue

/-- The partitions of the threads `done` are in their files. -/
def Written (path : Path) (tuples : List Tuple) (done : List WriteReadArg) (files : Files) : Prop :=
  ∀ arg ∈ done, files (path.full_filename arg.thread_id)
    = some (partitionText (window tuples arg.rel))

/-- Step lemma: a writing thread writes its own file and no other. -/
theorem Written.step {path : Path} {tuples : List Tuple} {nthreads i : ℕ}
    {done : List WriteReadArg} {files : Files} (h : Written path tuples done files)
    (hdone : ∀ arg ∈ done, arg ∈ writeReadArgs nthreads tuples.length) (hi : i < nthreads) :
    ∃ files', writeRelationThread path tuples (partitionArg nthreads tuples.length i) files
        = .returned files' ∧
      Written path tuples (done ++ [partitionArg nthreads tuples.length i]) files' := by
  refine ⟨_, by rw [writeRelationThread, writeRelation_eq (partitionArg_fits hi)], ?_⟩
  intro arg harg
  rcases List.mem_append.mp harg with harg | harg
  · obtain ⟨j, -, rfl⟩ := mem_writeReadArgs.mp (hdone arg harg)
    rcases eq_or_ne j i with rfl | hne
    · rw [Function.update_self]
    · have hname : path.full_filename (partitionArg nthreads tuples.length j).thread_id
          ≠ path.full_filename (partitionArg nthreads tuples.length i).thread_id := fun heq =>
        hne (full_filename_inj heq)
      rw [Function.update_of_ne hname]
      exact h _ harg
  · rw [List.mem_singleton.mp harg, Function.update_self]

/-- Run lemma: after the writing threads every partition is in its file. -/
theorem writeRelationThreaded_returns (path : Path) {tuples : List Tuple} {nthreads : ℕ}
    {schedule : List WriteReadArg}
    (hschedule : ∀ arg ∈ schedule, arg ∈ writeReadArgs nthreads tuples.length) (files : Files) :
    ∃ files', writeRelationThreaded path tuples schedule files = .returned files' ∧
      Written path tuples schedule files' := by
  have hinit : Written path tuples [] files := fun _ harg => absurd harg List.not_mem_nil
  rw [writeRelationThreaded]
  refine Outcome.runAll_returns hinit fun done arg u hpre hu => ?_
  obtain ⟨i, hi, rfl⟩ := mem_writeReadArgs.mp (hschedule arg (hpre.subset (by simp)))
  exact hu.step (fun a ha => hschedule a (hpre.subset (List.mem_append_left _ ha))) hi

section Read
variable {path : Path} {tuples : List Tuple} {nthreads : ℕ} {files : Files}
  {schedule : List WriteReadArg}

/-- The partitions of the threads `done` are in the relation `t` that is being read. -/
def ReadBack (tuples : List Tuple) (done : List WriteReadArg) (t : List Tuple) : Prop :=
  t.length = tuples.length ∧ ∀ arg ∈ done, Agrees tuples arg.rel t

/-- Where every partition holds a tuple, the reading threads put all tuples back. -/
theorem readRelationThreaded_returns (hthreads : 1 ≤ nthreads) (hle : nthreads ≤ tuples.length)
    (hschedule : schedule.Perm (writeReadArgs nthreads tuples.length))
    (hfiles : Written path tuples schedule files) (key : UInt32) {t : List Tuple}
    (hlen : t.length = tuples.length) :
    readRelationThreaded 12 key path files schedule t = .returned tuples := by
  have hinit : ReadBack tuples [] t := ⟨hlen, fun _ harg => absurd harg List.not_mem_nil⟩
  have hrun : ∃ t', Outcome.runAll (readRelationThread 12 key path files) schedule t = .returned t' ∧
      ReadBack tuples schedule t' := by
    refine Outcome.runAll_returns hinit fun done arg u hpre hu => ?_
    have harg : arg ∈ schedule := hpre.subset (by simp)
    obtain ⟨i, hi, rfl⟩ := mem_writeReadArgs.mp (hschedule.mem_iff.mp harg)
    obtain ⟨u', hread, hlen', hagrees, hkeep⟩ := readRelation_partition (le_refl 12) key hu.1
      (partitionArg_fits hi) ((num_tuples_pos_iff hthreads).mpr hle i hi)
    refine ⟨u', by rw [readRelationThread, hfiles _ harg]; exact hread, hlen', ?_⟩
    intro other hother
    rcases List.mem_append.mp hother with hother | hother
    · exact fun j hj hj' => hkeep j (hu.2 other hother j hj hj')
    · rw [List.mem_singleton.mp hother]
      exact hagrees
  obtain ⟨t', hrun, hlen', hagrees⟩ := hrun
  have hall : t' = tuples := by
    refine List.ext_getElem? fun j => ?_
    by_cases hj : j < tuples.length
    · obtain ⟨i, hi, hfrom, hto⟩ := exists_partitionArg hthreads hj
      exact hagrees _ (hschedule.mem_iff.mpr (mem_writeReadArgs.mpr ⟨i, hi, rfl⟩)) j hfrom hto
    · rw [List.getElem?_eq_none (by omega), List.getElem?_eq_none (by omega)]
  rw [readRelationThreaded, hrun, hall]

/-- Where a partition holds no tuple, its thread does not end. -/
theorem readRelationThreaded_diverges (hthreads : 1 ≤ nthreads) (hlt : tuples.length < nthreads)
    (hschedule : schedule.Perm (writeReadArgs nthreads tuples.length))
    (hfiles : Written path tuples schedule files) (fuel : ℕ) (key : UInt32) (t t' : List Tuple) :
    readRelationThreaded fuel key path files schedule t ≠ .returned t' := by
  intro hrun
  obtain ⟨i, hi, hzero⟩ : ∃ i < nthreads,
      (partitionArg nthreads tuples.length i).rel.num_tuples = 0 := by
    by_contra hnone
    push Not at hnone
    have := (num_tuples_pos_iff hthreads).mp fun i hi => Nat.pos_of_ne_zero (hnone i hi)
    omega
  have harg : partitionArg nthreads tuples.length i ∈ schedule :=
    hschedule.mem_iff.mpr (mem_writeReadArgs.mpr ⟨i, hi, rfl⟩)
  obtain ⟨before, after, rfl⟩ := List.append_of_mem harg
  obtain ⟨u, -, hrest⟩ := Outcome.runAll_append_eq_returned.mp hrun
  rw [Outcome.runAll_cons, readRelationThread, hfiles _ harg, window, hzero, List.take_zero] at hrest
  simp only [readRelation_header, Outcome.andThen_threw] at hrest
  cases hrest

end Read

/-- One tuple in two partitions: the file of the first one holds the header only. -/
theorem relation_reload_diverges :
    ∃ files', writeRelationThreaded ⟨"data/", "r", ".txt"⟩ [⟨1, 10⟩] (writeReadArgs 2 1)
        (fun _ => none) = .returned files' ∧
      ∀ fuel, loadRelationThreaded fuel (fun n => some (List.replicate n ⟨0, 0⟩)) 5
        ⟨"data/", "r", ".txt"⟩ files' (writeReadArgs 2 1) 1 = .error .diverges := by
  have hschedule : ∀ arg ∈ writeReadArgs 2 1, arg ∈ writeReadArgs 2 ([⟨1, 10⟩] : List Tuple).length :=
    fun _ harg => harg
  obtain ⟨files', hwrite, hfiles⟩ :=
    writeRelationThreaded_returns ⟨"data/", "r", ".txt"⟩ hschedule (fun _ => none)
  have hfirst : files' (Path.full_filename ⟨"data/", "r", ".txt"⟩ 0) = some (partitionText []) :=
    hfiles ⟨0, ⟨0, 0⟩⟩ (List.mem_cons_self ..)
  have hargs : writeReadArgs 2 1 = [⟨0, ⟨0, 0⟩⟩, ⟨1, ⟨0, 1⟩⟩] := rfl
  refine ⟨files', hwrite, fun fuel => ?_⟩
  simp only [loadRelationThreaded, hargs, readRelationThreaded, Outcome.runAll_cons,
    readRelationThread, hfirst, readRelation_header, Outcome.andThen_threw]

/-- CORRECT exactly where every partition holds a tuple: the reload ends and gives back the relation
    if and only if there are at least as many tuples as partitions. -/
theorem relation_reloads_iff (rel : Relation) (nthreads : ℕ) (hthreads : 1 ≤ nthreads) (path : Path)
    (files : Files) (alloc_aligned : ℕ → Option (List Tuple))
    (halloc : ∃ t, alloc_aligned rel.tuples.length = some t ∧ t.length = rel.tuples.length)
    (key : UInt32) (writers readers : List WriteReadArg)
    (hwriters : writers.Perm (writeReadArgs nthreads rel.tuples.length))
    (hreaders : readers.Perm (writeReadArgs nthreads rel.tuples.length)) :
    ∃ files', writeRelationThreaded path rel.tuples writers files = .returned files' ∧
      ((∃ fuel, loadRelationThreaded fuel alloc_aligned key path files' readers rel.tuples.length
        = .ok (some rel.tuples)) ↔ nthreads ≤ rel.tuples.length) := by
  obtain ⟨files', hwrite, hfiles⟩ := writeRelationThreaded_returns path
    (fun arg harg => hwriters.mem_iff.mp harg) files
  have hfiles' : Written path rel.tuples readers files' := fun arg harg =>
    hfiles arg (hwriters.mem_iff.mpr (hreaders.mem_iff.mp harg))
  obtain ⟨t, halloc, hlen⟩ := halloc
  refine ⟨files', hwrite, ?_⟩
  constructor
  · rintro ⟨fuel, hload⟩
    by_contra hlt
    rw [loadRelationThreaded, halloc] at hload
    simp only at hload
    split at hload
    · rename_i u hrun
      exact readRelationThreaded_diverges hthreads (not_le.mp hlt) hreaders hfiles' fuel key t u hrun
    · cases hload
  · intro hle
    refine ⟨12, ?_⟩
    rw [loadRelationThreaded, halloc]
    simp only
    rw [readRelationThreaded_returns hthreads hle hreaders hfiles' key hlen]

/-- Three tuples in two partitions come back. -/
theorem relation_reloads_iff_three :
    ∃ files', writeRelationThreaded ⟨"data/", "r", ".txt"⟩ [⟨1, 10⟩, ⟨20, 0⟩, ⟨4294967295, 7⟩]
        (writeReadArgs 2 3) (fun _ => none) = .returned files' ∧
      ∃ fuel, loadRelationThreaded fuel (fun n => some (List.replicate n ⟨0, 0⟩)) 5
          ⟨"data/", "r", ".txt"⟩ files' (writeReadArgs 2 3).reverse 3
        = .ok (some [⟨1, 10⟩, ⟨20, 0⟩, ⟨4294967295, 7⟩]) := by
  obtain ⟨files', hwrite, hiff⟩ :=
    relation_reloads_iff ⟨[⟨1, 10⟩, ⟨20, 0⟩, ⟨4294967295, 7⟩], by decide⟩ 2 (by decide)
      ⟨"data/", "r", ".txt"⟩ (fun _ => none) (fun n => some (List.replicate n ⟨0, 0⟩))
      ⟨_, rfl, List.length_replicate⟩ 5 _ _ (List.Perm.refl _) (List.reverse_perm _)
  exact ⟨files', hwrite, hiff.mpr (by decide)⟩

end Join
end HashingBenchmark
