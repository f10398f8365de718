import HashingBenchmark.Dataset.Cached
import Mathlib.Data.Int.Notation

/-! `dataset::load_cached` of `code/include/join/utils/datasets.hpp`, from which the join takes its
    relations.

    The third argument says for which relation a call is, and with it which of two random engines
    draws and shuffles. The cache is that of the benchmark's `load_cached`: its key is the id and the
    size, not the relation. This header has the same `load` as the benchmark's, and does not sort its
    vectors. -/

namespace HashingBenchmark
namespace Join
namespace dataset
open HashingBenchmark.dataset (Engine Sosd State Windows LoadFault load cached gapped sequential
  sampleLoop loadSource fillSosd throughCache demote throughCache_miss memoises_throughCache
  cached_of_returned map_eq_ok fillSosd_datasets)

/-- `dataset::ID`. -/
inductive ID where
  | SEQUENTIAL | GAPPED_10 | UNIFORM | FB | OSM | WIKI | NORMAL
  deriving DecidableEq

/-- A call: its arguments, the data file of the dataset, and what the engines `rng` and `rng2` do. -/
structure Call where
  id : ID
  dataset_size : ℕ
  is_s_relation : ℤ
  file : Option (List UInt8)
  rng : Engine
  rng2 : Engine

/-- The engine that draws the keys. -/
def Call.engine (c : Call) : Engine := if c.is_s_relation = 1 then c.rng2 else c.rng

/-- `if(is_s_relation == 1) std::shuffle(ds.begin(), ds.end(), rng2)`. -/
def Call.shuffleS (c : Call) (ds : List UInt64) : List UInt64 :=
  if c.is_s_relation = 1 then c.rng2.shuffle.apply ds else ds

/-- The cases FB, OSM and WIKI: as in the benchmark's `load_cached`, but for the last shuffle. -/
def fillRelation (w : Windows) (f : Sosd) (c : Call) (s : State ID) :
    Except LoadFault (Option (List UInt64) × State ID) :=
  (fillSosd w f c.file c.rng.shuffle c.dataset_size s).map fun (o, s') =>
    (o.map c.shuffleS, s')

/-- The `switch` over the ids. -/
def fill (w : Windows) (c : Call) (s : State ID) :
    Except LoadFault (Option (List UInt64) × State ID) :=
  match c.id with
  | .SEQUENTIAL => .ok (some (c.engine.shuffle.apply (sequential c.dataset_size)), s)
  | .GAPPED_10 => .ok (some (gapped 1 c.engine.rejected c.dataset_size 0 0), s)
  | .UNIFORM | .NORMAL => .ok (some ((List.range c.dataset_size).map c.engine.drawn), s)
  | .FB => fillRelation w .fb c s
  | .OSM => fillRelation w .osm c s
  | .WIKI => fillRelation w .wiki c s

/-- What happens to a filled vector before it is cached; the call of `deduplicate_and_sort` is
    commented out. -/
def finish (ds : List UInt64) : List UInt64 := ds.map demote

/-- `load_cached`. -/
def loadCached (w : Windows) (c : Call) : State ID → Except LoadFault (List UInt64) × State ID :=
  throughCache c.id c.dataset_size (fill w c) finish

/-- The data file of an id. -/
def ID.sosd : ID → Option Sosd
  | .FB => some .fb
  | .OSM => some .osm
  | .WIKI => some .wiki
  | .SEQUENTIAL | .GAPPED_10 | .UNIFORM | .NORMAL => none

theorem ID.sosd_inj {id id' : ID} {f : Sosd} (h : id.sosd = some f) (h' : id'.sosd = some f) :
    id = id' := by
  cases f <;> cases id <;> cases h <;> cases id' <;> first | rfl | cases h'

/-- The file exists and has a value. -/
def HasData (file : Option (List UInt8)) : Prop := ∃ keys, load file = .ok keys ∧ keys ≠ []

/-! ### What a call fills its vector with -/

theorem length_gapped (step : ℕ) (rejected : ℕ → ℕ) (n i : ℕ) (num : UInt64) :
    (gapped step rejected n i num).length = n := by
  induction n generalizing i num with
  | zero => rfl
  | succ n ih => rw [gapped, List.length_cons, ih]

theorem length_sampleLoop (w : HashingBenchmark.dataset.Window) (source : List UInt64) (i : ℕ)
    (ds : List UInt64) : (sampleLoop w source i ds).length = ds.length := by
  induction source generalizing i ds with
  | nil => rfl
  | cons x rest ih =>
    rw [sampleLoop]
    split_ifs
    · rw [ih, List.length_set]
    · exact ih i ds
    · rfl

theorem length_shuffleS (c : Call) (ds : List UInt64) : (c.shuffleS ds).length = ds.length := by
  rw [Call.shuffleS]
  split_ifs
  · exact (c.rng2.shuffle.perm ds).length_eq
  · rfl

/-- The source of a dataset has values if it had some before or the file has. -/
theorem loadSource_cases (file : Option (List UInt8)) (shuffle : HashingBenchmark.dataset.Shuffle)
    (ds : List UInt64) :
    (∃ e, loadSource file shuffle ds = .error e ∧ ds = [] ∧ ¬ HasData file) ∨
    ∃ source, loadSource file shuffle ds = .ok source ∧ (source ≠ [] ↔ ds ≠ [] ∨ HasData file) := by
  rw [loadSource]
  by_cases hempty : ds = []
  · rw [if_pos hempty]
    cases hload : load file with
    | error e =>
      refine Or.inl ⟨e, rfl, hempty, ?_⟩
      rintro ⟨keys, hkeys, -⟩
      cases hload.symm.trans hkeys
    | ok keys =>
      have hperm := shuffle.perm keys
      refine Or.inr ⟨shuffle.apply keys, rfl, fun hne => Or.inr ⟨keys, hload, ?_⟩, fun h => ?_⟩
      · rintro rfl
        exact hne hperm.eq_nil
      · obtain ⟨keys', hkeys', hne⟩ := h.resolve_left (not_not_intro hempty)
        obtain rfl := Except.ok.inj (hload.symm.trans hkeys')
        intro hnil
        exact hne (hnil ▸ hperm).symm.eq_nil
  · rw [if_neg hempty]
    exact Or.inr ⟨ds, rfl, iff_of_true hempty (Or.inl hempty)⟩

/-- The two ways a dataset from a file is filled, or not. -/
theorem fillRelation_cases (w : Windows) (f : Sosd) (c : Call) (s : State ID) :
    (s.ds f = [] ∧ ¬ HasData c.file ∧
      ((∃ e, fillRelation w f c s = .error e) ∨ fillRelation w f c s = .ok (none, s))) ∨
    ∃ ds source, ds.length = c.dataset_size ∧ source ≠ [] ∧ (s.ds f ≠ [] ∨ HasData c.file) ∧
      fillRelation w f c s = .ok (some ds, { s with ds := Function.update s.ds f source }) := by
  rcases loadSource_cases c.file c.rng.shuffle (s.ds f) with ⟨e, hload, hempty, hno⟩ |
    ⟨source, hload, hiff⟩
  · refine Or.inl ⟨hempty, hno, Or.inl ⟨e, ?_⟩⟩
    simp only [fillRelation, fillSosd, hload, Except.map]
  · by_cases hnil : source = []
    · have hnot := (not_congr hiff).mp (not_not_intro hnil)
      rw [not_or, not_not] at hnot
      refine Or.inl ⟨hnot.1, hnot.2, Or.inr ?_⟩
      have hsame : Function.update s.ds f source = s.ds := by
        rw [hnil, ← hnot.1, Function.update_eq_self]
      simp only [fillRelation, fillSosd, hload, Except.map, if_pos hnil, Option.map_none, hsame]
    · refine Or.inr ⟨c.shuffleS (sampleLoop (w.of f) source 0 (List.replicate c.dataset_size 0)),
        source, ?_, hnil, hiff.mp hnil, ?_⟩
      · rw [length_shuffleS, length_sampleLoop, List.length_replicate]
      · simp only [fillRelation, fillSosd, hload, Except.map, if_neg hnil, Option.map_some]

/-- What filling the vector does, for any id. -/
theorem fill_cases (w : Windows) (c : Call) (s : State ID) :
    (∃ f, c.id.sosd = some f ∧ s.ds f = [] ∧ ¬ HasData c.file ∧
      ((∃ e, fill w c s = .error e) ∨ fill w c s = .ok (none, s))) ∨
    ∃ ds s', ds.length = c.dataset_size ∧ fill w c s = .ok (some ds, s') ∧
      s'.datasets = s.datasets ∧
      (∀ f, c.id.sosd = some f → s'.ds f ≠ [] ∧ (s.ds f ≠ [] ∨ HasData c.file)) ∧
      ∀ f, c.id.sosd ≠ some f → s'.ds f = s.ds f := by
  have hrelation : ∀ f, c.id.sosd = some f → fill w c s = fillRelation w f c s := by
    intro f hf
    rw [fill]
    cases hid : c.id <;> rw [hid] at hf <;> cases hf <;> rfl
  cases hf : c.id.sosd with
  | none =>
    have hvector : ∃ ds : List UInt64, ds.length = c.dataset_size ∧ fill w c s = .ok (some ds, s) := by
      rw [fill]
      cases hid : c.id with
      | SEQUENTIAL =>
        exact ⟨_, by rw [(c.engine.shuffle.perm _).length_eq]; simp [sequential], rfl⟩
      | GAPPED_10 => exact ⟨_, length_gapped _ _ _ _ _, rfl⟩
      | UNIFORM => exact ⟨_, by simp, rfl⟩
      | NORMAL => exact ⟨_, by simp, rfl⟩
      | FB => rw [hid] at hf; cases hf
      | OSM => rw [hid] at hf; cases hf
      | WIKI => rw [hid] at hf; cases hf
    obtain ⟨ds, hlength, hfill⟩ := hvector
    refine Or.inr ⟨ds, s, hlength, hfill, rfl, fun f hf' => ?_, fun _ _ => rfl⟩
    cases hf'
  | some f =>
    rw [hrelation f hf]
    rcases fillRelation_cases w f c s with ⟨hempty, hno, hfill⟩ |
      ⟨ds, source, hlength, hne, hdata, hfill⟩
    · exact Or.inl ⟨f, rfl, hempty, hno, hfill⟩
    · refine Or.inr ⟨ds, _, hlength, hfill, rfl, fun g hg => ?_, fun g hg => ?_⟩
      · obtain rfl := Option.some.inj hg
        simp only [Function.update_self]
        exact ⟨hne, hdata⟩
      · exact Function.update_of_ne (fun hgf => hg (by rw [hgf])) _ _

theorem fill_datasets (w : Windows) (c : Call) (s : State ID) (o : Option (List UInt64))
    (s' : State ID) (h : fill w c s = .ok (o, s')) : s'.datasets = s.datasets := by
  rcases fill_cases w c s with ⟨f, -, -, -, ⟨e, hfill⟩ | hfill⟩ | ⟨ds, s'', -, hfill, hdatasets, -⟩
  · cases hfill.symm.trans h
  · cases hfill.symm.trans h; rfl
  · cases hfill.symm.trans h; exact hdatasets

theorem memoises (w : Windows) :
    Memo.Memoises (fun c : Call => (c.id, c.dataset_size)) cached .ok (loadCached w) :=
  memoises_throughCache (fill_datasets w)

end dataset
end Join
end HashingBenchmark
