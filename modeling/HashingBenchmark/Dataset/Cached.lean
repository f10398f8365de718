import HashingBenchmark.Dataset.Load
import HashingBenchmark.Fixture.Names
import HashingBenchmark.Lib.Memo

/-! `dataset::load_cached` of `src/support/datasets.hpp`.

    A call looks in a two-level cache, and otherwise makes a vector: from a formula, from random
    draws, or by sampling the values of a data file, which is loaded and shuffled at first use. The
    vector is rid of the maximal key, sorted, freed of repetitions and cached. When there is no data
    file the call returns an empty vector and caches nothing. The join has its own `load_cached`
    around the same cache, so what concerns the cache is generic in the type of the ids.

    Everything random is part of the call: what the generator of a distribution writes, how the
    engine shuffles and which draws it rejects. The windows of the FB and the OSM dataset are
    logarithms in doubles, and are parameters here. -/

namespace HashingBenchmark
namespace dataset
open UIntOrder
open Fixture (ID)

/-- `std::numeric_limits<Data>::max()`. -/
def dataMax : UInt64 := 18446744073709551615

/-- `std::shuffle` with some engine. -/
structure Shuffle where
  apply : List UInt64 → List UInt64
  perm : ∀ l, (apply l).Perm l

/-- What a random engine does during a call: `drawn i` is what the generator of a random dataset
    writes to `ds[i]`, and `rejected i` the number of draws below 10000 before it. -/
structure Engine where
  shuffle : Shuffle
  drawn : ℕ → UInt64
  rejected : ℕ → ℕ

/-- The datasets that come from a file. -/
inductive Sosd where
  | fb | osm | wiki
  deriving DecidableEq

/-- Which values of a file a dataset samples, and as which keys. -/
structure Window where
  keep : UInt64 → Bool
  transform : UInt64 → UInt64

/-- The windows of FB and OSM: the interval for `log2(x)` and `x - pow(2, ..)`. -/
structure Windows where
  fb : Window
  osm : Window

/-- The window of a dataset; WIKI takes every value as it is. -/
def Windows.of (w : Windows) : Sosd → Window
  | .fb => w.fb
  | .osm => w.osm
  | .wiki => ⟨fun _ => true, id⟩

/-- The static variables: `datasets`, and `ds_fb`, `ds_osm` and `ds_wiki`. -/
structure State (I : Type) where
  datasets : I → Option (ℕ → Option (List UInt64))
  ds : Sosd → List UInt64

def State.init {I : Type} : State I := ⟨fun _ => none, fun _ => []⟩

/-! ### Filling the vector -/

/-- `ds[i] = i*10 + 20000`. -/
def sequential (dataset_size : ℕ) : List UInt64 :=
  (List.range dataset_size).map fun i => UInt64.ofNat (i * 10 + 20000)

/-- `do num += step; while (dist(rng) < 10000); ds[i] = num`, from `i` and `num` on. -/
def gapped (step : ℕ) (rejected : ℕ → ℕ) : ℕ → ℕ → UInt64 → List UInt64
  | 0, _, _ => []
  | n + 1, i, num =>
    let num' := num + UInt64.ofNat (step * (rejected i + 1))
    num' :: gapped step rejected n (i + 1) num'

/-- The sampling loop: the rest of the shuffled file from `j` on, `i` and `ds`. -/
def sampleLoop (w : Window) : List UInt64 → ℕ → List UInt64 → List UInt64
  | [], _, ds => ds
  | x :: rest, i, ds =>
    if i < ds.length then
      if w.keep x then sampleLoop w rest (i + 1) (ds.set i (w.transform x))
      else sampleLoop w rest i ds
    else ds

/-- `if (ds_fb.empty()) { ds_fb = load(..); std::shuffle(..); }`: the vector after it. -/
def loadSource (file : Option (List UInt8)) (shuffle : Shuffle) (ds : List UInt64) :
    Except LoadFault (List UInt64) :=
  if ds = [] then (load file).map shuffle.apply else .ok ds

/-- The cases FB, OSM and WIKI; `none` if they return `{}`. -/
def fillSosd {I : Type} (w : Windows) (f : Sosd) (file : Option (List UInt8)) (shuffle : Shuffle)
    (dataset_size : ℕ) (s : State I) : Except LoadFault (Option (List UInt64) × State I) :=
  (loadSource file shuffle (s.ds f)).map fun source =>
    (if source = [] then none
      else some (sampleLoop (w.of f) source 0 (List.replicate dataset_size 0)),
      { s with ds := Function.update s.ds f source })

/-- `if (key == std::numeric_limits<Data>::max()) key--`. -/
def demote (key : UInt64) : UInt64 := if key = dataMax then key - 1 else key

/-! ### The cache -/

/-- The cache lookup, the call of `fill` for the vector, which returns `none` to leave with `{}`,
    the call of `finish` on it and the insertion into the cache. -/
def throughCache {I : Type} [DecidableEq I] (id : I) (dataset_size : ℕ)
    (fill : State I → Except LoadFault (Option (List UInt64) × State I))
    (finish : List UInt64 → List UInt64) (s : State I) :
    Except LoadFault (List UInt64) × State I :=
  match TwoLevel.find s.datasets id dataset_size with
  | some ds => (.ok ds, s)
  | none =>
    match fill s with
    | .error e => (.error e, s)
    | .ok (none, s') => (.ok [], s')
    | .ok (some ds, s') =>
      (.ok (finish ds),
        { s' with datasets := TwoLevel.insert s'.datasets id dataset_size (finish ds) })

/-- The cache as one table. -/
def cached {I : Type} (s : State I) (k : I × ℕ) : Option (List UInt64) :=
  TwoLevel.find s.datasets k.1 k.2

section
variable {I C : Type} [DecidableEq I] {id : C → I} {dataset_size : C → ℕ}
  {fill : C → State I → Except LoadFault (Option (List UInt64) × State I)}
  {finish : List UInt64 → List UInt64}

/-- What a call returns that finds nothing in the cache. -/
theorem throughCache_miss (finish : List UInt64 → List UInt64)
    (hfill : ∀ c s o s', fill c s = .ok (o, s') → s'.datasets = s.datasets)
    {c : C} {s : State I} (hnone : cached s (id c, dataset_size c) = none) :
    (∃ e, fill c s = .error e ∧
      throughCache (id c) (dataset_size c) (fill c) finish s = (.error e, s)) ∨
    (∃ s', fill c s = .ok (none, s') ∧ (∀ k, cached s' k = cached s k) ∧
      throughCache (id c) (dataset_size c) (fill c) finish s = (.ok [], s')) ∨
    ∃ ds s' s'', fill c s = .ok (some ds, s') ∧ s''.ds = s'.ds ∧
      cached s'' (id c, dataset_size c) = some (finish ds) ∧
      (∀ k ≠ (id c, dataset_size c), cached s'' k = cached s k) ∧
      throughCache (id c) (dataset_size c) (fill c) finish s = (.ok (finish ds), s'') := by
  have hfind : TwoLevel.find s.datasets (id c) (dataset_size c) = none := hnone
  rw [throughCache, hfind]
  cases hcall : fill c s with
  | error e => exact Or.inl ⟨e, rfl, rfl⟩
  | ok p =>
    obtain ⟨o, s'⟩ := p
    have hdatasets := hfill c s o s' hcall
    cases o with
    | none => exact Or.inr (Or.inl ⟨s', rfl, fun k => by rw [cached, hdatasets, cached], rfl⟩)
    | some ds =>
      refine Or.inr (Or.inr ⟨ds, s',
        ⟨TwoLevel.insert s'.datasets (id c) (dataset_size c) (finish ds), s'.ds⟩, rfl, rfl, ?_,
        fun k hk => ?_, rfl⟩)
      · simp only [cached, hdatasets]
        rw [TwoLevel.find_insert hfind, if_pos ⟨rfl, rfl⟩]
      · simp only [cached, hdatasets]
        rw [TwoLevel.find_insert hfind, if_neg]
        rintro ⟨hid, hsize⟩
        exact hk (Prod.ext hid hsize)

/-- The calls share the cache as a memo table under the id and the size. -/
theorem memoises_throughCache
    (hfill : ∀ c s o s', fill c s = .ok (o, s') → s'.datasets = s.datasets) :
    Memo.Memoises (fun c => (id c, dataset_size c)) cached .ok
      (fun c => throughCache (id c) (dataset_size c) (fill c) finish) := by
  refine ⟨fun c s v hv => ?_, fun c s hnone => ?_⟩
  · have hfind : TwoLevel.find s.datasets (id c) (dataset_size c) = some v := hv
    rw [throughCache, hfind]
  · rcases throughCache_miss finish hfill hnone with ⟨e, -, hcall⟩ | ⟨s', -, hsame, hcall⟩ |
      ⟨ds, s', s'', -, -, hstored, hsame, hcall⟩
    · rw [hcall]; exact Or.inl fun k => rfl
    · rw [hcall]; exact Or.inl hsame
    · rw [hcall]; exact Or.inr ⟨finish ds, rfl, hstored, hsame⟩

/-- A call that returns keys leaves them in the cache. -/
theorem cached_of_returned
    (hfill : ∀ c s o s', fill c s = .ok (o, s') → s'.datasets = s.datasets) {c : C} {s : State I}
    {v : List UInt64} (hv : v ≠ [])
    (h : (throughCache (id c) (dataset_size c) (fill c) finish s).1 = .ok v) :
    cached (throughCache (id c) (dataset_size c) (fill c) finish s).2 (id c, dataset_size c)
      = some v := by
  cases hc : cached s (id c, dataset_size c) with
  | some v' =>
    rw [(memoises_throughCache hfill).hit c s v' hc] at h ⊢
    rw [hc, Except.ok.inj h]
  | none =>
    rcases throughCache_miss finish hfill hc with ⟨e, -, hcall⟩ | ⟨s', -, -, hcall⟩ |
      ⟨ds, s', s'', -, -, hstored, -, hcall⟩
    · rw [hcall] at h; cases h
    · rw [hcall] at h; exact absurd (Except.ok.inj h).symm hv
    · rw [hcall] at h ⊢
      rw [hstored, Except.ok.inj h]

end

/-! ### `load_cached` -/

def Sosd.id : Sosd → ID
  | .fb => .FB
  | .osm => .OSM
  | .wiki => .WIKI

/-- A call: its arguments, the data file of the dataset, and what the random engine does. -/
structure Call where
  id : ID
  dataset_size : ℕ
  file : Option (List UInt8)
  rng : Engine

/-- The `switch` over the ids. -/
def fill (w : Windows) (c : Call) (s : State ID) :
    Except LoadFault (Option (List UInt64) × State ID) :=
  match c.id with
  | .SEQUENTIAL => .ok (some (sequential c.dataset_size), s)
  | .GAPPED_10 => .ok (some (gapped 10 c.rng.rejected c.dataset_size 0 0), s)
  | .FB => fillSosd w .fb c.file c.rng.shuffle c.dataset_size s
  | .OSM => fillSosd w .osm c.file c.rng.shuffle c.dataset_size s
  | .WIKI => fillSosd w .wiki c.file c.rng.shuffle c.dataset_size s
  | .UNIFORM | .NORMAL | .Variance_2 | .Variance_4 | .Variance_half | .Variance_quarter =>
    .ok (some ((List.range c.dataset_size).map c.rng.drawn), s)

/-- What happens to a filled vector before it is cached. -/
def finish (ds : List UInt64) : List UInt64 := deduplicateAndSort (ds.map demote)

/-- `load_cached`. -/
def loadCached (w : Windows) (c : Call) : State ID → Except LoadFault (List UInt64) × State ID :=
  throughCache c.id c.dataset_size (fill w c) finish

theorem map_eq_ok {α β ε : Type} {x : Except ε α} {f : α → β} {b : β} :
    x.map f = .ok b ↔ ∃ a, x = .ok a ∧ f a = b := by
  cases x with
  | error e => simp [Except.map]
  | ok a => simp [Except.map]

theorem fillSosd_datasets {I : Type} {w : Windows} {f : Sosd} {file : Option (List UInt8)}
    {shuffle : Shuffle} {n : ℕ} {s s' : State I} {o : Option (List UInt64)}
    (h : fillSosd w f file shuffle n s = .ok (o, s')) : s'.datasets = s.datasets := by
  obtain ⟨source, -, hsource⟩ := map_eq_ok.mp h
  cases hsource; rfl

/-- Filling the vector does not touch the cache. -/
theorem fill_datasets (w : Windows) (c : Call) (s : State ID) (o : Option (List UInt64))
    (s' : State ID) (h : fill w c s = .ok (o, s')) : s'.datasets = s.datasets := by
  rw [fill] at h
  split at h
  case h_3 => exact fillSosd_datasets h
  case h_4 => exact fillSosd_datasets h
  case h_5 => exact fillSosd_datasets h
  all_goals
    cases h; rfl

theorem memoises (w : Windows) :
    Memo.Memoises (fun c : Call => (c.id, c.dataset_size)) cached .ok (loadCached w) :=
  memoises_throughCache (fill_datasets w)

/-! ### The vectors that are returned -/

theorem demote_ne_dataMax (key : UInt64) : demote key ≠ dataMax := by
  rw [demote]
  split_ifs with hmax
  · rw [hmax]; decide
  · exact hmax

/-- A key comes from a value of the filled vector. -/
theorem mem_finish {ds : List UInt64} {k : UInt64} : k ∈ finish ds ↔ ∃ x ∈ ds, demote x = k := by
  rw [finish, mem_deduplicateAndSort, List.mem_map]

/-- Strictly ascending, and without the maximal key. -/
def Clean (keys : List UInt64) : Prop := keys.Pairwise (· < ·) ∧ dataMax ∉ keys

theorem clean_nil : Clean [] := ⟨List.Pairwise.nil, List.not_mem_nil⟩

theorem clean_finish (ds : List UInt64) : Clean (finish ds) := by
  refine ⟨pairwise_deduplicateAndSort _, fun hmem => ?_⟩
  obtain ⟨x, -, hx⟩ := mem_finish.mp hmem
  exact demote_ne_dataMax x hx

/-- Every vector in the cache is clean. -/
def CacheClean (s : State ID) : Prop := ∀ k v, cached s k = some v → Clean v

theorem clean_of_returned {w : Windows} {c : Call} {s : State ID} (hs : CacheClean s)
    {v : List UInt64} (h : (loadCached w c s).1 = .ok v) : Clean v := by
  cases hc : cached s (c.id, c.dataset_size) with
  | some v' =>
    rw [(memoises w).hit c s v' hc] at h
    exact Except.ok.inj h ▸ hs _ v' hc
  | none =>
    rcases throughCache_miss finish (fill_datasets w) hc with ⟨e, -, hcall⟩ |
      ⟨s', -, -, hcall⟩ | ⟨ds, s', s'', -, -, -, -, hcall⟩
    · rw [loadCached, hcall] at h; cases h
    · rw [loadCached, hcall] at h; exact Except.ok.inj h ▸ clean_nil
    · rw [loadCached, hcall] at h; exact Except.ok.inj h ▸ clean_finish ds

/-- Step lemma. -/
theorem cacheClean_step (w : Windows) (c : Call) (s : State ID) (hs : CacheClean s) :
    CacheClean (loadCached w c s).2 := by
  intro k v hv
  cases hk : cached s k with
  | some v' =>
    rw [(memoises w).keep c hk] at hv
    exact Option.some.inj hv ▸ hs k v' hk
  | none => exact clean_of_returned hs ((memoises w).of_new hk hv).2

/-- Run lemma. -/
theorem cacheClean_after (w : Windows) (calls : List Call) :
    CacheClean (Memo.after (loadCached w) calls State.init) :=
  Memo.after_induction (cacheClean_step w) calls fun _ _ h => by cases h

/-- CORRECT: after any calls, a call returns keys in ascending order without the maximal one, the
    cache holds only such vectors, and once a call has returned keys every later call with its id
    and size returns the same. -/
theorem load_cached_clean (w : Windows) (calls : List Call) (c : Call) :
    let s := Memo.after (loadCached w) calls State.init
    (∀ v, (loadCached w c s).1 = .ok v → v.Pairwise (· < ·) ∧ dataMax ∉ v) ∧
    (∀ id dataset_size v, TwoLevel.find s.datasets id dataset_size = some v →
      v.Pairwise (· < ·) ∧ dataMax ∉ v) ∧
    ∀ v, (loadCached w c s).1 = .ok v → v ≠ [] → ∀ (mid : List Call) (c' : Call), c'.id = c.id →
      c'.dataset_size = c.dataset_size →
      (loadCached w c' (Memo.after (loadCached w) mid (loadCached w c s).2)).1 = .ok v := by
  intro s
  have hs : CacheClean s := cacheClean_after w calls
  refine ⟨fun v h => clean_of_returned hs h, fun id n v hv => hs (id, n) v hv, ?_⟩
  intro v h hv mid c' hid hsize
  exact (memoises w).returns_again (cached_of_returned (fill_datasets w) hv h) mid
    (Prod.ext hid hsize)

end dataset
end HashingBenchmark
