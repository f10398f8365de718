import HashingBenchmark.Dataset.Cached
import HashingBenchmark.Lib.Binary64

/-! `generate_probing_set` of `src/support/probing_set.hpp`.

    UNIFORM draws from an interval whose upper bound is `dataset.size() - 10000`, in 64-bit unsigned
    arithmetic and then narrowed to `int`, so the interval is empty for every dataset of less than
    20000 keys. The exponential distributions scale a draw to an index in doubles: the index is in
    range unless the largest index is rounded up when it becomes a double.

    The draws are what the random engine does, and arbitrary within the contract of the distribution.
    A draw of `std::exponential_distribution` is a double, so a rational. -/

namespace HashingBenchmark
namespace dataset
open Fixture (ProbingDistribution)

/-- Why a call does not return. -/
inductive ProbingFault where
  | emptyInterval
  | outOfBounds
  deriving DecidableEq

/-- The up to three draws of an iteration: for the comparison with `succ_probability`, for `adder`,
    and for the index. -/
inductive Draw where
  | decision | adder | index

/-- The draws from `std::uniform_int_distribution<>` for an interval and from
    `std::exponential_distribution<>`, in each iteration; the shuffle; and what the conversion of a
    double from 2^64 on to `uint64_t` gives, which is undefined. -/
structure Rng where
  uniform : ℤ → ℤ → ℕ → Draw → ℤ
  uniform_mem : ∀ a b, a ≤ b → ∀ i d, a ≤ uniform a b i d ∧ uniform a b i d ≤ b
  exponential : ℕ → Draw → ℚ
  exponential_nonneg : ∀ i d, 0 ≤ exponential i d
  shuffle : Shuffle
  overflow : ℚ → UInt64

/-- The conversion of a `size_t` to `int`. -/
def toInt (x : UInt64) : ℤ := (x.toNat : ℤ).bmod (2 ^ 32)

/-- `(uint64_t)dist(rng)` of an exponential draw. -/
def Rng.toUInt64 (rng : Rng) (x : ℚ) : UInt64 :=
  if x < 2 ^ 64 then UInt64.ofNat (Binary64.toNat x) else rng.overflow x

/-- The upper bound of the uniform distribution: `dataset.size() - 10000`. -/
def uniformBound (size : ℕ) : ℤ := toInt (UInt64.ofNat size - 10000)

/-- `dataset[index] + adder`. -/
def probe (dataset : List UInt64) (index : ℕ) (adder : ℤ) : Except ProbingFault UInt64 :=
  match dataset[index]? with
  | none => .error .outOfBounds
  | some key => .ok (key + UInt64.ofInt adder)

/-- An iteration of the case UNIFORM. -/
def uniformProbe (rng : Rng) (dataset : List UInt64) (succ_probability : ℤ) (i : ℕ) :
    Except ProbingFault UInt64 :=
  let dist := rng.uniform 10000 (uniformBound dataset.length) i
  let adder :=
    if UInt64.ofInt (dist .decision) % 100 > UInt64.ofInt succ_probability then
      (dist .adder).tmod 331777
    else 0
  probe dataset (UInt64.ofInt (dist .index)).toNat adder

/-- `(dataset.size() - 1) * std::min(1.0, dist(rng))`, as an index. -/
def exponentialIndex (size : ℕ) (draw : ℚ) : ℕ :=
  Binary64.toNat (Binary64.mul (Binary64.ofNat (size - 1)) (min 1 draw))

/-- An iteration of the two exponential cases. -/
def exponentialProbe (rng : Rng) (dataset : List UInt64) (succ_probability : ℤ) (i : ℕ) :
    Except ProbingFault UInt64 :=
  let dist := rng.exponential i
  let adder :=
    if rng.toUInt64 (dist .decision) % 100 > UInt64.ofInt succ_probability then 1 else 0
  probe dataset (exponentialIndex dataset.length (dist .index)) adder

/-- `generate_probing_set`. -/
def generateProbingSet (rng : Rng) (dataset : List UInt64) (distribution : ProbingDistribution)
    (succ_probability : ℤ) : Except ProbingFault (List UInt64) :=
  if dataset = [] then .ok []
  else
    match distribution with
    | .UNIFORM =>
      if uniformBound dataset.length < 10000 then .error .emptyInterval
      else (List.range dataset.length).mapM (uniformProbe rng dataset succ_probability)
    | .EXPONENTIAL_SORTED =>
      (List.range dataset.length).mapM (exponentialProbe rng dataset succ_probability)
    | .EXPONENTIAL_RANDOM =>
      let dataset := rng.shuffle.apply dataset
      (List.range dataset.length).mapM (exponentialProbe rng dataset succ_probability)

/-! ### Loops of probes -/

/-- A loop in which every iteration gives a probe with the property `P`. -/
theorem mapM_ok {f : ℕ → Except ProbingFault UInt64} {P : UInt64 → Prop} {l : List ℕ}
    (h : ∀ i ∈ l, ∃ p, f i = .ok p ∧ P p) :
    ∃ probes, l.mapM f = .ok probes ∧ probes.length = l.length ∧ ∀ p ∈ probes, P p := by
  induction l with
  | nil => exact ⟨[], rfl, rfl, fun p hp => absurd hp List.not_mem_nil⟩
  | cons i l ih =>
    obtain ⟨p, hp, hP⟩ := h i List.mem_cons_self
    obtain ⟨probes, hprobes, hlength, hall⟩ := ih fun j hj => h j (List.mem_cons_of_mem i hj)
    refine ⟨p :: probes, ?_, by rw [List.length_cons, hlength, List.length_cons], ?_⟩
    · rw [List.mapM_cons, hp, TableFill.bind_eq_ok]
      refine ⟨p, rfl, ?_⟩
      rw [hprobes, TableFill.bind_eq_ok]
      exact ⟨probes, rfl, rfl⟩
    · intro q hq
      rcases List.mem_cons.mp hq with rfl | hq
      · exact hP
      · exact hall q hq

/-- A loop that returns gives a probe in each iteration. -/
theorem length_of_mapM {f : ℕ → Except ProbingFault UInt64} {l : List ℕ} {probes : List UInt64}
    (h : l.mapM f = .ok probes) : probes.length = l.length := by
  induction l generalizing probes with
  | nil =>
    obtain rfl := Except.ok.inj h
    rfl
  | cons i l ih =>
    rw [List.mapM_cons, TableFill.bind_eq_ok] at h
    obtain ⟨p, -, h⟩ := h
    rw [TableFill.bind_eq_ok] at h
    obtain ⟨probes', hprobes', h⟩ := h
    obtain rfl := Except.ok.inj h
    rw [List.length_cons, List.length_cons, ih hprobes']

/-- A loop whose first iteration fails. -/
theorem mapM_range_error {f : ℕ → Except ProbingFault UInt64} {n : ℕ} (hn : 0 < n)
    {e : ProbingFault} (h : f 0 = .error e) : (List.range n).mapM f = .error e := by
  obtain ⟨n, rfl⟩ := Nat.exists_eq_succ_of_ne_zero hn.ne'
  rw [List.range_succ_eq_map, List.mapM_cons, h]
  rfl

/-- A probe within the dataset. -/
theorem probe_eq {dataset : List UInt64} {index : ℕ} (h : index < dataset.length) (adder : ℤ) :
    ∃ key ∈ dataset, probe dataset index adder = .ok (key + UInt64.ofInt adder) := by
  refine ⟨dataset[index], List.getElem_mem h, ?_⟩
  rw [probe, List.getElem?_eq_getElem h]

theorem probe_error {dataset : List UInt64} {index : ℕ} (h : dataset.length ≤ index) (adder : ℤ) :
    probe dataset index adder = .error .outOfBounds := by
  rw [probe, List.getElem?_eq_none h]

/-- With a success probability of 100 no draw asks for an offset. -/
theorem not_decision {succ_probability : ℤ} (h : succ_probability = 100) (x : UInt64) :
    ¬ x % 100 > UInt64.ofInt succ_probability := by
  have h100 : UInt64.ofInt succ_probability = 100 := by rw [h]; rfl
  have hval : (100 : UInt64).toNat = 100 := rfl
  rw [h100, gt_iff_lt, UInt64.lt_iff_toNat_lt, UInt64.toNat_mod, hval]
  omega

theorem add_ofInt_zero (key : UInt64) : key + UInt64.ofInt 0 = key := by
  have h0 : UInt64.ofInt 0 = 0 := rfl
  rw [h0, UInt64.add_zero]

/-! ### The indices -/

theorem uniformBound_eq (size : ℕ) :
    uniformBound size = (((2 ^ 64 - 10000 + size % 2 ^ 64) % 2 ^ 64 : ℕ) : ℤ).bmod (2 ^ 32) := by
  have hval : (10000 : UInt64).toNat = 10000 := by simp
  have hsub : (UInt64.ofNat size - 10000).toNat = (2 ^ 64 - 10000 + size % 2 ^ 64) % 2 ^ 64 := by
    rw [UInt64.toNat_sub, UInt64.toNat_ofNat', hval]
  rw [← hsub]; rfl

/-- The bound of the uniform distribution is below the size. -/
theorem uniformBound_lt {size : ℕ} (h : 10000 ≤ uniformBound size) : uniformBound size < size := by
  rw [uniformBound_eq, Int.bmod_def] at h ⊢
  split_ifs at h ⊢ <;> omega

/-- Up to the sizes that fit into an `int`, the interval needs 20000 keys. -/
theorem le_uniformBound_iff {size : ℕ} (h : size < 2 ^ 31 + 10000) :
    10000 ≤ uniformBound size ↔ 20000 ≤ size := by
  rw [uniformBound_eq, Int.bmod_def]
  split_ifs <;> omega

/-- The index of an exponential draw: at most the largest index, as a double. -/
theorem exponentialIndex_le (size : ℕ) (draw : ℚ) :
    exponentialIndex size draw ≤ Binary64.toNat (Binary64.ofNat (size - 1)) := by
  refine Nat.floor_mono ?_
  have hle : Binary64.ofNat (size - 1) * min 1 draw ≤ Binary64.ofNat (size - 1) := by
    have h := mul_le_mul_of_nonneg_left (min_le_left 1 draw) (Binary64.round_nonneg (size - 1 : ℕ))
    rwa [mul_one] at h
  have hround := Binary64.round_mono hle
  rwa [Binary64.ofNat, Binary64.round_round] at hround

theorem exponentialIndex_one (size : ℕ) :
    exponentialIndex size 1 = Binary64.toNat (Binary64.ofNat (size - 1)) := by
  rw [exponentialIndex, Binary64.mul, min_self, mul_one, Binary64.ofNat, Binary64.round_round]

/-! ### Which calls are well defined -/

/-- Whatever is drawn the call returns as many probes as there are keys, and keys of the dataset for
    a success probability of 100. -/
def WellDefined (dataset : List UInt64) (distribution : ProbingDistribution)
    (succ_probability : ℤ) : Prop :=
  ∀ rng, ∃ probes, generateProbingSet rng dataset distribution succ_probability = .ok probes ∧
    probes.length = dataset.length ∧ (succ_probability = 100 → ∀ p ∈ probes, p ∈ dataset)

/-- For UNIFORM the bound is not below 10000, for the others the largest index is not rounded up. -/
def Feasible (size : ℕ) : ProbingDistribution → Prop
  | .UNIFORM => 10000 ≤ uniformBound size
  | .EXPONENTIAL_SORTED => Binary64.ofNat (size - 1) < size
  | .EXPONENTIAL_RANDOM => Binary64.ofNat (size - 1) < size

/-- The largest index is a double itself for up to 2^53 keys. -/
theorem ofNat_sub_one_lt {size : ℕ} (hpos : 0 < size) (h : size ≤ 2 ^ 53) :
    Binary64.ofNat (size - 1) < size := by
  rw [Binary64.ofNat_eq (by omega)]
  exact_mod_cast Nat.sub_lt hpos one_pos

theorem uniformProbe_ok {dataset : List UInt64} (h : 10000 ≤ uniformBound dataset.length) (rng : Rng)
    (succ_probability : ℤ) (i : ℕ) : ∃ p, uniformProbe rng dataset succ_probability i = .ok p ∧
      (succ_probability = 100 → p ∈ dataset) := by
  obtain ⟨hlow, hhigh⟩ := rng.uniform_mem 10000 (uniformBound dataset.length) h i .index
  have hlt := uniformBound_lt h
  have hindex : (UInt64.ofInt (rng.uniform 10000 (uniformBound dataset.length) i .index)).toNat
      < dataset.length := by
    rw [UInt64.ofInt, UInt64.toNat_ofNat']
    have := Nat.mod_le (rng.uniform 10000 (uniformBound dataset.length) i .index % 2 ^ 64).toNat
      (2 ^ 64)
    omega
  simp only [uniformProbe]
  obtain ⟨key, hkey, hprobe⟩ := probe_eq hindex
    (if UInt64.ofInt (rng.uniform 10000 (uniformBound dataset.length) i .decision) % 100
        > UInt64.ofInt succ_probability then
      (rng.uniform 10000 (uniformBound dataset.length) i .adder).tmod 331777 else 0)
  refine ⟨_, hprobe, fun hsucc => ?_⟩
  rw [if_neg (not_decision hsucc _), add_ofInt_zero]
  exact hkey

theorem exponentialProbe_ok {dataset : List UInt64}
    (h : Binary64.ofNat (dataset.length - 1) < dataset.length) (rng : Rng) (succ_probability : ℤ)
    (i : ℕ) : ∃ p, exponentialProbe rng dataset succ_probability i = .ok p ∧
      (succ_probability = 100 → p ∈ dataset) := by
  have hindex : exponentialIndex dataset.length (rng.exponential i .index) < dataset.length :=
    lt_of_le_of_lt (exponentialIndex_le _ _) ((Nat.floor_lt (Binary64.round_nonneg _)).mpr h)
  simp only [exponentialProbe]
  obtain ⟨key, hkey, hprobe⟩ := probe_eq hindex
    (if rng.toUInt64 (rng.exponential i .decision) % 100 > UInt64.ofInt succ_probability then 1
      else 0)
  refine ⟨_, hprobe, fun hsucc => ?_⟩
  rw [if_neg (not_decision hsucc _), add_ofInt_zero]
  exact hkey

theorem wellDefined_of_feasible {dataset : List UInt64} (hne : dataset ≠ [])
    {distribution : ProbingDistribution} (h : Feasible dataset.length distribution)
    (succ_probability : ℤ) : WellDefined dataset distribution succ_probability := by
  intro rng
  rw [generateProbingSet.eq_def, if_neg hne]
  cases distribution with
  | UNIFORM =>
    obtain ⟨probes, hprobes, hlength, hall⟩ := mapM_ok (l := List.range dataset.length)
      (fun i _ => uniformProbe_ok h rng succ_probability i)
    simp only [if_neg (not_lt.mpr h)]
    exact ⟨probes, hprobes, by rw [hlength, List.length_range], fun hsucc p hp => hall p hp hsucc⟩
  | EXPONENTIAL_SORTED =>
    obtain ⟨probes, hprobes, hlength, hall⟩ := mapM_ok (l := List.range dataset.length)
      (fun i _ => exponentialProbe_ok h rng succ_probability i)
    exact ⟨probes, hprobes, by rw [hlength, List.length_range], fun hsucc p hp => hall p hp hsucc⟩
  | EXPONENTIAL_RANDOM =>
    have hperm := rng.shuffle.perm dataset
    have h' : Binary64.ofNat ((rng.shuffle.apply dataset).length - 1)
        < (rng.shuffle.apply dataset).length := by rw [hperm.length_eq]; exact h
    obtain ⟨probes, hprobes, hlength, hall⟩ :=
      mapM_ok (l := List.range (rng.shuffle.apply dataset).length)
        (fun i _ => exponentialProbe_ok h' rng succ_probability i)
    exact ⟨probes, hprobes, by rw [hlength, List.length_range, hperm.length_eq],
      fun hsucc p hp => hperm.mem_iff.mp (hall p hp hsucc)⟩

/-! ### Which calls can return -/

/-- There is a probe for each key of the dataset. -/
theorem length_generateProbingSet {rng : Rng} {dataset probes : List UInt64}
    {distribution : ProbingDistribution} {succ_probability : ℤ}
    (h : generateProbingSet rng dataset distribution succ_probability = .ok probes) :
    probes.length = dataset.length := by
  rw [generateProbingSet.eq_def] at h
  by_cases hnil : dataset = []
  · rw [if_pos hnil] at h
    obtain rfl := Except.ok.inj h
    rw [hnil]
  · rw [if_neg hnil] at h
    cases distribution with
    | UNIFORM =>
      dsimp only at h
      split_ifs at h
      rw [length_of_mapM h, List.length_range]
    | EXPONENTIAL_SORTED => rw [length_of_mapM h, List.length_range]
    | EXPONENTIAL_RANDOM =>
      rw [length_of_mapM h, List.length_range, (rng.shuffle.perm dataset).length_eq]

/-- The interval of UNIFORM is not empty. -/
def CanReturn (dataset : List UInt64) (distribution : ProbingDistribution) : Prop :=
  dataset ≠ [] → distribution = .UNIFORM → 10000 ≤ uniformBound dataset.length

instance (dataset : List UInt64) (distribution : ProbingDistribution) :
    Decidable (CanReturn dataset distribution) :=
  inferInstanceAs (Decidable (dataset ≠ [] → distribution = .UNIFORM → 10000 ≤ uniformBound _))

theorem canReturn_of_ok {rng : Rng} {dataset probes : List UInt64}
    {distribution : ProbingDistribution} {succ_probability : ℤ}
    (h : generateProbingSet rng dataset distribution succ_probability = .ok probes) :
    CanReturn dataset distribution := by
  rintro hne rfl
  rw [generateProbingSet.eq_def, if_neg hne] at h
  dsimp only at h
  split_ifs at h with hbound
  exact not_lt.mp hbound

/-- A random engine that draws the least number. -/
def rngLeast : Rng :=
  ⟨fun a _ _ _ => a, fun _ _ h _ _ => ⟨le_refl _, h⟩, fun _ _ => 0, fun _ _ => le_refl 0,
    ⟨id, fun _ => List.Perm.refl _⟩, fun _ => 0⟩

theorem exponentialProbe_least {dataset : List UInt64} (hne : dataset ≠ []) (succ_probability : ℤ)
    (i : ℕ) : ∃ p, exponentialProbe rngLeast dataset succ_probability i = .ok p := by
  have hindex : exponentialIndex dataset.length (rngLeast.exponential i .index) = 0 := by
    have hmul : Binary64.mul (Binary64.ofNat (dataset.length - 1)) (min 1 0) = 0 := by
      rw [min_eq_right zero_le_one, Binary64.mul, mul_zero, Binary64.round_zero]
    rw [exponentialIndex]
    change Binary64.toNat (Binary64.mul _ (min 1 0)) = 0
    rw [hmul]
    exact Nat.floor_zero
  obtain ⟨key, -, hprobe⟩ := probe_eq (List.length_pos_of_ne_nil hne)
    (if rngLeast.toUInt64 (rngLeast.exponential i .decision) % 100 > UInt64.ofInt succ_probability
      then 1 else 0)
  simp only [exponentialProbe, hindex]
  exact ⟨_, hprobe⟩

/-- With it every call returns that can. -/
theorem exists_ok_of_canReturn {dataset : List UInt64} {distribution : ProbingDistribution}
    (h : CanReturn dataset distribution) (succ_probability : ℤ) :
    ∃ probes, generateProbingSet rngLeast dataset distribution succ_probability = .ok probes := by
  rw [generateProbingSet.eq_def]
  by_cases hnil : dataset = []
  · exact ⟨[], if_pos hnil⟩
  · rw [if_neg hnil]
    have hexp : ∃ probes, (List.range dataset.length).mapM
        (exponentialProbe rngLeast dataset succ_probability) = .ok probes := by
      obtain ⟨probes, hprobes, -⟩ := @mapM_ok _ (fun _ => True) (List.range dataset.length)
        (fun i _ => (exponentialProbe_least hnil succ_probability i).imp fun _ hp => ⟨hp, trivial⟩)
      exact ⟨probes, hprobes⟩
    cases distribution with
    | UNIFORM =>
      have hbound := h hnil rfl
      obtain ⟨probes, hprobes, -⟩ := mapM_ok (l := List.range dataset.length)
        (fun i _ => uniformProbe_ok hbound rngLeast succ_probability i)
      dsimp only
      rw [if_neg (not_lt.mpr hbound)]
      exact ⟨probes, hprobes⟩
    | EXPONENTIAL_SORTED => exact hexp
    | EXPONENTIAL_RANDOM => exact hexp

/-- A random engine that draws the least integer and, from the exponential distribution, one. -/
def rngOne : Rng :=
  ⟨fun a _ _ _ => a, fun _ _ h _ _ => ⟨le_refl _, h⟩, fun _ _ => 1, fun _ _ => zero_le_one,
    ⟨id, fun _ => List.Perm.refl _⟩, fun _ => 0⟩

/-- With it the first probe of an infeasible call is past the end. -/
theorem exponentialProbe_error {dataset : List UInt64}
    (h : ¬ Binary64.ofNat (dataset.length - 1) < dataset.length) (succ_probability : ℤ) :
    exponentialProbe rngOne dataset succ_probability 0 = .error .outOfBounds := by
  refine probe_error ?_ _
  have hindex : exponentialIndex dataset.length (rngOne.exponential 0 .index)
      = Binary64.toNat (Binary64.ofNat (dataset.length - 1)) := exponentialIndex_one _
  rw [hindex]
  exact (Nat.le_floor_iff (Binary64.round_nonneg _)).mpr (not_lt.mp h)

theorem feasible_of_wellDefined {dataset : List UInt64} (hne : dataset ≠ [])
    {distribution : ProbingDistribution} {succ_probability : ℤ}
    (h : WellDefined dataset distribution succ_probability) :
    Feasible dataset.length distribution := by
  obtain ⟨probes, hprobes, -⟩ := h rngOne
  rw [generateProbingSet.eq_def, if_neg hne] at hprobes
  have hpos : 0 < dataset.length := List.length_pos_of_ne_nil hne
  by_contra hnot
  cases distribution with
  | UNIFORM =>
    simp only [if_pos (not_le.mp hnot)] at hprobes
    cases hprobes
  | EXPONENTIAL_SORTED =>
    simp only [mapM_range_error hpos (exponentialProbe_error hnot succ_probability)] at hprobes
    cases hprobes
  | EXPONENTIAL_RANDOM =>
    have hloop := mapM_range_error hpos (exponentialProbe_error hnot succ_probability)
    cases hloop.symm.trans hprobes

/-- One key, and an interval from 10000 to -9999. -/
theorem probing_set_of_small_dataset :
    generateProbingSet rngOne [5] .UNIFORM 100 = .error .emptyInterval ∧
      ¬ WellDefined [5] .UNIFORM 100 := by
  have hsmall : ¬ 10000 ≤ uniformBound 1 := fun h =>
    absurd ((le_uniformBound_iff (by norm_num)).mp h) (by norm_num)
  refine ⟨?_, fun h => hsmall (feasible_of_wellDefined (by simp) h)⟩
  rw [generateProbingSet.eq_def, if_neg (by simp)]
  exact if_pos (not_le.mp hsmall)

/-- CORRECT: a probing set is well defined for a non-empty dataset, exactly if the interval of the
    uniform distribution is not empty, or the largest index is not rounded up to a double. -/
theorem probing_set_well_defined_iff (dataset : List UInt64) (hne : dataset ≠ [])
    (distribution : ProbingDistribution) (succ_probability : ℤ) :
    (∀ rng, ∃ probes, generateProbingSet rng dataset distribution succ_probability = .ok probes ∧
      probes.length = dataset.length ∧ (succ_probability = 100 → ∀ p ∈ probes, p ∈ dataset)) ↔
    match distribution with
    | .UNIFORM => 10000 ≤ uniformBound dataset.length
    | .EXPONENTIAL_SORTED | .EXPONENTIAL_RANDOM =>
      Binary64.ofNat (dataset.length - 1) < dataset.length := by
  have hfeasible : Feasible dataset.length distribution ↔ match distribution with
      | .UNIFORM => 10000 ≤ uniformBound dataset.length
      | .EXPONENTIAL_SORTED | .EXPONENTIAL_RANDOM =>
        Binary64.ofNat (dataset.length - 1) < dataset.length := by
    cases distribution <;> exact Iff.rfl
  rw [← hfeasible]
  exact ⟨feasible_of_wellDefined hne, fun h => wellDefined_of_feasible hne h succ_probability⟩

/-- Two keys, the exponential distribution, and an engine that draws one. -/
theorem probing_set_well_defined_iff_two_keys :
    ∃ probes, generateProbingSet rngOne [5, 6] .EXPONENTIAL_SORTED 100 = .ok probes ∧
      probes.length = 2 ∧ ((100 : ℤ) = 100 → ∀ p ∈ probes, p ∈ ([5, 6] : List UInt64)) :=
  (probing_set_well_defined_iff [5, 6] (by simp) .EXPONENTIAL_SORTED 100).mpr
    (ofNat_sub_one_lt (by simp) (by norm_num)) rngOne

end dataset
end HashingBenchmark
