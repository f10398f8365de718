import HashingBenchmark.Dataset.Cached

/-! The keys that `load_cached` samples from a data file.

    The buffer has the requested size and starts with zeros. The loop overwrites it from the front
    with the values in the window, and stops when the buffer is full or the file is used up. In the
    second case the zeros that are left become a key (`sampleLoop_eq`). -/

namespace HashingBenchmark
namespace dataset
open UIntOrder

variable {w : Window} {source : List UInt64}

/-- The keys of a shuffled file, in its order. -/
def samples (w : Window) (source : List UInt64) : List UInt64 :=
  (source.filter w.keep).map w.transform

/-- The loop with `done` written and `r` zeros left. -/
theorem sampleLoop_eq (done : List UInt64) (r : ℕ) :
    sampleLoop w source done.length (done ++ List.replicate r 0)
      = done ++ (samples w source).take r ++ List.replicate (r - (samples w source).length) 0 := by
  induction source generalizing done r with
  | nil => simp [sampleLoop, samples]
  | cons x rest ih =>
    cases r with
    | zero => simp [sampleLoop]
    | succ r =>
      have hroom : done.length < (done ++ List.replicate (r + 1) (0 : UInt64)).length := by simp
      rw [sampleLoop, if_pos hroom]
      by_cases hkeep : w.keep x = true
      · have hset : (done ++ List.replicate (r + 1) (0 : UInt64)).set done.length (w.transform x)
            = (done ++ [w.transform x]) ++ List.replicate r 0 := by
          rw [List.set_append_right _ _ (le_refl _), Nat.sub_self, List.replicate_succ,
            List.set_cons_zero, List.append_assoc, List.singleton_append]
        have hsamples : samples w (x :: rest) = w.transform x :: samples w rest := by
          rw [samples, List.filter_cons_of_pos hkeep, List.map_cons, samples]
        have hlength : done.length + 1 = (done ++ [w.transform x]).length := by simp
        rw [if_pos hkeep, hset, hlength, ih, hsamples, List.take_succ_cons, List.length_cons,
          Nat.add_sub_add_right, List.append_assoc done, List.singleton_append]
      · have hsamples : samples w (x :: rest) = samples w rest := by
          rw [samples, List.filter_cons_of_neg hkeep, samples]
        rw [if_neg hkeep, ih, hsamples]

/-- The filled buffer: as many samples as fit, and zeros behind them. -/
theorem sampled_buffer (n : ℕ) :
    sampleLoop w source 0 (List.replicate n 0)
      = (samples w source).take n ++ List.replicate (n - (samples w source).length) 0 :=
  sampleLoop_eq [] n

theorem mem_samples {k : UInt64} :
    k ∈ samples w source ↔ ∃ x ∈ source, w.keep x = true ∧ w.transform x = k := by
  simp [samples, and_assoc]

/-- Every key is the transform of a value in the window, or one less if that is the maximal key. -/
def Sampled (w : Window) (source keys : List UInt64) : Prop :=
  ∀ k ∈ keys, ∃ x ∈ source, w.keep x = true ∧
    (k = w.transform x ∨ w.transform x = dataMax ∧ k = w.transform x - 1)

/-- The samples themselves become such keys. -/
theorem sampled_finish {ds : List UInt64} (h : ∀ x ∈ ds, x ∈ samples w source) :
    Sampled w source (finish ds) := by
  intro k hk
  obtain ⟨y, hy, rfl⟩ := mem_finish.mp hk
  obtain ⟨x, hx, hkeep, rfl⟩ := mem_samples.mp (h y hy)
  refine ⟨x, hx, hkeep, ?_⟩
  rw [demote]
  split_ifs with hmax
  · exact Or.inr ⟨hmax, rfl⟩
  · exact Or.inl rfl

/-- A zero is such a key only as a sample. -/
theorem zero_mem_samples {keys : List UInt64} (h : Sampled w source keys) (hzero : 0 ∈ keys) :
    0 ∈ samples w source := by
  obtain ⟨x, hx, hkeep, htransform | ⟨hmax, hone⟩⟩ := h 0 hzero
  · exact mem_samples.mpr ⟨x, hx, hkeep, htransform.symm⟩
  · rw [hmax] at hone
    exact absurd hone (by decide)

/-- What a request of `n` keys gets. -/
theorem sampled_buffer_iff (n : ℕ) :
    Sampled w source (finish (sampleLoop w source 0 (List.replicate n 0))) ↔
      n ≤ (samples w source).length ∨ 0 ∈ samples w source := by
  rw [sampled_buffer]
  constructor
  · intro h
    by_contra hnot
    rw [not_or] at hnot
    refine hnot.2 (zero_mem_samples h (mem_finish.mpr ⟨0, ?_, by decide⟩))
    exact List.mem_append_right _ (List.mem_replicate.mpr ⟨by omega, rfl⟩)
  · intro h
    refine sampled_finish fun x hx => ?_
    rcases List.mem_append.mp hx with hx | hx
    · exact List.mem_of_mem_take hx
    · obtain ⟨hne, rfl⟩ := List.mem_replicate.mp hx
      rcases h with h | h
      · omega
      · exact h

/-- What a call for one of the three datasets does that finds nothing in the cache. -/
theorem loadCached_sosd (w : Windows) {f : Sosd} {c : Call} (hid : c.id = f.id)
    {s : State Fixture.ID} (hmiss : TwoLevel.find s.datasets c.id c.dataset_size = none)
    (hsource : loadSource c.file c.rng.shuffle (s.ds f) = .ok source) :
    (loadCached w c s).1 = .ok (if source = [] then []
      else finish (sampleLoop (w.of f) source 0 (List.replicate c.dataset_size 0))) := by
  have hfill : fill w c s = fillSosd w f c.file c.rng.shuffle c.dataset_size s := by
    rw [fill, hid]
    cases f <;> rfl
  rw [loadCached, throughCache, hmiss]
  simp only [hfill, fillSosd, hsource, Except.map]
  split_ifs <;> rfl

/-- Two keys are asked for, and the file has one. -/
theorem sosd_sampling_invents_zero :
    let w : Windows := ⟨⟨fun x => decide (10 ≤ x), fun x => x - 5⟩, ⟨fun _ => true, id⟩⟩
    let c : Call := ⟨.FB, 2, none, ⟨⟨id, fun _ => List.Perm.refl _⟩, fun _ => 0, fun _ => 0⟩⟩
    let s : State Fixture.ID := ⟨fun _ => none, fun _ => [12, 3]⟩
    loadSource c.file c.rng.shuffle (s.ds .fb) = .ok [12, 3] ∧
      (loadCached w c s).1 = .ok [0, 7] ∧ ¬ Sampled w.fb [12, 3] [0, 7] := by
  intro w c s
  refine ⟨rfl, by decide, fun h => ?_⟩
  have hzero := zero_mem_samples h (by simp)
  exact absurd hzero (by decide)

/-- CORRECT: a dataset that is sampled from a file has only keys of the file, exactly if the file
    does not exist, has as many values in the window as keys are asked for, or has one there that
    becomes the key 0. -/
theorem sosd_sampling_iff (w : Windows) (f : Sosd) (c : Call) (hid : c.id = f.id)
    (s : State Fixture.ID) (hmiss : TwoLevel.find s.datasets c.id c.dataset_size = none)
    (source : List UInt64)
    (hsource : loadSource c.file c.rng.shuffle (s.ds f) = .ok source) :
    (∃ keys, (loadCached w c s).1 = .ok keys ∧ Sampled (w.of f) source keys) ↔
      source = [] ∨ c.dataset_size ≤ (source.filter (w.of f).keep).length ∨
        ∃ x ∈ source, (w.of f).keep x = true ∧ (w.of f).transform x = 0 := by
  have hresult := loadCached_sosd w hid hmiss hsource
  have hlength : (samples (w.of f) source).length = (source.filter (w.of f).keep).length :=
    List.length_map _
  rw [← mem_samples, ← hlength]
  by_cases hempty : source = []
  · rw [if_pos hempty] at hresult
    exact iff_of_true ⟨[], hresult, fun k hk => absurd hk List.not_mem_nil⟩ (Or.inl hempty)
  · rw [if_neg hempty] at hresult
    rw [or_iff_right hempty, ← sampled_buffer_iff]
    constructor
    · rintro ⟨keys, hkeys, h⟩
      exact Except.ok.inj (hresult.symm.trans hkeys) ▸ h
    · intro h
      exact ⟨_, hresult, h⟩

/-- WIKI, with as many values as keys asked for, one of them the maximal key. -/
theorem sosd_sampling_iff_wiki :
    let w : Windows := ⟨⟨fun _ => true, id⟩, ⟨fun _ => true, id⟩⟩
    let c : Call := ⟨.WIKI, 2, none, ⟨⟨id, fun _ => List.Perm.refl _⟩, fun _ => 0, fun _ => 0⟩⟩
    let s : State Fixture.ID := ⟨fun _ => none, fun _ => [18446744073709551615, 3]⟩
    ∃ keys, (loadCached w c s).1 = .ok keys ∧ Sampled (w.of .wiki) [18446744073709551615, 3] keys :=
  (sosd_sampling_iff _ .wiki _ rfl _ rfl [18446744073709551615, 3] rfl).mpr
    (Or.inr (Or.inl (by decide)))

end dataset
end HashingBenchmark
