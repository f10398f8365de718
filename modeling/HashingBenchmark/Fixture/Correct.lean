import HashingBenchmark.Fixture.Signature
import Mathlib.Data.List.Chain
import Mathlib.Data.List.TakeWhile
import Mathlib.Data.Stream.Init

/-! When the cached setup is the one a call would have made.

    Between two calls the cache is what the last setup made, and the signature is that of the last
    call that got to its loop. A signature leaves out the success probability, so among calls one
    after the other with equal signatures the first one's probability counts (`measured_iff`).

    With datasets that load empty there is one more thing to go wrong: a failed setup leaves the
    signature, but not the probing set, of the last call that got to its loop. A call that has this
    signature again then has nothing to probe.

    The random engines are arbitrary, so what is said of a sequence of calls is said of all its runs.
    A run ends where a setup would draw its probes from an empty interval. -/

namespace HashingBenchmark
namespace Fixture
open dataset (CanReturn)

variable {Ty : Type} {typeidName : Ty → String}

/-- `RangeSize` or `percentage_of_point_queries`. -/
def Call.number (c : Call Ty) : ℕ :=
  match c.fn with
  | .TableProbe RangeSize => RangeSize
  | .TableMixedLookup percentage_of_point_queries => percentage_of_point_queries
  | .PointProbe RangeSize _ => RangeSize

/-- The success probability of the probes, 100 where the function has no such argument. -/
def Call.succProbability (c : Call Ty) : ℤ :=
  match c.fn with
  | .TableProbe _ => 100
  | .TableMixedLookup _ => 100
  | .PointProbe _ succ_probability => succ_probability

/-- The signature of a call. -/
def Call.signature (typeidName : Ty → String) (c : Call Ty) : String :=
  Fixture.signature typeidName c.number c.args

/-! ### One call -/

/-- The probing set is one of these arguments. -/
def Generated.From (g : Generated) (c : Call Ty) (keys : List UInt64) : Prop :=
  g.keys = keys ∧ g.distribution = c.args.probing_dist ∧ g.succ_probability = c.succProbability

theorem Generated.length_probes (g : Generated) : g.probes.length = g.keys.length :=
  dataset.length_generateProbingSet g.returned

theorem Generated.canReturn (g : Generated) : CanReturn g.keys g.distribution :=
  dataset.canReturn_of_ok g.returned

theorem Generated.of_call {rng : dataset.Rng} {keys : List UInt64}
    {distribution : ProbingDistribution} {p : ℤ} {g : Generated}
    (h : Generated.call rng keys distribution p = .ok g) :
    g.keys = keys ∧ g.distribution = distribution ∧ g.succ_probability = p := by
  rw [Generated.call] at h
  split at h
  · obtain rfl := Except.ok.inj h
    exact ⟨rfl, rfl, rfl⟩
  · cases h

theorem Generated.exists_call {keys : List UInt64} {distribution : ProbingDistribution}
    (h : CanReturn keys distribution) (p : ℤ) :
    ∃ g, Generated.call dataset.rngLeast keys distribution p = .ok g := by
  obtain ⟨probes, hprobes⟩ := dataset.exists_ok_of_canReturn h p
  rw [Generated.call]
  split
  · exact ⟨_, rfl⟩
  · rename_i hfault
    cases hprobes.symm.trans hfault

/-- The cache after a setup. -/
def afterSetup (typeidName : Ty → String) (c : Call Ty) (keys : List UInt64) (g : Generated) :
    State Ty :=
  ⟨c.signature typeidName, some g, some ⟨c.args.table, makeData keys⟩⟩

/-- What a setup leaves: after a failed one only the probing set is new. -/
def setup (typeidName : Ty → String) (c : Call Ty) (keys : List UInt64) (g : Generated)
    (s : State Ty) : State Ty × Bool :=
  if keys = [] then ({ s with probing_set := some g }, false)
  else (afterSetup typeidName c keys g, true)

theorem Call.run_eq (typeidName : Ty → String) (c : Call Ty) (keys : List UInt64)
    (rng : dataset.Rng) (s : State Ty) : c.run typeidName keys rng s
      = if s.previous_signature = c.signature typeidName then .ok (s, true)
        else (Generated.call rng keys c.args.probing_dist c.succProbability).map
          fun g => setup typeidName c keys g s := by
  have hrun : c.run typeidName keys rng s
      = benchmark typeidName c.number c.succProbability c.args keys rng s := by
    obtain ⟨fn, args⟩ := c
    cases fn <;> rfl
  rw [hrun, benchmark, ← Call.signature]
  by_cases hsig : s.previous_signature = c.signature typeidName
  · rw [if_neg (not_not.mpr hsig), if_pos hsig, ← hsig]
  · rw [if_pos hsig, if_neg hsig]
    cases Generated.call rng keys c.args.probing_dist c.succProbability with
    | error fault => rfl
    | ok g =>
      simp only [Except.map, setup, afterSetup, makeData, List.map_eq_nil_iff]
      split_ifs <;> rfl

/-! ### What holds of all runs -/

theorem Generated.call_self (g : Generated) :
    Generated.call g.rng g.keys g.distribution g.succ_probability = .ok g := by
  rw [Generated.call]
  split
  · rename_i probes hprobes
    obtain rfl := Except.ok.inj (hprobes.symm.trans g.returned)
    rfl
  · rename_i hfault
    cases hfault.symm.trans g.returned

/-- A call can have a probing set of its own exactly if its interval is not empty. -/
theorem exists_from_iff {c : Call Ty} {keys : List UInt64} :
    (∃ g : Generated, g.From c keys) ↔ CanReturn keys c.args.probing_dist := by
  constructor
  · rintro ⟨g, hkeys, hdistribution, -⟩
    rw [← hkeys, ← hdistribution]
    exact g.canReturn
  · intro h
    obtain ⟨g, hg⟩ := Generated.exists_call h c.succProbability
    exact ⟨g, Generated.of_call hg⟩

/-- In all runs of the calls from the state, all calls that get to their loop have the property. -/
def Always (typeidName : Ty → String) (P : Call Ty → List UInt64 → State Ty → Prop)
    (calls : List (Call Ty × List UInt64)) (s : State Ty) : Prop :=
  ∀ rngs, ∀ x ∈ measurements typeidName calls rngs s, P x.1 x.2.1 x.2.2

section Always
variable {P : Call Ty → List UInt64 → State Ty → Prop} {c : Call Ty} {keys : List UInt64}
  {calls : List (Call Ty × List UInt64)} {s : State Ty}

theorem always_nil : Always typeidName P [] s := fun _ _ hx => absurd hx List.not_mem_nil

/-- A call with the previous signature has the cache as it is. -/
theorem always_cons_same (hsame : s.previous_signature = c.signature typeidName) :
    Always typeidName P ((c, keys) :: calls) s ↔ P c keys s ∧ Always typeidName P calls s := by
  have hmeasurements : ∀ rngs, measurements typeidName ((c, keys) :: calls) rngs s
      = (c, keys, s) :: measurements typeidName calls rngs.tail s := by
    intro rngs
    rw [measurements, c.run_eq, if_pos hsame]
  constructor
  · intro h
    refine ⟨h (Stream'.const dataset.rngLeast) (c, keys, s) ?_, fun rngs x hx => ?_⟩
    · rw [hmeasurements]
      exact List.mem_cons_self
    · refine h (Stream'.cons dataset.rngLeast rngs) x ?_
      rw [hmeasurements, Stream'.tail_cons]
      exact List.mem_cons_of_mem _ hx
  · rintro ⟨hhead, htail⟩ rngs
    rw [hmeasurements, List.forall_mem_cons]
    exact ⟨hhead, htail _⟩

/-- Any other call has a probing set of its own, and gets to its loop unless it loaded nothing. -/
theorem always_cons_new (hnew : s.previous_signature ≠ c.signature typeidName) :
    Always typeidName P ((c, keys) :: calls) s ↔ ∀ g : Generated, g.From c keys →
      ((setup typeidName c keys g s).2 = true → P c keys (setup typeidName c keys g s).1) ∧
        Always typeidName P calls (setup typeidName c keys g s).1 := by
  have hmeasurements : ∀ rngs g,
      Generated.call rngs.head keys c.args.probing_dist c.succProbability = .ok g →
      measurements typeidName ((c, keys) :: calls) rngs s
        = (if (setup typeidName c keys g s).2 = true
            then [(c, keys, (setup typeidName c keys g s).1)] else [])
          ++ measurements typeidName calls rngs.tail (setup typeidName c keys g s).1 := by
    intro rngs g hg
    rw [measurements, c.run_eq, if_neg hnew, hg]
    rw [Except.map]
    rcases setup typeidName c keys g s with ⟨s', _ | _⟩ <;> rfl
  constructor
  · rintro h g ⟨rfl, hdistribution, hprobability⟩
    have hg : ∀ rngs, Generated.call (Stream'.cons g.rng rngs).head g.keys c.args.probing_dist
        c.succProbability = .ok g := by
      intro rngs
      rw [Stream'.head_cons, ← hdistribution, ← hprobability, g.call_self]
    refine ⟨fun hloop => ?_, fun rngs x hx => ?_⟩
    · refine h (Stream'.cons g.rng (Stream'.const dataset.rngLeast)) (c, g.keys, _) ?_
      rw [hmeasurements _ g (hg _), if_pos hloop]
      exact List.mem_append_left _ (List.mem_singleton_self _)
    · refine h (Stream'.cons g.rng rngs) x ?_
      rw [hmeasurements _ g (hg _), Stream'.tail_cons]
      exact List.mem_append_right _ hx
  · intro h rngs
    cases hg : Generated.call rngs.head keys c.args.probing_dist c.succProbability with
    | error fault =>
      have hnil : measurements typeidName ((c, keys) :: calls) rngs s = [] := by
        rw [measurements, c.run_eq, if_neg hnew, hg]
        rfl
      rw [hnil]
      exact fun x hx => absurd hx List.not_mem_nil
    | ok g =>
      obtain ⟨hhead, htail⟩ := h g (Generated.of_call hg)
      rw [hmeasurements rngs g hg]
      intro x hx
      rcases List.mem_append.mp hx with hx | hx
      · split_ifs at hx with hloop
        · rw [List.mem_singleton.mp hx]
          exact hhead hloop
        · exact absurd hx List.not_mem_nil
      · exact htail _ x hx

theorem setup_nil (g : Generated) :
    setup typeidName c [] g s = ({ s with probing_set := some g }, false) := if_pos rfl

theorem setup_of_ne_nil (hkeys : keys ≠ []) (g : Generated) :
    setup typeidName c keys g s = (afterSetup typeidName c keys g, true) := if_neg hkeys

end Always

/-! ### The probing set and the table of a call -/

/-- At its measured loop the call has a probing set generated from its own dataset, distribution and
    success probability, and a table of its own type built from its own dataset. -/
def Sound (c : Call Ty) (keys : List UInt64) (s : State Ty) : Prop :=
  (∃ g, s.probing_set = some g ∧ g.From c keys) ∧
  s.prev_table = some ⟨c.args.table, makeData keys⟩

/-- The calls have the same parameters but for the success probability. -/
def SameParameters (c d : Call Ty) : Prop := c.number = d.number ∧ c.args = d.args

/-- Calls with the same parameters have the same success probability. -/
def SameProbability (c d : Call Ty) : Prop :=
  SameParameters c d → c.succProbability = d.succProbability

section Sound
variable {load : ID → ℕ → List UInt64}

/-- The keys of the dataset of a call. -/
def Call.keys (load : ID → ℕ → List UInt64) (c : Call Ty) : List UInt64 :=
  load c.args.did c.args.dataset_size

theorem sound_afterSetup {c : Call Ty} {keys : List UInt64} {g : Generated} (h : g.From c keys) :
    Sound c keys (afterSetup typeidName c keys g) :=
  ⟨⟨g, rfl, h⟩, rfl⟩

/-- The cache of a call, for another one with the same parameters. -/
theorem sound_iff_of_sameParameters {c d : Call Ty} {s : State Ty}
    (hsound : Sound c (c.keys load) s) (hsame : SameParameters c d) :
    Sound d (d.keys load) s ↔ SameProbability c d := by
  obtain ⟨⟨g, hg, hkeys, hdistribution, hprobability⟩, htable⟩ := hsound
  have hload : c.keys load = d.keys load := by rw [Call.keys, hsame.2, Call.keys]
  constructor
  · rintro ⟨⟨g', hg', -, -, hprobability'⟩, -⟩ -
    obtain rfl := Option.some.inj (hg.symm.trans hg')
    exact hprobability.symm.trans hprobability'
  · intro h
    refine ⟨⟨g, hg, hkeys.trans hload, ?_, hprobability.trans (h hsame)⟩, ?_⟩
    · rw [hdistribution, hsame.2]
    · rw [htable, hsame.2, hload]

/-- A call with its own setup: it has its own cache, if its setup returns at all. -/
theorem always_sound_new {d : Call Ty} {calls : List (Call Ty × List UInt64)} {s : State Ty}
    (hnew : s.previous_signature ≠ d.signature typeidName) (hkeys : d.keys load ≠ []) {C : Prop}
    (hrest : ∀ g : Generated, g.From d (d.keys load) →
      (Always typeidName Sound calls (afterSetup typeidName d (d.keys load) g) ↔ C)) :
    Always typeidName Sound ((d, d.keys load) :: calls) s ↔
      (CanReturn (d.keys load) d.args.probing_dist → C) := by
  rw [always_cons_new hnew, ← exists_from_iff]
  simp only [setup_of_ne_nil hkeys]
  constructor
  · rintro h ⟨g, hg⟩
    exact (hrest g hg).mp (h g hg).2
  · intro h g hg
    exact ⟨fun _ => sound_afterSetup hg, (hrest g hg).mpr (h ⟨g, hg⟩)⟩

/-- The calls before the first one whose interval is empty. -/
def returning (load : ID → ℕ → List UInt64) (calls : List (Call Ty)) : List (Call Ty) :=
  calls.takeWhile fun c => CanReturn (c.keys load) c.args.probing_dist

theorem returning_cons (c : Call Ty) (calls : List (Call Ty)) :
    returning load (c :: calls)
      = if CanReturn (c.keys load) c.args.probing_dist then c :: returning load calls else [] := by
  rw [returning, List.takeWhile_cons]
  simp only [decide_eq_true_eq]
  rfl

/-- Run lemma: from a cache that is right for the last call. -/
theorem always_sound_iff (htypeid : Function.Injective typeidName) (calls : List (Call Ty))
    (hload : ∀ c ∈ calls, c.keys load ≠ []) {c : Call Ty} {s : State Ty}
    (hsig : s.previous_signature = c.signature typeidName) (hsound : Sound c (c.keys load) s) :
    Always typeidName Sound (calls.map fun d => (d, d.keys load)) s ↔
      (c :: returning load calls).IsChain SameProbability := by
  induction calls generalizing c s with
  | nil => exact iff_of_true always_nil (List.isChain_singleton c)
  | cons d calls ih =>
    rw [List.forall_mem_cons] at hload
    rw [List.map_cons, returning_cons]
    by_cases hsame : s.previous_signature = d.signature typeidName
    · -- the cache of the call before, whose setup has returned
      have hparameters : SameParameters c d :=
        (signature_inj htypeid).mp (hsig.symm.trans hsame)
      have hcan : CanReturn (d.keys load) d.args.probing_dist := by
        obtain ⟨⟨g, -, hg⟩, -⟩ := hsound
        rw [Call.keys, ← hparameters.2]
        exact exists_from_iff.mp ⟨g, hg⟩
      rw [always_cons_same hsame, if_pos hcan, List.isChain_cons_cons,
        sound_iff_of_sameParameters hsound hparameters]
      exact and_congr_right fun hprobability => ih hload.2 hsame
        ((sound_iff_of_sameParameters hsound hparameters).mpr hprobability)
    · have hother : SameProbability c d := by
        rintro ⟨hnumber, hargs⟩
        refine absurd ?_ hsame
        rw [hsig, Call.signature, Call.signature, hnumber, hargs]
      rw [always_sound_new hsame hload.1 fun g hg => ih hload.2 rfl (sound_afterSetup hg)]
      split_ifs with hcan
      · rw [List.isChain_cons_cons, and_iff_right hother, imp_iff_right hcan]
      · exact iff_of_true (absurd · hcan) (List.isChain_singleton c)

/-- The first call does its setup. -/
theorem always_sound_init_iff (htypeid : Function.Injective typeidName) (calls : List (Call Ty))
    (hload : ∀ c ∈ calls, c.keys load ≠ []) :
    Always typeidName Sound (calls.map fun c => (c, c.keys load)) State.init ↔
      (returning load calls).IsChain SameProbability := by
  cases calls with
  | nil => exact iff_of_true always_nil List.isChain_nil
  | cons c calls =>
    rw [List.forall_mem_cons] at hload
    have hnew : (State.init : State Ty).previous_signature ≠ c.signature typeidName :=
      (signature_ne_empty _ _).symm
    rw [List.map_cons, returning_cons, always_sound_new hnew hload.1 fun g hg =>
      always_sound_iff htypeid calls hload.2 rfl (sound_afterSetup hg)]
    split_ifs with hcan
    · rw [imp_iff_right hcan]
    · exact iff_of_true (absurd · hcan) List.isChain_nil

end Sound

/-- What `load_cached` returns for SEQUENTIAL, before it shuffles. -/
def sequential (dataset_size : ℕ) : List UInt64 :=
  (List.range' 20000 dataset_size).map UInt64.ofNat

theorem sequential_ne_nil {n : ℕ} (h : n ≠ 0) : sequential n ≠ [] := by
  simpa [sequential] using h

/-- 30000 keys are enough for every distribution. -/
theorem canReturn_sequential (distribution : ProbingDistribution) :
    CanReturn (sequential 30000) distribution := by
  intro _ _
  rw [sequential, List.length_map, List.length_range']
  exact (dataset.le_uniformBound_iff (by norm_num)).mpr (by norm_num)

/-- The second call changes only the success probability, and measures with the first one's probes. -/
theorem fixture_cache_ignores_succ_probability :
    let load : ID → ℕ → List UInt64 := fun _ n => sequential n
    let args : Arguments Unit := ⟨(), 30000, .SEQUENTIAL, .UNIFORM⟩
    let calls : List (Call Unit) := [⟨.PointProbe 0 100, args⟩, ⟨.PointProbe 0 50, args⟩]
    (∀ c ∈ calls, c.keys load ≠ []) ∧
    ¬ ∀ rngs, ∀ x ∈ measurements (fun _ => "Table") (calls.map fun c => (c, c.keys load)) rngs
      State.init, Sound x.1 x.2.1 x.2.2 := by
  intro load args calls
  have hne : sequential 30000 ≠ [] := sequential_ne_nil (by norm_num)
  have hload : ∀ c ∈ calls, c.keys load ≠ [] :=
    List.forall_mem_cons.mpr ⟨hne, List.forall_mem_singleton.mpr hne⟩
  refine ⟨hload, fun h => ?_⟩
  have hchain := (always_sound_init_iff (fun _ _ _ => rfl) calls hload).mp h
  have hcan : CanReturn (sequential 30000) .UNIFORM := canReturn_sequential .UNIFORM
  have hreturning : returning load calls = calls :=
    List.takeWhile_eq_self_iff.mpr <| List.forall_mem_cons.mpr
      ⟨decide_eq_true hcan, List.forall_mem_singleton.mpr (decide_eq_true hcan)⟩
  rw [hreturning, List.isChain_cons_cons] at hchain
  exact absurd (hchain.1 ⟨rfl, rfl⟩) (by decide)

/-- CORRECT: every call that gets to its measured loop has its own probes and its own table exactly
    if no two calls one after the other have the same parameters but for the success probability. Of
    the calls from the first one on that has an empty interval to draw its probes from, nothing is
    said. -/
theorem fixture_cache_sound_iff (typeidName : Ty → String) (htypeid : Function.Injective typeidName)
    (load : ID → ℕ → List UInt64) (calls : List (Call Ty))
    (hload : ∀ c ∈ calls, load c.args.did c.args.dataset_size ≠ []) :
    (∀ rngs, ∀ x ∈ measurements typeidName (calls.map fun c => (c, c.keys load)) rngs State.init,
      Sound x.1 x.2.1 x.2.2) ↔
    (calls.takeWhile fun c => CanReturn (c.keys load) c.args.probing_dist).IsChain fun c d =>
      SameParameters c d → c.succProbability = d.succProbability :=
  always_sound_init_iff htypeid calls hload

/-- Three calls of which two have the same parameters. -/
theorem fixture_cache_sound_iff_three_calls :
    let load : ID → ℕ → List UInt64 := fun _ n => sequential n
    let calls : List (Call Bool) := [⟨.PointProbe 1 100, ⟨true, 30000, .SEQUENTIAL, .UNIFORM⟩⟩,
      ⟨.TableMixedLookup 1, ⟨true, 30000, .SEQUENTIAL, .UNIFORM⟩⟩,
      ⟨.PointProbe 1 50, ⟨false, 30000, .SEQUENTIAL, .UNIFORM⟩⟩]
    ∀ rngs, ∀ x ∈ measurements (fun b => if b then "A" else "B")
      (calls.map fun c => (c, c.keys load)) rngs State.init, Sound x.1 x.2.1 x.2.2 := by
  intro load calls
  have hcan : CanReturn (load .SEQUENTIAL 30000) .UNIFORM := canReturn_sequential .UNIFORM
  refine (fixture_cache_sound_iff _ (fun a b => ?_) load calls ?_).mpr ?_
  · cases a <;> cases b <;> simp
  · simpa [calls, load] using sequential_ne_nil (by norm_num)
  · simp [calls, Call.keys, hcan, SameParameters, Call.number, Call.succProbability]

/-! ### The probing set after a failed setup -/

/-- The measured loop terminates, for any number of iterations, exactly if there is a probe. -/
theorem measuredLoop_terminates_iff (size : ℕ) :
    (∀ iterations, ∃ fuel, (measuredLoop size fuel iterations 0).isSome) ↔ size ≠ 0 := by
  constructor
  · rintro h rfl
    obtain ⟨fuel, hfuel⟩ := h 1
    have hnone : ∀ fuel i, wrap 0 fuel i = none := by
      intro fuel
      induction fuel with
      | zero => intro i; rfl
      | succ fuel ih => intro i; rw [wrap, if_pos (Nat.zero_le i)]; exact ih _
    simp [measuredLoop, hnone] at hfuel
  · intro hsize iterations
    refine ⟨2, ?_⟩
    suffices h : ∀ i ≤ size, (measuredLoop size 2 iterations i).isSome by
      exact h 0 (Nat.zero_le _)
    induction iterations with
    | zero => intro i _; rfl
    | succ iterations ih =>
      intro i hi
      rw [measuredLoop, wrap]
      split_ifs with hwrap
      · have hlt : ¬ size ≤ i - size := by omega
        rw [wrap, if_neg hlt, Option.bind_some]
        exact ih _ (by omega)
      · rw [Option.bind_some]
        exact ih _ (by omega)

/-- Some call has the signature `previous` again after calls that leave it: calls with this signature,
    and calls that load nothing. Unless one has `failed` before, one of these has another signature,
    so that it fails. -/
def Returns (typeidName : Ty → String) (previous : String) (failed : Prop)
    (calls : List (Call Ty × List UInt64)) : Prop :=
  ∃ between c rest, calls = between ++ c :: rest ∧ c.1.signature typeidName = previous ∧
    (∀ x ∈ between, x.1.signature typeidName = previous ∨ x.2 = []) ∧
    (failed ∨ ∃ x ∈ between, x.1.signature typeidName ≠ previous)

/-- After no call whose dataset loads does a call with its signature come back over a failed one. -/
def NeverReturns (typeidName : Ty → String) (calls : List (Call Ty × List UInt64)) : Prop :=
  ∀ x rest, x :: rest <:+ calls → x.2 ≠ [] →
    ¬ Returns typeidName (x.1.signature typeidName) False rest

theorem returns_cons {previous : String} {failed : Prop} {x : Call Ty × List UInt64}
    {calls : List (Call Ty × List UInt64)} :
    Returns typeidName previous failed (x :: calls) ↔
      (x.1.signature typeidName = previous ∧ failed) ∨
      ((x.1.signature typeidName = previous ∨ x.2 = []) ∧
        Returns typeidName previous (failed ∨ x.1.signature typeidName ≠ previous) calls) := by
  constructor
  · rintro ⟨between, c, rest, heq, hsig, hquiet, hfailed⟩
    cases between with
    | nil =>
      obtain ⟨rfl, rfl⟩ := List.cons.inj heq
      exact Or.inl ⟨hsig, by simpa using hfailed⟩
    | cons y between =>
      obtain ⟨rfl, rfl⟩ := List.cons.inj heq
      rw [List.forall_mem_cons] at hquiet
      simp only [List.mem_cons, or_and_right, exists_or, exists_eq_left] at hfailed
      exact Or.inr ⟨hquiet.1, between, c, rest, rfl, hsig, hquiet.2, or_assoc.mpr hfailed⟩
  · rintro (⟨hsig, hfailed⟩ | ⟨hx, between, c, rest, rfl, hsig, hquiet, hfailed⟩)
    · exact ⟨[], x, calls, rfl, hsig, by simp, Or.inl hfailed⟩
    · refine ⟨x :: between, c, rest, rfl, hsig, List.forall_mem_cons.mpr ⟨hx, hquiet⟩, ?_⟩
      simp only [List.mem_cons, or_and_right, exists_or, exists_eq_left]
      exact or_assoc.mp hfailed

theorem neverReturns_cons {x : Call Ty × List UInt64} {calls : List (Call Ty × List UInt64)} :
    NeverReturns typeidName (x :: calls) ↔
      (x.2 ≠ [] → ¬ Returns typeidName (x.1.signature typeidName) False calls) ∧
        NeverReturns typeidName calls := by
  constructor
  · intro h
    exact ⟨h x calls (List.suffix_refl _), fun y rest hsuf =>
      h y rest (hsuf.trans (List.suffix_cons x calls))⟩
  · rintro ⟨hx, h⟩ y rest hsuf
    rcases List.suffix_cons_iff.mp hsuf with heq | hsuf
    · obtain ⟨rfl, rfl⟩ := List.cons.inj heq
      exact hx
    · exact h y rest hsuf

/-- The calls before the first one that has to draw its probes from an empty interval; `last` is the
    signature of the last call that got to its loop. -/
def defined (typeidName : Ty → String) : String → List (Call Ty × List UInt64) →
    List (Call Ty × List UInt64)
  | _, [] => []
  | last, (c, keys) :: rest =>
    if keys = [] then (c, keys) :: defined typeidName last rest
    else if c.signature typeidName = last ∨ CanReturn keys c.args.probing_dist then
      (c, keys) :: defined typeidName (c.signature typeidName) rest
    else []

theorem defined_cons_same {c : Call Ty} {keys : List UInt64} {last : String}
    {calls : List (Call Ty × List UInt64)} (h : last = c.signature typeidName) :
    defined typeidName last ((c, keys) :: calls) = (c, keys) :: defined typeidName last calls := by
  rw [defined]
  split_ifs with hkeys hsig
  · rfl
  · rw [h]
  · exact absurd (Or.inl h.symm) hsig

/-- The setup of a call makes a probing set for it that is empty only if its dataset is. -/
theorem Generated.From.probingSetSize_eq_zero_iff {g : Generated} {c : Call Ty} {keys : List UInt64}
    (h : g.From c keys) : probingSetSize (some g) = 0 ↔ keys = [] := by
  rw [probingSetSize, g.length_probes, h.1, List.length_eq_zero_iff]

/-- Run lemma: from any cache. -/
theorem always_nonempty_iff (calls : List (Call Ty × List UInt64)) (s : State Ty) :
    Always typeidName (fun _ _ s => probingSetSize s.probing_set ≠ 0) calls s ↔
      ¬ Returns typeidName s.previous_signature (probingSetSize s.probing_set = 0)
          (defined typeidName s.previous_signature calls) ∧
        NeverReturns typeidName (defined typeidName s.previous_signature calls) := by
  induction calls generalizing s with
  | nil => exact iff_of_true always_nil (by simp [defined, Returns, NeverReturns])
  | cons x calls ih =>
    obtain ⟨c, keys⟩ := x
    by_cases hsame : s.previous_signature = c.signature typeidName
    · -- the cache as it is
      rw [always_cons_same hsame, ih, defined_cons_same hsame, returns_cons, neverReturns_cons]
      simp only [← hsame, ne_eq, not_true_eq_false, or_false, true_and, true_or]
      constructor
      · rintro ⟨hsize, hnot, hnever⟩
        have hfalse : (probingSetSize s.probing_set = 0) = False := by simpa using hsize
        rw [hfalse] at hnot ⊢
        exact ⟨by simpa using hnot, fun _ => hnot, hnever⟩
      · rintro ⟨hnot, -, hnever⟩
        rw [not_or] at hnot
        exact ⟨hnot.1, hnot.2, hnever⟩
    · have hnot : ¬ c.signature typeidName = s.previous_signature := fun h => hsame h.symm
      rw [always_cons_new hsame, defined]
      by_cases hkeys : keys = []
      · -- a failed setup
        subst hkeys
        obtain ⟨g, hg⟩ := exists_from_iff.mpr
          (fun hne => absurd rfl hne : CanReturn [] c.args.probing_dist)
        have hrest : ∀ g : Generated, g.From c [] →
            (Always typeidName (fun _ _ s => probingSetSize s.probing_set ≠ 0) calls
              { s with probing_set := some g } ↔
            ¬ Returns typeidName s.previous_signature True
                (defined typeidName s.previous_signature calls) ∧
              NeverReturns typeidName (defined typeidName s.previous_signature calls)) := by
          intro g hg
          have hsize : probingSetSize (some g) = 0 := hg.probingSetSize_eq_zero_iff.mpr rfl
          simpa only [hsize] using ih { s with probing_set := some g }
        rw [if_pos rfl, returns_cons, neverReturns_cons]
        simp only [setup_nil, Bool.false_eq_true, false_imp_iff, true_and, hnot, false_and, false_or,
          not_false_eq_true, or_true, ne_eq, not_true_eq_false]
        exact ⟨fun h => (hrest g hg).mp (h g hg), fun h g hg => (hrest g hg).mpr h⟩
      · -- a new setup
        have hsize : ∀ g : Generated, g.From c keys → probingSetSize (some g) ≠ 0 := fun g hg =>
          mt hg.probingSetSize_eq_zero_iff.mp hkeys
        have hrest : ∀ g : Generated, g.From c keys →
            (Always typeidName (fun _ _ s => probingSetSize s.probing_set ≠ 0) calls
              (afterSetup typeidName c keys g) ↔
            ¬ Returns typeidName (c.signature typeidName) False
                (defined typeidName (c.signature typeidName) calls) ∧
              NeverReturns typeidName (defined typeidName (c.signature typeidName) calls)) := by
          intro g hg
          have hfalse : (probingSetSize (some g) = 0) = False := eq_false (hsize g hg)
          simpa only [afterSetup, hfalse] using ih (afterSetup typeidName c keys g)
        rw [if_neg hkeys]
        simp only [setup_of_ne_nil hkeys, forall_true_left, hnot, false_or]
        split_ifs with hcan
        · obtain ⟨g, hg⟩ := exists_from_iff.mpr hcan
          rw [returns_cons, neverReturns_cons]
          simp only [hnot, hkeys, false_and, or_self, not_false_eq_true, true_and, ne_eq,
            forall_true_left]
          exact ⟨fun h => (hrest g hg).mp (h g hg).2, fun h g hg =>
            ⟨hsize g hg, (hrest g hg).mpr h⟩⟩
        · refine iff_of_true (fun g hg => absurd (exists_from_iff.mp ⟨g, hg⟩) hcan) ?_
          simp [Returns, NeverReturns]

/-- No call has the signature that `previous_signature` has at the start. -/
theorem not_returns_init (failed : Prop) (calls : List (Call Ty × List UInt64)) :
    ¬ Returns typeidName (State.init : State Ty).previous_signature failed calls := by
  rintro ⟨between, c, rest, -, hsig, -⟩
  exact signature_ne_empty _ _ hsig

/-- A call whose file is missing comes between two calls with the same parameters. -/
theorem failed_setup_leaves_empty_probing_set :
    let args : Arguments Unit := ⟨(), 1, .SEQUENTIAL, .EXPONENTIAL_SORTED⟩
    let missing : Arguments Unit := ⟨(), 1, .FB, .EXPONENTIAL_SORTED⟩
    let calls : List (Call Unit × List UInt64) := [(⟨.TableProbe 0, args⟩, [20000]),
      (⟨.PointProbe 0 100, missing⟩, []), (⟨.TableProbe 0, args⟩, [20000])]
    ¬ ∀ rngs, ∀ x ∈ measurements (fun _ => "Table") calls rngs State.init,
      probingSetSize x.2.2.probing_set ≠ 0 ∧ ∀ iterations, ∃ fuel,
        (measuredLoop (probingSetSize x.2.2.probing_set) fuel iterations 0).isSome := by
  intro args missing calls h
  have hnever := ((always_nonempty_iff _ _).mp fun rngs x hx => (h rngs x hx).1).2
  have hdefined : defined (fun _ => "Table") (State.init : State Unit).previous_signature calls
      = calls := by
    simp [calls, args, defined, CanReturn]
  rw [hdefined] at hnever
  have hne : Call.signature (fun _ => "Table") ⟨.PointProbe 0 100, missing⟩
      ≠ Call.signature (fun _ => "Table") ⟨.TableProbe 0, args⟩ := by
    intro hsig
    have hargs := ((signature_inj fun _ _ _ => rfl).mp hsig).2
    exact absurd hargs (by decide)
  refine hnever _ _ (List.suffix_refl calls) (by simp) ⟨[(⟨.PointProbe 0 100, missing⟩, [])], _, [],
    rfl, rfl, by simp, Or.inr ⟨_, List.mem_singleton_self _, hne⟩⟩

/-- CORRECT: every call that gets to its measured loop has a probe, so that its loop terminates,
    exactly if no call repeats the signature of a call whose dataset loaded with only calls in between
    that have this signature or load nothing, and of these at least one with another signature. Of
    the calls from the first one on that has to draw its probes from an empty interval, nothing is
    said. -/
theorem failed_setup_leaves_fixture_usable_iff (typeidName : Ty → String)
    (calls : List (Call Ty × List UInt64)) :
    (∀ rngs, ∀ x ∈ measurements typeidName calls rngs State.init,
      probingSetSize x.2.2.probing_set ≠ 0 ∧ ∀ iterations, ∃ fuel,
        (measuredLoop (probingSetSize x.2.2.probing_set) fuel iterations 0).isSome) ↔
    NeverReturns typeidName (defined typeidName "" calls) := by
  simp only [measuredLoop_terminates_iff, and_self]
  exact (always_nonempty_iff calls State.init).trans
    (and_iff_right (not_returns_init _ (defined typeidName "" calls)))

end Fixture
end HashingBenchmark
