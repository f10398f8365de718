import HashingBenchmark.Join.Datasets
import Mathlib.Data.List.Induction

/-! Whose vector the join's `load_cached` returns.

    In a run of calls the first one for an id and a size that has data makes a vector, and every
    later call for them returns it, for whichever relation it is. So the run is sound, in that each
    call gets a vector made for its own relation, exactly if no two calls for the same vector name
    different relations (`relation_cache_sound_iff`). Calls for zero keys, and calls before there is
    data for their id, return nothing and do not count. -/

namespace HashingBenchmark
namespace Join
namespace dataset
open HashingBenchmark.dataset (Sosd State Windows cached throughCache_miss cached_of_returned)

/-! ### Runs of calls -/

/-- The state after a run. -/
def run (w : Windows) (calls : List Call) : State ID :=
  Memo.after (loadCached w) calls State.init

/-- What a call does: find its vector, or have no data for one, or make it. -/
theorem loadCached_cases (w : Windows) (c : Call) (s : State ID) :
    (∃ v, cached s (c.id, c.dataset_size) = some v ∧ loadCached w c s = (.ok v, s)) ∨
    (cached s (c.id, c.dataset_size) = none ∧ (loadCached w c s).2 = s ∧
      (∃ f, c.id.sosd = some f ∧ s.ds f = [] ∧ ¬ HasData c.file) ∧
      ∀ v, (loadCached w c s).1 = .ok v → v = []) ∨
    ∃ v, cached s (c.id, c.dataset_size) = none ∧ v.length = c.dataset_size ∧
      (loadCached w c s).1 = .ok v ∧
      cached (loadCached w c s).2 (c.id, c.dataset_size) = some v ∧
      (∀ k ≠ (c.id, c.dataset_size), cached (loadCached w c s).2 k = cached s k) ∧
      (∀ f, c.id.sosd = some f →
        (loadCached w c s).2.ds f ≠ [] ∧ (s.ds f ≠ [] ∨ HasData c.file)) ∧
      ∀ f, c.id.sosd ≠ some f → (loadCached w c s).2.ds f = s.ds f := by
  cases hc : cached s (c.id, c.dataset_size) with
  | some v => exact Or.inl ⟨v, rfl, (memoises w).hit c s v hc⟩
  | none =>
    right
    have hcall := throughCache_miss finish (fill_datasets w) hc
    rcases fill_cases w c s with ⟨f, hf, hempty, hno, ⟨e, hfill⟩ | hfill⟩ |
      ⟨ds, s', hlength, hfill, hdatasets, hsource, hother⟩
    · rw [hfill] at hcall
      rcases hcall with ⟨e', -, hcall⟩ | ⟨s', hs', -⟩ | ⟨ds, s', s'', hs', -⟩
      · left
        rw [loadCached, hcall]
        exact ⟨rfl, rfl, ⟨f, hf, hempty, hno⟩, fun v hv => by cases hv⟩
      · cases hs'
      · cases hs'
    · rw [hfill] at hcall
      rcases hcall with ⟨e', hs', -⟩ | ⟨s', hs', -, hcall⟩ | ⟨ds, s', s'', hs', -⟩
      · cases hs'
      · left
        obtain rfl : s = s' := congrArg Prod.snd (Except.ok.inj hs')
        rw [loadCached, hcall]
        exact ⟨rfl, rfl, ⟨f, hf, hempty, hno⟩, fun v hv => (Except.ok.inj hv).symm⟩
      · cases hs'
    · rw [hfill] at hcall
      rcases hcall with ⟨e', hs', -⟩ | ⟨s'', hs', -⟩ | ⟨ds', t, s'', hs', hds, hstored, hsame, hcall⟩
      · cases hs'
      · cases hs'
      · right
        obtain ⟨rfl, rfl⟩ : ds = ds' ∧ s' = t := by
          cases hs'; exact ⟨rfl, rfl⟩
        refine ⟨finish ds, rfl, by rw [finish, List.length_map, hlength], ?_⟩
        rw [loadCached, hcall]
        exact ⟨rfl, hstored, hsame, fun f hf => by rw [hds]; exact hsource f hf,
          fun f hf => by rw [hds]; exact hother f hf⟩

/-- There has been data for the id: it needs no file, or a call for it found one with a value. -/
def Available (calls : List Call) (id : ID) : Prop :=
  id.sosd = none ∨ ∃ c ∈ calls, c.id = id ∧ HasData c.file

/-- What holds of the state after the calls. -/
structure Inv (calls : List Call) (s : State ID) : Prop where
  source : ∀ id f, id.sosd = some f → (s.ds f ≠ [] ↔ ∃ c ∈ calls, c.id = id ∧ HasData c.file)
  length : ∀ id n v, cached s (id, n) = some v → v.length = n
  loaded : ∀ id n v f, cached s (id, n) = some v → id.sosd = some f → s.ds f ≠ []

theorem inv_init : Inv [] State.init := by
  refine ⟨fun id f hf => ?_, fun id n v hv => ?_, fun id n v f hv hf => ?_⟩
  · simp [State.init]
  · cases hv
  · cases hv

/-- The calls that have found data, with one call more. -/
theorem exists_snoc_iff {calls : List Call} {c : Call} {id : ID} :
    (∃ d ∈ calls ++ [c], d.id = id ∧ HasData d.file) ↔
      (∃ d ∈ calls, d.id = id ∧ HasData d.file) ∨ c.id = id ∧ HasData c.file := by
  simp only [List.mem_append, List.mem_singleton]
  constructor
  · rintro ⟨d, hd | rfl, h⟩
    · exact Or.inl ⟨d, hd, h⟩
    · exact Or.inr h
  · rintro (⟨d, hd, h⟩ | h)
    · exact ⟨d, Or.inl hd, h⟩
    · exact ⟨c, Or.inr rfl, h⟩

/-- Step lemma. -/
theorem Inv.step {calls : List Call} {s : State ID} (h : Inv calls s) (w : Windows) (c : Call) :
    Inv (calls ++ [c]) (loadCached w c s).2 := by
  rcases loadCached_cases w c s with ⟨v, hfound, hcall⟩ | ⟨-, hstate, ⟨f, hf, hempty, hno⟩, -⟩ |
    ⟨v, hnone, hlength, -, hstored, hsame, hsource, hother⟩
  · rw [hcall]
    refine ⟨fun id f hf => ?_, h.length, h.loaded⟩
    rw [exists_snoc_iff, ← h.source id f hf]
    refine ⟨Or.inl, fun hor => hor.elim (fun hne => hne) ?_⟩
    rintro ⟨rfl, -⟩
    exact h.loaded c.id c.dataset_size v f hfound hf
  · rw [hstate]
    refine ⟨fun id g hg => ?_, h.length, h.loaded⟩
    rw [exists_snoc_iff, ← h.source id g hg]
    exact ⟨Or.inl, fun hor => hor.elim (fun hne => hne) fun hdata => absurd hdata.2 hno⟩
  · refine ⟨fun id f hf => ?_, fun id n u hu => ?_, fun id n u f hu hf => ?_⟩
    · rw [exists_snoc_iff, ← h.source id f hf]
      by_cases hc : c.id.sosd = some f
      · obtain ⟨hne, hdata⟩ := hsource f hc
        exact iff_of_true hne (hdata.imp_right fun hd => ⟨ID.sosd_inj hc hf, hd⟩)
      · rw [hother f hc]
        refine ⟨Or.inl, fun hor => hor.elim (fun hne => hne) ?_⟩
        rintro ⟨rfl, -⟩
        exact absurd hf hc
    · by_cases hk : (id, n) = (c.id, c.dataset_size)
      · rw [hk, hstored, Option.some.injEq] at hu
        rw [← hu, hlength]
        exact (congrArg Prod.snd hk).symm
      · rw [hsame _ hk] at hu
        exact h.length id n u hu
    · by_cases hc : c.id.sosd = some f
      · exact (hsource f hc).1
      · rw [hother f hc]
        have hk : (id, n) ≠ (c.id, c.dataset_size) := by
          intro hk
          have hid : id = c.id := congrArg Prod.fst hk
          exact hc (hid ▸ hf)
        rw [hsame _ hk] at hu
        exact h.loaded id n u f hu hf

/-- Run lemma. -/
theorem inv_run (w : Windows) (calls : List Call) : Inv calls (run w calls) := by
  induction calls using List.reverseRecOn with
  | nil => exact inv_init
  | append_singleton calls c ih =>
    rw [run, Memo.after_append]
    exact ih.step w c

/-- Which calls return keys. -/
theorem returns_iff (w : Windows) (pre : List Call) (c : Call) :
    (∃ v, (loadCached w c (run w pre)).1 = .ok v ∧ v ≠ []) ↔
      0 < c.dataset_size ∧ Available (pre ++ [c]) c.id := by
  have hinv := inv_run w pre
  have hinv' := hinv.step w c
  constructor
  · rintro ⟨v, hv, hne⟩
    have hstored := cached_of_returned (fill_datasets w) hne hv
    refine ⟨hinv'.length c.id _ v hstored ▸ List.length_pos_of_ne_nil hne, ?_⟩
    cases hf : c.id.sosd with
    | none => exact Or.inl hf
    | some f => exact Or.inr ((hinv'.source c.id f hf).mp (hinv'.loaded c.id _ v f hstored hf))
  · rintro ⟨hpos, havail⟩
    have hne : ∀ v : List UInt64, v.length = c.dataset_size → v ≠ [] := fun v hv =>
      List.ne_nil_of_length_pos (hv ▸ hpos)
    rcases loadCached_cases w c (run w pre) with ⟨v, hfound, hcall⟩ |
      ⟨-, -, ⟨f, hf, hempty, hno⟩, -⟩ | ⟨v, -, hlength, hv, -⟩
    · exact ⟨v, by rw [hcall], hne v (hinv.length c.id _ v hfound)⟩
    · -- neither an earlier call nor this one has found data
      rcases havail with hnone | hdata
      · cases hnone.symm.trans hf
      · rcases exists_snoc_iff.mp hdata with hdata | hdata
        · exact absurd hempty ((hinv.source c.id f hf).mpr hdata)
        · exact absurd hdata.2 hno
    · exact ⟨v, hv, hne v hlength⟩

/-- The call `c`, made after the calls `pre`, found nothing in the cache and returned `v`. -/
def Generates (w : Windows) (pre : List Call) (c : Call) (v : List UInt64) : Prop :=
  cached (run w pre) (c.id, c.dataset_size) = none ∧ (loadCached w c (run w pre)).1 = .ok v

/-- Every call that returns keys returns what it made itself, or an earlier call with the same
    arguments. -/
def Sound (w : Windows) (calls : List Call) : Prop :=
  ∀ pre c post v, calls = pre ++ c :: post → (loadCached w c (run w pre)).1 = .ok v → v ≠ [] →
    ∃ pre' c' post', pre ++ [c] = pre' ++ c' :: post' ∧ Generates w pre' c' v ∧
      c'.id = c.id ∧ c'.dataset_size = c.dataset_size ∧ c'.is_s_relation = c.is_s_relation

/-- Two calls for the same keys, the first with data for them, are for the same relation. -/
def SameRelation (calls : List Call) : Prop :=
  ∀ pre c mid c' post, calls = pre ++ c :: (mid ++ c' :: post) → c'.id = c.id →
    c'.dataset_size = c.dataset_size → 0 < c.dataset_size → Available (pre ++ [c]) c.id →
    c'.is_s_relation = c.is_s_relation

/-- Once keys are made, no later call makes them again. -/
theorem not_generates_again {w : Windows} {pre t : List Call} {c c' : Call} {v v' : List UInt64}
    (h : Generates w pre c v) (hv : v ≠ []) (hid : c'.id = c.id)
    (hsize : c'.dataset_size = c.dataset_size) : ¬ Generates w (pre ++ c :: t) c' v' := by
  rintro ⟨hnone, -⟩
  have hkept := (memoises w).keep_after t (cached_of_returned (fill_datasets w) hv h.2)
  rw [run, Memo.after_append, Memo.after_cons, hid, hsize] at hnone
  cases hnone.symm.trans hkept

/-- In a run only one call makes the keys for an id and a size. -/
theorem generates_unique {w : Windows} {pre pre' post post' : List Call} {c c' : Call}
    {v v' : List UInt64} (heq : pre ++ c :: post = pre' ++ c' :: post') (h : Generates w pre c v)
    (hv : v ≠ []) (h' : Generates w pre' c' v') (hv' : v' ≠ []) (hid : c'.id = c.id)
    (hsize : c'.dataset_size = c.dataset_size) : c = c' := by
  rcases List.append_eq_append_iff.mp heq with ⟨t, rfl, ht⟩ | ⟨t, rfl, ht⟩
  · cases t with
    | nil => exact (List.cons.inj ht).1
    | cons d t =>
      obtain ⟨rfl, -⟩ := List.cons.inj ht
      exact absurd h' (not_generates_again h hv hid hsize)
  · cases t with
    | nil => exact (List.cons.inj ht).1.symm
    | cons d t =>
      obtain ⟨rfl, -⟩ := List.cons.inj ht
      exact absurd h (not_generates_again h' hv' hid.symm hsize.symm)

theorem sameRelation_of_sound {w : Windows} {calls : List Call} (h : Sound w calls) :
    SameRelation calls := by
  intro pre c mid c' post hcalls hid hsize hpos havail
  have havail' : Available ((pre ++ c :: mid) ++ [c']) c'.id := by
    rw [hid]
    refine havail.imp_right fun ⟨d, hd, hdata⟩ => ⟨d, ?_, hdata⟩
    rcases List.mem_append.mp hd with hd | hd
    · simp [hd]
    · simp [List.mem_singleton.mp hd]
  obtain ⟨v, hv, hne⟩ := (returns_iff w pre c).mpr ⟨hpos, havail⟩
  obtain ⟨v', hv', hne'⟩ := (returns_iff w (pre ++ c :: mid) c').mpr ⟨hsize ▸ hpos, havail'⟩
  obtain ⟨p, d, q, hsplit, hgen, hdid, hdsize, hdrel⟩ := h pre c (mid ++ c' :: post) v hcalls hv hne
  obtain ⟨p', d', q', hsplit', hgen', hdid', hdsize', hdrel'⟩ :=
    h (pre ++ c :: mid) c' post v' (by rw [hcalls]; simp) hv' hne'
  have hsame : p ++ d :: (q ++ (mid ++ [c'])) = p' ++ d' :: q' := by
    rw [← hsplit', ← List.cons_append, ← List.append_assoc, ← hsplit]; simp
  have hd : d = d' := generates_unique hsame hgen hne hgen' hne' (by rw [hdid', hid, hdid])
    (by rw [hdsize', hsize, hdsize])
  rw [← hdrel', ← hd, hdrel]

theorem sound_of_sameRelation {w : Windows} {calls : List Call} (h : SameRelation calls) :
    Sound w calls := by
  intro pre c post v hcalls hv hne
  cases hc : cached (run w pre) (c.id, c.dataset_size) with
  | none => exact ⟨pre, c, [], rfl, ⟨hc, hv⟩, rfl, rfl, rfl⟩
  | some u =>
    rw [(memoises w).hit c _ u hc] at hv
    obtain rfl := Except.ok.inj hv
    -- the keys are those of the call that stored them
    obtain ⟨p, d, q, rfl, hkey, hnone, hret⟩ := (memoises w).origin rfl hc
    have hid : d.id = c.id := congrArg Prod.fst hkey
    have hsize : d.dataset_size = c.dataset_size := congrArg Prod.snd hkey
    have hgen : Generates w p d u := ⟨by rw [hid, hsize]; exact hnone, hret⟩
    obtain ⟨hpos, havail⟩ := (returns_iff w p d).mp ⟨u, hret, hne⟩
    have hrel := h p d q c post (by rw [hcalls, List.append_assoc, List.cons_append]) hid.symm
      hsize.symm hpos havail
    exact ⟨p, d, q ++ [c], by simp, hgen, hid, hsize, hrel.symm⟩

/-- A call for R, and one for S of the same size: S gets the keys of R. -/
theorem cache_ignores_relation :
    let w : Windows := ⟨⟨fun _ => true, id⟩, ⟨fun _ => true, id⟩⟩
    let rng : HashingBenchmark.dataset.Engine :=
      ⟨⟨id, fun _ => List.Perm.refl _⟩, fun _ => 0, fun _ => 0⟩
    let rng2 : HashingBenchmark.dataset.Engine :=
      ⟨⟨List.reverse, List.reverse_perm⟩, fun _ => 0, fun _ => 0⟩
    let r : Call := ⟨.SEQUENTIAL, 2, 0, none, rng, rng2⟩
    let s : Call := ⟨.SEQUENTIAL, 2, 1, none, rng, rng2⟩
    (loadCached w s (run w [r])).1 = .ok [20000, 20010] ∧
      (loadCached w s (run w [])).1 = .ok [20010, 20000] ∧ ¬ Sound w [r, s] := by
  intro w rng rng2 r s
  refine ⟨by decide, by decide, fun h => ?_⟩
  have hrel := sameRelation_of_sound h [] r [] s [] rfl rfl rfl Nat.two_pos (Or.inl rfl)
  exact absurd hrel (by decide)

/-- CORRECT: in a run of calls every relation gets keys that were made for it, exactly if no two
    calls for the same keys are for different relations. -/
theorem relation_cache_sound_iff (w : Windows) (calls : List Call) :
    Sound w calls ↔ SameRelation calls :=
  ⟨sameRelation_of_sound, sound_of_sameRelation⟩

end dataset
end Join
end HashingBenchmark
