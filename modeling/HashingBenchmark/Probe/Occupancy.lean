import HashingBenchmark.Lib.OrbitFill
import HashingBenchmark.Probe.Invariant

/-! When linear probing fails, and how full it leaves the buckets.

    An insert of `KapilLinearHashTable` looks at 50000 buckets, so in a directory of at most that
    many it looks at all of them, and it fails only if each one is full and none holds the key.

    The constructor shuffles the data. Which key ends up in which bucket depends on the shuffle, the
    number of keys in a bucket does not: an insert of a new key is a placement (`OrbitFill.place`)
    on the numbers of occupied slots. `print_data_statistics` measures how far each bucket is from
    the next one with a free slot, which depends on these numbers alone. It counts the buckets with
    an `int`, so in a very large directory it has no such distance for the last ones. -/

namespace HashingBenchmark
open SlotArray Probe

namespace ProbeTable
variable {Key Payload : Type} {BucketSize m : ℕ} [NeZero m]

/-- The bucket behind bucket `i`. -/
def following (i : Fin m) : Fin m := Fin.ofNat m (i.val + 1)

/-- Counting an index up goes from each bucket to the one behind it. -/
theorem iterate_following (index d : ℕ) :
    following^[d] (Fin.ofNat m index) = Fin.ofNat m (index + d) := by
  induction d with
  | zero => rfl
  | succ d ih =>
    rw [Function.iterate_succ_apply', ih, following]
    exact Fin.ext (Nat.mod_add_mod (index + d) m 1)

theorem walk_eq_iterate (home : Key → UInt64) (key : Key) (d : ℕ) :
    walk home m key d = following^[d] (walk home m key 0) :=
  (iterate_following ((home key).toNat % m) d).symm

/-- A walk of less than a whole round ends in bucket `i`, before or behind the wrap. -/
theorem walk_eq_iff (home : Key → UInt64) (key : Key) {d : ℕ} (hd : d < m) (i : Fin m) :
    walk home m key d = i ↔
      (home key).toNat % m + d = i ∨ (home key).toNat % m + d = i + m := by
  have hhome : (home key).toNat % m < m := Nat.mod_lt _ (by omega)
  have hi := i.isLt
  rw [Fin.ext_iff]
  change ((home key).toNat % m + d) % m = i ↔ _
  generalize (home key).toNat % m = a at hhome ⊢
  rcases lt_or_ge (a + d) m with hlt | hge
  · rw [Nat.mod_eq_of_lt hlt]; omega
  · rw [Nat.mod_eq_sub_mod hge, Nat.mod_eq_of_lt (by omega)]; omega

/-- A walk of `m` steps comes to every bucket. -/
theorem exists_walk_eq (home : Key → UInt64) (key : Key) (i : Fin m) :
    ∃ d < m, walk home m key d = i := by
  have hhome : (home key).toNat % m < m := Nat.mod_lt _ (Nat.pos_of_ne_zero (NeZero.ne m))
  have hi := i.isLt
  rcases le_or_gt ((home key).toNat % m) i.val with hle | hgt
  · have hd : i.val - (home key).toNat % m < m := by omega
    exact ⟨_, hd, (walk_eq_iff home key hd i).mpr (by omega)⟩
  · have hd : i.val + m - (home key).toNat % m < m := by omega
    exact ⟨_, hd, (walk_eq_iff home key hd i).mpr (by omega)⟩

variable [DecidableEq Key]

/-- An insert that may look at every bucket throws exactly if they all pass, and then it leaves the
    table as it was. -/
theorem insert_threw_iff (Sentinel : Key) (home : Key → UInt64) {limit : ℕ} (hlimit : m ≤ limit)
    (name : String) (key : Key) (payload : Payload) (t : ProbeTable Key Payload BucketSize m) :
    ((∃ e t', ProbeTable.insert Sentinel home limit name key payload t = .threw e t') ↔
      ∀ i, (t.buckets i).Passes Sentinel key) ∧
    ∀ e t', ProbeTable.insert Sentinel home limit name key payload t = .threw e t' → t' = t := by
  rcases insertLoop_cases Sentinel key payload
    ("Building " ++ name ++ " failed: during probing, all buckets along the way are full") t limit
    ((home key).toNat % m) with ⟨hall, hthrow⟩ | ⟨s, -, -, j, hstop, hret⟩
  · rw [ProbeTable.insert, hthrow]
    refine ⟨⟨fun _ i => ?_, fun _ => ⟨_, _, rfl⟩⟩, fun e t' h => ?_⟩
    · obtain ⟨d, hd, rfl⟩ := exists_walk_eq home key i
      exact hall d (by omega)
    · rw [Outcome.threw.injEq] at h
      exact h.2.symm
  · rw [ProbeTable.insert, hret]
    refine ⟨⟨?_, fun hall => absurd (hall _) hstop.not_passes⟩, ?_⟩
    · rintro ⟨e, t', h⟩
      cases h
    · intro e t' h
      cases h

/-! ### Occupied slots -/

/-- The number of occupied slots of each bucket. -/
def occupancy (Sentinel : Key) (t : ProbeTable Key Payload BucketSize m) (i : Fin m) : ℕ :=
  occupied Sentinel (t.buckets i).keys

/-- What a returning insert of a new key does to the numbers of occupied slots. -/
theorem occupancy_insert {Sentinel : Key} {home : Key → UInt64} {limit : ℕ} {name : String}
    {done : List (Key × Payload)} {t t' : ProbeTable Key Payload BucketSize m}
    (h : Built Sentinel home limit done t) {d : Key × Payload} (hkey : d.1 ≠ Sentinel)
    (hnew : d.1 ∉ done.map Prod.fst)
    (hins : ProbeTable.insert Sentinel home limit name d.1 d.2 t = .returned t') :
    occupancy Sentinel t' = OrbitFill.place following BucketSize (occupancy Sentinel t)
      (walk home m d.1 0) := by
  obtain ⟨key, payload⟩ := d
  obtain ⟨s, -, hbefore, j, hstop, rfl⟩ := insert_returned hins
  have hnone : lastWrite done key = none := by
    rw [← Option.not_isSome_iff_eq_none, lastWrite_isSome_iff]
    exact fun hmem => hnew (List.mem_map.mpr hmem)
  have habsent : ∀ a b, (t.buckets a).keys b ≠ key := fun a b =>
    (h.represents.notStored_iff hkey).mp hnone (a, b)
  have hfull : ∀ i, (t.buckets i).Passes Sentinel key ↔ ¬ occupancy Sentinel t i < BucketSize := by
    intro i
    have hle := occupied_le Sentinel (t.buckets i).keys
    rw [Bucket.Passes, and_iff_left (habsent i), full_iff_occupied_eq, occupancy]
    omega
  have hfree : (t.buckets (walk home m key s)).keys j = Sentinel :=
    hstop.1.resolve_right (habsent _ j)
  have hstops : OrbitFill.Stops following (fun i => occupancy Sentinel t i < BucketSize)
      (walk home m key 0) (walk home m key s) := by
    refine ⟨s, (walk_eq_iterate home key s).symm, ?_, fun d' hd' => ?_⟩
    · by_contra hno
      exact hstop.not_passes ((hfull _).mpr hno)
    · rw [← walk_eq_iterate]
      exact (hfull _).mp (hbefore d' hd')
  rw [OrbitFill.place_of_stops hstops]
  funext a
  rw [occupancy, keys_write]
  rcases eq_or_ne a (walk home m key s) with rfl | ha
  · rw [if_pos rfl, Function.update_self]
    exact occupied_write (h.prefixes _) hkey hfree fun j' hj' => (hstop.2 j' hj').1
  · rw [if_neg ha, Function.update_of_ne ha, occupancy]

/-- After returning inserts of distinct keys the numbers of occupied slots are those of the
    placements at the home buckets. -/
theorem occupancy_insertAll [Inhabited Payload] {Sentinel : Key} {home : Key → UInt64} {limit : ℕ}
    {name : String} {data : List (Key × Payload)} {t : ProbeTable Key Payload BucketSize m}
    (hdata : ∀ d ∈ data, d.1 ≠ Sentinel) (hnodup : (data.map Prod.fst).Nodup)
    (hrun : insertAll (ProbeTable.insert Sentinel home limit name) data (empty Sentinel)
      = .returned t) :
    occupancy Sentinel t = ((data.map Prod.fst).map fun key => walk home m key 0).foldl
      (OrbitFill.place following BucketSize) (fun _ => 0) := by
  have hinv := Outcome.runAll_induction (I := fun done (u : ProbeTable Key Payload BucketSize m) =>
    Built Sentinel home limit done u ∧
    occupancy Sentinel u = ((done.map Prod.fst).map fun key => walk home m key 0).foldl
      (OrbitFill.place following BucketSize) (fun _ => 0)) ?_ ?_ hrun
  · exact hinv.2
  · refine ⟨built_empty Sentinel home limit, ?_⟩
    funext i
    exact occupied_eq_zero_iff.mpr fun _ => rfl
  · rintro done d u v hpre ⟨hu, hocc⟩ hv
    have hkey : d.1 ≠ Sentinel := hdata d (hpre.subset (by simp))
    have hnew : d.1 ∉ done.map Prod.fst := by
      have hnd := hnodup.sublist (hpre.sublist.map Prod.fst)
      rw [List.map_append, List.map_singleton] at hnd
      exact fun hmem => List.disjoint_of_nodup_append hnd hmem (List.mem_singleton_self _)
    refine ⟨hu.insert hkey hv, ?_⟩
    rw [occupancy_insert hu hkey hnew hv, hocc]
    simp only [List.map_append, List.map_cons, List.map_nil, List.foldl_append, List.foldl_cons,
      List.foldl_nil]

/-! ### Statistics -/

/-- `found_sentinel` in the second loop of `print_data_statistics`. -/
def foundSentinel (Sentinel : Key) (b : Bucket Key Payload BucketSize) : Bool :=
  (Fin.findSome? fun i => if b.keys i = Sentinel then some true else none).getD false

/-- The loop over `directory_ind`; `budget` is the number of steps left before the limit. -/
def emptyLoop (Sentinel : Key) (t : ProbeTable Key Payload BucketSize m) : ℕ → ℕ → ℕ
  | 0, directory_ind => directory_ind
  | budget + 1, directory_ind =>
    if foundSentinel Sentinel (t.buckets (Fin.ofNat m directory_ind)) then directory_ind
    else emptyLoop Sentinel t budget (directory_ind + 1)

def intMax : ℕ := 2147483647

/-- The entry of `dist_to_empty` for bucket `buck_ind`. The index, the start and `start+50000` are
    `int`; where the last of them does not fit, the condition of the loop is undefined. -/
def distToEmpty (Sentinel : Key) (t : ProbeTable Key Payload BucketSize m) (buck_ind : Fin m) :
    Option ℕ :=
  if buck_ind + 50000 ≤ intMax then some (emptyLoop Sentinel t 50000 buck_ind - buck_ind) else none

theorem foundSentinel_iff (Sentinel : Key) (b : Bucket Key Payload BucketSize) :
    foundSentinel Sentinel b = true ↔ ¬ Full Sentinel b.keys := by
  rw [foundSentinel]
  generalize hfind : (Fin.findSome? fun i => if b.keys i = Sentinel then some true else none) = r
  cases r with
  | none =>
    have hfull : Full Sentinel b.keys := fun i heq => by
      have := Fin.findSome?_eq_none_iff.mp hfind i
      rw [if_pos heq] at this
      cases this
    simp [hfull]
  | some r =>
    obtain ⟨i, hi, -⟩ := Fin.findSome?_eq_some_iff.mp hfind
    split_ifs at hi with heq
    rw [Option.getD_some, ← Option.some.inj hi]
    exact iff_of_true rfl fun hfull => hfull i heq

/-- The distance to the next free slot depends on the numbers of occupied slots alone. -/
theorem distToEmpty_congr {Sentinel : Key} {t t' : ProbeTable Key Payload BucketSize m}
    (hocc : ∀ i, occupancy Sentinel t i = occupancy Sentinel t' i) (buck_ind : Fin m) :
    distToEmpty Sentinel t buck_ind = distToEmpty Sentinel t' buck_ind := by
  have hfound : ∀ i, foundSentinel Sentinel (t.buckets i) = foundSentinel Sentinel (t'.buckets i) := by
    intro i
    rw [Bool.eq_iff_iff, foundSentinel_iff, foundSentinel_iff, full_iff_occupied_eq,
      full_iff_occupied_eq]
    exact not_congr (Eq.congr_left (hocc i))
  have hloop : ∀ budget directory_ind, emptyLoop Sentinel t budget directory_ind
      = emptyLoop Sentinel t' budget directory_ind := by
    intro budget
    induction budget with
    | zero => exact fun _ => rfl
    | succ budget ih => intro directory_ind; rw [emptyLoop, emptyLoop, hfound, ih]
  rw [distToEmpty, distToEmpty, hloop]

/-- Every bucket has a distance exactly if `start+50000` is an `int` for the last one. -/
theorem forall_distToEmpty_iff (Sentinel : Key) (t : ProbeTable Key Payload BucketSize m) :
    (∀ i, ∃ d, distToEmpty Sentinel t i = some d) ↔ m ≤ 2147433648 := by
  have hpos : 0 < m := Nat.pos_of_ne_zero (NeZero.ne m)
  have hsome : ∀ i, (∃ d, distToEmpty Sentinel t i = some d) ↔ i.val + 50000 ≤ intMax := by
    intro i
    rw [distToEmpty]
    split_ifs with hfits
    · exact iff_of_true ⟨_, rfl⟩ hfits
    · refine iff_of_false ?_ hfits
      rintro ⟨d, hd⟩
      cases hd
  simp only [hsome, intMax]
  constructor
  · intro h
    have hlast := h ⟨m - 1, by omega⟩
    dsimp only at hlast
    omega
  · intro hm i
    have hi := i.isLt
    omega

end ProbeTable

/-- CORRECT: in a directory of at most 50000 buckets an insert throws if and only if all slots are
    occupied and none of them holds the key, and a call that throws changes nothing. -/
theorem linear_insert_throws_iff {Key Payload : Type} [DecidableEq Key] {BucketSize m : ℕ}
    [NeZero m] (args : TemplateArgs Key) (hashfn : HashFn Key) (hm : m ≤ 50000) (key : Key)
    (payload : Payload) (t : KapilLinearHashTable Key Payload BucketSize m) :
    ((∃ e t', KapilLinearHashTable.insert args hashfn key payload t = .threw e t') ↔
      ∀ p, (t.slots p).1 ≠ args.Sentinel ∧ (t.slots p).1 ≠ key) ∧
    ∀ e t', KapilLinearHashTable.insert args hashfn key payload t = .threw e t' → t' = t := by
  obtain ⟨hiff, hsame⟩ := ProbeTable.insert_threw_iff args.Sentinel hashfn hm
    (KapilLinearHashTable.name args BucketSize hashfn) key payload t
  refine ⟨hiff.trans ⟨fun hall p => ?_, fun hall i => ?_⟩, hsame⟩
  · exact ⟨(hall p.1).1 p.2, (hall p.1).2 p.2⟩
  · exact ⟨fun j => (hall (i, j)).1, fun j => (hall (i, j)).2⟩

/-- A full table of two one-slot buckets: the insert of a key it does not hold throws, and that of a
    key it holds does not. -/
theorem linear_insert_throws_iff_full :
    let args : TemplateArgs UInt64 := ⟨8, 8, false, 18446744073709551615⟩
    let hashfn : HashFn UInt64 := ⟨id, "identity"⟩
    let t : KapilLinearHashTable UInt64 UInt64 1 2 :=
      (insertAll (KapilLinearHashTable.insert args hashfn) [(5, 7), (3, 9)]
        (ProbeTable.empty args.Sentinel)).state
    (∃ e, KapilLinearHashTable.insert args hashfn 4 0 t = .threw e t) ∧
    ¬ ∃ e t', KapilLinearHashTable.insert args hashfn 3 0 t = .threw e t' := by
  intro args hashfn t
  constructor
  · obtain ⟨hiff, hsame⟩ := linear_insert_throws_iff args hashfn (by omega) 4 0 t
    obtain ⟨e, t', hthrow⟩ := hiff.mpr (by decide +kernel)
    obtain rfl := hsame e t' hthrow
    exact ⟨e, hthrow⟩
  · rw [(linear_insert_throws_iff args hashfn (by omega) 3 0 t).1]
    decide +kernel

/-- In an empty directory of 2 ^ 31 + 1 buckets no `int` counts the last one. -/
theorem linear_occupancy_of_large_directory :
    let args : TemplateArgs UInt64 := ⟨8, 8, false, 18446744073709551615⟩
    let hashfn : HashFn UInt64 := ⟨id, "identity"⟩
    ∃ t : KapilLinearHashTable UInt64 UInt64 1 2147483649,
      insertAll (KapilLinearHashTable.insert args hashfn) [] (ProbeTable.empty args.Sentinel)
        = .returned t ∧
      ¬ ∀ i, ∃ d, t.distToEmpty args.Sentinel i = some d := by
  refine ⟨_, rfl, fun h => ?_⟩
  obtain ⟨d, hd⟩ := h ⟨2147483648, by omega⟩
  have hlarge : ¬ 2147483648 + 50000 ≤ ProbeTable.intMax := by decide
  rw [ProbeTable.distToEmpty, if_neg hlarge] at hd
  cases hd

/-- CORRECT up to the range of `int`: two orders of the same distinct keys, neither of which makes an
    insert throw, leave the same number of occupied slots in every bucket, and every bucket has a
    distance to the next free slot, which is the same after both, exactly if there are at most
    2147433648 buckets. -/
theorem linear_occupancy_ignores_order_iff {Key Payload : Type} [DecidableEq Key]
    [Inhabited Payload] {BucketSize m : ℕ} [NeZero m] (args : TemplateArgs Key)
    (hashfn : HashFn Key) (data data' : List (Key × Payload))
    (hperm : (data.map Prod.fst).Perm (data'.map Prod.fst))
    (hnodup : (data.map Prod.fst).Nodup) (hdata : ∀ d ∈ data, d.1 ≠ args.Sentinel)
    (t t' : KapilLinearHashTable Key Payload BucketSize m)
    (hrun : insertAll (KapilLinearHashTable.insert args hashfn) data (ProbeTable.empty args.Sentinel)
      = .returned t)
    (hrun' : insertAll (KapilLinearHashTable.insert args hashfn) data'
      (ProbeTable.empty args.Sentinel) = .returned t') :
    (∀ i, occupied args.Sentinel (t.buckets i).keys
      = occupied args.Sentinel (t'.buckets i).keys) ∧
    ((∀ i, ∃ d, t.distToEmpty args.Sentinel i = some d ∧
      t'.distToEmpty args.Sentinel i = some d) ↔ m ≤ 2147433648) := by
  have hdata' : ∀ d ∈ data', d.1 ≠ args.Sentinel := by
    intro d hd
    obtain ⟨e, he, heq⟩ := List.mem_map.mp (hperm.mem_iff.mpr (List.mem_map_of_mem hd))
    exact heq ▸ hdata e he
  have hocc : t.occupancy args.Sentinel = t'.occupancy args.Sentinel := by
    rw [ProbeTable.occupancy_insertAll hdata hnodup hrun,
      ProbeTable.occupancy_insertAll hdata' (hperm.nodup_iff.mp hnodup) hrun']
    exact OrbitFill.foldl_place_perm (hperm.map _) _
  have hdist := ProbeTable.distToEmpty_congr (congrFun hocc)
  refine ⟨congrFun hocc, ?_⟩
  rw [← ProbeTable.forall_distToEmpty_iff args.Sentinel t]
  refine forall_congr' fun i => exists_congr fun d => ?_
  rw [← hdist i, and_self]

/-- Three keys that meet in the last bucket of two. -/
theorem linear_occupancy_ignores_order_iff_wraps :
    let args : TemplateArgs UInt64 := ⟨8, 8, false, 18446744073709551615⟩
    let hashfn : HashFn UInt64 := ⟨id, "identity"⟩
    let run (data : List (UInt64 × UInt64)) : Outcome Fault (KapilLinearHashTable UInt64 UInt64 2 2) :=
      insertAll (KapilLinearHashTable.insert args hashfn) data (ProbeTable.empty args.Sentinel)
    let t := (run [(5, 7), (3, 9), (1, 1)]).state
    let t' := (run [(1, 1), (5, 7), (3, 9)]).state
    (∀ i, occupied args.Sentinel (t.buckets i).keys
      = occupied args.Sentinel (t'.buckets i).keys) ∧
    ∀ i, ∃ d, t.distToEmpty args.Sentinel i = some d ∧ t'.distToEmpty args.Sentinel i = some d := by
  obtain ⟨hsame, hiff⟩ := @linear_occupancy_ignores_order_iff UInt64 UInt64 _ _ 2 2 _
    ⟨8, 8, false, 18446744073709551615⟩ ⟨id, "identity"⟩ [(5, 7), (3, 9), (1, 1)]
    [(1, 1), (5, 7), (3, 9)] (by decide) (by simp) (by simp) _ _ rfl rfl
  exact ⟨hsame, hiff.mpr (by omega)⟩

end HashingBenchmark
