import HashingBenchmark.Lib.UIntOrder
import HashingBenchmark.Probe.Invariant

/-! Linear probing is a map, and how far its two classes are.

    `KapilLinearHashTable` uses one limit for inserts and lookups, so what an insert placed a lookup
    finds. `KapilLinearModelHashTable` lets an insert walk 5000000 buckets and a lookup 50000: a key
    placed further away than that is stored and never found. -/

namespace HashingBenchmark
open SlotArray Probe ProbeTable
variable {Key Payload : Type} [DecidableEq Key] {BucketSize m : ℕ} [NeZero m]

/-- CORRECT: after any inserts that do not throw, the lookup is membership, and every inserted key
    is in exactly one slot, next to the payload of its last insert. -/
theorem linear_hash_table_is_map [Inhabited Payload] (args : TemplateArgs Key) (hashfn : HashFn Key)
    (data : List (Key × Payload)) (hdata : ∀ d ∈ data, d.1 ≠ args.Sentinel)
    (t : KapilLinearHashTable Key Payload BucketSize m)
    (hrun : insertAll (KapilLinearHashTable.insert args hashfn) data (ProbeTable.empty args.Sentinel)
      = .returned t) (q : Key) (hq : q ≠ args.Sentinel) :
    (KapilLinearHashTable.operatorSubscript args hashfn t q = 1 ↔ ∃ d ∈ data, d.1 = q) ∧
    ((∃ d ∈ data, d.1 = q) →
      ∃ p, (∀ p', (t.slots p').1 = q ↔ p' = p) ∧ lastWrite data q = some (t.slots p).2) := by
  have h : Built args.Sentinel hashfn 50000 data t := built_of_insertAll hdata hrun
  refine ⟨h.lookup_eq_one_iff_mem le_rfl hq, fun hmem => ?_⟩
  obtain ⟨v, hv⟩ := Option.isSome_iff_exists.mp (lastWrite_isSome_iff.mpr hmem)
  obtain ⟨p, hp, huniq⟩ := h.represents.existsUnique hq hv
  exact ⟨p, fun p' => ⟨huniq p', by rintro rfl; rw [hp]⟩, by rw [hp]; exact hv⟩

/-- A run with an update, a wrap-around and a full first bucket: the key 5 is found, and the only
    slot that holds it has its last payload. -/
theorem linear_hash_table_is_map_wraps :
    let args : TemplateArgs UInt64 := ⟨8, 8, false, 18446744073709551615⟩
    let hashfn : HashFn UInt64 := ⟨id, "identity"⟩
    let data : List (UInt64 × UInt64) := [(5, 7), (3, 9), (1, 1), (5, 8)]
    let t : KapilLinearHashTable UInt64 UInt64 2 2 :=
      (insertAll (KapilLinearHashTable.insert args hashfn) data
        (ProbeTable.empty args.Sentinel)).state
    KapilLinearHashTable.operatorSubscript args hashfn t 5 = 1 ∧
    KapilLinearHashTable.operatorSubscript args hashfn t 7 ≠ 1 ∧
    ∃ p, (∀ p', (t.slots p').1 = 5 ↔ p' = p) ∧ (t.slots p).2 = 8 := by
  intro args hashfn data t
  have hmap := linear_hash_table_is_map args hashfn data (by simp [data, args]) t
    (Outcome.eq_returned_state (by decide +kernel))
  obtain ⟨hfound, hslot⟩ := hmap 5 (by decide)
  obtain ⟨p, hp, hlast⟩ := hslot (by simp [data])
  refine ⟨hfound.mpr (by simp [data]), ?_, p, hp, (Option.some.inj hlast).symm⟩
  rw [Ne, (hmap 7 (by decide)).1]
  simp [data]

/-! ### The model table: what the lookup cannot reach -/

namespace ProbeTable

/-- One of the first `reach` buckets on the key's walk has a free slot or holds the key. -/
def InReach (Sentinel : Key) (home : Key → UInt64) (reach : ℕ) (key : Key)
    (t : ProbeTable Key Payload BucketSize m) : Prop :=
  ∃ d < reach, ¬ (t.buckets (walk home m key d)).Passes Sentinel key

/-- The lookup law of a table after the inserts `data`. -/
def FindsExactly (lookup : Key → ℕ) (Sentinel : Key) (data : List (Key × Payload)) : Prop :=
  ∀ q, q ≠ Sentinel → lookup q = if q ∈ data.map Prod.fst then 1 else 0

variable {Sentinel : Key} {home : Key → UInt64} {limit reach : ℕ} {name : String}

/-- A bucket that a key's walk passes is passed for good. -/
theorem passes_insertAll {k : Key} {a : Fin m} {data : List (Key × Payload)}
    {t t' : ProbeTable Key Payload BucketSize m}
    (hrun : insertAll (ProbeTable.insert Sentinel home limit name) data t = .returned t')
    (hpass : (t.buckets a).Passes Sentinel k) : (t'.buckets a).Passes Sentinel k := by
  refine Outcome.runAll_induction (I := fun _ u => (u.buckets a).Passes Sentinel k) hpass ?_ hrun
  intro done d u v _ hu hv
  obtain ⟨s, -, -, j, hstop, rfl⟩ := insert_returned hv
  exact passes_write hstop hu

/-- One insert within reach keeps every stored key within reach of its lookup. -/
theorem near_insert {d : Key × Payload} {t t' : ProbeTable Key Payload BucketSize m}
    (hnear : ∀ k, k ≠ Sentinel → (∃ a b, (t.buckets a).keys b = k) →
      ∃ e < reach, ∃ b, (t.buckets (walk home m k e)).keys b = k)
    (hreach : InReach Sentinel home reach d.1 t)
    (hins : ProbeTable.insert Sentinel home limit name d.1 d.2 t = .returned t') :
    ∀ k, k ≠ Sentinel → (∃ a b, (t'.buckets a).keys b = k) →
      ∃ e < reach, ∃ b, (t'.buckets (walk home m k e)).keys b = k := by
  obtain ⟨key, payload⟩ := d
  obtain ⟨s, -, hbefore, j, hstop, rfl⟩ := insert_returned hins
  intro k hk hstored
  rcases eq_or_ne k key with rfl | hkk
  · -- the walk stopped no later than at the bucket that is within reach
    obtain ⟨e, he, hnot⟩ := hreach
    have hse : s ≤ e := not_lt.mp fun hlt => hnot (hbefore e hlt)
    exact ⟨s, by omega, j, keys_write_self ..⟩
  · obtain ⟨a, b, hab⟩ := hstored
    have hne : ¬ (a = walk home m key s ∧ b = j) := by
      rintro ⟨rfl, rfl⟩
      rw [keys_write_self] at hab; exact hkk hab.symm
    rw [keys_write_of_ne hne] at hab
    obtain ⟨e, he, b', hb'⟩ := hnear k hk ⟨a, b, hab⟩
    refine ⟨e, he, b', ?_⟩
    rw [keys_write_of_ne, hb']
    rintro ⟨hwalk, rfl⟩
    rw [hwalk] at hb'
    rcases hstop.1 with hfree | hhit
    · exact hk (hb'.symm.trans hfree)
    · exact hkk (hb'.symm.trans hhit)

/-- Run lemma: if every key was in reach when it was inserted, every stored key is in reach. -/
theorem near_of_insertAll [Inhabited Payload] {data : List (Key × Payload)}
    {t : ProbeTable Key Payload BucketSize m}
    (hrun : insertAll (ProbeTable.insert Sentinel home limit name) data (empty Sentinel)
      = .returned t)
    (hreach : ∀ done d rest (u : ProbeTable Key Payload BucketSize m), data = done ++ d :: rest →
      insertAll (ProbeTable.insert Sentinel home limit name) done (empty Sentinel) = .returned u →
      InReach Sentinel home reach d.1 u) :
    ∀ k, k ≠ Sentinel → (∃ a b, (t.buckets a).keys b = k) →
      ∃ e < reach, ∃ b, (t.buckets (walk home m k e)).keys b = k := by
  -- the run itself is part of the invariant
  have hinv := Outcome.runAll_induction (I := fun done u =>
    insertAll (ProbeTable.insert Sentinel home limit name) done (empty Sentinel) = .returned u ∧
    ∀ k, k ≠ Sentinel → (∃ a b, (u.buckets a).keys b = k) →
      ∃ e < reach, ∃ b, (u.buckets (walk home m k e)).keys b = k)
    ⟨rfl, fun k hk ⟨_, _, hab⟩ => absurd hab.symm hk⟩ ?_ hrun
  · exact hinv.2
  · rintro done d u v ⟨rest, hrest⟩ ⟨hu, hn⟩ hv
    have hsplit : data = done ++ d :: rest := by simpa using hrest.symm
    refine ⟨?_, near_insert hn (hreach done d rest u hsplit hu) hv⟩
    rw [insertAll, Outcome.runAll_snoc_eq_returned]
    exact ⟨u, hu, hv⟩

/-- After inserts that return, the lookup with the limit `reach` finds exactly what was inserted if
    and only if every insert found, within that limit, a bucket with a free slot or the key. -/
theorem findsExactly_iff [Inhabited Payload] {data : List (Key × Payload)}
    (hdata : ∀ d ∈ data, d.1 ≠ Sentinel)
    {t : ProbeTable Key Payload BucketSize m}
    (hrun : insertAll (ProbeTable.insert Sentinel home limit name) data (empty Sentinel)
      = .returned t) :
    FindsExactly (t.operatorSubscript Sentinel home reach) Sentinel data ↔
      ∀ done d rest (u : ProbeTable Key Payload BucketSize m), data = done ++ d :: rest →
        insertAll (ProbeTable.insert Sentinel home limit name) done (empty Sentinel) = .returned u →
        InReach Sentinel home reach d.1 u := by
  have hbuilt : Built Sentinel home limit data t := built_of_insertAll hdata hrun
  constructor
  · intro hfinds done d rest u hsplit hu
    by_contra hnot
    have hpass : ∀ e < reach, (u.buckets (walk home m d.1 e)).Passes Sentinel d.1 := fun e he => by
      by_contra hno; exact hnot ⟨e, he, hno⟩
    -- the rest of the run starts in `u` and never frees one of these buckets
    have hrest : insertAll (ProbeTable.insert Sentinel home limit name) (d :: rest) u
        = .returned t := by
      rw [insertAll, hsplit, Outcome.runAll_append_eq_returned] at hrun
      obtain ⟨u', hu', hrest⟩ := hrun
      rw [insertAll] at hu
      rw [hu, Outcome.returned.injEq] at hu'
      rw [hu']; exact hrest
    have hd : d ∈ data := by rw [hsplit]; simp
    have hone : t.operatorSubscript Sentinel home reach d.1 = 1 := by
      rw [hfinds d.1 (hdata d hd), if_pos (List.mem_map_of_mem hd)]
    obtain ⟨e, he, j, hj⟩ := (hbuilt.lookup_eq_one_iff (hdata d hd) reach).mp hone
    exact (passes_insertAll hrest (hpass e he)).2 j hj
  · intro hreach
    have hnear := near_of_insertAll hrun hreach
    intro q hq
    have hle := operatorSubscript_le_one hq home reach t
    have hone := hbuilt.lookup_eq_one_iff hq reach
    split_ifs with hmem
    · rw [hone]
      obtain ⟨p, hp⟩ := (hbuilt.represents.stored_iff hq).mp
        (lastWrite_isSome_iff.mpr (List.mem_map.mp hmem))
      exact hnear q hq ⟨p.1, p.2, hp⟩
    · have hne : t.operatorSubscript Sentinel home reach q ≠ 1 := by
        rw [Ne, hone]
        rintro ⟨e, -, j, hj⟩
        have hsome := (hbuilt.represents.stored_iff hq).mpr ⟨(walk home m q e, j), hj⟩
        exact hmem (List.mem_map.mpr (lastWrite_isSome_iff.mp hsome))
      omega

section OneSlot

/-- One key in each of the first buckets, in the order of `keys`, and none in the others. -/
def InLine (Sentinel : Key) (keys : List Key) (t : ProbeTable Key Payload 1 m) : Prop :=
  ∀ i : Fin m, (t.buckets i).keys 0 = (keys[i.val]?).getD Sentinel

variable {keys : List Key} {t : ProbeTable Key Payload 1 m}

omit [DecidableEq Key] in
theorem val_walk_zero {d : ℕ} (hd : d < m) : (Fin.ofNat m (0 % m + d)).val = d := by
  simp [Fin.ofNat, Nat.mod_eq_of_lt hd]

omit [DecidableEq Key] in
/-- A walk from bucket 0 passes the filled buckets that hold other keys. -/
theorem InLine.passes (h : InLine Sentinel keys t) (hkeys : ∀ k ∈ keys, k ≠ Sentinel)
    (hm : keys.length ≤ m) {q : Key} {d : ℕ} (hd : d < keys.length) (hq : keys[d] ≠ q) :
    (t.buckets (Fin.ofNat m (0 % m + d))).Passes Sentinel q := by
  rw [Bucket.passes_one_slot, h, val_walk_zero (by omega), List.getElem?_eq_getElem hd,
    Option.getD_some]
  exact ⟨hkeys _ (List.getElem_mem hd), hq⟩

omit [DecidableEq Key] in
/-- It stops at the bucket behind them. -/
theorem InLine.not_passes (h : InLine Sentinel keys t) (hm : keys.length < m) {q : Key} :
    ¬ (t.buckets (Fin.ofNat m (0 % m + keys.length))).Passes Sentinel q := by
  rw [Bucket.passes_one_slot, h, val_walk_zero hm]
  simp

/-- Step lemma: a new key goes into the first free bucket. -/
theorem InLine.insert [Inhabited Payload] (h : InLine Sentinel keys t)
    (hkeys : ∀ k ∈ keys, k ≠ Sentinel) {key : Key} (hfresh : key ∉ keys) (payload : Payload)
    (hm : keys.length < m) (hlimit : keys.length < limit) (name : String) :
    ∃ t', ProbeTable.insert Sentinel (fun _ => 0) limit name key payload t = .returned t' ∧
      InLine Sentinel (keys ++ [key]) t' := by
  have hfree := h.not_passes hm (q := key)
  rcases insertLoop_cases Sentinel key payload
    ("Building " ++ name ++ " failed: during probing, all buckets along the way are full") t limit
    (0 % m) with ⟨hall, -⟩ | ⟨s, hs, hbefore, j, hstop, hret⟩
  · exact absurd (hall keys.length hlimit) hfree
  · have hsl : s = keys.length := by
      refine le_antisymm (not_lt.mp fun hlt => hfree (hbefore _ hlt)) (not_lt.mp fun hlt => ?_)
      have hne : keys[s] ≠ key := fun heq => hfresh (heq ▸ List.getElem_mem hlt)
      exact hstop.not_passes (h.passes hkeys hm.le hlt hne)
    subst hsl
    refine ⟨_, hret, fun i => ?_⟩
    have hj : j = 0 := Subsingleton.elim _ _
    subst hj
    by_cases hi : i = Fin.ofNat m (0 % m + keys.length)
    · subst hi
      rw [keys_write_self, val_walk_zero hm]
      simp
    · rw [keys_write_of_ne fun hij => hi hij.1, h]
      have hne : i.val ≠ keys.length := fun hik => hi (Fin.ext (by rw [val_walk_zero hm, hik]))
      rcases lt_or_ge i.val keys.length with hlt | hge
      · rw [List.getElem?_append_left hlt]
      · rw [List.getElem?_eq_none hge, List.getElem?_eq_none (by simp; omega)]

/-- One-slot buckets and a constant home: distinct keys end up in buckets 0, 1, 2 and so on. -/
theorem insertAll_one_slot [Inhabited Payload] (m limit : ℕ) [NeZero m] (name : String)
    {data : List (Key × Payload)} (hdata : ∀ d ∈ data, d.1 ≠ Sentinel)
    (hnodup : (data.map Prod.fst).Nodup) (hm : data.length ≤ m) (hlimit : data.length ≤ limit) :
    ∃ t : ProbeTable Key Payload 1 m,
      insertAll (ProbeTable.insert Sentinel (fun _ => 0) limit name) data (empty Sentinel)
        = .returned t ∧ InLine Sentinel (data.map Prod.fst) t := by
  refine Outcome.runAll_returns (I := fun done (u : ProbeTable Key Payload 1 m) =>
    InLine Sentinel (done.map Prod.fst) u) (fun i => rfl) ?_
  rintro done ⟨key, payload⟩ u hpre hu
  have hlen : (done.map Prod.fst).length < data.length := by
    have := hpre.length_le
    rw [List.length_append, List.length_singleton] at this
    rw [List.length_map]
    omega
  have hkeys : ∀ k ∈ done.map Prod.fst, k ≠ Sentinel := by
    intro k hk
    obtain ⟨d, hd, rfl⟩ := List.mem_map.mp hk
    exact hdata d (hpre.subset (List.mem_append_left _ hd))
  have hfresh : key ∉ done.map Prod.fst := by
    have hnd := hnodup.sublist (hpre.sublist.map Prod.fst)
    rw [List.map_append] at hnd
    exact fun hmem => (List.disjoint_of_nodup_append hnd) hmem (by simp)
  obtain ⟨t', hret, ht'⟩ := InLine.insert hu hkeys hfresh payload (hlen.trans_le hm)
    (hlen.trans_le hlimit) name
  refine ⟨t', hret, ?_⟩
  rw [List.map_append]
  exact ht'

/-- A key behind `reach` filled one-slot buckets is not found. -/
theorem InLine.lookup_far (h : InLine Sentinel keys t) (hkeys : ∀ k ∈ keys, k ≠ Sentinel)
    (hnodup : keys.Nodup) (hm : keys.length ≤ m) {q : Key} (hq : q ≠ Sentinel)
    (hfar : keys[reach]? = some q) :
    t.operatorSubscript Sentinel (fun _ => 0) reach q = 0 := by
  obtain ⟨hlen, hget⟩ := List.getElem?_eq_some_iff.mp hfar
  rcases lookupLoop_cases hq t reach (0 % m) with ⟨-, hzero⟩ | ⟨s, hs, -, j, hstop, -⟩
  · exact hzero
  · have hne : keys[s] ≠ q := by
      rw [← hget]
      exact fun heq => hs.ne ((List.Nodup.getElem_inj_iff hnodup).mp heq)
    exact absurd (h.passes hkeys hm (hs.trans hlen) hne) hstop.not_passes

end OneSlot

end ProbeTable

/-- 50001 different keys, all predicted into bucket 0 of a directory of 50001 one-slot buckets. -/
def crowdedData : List (UInt64 × UInt64) := (List.range 50001).map fun i => (UInt64.ofNat i, 0)

/-- No insert of `crowdedData` throws, and the lookup does not find its last key. -/
theorem linear_model_table_misses_far_key :
    let args : TemplateArgs UInt64 := ⟨8, 8, false, 18446744073709551615⟩
    let model : Model UInt64 := ⟨fun _ => 0, "constant"⟩
    (∀ d ∈ crowdedData, d.1 ≠ args.Sentinel) ∧
    ∃ t : KapilLinearModelHashTable UInt64 UInt64 1 50001,
      insertAll (KapilLinearModelHashTable.insert args model) crowdedData
        (ProbeTable.empty args.Sentinel) = .returned t ∧
      50000 ∈ crowdedData.map Prod.fst ∧
      KapilLinearModelHashTable.operatorSubscript args model t 50000 = 0 := by
  have hkeys : crowdedData.map Prod.fst = UIntOrder.firstKeys 50001 := by
    rw [crowdedData, List.map_map]; rfl
  have hlen : crowdedData.length = 50001 := by rw [crowdedData, List.length_map, List.length_range]
  have hdata : ∀ d ∈ crowdedData, d.1 ≠ 18446744073709551615 := by
    intro d hd heq
    have hmem : d.1 ∈ UIntOrder.firstKeys 50001 := hkeys ▸ List.mem_map_of_mem hd
    have := UIntOrder.toNat_lt_of_mem_firstKeys (by omega) hmem
    rw [heq] at this
    exact absurd this (by decide)
  have hnodup : (crowdedData.map Prod.fst).Nodup := by
    rw [hkeys]
    exact UIntOrder.nodup_firstKeys (by omega)
  have hfar : (crowdedData.map Prod.fst)[50000]? = some 50000 := by
    rw [hkeys, UIntOrder.firstKeys, List.getElem?_map, List.getElem?_range (by omega)]; rfl
  obtain ⟨t, hrun, ht⟩ := insertAll_one_slot 50001 5000000
    (KapilLinearModelHashTable.name ⟨8, 8, false, 18446744073709551615⟩ 1 ⟨fun _ => 0, "constant"⟩)
    hdata hnodup hlen.le (by omega)
  have hkeysData : ∀ k ∈ crowdedData.map Prod.fst, k ≠ 18446744073709551615 := by
    intro k hk
    obtain ⟨d, hd, rfl⟩ := List.mem_map.mp hk
    exact hdata d hd
  have hcount : (crowdedData.map Prod.fst).length ≤ 50001 := by rw [List.length_map, hlen]
  exact ⟨hdata, t, hrun, List.mem_of_getElem? hfar,
    ht.lookup_far hkeysData hnodup hcount (by decide) hfar⟩

/-- CORRECT exactly when in reach: the model table finds what it stores if and only if each insert
    had, among the first 50000 buckets from the predicted one, a bucket with a free slot or the
    key itself. -/
theorem linear_model_table_finds_iff [Inhabited Payload] (args : TemplateArgs Key)
    (model : Model Key) (data : List (Key × Payload)) (hdata : ∀ d ∈ data, d.1 ≠ args.Sentinel)
    (t : KapilLinearModelHashTable Key Payload BucketSize m)
    (hrun : insertAll (KapilLinearModelHashTable.insert args model) data
      (ProbeTable.empty args.Sentinel) = .returned t) :
    FindsExactly (KapilLinearModelHashTable.operatorSubscript args model t) args.Sentinel data ↔
      ∀ done d rest (u : KapilLinearModelHashTable Key Payload BucketSize m),
        data = done ++ d :: rest →
        insertAll (KapilLinearModelHashTable.insert args model) done
          (ProbeTable.empty args.Sentinel) = .returned u →
        InReach args.Sentinel model 50000 d.1 u :=
  findsExactly_iff hdata hrun

/-- Three keys predicted into the last bucket of three. -/
theorem linear_model_table_finds_iff_small :
    let args : TemplateArgs UInt64 := ⟨8, 8, false, 18446744073709551615⟩
    let model : Model UInt64 := ⟨fun _ => 2, "constant"⟩
    let data : List (UInt64 × UInt64) := [(5, 7), (3, 9), (1, 1)]
    let t : KapilLinearModelHashTable UInt64 UInt64 1 3 :=
      (insertAll (KapilLinearModelHashTable.insert args model) data
        (ProbeTable.empty args.Sentinel)).state
    FindsExactly (KapilLinearModelHashTable.operatorSubscript args model t) args.Sentinel data := by
  intro args model data t
  -- the walks of the three inserts stop after no, one and two full buckets
  have hreach : ∀ done d rest, data = done ++ d :: rest →
      ∀ u : KapilLinearModelHashTable UInt64 UInt64 1 3,
        insertAll (KapilLinearModelHashTable.insert args model) done
          (ProbeTable.empty args.Sentinel) = .returned u →
        InReach args.Sentinel model 50000 d.1 u := by
    simp only [data, Outcome.forall_split_cons]
    refine ⟨fun u hu => ?_, fun u hu => ?_, fun u hu => ?_, Outcome.forall_split_nil⟩
    · obtain rfl : _ = u := congrArg Outcome.state hu
      exact ⟨0, by decide, by simp only [Bucket.passes_one_slot]; decide⟩
    · obtain rfl : _ = u := congrArg Outcome.state hu
      exact ⟨1, by decide, by simp only [Bucket.passes_one_slot]; decide⟩
    · obtain rfl : _ = u := congrArg Outcome.state hu
      exact ⟨2, by decide, by simp only [Bucket.passes_one_slot]; decide⟩
  exact (linear_model_table_finds_iff args model data (by simp [data, args]) t
    (Outcome.eq_returned_state (by decide +kernel))).mpr
    fun done d rest u heq => hreach done d rest heq u

end HashingBenchmark
