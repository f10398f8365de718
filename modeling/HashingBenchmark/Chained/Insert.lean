import HashingBenchmark.Chained.Invariant

/-! Inserts into a chained table keep the invariant.

    An insert walks to the last bucket of a chain (`insertLoop_walk`) and replaces the end of the
    chain there: by the same bucket with one more slot in use (`Built.fill`), or by the full bucket
    and a new one (`Built.grow`). A new bucket exists only if the tape's segments have cells, so with
    a segment size of zero an insert into a full chain fails, and this is the only way to fail
    (`Built.insert_cases`). -/

namespace HashingBenchmark
open SlotArray Chained support

namespace ChainedTable
variable {Key Payload : Type} {BucketSize m : ℕ} [DecidableEq Key] [Inhabited Payload]
  {Sentinel : Key} {sizeofBucket : ℕ} {index : Key → ℕ}

/-! ### The loop of `Bucket::insert` -/

/-- The loop of `Bucket::insert` gets to the last bucket of a chain. -/
theorem insertLoop_walk {key : Key} {payload : Payload} {t : ChainedTable Key Payload BucketSize m}
    {x : Ptr × Bucket Key Payload BucketSize} (fuel : ℕ)
    {l : List (Ptr × Bucket Key Payload BucketSize)} {current : Ptr}
    (hlinked : Linked t.load Bucket.nextPtr (some current) (l ++ [x]))
    (hfull : ∀ y ∈ l, Full Sentinel y.2.keys) :
    insertLoop Sentinel sizeofBucket key payload (l.length + fuel) current t
      = insertLoop Sentinel sizeofBucket key payload fuel x.1 t := by
  induction l generalizing current with
  | nil => rw [Option.some.inj hlinked.1, List.length_nil, Nat.zero_add]
  | cons y l ih =>
    obtain ⟨hcurrent, hload, hrest⟩ : _ ∧ _ ∧
      Linked t.load Bucket.nextPtr y.2.nextPtr (l ++ [x]) := hlinked
    obtain rfl := Option.some.inj hcurrent
    -- this bucket is full and not the last one
    have hfill : y.2.fill Sentinel key payload = none := by
      rcases y.2.fill_cases Sentinel key payload with ⟨-, hnone⟩ | ⟨i, hi, -⟩
      · exact hnone
      · exact absurd hi (hfull y List.mem_cons_self i)
    obtain ⟨z, l', hz⟩ : ∃ z l', l ++ [x] = z :: l' := List.exists_cons_of_ne_nil (by simp)
    have hnext : ∃ c, y.2.next = some c ∧ z.1 = .cell c := by
      rw [hz] at hrest; exact next_of_linked hrest
    obtain ⟨c, hc, hzc⟩ := hnext
    have hptr : y.2.nextPtr = some (.cell c) := by rw [Bucket.nextPtr, hc]; rfl
    rw [hptr] at hrest
    have hsucc : (y :: l).length + fuel = l.length + fuel + 1 := by
      rw [List.length_cons]; omega
    rw [hsucc, insertLoop, hload]
    simp only [hfill, hc]
    exact ih hrest fun w hw => hfull w (List.mem_cons_of_mem _ hw)

/-- What the insert does at the last bucket of a chain. -/
theorem insertLoop_last {key : Key} {payload : Payload}
    {t : ChainedTable Key Payload BucketSize m} {p : Ptr} {b : Bucket Key Payload BucketSize}
    (hload : t.load p = some b) (hnext : b.next = none) (fuel : ℕ) :
    (∃ i, b.keys i = Sentinel ∧ (∀ j < i, b.keys j ≠ Sentinel) ∧
      insertLoop Sentinel sizeofBucket key payload (fuel + 2) p t
        = .returned (t.store (b.write i key payload) p)) ∨
    (Full Sentinel b.keys ∧
      insertLoop Sentinel sizeofBucket key payload (fuel + 2) p t
        = insertLoop Sentinel sizeofBucket key payload (fuel + 1)
          (.cell (t.append Sentinel sizeofBucket p b).1)
          (t.append Sentinel sizeofBucket p b).2) := by
  rw [insertLoop, hload]
  rcases b.fill_cases Sentinel key payload with ⟨hfull, hfill⟩ | ⟨i, hi, hbefore, hfill⟩
  · right
    refine ⟨hfull, ?_⟩
    simp only [hfill, hnext]
  · left
    refine ⟨i, hi, hbefore, ?_⟩
    simp only [hfill]

/-- The insert into a bucket as the constructor leaves it. -/
theorem insertLoop_new [NeZero BucketSize] {key : Key} {payload : Payload}
    {t : ChainedTable Key Payload BucketSize m} {p : Ptr}
    (hload : t.load p = some (Bucket.empty Sentinel)) (fuel : ℕ) :
    insertLoop Sentinel sizeofBucket key payload (fuel + 1) p t
      = .returned (t.store ((Bucket.empty Sentinel).write 0 key payload) p) := by
  rw [insertLoop, hload]
  rcases (Bucket.empty Sentinel : Bucket Key Payload BucketSize).fill_cases Sentinel key payload with
    ⟨hfull, -⟩ | ⟨i, -, hbefore, hfill⟩
  · exact absurd rfl (hfull 0)
  · have hi : i = 0 := by
      by_contra hne
      exact hbefore 0 (Fin.pos_iff_ne_zero.mpr hne) rfl
    simp only [hfill, hi]

omit [DecidableEq Key] in
/-- What `tape.alloc()` and the assignment of the pointer leave, for a pointer `p` in use. -/
theorem load_append {t : ChainedTable Key Payload BucketSize m} {p : Ptr} (hp : t.Owned p)
    (b : Bucket Key Payload BucketSize) (q : Ptr) :
    (t.append Sentinel sizeofBucket p b).2.load q
      = if q = p then some { b with next := some (t.append Sentinel sizeofBucket p b).1 }
        else (t.allocated (Bucket.empty Sentinel)
          (Tape.nextTapeSegmentSize sizeofBucket)).load q := by
  have hvalid := (hp.allocated (Bucket.empty Sentinel)
    (Tape.nextTapeSegmentSize sizeofBucket)).1
  exact load_store hvalid _ q

omit [DecidableEq Key] in
theorem owned_append {t : ChainedTable Key Payload BucketSize m} {p : Ptr} (hp : t.Owned p)
    (b : Bucket Key Payload BucketSize) (q : Ptr) :
    (t.append Sentinel sizeofBucket p b).2.Owned q ↔
      (t.allocated (Bucket.empty Sentinel)
        (Tape.nextTapeSegmentSize sizeofBucket)).Owned q := by
  have hvalid := (hp.allocated (Bucket.empty Sentinel)
    (Tape.nextTapeSegmentSize sizeofBucket)).1
  exact owned_store hvalid _ q

omit [DecidableEq Key] in
/-- Where the tape has cells, `append` puts an empty bucket behind the last one of a chain and keeps
    the others. -/
theorem append_spec {t : ChainedTable Key Payload BucketSize m}
    (hvalid : Tape.Valid (Bucket.empty Sentinel) t.tape)
    (hn : 0 < Tape.nextTapeSegmentSize sizeofBucket) {p : Ptr} (hp : t.Owned p)
    (b : Bucket Key Payload BucketSize) :
    ∃ c t', t.append Sentinel sizeofBucket p b = (c, t') ∧ (∀ q, t.Owned q → q ≠ .cell c) ∧
      t'.Owned (.cell c) ∧ t'.load (.cell c) = some (Bucket.empty Sentinel) ∧
      t'.load p = some { b with next := some c } ∧
      (∀ q, t.Owned q → t'.Owned q ∧ (q ≠ p → t'.load q = t.load q)) ∧
      Tape.Valid (Bucket.empty Sentinel) t'.tape := by
  have hfresh : ∀ q, t.Owned q → q ≠ .cell (t.append Sentinel sizeofBucket p b).1 :=
    fun q hq => hq.ne_alloc _ _
  refine ⟨(t.append Sentinel sizeofBucket p b).1, (t.append Sentinel sizeofBucket p b).2, rfl,
    hfresh, ?_, ?_, ?_, fun q hq => ⟨?_, fun hne => ?_⟩,
    tape_valid_store (hvalid.alloc hn) (hp.allocated _ _) _⟩
  · rw [owned_append hp]; exact owned_alloc hvalid hn
  · rw [load_append hp, if_neg (hfresh p hp).symm]
    exact hvalid.alloc_get?_self hn
  · rw [load_append hp, if_pos rfl]
  · rw [owned_append hp]; exact hq.allocated _ _
  · rw [load_append hp, if_neg hne, load_allocated _ _ hq.1]

namespace Built
variable {chain : ℕ → List (Ptr × Bucket Key Payload BucketSize)}
  {data : List (Key × Payload)} {t : ChainedTable Key Payload BucketSize m} {key : Key}
  {l : List (Ptr × Bucket Key Payload BucketSize)}
  {x : Ptr × Bucket Key Payload BucketSize}

/-- The insert gets to the last bucket of the key's chain with fuel left. -/
theorem insert_eq_last (h : Built Sentinel sizeofBucket index chain data t) (payload : Payload)
    (hi : index key < m) (hl : chain (index key) = l ++ [x]) :
    ∃ fuel, insert Sentinel sizeofBucket index key payload t
      = insertLoop Sentinel sizeofBucket key payload (fuel + 2) x.1 t := by
  have hlinked := h.linked (index key) hi
  have hfull := h.full (index key) hi
  have hlen := h.length_le hi
  rw [hl] at hlinked hfull hlen
  rw [List.dropLast_concat] at hfull
  rw [List.length_append, List.length_singleton] at hlen
  refine ⟨t.tape.cells.length - l.length, ?_⟩
  have hfuel : t.tape.cells.length + 2 = l.length + (t.tape.cells.length - l.length + 2) := by omega
  rw [insert, hfuel, insertLoop_walk _ hlinked hfull]

/-- Filling a free slot of the last bucket of a chain. -/
theorem fill {payload : Payload} (h : Built Sentinel sizeofBucket index chain data t)
    (hi : index key < m) (hkey : key ≠ Sentinel) (hl : chain (index key) = l ++ [x])
    (hload : t.load x.1 = some x.2) (hnext : x.2.nextPtr = none)
    {i : Fin BucketSize} (hfree : x.2.keys i = Sentinel)
    (hbefore : ∀ j < i, x.2.keys j ≠ Sentinel) :
    Built Sentinel sizeofBucket index
      (Function.update chain (index key) (l ++ [(x.1, x.2.write i key payload)]))
      (data ++ [(key, payload)]) (t.store (x.2.write i key payload) x.1) := by
  have hvalid : (t.load x.1).isSome := by rw [hload]; rfl
  have hx : x ∈ chain (index key) := by simp [hl]
  have howned : t.Owned x.1 := h.owned _ hi x.1 (List.mem_map_of_mem hx)
  have hprefix : FilledPrefix Sentinel x.2.keys := h.prefixes _ hi x hx
  refine h.replace_tail hi hl rfl (by simp) ⟨rfl, ?_, hnext⟩ (fun p hp hne => ⟨?_, ?_⟩)
    (fun p hp => ?_) (fun y hy => ?_) (fun y hy => by cases hy) (fun y hy => ?_) ?_
    (tape_valid_store h.tape_valid howned _)
    fun hzero => begins_store_eq_nil (h.tape_unused hzero) _ _
  · rw [load_store hvalid, if_pos rfl]
  · rw [load_store hvalid, if_neg hne]
  · rwa [owned_store hvalid]
  · obtain rfl := List.mem_singleton.mp hp
    exact ⟨(owned_store hvalid _ _).mpr howned, Or.inl rfl⟩
  · obtain rfl := List.mem_singleton.mp hy
    exact hprefix.write hkey hbefore
  · obtain rfl := List.mem_singleton.mp hy
    rw [Bucket.entries_write hprefix hkey hfree hbefore]; simp
  · simp [pairs, Bucket.entries_write hprefix hkey hfree hbefore]

/-- Filling the first slot of a new bucket at the end of a full chain. -/
theorem grow [NeZero BucketSize] (h : Built Sentinel sizeofBucket index chain data t)
    (payload : Payload) (hi : index key < m) (hkey : key ≠ Sentinel)
    (hl : chain (index key) = l ++ [x]) (hfull : Full Sentinel x.2.keys)
    (hn : 0 < Tape.nextTapeSegmentSize sizeofBucket) :
    ∃ c t', t.append Sentinel sizeofBucket x.1 x.2 = (c, t') ∧
      t'.load (.cell c) = some (Bucket.empty Sentinel) ∧
      Built Sentinel sizeofBucket index
        (Function.update chain (index key)
          (l ++ [(x.1, { x.2 with next := some c }),
            (.cell c, (Bucket.empty Sentinel).write 0 key payload)]))
        (data ++ [(key, payload)])
        (t'.store ((Bucket.empty Sentinel).write 0 key payload) (.cell c)) := by
  have hx : x ∈ chain (index key) := by simp [hl]
  have howned : t.Owned x.1 := h.owned _ hi x.1 (List.mem_map_of_mem hx)
  have hprefix : FilledPrefix Sentinel x.2.keys := h.prefixes _ hi x hx
  obtain ⟨c, t', happend, hfresh, hcowned, hcell, hlast, hold, hvalid⟩ :=
    append_spec h.tape_valid hn howned x.2
  have hcvalid := hcowned.1
  have hentries : ((Bucket.empty Sentinel).write 0 key payload :
      Bucket Key Payload BucketSize).entries Sentinel = [(key, payload)] := by
    rw [Bucket.entries_write (filledPrefix_const Sentinel) hkey rfl
      fun j hj => absurd hj (Fin.not_lt_zero j), Bucket.entries_of_empty, List.nil_append]
  refine ⟨c, t', happend, hcell, h.replace_tail hi hl rfl (by simp) ⟨rfl, ?_, rfl, ?_, rfl⟩
    (fun p hp hne => ⟨?_, ?_⟩) (fun p hp => ?_) (fun y hy => ?_) (fun y hy => ?_)
    (fun y hy => ?_) ?_ (tape_valid_store hvalid hcowned _) fun hzero => absurd hzero hn.ne'⟩
  · rw [load_store hcvalid, if_neg (hfresh _ howned), hlast]
  · rw [load_store hcvalid, if_pos rfl]
  · rw [load_store hcvalid, if_neg (hfresh p hp)]
    exact (hold p hp).2 hne
  · rw [owned_store hcvalid]
    exact (hold p hp).1
  · rw [owned_store hcvalid]
    rcases List.mem_pair.mp hp with rfl | rfl
    · exact ⟨(hold _ howned).1, Or.inl rfl⟩
    · exact ⟨hcowned, Or.inr fun hold => hfresh _ hold rfl⟩
  · rcases List.mem_pair.mp hy with rfl | rfl
    · exact hprefix
    · exact (filledPrefix_const Sentinel).write hkey fun j hj => absurd hj (Fin.not_lt_zero j)
  · obtain rfl := List.mem_singleton.mp hy
    exact hfull
  · rcases List.mem_pair.mp hy with rfl | rfl
    · -- the bucket was full before
      have hlen := (Bucket.full_iff hprefix).mp hfull
      exact List.ne_nil_of_length_pos (hlen.symm ▸ NeZero.pos BucketSize)
    · rw [hentries]; simp
  · simp only [pairs, List.flatMap_cons, List.flatMap_nil, hentries, List.append_nil]
    rfl

/-- With a segment size of zero the pointer to the new bucket is not valid. -/
theorem append_load_eq_none (h : Built Sentinel sizeofBucket index chain data t)
    (hi : index key < m) (hl : chain (index key) = l ++ [x])
    (hzero : Tape.nextTapeSegmentSize sizeofBucket = 0) :
    (t.append Sentinel sizeofBucket x.1 x.2).2.load
      (.cell (t.append Sentinel sizeofBucket x.1 x.2).1) = none := by
  have hx : x ∈ chain (index key) := by simp [hl]
  have howned : t.Owned x.1 := h.owned _ hi x.1 (List.mem_map_of_mem hx)
  have hne : x.1 ≠ .cell (t.append Sentinel sizeofBucket x.1 x.2).1 := howned.ne_alloc _ _
  have hcell := Tape.alloc_zero_get?_self (Bucket.empty Sentinel) (h.tape_unused hzero)
  rw [← hzero] at hcell
  rw [load_append howned, if_neg hne.symm]
  exact hcell

/-- What an insert into a chained table does. -/
theorem insert_cases [NeZero BucketSize] (h : Built Sentinel sizeofBucket index chain data t)
    (hi : index key < m) (hkey : key ≠ Sentinel) (payload : Payload) :
    ((0 < Tape.nextTapeSegmentSize sizeofBucket ∨
        (data.filter fun d => index d.1 = index key).length < BucketSize) ∧
      ∃ chain' t', insert Sentinel sizeofBucket index key payload t = .returned t' ∧
        Built Sentinel sizeofBucket index chain' (data ++ [(key, payload)]) t') ∨
    ((Tape.nextTapeSegmentSize sizeofBucket = 0 ∧
        BucketSize ≤ (data.filter fun d => index d.1 = index key).length) ∧
      ∃ t', insert Sentinel sizeofBucket index key payload t = .threw .outOfBounds t') := by
  obtain ⟨l, x, hl⟩ := h.exists_last hi
  have hlinked := h.linked _ hi
  rw [hl] at hlinked
  have hx : x ∈ chain (index key) := by simp [hl]
  have hload : t.load x.1 = some x.2 := hlinked.load_eq (by simp)
  have hptr : x.2.nextPtr = none := hlinked.suffix.2.2
  have hnext : x.2.next = none := Option.map_eq_none_iff.mp hptr
  have hfulliff := Bucket.full_iff (h.prefixes _ hi x hx)
  -- without cells on the tape the chain is its directory bucket
  have honly : Tape.nextTapeSegmentSize sizeofBucket = 0 →
      (data.filter fun d => index d.1 = index key) = x.2.entries Sentinel := fun hzero => by
    have hlen := h.length_le hi
    have hcells : t.tape.cells = [] := by simp [Tape.cells, h.tape_unused hzero]
    have hnil : l = [] := by simpa [hl, hcells] using hlen
    rw [← h.holds _ hi, hl, hnil]; simp [pairs]
  obtain ⟨fuel, hinsert⟩ := h.insert_eq_last payload hi hl
  rw [hinsert]
  rcases insertLoop_last hload hnext fuel with ⟨i, hfree, hbefore, hret⟩ | ⟨hfull, hret⟩
  · left
    refine ⟨?_, _, _, hret, h.fill hi hkey hl hload hptr hfree hbefore⟩
    rcases Nat.eq_zero_or_pos (Tape.nextTapeSegmentSize sizeofBucket) with hzero | hpos
    · have hne : (x.2.entries Sentinel).length ≠ BucketSize := fun heq => hfulliff.mpr heq i hfree
      have hle := Bucket.length_entries_le (h.prefixes _ hi x hx)
      rw [honly hzero]; omega
    · exact Or.inl hpos
  · rw [hret]
    rcases Nat.eq_zero_or_pos (Tape.nextTapeSegmentSize sizeofBucket) with hzero | hpos
    · right
      refine ⟨⟨hzero, by rw [honly hzero]; exact (hfulliff.mp hfull).ge⟩,
        (t.append Sentinel sizeofBucket x.1 x.2).2, ?_⟩
      rw [insertLoop, h.append_load_eq_none hi hl hzero]
    · left
      obtain ⟨c, t', happend, hcell, hbuilt⟩ := h.grow payload hi hkey hl hfull hpos
      rw [happend]
      exact ⟨Or.inl hpos, _, _, insertLoop_new hcell fuel, hbuilt⟩

end Built

/-! ### Runs of inserts -/

/-- The tape can provide a bucket, or no chain ever needs one. -/
def Fits (BucketSize sizeofBucket : ℕ) (index : Key → ℕ) (data : List (Key × Payload)) : Prop :=
  0 < Tape.nextTapeSegmentSize sizeofBucket ∨
    ∀ i, (data.filter fun d => index d.1 = i).length ≤ BucketSize

theorem segment_size_pos_iff {sizeofBucket : ℕ} [NeZero sizeofBucket] :
    0 < Tape.nextTapeSegmentSize sizeofBucket ↔ sizeofBucket ≤ 4194304 := by
  rw [Tape.nextTapeSegmentSize, Nat.div_pos_iff]
  exact and_iff_right (NeZero.pos sizeofBucket)

omit [DecidableEq Key] [Inhabited Payload] in
/-- Only the directory indices below `m` receive pairs. -/
theorem fits_iff [NeZero sizeofBucket] {data : List (Key × Payload)}
    (hindex : ∀ d ∈ data, index d.1 < m) : Fits BucketSize sizeofBucket index data ↔
      sizeofBucket ≤ 4194304 ∨
        ∀ i < m, (data.filter fun d => index d.1 = i).length ≤ BucketSize := by
  rw [Fits, segment_size_pos_iff]
  refine or_congr_right ⟨fun h i _ => h i, fun h i => ?_⟩
  rcases lt_or_ge i m with hi | hi
  · exact h i hi
  · -- no key has this directory index
    rw [List.filter_eq_nil_iff.mpr fun d hd => by simp [((hindex d hd).trans_le hi).ne]]
    exact Nat.zero_le _

omit [DecidableEq Key] [Inhabited Payload] in
theorem length_filter_snoc (data : List (Key × Payload)) (d : Key × Payload) (i : ℕ) :
    ((data ++ [d]).filter fun e => index e.1 = i).length
      = (data.filter fun e => index e.1 = i).length + if index d.1 = i then 1 else 0 := by
  rw [List.filter_append, List.length_append]
  split_ifs with hd
  · simp [hd]
  · simp [hd]

variable [NeZero BucketSize] {data : List (Key × Payload)}

/-- Run lemma: after inserts that return the invariant holds, and everything fitted. -/
theorem built_of_insertAll (hkeys : ∀ d ∈ data, d.1 ≠ Sentinel) (hindex : ∀ d ∈ data, index d.1 < m)
    {t : ChainedTable Key Payload BucketSize m}
    (hrun : insertAll (insert Sentinel sizeofBucket index) data (empty Sentinel) = .returned t) :
    (∃ chain, Built Sentinel sizeofBucket index chain data t) ∧
      Fits BucketSize sizeofBucket index data := by
  refine Outcome.runAll_induction (I := fun done u =>
    (∃ chain, Built Sentinel sizeofBucket index chain done u) ∧
      Fits BucketSize sizeofBucket index done) ⟨⟨_, built_empty⟩, Or.inr (by simp)⟩ ?_ hrun
  rintro done d u v hpre ⟨⟨chain, hu⟩, hfits⟩ hv
  have hd : d ∈ data := hpre.subset (by simp)
  rcases hu.insert_cases (hindex d hd) (hkeys d hd) d.2 with
    ⟨hroom, chain', v', hv', hbuilt⟩ | ⟨-, v', hv'⟩
  · obtain rfl := Outcome.returned.inj (hv'.symm.trans hv)
    refine ⟨⟨chain', hbuilt⟩, ?_⟩
    rcases hroom with hpos | hroom
    · exact Or.inl hpos
    · refine hfits.imp_right fun hle i => ?_
      rw [length_filter_snoc]
      split_ifs with hi
      · rw [hi] at hroom; omega
      · exact hle i
  · cases hv'.symm.trans hv

/-- Run lemma: inserts that fit return. -/
theorem exists_insertAll (hkeys : ∀ d ∈ data, d.1 ≠ Sentinel) (hindex : ∀ d ∈ data, index d.1 < m)
    (hfits : Fits BucketSize sizeofBucket index data) :
    ∃ t : ChainedTable Key Payload BucketSize m,
      insertAll (insert Sentinel sizeofBucket index) data (empty Sentinel) = .returned t := by
  have hstep : ∀ (done : List (Key × Payload)) d (u : ChainedTable Key Payload BucketSize m),
      done ++ [d] <+: data → (∃ chain, Built Sentinel sizeofBucket index chain done u) →
      ∃ v, insert Sentinel sizeofBucket index d.1 d.2 u = .returned v ∧
        ∃ chain, Built Sentinel sizeofBucket index chain (done ++ [d]) v := by
    rintro done d u hpre ⟨chain, hu⟩
    have hd : d ∈ data := hpre.subset (by simp)
    rcases hu.insert_cases (hindex d hd) (hkeys d hd) d.2 with
      ⟨-, chain', v, hv, hbuilt⟩ | ⟨⟨hzero, hge⟩, -⟩
    · exact ⟨v, hv, chain', hbuilt⟩
    · rcases hfits with hpos | hle
      · omega
      · -- the pair would be one too many for its chain
        have hprefix := (hpre.filter fun e => decide (index e.1 = index d.1)).length_le
        rw [length_filter_snoc, if_pos rfl] at hprefix
        have := hle (index d.1)
        omega
  obtain ⟨t, ht, -⟩ := Outcome.runAll_returns (I := fun done u =>
    ∃ chain, Built Sentinel sizeofBucket index chain done u) ⟨_, built_empty⟩ hstep
  exact ⟨t, ht⟩

end ChainedTable
end HashingBenchmark
