import XyzDB.Lib.BinarySearch
import XyzDB.Lib.Chunk
import XyzDB.Turba.Types

/-!
# SSTables

An immutable sorted table on disk (`table/writer.rs`, `table/reader.rs`,
`block.rs`): the entries, cut into data blocks, an index with the last key of each
block, a bloom filter, and the key bounds of the meta block. The writer returns
no table for an empty input, so a `Table` carries that it has blocks and that
none of them is empty.

Reads go through the block index. A point read binary-searches the index and
looks at **one** block; a range read visits the blocks between two partition
points of the index. `Table.ReadsExact` says that these reads see exactly the
entries that were written. It holds when no key has versions in two blocks
(`Table.readsExact_of_aligned`); half-open ranges are exact without that
proviso (`Table.filter_rangeBlocks`).

I/O errors are not modelled: every block loads.
-/

namespace XyzDB

open KeyRuns BinarySearch List Entry

variable {cfg : SSTableConfig} {l : List Entry} {t : Table} {e : Entry} {b : List Entry}

/-- What the table writer is configured with. -/
structure SSTableConfig where
  /-- Size at which a data block is closed. -/
  dataBlockSize : ℕ
  /-- The filter built from the keys added to a table, as a membership test. -/
  bloom : List Key → Key → Bool

/-- A filter built from keys admits them. -/
def SSTableConfig.BloomSound (cfg : SSTableConfig) : Prop :=
  ∀ (keys : List Key) (k : Key), k ∈ keys → cfg.bloom keys k = true

/-- The size estimate used to close blocks and to rotate tables. -/
def entrySize (e : Entry) : ℕ := e.key.length + e.value.length + 20

/-- An opened table. -/
structure Table where
  id : ℕ
  /-- The data blocks, in file order. -/
  blocks : List (List Entry)
  blocks_ne : blocks ≠ []
  block_ne : ∀ b ∈ blocks, b ≠ []
  /-- The bloom filter as a membership test. -/
  bloom : Key → Bool
  /-- The `file_size` of the meta block. -/
  fileSize : ℕ

variable {id : ℕ} {start : Key}

namespace Table

section

variable (t : Table)

/-- All entries of the table, as a full block iteration yields them. -/
def entries : List Entry := t.blocks.flatten

lemma entries_ne : t.entries ≠ [] := by
  intro h
  obtain ⟨b, bs, hb⟩ := exists_cons_of_ne_nil t.blocks_ne
  have hmem : b ∈ t.blocks := by simp [hb]
  exact t.block_ne b hmem (flatten_eq_nil_iff.mp h b hmem)

/-- The smallest key: the first one added. -/
def keyMin : Key := (t.entries.head t.entries_ne).key

/-- The largest key: the last one added. -/
def keyMax : Key := (t.entries.getLast t.entries_ne).key

/-- `SSTableWriter`: add all entries, then `finish`. The meta block is encoded
before the file size is known, so a reopened table carries `file_size` zero. -/
def write (cfg : SSTableConfig) (id : ℕ) (entries : List Entry) : Option Table :=
  if h : entries = [] then none
  else some
    { id := id
      blocks := Chunk.chunk entrySize cfg.dataBlockSize entries
      blocks_ne := fun h' => h (by rw [← Chunk.chunk_flatten entries, h']; rfl)
      block_ne := fun _ hb => Chunk.chunk_ne_nil hb
      bloom := cfg.bloom (entries.map key)
      fileSize := 0 }

/-- Three-way comparison of keys. -/
def cmpKey (a b : Key) : Ordering := if a < b then .lt else if a = b then .eq else .gt

/-- The last key of a block, as recorded in the index. -/
def lastKey (b : List Entry) : Key := (b.getLast?.map key).getD []

def pointRead (block : List Entry) (userKey : Key) (visibleSeqno : ℕ) : Option Entry :=
  ((block.drop (partitionPoint (fun e => decide (e.key < userKey)) block)).takeWhile
    fun e => decide (e.key = userKey)).find? fun e => decide (e.seqno ≤ visibleSeqno)

/-- The block the index search picks for a key: a block that ends in the key, else
the first that ends beyond it. -/
def blockIdx (userKey : Key) : ℕ :=
  match binarySearchBy (fun b => cmpKey (lastKey b) userKey) t.blocks with
  | .ok i => i
  | .error i => i

/-- `SSTableReader::get`: bloom filter, binary search of the index, one block. -/
def get (userKey : Key) (visibleSeqno : ℕ) : Option Entry :=
  if t.bloom userKey then
    match t.blocks[t.blockIdx userKey]? with
    | some block => pointRead block userKey visibleSeqno
    | none => none
  else none

/-- The first block a range read visits: the first whose last key reaches `start`. -/
def firstBlock (start : Key) : ℕ :=
  partitionPoint (fun b => decide (lastKey b < start)) t.blocks

/-- The end of the blocks a range read visits: one past the first block whose last
key reaches the end key. -/
def endBlock : Option Key → ℕ
  | some endKey =>
    min (partitionPoint (fun b => decide (lastKey b < endKey)) t.blocks + 1) t.blocks.length
  | none => t.blocks.length

/-- The entries of the blocks `SSTableBlockIter::new_with_range` visits. -/
def rangeBlocks (start : Key) (stop : Option Key) : List Entry :=
  ((t.blocks.take (t.endBlock stop)).drop (t.firstBlock start)).flatten

end

/-- **Exact reads.** A point read returns the newest visible version of its key,
and the entries of a closed range are all among the blocks visited for it. -/
structure ReadsExact (t : Table) : Prop where
  get : ∀ k v, t.get k v = (withKey key k t.entries).find? fun e => decide (e.seqno ≤ v)
  range : ∀ start stop, ((t.rangeBlocks start (some stop)).filter fun e =>
      decide (start ≤ e.key) && decide (e.key ≤ stop)) =
    t.entries.filter fun e => decide (start ≤ e.key) && decide (e.key ≤ stop)

lemma write_eq_some (h : write cfg id l = some t) : t.entries = l ∧ t.id = id ∧ l ≠ [] := by
  unfold write at h
  split at h <;> cases h
  next hne => exact ⟨Chunk.chunk_flatten l, rfl, hne⟩

lemma write_blocks (h : write cfg id l = some t) :
    t.blocks = Chunk.chunk entrySize cfg.dataBlockSize l := by
  unfold write at h
  split at h <;> cases h
  rfl

lemma write_eq_none (h : write cfg id l = none) : l = [] := by
  unfold write at h
  split at h
  · assumption
  · cases h

lemma keyMin_mem (t : Table) : ∃ e ∈ t.entries, e.key = t.keyMin :=
  ⟨_, head_mem t.entries_ne, rfl⟩

lemma keyMax_mem (t : Table) : ∃ e ∈ t.entries, e.key = t.keyMax :=
  ⟨_, getLast_mem t.entries_ne, rfl⟩

section

variable (h : KeySorted key t.entries)

include h

lemma keyMin_le (he : e ∈ t.entries) : t.keyMin ≤ e.key := by
  obtain ⟨a, l, hl⟩ := exists_cons_of_ne_nil t.entries_ne
  have hmin : t.keyMin = a.key := by simp [keyMin, hl]
  rw [hmin]
  rw [hl] at he h
  rcases mem_cons.mp he with rfl | he
  · exact le_refl _
  · exact (pairwise_cons.mp h).1 e he

lemma le_keyMax (he : e ∈ t.entries) : e.key ≤ t.keyMax := by
  obtain ⟨l, a, hl⟩ := eq_nil_or_concat' t.entries |>.resolve_left t.entries_ne
  have hmax : t.keyMax = a.key := by simp [keyMax, hl]
  rw [hmax]
  rw [hl] at he h
  rcases mem_append.mp he with he | he
  · exact (pairwise_append.mp h).2.2 e he a (by simp)
  · rw [mem_singleton.mp he]

lemma keyMin_le_keyMax : t.keyMin ≤ t.keyMax := by
  obtain ⟨e, he, hk⟩ := t.keyMin_mem
  exact hk ▸ le_keyMax h he

end

/-! ### Blocks of a sorted table -/

lemma lastKey_mem (h : b ≠ []) : ∃ e ∈ b, e.key = lastKey b := by
  refine ⟨b.getLast h, getLast_mem h, ?_⟩
  simp [lastKey, getLast?_eq_some_getLast h]

lemma le_lastKey (h : KeySorted key b) (he : e ∈ b) : e.key ≤ lastKey b := by
  obtain ⟨l, a, rfl⟩ := eq_nil_or_concat' b |>.resolve_left (ne_nil_of_mem he)
  have hlast : lastKey (l ++ [a]) = a.key := by simp [lastKey]
  rw [hlast]
  rcases mem_append.mp he with he | he
  · exact (pairwise_append.mp h).2.2 e he a (by simp)
  · rw [mem_singleton.mp he]

lemma rel_of_blocks_lt {R : Entry → Entry → Prop}
    (h : t.blocks.Pairwise fun b c => ∀ x ∈ b, ∀ y ∈ c, R x y) {i j : ℕ} (hij : i < j)
    {c : List Entry} (hb : t.blocks[i]? = some b) (hc : t.blocks[j]? = some c) {x y : Entry}
    (hx : x ∈ b) (hy : y ∈ c) : R x y := by
  obtain ⟨hi, rfl⟩ := List.getElem?_eq_some_iff.mp hb
  obtain ⟨hj, rfl⟩ := List.getElem?_eq_some_iff.mp hc
  exact pairwise_iff_getElem.mp h i j hi hj hij x hx y hy

/-- The versions of a key lie in one block. -/
def InOneBlock (t : Table) (k : Key) : Prop :=
  t.blocks.Pairwise fun b c => ∀ x ∈ b, ∀ y ∈ c, x.key = k → y.key ≠ k

section

variable {t : Table} (hs : KeySorted key t.entries)

include hs

lemma keySorted_of_mem_blocks (hb : b ∈ t.blocks) : KeySorted key b :=
  (pairwise_flatten.mp hs).1 b hb

lemma key_le_of_blocks_lt {i j : ℕ} (hij : i < j) {c : List Entry} (hb : t.blocks[i]? = some b)
    (hc : t.blocks[j]? = some c) {x y : Entry} (hx : x ∈ b) (hy : y ∈ c) : x.key ≤ y.key :=
  rel_of_blocks_lt (pairwise_flatten.mp hs).2 hij hb hc hx hy

omit hs in
lemma pairwise_lastKey {R : Key → Key → Prop}
    (h : t.blocks.Pairwise fun b c => ∀ x ∈ b, ∀ y ∈ c, R x.key y.key) :
    t.blocks.Pairwise fun b c => R (lastKey b) (lastKey c) := by
  refine h.imp_of_mem fun hb hc hbc => ?_
  obtain ⟨x, hx, hxk⟩ := lastKey_mem (t.block_ne _ hb)
  obtain ⟨y, hy, hyk⟩ := lastKey_mem (t.block_ne _ hc)
  rw [← hxk, ← hyk]
  exact hbc x hx y hy

lemma partitionPoint_lastKey (k : Key) :
    (∀ j b, j < partitionPoint (fun b => decide (lastKey b < k)) t.blocks →
        t.blocks[j]? = some b → lastKey b < k) ∧
      ∀ j b, partitionPoint (fun b => decide (lastKey b < k)) t.blocks ≤ j →
        t.blocks[j]? = some b → k ≤ lastKey b := by
  have hmono : t.blocks.Pairwise fun b c =>
      decide (lastKey c < k) = true → decide (lastKey b < k) = true := by
    refine (pairwise_lastKey (pairwise_flatten.mp hs).2).imp fun {b c} hbc h => ?_
    simp only [decide_eq_true_eq] at h ⊢
    exact lt_of_le_of_lt hbc h
  obtain ⟨-, hlt, hge⟩ := partitionPoint_spec hmono
  exact ⟨fun j b hj hb => by simpa using hlt j b hj hb,
    fun j b hj hb => by simpa using hge j b hj hb⟩

lemma key_lt_of_mem_take (he : e ∈ (t.blocks.take (t.firstBlock start)).flatten) :
    e.key < start := by
  obtain ⟨b, hb, heb⟩ := mem_flatten.mp he
  obtain ⟨j, hj⟩ := mem_iff_getElem?.mp hb
  have hjf : j < t.firstBlock start := by
    have := (List.getElem?_eq_some_iff.mp hj).1
    simp only [List.length_take] at this
    omega
  rw [getElem?_take_of_lt hjf] at hj
  have hlt := (partitionPoint_lastKey hs start).1 j b hjf hj
  exact lt_of_le_of_lt (le_lastKey (keySorted_of_mem_blocks hs (List.mem_of_getElem? hj)) heb) hlt

/-- A block that was not visited for its end key comes after one that reaches the
end key. -/
lemma exists_block_before_drop {u : Key} (he : e ∈ (t.blocks.drop (t.endBlock (some u))).flatten) :
    ∃ (i j : ℕ) (b c : List Entry) (x : Entry), i < j ∧ t.blocks[i]? = some b ∧
      t.blocks[j]? = some c ∧ x ∈ b ∧ e ∈ c ∧ u ≤ x.key := by
  obtain ⟨c, hc, hec⟩ := List.mem_flatten.mp he
  obtain ⟨j, hj⟩ := mem_iff_getElem?.mp hc
  rw [getElem?_drop] at hj
  have hjlen := (List.getElem?_eq_some_iff.mp hj).1
  simp only [endBlock] at hj hjlen
  set n := partitionPoint (fun b => decide (lastKey b < u)) t.blocks
  -- block `n` is the first whose last key reaches `u`
  have hn : n < t.blocks.length := by omega
  have hb := getElem?_eq_getElem hn
  have hle := (partitionPoint_lastKey hs u).2 n _ (Nat.le_refl n) hb
  obtain ⟨x, hx, hxk⟩ := lastKey_mem (t.block_ne _ (getElem_mem hn))
  refine ⟨n, min (n + 1) t.blocks.length + j, _, c, x, by omega, hb, hj, hx, hec, hxk ▸ hle⟩

lemma le_key_of_mem_drop {u : Key} (he : e ∈ (t.blocks.drop (t.endBlock (some u))).flatten) :
    u ≤ e.key := by
  obtain ⟨i, j, b, c, x, hij, hb, hc, hx, hec, hux⟩ := exists_block_before_drop hs he
  exact hux.trans (key_le_of_blocks_lt hs hij hb hc hx hec)

/-- The entries that a filter accepts are those of the blocks that are visited and of the blocks
behind them, when the filter rejects the keys below `start`. -/
lemma filter_entries (stop : Option Key) {p : Key → Bool} (hstart : ∀ k, p k = true → start ≤ k) :
    t.entries.filter (fun e => p e.key) = (t.rangeBlocks start stop).filter (fun e => p e.key) ++
      (t.blocks.drop (t.endBlock stop)).flatten.filter (fun e => p e.key) := by
  have hbefore : ((t.blocks.take (t.endBlock stop)).take (t.firstBlock start)).flatten.filter
      (fun e => p e.key) = [] := by
    refine filter_eq_nil_iff.mpr fun e he hp => ?_
    refine absurd (hstart _ hp) (not_le.mpr (key_lt_of_mem_take hs ?_))
    obtain ⟨b, hb, heb⟩ := mem_flatten.mp he
    rw [take_take, Nat.min_comm, ← take_take] at hb
    exact mem_flatten.mpr ⟨b, mem_of_mem_take hb, heb⟩
  calc t.entries.filter (fun e => p e.key)
      = ((t.blocks.take (t.endBlock stop)).take (t.firstBlock start)).flatten.filter
            (fun e => p e.key) ++ (t.rangeBlocks start stop).filter (fun e => p e.key) ++
          (t.blocks.drop (t.endBlock stop)).flatten.filter (fun e => p e.key) := by
        rw [rangeBlocks, ← filter_append, ← flatten_append, take_append_drop,
          ← filter_append, ← flatten_append, take_append_drop, entries]
    _ = (t.rangeBlocks start stop).filter (fun e => p e.key) ++
          (t.blocks.drop (t.endBlock stop)).flatten.filter (fun e => p e.key) := by
        rw [hbefore, nil_append]

/-- A range read followed by a filter that rejects the keys below `start` is exact if and only if
the filter rejects the blocks that were not visited for their end key. -/
lemma filter_rangeBlocks_iff {stop : Option Key} {p : Key → Bool}
    (hstart : ∀ k, p k = true → start ≤ k) :
    (t.rangeBlocks start stop).filter (fun e => p e.key) = t.entries.filter (fun e => p e.key) ↔
      ∀ e ∈ (t.blocks.drop (t.endBlock stop)).flatten, ¬ p e.key = true := by
  rw [filter_entries hs stop hstart, self_eq_append_right, filter_eq_nil_iff]

/-- **Half-open ranges are exact.** A filter that only accepts keys of
`[start, stop)` finds all of them among the visited blocks. -/
theorem filter_rangeBlocks {stop : Option Key} {p : Key → Bool}
    (hstart : ∀ k, p k = true → start ≤ k) (hstop : ∀ u ∈ stop, ∀ k, p k = true → k < u) :
    (t.rangeBlocks start stop).filter (fun e => p e.key) = t.entries.filter fun e => p e.key := by
  refine (filter_rangeBlocks_iff hs hstart).mpr fun e he hp => ?_
  cases stop with
  | none => simp [endBlock] at he
  | some u => exact absurd (le_key_of_mem_drop hs he) (not_le.mpr (hstop u rfl _ hp))

/-- The blocks behind those that are visited hold no version of the end key iff its versions lie in
one block: the last block that is visited is the first that reaches the end key. -/
lemma inOneBlock_iff_drop {stop : Key} : t.InOneBlock stop ↔
    ∀ e ∈ (t.blocks.drop (t.endBlock (some stop))).flatten, e.key ≠ stop := by
  constructor
  · intro hone e he hek
    obtain ⟨i, j, b, c, x, hij, hb, hc, hx, hec, hux⟩ := exists_block_before_drop hs he
    have hxe := key_le_of_blocks_lt hs hij hb hc hx hec
    exact rel_of_blocks_lt hone hij hb hc hx hec ((hxe.trans hek.le).antisymm hux) hek
  · intro hafter
    refine pairwise_iff_getElem.mpr fun i j hi hj hij x hx y hy hxk hyk => ?_
    refine hafter y (mem_flatten.mpr ⟨t.blocks[j], ?_, hy⟩) hyk
    -- block `i` reaches the end key, so the visit ends with it at the latest
    have hreach : stop ≤ lastKey t.blocks[i] :=
      hxk ▸ le_lastKey (keySorted_of_mem_blocks hs (getElem_mem hi)) hx
    have hpoint : partitionPoint (fun b => decide (lastKey b < stop)) t.blocks ≤ i := by
      by_contra hlt
      exact absurd ((partitionPoint_lastKey hs stop).1 i _ (not_le.mp hlt) (getElem?_eq_getElem hi))
        (not_lt.mpr hreach)
    have hend : t.endBlock (some stop) ≤ j := by
      simp only [endBlock]
      omega
    refine mem_iff_getElem?.mpr ⟨j - t.endBlock (some stop), ?_⟩
    rw [getElem?_drop, Nat.add_sub_cancel' hend, getElem?_eq_getElem hj]

/-- A closed range is read exactly if and only if the versions of its end lie in one block. -/
lemma filter_closed_range_iff {stop : Key} (hle : start ≤ stop) :
    ((t.rangeBlocks start (some stop)).filter fun e =>
      decide (start ≤ e.key) && decide (e.key ≤ stop)) =
    (t.entries.filter fun e => decide (start ≤ e.key) && decide (e.key ≤ stop)) ↔
      t.InOneBlock stop := by
  let p : Key → Bool := fun k => decide (start ≤ k) && decide (k ≤ stop)
  have hstart : ∀ k, p k = true → start ≤ k := fun k hk =>
    (by simpa [p] using hk : start ≤ k ∧ k ≤ stop).1
  rw [filter_rangeBlocks_iff (p := p) hs hstart, inOneBlock_iff_drop hs]
  refine forall₂_congr fun e he => not_congr ?_
  -- behind the visited blocks the keys are at or beyond the end
  have hge := le_key_of_mem_drop hs he
  constructor
  · intro hp
    exact (by simpa [p] using hp : start ≤ e.key ∧ e.key ≤ stop).2.antisymm hge
  · rintro rfl
    simpa [p] using hle

/-- A range that ends below its start is empty, and read as such. -/
lemma filter_closed_range {stop : Key} (hone : t.InOneBlock stop) :
    ((t.rangeBlocks start (some stop)).filter fun e =>
      decide (start ≤ e.key) && decide (e.key ≤ stop)) =
    t.entries.filter fun e => decide (start ≤ e.key) && decide (e.key ≤ stop) := by
  by_cases hle : start ≤ stop
  · exact (filter_closed_range_iff hs hle).mpr hone
  · have hnone : ∀ l : List Entry,
        (l.filter fun e => decide (start ≤ e.key) && decide (e.key ≤ stop)) = [] := by
      refine fun l => filter_eq_nil_iff.mpr fun e _ hp => hle ?_
      simp only [Bool.and_eq_true, decide_eq_true_eq] at hp
      exact hp.1.trans hp.2
    rw [hnone, hnone]

end

variable {a : Key}

lemma cmpKey_eq {b : Key} : cmpKey a b = .eq ↔ a = b := by
  unfold cmpKey
  split
  · next h => simpa using h.ne
  · split <;> simp_all

lemma cmpKey_lt {b : Key} : cmpKey a b = .lt ↔ a < b := by
  unfold cmpKey
  split
  · next h => simpa using h
  · split <;> simp_all

lemma cmpKey_gt {b : Key} : cmpKey a b = .gt ↔ b < a := by
  unfold cmpKey
  split
  · next h => simpa using h.le
  · next h =>
    split
    · next h' => simp [h']
    · next h' => simpa using lt_of_le_of_ne (not_lt.mp h) (Ne.symm h')

lemma pointRead_eq (h : KeySorted key b) (k : Key) (v : ℕ) :
    pointRead b k v = (withKey key k b).find? fun e => decide (e.seqno ≤ v) := by
  have hmono : b.Pairwise fun x y =>
      decide (y.key < k) = true → decide (x.key < k) = true := by
    refine Pairwise.imp (fun {x y} hxy hy => ?_) h
    simp only [decide_eq_true_eq] at hy ⊢
    exact lt_of_le_of_lt hxy hy
  unfold pointRead
  rw [drop_partitionPoint hmono, ← h.seek k]
  congr!

/-- No key has versions in two blocks. -/
def Aligned (t : Table) : Prop :=
  t.blocks.Pairwise fun b c => ∀ x ∈ b, ∀ y ∈ c, x.key < y.key

lemma Aligned.inOneBlock (h : t.Aligned) (k : Key) : t.InOneBlock k :=
  h.imp fun hlt x hx y hy hxk => hxk ▸ (hlt x hx y hy).ne'

section

variable (hs : KeySorted key t.entries)

include hs

/-- The index lists the blocks that end before a key, in it and beyond it, in this order. -/
lemma partitioned_lastKey (k : Key) : Partitioned (fun b => cmpKey (lastKey b) k) t.blocks := by
  refine (pairwise_lastKey (pairwise_flatten.mp hs).2).imp fun hle => ?_
  simp only [cmpKey_lt, cmpKey_gt]
  exact ⟨fun h => lt_of_le_of_lt hle h, fun h => lt_of_lt_of_le h hle⟩

/-- The block of the index search has all versions of a key whose versions lie in one block. -/
lemma InOneBlock.withKey_block {k : Key} (h : t.InOneBlock k) :
    withKey Entry.key k t.entries = withKey Entry.key k (t.blocks[t.blockIdx k]?.getD []) := by
  obtain ⟨i, hi, hidx⟩ : ∃ i, (binarySearchBy (fun b => cmpKey (lastKey b) k) t.blocks = .ok i ∨
      binarySearchBy (fun b => cmpKey (lastKey b) k) t.blocks = .error i) ∧
      t.blockIdx k = i := by
    unfold blockIdx
    cases binarySearchBy (fun b => cmpKey (lastKey b) k) t.blocks with
    | ok i => exact ⟨i, .inl rfl, rfl⟩
    | error i => exact ⟨i, .inr rfl, rfl⟩
  rw [hidx]
  -- no block but the `i`-th holds the key
  have hother : ∀ j b, j ≠ i → t.blocks[j]? = some b → ∀ e ∈ b, e.key ≠ k := by
    intro j b hji hb e he hek
    rcases hi with hi | hi
    · -- block `i` ends in the key, and so holds it
      obtain ⟨c, hc, hck⟩ := binarySearchBy_found hi
      obtain ⟨x, hx, hxk⟩ := lastKey_mem (t.block_ne _ (mem_of_getElem? hc))
      rw [cmpKey_eq, ← hxk] at hck
      rcases Nat.lt_or_gt_of_ne hji with hlt | hgt
      · exact rel_of_blocks_lt h hlt hb hc he hx hek hck
      · exact rel_of_blocks_lt h hgt hc hb hx he hck hek
    · obtain ⟨-, hlt, hgt⟩ := binarySearchBy_notFound (partitioned_lastKey hs k) hi
      rcases Nat.lt_or_gt_of_ne hji with hj | hj
      · have hle := le_lastKey (keySorted_of_mem_blocks hs (mem_of_getElem? hb)) he
        exact absurd (hek ▸ hle) (not_le.mpr (cmpKey_lt.mp (hlt j b hj hb)))
      · -- past block `i`, whose last key is already beyond `k`
        have hilen : i < t.blocks.length := by
          have := (List.getElem?_eq_some_iff.mp hb).1
          omega
        have hc := List.getElem?_eq_getElem hilen
        obtain ⟨x, hx, hxk⟩ := lastKey_mem (t.block_ne _ (getElem_mem hilen))
        have hkx := cmpKey_gt.mp (hgt i _ (Nat.le_refl i) hc)
        refine absurd (key_le_of_blocks_lt hs hj hc hb hx he) ?_
        rw [hek, hxk]
        exact not_le.mpr hkx
  exact withKey_flatten_single i hother

end

/-- `SSTableReader::get_no_bloom`. -/
def getNoBloom (t : Table) (userKey : Key) (visibleSeqno : ℕ) : Option Entry :=
  match t.blocks[t.blockIdx userKey]? with
  | some block => pointRead block userKey visibleSeqno
  | none => none

lemma InOneBlock.getNoBloom_eq {k : Key} (h : t.InOneBlock k) (hs : KeySorted key t.entries)
    (v : ℕ) : t.getNoBloom k v = (withKey key k t.entries).find? fun e => decide (e.seqno ≤ v) := by
  rw [h.withKey_block hs, getNoBloom]
  cases hb : t.blocks[t.blockIdx k]? with
  | none => rfl
  | some b => exact pointRead_eq (keySorted_of_mem_blocks hs (mem_of_getElem? hb)) k v

/-- The filter of a table that admits the keys it was built from changes no point read. -/
lemma get_eq_getNoBloom (hs : KeySorted key t.entries)
    (hbloom : ∀ e ∈ t.entries, t.bloom e.key = true) (k : Key) (v : ℕ) :
    t.get k v = t.getNoBloom k v := by
  unfold Table.get
  split
  · rfl
  · next hno =>
    -- a key that the filter rejects is in no block
    unfold getNoBloom
    split
    · next b hb =>
      have hmem : b ∈ t.blocks := mem_of_getElem? hb
      have hnil : withKey key k b = [] := withKey_eq_nil.mpr fun e he hek =>
        hno (hek ▸ hbloom e (mem_flatten.mpr ⟨b, hmem, he⟩))
      rw [pointRead_eq (keySorted_of_mem_blocks hs hmem), hnil]
      rfl
    · rfl

/-- **Exactness.** A sorted table none of whose keys straddles a block boundary,
and whose bloom filter admits every key that was added, reads exactly. -/
theorem readsExact_of_aligned (hs : KeySorted key t.entries) (ha : t.Aligned)
    (hbloom : ∀ e ∈ t.entries, t.bloom e.key = true) : t.ReadsExact where
  get k v := by
    rw [get_eq_getNoBloom hs hbloom]
    exact (ha.inOneBlock k).getNoBloom_eq hs v
  range _ stop := filter_closed_range hs (ha.inOneBlock stop)

/-- No key of a stream of entries straddles a cut between two data blocks. -/
def BlocksAligned (cfg : SSTableConfig) (l : List Entry) : Prop :=
  (Chunk.chunk entrySize cfg.dataBlockSize l).Pairwise fun b c => ∀ x ∈ b, ∀ y ∈ c, x.key < y.key

instance (cfg : SSTableConfig) (l : List Entry) : Decidable (BlocksAligned cfg l) :=
  inferInstanceAs (Decidable (Pairwise _ _))

lemma blocksAligned_of_ascending (h : l.Pairwise fun a b => a.key < b.key) :
    BlocksAligned cfg l := by
  have hflat : (Chunk.chunk entrySize cfg.dataBlockSize l).flatten.Pairwise
      fun a b => a.key < b.key := by
    rw [Chunk.chunk_flatten]
    exact h
  exact (pairwise_flatten.mp hflat).2

lemma bloom_of_write (h : write cfg id l = some t) (hbloom : cfg.BloomSound) :
    ∀ e ∈ t.entries, t.bloom e.key = true := by
  obtain ⟨hentries, -, hne⟩ := write_eq_some h
  unfold write at h
  rw [dif_neg hne] at h
  cases h
  intro e he
  rw [hentries] at he
  exact hbloom _ _ (mem_map_of_mem he)

lemma readsExact_of_write (h : write cfg id l = some t) (hs : KeySorted key l)
    (ha : BlocksAligned cfg l) (hbloom : cfg.BloomSound) : t.ReadsExact := by
  have hentries := (write_eq_some h).1
  refine readsExact_of_aligned (by rwa [hentries]) ?_ (bloom_of_write h hbloom)
  rwa [Aligned, write_blocks h]

/-- What a point read is to return: a version of the key with the largest sequence number that
is visible, and nothing iff no version is. -/
def NewestVisible (l : List Entry) (k : Key) (v : ℕ) : Option Entry → Prop
  | some e => e ∈ l ∧ e.key = k ∧ e.seqno ≤ v ∧ ∀ x ∈ l, x.key = k → x.seqno ≤ v → x.seqno ≤ e.seqno
  | none => ∀ x ∈ l, x.key = k → v < x.seqno

instance (l : List Entry) (k : Key) (v : ℕ) : ∀ r, Decidable (NewestVisible l k v r)
  | some e => inferInstanceAs (Decidable (e ∈ l ∧ _ ∧ _ ∧ _))
  | none => inferInstanceAs (Decidable (∀ x ∈ l, _ → _))

lemma newestVisible_find? (h : SortedLE l) (k : Key) (v : ℕ) :
    NewestVisible l k v ((withKey key k l).find? fun e => decide (e.seqno ≤ v)) := by
  cases hfind : (withKey key k l).find? fun e => decide (e.seqno ≤ v) with
  | none =>
    intro x hx hk
    have hnot := find?_eq_none.mp hfind x (mem_withKey.mpr ⟨hx, hk⟩)
    simpa using hnot
  | some e =>
    obtain ⟨hv, newer, older, hsplit, hnewer⟩ := find?_eq_some_iff_append.mp hfind
    have hdesc := h.withKey_desc k
    have he := mem_withKey.mp (mem_of_find?_eq_some hfind)
    refine ⟨he.1, he.2, by simpa using hv, fun x hx hk hxv => ?_⟩
    have hmem : x ∈ newer ++ e :: older := hsplit ▸ mem_withKey.mpr ⟨hx, hk⟩
    rw [hsplit, pairwise_append] at hdesc
    -- the versions before `e` are all too new
    rcases mem_append.mp hmem with hx | hx
    · exact absurd hxv (by simpa using hnewer x hx)
    · rcases mem_cons.mp hx with rfl | hx
      · exact le_rfl
      · exact rel_of_pairwise_cons hdesc.2.1 hx

/-- The writer cut no two versions of a key apart. -/
def KeyUncut (cfg : SSTableConfig) (l : List Entry) (k : Key) : Prop :=
  (Chunk.chunk entrySize cfg.dataBlockSize l).Pairwise fun b c =>
    ∀ x ∈ b, ∀ y ∈ c, x.key = k → y.key ≠ k

instance (cfg : SSTableConfig) (l : List Entry) (k : Key) : Decidable (KeyUncut cfg l k) :=
  inferInstanceAs (Decidable (Pairwise _ _))

lemma keyUncut_iff (h : write cfg id l = some t) (k : Key) :
    KeyUncut cfg l k ↔ t.InOneBlock k := by
  rw [KeyUncut, InOneBlock, write_blocks h]

/-- What a point read finds is in the block of the index search. -/
lemma exists_block_of_getNoBloom {k : Key} {v : ℕ} (h : t.getNoBloom k v = some e) :
    ∃ b, t.blocks[t.blockIdx k]? = some b ∧ e ∈ b := by
  unfold getNoBloom at h
  split at h
  · next b hb =>
    exact ⟨b, hb, mem_of_mem_drop (( takeWhile_prefix _).subset (mem_of_find?_eq_some h))⟩
  · cases h

/-- The one block that is read holds a version with every sequence number that the key has, so it
holds all versions if no two share a number. -/
lemma inOneBlock_of_newestVisible {k : Key}
    (hdistinct : t.entries.Pairwise fun a b => a.key = k → b.key = k → a.seqno ≠ b.seqno)
    (h : ∀ v, NewestVisible t.entries k v (t.getNoBloom k v)) : t.InOneBlock k := by
  have hblocks := (pairwise_flatten.mp hdistinct).2
  have hread : ∀ {i b x}, t.blocks[i]? = some b → x ∈ b → x.key = k → i = t.blockIdx k := by
    intro i b x hb hx hxk
    have hmem : x ∈ t.entries := mem_flatten.mpr ⟨b, mem_of_getElem? hb, hx⟩
    have hnew := h x.seqno
    cases hget : t.getNoBloom k x.seqno with
    | none =>
      rw [hget] at hnew
      exact absurd (hnew x hmem hxk) (lt_irrefl _)
    | some e =>
      rw [hget] at hnew
      obtain ⟨-, hek, hle, hmax⟩ := hnew
      obtain ⟨c, hc, hec⟩ := exists_block_of_getNoBloom hget
      -- the version that is read has the number of `x`
      have hseq : e.seqno = x.seqno := hle.antisymm (hmax x hmem hxk le_rfl)
      by_contra hne
      rcases Nat.lt_or_gt_of_ne hne with hlt | hgt
      · exact rel_of_blocks_lt hblocks hlt hb hc hx hec hxk hek hseq.symm
      · exact rel_of_blocks_lt hblocks hgt hc hb hec hx hek hxk hseq
  refine pairwise_iff_getElem.mpr fun i j hi hj hij x hx y hy hxk hyk => ?_
  exact hij.ne ((hread (getElem?_eq_getElem hi) hx hxk).trans
    (hread (getElem?_eq_getElem hj) hy hyk).symm)

/-- **Point reads.** In a table whose writer got its entries in internal-key order, the point reads
of a key find the newest visible version if the writer did not cut the versions of the key apart.
Where no two versions of the key share a sequence number, they do so only then, with the filter and
without it. -/
theorem point_read_newest (hbloom : cfg.BloomSound) {id : ℕ} (hsorted : SortedLE l)
    (hwrite : write cfg id l = some t) (k : Key) :
    (KeyUncut cfg l k →
      ∀ v, NewestVisible l k v (t.get k v) ∧ NewestVisible l k v (t.getNoBloom k v)) ∧
    ((l.Pairwise fun a b => a.key = k → b.key = k → a.seqno ≠ b.seqno) →
      ((∀ v, NewestVisible l k v (t.get k v)) ↔ KeyUncut cfg l k) ∧
        ((∀ v, NewestVisible l k v (t.getNoBloom k v)) ↔ KeyUncut cfg l k)) := by
  have hentries := (write_eq_some hwrite).1
  have hs : KeySorted key t.entries := by
    rw [hentries]
    exact hsorted.keySorted
  have hget : ∀ v, t.get k v = t.getNoBloom k v :=
    get_eq_getNoBloom hs (bloom_of_write hwrite hbloom) k
  have henough : KeyUncut cfg l k → ∀ v, NewestVisible l k v (t.getNoBloom k v) := by
    intro hcut v
    rw [((keyUncut_iff hwrite k).mp hcut).getNoBloom_eq hs, hentries]
    exact newestVisible_find? hsorted k v
  simp only [hget, and_self]
  refine ⟨henough, fun hdistinct => ⟨fun h => ?_, henough⟩⟩
  rw [← hentries] at hdistinct h
  exact (keyUncut_iff hwrite k).mpr (inOneBlock_of_newestVisible hdistinct h)

/-- Two versions of a key in a block of their own. -/
def splitVersions : List Entry := [⟨[1], [7], 2, .value⟩, ⟨[1], [6], 1, .value⟩]

theorem point_read_newest_one_block : ∃ t, write ⟨4096, fun _ _ => true⟩ 0 splitVersions = some t ∧
    NewestVisible splitVersions [1] 2 (t.get [1] 2) ∧
      NewestVisible splitVersions [1] 2 (t.getNoBloom [1] 2) :=
  ⟨_, rfl, (point_read_newest (fun _ _ _ => rfl) (by decide) rfl [1]).1 (by decide +kernel) 2⟩

theorem point_read_misses_version :
    (write ⟨1, fun _ _ => true⟩ 0 splitVersions).any (fun t =>
      decide (¬ NewestVisible splitVersions [1] 2 (t.get [1] 2))) = true := by decide +kernel

/-- **Range reads.** A closed range is read exactly, with all versions, if and only if the writer
did not cut the versions of the end of the range apart. -/
theorem range_read_exact {id : ℕ} (hsorted : SortedLE l) (hwrite : write cfg id l = some t)
    {start stop : Key} (hle : start ≤ stop) :
    ((t.rangeBlocks start (some stop)).filter fun e =>
      decide (start ≤ e.key) && decide (e.key ≤ stop)) =
    (l.filter fun e => decide (start ≤ e.key) && decide (e.key ≤ stop)) ↔
      KeyUncut cfg l stop := by
  have hentries := (write_eq_some hwrite).1
  rw [keyUncut_iff hwrite, ← filter_closed_range_iff (hentries ▸ hsorted.keySorted) hle, hentries]

theorem range_read_exact_one_block : ∃ t, write ⟨4096, fun _ _ => true⟩ 0 splitVersions = some t ∧
    ((t.rangeBlocks [1] (some [1])).filter fun e =>
      decide ([1] ≤ e.key) && decide (e.key ≤ [1])) =
    splitVersions.filter fun e => decide ([1] ≤ e.key) && decide (e.key ≤ [1]) :=
  ⟨_, rfl, (range_read_exact (by decide) rfl le_rfl).mpr (by decide +kernel)⟩

theorem range_read_misses_version :
    (write ⟨1, fun _ _ => true⟩ 0 splitVersions).any (fun t =>
      decide ((t.rangeBlocks [1] (some [1])).filter (fun e =>
        decide ([1] ≤ e.key) && decide (e.key ≤ [1])) = splitVersions.take 1)) = true := by
  decide +kernel

/-- The premises of exactness, as a test on a table. -/
def wellBlocked (t : Table) : Bool :=
  decide (t.entries.Pairwise fun a b => a.key ≤ b.key) &&
    decide (t.blocks.Pairwise fun b c => ∀ x ∈ b, ∀ y ∈ c, x.key < y.key) &&
    t.entries.all fun e => t.bloom e.key

lemma readsExact_of_wellBlocked (h : t.wellBlocked = true) : t.ReadsExact := by
  simp only [wellBlocked, Bool.and_eq_true, decide_eq_true_eq, all_eq_true] at h
  exact readsExact_of_aligned h.1.1 h.1.2 h.2

end Table

end XyzDB
