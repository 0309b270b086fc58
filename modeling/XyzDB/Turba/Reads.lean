import XyzDB.Turba.Tree

/-!
# Point reads and scans

A point read (`Tree::get_at`) trusts **structure**: it visits the active memtable, the
sealed ones newest first, level `0` newest first and then the deeper levels, and
stops at the first that holds a visible version of the key. A scan
(`Tree::range_stream`, `Tree::prefix_at`) trusts **sequence numbers**: it merges all
sources and takes the highest visible one.

Both are described through one list, the *chain* of a key: its versions in the order
a point read meets them. A point read returns the first visible version of the
chain (`getAt_eq`); a scan sees the chain sorted by sequence number
(`withKey_scan`). Where the chain descends, the two agree.
-/

namespace XyzDB

open KeyRuns BinarySearch List Option Table Entry Version Memtable

variable {e : Entry} {k : Key} {t : Table}

/-- How the binary search of a deep level compares a table with a key. -/
def Table.cmpRange (userKey : Key) (t : Table) : Ordering :=
  if t.keyMax < userKey then .lt else if userKey < t.keyMin then .gt else .eq

/-- The lookup in one level: level `0` newest first, skipping tables whose range
misses the key; deeper levels by binary search. -/
def Version.getLevel (v : Version) (userKey : Key) (visibleSeqno : ℕ) (n : ℕ) : Option Entry :=
  if n = 0 then
    (v.level 0).reverse.findSome? fun t =>
      if userKey < t.keyMin ∨ t.keyMax < userKey then none else t.get userKey visibleSeqno
  else
    match binarySearchBy (cmpRange userKey) (v.level n) with
    | .ok idx => (v.level n)[idx]?.bind fun t => t.get userKey visibleSeqno
    | .error _ => none

/-- A value read from a memtable; a tombstone reads as absent. -/
def visibleValue : ValueType × Value → Option Value
  | (.value, value) => some value
  | (.tombstone, _) => none

/-- `Tree::get_at` on a loaded super-version. -/
def SuperVersion.getAt (sv : SuperVersion Memtable) (userKey : Key) (visibleSeqno : ℕ) :
    Option Value :=
  match sv.active.get userKey visibleSeqno with
  | some found => visibleValue found
  | none =>
    match sv.sealed.reverse.findSome? fun m => m.get userKey visibleSeqno with
    | some found => visibleValue found
    | none => ((range maxLevels).findSome? (sv.version.getLevel userKey visibleSeqno)).bind live

/-- `Tree::get`: read at the tree's current sequence number. -/
def Tree.get (t : Tree Memtable) (userKey : Key) : Option Value :=
  t.current.getAt userKey t.seqno

/-- The bounds of a scan: which keys it yields, which tables it skips, and the key
range its block iterators are opened with. -/
structure ScanRange where
  accept : Key → Bool
  skip : Table → Bool
  lower : Key
  upper : Option Key

namespace ScanRange

/-- The closed range of `Tree::range_stream`. -/
def closed (start stop : Key) : ScanRange where
  accept k := decide (start ≤ k) && decide (k ≤ stop)
  skip t := decide (t.keyMax < start) || decide (stop < t.keyMin)
  lower := start
  upper := some stop

/-- The keys with a given prefix, as `Tree::prefix_at` bounds them. -/
def ofPrefix (p : Key) : ScanRange where
  accept k := p.isPrefixOf k
  skip t := (prefixToRange p).2.any (fun u => decide (u ≤ t.keyMin)) ||
    decide (t.keyMax < (prefixToRange p).1)
  lower := (prefixToRange p).1
  upper := (prefixToRange p).2

/-- The ranges the tree scans. -/
def IsScan (r : ScanRange) : Prop := (∃ start stop, r = closed start stop) ∨ ∃ p, r = ofPrefix p

end ScanRange

namespace SuperVersion

/-- The sorted sources a scan merges: what the range accepts of the active memtable,
of the sealed ones oldest first, and of the tables level by level. -/
def scanSources (sv : SuperVersion Memtable) (r : ScanRange) : List (List Entry) :=
  ((sv.active :: sv.sealed).map fun m => m.entries.filter fun e => r.accept e.key).filter
      (fun s => !s.isEmpty) ++
    (sv.version.allTables.filter fun t => !r.skip t).map fun t =>
      (t.rangeBlocks r.lower r.upper).filter fun e => r.accept e.key

/-- A scan of a loaded super-version: merge, keep what is visible, drop
tombstones. -/
def scan (cfg : TreeConfig) (sv : SuperVersion Memtable) (r : ScanRange) (visibleSeqno : ℕ) :
    List Entry :=
  (mvccStream visibleSeqno cfg.mergeOperator (mergeIterator cfg.heap (sv.scanSources r))).filter
    isValue

end SuperVersion

def Tree.rangeStream (cfg : TreeConfig) (t : Tree Memtable) (start stop : Key) : List Entry :=
  t.current.scan cfg (.closed start stop) t.seqno

def Tree.prefixAt (cfg : TreeConfig) (t : Tree Memtable) (p : Key) (visibleSeqno : ℕ) :
    List Entry :=
  t.current.scan cfg (.ofPrefix p) visibleSeqno

namespace SuperVersion

section

variable (sv : SuperVersion Memtable)

/-- All entries of a super-version in the order a point read visits them. -/
def run : List Entry :=
  sv.active.entries ++ (sv.sealed.reverse.flatMap Memtable.entries ++ sv.version.run)

/-- The versions of a key in the order a point read visits them. -/
def chain (k : Key) : List Entry := withKey key k sv.run

lemma chain_eq (k : Key) : sv.chain k = withKey Entry.key k sv.active.entries ++
      (withKey Entry.key k (sv.sealed.reverse.flatMap Memtable.entries) ++ sv.version.chain k) := by
  simp only [chain, run, withKey_append, Version.chain]

end

lemma mem_run {sv : SuperVersion Memtable} :
    e ∈ sv.run ↔ e ∈ sv.active.entries ∨ (∃ m ∈ sv.sealed, e ∈ m.entries) ∨
      ∃ t ∈ sv.version.allTables, e ∈ t.entries := by
  simp [run, Version.mem_run]

lemma mem_chain {sv : SuperVersion Memtable} :
    e ∈ sv.chain k ↔ e ∈ sv.run ∧ e.key = k := mem_withKey

end SuperVersion

/-- The entries of the tables the persisted manifest refers to. -/
def Tree.recorded {M : Type} (t : Tree M) : List Entry :=
  ((t.manifest.map Manifest.version).getD .new).run

/-- Every insert is present that no later insert at the same internal key replaced. -/
def Present (log run : List Entry) : Prop :=
  ∀ newer e older, log = newer ++ e :: older →
    (∀ x ∈ newer, x.key ≠ e.key ∨ x.seqno ≠ e.seqno) → e ∈ run

variable {log run : List Entry}

lemma Present.cons {run' : List Entry} (h : Present log run) (he : e ∈ run')
    (hkeep : ∀ x ∈ run, (x.key ≠ e.key ∨ x.seqno ≠ e.seqno) → x ∈ run') :
    Present (e :: log) run' := by
  intro newer x older hlog hnew
  cases newer with
  | nil =>
    obtain ⟨rfl, -⟩ := cons.inj hlog
    exact he
  | cons y newer =>
    obtain ⟨rfl, htail⟩ := cons.inj hlog
    refine hkeep x (h newer x older htail fun z hz => hnew z (.tail _ hz)) ?_
    exact (hnew e mem_cons_self).imp Ne.symm Ne.symm

lemma Present.mem_of_find? (h : Present log run) {n : ℕ} {x : Entry}
    (hfind : (log.find? fun e => decide (e.seqno = n) && decide (e.key = k)) = some x) :
    x ∈ run := by
  obtain ⟨hx, newer, older, hlog, hnew⟩ := find?_eq_some_iff_append.mp hfind
  have hx : x.seqno = n ∧ x.key = k := by simpa using hx
  refine h newer x older hlog fun y hy => ?_
  have hy := hnew y hy
  rw [hx.1, hx.2]
  by_cases hk : y.key = k
  · exact .inr (by simpa [hk] using hy)
  · exact .inl hk

lemma Present.exists_mem (h : Present log run) (he : e ∈ log) :
    ∃ x ∈ run, x.key = e.key ∧ x.seqno = e.seqno := by
  cases hfind : log.find? fun x => decide (x.seqno = e.seqno) && decide (x.key = e.key) with
  | none => simpa using find?_eq_none.mp hfind e he
  | some x =>
    have hx : x.seqno = e.seqno ∧ x.key = e.key := by simpa using find?_some hfind
    exact ⟨x, h.mem_of_find? hfind, hx.2, hx.1⟩

/-! ### Point reads take the first visible version of the chain -/

section

variable {v : Version}

lemma Table.cmpRange_eq : cmpRange k t = .eq ↔ t.keyMin ≤ k ∧ k ≤ t.keyMax := by
  unfold cmpRange
  split
  · next h => simp [h]
  · split
    · next h => simp [h]
    · next h h' => simp [not_lt.mp h, not_lt.mp h']

lemma Table.withKey_eq_nil_of_range (hs : SortedLE t.entries) (h : k < t.keyMin ∨ t.keyMax < k) :
    withKey key k t.entries = [] := by
  refine withKey_eq_nil.mpr fun e he hek => ?_
  have h1 := keyMin_le hs.keySorted he
  have h2 := le_keyMax hs.keySorted he
  rw [hek] at h1 h2
  rcases h with h | h
  · exact absurd h1 (not_le.mpr h)
  · exact absurd h2 (not_le.mpr h)

lemma Table.partitioned_cmpRange {l : List Table} (hd : l.Pairwise fun a b => a.keyMax < b.keyMin)
    (hs : ∀ t ∈ l, SortedLE t.entries) (k : Key) : Partitioned (cmpRange k) l := by
  have hbounds : ∀ t ∈ l, t.keyMin ≤ t.keyMax := fun t ht => keyMin_le_keyMax (hs t ht).keySorted
  refine pairwise_iff_forall_sublist.mpr fun {a b} hab => ?_
  have hlt : a.keyMax < b.keyMin := pairwise_iff_forall_sublist.mp hd hab
  have ha := hbounds a (hab.subset (by simp))
  have hb := hbounds b (hab.subset (by simp))
  constructor
  · -- `b` ends before the key, so `a` does
    intro h
    have hbk : b.keyMax < k := by
      by_contra hno
      simp only [cmpRange, if_neg hno] at h
      split at h <;> cases h
    simp [cmpRange, hlt.trans (hb.trans_lt hbk)]
  · intro h
    have hak : k < a.keyMin := by
      by_contra hno
      simp only [cmpRange] at h
      split at h <;> cases h
    have hkb : k < b.keyMin := hak.trans (ha.trans_lt hlt)
    simp [cmpRange, not_lt.mpr (hkb.le.trans hb), hkb]

lemma findSome?_congr {α β : Type} {f g : α → Option β} {l : List α}
    (h : ∀ a ∈ l, f a = g a) : l.findSome? f = l.findSome? g := by
  induction l with
  | nil => rfl
  | cons a l ih =>
    rw [findSome?_cons, findSome?_cons, h a (by simp), ih fun b hb => h b (.tail _ hb)]

lemma Table.eq_of_cover {l : List Table} (hd : l.Pairwise fun a b => a.keyMax < b.keyMin)
    {i j : ℕ} {u : Table} (ht : l[i]? = some t) (hu : l[j]? = some u)
    (htk : t.keyMin ≤ k ∧ k ≤ t.keyMax) (huk : u.keyMin ≤ k ∧ k ≤ u.keyMax) : i = j := by
  obtain ⟨hi, rfl⟩ := List.getElem?_eq_some_iff.mp ht
  obtain ⟨hj, rfl⟩ := List.getElem?_eq_some_iff.mp hu
  have hlt := List.pairwise_iff_getElem.mp hd
  rcases Nat.lt_trichotomy i j with h | h | h
  · exact absurd (htk.2.trans_lt' (huk.1.trans_lt' (hlt i j hi hj h))) (lt_irrefl _)
  · exact h
  · exact absurd (huk.2.trans_lt' (htk.1.trans_lt' (hlt j i hj hi h))) (lt_irrefl _)

lemma Version.getLevel_eq (hw : v.WellFormed) (hd : v.Disjoint)
    (hexact : ∀ t ∈ v.allTables, t.ReadsExact) {n : ℕ} (hn : n < maxLevels) (k : Key) (s : ℕ) :
    v.getLevel k s n = (withKey key k (v.levelRun n)).find? fun e => decide (e.seqno ≤ s) := by
  have hget : ∀ t ∈ v.level n, t.get k s =
      (withKey key k t.entries).find? fun e => decide (e.seqno ≤ s) := fun t ht =>
    (hexact t (mem_allTables.mpr ⟨n, hn, ht⟩)).get k s
  unfold getLevel
  split
  · next h0 =>
    subst h0
    rw [levelRun, if_pos rfl, withKey_flatMap, find?_flatMap]
    refine findSome?_congr fun t ht => ?_
    have ht := mem_reverse.mp ht
    split
    · next hmiss => rw [withKey_eq_nil_of_range (hw.sorted 0 hn t ht) hmiss]; rfl
    · exact hget t ht
  · next h0 =>
    have hpart := partitioned_cmpRange (hd n (Nat.one_le_iff_ne_zero.mpr h0) hn) (hw.sorted n hn) k
    cases hfind : binarySearchBy (cmpRange k) (v.level n) with
    | ok i =>
      obtain ⟨t, ht, heq⟩ := binarySearchBy_found hfind
      -- the versions of the key all sit in the table the search hit
      have hsingle : withKey key k (v.levelRun n) = withKey key k t.entries := by
        rw [v.levelRun_pos h0, flatMap_def, withKey_flatten_single i, getElem?_map, ht]
        · rfl
        · intro j l hji hl e he hek
          rw [getElem?_map, map_eq_some_iff] at hl
          obtain ⟨u, hu, rfl⟩ := hl
          have hs := (hw.sorted n hn u (mem_of_getElem? hu)).keySorted
          refine hji (eq_of_cover (hd n (Nat.one_le_iff_ne_zero.mpr h0) hn) hu ht ?_
            (cmpRange_eq.mp heq))
          exact hek ▸ ⟨keyMin_le hs he, le_keyMax hs he⟩
      simp only [ht, hsingle]
      exact hget t (mem_of_getElem? ht)
    | error i =>
      have hnil : withKey key k (v.levelRun n) = [] := by
        rw [v.levelRun_pos h0]
        refine withKey_eq_nil.mpr fun e he hek => ?_
        obtain ⟨t, ht, he⟩ := mem_flatMap.mp he
        have hs := (hw.sorted n hn t ht).keySorted
        refine binarySearchBy_eq_none hpart hfind ht (cmpRange_eq.mpr ?_)
        exact hek ▸ ⟨keyMin_le hs he, le_keyMax hs he⟩
      rw [hnil]
      rfl

lemma Version.getLevels_eq (hw : v.WellFormed) (hd : v.Disjoint)
    (hexact : ∀ t ∈ v.allTables, t.ReadsExact) (k : Key) (s : ℕ) :
    (range maxLevels).findSome? (v.getLevel k s) =
      (v.chain k).find? fun e => decide (e.seqno ≤ s) := by
  rw [v.chain_eq, find?_flatMap]
  exact findSome?_congr fun n hn => getLevel_eq hw hd hexact (mem_range.mp hn) k s

lemma Memtable.findSome?_get (l : List Memtable) (k : Key) (s : ℕ) :
    (l.findSome? fun m => m.get k s) = ((withKey key k (l.flatMap entries)).find?
        fun e => decide (e.seqno ≤ s)).map fun e => (e.valueType, e.value) := by
  rw [withKey_flatMap, find?_flatMap]
  induction l with
  | nil => rfl
  | cons m l ih =>
    rw [findSome?_cons, findSome?_cons, ih, m.get_eq k s]
    cases (withKey key k m.entries).find? fun e => decide (e.seqno ≤ s) <;> rfl

lemma visibleValue_live (e : Entry) : visibleValue (e.valueType, e.value) = e.live := by
  unfold visibleValue live
  cases e.valueType <;> rfl

/-- **Point reads follow the chain.** A point read returns the first visible version
of the chain, provided the tables read exactly and the deep levels can be searched. -/
theorem SuperVersion.getAt_eq {sv : SuperVersion Memtable} (hw : sv.version.WellFormed)
    (hd : sv.version.Disjoint) (hexact : ∀ t ∈ sv.version.allTables, t.ReadsExact) (k : Key)
    (s : ℕ) :
    sv.getAt k s = ((sv.chain k).find? fun e => decide (e.seqno ≤ s)).bind Entry.live := by
  rw [sv.chain_eq, find?_append, find?_append]
  unfold SuperVersion.getAt
  rw [sv.active.get_eq k s, Memtable.findSome?_get, Version.getLevels_eq hw hd hexact]
  cases (withKey Entry.key k sv.active.entries).find? fun e => decide (e.seqno ≤ s) with
  | some e => exact visibleValue_live e
  | none =>
    cases (withKey Entry.key k (sv.sealed.reverse.flatMap Memtable.entries)).find?
        fun e => decide (e.seqno ≤ s) with
    | some e => exact visibleValue_live e
    | none => rfl

end

/-- The range reads every table exactly: what it accepts of a table is among the
blocks it visits, and a table it skips has nothing it accepts. -/
structure ScanRange.Exact (r : ScanRange) (t : Table) : Prop where
  blocks : (t.rangeBlocks r.lower r.upper).filter (fun e => r.accept e.key) =
    t.entries.filter fun e => r.accept e.key
  skip : r.skip t = true → ∀ e ∈ t.entries, ¬ r.accept e.key = true

lemma ScanRange.closed_exact {start stop : Key} (hs : SortedLE t.entries) (hexact : t.ReadsExact) :
    (closed start stop).Exact t := by
  refine ⟨hexact.range start stop, fun hskip e he hacc => ?_⟩
  have h1 := keyMin_le hs.keySorted he
  have h2 := le_keyMax hs.keySorted he
  simp only [closed, Bool.or_eq_true, Bool.and_eq_true, decide_eq_true_eq] at hskip hacc
  rcases hskip with h | h
  · exact absurd (hacc.1.trans h2) (not_le.mpr h)
  · exact absurd (h1.trans hacc.2) (not_le.mpr h)

lemma ScanRange.ofPrefix_accept {p : Key} :
    (ofPrefix p).accept k = true ↔ p ≤ k ∧ ∀ u, (prefixToRange p).2 = some u → k < u := by
  rw [← isPrefix_iff_mem_range]
  exact isPrefixOf_iff_prefix

lemma ScanRange.ofPrefix_exact {p : Key} (hs : SortedLE t.entries) : (ofPrefix p).Exact t := by
  refine ⟨filter_rangeBlocks hs.keySorted (fun k hk => (ofPrefix_accept.mp hk).1)
    fun u hu k hk => (ofPrefix_accept.mp hk).2 u hu, fun hskip e he hacc => ?_⟩
  have h1 := keyMin_le hs.keySorted he
  have h2 := le_keyMax hs.keySorted he
  obtain ⟨hlo, hhi⟩ := ofPrefix_accept.mp hacc
  rcases Bool.or_eq_true_iff.mp hskip with h | h
  · cases hu : (prefixToRange p).2 with
    | none => simp [hu] at h
    | some u =>
      have hle : u ≤ t.keyMin := by simpa [hu] using h
      exact absurd (hle.trans h1) (not_le.mpr (hhi u hu))
  · have h : t.keyMax < p := of_decide_eq_true h
    exact absurd (hlo.trans h2) (not_le.mpr h)

lemma ScanRange.IsScan.exact {r : ScanRange} (h : r.IsScan) (hs : SortedLE t.entries)
    (hexact : t.ReadsExact) : r.Exact t := by
  rcases h with ⟨start, stop, rfl⟩ | ⟨p, rfl⟩
  · exact closed_exact hs hexact
  · exact ofPrefix_exact hs

variable {s : ℕ}

section

variable {cfg : TreeConfig} {sv : SuperVersion Memtable} {r : ScanRange}

lemma Version.run_perm (v : Version) : v.run.Perm (v.allTables.flatMap Table.entries) := by
  rw [Version.allTables, flatMap_assoc]
  refine List.Perm.flatMap_left _ fun n _ => ?_
  unfold Version.levelRun
  split
  · next h => subst h; exact (reverse_perm _).flatMap_right _
  · exact List.Perm.refl _

lemma flatMap_filter_eq {α β : Type} {l : List α} {p : α → Bool} {f g : α → List β}
    (hkeep : ∀ a ∈ l, p a = true → f a = g a) (hdrop : ∀ a ∈ l, p a = false → g a = []) :
    (l.filter p).flatMap f = l.flatMap g := by
  induction l with
  | nil => rfl
  | cons a l ih =>
    have ih' := ih (fun b hb => hkeep b (.tail _ hb)) fun b hb => hdrop b (.tail _ hb)
    cases hp : p a with
    | true => rw [filter_cons_of_pos hp, flatMap_cons, flatMap_cons, ih', hkeep a (by simp) hp]
    | false => rw [filter_cons_of_neg (by simp [hp]), flatMap_cons, ih',
        hdrop a (by simp) hp, nil_append]

/-- The sources of an exact scan hold what the range accepts of everything. -/
lemma SuperVersion.scanSources_perm (hexact : ∀ t ∈ sv.version.allTables, r.Exact t) :
    (sv.scanSources r).flatten.Perm (sv.run.filter fun e => r.accept e.key) := by
  have hmem : (((sv.active :: sv.sealed).map fun m => m.entries.filter fun e =>
      r.accept e.key).filter fun s => !s.isEmpty).flatten.Perm
      ((sv.active.entries ++ sv.sealed.reverse.flatMap Memtable.entries).filter fun e =>
        r.accept e.key) := by
    rw [flatten_filter_not_isEmpty, ← flatMap_def, flatMap_cons, filter_append, ← filter_flatMap]
    refine List.Perm.append_left _ (List.Perm.filter _ ?_)
    exact (reverse_perm _).symm.flatMap_right _
  have htab : ((sv.version.allTables.filter fun t => !r.skip t).map fun t =>
      (t.rangeBlocks r.lower r.upper).filter fun e => r.accept e.key).flatten.Perm
      (sv.version.run.filter fun e => r.accept e.key) := by
    refine List.Perm.trans (List.Perm.of_eq ?_) ((Version.run_perm _).symm.filter _)
    rw [filter_flatMap]
    refine flatMap_filter_eq (fun t ht _ => (hexact t ht).blocks) fun t ht hskip => ?_
    exact filter_eq_nil_iff.mpr ((hexact t ht).skip (by simpa using hskip))
  rw [scanSources, flatten_append, run, ← append_assoc, filter_append]
  exact hmem.append htab

lemma SuperVersion.merged_perm (hexact : ∀ t ∈ sv.version.allTables, r.Exact t)
    (heap : HeapOrder) (k : Key) :
    (withKey Entry.key k (mergeIterator heap (sv.scanSources r))).Perm
      (if r.accept k then sv.chain k else []) := by
  refine (((mergeIterator_perm heap _).trans (scanSources_perm hexact)).filter _).trans ?_
  refine List.Perm.of_eq ?_
  rw [List.filter_filter]
  split
  · next hacc =>
    refine List.filter_congr fun e _ => ?_
    by_cases hk : e.key = k
    · simp [hk, hacc]
    · simp [hk]
  · next hrej =>
    refine List.filter_eq_nil_iff.mpr fun e _ h => hrej ?_
    simp only [Bool.and_eq_true, decide_eq_true_eq] at h
    exact h.1 ▸ h.2

section

variable (hexact : ∀ t ∈ sv.version.allTables, r.Exact t)
  (hsorted : ∀ t ∈ sv.version.allTables, SortedLE t.entries)

include hexact hsorted

lemma SuperVersion.merged_sorted : SortedLE (mergeIterator cfg.heap (sv.scanSources r)) := by
  refine mergeIterator_sorted fun s hs => ?_
  rcases mem_append.mp hs with hs | hs
  · obtain ⟨m, -, rfl⟩ := mem_map.mp (mem_filter.mp hs).1
    exact m.sorted.sortedLE.filter _
  · obtain ⟨t, ht, rfl⟩ := mem_map.mp hs
    have ht := (mem_filter.mp ht).1
    rw [(hexact t ht).blocks]
    exact (hsorted t ht).filter _

variable (cfg) in
/-- **Scans follow sequence numbers.** What a scan yields for an accepted key comes
from the chain, sorted by sequence number. -/
theorem SuperVersion.withKey_scan (s : ℕ) (hacc : r.accept k = true) :
    ∃ run, run.Perm (sv.chain k) ∧ (run.Pairwise fun a b => b.seqno ≤ a.seqno) ∧
      withKey Entry.key k (sv.scan cfg r s) =
        ((mvccRun s cfg.mergeOperator run).filter Entry.isValue).toList := by
  have hmerged : SortedLE (mergeIterator cfg.heap _) := merged_sorted hexact hsorted
  refine ⟨withKey Entry.key k (mergeIterator cfg.heap (sv.scanSources r)), ?_,
    hmerged.withKey_desc k, ?_⟩
  · have hperm := merged_perm hexact cfg.heap k
    rwa [if_pos hacc] at hperm
  · rw [scan, withKey, filter_comm]
    change (withKey Entry.key k _).filter _ = _
    rw [withKey_mvccStream hmerged.keySorted]
    cases mvccRun s cfg.mergeOperator _ with
    | none => rfl
    | some e => cases h : e.isValue <;> simp [h, Option.filter]

variable (cfg) in
lemma SuperVersion.withKey_scan_of_desc (s : ℕ) (hdesc : SeqDesc (sv.chain k))
    (hacc : r.accept k = true) : withKey key k (sv.scan cfg r s) =
      ((mvccRun s cfg.mergeOperator (sv.chain k)).filter isValue).toList := by
  obtain ⟨run, hperm, hrun, hscan⟩ := withKey_scan cfg hexact hsorted s hacc
  rwa [hdesc.eq_of_perm hperm hrun] at hscan

lemma SuperVersion.scan_accept (he : e ∈ sv.scan cfg r s) : r.accept e.key = true := by
  by_contra hrej
  obtain ⟨x, hx, hxk⟩ := exists_of_mem_flatMap_runs (keepsKey_mvccRun s cfg.mergeOperator)
    (merged_sorted hexact hsorted).keySorted (mem_filter.mp he).1
  have hperm := merged_perm hexact cfg.heap e.key
  rw [if_neg hrej, perm_nil] at hperm
  exact withKey_eq_nil.mp hperm x hx hxk

lemma SuperVersion.scan_ascending (s : ℕ) :
    (sv.scan cfg r s).Pairwise fun a b => a.key < b.key :=
  List.Pairwise.filter _ (mvccStream_ascending (merged_sorted hexact hsorted).keySorted)

/-- Where a chain descends and is visible as a whole, a scan yields the value the
chain stands for. -/
lemma SuperVersion.mem_scan (hdesc : SeqDesc (sv.chain k)) (hvis : ∀ e ∈ sv.chain k, e.seqno ≤ s)
    (val : Value) : (∃ e ∈ sv.scan cfg r s, e.key = k ∧ e.value = val) ↔
      r.accept k = true ∧ chainValue cfg.mergeOperator k (sv.chain k) = some val := by
  have hkey : ∀ e ∈ sv.chain k, e.key = k := fun e he => (mem_chain.mp he).2
  constructor
  · rintro ⟨e, he, rfl, rfl⟩
    have hacc := scan_accept hexact hsorted he
    refine ⟨hacc, ?_⟩
    have hscan := withKey_scan_of_desc cfg hexact hsorted s hdesc hacc
    rw [← mvccRun_live hkey hdesc hvis]
    have hmem : e ∈ withKey Entry.key e.key (sv.scan cfg r s) := mem_withKey.mpr ⟨he, rfl⟩
    rw [hscan, mem_toList, filter_eq_some_iff] at hmem
    rw [hmem.1, bind_some, live_of_isValue hmem.2]
  · rintro ⟨hacc, hval⟩
    have hscan := withKey_scan_of_desc cfg hexact hsorted s hdesc hacc
    rw [← mvccRun_live hkey hdesc hvis, bind_eq_some_iff] at hval
    obtain ⟨e, he, hlive⟩ := hval
    have hv : e.isValue = true := by
      by_contra hv
      rw [live_of_not_isValue (by simpa using hv)] at hlive
      cases hlive
    rw [live_of_isValue hv, Option.some.injEq] at hlive
    have hmem : e ∈ withKey Entry.key k (sv.scan cfg r s) := by
      rw [hscan, he]
      simp [hv]
    exact ⟨e, (mem_withKey.mp hmem).1, (mem_withKey.mp hmem).2, hlive⟩

end

/-- Where a chain descends and is visible as a whole, a point read of a key no merge
operator owns returns the value the chain stands for. -/
lemma SuperVersion.getAt_eq_chainValue (hw : sv.version.WellFormed) (hd : sv.version.Disjoint)
    (hexact : ∀ t ∈ sv.version.allTables, t.ReadsExact) {op : Option MergeOperator}
    (hown : owned op k = false) (hvis : ∀ e ∈ sv.chain k, e.seqno ≤ s) :
    sv.getAt k s = chainValue op k (sv.chain k) := by
  rw [getAt_eq hw hd hexact, chainValue, if_neg (by simp [hown])]
  cases hc : sv.chain k with
  | nil => rfl
  | cons e l =>
    have := hvis e (by simp [hc])
    simp [this]

end

/-! ### What a scan lists -/

/-- The abstract contents of a tree. -/
abbrev Store := Key → Option Value

/-- A scan result lists a map over a range: the pairs of the range, in ascending key
order, each key once. -/
structure Lists (out : List Entry) (range : Key → Prop) (m : Store) : Prop where
  ascending : out.Pairwise fun a b => a.key < b.key
  mem : ∀ k v, (∃ e ∈ out, e.key = k ∧ e.value = v) ↔ range k ∧ m k = some v

/-- The value a scan returned for a key. -/
def scanValue (out : List Entry) (k : Key) : Option Value :=
  (out.find? fun e => decide (e.key = k)).map value

lemma Lists.scanValue {out : List Entry} {range : Key → Prop} {m : Store} (h : Lists out range m)
    (hk : range k) : scanValue out k = m k := by
  unfold XyzDB.scanValue
  cases hfind : out.find? fun e => decide (e.key = k) with
  | some e =>
    have hek : e.key = k := by simpa using find?_some hfind
    exact (((h.mem k e.value).mp ⟨e, mem_of_find?_eq_some hfind, hek, rfl⟩).2).symm
  | none =>
    cases hm : m k with
    | none => rfl
    | some v =>
      obtain ⟨e, he, hek, -⟩ := (h.mem k v).mpr ⟨hk, hm⟩
      exact absurd hek (by simpa using find?_eq_none.mp hfind e he)

end XyzDB
