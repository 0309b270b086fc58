import XyzDB.Turba.LevelSafety
import XyzDB.Turba.Unread

/-!
# Scans and block loads that fail

The sources of a scan are block iterators, and `SSTableBlockIter::next` ends when a block
does not load. The merge takes that for the end of the table: the scan reports nothing, and
where the table held the newest version of a key it yields an older one, or a key that was
deleted (`scan_incomplete`). A compaction reads its inputs the same way, writes what is left
of them and unlinks them (`compaction_drops_unread`).

A block does not load when the read or the checksum fails. A file that is gone is another
matter. The iterator loads the index of its table when it is made, through a read that opens
the file and keeps it open, so a table that was unlinked before its file was opened is
reported (`indexSection`), and one that is unlinked later can still be read.

A failure is harmless when what is not read is superseded (`Superseded`): a value that is lost has a
newer version beside it, and a tombstone that is lost hides no value that now comes up. Then a
scan reports an error, or yields what the scan without failures yields, and unless keys are
folded the converse holds (`scan_complete`). The same is true of compactions, where a
tombstone counts like a value above the last level (`compaction_complete`).
-/

namespace XyzDB

open KeyRuns List SuperVersion Entry

/-- Why a load fails. -/
inductive LoadError where
  | indexLoad
  | fileOpen
  | blockRead
  | checksumMismatch
  deriving DecidableEq

/-- What the disk answers during a scan, by table id and block. -/
structure Disk where
  /-- The path of the table exists. -/
  pathExists : ℕ → Bool
  /-- The reader holds an open file. -/
  opened : ℕ → Bool
  indexFails : ℕ → Bool
  readFails : ℕ → ℕ → Bool
  checksumFails : ℕ → ℕ → Bool

/-- A disk on which nothing fails. -/
def Disk.sound : Disk where
  pathExists _ := true
  opened _ := true
  indexFails _ := false
  readFails _ _ := false
  checksumFails _ _ := false

/-- The block cannot be read, or what is read is damaged. -/
def Disk.bad (disk : Disk) (id blockIdx : ℕ) : Bool :=
  disk.readFails id blockIdx || disk.checksumFails id blockIdx

/-- The lazy file handle of a reader: it is opened on first use and stays open. -/
def openFile (disk : Disk) (id : ℕ) : Except LoadError Disk :=
  if disk.opened id then .ok disk
  else if disk.pathExists id then .ok { disk with opened := fun i => i == id || disk.opened i }
  else .error .fileOpen

def loadBlock (disk : Disk) (t : Table) (blockIdx : ℕ) : Except LoadError (List Entry) := do
  let disk ← openFile disk t.id
  if disk.readFails t.id blockIdx then .error .blockRead
  else if disk.checksumFails t.id blockIdx then .error .checksumMismatch
  else .ok (t.blocks[blockIdx]?.getD [])

/-- `index_section` reads the index through `read_at`, which opens the file. -/
def indexSection (disk : Disk) (t : Table) : Except LoadError Disk := do
  let disk ← openFile disk t.id
  if disk.indexFails t.id then .error .indexLoad else .ok disk

/-- `SSTableBlockIter::next` until it ends: the blocks that the filter skips are not loaded,
and the first load that fails is taken for the end. -/
def blockIter (load : ℕ → Except LoadError (List Entry)) (keep : ℕ → Bool) : List ℕ → List Entry
  | [] => []
  | blockIdx :: rest =>
    if keep blockIdx then
      match load blockIdx with
      | .ok entries => entries ++ blockIter load keep rest
      | .error _ => []
    else blockIter load keep rest

/-- The blocks `SSTableBlockIter::new_with_range` visits. -/
def Table.visited (t : Table) (start : Key) (stop : Option Key) : List ℕ :=
  range' (t.firstBlock start) (t.endBlock stop - t.firstBlock start)

namespace SuperVersion

/-- The source of a scan for a table. The index of the table is loaded when its iterator is
made. -/
def tableSource (disk : Disk) (keep : Table → ℕ → Bool) (r : ScanRange) (t : Table) :
    Except LoadError (List Entry) := do
  let disk ← indexSection disk t
  return (blockIter (loadBlock disk t) (keep t) (t.visited r.lower r.upper)).filter fun e =>
    r.accept e.key

/-- The tables that a scan does not skip by their key bounds. -/
def scanned (sv : SuperVersion Memtable) (r : ScanRange) : List Table :=
  sv.version.allTables.filter fun t => !r.skip t

/-- The sources of a scan; `keep` is the block filter of `prefix_iter_filtered`. -/
def scanSourcesWith (disk : Disk) (keep : Table → ℕ → Bool) (sv : SuperVersion Memtable)
    (r : ScanRange) : Except LoadError (List (List Entry)) := do
  let tables ← (sv.scanned r).mapM (tableSource disk keep r)
  return ((sv.active :: sv.sealed).map fun m => m.entries.filter fun e => r.accept e.key).filter
    (fun s => !s.isEmpty) ++ tables

/-- A scan of a loaded super-version on the given disk. -/
def scanWith (cfg : TreeConfig) (disk : Disk) (keep : Table → ℕ → Bool)
    (sv : SuperVersion Memtable) (r : ScanRange) (visibleSeqno : ℕ) :
    Except LoadError (List Entry) := do
  let sources ← sv.scanSourcesWith disk keep r
  return (mvccStream visibleSeqno cfg.mergeOperator (mergeIterator cfg.heap sources)).filter
    Entry.isValue

end SuperVersion

/-! ### What is read of a table -/

/-- The entries of the given blocks of a table. -/
def Table.inBlocks (t : Table) (blocks : List ℕ) : List Entry :=
  blocks.flatMap fun i => t.blocks[i]?.getD []

/-- The blocks up to the first that does not load. -/
def Disk.loadable (disk : Disk) (t : Table) (blocks : List ℕ) : List ℕ :=
  blocks.takeWhile fun i => !disk.bad t.id i

lemma loadable_sublist (disk : Disk) (t : Table) (blocks : List ℕ) :
    (disk.loadable t blocks).Sublist blocks := takeWhile_sublist _

section

variable {disk disk' : Disk} {t : Table} {keep : ℕ → Bool}

lemma openFile_eq_ok {id : ℕ} (h : openFile disk id = .ok disk') :
    disk'.opened id = true ∧ disk'.readFails = disk.readFails ∧
      disk'.checksumFails = disk.checksumFails := by
  unfold openFile at h
  split_ifs at h with ho
  · cases h
    exact ⟨ho, rfl, rfl⟩
  · cases h
    exact ⟨by simp, rfl, rfl⟩

/-- Once the index is loaded, blocks fail for no other reason than their content. -/
lemma loadBlock_of_index (h : indexSection disk t = .ok disk') (blockIdx : ℕ) :
    (loadBlock disk' t blockIdx).toOption =
      if disk.bad t.id blockIdx then none else some (t.blocks[blockIdx]?.getD []) := by
  obtain ⟨ho, hread, hsum⟩ : disk'.opened t.id = true ∧ disk'.readFails = disk.readFails ∧
      disk'.checksumFails = disk.checksumFails := by
    unfold indexSection at h
    cases hopen : openFile disk t.id with
    | error err =>
      rw [hopen] at h
      cases h
    | ok d =>
      rw [hopen] at h
      simp only [bind, Except.bind] at h
      split_ifs at h
      cases h
      exact openFile_eq_ok hopen
  unfold loadBlock openFile Disk.bad
  rw [if_pos ho]
  simp only [bind, Except.bind, hread, hsum]
  cases disk.readFails t.id blockIdx <;> cases disk.checksumFails t.id blockIdx <;> rfl

/-- The iterator yields the blocks up to the first that does not load. -/
lemma blockIter_of_index (h : indexSection disk t = .ok disk') (l : List ℕ) :
    blockIter (loadBlock disk' t) keep l = t.inBlocks (disk.loadable t (l.filter keep)) := by
  induction l with
  | nil => rfl
  | cons i l ih =>
    rw [blockIter]
    have hload := loadBlock_of_index h i
    cases hk : keep i with
    | false => simpa [hk] using ih
    | true =>
      rw [if_pos rfl, filter_cons_of_pos hk, Disk.loadable]
      split
      · next entries hl =>
        -- the block loads, and the iterator goes on
        rw [hl] at hload
        cases hbad : disk.bad t.id i with
        | true => simp [hbad, Except.toOption] at hload
        | false =>
          have hentries : entries = t.blocks[i]?.getD [] := by
            simpa [hbad, Except.toOption] using hload
          rw [takeWhile_cons_of_pos (by simp [hbad]), ih, hentries]
          rfl
      · next err hl =>
        rw [hl] at hload
        cases hbad : disk.bad t.id i with
        | false => simp [hbad, Except.toOption] at hload
        | true =>
          rw [takeWhile_cons_of_neg (by simp [hbad])]
          rfl

lemma inBlocks_range (t : Table) (n : ℕ) : t.inBlocks (range n) = (t.blocks.take n).flatten := by
  induction n with
  | zero => rfl
  | succ n ih =>
    rw [Table.inBlocks, range_succ, flatMap_append, take_add_one, flatten_append]
    refine congrArg₂ _ ih ?_
    cases hb : t.blocks[n]? <;> simp [hb]

/-- Blocks that are read in order yield the entries of the table in order. -/
lemma inBlocks_sublist {l : List ℕ} {n : ℕ} (h : l.Sublist (range n)) :
    (t.inBlocks l).Sublist t.entries := by
  refine (h.flatMap _).trans ?_
  change (t.inBlocks (range n)).Sublist _
  rw [inBlocks_range]
  exact (take_sublist _ _).flatten

lemma visited_sublist (t : Table) (start : Key) (stop : Option Key) :
    ∃ n, (t.visited start stop).Sublist (range n) := by
  refine ⟨t.firstBlock start + (t.endBlock stop - t.firstBlock start), ?_⟩
  rw [Table.visited, range'_eq_map_range, range_add]
  exact sublist_append_right _ _

end

lemma mapM_eq_ok {α β ε : Type} {f : α → Except ε β} {g : α → β} {l : List α}
    (h : ∀ a ∈ l, f a = .ok (g a)) : l.mapM f = .ok (l.map g) := by
  induction l with
  | nil => rfl
  | cons a l ih =>
    rw [mapM_cons, h a mem_cons_self, ih fun b hb => h b (.tail _ hb)]
    rfl

lemma mapM_eq_error {α β ε : Type} {f : α → Except ε β} {l : List α}
    (h : ∃ a ∈ l, ∃ err, f a = .error err) : ∃ err, l.mapM f = .error err := by
  induction l with
  | nil => obtain ⟨a, ha, -⟩ := h; cases ha
  | cons a l ih =>
    rw [mapM_cons]
    cases ha : f a with
    | error err => exact ⟨err, rfl⟩
    | ok b =>
      obtain ⟨c, hc, err, herr⟩ := h
      rcases mem_cons.mp hc with rfl | hc
      · rw [ha] at herr
        cases herr
      · obtain ⟨err, hl⟩ := ih ⟨c, hc, err, herr⟩
        exact ⟨err, by rw [hl]; rfl⟩

/-! ### Scans -/

namespace SuperVersion

/-- What a scan merges when it reads the given blocks of each table. -/
def held (sv : SuperVersion Memtable) (r : ScanRange) (blocks : Table → List ℕ) : List Entry :=
  ((sv.active :: sv.sealed).flatMap Memtable.entries ++
    (sv.scanned r).flatMap fun t => t.inBlocks (blocks t)).filter fun e => r.accept e.key

/-- The blocks of a table that a scan is to read. -/
def wanted (keep : Table → ℕ → Bool) (r : ScanRange) (t : Table) : List ℕ :=
  (t.visited r.lower r.upper).filter (keep t)

end SuperVersion

/-- The failures of the disk make no difference: what the scan accepts and does not see,
because it is in a block that fails to load or comes after one, is superseded by the rest. -/
def Harmless (cfg : TreeConfig) (disk : Disk) (keep : Table → ℕ → Bool)
    (sv : SuperVersion Memtable) (r : ScanRange) (visibleSeqno : ℕ) : Prop :=
  Superseded true cfg.mergeOperator
    ((sv.held r fun t => disk.loadable t (wanted keep r t)).filter fun e =>
      decide (e.seqno ≤ visibleSeqno))
    ((sv.held r (wanted keep r)).filter fun e => decide (e.seqno ≤ visibleSeqno))

instance (cfg : TreeConfig) (disk : Disk) (keep : Table → ℕ → Bool) (sv : SuperVersion Memtable)
    (r : ScanRange) (visibleSeqno : ℕ) : Decidable (Harmless cfg disk keep sv r visibleSeqno) :=
  inferInstanceAs (Decidable (Superseded ..))

/-- A table of the scan cannot be opened, or its index does not load. -/
def Reported (disk : Disk) (sv : SuperVersion Memtable) (r : ScanRange) : Prop :=
  ∃ t ∈ sv.scanned r, (indexSection disk t).isOk = false

/-- The scan reports an error, or yields what the scan without failures yields. -/
def ScanComplete (cfg : TreeConfig) (disk : Disk) (keep : Table → ℕ → Bool)
    (sv : SuperVersion Memtable) (r : ScanRange) (visibleSeqno : ℕ) : Prop :=
  (∃ err, sv.scanWith cfg disk keep r visibleSeqno = .error err) ∨
    sv.scanWith cfg disk keep r visibleSeqno = sv.scanWith cfg .sound keep r visibleSeqno

section

variable {cfg : TreeConfig} {disk : Disk} {keep : Table → ℕ → Bool} {sv : SuperVersion Memtable}
  {r : ScanRange} {visibleSeqno : ℕ}

lemma isOk_eq_false {α ε : Type} {x : Except ε α} (h : x.isOk = false) : ∃ err, x = .error err := by
  cases x with
  | error err => exact ⟨err, rfl⟩
  | ok a => cases h

lemma Reported.scan (h : Reported disk sv r) :
    ∃ err, sv.scanWith cfg disk keep r visibleSeqno = .error err := by
  obtain ⟨t, ht, hfail⟩ := h
  obtain ⟨err, herr⟩ := isOk_eq_false hfail
  obtain ⟨err', hmap⟩ : ∃ err, (sv.scanned r).mapM (tableSource disk keep r) = .error err :=
    mapM_eq_error ⟨t, ht, err, by rw [tableSource, herr]; rfl⟩
  exact ⟨err', by rw [scanWith, scanSourcesWith, hmap]; rfl⟩

/-- The sources of a scan that reports nothing. -/
def sourcesOf (sv : SuperVersion Memtable) (r : ScanRange) (blocks : Table → List ℕ) :
    List (List Entry) :=
  ((sv.active :: sv.sealed).map fun m => m.entries.filter fun e => r.accept e.key).filter
    (fun s => !s.isEmpty) ++
    (sv.scanned r).map fun t => (t.inBlocks (blocks t)).filter fun e => r.accept e.key

lemma scanWith_of_not_reported (h : ¬ Reported disk sv r) :
    sv.scanWith cfg disk keep r visibleSeqno =
      .ok ((mvccStream visibleSeqno cfg.mergeOperator (mergeIterator cfg.heap
        (sourcesOf sv r fun t => disk.loadable t (wanted keep r t)))).filter isValue) := by
  have hmap : (sv.scanned r).mapM (tableSource disk keep r) = .ok ((sv.scanned r).map fun t =>
      (t.inBlocks (disk.loadable t (wanted keep r t))).filter fun e => r.accept e.key) := by
    refine mapM_eq_ok fun t ht => ?_
    cases hindex : indexSection disk t with
    | error err => exact absurd ⟨t, ht, by rw [hindex]; rfl⟩ h
    | ok disk' =>
      rw [tableSource, hindex]
      exact congrArg Except.ok (congrArg _ (blockIter_of_index hindex _))
  rw [scanWith, scanSourcesWith, hmap]
  rfl

lemma not_reported_sound (sv : SuperVersion Memtable) (r : ScanRange) : ¬ Reported .sound sv r := by
  rintro ⟨t, -, h⟩
  cases h

lemma loadable_sound (t : Table) (l : List ℕ) : Disk.sound.loadable t l = l :=
  takeWhile_eq_self_iff.mpr fun _ _ => rfl

lemma mem_sourcesOf {blocks : Table → List ℕ} {e : Entry} :
    e ∈ mergeIterator cfg.heap (sourcesOf sv r blocks) ↔ e ∈ sv.held r blocks := by
  rw [(mergeIterator_perm cfg.heap _).mem_iff, sourcesOf, flatten_append,
    flatten_filter_not_isEmpty, ← flatMap_def, ← flatMap_def, held, filter_append,
    ← filter_flatMap, ← filter_flatMap]

lemma held_subset {blocks blocks' : Table → List ℕ} (h : ∀ t, blocks t ⊆ blocks' t) :
    sv.held r blocks ⊆ sv.held r blocks' := by
  refine filter_subset _ fun e he => ?_
  rcases mem_append.mp he with he | he
  · exact mem_append_left _ he
  · obtain ⟨t, ht, he⟩ := mem_flatMap.mp he
    obtain ⟨i, hi, he⟩ := mem_flatMap.mp he
    exact mem_append_right _ (mem_flatMap.mpr ⟨t, ht, mem_flatMap.mpr ⟨i, h t hi, he⟩⟩)

lemma held_subset_run {blocks : Table → List ℕ} : sv.held r blocks ⊆ sv.run := by
  intro e he
  rcases mem_append.mp (mem_filter.mp he).1 with he | he
  · rw [flatMap_cons, mem_append, mem_flatMap] at he
    rw [run, mem_append, mem_append, mem_flatMap]
    simpa [← or_assoc] using Or.inl he
  · obtain ⟨t, ht, he⟩ := mem_flatMap.mp he
    obtain ⟨i, -, he⟩ := mem_flatMap.mp he
    have hmem : e ∈ sv.version.run := (Version.run_perm _).mem_iff.mpr
      (mem_flatMap.mpr ⟨t, (mem_filter.mp ht).1, ?_⟩)
    · rw [run, mem_append, mem_append]
      exact .inr (.inr hmem)
    · cases hb : t.blocks[i]? with
      | none => simp [hb] at he
      | some b => exact mem_flatten.mpr ⟨b, mem_of_getElem? hb, by simpa [hb] using he⟩

section

variable (hsorted : ∀ t ∈ sv.version.allTables, SortedLE t.entries)

include hsorted

lemma sourcesOf_sorted (cfg : TreeConfig) {blocks : Table → List ℕ}
    (hblocks : ∀ t, (blocks t).Sublist (wanted keep r t)) :
    SortedLE (mergeIterator cfg.heap (sourcesOf sv r blocks)) := by
  refine mergeIterator_sorted fun s hs => ?_
  rcases mem_append.mp hs with hs | hs
  · obtain ⟨m, -, rfl⟩ := mem_map.mp (mem_filter.mp hs).1
    exact m.sorted.sortedLE.filter _
  · obtain ⟨t, ht, rfl⟩ := mem_map.mp hs
    obtain ⟨n, hn⟩ := visited_sublist t r.lower r.upper
    have hsub : (t.inBlocks (blocks t)).Sublist t.entries :=
      inBlocks_sublist ((hblocks t).trans (filter_sublist.trans hn))
    exact ((hsorted t (mem_filter.mp ht).1).sublist hsub).filter _

/-- **Scans are complete or report.** A scan whose failures are harmless reports an error, or
yields exactly what the scan of the same super-version without failures yields. Where no key of
the range is folded, only such scans do, and those that cannot open a table or load its index. -/
theorem scan_complete (hcopies : CopiesAgree sv.run) :
    (Harmless cfg disk keep sv r visibleSeqno → ScanComplete cfg disk keep sv r visibleSeqno) ∧
      ((∀ k, r.accept k = true → owned cfg.mergeOperator k = false) →
        (ScanComplete cfg disk keep sv r visibleSeqno ↔
          Reported disk sv r ∨ Harmless cfg disk keep sv r visibleSeqno)) := by
  -- in terms of the merged streams: what was read against what is held
  have hsuperseded : Harmless cfg disk keep sv r visibleSeqno ↔ Superseded true cfg.mergeOperator
      ((mergeIterator cfg.heap (sourcesOf sv r fun t => disk.loadable t (wanted keep r t))).filter
        fun e => decide (e.seqno ≤ visibleSeqno))
      ((mergeIterator cfg.heap (sourcesOf sv r (wanted keep r))).filter
        fun e => decide (e.seqno ≤ visibleSeqno)) :=
    superseded_congr (fun e => by simp only [mem_filter, mem_sourcesOf])
      fun e => by simp only [mem_filter, mem_sourcesOf]
  have hl := sourcesOf_sorted hsorted cfg fun t => loadable_sublist disk t (wanted keep r t)
  have hl₀ := sourcesOf_sorted hsorted cfg fun t => Sublist.refl (wanted keep r t)
  have hsub : mergeIterator cfg.heap (sourcesOf sv r fun t => disk.loadable t (wanted keep r t)) ⊆
      mergeIterator cfg.heap (sourcesOf sv r (wanted keep r)) := fun e he =>
    mem_sourcesOf.mpr (held_subset (fun t => (loadable_sublist ..).subset) (mem_sourcesOf.mp he))
  have hcopies' : CopiesAgree (mergeIterator cfg.heap (sourcesOf sv r (wanted keep r))) :=
    fun a ha b hb => hcopies a (held_subset_run (mem_sourcesOf.mp ha)) b
      (held_subset_run (mem_sourcesOf.mp hb))
  have hsound : sv.scanWith cfg .sound keep r visibleSeqno =
      .ok ((mvccStream visibleSeqno cfg.mergeOperator (mergeIterator cfg.heap
        (sourcesOf sv r (wanted keep r)))).filter isValue) := by
    rw [scanWith_of_not_reported (not_reported_sound sv r)]
    simp only [loadable_sound]
  have henough : Harmless cfg disk keep sv r visibleSeqno →
      ScanComplete cfg disk keep sv r visibleSeqno := by
    intro h
    by_cases hrep : Reported disk sv r
    · exact .inl hrep.scan
    · refine .inr ?_
      rw [scanWith_of_not_reported hrep, hsound,
        values_eq_of_superseded hl hl₀ hsub hcopies' (hsuperseded.mp h)]
  -- the converse needs keys without an owner: a fold could hide a lost entry
  refine ⟨henough, fun hown => ⟨fun h => ?_, fun h => h.elim (fun hrep => .inl hrep.scan) henough⟩⟩
  by_cases hrep : Reported disk sv r
  · exact .inl hrep
  · refine .inr (hsuperseded.mpr ((values_eq_iff hl hl₀ hsub hcopies' fun e he =>
      hown _ (mem_filter.mp (mem_sourcesOf.mp he)).2).mp ?_))
    rcases h with ⟨err, herr⟩ | heq
    · rw [scanWith_of_not_reported hrep] at herr
      cases herr
    · rw [scanWith_of_not_reported hrep, hsound] at heq
      exact Except.ok.inj heq

end

end

/-- A key is flushed and then deleted; a checkpoint flushes the tombstone. -/
def deletedKey : List TreeLabel :=
  [.insert [1] [5], .sealActive, .flush 0, .flush 0, .flush 0, .flush 0, .flush 0, .flush 0,
    .remove [1], .checkpoint] ++ replicate 9 .maint

/-- A disk that cannot read the tombstone's block. -/
def unreadable : Disk := { Disk.sound with readFails := fun id _ => id == 2 }

/-- A disk on which the tombstone's block is damaged. -/
def damaged : Disk := { Disk.sound with checksumFails := fun id _ => id == 2 }

/-- A scan yields the deleted key and reports nothing. -/
theorem scan_incomplete : ∃ s, (treeSys (smallConfig none 4096)).run
      (treeSys (smallConfig none 4096)).init deletedKey = some s ∧
    s.tree.current.version.allTables.map Table.id = [1, 2] ∧
    (∀ disk ∈ [unreadable, damaged],
      s.tree.current.scanWith (smallConfig none 4096) disk (fun _ _ => true) (.closed [1] [1]) 2 =
        .ok [⟨[1], [5], 1, .value⟩]) ∧
    s.tree.current.scanWith (smallConfig none 4096) .sound (fun _ _ => true) (.closed [1] [1]) 2 =
      .ok [] := by
  apply exists_of_any
  decide +kernel

/-- The same disk, but the block of the flushed value is the one that cannot be read. -/
def valueUnreadable : Disk := { Disk.sound with readFails := fun id _ => id == 1 }

/-- The deleted value is in a block that does not load, which the tombstone covers. -/
theorem scan_complete_deleted_value : ∃ s, (treeSys (smallConfig none 4096)).run
      (treeSys (smallConfig none 4096)).init deletedKey = some s ∧
    Harmless (smallConfig none 4096) valueUnreadable (fun _ _ => true) s.tree.current
      (.closed [1] [1]) 2 ∧
    ScanComplete (smallConfig none 4096) valueUnreadable (fun _ _ => true) s.tree.current
      (.closed [1] [1]) 2 := by
  obtain ⟨s, hs, hsorted, hcopies, hharmless⟩ : ∃ s, _ = some s ∧
      (∀ t ∈ s.tree.current.version.allTables, SortedLE t.entries) ∧
      CopiesAgree s.tree.current.run ∧
      Harmless (smallConfig none 4096) valueUnreadable (fun _ _ => true) s.tree.current
        (.closed [1] [1]) 2 :=
    exists_of_any (x := (treeSys (smallConfig none 4096)).run
      (treeSys (smallConfig none 4096)).init deletedKey) (by decide +kernel)
  exact ⟨s, hs, hharmless, (scan_complete hsorted hcopies).1 hharmless⟩

/-! ### Compactions -/

/-- The source of a compaction for a table: all its blocks. -/
def Table.iterate (disk : Disk) (t : Table) : Except LoadError (List Entry) := do
  let disk ← indexSection disk t
  return blockIter (loadBlock disk t) (fun _ => true) (range t.blocks.length)

/-- `execute_with_observer` on the given disk, which its inputs are read from. -/
def CompactionTask.executeOn (disk : Disk) (task : CompactionTask) (cfg : SSTableConfig)
    (heap : HeapOrder) (op : Option MergeOperator) (targetTableSize nextTableId : ℕ) :
    Except LoadError (List Table) := do
  let sources ← task.inputTables.mapM (Table.iterate disk)
  return writeTables cfg nextTableId (Chunk.chunk entrySize targetTableSize
    (compactionStream task.isLastLevel op (mergeIterator heap sources)))

/-- The compaction reports an error, or writes what the compaction without failures writes. -/
def CompactionTask.Complete (disk : Disk) (task : CompactionTask) (cfg : SSTableConfig)
    (heap : HeapOrder) (op : Option MergeOperator) (targetTableSize nextTableId : ℕ) : Prop :=
  (∃ err, task.executeOn disk cfg heap op targetTableSize nextTableId = .error err) ∨
    task.executeOn disk cfg heap op targetTableSize nextTableId =
      .ok (task.execute cfg heap op targetTableSize nextTableId)

/-- What the inputs hold in the blocks up to the first of each that does not load. -/
def CompactionTask.readable (disk : Disk) (task : CompactionTask) : List Entry :=
  task.inputTables.flatMap fun t => t.inBlocks (disk.loadable t (range t.blocks.length))

section

variable {disk : Disk} {task : CompactionTask} {cfg : SSTableConfig} {heap : HeapOrder}
  {op : Option MergeOperator} {targetTableSize nextTableId : ℕ}

lemma executeOn_of_index (h : ∀ t ∈ task.inputTables, (indexSection disk t).isOk = true) :
    task.executeOn disk cfg heap op targetTableSize nextTableId =
      .ok (writeTables cfg nextTableId (Chunk.chunk entrySize targetTableSize
        (compactionStream task.isLastLevel op (mergeIterator heap (task.inputTables.map fun t =>
          t.inBlocks (disk.loadable t (range t.blocks.length))))))) := by
  have hmap : task.inputTables.mapM (Table.iterate disk) = .ok (task.inputTables.map fun t =>
      t.inBlocks (disk.loadable t (range t.blocks.length))) := by
    refine mapM_eq_ok fun t ht => ?_
    cases hindex : indexSection disk t with
    | error err =>
      have := h t ht
      rw [hindex] at this
      cases this
    | ok disk' =>
      rw [Table.iterate, hindex]
      refine congrArg Except.ok ((blockIter_of_index hindex _).trans ?_)
      rw [filter_eq_self.mpr fun _ _ => rfl]
  rw [CompactionTask.executeOn, hmap]
  rfl

/-- The tables that are written tell the streams apart. -/
lemma writeTables_inj {l l' : List Entry} :
    writeTables cfg nextTableId (Chunk.chunk entrySize targetTableSize l) =
      writeTables cfg nextTableId (Chunk.chunk entrySize targetTableSize l') ↔ l = l' := by
  refine ⟨fun h => ?_, fun h => by rw [h]⟩
  have hentries := congrArg (fun ts : List Table => (ts.map Table.entries).flatten) h
  simpa only [writeTables_entries, flatten_filter_not_isEmpty, Chunk.chunk_flatten] using hentries

/-- **Compactions are complete or report.** When what is not read of the inputs is superseded, a
compaction reports an error, or writes what the compaction without failures writes. Where no key
of the inputs is folded, only such compactions do, and those that cannot open a table or load its
index. -/
theorem compaction_complete (hsorted : ∀ t ∈ task.inputTables, SortedLE t.entries)
    (hcopies : CopiesAgree (task.inputTables.flatMap Table.entries)) :
    (Superseded task.isLastLevel op (task.readable disk) (task.inputTables.flatMap Table.entries) →
      task.Complete disk cfg heap op targetTableSize nextTableId) ∧
    ((∀ t ∈ task.inputTables, ∀ e ∈ t.entries, owned op e.key = false) →
      (task.Complete disk cfg heap op targetTableSize nextTableId ↔
        (∃ t ∈ task.inputTables, (indexSection disk t).isOk = false) ∨
        Superseded task.isLastLevel op (task.readable disk)
          (task.inputTables.flatMap Table.entries))) := by
  have hmem : ∀ e, e ∈ mergeIterator heap (task.inputTables.map fun t =>
      t.inBlocks (disk.loadable t (range t.blocks.length))) ↔ e ∈ task.readable disk := fun e => by
    rw [(mergeIterator_perm heap _).mem_iff, ← flatMap_def, CompactionTask.readable]
  have hmem₀ : ∀ e, e ∈ mergeIterator heap (task.inputTables.map Table.entries) ↔
      e ∈ task.inputTables.flatMap Table.entries := fun e => by
    rw [(mergeIterator_perm heap _).mem_iff, ← flatMap_def]
  have hpart : ∀ t : Table,
      (t.inBlocks (disk.loadable t (range t.blocks.length))).Sublist t.entries :=
    fun t => inBlocks_sublist (loadable_sublist ..)
  have hl : SortedLE (mergeIterator heap (task.inputTables.map fun t =>
      t.inBlocks (disk.loadable t (range t.blocks.length)))) :=
    mergeIterator_sorted fun s hs => by
      obtain ⟨t, ht, rfl⟩ := mem_map.mp hs
      exact (hsorted t ht).sublist (hpart t)
  have hl₀ : SortedLE (mergeIterator heap (task.inputTables.map Table.entries)) :=
    mergeIterator_sorted fun s hs => by
      obtain ⟨t, ht, rfl⟩ := mem_map.mp hs
      exact hsorted t ht
  have hsub : mergeIterator heap (task.inputTables.map fun t =>
      t.inBlocks (disk.loadable t (range t.blocks.length))) ⊆
        mergeIterator heap (task.inputTables.map Table.entries) := fun e he => by
    obtain ⟨t, ht, he⟩ := mem_flatMap.mp ((hmem e).mp he)
    exact (hmem₀ e).mpr (mem_flatMap.mpr ⟨t, ht, (hpart t).subset he⟩)
  have hcopies' : CopiesAgree (mergeIterator heap (task.inputTables.map Table.entries)) :=
    fun a ha b hb => hcopies a ((hmem₀ a).mp ha) b ((hmem₀ b).mp hb)
  have hreports : (∃ t ∈ task.inputTables, (indexSection disk t).isOk = false) →
      ∃ err, task.executeOn disk cfg heap op targetTableSize nextTableId = .error err := by
    rintro ⟨t, ht, hfail⟩
    obtain ⟨err, herr⟩ := isOk_eq_false hfail
    obtain ⟨err', hmap⟩ : ∃ err, task.inputTables.mapM (Table.iterate disk) = .error err :=
      mapM_eq_error ⟨t, ht, err, by rw [Table.iterate, herr]; rfl⟩
    exact ⟨err', by rw [CompactionTask.executeOn, hmap]; rfl⟩
  -- without a report, the tables agree iff the streams do
  have hruns : (¬ ∃ t ∈ task.inputTables, (indexSection disk t).isOk = false) →
      (task.Complete disk cfg heap op targetTableSize nextTableId ↔
        compactionStream task.isLastLevel op (mergeIterator heap (task.inputTables.map fun t =>
          t.inBlocks (disk.loadable t (range t.blocks.length)))) =
        compactionStream task.isLastLevel op
          (mergeIterator heap (task.inputTables.map Table.entries))) := by
    intro hindex
    have hok : ∀ t ∈ task.inputTables, (indexSection disk t).isOk = true := fun t ht => by
      by_contra h
      exact hindex ⟨t, ht, by simpa using h⟩
    rw [CompactionTask.Complete, executeOn_of_index hok]
    refine ⟨fun h => ?_, fun h => .inr (by rw [h]; rfl)⟩
    rcases h with ⟨err, herr⟩ | heq
    · cases herr
    · exact writeTables_inj.mp (Except.ok.inj heq)
  have hsuperseded := @superseded_congr task.isLastLevel op _ _ _ _ hmem hmem₀
  by_cases hindex : ∃ t ∈ task.inputTables, (indexSection disk t).isOk = false
  · exact ⟨fun _ => .inl (hreports hindex),
      fun _ => iff_of_true (.inl (hreports hindex)) (.inl hindex)⟩
  · rw [hruns hindex, ← hsuperseded]
    refine ⟨compacted_eq_of_superseded hl hl₀ hsub hcopies', fun hown => ?_⟩
    rw [compacted_eq_iff hl hl₀ hsub hcopies' fun e he => ?_, or_iff_right hindex]
    obtain ⟨t, ht, he⟩ := mem_flatMap.mp ((hmem₀ e).mp he)
    exact hown t ht e he

end

/-- A compaction to the last level of two versions of a key, each in a table of its own. -/
def overwritten : Option CompactionTask := do
  let newer ← Table.write ⟨4096, fun _ _ => true⟩ 1 [⟨[1], [6], 2, .value⟩]
  let older ← Table.write ⟨4096, fun _ _ => true⟩ 2 [⟨[1], [5], 1, .value⟩]
  return ⟨[newer, older], 0, 1, true⟩

/-- The older version does not load, and the newer one covers it. -/
theorem compaction_complete_overwritten : ∃ task, overwritten = some task ∧
    Superseded task.isLastLevel none (task.readable unreadable)
      (task.inputTables.flatMap Table.entries) ∧
    task.Complete unreadable ⟨4096, fun _ _ => true⟩ (fun _ _ => 0) none 4096 3 := by
  obtain ⟨task, htask, hsorted, hcopies, hsuperseded⟩ : ∃ task, overwritten = some task ∧
      (∀ t ∈ task.inputTables, SortedLE t.entries) ∧
      CopiesAgree (task.inputTables.flatMap Table.entries) ∧
      Superseded task.isLastLevel none (task.readable unreadable)
        (task.inputTables.flatMap Table.entries) :=
    exists_of_any (by decide +kernel)
  exact ⟨task, htask, hsuperseded, (compaction_complete hsorted hcopies).1 hsuperseded⟩

/-- A table of one entry, alone in its compaction. -/
def loneInput : Option CompactionTask :=
  (Table.write ⟨4096, fun _ _ => true⟩ 2 [⟨[1], [5], 1, .value⟩]).map fun t => ⟨[t], 0, 1, true⟩

/-- The block does not load, and the compaction returns no tables and no error. -/
theorem compaction_drops_unread : loneInput.any (fun task =>
    ((task.executeOn unreadable ⟨4096, fun _ _ => true⟩ (fun _ _ => 0) none 4096 3).toOption.any
      (·.isEmpty)) && !(task.execute ⟨4096, fun _ _ => true⟩ (fun _ _ => 0) none 4096 3).isEmpty) =
    true := by decide +kernel

end XyzDB
