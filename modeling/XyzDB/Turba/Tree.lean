import XyzDB.Turba.Memtable
import XyzDB.Turba.Worker

/-!
# The tree

A `Tree` (`tree/mod.rs`) is a current `SuperVersion` (the active memtable, the sealed
memtables still to be flushed, the on-disk version), a handful of counters, and the
manifest it last persisted. The representation of memtables is a parameter: the
operations that only move memtables around work for any handle type, those that
look inside are stated for memtables held by value.

The operations are written in the pieces in which the code performs them, so that
a sequential run composes the pieces and a concurrent one interleaves them: a flush
takes a snapshot of the sealed memtables, writes one table per memtable, installs
the tables while dropping memtables, persists the manifest and advances the
durability counters.
-/

namespace XyzDB

open KeyRuns BinarySearch

/-- What a tree is configured with. The merge operator and the order in which the
merge heap pops equal items are part of it. -/
structure TreeConfig where
  sstable : SSTableConfig
  maxMemtableSize : ℕ
  leveled : LeveledConfig
  mergeOperator : Option MergeOperator
  heap : HeapOrder

/-- The state a reader loads in one step. -/
structure SuperVersion (M : Type) where
  active : M
  /-- Memtables awaiting a flush, oldest first. -/
  sealed : List M
  version : Version

/-- The persisted manifest. -/
structure Manifest where
  version : Version
  nextTableId : ℕ
  nextSeqno : ℕ

/-- The version a manifest stands for. -/
def manifestVersion (manifest : Option Manifest) : Version :=
  (manifest.map Manifest.version).getD .new

def listedTables (manifest : Option Manifest) : List Table :=
  ((manifest.map Manifest.version).getD .new).allTables

/-- An open tree. -/
structure Tree (M : Type) where
  current : SuperVersion M
  nextTableId : ℕ
  seqno : ℕ
  flushedSeqno : ℕ
  manifestDurableSeqno : ℕ
  compactionEnabled : Bool
  /-- What is on disk; `none` before the first persist. -/
  manifest : Option Manifest

/-- What one round of a compaction driver decides to do. -/
inductive Round where
  /-- Nothing is left to compact. -/
  | done
  /-- The write-amplification guard gives up. -/
  | stalled
  /-- Move the single input of the task down a level. -/
  | move (task : CompactionTask)
  /-- Merge the inputs of the task. -/
  | compact (task : CompactionTask)

/-- The decision of `maybe_compact`. -/
def maybeRound (cfg : TreeConfig) (v : Version) : Round :=
  match chooseCompaction cfg.leveled v with
  | none => .done
  | some task => if isTrivialMoveCandidate task v cfg.leveled then .move task else .compact task

/-- The decision of one iteration of `major_compact_with_observer`: drain level `0` in
batches, then follow the picker. An observer has to see every entry that enters
level `1`, so it rules out trivial moves there. -/
def majorRound (cfg : TreeConfig) (observer : Bool) (baseline inputsConsumed : ℕ) (v : Version) :
    Round :=
  if 0 < cfg.leveled.maxCompactionAmplification ∧ 0 < baseline ∧
      saturatingMul baseline cfg.leveled.maxCompactionAmplification < inputsConsumed then
    .stalled
  else if 0 < (v.level 0).length then
    let task := buildL0CompactionBatched v cfg.leveled.l0CompactBatchSize
    if !observer && isTrivialMoveCandidate task v cfg.leveled then .move task else .compact task
  else
    match chooseCompaction cfg.leveled v with
    | none => .done
    | some task =>
      if (!observer || decide (2 ≤ task.targetLevel)) && isTrivialMoveCandidate task v cfg.leveled
      then .move task
      else .compact task

namespace Tree

section

variable {M : Type}

/-- `Tree::open` on a directory holding the given manifest. -/
def openWith (fresh : M) (manifest : Option Manifest) : Tree M where
  current := ⟨fresh, [], (manifest.map Manifest.version).getD .new⟩
  nextTableId := (manifest.map Manifest.nextTableId).getD 1
  seqno := (manifest.map Manifest.nextSeqno).getD 0
  flushedSeqno := (manifest.map Manifest.nextSeqno).getD 0
  manifestDurableSeqno := (manifest.map Manifest.nextSeqno).getD 0
  compactionEnabled := true
  manifest := manifest

section

variable (t : Tree M)

/-- The store of a new super-version by `seal_active`: the active memtable joins the
sealed ones. -/
def sealWith (fresh : M) : Tree M :=
  { t with current := ⟨fresh, t.current.sealed ++ [t.current.active], t.current.version⟩ }

/-- The install step of `flush_sealed`: the new tables join level `0`, and as many
memtables as were processed are dropped from the front of the sealed ones. -/
def installFlush (newTables : List Table) (processedCount : ℕ) : Tree M :=
  let dropCount := min processedCount t.current.sealed.length
  { t with
    current := ⟨t.current.active, t.current.sealed.drop dropCount,
      t.current.version.withNewL0Tables newTables⟩ }

def persistManifest : Tree M :=
  { t with manifest := some ⟨t.current.version, t.nextTableId, t.seqno⟩ }

/-- The persist step of `flush_sealed`, skipped while compaction is disabled. -/
def flushPersist : Tree M :=
  if t.compactionEnabled then t.persistManifest else t

/-- The last step of `flush_sealed`: advance the counters. -/
def flushAdvance (maxFlushed : ℕ) (manifestPersisted : Bool) : Tree M :=
  if 0 < maxFlushed then
    { t with
      flushedSeqno := max t.flushedSeqno maxFlushed
      manifestDurableSeqno :=
        if manifestPersisted then max t.manifestDurableSeqno maxFlushed
        else t.manifestDurableSeqno }
  else t

end

section

variable (t : Tree M) (maxFlushed : ℕ) (b : Bool)

@[simp] lemma flushAdvance_current : (t.flushAdvance maxFlushed b).current = t.current := by
  unfold flushAdvance
  split <;> rfl

@[simp] lemma flushAdvance_nextTableId :
    (t.flushAdvance maxFlushed b).nextTableId = t.nextTableId := by
  unfold flushAdvance
  split <;> rfl

@[simp] lemma flushAdvance_seqno : (t.flushAdvance maxFlushed b).seqno = t.seqno := by
  unfold flushAdvance
  split <;> rfl

@[simp] lemma flushAdvance_manifest : (t.flushAdvance maxFlushed b).manifest = t.manifest := by
  unfold flushAdvance
  split <;> rfl

/-- The watermark moves at most to the number flushed, and only under a persisted
manifest. -/
lemma flushAdvance_durable : (t.flushAdvance maxFlushed b).manifestDurableSeqno =
    if b then max t.manifestDurableSeqno maxFlushed else t.manifestDurableSeqno := by
  unfold flushAdvance
  split
  · rfl
  · next h => rw [Nat.eq_zero_of_not_pos h, Nat.max_zero, ite_self]

lemma flushAdvance_flushed :
    (t.flushAdvance maxFlushed b).flushedSeqno = max t.flushedSeqno maxFlushed := by
  unfold flushAdvance
  split
  · rfl
  · next h => rw [Nat.eq_zero_of_not_pos h, Nat.max_zero]

end

section

variable (t : Tree M)

/-- The version swap of a compaction. -/
def applyCompaction (task : CompactionTask) (outs : List Table) : Tree M :=
  { t with
    current := ⟨t.current.active, t.current.sealed, applyOutputs t.current.version task outs⟩ }

def setCompactionEnabled (enabled : Bool) : Tree M :=
  { t with compactionEnabled := enabled }

/-- The watermark catch-up at the end of a checkpoint or a major compaction. -/
def catchUp : Tree M :=
  { t with manifestDurableSeqno := max t.manifestDurableSeqno t.flushedSeqno }

/-- `apply_trivial_move`: the single input migrates to the target level. -/
def applyTrivialMove (task : CompactionTask) : Tree M :=
  match task.inputTables with
  | input :: _ => (t.applyCompaction task [input]).persistManifest
  | [] => t

/-- Allocate ids for the outputs of a task. -/
def allocate (count : ℕ) : Tree M := { t with nextTableId := t.nextTableId + count }

end

variable (cfg : TreeConfig)

/-- Execute a task, swap the version, persist the manifest. -/
def runTask (t : Tree M) (task : CompactionTask) : Tree M :=
  let chunks := task.chunks cfg.heap cfg.mergeOperator cfg.leveled.targetTableSize
  let outs := task.execute cfg.sstable cfg.heap cfg.mergeOperator cfg.leveled.targetTableSize
    t.nextTableId
  ((t.allocate chunks.length).applyCompaction task outs).persistManifest

def maybeCompact (t : Tree M) : Tree M :=
  match maybeRound cfg t.current.version with
  | .move task => t.applyTrivialMove task
  | .compact task => t.runTask cfg task
  | .done | .stalled => t

/-- The loop of `major_compact_with_observer`. Returns the tree and whether the
write-amplification guard stopped the loop; `none` when the fuel runs out. -/
def majorLoop (cfg : TreeConfig) (observer : Bool) (baseline : ℕ) :
    ℕ → Tree M → ℕ → Option (Tree M × Bool)
  | 0, _, _ => none
  | fuel + 1, t, inputsConsumed =>
    match majorRound cfg observer baseline inputsConsumed t.current.version with
    | .stalled => some (t, true)
    | .done => some (t, false)
    | .move task =>
      majorLoop cfg observer baseline fuel (t.applyTrivialMove task) (inputsConsumed + 1)
    | .compact task =>
      majorLoop cfg observer baseline fuel (t.runTask cfg task)
        (inputsConsumed + task.inputIds.length)

/-- The denominator of the write-amplification guard. -/
def ampBaseline (t : Tree M) : ℕ :=
  let tables := t.current.version.allTables
  let totalBlocks := (tables.map fun u => u.blocks.length).sum
  let blocksPerTarget := max (max cfg.leveled.targetTableSize 1 / max cfg.sstable.dataBlockSize 1) 1
  max tables.length (totalBlocks / blocksPerTarget)

end

/-- A fresh tree: `Tree::open` on an empty directory. -/
def empty : Tree Memtable := openWith .new none

section

variable (t : Tree Memtable)

def putActive (e : Entry) : Tree Memtable :=
  { t with current := ⟨t.current.active.insert e, t.current.sealed, t.current.version⟩ }

/-- `Tree::insert`: the sequence number comes from the tree's own counter. -/
def insert (userKey : Key) (value : Value) : Tree Memtable :=
  { t with seqno := t.seqno + 1 }.putActive ⟨userKey, value, t.seqno + 1, .value⟩

def remove (userKey : Key) : Tree Memtable :=
  { t with seqno := t.seqno + 1 }.putActive ⟨userKey, [], t.seqno + 1, .tombstone⟩

/-- `Tree::insert_with_seqno`: the sequence number comes from the engine. -/
def insertWithSeqno (e : Entry) : Tree Memtable :=
  { t with seqno := max t.seqno e.seqno }.putActive e

/-- `Tree::seal_active`; nothing happens when the active memtable is empty. -/
def sealActive : Tree Memtable :=
  if t.current.active.isEmpty then t else t.sealWith .new

end

/-- The highest sequence number of the memtables a flush took. -/
def maxFlushed (memtables : List Memtable) : ℕ :=
  (memtables.map Memtable.highestSeqno).foldl max 0

lemma maxFlushed_mem (memtables : List Memtable) :
    maxFlushed memtables = 0 ∨ ∃ m ∈ memtables, m.highestSeqno = maxFlushed memtables := by
  have hfold : ∀ (l : List ℕ) (a : ℕ), l.foldl max a = a ∨ l.foldl max a ∈ l := by
    intro l
    induction l with
    | nil => exact fun a => .inl rfl
    | cons b l ih =>
      intro a
      rcases ih (max a b) with h | h
      · rcases le_total a b with hab | hab
        · exact .inr (List.mem_cons.mpr (.inl (h.trans (Nat.max_eq_right hab))))
        · exact .inl (h.trans (Nat.max_eq_left hab))
      · exact .inr (.tail _ h)
  exact (hfold _ 0).imp_right List.mem_map.mp

variable (cfg : TreeConfig)

/-- The table configuration of a flush: no bloom filter while compaction is
disabled. -/
def flushConfig (compactionEnabled : Bool) : SSTableConfig :=
  if compactionEnabled then cfg.sstable else { cfg.sstable with bloom := fun _ _ => true }

/-- The write step of `flush_sealed`: one table per memtable, in order; an empty
memtable uses up an id and gives no table. -/
def flushTables (compactionEnabled : Bool) (nextTableId : ℕ)
    (memtables : List Memtable) : List Table :=
  writeTables (flushConfig cfg compactionEnabled) nextTableId (memtables.map Memtable.entries)

def flushSealed (t : Tree Memtable) : Tree Memtable :=
  let memtables := t.current.sealed
  if memtables = [] then t
  else
    let tables := flushTables cfg t.compactionEnabled t.nextTableId memtables
    let installed := (t.allocate memtables.length).installFlush tables memtables.length
    installed.flushPersist.flushAdvance (maxFlushed memtables) t.compactionEnabled

/-- `Tree::major_compact_with_observer`; `none` while the loop has not ended. -/
def majorCompact (observer : Bool) (fuel : ℕ) (t : Tree Memtable) : Option (Tree Memtable) :=
  let flushed := (t.setCompactionEnabled false).flushSealed cfg
  (majorLoop cfg observer (flushed.ampBaseline cfg) fuel flushed 0).map fun r =>
    let restored := if t.compactionEnabled then r.1.setCompactionEnabled true else r.1
    if r.2 then restored else restored.catchUp

/-- `Tree::ingest_sorted`: tables of memtable size, without bloom filters, straight
into level `0`. -/
def ingestSorted (entries : List Entry) (t : Tree Memtable) : Tree Memtable :=
  let chunks := Chunk.chunk entrySize cfg.maxMemtableSize entries
  let tables := writeTables (flushConfig cfg false) t.nextTableId chunks
  let seqno := max t.seqno ((entries.map Entry.seqno).foldl max 0)
  { t.allocate chunks.length with
    seqno := seqno
    current := ⟨t.current.active, t.current.sealed,
      t.current.version.withNewL0Tables tables⟩ }.persistManifest

end Tree

/-- A tree with small levels and tables of the given target size. -/
def smallConfig (op : Option MergeOperator) (targetTableSize : ℕ) : TreeConfig where
  sstable := ⟨4096, fun _ _ => true⟩
  maxMemtableSize := 4096
  leveled :=
    { maxL0Tables := 1
      baseSizeBytes := 1
      sizeRatio := 1
      targetTableSize := targetTableSize
      maxTablesPerLevel := 1
      enableTrivialMove := false
      l0CompactBatchSize := 1
      maxCompactionAmplification := 0
      ratio := fun a b => (a : ℚ) / b }
  mergeOperator := op
  heap := fun _ _ => 0

end XyzDB
