import XyzDB.Turba.Stream
import XyzDB.Turba.Version

/-!
# Leveled compaction: picking a task and executing it

`chooseCompaction` (`compaction/leveled.rs`) picks the level that is most over its
target and builds a `CompactionTask`: a batch of the oldest tables of level `0`
with the tables of level `1` they overlap, or the largest table of a deeper level
with the tables of the next level it overlaps. `execute` (`compaction/worker.rs`)
merges the inputs, runs them through the compaction stream and writes the result
into tables, starting a new one whenever the open one has reached its target
size.

Which task is picked is a matter of policy; what every task has in common is
`TaskShape`, and nothing about compaction is proved from anything else.

The overflow ratios are quotients of floating-point numbers. `LeveledConfig.ratio`
stands for that division, so that no result depends on its rounding.
-/

namespace XyzDB

open KeyRuns List

/-- Configuration of the leveled strategy. -/
structure LeveledConfig where
  maxL0Tables : ℕ
  baseSizeBytes : ℕ
  sizeRatio : ℕ
  targetTableSize : ℕ
  maxTablesPerLevel : ℕ
  enableTrivialMove : Bool
  l0CompactBatchSize : ℕ
  maxCompactionAmplification : ℕ
  /-- Floating-point division of two counts. -/
  ratio : ℕ → ℕ → ℚ

/-- A compaction to be executed. -/
structure CompactionTask where
  inputTables : List Table
  sourceLevel : ℕ
  targetLevel : ℕ
  isLastLevel : Bool

namespace CompactionTask

def inputIds (task : CompactionTask) : List ℕ := task.inputTables.map Table.id

end CompactionTask

def saturatingMul (a b : ℕ) : ℕ := min (a * b) u64Max

def saturatingPow (a n : ℕ) : ℕ := min (a ^ n) u64Max

/-- `overlaps`: closed key ranges intersect. -/
def overlaps (aMin aMax bMin bMax : Key) : Bool := decide (aMin ≤ bMax) && decide (bMin ≤ aMax)

/-- `l0_key_range`: the hull of the tables' key ranges, empty keys for no table. -/
def l0KeyRange : List Table → Key × Key
  | [] => ([], [])
  | t :: ts => (ts.foldl (fun m u => min m u.keyMin) t.keyMin,
      ts.foldl (fun m u => max m u.keyMax) t.keyMax)

/-- The tables of a level that intersect a key range. -/
def overlapping (level : List Table) (range : Key × Key) : List Table :=
  level.filter fun t => overlaps t.keyMin t.keyMax range.1 range.2

/-- Whether all levels from `n` on are empty. -/
def emptyFrom (v : Version) (n : ℕ) : Bool :=
  (range maxLevels).all fun m => decide (m < n) || (v.level m).isEmpty

/-- `build_l0_compaction_batched`: the oldest `batchSize` tables of level `0` with
the tables of level `1` that overlap them. -/
def buildL0CompactionBatched (v : Version) (batchSize : ℕ) : CompactionTask :=
  let batch := (v.level 0).take batchSize
  { inputTables := batch ++ overlapping (v.level 1) (l0KeyRange batch)
    sourceLevel := 0
    targetLevel := 1
    isLastLevel := emptyFrom v 2 }

/-- `build_l0_compaction`: all of level `0`. -/
def buildL0Compaction (v : Version) : CompactionTask :=
  buildL0CompactionBatched v (v.level 0).length

/-- `max_by_key(file_size)`: the last of the largest tables. -/
def largestTable (level : List Table) : Option Table :=
  level.foldl (fun best t => match best with
    | none => some t
    | some b => if b.fileSize ≤ t.fileSize then some t else some b) none

/-- `build_level_compaction`: the largest table of a level with the tables of the
next level that overlap it. An empty level has no largest table. -/
def buildLevelCompaction (v : Version) (sourceLevel : ℕ) : Option CompactionTask :=
  (largestTable (v.level sourceLevel)).map fun picked =>
    { inputTables :=
        picked :: overlapping (v.level (sourceLevel + 1)) (picked.keyMin, picked.keyMax)
      sourceLevel := sourceLevel
      targetLevel := sourceLevel + 1
      isLastLevel := decide (maxLevels - 1 ≤ sourceLevel + 1) || emptyFrom v (sourceLevel + 2) }

section

variable (cfg : LeveledConfig)

variable (v : Version)

/-- The overflow ratio of level `0`: its table count against the limit. -/
def l0Ratio : ℚ :=
  if cfg.maxL0Tables = 0 then 0 else cfg.ratio (v.level 0).length cfg.maxL0Tables

/-- The overflow ratio of a deeper level: the larger of its byte and table-count
overflows. -/
def levelRatio (level : ℕ) : ℚ :=
  let levelSize := ((v.level level).map Table.fileSize).sum
  let bytesTarget := saturatingMul cfg.baseSizeBytes (saturatingPow cfg.sizeRatio (level - 1))
  let naturalTables :=
    if 0 < cfg.targetTableSize then max (bytesTarget / cfg.targetTableSize) 1
    else cfg.maxTablesPerLevel
  let countTarget := max cfg.maxTablesPerLevel naturalTables
  let bytesRatio := if 0 < bytesTarget then cfg.ratio levelSize bytesTarget else 0
  let countRatio := if 0 < countTarget then cfg.ratio (v.level level).length countTarget else 0
  max bytesRatio countRatio

/-- The level to compact, if any is over its target: level `0` at an emergency,
else the level with the largest overflow. -/
def chooseLevel : Option ℕ :=
  let r0 := l0Ratio cfg v
  if 3 ≤ r0 then some 0
  else
    let best : Option (ℚ × ℕ) := if 1 ≤ r0 then some (r0, 0) else none
    ((range' 1 (maxLevels - 2)).foldl (fun best level =>
      let r := levelRatio cfg v level
      if 1 < r ∧ best.all (fun b => decide (b.1 < r)) = true then some (r, level) else best)
      best).map Prod.snd

def chooseCompaction : Option CompactionTask :=
  match chooseLevel cfg v with
  | some 0 => some (buildL0Compaction v)
  | some level => buildLevelCompaction v level
  | none => none

end

section

variable (task : CompactionTask)

/-- `is_trivial_move_candidate`: one input, and not too much below the target. -/
def isTrivialMoveCandidate (v : Version) (cfg : LeveledConfig) : Bool :=
  cfg.enableTrivialMove && match task.inputTables with
    | [input] =>
      let below := overlapping (v.level (task.targetLevel + 1)) (input.keyMin, input.keyMax)
      decide (maxLevels ≤ task.targetLevel + 1) ||
        decide ((below.map Table.fileSize).sum ≤ saturatingMul cfg.targetTableSize 25)
    | _ => false

/-- Write one table per chunk, numbering them from `nextTableId`. -/
def writeTables (cfg : SSTableConfig) (nextTableId : ℕ) (chunks : List (List Entry)) : List Table :=
  (chunks.zipIdx nextTableId).filterMap fun c => Table.write cfg c.2 c.1

/-- The stream of surviving entries of a task. -/
def CompactionTask.output (heap : HeapOrder) (op : Option MergeOperator) : List Entry :=
  compactionStream task.isLastLevel op (mergeIterator heap (task.inputTables.map Table.entries))

/-- The cuts of the output writer. -/
def CompactionTask.chunks (heap : HeapOrder)
    (op : Option MergeOperator) (targetTableSize : ℕ) : List (List Entry) :=
  Chunk.chunk entrySize targetTableSize (task.output heap op)

end

/-! ### The shape of a task

Everything a builder guarantees about its task. -/

/-- What every compaction task of a version has in common: some tables of the
source level, a key range that covers them, and all tables of the next level that
meet the range. -/
structure TaskShape (v : Version) (task : CompactionTask) where
  /-- The inputs from the source level. -/
  upper : List Table
  /-- The key range the target level was filtered by. -/
  range : Key × Key
  target_eq : task.targetLevel = task.sourceLevel + 1
  source_lt : task.sourceLevel + 1 < maxLevels
  inputs_eq : task.inputTables = upper ++ overlapping (v.level task.targetLevel) range
  /-- Level `0` gives a batch of its oldest tables, a deeper level one table. -/
  upper_eq : (task.sourceLevel = 0 ∧ ∃ n, upper = (v.level 0).take n) ∨
    (1 ≤ task.sourceLevel ∧ ∃ p ∈ v.level task.sourceLevel, upper = [p])
  cover : ∀ t ∈ upper, range.1 ≤ t.keyMin ∧ t.keyMax ≤ range.2
  /-- A task that counts as last has nothing below its target. -/
  last : task.isLastLevel = true → ∀ n, task.targetLevel < n → n < maxLevels → v.level n = []

lemma le_foldl_max {α β : Type} [LinearOrder β] (f : α → β) (ts : List α) (a : β) :
    a ≤ ts.foldl (fun m u => max m (f u)) a ∧
      ∀ t ∈ ts, f t ≤ ts.foldl (fun m u => max m (f u)) a := by
  induction ts generalizing a with
  | nil => simp
  | cons t ts ih =>
    obtain ⟨h1, h2⟩ := ih (max a (f t))
    refine ⟨(le_max_left ..).trans h1, fun u hu => ?_⟩
    rcases mem_cons.mp hu with rfl | hu
    · exact (le_max_right ..).trans h1
    · exact h2 u hu

lemma foldl_min_le (ts : List Table) (a : Key) : ts.foldl (fun m u => min m u.keyMin) a ≤ a ∧
      ∀ t ∈ ts, ts.foldl (fun m u => min m u.keyMin) a ≤ t.keyMin :=
  le_foldl_max (β := Keyᵒᵈ) Table.keyMin ts a

lemma l0KeyRange_cover {ts : List Table} {t : Table} (ht : t ∈ ts) :
    (l0KeyRange ts).1 ≤ t.keyMin ∧ t.keyMax ≤ (l0KeyRange ts).2 := by
  cases ts with
  | nil => cases ht
  | cons u ts =>
    obtain ⟨hmin, hmin'⟩ := foldl_min_le ts u.keyMin
    obtain ⟨hmax, hmax'⟩ := le_foldl_max Table.keyMax ts u.keyMax
    rcases mem_cons.mp ht with rfl | ht
    · exact ⟨hmin, hmax⟩
    · exact ⟨hmin' t ht, hmax' t ht⟩

variable {v : Version}

lemma emptyFrom_iff {n : ℕ} :
    emptyFrom v n = true ↔ ∀ m, n ≤ m → m < maxLevels → v.level m = [] := by
  simp only [emptyFrom, List.all_eq_true, List.mem_range, Bool.or_eq_true, decide_eq_true_eq,
    List.isEmpty_iff]
  constructor
  · intro h m hm hm7
    rcases h m hm7 with h | h
    · omega
    · exact h
  · intro h m hm7
    rcases lt_or_ge m n with h' | h'
    · exact .inl h'
    · exact .inr (h m h' hm7)

lemma largestTable_mem {l : List Table} {t : Table} (h : largestTable l = some t) : t ∈ l := by
  have key : ∀ (l : List Table) (best : Option Table) (t : Table),
      l.foldl (fun best t => match best with
        | none => some t
        | some b => if b.fileSize ≤ t.fileSize then some t else some b) best = some t →
      best = some t ∨ t ∈ l := by
    intro l
    induction l with
    | nil => intro best t h; exact .inl h
    | cons u l ih =>
      intro best t h
      rcases ih _ t h with h | h
      · cases best with
        | none =>
          cases h
          exact .inr mem_cons_self
        | some b =>
          dsimp only at h
          split at h
          · cases h
            exact .inr mem_cons_self
          · exact .inl h
      · exact .inr (.tail _ h)
  rcases key l none t h with h | h
  · cases h
  · exact h

/-- A batched task of level `0` has the common shape. -/
def taskShape_l0 (v : Version) (batchSize : ℕ) :
    TaskShape v (buildL0CompactionBatched v batchSize) where
  upper := (v.level 0).take batchSize
  range := l0KeyRange ((v.level 0).take batchSize)
  target_eq := rfl
  source_lt := by simp [buildL0CompactionBatched, maxLevels]
  inputs_eq := rfl
  upper_eq := .inl ⟨rfl, batchSize, rfl⟩
  cover := fun _ ht => l0KeyRange_cover ht
  last := fun h n hn => by
    have h' : emptyFrom v 2 = true := h
    exact emptyFrom_iff.mp h' n hn

lemma taskShape_level {level : ℕ} (h1 : 1 ≤ level) (h6 : level + 1 < maxLevels)
    {task : CompactionTask} (h : buildLevelCompaction v level = some task) :
    Nonempty (TaskShape v task) := by
  obtain ⟨p, hp, rfl⟩ := Option.map_eq_some_iff.mp h
  refine ⟨⟨[p], (p.keyMin, p.keyMax), rfl, h6, rfl, .inr ⟨h1, p, largestTable_mem hp, rfl⟩,
    ?_, fun hlast n hn hn7 => ?_⟩⟩
  · intro t ht
    obtain rfl := mem_singleton.mp ht
    exact ⟨le_refl _, le_refl _⟩
  · rcases Bool.or_eq_true_iff.mp hlast with h' | h'
    · have : maxLevels - 1 ≤ level + 1 := by simpa using h'
      have : level + 1 < n := hn
      omega
    · exact emptyFrom_iff.mp h' n hn hn7

lemma chooseLevel_lt {cfg : LeveledConfig} {level : ℕ} (h : chooseLevel cfg v = some level) :
    level + 1 < maxLevels := by
  have key : ∀ (ls : List ℕ) (best : Option (ℚ × ℕ)),
      (∀ l ∈ ls, l + 1 < maxLevels) → (∀ b ∈ best, b.2 + 1 < maxLevels) →
      ∀ b ∈ ls.foldl (fun best level =>
        let r := levelRatio cfg v level
        if 1 < r ∧ best.all (fun b => decide (b.1 < r)) = true then some (r, level) else best)
        best, b.2 + 1 < maxLevels := by
    intro ls
    induction ls with
    | nil => intro best _ hb; exact hb
    | cons l ls ih =>
      intro best hls hb
      refine ih _ (fun l' hl' => hls l' (.tail _ hl')) ?_
      dsimp only
      split
      · intro b hb'
        cases hb'
        exact hls l mem_cons_self
      · exact hb
  unfold chooseLevel at h
  dsimp only at h
  split at h
  · cases h
    decide
  · obtain ⟨b, hb, rfl⟩ := Option.map_eq_some_iff.mp h
    refine key _ _ (fun l hl => ?_) (fun b hb => ?_) b hb
    · have := mem_range'_1.mp hl
      omega
    · split at hb <;> cases hb
      simp [maxLevels]

lemma taskShape_choose {cfg : LeveledConfig} {task : CompactionTask}
    (h : chooseCompaction cfg v = some task) : Nonempty (TaskShape v task) := by
  unfold chooseCompaction at h
  split at h
  · cases h
    exact ⟨taskShape_l0 v _⟩
  · next level hne hlevel =>
    refine taskShape_level ?_ (chooseLevel_lt hlevel) h
    rcases Nat.eq_zero_or_pos level with rfl | h0
    · exact absurd rfl hne
    · exact h0
  · cases h

end XyzDB
