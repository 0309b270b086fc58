import XyzDB.Turba.TreeSys

/-!
# The files of a tree

`fileSys` has what runs against the directory of one tree: flushes and ingests that draw
table ids and write files before they install them, the holder of the compaction lock
with the orphan sweep that ends a major compaction, and crashes. It is finer than
`treeSys` where files are concerned and leaves the counters of the WAL watermark to it.

* A flush draws an id, registers it in `flushing_ids`, writes the file, and so on for each
  memtable; it installs its tables, persists the manifest if compaction is enabled, and
  takes its ids out of `flushing_ids` when it returns, whichever way it returns. Thread
  `0` is the flush of the lock holder.
* An ingest draws and writes table by table, installs and persists; it registers nothing.
* The sweep reads the ids of the version, then `flushing_ids`, and then tests and unlinks
  files one by one.

`persist_manifest` may fail at each of its steps. Up to the rename nothing changes; when
the directory cannot be synced, a crash may bring back the manifest of before (`stale`).
A persist is one step: the manifest lock keeps persists apart, and nothing a persist
reads is removed while it holds the lock. Tables are taken to be on disk when their
writer has published them; the writer syncs the file, and the directory is synced
with the manifest that lists it.

`since` collects the versions the tree has had from the last successful persist on, and
`swept` what sweeps have unlinked since the tree was opened.
-/

namespace XyzDB

/-- How `persist_manifest` ends: by which of its steps fails. -/
inductive PersistOutcome where
  | ok
  | writeFailed
  | fsyncFailed
  | renameFailed
  | dirFsyncFailed
  deriving DecidableEq

/-- The locals of a call of `flush_sealed`. -/
structure FlushCall where
  /-- How many memtables the snapshot had. -/
  processed : ℕ
  todo : List Memtable
  /-- The compaction flag at the start. -/
  enabled : Bool
  tables : List Table
  /-- The ids in the guard. -/
  ids : List ℕ

/-- Where a call of `flush_sealed` stands. -/
inductive FileFlush where
  | idle
  /-- At the head of its loop. -/
  | ready (c : FlushCall)
  /-- Has drawn an id. -/
  | drawn (c : FlushCall) (id : ℕ)
  /-- Has registered the id. -/
  | registered (c : FlushCall) (id : ℕ)
  | installed (ids : List ℕ)
  /-- Has read the compaction flag as set. -/
  | persisting (ids : List ℕ)
  /-- Is about to drop the guard. -/
  | returning (ids : List ℕ) (ok : Bool)

/-- The locals of a call of `ingest_sorted`. -/
structure IngestCall where
  todo : List (List Entry)
  tables : List Table
  maxSeqno : ℕ

/-- Where a call of `ingest_sorted` stands. -/
inductive Ingest where
  | idle
  | ready (c : IngestCall)
  | drawn (c : IngestCall) (id : ℕ)
  | persisting

/-- Where the holder of the compaction lock stands. -/
inductive FileMaint where
  | idle
  | move (driver : Driver) (task : CompactionTask)
  | compact (driver : Driver) (task : CompactionTask) (outs : List Table)
  /-- The version is swapped; the ids are to be deleted when the manifest is persisted. -/
  | persist (driver : Driver) (oldIds : List ℕ)
  | delete (driver : Driver) (oldIds : List ℕ)
  | majorFlush (wasEnabled observer : Bool)
  | majorMeasure (wasEnabled observer : Bool)
  | majorRound (wasEnabled observer : Bool) (baseline inputsConsumed : ℕ)
  | sweepStart (wasEnabled : Bool)
  /-- The sweep has read the ids of the version. -/
  | sweepRead (wasEnabled : Bool) (referenced : List ℕ)
  /-- The sweep has read `flushing_ids` and goes through the directory. -/
  | sweep (wasEnabled : Bool) (referenced inFlight : List ℕ)
  | majorRestore (wasEnabled : Bool)

/-- The tree, its directory and its threads: `n` flushes besides the lock holder's, and
`m` ingests. -/
structure FileState (n m : ℕ) where
  /-- The manifest is the one the directory shows. -/
  tree : Tree Memtable
  /-- Manifests that a crash may bring back. -/
  stale : List (Option Manifest)
  files : List Table
  flushingIds : List ℕ
  flushes : Fin (n + 1) → FileFlush
  ingests : Fin m → Ingest
  maint : FileMaint
  /-- The versions from the last successful persist on. -/
  since : List Version
  /-- What sweeps have unlinked. -/
  swept : List ℕ

/-- The steps of the threads. -/
inductive FileLabel (n m : ℕ) where
  | put (e : Entry)
  | sealActive
  | setCompactionEnabled (enabled : Bool)
  | flush (i : Fin (n + 1))
  /-- The file cannot be written. -/
  | flushFail (i : Fin (n + 1))
  | flushPersist (i : Fin (n + 1)) (r : PersistOutcome)
  | ingest (j : Fin m) (entries : List Entry)
  | ingestStep (j : Fin m)
  | ingestFail (j : Fin m)
  | ingestPersist (j : Fin m) (r : PersistOutcome)
  | maybeCompact
  | major (observer : Bool)
  | maint
  | maintFail
  | maintPersist (r : PersistOutcome)
  /-- The sweep comes to the file of the given id. -/
  | sweepTest (id : ℕ)
  /-- Crash, and open with one of the manifests that may be on disk. -/
  | crash (k : ℕ)

def maxOnDiskTableId (files : List Table) : ℕ := (files.map Table.id).foldl max 0

/-- The version `Tree::open` builds: listed tables whose file is missing are skipped, and
deep levels are sorted. -/
def Manifest.rebuild (files : List Table) (m : Manifest) : Version :=
  ⟨fun n =>
    let opened := (m.version.level n).filterMap fun t => files.find? fun f => f.id = t.id
    if 1 ≤ n then opened.insertionSort Version.keyMinLE else opened⟩

/-- The deep levels are sorted by smallest key. -/
def Version.DeepSorted (v : Version) : Prop :=
  ∀ n, 1 ≤ n → (v.level n).Pairwise Version.keyMinLE

namespace Version

lemma DeepSorted.withCompactionApplied {v : Version} (h : v.DeepSorted) (ids : List ℕ)
    (ts : List Table) (target : ℕ) : (v.withCompactionApplied ids ts target).DeepSorted := by
  intro n hn
  unfold Version.withCompactionApplied
  dsimp only
  split
  · next ht =>
    rw [if_pos (ht.1 ▸ hn)]
    exact List.pairwise_insertionSort _ _
  · exact (h n hn).sublist List.filter_sublist

lemma DeepSorted.withNewL0Tables {v : Version} (h : v.DeepSorted) (ts : List Table) :
    (v.withNewL0Tables ts).DeepSorted := by
  intro n hn
  rw [v.withNewL0Tables_level_pos ts (ne_of_gt hn)]
  exact h n hn

end Version

/-- `Tree::open` on a directory with the given files and manifest. -/
def Tree.reopen (files : List Table) (manifest : Option Manifest) : Tree Memtable :=
  let t := openWith .new manifest
  { t with
    current := ⟨t.current.active, [], (manifest.map (Manifest.rebuild files)).getD .new⟩
    nextTableId := max t.nextTableId (maxOnDiskTableId files + 1) }

def orphanIsDeletable (id : ℕ) (referenced : List ℕ) (maxReferenced : ℕ) (inFlight : List ℕ) :
    Bool :=
  !referenced.contains id && decide (id ≤ maxReferenced) && !inFlight.contains id

/-- Where a round goes on when it is done. -/
def Driver.resumeFiles : Driver → FileMaint
  | .background => .idle
  | .major wasEnabled observer baseline inputsConsumed =>
    .majorRound wasEnabled observer baseline inputsConsumed

/-- Where a major compaction goes on when its flush has returned. An error ends it, with
the compaction flag left off. -/
def FileMaint.afterFlush (ok : Bool) : FileMaint → FileMaint
  | .majorFlush wasEnabled observer => if ok then .majorMeasure wasEnabled observer else .idle
  | maint => maint

namespace FileState

variable {n m : ℕ}

variable (s : FileState n m)

def setFlush (i : Fin (n + 1)) (f : FileFlush) : FileState n m :=
  { s with flushes := Function.update s.flushes i f }

def setIngest (j : Fin m) (f : Ingest) : FileState n m :=
  { s with ingests := Function.update s.ingests j f }

/-- Store a new super-version. -/
def store (current : SuperVersion Memtable) : FileState n m :=
  { s with
    tree := { s.tree with current := current }
    since := s.since ++ [current.version] }

/-- `persist_manifest`. -/
def persist : PersistOutcome → FileState n m
  | .ok => { s with
      tree := s.tree.persistManifest
      stale := []
      since := [s.tree.current.version] }
  | .dirFsyncFailed => { s with
      tree := s.tree.persistManifest
      stale := s.tree.manifest :: s.stale }
  | .writeFailed | .fsyncFailed | .renameFailed => s

/-- Draw a table id. -/
def draw : FileState n m := { s with tree := s.tree.allocate 1 }

def publish (t : Table) : FileState n m := { s with files := t :: s.files }

/-- A call of `flush_sealed` returns. -/
def flushReturn (i : Fin (n + 1)) (ok : Bool) : FileState n m :=
  { s.setFlush i .idle with maint := if i = 0 then s.maint.afterFlush ok else s.maint }

/-- A call of `flush_sealed` starts. -/
def flushStart (i : Fin (n + 1)) : FileState n m :=
  if s.tree.current.sealed = [] then s.flushReturn i true
  else s.setFlush i (.ready ⟨s.tree.current.sealed.length, s.tree.current.sealed,
    s.tree.compactionEnabled, [], []⟩)

section

variable (cfg : TreeConfig)

/-- The next piece of a call of `flush_sealed`. -/
def flushStep (s : FileState n m) (i : Fin (n + 1)) : Option (FileState n m) :=
  match s.flushes i with
  | .idle =>
    if i = 0 then
      match s.maint with
      | .majorFlush _ _ => some (s.flushStart i)
      | _ => none
    else some (s.flushStart i)
  | .ready c =>
    match c.todo with
    | [] => some ((s.store (s.tree.installFlush c.tables c.processed).current).setFlush i
        (.installed c.ids))
    | _ :: _ => some (s.draw.setFlush i (.drawn c s.tree.nextTableId))
  | .drawn c id =>
    some { s.setFlush i (.registered { c with ids := c.ids ++ [id] } id) with
      flushingIds := id :: s.flushingIds }
  | .registered c id =>
    match c.todo with
    | [] => none
    | memtable :: todo =>
      -- an empty memtable gives no table
      match Table.write (Tree.flushConfig cfg c.enabled) id memtable.entries with
      | none => some (s.setFlush i (.ready { c with todo := todo }))
      | some t => some ((s.publish t).setFlush i
          (.ready { c with todo := todo, tables := c.tables ++ [t] }))
  | .installed ids =>
    some (s.setFlush i (if s.tree.compactionEnabled then .persisting ids else .returning ids true))
  | .persisting _ => none
  | .returning ids ok =>
    some { s.flushReturn i ok with flushingIds := s.flushingIds.filter fun id => id ∉ ids }

/-- The next piece of a call of `ingest_sorted`. -/
def ingestStep (s : FileState n m) (j : Fin m) : Option (FileState n m) :=
  match s.ingests j with
  | .idle | .persisting => none
  | .ready c =>
    match c.todo with
    | [] =>
      let current : SuperVersion Memtable := ⟨s.tree.current.active, s.tree.current.sealed,
        s.tree.current.version.withNewL0Tables c.tables⟩
      some ({ s with tree := { s.tree with seqno := max s.tree.seqno c.maxSeqno } }.store
        current |>.setIngest j .persisting)
    | _ :: _ => some (s.draw.setIngest j (.drawn c s.tree.nextTableId))
  | .drawn c id =>
    match c.todo with
    | [] => none
    | chunk :: todo =>
      match Table.write (Tree.flushConfig cfg false) id chunk with
      | none => some (s.setIngest j (.ready { c with todo := todo }))
      | some t => some ((s.publish t).setIngest j
          (.ready { c with todo := todo, tables := c.tables ++ [t] }))

/-- Start a round of compaction: write the outputs of the task it decided on. -/
def startRound (s : FileState n m) (driver : Driver) : Round → FileState n m
  | .move task => { s with maint := .move driver task }
  | .compact task =>
    { s with
      tree := s.tree.allocate
        (task.chunks cfg.heap cfg.mergeOperator cfg.leveled.targetTableSize).length
      files := outputTables cfg task s.tree.nextTableId ++ s.files
      maint := .compact driver task (outputTables cfg task s.tree.nextTableId) }
  | .done | .stalled => s

/-- The next piece of the holder of the compaction lock. -/
def maintStep (s : FileState n m) : Option (FileState n m) :=
  match s.maint with
  | .idle | .persist _ _ | .majorFlush _ _ => none
  | .move driver task =>
    some { s.store (s.tree.applyCompaction task (task.inputTables.take 1)).current with
      maint := .persist driver [] }
  | .compact driver task outs =>
    some { s.store (s.tree.applyCompaction task outs).current with
      maint := .persist driver task.inputIds }
  | .delete driver oldIds =>
    some { s with
      files := s.files.filter fun f => f.id ∉ oldIds
      maint := driver.resumeFiles }
  | .majorMeasure was observer =>
    some { s with maint := .majorRound was observer (s.tree.ampBaseline cfg) 0 }
  | .majorRound was observer baseline consumed =>
    match majorRound cfg observer baseline consumed s.tree.current.version with
    | .done => some { s with maint := .sweepStart was }
    | .stalled => some { s with maint := .majorRestore was }
    | r => some (s.startRound cfg
        (.major was observer baseline (consumed + TreeState.roundInputs r)) r)
  | .sweepStart was =>
    some { s with maint := .sweepRead was (s.tree.current.version.allTables.map Table.id) }
  | .sweepRead was referenced => some { s with maint := .sweep was referenced s.flushingIds }
  | .sweep was _ _ => some { s with maint := .majorRestore was }
  | .majorRestore was =>
    some { s with
      tree := if was then s.tree.setCompactionEnabled true else s.tree
      maint := .idle }

end

/-- The sweep comes to a file. -/
def sweepTest (id : ℕ) : Option (FileState n m) :=
  match s.maint with
  | .sweep _ referenced inFlight =>
    if orphanIsDeletable id referenced (referenced.foldl max 0) inFlight then
      some { s with
        files := s.files.filter fun f => f.id ≠ id
        swept := id :: s.swept }
    else some s
  | _ => none

/-- What a crash leaves, opened with the given manifest. -/
def crash (manifest : Option Manifest) : FileState n m where
  tree := Tree.reopen s.files manifest
  stale := []
  files := s.files
  flushingIds := []
  flushes := fun _ => .idle
  ingests := fun _ => .idle
  maint := .idle
  since := [(Tree.reopen s.files manifest).current.version]
  swept := []

end FileState

open FileState in
/-- One tree and its directory. -/
def fileSys (cfg : TreeConfig) (n m : ℕ) : TransSys (FileState n m) (FileLabel n m) where
  init := ⟨.empty, [], [], [], fun _ => .idle, fun _ => .idle, .idle, [.new], []⟩
  next s
  | .put e => some { s with tree := s.tree.insertWithSeqno e }
  | .sealActive => some { s with tree := s.tree.sealActive }
  | .setCompactionEnabled enabled => some { s with tree := s.tree.setCompactionEnabled enabled }
  | .flush i => s.flushStep cfg i
  | .flushFail i =>
    match s.flushes i with
    | .registered c _ => some (s.setFlush i (.returning c.ids false))
    | _ => none
  | .flushPersist i r =>
    match s.flushes i with
    | .persisting ids => some ((s.persist r).setFlush i (.returning ids (decide (r = .ok))))
    | _ => none
  | .ingest j entries =>
    match s.ingests j with
    | .idle => some (s.setIngest j (.ready ⟨Chunk.chunk entrySize cfg.maxMemtableSize entries, [],
          (entries.map Entry.seqno).foldl max 0⟩))
    | _ => none
  | .ingestStep j => s.ingestStep cfg j
  | .ingestFail j =>
    match s.ingests j with
    | .drawn _ _ => some (s.setIngest j .idle)
    | _ => none
  | .ingestPersist j r =>
    match s.ingests j with
    | .persisting => some ((s.persist r).setIngest j .idle)
    | _ => none
  | .maybeCompact =>
    match s.maint with
    | .idle => some (s.startRound cfg .background (maybeRound cfg s.tree.current.version))
    | _ => none
  | .major observer =>
    match s.maint with
    | .idle => some { s with
        tree := s.tree.setCompactionEnabled false
        maint := .majorFlush s.tree.compactionEnabled observer }
    | _ => none
  | .maint => s.maintStep cfg
  | .maintFail =>
    match s.maint with
    | .compact _ _ _ => some { s with maint := .idle }
    | _ => none
  | .maintPersist r =>
    match s.maint with
    | .persist driver oldIds => some { s.persist r with
        maint := if r = .ok then .delete driver oldIds else .idle }
    | _ => none
  | .sweepTest id => s.sweepTest id
  | .crash k => ((s.tree.manifest :: s.stale)[k]?).map s.crash

end XyzDB
