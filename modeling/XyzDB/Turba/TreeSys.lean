import XyzDB.Lib.TransSys
import XyzDB.Turba.TreeInv

/-!
# A tree under concurrency

`treeSys` interleaves everything that runs against one tree: direct writes, committed
batches, seals, any number of flushes, and the holder of the compaction lock (a
background compaction, a checkpoint or a major compaction). Every thread advances by
one atomic piece at a time, in the pieces the code performs between two accesses to
shared state.

* A flush (`Flush`) loads the sealed memtables, writes their tables, installs them,
  reads the compaction flag, persists the manifest, and advances the counters.
* The lock holder (`Maint`) picks a task and writes its outputs, swaps the version,
  persists the manifest. A checkpoint and a major compaction switch the compaction
  flag off first and run a flush of their own.
* A commit draws its sequence number first and inserts its items one by one later.

An insert into the active memtable is one step here, so a sealed memtable never
changes and can be held by value.

Beside the tree the state carries history: everything that was inserted (`log`),
all memtables that were ever sealed (`sealedLog`), and how many of them installs have
dropped (`drops`). Flushes remember how far the last two were when they took their
snapshot.
-/

namespace XyzDB

open KeyRuns Option Function

/-- Where a call of `flush_sealed` stands. -/
inductive Flush where
  | idle
  /-- Holds a snapshot of the sealed memtables, taken after `seals` seals and
  `drops` drops. -/
  | snapshot (memtables : List Memtable) (seals drops : ℕ)
  /-- Has written the tables of its snapshot. -/
  | written (tables : List Table) (memtables : List Memtable) (seals drops : ℕ)
  /-- Has installed its tables. -/
  | installed (maxFlushed : ℕ)
  /-- Has read the compaction flag as set. -/
  | persisting (maxFlushed : ℕ)
  | persisted (maxFlushed : ℕ) (manifestPersisted : Bool)

/-- Who drives a compaction round. -/
inductive Driver where
  | background
  | major (wasEnabled observer : Bool) (baseline inputsConsumed : ℕ)

/-- Where the holder of the compaction lock stands. -/
inductive Maint where
  /-- The lock is free. -/
  | idle
  /-- A trivial move is about to be swapped in. -/
  | move (driver : Driver) (task : CompactionTask)
  /-- The outputs of a task are written and about to be swapped in. -/
  | compact (driver : Driver) (task : CompactionTask) (outs : List Table)
  /-- The version is swapped, the manifest is about to be persisted. -/
  | persist (driver : Driver)
  | checkpointSeal (wasEnabled : Bool)
  | checkpointFlush (wasEnabled : Bool) (flush : Flush)
  | checkpointPersist (wasEnabled : Bool)
  | checkpointCatchUp (wasEnabled : Bool)
  | checkpointRestore (wasEnabled : Bool)
  | majorFlush (wasEnabled observer : Bool) (flush : Flush)
  | majorMeasure (wasEnabled observer : Bool)
  | majorRound (wasEnabled observer : Bool) (baseline inputsConsumed : ℕ)
  | majorRestore (wasEnabled stalled : Bool)
  | majorCatchUp

/-- Where the driver of a round goes on when the manifest is persisted. -/
def Driver.resume : Driver → Maint
  | .background => .idle
  | .major wasEnabled observer baseline inputsConsumed =>
    .majorRound wasEnabled observer baseline inputsConsumed

/-- A committed batch on its way into the tree: its sequence number and the items still
to be inserted. -/
structure Commit where
  seqno : ℕ
  items : List (Key × Value × ValueType)

/-- The tree, its threads and the history. -/
structure TreeState where
  tree : Tree Memtable
  /-- The calls of `flush_sealed` by thread. -/
  flushes : ℕ → Flush
  maint : Maint
  /-- The engine's counter, which commits draw from. -/
  engineSeqno : ℕ
  commits : ℕ → Option Commit
  /-- Every entry inserted, newest insert first. -/
  log : List Entry
  /-- Every memtable sealed, oldest first. -/
  sealedLog : List Memtable
  /-- How many sealed memtables have been dropped. -/
  drops : ℕ

/-- The steps of the threads. -/
inductive TreeLabel where
  | insert (userKey : Key) (value : Value)
  | remove (userKey : Key)
  | ingestSorted (entries : List Entry)
  /-- A commit draws its sequence number. -/
  | commitSeqno (c : ℕ) (items : List (Key × Value × ValueType))
  /-- A commit inserts its next item, or returns. -/
  | commitInsert (c : ℕ)
  | sealActive
  /-- The next piece of a call of `flush_sealed`. -/
  | flush (thread : ℕ)
  | maybeCompact
  | checkpoint
  | major (observer : Bool)
  /-- The next piece of the holder of the compaction lock. -/
  | maint

namespace TreeState

variable (s : TreeState)

/-- Insert an entry and log it. -/
def put (e : Entry) : TreeState :=
  { s with tree := s.tree.insertWithSeqno e, log := e :: s.log }

def sealActive : TreeState :=
  { s with
    tree := s.tree.sealActive
    sealedLog :=
      if s.tree.current.active.isEmpty then s.sealedLog
      else s.sealedLog ++ [s.tree.current.active] }

section

variable (cfg : TreeConfig)

/-- One piece of a call of `flush_sealed`; `none` as the thread's new state when the call
returns. -/
def flushStep (s : TreeState) : Flush → TreeState × Option Flush
  | .idle =>
    if s.tree.current.sealed = [] then (s, none)
    else (s, some (.snapshot s.tree.current.sealed s.sealedLog.length s.drops))
  | .snapshot memtables seals drops =>
    ({ s with tree := s.tree.allocate memtables.length },
      some (.written (Tree.flushTables cfg s.tree.compactionEnabled s.tree.nextTableId memtables)
        memtables seals drops))
  | .written tables memtables _ _ =>
    ({ s with
        tree := s.tree.installFlush tables memtables.length
        drops := s.drops + min memtables.length s.tree.current.sealed.length },
      some (.installed (Tree.maxFlushed memtables)))
  | .installed maxFlushed =>
    (s, some (if s.tree.compactionEnabled then .persisting maxFlushed
      else .persisted maxFlushed false))
  | .persisting maxFlushed =>
    ({ s with tree := s.tree.persistManifest }, some (.persisted maxFlushed true))
  | .persisted maxFlushed manifestPersisted =>
    ({ s with tree := s.tree.flushAdvance maxFlushed manifestPersisted }, none)

/-- One piece of the flush the holder of the compaction lock runs; `resume` says where
the holder goes on. -/
def maintFlush (s : TreeState) (f : Flush) (resume : Option Flush → Maint) : TreeState :=
  { (flushStep cfg s f).1 with maint := resume (flushStep cfg s f).2 }

/-- Start a round of compaction: write the outputs of the task it decided on. -/
def startRound (s : TreeState) (driver : Driver) : Round → TreeState
  | .move task => { s with maint := .move driver task }
  | .compact task =>
    { s with
      tree := s.tree.allocate
        (task.chunks cfg.heap cfg.mergeOperator cfg.leveled.targetTableSize).length
      maint := .compact driver task (outputTables cfg task s.tree.nextTableId) }
  | .done | .stalled => s

/-- How many input tables a round adds to a major compaction's count. -/
def roundInputs : Round → ℕ
  | .move _ => 1
  | .compact task => task.inputIds.length
  | .done | .stalled => 0

/-- One piece of the holder of the compaction lock. -/
def maintStep (s : TreeState) : Maint → Option TreeState
  | .idle => none
  | .move driver task =>
    some { s with
      tree := s.tree.applyCompaction task (task.inputTables.take 1)
      maint := .persist driver }
  | .compact driver task outs =>
    some { s with tree := s.tree.applyCompaction task outs, maint := .persist driver }
  | .persist driver => some { s with tree := s.tree.persistManifest, maint := driver.resume }
  | .checkpointSeal was => some { s.sealActive with maint := .checkpointFlush was .idle }
  | .checkpointFlush was f =>
    some (s.maintFlush cfg f fun
      | some f' => .checkpointFlush was f'
      | none => .checkpointPersist was)
  | .checkpointPersist was =>
    some { s with tree := s.tree.persistManifest, maint := .checkpointCatchUp was }
  | .checkpointCatchUp was =>
    some { s with tree := s.tree.catchUp, maint := .checkpointRestore was }
  | .checkpointRestore was =>
    some { s with tree := s.tree.setCompactionEnabled was, maint := .idle }
  | .majorFlush was observer f =>
    some (s.maintFlush cfg f fun
      | some f' => .majorFlush was observer f'
      | none => .majorMeasure was observer)
  | .majorMeasure was observer =>
    some { s with maint := .majorRound was observer (s.tree.ampBaseline cfg) 0 }
  | .majorRound was observer baseline consumed =>
    match majorRound cfg observer baseline consumed s.tree.current.version with
    | .done => some { s with maint := .majorRestore was false }
    | .stalled => some { s with maint := .majorRestore was true }
    | r => some (s.startRound cfg (.major was observer baseline (consumed + roundInputs r)) r)
  | .majorRestore was stalled =>
    some { s with
      tree := if was then s.tree.setCompactionEnabled true else s.tree
      maint := if stalled then .idle else .majorCatchUp }
  | .majorCatchUp => some { s with tree := s.tree.catchUp, maint := .idle }

end

/-- The next item of a commit. -/
def commitInsert (c : ℕ) : Option TreeState :=
  match s.commits c with
  | none => none
  | some ⟨_, []⟩ => some { s with commits := update s.commits c none }
  | some ⟨seqno, (k, v, vt) :: items⟩ =>
    some { s.put ⟨k, v, seqno, vt⟩ with
      commits := update s.commits c (some ⟨seqno, items⟩) }

end TreeState

open TreeState in
/-- One tree and everything that runs against it. -/
def treeSys (cfg : TreeConfig) : TransSys TreeState TreeLabel where
  init := ⟨.empty, fun _ => .idle, .idle, 0, fun _ => none, [], [], 0⟩
  next s
  -- a direct write draws the next number of the tree's own counter
  | .insert k v => some (s.put ⟨k, v, s.tree.seqno + 1, .value⟩)
  | .remove k => some (s.put ⟨k, [], s.tree.seqno + 1, .tombstone⟩)
  | .ingestSorted entries => some { s with tree := s.tree.ingestSorted cfg entries }
  | .commitSeqno c items =>
    match s.commits c with
    | some _ => none
    | none => some { s with
        engineSeqno := s.engineSeqno + 1
        commits := update s.commits c (some ⟨s.engineSeqno + 1, items⟩) }
  | .commitInsert c => s.commitInsert c
  | .sealActive => some s.sealActive
  | .flush i =>
    let r := flushStep cfg s (s.flushes i)
    some { r.1 with flushes := update s.flushes i (r.2.getD .idle) }
  | .maybeCompact =>
    match s.maint with
    | .idle => some (s.startRound cfg .background (maybeRound cfg s.tree.current.version))
    | _ => none
  | .checkpoint =>
    match s.maint with
    | .idle => some { s with
        tree := s.tree.setCompactionEnabled false
        maint := .checkpointSeal s.tree.compactionEnabled }
    | _ => none
  | .major observer =>
    match s.maint with
    | .idle => some { s with
        tree := s.tree.setCompactionEnabled false
        maint := .majorFlush s.tree.compactionEnabled observer .idle }
    | _ => none
  | .maint => maintStep cfg s s.maint

/-! ### What a step does to the data

The invariants of the following files are about the data of a tree and about the
tables and tasks that threads hold. `TreeData` is that part of a state, and
`TreeStep` lists all that a step can do to it. -/

/-- The threads that run flushes. -/
inductive Owner where
  | flusher (thread : ℕ)
  | maint
  deriving DecidableEq

/-- A flush between its snapshot and its install. -/
structure FlushJob where
  memtables : List Memtable
  /-- How many memtables had been sealed at the snapshot. -/
  seals : ℕ
  /-- How many memtables had been dropped at the snapshot. -/
  drops : ℕ
  /-- The tables, once they are written. -/
  tables : Option (List Table)

/-- What a flush holds. -/
def Flush.job : Flush → Option FlushJob
  | .snapshot memtables seals drops => some ⟨memtables, seals, drops, none⟩
  | .written tables memtables seals drops => some ⟨memtables, seals, drops, some tables⟩
  | _ => none

/-- The flush the holder of the compaction lock runs. -/
def Maint.flush : Maint → Flush
  | .checkpointFlush _ f | .majorFlush _ _ f => f
  | _ => .idle

/-- A compaction about to be swapped in: its task, and the outputs unless it is a
trivial move. -/
def Maint.pending : Maint → Option (CompactionTask × Option (List Table))
  | .move _ task => some (task, none)
  | .compact _ task outs => some (task, some outs)
  | _ => none

/-- The data of a tree and what threads hold of it. -/
structure TreeData where
  current : SuperVersion Memtable
  nextTableId : ℕ
  seqno : ℕ
  log : List Entry
  sealedLog : List Memtable
  drops : ℕ
  jobs : Owner → Option FlushJob
  compaction : Option (CompactionTask × Option (List Table))

namespace TreeState

/-- What the flush of each thread holds. -/
def jobs (s : TreeState) : Owner → Option FlushJob
  | .flusher i => (s.flushes i).job
  | .maint => s.maint.flush.job

def data (s : TreeState) : TreeData where
  current := s.tree.current
  nextTableId := s.tree.nextTableId
  seqno := s.tree.seqno
  log := s.log
  sealedLog := s.sealedLog
  drops := s.drops
  jobs := s.jobs
  compaction := s.maint.pending

/-- The entry a step inserts. -/
def entryOf (s : TreeState) : TreeLabel → Option Entry
  | .insert k v => some ⟨k, v, s.tree.seqno + 1, .value⟩
  | .remove k => some ⟨k, [], s.tree.seqno + 1, .tombstone⟩
  | .commitInsert c =>
    match s.commits c with
    | some ⟨seqno, (k, v, vt) :: _⟩ => some ⟨k, v, seqno, vt⟩
    | _ => none
  | _ => none

/-- The thread whose flush a step advances. -/
def ownerOf : TreeLabel → Option Owner
  | .flush i => some (.flusher i)
  | .maint => some .maint
  | _ => none

/-- The decision a step takes about a compaction. -/
def roundOf (cfg : TreeConfig) (s : TreeState) : TreeLabel → Option Round
  | .maybeCompact => some (maybeRound cfg s.tree.current.version)
  | .maint =>
    match s.maint with
    | .majorRound _ observer baseline consumed =>
      some (majorRound cfg observer baseline consumed s.tree.current.version)
    | _ => none
  | _ => none

end TreeState

/-- All that a step can do to the data. -/
inductive TreeStep (cfg : TreeConfig) (s : TreeState) (l : TreeLabel) : TreeData → Prop
  | quiet : TreeStep cfg s l s.data
  | put (e : Entry) (he : s.entryOf l = some e) : TreeStep cfg s l
      { s.data with
        current := (s.tree.insertWithSeqno e).current
        seqno := max s.tree.seqno e.seqno
        log := e :: s.log }
  | ingest (entries : List Entry) (hl : l = .ingestSorted entries) : TreeStep cfg s l
      { s.data with
        current := (s.tree.ingestSorted cfg entries).current
        nextTableId := (s.tree.ingestSorted cfg entries).nextTableId
        seqno := (s.tree.ingestSorted cfg entries).seqno }
  | sealActive (hne : s.tree.current.active.isEmpty = false) : TreeStep cfg s l
      { s.data with
        current := ⟨.new, s.tree.current.sealed ++ [s.tree.current.active], s.tree.current.version⟩
        sealedLog := s.sealedLog ++ [s.tree.current.active] }
  | snapshot (o : Owner) (hne : s.tree.current.sealed ≠ []) : TreeStep cfg s l
      { s.data with
        jobs := Function.update s.jobs o
          (some ⟨s.tree.current.sealed, s.sealedLog.length, s.drops, none⟩) }
  | write (o : Owner) (ho : TreeState.ownerOf l = some o) (job : FlushJob) (enabled : Bool)
      (hjob : s.jobs o = some job) (hnone : job.tables = none) : TreeStep cfg s l
      { s.data with
        nextTableId := s.tree.nextTableId + job.memtables.length
        jobs := Function.update s.jobs o (some { job with
          tables := some (Tree.flushTables cfg enabled s.tree.nextTableId job.memtables) }) }
  | install (o : Owner) (ho : TreeState.ownerOf l = some o) (job : FlushJob) (tables : List Table)
      (hjob : s.jobs o = some job) (htables : job.tables = some tables) : TreeStep cfg s l
      { s.data with
        current := (s.tree.installFlush tables job.memtables.length).current
        drops := s.drops + min job.memtables.length s.tree.current.sealed.length
        jobs := Function.update s.jobs o none }
  | startMove (task : CompactionTask) (hround : s.roundOf cfg l = some (.move task)) :
      TreeStep cfg s l { s.data with compaction := some (task, none) }
  | startCompact (task : CompactionTask) (hround : s.roundOf cfg l = some (.compact task)) :
      TreeStep cfg s l
      { s.data with
        nextTableId := s.tree.nextTableId +
          (task.chunks cfg.heap cfg.mergeOperator cfg.leveled.targetTableSize).length
        compaction := some (task, some (outputTables cfg task s.tree.nextTableId)) }
  | applyMove (task : CompactionTask) (hc : s.maint.pending = some (task, none)) : TreeStep cfg s l
      { s.data with
        current := (s.tree.applyCompaction task (task.inputTables.take 1)).current
        compaction := none }
  | applyCompact (task : CompactionTask) (outs : List Table)
      (hc : s.maint.pending = some (task, some outs)) : TreeStep cfg s l
      { s.data with
        current := (s.tree.applyCompaction task outs).current
        compaction := none }

/-! ### Every step is one of them -/

section

variable {cfg : TreeConfig} {s s' : TreeState} {l : TreeLabel}

lemma update_jobs_none {o : Owner} (h : s.jobs o = none) : update s.jobs o none = s.jobs := by
  rw [← h]
  exact update_eq_self o s.jobs

lemma TreeStep.of_flushStep {o : Owner} (ho : TreeState.ownerOf l = some o) {f : Flush}
    (hf : s.jobs o = f.job)
    (hs' : s'.data = { (s.flushStep cfg f).1.data with
      jobs := Function.update s.jobs o (((s.flushStep cfg f).2.getD .idle).job)
      compaction := s.data.compaction }) : TreeStep cfg s l s'.data := by
  rw [hs']
  cases f with
  | idle =>
    by_cases hsealed : s.tree.current.sealed = []
    · simp only [TreeState.flushStep, if_pos hsealed, getD_none, Flush.job, update_jobs_none hf]
      exact .quiet
    · simp only [TreeState.flushStep, if_neg hsealed]
      exact .snapshot o hsealed
  | snapshot memtables seals drops => exact .write o ho _ s.tree.compactionEnabled hf rfl
  | written tables memtables seals drops => exact .install o ho _ tables hf rfl
  | installed maxFlushed =>
    have hjob : ((s.flushStep cfg (.installed maxFlushed)).2.getD .idle).job = none := by
      unfold TreeState.flushStep
      cases s.tree.compactionEnabled <;> rfl
    rw [hjob, update_jobs_none hf]
    exact .quiet
  | persisting maxFlushed =>
    simp only [TreeState.flushStep, getD_some, Flush.job, update_jobs_none hf]
    exact .quiet
  | persisted maxFlushed b =>
    have hdata : (s.flushStep cfg (.persisted maxFlushed b)).1.data = s.data := by
      simp only [TreeState.flushStep, Tree.flushAdvance]
      split <;> rfl
    rw [hdata]
    simp only [TreeState.flushStep, getD_none, Flush.job, update_jobs_none hf]
    exact .quiet

lemma TreeState.sealActive_data :
    s.sealActive.data = s.data ∨ (s.tree.current.active.isEmpty = false ∧
      s.sealActive.data = { s.data with
        current := ⟨.new, s.tree.current.sealed ++ [s.tree.current.active], s.tree.current.version⟩
        sealedLog := s.sealedLog ++ [s.tree.current.active] }) := by
  cases h : s.tree.current.active.isEmpty with
  | true =>
    left
    simp only [sealActive, Tree.sealActive, h]
    rfl
  | false =>
    right
    refine ⟨rfl, ?_⟩
    simp only [sealActive, Tree.sealActive, h]
    rfl

lemma TreeStep.of_seal (h : s'.data = s.sealActive.data) : TreeStep cfg s l s'.data := by
  rw [h]
  rcases TreeState.sealActive_data (s := s) with h | ⟨hne, h⟩
  · rw [h]
    exact .quiet
  · rw [h]
    exact .sealActive hne

lemma TreeState.jobs_congr (hf : s'.flushes = s.flushes)
    (hm : s'.maint.flush.job = s.maint.flush.job) : s'.jobs = s.jobs := by
  funext o
  cases o with
  | flusher i => exact congrArg (fun f => Flush.job (f i)) hf
  | maint => exact hm

/-- A step of the lock holder that only moves the counters, the flag or the manifest. -/
lemma TreeStep.of_quiet
    (hdata : { s'.data with jobs := s.jobs, compaction := s.maint.pending } = s.data)
    (hf : s'.flushes = s.flushes) (hm : s'.maint.flush.job = s.maint.flush.job)
    (hp : s'.maint.pending = s.maint.pending) : TreeStep cfg s l s'.data := by
  rw [← TreeState.jobs_congr hf hm, ← hp] at hdata
  have hsame : s'.data = s.data := hdata
  rw [hsame]
  exact .quiet

lemma TreeStep.of_startRound {driver : Driver} {r : Round} (hr : s.roundOf cfg l = some r)
    (hflush : s.maint.flush.job = none) : TreeStep cfg s l (s.startRound cfg driver r).data := by
  have hjobs : (s.startRound cfg driver r).jobs = s.jobs := by
    cases r with
    | done => rfl
    | stalled => rfl
    | move | compact => exact TreeState.jobs_congr rfl hflush.symm
  unfold TreeState.data
  rw [hjobs]
  cases r with
  | done | stalled => exact .quiet
  | move task => exact .startMove task hr
  | compact task => exact .startCompact task hr

lemma TreeState.flushStep_frame (cfg : TreeConfig) (s : TreeState) (f : Flush) :
    (s.flushStep cfg f).1.flushes = s.flushes ∧ (s.flushStep cfg f).1.maint = s.maint := by
  cases f with
  | idle =>
    simp only [flushStep]
    split <;> exact ⟨rfl, rfl⟩
  | _ => exact ⟨rfl, rfl⟩

lemma TreeState.jobs_flush {s₁ : TreeState} (hm : s₁.maint = s.maint) {i : ℕ} {f : Flush} :
    jobs { s₁ with flushes := update s.flushes i f } = update s.jobs (.flusher i) f.job := by
  funext o
  cases o with
  | flusher j =>
    by_cases hj : j = i
    · subst hj
      simp only [jobs, update_self]
    · rw [update_of_ne (by simpa using hj)]
      simp only [jobs, update_of_ne hj]
  | maint =>
    rw [update_of_ne (by simp)]
    simp only [jobs, hm]

lemma TreeStep.of_maintFlush {f : Flush} (hl : l = .maint) (hf : s.maint.flush = f)
    (hp : s.maint.pending = none) {resume : Option Flush → Maint}
    (hjob : ∀ r, (resume r).flush = r.getD .idle) (hpending : ∀ r, (resume r).pending = none) :
    TreeStep cfg s l (s.maintFlush cfg f resume).data := by
  have hflushes := (TreeState.flushStep_frame cfg s f).1
  refine TreeStep.of_flushStep (o := .maint) (f := f) (by rw [hl]; rfl) (congrArg Flush.job hf) ?_
  have hjobs : (s.maintFlush cfg f resume).jobs =
      Function.update s.jobs .maint ((s.flushStep cfg f).2.getD .idle).job := by
    funext o
    cases o with
    | flusher i => exact congrArg (fun g => Flush.job (g i)) hflushes
    | maint =>
      rw [← hjob]
      rfl
  unfold TreeState.data
  rw [hjobs, hp]
  simp only [TreeState.maintFlush, hpending]

lemma TreeStep.of_maintStep (hl : l = .maint) (h : s.maintStep cfg s.maint = some s') :
    TreeStep cfg s l s'.data := by
  -- by the place the lock holder is at: only six of them touch tables or memtables
  generalize hm : s.maint = m at h
  cases m with
  | idle => cases h
  | move driver task =>
    cases h
    have hjobs : TreeState.jobs { s with
        tree := s.tree.applyCompaction task (task.inputTables.take 1)
        maint := .persist driver } = s.jobs := TreeState.jobs_congr rfl (by rw [hm]; rfl)
    unfold TreeState.data
    rw [hjobs]
    exact .applyMove task (by rw [hm]; rfl)
  | compact driver task outs =>
    cases h
    have hjobs : TreeState.jobs { s with
        tree := s.tree.applyCompaction task outs, maint := .persist driver } = s.jobs :=
      TreeState.jobs_congr rfl (by rw [hm]; rfl)
    unfold TreeState.data
    rw [hjobs]
    exact .applyCompact task outs (by rw [hm]; rfl)
  | persist driver =>
    -- the driver the holder returns to has neither a job nor a task
    cases h
    refine .of_quiet rfl rfl ?_ ?_
    · rw [hm]
      cases driver <;> rfl
    · rw [hm]
      cases driver <;> rfl
  | checkpointSeal was =>
    cases h
    refine .of_seal ?_
    have hjobs : TreeState.jobs { s.sealActive with maint := .checkpointFlush was .idle } =
        s.sealActive.jobs :=
      TreeState.jobs_congr rfl (by rw [show s.sealActive.maint = s.maint from rfl, hm]; rfl)
    unfold TreeState.data
    rw [hjobs, show s.sealActive.maint = s.maint from rfl, hm]
    rfl
  | checkpointFlush | majorFlush =>
    -- the flush it runs is that of `of_maintFlush`, at the owner `maint`
    cases h
    refine .of_maintFlush hl (by rw [hm]; rfl) (by rw [hm]; rfl) (fun r => ?_) fun r => ?_
    · cases r <;> rfl
    · cases r <;> rfl
  | checkpointPersist | checkpointCatchUp | checkpointRestore | majorMeasure | majorCatchUp =>
    cases h
    exact .of_quiet rfl rfl (by rw [hm]; rfl) (by rw [hm]; rfl)
  | majorRound was observer baseline consumed =>
    rw [TreeState.maintStep] at h
    have hround : s.roundOf cfg l =
        some (XyzDB.majorRound cfg observer baseline consumed s.tree.current.version) := by
      rw [hl, TreeState.roundOf, hm]
    have hflush : s.maint.flush.job = none := by rw [hm]; rfl
    cases hr : XyzDB.majorRound cfg observer baseline consumed s.tree.current.version with
    | done | stalled =>
      rw [hr] at h
      cases h
      exact .of_quiet rfl rfl (by rw [hm]; rfl) (by rw [hm]; rfl)
    | move | compact =>
      -- the round begins here and has written its outputs when it begins
      rw [hr] at h hround
      cases h
      exact .of_startRound hround hflush
  | majorRestore was stalled =>
    cases h
    refine .of_quiet ?_ rfl ?_ ?_
    · cases was <;> rfl
    · rw [hm]
      cases stalled <;> rfl
    · rw [hm]
      cases stalled <;> rfl

/-- **Inversion.** Every step does one of the things `TreeStep` lists. -/
theorem treeStep_of_next (h : (treeSys cfg).next s l = some s') : TreeStep cfg s l s'.data := by
  cases l with
  | insert | remove =>
    cases h
    exact .put _ rfl
  | ingestSorted entries =>
    cases h
    exact .ingest entries rfl
  | commitSeqno c items =>
    simp only [treeSys] at h
    split at h <;> cases h
    exact .quiet
  | commitInsert c =>
    simp only [treeSys, TreeState.commitInsert] at h
    split at h
    · cases h
    · cases h
      exact .quiet
    · next seqno k v vt items hc =>
      cases h
      exact .put ⟨k, v, seqno, vt⟩ (by rw [TreeState.entryOf, hc])
  | sealActive =>
    cases h
    exact .of_seal rfl
  | flush i =>
    cases h
    refine TreeStep.of_flushStep (o := .flusher i) (f := s.flushes i) rfl rfl ?_
    have hmaint := (TreeState.flushStep_frame cfg s (s.flushes i)).2
    unfold TreeState.data
    rw [TreeState.jobs_flush hmaint, hmaint]
  | maybeCompact =>
    simp only [treeSys] at h
    split at h <;> cases h
    next hm => exact .of_startRound rfl (by rw [hm]; rfl)
  | checkpoint | major =>
    simp only [treeSys] at h
    split at h <;> cases h
    next hm => exact .of_quiet rfl rfl (by rw [hm]; rfl) (by rw [hm]; rfl)
  | maint => exact .of_maintStep rfl h

end

end XyzDB
