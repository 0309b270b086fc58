import XyzDB.Turba.FileSys

/-!
# What a step does to the files

`FileData` is the part of a state that the invariants of a directory are about: which
ids and tables the threads hold that are not installed yet, what the sweep has read, and
which manifests may be on disk. `FileStep` lists all that a step can do to it, and
`steps_of_next` says that a guarded step does a sequence of these.

`UnlinkGuard` is the condition under which sweeps do no harm. A sweep trusts three
things: what it finds in the version, that later ids are higher than those, and that
earlier ids which are still to be installed are in `flushing_ids`. Ingests do not
register their ids; a flush registers an id some time after it has drawn it; and a
flush that returns between the sweep's two reads is in neither of them.
-/

namespace XyzDB

open List Function Version FileMaint FileState FileFlush

/-- Who holds tables that are not installed. -/
inductive Holder (n m : ℕ) where
  | flush (i : Fin (n + 1))
  | ingest (j : Fin m)
  | compaction
  deriving DecidableEq

/-- Whether the ids are registered in `flushing_ids`. -/
def Holder.registers {n m : ℕ} : Holder n m → Bool
  | .flush _ => true
  | .ingest _ | .compaction => false

/-- What a thread holds. -/
structure Held where
  /-- The ids it has drawn and not installed. -/
  drawn : List ℕ
  /-- The id whose file it is to write. -/
  unwritten : Option ℕ
  /-- The tables it has written and not installed. -/
  tables : List Table
  /-- The ids in its guard, with the one it is to register. -/
  guarded : List ℕ
  /-- The id it is to register. -/
  unregistered : Option ℕ

def Held.none : Held := ⟨[], .none, [], [], .none⟩

@[reducible] def FileFlush.record : FileFlush → Held
  | .idle => .none
  | .ready c => ⟨c.ids, none, c.tables, c.ids, none⟩
  | .drawn c id => ⟨c.ids ++ [id], some id, c.tables, c.ids ++ [id], some id⟩
  | .registered c id => ⟨c.ids, some id, c.tables, c.ids, none⟩
  | .installed ids | .persisting ids | .returning ids _ => ⟨[], none, [], ids, none⟩

@[reducible] def Ingest.record : Ingest → Held
  | .idle | .persisting => .none
  | .ready c => ⟨c.tables.map Table.id, none, c.tables, [], none⟩
  | .drawn c id => ⟨c.tables.map Table.id ++ [id], some id, c.tables, [], none⟩

def FileMaint.record : FileMaint → Held
  | .compact _ _ outs => ⟨outs.map Table.id, none, outs, [], none⟩
  | _ => .none

/-- The inputs of a round, until it is swapped in. -/
def FileMaint.inputs : FileMaint → List Table
  | .move _ task | .compact _ task _ => task.inputTables
  | _ => []

/-- The ids that are deleted when the manifest is persisted. -/
def FileMaint.doomed : FileMaint → List ℕ
  | .persist _ oldIds | .delete _ oldIds => oldIds
  | _ => []

/-- The manifest is persisted and the inputs are about to be deleted. -/
def FileMaint.deleting : FileMaint → Bool
  | .delete _ _ => true
  | _ => false

/-- What the sweep has read. -/
inductive Sweep where
  | none
  | read (referenced : List ℕ)
  | test (referenced inFlight : List ℕ)

def FileMaint.sweeping : FileMaint → Sweep
  | .sweepRead _ referenced => .read referenced
  | .sweep _ referenced inFlight => .test referenced inFlight
  | _ => .none

/-- The data of a directory and what the threads hold of it. -/
structure FileData (n m : ℕ) where
  version : Version
  nextTableId : ℕ
  files : List Table
  flushingIds : List ℕ
  threads : Holder n m → Held
  inputs : List Table
  doomed : List ℕ
  deleting : Bool
  sweeping : Sweep
  /-- The manifests that may be on disk after a crash. -/
  manifests : List (Option Manifest)
  since : List Version
  swept : List ℕ

namespace FileState

variable {n m : ℕ}

def recordOf (s : FileState n m) : Holder n m → Held
  | .flush i => (s.flushes i).record
  | .ingest j => (s.ingests j).record
  | .compaction => s.maint.record

def data (s : FileState n m) : FileData n m where
  version := s.tree.current.version
  nextTableId := s.tree.nextTableId
  files := s.files
  flushingIds := s.flushingIds
  threads := s.recordOf
  inputs := s.maint.inputs
  doomed := s.maint.doomed
  deleting := s.maint.deleting
  sweeping := s.maint.sweeping
  manifests := s.tree.manifest :: s.stale
  since := s.since
  swept := s.swept

end FileState

/-- All that a step can do to the data. `strict` is what a sweep may rely on when it
reads the ids of the version. -/
inductive FileStep {n m : ℕ} (strict : FileData n m → Prop) (d : FileData n m) : FileData n m → Prop
  | draw (h : Holder n m) (hun : (d.threads h).unwritten = none) : FileStep strict d
      { d with
        nextTableId := d.nextTableId + 1
        threads := update d.threads h
          { d.threads h with
            drawn := (d.threads h).drawn ++ [d.nextTableId]
            unwritten := some d.nextTableId
            guarded := if h.registers then (d.threads h).guarded ++ [d.nextTableId]
              else (d.threads h).guarded
            unregistered := if h.registers then some d.nextTableId
              else (d.threads h).unregistered } }
  | register (i : Fin (n + 1)) (id : ℕ) (hid : (d.threads (.flush i)).unregistered = some id) :
      FileStep strict d
      { d with
        flushingIds := id :: d.flushingIds
        threads := update d.threads (.flush i)
          { d.threads (.flush i) with unregistered := none } }
  | write (h : Holder n m) (t : Table) (hid : (d.threads h).unwritten = some t.id)
      (hreg : (d.threads h).unregistered = none) : FileStep strict d
      { d with
        files := t :: d.files
        threads := update d.threads h
          { d.threads h with unwritten := none, tables := (d.threads h).tables ++ [t] } }
  /-- The thread lets go of ids, but not of the guard. -/
  | drop (h : Holder n m) (r : Held) (hdrawn : r.drawn ⊆ (d.threads h).drawn)
      (hun : r.unwritten = none) (htables : r.tables = [] ∨ r.tables = (d.threads h).tables)
      (hids : (∀ t ∈ (d.threads h).tables, t.id ∈ (d.threads h).drawn) →
        ∀ t ∈ r.tables, t.id ∈ r.drawn)
      (hguard : r.guarded = (d.threads h).guarded) (hnone : r.unregistered = none)
      (hreg : (d.threads h).unregistered = none) : FileStep strict d
      { d with threads := update d.threads h r }
  | install (h : Holder n m) (hreg : (d.threads h).unregistered = none) : FileStep strict d
      { d with
        version := d.version.withNewL0Tables (d.threads h).tables
        since := d.since ++ [d.version.withNewL0Tables (d.threads h).tables]
        threads := update d.threads h
          { d.threads h with drawn := [], unwritten := none, tables := [] } }
  | unregister (i : Fin (n + 1)) (hsweep : ∀ referenced, d.sweeping ≠ .read referenced)
      (hdrawn : (d.threads (.flush i)).drawn = []) : FileStep strict d
      { d with
        flushingIds := d.flushingIds.filter fun id => id ∉ (d.threads (.flush i)).guarded
        threads := update d.threads (.flush i) .none }
  | persistOk (manifest : Manifest) (hman : manifest.version = d.version) : FileStep strict d
      { d with manifests := [some manifest], since := [d.version] }
  | persistStale (manifest : Manifest) (hman : manifest.version = d.version) : FileStep strict d
      { d with manifests := some manifest :: d.manifests }
  | startRound (inputs : List Table) (hin : ∀ t ∈ inputs, t ∈ d.version.allTables) :
      FileStep strict d { d with inputs := inputs }
  | writeOutputs (outs : List Table) (count : ℕ)
      (hids : ∀ t ∈ outs, d.nextTableId ≤ t.id ∧ t.id < d.nextTableId + count)
      (hinj : (outs.map Table.id).Nodup) : FileStep strict d
      { d with
        nextTableId := d.nextTableId + count
        files := outs ++ d.files
        threads := update d.threads .compaction ⟨outs.map Table.id, none, outs, [], none⟩ }
  | swap (version : Version) (oldIds : List ℕ)
      (hversion : ∀ t ∈ version.allTables, (t ∈ d.version.allTables ∧ t.id ∉ oldIds) ∨
        t ∈ (d.threads .compaction).tables ∨ (oldIds = [] ∧ t ∈ d.inputs))
      (hold : ∀ id ∈ oldIds, ∃ t ∈ d.inputs, t.id = id)
      (hsorted : d.version.DeepSorted → version.DeepSorted) : FileStep strict d
      { d with
        version := version
        since := d.since ++ [version]
        inputs := []
        doomed := oldIds
        deleting := false
        threads := update d.threads .compaction .none }
  /-- The lock holder gives up. -/
  | abandon : FileStep strict d
      { d with
        inputs := []
        doomed := []
        deleting := false
        threads := update d.threads .compaction .none }
  | arm (manifest : Manifest) (hman : manifest.version = d.version)
      (hmans : d.manifests = [some manifest]) : FileStep strict d { d with deleting := true }
  | delete (hdel : d.deleting = true) : FileStep strict d
      { d with
        files := d.files.filter fun f => f.id ∉ d.doomed
        doomed := []
        deleting := false }
  | sweepRead (hingest : ∀ j, (d.threads (.ingest j)).drawn = [])
      (hcompaction : (d.threads .compaction).drawn = []) (hstrict : strict d) : FileStep strict d
      { d with sweeping := .read (d.version.allTables.map Table.id) }
  | sweepFlushing (referenced : List ℕ) (hread : d.sweeping = .read referenced)
      (hreg : ∀ h, (d.threads h).unregistered = none) : FileStep strict d
      { d with sweeping := .test referenced d.flushingIds }
  | unlink (id : ℕ) (referenced inFlight : List ℕ) (htest : d.sweeping = .test referenced inFlight)
      (hdel : orphanIsDeletable id referenced (referenced.foldl max 0) inFlight = true) :
      FileStep strict d
      { d with files := d.files.filter fun f => f.id ≠ id, swept := id :: d.swept }
  | sweepEnd : FileStep strict d { d with sweeping := .none }
  | crash (manifest : Option Manifest) (hman : manifest ∈ d.manifests) : FileStep strict d
      { version := (Tree.reopen d.files manifest).current.version
        nextTableId := (Tree.reopen d.files manifest).nextTableId
        files := d.files
        flushingIds := []
        threads := fun _ => .none
        inputs := []
        doomed := []
        deleting := false
        sweeping := .none
        manifests := [manifest]
        since := [(Tree.reopen d.files manifest).current.version]
        swept := [] }

/-! ### Every step is a sequence of them -/

/-- The call is about to return. -/
def FileFlush.isReturning : FileFlush → Bool
  | .returning _ _ => true
  | _ => false

/-- The sweep is between its two reads. -/
def FileMaint.isBetweenReads : FileMaint → Bool
  | .sweepRead _ _ => true
  | _ => false

/-- Sweeps start while no ingest holds ids, and read `flushing_ids` while no flush has
drawn an id that it has not registered; between the two reads no flush returns. -/
def UnlinkGuard {n m : ℕ} (s : FileState n m) : FileLabel n m → Prop
  | .flush i => (s.flushes i).isReturning = true → s.maint.isBetweenReads = false
  | .maint =>
    match s.maint with
    | .sweepStart _ => ∀ j, (s.ingests j).record.drawn = []
    | .sweepRead _ _ => ∀ i, (s.flushes i).record.unregistered = none
    | _ => True
  | _ => True

instance {n m : ℕ} (s : FileState n m) (l : FileLabel n m) : Decidable (UnlinkGuard s l) := by
  unfold UnlinkGuard
  split
  · infer_instance
  · split <;> infer_instance
  · infer_instance

/-- Every table that a manifest lists which may be on disk is in the version. -/
abbrev FileData.Listed {n m : ℕ} (d : FileData n m) : Prop :=
  ∀ manifest ∈ d.manifests, ∀ t ∈ listedTables manifest, t.id ∈ d.version.allTables.map Table.id

section

variable {n m : ℕ} {s s' : FileState n m}

lemma recordOf_setFlush (i : Fin (n + 1)) (f : FileFlush) :
    (s.setFlush i f).recordOf = update s.recordOf (.flush i) f.record := by
  funext h
  cases h <;> simp [recordOf, setFlush, update_apply, apply_ite FileFlush.record]

lemma recordOf_setIngest (j : Fin m) (f : Ingest) :
    (s.setIngest j f).recordOf = update s.recordOf (.ingest j) f.record := by
  funext h
  cases h <;> simp [recordOf, setIngest, update_apply, apply_ite Ingest.record]

lemma data_setFlush (i : Fin (n + 1)) (f : FileFlush) : (s.setFlush i f).data =
    { s.data with threads := update s.data.threads (.flush i) f.record } := by
  unfold data
  rw [recordOf_setFlush]
  rfl

lemma data_setIngest (j : Fin m) (f : Ingest) : (s.setIngest j f).data =
    { s.data with threads := update s.data.threads (.ingest j) f.record } := by
  unfold data
  rw [recordOf_setIngest]
  rfl

section

variable (maint : FileMaint)

lemma data_setMaint : { s with maint := maint }.data = { s.data with
      threads := update s.data.threads .compaction maint.record
      inputs := maint.inputs
      doomed := maint.doomed
      deleting := maint.deleting
      sweeping := maint.sweeping } := by
  have hrec : { s with maint := maint }.recordOf = update s.recordOf .compaction maint.record := by
    funext h
    cases h <;> simp [recordOf]
  unfold data
  rw [hrec]

lemma data_setMaint_of_record (hrec : maint.record = s.maint.record) :
    { s with maint := maint }.data =
      { s.data with
        inputs := maint.inputs
        doomed := maint.doomed
        deleting := maint.deleting
        sweeping := maint.sweeping } := by
  have hself : update s.data.threads .compaction s.maint.record = s.data.threads :=
    update_eq_self .compaction s.data.threads
  rw [data_setMaint, hrec, hself]

/-- What of the lock holder's phase concerns files. -/
def FileMaint.view : Held × List Table × List ℕ × Bool × Sweep :=
  (maint.record, maint.inputs, maint.doomed, maint.deleting, maint.sweeping)

lemma data_setMaint_of_view (h : maint.view = s.maint.view) :
    { s with maint := maint }.data = s.data := by
  simp only [view, Prod.mk.injEq] at h
  obtain ⟨hrec, hin, hdoomed, hdel, hsweep⟩ := h
  rw [data_setMaint_of_record maint hrec, hin, hdoomed, hdel, hsweep]
  rfl

end

variable {strict : FileData n m → Prop}

lemma data_flushReturn (i : Fin (n + 1)) (ok : Bool) : (s.flushReturn i ok).data =
    { s.data with threads := update s.data.threads (.flush i) .none } := by
  have hview : ∀ maint : FileMaint, (maint.afterFlush ok).view = maint.view := by
    intro maint
    cases maint <;> cases ok <;> rfl
  unfold flushReturn
  split
  · rw [data_setMaint_of_view (s := s.setFlush i .idle) _ (hview s.maint)]
    exact data_setFlush i .idle
  · exact data_setFlush (s := s) i .idle

lemma FileMaint.isBetweenReads_of_sweeping {maint : FileMaint} {referenced : List ℕ}
    (h : maint.sweeping = .read referenced) : maint.isBetweenReads = true := by
  cases maint <;> first | rfl | cases h

lemma threads_flush {i : Fin (n + 1)} {f : FileFlush} (hf : s.flushes i = f) :
    s.data.threads (.flush i) = f.record :=
  congrArg FileFlush.record hf

lemma threads_ingest {j : Fin m} {f : Ingest} (hf : s.ingests j = f) :
    s.data.threads (.ingest j) = f.record :=
  congrArg Ingest.record hf

variable {cfg : TreeConfig}

/-- Any number of steps. -/
abbrev FileSteps (strict : FileData n m → Prop) := Relation.ReflTransGen (FileStep strict)

lemma FileStep.steps {d d₁ d₂ : FileData n m} (h : FileStep strict d d₁) (hd : d₁ = d₂) :
    FileSteps strict d d₂ :=
  .single (hd ▸ h)

lemma steps_of_flushStep {i : Fin (n + 1)}
    (hok : UnlinkGuard s (.flush i)) (hstep : s.flushStep cfg i = some s') :
    FileSteps strict s.data s'.data := by
  have hstart : s.flushes i = .idle → FileSteps strict s.data (s.flushStart i).data := by
    intro hf
    have hrec : _ = Held.none := threads_flush hf
    unfold FileState.flushStart
    split
    · rw [data_flushReturn, ← hrec, update_eq_self]
    · rw [data_setFlush]
      change Relation.ReflTransGen _ _
        { s.data with threads := update s.data.threads (.flush i) .none }
      rw [← hrec, update_eq_self]
  unfold FileState.flushStep at hstep
  generalize hf : s.flushes i = f at hstep
  cases f with
  | idle =>
    dsimp only at hstep
    split at hstep
    · split at hstep <;> cases hstep
      exact hstart hf
    · cases hstep
      exact hstart hf
  | ready c =>
    -- with nothing left to write it installs its tables, else it draws the next id
    have hrec := threads_flush hf
    dsimp only at hstep
    split at hstep
    · cases hstep
      exact (FileStep.install (.flush i) (by rw [hrec])).steps (by rw [hrec, data_setFlush]; rfl)
    · cases hstep
      exact (FileStep.draw (.flush i) (by rw [hrec])).steps (by rw [hrec, data_setFlush]; rfl)
  | drawn c id =>
    -- the id joins the ones in flight only now, after it was drawn
    have hrec := threads_flush hf
    cases hstep
    have hdata := data_setFlush (s := { s with flushingIds := id :: s.flushingIds }) i
      (.registered { c with ids := c.ids ++ [id] } id)
    exact (FileStep.register i id (by rw [hrec])).steps (by rw [hrec]; exact hdata.symm)
  | registered c id =>
    -- a memtable without entries leaves no table, and its id is dropped
    have hrec := threads_flush hf
    dsimp only at hstep
    split at hstep
    · cases hstep
    · split at hstep
      · cases hstep
        rw [data_setFlush]
        refine .single (.drop _ _ ?_ rfl (.inr ?_) ?_ ?_ rfl ?_) <;> rw [hrec]
        exacts [.refl _, fun h => h]
      · next t hwrite =>
        cases hstep
        have hid : t.id = id := (Table.write_eq_some hwrite).2.1
        exact (FileStep.write (.flush i) t (by rw [hrec, hid]) (by rw [hrec])).steps
          (by rw [hrec, data_setFlush]; rfl)
  | installed ids =>
    -- whether the manifest is persisted makes no difference to what is held
    cases hstep
    have hrec := threads_flush hf
    have hnew : FileFlush.record (if s.tree.compactionEnabled then .persisting ids
        else .returning ids true) = s.data.threads (.flush i) := by
      rw [hrec]
      split <;> rfl
    rw [data_setFlush, hnew, update_eq_self]
  | persisting ids =>
    cases hstep
  | returning ids ok =>
    -- the guard: no sweep is between its two reads when the ids are taken out
    cases hstep
    have hrec := threads_flush hf
    have hsweep : ∀ referenced, s.data.sweeping ≠ .read referenced := by
      intro referenced hread
      have hbetween : s.maint.isBetweenReads = false := hok (by rw [hf]; rfl)
      exact absurd (isBetweenReads_of_sweeping hread) (by rw [hbetween]; simp)
    have hdata := data_flushReturn
      (s := { s with flushingIds := s.flushingIds.filter fun id => id ∉ ids }) i ok
    exact (FileStep.unregister i hsweep (by rw [hrec])).steps (by rw [hrec]; exact hdata.symm)

lemma steps_of_ingestStep {j : Fin m} (hstep : s.ingestStep cfg j = some s') :
    FileSteps strict s.data s'.data := by
  unfold ingestStep at hstep
  generalize hf : s.ingests j = f at hstep
  cases f with
  | idle | persisting =>
    cases hstep
  | ready c =>
    have hrec := threads_ingest hf
    dsimp only at hstep
    split at hstep
    · cases hstep
      exact (FileStep.install (.ingest j) (by rw [hrec])).steps (by rw [hrec, data_setIngest]; rfl)
    · cases hstep
      exact (FileStep.draw (.ingest j) (by rw [hrec])).steps (by rw [hrec, data_setIngest]; rfl)
  | drawn c id =>
    have hrec := threads_ingest hf
    dsimp only at hstep
    split at hstep
    · cases hstep
    · split at hstep
      · cases hstep
        rw [data_setIngest]
        refine .single (.drop _ _ ?_ rfl (.inr ?_) ?_ ?_ rfl ?_) <;> rw [hrec]
        exacts [subset_append_left _ _, fun _ t ht => mem_map_of_mem ht]
      · next t hwrite =>
        cases hstep
        have hid : t.id = id := (Table.write_eq_some hwrite).2.1
        have hids : (c.tables ++ [t]).map Table.id = c.tables.map Table.id ++ [id] := by
          rw [map_append, map_singleton, hid]
        exact (FileStep.write (.ingest j) t (by rw [hrec, hid]) (by rw [hrec])).steps
          (by rw [hrec, data_setIngest, Ingest.record, hids]; rfl)

lemma persist_flushes (r : PersistOutcome) : (s.persist r).flushes = s.flushes := by cases r <;> rfl

lemma persist_ingests (r : PersistOutcome) : (s.persist r).ingests = s.ingests := by cases r <;> rfl

lemma steps_of_persist (r : PersistOutcome) : FileSteps strict s.data (s.persist r).data := by
  cases r with
  | ok => exact .single (.persistOk ⟨s.tree.current.version, _, _⟩ rfl)
  | dirFsyncFailed => exact .single (.persistStale ⟨s.tree.current.version, _, _⟩ rfl)
  | _ => exact .refl

/-! #### The lock holder -/

lemma mem_applyCompaction {task : CompactionTask} {outs : List Table} {t : Table}
    (ht : t ∈ (s.tree.applyCompaction task outs).current.version.allTables) :
    (t ∈ s.tree.current.version.allTables ∧ t.id ∉ task.inputIds) ∨ t ∈ outs := by
  obtain ⟨k, hk, ht⟩ := mem_allTables.mp ht
  rcases mem_of_withCompactionApplied ht with ⟨ht, hid⟩ | ht
  · exact .inl ⟨mem_allTables.mpr ⟨k, hk, ht⟩, hid⟩
  · exact .inr ht

variable {driver : Driver}

lemma steps_of_startRound {round : Round}
    (hsound : round.Sound s.tree.current.version) (hview : s.maint.view = idle.view) :
    FileSteps strict s.data (s.startRound cfg driver round).data := by
  simp only [view, Prod.mk.injEq] at hview
  obtain ⟨hrec, -, hdoomed, hdel, hsweep⟩ := hview
  have hinputs : ∀ {task : CompactionTask}, Nonempty (TaskShape s.tree.current.version task) →
      ∀ t ∈ task.inputTables, t ∈ s.tree.current.version.allTables := fun ⟨sh⟩ t ht =>
    mem_allTables.mpr (sh.exists_level ht)
  have hself : update s.data.threads .compaction Held.none = s.data.threads := by
    rw [show Held.none = s.maint.record from hrec.symm]
    exact update_eq_self .compaction s.data.threads
  cases round with
  | done | stalled => exact .refl
  | move task =>
    have hdata : (s.startRound cfg driver (.move task)).data =
        { s.data with inputs := task.inputTables } := by
      refine (data_setMaint _).trans ?_
      simp only [FileMaint.record, hself]
      simp only [FileState.data, hdoomed, hdel, hsweep]
      rfl
    rw [hdata]
    exact .single (.startRound _ (hinputs hsound.1))
  | compact task =>
    have hstep1 : FileStep strict s.data { s.data with inputs := task.inputTables } :=
      .startRound _ (hinputs hsound)
    refine (Relation.ReflTransGen.single hstep1).tail ?_
    have hstep2 : FileStep strict { s.data with inputs := task.inputTables } _ :=
      .writeOutputs (outputTables cfg task s.tree.nextTableId)
      (task.chunks cfg.heap cfg.mergeOperator cfg.leveled.targetTableSize).length
      (fun t ht => writeTables_id_mem ht) (writeTables_nodup ..)
    refine cast (congrArg _ ?_) hstep2
    refine Eq.symm ((data_setMaint (s := { s with
      tree := s.tree.allocate
        (task.chunks cfg.heap cfg.mergeOperator cfg.leveled.targetTableSize).length
      files := outputTables cfg task s.tree.nextTableId ++ s.files }) _).trans ?_)
    simp only [FileState.data, hdoomed, hdel, hsweep]
    rfl

lemma steps_of_view {maint : FileMaint} (h : maint.view = s.maint.view) :
    FileSteps strict s.data { s with maint := maint }.data := by
  rw [data_setMaint_of_view maint h]

lemma step_of_swap {task : CompactionTask} {outs : List Table}
    {oldIds : List ℕ} (hsweep : s.maint.sweeping = .none)
    (hinputs : s.data.inputs = task.inputTables)
    (hcase : (oldIds = task.inputIds ∧ s.maint.record.tables = outs) ∨
      (oldIds = [] ∧ ∀ t ∈ outs, t ∈ task.inputTables)) :
    FileStep strict s.data
      { s.store (s.tree.applyCompaction task outs).current with
        maint := .persist driver oldIds }.data := by
  have hstep : FileStep strict s.data _ := FileStep.swap
    (s.tree.applyCompaction task outs).current.version oldIds (fun t ht => ?_) (fun id hid => ?_)
    fun hsorted => hsorted.withCompactionApplied _ _ _
  · refine cast (congrArg _ ?_) hstep
    refine Eq.symm ((data_setMaint (s := s.store _) _).trans ?_)
    simp only [data, hsweep]
    rfl
  · rcases mem_applyCompaction ht with ⟨ht, hid⟩ | ht
    · rcases hcase with ⟨rfl, -⟩ | ⟨rfl, -⟩
      · exact .inl ⟨ht, hid⟩
      · exact .inl ⟨ht, not_mem_nil⟩
    · rcases hcase with ⟨-, rfl⟩ | ⟨hnil, hsub⟩
      · exact .inr (.inl ht)
      · exact .inr (.inr ⟨hnil, hinputs ▸ hsub t ht⟩)
  · rcases hcase with ⟨rfl, -⟩ | ⟨rfl, -⟩
    · obtain ⟨t, ht, rfl⟩ := mem_map.mp hid
      exact ⟨t, hinputs ▸ ht, rfl⟩
    · cases hid

lemma steps_of_maintStep (hok : UnlinkGuard s .maint)
    (hstrict : ∀ was, s.maint = .sweepStart was → strict s.data)
    (hstep : s.maintStep cfg = some s') : FileSteps strict s.data s'.data := by
  -- one case for each place the lock holder can be at; most of them hold nothing new
  unfold maintStep at hstep
  generalize hm : s.maint = m at hstep
  cases m with
  | idle | persist | majorFlush => cases hstep
  | move driver task =>
    -- a trivial move swaps tables between levels and dooms none
    cases hstep
    exact .single (step_of_swap (congrArg sweeping hm) (congrArg inputs hm)
      (.inr ⟨rfl, fun t ht => mem_of_mem_take ht⟩))
  | compact driver task outs =>
    -- a compaction swaps its inputs for its outputs, and dooms the inputs
    cases hstep
    exact .single (step_of_swap (congrArg sweeping hm) (congrArg inputs hm)
      (.inl ⟨rfl, by rw [hm]; rfl⟩))
  | delete driver oldIds =>
    -- the doomed files go, and the holder goes back to its driver with no inputs
    cases hstep
    have hdata := data_setMaint_of_record
      (s := { s with files := s.files.filter fun f => f.id ∉ oldIds })
      driver.resumeFiles (by dsimp only; rw [hm]; cases driver <;> rfl)
    rw [hdata]
    refine (FileStep.delete (d := s.data) (congrArg deleting hm)).steps ?_
    have h1 : s.data.inputs = [] := congrArg inputs hm
    have h2 : s.data.doomed = oldIds := congrArg doomed hm
    have h3 : s.data.sweeping = .none := congrArg sweeping hm
    rw [h1, h2, h3]
    cases driver <;> rfl
  | majorMeasure was observer =>
    cases hstep
    exact steps_of_view (by rw [hm]; rfl)
  | majorRound was observer baseline consumed =>
    -- the loop measures again, ends, or starts a task on tables of the version
    have hsound := majorRound_sound cfg observer baseline consumed s.tree.current.version
    dsimp only at hstep
    split at hstep
    · cases hstep
      exact steps_of_view (by rw [hm]; rfl)
    · cases hstep
      exact steps_of_view (by rw [hm]; rfl)
    · cases hstep
      exact steps_of_startRound hsound (by rw [hm]; rfl)
  | sweepStart was =>
    -- first read: by the guard no ingest holds an id that has no file yet
    cases hstep
    have hingest : ∀ j, (s.data.threads (.ingest j)).drawn = [] := by
      unfold UnlinkGuard at hok
      rw [hm] at hok
      exact hok
    have hcomp : (s.data.threads .compaction).drawn = [] := by
      change s.maint.record.drawn = []
      rw [hm]
      rfl
    rw [data_setMaint_of_record (.sweepRead was _) (by rw [hm]; rfl)]
    refine (FileStep.sweepRead hingest hcomp (hstrict was hm)).steps ?_
    simp only [data, hm]
    rfl
  | sweepRead was referenced =>
    -- second read: by the guard no id was drawn and is not yet registered
    cases hstep
    have hreg : ∀ h, (s.data.threads h).unregistered = none := by
      unfold UnlinkGuard at hok
      rw [hm] at hok
      intro h
      cases h with
      | flush i => exact hok i
      | ingest j =>
        change (s.ingests j).record.unregistered = none
        cases s.ingests j <;> rfl
      | compaction =>
        change s.maint.record.unregistered = none
        rw [hm]
        rfl
    rw [data_setMaint_of_record (.sweep was referenced _) (by rw [hm]; rfl)]
    refine (FileStep.sweepFlushing referenced (congrArg sweeping hm) hreg).steps ?_
    simp only [data, hm]
    rfl
  | sweep was referenced inFlight =>
    cases hstep
    rw [data_setMaint_of_record (.majorRestore was) (by rw [hm]; rfl)]
    refine FileStep.sweepEnd.steps ?_
    simp only [data, hm]
    rfl
  | majorRestore was =>
    cases hstep
    have hdata := data_setMaint_of_view
      (s := { s with tree := if was then s.tree.setCompactionEnabled true else s.tree })
      .idle (by dsimp only; rw [hm]; rfl)
    rw [hdata]
    cases was <;> exact .refl

lemma steps_of_sweepTest {id : ℕ} (hstep : s.sweepTest id = some s') :
    FileSteps strict s.data s'.data := by
  unfold sweepTest at hstep
  split at hstep
  · next was referenced inFlight hm =>
    split at hstep
    · next hdel =>
      cases hstep
      exact .single (.unlink id referenced inFlight (congrArg sweeping hm) hdel)
    · cases hstep
      exact .refl
  · cases hstep

/-- The persist of the lock holder: the inputs are deleted next, or the holder gives
up. -/
lemma steps_of_maintPersist {oldIds : List ℕ}
    (hm : s.maint = .persist driver oldIds) (r : PersistOutcome) :
    FileSteps strict s.data
      { s.persist r with
        maint := if r = PersistOutcome.ok then .delete driver oldIds else .idle }.data := by
  have hkeep : (s.persist r).maint = .persist driver oldIds := by
    rw [← hm]
    cases r <;> rfl
  refine (steps_of_persist r).tail ?_
  split
  · next hr =>
    subst hr
    rw [data_setMaint_of_record (.delete driver oldIds) (by rw [hkeep]; rfl)]
    refine cast (congrArg _ ?_) (FileStep.arm ⟨s.tree.current.version, _, _⟩ rfl rfl)
    simp only [data, hkeep]
    rfl
  · rw [data_setMaint (s := s.persist r) .idle]
    refine cast (congrArg _ ?_) FileStep.abandon
    have h1 : (s.persist r).data.sweeping = .none := congrArg sweeping hkeep
    rw [h1]
    rfl

/-- **Inversion.** A guarded step does to the data what `FileStep` lists. -/
theorem steps_of_next {l : FileLabel n m} (hok : UnlinkGuard s l)
    (hstrict : ∀ was, l = .maint → s.maint = .sweepStart was → strict s.data)
    (hnext : (fileSys cfg n m).next s l = some s') : FileSteps strict s.data s'.data := by
  cases l
  case put | setCompactionEnabled =>
    cases hnext
    exact .refl
  case sealActive =>
    -- sealing moves a memtable; tables and files are as before
    cases hnext
    have hdata : { s with tree := s.tree.sealActive }.data = s.data := by
      unfold Tree.sealActive
      split <;> rfl
    rw [hdata]
  case flush i => exact steps_of_flushStep hok hnext
  case ingestStep j => exact steps_of_ingestStep hnext
  case maint => exact steps_of_maintStep hok (fun was hm => hstrict was rfl hm) hnext
  case sweepTest id => exact steps_of_sweepTest hnext
  case crash k =>
    -- after a crash no thread holds anything
    obtain ⟨manifest, hk, rfl⟩ := Option.map_eq_some_iff.mp hnext
    have hrec : (s.crash manifest).recordOf = fun _ => .none := by
      funext h
      cases h <;> rfl
    have hstep : FileStep strict s.data _ := .crash manifest (mem_of_getElem? hk)
    have hdata : (s.crash manifest).data =
        { (s.crash manifest).data with threads := fun _ => .none } := by
      rw [← hrec]
      rfl
    rw [hdata]
    exact .single hstep
  -- the rest are single steps of one thread, enabled at one place of it
  all_goals
    dsimp only [fileSys] at hnext
    split at hnext <;> cases hnext
  · next c id hf => -- flushFail
    have hrec := threads_flush hf
    rw [data_setFlush]
    refine .single (.drop _ _ (nil_subset _) rfl (.inl rfl) (fun _ => nofun) ?_ rfl ?_) <;>
      rw [hrec]
  · next i r _ ids hf => -- flushPersist
    have hkeep : (FileFlush.returning ids (decide (r = .ok))).record =
        (s.persist r).data.threads (.flush i) := by
      change _ = ((s.persist r).flushes i).record
      rw [persist_flushes, hf]
    rw [data_setFlush, hkeep, update_eq_self]
    exact steps_of_persist r
  · next j entries _ hf => -- ingest
    have hrec : _ = Held.none := threads_ingest hf
    rw [data_setIngest]
    change Relation.ReflTransGen _ _
      { s.data with threads := update s.data.threads (.ingest j) .none }
    rw [← hrec, update_eq_self]
  · next c id hf => -- ingestFail
    have hrec := threads_ingest hf
    rw [data_setIngest]
    refine .single (.drop _ _ (nil_subset _) rfl (.inl rfl) (fun _ => nofun) ?_ rfl ?_) <;>
      rw [hrec]
    rfl
  · next j r _ hf => -- ingestPersist
    have hkeep : Ingest.idle.record = (s.persist r).data.threads (.ingest j) := by
      change _ = ((s.persist r).ingests j).record
      rw [persist_ingests, hf]
    rw [data_setIngest, hkeep, update_eq_self]
    exact steps_of_persist r
  · next hm => -- maybeCompact
    exact steps_of_startRound (maybeRound_sound cfg _) (by rw [hm])
  · next observer _ hm => -- major
    have hdata := data_setMaint_of_view (s := { s with tree := s.tree.setCompactionEnabled false })
      (.majorFlush s.tree.compactionEnabled observer) (by dsimp only; rw [hm]; rfl)
    rw [hdata]
    exact .refl
  · next driver task outs hm => -- maintFail
    rw [data_setMaint .idle]
    refine .single (cast (congrArg _ ?_) FileStep.abandon)
    have h1 : s.data.sweeping = .none := congrArg sweeping hm
    rw [h1]
    rfl
  · next r _ driver oldIds hm => -- maintPersist
    exact steps_of_maintPersist hm r

end

end XyzDB
