import XyzDB.Turba.GroupSync
import XyzDB.Turba.MarkSys
import XyzDB.Turba.Recovery

/-!
# The engine as one machine

`turbaSys` puts the trees, the journal and everything that runs between them together.

* A commit (`CommitCall`) draws its sequence number, reads the compaction flag of the
  spatial tree, appends its batch and enrols in an epoch under the journal lock, waits for
  `synced_epoch`, inserts its items one by one, and returns.
* The sync thread (`SyncCall`) loads the epoch it is going to cover, syncs the journal, and
  stores the epoch. `persist` syncs without touching the epochs.
* A prune (`PruneCall`) goes through the trees, loads for each what it has received and what
  is durable, and removes segments by the minimum. Any number of them run, since clients
  prune too.
* The trees run as in `treeSys`, each on its own.
* A crash keeps the manifests, the archived segments and the synced part of the active one;
  of what is behind that it keeps any front. It is followed by `open`, which is one step.

Failing appends and syncs are the subject of the journal's own machines, and files that a
sweep takes away that of `fileSys`: here every listed table is found. The calls of the state
are those since the engine was opened; `base` has the counters of the trees at that moment.

`TurbaStep` lists what a step can do.
-/

namespace XyzDB

open List

/-- What an engine is configured with. -/
structure TurbaConfig where
  persistMode : PersistMode
  trees : Keyspace → TreeConfig
  walSegmentMaxBytes : ℕ

inductive CommitStage where
  /-- It has its sequence number. -/
  | drawn
  /-- It has read the compaction flag as set. -/
  | journaling
  | waiting (epoch : ℕ)
  | inserting (todo : List BatchItem)
  | returned
  deriving DecidableEq

structure CommitCall where
  batch : Batch
  stage : CommitStage
  deriving DecidableEq

/-- Where the sync thread is. -/
inductive SyncCall where
  | idle
  | loaded (pending : ℕ)
  | synced (pending : ℕ)
  deriving DecidableEq

inductive PruneCall where
  /-- The trees of `todo` are left to read; `watermark` is the minimum over the others. -/
  | load (todo : List Keyspace) (watermark : ℕ)
  /-- It has loaded what the tree `ks` has received. -/
  | compare (ks : Keyspace) (received : ℕ) (todo : List Keyspace) (watermark : ℕ)
  | returned
  deriving DecidableEq

/-- What one tree contributes to the watermark. -/
def pruneBound (received durable : ℕ) : ℕ := if received ≤ durable then u64Max else durable

structure TurbaState where
  trees : Keyspace → TreeState
  seqno : ℕ
  wal : Wal
  pendingEpoch : ℕ
  syncedEpoch : ℕ
  commits : List CommitCall
  sync : SyncCall
  prunes : List PruneCall
  base : Keyspace → ℕ

inductive TurbaLabel where
  /-- A commit starts and draws its number. -/
  | begin (items : List BatchItem)
  /-- The next piece of a commit. -/
  | commit (i : ℕ)
  /-- The next piece of the sync thread. -/
  | sync
  | persist
  | tree (ks : Keyspace) (l : TreeLabel)
  | setCompactionEnabled (ks : Keyspace) (enabled : Bool)
  | beginPrune
  /-- The next piece of a prune. -/
  | prune (i : ℕ)
  /-- A crash that leaves `kept` batches of the active segment, and `open`. -/
  | crash (kept : ℕ) (maxOnDisk : Keyspace → ℕ)

/-- Commits do not go through the machines of the single trees. -/
def TreeLabel.isCommit : TreeLabel → Bool
  | .commitSeqno _ _ | .commitInsert _ => true
  | _ => false

namespace TurbaState

variable (s : TurbaState)

def setTree (ks : Keyspace) (t : TreeState) : TurbaState :=
  { s with trees := Function.update s.trees ks t }

def setStage (i : ℕ) (b : Batch) (stage : CommitStage) : TurbaState :=
  { s with commits := s.commits.set i ⟨b, stage⟩ }

/-- The next piece of a commit. -/
def commitStep (mode : PersistMode) (s : TurbaState) (i : ℕ) : CommitCall → Option TurbaState
  | ⟨b, .drawn⟩ =>
    some (s.setStage i b
      (if (s.trees .spatial).tree.compactionEnabled then .journaling else .inserting b.items))
  | ⟨b, .journaling⟩ =>
    match mode with
    | .syncData =>
      some { s.setStage i b (.waiting (s.pendingEpoch + 1)) with
        wal := s.wal.append b.toWal
        pendingEpoch := s.pendingEpoch + 1 }
    | .buffer => some { s.setStage i b (.inserting b.items) with wal := s.wal.append b.toWal }
  | ⟨b, .waiting epoch⟩ =>
    if epoch ≤ s.syncedEpoch then some (s.setStage i b (.inserting b.items)) else none
  | ⟨b, .inserting (item :: todo)⟩ =>
    some ((s.setStage i b (.inserting todo)).setTree item.keyspace
      ((s.trees item.keyspace).put (item.entry b.seqno)))
  | ⟨b, .inserting []⟩ => some (s.setStage i b .returned)
  | ⟨_, .returned⟩ => none

/-- The next piece of the sync thread. -/
def syncStep (segmentMaxBytes : ℕ) (s : TurbaState) : TurbaState :=
  match s.sync with
  | .idle => if s.syncedEpoch < s.pendingEpoch then { s with sync := .loaded s.pendingEpoch } else s
  | .loaded pending => { s with wal := s.wal.sync segmentMaxBytes, sync := .synced pending }
  | .synced pending => { s with syncedEpoch := pending, sync := .idle }

/-- The next piece of a prune. -/
def pruneStep (i : ℕ) : PruneCall → Option TurbaState
  | .load (ks :: todo) watermark =>
    some { s with prunes := s.prunes.set i (.compare ks (s.trees ks).tree.seqno todo watermark) }
  | .compare ks received todo watermark =>
    some { s with
      prunes := s.prunes.set i (.load todo (min watermark
        (pruneBound received (s.trees ks).tree.manifestDurableSeqno))) }
  | .load [] watermark =>
    some { s with wal := s.wal.prune watermark, prunes := s.prunes.set i .returned }
  | .returned => none

/-- `TurbaEngine::open` on what a crash has left. -/
def reopen (cfg : TurbaConfig) (s : TurbaState) (recovered : List WalBatch)
    (maxOnDisk : Keyspace → ℕ) : TurbaState :=
  let trees := fun ks =>
    Tree.recover (cfg.trees ks) ks (s.trees ks).tree.manifest (maxOnDisk ks) recovered
  { trees := fun ks => .atRest (trees ks)
    seqno := startSeqno recovered trees
    wal := .create
    pendingEpoch := 0
    syncedEpoch := 0
    commits := []
    sync := .idle
    prunes := []
    base := fun ks => (trees ks).seqno }

/-- The commit of the batch has returned `Ok`. -/
def Acked (b : Batch) : Prop := ⟨b, .returned⟩ ∈ s.commits

end TurbaState

/-- The engine and all its threads. -/
def turbaSys (cfg : TurbaConfig) : TransSys TurbaState TurbaLabel where
  init :=
    { trees := fun _ => .atRest .empty
      seqno := 0
      wal := .create
      pendingEpoch := 0
      syncedEpoch := 0
      commits := []
      sync := .idle
      prunes := []
      base := fun _ => 0 }
  next s
  | .begin items =>
    -- an empty batch returns at once
    if items = [] then none
    else some { s with
      seqno := s.seqno + 1
      commits := s.commits ++ [⟨⟨s.seqno + 1, items⟩, .drawn⟩] }
  | .commit i => s.commits[i]?.bind (s.commitStep cfg.persistMode i)
  | .sync => some (s.syncStep cfg.walSegmentMaxBytes)
  | .persist => some { s with wal := s.wal.sync cfg.walSegmentMaxBytes }
  | .tree ks l =>
    if l.isCommit then none
    else ((treeSys (cfg.trees ks)).next (s.trees ks) l).map (s.setTree ks)
  | .setCompactionEnabled ks enabled =>
    some (s.setTree ks { s.trees ks with
      tree := (s.trees ks).tree.setCompactionEnabled enabled })
  | .beginPrune => some { s with prunes := s.prunes ++ [.load Keyspace.all u64Max] }
  | .prune i => s.prunes[i]?.bind (s.pruneStep i)
  | .crash kept maxOnDisk =>
    if s.wal.synced ≤ kept ∧ kept ≤ s.wal.active.length then
      some (s.reopen cfg (s.wal.recovered kept) maxOnDisk)
    else none

/-- All that a step can do. -/
inductive TurbaStep (cfg : TurbaConfig) (s : TurbaState) : TurbaLabel → TurbaState → Prop
  | begin (items : List BatchItem) (hne : items ≠ []) : TurbaStep cfg s (.begin items)
      { s with
        seqno := s.seqno + 1
        commits := s.commits ++ [⟨⟨s.seqno + 1, items⟩, .drawn⟩] }
  /-- A commit moves on without touching anything else. -/
  | stage (i : ℕ) (b : Batch) (stage stage' : CommitStage) (hc : s.commits[i]? = some ⟨b, stage⟩)
      (h : (stage = .drawn ∧ stage' = .journaling) ∨
        (stage = .drawn ∧ (s.trees .spatial).tree.compactionEnabled = false ∧
          stage' = .inserting b.items) ∨
        (∃ epoch, stage = .waiting epoch ∧ epoch ≤ s.syncedEpoch ∧ stage' = .inserting b.items) ∨
        (stage = .inserting [] ∧ stage' = .returned)) :
      TurbaStep cfg s (.commit i) (s.setStage i b stage')
  | enrol (i : ℕ) (b : Batch) (hc : s.commits[i]? = some ⟨b, .journaling⟩)
      (hmode : cfg.persistMode = .syncData) : TurbaStep cfg s (.commit i)
      { s.setStage i b (.waiting (s.pendingEpoch + 1)) with
        wal := s.wal.append b.toWal
        pendingEpoch := s.pendingEpoch + 1 }
  | appendBuffered (i : ℕ) (b : Batch) (hc : s.commits[i]? = some ⟨b, .journaling⟩)
      (hmode : cfg.persistMode = .buffer) : TurbaStep cfg s (.commit i)
      { s.setStage i b (.inserting b.items) with wal := s.wal.append b.toWal }
  | insert (i : ℕ) (b : Batch) (item : BatchItem) (todo : List BatchItem)
      (hc : s.commits[i]? = some ⟨b, .inserting (item :: todo)⟩) : TurbaStep cfg s (.commit i)
      ((s.setStage i b (.inserting todo)).setTree item.keyspace
        ((s.trees item.keyspace).put (item.entry b.seqno)))
  | syncIdle : TurbaStep cfg s .sync s
  | syncLoad (hlt : s.syncedEpoch < s.pendingEpoch) :
      TurbaStep cfg s .sync { s with sync := .loaded s.pendingEpoch }
  | syncWal (pending : ℕ) (hs : s.sync = .loaded pending) : TurbaStep cfg s .sync
      { s with wal := s.wal.sync cfg.walSegmentMaxBytes, sync := .synced pending }
  | syncStore (pending : ℕ) (hs : s.sync = .synced pending) :
      TurbaStep cfg s .sync { s with syncedEpoch := pending, sync := .idle }
  | persist : TurbaStep cfg s .persist { s with wal := s.wal.sync cfg.walSegmentMaxBytes }
  | tree (ks : Keyspace) (l : TreeLabel) (t : TreeState) (hl : l.isCommit = false)
      (hnext : (treeSys (cfg.trees ks)).next (s.trees ks) l = some t) :
      TurbaStep cfg s (.tree ks l) (s.setTree ks t)
  | setCompactionEnabled (ks : Keyspace) (enabled : Bool) :
      TurbaStep cfg s (.setCompactionEnabled ks enabled) (s.setTree ks { s.trees ks with
          tree := (s.trees ks).tree.setCompactionEnabled enabled })
  | beginPrune : TurbaStep cfg s .beginPrune
      { s with prunes := s.prunes ++ [.load Keyspace.all u64Max] }
  | pruneLoad (i : ℕ) (ks : Keyspace) (todo : List Keyspace) (watermark : ℕ)
      (hp : s.prunes[i]? = some (.load (ks :: todo) watermark)) : TurbaStep cfg s (.prune i)
      { s with prunes := s.prunes.set i (.compare ks (s.trees ks).tree.seqno todo watermark) }
  | pruneCompare (i : ℕ) (ks : Keyspace) (received : ℕ) (todo : List Keyspace) (watermark : ℕ)
      (hp : s.prunes[i]? = some (.compare ks received todo watermark)) :
      TurbaStep cfg s (.prune i)
      { s with
        prunes := s.prunes.set i (.load todo (min watermark
          (pruneBound received (s.trees ks).tree.manifestDurableSeqno))) }
  | prune (i : ℕ) (watermark : ℕ) (hp : s.prunes[i]? = some (.load [] watermark)) :
      TurbaStep cfg s (.prune i)
      { s with wal := s.wal.prune watermark, prunes := s.prunes.set i .returned }
  | crash (kept : ℕ) (maxOnDisk : Keyspace → ℕ) (hsynced : s.wal.synced ≤ kept)
      (hle : kept ≤ s.wal.active.length) : TurbaStep cfg s (.crash kept maxOnDisk)
      (s.reopen cfg (s.wal.recovered kept) maxOnDisk)

variable {i : ℕ}

section

variable {cfg : TurbaConfig} {s s' : TurbaState} {l : TurbaLabel}

lemma TurbaStep.of_commitStep {c : CommitCall} (hc : s.commits[i]? = some c)
    (h : s.commitStep cfg.persistMode i c = some s') : TurbaStep cfg s (.commit i) s' := by
  obtain ⟨b, stage⟩ := c
  cases stage with
  | drawn =>
    cases h
    cases hflag : (s.trees .spatial).tree.compactionEnabled with
    | true => exact .stage i b _ _ hc (.inl ⟨rfl, rfl⟩)
    | false => exact .stage i b _ _ hc (.inr (.inl ⟨rfl, hflag, rfl⟩))
  | journaling =>
    cases hmode : cfg.persistMode with
    | syncData =>
      rw [hmode] at h
      cases h
      exact .enrol i b hc hmode
    | buffer =>
      rw [hmode] at h
      cases h
      exact .appendBuffered i b hc hmode
  | waiting epoch =>
    change (if _ then _ else none) = _ at h
    split at h <;> cases h
    next hle => exact .stage i b _ _ hc (.inr (.inr (.inl ⟨epoch, rfl, hle, rfl⟩)))
  | inserting todo =>
    cases todo with
    | nil =>
      cases h
      exact .stage i b _ _ hc (.inr (.inr (.inr ⟨rfl, rfl⟩)))
    | cons item todo =>
      cases h
      exact .insert i b item todo hc
  | returned => cases h

lemma TurbaStep.of_syncStep : TurbaStep cfg s .sync (s.syncStep cfg.walSegmentMaxBytes) := by
  unfold TurbaState.syncStep
  split
  · split
    · next hlt => exact .syncLoad hlt
    · exact .syncIdle
  · next pending hs => exact .syncWal pending hs
  · next pending hs => exact .syncStore pending hs

lemma TurbaStep.of_pruneStep {p : PruneCall} (hp : s.prunes[i]? = some p)
    (h : s.pruneStep i p = some s') : TurbaStep cfg s (.prune i) s' := by
  cases p with
  | load todo watermark =>
    cases todo with
    | nil =>
      cases h
      exact .prune i watermark hp
    | cons ks todo =>
      cases h
      exact .pruneLoad i ks todo watermark hp
  | compare ks received todo watermark =>
    cases h
    exact .pruneCompare i ks received todo watermark hp
  | returned => cases h

/-- **Inversion.** Every step is one of those `TurbaStep` lists. -/
theorem turbaStep_of_next (h : (turbaSys cfg).next s l = some s') : TurbaStep cfg s l s' := by
  cases l with
  | begin items =>
    change (if _ then none else _) = _ at h
    split at h <;> cases h
    next hne => exact .begin items hne
  | commit i =>
    obtain ⟨c, hc, h⟩ := Option.bind_eq_some_iff.mp h
    exact .of_commitStep hc h
  | sync =>
    cases h
    exact .of_syncStep
  | persist =>
    cases h
    exact .persist
  | tree ks l =>
    change (if _ then none else _) = _ at h
    split at h
    · cases h
    · next hl =>
      obtain ⟨t, ht, rfl⟩ := Option.map_eq_some_iff.mp h
      exact .tree ks l t (Bool.eq_false_iff.mpr hl) ht
  | setCompactionEnabled ks enabled =>
    cases h
    exact .setCompactionEnabled ks enabled
  | beginPrune =>
    cases h
    exact .beginPrune
  | prune i =>
    obtain ⟨p, hp, h⟩ := Option.bind_eq_some_iff.mp h
    exact .of_pruneStep hp h
  | crash kept maxOnDisk =>
    change (if _ then _ else none) = _ at h
    split at h <;> cases h
    next hok => exact .crash kept maxOnDisk hok.1 hok.2

end

/-- The batches of the commits since the engine was opened, in the order of their numbers. -/
def TurbaState.begun (s : TurbaState) : List Batch := s.commits.map CommitCall.batch

/-- Numbers are drawn in order and above those of the trees when the engine was opened, and
the journal has only batches that have drawn one. -/
structure Origin (s : TurbaState) : Prop where
  ascending : s.begun.Pairwise fun b c => b.seqno < c.seqno
  le_seqno : ∀ b ∈ s.begun, b.seqno ≤ s.seqno
  base_le : ∀ ks, s.base ks ≤ s.seqno
  base_lt : ∀ b ∈ s.begun, ∀ ks, s.base ks < b.seqno
  wal : ∀ b ∈ s.wal.batches, ∃ c ∈ s.begun, c.toWal = b

variable {b : Batch}

section

variable {cfg : TurbaConfig} {s s' : TurbaState} {l : TurbaLabel}

lemma TurbaState.begun_set {stage stage' : CommitStage} (hc : s.commits[i]? = some ⟨b, stage⟩) :
    (s.commits.set i ⟨b, stage'⟩).map CommitCall.batch = s.begun := map_set_of_eq hc rfl

lemma TurbaState.mem_begun {stage : CommitStage} (hc : s.commits[i]? = some ⟨b, stage⟩) :
    b ∈ s.begun :=
  mem_map.mpr ⟨_, mem_of_getElem? hc, rfl⟩

lemma Origin.keep (h : Origin s) (hbegun : s'.begun = s.begun) (hseq : s'.seqno = s.seqno)
    (hbase : s'.base = s.base)
    (hwal : ∀ b ∈ s'.wal.batches, ∃ c ∈ s.begun, c.toWal = b) : Origin s' := by
  cases s'
  cases hseq
  cases hbase
  exact ⟨hbegun ▸ h.ascending, hbegun ▸ h.le_seqno, h.base_le, hbegun ▸ h.base_lt, hbegun ▸ hwal⟩

lemma origin_step (h : Origin s) (hstep : TurbaStep cfg s l s') : Origin s' := by
  cases hstep with
  | begin items hne =>
    have hbegun : (s.commits ++ [CommitCall.mk ⟨s.seqno + 1, items⟩ .drawn]).map
        CommitCall.batch = s.begun ++ [⟨s.seqno + 1, items⟩] := map_append
    refine ⟨?_, ?_, fun ks => (h.base_le ks).trans (Nat.le_succ _), ?_, ?_⟩
    · change List.Pairwise _ (List.map _ _)
      rw [hbegun]
      refine pairwise_append.mpr ⟨h.ascending, pairwise_singleton _ _, ?_⟩
      intro b hb c hc
      rw [mem_singleton.mp hc]
      exact Nat.lt_succ_of_le (h.le_seqno b hb)
    · change ∀ b ∈ List.map _ _, _
      rw [hbegun]
      exact forall_mem_concat (fun b hb => (h.le_seqno b hb).trans (Nat.le_succ _)) le_rfl
    · change ∀ b ∈ List.map _ _, _
      rw [hbegun]
      exact forall_mem_concat h.base_lt fun ks => Nat.lt_succ_of_le (h.base_le ks)
    · intro b hb
      obtain ⟨c, hc, heq⟩ := h.wal b hb
      refine ⟨c, ?_, heq⟩
      change c ∈ List.map _ _
      rw [hbegun]
      exact mem_append_left _ hc
  | stage i b stage stage' hc _ | insert i b item todo hc =>
    exact h.keep (TurbaState.begun_set hc) rfl rfl h.wal
  | enrol i b hc _ | appendBuffered i b hc _ =>
    refine h.keep (TurbaState.begun_set hc) rfl rfl ?_
    rw [Wal.batches_append]
    exact forall_mem_concat h.wal ⟨b, TurbaState.mem_begun hc, rfl⟩
  | syncWal | persist => exact h.keep rfl rfl rfl fun b hb => h.wal b (Wal.batches_sync hb)
  | prune i watermark hp => exact h.keep rfl rfl rfl fun b hb => h.wal b (Wal.batches_prune hb)
  | crash kept maxOnDisk _ _ =>
    refine ⟨.nil, nofun, fun ks => ?_, nofun, nofun⟩
    exact Tree.seqno_le_startSeqno ks fun ks => Tree.recover (cfg.trees ks) ks
      (s.trees ks).tree.manifest (maxOnDisk ks) (s.wal.recovered kept)
  | syncIdle => exact h
  | syncLoad | syncStore | tree | setCompactionEnabled | beginPrune | pruneLoad | pruneCompare =>
    exact h.keep rfl rfl rfl h.wal

lemma origin_init (cfg : TurbaConfig) : Origin (turbaSys cfg).init :=
  ⟨.nil, nofun, fun _ => le_rfl, nofun, nofun⟩

lemma Origin.eq_of_seqno (h : Origin s) {c : Batch} (hb : b ∈ s.begun) (hc : c ∈ s.begun)
    (heq : b.seqno = c.seqno) : b = c := by
  have hnodup : (s.begun.map Batch.seqno).Nodup :=
    pairwise_map.mpr (h.ascending.imp ne_of_lt)
  exact inj_on_of_nodup_map hnodup hb hc heq

lemma Origin.eq_toWal (h : Origin s) (hb : b ∈ s.begun) {c : WalBatch} (hc : c ∈ s.wal.batches)
    (heq : c.seqno = b.toWal.seqno) : c = b.toWal := by
  obtain ⟨d, hd, rfl⟩ := h.wal c hc
  rw [h.eq_of_seqno hd hb heq]

end

/-- The sync thread is about to sync the journal. -/
def SyncCall.syncs : SyncCall → Bool
  | .loaded _ => true
  | .idle | .synced _ => false

/-- Syncs that roll take a fresh name. -/
def FreshRolls (cfg : TurbaConfig) (s : TurbaState) : TurbaLabel → Prop
  | .sync => s.sync.syncs = true → s.wal.FreshRoll cfg.walSegmentMaxBytes
  | .persist => s.wal.FreshRoll cfg.walSegmentMaxBytes
  | _ => True

instance (cfg : TurbaConfig) (s : TurbaState) (l : TurbaLabel) :
    Decidable (FreshRolls cfg s l) := by
  unfold FreshRolls
  split <;> infer_instance

/-- An engine with small trees, whose journal rolls at the given size. -/
def smallTurba (mode : PersistMode) (walSegmentMaxBytes : ℕ) : TurbaConfig where
  persistMode := mode
  trees _ := smallConfig none 4096
  walSegmentMaxBytes := walSegmentMaxBytes

/-- One item of the spatial keyspace. -/
def spatialItem (k : UInt8) : BatchItem := ⟨.spatial, [k], [5], .value⟩

/-! ### The journal in bytes -/

section

variable (xxh : List UInt8 → BitVec 128)

/-- What a step of the engine does to the files of the journal. -/
def TurbaState.journalStep (segmentMaxBytes : ℕ) (s : TurbaState) (j : JournalWriter) :
    TurbaLabel → JournalWriter
  | .commit i =>
    match s.commits[i]? with
    | some ⟨b, .journaling⟩ => j.writeBatchBuffered xxh b.toWal
    | _ => j
  | .sync => if s.sync.syncs then j.sync segmentMaxBytes else j
  | .persist => j.sync segmentMaxBytes
  | .prune i =>
    match s.prunes[i]? with
    | some (.load [] watermark) => j.prune watermark
    | _ => j
  | .crash _ _ => .create
  | _ => j

/-- The engine beside the files of its journal. -/
def byteSys (cfg : TurbaConfig) : TransSys (TurbaState × JournalWriter) TurbaLabel where
  init := ((turbaSys cfg).init, .create)
  next s l := ((turbaSys cfg).next s.1 l).map fun t =>
    (t, s.1.journalStep xxh cfg.walSegmentMaxBytes s.2 l)

/-- The batches of the commits fit the record format. -/
abbrev BatchesFit (s : TurbaState × JournalWriter) (_ : TurbaLabel) : Prop :=
  ∀ b ∈ s.1.begun, b.toWal.Fits

end

variable {xxh : List UInt8 → BitVec 128} {cfg : TurbaConfig} {s s' : TurbaState} {j : JournalWriter}

/-- **Step.** The engine does to the batches what it does to the bytes. -/
theorem models_step {l : TurbaLabel} (h : s.wal.Models xxh j)
    (hfits : ∀ b ∈ s.begun, b.toWal.Fits) (hnext : (turbaSys cfg).next s l = some s') :
    s'.wal.Models xxh (s.journalStep xxh cfg.walSegmentMaxBytes j l) := by
  by_cases hl : l = .sync
  · -- where the sync thread is decides whether it syncs
    cases hl
    cases hnext
    unfold TurbaState.syncStep TurbaState.journalStep
    cases s.sync with
    | idle => dsimp only; split <;> exact h
    | loaded pending => exact h.sync
    | synced pending => exact h
  · cases turbaStep_of_next hnext with
    | syncIdle | syncLoad | syncWal | syncStore => exact absurd rfl hl
    | begin | tree | setCompactionEnabled | beginPrune => exact h
    | persist => exact h.sync
    | crash => exact Wal.models_create
    | enrol i b hc _ | appendBuffered i b hc _ =>
      simp only [TurbaState.journalStep, hc]
      exact h.append (hfits b (TurbaState.mem_begun hc))
    | stage i b stage stage' hc hstage =>
      simp only [TurbaState.journalStep, hc]
      rcases hstage with ⟨rfl, -⟩ | ⟨rfl, -⟩ | ⟨_, rfl, -⟩ | ⟨rfl, -⟩ <;> exact h
    | insert i b item todo hc =>
      simp only [TurbaState.journalStep, hc]
      exact h
    | pruneLoad i ks todo watermark hp | pruneCompare i ks received todo watermark hp =>
      simp only [TurbaState.journalStep, hp]
      exact h
    | prune i watermark hp =>
      simp only [TurbaState.journalStep, hp]
      exact h.prune watermark

/-- **The files refine the batches.** Whatever the engine does, a crash that cuts the active file
anywhere behind the last sync leaves files from which `recover_journal` reads what one of the
crashes of the batches leaves, with everything that is durable there. -/
theorem crashed_files_recovered (h : (byteSys xxh cfg).Reach BatchesFit (s, j)) {n : ℕ}
    (hn : j.syncedBytes ≤ n) : ∃ kept,
      recoverJournal xxh j.archived (j.active.take n) = s.wal.recovered kept ∧
      ∀ maxOnDisk, (turbaSys cfg).next s (.crash kept maxOnDisk) =
        some (s.reopen cfg (recoverJournal xxh j.archived (j.active.take n)) maxOnDisk) := by
  have hmodels : s.wal.Models xxh j := by
    refine h.invariant (fun s => s.1.wal.Models xxh s.2) Wal.models_create ?_
    intro s l s' hm hfits hnext
    obtain ⟨t, ht, rfl⟩ := Option.map_eq_some_iff.mp hnext
    exact models_step hm hfits ht
  obtain ⟨kept, hsynced, hle, heq⟩ := hmodels.recover hn
  refine ⟨kept, heq, fun maxOnDisk => ?_⟩
  rw [heq]
  exact if_pos ⟨hsynced, hle⟩

/-- A commit has appended its batch, and five bytes of it survive. -/
theorem crashed_files_recovered_torn : ∃ s,
    (byteSys (fun _ => 0) (smallTurba .syncData 4096)).Reach BatchesFit s ∧
      s.2.syncedBytes + 5 < s.2.active.length ∧ ∃ kept,
        recoverJournal (fun _ => 0) s.2.archived (s.2.active.take (s.2.syncedBytes + 5)) =
          s.1.wal.recovered kept :=
  TransSys.exists_reach_and [.begin [spatialItem 1], .commit 0, .commit 0] (by decide +kernel)
    fun _ hs => (crashed_files_recovered hs (Nat.le_add_right _ _)).imp fun _ h => h.1

end XyzDB
