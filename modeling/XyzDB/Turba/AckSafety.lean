import XyzDB.Turba.TurbaSys

/-!
# Acknowledged batches and crashes

A commit whose batch was appended returns only when the sync thread has covered its epoch,
and from then on every crash leaves the batch in the journal. But a commit reads from the
compaction flag whether to append at all, and a checkpoint or a major compaction of the
spatial tree switches the flag off for its own purposes. A commit that looks at that moment
is acknowledged on memtables alone. A roll that takes the name of an older segment loses
acknowledged batches too (`acked_batch_lost`).

Under `AckGuard` neither happens. `CommitStage.Safe` says what the journal has of a batch
while its commit goes from stage to stage; the rest is that `open` replays what it finds
(`acked_batches_recovered`).
-/

namespace XyzDB

open List

/-- The steps that maintain a tree. -/
def TreeLabel.maintains : TreeLabel → Bool
  | .sealActive | .flush _ | .maybeCompact | .checkpoint | .major _ | .maint => true
  | _ => false

/-- Commits, syncs, maintenance and crashes: nobody else switches compaction off. -/
def TurbaLabel.commitsOrMaintains : TurbaLabel → Bool
  | .begin _ | .commit _ | .sync | .persist | .crash _ _ => true
  | .tree _ l => l.maintains
  | _ => false

section

variable (s : TurbaState)

/-- A commit that reads the compaction flag finds it set. -/
def FlagSet : TurbaLabel → Prop
  | .commit i => s.commits[i]?.map CommitCall.stage = some .drawn →
      (s.trees .spatial).tree.compactionEnabled = true
  | _ => True

instance (l : TurbaLabel) : Decidable (FlagSet s l) := by
  unfold FlagSet
  split <;> infer_instance

/-- No commit reads the flag while a checkpoint or a major compaction has it off, and no
roll takes a name in use. -/
abbrev AckGuard (cfg : TurbaConfig) (s : TurbaState) (l : TurbaLabel) : Prop :=
  l.commitsOrMaintains = true ∧ FlagSet s l ∧ FreshRolls cfg s l

/-- The sync thread has covered the epoch, or is about to say so. -/
def TurbaState.Covers (epoch : ℕ) : Prop :=
  epoch ≤ s.syncedEpoch ∨ ∃ pending, s.sync = .synced pending ∧ epoch ≤ pending

/-- What the journal has of a batch at each stage of its commit. -/
def CommitStage.Safe (b : WalBatch) : CommitStage → Prop
  | .drawn | .journaling => True
  | .waiting epoch => b ∈ s.wal.batches ∧ (s.Covers epoch → b ∈ s.wal.durable)
  | .inserting _ | .returned => b ∈ s.wal.durable

end

/-- A batch whose call has returned is durable in the log. -/
structure AckInv (s : TurbaState) : Prop where
  origin : Origin s
  synced_le : s.syncedEpoch ≤ s.pendingEpoch
  sync_le : ∀ pending, s.sync = .loaded pending ∨ s.sync = .synced pending →
    pending ≤ s.pendingEpoch
  calls : ∀ c ∈ s.commits, c.stage.Safe s c.batch.toWal

section

variable {cfg : TurbaConfig} {s s' : TurbaState} {l : TurbaLabel}

/-- What is in the journal stays there, and no epoch is covered that was not. -/
lemma CommitStage.Safe.mono {b : WalBatch} {stage : CommitStage} (h : stage.Safe s b)
    (hbatches : b ∈ s.wal.batches → b ∈ s'.wal.batches)
    (hdurable : b ∈ s.wal.durable → b ∈ s'.wal.durable)
    (hcovers : ∀ epoch, s'.Covers epoch → s.Covers epoch) : stage.Safe s' b := by
  cases stage with
  | drawn | journaling => trivial
  | waiting epoch => exact ⟨hbatches h.1, fun hc => hdurable (h.2 (hcovers epoch hc))⟩
  | inserting | returned => exact hdurable h

lemma CommitStage.Safe.sync {b : WalBatch} {stage : CommitStage} (h : stage.Safe s b)
    {segmentMaxBytes : ℕ} (hfresh : s.wal.FreshRoll segmentMaxBytes)
    (hwal : s'.wal = s.wal.sync segmentMaxBytes) : stage.Safe s' b := by
  have hsync : b ∈ s.wal.batches → b ∈ s'.wal.durable := fun hb => hwal ▸ hfresh.durable_sync hb
  cases stage with
  | drawn | journaling => trivial
  | waiting epoch => exact ⟨Wal.durable_subset (hsync h.1), fun _ => hsync h.1⟩
  | inserting | returned => exact hsync (Wal.durable_subset h)

lemma AckInv.setTree (h : AckInv s) (horigin : Origin s')
    (htrees : ∃ t, s' = { s with trees := t }) :
    AckInv s' := by
  obtain ⟨t, rfl⟩ := htrees
  exact ⟨horigin, h.synced_le, h.sync_le, fun c hc => (h.calls c hc).mono id id fun _ h => h⟩

lemma AckInv.not_covers (h : AckInv s) : ¬ s.Covers (s.pendingEpoch + 1) := by
  rintro (hle | ⟨pending, hs, hle⟩)
  · exact absurd (hle.trans h.synced_le) (Nat.not_succ_le_self _)
  · exact absurd (hle.trans (h.sync_le pending (.inr hs))) (Nat.not_succ_le_self _)

lemma AckInv.stage (h : AckInv s) {i : ℕ} {b : Batch} {stage : CommitStage}
    (horigin : Origin (s.setStage i b stage)) (hsafe : stage.Safe s b.toWal) :
    AckInv (s.setStage i b stage) := by
  refine ⟨horigin, h.synced_le, h.sync_le, fun c hc => ?_⟩
  have hall := forall_mem_set (i := i) h.calls (b := ⟨b, stage⟩) hsafe
  exact (hall c hc).mono id id fun _ h => h

/-- **Step.** A guarded step keeps the batches of commits safe. -/
theorem ackInv_step (hmode : cfg.persistMode = .syncData) (h : AckInv s) (hok : AckGuard cfg s l)
    (hstep : TurbaStep cfg s l s') : AckInv s' := by
  have horigin := origin_step h.origin hstep
  obtain ⟨hlabel, hflag, hfresh⟩ := hok
  cases hstep with
  | begin items hne =>
    refine ⟨horigin, h.synced_le, h.sync_le, ?_⟩
    refine forall_mem_concat (fun c hc => ?_) trivial
    exact (h.calls c hc).mono id id fun _ h => h
  | stage i b stage stage' hc hmove =>
    have hcall : stage.Safe s b.toWal := h.calls _ (mem_of_getElem? hc)
    refine h.stage horigin ?_
    rcases hmove with ⟨rfl, rfl⟩ | ⟨rfl, hoff, rfl⟩ | ⟨epoch, rfl, hle, rfl⟩ | ⟨rfl, rfl⟩
    · trivial
    · -- the flag was read as set
      have hon := hflag (by rw [hc]; rfl)
      rw [hoff] at hon
      cases hon
    · exact hcall.2 (.inl hle)
    · exact hcall
  | enrol i b hc _ =>
    -- the batch is in the log, under an epoch that no sync has covered
    refine ⟨horigin, h.synced_le.trans (Nat.le_succ _),
      fun pending hs => (h.sync_le pending hs).trans (Nat.le_succ _), fun c hc => ?_⟩
    rcases mem_or_eq_of_mem_set hc with hc | rfl
    · refine (h.calls c hc).mono (fun hb => ?_) (fun hb => ?_) fun _ h => h
      · exact Wal.batches_append _ ▸ mem_append_left _ hb
      · exact (Wal.durable_append _).symm ▸ hb
    · refine ⟨?_, fun hcov => absurd hcov h.not_covers⟩
      exact Wal.batches_append _ ▸ mem_append_right _ (.head _)
  | appendBuffered i b hc hbuffer =>
    -- this mode never leaves a batch to the buffer
    rw [hmode] at hbuffer
    cases hbuffer
  | insert i b item todo hc =>
    have hsafe : CommitStage.Safe s b.toWal (.inserting todo) :=
      h.calls _ (mem_of_getElem? hc)
    have horigin' : Origin (s.setStage i b (.inserting todo)) :=
      h.origin.keep (TurbaState.begun_set hc) rfl rfl h.origin.wal
    exact (h.stage horigin' hsafe).setTree horigin ⟨_, rfl⟩
  | syncIdle => exact h
  | syncLoad hlt =>
    -- the sync fixes the epoch up to which it will answer
    refine ⟨horigin, h.synced_le, fun pending hs => ?_, fun c hc => ?_⟩
    · rcases hs with hs | hs
      · exact (SyncCall.loaded.inj hs).ge
      · cases hs
    · refine (h.calls c hc).mono id id fun epoch hcov => ?_
      rcases hcov with hle | ⟨pending, hs, -⟩
      · exact .inl hle
      · cases hs
  | syncWal pending hs =>
    -- all that was in the log becomes durable, before the epoch is stored
    have hroll := hfresh (by rw [hs]; rfl)
    refine ⟨horigin, h.synced_le, fun pending' hs' => ?_, fun c hc => (h.calls c hc).sync hroll rfl⟩
    rcases hs' with hs' | hs'
    · cases hs'
    · exact SyncCall.synced.inj hs' ▸ h.sync_le pending (.inl hs)
  | syncStore pending hs =>
    -- what the stored epoch covers now, the sync under way covered before
    refine ⟨horigin, h.sync_le pending (.inr hs), nofun, fun c hc => ?_⟩
    refine (h.calls c hc).mono id id fun epoch hcov => ?_
    rcases hcov with hle | ⟨pending', hs', -⟩
    · exact .inr ⟨pending, hs, hle⟩
    · cases hs'
  | persist => exact ⟨horigin, h.synced_le, h.sync_le, fun c hc => (h.calls c hc).sync hfresh rfl⟩
  | tree ks l t _ _ => exact h.setTree horigin ⟨_, rfl⟩
  | crash kept maxOnDisk _ _ => exact ⟨horigin, le_rfl, nofun, nofun⟩
  | setCompactionEnabled | beginPrune | pruneLoad | pruneCompare | prune => cases hlabel

lemma ackInv_reach (hmode : cfg.persistMode = .syncData)
    (h : (turbaSys cfg).Reach (AckGuard cfg) s) : AckInv s :=
  h.invariant AckInv ⟨origin_init cfg, le_rfl, nofun, nofun⟩
    fun _ _ _ hinv hok hnext => ackInv_step hmode hinv hok (turbaStep_of_next hnext)

/-- A durable batch is in the tables of every tree after a crash. -/
lemma Origin.recorded_of_durable (h : Origin s) {b : Batch} (hb : b ∈ s.begun)
    (hdurable : b.toWal ∈ s.wal.durable) {kept : ℕ} (hsynced : s.wal.synced ≤ kept)
    (hle : kept ≤ s.wal.active.length) (maxOnDisk : Keyspace → ℕ) (ks : Keyspace) :
    Present (b.toWal.entries ks).reverse
      ((s.reopen cfg (s.wal.recovered kept) maxOnDisk).trees ks).tree.recorded := by
  have hpresent := present_batch ks (Wal.recovered_mono hsynced hdurable) fun c hc heq =>
    h.eq_toWal hb (Wal.recovered_mono hle hc) heq
  intro newer e older hlog hnew
  exact Tree.recorded_recover_of_replayed _ ks _ _ _ (hpresent newer e older hlog hnew)

end

/-- **Acknowledged batches survive.** In every guarded run a batch whose commit has returned
is durable in the journal, and whenever the engine crashes and is opened again, every
keyspace has the items of the batch in tables that its manifest lists, the last one of each
key. -/
theorem acked_batches_recovered {cfg : TurbaConfig} (hmode : cfg.persistMode = .syncData)
    {s : TurbaState} (h : (turbaSys cfg).Reach (AckGuard cfg) s) {b : Batch} (hb : s.Acked b) :
    b.toWal ∈ s.wal.durable ∧
      ∀ kept maxOnDisk s', (turbaSys cfg).next s (.crash kept maxOnDisk) = some s' →
        ∀ ks, Present (b.toWal.entries ks).reverse (s'.trees ks).tree.recorded := by
  have hinv := ackInv_reach hmode h
  have hdurable : b.toWal ∈ s.wal.durable := hinv.calls _ hb
  refine ⟨hdurable, fun kept maxOnDisk s' hnext ks => ?_⟩
  cases turbaStep_of_next hnext with
  | crash _ _ hsynced hle =>
    have hbegun : b ∈ s.begun := mem_map.mpr ⟨_, hb, rfl⟩
    exact hinv.origin.recorded_of_durable hbegun hdurable hsynced hle maxOnDisk ks

/-- A commit reads the flag while a checkpoint of the spatial tree has it off. -/
def ackedInCheckpoint : List TurbaLabel :=
  [.begin [spatialItem 1], .tree .spatial .checkpoint, .commit 0, .commit 0, .commit 0]

/-- The same with a major compaction. -/
def ackedInMajor : List TurbaLabel :=
  [.begin [spatialItem 1], .tree .spatial (.major false), .commit 0, .commit 0, .commit 0]

/-- Two commits append in the order opposite to that of their numbers, and a sync after each
rolls: both segments are called `journal.2.wal`. -/
def ackedRolledOver : List TurbaLabel :=
  [.begin [spatialItem 1], .begin [spatialItem 2], .commit 1, .commit 1, .sync, .sync, .sync,
    .commit 1, .commit 1, .commit 1, .commit 0, .commit 0, .sync, .sync]

/-- A batch was acknowledged in `s` and is not durable, and no item of it is in `s'`. -/
abbrev AckLost (s s' : TurbaState) : Prop :=
  ∃ c ∈ s.commits, c.stage = .returned ∧ c.batch.toWal ∉ s.wal.durable ∧
    ∀ item ∈ c.batch.items, ∀ x ∈ (s'.trees item.keyspace).tree.current.run, x.key ≠ item.key

theorem acked_batch_lost : [ackedInCheckpoint, ackedInMajor, ackedRolledOver].Forall fun ls =>
    (∀ l ∈ ls, l.commitsOrMaintains = true) ∧
      ∃ s s', (turbaSys (smallTurba .syncData 1)).run (turbaSys (smallTurba .syncData 1)).init ls =
          some s ∧
        (turbaSys (smallTurba .syncData 1)).next s (.crash s.wal.synced fun _ => 0) = some s' ∧
          AckLost s s' := by
  refine List.forall_iff_forall_mem.mpr fun ls hls => ⟨?_, exists_of_any_any ?_⟩ <;> revert ls <;>
    decide +kernel

/-- A commit that has read the flag before a checkpoint switches it off. -/
theorem acked_batches_recovered_checkpoint :
    ∃ s, (turbaSys (smallTurba .syncData 1)).Reach (AckGuard (smallTurba .syncData 1)) s ∧
      s.Acked ⟨1, [spatialItem 1]⟩ ∧
      (s.trees .spatial).tree.compactionEnabled = false ∧
      (Batch.mk 1 [spatialItem 1]).toWal ∈ s.wal.durable ∧
      ∀ kept maxOnDisk s',
        (turbaSys (smallTurba .syncData 1)).next s (.crash kept maxOnDisk) = some s' →
          ∀ ks, Present ((Batch.mk 1 [spatialItem 1]).toWal.entries ks).reverse
            (s'.trees ks).tree.recorded := by
  obtain ⟨s, hs, hacked, hflag⟩ :
      ∃ s, (turbaSys (smallTurba .syncData 1)).Reach (AckGuard (smallTurba .syncData 1)) s ∧
        (⟨⟨1, [spatialItem 1]⟩, .returned⟩ ∈ s.commits) ∧
          (s.trees .spatial).tree.compactionEnabled = false :=
    TransSys.exists_reach_of_runWith [.begin [spatialItem 1], .commit 0,
      .tree .spatial .checkpoint, .commit 0, .sync, .sync, .sync, .commit 0, .commit 0, .commit 0]
      (by decide +kernel)
  exact ⟨s, hs, hacked, hflag, acked_batches_recovered rfl hs hacked⟩

end XyzDB
