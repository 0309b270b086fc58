import XyzDB.Turba.Retention
import XyzDB.Turba.TurbaSys

/-!
# Pruning the journal

`wal_prune_watermark` takes a tree to be caught up when its durable counter has reached
what it has received, and then lets go of every segment as far as that tree is concerned.
But what a tree has received says nothing about batches that are in the journal and on
their way to it, and a durable counter that direct writes have raised is above the numbers
of commits that come later. So a prune can delete a segment with a batch that is in no
table (`unrecorded_segment_pruned`).

`PruneGuard` asks that the items of archived segments are in a tree when a prune reads what
the tree has received, that no segment is rolled while a prune is under way, and that the
trees keep their watermarks sound (`Retains`). Then whatever a prune deletes is in tables
that the manifests list (`pruned_entries_recorded`).
-/

namespace XyzDB

open List

section

variable (s : TurbaState)

/-- A commit inserts above everything that its tree has sealed. -/
def InsertsAbove : TurbaLabel → Prop
  | .commit i =>
    match s.commits[i]? with
    | some ⟨b, .inserting (item :: _)⟩ => AboveSealed (s.trees item.keyspace) (item.entry b.seqno)
    | _ => True
  | _ => True

instance (l : TurbaLabel) : Decidable (InsertsAbove s l) := by
  apply TurbaLabel.casesOn (motive := fun l => Decidable (InsertsAbove s l)) l <;> intros <;>
    dsimp only [InsertsAbove]
  case commit i => split <;> infer_instance
  all_goals infer_instance

/-- A prune that reads what a tree has received finds the items of all archived segments
inserted there. -/
def PruneReads : TurbaLabel → Prop
  | .prune i =>
    match s.prunes[i]? with
    | some (.load (ks :: _) _) =>
      ∀ f ∈ s.wal.archived, ∀ b ∈ f.2, ∀ e ∈ b.entries ks, e ∈ (s.trees ks).log
    | _ => True
  | _ => True

instance (l : TurbaLabel) : Decidable (PruneReads s l) := by
  unfold PruneReads
  split
  · split <;> infer_instance
  · infer_instance

section

variable (cfg : TurbaConfig)

/-- A sync that rolls finds no prune under way. -/
def RollsAlone (s : TurbaState) : TurbaLabel → Prop
  | .sync => s.sync.syncs = true → s.wal.rolls cfg.walSegmentMaxBytes = true →
      ∀ p ∈ s.prunes, p = .returned
  | .persist => s.wal.rolls cfg.walSegmentMaxBytes = true → ∀ p ∈ s.prunes, p = .returned
  | _ => True

instance (s : TurbaState) (l : TurbaLabel) : Decidable (RollsAlone cfg s l) := by
  unfold RollsAlone
  split <;> infer_instance

def PruneGuard (s : TurbaState) (l : TurbaLabel) : Prop :=
  InsertsAbove s l ∧ PruneReads s l ∧ RollsAlone cfg s l ∧ match l with
    | .tree ks l => RetainGuard (s.trees ks) l
    | _ => True

instance (s : TurbaState) (l : TurbaLabel) : Decidable (PruneGuard cfg s l) := by
  apply TurbaLabel.casesOn (motive := fun l => Decidable (PruneGuard cfg s l)) l <;> intros <;>
    dsimp only [PruneGuard] <;> infer_instance

end

/-- Of the segments up to the watermark, the trees not in `todo` have the items inserted and
declared durable. -/
def Passes (todo : List Keyspace) (watermark : ℕ) : Prop :=
  ∀ f ∈ s.wal.archived, f.1 ≤ watermark → ∀ ks, ks ∉ todo → ∀ b ∈ f.2, ∀ e ∈ b.entries ks,
    e ∈ (s.trees ks).log ∧ e.seqno ≤ (s.trees ks).tree.manifestDurableSeqno

/-- What a prune has made sure of. -/
def PruneCall.Sound : PruneCall → Prop
  | .load todo watermark => Passes s todo watermark
  | .compare ks received todo watermark => Passes s (ks :: todo) watermark ∧
      ∀ f ∈ s.wal.archived, ∀ b ∈ f.2, ∀ e ∈ b.entries ks, e ∈ (s.trees ks).log ∧ e.seqno ≤ received
  | .returned => True

end

/-- What a prune may remove is durable in the trees. -/
structure PruneInv (cfg : TurbaConfig) (s : TurbaState) : Prop where
  origin : Origin s
  trees : ∀ ks, Retains (cfg.trees ks).mergeOperator (s.base ks) (s.trees ks)
  prunes : ∀ p ∈ s.prunes, p.Sound s

/-- The log of a tree and its watermark have grown. -/
def TreeState.Grows (t t' : TreeState) : Prop :=
  t.log ⊆ t'.log ∧ t.tree.manifestDurableSeqno ≤ t'.tree.manifestDurableSeqno

variable {watermark : ℕ} {ks : Keyspace}

section

variable {cfg : TurbaConfig} {s s' : TurbaState} {l : TurbaLabel}

lemma TreeState.Grows.refl (t : TreeState) : t.Grows t := ⟨fun _ h => h, le_rfl⟩

lemma Passes.mono {todo : List Keyspace} (h : Passes s todo watermark)
    (harch : ∀ f ∈ s'.wal.archived, f ∈ s.wal.archived)
    (htrees : ∀ ks, (s.trees ks).Grows (s'.trees ks)) : Passes s' todo watermark := by
  intro f hf hle ks hks b hb e he
  obtain ⟨hlog, hdur⟩ := h f (harch f hf) hle ks hks b hb e he
  exact ⟨(htrees ks).1 hlog, hdur.trans (htrees ks).2⟩

lemma PruneCall.Sound.mono {p : PruneCall} (h : p.Sound s)
    (harch : ∀ f ∈ s'.wal.archived, f ∈ s.wal.archived)
    (htrees : ∀ ks, (s.trees ks).Grows (s'.trees ks)) : p.Sound s' := by
  cases p with
  | load todo watermark => exact Passes.mono h harch htrees
  | compare ks received todo watermark =>
    refine ⟨Passes.mono h.1 harch htrees, fun f hf b hb e he => ?_⟩
    obtain ⟨hlog, hle⟩ := h.2 f (harch f hf) b hb e he
    exact ⟨(htrees ks).1 hlog, hle⟩
  | returned => trivial

section

variable (h : PruneInv cfg s)

include h

variable (horigin : Origin s')

include horigin

lemma PruneInv.setTree {t : TreeState}
    (hretains : Retains (cfg.trees ks).mergeOperator (s.base ks) t)
    (hgrows : (s.trees ks).Grows t) (htrees : s'.trees = Function.update s.trees ks t)
    (hbase : s'.base = s.base) (hprunes : s'.prunes = s.prunes) (hwal : s'.wal = s.wal) :
    PruneInv cfg s' := by
  refine ⟨horigin, ?_, ?_⟩
  · rw [htrees, hbase]
    exact Function.forall_update_iff s.trees _ |>.mpr ⟨hretains, fun ks' _ => h.trees ks'⟩
  · rw [hprunes]
    refine fun p hp => (h.prunes p hp).mono (fun f hf => hwal ▸ hf) ?_
    rw [htrees]
    exact (Function.forall_update_iff s.trees fun ks' t' => (s.trees ks').Grows t').mpr
      ⟨hgrows, fun _ _ => .refl _⟩

lemma PruneInv.sync (htrees : s'.trees = s.trees)
    (hbase : s'.base = s.base) (hprunes : s'.prunes = s.prunes)
    (hwal : s'.wal = s.wal.sync cfg.walSegmentMaxBytes)
    (halone : s.wal.rolls cfg.walSegmentMaxBytes = true → ∀ p ∈ s.prunes, p = .returned) :
    PruneInv cfg s' := by
  refine ⟨horigin, by rw [htrees, hbase]; exact h.trees, fun p hp => ?_⟩
  rw [hprunes] at hp
  cases hroll : s.wal.rolls cfg.walSegmentMaxBytes with
  | false =>
    refine (h.prunes p hp).mono (fun f hf => ?_) fun ks => by rw [htrees]; exact .refl _
    rwa [hwal, Wal.sync, if_neg (Bool.eq_false_iff.mp hroll)] at hf
  | true =>
    rw [halone hroll p hp]
    trivial

lemma PruneInv.setPrune {i : ℕ} {p : PruneCall}
    (htrees : s'.trees = s.trees) (hbase : s'.base = s.base)
    (hprunes : s'.prunes = s.prunes.set i p)
    (harch : ∀ f ∈ s'.wal.archived, f ∈ s.wal.archived) (hp : p.Sound s) : PruneInv cfg s' := by
  refine ⟨horigin, ?_, ?_⟩
  · rw [htrees, hbase]
    exact h.trees
  · rw [hprunes]
    refine fun q hq => (forall_mem_set h.prunes hp q hq).mono harch fun ks => ?_
    rw [htrees]
    exact .refl _

end

/-- The bound of a tree is sound: what was received is durable, or it is the durable
counter itself. -/
lemma Passes.bound {received : ℕ} {todo : List Keyspace}
    (h : PruneCall.Sound s (.compare ks received todo watermark)) :
    Passes s todo (min watermark (pruneBound received (s.trees ks).tree.manifestDurableSeqno)) := by
  intro f hf hle ks' hks' b hb e he
  by_cases heq : ks' = ks
  · subst heq
    obtain ⟨hlog, hrec⟩ := h.2 f hf b hb e he
    refine ⟨hlog, ?_⟩
    by_cases hcaught : received ≤ (s.trees ks').tree.manifestDurableSeqno
    · exact hrec.trans hcaught
    · -- the tree lags: the name of the segment is at most its durable counter
      have hbound := hle.trans (Nat.min_le_right _ _)
      rw [pruneBound, if_neg hcaught] at hbound
      rw [WalBatch.seqno_of_mem_entries he]
      exact (s.wal.archived_le f hf b hb).trans hbound
  · refine h.1 f hf (hle.trans (Nat.min_le_left _ _)) ks' (fun hmem => ?_) b hb e he
    rcases mem_cons.mp hmem with hmem | hmem
    · exact heq hmem
    · exact hks' hmem

/-- **Step.** -/
theorem pruneInv_step (h : PruneInv cfg s) (hok : PruneGuard cfg s l)
    (hstep : TurbaStep cfg s l s') : PruneInv cfg s' := by
  have horigin := origin_step h.origin hstep
  obtain ⟨habove, hreads, halone, htree⟩ := hok
  cases hstep with
  | begin | stage | enrol | appendBuffered | syncLoad | syncStore =>
    exact ⟨horigin, h.trees, fun p hp => (h.prunes p hp).mono (fun _ hf => hf) fun _ => .refl _⟩
  | insert i b item todo hc =>
    -- the guard: the insert is above everything that its tree has sealed
    have hbase : s.base item.keyspace < (item.entry b.seqno).seqno :=
      h.origin.base_lt b (TurbaState.mem_begun hc) item.keyspace
    simp only [InsertsAbove, hc] at habove
    exact h.setTree horigin ((h.trees _).put hbase habove)
      ⟨fun x hx => .tail _ hx, le_rfl⟩ rfl rfl rfl rfl
  | syncIdle => exact h
  | syncWal pending hs => exact h.sync horigin rfl rfl rfl rfl (halone (by rw [hs]; rfl))
  | persist => exact h.sync horigin rfl rfl rfl rfl halone
  | tree ks l t _ hnext =>
    have hgrows : (s.trees ks).Grows t :=
      ⟨(treeStep_of_next hnext).log_subset,
        (markStep_of_next (isIngest_of_writesOrCheckpoints htree.1) hnext).durable_le⟩
    exact h.setTree horigin ((h.trees ks).step htree hnext) hgrows rfl rfl rfl rfl
  | setCompactionEnabled ks enabled =>
    have hretains := h.trees ks
    exact h.setTree (t := { s.trees ks with
        tree := (s.trees ks).tree.setCompactionEnabled enabled }) horigin
      ⟨hretains.mark, hretains.present, hretains.checkpointing, hretains.base_le,
        hretains.memory_le, hretains.manifest_le, hretains.next_le, hretains.listed,
        hretains.logged⟩
      ⟨fun _ hx => hx, le_rfl⟩ rfl rfl rfl rfl
  | beginPrune =>
    -- no keyspace has been looked at, and all of them are still to be
    refine ⟨horigin, h.trees, forall_mem_concat (fun p hp => ?_) fun f _ _ ks hks => ?_⟩
    · exact (h.prunes p hp).mono (fun _ hf => hf) fun _ => .refl _
    · exact absurd (Keyspace.mem_all ks) hks
  | pruneLoad i ks todo watermark hp =>
    -- the guard: the items of the archived segments are in the tree by now
    simp only [PruneReads, hp] at hreads
    refine h.setPrune horigin rfl rfl rfl (fun _ hf => hf)
      ⟨h.prunes _ (mem_of_getElem? hp), fun f hf b hb e he => ?_⟩
    exact ⟨hreads f hf b hb e he, (h.trees ks).log_le (hreads f hf b hb e he)⟩
  | pruneCompare i ks received todo watermark hp =>
    exact h.setPrune (p := .load _ _) horigin rfl rfl rfl (fun _ hf => hf)
      (Passes.bound (h.prunes _ (mem_of_getElem? hp)))
  | prune i watermark hp =>
    -- the frames that are left were there before
    exact h.setPrune (p := .returned) horigin rfl rfl rfl
      (fun _ hf => mem_of_mem_pruneSegments hf) trivial
  | crash kept maxOnDisk _ _ =>
    exact ⟨horigin, fun ks => retains_recover ks (h.trees ks).manifest_le _ _,
      fun _ hp => absurd hp not_mem_nil⟩

lemma pruneInv_init (cfg : TurbaConfig) : PruneInv cfg (turbaSys cfg).init :=
  ⟨origin_init cfg, fun _ => retains_empty, nofun⟩

lemma PruneInv.recorded (h : PruneInv cfg s) {i : ℕ}
    (hp : s.prunes[i]? = some (.load [] watermark)) {f : ℕ × List WalBatch}
    (hf : f ∈ s.wal.archived) (hle : f.1 ≤ watermark) {b : WalBatch} (hb : b ∈ f.2) {e : Entry}
    (he : e ∈ b.entries ks) :
    ∃ x ∈ (s.trees ks).tree.recorded, x.key = e.key ∧ x.seqno = e.seqno := by
  obtain ⟨hlog, hdur⟩ :=
    h.prunes _ (mem_of_getElem? hp) f hf hle ks not_mem_nil b hb e he
  exact (h.trees ks).recorded hlog hdur

end

/-- **Pruning is lossless.** In every guarded run, when a prune deletes an archived segment
every entry of it is in a table that the manifest of its keyspace lists. -/
theorem pruned_entries_recorded {cfg : TurbaConfig} {s s' : TurbaState}
    (h : (turbaSys cfg).Reach (PruneGuard cfg) s) {i : ℕ}
    (hnext : (turbaSys cfg).next s (.prune i) = some s') :
    ∀ f ∈ s.wal.archived, f ∉ s'.wal.archived → ∀ b ∈ f.2, ∀ ks, ∀ e ∈ b.entries ks,
      ∃ x ∈ (s'.trees ks).tree.recorded, x.key = e.key ∧ x.seqno = e.seqno := by
  have hinv : PruneInv cfg s := h.invariant (PruneInv cfg) (pruneInv_init cfg)
    fun _ _ _ hinv hok hnext => pruneInv_step hinv hok (turbaStep_of_next hnext)
  intro f hf hgone b hb ks e he
  cases turbaStep_of_next hnext with
  | pruneLoad | pruneCompare => exact absurd hf hgone
  | prune _ watermark hp =>
    have hle : f.1 ≤ watermark := by
      by_contra hlt
      exact hgone (mem_pruneSegments hf (Nat.lt_of_not_le hlt))
    exact hinv.recorded hp hf hle hb he

/-- A prune up to its last piece. -/
def pruneToEnd (i : ℕ) : List TurbaLabel := .beginPrune :: List.replicate 10 (.prune i)

/-- A commit whose batch is in an archived segment, before it inserts. -/
def archivedBatch : List TurbaLabel :=
  [.begin [spatialItem 1], .commit 0, .commit 0, .sync, .sync, .sync, .commit 0]

/-- All pieces of a flush of the spatial tree. -/
def spatialFlush : List TurbaLabel :=
  .tree .spatial .sealActive :: List.replicate 6 (.tree .spatial (.flush 0))

/-- The batch has not reached its tree when the prune reads the counters. -/
def prunedBeforeInsert : List TurbaLabel := archivedBatch ++ pruneToEnd 0

/-- Direct writes have raised the durable counter of the tree above the batch. -/
def prunedBelowDirect : List TurbaLabel :=
  [.tree .spatial (.insert [8] [0]), .tree .spatial (.insert [9] [0])] ++ spatialFlush ++
    archivedBatch ++ [.commit 0] ++ pruneToEnd 0

/-- The segment is rolled between the reads of the prune and its end. -/
def prunedAfterRoll : List TurbaLabel :=
  [.begin [spatialItem 1], .commit 0, .commit 0] ++ pruneToEnd 0 ++ [.sync, .sync, .sync, .commit 0]

/-- The step from `s` to `s'` deletes a segment with an entry that the manifest of its
keyspace neither lists nor shadows. -/
abbrev PrunesUnrecorded (s s' : TurbaState) : Prop :=
  ∃ f ∈ s.wal.archived, f ∉ s'.wal.archived ∧ ∃ b ∈ f.2, ∃ ks ∈ Keyspace.all, ∃ e ∈ b.entries ks,
    ∀ x ∈ (s'.trees ks).tree.recorded, x.key = e.key → x.seqno < e.seqno

theorem unrecorded_segment_pruned :
    [prunedBeforeInsert, prunedBelowDirect, prunedAfterRoll].Forall fun ls =>
    ∃ s s', (turbaSys (smallTurba .syncData 1)).run (turbaSys (smallTurba .syncData 1)).init ls =
          some s ∧
        (turbaSys (smallTurba .syncData 1)).next s (.prune 0) = some s' ∧
          PrunesUnrecorded s s' := by
  refine List.forall_iff_forall_mem.mpr fun ls hls =>
    @exists_of_any_any _ _ _ _ _ (fun s s' =>
      inferInstanceAs (Decidable (PrunesUnrecorded s s'))) ?_
  revert ls
  decide +kernel

/-- A batch is archived, inserted and flushed; the prune deletes its segment. -/
theorem pruned_entries_recorded_flushed :
    ∃ s s', (turbaSys (smallTurba .syncData 1)).Reach (PruneGuard (smallTurba .syncData 1)) s ∧
      (turbaSys (smallTurba .syncData 1)).next s (.prune 0) = some s' ∧
      s.wal.archived = [(1, [(Batch.mk 1 [spatialItem 1]).toWal])] ∧ s'.wal.archived = [] ∧
      ∀ f ∈ s.wal.archived, f ∉ s'.wal.archived → ∀ b ∈ f.2, ∀ ks, ∀ e ∈ b.entries ks,
        ∃ x ∈ (s'.trees ks).tree.recorded, x.key = e.key ∧ x.seqno = e.seqno := by
  obtain ⟨s, hs, harch, hnext⟩ :
      ∃ s, (turbaSys (smallTurba .syncData 1)).Reach (PruneGuard (smallTurba .syncData 1)) s ∧
        s.wal.archived = [(1, [(Batch.mk 1 [spatialItem 1]).toWal])] ∧
        ((turbaSys (smallTurba .syncData 1)).next s (.prune 0)).any
          (fun s' => decide (s'.wal.archived = [])) = true :=
    TransSys.exists_reach_of_runWith
      (archivedBatch ++ [.commit 0, .commit 0] ++ spatialFlush ++ pruneToEnd 0) (by decide +kernel)
  obtain ⟨s', hs', hgone⟩ := (Option.any_eq_true _ _).mp hnext
  exact ⟨s, s', hs, hs', harch, of_decide_eq_true hgone, pruned_entries_recorded hs hs'⟩

end XyzDB
