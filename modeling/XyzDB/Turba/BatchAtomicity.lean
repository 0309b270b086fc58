import XyzDB.Turba.PruneSafety

/-!
# Batches are recovered whole

The items of one batch go to several trees, and each tree is flushed and persists its
manifest on its own. Only the journal ties them together. When a tree persists an item whose
batch is not durable in the journal, as it may in the buffered mode, a crash leaves this item
and drops the others; the same happens when a prune deletes the segment of a batch too early
(`batch_torn`).

`AtomicGuard` asks that a manifest lists nothing new whose batch is not durable, and that
prunes and rolls behave. Then of every batch at every moment one of three things holds: it is
durable in the journal, all of its items are listed in manifests, or none is. In each case a
crash leaves all or nothing of it (`batches_atomic`).
-/

namespace XyzDB

open List Function TreeState TurbaState

variable {b : Batch} {ks : Keyspace} {kept : ℕ}

/-- Commits, syncs, prunes, crashes, and seals, flushes and checkpoints of the trees. There
are no direct writes, and compaction is not switched off. -/
def TurbaLabel.commitsOrFlushes : TurbaLabel → Bool
  | .begin _ | .commit _ | .sync | .persist | .beginPrune | .prune _ | .crash _ _ => true
  | .tree _ .sealActive | .tree _ (.flush _) | .tree _ .checkpoint | .tree _ .maint => true
  | _ => false

def Flush.persists : Flush → Bool
  | .persisting _ => true
  | _ => false

/-- The step writes the manifest. -/
def TreeState.persists (s : TreeState) : TreeLabel → Bool
  | .flush i => (s.flushes i).persists
  | .maint =>
    match s.maint with
    | .checkpointPersist _ | .persist _ => true
    | m => m.flush.persists
  | _ => false

/-- A version of the key of an entry with the number of the entry is among the others. -/
abbrev HasVersion (run : List Entry) (e : Entry) : Prop :=
  ∃ x ∈ run, x.key = e.key ∧ x.seqno = e.seqno

/-- A manifest that is written lists nothing new whose batch is not durable. -/
def PersistsDurable (s : TurbaState) : TurbaLabel → Prop
  | .tree ks l => (s.trees ks).persists l = true → ∀ b ∈ s.begun, ∀ e ∈ b.toWal.entries ks,
      HasVersion (s.trees ks).tree.current.version.run e →
        ¬ HasVersion (s.trees ks).tree.recorded e → b.toWal ∈ s.wal.durable
  | _ => True

instance (s : TurbaState) (l : TurbaLabel) : Decidable (PersistsDurable s l) := by
  apply TurbaLabel.casesOn (motive := fun l => Decidable (PersistsDurable s l)) l <;> intros <;>
    dsimp only [PersistsDurable] <;> infer_instance

def AtomicGuard (cfg : TurbaConfig) (s : TurbaState) (l : TurbaLabel) : Prop :=
  l.commitsOrFlushes = true ∧ FreshRolls cfg s l ∧ PersistsDurable s l ∧ PruneGuard cfg s l

instance (cfg : TurbaConfig) (s : TurbaState) (l : TurbaLabel) :
    Decidable (AtomicGuard cfg s l) := inferInstanceAs (Decidable (_ ∧ _ ∧ _ ∧ _))

section

variable {cfg : TreeConfig} {s s' : TreeState} {l : TreeLabel} {d : TreeData}

lemma TreeState.flushStep_manifest {f : Flush} (h : f.persists = false) :
    (s.flushStep cfg f).1.tree.manifest = s.tree.manifest := by
  cases f with
  | idle =>
    simp only [flushStep]
    split <;> rfl
  | persisting maxFlushed => cases h
  | persisted maxFlushed manifestPersisted => exact Tree.flushAdvance_manifest ..
  | _ => rfl

lemma TreeState.sealActive_manifest : s.sealActive.tree.manifest = s.tree.manifest := by
  simp only [sealActive, Tree.sealActive]
  split <;> rfl

lemma manifest_of_not_persists (hl : l.writesOrCheckpoints = true)
    (hm : s.maint.checkpointing = true) (hp : s.persists l = false)
    (hnext : (treeSys cfg).next s l = some s') : s'.tree.manifest = s.tree.manifest := by
  cases l with
  | insert | remove =>
    cases hnext
    rfl
  | sealActive =>
    cases hnext
    exact sealActive_manifest
  | flush i =>
    cases hnext
    exact flushStep_manifest hp
  | checkpoint =>
    simp only [treeSys] at hnext
    split at hnext <;> cases hnext
    rfl
  | maint =>
    change s.maintStep cfg s.maint = some s' at hnext
    simp only [persists] at hp
    cases hmaint : s.maint with
    | checkpointSeal was =>
      rw [hmaint] at hnext
      cases hnext
      exact sealActive_manifest
    | checkpointFlush was f =>
      rw [hmaint] at hnext hp
      cases hnext
      exact flushStep_manifest hp
    | checkpointPersist was =>
      rw [hmaint] at hp
      cases hp
    | checkpointCatchUp was | checkpointRestore was =>
      rw [hmaint] at hnext
      cases hnext
      rfl
    | idle =>
      rw [hmaint] at hnext
      cases hnext
    | _ =>
      rw [hmaint] at hm
      cases hm
  | _ => cases hl

lemma TreeStep.quiet_log (hstep : TreeStep cfg s l d) (he : s.entryOf l = none)
    (hl : l.isIngest = false) : d.log = s.log ∧ d.seqno = s.tree.seqno := by
  cases hstep with
  | put e he' =>
    rw [he] at he'
    cases he'
  | ingest entries heq =>
    subst heq
    cases hl
  | _ => exact ⟨rfl, rfl⟩

end

/-- The items that a commit has still to insert. -/
def CommitStage.todo : CommitStage → List BatchItem
  | .inserting todo => todo
  | _ => []

/-- Commits insert items of their batches. -/
def InsertsOwn (s : TurbaState) : Prop := ∀ c ∈ s.commits, c.stage.todo ⊆ c.batch.items

lemma insertsOwn_step (h : InsertsOwn s) (hstep : TurbaStep cfg s l s') : InsertsOwn s' := by
  cases hstep with
  | begin items hne => exact forall_mem_concat h nofun
  | stage i b stage stage' hc hmove =>
    refine forall_mem_set h ?_
    rcases hmove with ⟨-, rfl⟩ | ⟨-, -, rfl⟩ | ⟨-, -, -, rfl⟩ | ⟨-, rfl⟩
    · exact nofun
    · exact fun _ hx => hx
    · exact fun _ hx => hx
    · exact nofun
  | enrol i b hc _ => exact forall_mem_set h nofun
  | appendBuffered i b hc _ => exact forall_mem_set h fun _ hx => hx
  | insert i b item todo hc =>
    have hown := h _ (mem_of_getElem? hc)
    exact forall_mem_set h fun x hx => hown (.tail _ hx)
  | crash kept maxOnDisk _ _ => exact nofun
  | _ => exact h

/-! ### The invariant -/

/-- Every item of the batch is listed in a manifest. -/
def AllRecorded (s : TurbaState) (b : WalBatch) : Prop :=
  ∀ ks, ∀ e ∈ b.entries ks, HasVersion (s.trees ks).tree.recorded e

def NoneRecorded (s : TurbaState) (b : WalBatch) : Prop :=
  ∀ ks, ∀ e ∈ b.entries ks, ¬ HasVersion (s.trees ks).tree.recorded e

/-- A batch is durable in the log, or the listed tables have all of it or nothing. -/
structure AtomicInv (cfg : TurbaConfig) (s : TurbaState) : Prop where
  prune : PruneInv cfg s
  own : InsertsOwn s
  tree_le : ∀ ks, (s.trees ks).tree.seqno ≤ s.seqno
  logs : ∀ ks, ∀ e ∈ (s.trees ks).log, ∃ b ∈ s.begun, e ∈ b.toWal.entries ks
  batches : ∀ b ∈ s.begun, b.toWal ∈ s.wal.durable ∨ AllRecorded s b.toWal ∨ NoneRecorded s b.toWal

variable {x : Entry}

section

variable {cfg : TurbaConfig} {s s' : TurbaState} {l : TurbaLabel}

lemma AtomicInv.recorded_le (h : AtomicInv cfg s) (ks : Keyspace) :
    ∀ x ∈ (s.trees ks).tree.recorded, x.seqno ≤ s.seqno := fun x hx =>
  (((h.prune.trees ks).manifest_le x hx).trans (h.prune.trees ks).next_le).trans (h.tree_le ks)

lemma Batch.mem_entries {item : BatchItem} (h : item ∈ b.items) :
    item.entry b.seqno ∈ b.toWal.entries item.keyspace := by
  rw [Batch.entries_toWal]
  exact mem_map.mpr ⟨item, mem_filter.mpr ⟨h, decide_eq_true rfl⟩, rfl⟩

section

variable (h : AtomicInv cfg s)

include h

/-- **Growth.** Manifests list more, and the batches of what is new are durable. -/
theorem AtomicInv.grow (hprune : PruneInv cfg s') (hown : InsertsOwn s')
    (htree : ∀ ks, (s'.trees ks).tree.seqno ≤ s'.seqno)
    (hlogs : ∀ ks, ∀ e ∈ (s'.trees ks).log, ∃ b ∈ s'.begun, e ∈ b.toWal.entries ks)
    (hbegun : s'.begun = s.begun) (hdurable : ∀ b ∈ s.wal.durable, b ∈ s'.wal.durable)
    (hrecorded : ∀ ks, ∀ x ∈ (s.trees ks).tree.recorded, x ∈ (s'.trees ks).tree.recorded)
    (hnew : ∀ b ∈ s.begun, ∀ ks, ∀ e ∈ b.toWal.entries ks,
      HasVersion (s'.trees ks).tree.recorded e → ¬ HasVersion (s.trees ks).tree.recorded e →
        b.toWal ∈ s.wal.durable) : AtomicInv cfg s' := by
  refine ⟨hprune, hown, htree, hlogs, fun b hb => ?_⟩
  rw [hbegun] at hb
  rcases h.batches b hb with hdur | hall | hnone
  · exact .inl (hdurable _ hdur)
  · refine .inr (.inl fun ks e he => ?_)
    obtain ⟨x, hx, hsame⟩ := hall ks e he
    exact ⟨x, hrecorded ks x hx, hsame⟩
  · by_cases hnone' : NoneRecorded s' b.toWal
    · exact .inr (.inr hnone')
    · -- something of it is new
      simp only [NoneRecorded, not_forall, not_not] at hnone'
      obtain ⟨ks, e, he, hhas⟩ := hnone'
      exact .inl (hdurable _ (hnew b hb ks e he hhas (hnone ks e he)))

lemma AtomicInv.keep (hprune : PruneInv cfg s') (hown : InsertsOwn s')
    (htrees : s'.trees = s.trees) (hseq : s'.seqno = s.seqno) (hbegun : s'.begun = s.begun)
    (hdurable : ∀ b ∈ s.wal.durable, b ∈ s'.wal.durable) : AtomicInv cfg s' := by
  cases s'
  cases htrees
  cases hseq
  exact h.grow hprune hown h.tree_le (hbegun ▸ h.logs) hbegun hdurable (fun _ _ hx => hx)
    fun _ _ _ _ _ hhas hnot => absurd hhas hnot

lemma AtomicInv.begin {items : List BatchItem} (hprune : PruneInv cfg { s with
      seqno := s.seqno + 1
      commits := s.commits ++ [⟨⟨s.seqno + 1, items⟩, .drawn⟩] })
    (hown : InsertsOwn { s with
      seqno := s.seqno + 1
      commits := s.commits ++ [⟨⟨s.seqno + 1, items⟩, .drawn⟩] }) :
    AtomicInv cfg { s with
      seqno := s.seqno + 1
      commits := s.commits ++ [⟨⟨s.seqno + 1, items⟩, .drawn⟩] } := by
  have hbegun : (s.commits ++ [CommitCall.mk ⟨s.seqno + 1, items⟩ .drawn]).map CommitCall.batch =
      s.begun ++ [⟨s.seqno + 1, items⟩] := map_append
  refine ⟨hprune, hown, fun ks => (h.tree_le ks).trans (Nat.le_succ _), fun ks e he => ?_, ?_⟩
  · obtain ⟨b, hb, heb⟩ := h.logs ks e he
    refine ⟨b, ?_, heb⟩
    change b ∈ List.map _ _
    rw [hbegun]
    exact mem_append_left _ hb
  · change ∀ b ∈ List.map _ _, _
    rw [hbegun]
    refine forall_mem_concat h.batches (.inr (.inr fun ks e he ⟨x, hx, _, hseq⟩ => ?_))
    have hle := h.recorded_le ks x hx
    rw [hseq, WalBatch.seqno_of_mem_entries he] at hle
    exact absurd hle (Nat.not_succ_le_self _)

lemma AtomicInv.insert {i : ℕ} {item : BatchItem} {stage : CommitStage}
    (hb : b ∈ s.begun) (hitem : item ∈ b.items) (hbegun : (s.setStage i b stage).begun = s.begun)
    (hprune : PruneInv cfg ((s.setStage i b stage).setTree item.keyspace
      ((s.trees item.keyspace).put (item.entry b.seqno))))
    (hown : InsertsOwn (s.setStage i b stage)) :
    AtomicInv cfg ((s.setStage i b stage).setTree item.keyspace
      ((s.trees item.keyspace).put (item.entry b.seqno))) := by
  have hrecorded : ∀ ks, (((s.setStage i b stage).setTree item.keyspace
      ((s.trees item.keyspace).put (item.entry b.seqno))).trees ks).tree.recorded =
        (s.trees ks).tree.recorded :=
    (forall_update_iff s.trees
      fun ks t => t.tree.recorded = (s.trees ks).tree.recorded).mpr ⟨rfl, fun _ _ => rfl⟩
  refine h.grow hprune hown ?_ ?_ hbegun (fun _ hc => hc) (fun ks x hx => hrecorded ks ▸ hx)
    fun c _ ks e _ hhas hnot => absurd (hrecorded ks ▸ hhas) hnot
  · refine (forall_update_iff s.trees fun _ t => t.tree.seqno ≤ s.seqno).mpr
      ⟨?_, fun ks _ => h.tree_le ks⟩
    exact Nat.max_le.mpr ⟨h.tree_le _, h.prune.origin.le_seqno b hb⟩
  · rw [show ((s.setStage i b stage).setTree item.keyspace
      ((s.trees item.keyspace).put (item.entry b.seqno))).begun = s.begun from hbegun]
    refine (forall_update_iff s.trees fun ks t => ∀ e ∈ t.log, ∃ c ∈ s.begun,
      e ∈ c.toWal.entries ks).mpr ⟨fun e he => ?_, fun ks _ => h.logs ks⟩
    rcases mem_cons.mp he with rfl | he
    · exact ⟨b, hb, Batch.mem_entries hitem⟩
    · exact h.logs _ e he

lemma AtomicInv.tree {l : TreeLabel} {t : TreeState}
    (hl : l.writesOrCheckpoints = true) (he : (s.trees ks).entryOf l = none)
    (hnext : (treeSys (cfg.trees ks)).next (s.trees ks) l = some t)
    (hdurable : PersistsDurable s (.tree ks l)) (hprune : PruneInv cfg (s.setTree ks t)) :
    AtomicInv cfg (s.setTree ks t) := by
  have hretains := h.prune.trees ks
  have hingest := isIngest_of_writesOrCheckpoints hl
  have hquiet : t.log = (s.trees ks).log ∧ t.tree.seqno = (s.trees ks).tree.seqno :=
    (treeStep_of_next hnext).quiet_log he hingest
  -- the manifest is the old one, or lists the tables there are
  have hmanifest : t.tree.recorded = (s.trees ks).tree.recorded ∨ ((s.trees ks).persists l = true ∧
        t.tree.recorded = (s.trees ks).tree.current.version.run) := by
    cases hp : (s.trees ks).persists l with
    | false =>
      have := manifest_of_not_persists hl hretains.checkpointing hp hnext
      exact .inl (congrArg manifestRun this)
    | true =>
      rcases (markStep_of_next hingest hnext).manifest with heq | heq
      · exact .inl (congrArg manifestRun heq)
      · exact .inr ⟨rfl, congrArg manifestRun heq⟩
  refine h.grow hprune h.own ?_ ?_ rfl (fun _ hc => hc) ?_ ?_
  · exact (forall_update_iff s.trees fun _ t => t.tree.seqno ≤ s.seqno).mpr
      ⟨hquiet.2.trans_le (h.tree_le ks), fun ks' _ => h.tree_le ks'⟩
  · refine (forall_update_iff s.trees fun ks t => ∀ e ∈ t.log, ∃ c ∈ s.begun,
      e ∈ c.toWal.entries ks).mpr ⟨?_, fun ks' _ => h.logs ks'⟩
    rw [hquiet.1]
    exact h.logs ks
  · refine (forall_update_iff s.trees fun ks t => ∀ x ∈ (s.trees ks).tree.recorded,
      x ∈ t.tree.recorded).mpr ⟨fun x hx => ?_, fun _ _ _ hx => hx⟩
    rcases hmanifest with heq | ⟨-, heq⟩
    · rw [heq]
      exact hx
    · rw [heq]
      exact hretains.listed x hx
  · intro b hb
    refine (forall_update_iff s.trees fun ks t => ∀ e ∈ b.toWal.entries ks,
      HasVersion t.tree.recorded e → ¬ HasVersion (s.trees ks).tree.recorded e →
        b.toWal ∈ s.wal.durable).mpr
      ⟨fun e he hhas hnot => ?_, fun _ _ _ _ hhas hnot => absurd hhas hnot⟩
    rcases hmanifest with heq | ⟨hp, heq⟩
    · rw [heq] at hhas
      exact absurd hhas hnot
    · rw [heq] at hhas
      exact hdurable hp b hb e he hhas hnot

lemma AtomicInv.pruned {i watermark : ℕ} (hp : s.prunes[i]? = some (.load [] watermark))
    (hprune : PruneInv cfg { s with
      wal := s.wal.prune watermark, prunes := s.prunes.set i .returned }) :
    AtomicInv cfg { s with
      wal := s.wal.prune watermark, prunes := s.prunes.set i .returned } := by
  refine ⟨hprune, h.own, h.tree_le, h.logs, fun b hb => ?_⟩
  rcases h.batches b hb with hdur | hall | hnone
  · rcases Wal.durable_prune watermark hdur with hdur | ⟨f, hf, hle, hbf⟩
    · exact .inl hdur
    · exact .inr (.inl fun ks e he => h.prune.recorded hp hf hle hbf he)
  · exact .inr (.inl hall)
  · exact .inr (.inr hnone)

/-- **Step.** -/
theorem atomicInv_step (hok : AtomicGuard cfg s l)
    (hstep : TurbaStep cfg s l s') : AtomicInv cfg s' := by
  obtain ⟨hlabel, hfresh, hdurable, hguard⟩ := hok
  have hprune := pruneInv_step h.prune hguard hstep
  have hown := insertsOwn_step h.own hstep
  cases hstep with
  | begin items hne => exact h.begin hprune hown
  | stage i b stage stage' hc _ => exact h.keep hprune hown rfl rfl (begun_set hc) fun _ hb => hb
  | enrol i b hc _ | appendBuffered i b hc _ =>
    exact h.keep hprune hown rfl rfl (begun_set hc) fun _ hb => (Wal.durable_append _).symm ▸ hb
  | insert i b item todo hc =>
    have hitem : item ∈ b.items :=
      h.own _ (mem_of_getElem? hc) mem_cons_self
    exact h.insert (mem_begun hc) hitem (begun_set hc) hprune hown
  | syncIdle => exact h
  | syncLoad | syncStore | beginPrune | pruneLoad | pruneCompare =>
    exact h.keep hprune hown rfl rfl rfl fun _ hb => hb
  | syncWal pending hs =>
    exact h.keep hprune hown rfl rfl rfl fun _ hb =>
      (hfresh (by rw [hs]; rfl)).durable_sync (Wal.durable_subset hb)
  | persist =>
    exact h.keep hprune hown rfl rfl rfl fun _ hb => hfresh.durable_sync (Wal.durable_subset hb)
  | tree ks l t _ hnext =>
    have hentry : (s.trees ks).entryOf l = none := by cases l <;> first | rfl | cases hlabel
    exact h.tree hguard.2.2.2.1 hentry hnext hdurable hprune
  | setCompactionEnabled ks enabled => cases hlabel
  | prune i watermark hp => exact h.pruned hp hprune
  | crash kept maxOnDisk _ _ => exact ⟨hprune, nofun, hprune.origin.base_le, nofun, nofun⟩

end

lemma atomicInv_reach (h : (turbaSys cfg).Reach (AtomicGuard cfg) s) : AtomicInv cfg s :=
  h.invariant (AtomicInv cfg) ⟨pruneInv_init cfg, nofun, fun _ => le_rfl, nofun, nofun⟩
    fun _ _ _ hinv hok hnext => atomicInv_step hinv hok (turbaStep_of_next hnext)

/-! ### After a crash -/

lemma TurbaState.mem_run_reopen {recovered : List WalBatch} {maxOnDisk : Keyspace → ℕ} :
    x ∈ ((s.reopen cfg recovered maxOnDisk).trees ks).tree.current.run ↔
      x ∈ (replayed ks recovered).entries ∨ x ∈ (s.trees ks).tree.recorded := by
  change x ∈ (Tree.recover (cfg.trees ks) ks (s.trees ks).tree.manifest (maxOnDisk ks)
    recovered).current.run ↔ _
  have hrun : ∀ v : Version, (SuperVersion.mk Memtable.new [] v).run = v.run := fun _ => rfl
  rw [Tree.recover_current, hrun, Tree.recover_run, mem_append, Version.mem_loaded_run]
  rfl

/-- All items of a batch are there. -/
def Whole (s : TurbaState) (b : Batch) : Prop :=
  ∀ item ∈ b.items, HasVersion (s.trees item.keyspace).tree.current.run (item.entry b.seqno)

/-- No item of a batch is there. -/
def Absent (s : TurbaState) (b : Batch) : Prop :=
  ∀ item ∈ b.items, ¬ HasVersion (s.trees item.keyspace).tree.current.run (item.entry b.seqno)

variable (hb : b ∈ s.begun) (hle : kept ≤ s.wal.active.length)

include hb hle

lemma Origin.whole (h : Origin s)
    (hrec : b.toWal ∈ s.wal.recovered kept) (maxOnDisk : Keyspace → ℕ) :
    Whole (s.reopen cfg (s.wal.recovered kept) maxOnDisk) b := by
  intro item hitem
  have hpresent := present_batch item.keyspace hrec fun c hc heq =>
    h.eq_toWal hb (Wal.recovered_mono hle hc) heq
  obtain ⟨x, hx, hsame⟩ :=
    hpresent.exists_mem (mem_reverse.mpr (Batch.mem_entries hitem))
  exact ⟨x, mem_run_reopen.mpr (.inl hx), hsame⟩

lemma Origin.mem_replayed (h : Origin s)
    (hx : x ∈ (replayed ks (s.wal.recovered kept)).entries) (hseq : x.seqno = b.seqno) :
    b.toWal ∈ s.wal.recovered kept ∧ x ∈ b.toWal.entries ks := by
  obtain ⟨c, hc, hxc⟩ := mem_flatMap.mp (mem_replayEntries hx)
  have heq := h.eq_toWal hb (Wal.recovered_mono hle hc)
    ((WalBatch.seqno_of_mem_entries hxc).symm.trans hseq)
  exact heq ▸ ⟨hc, hxc⟩

lemma AtomicInv.whole_or_absent (h : AtomicInv cfg s) (hsynced : s.wal.synced ≤ kept)
    (maxOnDisk : Keyspace → ℕ) : Whole (s.reopen cfg (s.wal.recovered kept) maxOnDisk) b ∨
      Absent (s.reopen cfg (s.wal.recovered kept) maxOnDisk) b := by
  have horigin := h.prune.origin
  by_cases hrec : b.toWal ∈ s.wal.recovered kept
  · exact .inl (horigin.whole hb hle hrec maxOnDisk)
  rcases h.batches b hb with hdur | hall | hnone
  · exact absurd (Wal.recovered_mono hsynced hdur) hrec
  · refine .inl fun item hitem => ?_
    obtain ⟨x, hx, hsame⟩ := hall item.keyspace _ (Batch.mem_entries hitem)
    exact ⟨x, mem_run_reopen.mpr (.inr hx), hsame⟩
  · refine .inr fun item hitem ⟨x, hx, hkey, hseq⟩ => ?_
    rcases mem_run_reopen.mp hx with hx | hx
    · exact hrec (horigin.mem_replayed hb hle hx hseq).1
    · exact hnone item.keyspace _ (Batch.mem_entries hitem) ⟨x, hx, hkey, hseq⟩

lemma AtomicInv.mem_entries (h : AtomicInv cfg s) {maxOnDisk : Keyspace → ℕ}
    (hx : x ∈ ((s.reopen cfg (s.wal.recovered kept) maxOnDisk).trees ks).tree.current.run)
    (hseq : x.seqno = b.seqno) : x ∈ b.toWal.entries ks := by
  have horigin := h.prune.origin
  rcases mem_run_reopen.mp hx with hx | hx
  · exact (horigin.mem_replayed hb hle hx hseq).2
  · -- it is in a table, above the number at which the tree was opened, so it was inserted since
    have hretains := h.prune.trees ks
    obtain ⟨t, ht, hxt⟩ := Version.mem_run.mp (hretains.listed x hx)
    have hlog := hretains.logged x (SuperVersion.mem_run.mpr (.inr (.inr ⟨t, ht, hxt⟩)))
      (hseq ▸ horigin.base_lt b hb ks)
    obtain ⟨c, hc, hxc⟩ := h.logs ks x hlog
    have hcb : c = b := horigin.eq_of_seqno hc hb
      ((WalBatch.seqno_of_mem_entries hxc).symm.trans hseq)
    exact hcb ▸ hxc

end

/-- **Batches are crash-atomic.** In every guarded run, in both persist modes, when the engine
crashes and is opened again all items of a batch are there or none is, for every batch that
was begun since the engine was opened last. What carries the number of a batch is an item of
it, and what the manifests listed is kept. -/
theorem batches_atomic {cfg : TurbaConfig} {s s' : TurbaState}
    (h : (turbaSys cfg).Reach (AtomicGuard cfg) s) {kept : ℕ} {maxOnDisk : Keyspace → ℕ}
    (hnext : (turbaSys cfg).next s (.crash kept maxOnDisk) = some s') :
    (∀ b ∈ s.begun, (Whole s' b ∨ Absent s' b) ∧
      ∀ ks, ∀ x ∈ (s'.trees ks).tree.current.run, x.seqno = b.seqno → x ∈ b.toWal.entries ks) ∧
    ∀ ks, ∀ x ∈ (s.trees ks).tree.recorded, x ∈ (s'.trees ks).tree.current.run := by
  have hinv := atomicInv_reach h
  cases turbaStep_of_next hnext with
  | crash _ _ hsynced hle =>
    exact ⟨fun b hb => ⟨hinv.whole_or_absent hb hle hsynced maxOnDisk,
      fun ks x hx hseq => hinv.mem_entries hb hle hx hseq⟩,
      fun ks x hx => mem_run_reopen.mpr (.inr hx)⟩

/-- One item of the identity keyspace. -/
def identityItem (k : UInt8) : BatchItem := ⟨.identity, [k], [6], .value⟩

/-- The buffered mode: the spatial tree is flushed before the journal is synced. -/
def tornUnsynced : List TurbaLabel :=
  [.begin [spatialItem 1, identityItem 1], .commit 0, .commit 0, .commit 0, .commit 0, .commit 0] ++
    spatialFlush

/-- A sync has archived the batch; a prune deletes the segment before the second item is
inserted. -/
def tornPruned : List TurbaLabel :=
  [.begin [spatialItem 1, identityItem 1], .commit 0, .commit 0, .persist, .commit 0] ++
    spatialFlush ++ pruneToEnd 0 ++ [.prune 0, .commit 0, .commit 0]

/-- Of a batch of `s` an item is in `s'` and another is not. -/
abbrev BatchTorn (s s' : TurbaState) : Prop :=
  ∃ b ∈ s.begun,
    (∃ item ∈ b.items, HasVersion (s'.trees item.keyspace).tree.current.run (item.entry b.seqno)) ∧
      ∃ item ∈ b.items, ∀ x ∈ (s'.trees item.keyspace).tree.current.run, x.key ≠ item.key

theorem batch_torn : [tornUnsynced, tornPruned].Forall fun ls =>
    (∀ l ∈ ls, l.commitsOrFlushes = true) ∧
      ∃ s s', (turbaSys (smallTurba .buffer 1)).run (turbaSys (smallTurba .buffer 1)).init ls =
          some s ∧
        (turbaSys (smallTurba .buffer 1)).next s (.crash s.wal.synced fun _ => 0) = some s' ∧
          BatchTorn s s' := by
  refine List.forall_iff_forall_mem.mpr fun ls hls => ⟨?_, exists_of_any_any ?_⟩ <;> revert ls <;>
    decide +kernel

/-- The journal is synced before the spatial tree is flushed. -/
theorem batches_atomic_synced :
    ∃ s s', (turbaSys (smallTurba .buffer 4096)).Reach (AtomicGuard (smallTurba .buffer 4096)) s ∧
      (turbaSys (smallTurba .buffer 4096)).next s (.crash 1 fun _ => 0) = some s' ∧
      s.begun = [⟨1, [spatialItem 1, identityItem 1]⟩] ∧
      (s.trees .spatial).tree.recorded.length = 1 ∧
      (∀ b ∈ s.begun, (Whole s' b ∨ Absent s' b) ∧
        ∀ ks, ∀ x ∈ (s'.trees ks).tree.current.run, x.seqno = b.seqno → x ∈ b.toWal.entries ks) ∧
      ∀ ks, ∀ x ∈ (s.trees ks).tree.recorded, x ∈ (s'.trees ks).tree.current.run := by
  obtain ⟨s, hs, hbegun, hlen, hnext⟩ : ∃ s, (turbaSys (smallTurba .buffer 4096)).Reach
      (AtomicGuard (smallTurba .buffer 4096)) s ∧ s.begun = [⟨1, [spatialItem 1, identityItem 1]⟩] ∧
        (s.trees .spatial).tree.recorded.length = 1 ∧
        ((turbaSys (smallTurba .buffer 4096)).next s (.crash 1 fun _ => 0)).isSome = true :=
    TransSys.exists_reach_of_runWith ([.begin [spatialItem 1, identityItem 1], .commit 0,
      .commit 0, .commit 0, .commit 0, .commit 0, .persist] ++ spatialFlush) (by decide +kernel)
  obtain ⟨s', hs'⟩ := Option.isSome_iff_exists.mp hnext
  exact ⟨s, s', hs, hs', hbegun, hlen, batches_atomic hs hs'⟩

end XyzDB
