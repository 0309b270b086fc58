import XyzDB.Turba.Recovery
import XyzDB.Turba.Watermark

/-!
# What a tree retains while nothing is compacted

Without compactions and ingests no version of a key goes away: what was inserted is in
memory or in a table, and up to `manifest_durable_seqno` it is in a table that the manifest
lists. `Retains` is that for a tree that was opened when its counter stood at `base`; it
holds after `open` (`retains_recover`) and is kept by guarded steps of the tree
(`Retains.step`) and by writes of commits (`Retains.put`).

A direct write needs no guard: it draws the number after the highest the tree has seen.
-/

namespace XyzDB

open List SuperVersion TreeState XyzDB.Tree

/-- Direct writes, seals, flushes and checkpoints. -/
def TreeLabel.writesOrCheckpoints : TreeLabel → Bool
  | .insert _ _ | .remove _ | .sealActive | .flush _ | .checkpoint | .maint => true
  | _ => false

/-- The holder of the compaction lock is at a checkpoint, if there is one. -/
def Maint.checkpointing : Maint → Bool
  | .idle | .checkpointSeal _ | .checkpointFlush _ _ | .checkpointPersist _
  | .checkpointCatchUp _ | .checkpointRestore _ => true
  | _ => false

/-- A flush installs with nothing dropped since its snapshot, and a checkpoint raises the
watermark while every table of the version is listed. -/
def RetainGuard (s : TreeState) (l : TreeLabel) : Prop :=
  l.writesOrCheckpoints = true ∧ SoleInstall s l ∧ match l with
    | .maint => s.maint.catchesUp = true → VersionListed s
    | _ => True

instance (s : TreeState) (l : TreeLabel) : Decidable (RetainGuard s l) := by
  unfold RetainGuard
  split <;> infer_instance

variable {e : Entry}

section

variable {cfg : TreeConfig} {s s' : TreeState} {l : TreeLabel} {d : TreeData}

lemma pending_of_checkpointing {m : Maint} (h : m.checkpointing = true) : m.pending = none := by
  cases m <;> first | rfl | cases h

lemma roundOf_of_checkpointing (h : s.maint.checkpointing = true)
    (hl : l.writesOrCheckpoints = true) : s.roundOf cfg l = none := by
  cases l with
  | maint =>
    simp only [roundOf]
    split
    · next hm =>
      rw [hm] at h
      cases h
    · rfl
  | maybeCompact => cases hl
  | _ => rfl

lemma isIngest_of_writesOrCheckpoints (hl : l.writesOrCheckpoints = true) : l.isIngest = false := by
  cases l <;> first | rfl | cases hl

lemma checkpointing_step (h : s.maint.checkpointing = true)
    (hl : l.writesOrCheckpoints = true) (hnext : (treeSys cfg).next s l = some s') :
    s'.maint.checkpointing = true := by
  cases l with
  | insert | remove | sealActive =>
    cases hnext
    exact h
  | flush i =>
    cases hnext
    have hmaint := (flushStep_frame cfg s (s.flushes i)).2
    rw [hmaint]
    exact h
  | checkpoint =>
    simp only [treeSys] at hnext
    split at hnext <;> cases hnext
    rfl
  | maint =>
    change s.maintStep cfg s.maint = some s' at hnext
    cases hm : s.maint with
    | checkpointFlush was f =>
      rw [hm] at hnext
      cases hnext
      simp only [maintFlush]
      cases (s.flushStep cfg f).2 <;> rfl
    | checkpointSeal was | checkpointPersist was | checkpointCatchUp was | checkpointRestore was =>
      rw [hm] at hnext
      cases hnext
      rfl
    | idle =>
      rw [hm] at hnext
      cases hnext
    | _ =>
      rw [hm] at h
      cases h
  | _ => cases hl

lemma TreeState.seqno_of_entryOf (hl : ∀ c, l ≠ .commitInsert c) (he : s.entryOf l = some e) :
    e.seqno = s.tree.seqno + 1 := by
  cases l with
  | insert | remove =>
    cases he
    rfl
  | commitInsert c => exact absurd rfl (hl c)
  | _ => cases he

lemma SoleInstall.installGuard (h : SoleInstall s l) : InstallGuard s l := by
  unfold SoleInstall at h
  unfold InstallGuard
  split
  · next hjob =>
    rw [hjob] at h
    exact .inr h
  · trivial

lemma TreeStep.log_subset (hstep : TreeStep cfg s l d) : s.log ⊆ d.log := by
  cases hstep with
  | put e he => exact fun x hx => .tail _ hx
  | _ => exact fun x hx => hx

lemma TreeStep.version_subset (hstep : TreeStep cfg s l d) (hc : s.maint.pending = none)
    (hl : l.isIngest = false) : ∀ x ∈ s.tree.current.version.run, x ∈ d.current.version.run := by
  intro x hx
  cases hstep with
  | install o ho job tables hjob htables =>
    change x ∈ (s.tree.current.version.withNewL0Tables tables).run
    rw [Version.run_withNewL0Tables]
    exact mem_append_right _ hx
  | ingest entries heq =>
    subst heq
    cases hl
  | applyMove task hp | applyCompact task outs hp =>
    rw [hc] at hp
    cases hp
  | _ => exact hx

lemma TreeState.mem_run_put {x : Entry} (hx : x ∈ (s.put e).tree.current.run) :
    x = e ∨ x ∈ s.tree.current.run := by
  rcases mem_run.mp hx with hx | hx
  · exact (mem_of_mem_insertEntry hx).imp_right fun hx => mem_run.mpr (.inl hx)
  · exact .inr (mem_run.mpr (.inr hx))

lemma TreeStep.mem_run (hstep : TreeStep cfg s l d) (hflush : FlushInv s.data)
    (hc : s.maint.pending = none) (hl : l.isIngest = false) (hsole : SoleInstall s l) {x : Entry}
    (hx : x ∈ d.current.run) : x ∈ s.tree.current.run ∨ x ∈ d.log := by
  cases hstep with
  | put e he =>
    rcases mem_run_put hx with rfl | hx
    · exact .inr mem_cons_self
    · exact .inl hx
  | sealActive hne =>
    refine .inl ?_
    rw [← run_seal]
    exact hx
  | install o ho job tables hjob htables =>
    have hrun := hflush.run_install hjob htables (hsole.install ho hjob htables)
    exact .inl (hrun ▸ hx)
  | ingest entries heq =>
    subst heq
    cases hl
  | applyMove task hp | applyCompact task outs hp =>
    rw [hc] at hp
    cases hp
  | _ => exact .inl hx

lemma MarkStep.durable_le (hstep : MarkStep s l s') :
    s.tree.manifestDurableSeqno ≤ s'.tree.manifestDurableSeqno := by
  change s.marks.durable ≤ s'.marks.durable
  cases hstep with
  | keep hmarks | install o job tables ho hjob htables hsealed hdrops hmarks => rw [hmarks]
  | flushPersist o maxFlushed hmax hcurrent hmarks | persist hcurrent hmarks => rw [hmarks]
  | advance o maxFlushed manifestPersisted hmax hper hmarks =>
    rw [hmarks]
    split
    · exact le_max_left ..
    · exact le_rfl
  | catchUp hl hcatch hcurrent hmarks =>
    rw [hmarks]
    exact le_max_left ..

lemma MarkStep.manifest (hstep : MarkStep s l s') : s'.tree.manifest = s.tree.manifest ∨
    s'.tree.manifest = s.tree.persistManifest.manifest := by
  change s'.marks.manifest = s.marks.manifest ∨ s'.marks.manifest = _
  cases hstep with
  | keep hmarks | install o job tables ho hjob htables hsealed hdrops hmarks =>
    exact .inl (by rw [hmarks])
  | flushPersist o maxFlushed hmax hcurrent hmarks | persist hcurrent hmarks =>
    exact .inr (by rw [hmarks])
  | advance o maxFlushed manifestPersisted hmax hper hmarks | catchUp hl hcatch hcurrent hmarks =>
    exact .inl (by rw [hmarks])

end

/-- Everything in memory, and whatever was sealed, is at most the counter. -/
def TreeData.MemoryLE (d : TreeData) : Prop :=
  ∀ m ∈ d.sealedLog ++ [d.current.active], ∀ x ∈ m.entries, x.seqno ≤ d.seqno

/-- A tree that was opened at `base` and has lost nothing since. -/
structure Retains (op : Option MergeOperator) (base : ℕ) (s : TreeState) : Prop where
  mark : WatermarkInv op base s.data s.marks
  present : Present s.log s.tree.current.run
  checkpointing : s.maint.checkpointing = true
  base_le : base ≤ s.tree.seqno
  memory_le : s.data.MemoryLE
  manifest_le : ∀ x ∈ manifestRun s.tree.manifest,
    x.seqno ≤ (s.tree.manifest.map Manifest.nextSeqno).getD 0
  next_le : (s.tree.manifest.map Manifest.nextSeqno).getD 0 ≤ s.tree.seqno
  /-- Tables stay where they are. -/
  listed : ∀ x ∈ manifestRun s.tree.manifest, x ∈ s.tree.current.version.run
  /-- What has come in since the tree was opened is in the log. -/
  logged : ∀ x ∈ s.tree.current.run, base < x.seqno → x ∈ s.log

section

variable {cfg : TreeConfig} {op : Option MergeOperator} {base : ℕ} {s s' : TreeState}
  {l : TreeLabel} {d : TreeData}

section

variable (h : Retains op base s)

include h

lemma Retains.version_le : ∀ x ∈ s.tree.current.version.run, x.seqno ≤ s.tree.seqno := by
  intro x hx
  rcases h.mark.settled.version x hx with hle | ⟨m, hm, y, hy, hle⟩
  · exact hle.trans h.base_le
  · exact hle.trans (h.memory_le m (mem_append_left _ (mem_of_mem_take hm)) y hy)

lemma Retains.run_le : ∀ x ∈ s.tree.current.run, x.seqno ≤ s.tree.seqno := by
  intro x hx
  rcases mem_run.mp hx with hx | ⟨m, hm, hx⟩ | ⟨t, ht, hx⟩
  · exact h.memory_le _ (mem_append_right _ (.head _)) x hx
  · have hsealed : s.tree.current.sealed = s.sealedLog.drop s.drops :=
      h.mark.settled.flush.sealed_eq
    rw [hsealed] at hm
    exact h.memory_le m (mem_append_left _ (mem_of_mem_drop hm)) x hx
  · exact h.version_le x (Version.mem_run.mpr ⟨t, ht, hx⟩)

lemma Retains.recorded (he : e ∈ s.log) (hle : e.seqno ≤ s.tree.manifestDurableSeqno) :
    ∃ x ∈ s.tree.recorded, x.key = e.key ∧ x.seqno = e.seqno := by
  obtain ⟨y, hy, hkey, hseq⟩ := h.present.exists_mem he
  obtain ⟨x, hx, hsame⟩ := h.mark.recorded hy (hseq ▸ hle)
  exact ⟨x, hx, hsame.1.trans hkey, hsame.2.1.trans hseq⟩

lemma Retains.log_le (he : e ∈ s.log) : e.seqno ≤ s.tree.seqno := by
  obtain ⟨x, hx, -, hseq⟩ := h.present.exists_mem he
  exact hseq ▸ h.run_le x hx

end

lemma TreeData.MemoryLE.put (h : d.MemoryLE) (e : Entry) (log : List Entry) : TreeData.MemoryLE
      { d with
        current := ⟨d.current.active.insert e, d.current.sealed, d.current.version⟩
        seqno := max d.seqno e.seqno
        log := log } := by
  intro m hm x hx
  rcases mem_append.mp hm with hm | hm
  · exact (h m (mem_append_left _ hm) x hx).trans (le_max_left ..)
  · rw [mem_singleton.mp hm] at hx
    rcases mem_of_mem_insertEntry hx with rfl | hx
    · exact le_max_right ..
    · exact (h _ (mem_append_right _ (.head _)) x hx).trans (le_max_left ..)

lemma memoryLE_step (h : s.data.MemoryLE) (hl : l.isIngest = false)
    (hstep : TreeStep cfg s l d) : d.MemoryLE ∧ s.tree.seqno ≤ d.seqno := by
  cases hstep with
  | put e he => exact ⟨h.put e _, le_max_left ..⟩
  | ingest entries heq =>
    subst heq
    cases hl
  | sealActive hne =>
    refine ⟨fun m hm x hx => ?_, le_rfl⟩
    rcases mem_append.mp hm with hm | hm
    · exact h m hm x hx
    · rw [mem_singleton.mp hm] at hx
      cases hx
  | _ => exact ⟨h, le_rfl⟩

lemma Retains.entryOf (h : Retains op base s) (hl : l.writesOrCheckpoints = true)
    (he : s.entryOf l = some e) : base < e.seqno ∧ AboveSealed s e := by
  have hseq : e.seqno = s.tree.seqno + 1 :=
    seqno_of_entryOf (fun c hc => by subst hc; cases hl) he
  rw [hseq]
  refine ⟨Nat.lt_succ_of_le h.base_le, fun m hm x hx => ?_⟩
  rw [hseq]
  exact Nat.lt_succ_of_le (h.memory_le m (mem_append_left _ hm) x hx)

/-- **Step.** A guarded step of the tree retains everything. -/
theorem Retains.step (h : Retains cfg.mergeOperator base s) (hok : RetainGuard s l)
    (hnext : (treeSys cfg).next s l = some s') : Retains cfg.mergeOperator base s' := by
  obtain ⟨hl, hsole, hlisted⟩ := hok
  have hingest := isIngest_of_writesOrCheckpoints hl
  have hstep := treeStep_of_next hnext
  have hmark := markStep_of_next hingest hnext
  obtain ⟨hmemory, hseq⟩ := memoryLE_step h.memory_le hingest hstep
  have hpending := pending_of_checkpointing h.checkpointing
  have hversion := hstep.version_subset hpending hingest
  refine ⟨?_, ?_, checkpointing_step h.checkpointing hl hnext, h.base_le.trans hseq, hmemory,
    ?_, ?_, ?_, fun x hx hbase => ?_⟩
  · refine h.mark.step hingest hsole (fun e he => h.entryOf hl he) (fun hm hcatch => ?_) hnext
    subst hm
    exact hlisted hcatch
  · refine (present_step h.mark.settled.flush hpending h.present
      (roundOf_of_checkpointing h.checkpointing hl) (fun entries heq => ?_)
      hsole.installGuard hstep).2
    subst heq
    cases hl
  -- the manifest is the old one or that of the current version
  · rcases hmark.manifest with heq | heq
    · rw [heq]
      exact h.manifest_le
    · rw [heq]
      exact h.version_le
  · rcases hmark.manifest with heq | heq
    · rw [heq]
      exact h.next_le.trans hseq
    · rw [heq]
      exact hseq
  · rcases hmark.manifest with heq | heq
    · rw [heq]
      exact fun x hx => hversion x (h.listed x hx)
    · rw [heq]
      exact hversion
  · rcases hstep.mem_run h.mark.settled.flush hpending hingest hsole hx with hx | hx
    · exact hstep.log_subset (h.logged x hx hbase)
    · exact hx

/-- **Write.** A write above everything sealed retains everything. -/
theorem Retains.put (h : Retains op base s) (hbase : base < e.seqno) (he : AboveSealed s e) :
    Retains op base (s.put e) := by
  refine ⟨h.mark.put hbase he, h.present.put e, h.checkpointing,
    h.base_le.trans (le_max_left ..), h.memory_le.put e _, h.manifest_le,
    h.next_le.trans (le_max_left ..), h.listed, fun x hx hlt => ?_⟩
  rcases mem_run_put hx with rfl | hx
  · exact mem_cons_self
  · exact .tail _ (h.logged x hx hlt)

lemma flushInv_atRest {t : Tree Memtable} (hsealed : t.current.sealed = []) :
    FlushInv (atRest t).data := by
  refine ⟨hsealed, le_rfl, nofun, ?_, ?_⟩
  · rintro (i | _) job hjob <;> cases hjob
  · rintro (i | _) job ts hjob <;> cases hjob

lemma retains_atRest {t : Tree Memtable} {v : Version} (hcur : t.current = ⟨.new, [], v⟩)
    (hlisted : ∀ x, x ∈ t.recorded ↔ x ∈ v.run) (hle : ∀ x ∈ v.run, x.seqno ≤ t.seqno)
    (hflushed : t.flushedSeqno ≤ t.seqno) (hdurable : t.manifestDurableSeqno ≤ t.seqno)
    (hmanifest : ∀ x ∈ manifestRun t.manifest, x.seqno ≤ (t.manifest.map Manifest.nextSeqno).getD 0)
    (hnext : (t.manifest.map Manifest.nextSeqno).getD 0 ≤ t.seqno) :
    Retains op t.seqno (.atRest t) := by
  have hactive : t.current.active = .new := by rw [hcur]
  have hversion : t.current.version = v := by rw [hcur]
  have hmemory : ∀ m ∈ ([] : List Memtable) ++ [t.current.active], m.entries = [] := by
    intro m hm
    rw [mem_singleton.mp hm, hactive]
    rfl
  -- no memtable has entries and no flush is under way, so only the tables count
  refine ⟨⟨⟨flushInv_atRest (by rw [hcur]), pairwise_singleton _ _, ?_, ?_, nofun⟩,
    .inl hflushed, .inl hdurable, ?_, ?_, ?_⟩, ?_, rfl, le_rfl, ?_, hmanifest, hnext, ?_, ?_⟩
  · intro m hm x hx
    rw [hmemory m hm] at hx
    cases hx
  · intro y hy
    change y ∈ t.current.version.run at hy
    rw [hversion] at hy
    exact .inl (hle y hy)
  · rintro (i | _) n hn <;> cases hn
  · rintro (i | _) n hn <;> cases hn
  · intro x hx _
    change x ∈ t.current.version.run at hx
    rw [hversion] at hx
    exact ⟨x, (hlisted x).mpr hx, .refl op x⟩
  · intro newer e older hlog
    cases newer <;> cases hlog
  · intro m hm x hx
    rw [hmemory m hm] at hx
    cases hx
  · intro x hx
    change x ∈ t.current.version.run
    rw [hversion]
    exact (hlisted x).mp hx
  · intro x hx hlt
    change x ∈ t.current.run at hx
    have hx : x ∈ v.run := by
      rw [hcur] at hx
      exact hx
    exact absurd (hle x hx) (not_le.mpr hlt)

lemma retains_empty : Retains op 0 (.atRest .empty) :=
  retains_atRest (t := .empty) (v := .new) rfl (fun _ => Iff.rfl) nofun le_rfl le_rfl nofun le_rfl

/-- **Open.** A tree that was just opened retains everything. -/
theorem retains_recover (ks : Keyspace) {manifest : Option Manifest}
    (hlisted : ∀ x ∈ manifestRun manifest, x.seqno ≤ (manifest.map Manifest.nextSeqno).getD 0)
    (maxOnDisk : ℕ) (recovered : List WalBatch) :
    Retains op (Tree.recover cfg ks manifest maxOnDisk recovered).seqno
      (.atRest (Tree.recover cfg ks manifest maxOnDisk recovered)) :=
  retains_atRest (recover_current ..) (fun _ => mem_recorded_recover ..)
    (fun _ hx => seqno_le_recover hlisted hx) recover_counters_le.1
    recover_counters_le.2 (recover_manifest_le hlisted) recover_next_le

end

end XyzDB
