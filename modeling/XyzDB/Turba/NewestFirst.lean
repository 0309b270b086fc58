import XyzDB.Turba.PointRead
import XyzDB.Turba.Retention

/-!
# The first version met is the highest

A point read returns the first version of its key that it meets. That is the version with
the highest number as long as, of every key, the versions in memory descend and are above
those in the tables, and of those in the tables the first is the highest (`NewestLayers`). The
tables need not descend: what a replay has put on top of them may be there a second time
further below.

`NewestInv` is that invariant for a tree, with the version that its manifest lists beside
the current one. Compaction keeps it, since it keeps the highest version of what it merges
(`NewestFirst.compact`), and so does every other step under `NewestGuard`.
-/

namespace XyzDB

open KeyRuns List SuperVersion TreeState

/-- The first version has the highest sequence number. -/
def NewestFirst (chain : List Entry) : Prop := ∀ a ∈ chain.head?, ∀ e ∈ chain, e.seqno ≤ a.seqno

section

variable {a : Entry} {l l' A B seg seg' : List Entry} {last : Bool} {op : Option MergeOperator}

lemma newestFirst_cons : NewestFirst (a :: l) ↔ ∀ e ∈ l, e.seqno ≤ a.seqno := by simp [NewestFirst]

lemma SeqDesc.newestFirst (h : SeqDesc l) : NewestFirst l := by
  cases l with
  | nil => exact nofun
  | cons a l => exact newestFirst_cons.mpr fun e he => le_of_lt (rel_of_pairwise_cons h he)

lemma NewestFirst.append (h : NewestFirst l) (h' : NewestFirst l')
    (hle : ∀ a ∈ l.head?, ∀ e ∈ l', e.seqno ≤ a.seqno) : NewestFirst (l ++ l') := by
  cases l with
  | nil => exact h'
  | cons a l =>
    refine newestFirst_cons.mpr fun e he => ?_
    rcases mem_append.mp he with he | he
    · exact newestFirst_cons.mp h e he
    · exact hle a rfl e he

/-- A compaction keeps the newest version, except for a tombstone at the last level. -/
lemma compactRun_head (last : Bool) (op : Option MergeOperator) (a : Entry) (l : List Entry) :
    (compactRun last op (a :: l) = [] ∧ last = true) ∨
      ∃ x rest, compactRun last op (a :: l) = x :: rest ∧ x.seqno = a.seqno := by
  by_cases ho : owned op a.key = true
  · cases hv : a.isValue with
    | true => exact .inr ⟨_, _, compactRun_owned_value ho hv, rfl⟩
    | false =>
      rw [compactRun_owned_tombstone ho hv]
      cases last with
      | true => exact .inl ⟨rfl, rfl⟩
      | false => exact .inr ⟨a, [], rfl, rfl⟩
  · rw [compactRun, if_neg ho]
    split
    · next hlast => exact .inl ⟨rfl, (Bool.and_eq_true_iff.mp hlast).1⟩
    · exact .inr ⟨a, [], rfl, rfl⟩

lemma exists_of_mem_compacted (hperm : seg'.Perm seg) {y : Entry}
    (hy : y ∈ A ++ (compactRun last op seg' ++ B)) : ∃ x ∈ A ++ (seg ++ B), x.seqno = y.seqno := by
  simp only [mem_append] at hy ⊢
  rcases hy with hy | hy | hy
  · exact ⟨y, .inl hy, rfl⟩
  · obtain ⟨x, hx, hsame⟩ := exists_of_mem_compactRun hy
    exact ⟨x, .inr (.inl (hperm.subset hx)), hsame.2.1⟩
  · exact ⟨y, .inr (.inr hy), rfl⟩

/-- **Compaction.** The highest version of a segment takes the place of the segment; if it
is elided, nothing comes after it. -/
theorem NewestFirst.compact (h : NewestFirst (A ++ (seg ++ B))) (hperm : seg'.Perm seg)
    (hdesc : seg'.Pairwise fun a b => b.seqno ≤ a.seqno) (hlast : last = true → B = []) :
    NewestFirst (A ++ (compactRun last op seg' ++ B)) := by
  cases A with
  | cons a A =>
    refine newestFirst_cons.mpr fun e he => ?_
    obtain ⟨x, hx, heq⟩ := exists_of_mem_compacted hperm he
    exact heq ▸ newestFirst_cons.mp h x hx
  | nil =>
    cases seg' with
    | nil =>
      rw [← hperm.nil_eq] at h
      exact h
    | cons a rest =>
      have hmax : ∀ e ∈ seg ++ B, e.seqno ≤ a.seqno := by
        cases seg with
        | nil => exact absurd hperm.eq_nil (cons_ne_nil _ _)
        | cons b seg =>
          -- the head of the segment and the head of its sorted form have the same number
          have hb : b.seqno ≤ a.seqno := by
            rcases mem_cons.mp (hperm.symm.subset mem_cons_self) with rfl | hb
            · exact le_rfl
            · exact rel_of_pairwise_cons hdesc hb
          refine forall_mem_cons.mpr ⟨hb, fun e he => ?_⟩
          exact (newestFirst_cons.mp h e he).trans hb
      rcases compactRun_head last op a rest with ⟨hnil, hl⟩ | ⟨x, tail, heq, hx⟩
      · rw [hnil, hlast hl]
        exact nofun
      · rw [heq]
        refine newestFirst_cons.mpr fun e he => ?_
        have he : e ∈ [] ++ (compactRun last op (a :: rest) ++ B) := by
          rw [heq]
          exact .tail _ he
        obtain ⟨y, hy, hys⟩ := exists_of_mem_compacted hperm he
        rw [hx, ← hys]
        exact hmax y hy

end

/-- A version in which every search meets the highest version of its key first. -/
structure Version.ReadsNewest (v : Version) (nextTableId : ℕ) : Prop where
  inv : v.Inv nextTableId
  exact : ∀ t ∈ v.allTables, t.ReadsExact
  newest : ∀ k, NewestFirst (v.chain k)

variable {v : Version}

lemma Version.ReadsNewest.searchable {next : ℕ} (h : v.ReadsNewest next) :
    v.Searchable := ⟨h.inv.wf, h.inv.disjoint, h.exact⟩

lemma Version.ReadsNewest.new (next : ℕ) : Version.new.ReadsNewest next :=
  ⟨Version.Inv.new, fun t ht => by simp [Version.allTables] at ht, fun k => nofun⟩

variable {task : CompactionTask}

lemma newestFirst_applyOutputs {next : ℕ} (hv : v.Inv next) (sh : TaskShape v task) {id : ℕ}
    (ho : Outputs v task (outputTables cfg task id)) {k : Key} (h : NewestFirst (v.chain k)) :
    NewestFirst ((applyOutputs v task (outputTables cfg task id)).chain k) ∧
      ∀ y ∈ (applyOutputs v task (outputTables cfg task id)).chain k,
        ∃ x ∈ v.chain k, x.seqno = y.seqno := by
  have hin : ∀ t ∈ task.inputTables, SortedLE t.entries := fun t ht => sh.inputs_sorted hv.wf ht
  obtain ⟨A, B, hA, hA', hlast⟩ := chain_applyOutputs hv.wf hv.disjoint sh ho k
  -- the merge sorts what the inputs have of the key
  have hperm : (withKey Entry.key k
      (mergeIterator cfg.heap (task.inputTables.map Table.entries))).Perm (sh.segment k) :=
    ((mergeIterator_perm cfg.heap _).filter _).trans (sh.perm_segment k)
  rw [outputTables, execute_flatMap, withKey_output hin] at hA'
  rw [hA] at h ⊢
  rw [outputTables, hA']
  exact ⟨h.compact hperm ((merged_sorted hin).withKey_desc k) hlast,
    fun y hy => exists_of_mem_compacted hperm hy⟩

/-- A super-version without its tables. -/
def SuperVersion.memory (sv : SuperVersion Memtable) : SuperVersion Memtable :=
  ⟨sv.active, sv.sealed, .new⟩

/-- Of every key, the versions in memory descend and are above those in the tables, and the
first version in the tables is the highest there. -/
structure NewestLayers (sv : SuperVersion Memtable) : Prop where
  memory : ∀ k, SeqDesc (sv.memory.chain k)
  above : ∀ x ∈ sv.memory.run, ∀ y ∈ sv.version.chain x.key, y.seqno < x.seqno
  tables : ∀ k, NewestFirst (sv.version.chain k)

variable {e : Entry}

section

variable {sv sv' : SuperVersion Memtable}

lemma SuperVersion.run_memory (sv : SuperVersion Memtable) :
    sv.run = sv.memory.run ++ sv.version.run := by
  have hnew : Version.new.run = [] := rfl
  simp only [run, memory, hnew, append_nil, append_assoc]

lemma SuperVersion.mem_run_memory : e ∈ sv.run ↔ e ∈ sv.memory.run ∨ e ∈ sv.version.run := by
  rw [sv.run_memory, mem_append]

lemma SuperVersion.mem_older_of_memory {k : Key} (h : e ∈ sv.memory.older k) : e ∈ sv.older k := by
  obtain ⟨hk, h | h⟩ := mem_older.mp h
  · exact mem_older.mpr ⟨hk, .inl h⟩
  · cases h

namespace NewestLayers

variable (h : NewestLayers sv)

include h

lemma of_memory (hrun : sv'.memory.run = sv.memory.run)
    (hversion : sv'.version = sv.version) : NewestLayers sv' := by
  refine ⟨fun k => ?_, ?_, ?_⟩
  · rw [chain, hrun]
    exact h.memory k
  · rw [hrun, hversion]
    exact h.above
  · rw [hversion]
    exact h.tables

/-- **Insert.** -/
theorem put (he : ∀ x ∈ sv.older e.key, x.seqno < e.seqno) :
    NewestLayers ⟨sv.active.insert e, sv.sealed, sv.version⟩ := by
  refine ⟨fun k => ?_, fun x hx y hy => ?_, h.tables⟩
  · exact seqDesc_chain_put (h.memory k) fun x hx => he x (mem_older_of_memory hx)
  · rcases mem_run.mp hx with hx | hx
    · rcases mem_of_mem_insertEntry hx with rfl | hx
      · exact he y (mem_append_right _ hy)
      · exact h.above x (mem_run.mpr (.inl hx)) y hy
    · exact h.above x (mem_run.mpr (.inr hx)) y hy

/-- **Install.** The tables of the oldest memtables come before all others. -/
theorem install {ts : List Table} (hrun : sv'.run = sv.run)
    (hversion : sv'.version = sv.version.withNewL0Tables ts) : NewestLayers sv' := by
  have hchain : ∀ k, sv'.version.chain k =
      withKey Entry.key k (ts.reverse.flatMap Table.entries) ++ sv.version.chain k := by
    intro k
    rw [hversion, Version.chain, Version.run_withNewL0Tables, withKey_append]
    rfl
  -- what is in the new tables was the end of the memory
  have hmem : sv.memory.run = sv'.memory.run ++ ts.reverse.flatMap Table.entries := by
    rw [sv'.run_memory, sv.run_memory, hversion, Version.run_withNewL0Tables,
      ← append_assoc] at hrun
    exact (append_cancel_right hrun).symm
  have hdesc : ∀ k, SeqDesc (sv'.memory.chain k ++
      withKey Entry.key k (ts.reverse.flatMap Table.entries)) := by
    intro k
    have := h.memory k
    rwa [chain, hmem, withKey_append] at this
  refine ⟨fun k => (hdesc k).sublist (sublist_append_left _ _), fun x hx y hy => ?_, fun k => ?_⟩
  · rw [hchain] at hy
    rcases mem_append.mp hy with hy | hy
    · exact (pairwise_append.mp (hdesc x.key)).2.2 x (mem_withKey.mpr ⟨hx, rfl⟩) y hy
    · exact h.above x (hmem ▸ mem_append_left _ hx) y hy
  · rw [hchain]
    have hnew : SeqDesc (withKey Entry.key k (ts.reverse.flatMap Table.entries)) :=
      (hdesc k).sublist (sublist_append_right _ _)
    refine hnew.newestFirst.append (h.tables k) fun a ha e he => ?_
    obtain ⟨ha, hak⟩ := mem_withKey.mp (mem_of_mem_head? ha)
    exact le_of_lt (h.above a (hmem ▸ mem_append_right _ ha) e (hak ▸ he))

/-- **Compaction.** The tables change, with numbers that were there. -/
theorem compact (hnewest : ∀ k, NewestFirst (v.chain k) ∧
    ∀ y ∈ v.chain k, ∃ x ∈ sv.version.chain k, x.seqno = y.seqno) :
    NewestLayers ⟨sv.active, sv.sealed, v⟩ := by
  refine ⟨h.memory, fun x hx y hy => ?_, fun k => (hnewest k).1⟩
  obtain ⟨z, hz, heq⟩ := (hnewest x.key).2 y hy
  exact heq ▸ h.above x hx z hz

end NewestLayers

end

/-- In the tables that a compaction writes no key straddles two blocks. -/
def Round.Aligned (cfg : TreeConfig) : Round → Prop
  | .compact task =>
    ∀ c ∈ task.chunks cfg.heap cfg.mergeOperator cfg.leveled.targetTableSize,
      Table.BlocksAligned cfg.sstable c
  | _ => True

instance (cfg : TreeConfig) : DecidablePred (Round.Aligned cfg)
  | .compact _ => inferInstanceAs (Decidable (∀ c ∈ _, _))
  | .done | .stalled | .move _ => inferInstanceAs (Decidable True)

/-- Flushes and compactions write tables that read exactly, and flushes install them in the
place of their memtables. -/
abbrev NewestGuard (cfg : TreeConfig) (s : TreeState) (l : TreeLabel) : Prop :=
  ExactGuard cfg s l ∧ ∀ r ∈ s.roundOf cfg l, r.HasRoom cfg ∧ r.Aligned cfg

section

variable {cfg : TreeConfig} {s : TreeState} {l : TreeLabel}

lemma NewestGuard.levels (h : NewestGuard cfg s l) : LevelsGuard cfg s l := by
  refine ⟨?_, ?_⟩
  · cases hr : s.roundOf cfg l with
    | none => trivial
    | some r => exact (h.2 r hr).1
  · cases l with
    | ingestSorted entries => cases h.1.2
    | _ => trivial

lemma NewestGuard.outputs (h : NewestGuard cfg s l) (hbloom : cfg.sstable.BloomSound)
    (hw : s.tree.current.version.WellFormed)
    (hround : s.roundOf cfg l = some (.compact task)) (id : ℕ) :
    ∀ t ∈ outputTables cfg task id, t.ReadsExact := by
  obtain ⟨sh⟩ : Nonempty (TaskShape s.tree.current.version task) := roundOf_sound hround
  have hsorted : SortedLE (task.output cfg.heap cfg.mergeOperator) :=
    output_sorted fun t ht => sh.inputs_sorted hw ht
  refine writeTables_readsExact (fun c hc => ?_) (h.2 _ hround).2 hbloom
  exact SortedLE.keySorted (Chunk.Pairwise.of_mem_chunk hsorted hc)

end

/-- The current version of a tree and the one its manifest lists are met newest first. -/
structure NewestInv (cfg : TreeConfig) (d : TreeData) (manifest : Option Manifest) : Prop where
  exact : ExactInv cfg d
  outputs : ∀ task outs, d.compaction = some (task, some outs) → ∀ t ∈ outs, t.ReadsExact
  layered : NewestLayers d.current
  bound : ∀ x ∈ d.current.run, x.seqno ≤ d.seqno
  listed : (manifestVersion manifest).ReadsNewest ((manifest.map Manifest.nextTableId).getD 0)
  listed_le : ∀ x ∈ (manifestVersion manifest).run,
    x.seqno ≤ (manifest.map Manifest.nextSeqno).getD 0

section

variable {cfg : TreeConfig} {s s' : TreeState} {l : TreeLabel} {d : TreeData}
  {manifest : Option Manifest}

lemma NewestInv.readsNewest (h : NewestInv cfg d manifest) :
    d.current.version.ReadsNewest d.nextTableId :=
  ⟨h.exact.level.registry.version, h.exact.exact, h.layered.tables⟩

section

variable (h : NewestInv cfg s.data manifest)

include h

lemma NewestInv.persist : NewestInv cfg s.data s.tree.persistManifest.manifest := by
  refine ⟨h.exact, h.outputs, h.layered, h.bound, h.readsNewest, fun x hx => h.bound x ?_⟩
  exact mem_run_memory.mpr (.inr hx)

/-- **Layers.** What a step does to memory and tables. -/
theorem newestLayers_step (hok : NewestGuard cfg s l)
    (hput : ∀ e ∈ s.entryOf l, ∀ x ∈ s.tree.current.older e.key, x.seqno < e.seqno)
    (hstep : TreeStep cfg s l d) :
    NewestLayers d.current ∧ ∀ x ∈ d.current.run, x.seqno ≤ d.seqno := by
  have hbound : ∀ x ∈ s.tree.current.run, x.seqno ≤ s.tree.seqno := h.bound
  have hversion : s.tree.current.version.Inv s.tree.nextTableId := h.exact.level.registry.version
  cases hstep with
  | put e he =>
    refine ⟨h.layered.put (hput e he), fun x hx => ?_⟩
    rcases mem_run_put hx with rfl | hx
    · exact le_max_right ..
    · exact (hbound x hx).trans (le_max_left ..)
  | ingest entries hl =>
    subst hl
    cases hok.1.2
  | sealActive hne =>
    refine ⟨h.layered.of_memory (run_seal : _ = s.tree.current.memory.run) rfl,
      fun x hx => hbound x ?_⟩
    rw [← run_seal]
    exact hx
  | install o ho job tables hjob htables =>
    -- entries move from memtables to tables, and the run of the whole is the same
    have hrun := h.exact.flush.run_install hjob htables (hok.1.drops ho hjob htables)
    exact ⟨h.layered.install hrun rfl, fun x hx => hbound x (hrun ▸ hx)⟩
  | applyMove task hc =>
    -- a moved table stays between the same neighbours at each of its keys
    obtain ⟨sh, input, hin⟩ := h.exact.level.move hc
    have hchain : ∀ k, (applyOutputs s.tree.current.version task
        (task.inputTables.take 1)).chain k = s.tree.current.version.chain k := by
      intro k
      rw [show task.inputTables.take 1 = [input] by rw [hin]; rfl]
      exact chain_trivialMove hversion.wf hversion.disjoint sh hin k
    refine ⟨h.layered.compact fun k => ?_, fun x hx => hbound x ?_⟩
    · rw [hchain]
      exact ⟨h.layered.tables k, fun y hy => ⟨y, hy, rfl⟩⟩
    · have hx' := mem_chain.mpr ⟨hx, rfl⟩
      rw [h.exact.chain_move hc] at hx'
      exact (mem_chain.mp hx').1
  | applyCompact task outs hc =>
    obtain ⟨sh, hout, id, rfl⟩ := h.exact.level.outputs hc
    have hnewest := fun k => newestFirst_applyOutputs hversion sh hout (h.layered.tables k)
    refine ⟨h.layered.compact hnewest, fun x hx => ?_⟩
    rcases mem_run_memory.mp hx with hx | hx
    · exact hbound x (mem_run_memory.mpr (.inl hx))
    · obtain ⟨y, hy, heq⟩ := (hnewest x.key).2 x (mem_withKey.mpr ⟨hx, rfl⟩)
      exact heq ▸ hbound y (mem_run_memory.mpr (.inr (mem_withKey.mp hy).1))
  | _ => exact ⟨h.layered, hbound⟩

lemma outputs_step (hok : NewestGuard cfg s l)
    (hbloom : cfg.sstable.BloomSound) (hstep : TreeStep cfg s l d)
    {outs : List Table} (hc : d.compaction = some (task, some outs)) :
    ∀ t ∈ outs, t.ReadsExact := by
  cases hstep with
  | startMove task' hround => cases hc
  | startCompact task' hround =>
    cases hc
    exact hok.outputs hbloom h.exact.level.registry.version.wf hround _
  | applyMove task' hc' => cases hc
  | applyCompact task' outs' hc' => cases hc
  | _ => exact h.outputs task outs hc

end

/-- **Step.** A guarded step that inserts above everything outside the active memtable. -/
theorem newestInv_step (h : NewestInv cfg s.data s.tree.manifest)
    (hbloom : cfg.sstable.BloomSound) (hok : NewestGuard cfg s l)
    (hput : ∀ e ∈ s.entryOf l, ∀ x ∈ s.tree.current.older e.key, x.seqno < e.seqno)
    (hnext : (treeSys cfg).next s l = some s') : NewestInv cfg s'.data s'.tree.manifest := by
  have hstep := treeStep_of_next hnext
  obtain ⟨hlayered, hbound⟩ := newestLayers_step h hok hput hstep
  have hexact := exactInv_step_of_outputs hok.levels hbloom h.exact hok.1 h.outputs hstep
  have houts : ∀ task outs, s'.data.compaction = some (task, some outs) →
      ∀ t ∈ outs, t.ReadsExact := fun task outs hc => outputs_step h hok hbloom hstep hc
  rcases (markStep_of_next hok.1.2 hnext).manifest with heq | heq
  · rw [heq]
    exact ⟨hexact, houts, hlayered, hbound, h.listed, h.listed_le⟩
  · rw [heq]
    exact ⟨hexact, houts, hlayered, hbound, h.persist.listed, h.persist.listed_le⟩

lemma NewestInv.entryOf (h : NewestInv cfg s.data manifest) (hl : ∀ c, l ≠ .commitInsert c) :
    ∀ e ∈ s.entryOf l, ∀ x ∈ s.tree.current.older e.key, x.seqno < e.seqno := by
  intro e he x hx
  rw [seqno_of_entryOf hl he]
  refine Nat.lt_succ_of_le (h.bound x ?_)
  obtain ⟨-, hx⟩ := mem_older.mp hx
  exact mem_run.mpr (.inr (hx.imp_right Version.mem_run.mp))

/-- **Write.** A commit inserts above everything outside the active memtable. -/
theorem NewestInv.put (h : NewestInv cfg s.data manifest)
    (he : ∀ x ∈ s.tree.current.older e.key, x.seqno < e.seqno) :
    NewestInv cfg (s.put e).data manifest := by
  have hlevel : LevelInv cfg (s.put e).data :=
    ⟨h.exact.level.registry, h.exact.level.sorted, h.exact.level.fits⟩
  have hflush : FlushInv (s.put e).data := ⟨h.exact.flush.sealed_eq, h.exact.flush.drops_le,
    h.exact.flush.nonempty, h.exact.flush.job, h.exact.flush.tables⟩
  refine ⟨⟨hlevel, hflush, h.exact.exact, h.exact.pending⟩, h.outputs, h.layered.put he,
    fun x hx => ?_, h.listed, h.listed_le⟩
  rcases mem_run_put hx with rfl | hx
  · exact le_max_right ..
  · exact (h.bound x hx).trans (le_max_left ..)

lemma newestInv_atRest {t : Tree Memtable} (hcur : t.current = ⟨.new, [], v⟩)
    (hv : v.ReadsNewest t.nextTableId) (hle : ∀ x ∈ v.run, x.seqno ≤ t.seqno)
    (hlisted : (manifestVersion t.manifest).ReadsNewest
      ((t.manifest.map Manifest.nextTableId).getD 0))
    (hlisted_le : ∀ x ∈ (manifestVersion t.manifest).run,
      x.seqno ≤ (t.manifest.map Manifest.nextSeqno).getD 0) :
    NewestInv cfg (atRest t).data t.manifest := by
  have hcur' : (atRest t).data.current = ⟨.new, [], v⟩ := hcur
  have hpend : ∀ o, (atRest t).data.pending o = [] := by
    intro o
    cases o with
    | none => rfl
    | some o => cases o <;> rfl
  have hlevel : LevelInv cfg (atRest t).data := by
    refine levelInv_of_idle ?_ hpend rfl
    rw [hcur']
    exact hv.inv
  refine ⟨⟨hlevel, flushInv_atRest (by rw [hcur]), ?_, ?_⟩, nofun, ?_, ?_, hlisted, hlisted_le⟩
  · rw [hcur']
    exact hv.exact
  · intro o t' ht'
    rw [hpend] at ht'
    cases ht'
  · rw [hcur']
    exact ⟨fun k => .nil, nofun, hv.newest⟩
  · rw [hcur']
    exact hle

end

end XyzDB
