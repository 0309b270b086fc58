import XyzDB.Turba.Engine

/-!
# Last writer wins across both write paths

A client mixes committed batches and direct writes. The last write of a key wins as
long as sequence numbers follow program order, which they do along either path alone:
a direct write draws a number above everything in its tree. A committed item draws
from the engine's counter, which knows nothing of the direct writes, so its number may
be below theirs.

`Admits` is the condition under which a late number does no harm: no version of the
key is above it, and none outside the active memtable is equal to it (inside, the item
takes the place of the entry with the same internal key). All items of a batch share a
number, so the condition on the state before the batch carries over from item to item
(`Admits.insertWithSeqno`). In runs whose commits meet it, point reads and scans return
the last write in program order (`last_writer_wins`); after two direct writes a
committed remove does not (`committed_remove_ignored`).
-/

namespace XyzDB

open KeyRuns List Function SuperVersion Version

/-- Every table of a tree reads exactly. -/
def Tree.Exact (t : Tree Memtable) : Prop := ∀ u ∈ t.current.version.allTables, u.ReadsExact

/-- The memtables a call flushes are cut into blocks between keys. -/
def TreeOp.Aligned (cfg : TreeConfig) (t : Tree Memtable) : TreeOp → Prop
  | .flushSealed | .majorCompact _ _ =>
    ∀ m ∈ t.current.sealed, Table.BlocksAligned cfg.sstable m.entries
  | _ => True

instance (cfg : TreeConfig) (t : Tree Memtable) : DecidablePred (TreeOp.Aligned cfg t)
  | .flushSealed | .majorCompact _ _ => inferInstanceAs (Decidable (∀ m ∈ _, _))
  | .insert _ _ | .remove _ | .sealActive | .maybeCompact => inferInstanceAs (Decidable True)

namespace Tree.Exact

variable {cfg : TreeConfig} {t t' : Tree Memtable}

lemma of_current (h : t.Exact) (hc : t'.current.version = t.current.version) : t'.Exact := by
  unfold Tree.Exact
  rw [hc]
  exact h

lemma sealActive (h : t.Exact) : t.sealActive.Exact := by
  unfold Tree.sealActive
  split
  · exact h
  · exact h.of_current rfl

lemma flushSealed (hbloom : cfg.sstable.BloomSound) (h : t.Exact)
    (ha : ∀ m ∈ t.current.sealed, Table.BlocksAligned cfg.sstable m.entries) :
    (t.flushSealed cfg).Exact := by
  have hinstall : ((t.allocate t.current.sealed.length).installFlush
      (flushTables cfg t.compactionEnabled t.nextTableId t.current.sealed)
      t.current.sealed.length).Exact := by
    intro u hu
    obtain ⟨n, hn, hu⟩ := mem_allTables.mp hu
    rcases mem_withNewL0Tables.mp hu with hu | ⟨-, hu⟩
    · exact h u (mem_allTables.mpr ⟨n, hn, hu⟩)
    · exact flushTables_readsExact hbloom ha _ _ u hu
  unfold Tree.flushSealed
  dsimp only
  split
  · exact h
  · refine hinstall.of_current ?_
    -- persisting the manifest and advancing the counters touch no table
    unfold flushAdvance flushPersist
    split <;> split <;> rfl

lemma applyTrivialMove (h : t.Exact) {task : CompactionTask}
    (sh : TaskShape t.current.version task) : (t.applyTrivialMove task).Exact := by
  unfold Tree.applyTrivialMove
  split
  · next input rest hin =>
    intro u hu
    rcases mem_allTables_applyOutputs sh hu with hu | hu
    · exact h u hu
    · refine h u (mem_allTables.mpr (sh.exists_level ?_))
      rw [mem_singleton.mp hu, hin]
      exact mem_cons_self
  · exact h

variable (hop : cfg.mergeOperator = none)

include hop

variable (hbloom : cfg.sstable.BloomSound)

include hbloom

lemma runTask (h : t.Exact)
    (hinv : t.Inv) {task : CompactionTask} (sh : TaskShape t.current.version task) :
    (t.runTask cfg task).Exact := by
  intro u hu
  rcases mem_allTables_applyOutputs sh hu with hu | hu
  · exact h u hu
  · exact execute_readsExact (fun x hx => sh.inputs_sorted hinv.version.wf hx) hop hbloom u hu

lemma rounds : RoundKeeps cfg fun t => t.Exact ∧ t.Inv where
  move h hs := ⟨h.1.applyTrivialMove hs.1.some,
    (maintains_applyTrivialMove h.2 hs.1.some hs.2 : Maintains cfg.mergeOperator _ _).inv⟩
  compact h hs hroom := ⟨h.1.runTask hop hbloom h.2 hs.some,
    (maintains_runTask (hop ▸ foldsSegments_none) h.2 hs.some hroom).inv⟩

/-- **Step.** A call that flushes aligned memtables keeps the tables exact. -/
theorem apply (h : t.Exact)
    (hinv : t.Inv) {o : TreeOp} (ha : o.Aligned cfg t) (hrun : t.apply cfg o = some t') :
    t'.Exact := by
  cases o with
  | insert | remove =>
    cases hrun
    exact h.of_current rfl
  | sealActive =>
    cases hrun
    exact h.sealActive
  | flushSealed =>
    cases hrun
    exact h.flushSealed hbloom ha
  | maybeCompact =>
    cases hrun
    exact ((rounds hop hbloom).maybeCompact ⟨h, hinv⟩ (Round.hasRoom_of_none hop _)).1
  | majorCompact observer fuel =>
    have hoff : Maintains cfg.mergeOperator t (t.setCompactionEnabled false) :=
      maintains_setCompactionEnabled hinv false
    have hflush : Maintains cfg.mergeOperator _
      (Tree.flushSealed cfg (t.setCompactionEnabled false)) :=
      maintains_flushSealed cfg hoff.inv
    have hexact : (Tree.flushSealed cfg (t.setCompactionEnabled false)).Exact :=
      flushSealed hbloom (h.of_current rfl) ha
    obtain ⟨⟨u, stalled⟩, hloop, hu⟩ := Option.map_eq_some_iff.mp hrun
    have hdone := (rounds hop hbloom).majorLoop ⟨hexact, hflush.inv⟩
      (hasRoom_of_none hop t (.majorCompact observer fuel)) hloop
    rw [← hu]
    -- restoring the flag and catching up the watermark touch no table
    refine hdone.1.of_current ?_
    split <;> split <;> rfl

end Tree.Exact

/-- **Sequential reads, by what was written.** When the memtables that are flushed are cut into
blocks between keys, point reads and scans return the last writes in every state of a run: that the
tables read exactly is then an invariant, not an assumption. -/
theorem aligned_run_reads {cfg : TreeConfig} (hop : cfg.mergeOperator = none)
    (hbloom : cfg.sstable.BloomSound) {s : SeqState}
    (h : (seqSys cfg).Reach (fun s o => o.Aligned cfg s.tree) s) :
    (∀ k, s.tree.get k = lastWrite s.history k) ∧
      (∀ start stop, Lists (s.tree.rangeStream cfg start stop) (fun k => start ≤ k ∧ k ≤ stop)
        (lastWrite s.history)) ∧
      ∀ p visible, s.tree.seqno ≤ visible →
        Lists (s.tree.prefixAt cfg p visible) (fun k => p <+: k) (lastWrite s.history) := by
  have hfolds : FoldsSegments cfg.mergeOperator := hop ▸ foldsSegments_none
  have hinit : SeqInv cfg (seqSys cfg).init := seqInv_reach hfolds .init
  obtain ⟨hinv, hexact⟩ : SeqInv cfg s ∧ s.tree.Exact := by
    have hempty : Tree.Exact (Tree.empty : Tree Memtable) := by
      intro u hu
      cases hu
    refine h.invariant (fun s => SeqInv cfg s ∧ s.tree.Exact) ⟨hinit, hempty⟩
      fun s o s' hs ha hnext => ?_
    have hroom := hasRoom_of_none hop s.tree o
    obtain ⟨t', ht', rfl⟩ := Option.map_eq_some_iff.mp hnext
    exact ⟨seqInv_step hfolds hs.1 hroom hnext, hs.2.apply hop hbloom hs.1.tree ha ht'⟩
  exact hinv.reads hop hexact

/-- A number at which a version of a key may be put: no version of the key is above
it, and none outside the active memtable is equal to it. -/
abbrev Admits (t : Tree Memtable) (k : Key) (seqno : ℕ) : Prop :=
  (∀ x ∈ t.current.chain k, x.seqno ≤ seqno) ∧ ∀ x ∈ t.current.older k, x.seqno < seqno

section

variable {cfg : TreeConfig} {t : Tree Memtable} {history : List TreeOp}

lemma Admits.insertWithSeqno {k : Key} {e : Entry} (h : Admits t k e.seqno) :
    Admits (t.insertWithSeqno e) k e.seqno := by
  refine ⟨fun x hx => ?_, h.2⟩
  rcases mem_chain_put hx with rfl | hx
  · exact le_rfl
  · exact h.1 x hx

lemma Admits.inv {e : Entry} (h : Admits t e.key e.seqno) (hinv : t.Inv) :
    (t.insertWithSeqno e).Inv := by
  refine ⟨hinv.version, fun k => seqDesc_chain_put (hinv.desc k) h.2, fun k x hx => ?_⟩
  rcases mem_chain_put hx with rfl | hx
  · exact le_max_right ..
  · exact (hinv.bound k x hx).trans (le_max_left ..)

lemma Admits.head {e : Entry} (h : Admits t e.key e.seqno) (hinv : t.Inv) :
    ((t.insertWithSeqno e).current.chain e.key).head? = some e := by
  refine (h.inv hinv).desc e.key |>.head?_eq_some (mem_chain_put_self e) fun x hx => ?_
  rcases mem_chain_put hx with rfl | hx
  · exact le_rfl
  · exact h.1 x hx

lemma BatchItem.step_op (item : BatchItem) (seqno : ℕ) (m : Store) :
    Store.step none m item.op = Function.update m item.key (item.entry seqno).live := by
  unfold BatchItem.op
  split
  · next hv => simp [Store.step, BatchItem.entry, Entry.live, hv, putValue, owned]
  · next hv => simp [Store.step, BatchItem.entry, Entry.live, hv]

lemma SeqInv.commitItem (hop : cfg.mergeOperator = none) (h : SeqInv cfg ⟨t, history⟩)
    {item : BatchItem} {seqno : ℕ} (hadm : Admits t item.key seqno) :
    SeqInv cfg ⟨t.insertWithSeqno (item.entry seqno), history ++ [item.op]⟩ := by
  have hadm : Admits t (item.entry seqno).key (item.entry seqno).seqno := hadm
  refine ⟨hadm.inv h.tree, fun k => ?_⟩
  have hval := h.value k
  simp only [hop, Store.ofHistory] at hval ⊢
  rw [foldl_append, foldl_cons, foldl_nil, item.step_op seqno]
  by_cases hk : item.key = k
  · subst hk
    rw [update_self]
    exact congrArg (·.bind Entry.live) (hadm.head h.tree)
  · have hne : (item.entry seqno).key ≠ k := hk
    have hchain : (t.insertWithSeqno (item.entry seqno)).current.chain k = t.current.chain k :=
      chain_put_ne hne
    rw [update_of_ne (Ne.symm hk), ← hval, hchain]

lemma SeqInv.commitItems (hop : cfg.mergeOperator = none) {seqno : ℕ} {items : List BatchItem}
    (h : SeqInv cfg ⟨t, history⟩) (hadm : ∀ item ∈ items, Admits t item.key seqno) :
    SeqInv cfg ⟨items.foldl (fun t item => t.insertWithSeqno (item.entry seqno)) t,
      history ++ items.map BatchItem.op⟩ := by
  induction items generalizing t history with
  | nil => simpa using h
  | cons item items ih =>
    have hitem := h.commitItem hop (hadm item mem_cons_self)
    have hrest : ∀ i ∈ items, Admits (t.insertWithSeqno (item.entry seqno)) i.key seqno :=
      fun i hi => Admits.insertWithSeqno (e := item.entry seqno) (hadm i (.tail _ hi))
    have := ih hitem hrest
    rwa [append_assoc, singleton_append] at this

lemma insertItems_apply (seqno : ℕ) (items : List BatchItem) (trees : Keyspace → Tree Memtable)
    (ks : Keyspace) : TurbaEngine.insertItems seqno items trees ks =
      (items.filter fun item => item.keyspace = ks).foldl
        (fun t item => t.insertWithSeqno (item.entry seqno)) (trees ks) := by
  induction items generalizing trees with
  | nil => rfl
  | cons item items ih =>
    have hstep : TurbaEngine.insertItems seqno (item :: items) trees ks =
        TurbaEngine.insertItems seqno items (update trees item.keyspace
          ((trees item.keyspace).insertWithSeqno (item.entry seqno))) ks := rfl
    rw [hstep, ih]
    by_cases hks : item.keyspace = ks
    · subst hks
      simp
    · rw [update_of_ne (Ne.symm hks), filter_cons_of_neg (by simpa using hks)]

lemma version_insertItems (items : List BatchItem) (seqno : ℕ) :
    (items.foldl (fun t item => t.insertWithSeqno (item.entry seqno)) t).current.version =
      t.current.version := by
  induction items generalizing t with
  | nil => rfl
  | cons item items ih => exact ih

end

/-- Commits write to the keyspace at admitted numbers, and its flushed memtables are
aligned. -/
def LastWriterGuard (cfg : Keyspace → TreeConfig) (ks : Keyspace) (s : EngineState) :
    EngineOp → Prop
  | .commit items => ∀ item ∈ items, item.keyspace = ks →
      Admits (s.engine.trees ks) item.key (s.engine.seqno + 1)
  | .tree ks' op => ks' = ks → op.Aligned (cfg ks) (s.engine.trees ks)

instance (cfg : Keyspace → TreeConfig) (ks : Keyspace) (s : EngineState) :
    DecidablePred (LastWriterGuard cfg ks s)
  | .commit _ => inferInstanceAs (Decidable (∀ item ∈ _, _ → _))
  | .tree _ _ => inferInstanceAs (Decidable (_ → TreeOp.Aligned _ _ _))

/-- The tree of a keyspace stands for the writes of the keyspace and reads exactly. -/
structure EngineInv (cfg : Keyspace → TreeConfig) (ks : Keyspace) (s : EngineState) : Prop where
  seq : SeqInv (cfg ks) ⟨s.engine.trees ks, s.history ks⟩
  exact : (s.engine.trees ks).Exact

section

variable {cfg : Keyspace → TreeConfig} {ks : Keyspace} (hop : (cfg ks).mergeOperator = none)
  (hbloom : (cfg ks).sstable.BloomSound) {s s' : EngineState}

include hop

lemma EngineInv.commit (h : EngineInv cfg ks s) {items : List BatchItem}
    (hok : LastWriterGuard cfg ks s (.commit items)) :
    SeqInv (cfg ks) ⟨(s.engine.commit cfg items).trees ks, s.history ks ++
      (items.filter fun item => item.keyspace = ks).map BatchItem.op⟩ ∧
        ((s.engine.commit cfg items).trees ks).Exact := by
  have hitems : ∀ item ∈ items.filter fun item => item.keyspace = ks,
      Admits (s.engine.trees ks) item.key (s.engine.seqno + 1) := by
    intro item hitem
    obtain ⟨hmem, hks⟩ := mem_filter.mp hitem
    exact hok item hmem (by simpa using hks)
  have hseq := h.seq.commitItems hop hitems
  have hexact : (TurbaEngine.insertItems (s.engine.seqno + 1) items s.engine.trees ks).Exact := by
    rw [insertItems_apply]
    exact h.exact.of_current (version_insertItems _ _)
  rw [← insertItems_apply] at hseq
  unfold TurbaEngine.commit
  split
  · next hnil =>
    subst hnil
    simpa using And.intro h.seq h.exact
  · dsimp only
    split
    · unfold TurbaEngine.maybeTriggerFlush
      split
      · -- the memtable is large enough: sealing it is maintenance
        have hseal : Tree.Maintains (cfg ks).mergeOperator _ (Tree.sealActive _) :=
          Tree.maintains_sealActive hseq.tree
        exact ⟨⟨hseal.inv, fun k => (hseal.value k).trans (hseq.value k)⟩, hexact.sealActive⟩
      · exact ⟨hseq, hexact⟩
    · exact ⟨hseq, hexact⟩

include hbloom

/-- **Step.** Every guarded call keeps the relation of the tree to its writes. -/
theorem engineInv_step {o : EngineOp} (h : EngineInv cfg ks s) (hok : LastWriterGuard cfg ks s o)
    (hnext : (engineSys cfg).next s o = some s') : EngineInv cfg ks s' := by
  cases o with
  | commit items =>
    cases hnext
    obtain ⟨hseq, hexact⟩ := h.commit hop hok
    exact ⟨hseq, hexact⟩
  | tree ks' op =>
    obtain ⟨t, ht, rfl⟩ := Option.map_eq_some_iff.mp hnext
    by_cases hks : ks' = ks
    · subst hks
      have hstep : SeqInv (cfg ks') ⟨t, s.history ks' ++ [op]⟩ :=
        seqInv_step (hop ▸ foldsSegments_none) h.seq (hasRoom_of_none hop _ op)
          (by simp [seqSys, ht])
      have hexact := h.exact.apply hop hbloom h.seq.tree (hok rfl) ht
      exact ⟨by simpa using hstep, by simpa using hexact⟩
    · -- a call on another tree
      refine ⟨?_, ?_⟩
      · simpa [update_of_ne (Ne.symm hks)] using h.seq
      · simpa [update_of_ne (Ne.symm hks)] using h.exact

/-- **Run.** The relation holds in every state of a guarded run. -/
theorem engineInv_reach (h : (engineSys cfg).Reach (LastWriterGuard cfg ks) s) :
    EngineInv cfg ks s := by
  refine h.invariant (EngineInv cfg ks) ⟨⟨Tree.inv_empty, fun k => ?_⟩, ?_⟩
    fun s o s' hinv hok hnext => engineInv_step hop hbloom hinv hok hnext
  · change chainValue (cfg ks).mergeOperator k [] = none
    simp [chainValue, foldDeltas]
  · exact fun u hu => by cases hu

end

/-- **Last writer wins.** In every state of a guarded run, a point read and every scan of
a keyspace return the last write of each key in program order, committed or direct. -/
theorem last_writer_wins {cfg : Keyspace → TreeConfig} {ks : Keyspace}
    (hop : (cfg ks).mergeOperator = none) (hbloom : (cfg ks).sstable.BloomSound) {s : EngineState}
    (h : (engineSys cfg).Reach (LastWriterGuard cfg ks) s) :
    (∀ k, (s.engine.trees ks).get k = lastWrite (s.history ks) k) ∧
      (∀ start stop, Lists ((s.engine.trees ks).rangeStream (cfg ks) start stop)
        (fun k => start ≤ k ∧ k ≤ stop) (lastWrite (s.history ks))) ∧
      ∀ p visible, (s.engine.trees ks).seqno ≤ visible →
        Lists ((s.engine.trees ks).prefixAt (cfg ks) p visible) (fun k => p <+: k)
          (lastWrite (s.history ks)) := by
  have hinv := engineInv_reach hop hbloom h
  exact hinv.seq.reads hop hinv.exact

/-- Two keys are written directly and the second is removed by a committed batch. -/
def ignoredRemove : List EngineOp :=
  [.tree .dictionary (.insert [9] [0]), .tree .dictionary (.insert [1] [5]),
    .commit [⟨.dictionary, [1], [], .tombstone⟩]]

theorem committed_remove_ignored : ∃ s,
    (engineSys fun _ => smallConfig none 4096).Reach TransSys.anyStep s ∧
      lastWrite (s.history .dictionary) [1] = none ∧
      (s.engine.trees .dictionary).get [1] = some [5] ∧
      scanValue ((s.engine.trees .dictionary).rangeStream (smallConfig none 4096) [1] [1]) [1] =
        some [5] :=
  TransSys.exists_reach_of_run ignoredRemove (by decide +kernel)

/-- One direct write, flushed, and a batch that removes its key and writes another. -/
theorem last_writer_wins_flushed : ∃ s, (engineSys fun _ => smallConfig none 4096).Reach
      (LastWriterGuard (fun _ => smallConfig none 4096) .dictionary) s ∧
      (s.history .dictionary).length = 6 ∧
      ∀ k, (s.engine.trees .dictionary).get k = lastWrite (s.history .dictionary) k :=
  TransSys.exists_reach_and [.commit [⟨.spatial, [7], [7], .value⟩],
    .tree .dictionary (.insert [1] [5]), .tree .dictionary .sealActive,
    .tree .dictionary .flushSealed, .tree .dictionary .maybeCompact,
    .commit [⟨.dictionary, [1], [], .tombstone⟩, ⟨.dictionary, [2], [6], .value⟩]]
      (by decide +kernel)
    fun _ hs => (last_writer_wins rfl (fun _ _ _ => rfl) hs).1

end XyzDB
