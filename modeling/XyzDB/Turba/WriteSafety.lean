import XyzDB.Turba.HeapLayers

/-!
# Completed writes under concurrent seals and flushes

Once an insert has completed, every later read at a sufficient sequence number finds
its entry or a newer version of its key, and the durable watermark only covers entries
that are in a table the manifest refers to (`completed_write_found`).

Presence is `HeapInv`. Point reads and the watermark need more: both take the age of
the structures for the order of the sequence numbers. A point read stops at the
youngest structure that holds a visible version, and a flush declares everything up to
the highest number of its memtables durable. `Layered Older` says that sequence numbers
strictly ascend from the tables through the sealed memtables to the active one.
`WriteGuard` demands of every insert that its number fits in between; a writer that was
overtaken by a seal violates it.

The watermark argument (`DurableInv`) rests on one notion: a list of entries `Covers` a
number when the number is zero or not above one of its entries. What the tables of the
manifest cover is, by the order, in those tables.
-/

namespace XyzDB

open KeyRuns List Function SuperVersion XyzDB.Tree

/-- The order of the layers: sequence numbers ascend. -/
abbrev Older (x y : Entry) : Prop := x.seqno < y.seqno

/-- Inserts go to live memtables that are not written out, and fit the order there. -/
abbrev WriteGuard (cfg : TreeConfig) (s : HeapState) (l : HeapLabel) : Prop :=
  HeapGuard cfg s l ∧ ∀ p ∈ s.putOf l, s.Fits Older p.1 p.2

lemma Layered.seqDesc_chain (h : Layered Older s) (hinv : HeapInv s) (k : Key) :
    SeqDesc (s.sv.chain k) :=
  (h.pairwise_chain hinv k).imp fun hyx => hyx.elim id id

/-- Numbers are positive, and the tree's counter is raised before an insert. -/
structure WriterInv (s : HeapState) : Prop where
  pos : ∀ w ∈ s.writers, 0 < w.seqno
  raised : ∀ w ∈ s.writers, w.phase ≠ .drawn → w.seqno ≤ s.tree.seqno
  log : ∀ e ∈ s.log, 0 < e.seqno ∧ e.seqno ≤ s.tree.seqno

section

variable {cfg : TreeConfig} {s s' : HeapState} {l : HeapLabel}

/-- **Step.** Every step keeps the counter above the numbers inserted. -/
theorem writerInv_step (h : WriterInv s) (hstep : HeapStep cfg s l s') : WriterInv s' := by
  cases hstep with
  | quiet => exact h
  | direct item hl =>
    refine ⟨forall_mem_concat h.pos (Nat.succ_pos _), forall_mem_concat (fun w hw hp => ?_)
      fun _ => le_rfl, fun e he => ?_⟩
    · exact (h.raised w hw hp).trans (Nat.le_succ _)
    · exact ⟨(h.log e he).1, (h.log e he).2.trans (Nat.le_succ _)⟩
  | commit items =>
    exact ⟨forall_mem_concat h.pos (Nat.succ_pos _),
      forall_mem_concat h.raised fun hp => absurd rfl hp, h.log⟩
  | raise i w hw hphase =>
    have hmem := mem_of_getElem? hw
    refine ⟨forall_mem_set h.pos (h.pos w hmem), forall_mem_set (fun w' hw' hp => ?_)
      fun _ => le_max_right .., fun e he => ?_⟩
    · exact (h.raised w' hw' hp).trans (le_max_left ..)
    · exact ⟨(h.log e he).1, (h.log e he).2.trans (le_max_left ..)⟩
  | load i w hw hphase =>
    have hmem := mem_of_getElem? hw
    exact ⟨forall_mem_set h.pos (h.pos w hmem),
      forall_mem_set h.raised fun _ => h.raised w hmem (by rw [hphase]; simp), h.log⟩
  | put i w hw mem hphase item left hleft =>
    have hmem := mem_of_getElem? hw
    refine ⟨forall_mem_set h.pos (h.pos w hmem),
      forall_mem_set h.raised fun hp => absurd rfl hp, forall_mem_cons.mpr ⟨?_, h.log⟩⟩
    exact ⟨h.pos w hmem, h.raised w hmem (by rw [hphase]; simp)⟩
  | sealActive | snapshot | readOut | install | flag | persist | scan =>
    exact ⟨h.pos, h.raised, h.log⟩
  | advance =>
    unfold Tree.flushAdvance
    split <;> exact ⟨h.pos, h.raised, h.log⟩
  | scanStep _ hnext =>
    obtain ⟨sc, rfl⟩ := HeapState.scanStep_eq hnext
    exact ⟨h.pos, h.raised, h.log⟩

end

/-- A number is zero or not above an entry of the list. -/
def Covers (run : List Entry) (n : ℕ) : Prop := n = 0 ∨ ∃ x ∈ run, n ≤ x.seqno

lemma Covers.mono {run run' : List Entry} {n : ℕ} (h : Covers run n)
    (hsub : ∀ x ∈ run, x ∈ run') : Covers run' n :=
  h.imp_right fun ⟨x, hx, hn⟩ => ⟨x, hsub x hx, hn⟩

lemma Covers.max {run : List Entry} {m n : ℕ} (hm : Covers run m) (hn : Covers run n) :
    Covers run (max m n) :=
  max_rec' _ hm hn

/-- What a flush has installed and not yet persisted. -/
def HeapFlush.installedMax : HeapFlush → Option ℕ
  | .installed maxFlushed | .persisting maxFlushed => some maxFlushed
  | _ => none

/-- What a flush has persisted and not yet declared durable. -/
def HeapFlush.persistedMax : HeapFlush → Option ℕ
  | .persisted maxFlushed true => some maxFlushed
  | _ => none

/-- The watermark, and every number on its way to it, is covered by the tables. -/
structure DurableInv (s : HeapState) : Prop where
  snapshot : ∀ job, s.flush.job = some job → job.maxFlushed = 0 ∨
    ∃ m ∈ job.memtables, job.maxFlushed ≤ (s.mems m).highestSeqno
  installed : ∀ n, s.flush.installedMax = some n → Covers s.tree.current.version.run n
  persisted : ∀ n, s.flush.persistedMax = some n → Covers s.tree.recorded n
  durable : Covers s.tree.recorded s.tree.manifestDurableSeqno
  recorded : ∀ x ∈ s.tree.recorded, x ∈ s.tree.current.version.run
  newer : ∀ x ∈ s.tree.current.version.run, x ∈ s.tree.recorded ∨
    ∀ y ∈ s.tree.recorded, y.seqno < x.seqno

section

variable {cfg : TreeConfig} {s s' : HeapState} {l : HeapLabel}

/-- Memtables only grow. -/
lemma DurableInv.snapshot_mono (h : DurableInv s) {mems : ℕ → Memtable}
    (hm : ∀ job, s.flush.job = some job → ∀ m ∈ job.memtables,
      (s.mems m).highestSeqno ≤ (mems m).highestSeqno) (job : HeapJob)
    (hjob : s.flush.job = some job) :
    job.maxFlushed = 0 ∨ ∃ m ∈ job.memtables, job.maxFlushed ≤ (mems m).highestSeqno :=
  (h.snapshot job hjob).imp_right fun ⟨m, hmem, hle⟩ => ⟨m, hmem, hle.trans (hm job hjob m hmem)⟩

lemma HeapInv.mem_tables_of_mem (hinv : HeapInv s) {job : HeapJob}
    (hjob : s.flush.job = some job) (hdone : job.memtables[job.done]? = none) {m : ℕ}
    (hm : m ∈ job.memtables) {x : Entry} (hx : x ∈ (s.mems m).entries) :
    x ∈ job.tables.reverse.flatMap Table.entries := by
  have hmem : (s.mems m).entries ∈ job.tables.map Table.entries := by
    rw [(hinv.split hjob hdone).2, map_map]
    refine mem_filter.mpr ⟨mem_map_of_mem hm, ?_⟩
    simpa using ne_nil_of_mem hx
  obtain ⟨t, ht, heq⟩ := mem_map.mp hmem
  exact mem_flatMap.mpr ⟨t, mem_reverse.mpr ht, heq ▸ hx⟩

/-- **Install.** The installed tables cover the number of the flush. -/
theorem DurableInv.install (h : DurableInv s) (hinv : HeapInv s) (hord : Layered Older s)
    {job : HeapJob} (hjob : s.flush.job = some job) (hdone : job.memtables[job.done]? = none) :
    DurableInv { s with
      tree := s.tree.installFlush job.tables job.memtables.length
      flush := .installed job.maxFlushed } := by
  have hrun : (s.tree.current.version.withNewL0Tables job.tables).run =
      job.tables.reverse.flatMap Table.entries ++ s.tree.current.version.run :=
    Version.run_withNewL0Tables ..
  refine ⟨nofun, fun n hn => ?_, nofun, h.durable, fun x hx => ?_, fun x hx => ?_⟩
  · cases hn
    change Covers (s.tree.current.version.withNewL0Tables job.tables).run job.maxFlushed
    rw [hrun]
    rcases h.snapshot job hjob with hzero | ⟨m, hm, hle⟩
    · exact .inl hzero
    · -- the highest number of a memtable is that of one of its entries
      rcases (s.mems m).highest_mem with hzero | ⟨x, hx, hxs⟩
      · exact .inl (Nat.eq_zero_of_le_zero (hzero ▸ hle))
      · exact .inr ⟨x, mem_append_left _ (hinv.mem_tables_of_mem hjob hdone hm hx), hxs.symm ▸ hle⟩
  · change x ∈ (s.tree.current.version.withNewL0Tables job.tables).run
    rw [hrun]
    exact mem_append_right _ (h.recorded x hx)
  · have hx : x ∈ (s.tree.current.version.withNewL0Tables job.tables).run := hx
    rw [hrun] at hx
    rcases mem_append.mp hx with hx | hx
    · obtain ⟨m, hm, hx⟩ := hinv.mem_tables hjob hx
      have hlive : m ∈ s.live := mem_append_left _ ((hinv.job job hjob).front.subset hm)
      exact .inr fun y hy => hord.above y (h.recorded y hy) m hlive x hx
    · exact h.newer x hx

/-- **Step.** Every guarded step keeps the watermark covered. -/
theorem durableInv_step (hinv : HeapInv s) (hord : Layered Older s) (h : DurableInv s)
    (hstep : HeapStep cfg s l s') : DurableInv s' := by
  cases hstep with
  | quiet => exact h
  | direct | commit | raise | load | scan =>
    exact ⟨h.snapshot, h.installed, h.persisted, h.durable, h.recorded, h.newer⟩
  | put i w hw mem hphase item left hleft =>
    -- the highest number of a memtable only grows
    refine ⟨h.snapshot_mono fun job _ m _ => ?_, h.installed, h.persisted, h.durable, h.recorded,
      h.newer⟩
    change _ ≤ (update s.mems mem _ m).highestSeqno
    by_cases hm : m = mem
    · rw [hm, update_self]
      exact le_max_left ..
    · rw [update_of_ne hm]
  | sealActive hne =>
    -- the new active memtable is none that a snapshot has taken
    refine ⟨h.snapshot_mono fun job hjob m hm => ?_, h.installed, h.persisted, h.durable,
      h.recorded, h.newer⟩
    have hlive : m ∈ s.live := mem_append_left _ ((hinv.job job hjob).front.subset hm)
    change _ ≤ (update s.mems s.nextMem .new m).highestSeqno
    rw [update_of_ne (hinv.fresh m hlive).ne]
  | snapshot hidle =>
    refine ⟨fun job hjob => ?_, nofun, nofun, h.durable, h.recorded, h.newer⟩
    cases hjob
    refine (maxFlushed_mem _).imp_right fun ⟨m, hm, hle⟩ => ?_
    obtain ⟨a, ha, rfl⟩ := mem_map.mp hm
    exact ⟨a, ha, hle.ge⟩
  | readOut memtables maxFlushed done tables hflush mem hmem =>
    refine ⟨fun job hjob => ?_, nofun, nofun, h.durable, h.recorded, h.newer⟩
    cases hjob
    exact h.snapshot ⟨memtables, maxFlushed, done, tables⟩ (by rw [hflush]; rfl)
  | install memtables maxFlushed done tables hflush hdone =>
    exact h.install hinv hord (congrArg HeapFlush.job hflush) hdone
  | flag maxFlushed hflush =>
    have hcov := h.installed maxFlushed (by rw [hflush]; rfl)
    cases hen : s.tree.compactionEnabled with
    | false => exact ⟨nofun, nofun, nofun, h.durable, h.recorded, h.newer⟩
    | true =>
      refine ⟨nofun, fun n hn => ?_, nofun, h.durable, h.recorded, h.newer⟩
      cases hn
      exact hcov
  | persist maxFlushed hflush =>
    -- the manifest lists all that is installed
    have hcov := h.installed maxFlushed (by rw [hflush]; rfl)
    refine ⟨nofun, nofun, fun n hn => ?_, h.durable.mono h.recorded, fun x hx => hx,
      fun x hx => .inl hx⟩
    cases hn
    exact hcov
  | advance maxFlushed b hflush =>
    -- the durable mark moves only if the manifest was written
    unfold Tree.flushAdvance
    split
    · refine ⟨nofun, nofun, nofun, ?_, h.recorded, h.newer⟩
      cases b with
      | false => exact h.durable
      | true => exact h.durable.max (h.persisted maxFlushed (by rw [hflush]; rfl))
    · exact ⟨nofun, nofun, nofun, h.durable, h.recorded, h.newer⟩
  | scanStep _ hnext =>
    obtain ⟨sc, rfl⟩ := HeapState.scanStep_eq hnext
    exact ⟨h.snapshot, h.installed, h.persisted, h.durable, h.recorded, h.newer⟩

end

/-- Everything that holds along a guarded run. -/
structure WriteInv (s : HeapState) : Prop where
  heap : HeapInv s
  order : Layered Older s
  writers : WriterInv s
  durable : DurableInv s

lemma writeInv_init (cfg : TreeConfig) : WriteInv (heapSys cfg).init where
  heap := heapInv_init cfg
  order := layered_init _ cfg
  writers := ⟨nofun, nofun, nofun⟩
  durable := ⟨nofun, nofun, nofun, .inl rfl, nofun, nofun⟩

lemma writeInv_reach (hbloom : cfg.sstable.BloomSound)
    (h : (heapSys cfg).Reach (WriteGuard cfg) s) : WriteInv s := by
  refine h.invariant WriteInv (writeInv_init cfg) fun s l s' hs hok hnext => ?_
  have hstep := heapStep_of_next hnext
  exact ⟨heapInv_step hbloom hs.heap hok.1 hstep, layered_step hs.heap hs.order hok.2 hstep,
    writerInv_step hs.writers hstep, durableInv_step hs.heap hs.order hs.durable hstep⟩

/-- **Completed writes are found.** In every state of a guarded run, and for every insert
that has completed: a reader at or above its number that no merge operator disturbs
gets it or a newer visible version of its key, from a point read as from a scan; a scan
of an owned key folds a chain that has it; and if the durable watermark covers it, it is
in a table of the persisted manifest. -/
theorem completed_write_found {cfg : TreeConfig} (hbloom : cfg.sstable.BloomSound) {s : HeapState}
    (h : (heapSys cfg).Reach (WriteGuard cfg) s) {e : Entry} (he : e ∈ s.log) :
    e.seqno ≤ s.tree.seqno ∧ (∃ x ∈ s.sv.chain e.key, x.seqno = e.seqno) ∧
    (∀ visible, e.seqno ≤ visible → ∃ x ∈ s.sv.chain e.key,
      e.seqno ≤ x.seqno ∧ x.seqno ≤ visible ∧ s.sv.getAt e.key visible = x.live ∧
      ∀ r : ScanRange, r.IsScan → r.accept e.key = true → owned cfg.mergeOperator e.key = false →
        withKey Entry.key e.key (s.sv.scan cfg r visible) = [x].filter Entry.isValue) ∧
    (∀ visible, ∀ r : ScanRange, r.IsScan → r.accept e.key = true →
      withKey Entry.key e.key (s.sv.scan cfg r visible) =
        ((mvccRun visible cfg.mergeOperator (s.sv.chain e.key)).filter Entry.isValue).toList) ∧
    (e.seqno ≤ s.tree.manifestDurableSeqno →
      ∃ x ∈ s.tree.recorded, x.key = e.key ∧ x.seqno = e.seqno) := by
  have hinv := writeInv_reach hbloom h
  have hdesc := hinv.order.seqDesc_chain hinv.heap e.key
  obtain ⟨y, hy, hyk, hys⟩ := hinv.heap.present.exists_mem he
  have hychain : y ∈ s.sv.chain e.key := mem_chain.mpr ⟨hy, hyk⟩
  have hscan : ∀ visible, ∀ r : ScanRange, r.IsScan → r.accept e.key = true →
      withKey Entry.key e.key (s.sv.scan cfg r visible) =
        ((mvccRun visible cfg.mergeOperator (s.sv.chain e.key)).filter Entry.isValue).toList := by
    intro visible r hr hacc
    have hsorted : ∀ t ∈ s.sv.version.allTables, SortedLE t.entries := fun t ht =>
      hinv.heap.version.sorted_of_mem ht
    exact withKey_scan_of_desc cfg
      (fun t ht => hr.exact (hsorted t ht) (hinv.heap.exact t ht)) hsorted visible hdesc hacc
  refine ⟨(hinv.writers.log e he).2, ⟨y, hychain, hys⟩, fun visible hvis => ?_, hscan,
    fun hle => ?_⟩
  · -- the first visible version of the chain is the insert or a newer one
    obtain ⟨x, hx, hfind, hyx, hxv⟩ := hdesc.exists_find? hychain (hys ▸ hvis)
    refine ⟨x, hx, hys ▸ hyx, hxv, ?_, fun r hr hacc hown => ?_⟩
    · rw [getAt_eq hinv.heap.version.wf hinv.heap.version.disjoint hinv.heap.exact,
        hfind, Option.bind_some]
    · rw [hscan visible r hr hacc, mvccRun_of_not_owned
        (fun z hz => (mem_chain.mp hz).2) hown, hfind]
      cases hx : x.isValue <;> simp [Option.filter, hx]
  · -- the watermark is covered by a recorded entry, and all that is older is recorded too
    rcases hinv.durable.durable with hzero | ⟨z, hz, hzle⟩
    · exact absurd (hinv.writers.log e he).1 (by omega)
    · have hyz : y.seqno ≤ z.seqno := by omega
      rcases HeapState.mem_run.mp hy with ⟨m, hm, hym⟩ | hyt
      · exact absurd (hinv.order.above z (hinv.durable.recorded z hz) m hm y hym) (not_lt.mpr hyz)
      · rcases hinv.durable.newer y (Version.mem_run.mpr hyt) with hyr | hyr
        · exact ⟨y, hyr, hyk, hys⟩
        · exact absurd (hyr z hz) (by omega)

/-- A writer loads the super-version; before it inserts, its memtable is sealed and
written out; the flush drops the memtable with the late insert in it. -/
def lateInsert : List HeapLabel :=
  [.insert [9] [0], .write 0, .write 0, .insert [1] [5], .write 1, .sealActive, .flush, .flush,
    .write 1, .flush]

theorem completed_write_lost : ∃ s, (heapSys (smallConfig none 4096)).Reach TransSys.anyStep s ∧
    ⟨[1], [5], 2, .value⟩ ∈ s.log ∧ s.tree.seqno = 2 ∧ s.sv.getAt [1] 2 = none ∧
      s.sv.scan (smallConfig none 4096) (.closed [1] [1]) 2 = [] :=
  TransSys.exists_reach_of_run lateInsert (by decide +kernel)

/-- The same writes with the second insert before the seal, and a whole flush. -/
theorem completed_write_found_flushed : ∃ s, (heapSys (smallConfig none 4096)).Reach
    (WriteGuard (smallConfig none 4096)) s ∧ ⟨[1], [5], 2, .value⟩ ∈ s.log ∧
      s.tree.manifestDurableSeqno = 2 ∧ ∃ x ∈ s.tree.recorded, x.key = [1] ∧ x.seqno = 2 := by
  obtain ⟨s, hs, hlog, hdur⟩ : ∃ s, (heapSys (smallConfig none 4096)).Reach
      (WriteGuard (smallConfig none 4096)) s ∧ ⟨[1], [5], 2, .value⟩ ∈ s.log ∧
        s.tree.manifestDurableSeqno = 2 :=
    TransSys.exists_reach_of_runWith [.insert [9] [0], .write 0, .write 0, .insert [1] [5],
      .write 1, .write 1, .sealActive, .flush, .flush, .flush, .flush, .flush, .flush]
      (by decide +kernel)
  exact ⟨s, hs, hlog, hdur,
    (completed_write_found (fun _ _ _ => rfl) hs hlog).2.2.2.2 (le_of_eq hdur.symm)⟩

end XyzDB
