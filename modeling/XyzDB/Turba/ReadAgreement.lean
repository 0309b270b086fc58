import XyzDB.Turba.FlushSafety
import XyzDB.Turba.LevelSafety

/-!
# Point reads and scans under concurrency

A point read stops at the first structure that holds its key: the active memtable,
the sealed ones from the newest on, level `0` from the newest table on, the deep
levels. A scan merges all of them by sequence number. Both return the same when, for
every key, the order of the structures is the order of the sequence numbers, that is
when every chain descends.

`Agrees` ties the chains to the log of all inserts: each chain descends, consists of
logged entries, and its head stands for the highest logged version of its key
(`newest`). It is kept by every step but three, and for those the guard
`AgreeGuard` says when:

* an insert, if every logged version that is not below it still is in the active
  memtable, where the memtable sorts it in (`InOrder`). A commit draws its number
  before it inserts, so it may come after a higher version was sealed, flushed or,
  being a tombstone, compacted away;
* an install, if no other flush dropped memtables since the snapshot, so that the new
  tables take the place of their memtables;
* the write of a table, if no key straddles two data blocks, since a point read
  looks into one block.

Out of order, the two reads disagree even when all threads are at rest
(`point_read_stale`).
-/

namespace XyzDB

open KeyRuns List Function SuperVersion Version Entry

/-- The logged version of a key with the highest sequence number, the one inserted last
among equals. -/
def newest (k : Key) : List Entry → Option Entry
  | [] => none
  | e :: log =>
    if e.key = k then
      match newest k log with
      | some x => if e.seqno < x.seqno then some x else some e
      | none => some e
    else newest k log

lemma newest_eq_none {k : Key} (h : newest k log = none) : ∀ y ∈ log, y.key ≠ k := by
  induction log with
  | nil => simp
  | cons e log ih =>
    rw [newest] at h
    split at h
    · split at h
      · split at h <;> cases h
      · cases h
    · next hk => exact forall_mem_cons.mpr ⟨hk, ih h⟩

lemma newest_eq_some {k : Key} {x : Entry} (h : newest k log = some x) :
    x ∈ log ∧ x.key = k ∧ ∀ y ∈ log, y.key = k → y.seqno ≤ x.seqno := by
  induction log generalizing x with
  | nil => cases h
  | cons e log ih =>
    rw [newest] at h
    split at h
    · next hk =>
      split at h
      · next y hy =>
        obtain ⟨hmem, hyk, hmax⟩ := ih hy
        split at h
        · next hlt =>
          cases h
          refine ⟨.tail _ hmem, hyk, forall_mem_cons.mpr ⟨fun _ => ?_, hmax⟩⟩
          exact le_of_lt hlt
        · next hge =>
          cases h
          refine ⟨mem_cons_self, hk, forall_mem_cons.mpr ⟨fun _ => le_rfl, ?_⟩⟩
          exact fun z hz hzk => (hmax z hz hzk).trans (Nat.le_of_not_lt hge)
      · next hnone =>
        cases h
        refine ⟨mem_cons_self, hk, forall_mem_cons.mpr ⟨fun _ => le_rfl, ?_⟩⟩
        exact fun z hz hzk => absurd hzk (newest_eq_none hnone z hz)
    · next hk =>
      obtain ⟨hmem, hxk, hmax⟩ := ih h
      exact ⟨.tail _ hmem, hxk, forall_mem_cons.mpr ⟨fun hek => absurd hek hk, hmax⟩⟩

/-- The chains of a super-version descend and agree with the log of all inserts. -/
structure Agrees (sv : SuperVersion Memtable) (seqno : ℕ) (log : List Entry) : Prop where
  desc : ∀ k, SeqDesc (sv.chain k)
  bound : ∀ k, ∀ e ∈ sv.chain k, e.seqno ≤ seqno
  logged : ∀ k, ∀ e ∈ sv.chain k, e ∈ log
  head : ∀ k, (sv.chain k).head?.bind live = (newest k log).bind live

/-- Every logged version of the key that is not below the entry is in the active
memtable. -/
abbrev InOrder (active : Memtable) (log : List Entry) (e : Entry) : Prop :=
  ∀ x ∈ log, x.key = e.key → x.seqno < e.seqno ∨
    ∃ y ∈ active.entries, y.key = x.key ∧ y.seqno = x.seqno

variable {e : Entry}

namespace Agrees

variable {sv sv' : SuperVersion Memtable} {seqno : ℕ} {log : List Entry}

variable (h : Agrees sv seqno log)

include h

lemma of_chain (hchain : ∀ k, sv'.chain k = sv.chain k) : Agrees sv' seqno log := by
  refine ⟨fun k => ?_, fun k => ?_, fun k => ?_, fun k => ?_⟩ <;> rw [hchain k]
  · exact h.desc k
  · exact h.bound k
  · exact h.logged k
  · exact h.head k

section

variable (he : InOrder sv.active log e)

include he

lemma older_lt : ∀ x ∈ sv.older e.key, x.seqno < e.seqno := by
  intro x hx
  have hchain : sv.chain e.key = withKey key e.key sv.active.entries ++ sv.older e.key :=
    sv.chain_eq e.key
  have hdesc := h.desc e.key
  have hlog := h.logged e.key x (by rw [hchain]; exact mem_append_right _ hx)
  have hxk := (mem_older.mp hx).1
  rcases he x hlog hxk with hlt | ⟨y, hy, hyk, hys⟩
  · exact hlt
  · -- the chain descends from the active memtable to the older structures
    rw [hchain] at hdesc
    have hlt := (pairwise_append.mp hdesc).2.2 y (mem_withKey.mpr ⟨hy, hyk.trans hxk⟩) x hx
    omega

lemma head_put :
    ((SuperVersion.mk (sv.active.insert e) sv.sealed sv.version).chain e.key).head?.bind live =
      (newest e.key (e :: log)).bind live := by
  have hdesc := seqDesc_chain_put (h.desc e.key) (h.older_lt he)
  by_cases hlow : ∃ x, newest e.key log = some x ∧ e.seqno < x.seqno
  · -- a higher version is in the active memtable: the head stays
    obtain ⟨x, hx, hlt⟩ := hlow
    obtain ⟨hmem, hxk, -⟩ := newest_eq_some hx
    have hnew : newest e.key (e :: log) = some x := by simp only [newest, hx, if_pos hlt, if_true]
    rcases he x hmem hxk with habs | ⟨y, hy, hyk, hys⟩
    · omega
    have hychain : y ∈ sv.chain e.key :=
      mem_chain.mpr ⟨mem_run.mpr (.inl hy), hyk.trans hxk⟩
    cases hc : sv.chain e.key with
    | nil => rw [hc] at hychain; cases hychain
    | cons z rest =>
      have hz : z ∈ sv.chain e.key := by rw [hc]; exact mem_cons_self
      have hmax : ∀ w ∈ sv.chain e.key, w.seqno ≤ z.seqno := by
        have hd := h.desc e.key
        rw [hc] at hd ⊢
        exact forall_mem_cons.mpr ⟨le_rfl, fun w hw => le_of_lt (rel_of_pairwise_cons hd hw)⟩
      have hez : e.seqno < z.seqno := by
        have := hmax y hychain
        omega
      have hhead := hdesc.head?_eq_some
        (mem_chain_put_of_mem hz (.inr (ne_of_gt hez))) fun w hw => by
          rcases mem_chain_put hw with rfl | hw
          · exact le_of_lt hez
          · exact hmax w hw
      rw [hhead, hnew, ← hx, ← h.head e.key, hc]
      rfl
  · -- no logged version is higher: the insert is the head
    have hnew : newest e.key (e :: log) = some e := by
      simp only [newest, if_true]
      split
      · next x hx => exact if_neg fun hlt => hlow ⟨x, hx, hlt⟩
      · rfl
    have hmax := (newest_eq_some hnew).2.2
    have hhead := hdesc.head?_eq_some (mem_chain_put_self e) fun w hw => by
      rcases mem_chain_put hw with rfl | hw
      · exact le_rfl
      · exact hmax w (.tail _ (h.logged e.key w hw)) (mem_chain.mp hw).2
    rw [hhead, hnew]

/-- **Insert.** An insert in order keeps the agreement. -/
theorem put : Agrees (SuperVersion.mk (sv.active.insert e) sv.sealed sv.version) (max seqno e.seqno)
      (e :: log) := by
  refine ⟨fun k => seqDesc_chain_put (h.desc k) (h.older_lt he), fun k x hx => ?_,
    fun k x hx => ?_, fun k => ?_⟩
  · rcases mem_chain_put hx with rfl | hx
    · exact le_max_right ..
    · exact (h.bound k x hx).trans (le_max_left ..)
  · rcases mem_chain_put hx with rfl | hx
    · exact mem_cons_self
    · exact .tail _ (h.logged k x hx)
  · by_cases hk : e.key = k
    · subst hk
      exact h.head_put he
    · rw [chain_put_ne hk, h.head k, newest, if_neg hk]

end

/-- **Compaction.** Without a merge operator a compaction keeps the agreement. -/
theorem compact (hop : cfg.mergeOperator = none) {next : ℕ}
    (hv : sv.version.Inv next) {task : CompactionTask} (sh : TaskShape sv.version task) {id : ℕ}
    (ho : Outputs sv.version task (outputTables cfg task id)) :
    Agrees (SuperVersion.mk sv.active sv.sealed
      (applyOutputs sv.version task (outputTables cfg task id))) seqno log := by
  suffices hspec : ∀ k, let c := (SuperVersion.mk sv.active sv.sealed
      (applyOutputs sv.version task (outputTables cfg task id))).chain k
      SeqDesc c ∧ (∀ e ∈ c, e.seqno ≤ seqno) ∧ (∀ e ∈ c, e ∈ log) ∧
        c.head?.bind live = (newest k log).bind live from
    ⟨fun k => (hspec k).1, fun k => (hspec k).2.1, fun k => (hspec k).2.2.1,
      fun k => (hspec k).2.2.2⟩
  intro k
  obtain ⟨A, seg, B, h1, h2, h3, h4⟩ :=
    chain_compact hv.wf hv.disjoint sh ho (h.desc k)
  have hdesc := h.desc k
  have hbound := h.bound k
  have hlogged := h.logged k
  have hhead := h.head k
  rw [h1] at hdesc hbound hlogged hhead
  obtain ⟨s1, s2, s3⟩ := chain_compact_spec hdesc hbound (hop ▸ foldsSegments_none) h3 h4
  have hsub : compactRun task.isLastLevel cfg.mergeOperator seg ⊆ seg := by
    rw [hop]
    exact compactRun_none_subset
  rw [hop, chainValue_none, chainValue_none, ← hop] at s3
  rw [h2]
  refine ⟨s1, s2, fun e he => hlogged e ?_, s3.trans hhead⟩
  simp only [mem_append] at he ⊢
  exact he.imp_right fun he => he.imp_left fun he => hsub he

end Agrees

/-- Inserts come in order, flushes write aligned tables and install them in the place
of their memtables, and nothing is ingested past the memtables. -/
abbrev AgreeGuard (cfg : TreeConfig) (s : TreeState) (l : TreeLabel) : Prop :=
  (∀ e ∈ s.entryOf l, InOrder s.tree.current.active s.log e) ∧
  (∀ job ∈ (TreeState.ownerOf l).bind s.jobs,
    (job.tables.isNone = true → ∀ m ∈ job.memtables, Table.BlocksAligned cfg.sstable m.entries) ∧
    (job.tables.isSome = true → s.drops = job.drops)) ∧
  l.isIngest = false

/-- The invariant of a tree whose reads agree. -/
structure AgreeInv (cfg : TreeConfig) (d : TreeData) : Prop where
  level : LevelInv cfg d
  flush : FlushInv d
  agrees : Agrees d.current d.seqno d.log
  exact : ∀ t ∈ d.current.version.allTables, t.ReadsExact
  pending : ∀ o, ∀ t ∈ d.pending (some o), t.ReadsExact

section

variable {cfg : TreeConfig} {s : TreeState} {l : TreeLabel} {d : TreeData}

/-- What a step must meet so that its tables read exactly: flushes write aligned tables and
install them in the place of their memtables, and nothing is ingested. -/
abbrev ExactGuard (cfg : TreeConfig) (s : TreeState) (l : TreeLabel) : Prop :=
  (∀ job ∈ (TreeState.ownerOf l).bind s.jobs,
    (job.tables.isNone = true → ∀ m ∈ job.memtables, Table.BlocksAligned cfg.sstable m.entries) ∧
    (job.tables.isSome = true → s.drops = job.drops)) ∧
  l.isIngest = false

/-- The tables of a tree and of its flushes read exactly. -/
structure ExactInv (cfg : TreeConfig) (d : TreeData) : Prop where
  level : LevelInv cfg d
  flush : FlushInv d
  exact : ∀ t ∈ d.current.version.allTables, t.ReadsExact
  pending : ∀ o, ∀ t ∈ d.pending (some o), t.ReadsExact

lemma ExactGuard.drops (h : ExactGuard cfg s l) {o : Owner}
    (ho : TreeState.ownerOf l = some o) {job : FlushJob} {ts : List Table}
    (hjob : s.jobs o = some job) (hts : job.tables = some ts) : s.drops = job.drops :=
  (h.1 job (by rw [ho]; exact hjob)).2 (by simp [hts])

/-- **Step.** Every guarded step keeps tables that read exactly, if the outputs it swaps in
do. -/
theorem exactInv_step_of_outputs (hlevels : LevelsGuard cfg s l) (hbloom : cfg.sstable.BloomSound)
    (h : ExactInv cfg s.data) (hok : ExactGuard cfg s l)
    (houts : ∀ task outs, s.maint.pending = some (task, some outs) → ∀ t ∈ outs, t.ReadsExact)
    (hstep : TreeStep cfg s l d) : ExactInv cfg d := by
  have hlevel := levelInv_step h.level hlevels hstep
  have hflush := flushInv_step h.flush hstep
  cases hstep with
  | quiet => exact h
  | put | sealActive | startMove | startCompact => exact ⟨hlevel, hflush, h.exact, h.pending⟩
  | ingest entries hl =>
    -- the guard leaves bulk loads out
    rw [hl] at hok
    cases hok.2
  | snapshot o hne =>
    refine ⟨hlevel, hflush, h.exact, fun o' t ht => ?_⟩
    rcases TreeData.mem_pending_update (d := s.data) ht with ht | ht
    · cases ht
    · exact h.pending o' t ht
  | write o ho job enabled hjob hnone =>
    refine ⟨hlevel, hflush, h.exact, fun o' t ht => ?_⟩
    rcases TreeData.mem_pending_update (d := s.data) ht with ht | ht
    · have hjobs : job ∈ (TreeState.ownerOf l).bind s.jobs := by rw [ho]; exact hjob
      exact flushTables_readsExact hbloom ((hok.1 job hjobs).1 (by simp [hnone])) enabled _ t ht
    · exact h.pending o' t ht
  | install o ho job tables hjob htables =>
    refine ⟨hlevel, hflush, fun t ht => ?_, fun o' t ht => ?_⟩
    · obtain ⟨n, hn, ht⟩ := mem_allTables.mp ht
      rcases mem_withNewL0Tables.mp ht with ht | ⟨-, ht⟩
      · exact h.exact t (mem_allTables.mpr ⟨n, hn, ht⟩)
      · refine h.pending o t ?_
        simp only [TreeData.pending, show s.data.jobs o = some job from hjob, Option.bind_some,
          htables]
        exact ht
    · rcases TreeData.mem_pending_update (d := s.data) ht with ht | ht
      · cases ht
      · exact h.pending o' t ht
  | applyMove task hc =>
    -- no table of the new version is one the old version did not have
    obtain ⟨sh, -⟩ := h.level.move hc
    refine ⟨hlevel, hflush, fun t ht => h.exact t ?_, h.pending⟩
    rcases mem_allTables_applyOutputs sh ht with ht | ht
    · exact ht
    · exact mem_allTables.mpr (sh.exists_level (mem_of_mem_take ht))
  | applyCompact task outs hc =>
    obtain ⟨sh, -⟩ := h.level.outputs hc
    refine ⟨hlevel, hflush, fun t ht => ?_, h.pending⟩
    rcases mem_allTables_applyOutputs sh ht with ht | ht
    · exact h.exact t ht
    · exact houts task outs hc t ht

lemma exactInv_step (hop : cfg.mergeOperator = none) (hbloom : cfg.sstable.BloomSound)
    (h : ExactInv cfg s.data) (hok : ExactGuard cfg s l) (hstep : TreeStep cfg s l d) :
    ExactInv cfg d := by
  refine exactInv_step_of_outputs (levelsGuard_of_none hop hok.2) hbloom h hok ?_ hstep
  intro task outs hc
  obtain ⟨sh, -, id, rfl⟩ := h.level.outputs hc
  exact execute_readsExact (fun u hu => sh.inputs_sorted h.level.registry.version.wf hu) hop hbloom

lemma ExactInv.chain_move (h : ExactInv cfg s.data) {task : CompactionTask}
    (hc : s.maint.pending = some (task, none)) (k : Key) :
    (s.tree.applyCompaction task (task.inputTables.take 1)).current.chain k =
      s.tree.current.chain k := by
  obtain ⟨sh, input, hin⟩ := h.level.move hc
  have hv := h.level.registry.version
  have htake : task.inputTables.take 1 = [input] := by rw [hin]; rfl
  rw [htake]
  exact SuperVersion.chain_move hv.wf hv.disjoint sh hin k

/-- **Step.** Every guarded step keeps the agreement of the reads. -/
theorem agreeInv_step (hop : cfg.mergeOperator = none) (hbloom : cfg.sstable.BloomSound)
    (h : AgreeInv cfg s.data) (hok : AgreeGuard cfg s l) (hstep : TreeStep cfg s l d) :
    AgreeInv cfg d := by
  have hexact : ExactInv cfg s.data := ⟨h.level, h.flush, h.exact, h.pending⟩
  obtain ⟨hlevel, hflush, hreads, hpending⟩ := exactInv_step hop hbloom hexact hok.2 hstep
  suffices hagrees : Agrees d.current d.seqno d.log from
    ⟨hlevel, hflush, hagrees, hreads, hpending⟩
  cases hstep with
  | put e he => exact h.agrees.put (hok.1 e he)
  | ingest entries hl =>
    rw [hl] at hok
    cases hok.2.2
  | sealActive hne => exact h.agrees.of_chain fun k => congrArg (withKey key k) run_seal
  | install o ho job tables hjob htables =>
    exact h.agrees.of_chain fun k => congrArg (withKey key k)
      (h.flush.run_install hjob htables (ExactGuard.drops hok.2 ho hjob htables))
  | applyMove task hc => exact h.agrees.of_chain fun k => hexact.chain_move hc k
  | applyCompact task outs hc =>
    obtain ⟨sh, hout, id, hid⟩ := h.level.outputs hc
    rw [hid] at hout
    have := h.agrees.compact hop h.level.registry.version sh hout
    rw [← hid] at this
    exact this
  | _ => exact h.agrees

end

lemma exactInv_init (cfg : TreeConfig) : ExactInv cfg (treeSys cfg).init.data := by
  refine ⟨levelInv_init cfg, flushInv_init cfg, ?_, fun o => ?_⟩
  · exact fun t ht => by cases ht
  · cases o <;> exact fun t ht => by cases ht

lemma agreeInv_init (cfg : TreeConfig) : AgreeInv cfg (treeSys cfg).init.data := by
  obtain ⟨hlevel, hflush, hreads, hpending⟩ := exactInv_init cfg
  refine ⟨hlevel, hflush, ⟨fun k => List.Pairwise.nil, ?_, ?_, fun k => rfl⟩, hreads, hpending⟩
  · exact fun k e he => by cases he
  · exact fun k e he => by cases he

/-- **Run.** The reads agree in every state of a guarded run. -/
theorem agreeInv_reach (hop : cfg.mergeOperator = none) (hbloom : cfg.sstable.BloomSound)
    (h : (treeSys cfg).Reach (AgreeGuard cfg) s) : AgreeInv cfg s.data :=
  h.invariant (fun s => AgreeInv cfg s.data) (agreeInv_init cfg) fun _ _ _ hinv hok hnext =>
    agreeInv_step hop hbloom hinv hok (treeStep_of_next hnext)

/-- **Point reads agree with scans.** In every state of a guarded run a point read
returns the value of the version of its key with the highest sequence number ever
inserted, and so does every scan that covers the key. -/
theorem reads_agree {cfg : TreeConfig} (hop : cfg.mergeOperator = none)
    (hbloom : cfg.sstable.BloomSound) {s : TreeState}
    (h : (treeSys cfg).Reach (AgreeGuard cfg) s) (k : Key) :
    s.tree.get k = (newest k s.log).bind live ∧ (∀ start stop, start ≤ k → k ≤ stop →
        scanValue (s.tree.rangeStream cfg start stop) k = s.tree.get k) ∧
      ∀ p, p <+: k → scanValue (s.tree.prefixAt cfg p s.tree.seqno) k = s.tree.get k := by
  have hinv := agreeInv_reach hop hbloom h
  have htree : s.tree.Inv :=
    ⟨hinv.level.registry.version, hinv.agrees.desc, hinv.agrees.bound⟩
  have hvalue : ∀ k, chainValue cfg.mergeOperator k (s.tree.current.chain k) =
      (newest k s.log).bind live := by
    intro k
    rw [hop, chainValue_none]
    exact hinv.agrees.head k
  have hget : s.tree.get k = (newest k s.log).bind live :=
    (getAt_eq_chainValue htree.version.wf htree.version.disjoint hinv.exact
      (by rw [hop]; rfl) (htree.bound k)).trans (hvalue k)
  refine ⟨hget, fun start stop h1 h2 => ?_, fun p hp => ?_⟩
  · rw [hget]
    exact (htree.lists_rangeStream hvalue hinv.exact start stop).scanValue ⟨h1, h2⟩
  · rw [hget]
    exact (htree.lists_prefixAt hvalue p le_rfl).scanValue hp

/-- The steps of commits, seals, flushes and compactions. -/
def TreeLabel.commitsOrMaintains : TreeLabel → Bool
  | .insert _ _ | .remove _ | .ingestSorted _ => false
  | _ => true

/-- No thread is under way. -/
def TreeState.Quiescent (s : TreeState) : Prop :=
  (∀ i, s.flushes i = .idle) ∧ s.maint = .idle ∧ ∀ c, s.commits c = none

/-- Two commits of one key draw their numbers; the later number is inserted and sealed
before the earlier one is inserted. -/
def staleRun : List TreeLabel :=
  [.commitSeqno 0 [([1], [5], .value)], .commitSeqno 1 [([1], [6], .value)], .commitInsert 1,
    .commitInsert 1, .sealActive, .commitInsert 0, .commitInsert 0]

theorem point_read_stale : ∃ s, (treeSys (smallConfig none 4096)).Reach
    (fun _ l => l.commitsOrMaintains = true) s ∧ s.Quiescent ∧
      newest [1] s.log = some ⟨[1], [6], 2, .value⟩ ∧ s.tree.get [1] = some [5] ∧
      scanValue (s.tree.rangeStream (smallConfig none 4096) [1] [1]) [1] = some [6] := by
  obtain ⟨s, hs⟩ : ∃ s, (treeSys (smallConfig none 4096)).runWith
      (fun _ l => l.commitsOrMaintains = true) (treeSys (smallConfig none 4096)).init staleRun =
        some s := ⟨_, rfl⟩
  refine ⟨s, TransSys.reach_of_runWith hs, ?_⟩
  cases hs
  refine ⟨⟨fun i => rfl, rfl, fun c => ?_⟩, rfl, by decide +kernel, by decide +kernel⟩
  by_cases h0 : c = 0
  · subst h0
    rfl
  · by_cases h1 : c = 1
    · subst h1
      rfl
    · change update (update (update (update (update
        (update (fun _ => none) 0 _) 1 _) 1 _) 1 none) 0 _) 0 none c = none
      simp only [update_of_ne h0, update_of_ne h1]

/-- The same commits with the earlier number inserted first, then a flush and a
compaction. -/
theorem reads_agree_in_order : ∃ s, (treeSys (smallConfig none 4096)).Reach
    (AgreeGuard (smallConfig none 4096)) s ∧ (s.tree.current.version.level 1).length = 1 ∧
      s.log.length = 2 ∧ s.tree.get [1] = (newest [1] s.log).bind live := by
  obtain ⟨s, hs, hlevel, hlog⟩ : ∃ s, (treeSys (smallConfig none 4096)).Reach
      (AgreeGuard (smallConfig none 4096)) s ∧ (s.tree.current.version.level 1).length = 1 ∧
        s.log.length = 2 :=
    TransSys.exists_reach_of_runWith ([.commitSeqno 0 [([1], [5], .value)],
      .commitSeqno 1 [([1], [6], .value)], .commitInsert 0, .commitInsert 1, .sealActive] ++
      fullFlush 0 ++ fullCompact) (by decide +kernel)
  exact ⟨s, hs, hlevel, hlog, (reads_agree rfl (fun _ _ _ => rfl) hs [1]).1⟩

end XyzDB
