import XyzDB.Turba.Reads

/-!
# What the operations of a tree keep

`Version.Inv` is the invariant of the levels: unique ids below the next one to be
handed out, sorted tables, disjoint deep levels. Flushes and ingestion keep it
(`Version.Inv.writeTables`), and so does the outcome of any task whose outputs fit
(`Version.Inv.applyOutputs`).

`Tree.Inv` adds the invariant of the chains: along the chain of each key, sequence
numbers descend. Maintenance (sealing, flushing, compacting, moving tables) keeps it
and does not change what any chain stands for (`Tree.Maintains`). This is the
bridge between the two orders a tree is read in: as long as structure and sequence
numbers agree, point reads and scans return the value of the chain.
-/

namespace XyzDB

open KeyRuns List SuperVersion Entry Memtable

variable {task : CompactionTask} {cfg : TreeConfig} {e : Entry} {k : Key}

/-- The invariant of the levels of a tree. -/
structure Version.Inv (v : Version) (nextTableId : ℕ) : Prop where
  wf : v.WellFormed
  disjoint : v.Disjoint
  ids : ∀ n < maxLevels, ∀ t ∈ v.level n, t.id < nextTableId

namespace Version.Inv

variable {v : Version} {next next' : ℕ}

lemma new : Version.new.Inv next := ⟨wellFormed_new, disjoint_new, by simp⟩

variable (h : v.Inv next)

include h

lemma mono (hle : next ≤ next') : v.Inv next' :=
  ⟨h.wf, h.disjoint, fun n hn t ht => (h.ids n hn t ht).trans_le hle⟩

lemma id_ne {n : ℕ} (hn : n < maxLevels) {t : Table} (ht : t ∈ v.level n)
    {id : ℕ} (hid : next ≤ id) : t.id ≠ id := ((h.ids n hn t ht).trans_le hid).ne

lemma withNewL0Tables {ts : List Table} (hnodup : (ts.map Table.id).Nodup)
    (hnew : ∀ t ∈ ts, ∀ n < maxLevels, ∀ u ∈ v.level n, u.id ≠ t.id)
    (hlt : ∀ t ∈ ts, t.id < next) (hsorted : ∀ t ∈ ts, SortedLE t.entries) :
    (v.withNewL0Tables ts).Inv next := by
  refine ⟨⟨fun n hn => ?_, fun n hn m hm t ht u hu hid => ?_, fun n hn t ht => ?_⟩,
    fun n h1 hn => ?_, fun n hn t ht => ?_⟩
  · rcases Nat.eq_zero_or_pos n with rfl | h0
    · rw [withNewL0Tables_level_zero, map_append]
      refine nodup_append.mpr ⟨h.wf.nodup 0 hn, hnodup, fun a ha b hb hab => ?_⟩
      obtain ⟨u, hu, rfl⟩ := mem_map.mp ha
      obtain ⟨t, ht, rfl⟩ := mem_map.mp hb
      exact hnew t ht 0 hn u hu hab
    · rw [v.withNewL0Tables_level_pos ts (ne_of_gt h0)]
      exact h.wf.nodup n hn
  · rcases mem_withNewL0Tables.mp ht with ht' | ⟨h0, ht'⟩ <;>
      rcases mem_withNewL0Tables.mp hu with hu' | ⟨h0', hu'⟩
    · exact h.wf.level_eq n hn m hm t ht' u hu' hid
    · exact absurd hid (hnew u hu' n hn t ht')
    · exact absurd hid.symm (hnew t ht' m hm u hu')
    · rw [h0, h0']
  · rcases mem_withNewL0Tables.mp ht with ht | ⟨-, ht⟩
    · exact h.wf.sorted n hn t ht
    · exact hsorted t ht
  · rw [v.withNewL0Tables_level_pos ts (by omega)]
    exact h.disjoint n h1 hn
  · rcases mem_withNewL0Tables.mp ht with ht | ⟨-, ht⟩
    · exact h.ids n hn t ht
    · exact hlt t ht

lemma writeTables (cfg : SSTableConfig) {chunks : List (List Entry)}
    (hsorted : ∀ c ∈ chunks, SortedLE c) :
    (v.withNewL0Tables (XyzDB.writeTables cfg next chunks)).Inv (next + chunks.length) := by
  refine (h.mono (Nat.le_add_right next chunks.length)).withNewL0Tables
    (writeTables_nodup cfg next chunks)
    (fun t ht n hn u hu => h.id_ne hn hu (writeTables_id_mem ht).1)
    (fun t ht => (writeTables_id_mem ht).2)
    fun t ht => hsorted _ (writeTables_entries_mem ht)

lemma applyOutputs (sh : TaskShape v task) {outs : List Table}
    (ho : Outputs v task outs) (hlt : ∀ o ∈ outs, o.id < next) :
    (XyzDB.applyOutputs v task outs).Inv next := by
  refine ⟨wellFormed_applyOutputs h.wf sh ho, disjoint_applyOutputs h.wf h.disjoint sh ho,
    fun n hn t ht => ?_⟩
  rcases (mem_applyOutputs sh).mp ht with ⟨ht, -⟩ | ⟨-, ht⟩
  · exact h.ids n hn t ht
  · exact hlt t ht

lemma sorted_of_mem {t : Table} (ht : t ∈ v.allTables) : SortedLE t.entries := by
  obtain ⟨n, hn, ht⟩ := mem_allTables.mp ht
  exact h.wf.sorted n hn t ht

omit h

end Version.Inv

/-- The output writer has room between the entries of every owned key of a task. -/
abbrev TaskHasRoom (cfg : TreeConfig) (task : CompactionTask) : Prop :=
  WriterHasRoom cfg.mergeOperator cfg.leveled.targetTableSize
    (task.output cfg.heap cfg.mergeOperator)

lemma taskHasRoom_of_none (h : cfg.mergeOperator = none) (task : CompactionTask) :
    TaskHasRoom cfg task := by
  unfold TaskHasRoom
  rw [h]
  exact writerHasRoom_none

/-- The tables a task is executed into. -/
def outputTables (cfg : TreeConfig) (task : CompactionTask) (nextTableId : ℕ) : List Table :=
  task.execute cfg.sstable cfg.heap cfg.mergeOperator cfg.leveled.targetTableSize nextTableId

/-- The tasks of a decision fit the version it was taken on. -/
def Round.Sound (v : Version) : Round → Prop
  | .done | .stalled => True
  | .move task => Nonempty (TaskShape v task) ∧ ∃ input, task.inputTables = [input]
  | .compact task => Nonempty (TaskShape v task)

/-- The output writer of the task of a decision has room. -/
def Round.HasRoom (cfg : TreeConfig) : Round → Prop
  | .compact task => TaskHasRoom cfg task
  | _ => True

instance (cfg : TreeConfig) : DecidablePred (Round.HasRoom cfg)
  | .compact task => inferInstanceAs (Decidable (TaskHasRoom cfg task))
  | .done | .stalled | .move _ => inferInstanceAs (Decidable True)

lemma Round.hasRoom_of_none (h : cfg.mergeOperator = none) (r : Round) : r.HasRoom cfg := by
  cases r with
  | compact task => exact taskHasRoom_of_none h task
  | done => trivial
  | stalled => trivial
  | move task => trivial

lemma single_of_isTrivialMoveCandidate {cfg : LeveledConfig}
    (h : isTrivialMoveCandidate task v cfg = true) : ∃ input, task.inputTables = [input] := by
  unfold isTrivialMoveCandidate at h
  cases hin : task.inputTables with
  | nil => simp [hin] at h
  | cons input rest =>
    cases rest with
    | nil => exact ⟨input, rfl⟩
    | cons _ _ => simp [hin] at h

lemma Round.sound_of_shape {cfg : LeveledConfig} (sh : Nonempty (TaskShape v task)) (b : Bool) :
    Round.Sound v (if b && isTrivialMoveCandidate task v cfg then .move task
      else .compact task) := by
  split
  · next h => exact ⟨sh, single_of_isTrivialMoveCandidate (Bool.and_eq_true_iff.mp h).2⟩
  · exact sh

lemma maybeRound_sound (cfg : TreeConfig) (v : Version) : (maybeRound cfg v).Sound v := by
  unfold maybeRound
  split
  · trivial
  · next task h => exact Round.sound_of_shape (taskShape_choose h) true

lemma majorRound_sound (cfg : TreeConfig) (observer : Bool) (baseline consumed : ℕ)
    (v : Version) : (majorRound cfg observer baseline consumed v).Sound v := by
  unfold majorRound
  split
  · trivial
  · split
    · exact Round.sound_of_shape ⟨taskShape_l0 v _⟩ _
    · split
      · trivial
      · next task h => exact Round.sound_of_shape (taskShape_choose h) _

/-! ### Chains -/

lemma Version.run_withNewL0Tables (v : Version) (ts : List Table) :
    (v.withNewL0Tables ts).run = ts.reverse.flatMap Table.entries ++ v.run := by
  have hrange : range maxLevels = 0 :: range' 1 6 := rfl
  have hdeep : (range' 1 6).flatMap (v.withNewL0Tables ts).levelRun =
      (range' 1 6).flatMap v.levelRun := by
    refine flatMap_congr fun n hn => ?_
    have hpos : n ≠ 0 := by
      have := mem_range'_1.mp hn
      omega
    rw [levelRun_pos _ hpos, levelRun_pos _ hpos, v.withNewL0Tables_level_pos ts hpos]
  rw [run, run, hrange, flatMap_cons, flatMap_cons, hdeep, levelRun, if_pos rfl,
    levelRun, if_pos rfl, withNewL0Tables_level_zero, reverse_append, flatMap_append,
    append_assoc]

namespace SuperVersion

variable {sv : SuperVersion Memtable}

lemma run_seal : (mk Memtable.new (sv.sealed ++ [sv.active]) sv.version).run = sv.run := by
  simp [run]

/-- Installing the tables of the oldest sealed memtables in their place. -/
lemma run_installFlush {snap rest : List Memtable} (hsealed : sv.sealed = snap ++ rest)
    {ts : List Table} (hts : ts.map Table.entries = (snap.map entries).filter fun c => !c.isEmpty) :
    (mk sv.active rest (sv.version.withNewL0Tables ts)).run = sv.run := by
  have hrev : ts.reverse.flatMap Table.entries = snap.reverse.flatMap entries := by
    rw [flatMap_def, map_reverse, hts, ← filter_reverse,
      flatten_filter_not_isEmpty, ← map_reverse, ← flatMap_def]
  simp only [run, hsealed, Version.run_withNewL0Tables, hrev, reverse_append,
    flatMap_append, append_assoc]

lemma chain_put_ne (hk : e.key ≠ k) :
    (mk (sv.active.insert e) sv.sealed sv.version).chain k = sv.chain k := by
  rw [chain_eq, chain_eq, insert_entries, withKey_insertEntry_ne hk]

lemma chain_put_newest (h : ∀ x ∈ sv.chain e.key, x.seqno < e.seqno) :
    (mk (sv.active.insert e) sv.sealed sv.version).chain e.key = e :: sv.chain e.key := by
  rw [chain_eq] at h
  have hactive : ∀ x ∈ withKey key e.key sv.active.entries, x.seqno < e.seqno :=
    fun x hx => h x (mem_append_left _ hx)
  rw [chain_eq, chain_eq, insert_entries,
    withKey_insertEntry_top sv.active.sorted fun x hx => le_of_lt (hactive x hx),
    filter_eq_self.mpr fun x hx => by simpa using (hactive x hx).ne]
  rfl

/-- The versions of a key outside the active memtable. -/
def older (sv : SuperVersion Memtable) (k : Key) : List Entry :=
  withKey key k (sv.sealed.reverse.flatMap entries) ++ sv.version.chain k

lemma mem_older : e ∈ sv.older k ↔
    e.key = k ∧ ((∃ m ∈ sv.sealed, e ∈ m.entries) ∨ e ∈ sv.version.run) := by
  simp only [older, mem_append, Version.chain, mem_withKey, mem_flatMap, mem_reverse]
  rw [← or_and_right, and_comm]

lemma mem_chain_put {x : Entry} (hx : x ∈ (mk (sv.active.insert e) sv.sealed sv.version).chain k) :
    x = e ∨ x ∈ sv.chain k := by
  obtain ⟨hx, hk⟩ := mem_chain.mp hx
  rcases mem_run.mp hx with hx | hx
  · rcases mem_of_mem_insertEntry hx with rfl | hx
    · exact .inl rfl
    · exact .inr (mem_chain.mpr ⟨mem_run.mpr (.inl hx), hk⟩)
  · exact .inr (mem_chain.mpr ⟨mem_run.mpr (.inr hx), hk⟩)

lemma mem_chain_put_self (e : Entry) :
    e ∈ (mk (sv.active.insert e) sv.sealed sv.version).chain e.key :=
  mem_chain.mpr ⟨mem_run.mpr (.inl (mem_insertEntry_self _ _)), rfl⟩

lemma mem_chain_put_of_mem {x : Entry} (hx : x ∈ sv.chain k)
    (hne : x.key ≠ e.key ∨ x.seqno ≠ e.seqno) :
    x ∈ (mk (sv.active.insert e) sv.sealed sv.version).chain k := by
  obtain ⟨hx, hk⟩ := mem_chain.mp hx
  refine mem_chain.mpr ⟨?_, hk⟩
  rcases mem_run.mp hx with hx | hx
  · exact mem_run.mpr (.inl (mem_insertEntry_of_mem hx hne))
  · exact mem_run.mpr (.inr hx)

/-- A put keeps a chain descending if it is above the versions outside the active
memtable; inside, the memtable puts it in its place. -/
lemma seqDesc_chain_put (hdesc : SeqDesc (sv.chain k))
    (h : ∀ x ∈ sv.older e.key, x.seqno < e.seqno) :
    SeqDesc ((mk (sv.active.insert e) sv.sealed sv.version).chain k) := by
  by_cases hk : e.key = k
  · subst hk
    rw [chain_eq] at hdesc ⊢
    obtain ⟨-, holder, hacross⟩ := pairwise_append.mp hdesc
    refine pairwise_append.mpr
      ⟨(sorted_insertEntry sv.active.sorted).seqDesc_withKey e.key, holder, fun x hx y hy => ?_⟩
    obtain ⟨hx, hxk⟩ := mem_withKey.mp hx
    rcases mem_of_mem_insertEntry hx with rfl | hx
    · exact h y hy
    · exact hacross x (mem_withKey.mpr ⟨hx, hxk⟩) y hy
  · rw [chain_put_ne hk]
    exact hdesc

lemma chain_move (hw : sv.version.WellFormed) (hd : sv.version.Disjoint)
    (sh : TaskShape sv.version task) {input : Table} (hin : task.inputTables = [input]) (k : Key) :
    (mk sv.active sv.sealed (applyOutputs sv.version task [input])).chain k = sv.chain k := by
  rw [chain_eq, chain_eq]
  exact congrArg (fun c => withKey key k sv.active.entries ++
    (withKey key k (sv.sealed.reverse.flatMap entries) ++ c))
    (chain_trivialMove hw hd sh hin k)

/-- Swapping in the outputs of an executed task replaces a segment of each descending
chain by its compaction. -/
lemma chain_compact (hw : sv.version.WellFormed) (hd : sv.version.Disjoint)
    (sh : TaskShape sv.version task) {id : ℕ}
    (ho : Outputs sv.version task (outputTables cfg task id)) (hdesc : SeqDesc (sv.chain k)) :
    ∃ A seg B, sv.chain k = A ++ (seg ++ B) ∧ (mk sv.active sv.sealed
          (applyOutputs sv.version task (outputTables cfg task id))).chain k =
        A ++ (compactRun task.isLastLevel cfg.mergeOperator seg ++ B) ∧
      (∀ e ∈ seg, e.key = k) ∧ (task.isLastLevel = true → B = []) := by
  rw [chain_eq] at hdesc
  have hdisk : SeqDesc (sv.version.chain k) :=
    hdesc.sublist ((sublist_append_right _ _).trans (sublist_append_right _ _))
  obtain ⟨A, seg, B, h1, h2, h3, h4⟩ := chain_execute hw hd sh ho hdisk
  refine ⟨withKey key k sv.active.entries ++
    (withKey key k (sv.sealed.reverse.flatMap entries) ++ A), seg, B, ?_, ?_, h3, h4⟩
  · rw [chain_eq, h1]
    simp only [append_assoc]
  · rw [chain_eq]
    simp only [append_assoc]
    exact congrArg _ (congrArg _ h2)

/-- Compaction keeps chains descending and bounded, and keeps what they stand for. -/
lemma chain_compact_spec {A seg B : List Entry} {last : Bool} (hdesc : SeqDesc (A ++ (seg ++ B)))
    {bound : ℕ} (hbound : ∀ e ∈ A ++ (seg ++ B), e.seqno ≤ bound)
    (hop : FoldsSegments cfg.mergeOperator) (hkey : ∀ e ∈ seg, e.key = k)
    (hlast : last = true → B = []) : SeqDesc (A ++ (compactRun last cfg.mergeOperator seg ++ B)) ∧
      (∀ e ∈ A ++ (compactRun last cfg.mergeOperator seg ++ B), e.seqno ≤ bound) ∧
      chainValue cfg.mergeOperator k (A ++ (compactRun last cfg.mergeOperator seg ++ B)) =
        chainValue cfg.mergeOperator k (A ++ (seg ++ B)) := by
  have hseg : SeqDesc seg :=
    hdesc.sublist ((sublist_append_left _ _).trans (sublist_append_right _ _))
  refine ⟨seqDesc_compactRun hdesc, fun e he => ?_, chainValue_compactRun hop hkey hseg hlast⟩
  have hsub : ((A ++ (compactRun last cfg.mergeOperator seg ++ B)).map seqno).Sublist
      ((A ++ (seg ++ B)).map seqno) := by
    simp only [map_append]
    exact (compactRun_seqno_sublist.append_right _).append_left _
  obtain ⟨x, hx, hxs⟩ := mem_map.mp (hsub.subset (mem_map_of_mem he))
  exact hxs ▸ hbound x hx

end SuperVersion

lemma flushTables_readsExact (hbloom : cfg.sstable.BloomSound) {memtables : List Memtable}
    (ha : ∀ m ∈ memtables, Table.BlocksAligned cfg.sstable m.entries) (enabled : Bool) (id : ℕ) :
    ∀ t ∈ Tree.flushTables cfg enabled id memtables, t.ReadsExact := by
  have hblocks : ∀ entries, Table.BlocksAligned cfg.sstable entries →
      Table.BlocksAligned (Tree.flushConfig cfg enabled) entries := fun entries h => by
    cases enabled <;> exact h
  have hsound : (Tree.flushConfig cfg enabled).BloomSound := by
    cases enabled with
    | false => exact fun _ _ _ => rfl
    | true => exact hbloom
  refine writeTables_readsExact (fun c hc => ?_) (fun c hc => ?_) hsound
  · obtain ⟨m, -, rfl⟩ := mem_map.mp hc
    exact m.sorted.keySorted
  · obtain ⟨m, hm, rfl⟩ := mem_map.mp hc
    exact hblocks _ (ha m hm)

/-! ### The invariant of a tree -/

variable {m : Store}

namespace Tree

variable {t t' : Tree Memtable} {op : Option MergeOperator}

/-- The levels are in order, and along each chain the sequence numbers descend from
the tree's current one. -/
structure Inv (t : Tree Memtable) : Prop where
  version : t.current.version.Inv t.nextTableId
  desc : ∀ k, SeqDesc (t.current.chain k)
  bound : ∀ k, ∀ e ∈ t.current.chain k, e.seqno ≤ t.seqno

/-- What maintenance does to a tree: nothing, as far as any chain's value goes. -/
structure Maintains (op : Option MergeOperator) (t t' : Tree Memtable) : Prop where
  inv : t'.Inv
  seqno : t'.seqno = t.seqno
  value : ∀ k, chainValue op k (t'.current.chain k) = chainValue op k (t.current.chain k)

lemma Maintains.refl (h : t.Inv) : Maintains op t t := ⟨h, rfl, fun _ => rfl⟩

lemma Maintains.trans {t'' : Tree Memtable} (h : Maintains op t t')
    (h' : Maintains op t' t'') : Maintains op t t'' :=
  ⟨h'.inv, h'.seqno.trans h.seqno, fun k => (h'.value k).trans (h.value k)⟩

lemma Maintains.of_chain (h : t.Inv) (hv : t'.current.version.Inv t'.nextTableId)
    (hs : t'.seqno = t.seqno) (hchain : ∀ k, t'.current.chain k = t.current.chain k) :
    Maintains op t t' :=
  ⟨⟨hv, fun k => hchain k ▸ h.desc k, fun k e he => hs ▸ h.bound k e (hchain k ▸ he)⟩, hs,
    fun k => by rw [hchain k]⟩

lemma inv_empty : empty.Inv := by
  have hchain : ∀ k, empty.current.chain k = [] := fun k => rfl
  exact ⟨Version.Inv.new, fun k => hchain k ▸ List.Pairwise.nil, fun k e he => by
    rw [hchain k] at he; cases he⟩

section

variable (h : t.Inv) (hm : ∀ k, chainValue cfg.mergeOperator k (t.current.chain k) = m k)

include h hm

lemma Inv.lists {r : ScanRange} (hexact : ∀ u ∈ t.current.version.allTables, r.Exact u)
    {visible : ℕ}
    (hvis : t.seqno ≤ visible) :
    Lists (t.current.scan cfg r visible) (fun k => r.accept k = true) m := by
  have hsorted : ∀ u ∈ t.current.version.allTables, SortedLE u.entries := fun u hu =>
    h.version.sorted_of_mem hu
  refine ⟨scan_ascending hexact hsorted visible, fun k v => ?_⟩
  rw [mem_scan hexact hsorted (h.desc k) (fun e he => (h.bound k e he).trans hvis), hm]

lemma Inv.lists_rangeStream (hexact : ∀ u ∈ t.current.version.allTables, u.ReadsExact)
    (start stop : Key) :
    Lists (t.rangeStream cfg start stop) (fun k => start ≤ k ∧ k ≤ stop) m := by
  have hlists := h.lists hm (r := .closed start stop)
    (fun u hu => ScanRange.closed_exact (h.version.sorted_of_mem hu) (hexact u hu)) le_rfl
  refine ⟨hlists.ascending, fun k v => (hlists.mem k v).trans ?_⟩
  simp [ScanRange.closed]

lemma Inv.lists_prefixAt (p : Key) {visible : ℕ} (hvis : t.seqno ≤ visible) :
    Lists (t.prefixAt cfg p visible) (fun k => p <+: k) m := by
  have hlists := h.lists hm (r := .ofPrefix p)
    (fun u hu => ScanRange.ofPrefix_exact (h.version.sorted_of_mem hu)) hvis
  refine ⟨hlists.ascending, fun k v => (hlists.mem k v).trans ?_⟩
  simp [ScanRange.ofPrefix]

end

lemma insert_eq (t : Tree Memtable) (k : Key) (v : Value) :
    t.insert k v = t.insertWithSeqno ⟨k, v, t.seqno + 1, .value⟩ := by
  simp [insert, insertWithSeqno]

lemma remove_eq (t : Tree Memtable) (k : Key) :
    t.remove k = t.insertWithSeqno ⟨k, [], t.seqno + 1, .tombstone⟩ := by
  simp [remove, insertWithSeqno]

lemma chain_insertWithSeqno (h : ∀ x ∈ t.current.chain e.key, x.seqno < e.seqno) (k : Key) :
    (t.insertWithSeqno e).current.chain k =
      if e.key = k then e :: t.current.chain k else t.current.chain k := by
  split
  · next hk =>
    subst hk
    exact chain_put_newest h
  · next hk => exact chain_put_ne hk

variable (h : t.Inv)

include h

lemma Inv.insertWithSeqno (he : t.seqno < e.seqno) : (t.insertWithSeqno e).Inv := by
  have hnew : ∀ x ∈ t.current.chain e.key, x.seqno < e.seqno := fun x hx =>
    (h.bound _ x hx).trans_lt he
  have hseq : (t.insertWithSeqno e).seqno = e.seqno := Nat.max_eq_right (le_of_lt he)
  refine ⟨h.version, fun k => ?_, fun k x hx => ?_⟩
  · rw [chain_insertWithSeqno hnew]
    split
    · next hk => exact pairwise_cons.mpr ⟨hk ▸ hnew, h.desc k⟩
    · exact h.desc k
  · rw [chain_insertWithSeqno hnew] at hx
    rw [hseq]
    split at hx
    · next hk =>
      rcases mem_cons.mp hx with rfl | hx
      · exact le_rfl
      · exact le_of_lt (hnew x (hk ▸ hx))
    · exact (h.bound k x hx).trans (le_of_lt he)

lemma maintains_sealActive : Maintains op t t.sealActive := by
  unfold sealActive
  split
  · exact .refl h
  · refine .of_chain h h.version rfl fun k => ?_
    exact congrArg (withKey key k) run_seal

/-- Persisting the manifest, moving counters and flipping the flag touch no data. -/
lemma Maintains.of_current (hc : t'.current = t.current)
    (hid : t'.nextTableId = t.nextTableId) (hs : t'.seqno = t.seqno) : Maintains op t t' :=
  .of_chain h (by rw [hc, hid]; exact h.version) hs fun k => by rw [hc]

lemma maintains_persistManifest : Maintains op t t.persistManifest :=
  .of_current h rfl rfl rfl

lemma maintains_flushPersist : Maintains op t t.flushPersist := by
  unfold flushPersist
  split
  · exact maintains_persistManifest h
  · exact .refl h

lemma maintains_flushAdvance (n : ℕ) (b : Bool) : Maintains op t (t.flushAdvance n b) := by
  unfold flushAdvance
  split
  · exact .of_current h rfl rfl rfl
  · exact .refl h

lemma maintains_setCompactionEnabled (b : Bool) :
    Maintains op t (t.setCompactionEnabled b) := .of_current h rfl rfl rfl

lemma maintains_catchUp : Maintains op t t.catchUp := .of_current h rfl rfl rfl

omit h

lemma maintains_flushSealed (cfg : TreeConfig) (h : t.Inv) :
    Maintains op t (t.flushSealed cfg) := by
  unfold flushSealed
  dsimp only
  split
  · exact .refl h
  · have hinstall : Maintains op t ((t.allocate t.current.sealed.length).installFlush
        (flushTables cfg t.compactionEnabled t.nextTableId t.current.sealed)
        t.current.sealed.length) := by
      refine .of_chain h ?_ rfl fun k => congrArg (withKey key k) ?_
      · have hsorted : ∀ c ∈ t.current.sealed.map entries, SortedLE c := by
          intro c hc
          obtain ⟨m, -, rfl⟩ := mem_map.mp hc
          exact m.sorted.sortedLE
        have := h.version.writeTables (flushConfig cfg t.compactionEnabled) hsorted
        rwa [length_map] at this
      · have hdrop : t.current.sealed.drop (min t.current.sealed.length t.current.sealed.length) =
            [] := by simp
        refine Eq.trans (congrArg (fun rest => (SuperVersion.mk t.current.active rest _).run) hdrop)
          ?_
        exact run_installFlush (append_nil _).symm (writeTables_entries ..)
    have hpersist := hinstall.trans (maintains_flushPersist hinstall.inv)
    exact hpersist.trans (maintains_flushAdvance hpersist.inv _ _)

lemma maintains_applyTrivialMove (h : t.Inv) (sh : TaskShape t.current.version task)
    (hin : ∃ input, task.inputTables = [input]) : Maintains op t (t.applyTrivialMove task) := by
  obtain ⟨input, hin⟩ := hin
  have hmove : Maintains op t (t.applyCompaction task [input]) := by
    refine .of_chain h (h.version.applyOutputs sh (outputs_trivialMove h.version.wf sh hin) ?_)
      rfl fun k => ?_
    · intro o ho
      rw [mem_singleton] at ho
      subst ho
      obtain ⟨n, hn, ho⟩ := sh.exists_level (by rw [hin]; exact mem_singleton_self o)
      exact h.version.ids n hn o ho
    · exact chain_move h.version.wf h.version.disjoint sh hin k
  unfold applyTrivialMove
  rw [hin]
  exact hmove.trans (maintains_persistManifest hmove.inv)

lemma maintains_runTask (hop : FoldsSegments cfg.mergeOperator) (h : t.Inv)
    (sh : TaskShape t.current.version task) (hroom : TaskHasRoom cfg task) :
    Maintains cfg.mergeOperator t (t.runTask cfg task) := by
  have ho : Outputs t.current.version task (outputTables cfg task t.nextTableId) :=
    outputs_execute (fun u hu => sh.inputs_sorted h.version.wf hu)
      (fun n hn u hu o ho => h.version.id_ne hn hu (writeTables_id_mem ho).1) hroom
  let next := t.nextTableId +
    (task.chunks cfg.heap cfg.mergeOperator cfg.leveled.targetTableSize).length
  have hversion : (applyOutputs t.current.version task
      (outputTables cfg task t.nextTableId)).Inv next :=
    (h.version.mono (Nat.le_add_right _ _)).applyOutputs sh ho fun o ho => (writeTables_id_mem ho).2
  have hspec : ∀ k, SeqDesc ((t.runTask cfg task).current.chain k) ∧
      (∀ e ∈ (t.runTask cfg task).current.chain k, e.seqno ≤ t.seqno) ∧
      chainValue cfg.mergeOperator k ((t.runTask cfg task).current.chain k) =
        chainValue cfg.mergeOperator k (t.current.chain k) := by
    intro k
    obtain ⟨A, seg, B, h1, h2, h3, h4⟩ :=
      chain_compact h.version.wf h.version.disjoint sh ho (h.desc k)
    have hdesc := h.desc k
    have hbound := h.bound k
    rw [h1] at hdesc hbound
    rw [h1, show (t.runTask cfg task).current.chain k = _ from h2]
    exact chain_compact_spec hdesc hbound hop h3 h4
  exact ⟨⟨hversion, fun k => (hspec k).1, fun k => (hspec k).2.1⟩, rfl, fun k => (hspec k).2.2⟩

end Tree

end XyzDB
