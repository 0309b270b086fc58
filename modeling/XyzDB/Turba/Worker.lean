import XyzDB.Turba.Levels

/-!
# The compaction worker

`CompactionTask.execute` (`compaction/worker.rs`) writes the surviving entries of a
task into tables of a target size. The writer decides before each entry whether
to start a new table, and the compaction stream may yield two entries for one
owned key, the folded value and the tombstone below it. When the open table is
full in between, the two entries end up in two tables that share the key.
`WriterHasRoom` says that this does not happen; it is void without a merge
operator (`writerHasRoom_none`).

With room, the outputs fit the levels (`outputs_execute`), and in the chain of each
key the segment held by the inputs is replaced by its compaction
(`chain_execute`). A trivial move changes no chain (`chain_trivialMove`).
-/

namespace XyzDB

open KeyRuns List Table

/-- `execute_with_observer`: the tables a task writes, numbered from
`nextTableId`. -/
def CompactionTask.execute (task : CompactionTask) (cfg : SSTableConfig) (heap : HeapOrder)
    (op : Option MergeOperator) (targetTableSize nextTableId : ℕ) : List Table :=
  writeTables cfg nextTableId (task.chunks heap op targetTableSize)

/-- The output writer has room whenever the preserved tombstone of an owned key
comes up right after the key's folded value. -/
def WriterHasRoom (op : Option MergeOperator) (targetTableSize : ℕ) (out : List Entry) : Prop :=
  ∀ pre a b post, out = pre ++ a :: b :: post → a.key = b.key → owned op b.key = true →
    b.isValue = false → Chunk.fillAt entrySize targetTableSize (pre ++ [a]) < targetTableSize

/-- The test for room from a point of the output on, after the entries `seen`. -/
def roomFrom (op : Option MergeOperator) (targetTableSize : ℕ) : List Entry → List Entry → Bool
  | seen, a :: b :: post =>
    (decide (a.key = b.key → owned op b.key = true → b.isValue = false →
      Chunk.fillAt entrySize targetTableSize (seen ++ [a]) < targetTableSize)) &&
      roomFrom op targetTableSize (seen ++ [a]) (b :: post)
  | _, _ => true

variable {targetTableSize : ℕ}

lemma roomFrom_iff {seen out : List Entry} : roomFrom op targetTableSize seen out = true ↔
      ∀ pre a b post, out = pre ++ a :: b :: post → a.key = b.key → owned op b.key = true →
        b.isValue = false →
        Chunk.fillAt entrySize targetTableSize (seen ++ (pre ++ [a])) < targetTableSize := by
  induction out generalizing seen with
  | nil => simp [roomFrom]
  | cons x out ih =>
    cases out with
    | nil =>
      refine ⟨fun _ pre a b post h => ?_, fun _ => rfl⟩
      have := congrArg length h
      simp at this
      omega
    | cons y out =>
      rw [roomFrom, Bool.and_eq_true, decide_eq_true_eq, ih]
      constructor
      · rintro ⟨hhere, hrest⟩ pre a b post h
        cases pre with
        | nil =>
          obtain ⟨rfl, rfl, -⟩ : x = a ∧ y = b ∧ out = post := by simpa using h
          exact hhere
        | cons z pre =>
          obtain ⟨rfl, htail⟩ := cons.inj h
          simpa using hrest pre a b post htail
      · intro h
        refine ⟨h [] x y out rfl, fun pre a b post heq => ?_⟩
        simpa using h (x :: pre) a b post (by rw [heq]; rfl)

instance (op : Option MergeOperator) (targetTableSize : ℕ) (out : List Entry) :
    Decidable (WriterHasRoom op targetTableSize out) :=
  decidable_of_iff (roomFrom op targetTableSize [] out = true) roomFrom_iff

section

variable (cfg : SSTableConfig)

lemma writeTables_cons (id : ℕ) (c : List Entry) (chunks : List (List Entry)) :
    writeTables cfg id (c :: chunks) =
      (write cfg id c).toList ++ writeTables cfg (id + 1) chunks := by
  unfold writeTables
  rw [zipIdx_cons, filterMap_cons]
  cases write cfg id c <;> rfl

lemma writeTables_entries (id : ℕ) (chunks : List (List Entry)) :
    (writeTables cfg id chunks).map entries = chunks.filter fun c => !c.isEmpty := by
  induction chunks generalizing id with
  | nil => rfl
  | cons c chunks ih =>
    rw [writeTables_cons, map_append, ih]
    cases h : write cfg id c with
    | none =>
      rw [write_eq_none h]
      rfl
    | some t =>
      obtain ⟨he, -, hne⟩ := write_eq_some h
      rw [filter_cons_of_pos (by simpa using hne), ← he]
      rfl

lemma writeTables_ids (id : ℕ) (chunks : List (List Entry)) :
    ((writeTables cfg id chunks).map Table.id).Sublist (range' id chunks.length) := by
  induction chunks generalizing id with
  | nil => exact nil_sublist _
  | cons c chunks ih =>
    rw [writeTables_cons]
    cases h : write cfg id c with
    | none => exact (ih (id + 1)).cons _
    | some t =>
      rw [← (write_eq_some h).2.1]
      exact (ih _).cons_cons _

end

variable {cfg : SSTableConfig} {chunks : List (List Entry)}

variable {id : ℕ}

lemma writeTables_id_mem {t : Table} (ht : t ∈ writeTables cfg id chunks) :
    id ≤ t.id ∧ t.id < id + chunks.length := by
  have hmem := (writeTables_ids cfg id chunks).subset (mem_map_of_mem ht)
  exact mem_range'_1.mp hmem

lemma writeTables_nodup (cfg : SSTableConfig) (id : ℕ) (chunks : List (List Entry)) :
    ((writeTables cfg id chunks).map Table.id).Nodup :=
  (writeTables_ids cfg id chunks).nodup nodup_range'

lemma writeTables_entries_mem {t : Table} (ht : t ∈ writeTables cfg id chunks) :
    t.entries ∈ chunks := by
  have hmem : t.entries ∈ (writeTables cfg id chunks).map entries := mem_map_of_mem ht
  rw [writeTables_entries] at hmem
  exact (mem_filter.mp hmem).1

/-- Written tables read exactly when their streams are sorted and cut between keys. -/
lemma writeTables_readsExact (hsorted : ∀ c ∈ chunks, KeySorted Entry.key c)
    (haligned : ∀ c ∈ chunks, Table.BlocksAligned cfg c) (hbloom : cfg.BloomSound) :
    ∀ t ∈ writeTables cfg id chunks, t.ReadsExact := by
  intro t ht
  obtain ⟨⟨c, i⟩, hc, hwrite⟩ := mem_filterMap.mp ht
  have hmem : c ∈ chunks := fst_mem_of_mem_zipIdx hc
  exact readsExact_of_write hwrite (hsorted c hmem) (haligned c hmem) hbloom

section

variable {v : Version} {task : CompactionTask} {cfg : SSTableConfig} {heap : HeapOrder}
  {op : Option MergeOperator} {targetTableSize nextTableId : ℕ}

lemma execute_entries : (task.execute cfg heap op targetTableSize nextTableId).map entries =
      task.chunks heap op targetTableSize := by
  rw [CompactionTask.execute, writeTables_entries]
  exact filter_eq_self.mpr fun c hc => by simpa using Chunk.chunk_ne_nil hc

lemma execute_flatMap : (task.execute cfg heap op targetTableSize nextTableId).flatMap entries =
      task.output heap op := by
  rw [flatMap_def, execute_entries, CompactionTask.chunks, Chunk.chunk_flatten]

lemma exists_of_mem_output {e : Entry} (he : e ∈ task.output heap op) :
    ∃ t ∈ task.inputTables, ∃ x ∈ t.entries, x.SameVersion op e := by
  obtain ⟨seg, hseg, he⟩ := mem_flatMap.mp he
  obtain ⟨x, hx, hsame⟩ := exists_of_mem_compactRun he
  have hmerged : x ∈ mergeIterator heap (task.inputTables.map entries) := by
    rw [← flatten_runs Entry.key (mergeIterator heap _)]
    exact mem_flatten.mpr ⟨seg, hseg, hx⟩
  obtain ⟨l, hl, hxl⟩ := mem_flatten.mp ((mergeIterator_perm heap _).subset hmerged)
  obtain ⟨t, ht, rfl⟩ := mem_map.mp hl
  exact ⟨t, ht, x, hxl, hsame⟩

variable (hin : ∀ t ∈ task.inputTables, SortedLE t.entries)

include hin

lemma merged_sorted : SortedLE (mergeIterator heap (task.inputTables.map entries)) := by
  refine mergeIterator_sorted fun s hs => ?_
  obtain ⟨t, ht, rfl⟩ := mem_map.mp hs
  exact hin t ht

lemma output_sorted : SortedLE (task.output heap op) :=
  compactionStream_sortedLE (merged_sorted hin)

lemma withKey_output (k : Key) :
    withKey Entry.key k (task.output heap op) = compactRun task.isLastLevel op
      (withKey Entry.key k (mergeIterator heap (task.inputTables.map entries))) :=
  withKey_compactionStream (merged_sorted hin).keySorted k

lemma output_same_key {a b : Entry} (h : [a, b].Sublist (task.output heap op))
    (hab : a.key = b.key) : owned op b.key = true ∧ b.isValue = false := by
  have hsub : [a, b].Sublist (withKey Entry.key b.key (task.output heap op)) :=
    sublist_withKey h (by simp [hab])
  rw [withKey_output hin] at hsub
  exact compactRun_second (fun e he => (mem_withKey.mp he).2) hsub

lemma output_key {e : Entry} (he : e ∈ task.output heap op) :
    ∃ t ∈ task.inputTables, ∃ x ∈ t.entries, x.key = e.key := by
  obtain ⟨x, hx, hxk⟩ := exists_of_mem_flatMap_runs (keepsKey_compactRun _ _)
    (merged_sorted hin).keySorted he
  have hx' := (mergeIterator_perm heap _).subset hx
  obtain ⟨s, hs, hxs⟩ := mem_flatten.mp hx'
  obtain ⟨t, ht, rfl⟩ := mem_map.mp hs
  exact ⟨t, ht, x, hxs, hxk⟩

lemma output_ascending (hop : op = none) :
    (task.output heap op).Pairwise fun a b => a.key < b.key := by
  refine pairwise_iff_forall_sublist.mpr fun {a b} hab => ?_
  have hle : a.key ≤ b.key :=
    pairwise_iff_forall_sublist.mp (output_sorted hin).keySorted hab
  refine lt_of_le_of_ne hle fun heq => ?_
  have howned := (output_same_key hin hab heq).1
  rw [hop] at howned
  cases howned

lemma execute_readsExact (hop : op = none) (hbloom : cfg.BloomSound) :
    ∀ t ∈ task.execute cfg heap op targetTableSize nextTableId, t.ReadsExact := by
  have hasc : ∀ c ∈ task.chunks heap op targetTableSize, c.Pairwise fun a b => a.key < b.key :=
    fun c hc => Chunk.Pairwise.of_mem_chunk (output_ascending hin hop) hc
  exact writeTables_readsExact (fun c hc => (hasc c hc).imp le_of_lt)
    (fun c hc => blocksAligned_of_ascending (hasc c hc)) hbloom

/-- **The outputs of an executed task** meet all that is asked of outputs, provided
the writer never separates a folded value from its tombstone. -/
theorem outputs_execute (hnew : ∀ n < maxLevels, ∀ t ∈ v.level n,
      ∀ o ∈ task.execute cfg heap op targetTableSize nextTableId, t.id ≠ o.id)
    (hroom : WriterHasRoom op targetTableSize (task.output heap op)) :
    Outputs v task (task.execute cfg heap op targetTableSize nextTableId) := by
  have hchunks : ∀ o ∈ task.execute cfg heap op targetTableSize nextTableId,
      o.entries ∈ task.chunks heap op targetTableSize := fun o ho => writeTables_entries_mem ho
  have hsorted : SortedLE (task.output heap op) := output_sorted hin
  refine ⟨writeTables_nodup _ _ _, ?_, ?_, ?_, ?_⟩
  · exact fun n hn t ht _ o ho => hnew n hn t ht o ho
  · intro o ho
    exact Chunk.Pairwise.of_mem_chunk hsorted (hchunks o ho)
  · intro o ho e he
    exact output_key hin (Chunk.mem_of_mem_chunk (hchunks o ho) he)
  · have hsep : (task.chunks heap op targetTableSize).Pairwise
        fun c c' => ∀ a ∈ c, ∀ b ∈ c', a.key < b.key := by
      refine Chunk.chunk_separated hsorted.keySorted fun pre a b post h hab => ?_
      have hsub : [a, b].Sublist (task.output heap op) := by
        rw [h]
        exact sublist_append_of_sublist_right
          (List.Sublist.cons_cons _ (List.Sublist.cons_cons _ (nil_sublist _)))
      obtain ⟨h1, h2⟩ := output_same_key hin hsub hab
      exact hroom pre a b post h hab h1 h2
    have hmap : ((task.execute cfg heap op targetTableSize nextTableId).map
        entries).Pairwise fun c c' => ∀ a ∈ c, ∀ b ∈ c', a.key < b.key := by
      rw [execute_entries]
      exact hsep
    refine (pairwise_map.mp hmap).imp fun {t u} htu => .inl ?_
    obtain ⟨a, ha, hak⟩ := t.keyMax_mem
    obtain ⟨b, hb, hbk⟩ := u.keyMin_mem
    rw [← hak, ← hbk]
    exact htu a ha b hb

end

lemma writerHasRoom_none {out : List Entry} : WriterHasRoom none targetTableSize out := by
  intro pre a b post _ _ ho
  simp [owned] at ho

section

variable {v : Version} {task : CompactionTask} {outs : List Table}

lemma TaskShape.perm_segment (sh : TaskShape v task) (k : Key) :
    (withKey Entry.key k (task.inputTables.map entries).flatten).Perm (sh.segment k) := by
  rw [← flatMap_def, sh.inputs_eq, flatMap_append, withKey_append]
  refine List.Perm.append_right _ (List.Perm.filter _ ?_)
  exact List.Perm.flatMap_right _ (reverse_perm _).symm

variable (hw : v.WellFormed)

include hw

/-- Where the versions the inputs hold of a key descend, the merge presents them in
chain order. -/
lemma withKey_merged (sh : TaskShape v task) (heap : HeapOrder) {k : Key}
    (hseg : SeqDesc (sh.segment k)) :
    withKey Entry.key k (mergeIterator heap (task.inputTables.map entries)) = sh.segment k := by
  refine mergeIterator_withKey (fun s hs => ?_) hseg (sh.perm_segment k)
  obtain ⟨t, ht, rfl⟩ := mem_map.mp hs
  exact sh.inputs_sorted hw ht

/-- **Executing a task** replaces the inputs' segment of each chain by its
compaction. -/
theorem chain_execute (hd : v.Disjoint) (sh : TaskShape v task)
    (ho : Outputs v task (task.execute cfg heap op targetTableSize nextTableId)) {k : Key}
    (hdesc : SeqDesc (v.chain k)) : ∃ A seg B, v.chain k = A ++ (seg ++ B) ∧
      (applyOutputs v task (task.execute cfg heap op targetTableSize nextTableId)).chain k =
        A ++ (compactRun task.isLastLevel op seg ++ B) ∧
      (∀ e ∈ seg, e.key = k) ∧ (task.isLastLevel = true → B = []) := by
  obtain ⟨A, B, hA, hA', hlast⟩ := chain_applyOutputs hw hd sh ho k
  have hseg : SeqDesc (sh.segment k) := by
    rw [hA] at hdesc
    exact hdesc.sublist ((sublist_append_left _ B).trans (sublist_append_right A _))
  refine ⟨A, sh.segment k, B, hA, ?_, fun e he => (sh.mem_segment.mp he).2, hlast⟩
  rw [hA', execute_flatMap, withKey_output (fun t ht => sh.inputs_sorted hw ht),
    withKey_merged hw sh heap hseg]

lemma outputs_trivialMove (sh : TaskShape v task) {input : Table}
    (hinput : task.inputTables = [input]) : Outputs v task [input] := by
  refine ⟨by simp, ?_, ?_, ?_, pairwise_singleton _ _⟩
  · intro n hn t ht hid o ho heq
    rw [mem_singleton.mp ho] at heq
    exact hid (by simp [CompactionTask.inputIds, hinput, heq])
  · intro o ho
    rw [mem_singleton.mp ho]
    exact sh.inputs_sorted hw (by simp [hinput])
  · intro o ho e he
    exact ⟨o, by rw [hinput]; exact ho, e, he, rfl⟩

/-- **A trivial move** moves one table down a level and changes no chain. -/
theorem chain_trivialMove (hd : v.Disjoint) (sh : TaskShape v task)
    {input : Table} (hinput : task.inputTables = [input]) (k : Key) :
    (applyOutputs v task [input]).chain k = v.chain k := by
  obtain ⟨A, B, hA, hA', -⟩ := chain_applyOutputs hw hd sh (outputs_trivialMove hw sh hinput) k
  have hseg : sh.segment k = withKey Entry.key k ([input].flatMap entries) := by
    have hin := sh.inputs_eq
    rw [hinput] at hin
    unfold TaskShape.segment
    -- the single input is the upper table, or the upper part is empty
    cases hu : sh.upper with
    | nil =>
      rw [hu, nil_append] at hin
      rw [← hin]
      simp
    | cons p u =>
      rw [hu] at hin
      obtain ⟨rfl, hnil⟩ := cons.inj hin
      obtain ⟨rfl, hov⟩ := append_eq_nil_iff.mp hnil.symm
      rw [hov]
      simp
  rw [hA, hA', hseg]

end

end XyzDB
