import XyzDB.Turba.TreeSys

/-!
# The deep levels stay sorted and disjoint

In every state of a tree under concurrency, levels `1` and up are runs of disjoint
tables in key order, so that the binary search of a point read finds the one table
that can hold its key (`levels_disjoint`).

Two facts carry the proof. Table ids are handed out once, so the tables that threads
have written but not installed (`TreeState.pending`) clash neither with the version
nor with each other (`Registry`). And a compaction task stays valid while flushes
append to level `0` (`TaskShape.extend`), so its outputs fit the version they are
swapped into although they were computed from an older one.

The outputs fit only if the writer has room for the entries of an owned key, and
ingested entries have to be sorted, as `ingest_sorted` demands (`LevelsGuard`). Without
room the levels do overlap (`levels_overlap`).
-/

namespace XyzDB

open KeyRuns BinarySearch List Option Function Table TreeData

variable {task : CompactionTask} {cfg : TreeConfig} {d : TreeData}

/-- Ids are unique across the version and the tables that wait to be installed. -/
structure Registry {ι : Type} (v : Version) (next : ℕ) (pending : ι → List Table) : Prop where
  version : v.Inv next
  lt : ∀ o, ∀ t ∈ pending o, t.id < next
  nodup : ∀ o, ((pending o).map Table.id).Nodup
  new : ∀ o, ∀ t ∈ pending o, ∀ n < maxLevels, ∀ u ∈ v.level n, u.id ≠ t.id
  inj : ∀ o o', ∀ t ∈ pending o, ∀ u ∈ pending o', t.id = u.id → o = o'

namespace Registry

variable {ι : Type} [DecidableEq ι] {v v' : Version} {next next' : ℕ} {pending : ι → List Table}

section

variable (h : Registry v next pending)

include h

variable (o : ι)

lemma write {ts : List Table}
    (hnodup : (ts.map Table.id).Nodup) (hids : ∀ t ∈ ts, next ≤ t.id ∧ t.id < next')
    (hle : next ≤ next') : Registry v next' (update pending o ts) := by
  have hmem : ∀ o', ∀ t ∈ update pending o ts o', (o' = o ∧ t ∈ ts) ∨
      (o' ≠ o ∧ t ∈ pending o') := by
    intro o' t ht
    by_cases ho : o' = o
    · subst ho
      rw [update_self] at ht
      exact .inl ⟨rfl, ht⟩
    · rw [update_of_ne ho] at ht
      exact .inr ⟨ho, ht⟩
  refine ⟨h.version.mono hle, fun o' t ht => ?_, fun o' => ?_, fun o' t ht n hn u hu => ?_,
    fun o₁ o₂ t ht u hu heq => ?_⟩
  · rcases hmem o' t ht with ⟨-, ht⟩ | ⟨-, ht⟩
    · exact (hids t ht).2
    · exact (h.lt o' t ht).trans_le hle
  · by_cases ho : o' = o
    · rw [ho, update_self]
      exact hnodup
    · rw [update_of_ne ho]
      exact h.nodup o'
  · rcases hmem o' t ht with ⟨-, ht⟩ | ⟨-, ht⟩
    · exact h.version.id_ne hn hu (hids t ht).1
    · exact h.new o' t ht n hn u hu
  · -- an id from before the write is below every new one
    rcases hmem o₁ t ht with ⟨ho₁, ht⟩ | ⟨ho₁, ht⟩ <;>
      rcases hmem o₂ u hu with ⟨ho₂, hu⟩ | ⟨ho₂, hu⟩
    · rw [ho₁, ho₂]
    · have := (hids t ht).1
      have := h.lt o₂ u hu
      omega
    · have := h.lt o₁ t ht
      have := (hids u hu).1
      omega
    · exact h.inj o₁ o₂ t ht u hu heq

lemma install (hv : v'.Inv next)
    (hmem : ∀ n < maxLevels, ∀ u ∈ v'.level n, (∃ m < maxLevels, u ∈ v.level m) ∨ u ∈ pending o) :
    Registry v' next (update pending o []) := by
  have hsub : ∀ o', ∀ t ∈ update pending o [] o', o' ≠ o ∧ t ∈ pending o' := by
    intro o' t ht
    by_cases ho : o' = o
    · subst ho
      rw [update_self] at ht
      cases ht
    · rw [update_of_ne ho] at ht
      exact ⟨ho, ht⟩
  refine ⟨hv, fun o' t ht => h.lt o' t (hsub o' t ht).2, fun o' => ?_,
    fun o' t ht n hn u hu heq => ?_,
    fun o₁ o₂ t ht u hu => h.inj o₁ o₂ t (hsub o₁ t ht).2 u (hsub o₂ u hu).2⟩
  · by_cases ho : o' = o
    · rw [ho, update_self]
      exact nodup_nil
    · rw [update_of_ne ho]
      exact h.nodup o'
  · obtain ⟨hne, ht⟩ := hsub o' t ht
    rcases hmem n hn u hu with ⟨m, hm, hu⟩ | hu
    · exact h.new o' t ht m hm u hu heq
    · exact hne (h.inj o o' u hu t ht heq).symm

lemma installL0 (hsorted : ∀ t ∈ pending o, SortedLE t.entries) :
    Registry (v.withNewL0Tables (pending o)) next (update pending o []) := by
  refine h.install o (h.version.withNewL0Tables (h.nodup o) (h.new o) (h.lt o) hsorted)
    fun n hn u hu => ?_
  rcases Version.mem_withNewL0Tables.mp hu with hu | ⟨-, hu⟩
  · exact .inl ⟨n, hn, hu⟩
  · exact .inr hu

lemma applyOutputs (sh : TaskShape v task) (ho : Outputs v task (pending o)) :
    Registry (XyzDB.applyOutputs v task (pending o)) next (update pending o []) := by
  refine h.install o (h.version.applyOutputs sh ho (h.lt o)) fun n hn u hu => ?_
  rcases (mem_applyOutputs sh).mp hu with ⟨hu, -⟩ | ⟨-, hu⟩
  · exact .inl ⟨n, hn, hu⟩
  · exact .inr hu

lemma clear : Registry v next (update pending o []) :=
  h.write o nodup_nil (by simp) le_rfl

end

omit [DecidableEq ι] in
lemma move (h : Registry v next pending) (sh : TaskShape v task) {input : Table}
    (hin : task.inputTables = [input]) :
    Registry (XyzDB.applyOutputs v task [input]) next pending := by
  obtain ⟨m, hm, hinput⟩ : ∃ m < maxLevels, input ∈ v.level m :=
    sh.exists_level (by rw [hin]; exact .head _)
  refine ⟨h.version.applyOutputs sh (outputs_trivialMove h.version.wf sh hin) fun o ho => ?_, h.lt,
    h.nodup, fun o t ht n hn u hu => ?_, h.inj⟩
  · rw [mem_singleton.mp ho]
    exact h.version.ids m hm input hinput
  · rcases (mem_applyOutputs sh).mp hu with ⟨hu, -⟩ | ⟨-, hu⟩
    · exact h.new o t ht n hn u hu
    · rw [mem_singleton.mp hu]
      exact h.new o t ht m hm input hinput

omit [DecidableEq ι] in
lemma ingest (h : Registry v next pending) (cfg : SSTableConfig) {chunks : List (List Entry)}
    (hsorted : ∀ c ∈ chunks, SortedLE c) :
    Registry (v.withNewL0Tables (writeTables cfg next chunks)) (next + chunks.length) pending := by
  refine ⟨h.version.writeTables cfg hsorted, fun o t ht => (h.lt o t ht).trans_le (by omega),
    h.nodup, fun o t ht n hn u hu => ?_, h.inj⟩
  rcases Version.mem_withNewL0Tables.mp hu with hu | ⟨-, hu⟩
  · exact h.new o t ht n hn u hu
  · have := h.lt o t ht
    have := (writeTables_id_mem hu).1
    omega

end Registry

/-- A task stays valid when tables are appended to level `0`: its batch is still a
batch of the oldest tables there. -/
def TaskShape.extend {v : Version} {task : CompactionTask} (sh : TaskShape v task)
    (ts : List Table) : TaskShape (v.withNewL0Tables ts) task :=
  have hpos : ∀ n, task.sourceLevel < n → (v.withNewL0Tables ts).level n = v.level n :=
    fun n hn => v.withNewL0Tables_level_pos ts (by omega)
  { upper := sh.upper
    range := sh.range
    target_eq := sh.target_eq
    source_lt := sh.source_lt
    inputs_eq := by rw [sh.inputs_eq, hpos task.targetLevel (by rw [sh.target_eq]; omega)]
    upper_eq := by
      rcases sh.upper_eq with ⟨h0, n, hn⟩ | ⟨h1, p, hp, hu⟩
      · refine .inl ⟨h0, min n (v.level 0).length, ?_⟩
        rw [hn, Version.withNewL0Tables_level_zero,
          List.take_append_of_le_length (Nat.min_le_right _ _), ← List.take_eq_take_min]
      · refine .inr ⟨h1, p, ?_, hu⟩
        rw [v.withNewL0Tables_level_pos ts (by omega)]
        exact hp
    cover := sh.cover
    last := by
      intro hlast n hn h7
      rw [hpos n (by have := sh.target_eq; omega)]
      exact sh.last hlast n hn h7 }

/-- A compaction about to be swapped in fits the version: its task is valid, and it
moves a single table or has written its outputs with room. -/
def Fits (cfg : TreeConfig) (v : Version) : Option (CompactionTask × Option (List Table)) → Prop
  | none => True
  | some (task, none) => Nonempty (TaskShape v task) ∧ ∃ input, task.inputTables = [input]
  | some (task, some outs) => Nonempty (TaskShape v task) ∧ TaskHasRoom cfg task ∧
      ∃ id, outs = outputTables cfg task id

lemma Fits.extend {c : Option (CompactionTask × Option (List Table))} (h : Fits cfg v c)
    (ts : List Table) : Fits cfg (v.withNewL0Tables ts) c := by
  match c, h with
  | none, _ => trivial
  | some (task, none), ⟨⟨sh⟩, hin⟩ => exact ⟨⟨sh.extend ts⟩, hin⟩
  | some (task, some outs), ⟨⟨sh⟩, hout⟩ => exact ⟨⟨sh.extend ts⟩, hout⟩

lemma TreeState.roundOf_sound {s : TreeState} {l : TreeLabel} {r : Round}
    (h : s.roundOf cfg l = some r) : r.Sound s.tree.current.version := by
  unfold TreeState.roundOf at h
  split at h
  · cases h
    exact maybeRound_sound cfg _
  · split at h <;> cases h
    exact majorRound_sound cfg _ ..
  · cases h

/-- The tables that wait to be installed: those of a flush, or the outputs of the
compaction. -/
def TreeData.pending (d : TreeData) : Option Owner → List Table
  | some o => ((d.jobs o).bind FlushJob.tables).getD []
  | none => (d.compaction.bind Prod.snd).getD []

/-- The invariant of the levels under concurrency. -/
structure LevelInv (cfg : TreeConfig) (d : TreeData) : Prop where
  registry : Registry d.current.version d.nextTableId d.pending
  sorted : ∀ o, ∀ t ∈ d.pending (some o), SortedLE t.entries
  fits : Fits cfg d.current.version d.compaction

lemma TreeData.pending_jobs (d : TreeData) (o : Owner) (job : Option FlushJob) :
    pending { d with jobs := update d.jobs o job } =
      update d.pending (some o) ((job.bind FlushJob.tables).getD []) := by
  funext o'
  cases o' with
  | none => rw [update_of_ne (by simp)]; rfl
  | some o' =>
    by_cases ho : o' = o
    · subst ho
      simp only [pending, update_self]
    · rw [update_of_ne (by simpa using ho)]
      simp only [pending, update_of_ne ho]

lemma TreeData.mem_pending_update {o o' : Owner} {job : Option FlushJob} {t : Table}
    (ht : t ∈ pending { d with jobs := update d.jobs o job } (some o')) :
    t ∈ (job.bind FlushJob.tables).getD [] ∨ t ∈ d.pending (some o') := by
  rw [d.pending_jobs] at ht
  by_cases ho : o' = o
  · rw [ho, update_self] at ht
    exact .inl ht
  · rw [update_of_ne (by simpa using ho)] at ht
    exact .inr ht

lemma TreeData.pending_compaction (d : TreeData)
    (c : Option (CompactionTask × Option (List Table))) :
    pending { d with compaction := c } = update d.pending none ((c.bind Prod.snd).getD []) := by
  funext o'
  cases o' with
  | none => rw [update_self]; rfl
  | some o' => rw [update_of_ne (by simp)]; rfl

/-- The step of `ingest_sorted`. -/
def TreeLabel.isIngest : TreeLabel → Bool
  | .ingestSorted _ => true
  | _ => false

/-- The writer of a compaction that starts has room, and ingested entries are sorted. -/
def LevelsGuard (cfg : TreeConfig) (s : TreeState) (l : TreeLabel) : Prop :=
  (match s.roundOf cfg l with
    | some r => r.HasRoom cfg
    | none => True) ∧
  match l with
    | .ingestSorted entries => SortedLE entries
    | _ => True

section

variable {cfg : TreeConfig} {s : TreeState} {l : TreeLabel}

lemma levelsGuard_of_none (hop : cfg.mergeOperator = none)
    (hl : l.isIngest = false) : LevelsGuard cfg s l := by
  refine ⟨?_, ?_⟩
  · cases s.roundOf cfg l with
    | none => trivial
    | some r => exact Round.hasRoom_of_none hop r
  · cases l with
    | ingestSorted entries => cases hl
    | _ => trivial

lemma LevelInv.setJob (h : LevelInv cfg s.data) (o : Owner) (job : Option FlushJob)
    (c : SuperVersion Memtable) (next drops : ℕ)
    (hreg : Registry c.version next (update s.data.pending (some o)
      ((job.bind FlushJob.tables).getD [])))
    (hsorted : ∀ t ∈ (job.bind FlushJob.tables).getD [], SortedLE t.entries)
    (hfits : Fits cfg c.version s.maint.pending) :
    LevelInv cfg { s.data with
      current := c, nextTableId := next, drops := drops, jobs := update s.jobs o job } := by
  have hpend : pending { s.data with
      current := c, nextTableId := next, drops := drops, jobs := update s.jobs o job } =
        _ := s.data.pending_jobs o job
  refine ⟨by rw [hpend]; exact hreg, fun o' t ht => ?_, hfits⟩
  rcases mem_pending_update (d := s.data) ht with ht | ht
  · exact hsorted t ht
  · exact h.sorted o' t ht

lemma LevelInv.setCompaction (h : LevelInv cfg s.data)
    (x : Option (CompactionTask × Option (List Table))) (c : SuperVersion Memtable) (next : ℕ)
    (hreg : Registry c.version next (update s.data.pending none
      ((x.bind Prod.snd).getD []))) (hfits : Fits cfg c.version x) :
    LevelInv cfg { s.data with current := c, nextTableId := next, compaction := x } := by
  have hpend : pending { s.data with
      current := c, nextTableId := next, compaction := x } = _ := s.data.pending_compaction x
  refine ⟨by rw [hpend]; exact hreg, fun o t ht => ?_, hfits⟩
  exact h.sorted o t ht

lemma LevelInv.move (h : LevelInv cfg d) (hc : d.compaction = some (task, none)) :
    ∃ _ : TaskShape d.current.version task, ∃ input, task.inputTables = [input] := by
  have hfits := h.fits
  rw [hc] at hfits
  obtain ⟨⟨sh⟩, hin⟩ := hfits
  exact ⟨sh, hin⟩

/-- The outputs of a compaction fit the version they are about to be swapped into: they
clash with no table there, not even with those flushed since they were written. -/
lemma LevelInv.outputs (h : LevelInv cfg d) {outs : List Table}
    (hc : d.compaction = some (task, some outs)) :
    ∃ _ : TaskShape d.current.version task, Outputs d.current.version task outs ∧
      ∃ id, outs = outputTables cfg task id := by
  have hfits := h.fits
  rw [hc] at hfits
  obtain ⟨⟨sh⟩, hroom, id, hid⟩ := hfits
  have hnew := h.registry.new none
  rw [show d.pending none = outs by simp only [pending, hc, bind_some, getD_some], hid] at hnew
  refine ⟨sh, ?_, id, hid⟩
  rw [hid]
  exact outputs_execute (fun u hu => sh.inputs_sorted h.registry.version.wf hu)
    (fun n hn t ht o ho => hnew o ho n hn t ht) hroom

/-- **Step.** Every guarded step keeps the invariant of the levels. -/
theorem levelInv_step (h : LevelInv cfg s.data) (hok : LevelsGuard cfg s l)
    (hstep : TreeStep cfg s l d) : LevelInv cfg d := by
  cases hstep with
  | quiet => exact h
  | put | sealActive => exact ⟨h.registry, h.sorted, h.fits⟩
  | ingest entries hl =>
    subst hl
    have hchunks : ∀ c ∈ Chunk.chunk entrySize cfg.maxMemtableSize entries, SortedLE c :=
      fun c hc => Chunk.Pairwise.of_mem_chunk hok.2 hc
    exact ⟨h.registry.ingest _ hchunks, h.sorted, h.fits.extend _⟩
  | snapshot o hne =>
    exact h.setJob o _ s.tree.current _ s.drops (h.registry.clear (some o)) (by simp) h.fits
  | write o ho job enabled hjob hnone =>
    refine h.setJob o _ s.tree.current _ s.drops (h.registry.write (some o)
      (writeTables_nodup ..) (fun t ht => ?_) (Nat.le_add_right _ _)) (fun t ht => ?_) h.fits
    · have := writeTables_id_mem ht
      rwa [length_map] at this
    · obtain ⟨m, -, hm⟩ := mem_map.mp (writeTables_entries_mem ht)
      rw [← hm]
      exact m.sorted.sortedLE
  | install o ho job tables hjob htables =>
    have hpend : s.data.pending (some o) = tables := by
      simp only [pending, show s.data.jobs o = some job from hjob, bind_some, htables, getD_some]
    have hreg := h.registry.installL0 (some o) (h.sorted o)
    rw [hpend] at hreg
    exact h.setJob o none (s.tree.installFlush tables job.memtables.length).current _ _ hreg
      (by simp) (h.fits.extend tables)
  | startMove task hround =>
    -- a task picked from this version fits it
    exact h.setCompaction _ s.tree.current _ (h.registry.clear none)
      (TreeState.roundOf_sound hround)
  | startCompact task hround =>
    have hroom : TaskHasRoom cfg task := by
      have := hok.1
      rw [hround] at this
      exact this
    exact h.setCompaction _ s.tree.current _ (h.registry.write none (writeTables_nodup ..)
      (fun t ht => writeTables_id_mem ht) (Nat.le_add_right _ _))
      ⟨TreeState.roundOf_sound hround, hroom, _, rfl⟩
  | applyMove task hc =>
    -- a move has one input, which overlaps nothing at its new level
    have hfits := h.fits
    rw [show s.data.compaction = some (task, none) from hc] at hfits
    obtain ⟨⟨sh⟩, input, hin⟩ := hfits
    have hreg := (h.registry.move sh hin).clear none
    rw [← show task.inputTables.take 1 = [input] by rw [hin]; rfl] at hreg
    exact h.setCompaction none (s.tree.applyCompaction task (task.inputTables.take 1)).current _
      hreg trivial
  | applyCompact task outs hc =>
    obtain ⟨sh, hout, -⟩ := h.outputs hc
    have hpend : s.data.pending none = outs := by
      simp only [pending, show s.data.compaction = some (task, some outs) from hc,
        bind_some, getD_some]
    rw [← hpend] at hout
    have hreg := h.registry.applyOutputs none sh hout
    rw [hpend] at hreg
    exact h.setCompaction none (s.tree.applyCompaction task outs).current _ hreg trivial

end

lemma levelInv_of_idle (hv : d.current.version.Inv d.nextTableId) (hpend : ∀ o, d.pending o = [])
    (hc : d.compaction = none) : LevelInv cfg d := by
  have hnone : ∀ o, ∀ t, t ∉ d.pending o := by
    intro o t ht
    rw [hpend] at ht
    cases ht
  refine ⟨⟨hv, fun o t ht => absurd ht (hnone o t), fun o => ?_,
    fun o t ht => absurd ht (hnone o t), fun o o' t ht => absurd ht (hnone o t)⟩,
    fun o t ht => absurd ht (hnone _ t), ?_⟩
  · rw [hpend]
    exact nodup_nil
  · rw [hc]
    trivial

lemma levelInv_init (cfg : TreeConfig) : LevelInv cfg (treeSys cfg).init.data := by
  refine levelInv_of_idle Version.Inv.new (fun o => ?_) rfl
  cases o with
  | none => rfl
  | some o => cases o <;> rfl

/-- **Run.** The invariant of the levels holds in every state of a guarded run. -/
theorem levelInv_reach {s : TreeState} (h : (treeSys cfg).Reach (LevelsGuard cfg) s) :
    LevelInv cfg s.data := by
  refine h.invariant (fun s => LevelInv cfg s.data) (levelInv_init cfg) ?_
  exact fun s l s' hinv hok hnext => levelInv_step hinv hok (treeStep_of_next hnext)

lemma binarySearchBy_cover {l : List Table} (hd : l.Pairwise fun a b => a.keyMax < b.keyMin)
    (hs : ∀ t ∈ l, SortedLE t.entries) {k : Key} {t : Table} (ht : t ∈ l) (hmin : t.keyMin ≤ k)
    (hmax : k ≤ t.keyMax) : ∃ i, binarySearchBy (Table.cmpRange k) l = .ok i ∧ l[i]? = some t := by
  have hpart := partitioned_cmpRange hd hs k
  cases hfind : binarySearchBy (Table.cmpRange k) l with
  | error i => exact absurd (cmpRange_eq.mpr ⟨hmin, hmax⟩) (binarySearchBy_eq_none hpart hfind ht)
  | ok i =>
    obtain ⟨u, hu, heq⟩ := binarySearchBy_found hfind
    obtain ⟨j, hj⟩ := mem_iff_getElem?.mp ht
    obtain rfl := eq_of_cover hd hu hj (cmpRange_eq.mp heq) ⟨hmin, hmax⟩
    exact ⟨i, rfl, hj⟩

/-- **The deep levels are sorted and disjoint.** In every state of a guarded run, each
level from `1` on is sorted by smallest key, consecutive tables are strictly apart,
and the binary search of a point read finds the table that covers its key. -/
theorem levels_disjoint {cfg : TreeConfig} {s : TreeState}
    (h : (treeSys cfg).Reach (LevelsGuard cfg) s) {n : ℕ} (h1 : 1 ≤ n) (hn : n < maxLevels) :
    ((s.tree.current.version.level n).Pairwise fun a b =>
      a.keyMin ≤ b.keyMin ∧ a.keyMax < b.keyMin) ∧
    ∀ k, ∀ t ∈ s.tree.current.version.level n, t.keyMin ≤ k → k ≤ t.keyMax →
      ∃ i, binarySearchBy (Table.cmpRange k) (s.tree.current.version.level n) = .ok i ∧
        (s.tree.current.version.level n)[i]? = some t := by
  have hinv := (levelInv_reach h).registry.version
  have hd := hinv.disjoint n h1 hn
  have hs := hinv.wf.sorted n hn
  refine ⟨?_, fun k t ht hmin hmax => binarySearchBy_cover hd hs ht hmin hmax⟩
  refine pairwise_iff_forall_sublist.mpr fun {a b} hab => ?_
  have hlt : a.keyMax < b.keyMin := pairwise_iff_forall_sublist.mp hd hab
  have ha := keyMin_le_keyMax (hs a (hab.subset (by simp))).keySorted
  exact ⟨(ha.trans_lt hlt).le, hlt⟩

instance (cfg : TreeConfig) (s : TreeState) (l : TreeLabel) : Decidable (LevelsGuard cfg s l) := by
  unfold LevelsGuard
  cases s.roundOf cfg l <;> cases l <;> infer_instance

/-- A call of `flush_sealed`, start to end. -/
def fullFlush (thread : ℕ) : List TreeLabel := List.replicate 6 (.flush thread)

/-- A background compaction, start to end. -/
def fullCompact : List TreeLabel := [.maybeCompact, .maint, .maint]

/-- The key `R` reaches level `2`, is deleted and written again, and the two entries a
compaction keeps of it are cut apart. -/
def overlapRun : List TreeLabel :=
  [.insert [81] [0], .insert [82] [9], .sealActive] ++ fullFlush 0 ++ fullCompact ++ fullCompact ++
    [.remove [82], .insert [82] [3], .sealActive] ++ fullFlush 0 ++ fullCompact

theorem levels_overlap : ∃ s, (treeSys (smallConfig (some maxOp) 22)).Reach TransSys.anyStep s ∧
    ¬ (s.tree.current.version.level 1).Pairwise fun a b => a.keyMax < b.keyMin :=
  TransSys.exists_reach_of_run overlapRun (by decide +kernel)

/-- With room in the tables the levels stay disjoint. -/
theorem levels_disjoint_roomy : ∃ s, (treeSys (smallConfig (some maxOp) 4096)).Reach
      (LevelsGuard (smallConfig (some maxOp) 4096)) s ∧
      (s.tree.current.version.level 1).length = 1 ∧
      (s.tree.current.version.level 1).Pairwise fun a b =>
        a.keyMin ≤ b.keyMin ∧ a.keyMax < b.keyMin :=
  TransSys.exists_reach_and ([.insert [81] [0], .insert [82] [9], .sealActive] ++
    fullFlush 0 ++ fullCompact ++ [.remove [82], .insert [82] [3], .sealActive] ++ fullFlush 0 ++
    fullCompact) (by decide +kernel)
    fun _ hs => (levels_disjoint hs (Nat.le_refl 1) (by decide)).1

/-- **Tables are in internal-key order**, those of the version and those that flushes and the
compaction are about to install, whose ids no table of the version and of another thread has. -/
theorem tables_ordered {cfg : TreeConfig} {s : TreeState}
    (h : (treeSys cfg).Reach (LevelsGuard cfg) s) :
    (∀ n < maxLevels, ∀ t ∈ s.tree.current.version.level n, SortedLE t.entries) ∧
    ∀ o, ∀ t ∈ s.data.pending o, SortedLE t.entries ∧
      (∀ n < maxLevels, ∀ u ∈ s.tree.current.version.level n, u.id ≠ t.id) ∧
      ∀ o', ∀ u ∈ s.data.pending o', t.id = u.id → o = o' := by
  have hinv := levelInv_reach h
  refine ⟨hinv.registry.version.wf.sorted, fun o t ht =>
    ⟨?_, hinv.registry.new o t ht, fun o' => hinv.registry.inj o o' t ht⟩⟩
  cases o with
  | some o => exact hinv.sorted o t ht
  | none =>
    -- the outputs that wait are those the compaction wrote
    rcases hc : s.data.compaction with _ | ⟨task, _ | outs⟩ <;> rw [TreeData.pending, hc] at ht
    · cases ht
    · cases ht
    · obtain ⟨-, hout, -⟩ := hinv.outputs hc
      exact hout.sorted t ht

theorem tables_ordered_compacting : ∃ s, (treeSys (smallConfig none 4096)).Reach
      (LevelsGuard (smallConfig none 4096)) s ∧ (s.data.pending none).length = 1 ∧
      ∀ t ∈ s.data.pending none, SortedLE t.entries :=
  TransSys.exists_reach_and ([.insert [82] [9], .insert [81] [0], .sealActive] ++ fullFlush 0 ++
    [.remove [82], .sealActive] ++ fullFlush 0 ++ [.maybeCompact]) (by decide +kernel)
    fun _ hs t ht => ((tables_ordered hs).2 none t ht).1

end XyzDB
