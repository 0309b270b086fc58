import XyzDB.Turba.MarkSys

/-!
# The durable watermark

`manifest_durable_seqno` promises that every entry of the tree up to it is in a table that
the manifest on disk lists. It is raised in three places. A flush raises it to the highest
number it has flushed, after it has persisted the manifest. A checkpoint and a major
compaction raise it to `flushed_seqno`, some time after they have persisted the manifest;
in between, a background flush that finds compaction switched off may install tables and
raise `flushed_seqno` without persisting anything.

The promise also rests on the order of writes. A flush declares all numbers up to its
highest one flushed, so every later write must be above whatever was sealed before, and
a flush must not bring memtables in again that another one has already dropped.

`WatermarkGuard` asks for these. The argument is in the history of seals: every number
that is declared flushed is at most that of a memtable that was dropped (`Passed`), what is
still in memory is above all of these, so it is only the tables that have to be listed.
-/

namespace XyzDB

open KeyRuns List Version

variable {e : Entry} {o : Owner} {job : FlushJob}

/-- All of one memtable is older than all of the other. -/
def Memtable.Before (a b : Memtable) : Prop :=
  ∀ x ∈ a.entries, ∀ y ∈ b.entries, x.seqno < y.seqno

/-- The number is at most `base`, where the history starts, or that of an entry whose
memtable was dropped. -/
def TreeData.Passed (base : ℕ) (d : TreeData) (n : ℕ) : Prop :=
  n ≤ base ∨ ∃ m ∈ d.sealedLog.take d.drops, ∃ x ∈ m.entries, n ≤ x.seqno

/-- The entries of the tables a manifest lists. -/
def manifestRun (manifest : Option Manifest) : List Entry :=
  ((manifest.map Manifest.version).getD .new).run

/-- The entries up to a number have their versions in the manifest. -/
def Listed (op : Option MergeOperator) (manifest : Option Manifest) (run : List Entry) (n : ℕ) :
    Prop :=
  ∀ e ∈ run, e.seqno ≤ n → ∃ x ∈ manifestRun manifest, x.SameVersion op e

lemma TreeData.Passed.max {d : TreeData} {m n : ℕ} (hm : d.Passed base m) (hn : d.Passed base n) :
    d.Passed base (max m n) :=
  max_rec' _ hm hn

lemma Listed.max {manifest : Option Manifest} {run : List Entry} {m n : ℕ}
    (hm : Listed op manifest run m) (hn : Listed op manifest run n) :
    Listed op manifest run (max m n) :=
  max_rec' _ hm hn

/-- Memtables are in the order of their numbers, and above the tables. -/
structure Settled (op : Option MergeOperator) (base : ℕ) (d : TreeData) : Prop where
  flush : FlushInv d
  ordered : (d.sealedLog ++ [d.current.active]).Pairwise Memtable.Before
  above : ∀ m ∈ d.sealedLog ++ [d.current.active], ∀ x ∈ m.entries, base < x.seqno
  version : ∀ y ∈ d.current.version.run, d.Passed base y.seqno
  /-- What a compaction is about to swap in are versions of what is there. -/
  outs : ∀ task outs, d.compaction = some (task, outs) →
    ∀ t ∈ outs.getD (task.inputTables.take 1), ∀ e ∈ t.entries,
      ∃ x ∈ d.current.version.run, x.SameVersion op e

/-- A step keeps the order, passes what was passed, and brings only versions of what was
there or numbers that were not passed into the tables. -/
structure Advances (op : Option MergeOperator) (base : ℕ) (d d' : TreeData) : Prop where
  settled : Settled op base d'
  passed : ∀ n, d.Passed base n → d'.Passed base n
  run : ∀ e ∈ d'.current.version.run,
    (∃ x ∈ d.current.version.run, x.SameVersion op e) ∨ ∀ n, d.Passed base n → n < e.seqno

variable {ts : List Table}

section

variable {cfg : TreeConfig} {op : Option MergeOperator} {base : ℕ} {d d' : TreeData}

section

variable (h : Settled op base d)

include h

/-- What was sealed and not dropped, or is active, is above every number passed. -/
lemma Settled.lt_of_passed {n : ℕ} (hn : d.Passed base n)
    {m : Memtable} (hm : m ∈ d.sealedLog.drop d.drops ++ [d.current.active]) {x : Entry}
    (hx : x ∈ m.entries) : n < x.seqno := by
  have hsplit : d.sealedLog ++ [d.current.active] =
      d.sealedLog.take d.drops ++ (d.sealedLog.drop d.drops ++ [d.current.active]) := by
    rw [← append_assoc, take_append_drop]
  have hordered := h.ordered
  have habove := h.above
  rw [hsplit] at hordered habove
  rcases hn with hn | ⟨m', hm', y, hy, hn⟩
  · exact lt_of_le_of_lt hn (habove m (mem_append_right _ hm) x hx)
  · exact lt_of_le_of_lt hn ((pairwise_append.mp hordered).2.2 m' hm' m hm y hy x hx)

lemma Advances.refl : Advances op base d d :=
  ⟨h, fun _ hn => hn, fun e he => .inl ⟨e, he, .refl op e⟩⟩

lemma Settled.put (hbase : base < e.seqno)
    (hnew : ∀ m ∈ d.sealedLog, ∀ x ∈ m.entries, x.seqno < e.seqno) (seqno : ℕ) (log : List Entry) :
    Advances op base d
      { d with
        current := ⟨d.current.active.insert e, d.current.sealed, d.current.version⟩
        seqno := seqno
        log := log } := by
  obtain ⟨hsealed, -, hlast⟩ := pairwise_append.mp h.ordered
  have hactive : ∀ x ∈ (d.current.active.insert e).entries,
      x = e ∨ x ∈ d.current.active.entries := fun x hx => mem_of_mem_insertEntry hx
  refine ⟨⟨⟨h.flush.sealed_eq, h.flush.drops_le, h.flush.nonempty, h.flush.job, h.flush.tables⟩,
    ?_, ?_, h.version, h.outs⟩, fun _ hn => hn, fun x hx => .inl ⟨x, hx, .refl op x⟩⟩
  · refine pairwise_append.mpr ⟨hsealed, pairwise_singleton _ _, fun m hm m' hm' => ?_⟩
    rw [mem_singleton.mp hm']
    intro x hx y hy
    rcases hactive y hy with rfl | hy
    · exact hnew m hm x hx
    · exact hlast m hm _ (.head _) x hx y hy
  · intro m hm x hx
    rcases mem_append.mp hm with hm | hm
    · exact h.above m (mem_append_left _ hm) x hx
    · rw [mem_singleton.mp hm] at hx
      rcases hactive x hx with rfl | hx
      · exact hbase
      · exact h.above _ (mem_append_right _ (.head _)) x hx

lemma Settled.sealActive (hflush : FlushInv d') (hd : d' = { d with
      current := ⟨.new, d.current.sealed ++ [d.current.active], d.current.version⟩
      sealedLog := d.sealedLog ++ [d.current.active] }) : Advances op base d d' := by
  have hpassed : ∀ n, d.Passed base n → d'.Passed base n := by
    intro n hn
    refine hn.imp_right fun ⟨m, hm, hx⟩ => ⟨m, ?_, hx⟩
    rw [hd, take_append_of_le_length h.flush.drops_le]
    exact hm
  subst hd
  refine ⟨⟨hflush, ?_, ?_, fun y hy => hpassed _ (h.version y hy), h.outs⟩, hpassed,
    fun x hx => .inl ⟨x, hx, .refl op x⟩⟩
  · refine pairwise_append.mpr ⟨h.ordered, pairwise_singleton _ _, fun m _ m' hm' => ?_⟩
    rw [mem_singleton.mp hm']
    exact fun _ _ _ => nofun
  · intro m hm x hx
    rcases mem_append.mp hm with hm | hm
    · exact h.above m hm x hx
    · rw [mem_singleton.mp hm] at hx
      cases hx

end

/-- With nothing dropped since its snapshot, an install drops just the memtables it has
written. -/
lemma FlushInv.take_drops (h : FlushInv d) (hjob : d.jobs o = some job)
    (hdrops : d.drops = job.drops) :
    d.sealedLog.take (d.drops + min job.memtables.length d.current.sealed.length) =
      d.sealedLog.take d.drops ++ job.memtables := by
  rw [take_add, ← h.sealed_eq, ← take_eq_take_min, h.take_sealed hjob hdrops]

lemma FlushInv.exists_memtable (h : FlushInv d) (hjob : d.jobs o = some job)
    (hts : job.tables = some ts) {t : Table} (ht : t ∈ ts) :
    ∃ m ∈ job.memtables, m.entries = t.entries := by
  have hmem : t.entries ∈ ts.map Table.entries := mem_map_of_mem ht
  rw [h.tables o job ts hjob hts] at hmem
  exact mem_map.mp (mem_filter.mp hmem).1

lemma Settled.install (h : Settled op base d) (hjob : d.jobs o = some job)
    (hts : job.tables = some ts) (hsole : d.drops = job.drops) (hflush : FlushInv d')
    {sealed : List Memtable} {jobs : Owner → Option FlushJob} (hd : d' = { d with
      current := ⟨d.current.active, sealed, d.current.version.withNewL0Tables ts⟩
      drops := d.drops + min job.memtables.length d.current.sealed.length
      jobs := jobs }) : Advances op base d d' := by
  have htake : d'.sealedLog.take d'.drops = d.sealedLog.take d.drops ++ job.memtables := by
    rw [hd, h.flush.take_drops hjob hsole]
  have hpassed : ∀ n, d.Passed base n → d'.Passed base n := fun n hn =>
    hn.imp_right fun ⟨m, hm, hx⟩ => ⟨m, htake ▸ mem_append_left _ hm, hx⟩
  have hrun : d'.current.version.run =
      ts.reverse.flatMap Table.entries ++ d.current.version.run := by
    rw [hd, run_withNewL0Tables]
  -- a new entry comes from a memtable that was still sealed
  have hnew : ∀ e ∈ ts.reverse.flatMap Table.entries, ∃ m ∈ job.memtables, e ∈ m.entries := by
    intro e he
    obtain ⟨t, ht, he⟩ := mem_flatMap.mp he
    obtain ⟨m, hm, heq⟩ := h.flush.exists_memtable hjob hts (mem_reverse.mp ht)
    exact ⟨m, hm, heq ▸ he⟩
  have hsealed : ∀ m ∈ job.memtables, m ∈ d.sealedLog.drop d.drops := by
    intro m hm
    rw [← h.flush.sealed_eq]
    rw [← h.flush.take_sealed hjob hsole] at hm
    exact mem_of_mem_take hm
  refine ⟨⟨hflush, hd ▸ h.ordered, hd ▸ h.above, fun y hy => ?_, fun task outs hc t ht e he => ?_⟩,
    hpassed, fun e he => ?_⟩
  · rw [hrun] at hy
    rcases mem_append.mp hy with hy | hy
    · obtain ⟨m, hm, hy⟩ := hnew y hy
      exact .inr ⟨m, htake ▸ mem_append_right _ hm, y, hy, le_rfl⟩
    · exact hpassed _ (h.version y hy)
  · rw [hd] at hc
    obtain ⟨x, hx, hsame⟩ := h.outs task outs hc t ht e he
    exact ⟨x, hrun ▸ mem_append_right _ hx, hsame⟩
  · rw [hrun] at he
    rcases mem_append.mp he with he | he
    · obtain ⟨m, hm, he⟩ := hnew e he
      exact .inr fun n hn => h.lt_of_passed hn (mem_append_left _ (hsealed m hm)) he
    · exact .inl ⟨e, he, .refl op e⟩

lemma Settled.swap (h : Settled op base d) {task : CompactionTask} {outs : Option (List Table)}
    (hc : d.compaction = some (task, outs)) (hflush : FlushInv d') (hd : d' = { d with
      current := ⟨d.current.active, d.current.sealed, applyOutputs d.current.version task
        (outs.getD (task.inputTables.take 1))⟩
      compaction := none }) : Advances op base d d' := by
  subst hd
  have hrun : ∀ e ∈ (applyOutputs d.current.version task
      (outs.getD (task.inputTables.take 1))).run, ∃ x ∈ d.current.version.run,
        x.SameVersion op e := by
    intro e he
    obtain ⟨t, ht, he⟩ := mem_run.mp he
    obtain ⟨k, hk, ht⟩ := mem_allTables.mp ht
    rcases mem_of_withCompactionApplied ht with ⟨ht, -⟩ | ht
    · exact ⟨e, mem_run.mpr ⟨t, mem_allTables.mpr ⟨k, hk, ht⟩, he⟩, .refl op e⟩
    · exact h.outs task outs hc t ht e he
  refine ⟨⟨hflush, h.ordered, h.above, fun y hy => ?_, nofun⟩, fun _ hn => hn,
    fun e he => .inl (hrun e he)⟩
  obtain ⟨x, hx, hsame⟩ := hrun y hy
  exact hsame.2.1 ▸ h.version x hx

end

/-! ### Steps -/

/-- A flush installs with nothing dropped since its snapshot. -/
def SoleInstall (s : TreeState) (l : TreeLabel) : Prop :=
  match (TreeState.ownerOf l).bind s.jobs with
  | some ⟨_, _, drops, some _⟩ => s.drops = drops
  | _ => True

instance (s : TreeState) (l : TreeLabel) : Decidable (SoleInstall s l) := by
  unfold SoleInstall
  rcases (TreeState.ownerOf l).bind s.jobs with _ | ⟨_, _, _, _ | _⟩ <;> infer_instance

/-- The entry is above everything that was sealed. -/
abbrev AboveSealed (s : TreeState) (e : Entry) : Prop :=
  ∀ m ∈ s.sealedLog, ∀ x ∈ m.entries, x.seqno < e.seqno

section

variable {cfg : TreeConfig} {base : ℕ} {s s' : TreeState} {l : TreeLabel} {d : TreeData}

lemma SoleInstall.install (h : SoleInstall s l) (ho : TreeState.ownerOf l = some o)
    (hjob : s.jobs o = some job) (hts : job.tables = some ts) : s.drops = job.drops := by
  obtain ⟨memtables, seals, drops, tables⟩ := job
  obtain rfl : tables = some ts := hts
  simp only [SoleInstall, ho, Option.bind_some, hjob] at h
  exact h

lemma mem_run_of_input {v : Version} {task : CompactionTask} (sh : TaskShape v task) {t : Table}
    (ht : t ∈ task.inputTables) (he : e ∈ t.entries) : e ∈ v.run := by
  obtain ⟨k, hk, ht⟩ := sh.exists_level ht
  exact mem_run.mpr ⟨t, mem_allTables.mpr ⟨k, hk, ht⟩, he⟩

lemma settled_step (h : Settled cfg.mergeOperator base s.data) (hl : l.isIngest = false)
    (hsole : SoleInstall s l) (hput : ∀ e, s.entryOf l = some e → base < e.seqno ∧ AboveSealed s e)
    (hstep : TreeStep cfg s l d) : Advances cfg.mergeOperator base s.data d := by
  have hflush := flushInv_step h.flush hstep
  have hrefl := Advances.refl h
  cases hstep with
  | quiet => exact hrefl
  | put e he => exact h.put (hput e he).1 (hput e he).2 _ _
  | ingest entries heq =>
    subst heq
    cases hl
  | sealActive hne => exact h.sealActive hflush rfl
  | snapshot | write =>
    exact ⟨⟨hflush, h.ordered, h.above, h.version, h.outs⟩, hrefl.passed, hrefl.run⟩
  | install o ho job tables hjob htables =>
    exact h.install hjob htables (hsole.install ho hjob htables) hflush rfl
  | startMove task hround =>
    refine ⟨⟨hflush, h.ordered, h.above, h.version, fun task' outs hc t ht e he => ?_⟩,
      hrefl.passed, hrefl.run⟩
    cases hc
    obtain ⟨⟨sh⟩, -⟩ := TreeState.roundOf_sound hround
    exact ⟨e, mem_run_of_input sh (mem_of_mem_take ht) he, .refl _ e⟩
  | startCompact task hround =>
    refine ⟨⟨hflush, h.ordered, h.above, h.version, fun task' outs hc t ht e he => ?_⟩,
      hrefl.passed, hrefl.run⟩
    cases hc
    obtain ⟨sh⟩ := TreeState.roundOf_sound hround
    have hout : e ∈ task.output cfg.heap cfg.mergeOperator := by
      rw [← execute_flatMap]
      exact mem_flatMap.mpr ⟨t, ht, he⟩
    obtain ⟨u, hu, x, hx, hsame⟩ := exists_of_mem_output hout
    exact ⟨x, mem_run_of_input sh hu hx, hsame⟩
  | applyMove task hc | applyCompact task outs hc => exact h.swap hc hflush rfl

end

/-- Every number declared flushed is passed, and what is declared durable is listed. -/
structure WatermarkInv (op : Option MergeOperator) (base : ℕ) (d : TreeData) (k : Marks) :
    Prop where
  settled : Settled op base d
  flushed : d.Passed base k.flushed
  durable_passed : d.Passed base k.durable
  installed : ∀ o n, k.installed o = some n → d.Passed base n
  persisted : ∀ o n, k.persisted o = some n →
    k.installed o = some n ∧ Listed op k.manifest d.current.version.run n
  durable : Listed op k.manifest d.current.version.run k.durable

/-- Every table of the version is listed in the manifest on disk. -/
abbrev VersionListed (s : TreeState) : Prop :=
  ∀ t ∈ s.tree.current.version.allTables,
    ∃ u ∈ listedTables s.tree.manifest, u.id = t.id ∧ u.entries = t.entries

section

variable {op : Option MergeOperator} {base : ℕ} {d d' : TreeData} {k : Marks}
  {s s' : TreeState} {l : TreeLabel}

lemma Advances.listed (ha : Advances op base d d') {manifest : Option Manifest} {n : ℕ}
    (hn : d.Passed base n) (h : Listed op manifest d.current.version.run n) :
    Listed op manifest d'.current.version.run n := by
  intro e he hle
  rcases ha.run e he with ⟨x, hx, hsame⟩ | hlt
  · obtain ⟨y, hy, hyx⟩ := h x hx (hsame.2.1 ▸ hle)
    exact ⟨y, hy, hyx.trans hsame⟩
  · exact absurd (hlt n hn) (not_lt.mpr hle)

lemma WatermarkInv.advance (h : WatermarkInv op base d k) (ha : Advances op base d d') :
    WatermarkInv op base d' k where
  settled := ha.settled
  flushed := ha.passed _ h.flushed
  durable_passed := ha.passed _ h.durable_passed
  installed o n hn := ha.passed n (h.installed o n hn)
  persisted o n hn :=
    have hp := h.persisted o n hn
    ⟨hp.1, ha.listed (h.installed o n hp.1) hp.2⟩
  durable := ha.listed h.durable_passed h.durable

lemma listed_persistManifest (h : s'.tree.current = s.tree.current) (n : ℕ) :
    Listed op s.tree.persistManifest.manifest s'.data.current.version.run n := by
  intro e he _
  refine ⟨e, ?_, .refl op e⟩
  change e ∈ s'.tree.current.version.run at he
  rw [h] at he
  exact he

lemma VersionListed.listed (h : VersionListed s) (hcur : s'.tree.current = s.tree.current)
    (n : ℕ) : Listed op s.tree.manifest s'.data.current.version.run n := by
  intro e he _
  change e ∈ s'.tree.current.version.run at he
  rw [hcur] at he
  obtain ⟨t, ht, he⟩ := mem_run.mp he
  obtain ⟨u, hu, -, heq⟩ := h t ht
  exact ⟨e, mem_run.mpr ⟨u, hu, heq ▸ he⟩, .refl op e⟩

lemma FlushInv.passed_maxFlushed (h : FlushInv s.data) (hjob : s.jobs o = some job)
    (hsole : s.drops = job.drops) (hsealed : s'.sealedLog = s.sealedLog)
    (hdrops : s'.drops = s.drops + min job.memtables.length s.tree.current.sealed.length) :
    s'.data.Passed base (Tree.maxFlushed job.memtables) := by
  have htake : s'.sealedLog.take s'.drops = s.sealedLog.take s.drops ++ job.memtables := by
    rw [hsealed, hdrops]
    exact h.take_drops hjob hsole
  rcases Tree.maxFlushed_mem job.memtables with hzero | ⟨m, hm, hmax⟩
  · exact .inl (hzero ▸ Nat.zero_le _)
  · -- the highest number of a memtable is that of one of its entries
    rcases m.highest_mem with hzero | ⟨x, hx, hxs⟩
    · exact .inl (hmax ▸ hzero ▸ Nat.zero_le _)
    · refine .inr ⟨m, ?_, x, hx, (hxs.trans hmax).ge⟩
      change m ∈ s'.sealedLog.take s'.drops
      rw [htake]
      exact mem_append_right _ hm

lemma Flush.persistedMax_of_job {f : Flush} (h : f.job = some job) : f.persistedMax = none := by
  cases f <;> first | rfl | cases h

/-- **Marks.** The counters follow the data. -/
theorem WatermarkInv.mark (h : WatermarkInv op base s'.data s.marks) (hflush : FlushInv s.data)
    (hsole : SoleInstall s l) (hlisted : l = .maint → s.maint.catchesUp = true → VersionListed s)
    (hstep : MarkStep s l s') : WatermarkInv op base s'.data s'.marks := by
  cases hstep with
  | keep hmarks =>
    rw [hmarks]
    exact h
  | install o job tables ho hjob htables hsealed hdrops hmarks =>
    -- by `hsole` no other flush has installed since the snapshot was taken
    rw [hmarks]
    have hnew : s'.data.Passed base (Tree.maxFlushed job.memtables) :=
      hflush.passed_maxFlushed hjob (hsole.install ho hjob htables) hsealed hdrops
    have hnone : s.marks.persisted o = none :=
      Flush.persistedMax_of_job (by rw [← jobs_flushOf, hjob])
    refine ⟨h.settled, h.flushed, h.durable_passed, fun o' n hn => ?_, fun o' n hn => ?_, h.durable⟩
    · rcases update_eq_some hn with ⟨-, hn⟩ | ⟨-, hn⟩
      · exact Option.some.inj hn ▸ hnew
      · exact h.installed o' n hn
    · have hne : o' ≠ o := by
        rintro rfl
        exact absurd (hnone.symm.trans hn) nofun
      refine ⟨?_, (h.persisted o' n hn).2⟩
      exact (Function.update_of_ne hne ..).trans (h.persisted o' n hn).1
  | flushPersist o maxFlushed hmax hcurrent hmarks =>
    rw [hmarks]
    refine ⟨h.settled, h.flushed, h.durable_passed, h.installed,
      fun o' n hn => ⟨?_, listed_persistManifest hcurrent n⟩, listed_persistManifest hcurrent _⟩
    rcases update_eq_some hn with ⟨rfl, heq⟩ | ⟨-, hold⟩
    · exact hmax.trans heq
    · exact (h.persisted o' n hold).1
  | persist hcurrent hmarks =>
    rw [hmarks]
    exact ⟨h.settled, h.flushed, h.durable_passed, h.installed, fun o n hn =>
      ⟨(h.persisted o n hn).1, listed_persistManifest hcurrent n⟩,
        listed_persistManifest hcurrent _⟩
  | advance o maxFlushed manifestPersisted hmax hper hmarks =>
    rw [hmarks]
    refine ⟨h.settled, h.flushed.max (h.installed o _ hmax), ?_, fun o' n hn => ?_,
      fun o' n hn => ?_, ?_⟩
    · dsimp only
      split
      · exact h.durable_passed.max (h.installed o _ hmax)
      · exact h.durable_passed
    · rcases update_eq_some hn with ⟨-, hn⟩ | ⟨-, hn⟩
      · cases hn
      · exact h.installed o' n hn
    · rcases update_eq_some hn with ⟨-, hn⟩ | ⟨hne, hn⟩
      · cases hn
      · refine ⟨?_, (h.persisted o' n hn).2⟩
        exact (Function.update_of_ne hne ..).trans (h.persisted o' n hn).1
    · dsimp only
      split
      · next hb => exact h.durable.max (h.persisted o _ (hper hb)).2
      · exact h.durable
  | catchUp hl hcatch hcurrent hmarks =>
    -- nothing but the guard says that the manifest lists what was flushed
    rw [hmarks]
    exact ⟨h.settled, h.flushed, h.durable_passed.max h.flushed, h.installed, h.persisted,
      (hlisted hl hcatch).listed hcurrent _⟩

/-- **Step.** A step of the tree keeps the watermark sound. -/
theorem WatermarkInv.step (h : WatermarkInv cfg.mergeOperator base s.data s.marks)
    (hl : l.isIngest = false) (hsole : SoleInstall s l)
    (hput : ∀ e, s.entryOf l = some e → base < e.seqno ∧ AboveSealed s e)
    (hlisted : l = .maint → s.maint.catchesUp = true → VersionListed s)
    (hnext : (treeSys cfg).next s l = some s') :
    WatermarkInv cfg.mergeOperator base s'.data s'.marks :=
  (h.advance (settled_step h.settled hl hsole hput (treeStep_of_next hnext))).mark
    h.settled.flush hsole hlisted (markStep_of_next hl hnext)

variable (h : WatermarkInv op base s.data s.marks)

include h

lemma WatermarkInv.put (hbase : base < e.seqno)
    (he : AboveSealed s e) : WatermarkInv op base (s.put e).data (s.put e).marks :=
  h.advance (h.settled.put hbase he _ _)

lemma WatermarkInv.recorded
    (he : e ∈ s.tree.current.run) (hle : e.seqno ≤ s.tree.manifestDurableSeqno) :
    ∃ x ∈ s.tree.recorded, x.SameVersion op e := by
  -- what is in memory is above the watermark
  have hmem : ∀ m ∈ s.sealedLog.drop s.drops ++ [s.tree.current.active], e ∉ m.entries :=
    fun m hm he => absurd (h.settled.lt_of_passed h.durable_passed hm he) (not_lt.mpr hle)
  rcases SuperVersion.mem_run.mp he with he | ⟨m, hm, he⟩ | ⟨t, ht, he⟩
  · exact absurd he (hmem _ (mem_append_right _ (.head _)))
  · have hsealed : s.tree.current.sealed = s.sealedLog.drop s.drops := h.settled.flush.sealed_eq
    exact absurd he (hmem m (mem_append_left _ (hsealed ▸ hm)))
  · exact h.durable e (mem_run.mpr ⟨t, ht, he⟩) hle

end

lemma watermarkInv_init (cfg : TreeConfig) :
    WatermarkInv cfg.mergeOperator 0 (treeSys cfg).init.data (treeSys cfg).init.marks where
  settled :=
    ⟨flushInv_init cfg, pairwise_singleton _ _, fun m hm x hx => by
      rw [mem_singleton.mp hm] at hx
      exact absurd hx not_mem_nil, nofun, nofun⟩
  flushed := .inl le_rfl
  durable_passed := .inl le_rfl
  installed o n hn := by cases o <;> cases hn
  persisted o n hn := by cases o <;> cases hn
  durable := nofun

/-! ### Runs -/

/-- Writes have positive numbers above everything sealed, and there are no ingests; a flush
installs with nothing dropped since its snapshot; and a checkpoint or a major compaction
raises the watermark while every table of the version is listed. -/
def WatermarkGuard (s : TreeState) : MarkLabel → Prop
  | .tree l => l.isIngest = false ∧ SoleInstall s l ∧
      (∀ e ∈ s.entryOf l, 0 < e.seqno ∧ AboveSealed s e) ∧
      match l with
      | .maint => s.maint.catchesUp = true → VersionListed s
      | _ => True
  | .put e => 0 < e.seqno ∧ AboveSealed s e
  | .setCompactionEnabled _ => True

instance (s : TreeState) (l : MarkLabel) : Decidable (WatermarkGuard s l) := by
  unfold WatermarkGuard
  split
  · split <;> infer_instance
  · infer_instance
  · infer_instance

lemma watermarkInv_reach (h : (markSys cfg).Reach WatermarkGuard s) :
    WatermarkInv cfg.mergeOperator 0 s.data s.marks := by
  refine h.invariant (fun s => WatermarkInv cfg.mergeOperator 0 s.data s.marks)
    (watermarkInv_init cfg) fun s l s' hinv hok hnext => ?_
  cases l with
  | tree l =>
    obtain ⟨hl, hsole, hput, hlisted⟩ := hok
    refine hinv.step hl hsole hput (fun hl hcatch => ?_) hnext
    subst hl
    exact hlisted hcatch
  | put e =>
    cases hnext
    exact hinv.put hok.1 hok.2
  | setCompactionEnabled enabled =>
    cases hnext
    exact hinv

/-- **The watermark is sound.** In every guarded run every entry of the tree up to
`manifest_durable_seqno` is in a table that the manifest on disk lists: the same entry,
or with a merge operator the same version of its key. -/
theorem durable_entries_listed {cfg : TreeConfig} {s : TreeState}
    (h : (markSys cfg).Reach WatermarkGuard s) :
    ∀ e ∈ s.tree.current.run, e.seqno ≤ s.tree.manifestDurableSeqno →
      ∃ x ∈ s.tree.recorded, x.SameVersion cfg.mergeOperator e :=
  fun _ he hle => (watermarkInv_reach h).recorded he hle

/-- A flush that installs while compaction is switched off. -/
def quietFlush : List MarkLabel := replicate 5 (.tree (.flush 0))

/-- The first write of the tree is put into a table by a checkpoint, which has persisted the
manifest and not caught up yet. -/
def checkpointToPersist : List MarkLabel :=
  [.tree (.insert [1] [5]), .tree .checkpoint] ++ replicate 7 (.tree .maint)

/-- A flush installs the second write between the persist of the checkpoint and its
catch-up. -/
def checkpointRaises : List MarkLabel :=
  checkpointToPersist ++ [.tree (.insert [2] [6]), .tree .sealActive] ++ quietFlush ++
    [.tree .maint]

/-- A major compaction finds nothing to do; a flush installs the first write before the flag
is restored. -/
def majorRaises : List MarkLabel :=
  [.tree (.major false), .tree .maint, .tree .maint, .tree .maint, .tree (.insert [1] [5]),
    .tree .sealActive] ++ quietFlush ++ [.tree .maint, .tree .maint]

/-- A seal comes between two items of one batch, and the first is flushed. -/
def batchSplit : List MarkLabel :=
  [.tree (.commitSeqno 0 [([1], [5], .value), ([2], [6], .value)]), .tree (.commitInsert 0),
    .tree .sealActive] ++ replicate 6 (.tree (.flush 0)) ++ [.tree (.commitInsert 0)]

/-- Two flushes have the same snapshot. The second one installs when a compaction has
dropped the older version of the key. -/
def installedTwice : List MarkLabel :=
  [.tree (.insert [1] [5]), .tree (.insert [1] [6]), .tree .sealActive, .tree (.flush 1),
    .tree (.flush 1)] ++ replicate 6 (.tree (.flush 0)) ++
    [.tree .maybeCompact, .tree .maint, .tree .maint, .tree (.flush 1)]

/-- An entry of the tree is declared durable and the manifest does not list it. -/
abbrev Unlisted (s : TreeState) : Prop :=
  ∃ e ∈ s.tree.current.run, e.seqno ≤ s.tree.manifestDurableSeqno ∧
    ∀ x ∈ s.tree.recorded, x.key = e.key → x.seqno ≠ e.seqno

theorem durable_entry_unlisted :
    [checkpointRaises, majorRaises, batchSplit, installedTwice].Forall fun ls =>
    ∃ s, (markSys (smallConfig none 4096)).run (markSys (smallConfig none 4096)).init ls = some s ∧
        Unlisted s := by
  refine forall_iff_forall_mem.mpr fun ls hls => exists_of_any ?_
  revert ls
  decide +kernel

/-- A checkpoint with a write between its persist and its catch-up that stays in memory. -/
theorem durable_entries_listed_checkpoint :
    ∃ s, (markSys (smallConfig none 4096)).Reach WatermarkGuard s ∧
      (s.tree.manifestDurableSeqno = 1 ∧ s.tree.seqno = 2) ∧
      ∀ e ∈ s.tree.current.run, e.seqno ≤ s.tree.manifestDurableSeqno →
        ∃ x ∈ s.tree.recorded, x.SameVersion none e :=
  TransSys.exists_reach_and (checkpointToPersist ++
    [.tree (.insert [2] [6]), .tree .maint, .tree .maint]) (by decide +kernel)
    fun _ hs => durable_entries_listed hs

end XyzDB
