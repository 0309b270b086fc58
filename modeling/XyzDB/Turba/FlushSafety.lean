import XyzDB.Turba.TreeSys

/-!
# Flushes and the memtables they drop

`flush_sealed` decides how many sealed memtables to drop from the snapshot it took,
and drops that many from the front of whatever is sealed when it installs. Between
the two, other flushes may have dropped memtables and other writers may have sealed
new ones.

The position of a snapshot in the history of seals and drops says what happens
(`FlushInv.dropped`). If nothing was dropped since the snapshot, the front of the
sealed memtables is the snapshot. If nothing was sealed since, all that is left of
the sealed memtables is in the snapshot. In both cases a memtable leaves the sealed
ones only when its table is installed, and no entry is lost (`no_entry_lost`). If
both happened, a memtable that nobody flushed is dropped (`sealed_memtable_lost`).
-/

namespace XyzDB

open KeyRuns List SuperVersion Version

variable {o : Owner} {job : FlushJob}

/-- The steps of writers, seals and flushes. -/
def TreeLabel.writesOrFlushes : TreeLabel → Bool
  | .insert _ _ | .remove _ | .commitSeqno _ _ | .commitInsert _ | .sealActive | .flush _ => true
  | _ => false

/-- A flush that installs does so with nothing dropped or with nothing sealed since its
snapshot. -/
def InstallGuard (s : TreeState) (l : TreeLabel) : Prop :=
  match (TreeState.ownerOf l).bind s.jobs with
  | some ⟨_, seals, drops, some _⟩ => s.sealedLog.length = seals ∨ s.drops = drops
  | _ => True

instance (s : TreeState) (l : TreeLabel) : Decidable (InstallGuard s l) := by
  unfold InstallGuard
  split <;> infer_instance

/-- The runs without compaction whose installs meet the guard. -/
abbrev FlushGuard (s : TreeState) (l : TreeLabel) : Prop :=
  l.writesOrFlushes = true ∧ InstallGuard s l

/-- Sealed memtables and snapshots are stretches of the history of seals. -/
structure FlushInv (d : TreeData) : Prop where
  sealed_eq : d.current.sealed = d.sealedLog.drop d.drops
  drops_le : d.drops ≤ d.sealedLog.length
  nonempty : ∀ m ∈ d.sealedLog, m.entries ≠ []
  job : ∀ o job, d.jobs o = some job → job.memtables = (d.sealedLog.take job.seals).drop job.drops ∧
      job.seals ≤ d.sealedLog.length ∧ job.drops ≤ d.drops
  tables : ∀ o job ts, d.jobs o = some job → job.tables = some ts →
    ts.map Table.entries = (job.memtables.map Memtable.entries).filter fun c => !c.isEmpty

namespace FlushInv

variable {d : TreeData}

lemma take_sealed (h : FlushInv d) (hjob : d.jobs o = some job) (hdrops : d.drops = job.drops) :
    d.current.sealed.take job.memtables.length = job.memtables := by
  obtain ⟨hmem, hseals, -⟩ := h.job o job hjob
  have hlen : job.memtables.length = job.seals - job.drops := by
    rw [hmem, length_drop, length_take]
    omega
  rw [hlen, h.sealed_eq, hdrops, hmem, drop_take]

lemma dropped (h : FlushInv d) (hjob : d.jobs o = some job)
    (hok : d.sealedLog.length = job.seals ∨ d.drops = job.drops) :
    (d.current.sealed.take (min job.memtables.length d.current.sealed.length)).Sublist
      job.memtables := by
  obtain ⟨hmem, -, hdrops⟩ := h.job o job hjob
  rw [← take_eq_take_min]
  rcases hok with hok | hok
  · -- nothing sealed since: all that is still sealed is in the snapshot
    refine (take_sublist _ _).trans ?_
    rw [h.sealed_eq, hmem, ← hok, take_length]
    exact drop_sublist_drop_left _ hdrops
  · rw [h.take_sealed hjob hok]

lemma exists_table (h : FlushInv d) {ts : List Table} (hjob : d.jobs o = some job)
    (hts : job.tables = some ts) {m : Memtable} (hm : m ∈ job.memtables) :
    ∃ t ∈ ts, t.entries = m.entries := by
  obtain ⟨hmem, -, -⟩ := h.job o job hjob
  have hne : m.entries ≠ [] := by
    rw [hmem] at hm
    exact h.nonempty m (mem_of_mem_take (mem_of_mem_drop hm))
  have hin : m.entries ∈ ts.map Table.entries := by
    rw [h.tables o job ts hjob hts]
    exact mem_filter.mpr ⟨mem_map_of_mem hm, by simpa using hne⟩
  obtain ⟨t, ht, heq⟩ := mem_map.mp hin
  exact ⟨t, ht, heq⟩

end FlushInv

section

variable {cfg : TreeConfig} {s : TreeState} {l : TreeLabel} {d : TreeData}

/-- **Step.** Every step keeps snapshots and tables in place in the history. -/
theorem flushInv_step (h : FlushInv s.data) (hstep : TreeStep cfg s l d) : FlushInv d := by
  have hsealed : s.tree.current.sealed = s.sealedLog.drop s.drops := h.sealed_eq
  have hle : s.drops ≤ s.sealedLog.length := h.drops_le
  have hjobs : ∀ o job, s.jobs o = some job →
      job.memtables = (s.sealedLog.take job.seals).drop job.drops ∧
        job.seals ≤ s.sealedLog.length ∧ job.drops ≤ s.drops := h.job
  cases hstep with
  | quiet => exact h
  | put | ingest | startMove | startCompact | applyMove | applyCompact =>
    exact ⟨h.sealed_eq, h.drops_le, h.nonempty, h.job, h.tables⟩
  | sealActive hne =>
    -- the log grows at its end: prefixes that snapshots took of it are as they were
    refine ⟨?_, ?_, fun m hm => ?_, fun o job hjob => ?_, h.tables⟩
    · change s.tree.current.sealed ++ [s.tree.current.active] =
        (s.sealedLog ++ [s.tree.current.active]).drop s.drops
      rw [drop_append_of_le_length hle, hsealed]
    · exact hle.trans (by simp)
    · rcases mem_append.mp hm with hm | hm
      · exact h.nonempty m hm
      · rw [mem_singleton.mp hm]
        intro hnil
        rw [Memtable.isEmpty_iff.mpr hnil] at hne
        cases hne
    · obtain ⟨h1, h2, h3⟩ := hjobs o job hjob
      refine ⟨?_, h2.trans (by simp), h3⟩
      rw [take_append_of_le_length h2, h1]
  | snapshot o hne =>
    -- a new snapshot is all of the log that has not been dropped
    refine ⟨h.sealed_eq, h.drops_le, h.nonempty, fun o' job hjob => ?_,
      fun o' job ts hjob hts => ?_⟩
    · rcases update_eq_some hjob with ⟨-, hjob⟩ | ⟨-, hjob⟩
      · cases hjob
        refine ⟨?_, le_rfl, le_rfl⟩
        change s.tree.current.sealed = (s.sealedLog.take s.sealedLog.length).drop s.drops
        rw [take_length, hsealed]
      · exact h.job o' job hjob
    · rcases update_eq_some hjob with ⟨-, hjob⟩ | ⟨-, hjob⟩
      · cases hjob
        cases hts
      · exact h.tables o' job ts hjob hts
  | write o ho job enabled hjob hnone =>
    -- the job keeps its memtables and gains their tables
    refine ⟨h.sealed_eq, h.drops_le, h.nonempty, fun o' job' hjob' => ?_,
      fun o' job' ts hjob' hts => ?_⟩
    · rcases update_eq_some hjob' with ⟨-, hjob'⟩ | ⟨-, hjob'⟩
      · cases hjob'
        exact h.job o job hjob
      · exact h.job o' job' hjob'
    · rcases update_eq_some hjob' with ⟨-, hjob'⟩ | ⟨-, hjob'⟩
      · cases hjob'
        cases hts
        exact writeTables_entries ..
      · exact h.tables o' job' ts hjob' hts
  | install o ho job tables hjob htables =>
    -- the front of the sealed memtables goes; the job that did it ends
    refine ⟨?_, ?_, h.nonempty, fun o' job' hjob' => ?_, fun o' job' ts hjob' hts => ?_⟩
    · change s.tree.current.sealed.drop (min job.memtables.length s.tree.current.sealed.length) =
        s.sealedLog.drop (s.drops + min job.memtables.length s.tree.current.sealed.length)
      rw [← drop_drop, ← hsealed]
    · have hlen : s.tree.current.sealed.length = s.sealedLog.length - s.drops := by
        rw [hsealed, length_drop]
      change s.drops + min job.memtables.length s.tree.current.sealed.length ≤ s.sealedLog.length
      omega
    · rcases update_eq_some hjob' with ⟨-, hjob'⟩ | ⟨-, hjob'⟩
      · cases hjob'
      · obtain ⟨h1, h2, h3⟩ := h.job o' job' hjob'
        exact ⟨h1, h2, h3.trans (Nat.le_add_right _ _)⟩
    · rcases update_eq_some hjob' with ⟨-, hjob'⟩ | ⟨-, hjob'⟩
      · cases hjob'
      · exact h.tables o' job' ts hjob' hts

lemma InstallGuard.install (h : InstallGuard s l) (ho : TreeState.ownerOf l = some o)
    {ts : List Table} (hjob : s.jobs o = some job) (hts : job.tables = some ts) :
    s.sealedLog.length = job.seals ∨ s.drops = job.drops := by
  obtain ⟨memtables, seals, drops, tables⟩ := job
  obtain rfl : tables = some ts := hts
  simp only [InstallGuard, ho, Option.bind_some, hjob] at h
  exact h

lemma roundOf_eq_none (h : l.writesOrFlushes = true) : s.roundOf cfg l = none := by
  cases l <;> first | rfl | cases h

lemma mem_run_install (h : FlushInv s.data) {ts : List Table} (hjob : s.jobs o = some job)
    (hts : job.tables = some ts) (hok : s.sealedLog.length = job.seals ∨ s.drops = job.drops)
    {e : Entry} (he : e ∈ s.tree.current.run) :
    e ∈ (s.tree.installFlush ts job.memtables.length).current.run := by
  have hdropped := h.dropped hjob hok
  have hversion : ∀ t ∈ ts, t ∈ (s.tree.current.version.withNewL0Tables ts).allTables := fun t ht =>
    mem_allTables.mpr ⟨0, by decide, mem_withNewL0Tables.mpr (.inr ⟨rfl, ht⟩)⟩
  rcases mem_run.mp he with he | ⟨m, hm, he⟩ | ⟨t, ht, he⟩
  · exact mem_run.mpr (.inl he)
  · rw [← take_append_drop (min job.memtables.length s.tree.current.sealed.length)
      s.tree.current.sealed] at hm
    rcases mem_append.mp hm with hm | hm
    · -- dropped: its table is installed
      obtain ⟨t, ht, heq⟩ := h.exists_table hjob hts (hdropped.subset hm)
      exact mem_run.mpr (.inr (.inr ⟨t, hversion t ht, heq ▸ he⟩))
    · exact mem_run.mpr (.inr (.inl ⟨m, hm, he⟩))
  · obtain ⟨n, hn, ht⟩ := mem_allTables.mp ht
    refine mem_run.mpr (.inr (.inr ⟨t, mem_allTables.mpr ⟨n, hn, ?_⟩, he⟩))
    exact mem_withNewL0Tables.mpr (.inl ht)

/-- With nothing dropped since the snapshot, the snapshot is the front of the sealed
memtables, and its tables take its place. -/
lemma FlushInv.run_install (h : FlushInv s.data) {tables : List Table}
    (hjob : s.jobs o = some job) (htables : job.tables = some tables)
      (hdrops : s.drops = job.drops) :
    (s.tree.installFlush tables job.memtables.length).current.run = s.tree.current.run := by
  have hfront : s.tree.current.sealed.take job.memtables.length = job.memtables :=
    h.take_sealed hjob hdrops
  have hsplit : s.tree.current.sealed = job.memtables ++
      s.tree.current.sealed.drop (min job.memtables.length s.tree.current.sealed.length) := by
    rw [← drop_eq_drop_min]
    exact (take_append_drop _ _).symm.trans (congrArg (· ++ _) hfront)
  exact run_installFlush hsplit (h.tables o job tables hjob htables)

lemma Present.put {log : List Entry} (h : Present log s.tree.current.run) (e : Entry) :
    Present (e :: log) (s.tree.insertWithSeqno e).current.run := by
  refine h.cons (mem_run.mpr (.inl (mem_insertEntry_self _ _))) fun x hx hne => ?_
  rcases mem_run.mp hx with hx | hx
  · exact mem_run.mpr (.inl (mem_insertEntry_of_mem hx hne))
  · exact mem_run.mpr (.inr hx)

/-- **Step.** A step that neither compacts nor ingests and meets the guard loses no
entry. -/
theorem present_step (h : FlushInv s.data) (hc : s.data.compaction = none)
    (hp : Present s.log s.tree.current.run) (hround : s.roundOf cfg l = none)
    (hingest : ∀ entries, l ≠ .ingestSorted entries) (hok : InstallGuard s l)
    (hstep : TreeStep cfg s l d) : d.compaction = none ∧ Present d.log d.current.run := by
  cases hstep with
  | quiet | snapshot | write => exact ⟨hc, hp⟩
  | put e he => exact ⟨hc, hp.put e⟩
  | ingest entries hl => exact absurd hl (hingest entries)
  | sealActive hne =>
    refine ⟨hc, fun newer x older hlog hnew => ?_⟩
    have hx : x ∈ s.tree.current.run := hp newer x older hlog hnew
    rw [← run_seal] at hx
    exact hx
  | install o ho job tables hjob htables =>
    refine ⟨hc, fun newer x older hlog hnew => ?_⟩
    exact mem_run_install h hjob htables (hok.install ho hjob htables) (hp newer x older hlog hnew)
  | startMove task hr | startCompact task hr =>
    rw [hround] at hr
    cases hr
  | applyMove task hc' | applyCompact task outs hc' =>
    rw [show s.maint.pending = none from hc] at hc'
    cases hc'

end

lemma flushInv_init (cfg : TreeConfig) : FlushInv (treeSys cfg).init.data := by
  refine ⟨rfl, le_rfl, by simp [TreeState.data, treeSys], fun o job hjob => ?_,
    fun o job ts hjob => ?_⟩
  · cases o <;> cases hjob
  · cases o <;> cases hjob

/-- **No entry is lost.** In every state of a run of writers, seals and flushes whose
installs come with nothing dropped or nothing sealed since their snapshot, every
insert is present unless a later insert took its internal key, and an install drops
only memtables whose tables it installs. -/
theorem no_entry_lost {cfg : TreeConfig} {s : TreeState} (h : (treeSys cfg).Reach FlushGuard s) :
    Present s.log s.tree.current.run ∧ ∀ o job ts, s.jobs o = some job → job.tables = some ts →
        (s.sealedLog.length = job.seals ∨ s.drops = job.drops) →
        ∀ m ∈ s.tree.current.sealed.take (min job.memtables.length s.tree.current.sealed.length),
          ∃ t ∈ ts, t.entries = m.entries := by
  have hinv : FlushInv s.data ∧ s.data.compaction = none ∧ Present s.log s.tree.current.run := by
    refine h.invariant (fun s => FlushInv s.data ∧ s.data.compaction = none ∧
      Present s.log s.tree.current.run) ⟨flushInv_init cfg, rfl, ?_⟩ ?_
    · intro newer e older hlog
      cases newer <;> cases hlog
    · intro s l s' ⟨hinv, hc, hp⟩ hok hnext
      have hstep := treeStep_of_next hnext
      refine ⟨flushInv_step hinv hstep,
        present_step hinv hc hp (roundOf_eq_none hok.1) (fun entries hl => ?_) hok.2 hstep⟩
      rw [hl] at hok
      cases hok.1
  refine ⟨hinv.2.2, fun o job ts hjob hts hok m hm => ?_⟩
  exact hinv.1.exists_table hjob hts ((hinv.1.dropped hjob hok).subset hm)

/-- Two flushes take the same snapshot; after the first has installed, another memtable
is sealed, and the second flush drops it. -/
def lostRun : List TreeLabel :=
  [.insert [1] [5], .sealActive, .flush 0, .flush 1, .flush 0, .flush 0, .insert [2] [6],
    .sealActive, .flush 1, .flush 1]

theorem sealed_memtable_lost : ∃ s, (treeSys (smallConfig none 4096)).Reach
    (fun _ l => l.writesOrFlushes = true) s ∧
      s.log = [⟨[2], [6], 2, .value⟩, ⟨[1], [5], 1, .value⟩] ∧
      ⟨[2], [6], 2, .value⟩ ∉ s.tree.current.run :=
  TransSys.exists_reach_of_runWith lostRun (by decide +kernel)

/-- The same two flushes with the second memtable sealed after both. -/
theorem no_entry_lost_two_flushes : ∃ s, (treeSys (smallConfig none 4096)).Reach FlushGuard s ∧
    s.log.length = 2 ∧ Present s.log s.tree.current.run :=
  TransSys.exists_reach_and [.insert [1] [5], .sealActive, .flush 0, .flush 1, .flush 0,
    .flush 0, .flush 1, .flush 1, .insert [2] [6], .sealActive] (by decide +kernel)
    fun _ hs => (no_entry_lost hs).1

end XyzDB
