import XyzDB.Turba.HeapSys
import XyzDB.Turba.TreeInv

/-!
# No insert is lost while memtables are sealed and flushed

The memtables of a super-version are live: the sealed ones and the active one, oldest
first (`HeapState.live`). A writer that inserts into a live memtable which the running
flush has not written out yet is safe, because the flush will write its entry out. A
writer that comes after its memtable was written out, or dropped, inserts into nothing.

`HeapGuard` demands the former of every insert, and that the memtables a flush writes
out are cut into blocks between keys. Under it every insert stays present
(`HeapInv.present`), whatever else goes on.
-/

namespace XyzDB

open KeyRuns List Function HeapState

namespace HeapState

open SuperVersion

section

variable (s : HeapState)

/-- The handles of the current super-version, oldest memtable first. Handles are handed
out in ascending order, so an older memtable has a smaller one. -/
def live : List ℕ := s.tree.current.sealed ++ [s.tree.current.active]

/-- The current super-version with its memtables looked up. -/
def sv : SuperVersion Memtable := s.tree.current.resolve s.mems

lemma mem_run {s : HeapState} {e : Entry} : e ∈ s.sv.run ↔ (∃ h ∈ s.live, e ∈ (s.mems h).entries) ∨
      ∃ t ∈ s.tree.current.version.allTables, e ∈ t.entries := by
  rw [SuperVersion.mem_run]
  simp only [sv, SuperVersion.resolve, live, mem_append, mem_singleton, mem_map,
    exists_exists_and_eq_and]
  constructor
  · rintro (h | ⟨m, hm, h⟩ | h)
    · exact .inl ⟨_, .inr rfl, h⟩
    · exact .inl ⟨m, .inl hm, h⟩
    · exact .inr h
  · rintro (⟨m, hm | rfl, h⟩ | h)
    · exact .inr (.inl ⟨m, hm, h⟩)
    · exact .inl h
    · exact .inr (.inr h)

/-- The memtable and the entry of an insert. -/
def putOf : HeapLabel → Option (ℕ × Entry)
  | .write i => s.writers[i]?.bind fun w =>
    match w.phase, w.left with
    | .loaded mem, item :: _ => some (mem, entryAt w.seqno item)
    | _, _ => none
  | _ => none

lemma putOf_write {s : HeapState} {i : ℕ} {w : Writer} (hw : s.writers[i]? = some w)
    (hphase : w.phase = .loaded mem) {item : Key × Value × ValueType}
    {left : List (Key × Value × ValueType)} (hleft : w.left = item :: left) :
    s.putOf (.write i) = some (mem, entryAt w.seqno item) := by
  simp only [putOf, hw, Option.bind_some, hphase, hleft]

/-- The memtable a flush writes out next. -/
def readOf : HeapLabel → Option ℕ
  | .flush =>
    match s.flush with
    | .reading memtables _ done _ => memtables[done]?
    | _ => none
  | _ => none

end

lemma scanStep_eq {s : HeapState} {sc : HeapScan} (h : s.scanStep cfg sc = some s') :
    ∃ sc', s' = { s with scan := sc' } := by
  unfold scanStep at h
  split at h <;> first | exact ⟨_, (Option.some.inj h).symm⟩ | cases h

end HeapState

/-- A flush between its snapshot and its install. -/
structure HeapJob where
  memtables : List ℕ
  maxFlushed : ℕ
  done : ℕ
  tables : List Table

/-- What a flush holds. -/
def HeapFlush.job : HeapFlush → Option HeapJob
  | .reading memtables maxFlushed done tables => some ⟨memtables, maxFlushed, done, tables⟩
  | _ => none

/-- The memtables the running flush has written out. -/
def HeapFlush.readOut : HeapFlush → List ℕ
  | .reading memtables _ done _ => memtables.take done
  | _ => []

variable {job : HeapJob} {f : HeapFlush}

lemma HeapFlush.readOut_eq (h : f.job = some job) : f.readOut = job.memtables.take job.done := by
  cases f with
  | reading memtables maxFlushed done tables =>
    cases h
    rfl
  | _ => cases h

section

variable {mems : ℕ → Memtable} {mem m : ℕ} {e x : Entry}

lemma mem_put (h : x ∈ (update mems mem ((mems mem).insert e) m).entries) :
    (x = e ∧ m = mem) ∨ x ∈ (mems m).entries := by
  by_cases hm : m = mem
  · subst hm
    rw [update_self] at h
    exact (mem_of_mem_insertEntry h).imp_left fun hx => ⟨hx, rfl⟩
  · rw [update_of_ne hm] at h
    exact .inr h

lemma mem_put_of_mem (h : x ∈ (mems m).entries) (hne : x.key ≠ e.key ∨ x.seqno ≠ e.seqno) :
    x ∈ (update mems mem ((mems mem).insert e) m).entries := by
  by_cases hm : m = mem
  · subst hm
    rw [update_self]
    exact mem_insertEntry_of_mem h hne
  · rw [update_of_ne hm]
    exact h

variable (mems mem e) in
lemma mem_put_self : e ∈ (update mems mem ((mems mem).insert e) mem).entries := by
  rw [update_self]
  exact mem_insertEntry_self _ _

end

/-- Inserts go to live memtables that are not written out, and memtables are cut into
blocks between keys when they are. -/
abbrev HeapGuard (cfg : TreeConfig) (s : HeapState) (l : HeapLabel) : Prop :=
  (∀ p ∈ s.putOf l, p.1 ∈ s.live ∧ p.1 ∉ s.flush.readOut) ∧
    ∀ mem ∈ s.readOf l, Table.BlocksAligned cfg.sstable (s.mems mem).entries

/-- The snapshot of a flush is the front of the sealed memtables, and its tables hold
what is in the memtables it has written out. -/
structure HeapJob.Ok (current : SuperVersion ℕ) (mems : ℕ → Memtable) (nextTableId : ℕ)
    (job : HeapJob) : Prop where
  front : job.memtables <+: current.sealed
  tables : job.tables.map Table.entries =
    ((job.memtables.take job.done).map fun m => (mems m).entries).filter fun c => !c.isEmpty
  exact : ∀ t ∈ job.tables, t.ReadsExact
  ids : job.tables.Pairwise fun t u => t.id < u.id
  lt : ∀ t ∈ job.tables, t.id < nextTableId
  new : ∀ t ∈ job.tables, ∀ n < maxLevels, ∀ u ∈ current.version.level n, u.id < t.id

/-- The invariant of a tree with memtables by reference. -/
structure HeapInv (s : HeapState) : Prop where
  ascending : s.live.Pairwise (· < ·)
  fresh : ∀ h ∈ s.live, h < s.nextMem
  version : s.tree.current.version.Inv s.tree.nextTableId
  exact : ∀ t ∈ s.tree.current.version.allTables, t.ReadsExact
  job : ∀ job, s.flush.job = some job → job.Ok s.tree.current s.mems s.tree.nextTableId
  logged : ∀ e ∈ s.sv.run, e ∈ s.log
  present : Present s.log s.sv.run

section

variable {cfg : TreeConfig} {s s' : HeapState} {l : HeapLabel}

/-- **Insert.** An insert into a live memtable that is not written out. -/
theorem HeapInv.put (h : HeapInv s) (e : Entry) (hlive : mem ∈ s.live)
    (hout : mem ∉ s.flush.readOut) (writers : List Writer) :
    HeapInv { s.put mem e with writers := writers } := by
  refine ⟨h.ascending, h.fresh, h.version, h.exact, fun job hj => ?_, fun x hx => ?_, ?_⟩
  · have hjob : s.flush.job = some job := hj
    have hok := h.job job hjob
    refine ⟨hok.front, hok.tables.trans ?_, hok.exact, hok.ids, hok.lt, hok.new⟩
    refine congrArg (List.filter _) (map_congr_left fun m hm => ?_)
    -- the memtable is not among those written out
    have hne : m ≠ mem := by
      rintro rfl
      rw [HeapFlush.readOut_eq hjob] at hout
      exact hout hm
    exact congrArg Memtable.entries (update_of_ne hne ..).symm
  · rcases mem_run.mp hx with ⟨m, hm, hx⟩ | hx
    · rcases mem_put hx with ⟨rfl, -⟩ | hx
      · exact mem_cons_self
      · exact .tail _ (h.logged x (mem_run.mpr (.inl ⟨m, hm, hx⟩)))
    · exact .tail _ (h.logged x (mem_run.mpr (.inr hx)))
  · refine h.present.cons (mem_run.mpr (.inl ⟨mem, hlive, mem_put_self ..⟩)) fun x hx hxe => ?_
    rcases mem_run.mp hx with ⟨m, hm, hx⟩ | hx
    · exact mem_run.mpr (.inl ⟨m, hm, mem_put_of_mem hx hxe⟩)
    · exact mem_run.mpr (.inr hx)

/-- **Seal.** A fresh memtable changes no other. -/
theorem HeapInv.sealActive (h : HeapInv s) : HeapInv { s with
    tree := s.tree.sealWith s.nextMem
    mems := Function.update s.mems s.nextMem .new
    nextMem := s.nextMem + 1 } := by
  have hmems : ∀ m ∈ s.live, update s.mems s.nextMem .new m = s.mems m := fun m hm =>
    update_of_ne (h.fresh m hm).ne ..
  have hsealed : (s.tree.current.sealed ++ [s.tree.current.active]).map
      (update s.mems s.nextMem .new) = s.sv.sealed ++ [s.sv.active] :=
    (map_congr_left hmems).trans (by rw [HeapState.live, map_append]; rfl)
  have hsv : SuperVersion.resolve (update s.mems s.nextMem .new)
      (s.tree.sealWith s.nextMem).current = ⟨.new, s.sv.sealed ++ [s.sv.active], s.sv.version⟩ := by
    simp only [SuperVersion.resolve, Tree.sealWith, hsealed, update_self]
    rfl
  have hrun : (SuperVersion.resolve (update s.mems s.nextMem .new)
      (s.tree.sealWith s.nextMem).current).run = s.sv.run := by
    rw [hsv, SuperVersion.run_seal]
  refine ⟨?_, ?_, h.version, h.exact, fun job hjob => ?_, ?_, ?_⟩
  · refine pairwise_append.mpr ⟨h.ascending, pairwise_singleton _ _, fun m hm n hn => ?_⟩
    rw [mem_singleton.mp hn]
    exact h.fresh m hm
  · intro m hm
    rcases mem_append.mp hm with hm | hm
    · exact (h.fresh m hm).trans (lt_add_one _)
    · rw [mem_singleton.mp hm]
      exact lt_add_one _
  · have hok := h.job job hjob
    refine ⟨hok.front.trans (prefix_append _ _), hok.tables.trans ?_, hok.exact, hok.ids,
      hok.lt, hok.new⟩
    refine congrArg (List.filter _) (map_congr_left fun m hm => ?_)
    have hlive : m ∈ s.live :=
      mem_append_left _ (hok.front.subset (mem_of_mem_take hm))
    exact congrArg Memtable.entries (hmems m hlive).symm
  · intro e he
    exact h.logged e (hrun ▸ he)
  · exact hrun ▸ h.present

/-- **Write out.** The tables of a flush grow by the next memtable. -/
theorem HeapInv.readOut (hbloom : cfg.sstable.BloomSound) (h : HeapInv s)
    (hjob : s.flush.job = some job) (hmem : job.memtables[job.done]? = some mem)
    (ha : Table.BlocksAligned cfg.sstable (s.mems mem).entries) (enabled : Bool)
    (hf : f.job = some ⟨job.memtables, job.maxFlushed, job.done + 1, job.tables ++
      Tree.flushTables cfg enabled s.tree.nextTableId [s.mems mem]⟩) :
    HeapInv { s with tree := s.tree.allocate 1, flush := f } := by
  have hok := h.job job hjob
  have hid : ∀ t ∈ Tree.flushTables cfg enabled s.tree.nextTableId [s.mems mem],
      s.tree.nextTableId ≤ t.id ∧ t.id < s.tree.nextTableId + 1 := fun t ht => writeTables_id_mem ht
  have htake : job.memtables.take (job.done + 1) = job.memtables.take job.done ++ [mem] := by
    rw [take_add_one, hmem]
    rfl
  refine ⟨h.ascending, h.fresh, h.version.mono (Nat.le_succ _), h.exact,
    fun job' hjob' => ?_, h.logged,
    h.present⟩
  cases hf.symm.trans hjob'
  refine ⟨hok.front, ?_, ?_, ?_, ?_, ?_⟩
  · rw [map_append, hok.tables, htake, map_append, filter_append]
    exact congrArg (_ ++ ·) (writeTables_entries ..)
  · intro t ht
    rcases mem_append.mp ht with ht | ht
    · exact hok.exact t ht
    · exact flushTables_readsExact hbloom (by simpa using ha) _ _ t ht
  · refine pairwise_append.mpr ⟨hok.ids, ?_, fun t ht u hu => ?_⟩
    · exact pairwise_map.mp (List.Pairwise.sublist (writeTables_ids ..) pairwise_lt_range')
    · exact (hok.lt t ht).trans_le (hid u hu).1
  · intro t ht
    rcases mem_append.mp ht with ht | ht
    · exact (hok.lt t ht).trans (lt_add_one _)
    · exact (hid t ht).2
  · intro t ht n hn u hu
    rcases mem_append.mp ht with ht | ht
    · exact hok.new t ht n hn u hu
    · exact (h.version.ids n hn u hu).trans_le (hid t ht).1

lemma HeapInv.split (h : HeapInv s) (hjob : s.flush.job = some job)
    (hdone : job.memtables[job.done]? = none) :
    s.tree.current.sealed = job.memtables ++ s.tree.current.sealed.drop
      (min job.memtables.length s.tree.current.sealed.length) ∧ job.tables.map Table.entries =
      ((job.memtables.map s.mems).map Memtable.entries).filter fun c => !c.isEmpty := by
  have hok := h.job job hjob
  obtain ⟨rest, hrest⟩ := hok.front
  refine ⟨?_, ?_⟩
  · rw [← drop_eq_drop_min, ← hrest, drop_left]
  · rw [hok.tables, take_of_length_le (by simpa using hdone), map_map]
    rfl

/-- **Install.** The tables take the place of their memtables. -/
theorem HeapInv.run_install (h : HeapInv s) (hjob : s.flush.job = some job)
    (hdone : job.memtables[job.done]? = none) : (SuperVersion.resolve s.mems
      (s.tree.installFlush job.tables job.memtables.length).current).run = s.sv.run := by
  obtain ⟨hsealed, htables⟩ := h.split hjob hdone
  have hsv : s.sv.sealed = job.memtables.map s.mems ++ (s.tree.current.sealed.drop
      (min job.memtables.length s.tree.current.sealed.length)).map s.mems := by
    rw [← map_append, ← hsealed]
    rfl
  have hrun := SuperVersion.run_installFlush hsv htables
  exact hrun

lemma HeapInv.install (h : HeapInv s) (hjob : s.flush.job = some job)
    (hdone : job.memtables[job.done]? = none) (hf : f.job = none) :
    HeapInv { s with
      tree := s.tree.installFlush job.tables job.memtables.length, flush := f } := by
  have hok := h.job job hjob
  have hrun := h.run_install hjob hdone
  have hlive : (s.tree.current.sealed.drop
      (min job.memtables.length s.tree.current.sealed.length) ++
        [s.tree.current.active]).Sublist s.live :=
    (drop_sublist _ _).append_right _
  have hsorted : ∀ t ∈ job.tables, SortedLE t.entries := by
    intro t ht
    have hmem : t.entries ∈ job.tables.map Table.entries := mem_map_of_mem ht
    rw [hok.tables] at hmem
    obtain ⟨m, -, hm⟩ := mem_map.mp (mem_filter.mp hmem).1
    rw [← hm]
    exact (s.mems m).sorted.sortedLE
  refine ⟨h.ascending.sublist hlive, fun m hm => h.fresh m (hlive.subset hm), ?_, fun t ht => ?_,
    fun job' hjob' => ?_, fun e he => h.logged e (hrun ▸ he), hrun ▸ h.present⟩
  · exact h.version.withNewL0Tables (pairwise_map.mpr (hok.ids.imp fun hlt => hlt.ne))
      (fun t ht n hn u hu => (hok.new t ht n hn u hu).ne) hok.lt hsorted
  · obtain ⟨n, hn, ht⟩ := Version.mem_allTables.mp ht
    rcases Version.mem_withNewL0Tables.mp ht with ht | ⟨-, ht⟩
    · exact h.exact t (Version.mem_allTables.mpr ⟨n, hn, ht⟩)
    · exact hok.exact t ht
  · cases hf.symm.trans hjob'

/-- **Step.** Every guarded step keeps the invariant. -/
theorem heapInv_step (hbloom : cfg.sstable.BloomSound) (h : HeapInv s) (hok : HeapGuard cfg s l)
    (hstep : HeapStep cfg s l s') : HeapInv s' := by
  cases hstep with
  | quiet => exact h
  | direct | commit | raise | load | scan =>
    exact ⟨h.ascending, h.fresh, h.version, h.exact, h.job, h.logged, h.present⟩
  | put i w hw mem hphase item left hleft =>
    obtain ⟨hlive, hout⟩ := hok.1 _ (putOf_write hw hphase hleft)
    exact h.put _ hlive hout _
  | sealActive hne => exact h.sealActive
  | snapshot hidle =>
    refine ⟨h.ascending, h.fresh, h.version, h.exact, fun job hjob => ?_, h.logged, h.present⟩
    cases hjob
    exact ⟨prefix_refl _, rfl, by simp, List.Pairwise.nil, by simp, by simp⟩
  | readOut memtables maxFlushed done tables hflush mem hmem =>
    have hread : mem ∈ s.readOf .flush := by
      simp only [readOf, hflush]
      exact hmem
    exact h.readOut hbloom (congrArg HeapFlush.job hflush) hmem (hok.2 mem hread) _ rfl
  | install memtables maxFlushed done tables hflush hdone =>
    exact h.install (congrArg HeapFlush.job hflush) hdone rfl
  | flag maxFlushed hflush =>
    refine ⟨h.ascending, h.fresh, h.version, h.exact, fun job hjob => ?_, h.logged, h.present⟩
    revert hjob
    cases s.tree.compactionEnabled <;> exact fun hjob => by cases hjob
  | persist => exact ⟨h.ascending, h.fresh, h.version, h.exact, nofun, h.logged, h.present⟩
  | advance =>
    unfold Tree.flushAdvance
    split <;> exact ⟨h.ascending, h.fresh, h.version, h.exact, nofun, h.logged, h.present⟩
  | scanStep _ hnext =>
    obtain ⟨sc, rfl⟩ := scanStep_eq hnext
    exact ⟨h.ascending, h.fresh, h.version, h.exact, h.job, h.logged, h.present⟩

end

lemma heapInv_init (cfg : TreeConfig) : HeapInv (heapSys cfg).init := by
  refine ⟨pairwise_singleton _ _, fun m hm => ?_, Version.Inv.new, ?_, ?_, ?_, ?_⟩
  · rw [mem_singleton.mp hm]
    exact Nat.one_pos
  · exact fun t ht => by cases ht
  · exact fun job hjob => by cases hjob
  · exact fun e he => by cases he
  · intro newer e older hlog
    cases newer <;> cases hlog

end XyzDB
