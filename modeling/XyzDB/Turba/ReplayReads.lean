import XyzDB.Turba.BatchAtomicity
import XyzDB.Turba.NewestFirst

/-!
# Reads after a crash

`open` puts every batch of the journal into a fresh memtable and flushes it as the newest
table of level `0`, without a look at what the tables have. A commit in BULKMODE skips the
journal: when it overwrites a key that the journal has an older version of, and is flushed
under a persisted manifest, the replay puts the older version on top and every read returns
it (`older_version_resurrected`).

While the tables that the manifest lists have no version of a replayed key above the newest
one of the journal, a read after `open` returns the highest version of its key among the
tables and the journal, and a replay of what the tables have already changes nothing
(`reopened_reads_newest`).
-/

namespace XyzDB

open KeyRuns List Version Entry Manifest

section

variable {k : Key} {log newer older run : List Entry} {x : Entry}

lemma newest_of_split (hx : x.key = k) (hnewer : ∀ y ∈ newer, y.key = k → y.seqno < x.seqno)
    (holder : ∀ y ∈ older, y.key = k → y.seqno ≤ x.seqno) :
    newest k (newer ++ x :: older) = some x := by
  induction newer with
  | nil =>
    rw [nil_append, newest, if_pos hx]
    split
    · next y hy =>
      obtain ⟨hy, hyk, -⟩ := newest_eq_some hy
      exact if_neg (not_lt.mpr (holder y hy hyk))
    · rfl
  | cons z newer ih =>
    obtain ⟨hz, hnewer⟩ := forall_mem_cons.mp hnewer
    rw [cons_append, newest, ih hnewer]
    split
    · next hk => exact if_pos (hz hk)
    · rfl

lemma exists_split_of_newest (h : newest k log = some x) : ∃ newer older,
    log = newer ++ x :: older ∧ ∀ y ∈ newer, y.key = k → y.seqno < x.seqno := by
  induction log with
  | nil => cases h
  | cons e log ih =>
    have hlater : newest k log = some x → (e.key = k → e.seqno < x.seqno) →
        ∃ newer older, e :: log = newer ++ x :: older ∧
          ∀ y ∈ newer, y.key = k → y.seqno < x.seqno := by
      intro hx he
      obtain ⟨newer, older, rfl, hnewer⟩ := ih hx
      exact ⟨e :: newer, older, rfl, forall_mem_cons.mpr ⟨he, hnewer⟩⟩
    rw [newest] at h
    split at h
    · split at h
      · next y hy =>
        split at h
        · next hlt =>
          cases h
          exact hlater hy fun _ => hlt
        · cases h
          exact ⟨[], log, rfl, by simp⟩
      · cases h
        exact ⟨[], log, rfl, by simp⟩
    · next hk => exact hlater h fun hek => absurd hek hk

lemma newest_append_of_some (h : newest k newer = some x)
    (holder : ∀ y ∈ older, y.key = k → y.seqno ≤ x.seqno) : newest k (newer ++ older) = some x := by
  obtain ⟨hmem, hk, hmax⟩ := newest_eq_some h
  obtain ⟨before, after, rfl, hbefore⟩ := exists_split_of_newest h
  rw [append_assoc]
  refine newest_of_split hk hbefore fun y hy hyk => ?_
  rcases mem_append.mp hy with hy | hy
  · exact hmax y (mem_append_right _ (.tail _ hy)) hyk
  · exact holder y hy hyk

lemma newest_append_of_none (h : newest k newer = none) :
    newest k (newer ++ older) = newest k older := by
  have hne := newest_eq_none h
  induction newer with
  | nil => rfl
  | cons e newer ih =>
    obtain ⟨he, hne⟩ := forall_mem_cons.mp hne
    rw [newest, if_neg he] at h
    rw [cons_append, newest, if_neg he, ih h hne]

lemma NewestFirst.newest_eq (h : NewestFirst (withKey key k run)) :
    newest k run = (withKey key k run).head? := by
  induction run with
  | nil => rfl
  | cons e run ih =>
    rw [withKey_cons] at h ⊢
    split
    · next hk =>
      rw [if_pos hk] at h
      show newest k ([] ++ e :: run) = some e
      refine newest_of_split hk nofun fun y hy hyk => ?_
      exact newestFirst_cons.mp h y (mem_withKey.mpr ⟨hy, hyk⟩)
    · next hk =>
      rw [if_neg hk] at h
      rw [newest, if_neg hk, ih h]

/-- A memtable begins, of every key, with the newest entry that was inserted. -/
lemma Present.newest_eq (h : Present log run) (hsub : ∀ y ∈ run, y ∈ log) (hsorted : Sorted run)
    (k : Key) : newest k log = (withKey key k run).head? := by
  cases hn : newest k log with
  | none =>
    have hnil : withKey key k run = [] :=
      withKey_eq_nil.mpr fun y hy => newest_eq_none hn y (hsub y hy)
    rw [hnil]
    rfl
  | some x =>
    obtain ⟨-, hk, hmax⟩ := newest_eq_some hn
    obtain ⟨before, after, hlog, hbefore⟩ := exists_split_of_newest hn
    have hx : x ∈ run := by
      refine h before x after hlog fun y hy => ?_
      by_cases hyk : y.key = x.key
      · exact .inr (ne_of_lt (hbefore y hy (hyk.trans hk)))
      · exact .inl hyk
    refine ((hsorted.seqDesc_withKey k).head?_eq_some (mem_withKey.mpr ⟨hx, hk⟩) ?_).symm
    intro y hy
    obtain ⟨hy, hyk⟩ := mem_withKey.mp hy
    exact hmax y (hsub y hy) hyk

end

/-- Of every key of the journal the tables have no version above the newest one there, and
none but itself with its number; and no key straddles two blocks of the replayed table. -/
def ReplaysNewest (cfg : TreeConfig) (ks : Keyspace) (manifest : Option Manifest)
    (recovered : List WalBatch) : Prop :=
  Table.BlocksAligned cfg.sstable (replayed ks recovered).entries ∧
    ∀ x ∈ (manifestVersion manifest).run, ∀ e ∈ newest x.key (replayEntries ks recovered).reverse,
      x.seqno < e.seqno ∨ x = e

instance (cfg : TreeConfig) (ks : Keyspace) (manifest : Option Manifest)
    (recovered : List WalBatch) : Decidable (ReplaysNewest cfg ks manifest recovered) :=
  inferInstanceAs (Decidable (_ ∧ _))

section

variable {v : Version} {next : ℕ}

lemma Version.Inv.level_loaded (h : v.Inv next) {n : ℕ} (hn : n < maxLevels) :
    v.loaded.level n = v.level n := by
  unfold loaded
  dsimp only
  split
  · next hpos =>
    refine List.Pairwise.insertionSort_eq ?_
    refine List.Pairwise.imp_of_mem (fun {a b} ha _ hab => ?_) (h.disjoint n hpos hn)
    exact (Table.keyMin_le_keyMax (h.wf.sorted n hn a ha).keySorted).trans (le_of_lt hab)
  · rfl

lemma Version.Inv.run_loaded (h : v.Inv next) : v.loaded.run = v.run := by
  refine flatMap_congr fun n hn => ?_
  unfold levelRun
  rw [h.level_loaded (mem_range.mp hn), h.level_loaded (n := 0) (by decide)]

lemma Version.Inv.loaded (h : v.Inv next) : v.loaded.Inv next := by
  refine ⟨⟨fun n hn => ?_, fun n hn m hm => ?_, fun n hn => ?_⟩, fun n h1 hn => ?_, fun n hn => ?_⟩
  · rw [h.level_loaded hn]
    exact h.wf.nodup n hn
  · rw [h.level_loaded hn, h.level_loaded hm]
    exact h.wf.level_eq n hn m hm
  · rw [h.level_loaded hn]
    exact h.wf.sorted n hn
  · rw [h.level_loaded hn]
    exact h.disjoint n h1 hn
  · rw [h.level_loaded hn]
    exact h.ids n hn

lemma Version.ReadsNewest.loaded (h : v.ReadsNewest next) : v.loaded.ReadsNewest next := by
  refine ⟨h.inv.loaded, fun t ht => ?_, fun k => ?_⟩
  · obtain ⟨n, hn, ht⟩ := mem_allTables.mp ht
    exact h.exact t (mem_allTables.mpr ⟨n, hn, mem_loaded_level.mp ht⟩)
  · rw [chain, h.inv.run_loaded]
    exact h.newest k

lemma Version.ReadsNewest.mono {next' : ℕ} (h : v.ReadsNewest next) (hle : next ≤ next') :
    v.ReadsNewest next' := ⟨h.inv.mono hle, h.exact, h.newest⟩

lemma Version.ReadsNewest.get_eq (h : v.ReadsNewest next) {t : Tree Memtable}
    (hcur : t.current = ⟨.new, [], v⟩) (hle : ∀ x ∈ v.run, x.seqno ≤ t.seqno) (k : Key) :
    t.get k = (v.chain k).head?.bind live := by
  have hchain : (SuperVersion.mk Memtable.new [] v).chain k = v.chain k := rfl
  rw [Tree.get, hcur, h.searchable.getAt_eq, firstVisible, hchain]
  cases hc : v.chain k with
  | nil => rfl
  | cons a rest =>
    have ha : a ∈ v.chain k := by rw [hc]; exact mem_cons_self
    rw [find?_cons_of_pos (by simpa using hle a (mem_withKey.mp ha).1)]
    rfl

end

namespace Tree

section

variable {cfg : TreeConfig} {ks : Keyspace} {manifest : Option Manifest} {maxOnDisk : ℕ}
  {recovered : List WalBatch} {next : ℕ}

lemma load_next_le : (manifest.map Manifest.nextTableId).getD 0 ≤
    (load manifest maxOnDisk).nextTableId := by
  cases manifest with
  | none => exact Nat.zero_le _
  | some m => exact Nat.le_max_left _ _

lemma head_replayed (ks : Keyspace) (recovered : List WalBatch) (k : Key) :
    (withKey key k (replayed ks recovered).entries).head? =
      newest k (replayEntries ks recovered).reverse :=
  ((present_replayed ks recovered).newest_eq
    (fun _ hy => mem_reverse.mpr (mem_replayEntries hy)) (replayed ks recovered).sorted k).symm

lemma chain_recovered (hv : (manifestVersion manifest).Inv next) (k : Key) :
    (recoveredVersion cfg ks manifest maxOnDisk recovered).chain k =
      withKey key k (replayed ks recovered).entries ++ (manifestVersion manifest).chain k := by
  rw [chain, recover_run, hv.run_loaded, withKey_append]
  rfl

lemma recoveredVersion_of_nil (h : replayEntries ks recovered = []) :
    recoveredVersion cfg ks manifest maxOnDisk recovered = (manifestVersion manifest).loaded := by
  have hcur := recover_current cfg ks manifest maxOnDisk recovered
  rw [recover_of_nil cfg manifest maxOnDisk h] at hcur
  exact (congrArg SuperVersion.version hcur).symm

lemma readsNewest_recovered (hbloom : cfg.sstable.BloomSound)
    (hv : (manifestVersion manifest).ReadsNewest ((manifest.map Manifest.nextTableId).getD 0))
    (hok : ReplaysNewest cfg ks manifest recovered) :
    (recoveredVersion cfg ks manifest maxOnDisk recovered).ReadsNewest
      ((load manifest maxOnDisk).nextTableId + 1) := by
  have hloaded := hv.loaded.mono (load_next_le : _ ≤ (load manifest maxOnDisk).nextTableId)
  refine ⟨?_, fun t ht => ?_, fun k => ?_⟩
  · refine hloaded.inv.writeTables _ fun c hc => ?_
    rw [mem_singleton.mp hc]
    exact (replayed ks recovered).sorted.sortedLE
  · obtain ⟨n, hn, ht⟩ := mem_allTables.mp ht
    rcases mem_withNewL0Tables.mp ht with ht | ⟨-, ht⟩
    · exact hloaded.exact t (mem_allTables.mpr ⟨n, hn, ht⟩)
    · refine flushTables_readsExact hbloom (fun m hm => ?_) true _ t ht
      rw [mem_singleton.mp hm]
      exact hok.1
  · rw [chain_recovered hv.inv]
    refine ((replayed ks recovered).sorted.seqDesc_withKey k).newestFirst.append (hv.newest k) ?_
    intro a ha x hx
    obtain ⟨hrun, rfl⟩ := mem_withKey.mp hx
    rw [head_replayed] at ha
    rcases hok.2 x hrun a ha with hlt | rfl
    · exact le_of_lt hlt
    · exact le_rfl

variable (hbloom : cfg.sstable.BloomSound)
  (hv : (manifestVersion manifest).ReadsNewest ((manifest.map Manifest.nextTableId).getD 0))
  (hle : ∀ x ∈ (manifestVersion manifest).run, x.seqno ≤ (manifest.map Manifest.nextSeqno).getD 0)
  (hok : ReplaysNewest cfg ks manifest recovered)

include hbloom hv hle hok

/-- **Open.** The invariant holds of a tree that was just opened. -/
theorem newestInv_recover :
    NewestInv cfg (TreeState.atRest (recover cfg ks manifest maxOnDisk recovered)).data
      (recover cfg ks manifest maxOnDisk recovered).manifest := by
  refine newestInv_atRest (recover_current cfg ks manifest maxOnDisk recovered) ?_
    (fun x hx => seqno_le_recover hle hx) ?_ (recover_manifest_le hle)
  · by_cases h : replayEntries ks recovered = []
    · rw [recoveredVersion_of_nil h, recover_of_nil cfg manifest maxOnDisk h]
      exact hv.loaded.mono load_next_le
    · rw [recover_of_ne_nil cfg manifest maxOnDisk h, flushAdvance_nextTableId]
      exact readsNewest_recovered hbloom hv hok
  · by_cases h : replayEntries ks recovered = []
    · rw [recover_of_nil cfg manifest maxOnDisk h]
      exact hv
    · rw [recover_of_ne_nil cfg manifest maxOnDisk h, flushAdvance_manifest]
      exact readsNewest_recovered hbloom hv hok

lemma get_recover (k : Key) : (recover cfg ks manifest maxOnDisk recovered).get k =
      (newest k ((replayEntries ks recovered).reverse ++ (manifestVersion manifest).run)).bind
        Entry.live := by
  rw [(readsNewest_recovered hbloom hv hok).get_eq
    (recover_current cfg ks manifest maxOnDisk recovered) (fun x hx => seqno_le_recover hle hx),
    chain_recovered hv.inv, head?_append, head_replayed]
  cases hn : newest k (replayEntries ks recovered).reverse with
  | none =>
    rw [newest_append_of_none hn, (hv.newest k).newest_eq]
    rfl
  | some e =>
    rw [newest_append_of_some hn fun x hx hxk => ?_]
    · rfl
    · subst hxk
      rcases hok.2 x hx e hn with hlt | rfl
      · exact le_of_lt hlt
      · exact le_rfl

lemma get_recover_of_listed {k : Key}
    (hin : ∀ e ∈ replayEntries ks recovered, e.key = k → e ∈ (manifestVersion manifest).run) :
    (recover cfg ks manifest maxOnDisk recovered).get k = (load manifest maxOnDisk).get k := by
  have hload : (load manifest maxOnDisk).get k =
      (newest k (manifestVersion manifest).run).bind Entry.live := by
    rw [(hv.newest k).newest_eq]
    have hget := hv.loaded.get_eq (t := load manifest maxOnDisk) rfl
      (fun x hx => hle x (mem_loaded_run.mp hx)) k
    rwa [Version.chain, hv.inv.run_loaded] at hget
  rw [get_recover hbloom hv hle hok, hload]
  cases hn : newest k (replayEntries ks recovered).reverse with
  | none => rw [newest_append_of_none hn]
  | some e =>
    obtain ⟨he, hek, -⟩ := newest_eq_some hn
    have hlisted := hin e (mem_reverse.mp he) hek
    -- the newest listed version is at least the replayed one, hence itself
    cases hm : newest k (manifestVersion manifest).run with
    | none => exact absurd hek (newest_eq_none hm e hlisted)
    | some x =>
      obtain ⟨hx, hxk, hmax⟩ := newest_eq_some hm
      have hxe : x = e := by
        rcases hok.2 x hx e (hxk ▸ hn) with hlt | heq
        · exact absurd (hmax e hlisted hek) (not_le.mpr hlt)
        · exact heq
      subst hxe
      rw [newest_append_of_some hn hmax]

end

end Tree

/-- The trees keep their tables readable, a commit inserts above every version of its key
outside the active memtable, and a crash finds no version above the newest replayed one. -/
def ReplayGuard (cfg : TurbaConfig) (s : TurbaState) : TurbaLabel → Prop
  | .commit i =>
    match s.commits[i]? with
    | some ⟨b, .inserting (item :: _)⟩ =>
      ∀ x ∈ (s.trees item.keyspace).tree.current.older item.key, x.seqno < b.seqno
    | _ => True
  | .tree ks l => NewestGuard (cfg.trees ks) (s.trees ks) l
  | .crash kept _ =>
    ∀ ks ∈ Keyspace.all,
      ReplaysNewest (cfg.trees ks) ks (s.trees ks).tree.manifest (s.wal.recovered kept)
  | _ => True

instance (cfg : TurbaConfig) (s : TurbaState) (l : TurbaLabel) :
    Decidable (ReplayGuard cfg s l) := by
  apply TurbaLabel.casesOn (motive := fun l => Decidable (ReplayGuard cfg s l)) l <;> intros <;>
    dsimp only [ReplayGuard]
  case commit i => rcases s.commits[i]? with _ | ⟨_, _ | _ | _ | ⟨_ | _⟩⟩ <;> infer_instance
  all_goals infer_instance

section

variable {cfg : TurbaConfig} {s s' : TurbaState} {l : TurbaLabel}

/-- In every tree the first version met is the highest. -/
def TurbaState.NewestInv (cfg : TurbaConfig) (s : TurbaState) : Prop :=
  ∀ ks, XyzDB.NewestInv (cfg.trees ks) (s.trees ks).data (s.trees ks).tree.manifest

lemma TurbaState.NewestInv.setTree (h : s.NewestInv cfg) {ks : Keyspace} {t : TreeState}
    (ht : XyzDB.NewestInv (cfg.trees ks) t.data t.tree.manifest) :
    (s.setTree ks t).NewestInv cfg := by
  intro ks'
  unfold TurbaState.setTree
  by_cases hks : ks' = ks
  · subst hks
    simp only [Function.update_self]
    exact ht
  · simp only [Function.update_of_ne hks]
    exact h ks'

lemma replayInv_step (hbloom : ∀ ks, (cfg.trees ks).sstable.BloomSound) (h : s.NewestInv cfg)
    (hok : ReplayGuard cfg s l) (hstep : TurbaStep cfg s l s') : s'.NewestInv cfg := by
  cases hstep with
  | insert i b item todo hc =>
    simp only [ReplayGuard, hc] at hok
    exact TurbaState.NewestInv.setTree (s := s.setStage i b (.inserting todo)) h
      ((h item.keyspace).put hok)
  | tree ks l t hl hnext =>
    refine h.setTree (newestInv_step (h ks) (hbloom ks) hok ((h ks).entryOf fun c hc => ?_) hnext)
    subst hc
    cases hl
  | setCompactionEnabled ks enabled =>
    have hks := h ks
    exact h.setTree ⟨hks.exact, hks.outputs, hks.layered, hks.bound, hks.listed, hks.listed_le⟩
  | crash kept maxOnDisk hsynced hle =>
    intro ks
    exact Tree.newestInv_recover (hbloom ks) (h ks).listed (h ks).listed_le
      (hok ks (Keyspace.mem_all ks))
  | _ => exact h

lemma replayInv_init (cfg : TurbaConfig) : (turbaSys cfg).init.NewestInv cfg := fun _ =>
  newestInv_atRest (t := .empty) (v := .new) rfl (Version.ReadsNewest.new _) nofun
    (Version.ReadsNewest.new _) nofun

end

/-- **A crash of a guarded run.** After `open`, a read returns the newest entry of its key
among what was replayed and what the manifest lists, and what it would return without the
replay if everything of its key that was replayed is listed. -/
theorem reopened_reads_newest {cfg : TurbaConfig}
    (hbloom : ∀ ks, (cfg.trees ks).sstable.BloomSound) {s s' : TurbaState}
    (h : (turbaSys cfg).Reach (ReplayGuard cfg) s) {kept : ℕ} {maxOnDisk : Keyspace → ℕ}
    (hok : ReplayGuard cfg s (.crash kept maxOnDisk))
    (hnext : (turbaSys cfg).next s (.crash kept maxOnDisk) = some s') (ks : Keyspace) (k : Key) :
    (s'.trees ks).tree.get k = (newest k ((replayEntries ks (s.wal.recovered kept)).reverse ++
          (s.trees ks).tree.recorded)).bind Entry.live ∧
      ((∀ e ∈ replayEntries ks (s.wal.recovered kept), e.key = k → e ∈ (s.trees ks).tree.recorded) →
        (s'.trees ks).tree.get k =
          (Tree.load (s.trees ks).tree.manifest (maxOnDisk ks)).get k) := by
  have hinv : s.NewestInv cfg := h.invariant (TurbaState.NewestInv cfg) (replayInv_init cfg)
    fun _ _ _ hinv hok hnext => replayInv_step hbloom hinv hok (turbaStep_of_next hnext)
  have hks := hok ks (Keyspace.mem_all ks)
  cases turbaStep_of_next hnext with
  | crash _ _ hsynced hle =>
    exact ⟨Tree.get_recover (hbloom ks) (hinv ks).listed (hinv ks).listed_le hks k,
      Tree.get_recover_of_listed (hbloom ks) (hinv ks).listed (hinv ks).listed_le hks⟩

/-- A value of one key of the spatial keyspace. -/
def overwrite (v : UInt8) : BatchItem := ⟨.spatial, [1], [v], .value⟩

/-- The pieces of a commit that the journal records and the sync thread syncs. -/
def journaledCommit (i : ℕ) (v : UInt8) : List TurbaLabel :=
  [.begin [overwrite v], .commit i, .commit i, .sync, .sync, .sync, .commit i, .commit i, .commit i]

/-- The pieces of a commit in BULKMODE. -/
def bulkCommit (i : ℕ) (v : UInt8) : List TurbaLabel :=
  [.setCompactionEnabled .spatial false, .begin [overwrite v], .commit i, .commit i, .commit i,
    .setCompactionEnabled .spatial true]

/-- A key is overwritten in BULKMODE, and flushed afterwards. -/
def bulkOverwrite : List TurbaLabel := journaledCommit 0 5 ++ bulkCommit 1 6 ++ spatialFlush

theorem older_version_resurrected : ∃ s s', (turbaSys (smallTurba .syncData 4096)).run
        (turbaSys (smallTurba .syncData 4096)).init bulkOverwrite = some s ∧
      (turbaSys (smallTurba .syncData 4096)).next s (.crash 1 fun _ => 0) = some s' ∧
      (s.trees .spatial).tree.get [1] = some [6] ∧ (s'.trees .spatial).tree.get [1] = some [5] ∧
      (newest [1] ((replayEntries .spatial (s.wal.recovered 1)).reverse ++
        (s.trees .spatial).tree.recorded)).bind live = some [6] ∧
      (∀ e ∈ replayEntries .spatial (s.wal.recovered 1), e ∈ (s.trees .spatial).tree.recorded) ∧
      (Tree.load (s.trees .spatial).tree.manifest 0).get [1] = some [6] := by
  apply exists_of_any_any
  decide +kernel

/-- A key is overwritten twice, the first time in BULKMODE; the journal has the first and
the last version when the engine is opened again. -/
theorem reopened_reads_newest_overwrite : ∃ s s', (turbaSys (smallTurba .syncData 4096)).Reach
        (ReplayGuard (smallTurba .syncData 4096)) s ∧
      (turbaSys (smallTurba .syncData 4096)).next s (.crash 2 fun _ => 0) = some s' ∧
      (s.trees .spatial).tree.recorded.length = 2 ∧
      (newest [1] ((replayEntries .spatial (s.wal.recovered 2)).reverse ++
        (s.trees .spatial).tree.recorded)).bind live = some [7] ∧
      (s'.trees .spatial).tree.get [1] =
        (newest [1] ((replayEntries .spatial (s.wal.recovered 2)).reverse ++
          (s.trees .spatial).tree.recorded)).bind live := by
  obtain ⟨s, hs, hlen, hnewest, hok, hnext⟩ : ∃ s, (turbaSys (smallTurba .syncData 4096)).Reach
      (ReplayGuard (smallTurba .syncData 4096)) s ∧ (s.trees .spatial).tree.recorded.length = 2 ∧
        (newest [1] ((replayEntries .spatial (s.wal.recovered 2)).reverse ++
          (s.trees .spatial).tree.recorded)).bind live = some [7] ∧
        ReplayGuard (smallTurba .syncData 4096) s (.crash 2 fun _ => 0) ∧
        ((turbaSys (smallTurba .syncData 4096)).next s (.crash 2 fun _ => 0)).isSome = true :=
    TransSys.exists_reach_of_runWith (bulkOverwrite ++ journaledCommit 2 7) (by decide +kernel)
  obtain ⟨s', hs'⟩ := Option.isSome_iff_exists.mp hnext
  exact ⟨s, s', hs, hs', hlen, hnewest,
    (reopened_reads_newest (fun _ _ _ _ => rfl) hs hok hs' .spatial [1]).1⟩

end XyzDB
