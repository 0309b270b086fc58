import XyzDB.Turba.FlushSafety
import XyzDB.Turba.Wal

/-!
# Opening an engine

`open` loads the trees from their manifests and puts every batch that is found in the
journal into them again, whether the tables have it already or not. If there was anything
to replay, it seals and flushes the trees, so what was replayed becomes the newest table of
level `0`, and every manifest is persisted before the journal is emptied.

The lemmas say what a tree is made of afterwards: nothing is in memory, the tables are
those of the manifest and one with the replayed entries (`recover_run`), and the manifest on
disk lists them all (`mem_recorded_recover`).
-/

namespace XyzDB

open List Version

/-- The levels as `Tree::open` builds them: the deep ones sorted by smallest key. -/
def Version.loaded (v : Version) : Version :=
  ⟨fun n => if 1 ≤ n then (v.level n).insertionSort Version.keyMinLE else v.level n⟩

/-- The entries a replay brings into a tree, in the order it inserts them. -/
def replayEntries (ks : Keyspace) (recovered : List WalBatch) : List Entry :=
  recovered.flatMap (WalBatch.entries ks)

namespace Tree

/-- `Tree::open` on a directory with all the tables of its manifest, in which the highest
table id is `maxOnDisk`. -/
def load (manifest : Option Manifest) (maxOnDisk : ℕ) : Tree Memtable :=
  let t := openWith Memtable.new manifest
  { t with
    current := ⟨.new, [], t.current.version.loaded⟩
    nextTableId := max t.nextTableId (maxOnDisk + 1) }

/-- The replay of the journal, as far as one tree is concerned. -/
def replay (ks : Keyspace) (recovered : List WalBatch) (t : Tree Memtable) : Tree Memtable :=
  (replayEntries ks recovered).foldl insertWithSeqno t

/-- What `open` makes of one tree: replay, and flush if there was anything to replay. -/
def recover (cfg : TreeConfig) (ks : Keyspace) (manifest : Option Manifest) (maxOnDisk : ℕ)
    (recovered : List WalBatch) : Tree Memtable :=
  let t := (load manifest maxOnDisk).replay ks recovered
  if recovered = [] then t else t.sealActive.flushSealed cfg

end Tree

/-- A tree that was just opened. -/
def TreeState.atRest (t : Tree Memtable) : TreeState :=
  ⟨t, fun _ => .idle, .idle, 0, fun _ => none, [], [], 0⟩

/-- The engine's counter after `open`. -/
def startSeqno (recovered : List WalBatch) (trees : Keyspace → Tree Memtable) : ℕ :=
  max ((recovered.map WalBatch.seqno).foldl max 0)
    ((Keyspace.all.map fun ks => (trees ks).seqno).foldl max 0)

/-- The memtable a replay fills. -/
def replayed (ks : Keyspace) (recovered : List WalBatch) : Memtable :=
  (replayEntries ks recovered).foldl Memtable.insert .new

namespace Tree

lemma foldl_insertWithSeqno (es : List Entry) (t : Tree Memtable) : es.foldl insertWithSeqno t =
      { t with
        seqno := (es.map Entry.seqno).foldl max t.seqno
        current := ⟨es.foldl Memtable.insert t.current.active, t.current.sealed,
          t.current.version⟩ } := by
  induction es generalizing t with
  | nil => rfl
  | cons e es ih =>
    rw [foldl_cons, ih]
    rfl

end Tree

variable {x : Entry}

lemma mem_foldl_insert {es : List Entry} {m : Memtable}
    (h : x ∈ (es.foldl Memtable.insert m).entries) : x ∈ es ∨ x ∈ m.entries := by
  induction es generalizing m with
  | nil => exact .inr h
  | cons e es ih =>
    rcases ih h with h | h
    · exact .inl (.tail _ h)
    · rcases mem_of_mem_insertEntry h with rfl | h
      · exact .inl mem_cons_self
      · exact .inr h

/-- What is replayed is present, the last of equal internal keys. -/
lemma present_foldl_insert (es log : List Entry) (m : Memtable) (h : Present log m.entries) :
    Present (es.reverse ++ log) (es.foldl Memtable.insert m).entries := by
  induction es generalizing log m with
  | nil => exact h
  | cons e es ih =>
    have hput : Present (e :: log) (m.insert e).entries :=
      h.cons (mem_insertEntry_self _ _) fun x hx hne => mem_insertEntry_of_mem hx hne
    have := ih (e :: log) (m.insert e) hput
    rwa [reverse_cons, append_assoc]

lemma present_replayed (ks : Keyspace) (recovered : List WalBatch) :
    Present (replayEntries ks recovered).reverse (replayed ks recovered).entries := by
  have := present_foldl_insert (replayEntries ks recovered) [] .new fun newer e older h => by
    cases newer <;> cases h
  rwa [append_nil] at this

lemma isEmpty_foldl_insert {es : List Entry} {m : Memtable}
    (h : (es.foldl Memtable.insert m).isEmpty = true) : es = [] := by
  cases es with
  | nil => rfl
  | cons e es =>
    -- some entry with the internal key of the first one is there
    have hp : Present m.entries.reverse m.entries := fun newer x older hm _ => by
      rw [← mem_reverse, hm]
      exact mem_append_right _ mem_cons_self
    obtain ⟨x, hx, -⟩ := (present_foldl_insert (e :: es) _ m hp).exists_mem (e := e) (by simp)
    rw [Memtable.isEmpty_iff.mp h] at hx
    cases hx

lemma mem_replayEntries (h : x ∈ (replayed ks recovered).entries) :
    x ∈ replayEntries ks recovered :=
  (mem_foldl_insert h).resolve_right not_mem_nil

lemma present_batch (ks : Keyspace) {b : WalBatch} (hb : b ∈ recovered)
    (huniq : ∀ c ∈ recovered, c.seqno = b.seqno → c = b) :
    Present (b.entries ks).reverse (replayed ks recovered).entries := by
  intro newer e older hlog hnew
  -- after the last record of the batch there are only other numbers
  obtain ⟨after, before, hsplit, hafter⟩ := eq_append_cons_of_mem (mem_reverse.mpr hb)
  have hrec : (replayEntries ks recovered).reverse =
      (replayEntries ks after.reverse).reverse ++ (b.entries ks).reverse ++
        (replayEntries ks before.reverse).reverse := by
    have : recovered = before.reverse ++ b :: after.reverse := by
      rw [← reverse_reverse recovered, hsplit]
      simp
    rw [this]
    simp [replayEntries]
  refine present_replayed ks recovered ((replayEntries ks after.reverse).reverse ++ newer) e
    (older ++ (replayEntries ks before.reverse).reverse) (by rw [hrec, hlog]; simp) ?_
  intro x hx
  rcases mem_append.mp hx with hx | hx
  · obtain ⟨c, hc, hxc⟩ := mem_flatMap.mp (mem_reverse.mp hx)
    have hc : c ∈ after := mem_reverse.mp hc
    have hcrec : c ∈ recovered := by
      rw [← mem_reverse, hsplit]
      exact mem_append_left _ hc
    have heb : e ∈ b.entries ks := by
      rw [← mem_reverse, hlog]
      exact mem_append_right _ mem_cons_self
    refine .inr fun heq => hafter ?_
    rw [WalBatch.seqno_of_mem_entries hxc, WalBatch.seqno_of_mem_entries heb] at heq
    exact huniq c hcrec heq ▸ hc
  · exact hnew x hx

lemma Version.mem_loaded_level {v : Version} {n : ℕ} {t : Table} :
    t ∈ v.loaded.level n ↔ t ∈ v.level n := by
  unfold Version.loaded
  dsimp only
  split
  · exact mem_insertionSort _
  · rfl

lemma Version.mem_loaded_run {v : Version} : x ∈ v.loaded.run ↔ x ∈ v.run := by
  simp only [mem_run, mem_allTables, mem_loaded_level]

namespace Tree

section

variable (cfg : TreeConfig) (ks : Keyspace) (manifest : Option Manifest) (maxOnDisk : ℕ)
  (recovered : List WalBatch)

/-- The tables of a tree after `open`. -/
def recoveredVersion : Version :=
  (manifestVersion manifest).loaded.withNewL0Tables
    (flushTables cfg true (load manifest maxOnDisk).nextTableId [replayed ks recovered])

lemma replay_eq : (load manifest maxOnDisk).replay ks recovered =
    { load manifest maxOnDisk with
      seqno := ((replayEntries ks recovered).map Entry.seqno).foldl max
        (load manifest maxOnDisk).seqno
      current := ⟨replayed ks recovered, [], (manifestVersion manifest).loaded⟩ } :=
  foldl_insertWithSeqno _ _

variable {ks recovered}

lemma recover_of_nil (h : replayEntries ks recovered = []) :
    recover cfg ks manifest maxOnDisk recovered = load manifest maxOnDisk := by
  have hreplay : (load manifest maxOnDisk).replay ks recovered = load manifest maxOnDisk := by
    unfold replay
    rw [h]
    rfl
  unfold recover
  rw [hreplay]
  exact ite_self _

lemma recover_of_ne_nil (h : replayEntries ks recovered ≠ []) :
    recover cfg ks manifest maxOnDisk recovered = flushAdvance
      { load manifest maxOnDisk with
        current := ⟨.new, [], recoveredVersion cfg ks manifest maxOnDisk recovered⟩
        nextTableId := (load manifest maxOnDisk).nextTableId + 1
        seqno := ((replayEntries ks recovered).map Entry.seqno).foldl max
          (load manifest maxOnDisk).seqno
        manifest := some ⟨recoveredVersion cfg ks manifest maxOnDisk recovered,
          (load manifest maxOnDisk).nextTableId + 1,
          ((replayEntries ks recovered).map Entry.seqno).foldl max
            (load manifest maxOnDisk).seqno⟩ }
      (maxFlushed [replayed ks recovered]) true := by
  have hne : recovered ≠ [] := by
    rintro rfl
    exact h rfl
  have hactive : (replayed ks recovered).isEmpty = false :=
    Bool.eq_false_iff.mpr fun hempty => h (isEmpty_foldl_insert hempty)
  unfold recover
  rw [if_neg hne, replay_eq, sealActive, if_neg (Bool.eq_false_iff.mp hactive)]
  rfl

variable (ks recovered)

lemma replayed_of_nil (h : replayEntries ks recovered = []) : replayed ks recovered = .new := by
  unfold replayed
  rw [h]
  rfl

lemma recover_current : (recover cfg ks manifest maxOnDisk recovered).current =
    ⟨.new, [], recoveredVersion cfg ks manifest maxOnDisk recovered⟩ := by
  by_cases h : replayEntries ks recovered = []
  · rw [recover_of_nil cfg manifest maxOnDisk h, recoveredVersion, replayed_of_nil _ _ h]
    exact congrArg (SuperVersion.mk Memtable.new []) (withNewL0Tables_nil _).symm
  · rw [recover_of_ne_nil cfg manifest maxOnDisk h, flushAdvance_current]

lemma recover_seqno : (recover cfg ks manifest maxOnDisk recovered).seqno =
    ((replayEntries ks recovered).map Entry.seqno).foldl max (load manifest maxOnDisk).seqno := by
  by_cases h : replayEntries ks recovered = []
  · rw [recover_of_nil cfg manifest maxOnDisk h, h]
    rfl
  · rw [recover_of_ne_nil cfg manifest maxOnDisk h, flushAdvance_seqno]

lemma recover_run : (recoveredVersion cfg ks manifest maxOnDisk recovered).run =
    (replayed ks recovered).entries ++ (manifestVersion manifest).loaded.run := by
  have htables : (flushTables cfg true (load manifest maxOnDisk).nextTableId
      [replayed ks recovered]).reverse.flatMap Table.entries = (replayed ks recovered).entries := by
    rw [flatMap_def, map_reverse, flushTables, writeTables_entries,
      ← filter_reverse, flatten_filter_not_isEmpty]
    exact append_nil _
  rw [recoveredVersion, run_withNewL0Tables, htables]

lemma mem_recorded_recover : x ∈ (recover cfg ks manifest maxOnDisk recovered).recorded ↔
      x ∈ (recoveredVersion cfg ks manifest maxOnDisk recovered).run := by
  by_cases h : replayEntries ks recovered = []
  · rw [recover_run, replayed_of_nil _ _ h, recover_of_nil cfg manifest maxOnDisk h]
    exact mem_loaded_run.symm
  · unfold recorded
    rw [recover_of_ne_nil cfg manifest maxOnDisk h, flushAdvance_manifest]
    rfl

lemma recorded_recover_of_replayed (hx : x ∈ (replayed ks recovered).entries) :
    x ∈ (recover cfg ks manifest maxOnDisk recovered).recorded := by
  rw [mem_recorded_recover, recover_run]
  exact mem_append_left _ hx

end

end Tree

namespace Tree

section

variable {cfg : TreeConfig} {ks : Keyspace} {manifest : Option Manifest} {maxOnDisk : ℕ}
  {recovered : List WalBatch}

lemma seqno_le_recover (hlisted : ∀ y ∈ (manifestVersion manifest).run,
      y.seqno ≤ (manifest.map Manifest.nextSeqno).getD 0)
    (hx : x ∈ (recoveredVersion cfg ks manifest maxOnDisk recovered).run) :
    x.seqno ≤ (recover cfg ks manifest maxOnDisk recovered).seqno := by
  rw [recover_seqno]
  obtain ⟨hstart, hmem⟩ := le_foldl_max id ((replayEntries ks recovered).map Entry.seqno)
    (load manifest maxOnDisk).seqno
  rw [recover_run] at hx
  rcases mem_append.mp hx with hx | hx
  · exact hmem _ (mem_map_of_mem (mem_replayEntries hx))
  · exact (hlisted x (mem_loaded_run.mp hx)).trans hstart

lemma recover_counters_le : (recover cfg ks manifest maxOnDisk recovered).flushedSeqno ≤
        (recover cfg ks manifest maxOnDisk recovered).seqno ∧
      (recover cfg ks manifest maxOnDisk recovered).manifestDurableSeqno ≤
        (recover cfg ks manifest maxOnDisk recovered).seqno := by
  obtain ⟨hstart, hmem⟩ := le_foldl_max id ((replayEntries ks recovered).map Entry.seqno)
    (load manifest maxOnDisk).seqno
  rw [recover_seqno]
  by_cases h : replayEntries ks recovered = []
  · rw [recover_of_nil cfg manifest maxOnDisk h]
    exact ⟨hstart, hstart⟩
  · have hmax : maxFlushed [replayed ks recovered] ≤
        ((replayEntries ks recovered).map Entry.seqno).foldl max
          (load manifest maxOnDisk).seqno := by
      have hone : maxFlushed [replayed ks recovered] = (replayed ks recovered).highestSeqno :=
        Nat.max_eq_right (Nat.zero_le _)
      rw [hone]
      rcases (replayed ks recovered).highest_mem with hzero | ⟨x, hx, hxs⟩
      · exact hzero ▸ Nat.zero_le _
      · exact hxs ▸ hmem _ (mem_map_of_mem (mem_replayEntries hx))
    rw [recover_of_ne_nil cfg manifest maxOnDisk h, flushAdvance_flushed, flushAdvance_durable]
    exact ⟨Nat.max_le.mpr ⟨hstart, hmax⟩, Nat.max_le.mpr ⟨hstart, hmax⟩⟩

lemma recover_manifest_le (hlisted : ∀ y ∈ (manifestVersion manifest).run,
    y.seqno ≤ (manifest.map Manifest.nextSeqno).getD 0) :
    ∀ y ∈ (manifestVersion (recover cfg ks manifest maxOnDisk recovered).manifest).run,
      y.seqno ≤ ((recover cfg ks manifest maxOnDisk recovered).manifest.map
        Manifest.nextSeqno).getD 0 := by
  intro y hy
  by_cases h : replayEntries ks recovered = []
  · rw [recover_of_nil cfg manifest maxOnDisk h] at hy ⊢
    exact hlisted y hy
  · have hle : y.seqno ≤ (recover cfg ks manifest maxOnDisk recovered).seqno :=
      seqno_le_recover hlisted ((mem_recorded_recover ..).mp hy)
    rw [recover_seqno] at hle
    rw [recover_of_ne_nil cfg manifest maxOnDisk h, flushAdvance_manifest]
    exact hle

lemma recover_next_le : ((recover cfg ks manifest maxOnDisk recovered).manifest.map
    Manifest.nextSeqno).getD 0 ≤ (recover cfg ks manifest maxOnDisk recovered).seqno := by
  rw [recover_seqno]
  by_cases h : replayEntries ks recovered = []
  · rw [recover_of_nil cfg manifest maxOnDisk h, h]
    exact le_rfl
  · rw [recover_of_ne_nil cfg manifest maxOnDisk h, flushAdvance_manifest]
    exact le_rfl

lemma seqno_le_startSeqno (ks : Keyspace) (trees : Keyspace → Tree Memtable) :
    (trees ks).seqno ≤ startSeqno recovered trees := by
  have hmem : (trees ks).seqno ∈ Keyspace.all.map fun ks => (trees ks).seqno :=
    mem_map.mpr ⟨ks, Keyspace.mem_all ks, rfl⟩
  exact ((le_foldl_max id _ 0).2 _ hmem).trans (le_max_right ..)

end

end Tree

end XyzDB
