import XyzDB.Turba.ReadAgreement

/-!
# Concurrent point reads

`Tree::get` loads the visible sequence number, then the super-version, and then looks the
key up at that number. Compaction keeps only the newest version of a key and asks no
reader: when the key is overwritten after the first load, and the new version is flushed
and compacted with the old one before the second, the read finds only a version above its
number and returns nothing, although the key had a value all the time
(`point_read_misses`).

`readSys` runs any number of such calls against a tree, and records with each call the
values its key has had since the first load. While no compaction is swapped in between
the two loads, and no version at or below the number of the call is inserted, a call
returns the value its key had at the first load (`point_read_held`).
-/

namespace XyzDB

open KeyRuns List SuperVersion TreeState

/-- Where a call of `Tree::get` stands. `held` are the values that its key has had since
the call started. -/
inductive PointRead where
  | idle
  /-- Has loaded the visible sequence number. -/
  | visible (userKey : Key) (visibleSeqno : ℕ) (held : List (Option Value))
  /-- Has loaded the super-version. Its active memtable goes on changing: it is the one
  that was active after `generation` seals. -/
  | loaded (userKey : Key) (visibleSeqno : ℕ) (generation : ℕ) (sealed : List Memtable)
      (version : Version) (held : List (Option Value))
  | done (userKey : Key) (result : Option Value) (held : List (Option Value))

/-- A tree and the calls of `n` readers. -/
structure ReadState (n : ℕ) where
  base : TreeState
  readers : Fin n → PointRead

inductive ReadLabel (n : ℕ) where
  | tree (l : TreeLabel)
  | start (r : Fin n) (userKey : Key)
  | load (r : Fin n)
  | lookup (r : Fin n)

/-- The memtable that was active after so many seals. -/
def TreeState.memtable (s : TreeState) (generation : ℕ) : Memtable :=
  (s.sealedLog ++ [s.tree.current.active])[generation]?.getD .new

/-- The call notes the value of its key. -/
def PointRead.observe (t : Tree Memtable) : PointRead → PointRead
  | .visible k n held => .visible k n (held ++ [t.get k])
  | .loaded k n generation sealed version held =>
    .loaded k n generation sealed version (held ++ [t.get k])
  | .idle => .idle
  | .done k result held => .done k result held

/-- A tree with point reads. -/
def readSys (cfg : TreeConfig) (n : ℕ) : TransSys (ReadState n) (ReadLabel n) where
  init := ⟨(treeSys cfg).init, fun _ => .idle⟩
  next s
  | .tree l => ((treeSys cfg).next s.base l).map fun base =>
      ⟨base, fun r => (s.readers r).observe base.tree⟩
  | .start r k =>
    match s.readers r with
    | .idle | .done _ _ _ => some { s with
        readers := Function.update s.readers r (.visible k s.base.tree.seqno [s.base.tree.get k]) }
    | _ => none
  | .load r =>
    match s.readers r with
    | .visible k n held => some { s with
        readers := Function.update s.readers r
          (.loaded k n s.base.sealedLog.length s.base.tree.current.sealed
            s.base.tree.current.version held) }
    | _ => none
  | .lookup r =>
    match s.readers r with
    | .loaded k n generation sealed version held => some { s with
        readers := Function.update s.readers r
          (.done k (getAt ⟨s.base.memtable generation, sealed, version⟩ k n) held) }
    | _ => none

/-- The step swaps the outputs of a compaction in. -/
def TreeState.swapsOutputs (s : TreeState) : TreeLabel → Bool
  | .maint => match s.maint with
    | .compact _ _ _ => true
    | _ => false
  | _ => false

/-- Whether a step leaves a call alone: it inserts no version of its key that the call may
see, and between the two loads it swaps no compaction in. -/
def PointRead.Allows (s : TreeState) (l : TreeLabel) : PointRead → Prop
  | .visible k n _ => (∀ e ∈ s.entryOf l, e.key = k → n < e.seqno) ∧ s.swapsOutputs l = false
  | .loaded k n _ _ _ _ => ∀ e ∈ s.entryOf l, e.key = k → n < e.seqno
  | .idle | .done _ _ _ => True

instance (s : TreeState) (l : TreeLabel) (r : PointRead) : Decidable (r.Allows s l) := by
  cases r <;> unfold PointRead.Allows <;> infer_instance

/-- Flushes write tables that read exactly and install them in the place of their
memtables, and every step leaves the calls alone that are under way. -/
def ReadGuard (cfg : TreeConfig) {n : ℕ} (s : ReadState n) : ReadLabel n → Prop
  | .tree l => ExactGuard cfg s.base l ∧ ∀ r, (s.readers r).Allows s.base l
  | _ => True

instance (cfg : TreeConfig) {n : ℕ} (s : ReadState n) (l : ReadLabel n) :
    Decidable (ReadGuard cfg s l) := by
  cases l <;> unfold ReadGuard <;> infer_instance

/-- The value of the first version of a chain that is visible at a number. -/
def firstVisible (n : ℕ) (chain : List Entry) : Option Value :=
  (chain.find? fun e => decide (e.seqno ≤ n)).bind Entry.live

section

variable {cfg : TreeConfig} {s s' : TreeState} {l : TreeLabel} {d : TreeData} {k : Key} {n : ℕ}

lemma firstVisible_put (sv : SuperVersion Memtable) {e : Entry} (he : e.key = k → n < e.seqno) :
    firstVisible n ((SuperVersion.mk (sv.active.insert e) sv.sealed sv.version).chain k) =
      firstVisible n (sv.chain k) := by
  by_cases hk : e.key = k
  · have hactive : (withKey Entry.key k (sv.active.insert e).entries).find?
        (fun x => decide (x.seqno ≤ n)) =
          (withKey Entry.key k sv.active.entries).find? fun x => decide (x.seqno ≤ n) := by
      unfold withKey
      rw [← head?_filter, ← head?_filter, filter_comm, Memtable.insert_entries,
        filter_insertEntry (he hk), filter_comm]
    unfold firstVisible
    rw [chain_eq, chain_eq, find?_append, find?_append, find?_append, find?_append, hactive]
  · rw [chain_put_ne hk]

lemma maint_of_next (hl : l ≠ .maint) (h : (treeSys cfg).next s l = some s') :
    s.maint.pending = none ∨ s'.maint = s.maint := by
  cases l with
  | maint => exact absurd rfl hl
  | flush i =>
    cases h
    exact .inr (flushStep_frame cfg s (s.flushes i)).2
  | commitSeqno c items =>
    simp only [treeSys] at h
    split at h <;> cases h
    exact .inr rfl
  | commitInsert c =>
    simp only [treeSys, commitInsert] at h
    split at h
    · cases h
    · cases h
      exact .inr rfl
    · cases h
      exact .inr rfl
  | maybeCompact | checkpoint | major observer =>
    simp only [treeSys] at h
    split at h
    · next hm => exact .inl (by rw [hm]; rfl)
    · cases h
  | _ =>
    cases h
    exact .inr rfl

/-- A step that takes the outputs of a compaction away swaps them in. -/
lemma swapsOutputs_of_next (h : (treeSys cfg).next s l = some s') {task : CompactionTask}
    {outs : List Table} (hc : s.maint.pending = some (task, some outs))
    (hnone : s'.maint.pending = none) : s.swapsOutputs l = true := by
  by_cases hl : l = .maint
  · subst hl
    unfold swapsOutputs
    cases hm : s.maint with
    | compact driver task' outs' => rfl
    | _ =>
      rw [hm] at hc
      cases hc
  · rcases maint_of_next hl h with hp | hm
    · rw [hp] at hc
      cases hc
    · rw [hm, hc] at hnone
      cases hnone

/-- **What a call between its loads sees stays.** -/
theorem firstVisible_step (hinv : ExactInv cfg s.data) (hok : ExactGuard cfg s l)
    (hput : ∀ e ∈ s.entryOf l, e.key = k → n < e.seqno) (hswap : s.swapsOutputs l = false)
    (h : (treeSys cfg).next s l = some s') :
    firstVisible n (s'.tree.current.chain k) = firstVisible n (s.tree.current.chain k) := by
  have hstep := treeStep_of_next h
  change firstVisible n (s'.data.current.chain k) = _
  have hpending : s'.data.compaction = s'.maint.pending := rfl
  generalize s'.data = d at hstep hpending
  cases hstep with
  | put e he => exact firstVisible_put s.tree.current (hput e he)
  | ingest entries hl =>
    rw [hl] at hok
    cases hok.2
  | sealActive hne => exact congrArg (firstVisible n ∘ withKey Entry.key k) run_seal
  | install o ho job tables hjob htables =>
    exact congrArg (firstVisible n ∘ withKey Entry.key k)
      (hinv.flush.run_install hjob htables (hok.drops ho hjob htables))
  | applyMove task hc => exact congrArg (firstVisible n) (hinv.chain_move hc k)
  | applyCompact task outs hc =>
    rw [swapsOutputs_of_next h hc hpending.symm] at hswap
    cases hswap
  | _ => rfl

/-- The memtable of a call changes only by inserts while it is active. -/
lemma memtable_step {generation : ℕ} (hgen : generation ≤ s.sealedLog.length)
    (h : (treeSys cfg).next s l = some s') (hl : l.isIngest = false) :
    generation ≤ s'.sealedLog.length ∧ (s'.memtable generation = s.memtable generation ∨
      ∃ e ∈ s.entryOf l, s'.memtable generation = (s.memtable generation).insert e) := by
  have hstep := treeStep_of_next h
  have hdata : ∀ d : TreeData, d = s'.data → s'.sealedLog = d.sealedLog ∧
      s'.memtable generation = (d.sealedLog ++ [d.current.active])[generation]?.getD .new := by
    rintro d rfl
    exact ⟨rfl, rfl⟩
  obtain ⟨hlog, hmem⟩ := hdata _ rfl
  rw [hlog, hmem]
  generalize s'.data = d at hstep
  cases hstep with
  | put e he =>
    refine ⟨hgen, ?_⟩
    rcases Nat.lt_or_eq_of_le hgen with hlt | heq
    · left
      unfold memtable
      rw [getElem?_append_left hlt]
      exact congrArg (Option.getD · .new) (getElem?_append_left hlt)
    · right
      refine ⟨e, he, ?_⟩
      unfold memtable
      rw [heq]
      change (s.sealedLog ++ [s.tree.current.active.insert e])[s.sealedLog.length]?.getD .new = _
      rw [getElem?_concat_length, getElem?_concat_length]
      rfl
  | ingest entries heq =>
    rw [heq] at hl
    cases hl
  | sealActive hne =>
    refine ⟨hgen.trans (by simp), .inl ?_⟩
    have hlt : generation < (s.sealedLog ++ [s.tree.current.active]).length := by
      rw [length_append]
      exact Nat.lt_succ_of_le hgen
    exact congrArg (Option.getD · .new) (getElem?_append_left hlt)
  | _ => exact ⟨hgen, .inl rfl⟩

end

/-- The tables of a version read exactly, and its deep levels can be searched. -/
structure Version.Searchable (v : Version) : Prop where
  wf : v.WellFormed
  disjoint : v.Disjoint
  exact : ∀ t ∈ v.allTables, t.ReadsExact

lemma ExactInv.searchable (h : ExactInv cfg d) : d.current.version.Searchable :=
  ⟨h.level.registry.version.wf, h.level.registry.version.disjoint, h.exact⟩

lemma Version.Searchable.getAt_eq {v : Version} (h : v.Searchable) (active : Memtable)
    (sealed : List Memtable) (k : Key) (n : ℕ) : SuperVersion.getAt ⟨active, sealed, v⟩ k n =
      firstVisible n ((SuperVersion.mk active sealed v).chain k) :=
  SuperVersion.getAt_eq h.wf h.disjoint h.exact k n

/-- A call sees, or has seen, a value that its key held. -/
def PointRead.Sees (s : TreeState) : PointRead → Prop
  | .idle => True
  | .visible k n held => firstVisible n (s.tree.current.chain k) ∈ held
  | .loaded k n generation sealed version held =>
    version.Searchable ∧ generation ≤ s.sealedLog.length ∧
      firstVisible n ((SuperVersion.mk (s.memtable generation) sealed version).chain k) ∈ held
  | .done _ result held => result ∈ held

section

variable {cfg : TreeConfig} {s s' : TreeState} {l : TreeLabel}

/-- **Step.** A step of the tree that leaves a call alone. -/
theorem PointRead.sees_step {r : PointRead} (hr : r.Sees s) (hinv : ExactInv cfg s.data)
    (hok : ExactGuard cfg s l) (hallow : r.Allows s l)
    (h : (treeSys cfg).next s l = some s') : (r.observe s'.tree).Sees s' := by
  cases r with
  | idle => trivial
  | visible k n held =>
    change firstVisible n (s'.tree.current.chain k) ∈ held ++ [_]
    rw [firstVisible_step hinv hok hallow.1 hallow.2 h]
    exact mem_append_left _ hr
  | loaded k n generation sealed version held =>
    obtain ⟨hsearch, hgen, hmem⟩ := hr
    obtain ⟨hgen', hsame⟩ := memtable_step hgen h hok.2
    refine ⟨hsearch, hgen', mem_append_left _ ?_⟩
    rcases hsame with hsame | ⟨e, he, hsame⟩
    · rw [hsame]
      exact hmem
    · rw [hsame, firstVisible_put ⟨s.memtable generation, sealed, version⟩ (hallow e he)]
      exact hmem
  | done k result held => exact hr

end

/-- The tables read exactly, and every call sees a value its key held. -/
structure ReadInv (cfg : TreeConfig) {n : ℕ} (s : ReadState n) : Prop where
  exact : ExactInv cfg s.base.data
  sees : ∀ r, (s.readers r).Sees s.base

lemma readInv_step (hop : cfg.mergeOperator = none) (hbloom : cfg.sstable.BloomSound)
    {s s' : ReadState n} {l : ReadLabel n} (h : ReadInv cfg s) (hok : ReadGuard cfg s l)
    (hnext : (readSys cfg n).next s l = some s') : ReadInv cfg s' := by
  -- a call of its own moves
  have hupdate : ∀ (r : Fin n) (p : PointRead), p.Sees s.base →
      ReadInv cfg { s with readers := Function.update s.readers r p } := fun r p hp =>
    ⟨h.exact, (Function.forall_update_iff s.readers fun _ p => p.Sees s.base).mpr
      ⟨hp, fun r' _ => h.sees r'⟩⟩
  cases l with
  | tree l =>
    obtain ⟨base, hbase, rfl⟩ := Option.map_eq_some_iff.mp hnext
    exact ⟨exactInv_step hop hbloom h.exact hok.1 (treeStep_of_next hbase), fun r =>
      PointRead.sees_step (h.sees r) h.exact hok.1 (hok.2 r) hbase⟩
  | start r k =>
    have hp : PointRead.Sees s.base (.visible k s.base.tree.seqno [s.base.tree.get k]) := by
      refine mem_singleton.mpr ?_
      exact (h.exact.searchable.getAt_eq _ _ k _).symm
    simp only [readSys] at hnext
    split at hnext
    · cases hnext
      exact hupdate r _ hp
    · cases hnext
      exact hupdate r _ hp
    · cases hnext
  | load r =>
    simp only [readSys] at hnext
    split at hnext <;> cases hnext
    next k n held hr =>
    have hsees := h.sees r
    rw [hr] at hsees
    refine hupdate r _ ⟨h.exact.searchable, le_rfl, ?_⟩
    have hactive : s.base.memtable s.base.sealedLog.length = s.base.tree.current.active := by
      unfold memtable
      rw [getElem?_concat_length]
      rfl
    rw [hactive]
    exact hsees
  | lookup r =>
    simp only [readSys] at hnext
    split at hnext <;> cases hnext
    next k n generation sealed version held hr =>
    have hsees := h.sees r
    rw [hr] at hsees
    obtain ⟨hsearch, -, hmem⟩ := hsees
    refine hupdate r _ ?_
    rw [hsearch.getAt_eq]
    exact hmem

lemma readInv_init (cfg : TreeConfig) (n : ℕ) : ReadInv cfg (readSys cfg n).init :=
  ⟨exactInv_init cfg, fun _ => trivial⟩

/-- **A point read returns a value its key held.** In every guarded run, when a call is done
and its key had a value throughout, the call returns a value, and one that the key had at
some moment of the call. -/
theorem point_read_held {cfg : TreeConfig} (hop : cfg.mergeOperator = none)
    (hbloom : cfg.sstable.BloomSound) {n : ℕ} {s : ReadState n}
    (h : (readSys cfg n).Reach (ReadGuard cfg) s) (r : Fin n) (k : Key) (result : Option Value)
    (held : List (Option Value)) (hdone : s.readers r = .done k result held)
    (hlive : ∀ x ∈ held, x ≠ none) : ∃ v, result = some v ∧ some v ∈ held := by
  have hinv : ReadInv cfg s := h.invariant (ReadInv cfg) (readInv_init cfg n)
    fun _ _ _ hinv hok hnext => readInv_step hop hbloom hinv hok hnext
  have hsees := hinv.sees r
  rw [hdone] at hsees
  obtain ⟨v, rfl⟩ := Option.ne_none_iff_exists'.mp (hlive result hsees)
  exact ⟨v, rfl, hsees⟩

local instance neZero_readers : NeZero 1 := ⟨Nat.one_ne_zero⟩

/-- Between the two loads the key is overwritten, flushed, and compacted. -/
def missingRead : List (ReadLabel 1) :=
  [.tree (.insert [1] [5]), .start 0 [1], .tree (.insert [1] [6]), .tree .sealActive] ++
    (fullFlush 0 ++ fullCompact).map .tree ++ [.load 0, .lookup 0]

/-- What a call that is done has returned, and what its key has held. -/
def PointRead.outcome : PointRead → Option (Key × Option Value × List (Option Value))
  | .done k result held => some (k, result, held)
  | _ => none

lemma PointRead.outcome_eq_some {r : PointRead} {result : Option Value}
    {held : List (Option Value)} (h : r.outcome = some (k, result, held)) :
    r = .done k result held := by
  cases r with
  | done k' result' held' =>
    obtain ⟨rfl, rfl, rfl⟩ := h
    rfl
  | _ => cases h

theorem point_read_misses : ∃ s, (readSys (smallConfig none 4096) 1).Reach TransSys.anyStep s ∧
    ∃ outcome ∈ (s.readers 0).outcome, outcome.2.1 = none ∧ ∀ x ∈ outcome.2.2, x ≠ none :=
  TransSys.exists_reach_of_run missingRead (by decide +kernel)

/-- The same read when the compaction comes after its second load. -/
theorem point_read_held_flushed : ∃ s,
    (readSys (smallConfig none 4096) 1).Reach (ReadGuard (smallConfig none 4096)) s ∧
      ∃ held, s.readers 0 = .done [1] (some [5]) held ∧ held.length = 12 ∧
        ∃ v, some [5] = some v ∧ some v ∈ held := by
  obtain ⟨s, hs, hout⟩ : ∃ s,
      (readSys (smallConfig none 4096) 1).Reach (ReadGuard (smallConfig none 4096)) s ∧
        (s.readers 0).outcome = some ([1], some [5], some [5] :: List.replicate 11 (some [6])) :=
    TransSys.exists_reach_of_runWith ([.tree (.insert [1] [5]), .start 0 [1],
      .tree (.insert [1] [6]), .tree .sealActive] ++ (fullFlush 0).map .tree ++ [.load 0] ++
      fullCompact.map .tree ++ [.lookup 0]) (by decide +kernel)
  have hdone := PointRead.outcome_eq_some hout
  exact ⟨s, hs, _, hdone, rfl, point_read_held rfl (fun _ _ _ => rfl) hs 0 [1] _ _ hdone
    (by decide)⟩

end XyzDB
