import XyzDB.Lib.TransSys
import XyzDB.Turba.TreeInv

/-!
# A sequential tree refines a map

One client drives a tree: it writes, and calls maintenance (seal, flush, compact)
at arbitrary points in between. What it reads back is what the map of its own
writes holds.

The map is `Store`: a put replaces the value of a key, or combines with it when a
merge operator owns the key, and a remove forgets it. `SeqInv` relates a tree to
the map: the tree invariant holds and every chain stands for the value in the map.
A put prepends to one chain, and every other operation is maintenance
(`Tree.Maintains`), so each operation keeps the relation (`seqInv_step`).

Two readings of the map follow. Without a merge operator it holds the last write of
each key, and point reads and scans both return it (`sequential_refinement`). For a
key owned by an associative and commutative operator it holds the fold of the deltas
since the key's last delete (`merge_reads_fold`); there the output writer of each
compaction must have room for the entries of a key.
-/

namespace XyzDB

open KeyRuns List Option Function XyzDB.Tree

/-- The calls a client makes. -/
inductive TreeOp where
  | insert (userKey : Key) (value : Value)
  | remove (userKey : Key)
  | sealActive
  | flushSealed
  | maybeCompact
  | majorCompact (observer : Bool) (fuel : ℕ)

/-- The effect of a call; a major compaction may not have ended with its fuel. -/
def Tree.apply (cfg : TreeConfig) (t : Tree Memtable) : TreeOp → Option (Tree Memtable)
  | .insert k v => some (t.insert k v)
  | .remove k => some (t.remove k)
  | .sealActive => some t.sealActive
  | .flushSealed => some (t.flushSealed cfg)
  | .maybeCompact => some (t.maybeCompact cfg)
  | .majorCompact observer fuel => t.majorCompact cfg observer fuel

/-- A tree together with the calls made so far, oldest first. -/
structure SeqState where
  tree : Tree Memtable
  history : List TreeOp

/-- A tree driven by one client. -/
def seqSys (cfg : TreeConfig) : TransSys SeqState TreeOp where
  init := ⟨.empty, []⟩
  next s op := (s.tree.apply cfg op).map fun t => ⟨t, s.history ++ [op]⟩

section

variable (op : Option MergeOperator)

/-- The value of a key after a version is put on top of the old value. -/
def putValue (k : Key) (old : Option Value) (v : Value) : Value :=
  if owned op k then foldValues op k (v :: old.toList) else v

/-- The effect of a call on the map. -/
def Store.step (m : Store) : TreeOp → Store
  | .insert k v => Function.update m k (some (putValue op k (m k) v))
  | .remove k => Function.update m k none
  | _ => m

/-- The map of a history. -/
def Store.ofHistory (history : List TreeOp) : Store :=
  history.foldl (Store.step op) fun _ => none

end

variable {k : Key} {e : Entry}

lemma chainValue_cons_value {op : Option MergeOperator} (hop : FoldsSegments op)
    (hv : e.valueType = .value) (chain : List Entry) :
    chainValue op k (e :: chain) = some (putValue op k (chainValue op k chain) e.value) := by
  have hval : e.isValue = true := by simp [Entry.isValue, hv]
  unfold chainValue putValue
  by_cases ho : owned op k = true
  · simp only [if_pos ho, foldDeltas, takeWhile_cons_of_pos hval]
    cases hl : chain.takeWhile Entry.isValue with
    | nil => rfl
    | cons a l =>
      -- fold the deltas below first, then add the new one
      have := hop k ho [e.value] ((a :: l).map Entry.value) [] (by simp)
      simpa using this.symm
  · simp only [if_neg ho]
    exact live_of_isValue hval

lemma chainValue_cons_tombstone {op : Option MergeOperator} (hv : e.valueType = .tombstone)
    (chain : List Entry) : chainValue op k (e :: chain) = none := by
  have hval : e.isValue = false := not_isValue.mp hv
  unfold chainValue
  split
  · rw [takeWhile_cons_of_neg (by simp [hval]), foldDeltas, if_pos rfl]
  · simp [live_of_not_isValue hval]

/-- The refinement relation between a tree and the map of its history. -/
structure SeqInv (cfg : TreeConfig) (s : SeqState) : Prop where
  tree : s.tree.Inv
  value : ∀ k, chainValue cfg.mergeOperator k (s.tree.current.chain k) =
    Store.ofHistory cfg.mergeOperator s.history k

/-- The output writer has room in every round of a major compaction. -/
def MajorHasRoom (cfg : TreeConfig) (observer : Bool) (baseline : ℕ) : ℕ → Tree Memtable → ℕ → Prop
  | 0, _, _ => True
  | fuel + 1, t, inputsConsumed =>
    match majorRound cfg observer baseline inputsConsumed t.current.version with
    | .compact task => TaskHasRoom cfg task ∧
      MajorHasRoom cfg observer baseline fuel (t.runTask cfg task)
        (inputsConsumed + task.inputIds.length)
    | .move task =>
      MajorHasRoom cfg observer baseline fuel (t.applyTrivialMove task) (inputsConsumed + 1)
    | .done | .stalled => True

/-- The output writer of every compaction a call runs has room. -/
def TreeOp.HasRoom (cfg : TreeConfig) (t : Tree Memtable) : TreeOp → Prop
  | .maybeCompact => (maybeRound cfg t.current.version).HasRoom cfg
  | .majorCompact observer fuel =>
    let flushed := (t.setCompactionEnabled false).flushSealed cfg
    MajorHasRoom cfg observer (flushed.ampBaseline cfg) fuel flushed 0
  | _ => True

instance decidableMajorHasRoom (cfg : TreeConfig) (observer : Bool) (baseline : ℕ) :
    ∀ fuel t consumed, Decidable (MajorHasRoom cfg observer baseline fuel t consumed)
  | 0, _, _ => inferInstanceAs (Decidable True)
  | fuel + 1, t, consumed => by
    have := decidableMajorHasRoom cfg observer baseline fuel
    unfold MajorHasRoom
    split <;> infer_instance

instance (cfg : TreeConfig) (t : Tree Memtable) : DecidablePred (TreeOp.HasRoom cfg t)
  | .maybeCompact => inferInstanceAs (Decidable (Round.HasRoom cfg _))
  | .majorCompact _ _ => inferInstanceAs (Decidable (MajorHasRoom cfg _ _ _ _ _))
  | .insert _ _ | .remove _ | .sealActive | .flushSealed => inferInstanceAs (Decidable True)

/-- What a round keeps. -/
structure RoundKeeps (cfg : TreeConfig) (P : Tree Memtable → Prop) : Prop where
  move : ∀ {t task}, P t → (Round.move task).Sound t.current.version → P (t.applyTrivialMove task)
  compact : ∀ {t task}, P t → (Round.compact task).Sound t.current.version →
    TaskHasRoom cfg task → P (t.runTask cfg task)

section

variable {P : Tree Memtable → Prop} {t t' : Tree Memtable} (hP : RoundKeeps cfg P) (h : P t)

include hP h

lemma RoundKeeps.maybeCompact (hroom : (maybeRound cfg t.current.version).HasRoom cfg) :
    P (t.maybeCompact cfg) := by
  have hsound := maybeRound_sound cfg t.current.version
  unfold Tree.maybeCompact
  cases hr : maybeRound cfg t.current.version with
  | done | stalled => exact h
  | move task => exact hP.move h (hr ▸ hsound)
  | compact task =>
    rw [hr] at hsound hroom
    exact hP.compact h hsound hroom

/-- What a round keeps, the loop of a major compaction keeps. -/
theorem RoundKeeps.majorLoop {observer stalled : Bool} {baseline fuel consumed : ℕ}
    (hroom : MajorHasRoom cfg observer baseline fuel t consumed)
    (hrun : Tree.majorLoop cfg observer baseline fuel t consumed = some (t', stalled)) : P t' := by
  induction fuel generalizing t consumed with
  | zero => cases hrun
  | succ fuel ih =>
    have hsound := majorRound_sound cfg observer baseline consumed t.current.version
    rw [Tree.majorLoop] at hrun
    rw [MajorHasRoom] at hroom
    cases hr : majorRound cfg observer baseline consumed t.current.version with
    | done | stalled =>
      simp only [hr, Option.some.injEq, Prod.mk.injEq] at hrun
      exact hrun.1 ▸ h
    | move task =>
      simp only [hr] at hsound hrun hroom
      exact ih (hP.move h hsound) hroom hrun
    | compact task =>
      simp only [hr] at hsound hrun hroom
      exact ih (hP.compact h hsound hroom.1) hroom.2 hrun

end

variable {o : TreeOp} {s : SeqState}

section

variable {cfg : TreeConfig} (hop : FoldsSegments cfg.mergeOperator) {t t' : Tree Memtable}

include hop

lemma maintains_rounds (t : Tree Memtable) :
    RoundKeeps cfg (Tree.Maintains cfg.mergeOperator t) where
  move hu hs := hu.trans (maintains_applyTrivialMove hu.inv hs.1.some hs.2)
  compact hu hs hroom := hu.trans (maintains_runTask hop hu.inv hs.some hroom)

lemma maintains_majorCompact {observer : Bool} {fuel : ℕ} (h : t.Inv)
    (hroom : (TreeOp.majorCompact observer fuel).HasRoom cfg t)
    (hrun : t.majorCompact cfg observer fuel = some t') :
    Tree.Maintains cfg.mergeOperator t t' := by
  have hoff : Tree.Maintains cfg.mergeOperator t (t.setCompactionEnabled false) :=
    maintains_setCompactionEnabled h false
  have hflushed := hoff.trans (maintains_flushSealed cfg hoff.inv)
  obtain ⟨⟨u, stalled⟩, hloop, hu⟩ := map_eq_some_iff.mp hrun
  have hdone := (maintains_rounds hop t).majorLoop hflushed hroom hloop
  -- restoring the flag and catching up the watermark touch no data
  have hrestored : Tree.Maintains cfg.mergeOperator t
      (if t.compactionEnabled then u.setCompactionEnabled true else u) := by
    split
    · exact hdone.trans (maintains_setCompactionEnabled hdone.inv true)
    · exact hdone
  rw [← hu]
  dsimp only
  split
  · exact hrestored
  · exact hrestored.trans (maintains_catchUp hrestored.inv)

omit hop in
lemma SeqInv.maintains {history : List TreeOp} (h : SeqInv cfg ⟨t, history⟩)
    (hm : Tree.Maintains cfg.mergeOperator t t') (ho : ∀ m, Store.step cfg.mergeOperator m o = m) :
    SeqInv cfg ⟨t', history ++ [o]⟩ := by
  refine ⟨hm.inv, fun k => ?_⟩
  rw [hm.value k, h.value k, Store.ofHistory, Store.ofHistory, foldl_append, foldl_cons,
    ho, foldl_nil]

lemma SeqInv.write {history : List TreeOp} (h : SeqInv cfg ⟨t, history⟩) (he : t.seqno < e.seqno)
    (ho : ∀ m, Store.step cfg.mergeOperator m o =
      Function.update m e.key (e.live.map (putValue cfg.mergeOperator e.key (m e.key)))) :
    SeqInv cfg ⟨t.insertWithSeqno e, history ++ [o]⟩ := by
  refine ⟨h.tree.insertWithSeqno he, fun k => ?_⟩
  have hnew : ∀ x ∈ t.current.chain e.key, x.seqno < e.seqno := fun x hx =>
    (h.tree.bound _ x hx).trans_lt he
  rw [chain_insertWithSeqno hnew, Store.ofHistory, foldl_append, foldl_cons, ho, foldl_nil]
  have hval := h.value k
  rw [Store.ofHistory] at hval
  split
  · next hk =>
    subst hk
    rw [update_self, ← hval]
    cases hv : e.valueType with
    | value => rw [chainValue_cons_value hop hv, Entry.live, hv]; rfl
    | tombstone => rw [chainValue_cons_tombstone hv, Entry.live, hv]; rfl
  · next hk => rw [update_of_ne (Ne.symm hk), ← hval]

/-- **Step.** Every call whose compactions have room keeps the refinement
relation. -/
theorem seqInv_step {s' : SeqState} (h : SeqInv cfg s) (hroom : o.HasRoom cfg s.tree)
    (hnext : (seqSys cfg).next s o = some s') : SeqInv cfg s' := by
  obtain ⟨t', ht', rfl⟩ := map_eq_some_iff.mp hnext
  cases o with
  | insert k v =>
    cases ht'
    rw [insert_eq]
    exact h.write hop (lt_add_one _) fun m => rfl
  | remove k =>
    cases ht'
    rw [remove_eq]
    exact h.write hop (lt_add_one _) fun m => rfl
  | sealActive =>
    cases ht'
    exact h.maintains (maintains_sealActive h.tree) fun m => rfl
  | flushSealed =>
    cases ht'
    exact h.maintains (maintains_flushSealed cfg h.tree) fun m => rfl
  | maybeCompact =>
    cases ht'
    exact h.maintains ((maintains_rounds hop _).maybeCompact (.refl h.tree) hroom) fun m => rfl
  | majorCompact observer fuel =>
    exact h.maintains (maintains_majorCompact hop h.tree hroom ht') fun m => rfl

/-- **Run.** The relation holds in every state a guarded run reaches. -/
theorem seqInv_reach (h : (seqSys cfg).Reach (fun s o => o.HasRoom cfg s.tree) s) :
    SeqInv cfg s := by
  refine h.invariant (SeqInv cfg) ⟨inv_empty, fun k => ?_⟩ fun s o s' hinv hok hnext =>
    seqInv_step hop hinv hok hnext
  change chainValue cfg.mergeOperator k [] = none
  simp [chainValue, foldDeltas]

end

/-- The effect of a call on the map of last writes. -/
def lastWriteStep (m : Store) : TreeOp → Store
  | .insert k v => Function.update m k (some v)
  | .remove k => Function.update m k none
  | _ => m

section

variable (history : List TreeOp)

/-- The last write of each key: `none` after a remove or when never written. -/
def lastWrite : Store := history.foldl lastWriteStep fun _ => none

lemma ofHistory_none : Store.ofHistory none history = lastWrite history := rfl

lemma hasRoom_of_none (hop : cfg.mergeOperator = none) (t : Tree Memtable) (o : TreeOp) :
    o.HasRoom cfg t := by
  have hround := Round.hasRoom_of_none hop
  have hmajor : ∀ observer baseline fuel t consumed,
      MajorHasRoom cfg observer baseline fuel t consumed := by
    intro observer baseline fuel
    induction fuel with
    | zero => intro t consumed; trivial
    | succ fuel ih =>
      intro t consumed
      rw [MajorHasRoom]
      split
      · exact ⟨taskHasRoom_of_none hop _, ih _ _⟩
      · exact ih _ _
      · trivial
      · trivial
  cases o with
  | maybeCompact => exact hround _
  | majorCompact observer fuel => exact hmajor _ _ ..
  | insert | remove | sealActive | flushSealed => trivial

lemma SeqInv.reads (hop : cfg.mergeOperator = none) (hinv : SeqInv cfg s)
    (hexact : ∀ u ∈ s.tree.current.version.allTables, u.ReadsExact) :
    (∀ k, s.tree.get k = lastWrite s.history k) ∧
      (∀ start stop, Lists (s.tree.rangeStream cfg start stop) (fun k => start ≤ k ∧ k ≤ stop)
        (lastWrite s.history)) ∧ ∀ p visible, s.tree.seqno ≤ visible →
        Lists (s.tree.prefixAt cfg p visible) (fun k => p <+: k) (lastWrite s.history) := by
  have hvalue : ∀ k, chainValue cfg.mergeOperator k (s.tree.current.chain k) =
      lastWrite s.history k := by
    intro k
    rw [hinv.value k, hop, ofHistory_none]
  refine ⟨fun k => ?_, fun start stop => hinv.tree.lists_rangeStream hvalue hexact start stop,
    fun p visible hvis => hinv.tree.lists_prefixAt hvalue p hvis⟩
  rw [← hvalue k]
  exact SuperVersion.getAt_eq_chainValue hinv.tree.version.wf hinv.tree.version.disjoint hexact
    (by rw [hop]; rfl) (hinv.tree.bound k)

/-- **Sequential refinement.** After any sequence of calls on a tree without a merge
operator, a point read returns the last write of its key, and range and prefix scans
list the last writes of their range. -/
theorem sequential_refinement {cfg : TreeConfig} (hop : cfg.mergeOperator = none) {s : SeqState}
    (h : (seqSys cfg).Reach TransSys.anyStep s)
    (hexact : ∀ u ∈ s.tree.current.version.allTables, u.ReadsExact) :
    (∀ k, s.tree.get k = lastWrite s.history k) ∧
      (∀ start stop, Lists (s.tree.rangeStream cfg start stop) (fun k => start ≤ k ∧ k ≤ stop)
        (lastWrite s.history)) ∧
      ∀ p visible, s.tree.seqno ≤ visible →
        Lists (s.tree.prefixAt cfg p visible) (fun k => p <+: k) (lastWrite s.history) := by
  have hfolds : FoldsSegments cfg.mergeOperator := by
    rw [hop]
    exact foldsSegments_none
  exact (seqInv_reach hfolds (h.mono fun s o _ => hasRoom_of_none hop s.tree o)).reads hop hexact

/-- A write, a flush, a compaction and a remove. -/
theorem sequential_refinement_small : ∃ s, (seqSys (smallConfig none 43)).run ⟨.empty, []⟩
      [.insert [1] [5], .insert [2] [6], .sealActive, .flushSealed, .maybeCompact, .remove [1]] =
        some s ∧
      s.tree.get [1] = none ∧ s.tree.get [2] = some [6] := by
  obtain ⟨s, hs⟩ : ∃ s, (seqSys (smallConfig none 43)).run ⟨.empty, []⟩
      [.insert [1] [5], .insert [2] [6], .sealActive, .flushSealed, .maybeCompact, .remove [1]] =
        some s := ⟨_, rfl⟩
  have hexact : ∀ u ∈ s.tree.current.version.allTables, u.ReadsExact := by
    have hblocks : s.tree.current.version.allTables.all Table.wellBlocked = true := by
      cases hs
      decide +kernel
    exact fun u hu => Table.readsExact_of_wellBlocked (all_eq_true.mp hblocks u hu)
  have hread := (sequential_refinement rfl (TransSys.reach_of_run hs) hexact).1
  refine ⟨s, hs, (hread [1]).trans ?_, (hread [2]).trans ?_⟩
  · cases hs
    decide
  · cases hs
    decide

/-- The fold of a list of deltas, oldest first. -/
def foldAll (combine : Key → Value → Value → Value) (k : Key) : List Value → Option Value
  | [] => none
  | v :: vs => some (vs.foldl (combine k) v)

/-- The effect of a call on the deltas of a key. -/
def deltaStep (k : Key) (deltas : List Value) : TreeOp → List Value
  | .insert k' v => if k' = k then deltas ++ [v] else deltas
  | .remove k' => if k' = k then [] else deltas
  | _ => deltas

/-- The deltas appended to a key since its last delete, oldest first. -/
def appended (k : Key) : List Value := history.foldl (deltaStep k) []

end

lemma foldAll_concat (combine : Key → Value → Value → Value) (k : Key) (ds : List Value)
    (v : Value) : foldAll combine k (ds ++ [v]) =
      some (((foldAll combine k ds).map fun x => combine k x v).getD v) := by
  cases ds with
  | nil => rfl
  | cons d ds => simp [foldAll]

lemma ofHistory_owned {o : MergeOperator} {combine : Key → Value → Value → Value}
    (hac : o.AssocComm combine) (hk : o.owns k = true) (history : List TreeOp) :
    Store.ofHistory (some o) history k = foldAll combine k (appended history k) := by
  induction history using List.reverseRecOn with
  | nil => rfl
  | append_singleton history op ih =>
    rw [Store.ofHistory] at ih ⊢
    rw [appended] at ih ⊢
    rw [foldl_append, foldl_append, foldl_cons, foldl_cons, foldl_nil, foldl_nil]
    cases op with
    | insert k' v =>
      by_cases hkk : k' = k
      · subst hkk
        rw [deltaStep, if_pos rfl, foldAll_concat, ← ih, Store.step, update_self, putValue,
          if_pos (by simpa [owned] using hk)]
        cases history.foldl (Store.step (some o)) (fun _ => none) k' with
        | none => exact congrArg some (hac.merge_cons k' v [] hk)
        | some x => exact congrArg some ((hac.merge_cons k' v [x] hk).trans (hac.comm k' v x))
      · rw [deltaStep, if_neg hkk, Store.step, update_of_ne (Ne.symm hkk), ih]
    | remove k' =>
      by_cases hkk : k' = k
      · subst hkk
        rw [deltaStep, if_pos rfl, Store.step, update_self]
        rfl
      · rw [deltaStep, if_neg hkk, Store.step, update_of_ne (Ne.symm hkk), ih]
    | sealActive | flushSealed | maybeCompact | majorCompact => exact ih

/-- **Merge reads are invariant under compaction.** In every run whose compactions
have room for the entries of an owned key, a prefix scan returns for the key the
fold of the deltas appended since its last delete. So does a range scan, where no
table has a block cut within a key. -/
theorem merge_reads_fold {cfg : TreeConfig} {o : MergeOperator}
    {combine : Key → Value → Value → Value} (hop : cfg.mergeOperator = some o)
    (hac : o.AssocComm combine) {s : SeqState}
    (h : (seqSys cfg).Reach (fun s op => op.HasRoom cfg s.tree) s) {k : Key}
    (hk : o.owns k = true) {p : Key} (hp : p <+: k) :
    scanValue (s.tree.prefixAt cfg p s.tree.seqno) k =
      foldAll combine k (appended s.history k) ∧
    ((∀ u ∈ s.tree.current.version.allTables, u.ReadsExact) → ∀ start stop, start ≤ k → k ≤ stop →
      scanValue (s.tree.rangeStream cfg start stop) k =
        foldAll combine k (appended s.history k)) := by
  have hinv := seqInv_reach (by rw [hop]; exact hac.foldsSegments) h
  have hfold : Store.ofHistory cfg.mergeOperator s.history k =
      foldAll combine k (appended s.history k) := by
    rw [hop, ofHistory_owned hac hk]
  constructor
  · exact ((hinv.tree.lists_prefixAt hinv.value p le_rfl).scanValue hp).trans hfold
  · intro hexact start stop hstart hstop
    have hlists := hinv.tree.lists_rangeStream hinv.value hexact start stop
    exact (hlists.scanValue ⟨hstart, hstop⟩).trans hfold

/-! ### Where the writer has no room

With a target size of `43` a table of `smallConfig` holds two small entries. -/

/-- The key `R` is written, deleted and written again. A compaction leaves the new
delta and the tombstone in two tables, and later ones fold the new delta with the
deleted one, past the tombstone. -/
def splitRun : List TreeOp :=
  [.insert [80] [0], .insert [81] [0], .insert [82] [9], .sealActive, .flushSealed,
    .majorCompact false 4, .insert [79] [0], .remove [82], .insert [82] [3], .sealActive,
    .flushSealed, .maybeCompact, .insert [81] [0], .insert [81, 0] [0], .sealActive, .flushSealed,
    .majorCompact false 8]

theorem merge_reads_split : ∃ s, (seqSys (smallConfig (some maxOp) 43)).Reach TransSys.anyStep s ∧
    maxOp.owns [82] = true ∧
    scanValue (s.tree.prefixAt (smallConfig (some maxOp) 43) [82] s.tree.seqno) [82] = some [9] ∧
    foldAll (fun _ => max) [82] (appended s.history [82]) = some [3] :=
  TransSys.exists_reach_of_run splitRun (by decide +kernel)

/-- With room in the tables the delete boundary holds. -/
theorem merge_reads_roomy : ∃ s, (seqSys (smallConfig (some maxOp) 4096)).runWith
      (fun s op => op.HasRoom (smallConfig (some maxOp) 4096) s.tree) ⟨.empty, []⟩ splitRun =
        some s ∧
    scanValue (s.tree.prefixAt (smallConfig (some maxOp) 4096) [82] s.tree.seqno) [82] =
      some [3] := by
  have hrun : ((seqSys (smallConfig (some maxOp) 4096)).runWith
      (fun s op => op.HasRoom (smallConfig (some maxOp) 4096) s.tree) ⟨.empty, []⟩ splitRun).map
        (fun s => foldAll (fun _ => max) [82] (appended s.history [82])) = some (some [3]) := by
    decide +kernel
  obtain ⟨s, hs, hval⟩ := map_eq_some_iff.mp hrun
  refine ⟨s, hs, ?_⟩
  rw [(merge_reads_fold rfl maxOp_assocComm (TransSys.reach_of_runWith hs) rfl
    (prefix_refl [82])).1, hval]

end XyzDB
