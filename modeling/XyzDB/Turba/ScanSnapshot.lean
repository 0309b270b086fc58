import XyzDB.Turba.HeapLayers

/-!
# Scans and batches

A scan loads a visible sequence number, then a super-version, and then reads one
memtable after the other, while commits insert their items. The number is meant to be a
snapshot: of every batch the scan should see all items or none. It is one if, when it is
loaded, no batch that it covers still has items to insert (`ScanGuard`); from then on no
insert comes at or below it.

`HeapState.versions` says what the batches up to a number write to a key, and
`scan_sees_batches` that a finished scan returns exactly what these versions stand
for. The argument has two halves.

* What has been inserted at or below the number is what the batches at or below it wrote
  (`perm_versions`): the log has the items of every batch in order (`BatchInv`), and of
  everything in the log that was not replaced there is exactly one copy.
* What a scan has read and what it is still to read, cut off at its number, does not
  change while it runs (`ScanInv`).
-/

namespace XyzDB

open KeyRuns List Function SuperVersion HeapState Entry Writer

/-- What a batch writes to a key: of several items the last one. -/
def Writer.last (w : Writer) (k : Key) : Option Entry :=
  w.entries.reverse.find? fun e => decide (e.key = k)

variable {k : Key} {w : Writer}

lemma Writer.last_eq_some {e : Entry} (h : w.last k = some e) : e.seqno = w.seqno ∧ e.key = k := by
  have hmem : e ∈ w.entries := mem_reverse.mp (mem_of_find?_eq_some h)
  obtain ⟨item, -, rfl⟩ := mem_map.mp hmem
  exact ⟨rfl, by simpa using find?_some h⟩

variable {n : ℕ}

namespace HeapState

/-- The versions of a key that the batches up to a number write, newest first. -/
def versions (s : HeapState) (visible : ℕ) (k : Key) : List Entry :=
  (s.writers.map fun w => if w.seqno ≤ visible then w.last k else none).reverse.reduceOption

/-- The numbers drawn so far, in order. -/
def seqnos (s : HeapState) : List ℕ := s.writers.map Writer.seqno

lemma mem_versions {s : HeapState} {visible : ℕ} {e : Entry} :
    e ∈ s.versions visible k ↔ ∃ w ∈ s.writers, w.seqno ≤ visible ∧ w.last k = some e := by
  rw [versions, reduceOption_mem_iff, mem_reverse, mem_map]
  refine exists_congr fun w => and_congr_right fun _ => ?_
  split
  · next h => simp [h]
  · next h => simp [h]

lemma versions_congr {s : HeapState} {m : ℕ}
    (h : ∀ w ∈ s.writers, w.last k ≠ none → (w.seqno ≤ m ↔ w.seqno ≤ n)) :
    s.versions m k = s.versions n k := by
  unfold versions
  congr 2
  refine map_congr_left fun w hw => ?_
  by_cases hlast : w.last k = none
  · simp [hlast]
  · simp [h w hw hlast]

end HeapState

/-- Numbers are drawn in order from the engine's counter, and the log has what every
batch inserted, in the order of its items. -/
structure BatchInv (s : HeapState) : Prop where
  counter : s.tree.seqno ≤ s.engineSeqno
  order : s.seqnos.Pairwise (· < ·)
  bound : ∀ n ∈ s.seqnos, n ≤ s.engineSeqno
  owner : ∀ e ∈ s.log, e.seqno ∈ s.seqnos
  log : ∀ (i : ℕ) (w : Writer), s.writers[i]? = some w →
    (s.log.filter fun e => decide (e.seqno = w.seqno)) = (w.inserted.map (entryAt w.seqno)).reverse

section

variable {cfg : TreeConfig} {s s' : HeapState} {l : HeapLabel}

/-- **Write.** A writer goes on with its batch. -/
theorem BatchInv.write (h : BatchInv s) {i : ℕ} {w' : Writer} (hw : s.writers[i]? = some w)
    (hs : s'.writers = s.writers.set i w') (hseq : w'.seqno = w.seqno)
    (he : s'.engineSeqno = s.engineSeqno) (hc : s'.tree.seqno ≤ s.engineSeqno)
    (new : List Entry) (hl : s'.log = new ++ s.log) (hnew : ∀ e ∈ new, e.seqno = w.seqno)
    (hins : (w'.inserted.map (entryAt w.seqno)).reverse =
      new ++ (w.inserted.map (entryAt w.seqno)).reverse) : BatchInv s' := by
  have hseqnos : s'.seqnos = s.seqnos := by
    unfold HeapState.seqnos
    rw [hs, map_set_of_eq hw hseq]
  have hmem : w.seqno ∈ s.seqnos := List.mem_map_of_mem (List.mem_of_getElem? hw)
  refine ⟨he ▸ hc, hseqnos ▸ h.order, hseqnos ▸ he ▸ h.bound, fun e he => ?_, fun j u hu => ?_⟩
  · rw [hl] at he
    rw [hseqnos]
    rcases List.mem_append.mp he with he | he
    · exact hnew e he ▸ hmem
    · exact h.owner e he
  · rw [hs, List.getElem?_set] at hu
    rw [hl, List.filter_append]
    split at hu
    · -- the writer itself: everything new is its own
      split at hu <;> cases hu
      rw [hseq, hins, List.filter_eq_self.mpr (by simpa using hnew), h.log i w hw]
    · -- another writer has another number
      next hij =>
      have hne : w.seqno ≠ u.seqno := by
        intro heq
        have hnodup : s.seqnos.Nodup := h.order.imp fun hab => ne_of_lt hab
        have hi : s.seqnos[i]? = some w.seqno := by simp [HeapState.seqnos, hw]
        have hj : s.seqnos[j]? = some w.seqno := by simp [HeapState.seqnos, hu, heq]
        obtain ⟨hlt, -⟩ := List.getElem?_eq_some_iff.mp hi
        exact hij ((List.getElem?_inj hlt hnodup).mp (hi.trans hj.symm))
      rw [List.filter_eq_nil_iff.mpr fun e he => by simp [hnew e he, hne], h.log j u hu]
      rfl

/-- **Step.** Commits keep the log in order. -/
theorem batchInv_step (h : BatchInv s) (hok : l.isDirect = false) (hstep : HeapStep cfg s l s') :
    BatchInv s' := by
  cases hstep with
  | quiet => exact h
  | direct _ item hl => exact absurd (hl.symm.trans hok) (by simp)
  | commit items =>
    -- the new number is above every number drawn before it
    have hseqnos : (s.startCommit items).seqnos = s.seqnos ++ [s.engineSeqno + 1] := by
      simp [seqnos, startCommit]
    refine ⟨h.counter.trans (Nat.le_succ _), ?_, ?_, fun e he => ?_, fun i w hw => ?_⟩
    · rw [hseqnos]
      refine pairwise_append.mpr ⟨h.order, pairwise_singleton _ _, fun n hn m hm => ?_⟩
      rw [mem_singleton.mp hm]
      exact Nat.lt_succ_of_le (h.bound n hn)
    · rw [hseqnos]
      exact forall_mem_concat (fun n hn => (h.bound n hn).trans (Nat.le_succ _)) le_rfl
    · rw [hseqnos]
      exact mem_append_left _ (h.owner e he)
    · change (s.writers ++ [_])[i]? = some w at hw
      rw [getElem?_append] at hw
      split at hw
      · exact h.log i w hw
      · -- nothing in the log has the fresh number
        obtain rfl := mem_singleton.mp (mem_of_getElem? hw)
        refine filter_eq_nil_iff.mpr fun e he heq => ?_
        have := h.bound _ (h.owner e he)
        have heq : e.seqno = s.engineSeqno + 1 := by simpa using heq
        omega
  | raise i w hw hphase hne =>
    have hbound := h.bound _ (mem_map_of_mem (mem_of_getElem? hw))
    exact h.write hw rfl rfl rfl (Nat.max_le.mpr ⟨h.counter, hbound⟩) [] rfl (by simp) rfl
  | load i w hw hphase hne => exact h.write hw rfl rfl rfl h.counter [] rfl (by simp) rfl
  | put i w hw mem hphase item left hleft =>
    -- one item goes from what is left to the log, under the number of its writer
    refine h.write hw rfl rfl rfl h.counter [entryAt w.seqno item] rfl ?_ ?_
    · intro e he
      rw [mem_singleton.mp he]
      rfl
    · simp
  | sealActive | snapshot | readOut | install | flag | persist | scan =>
    exact ⟨h.counter, h.order, h.bound, h.owner, h.log⟩
  | advance =>
    unfold Tree.flushAdvance
    split <;> exact ⟨h.counter, h.order, h.bound, h.owner, h.log⟩
  | scanStep _ hnext =>
    obtain ⟨sc, rfl⟩ := scanStep_eq hnext
    exact ⟨h.counter, h.order, h.bound, h.owner, h.log⟩

end

/-! ### What has been inserted is what the batches wrote -/

/-- The order of the layers: no two of them have a version of a key at one number. -/
abbrev Distinct (x y : Entry) : Prop := x.key = y.key → x.seqno ≠ y.seqno

section

variable {s : HeapState}

lemma Layered.nodup_chain (h : Layered Distinct s) (hinv : HeapInv s) (k : Key) :
    ((s.sv.chain k).map Entry.seqno).Nodup := by
  refine pairwise_map.mpr ((h.pairwise_chain hinv k).imp_of_mem fun {y x} hy hx hyx => ?_)
  have hkey : x.key = y.key :=
    (mem_chain.mp hx).2.trans (mem_chain.mp hy).2.symm
  rcases hyx with hd | hlt
  · exact (hd hkey).symm
  · exact hlt.ne'

lemma BatchInv.seqDesc_versions (h : BatchInv s) (n : ℕ) (k : Key) : SeqDesc (s.versions n k) := by
  unfold SeqDesc versions reduceOption
  rw [pairwise_filterMap, pairwise_reverse, pairwise_map]
  refine (pairwise_map.mp h.order).imp fun {a b} hab x hx y hy => ?_
  -- what a batch writes carries the number of the batch
  have hlast : ∀ {w : Writer} {z : Entry}, id (if w.seqno ≤ n then w.last k else none) = some z →
      z.seqno = w.seqno := by
    intro w z hz
    split at hz
    · exact (last_eq_some hz).1
    · cases hz
  rw [hlast hx, hlast hy]
  exact hab

/-- The last insert of a finished batch at a key, read off the log. -/
lemma BatchInv.find?_log (h : BatchInv s) (hw : w ∈ s.writers) (hleft : w.left = [])
    (k : Key) : (s.log.find? fun e => decide (e.seqno = w.seqno) && decide (e.key = k)) =
      w.last k := by
  obtain ⟨i, hi⟩ := mem_iff_getElem?.mp hw
  unfold last entries
  rw [hleft, append_nil, ← h.log i w hi]
  simp

/-- When every batch up to a number is inserted, the entries up to it are what these
batches wrote. -/
lemma mem_run_iff (hinv : HeapInv s) (hdist : Layered Distinct s) (hb : BatchInv s)
    (hfin : ∀ w ∈ s.writers, w.seqno ≤ n → w.left = []) {e : Entry} :
    e ∈ s.sv.run ∧ e.seqno ≤ n ↔ e ∈ s.versions n e.key := by
  rw [mem_versions]
  constructor
  · rintro ⟨he, hle⟩
    obtain ⟨w, hw, hseq⟩ := mem_map.mp (hb.owner e (hinv.logged e he))
    have hlast := hb.find?_log hw (hfin w hw (hseq ▸ hle)) e.key
    refine ⟨w, hw, hseq ▸ hle, ?_⟩
    cases hx : w.last e.key with
    | none =>
      rw [hx] at hlast
      simpa [hseq] using find?_eq_none.mp hlast e (hinv.logged e he)
    | some x =>
      -- `x` is in the run too, and the run has one version at a number
      rw [hx] at hlast
      obtain ⟨hxs, hxk⟩ := Writer.last_eq_some hx
      have hxrun := hinv.present.mem_of_find? hlast
      exact congrArg some (inj_on_of_nodup_map (hdist.nodup_chain hinv e.key)
        (mem_chain.mpr ⟨hxrun, hxk⟩) (mem_chain.mpr ⟨he, rfl⟩)
        (hxs.trans hseq))
  · rintro ⟨w, hw, hle, hlast⟩
    have hfind := hb.find?_log hw (hfin w hw hle) e.key
    rw [hlast] at hfind
    exact ⟨hinv.present.mem_of_find? hfind, (Writer.last_eq_some hlast).1 ▸ hle⟩

lemma perm_versions (hinv : HeapInv s) (hdist : Layered Distinct s) (hb : BatchInv s)
    (hfin : ∀ w ∈ s.writers, w.seqno ≤ n → w.left = []) (k : Key) :
    ((s.sv.chain k).filter fun e => decide (e.seqno ≤ n)).Perm (s.versions n k) := by
  have hchain : (s.sv.chain k).Nodup := (hdist.nodup_chain hinv k).of_map
  have hversions : (s.versions n k).Nodup :=
    (hb.seqDesc_versions n k).imp fun hlt heq => hlt.ne (congrArg Entry.seqno heq.symm)
  refine (perm_ext_iff_of_nodup (hchain.filter _) hversions).mpr fun e => ?_
  rw [mem_filter, mem_chain, decide_eq_true_eq]
  constructor
  · rintro ⟨⟨he, rfl⟩, hle⟩
    exact (mem_run_iff hinv hdist hb hfin).mp ⟨he, hle⟩
  · intro he
    obtain ⟨w, hw, hle, hlast⟩ := mem_versions.mp he
    obtain ⟨-, rfl⟩ := Writer.last_eq_some hlast
    obtain ⟨hrun, hle⟩ := (mem_run_iff hinv hdist hb hfin).mpr he
    exact ⟨⟨hrun, rfl⟩, hle⟩

end

/-- What a scan holds while it reads. -/
structure HeapView where
  start : Key
  stop : Key
  visible : ℕ
  version : Version
  read : List Memtable
  left : List ℕ

/-- The view of a scan that reads. -/
def HeapScan.view : HeapScan → Option HeapView
  | .reading start stop visible version read left =>
    some ⟨start, stop, visible, version, read, left⟩
  | _ => none

/-- The number a scan has loaded. -/
def HeapScan.seqno : HeapScan → Option ℕ
  | .idle => none
  | .seqnoLoaded _ _ visible | .reading _ _ visible _ _ _ | .done _ _ visible _ => some visible

lemma HeapScan.seqno_of_view {sc : HeapScan} {v : HeapView} (h : sc.view = some v) :
    sc.seqno = some v.visible := by
  cases sc with
  | reading start stop visible version read left =>
    cases h
    rfl
  | _ => cases h

namespace HeapView

/-- What the scan has read and is still to read. -/
def sources (v : HeapView) (mems : ℕ → Memtable) : List Entry :=
  v.read.flatMap Memtable.entries ++ ((v.left.flatMap fun m => (mems m).entries) ++ v.version.run)

/-- Up to the number of the scan, its sources have what the batches wrote. -/
structure Ok (s : HeapState) (v : HeapView) : Prop where
  sorted : ∀ t ∈ v.version.allTables, SortedLE t.entries
  exact : ∀ t ∈ v.version.allTables, t.ReadsExact
  left : ∀ m ∈ v.left, m < s.nextMem
  holds : ∀ k, (withKey key k ((v.sources s.mems).filter fun e =>
    decide (e.seqno ≤ v.visible))).Perm (s.versions v.visible k)

end HeapView

/-- No batch up to the number of the scan has items left, its sources have what these
batches wrote, and so does its result. -/
structure ScanInv (cfg : TreeConfig) (s : HeapState) : Prop where
  finished : ∀ n, s.scan.seqno = some n →
    n ≤ s.engineSeqno ∧ ∀ w ∈ s.writers, w.seqno ≤ n → w.left = []
  view : ∀ v, s.scan.view = some v → v.Ok s
  result : ∀ start stop n out, s.scan = .done start stop n out → ∀ k, start ≤ k → k ≤ stop →
    withKey key k out = ((mvccRun n cfg.mergeOperator (s.versions n k)).filter isValue).toList

variable {start stop : Key}

section

variable {cfg : TreeConfig} {s s' : HeapState} {l : HeapLabel}

variable (h : ScanInv cfg s)

include h

lemma ScanInv.frame (hscan : s'.scan = s.scan)
    (hcount : s.engineSeqno ≤ s'.engineSeqno) (hnext : s.nextMem ≤ s'.nextMem)
    (hfin : ∀ n, s.scan.seqno = some n → ∀ w ∈ s'.writers, w.seqno ≤ n → w.left = [])
    (hver : ∀ n, s.scan.seqno = some n → ∀ k, s'.versions n k = s.versions n k)
    (hmems : ∀ n, s.scan.seqno = some n → ∀ m < s.nextMem,
      ((s'.mems m).entries.filter fun e => decide (e.seqno ≤ n)) =
        (s.mems m).entries.filter fun e => decide (e.seqno ≤ n)) : ScanInv cfg s' := by
  refine ⟨fun n hn => ?_, fun v hv => ?_, fun start stop n out hdone k h1 h2 => ?_⟩
  · rw [hscan] at hn
    exact ⟨(h.finished n hn).1.trans hcount, hfin n hn⟩
  · rw [hscan] at hv
    have hok := h.view v hv
    have hn := HeapScan.seqno_of_view hv
    refine ⟨hok.sorted, hok.exact, fun m hm => (hok.left m hm).trans_le hnext, fun k => ?_⟩
    have hsrc : ((v.sources s'.mems).filter fun e => decide (e.seqno ≤ v.visible)) =
        (v.sources s.mems).filter fun e => decide (e.seqno ≤ v.visible) := by
      simp only [HeapView.sources, filter_append, filter_flatMap]
      congr 2
      exact flatMap_congr fun m hm => hmems v.visible hn m (hok.left m hm)
    rw [hver v.visible hn k, hsrc]
    exact hok.holds k
  · rw [hscan] at hdone
    rw [hver n (by rw [hdone]; rfl) k]
    exact h.result start stop n out hdone k h1 h2

/-- Steps of a writer: it has items left, so its number is above that of the scan. -/
lemma ScanInv.write {i : ℕ} {w' : Writer} (hw : s.writers[i]? = some w)
    (hne : w.left ≠ []) (hs : s'.writers = s.writers.set i w') (hseq : w'.seqno = w.seqno)
    (hscan : s'.scan = s.scan) (hcount : s'.engineSeqno = s.engineSeqno)
    (hnext : s'.nextMem = s.nextMem)
    (hmems : ∀ n < w.seqno, ∀ m, ((s'.mems m).entries.filter fun e => decide (e.seqno ≤ n)) =
      (s.mems m).entries.filter fun e => decide (e.seqno ≤ n)) : ScanInv cfg s' := by
  have habove : ∀ n, s.scan.seqno = some n → n < w.seqno := by
    intro n hn
    by_contra hle
    exact hne ((h.finished n hn).2 w (mem_of_getElem? hw) (not_lt.mp hle))
  refine h.frame hscan hcount.ge hnext.ge (fun n hn => ?_) (fun n hn k => ?_)
    fun n hn m _ => hmems n (habove n hn) m
  · rw [hs]
    refine forall_mem_set (h.finished n hn).2 fun hle => ?_
    exact absurd (habove n hn) (not_lt.mpr (hseq ▸ hle))
  · have hgt := not_le.mpr (habove n hn)
    unfold versions
    rw [hs, map_set_of_eq hw]
    rw [if_neg (hseq ▸ hgt), if_neg hgt]

/-- **Load.** The super-version has what the batches up to the number wrote. -/
theorem ScanInv.load (hinv : HeapInv s) (hdist : Layered Distinct s)
    (hb : BatchInv s) (hscan : s.scan = .seqnoLoaded start stop n) :
    ScanInv cfg { s with
      scan := .reading start stop n s.tree.current.version []
        (s.tree.current.active :: s.tree.current.sealed) } := by
  have hfin := h.finished n (by rw [hscan]; rfl)
  have hlive : (s.tree.current.active :: s.tree.current.sealed).Perm s.live.reverse := by
    simp only [HeapState.live, reverse_append]
    exact (reverse_perm _).symm.cons _
  refine ⟨fun m hm => ?_, fun v hv => ?_, fun _ _ _ _ h => by cases h⟩
  · cases hm
    exact hfin
  · cases hv
    refine ⟨fun t ht => hinv.version.sorted_of_mem ht, hinv.exact, fun m hm => ?_, fun k => ?_⟩
    · exact hinv.fresh m (mem_reverse.mp (hlive.subset hm))
    · -- the memtables in another order, cut off before the key is picked
      have hrun : s.sv.run.Perm (((s.tree.current.active :: s.tree.current.sealed).flatMap
          fun m => (s.mems m).entries) ++ s.tree.current.version.run) := by
        rw [s.run_eq]
        exact (hlive.symm.flatMap_right _).append_right _
      refine List.Perm.trans ?_ (perm_versions hinv hdist hb hfin.2 k)
      rw [withKey, filter_comm]
      exact ((hrun.symm.filter _).filter _)

/-- **Read.** A memtable moves from what is left to what is read. -/
theorem ScanInv.read {version : Version} {read : List Memtable} {mem : ℕ}
    {left : List ℕ} (hscan : s.scan = .reading start stop n version read (mem :: left)) :
    ScanInv cfg { s with
      scan := .reading start stop n version (read ++ [s.mems mem]) left } := by
  have hok := h.view ⟨start, stop, n, version, read, mem :: left⟩ (by rw [hscan]; rfl)
  refine ⟨fun m hm => ?_, fun v hv => ?_, nofun⟩
  · cases hm
    exact h.finished n (by rw [hscan]; rfl)
  · cases hv
    refine ⟨hok.sorted, hok.exact, fun m hm => hok.left m (.tail _ hm), fun k => ?_⟩
    have hsrc : HeapView.sources ⟨start, stop, n, version, read ++ [s.mems mem], left⟩ s.mems =
        HeapView.sources ⟨start, stop, n, version, read, mem :: left⟩ s.mems := by
      simp [HeapView.sources]
    rw [hsrc]
    exact hok.holds k

/-- **Finish.** The merge yields what the batches wrote. -/
theorem ScanInv.finish (hb : BatchInv s) {version : Version}
    {active : Memtable} {sealed : List Memtable}
    (hscan : s.scan = .reading start stop n version (active :: sealed) []) :
    ScanInv cfg { s with
      scan := .done start stop n
        ((SuperVersion.mk active sealed version).scan cfg (.closed start stop) n) } := by
  have hok := h.view ⟨start, stop, n, version, active :: sealed, []⟩ (by rw [hscan]; rfl)
  refine ⟨fun m hm => ?_, nofun, fun start' stop' n' out hdone k h1 h2 => ?_⟩
  · cases hm
    exact h.finished n (by rw [hscan]; rfl)
  · obtain ⟨rfl, rfl, rfl, rfl⟩ := HeapScan.done.inj hdone
    have hacc : (ScanRange.closed start stop).accept k = true := by simp [ScanRange.closed, h1, h2]
    have htables : ∀ t ∈ (SuperVersion.mk active sealed version).version.allTables,
        SortedLE t.entries := hok.sorted
    obtain ⟨run, hperm, hsorted, hout⟩ := withKey_scan cfg
      (fun t ht => ScanRange.closed_exact (htables t ht) (hok.exact t ht)) htables n hacc
    have hkey : ∀ e ∈ run, e.key = k := fun e he => (mem_chain.mp (hperm.subset he)).2
    -- cut off at the number, the merged run is the list of versions
    have hcut : (run.filter fun e => decide (e.seqno ≤ n)) = s.versions n k := by
      refine (hb.seqDesc_versions n k).eq_of_perm ?_ (hsorted.filter _)
      refine List.Perm.trans (hperm.filter _) (List.Perm.trans ?_ (hok.holds k))
      rw [withKey, filter_comm]
      refine (List.Perm.filter _ ?_).filter _
      simp only [HeapView.sources, flatMap_cons, append_assoc]
      exact (((reverse_perm sealed).flatMap_right _).append_right _).append_left _
    rw [hout, ← mvccRun_filter hkey, hcut]
    rfl

end

/-! ### Whole runs -/

/-- The steps that load the number of a scan. -/
def HeapLabel.isScan : HeapLabel → Bool
  | .scan _ _ => true
  | _ => false

/-- There are only commits. Inserts go to live memtables that are not written out, and no
other layer has their key and number. When a scan loads its number, no batch up to it has
items left. -/
abbrev ScanGuard (cfg : TreeConfig) (s : HeapState) (l : HeapLabel) : Prop :=
  l.isDirect = false ∧ HeapGuard cfg s l ∧ (∀ p ∈ s.putOf l, s.Fits Distinct p.1 p.2) ∧
    (l.isScan = true → ∀ w ∈ s.writers, w.seqno ≤ s.tree.seqno → w.left = [])

/-- **Step.** Every guarded step keeps the view of the scan. -/
theorem scanInv_step {s : HeapState} (hinv : HeapInv s) (hdist : Layered Distinct s)
    (hb : BatchInv s) (h : ScanInv cfg s) (hok : ScanGuard cfg s l) (hstep : HeapStep cfg s l s') :
    ScanInv cfg s' := by
  -- the steps that touch no memtable and no writer
  have hquiet : ∀ (tree : Tree ℕ) (flush : HeapFlush),
      ScanInv cfg { s with tree := tree, flush := flush } := fun tree flush =>
    h.frame rfl le_rfl le_rfl (fun n hn => (h.finished n hn).2)
      (fun _ _ _ => rfl) fun _ _ _ _ => rfl
  cases hstep with
  | quiet => exact h
  | direct _ item hl => exact absurd (hl.symm.trans hok.1) (by simp)
  | commit items =>
    -- a fresh number is above the number of the scan
    refine h.frame rfl (Nat.le_succ _) le_rfl (fun n hn => ?_) (fun n hn k => ?_) fun _ _ _ _ => rfl
    · refine forall_mem_concat (h.finished n hn).2 fun hle => ?_
      exact absurd (hle.trans (h.finished n hn).1) (Nat.not_succ_le_self _)
    · have hgt : ¬ s.engineSeqno + 1 ≤ n := fun hle =>
        absurd (hle.trans (h.finished n hn).1) (Nat.not_succ_le_self _)
      simp [versions, startCommit, hgt]
  | raise i w hw hphase hne | load i w hw hphase hne =>
    exact h.write hw hne rfl rfl rfl rfl rfl fun _ _ _ => rfl
  | put i w hw mem hphase item left hleft =>
    refine h.write hw (by simp [hleft]) rfl rfl rfl rfl rfl fun n hn m => ?_
    change ((update s.mems mem _ m).entries.filter _) = _
    by_cases hm : m = mem
    · rw [hm, update_self]
      exact filter_insertEntry hn _
    · rw [update_of_ne hm]
  | sealActive hne =>
    refine h.frame rfl le_rfl (Nat.le_succ _) (fun n hn => (h.finished n hn).2)
      (fun _ _ _ => rfl) fun n hn m hm => ?_
    change ((update s.mems s.nextMem _ m).entries.filter _) = _
    rw [update_of_ne hm.ne]
  | snapshot | readOut | install | flag | persist | advance => exact hquiet _ _
  | scan start stop =>
    refine ⟨fun n hn => ?_, nofun, nofun⟩
    cases hn
    exact ⟨hb.counter, hok.2.2.2 rfl⟩
  | scanStep _ hnext =>
    unfold scanStep at hnext
    split at hnext
    · next hscan =>
      cases hnext
      exact h.load hinv hdist hb hscan
    · next hscan =>
      cases hnext
      exact h.read hscan
    · next hscan =>
      cases hnext
      exact h.finish hb hscan
    · cases hnext
    · cases hnext
    · cases hnext

/-- Everything that holds along a guarded run. -/
structure SnapshotInv (cfg : TreeConfig) (s : HeapState) : Prop where
  heap : HeapInv s
  layers : Layered Distinct s
  batches : BatchInv s
  scan : ScanInv cfg s

lemma snapshotInv_reach (hbloom : cfg.sstable.BloomSound) {s : HeapState}
    (h : (heapSys cfg).Reach (ScanGuard cfg) s) : SnapshotInv cfg s := by
  refine h.invariant (SnapshotInv cfg) ?_ fun s l s' hs hok hnext => ?_
  · exact ⟨heapInv_init cfg, layered_init _ cfg,
      ⟨le_rfl, List.Pairwise.nil, nofun, nofun, nofun⟩, ⟨nofun, nofun, nofun⟩⟩
  · have hstep := heapStep_of_next hnext
    exact ⟨heapInv_step hbloom hs.heap hok.2.1 hstep,
      layered_step hs.heap hs.layers hok.2.2.1 hstep, batchInv_step hs.batches hok.1 hstep,
      scanInv_step hs.heap hs.layers hs.batches hs.scan hok hstep⟩

/-- A batch moves a record from one key to another: the record is at the old key just
before the batch, and whatever else writes the two keys does so before the batch and
before the number of the scan. -/
structure HeapState.Moves (s : HeapState) (visible : ℕ) (w : Writer) (old new : Key) : Prop where
  mem : w ∈ s.writers
  removes : ∃ x, w.last old = some x ∧ x.isValue = false
  adds : ∃ y, w.last new = some y ∧ y.isValue = true
  others : ∀ u ∈ s.writers, ∀ k, k = old ∨ k = new → u.last k ≠ none →
    u.seqno = w.seqno ∨ (u.seqno < w.seqno ∧ u.seqno ≤ visible)
  old_live : (s.versions (w.seqno - 1) old).head?.any isValue = true
  new_dead : (s.versions (w.seqno - 1) new).head?.any isValue = false

section

variable {cfg : TreeConfig} {s : HeapState}

lemma HeapState.mvccRun_versions (hown : owned cfg.mergeOperator k = false) :
    mvccRun n cfg.mergeOperator (s.versions n k) = (s.versions n k).head? := by
  have hlast : ∀ e ∈ s.versions n k, e.seqno ≤ n ∧ e.key = k := by
    intro e he
    obtain ⟨w, -, hle, hlast⟩ := mem_versions.mp he
    exact ⟨(last_eq_some hlast).1 ▸ hle, (last_eq_some hlast).2⟩
  rw [mvccRun_of_not_owned (fun e he => (hlast e he).2) hown]
  cases hv : s.versions n k with
  | nil => rfl
  | cons e l =>
    rw [find?_cons_of_pos (by simpa using (hlast e (by simp [hv])).1)]
    rfl

lemma BatchInv.head?_versions (hb : BatchInv s) {x : Entry} (hw : w ∈ s.writers)
    (hle : w.seqno ≤ n) (hlast : w.last k = some x)
    (hothers : ∀ u ∈ s.writers, u.last k ≠ none → u.seqno ≤ w.seqno) :
    (s.versions n k).head? = some x := by
  refine (hb.seqDesc_versions n k).head?_eq_some
    (mem_versions.mpr ⟨w, hw, hle, hlast⟩) fun y hy => ?_
  obtain ⟨u, hu, -, hy⟩ := mem_versions.mp hy
  rw [(last_eq_some hy).1, (last_eq_some hlast).1]
  exact hothers u hu (by simp [hy])

end

/-- **Scans see whole batches.** When a scan of a guarded run is done, it yields for every
key of its range what the batches up to its number stand for, and nothing of any other
batch. So of a record that one batch moves it yields the old place or the new one, and
never both or neither. -/
theorem scan_sees_batches {cfg : TreeConfig} (hbloom : cfg.sstable.BloomSound) {s : HeapState}
    (h : (heapSys cfg).Reach (ScanGuard cfg) s) {start stop : Key} {visible : ℕ}
    {out : List Entry} (hdone : s.scan = .done start stop visible out) :
    (∀ k, start ≤ k → k ≤ stop → withKey key k out =
      ((mvccRun visible cfg.mergeOperator (s.versions visible k)).filter isValue).toList) ∧
    (∀ w ∈ s.writers, w.seqno ≤ visible → w.left = []) ∧
    ∀ w old new, s.Moves visible w old new → start ≤ old → old ≤ stop → start ≤ new → new ≤ stop →
      owned cfg.mergeOperator old = false → owned cfg.mergeOperator new = false →
      (withKey key old out).length + (withKey key new out).length = 1 := by
  have hinv := snapshotInv_reach hbloom h
  have hresult := hinv.scan.result start stop visible out hdone
  refine ⟨hresult, (hinv.scan.finished visible (by rw [hdone]; rfl)).2,
    fun w old new hmove h1 h2 h3 h4 hold hnew => ?_⟩
  rw [hresult old h1 h2, hresult new h3 h4, mvccRun_versions hold, mvccRun_versions hnew]
  by_cases hle : w.seqno ≤ visible
  · -- the scan sees the batch: the tombstone at the old key and the value at the new one
    obtain ⟨x, hx, hxv⟩ := hmove.removes
    obtain ⟨y, hy, hyv⟩ := hmove.adds
    have hlast : ∀ k, k = old ∨ k = new → ∀ u ∈ s.writers, u.last k ≠ none →
        u.seqno ≤ w.seqno := fun k hk u hu hne =>
      (hmove.others u hu k hk hne).elim le_of_eq fun h => h.1.le
    rw [hinv.batches.head?_versions hmove.mem hle hx (hlast old (.inl rfl)),
      hinv.batches.head?_versions hmove.mem hle hy (hlast new (.inr rfl))]
    simp [Option.filter, hxv, hyv]
  · -- it does not: both keys read as just before the batch
    have hbefore : ∀ k, k = old ∨ k = new → s.versions visible k = s.versions (w.seqno - 1) k := by
      intro k hk
      refine versions_congr fun u hu hne => ?_
      rcases hmove.others u hu k hk hne with heq | ⟨hlt, hvis⟩
      · omega
      · omega
    have hone := hmove.old_live
    have hnone := hmove.new_dead
    rw [← hbefore old (.inl rfl)] at hone
    rw [← hbefore new (.inr rfl)] at hnone
    cases ho : (s.versions visible old).head? with
    | none => simp [ho] at hone
    | some x =>
      have hxv : x.isValue = true := by simpa [ho] using hone
      cases hn : (s.versions visible new).head? with
      | none => simp [Option.filter, hxv]
      | some y =>
        have hyv : y.isValue = false := by simpa [hn] using hnone
        simp [Option.filter, hxv, hyv]

/-- A record is moved while it is scanned: the tombstone is in, the value is not. -/
def scanDuringMove : List HeapLabel :=
  [.commit [([1], [5], .value)], .write 0, .write 0, .write 0,
    .commit [([1], [], .tombstone), ([2], [5], .value)], .write 1, .write 1, .write 1,
    .scan [0] [9], .scanStep, .scanStep, .scanStep]

theorem scan_misses_record : ∃ s, (heapSys (smallConfig none 4096)).Reach
    (fun _ l => l.isDirect = false) s ∧ s.scan = .done [0] [9] 2 [] ∧
      s.versions 2 [2] = [⟨[2], [5], 2, .value⟩] ∧ s.versions 1 [1] = [⟨[1], [5], 1, .value⟩] := by
  obtain ⟨s, hs⟩ : ∃ s, (heapSys (smallConfig none 4096)).runWith
      (fun _ l => l.isDirect = false) (heapSys (smallConfig none 4096)).init scanDuringMove =
        some s := ⟨_, rfl⟩
  refine ⟨s, TransSys.reach_of_runWith hs, ?_⟩
  cases hs
  exact ⟨rfl, by decide +kernel, by decide +kernel⟩

/-- The same scan after the move, with a third batch going on beside it. -/
theorem scan_sees_batches_moved : ∃ s, (heapSys (smallConfig none 4096)).Reach
    (ScanGuard (smallConfig none 4096)) s ∧
      s.scan = .done [0] [9] 2 [⟨[2], [5], 2, .value⟩] ∧ s.writers.length = 3 ∧
      withKey key [2] [⟨[2], [5], 2, .value⟩] =
        ((mvccRun 2 none (s.versions 2 [2])).filter isValue).toList := by
  obtain ⟨s, hs⟩ : ∃ s, (heapSys (smallConfig none 4096)).runWith
      (ScanGuard (smallConfig none 4096)) (heapSys (smallConfig none 4096)).init
      [.commit [([1], [5], .value)], .write 0, .write 0, .write 0,
        .commit [([1], [], .tombstone), ([2], [5], .value)], .write 1, .write 1, .write 1,
        .write 1, .write 1, .write 1, .commit [([3], [6], .value)], .scan [0] [9], .write 2,
        .write 2, .scanStep, .write 2, .scanStep, .scanStep] = some s := ⟨_, rfl⟩
  have hreach := TransSys.reach_of_runWith hs
  have hdone : s.scan = .done [0] [9] 2 [⟨[2], [5], 2, .value⟩] := by
    cases hs
    rfl
  refine ⟨s, hreach, hdone, ?_,
    (scan_sees_batches (fun _ _ _ => rfl) hreach hdone).1 [2] (by decide) (by decide)⟩
  cases hs
  rfl

end XyzDB
