import XyzDB.Lib.KMerge
import XyzDB.Turba.Types

/-!
# Merging, visibility and compaction streams

The iterator pipeline every scan and every compaction runs through.

* `mergeIterator` (`merge.rs`) merges the sorted sources by internal key.
* `mvccStream` (`mvcc.rs`) reduces the run of each key to what a reader at a given
  sequence number sees of it.
* `compactionStream` (`compaction/stream.rs`) reduces the run of each key to what has
  to be kept of it on disk.

Both streams treat the keys a merge operator owns specially: their versions are
deltas, folded down to the first tombstone.

The second half of the file says what a chain of versions *means*: `chainValue`
is the value a newest-first chain stands for. A reader of the whole chain gets it
(`mvccRun_live`), and replacing a segment of the chain by its compaction keeps it
(`chainValue_compactRun`).
-/

namespace XyzDB

open KeyRuns List Entry

variable {op : Option MergeOperator} {e : Entry} {l : List Entry} {v : ℕ}

/-- A per-key merge operator (`merge_op.rs`). -/
structure MergeOperator where
  /-- Whether the operator combines the values of a key. -/
  owns : Key → Bool
  /-- Combine an owned key's values, given newest first. -/
  merge : Key → List Value → Value

section

variable (op : Option MergeOperator)

/-- Whether a key is owned by the operator, if one is set. -/
def owned (k : Key) : Bool := op.any fun o => o.owns k

/-- The values of an owned key combined. -/
def foldValues (k : Key) (vs : List Value) : Value :=
  match op with
  | some o => o.merge k vs
  | none => []

/-- Which of several equal heap items is popped, from the sources the merge was
started with and those remaining. -/
abbrev HeapOrder := List (List Entry) → List (List Entry) → ℕ

/-- `MergeIterator`: pop the least internal key until the sources run dry. -/
def mergeIterator (heap : HeapOrder) (sources : List (List Entry)) : List Entry :=
  KMerge.kmerge le (heap sources) sources

/-- The fold loop of `MvccStream::next` over the run of an owned key. Returns the
live versions that were pushed and the tombstone that ended the loop. -/
def visibleDeltas (visibleSeqno : ℕ) : Option ℕ → List Entry → List Entry × Option Entry
  | _, [] => ([], none)
  | lastSeqno, e :: run =>
    -- invisible at this snapshot
    if visibleSeqno < e.seqno then visibleDeltas visibleSeqno lastSeqno run
    -- duplicate of a write that was already folded
    else if lastSeqno = some e.seqno then visibleDeltas visibleSeqno lastSeqno run
    -- a delete resets the chain
    else if e.valueType = .tombstone then ([], some e)
    else
      let (live, tomb) := visibleDeltas visibleSeqno (some e.seqno) run
      (e :: live, tomb)

/-- What `MvccStream` yields for the run of one key: an owned key's visible versions
folded, the newest visible version of any other key. -/
def mvccRun (visibleSeqno : ℕ) (op : Option MergeOperator) : List Entry → Option Entry
  | [] => none
  | entry :: rest =>
    if owned op entry.key then
      match visibleDeltas visibleSeqno none (entry :: rest) with
      | (newest :: live, _) =>
        some ⟨entry.key, foldValues op entry.key ((newest :: live).map value), newest.seqno, .value⟩
      | ([], tomb) => tomb
    else (entry :: rest).find? fun e => decide (e.seqno ≤ visibleSeqno)

def mvccStream (visibleSeqno : ℕ) (op : Option MergeOperator) (inner : List Entry) : List Entry :=
  (runs key inner).flatMap fun run => (mvccRun visibleSeqno op run).toList

/-- `MvccStream::next` on a key with no visible version yet: its versions are taken until one is
visible, and those behind it are skipped. -/
def seekVisible (visibleSeqno : ℕ) (currentKey : Key) : List Entry → Option Entry × List Entry
  | [] => (none, [])
  | next :: inner =>
    if next.key = currentKey then
      if next.seqno ≤ visibleSeqno then
        (some next, inner.dropWhile fun p => decide (p.key = currentKey))
      else seekVisible visibleSeqno currentKey inner
    else (none, next :: inner)

lemma seekVisible_eq (v : ℕ) (k : Key) (l : List Entry) : seekVisible v k l =
    ((l.takeWhile fun e => decide (e.key = k)).find? fun e => decide (e.seqno ≤ v),
      l.dropWhile fun e => decide (e.key = k)) := by
  induction l with
  | nil => rfl
  | cons e l ih =>
    by_cases hk : e.key = k
    · by_cases hv : e.seqno ≤ v
      · simp [seekVisible, hk, hv]
      · simp [seekVisible, hk, hv, ih]
    · simp [seekVisible, hk]

/-- `MvccStream::next` without a merge operator: the entry, and what is left of the stream. -/
def mvccNext (visibleSeqno : ℕ) : List Entry → Option (Entry × List Entry)
  | [] => none
  | entry :: inner =>
    if entry.seqno ≤ visibleSeqno then
      some (entry, inner.dropWhile fun p => decide (p.key = entry.key))
    else
      match _h : seekVisible visibleSeqno entry.key inner with
      | (some next, left) => some (next, left)
      | (none, left) => mvccNext visibleSeqno left
termination_by inner => inner.length
decreasing_by
  rw [seekVisible_eq] at _h
  rw [← (Prod.mk.inj _h).2]
  exact Nat.lt_succ_of_le (length_dropWhile_le ..)

/-- The versions of a run with adjacent duplicates of a sequence number skipped. -/
def distinctSeqnos : Option ℕ → List Entry → List Entry
  | _, [] => []
  | lastSeqno, e :: run =>
    if lastSeqno = some e.seqno then distinctSeqnos lastSeqno run
    else e :: distinctSeqnos (some e.seqno) run

/-- Whether an entry carries a value. -/
def Entry.isValue (e : Entry) : Bool := decide (e.valueType = .value)

/-- The live deltas of an owned run folded into one entry under the newest
sequence number. -/
def foldedLive (entry : Entry) (run : List Entry) : List Entry :=
  let live := run.takeWhile isValue
  if live = [] then []
  else [⟨entry.key, foldValues op entry.key ((distinctSeqnos none live).map value),
    entry.seqno, .value⟩]

/-- The tombstone that ends the live deltas of an owned run, kept so that lower
levels stay shadowed; the last level has nothing below it. -/
def deleteBoundary (isLastLevel : Bool) (run : List Entry) : List Entry :=
  match run.find? fun e => !e.isValue with
  | some tomb => if isLastLevel then [] else [tomb]
  | none => []

/-- What `CompactionStream` keeps of the run of one key: an owned key's folded
deltas and their boundary; of any other key the newest version, unless it is a
tombstone at the last level. -/
def compactRun (isLastLevel : Bool) (op : Option MergeOperator) : List Entry → List Entry
  | [] => []
  | entry :: rest =>
    if owned op entry.key then
      foldedLive op entry (entry :: rest) ++ deleteBoundary isLastLevel (entry :: rest)
    else if isLastLevel && !entry.isValue then []
    else [entry]

def compactionStream (isLastLevel : Bool) (op : Option MergeOperator) (inner : List Entry) :
    List Entry :=
  (runs key inner).flatMap (compactRun isLastLevel op)

lemma mergeIterator_perm (heap : HeapOrder) (sources : List (List Entry)) :
    (mergeIterator heap sources).Perm sources.flatten :=
  KMerge.kmerge_perm le_total le_trans sources

lemma mergeIterator_sorted {heap : HeapOrder} {sources : List (List Entry)}
    (h : ∀ s ∈ sources, SortedLE s) : SortedLE (mergeIterator heap sources) :=
  KMerge.kmerge_sorted le_trans h

/-- When the versions of a key descend in the order the sources are listed, the
merge presents them in that order. -/
lemma mergeIterator_withKey {heap : HeapOrder} {sources : List (List Entry)}
    (h : ∀ s ∈ sources, SortedLE s) {chain : List Entry} (hchain : SeqDesc chain)
    (hperm : (withKey key k sources.flatten).Perm chain) :
    withKey key k (mergeIterator heap sources) = chain := by
  refine hchain.eq_of_perm ?_ ((mergeIterator_sorted h).withKey_desc k)
  exact ((mergeIterator_perm heap sources).filter _).trans hperm

/-- The fold of an owned key's live deltas; nothing when there are none. -/
def foldDeltas (k : Key) (live : List Entry) : Option Value :=
  if live = [] then none else some (foldValues op k (live.map value))

/-- The value a newest-first chain of versions of `k` stands for: the newest
version, or for an owned key the deltas above the first tombstone, folded. -/
def chainValue (k : Key) (chain : List Entry) : Option Value :=
  if owned op k then foldDeltas op k (chain.takeWhile isValue)
  else chain.head?.bind live

lemma chainValue_none (k : Key) (chain : List Entry) :
    chainValue none k chain = chain.head?.bind live := rfl

/-- The operator's merge is the fold of an associative and commutative `combine`. -/
structure MergeOperator.AssocComm (o : MergeOperator)
    (combine : Key → Value → Value → Value) : Prop where
  merge_cons : ∀ k v vs, o.owns k = true → o.merge k (v :: vs) = vs.foldl (combine k) v
  assoc : ∀ k a b c, combine k (combine k a b) c = combine k a (combine k b c)
  comm : ∀ k a b, combine k a b = combine k b a

/-- Keep the largest value of each key that starts with `R`. -/
def maxOp : MergeOperator where
  owns k := decide (k.head? = some 82)
  merge _ vs :=
    match vs with
    | [] => []
    | v :: vs => vs.foldl max v

lemma maxOp_assocComm : maxOp.AssocComm fun _ => max :=
  ⟨fun _ _ _ _ => rfl, fun _ a b c => max_assoc a b c, fun _ a b => max_comm a b⟩

/-- Folding a segment of an owned key's values first does not change their fold. -/
def FoldsSegments : Prop :=
  ∀ k, owned op k = true → ∀ A S B : List Value, S ≠ [] →
    foldValues op k (A ++ foldValues op k S :: B) = foldValues op k (A ++ (S ++ B))

end

lemma foldsSegments_none : FoldsSegments none := by
  intro k h
  simp [owned] at h

lemma MergeOperator.AssocComm.foldsSegments {o : MergeOperator}
    {combine : Key → Value → Value → Value} (h : o.AssocComm combine) : FoldsSegments (some o) := by
  intro k hk A S B hS
  obtain ⟨s, S, rfl⟩ := exists_cons_of_ne_nil hS
  have hassoc : Std.Associative (combine k) := ⟨h.assoc k⟩
  simp only [foldValues]
  cases A with
  | nil => simp [h.merge_cons k _ _ hk]
  | cons a A =>
    simp only [cons_append, h.merge_cons k _ _ hk, foldl_append, foldl_cons]
    -- `combine (fold A) (fold S)` regroups into one fold
    conv_rhs => rw [foldl_assoc]

/-! ### Reading a chain -/

section

variable {op : Option MergeOperator} {k : Key} {run : List Entry}

lemma takeWhile_isValue_ne_nil (h : e.isValue = true) : (e :: l).takeWhile isValue ≠ [] := by
  simp [h]

lemma not_isValue : e.valueType = .tombstone ↔ e.isValue = false := by
  unfold isValue
  cases e.valueType <;> simp

lemma live_of_isValue (h : e.isValue = true) : e.live = some e.value := by
  unfold isValue at h
  unfold live
  cases hv : e.valueType <;> simp_all

lemma live_of_not_isValue (h : e.isValue = false) : e.live = none := by
  unfold isValue at h
  unfold live
  cases hv : e.valueType <;> simp_all

/-- On a descending, fully visible run the fold loop takes the values above the
first tombstone and stops there. -/
lemma visibleDeltas_eq (hdesc : SeqDesc run) (hvis : ∀ e ∈ run, e.seqno ≤ v) {last : Option ℕ}
    (hlast : ∀ s ∈ last, ∀ e ∈ run, e.seqno < s) :
    visibleDeltas v last run = (run.takeWhile isValue, run.find? fun e => !e.isValue) := by
  induction run generalizing last with
  | nil => rfl
  | cons e run ih =>
    obtain ⟨he, hdesc⟩ := pairwise_cons.mp hdesc
    have h1 : ¬ v < e.seqno := not_lt.mpr (hvis e (by simp))
    have h2 : last ≠ some e.seqno := by
      intro h
      exact lt_irrefl _ (hlast e.seqno h e (by simp))
    rw [visibleDeltas, if_neg h1, if_neg h2]
    by_cases hv : e.isValue = true
    · have h3 : ¬ e.valueType = .tombstone := by simp [not_isValue, hv]
      have hlast' : ∀ s ∈ some e.seqno, ∀ x ∈ run, x.seqno < s := by
        intro s hs x hx
        cases hs
        exact he x hx
      rw [if_neg h3, ih hdesc (fun x hx => hvis x (by simp [hx])) hlast',
        takeWhile_cons_of_pos hv, find?_cons_of_neg (by simp [hv])]
    · have hv : e.isValue = false := by simpa using hv
      rw [if_pos (not_isValue.mpr hv), takeWhile_cons_of_neg (by simp [hv]),
        find?_cons_of_pos (by simp [hv])]

lemma distinctSeqnos_eq (hdesc : SeqDesc run) {last : Option ℕ}
    (hlast : ∀ s ∈ last, ∀ e ∈ run, e.seqno < s) : distinctSeqnos last run = run := by
  induction run generalizing last with
  | nil => rfl
  | cons e run ih =>
    obtain ⟨he, hdesc⟩ := pairwise_cons.mp hdesc
    have h : last ≠ some e.seqno := by
      intro h
      exact lt_irrefl _ (hlast e.seqno h e (by simp))
    rw [distinctSeqnos, if_neg h, ih hdesc]
    intro s hs x hx
    cases hs
    exact he x hx

section

variable (hkey : ∀ e ∈ run, e.key = k)

include hkey

/-- **Reading.** A reader at or above every sequence number of a descending run
gets the value the run stands for. -/
theorem mvccRun_live (hdesc : SeqDesc run)
    (hvis : ∀ e ∈ run, e.seqno ≤ v) : (mvccRun v op run).bind Entry.live = chainValue op k run := by
  cases run with
  | nil => simp [mvccRun, chainValue, foldDeltas]
  | cons e rest =>
    have hek : e.key = k := hkey e (by simp)
    simp only [mvccRun, chainValue, foldDeltas, hek]
    split
    · rw [visibleDeltas_eq hdesc hvis (by simp)]
      cases hlive : (e :: rest).takeWhile Entry.isValue with
      | nil =>
        -- the newest version is a tombstone
        have hv : e.isValue = false := by
          by_contra h
          exact takeWhile_isValue_ne_nil (by simpa using h) hlive
        simp [hv, live_of_not_isValue]
      | cons a live => simp [Entry.live]
    · rw [find?_cons_of_pos (by simpa using hvis e (by simp))]
      rfl

lemma mvccRun_of_not_owned (hown : owned op k = false) :
    mvccRun v op run = run.find? fun e => decide (e.seqno ≤ v) := by
  cases run with
  | nil => rfl
  | cons e rest => rw [mvccRun, hkey e (by simp), hown, if_neg (by simp)]

lemma mvccRun_of_owned (hown : owned op k = true) :
    mvccRun v op run = match visibleDeltas v none run with
      | (newest :: live, _) =>
        some ⟨k, foldValues op k ((newest :: live).map value), newest.seqno, .value⟩
      | ([], tomb) => tomb := by
  cases run with
  | nil => rfl
  | cons e rest => rw [mvccRun, hkey e (by simp), if_pos hown]

end

lemma visibleDeltas_filter (v : ℕ) (last : Option ℕ) (run : List Entry) :
    visibleDeltas v last (run.filter fun e => decide (e.seqno ≤ v)) = visibleDeltas v last run := by
  induction run generalizing last with
  | nil => rfl
  | cons e run ih =>
    by_cases he : e.seqno ≤ v
    · rw [filter_cons_of_pos (by simpa using he)]
      simp only [visibleDeltas, ih]
    · rw [filter_cons_of_neg (by simpa using he), ih, visibleDeltas, if_pos (by omega)]

lemma mvccRun_filter (hkey : ∀ e ∈ run, e.key = k) :
    mvccRun v op (run.filter fun e => decide (e.seqno ≤ v)) = mvccRun v op run := by
  have hkey' : ∀ e ∈ run.filter fun e => decide (e.seqno ≤ v), e.key = k :=
    fun e he => hkey e (mem_filter.mp he).1
  cases hown : owned op k with
  | false =>
    rw [mvccRun_of_not_owned hkey' hown, mvccRun_of_not_owned hkey hown]
    simp
  | true => rw [mvccRun_of_owned hkey' hown, mvccRun_of_owned hkey hown, visibleDeltas_filter]

lemma visibleDeltas_snd_mem {last : Option ℕ} {tomb : Entry}
    (h : (visibleDeltas v last run).2 = some tomb) : tomb ∈ run := by
  induction run generalizing last with
  | nil => simp [visibleDeltas] at h
  | cons e run ih =>
    rw [visibleDeltas] at h
    split at h
    · exact .tail _ (ih h)
    · split at h
      · exact .tail _ (ih h)
      · split at h
        · simp only [Option.some.injEq] at h
          simp [h]
        · exact .tail _ (ih h)

lemma keepsKey_mvccRun (v : ℕ) (op : Option MergeOperator) :
    KeepsKey key key fun run => (mvccRun v op run).toList := by
  refine ⟨rfl, fun k run hrun e he => ?_⟩
  have he : mvccRun v op run = some e := by simpa using he
  cases run with
  | nil => cases he
  | cons a rest =>
    simp only [mvccRun] at he
    split at he
    · split at he
      · cases he
        exact hrun a (by simp)
      · next heq => exact hrun e (visibleDeltas_snd_mem (by rw [heq]; exact he))
    · exact hrun e (mem_of_find?_eq_some he)

end

variable {a : Entry} {B : List Entry}

section

variable {op : Option MergeOperator} {k : Key} {last : Bool} {seg : List Entry}

lemma deleteBoundary_subset (he : e ∈ deleteBoundary last seg) :
    e ∈ seg ∧ e.isValue = false ∧ last = false := by
  unfold deleteBoundary at he
  split at he
  · next tomb hfind =>
    split at he
    · cases he
    · next hlast =>
      obtain rfl := mem_singleton.mp he
      exact ⟨mem_of_find?_eq_some hfind, by simpa using find?_some hfind, by simpa using hlast⟩
  · cases he

lemma deleteBoundary_cons_value (hv : a.isValue = true) :
    deleteBoundary last (a :: seg) = deleteBoundary last seg := by
  simp [deleteBoundary, hv]

lemma compactRun_owned_value (ho : owned op a.key = true) (hv : a.isValue = true) :
    compactRun last op (a :: seg) = ⟨a.key, foldValues op a.key ((distinctSeqnos none
        ((a :: seg).takeWhile isValue)).map value), a.seqno, .value⟩ ::
        deleteBoundary last seg := by
  rw [compactRun, if_pos ho, deleteBoundary_cons_value hv, foldedLive,
    if_neg (takeWhile_isValue_ne_nil hv)]
  rfl

lemma compactRun_owned_tombstone (ho : owned op a.key = true) (hv : a.isValue = false) :
    compactRun last op (a :: seg) = if last then [] else [a] := by
  rw [compactRun, if_pos ho, foldedLive, takeWhile_cons_of_neg (by simp [hv]),
    deleteBoundary, find?_cons_of_pos (by simp [hv])]
  rfl

lemma compactRun_none_subset : compactRun last none seg ⊆ seg := by
  cases seg with
  | nil => exact .refl _
  | cons a seg =>
    rw [compactRun, if_neg (by simp [owned])]
    split
    · exact nil_subset _
    · exact cons_subset_cons a (nil_subset _)

lemma compactRun_key (hkey : ∀ e ∈ seg, e.key = k) : ∀ e ∈ compactRun last op seg, e.key = k := by
  intro e he
  cases seg with
  | nil => cases he
  | cons a rest =>
    rw [compactRun] at he
    split at he
    · rcases mem_append.mp he with he | he
      · simp only [foldedLive] at he
        split at he
        · cases he
        · obtain rfl := mem_singleton.mp he
          exact hkey a (by simp)
      · exact hkey e (deleteBoundary_subset he).1
    · split at he
      · cases he
      · obtain rfl := mem_singleton.mp he
        exact hkey e (by simp)

/-- The same version of a key; without a merge operator, the same entry. -/
def Entry.SameVersion (op : Option MergeOperator) (x e : Entry) : Prop :=
  x.key = e.key ∧ x.seqno = e.seqno ∧ (op = none → x = e)

lemma Entry.SameVersion.refl (op : Option MergeOperator) (e : Entry) : e.SameVersion op e :=
  ⟨rfl, rfl, fun _ => rfl⟩

lemma Entry.SameVersion.trans {x y z : Entry} (h : x.SameVersion op y)
    (h' : y.SameVersion op z) : x.SameVersion op z :=
  ⟨h.1.trans h'.1, h.2.1.trans h'.2.1, fun hop => (h.2.2 hop).trans (h'.2.2 hop)⟩

lemma exists_of_mem_compactRun (he : e ∈ compactRun last op seg) :
    ∃ x ∈ seg, x.SameVersion op e := by
  cases seg with
  | nil => cases he
  | cons a rest =>
    rw [compactRun] at he
    split at he
    · next ho =>
      rcases mem_append.mp he with he | he
      · -- the folded entry stands under the newest number
        simp only [foldedLive] at he
        split at he
        · cases he
        · obtain rfl := mem_singleton.mp he
          refine ⟨a, mem_cons_self, rfl, rfl, fun hop => ?_⟩
          rw [hop] at ho
          cases ho
      · exact ⟨e, (deleteBoundary_subset he).1, .refl op e⟩
    · split at he
      · cases he
      · obtain rfl := mem_singleton.mp he
        exact ⟨e, mem_cons_self, .refl op e⟩

lemma keepsKey_compactRun (last : Bool) (op : Option MergeOperator) :
    KeepsKey key key (compactRun last op) :=
  ⟨rfl, fun _ _ hkey => compactRun_key hkey⟩

lemma deleteBoundary_seqno_sublist :
    ((deleteBoundary last seg).map seqno).Sublist (seg.map seqno) := by
  unfold deleteBoundary
  split
  · next tomb hfind =>
    split
    · exact nil_sublist _
    · exact singleton_sublist.mpr (mem_map.mpr ⟨tomb, mem_of_find?_eq_some hfind, rfl⟩)
  · exact nil_sublist _

lemma compactRun_seqno_sublist : ((compactRun last op seg).map seqno).Sublist (seg.map seqno) := by
  cases seg with
  | nil => exact List.Sublist.refl _
  | cons a rest =>
    by_cases ho : owned op a.key = true
    · cases hv : a.isValue with
      | true =>
        rw [compactRun_owned_value ho hv]
        exact List.Sublist.cons_cons _ deleteBoundary_seqno_sublist
      | false =>
        rw [compactRun_owned_tombstone ho hv]
        cases last <;> simp
    · rw [compactRun, if_neg ho]
      split <;> simp

/-- A second entry kept for one key is the tombstone that ends an owned key's
deltas. -/
lemma compactRun_second (hkey : ∀ e ∈ seg, e.key = k) {b : Entry}
    (h : [a, b].Sublist (compactRun last op seg)) : owned op k = true ∧ b.isValue = false := by
  cases seg with
  | nil => cases h
  | cons c rest =>
    have hck : c.key = k := hkey c (by simp)
    by_cases ho : owned op c.key = true
    · refine ⟨hck ▸ ho, ?_⟩
      cases hv : c.isValue with
      | true =>
        rw [compactRun_owned_value ho hv] at h
        have hb : b ∈ deleteBoundary last rest := by
          cases h with
          | cons _ h => exact h.subset (by simp)
          | cons_cons _ h => exact singleton_sublist.mp h
        exact (deleteBoundary_subset hb).2.1
      | false =>
        rw [compactRun_owned_tombstone ho hv] at h
        have hlen := h.length_le
        split at hlen <;> simp at hlen
    · rw [compactRun, if_neg ho] at h
      have hlen := h.length_le
      split at hlen <;> simp at hlen

/-- The live prefix of a segment in context: what the boundary that compaction
keeps stops is what the segment itself stops. -/
lemma takeWhile_deleteBoundary (hlast : last = true → B = []) :
    (seg ++ B).takeWhile isValue = seg.takeWhile isValue ++
        (deleteBoundary last seg ++ B).takeWhile isValue := by
  unfold deleteBoundary
  cases hfind : seg.find? fun e => !e.isValue with
  | none =>
    have hall : ∀ e ∈ seg, e.isValue = true := by simpa using hfind
    rw [takeWhile_append_of_pos hall, takeWhile_eq_self_iff.mpr hall]
    rfl
  | some tomb =>
    have htomb : tomb.isValue = false := by simpa using find?_some hfind
    have hshort : (seg.takeWhile isValue).length ≠ seg.length := by
      intro h
      have hself : seg.takeWhile isValue = seg :=
        (takeWhile_sublist _).eq_of_length h
      have := takeWhile_eq_self_iff.mp hself tomb (mem_of_find?_eq_some hfind)
      simp [htomb] at this
    rw [takeWhile_append, if_neg hshort]
    cases last with
    | true => simp [hlast rfl]
    | false => simp [htomb]

/-- **Compacting.** Replacing a segment of a chain by its compaction keeps the
value the chain stands for. At the last level nothing may follow the segment. -/
theorem chainValue_compactRun (hop : FoldsSegments op) {A : List Entry}
    (hkey : ∀ e ∈ seg, e.key = k) (hdesc : SeqDesc seg) (hlast : last = true → B = []) :
    chainValue op k (A ++ (compactRun last op seg ++ B)) = chainValue op k (A ++ (seg ++ B)) := by
  cases seg with
  | nil => rfl
  | cons a rest =>
    have hak : a.key = k := hkey a (by simp)
    unfold chainValue
    by_cases ho : owned op k = true
    · rw [if_pos ho, if_pos ho]
      have hoa : owned op a.key = true := by rw [hak]; exact ho
      by_cases hA : ∀ e ∈ A, e.isValue = true
      · rw [takeWhile_append_of_pos hA, takeWhile_append_of_pos hA]
        cases hv : a.isValue with
        | true =>
          have hseg : (a :: rest ++ B).takeWhile isValue = _ :=
            takeWhile_deleteBoundary hlast
          rw [deleteBoundary_cons_value hv] at hseg
          have hlive : SeqDesc ((a :: rest).takeWhile isValue) :=
            hdesc.sublist (takeWhile_sublist _)
          rw [hseg, compactRun_owned_value hoa hv, distinctSeqnos_eq hlive (by simp), hak,
            cons_append, takeWhile_cons_of_pos (by simp [isValue])]
          have hne : ((a :: rest).takeWhile isValue).map value ≠ [] := by simp [hv]
          rw [foldDeltas, if_neg (by simp), foldDeltas, if_neg (by simp [hv])]
          simp only [map_append, map_cons]
          rw [hop k ho _ _ _ hne]
        | false =>
          rw [compactRun_owned_tombstone hoa hv]
          cases last with
          | true => simp [hlast rfl, hv]
          | false => simp [hv]
      · -- a tombstone in `A` hides the segment
        have hhide : ∀ X, (A ++ X).takeWhile isValue = A.takeWhile isValue := by
          intro X
          rw [takeWhile_append, if_neg]
          intro hlen
          exact hA (takeWhile_eq_self_iff.mp ((takeWhile_sublist _).eq_of_length hlen))
        rw [hhide, hhide]
    · have hoa : ¬ owned op a.key = true := by rw [hak]; exact ho
      rw [if_neg ho, if_neg ho, compactRun, if_neg hoa]
      cases A with
      | cons b A => rfl
      | nil =>
        split
        · next h =>
          -- a tombstone dropped at the last level was shadowing nothing
          obtain ⟨hl, hv⟩ : last = true ∧ a.isValue = false := by simpa using h
          simp [hlast hl, live_of_not_isValue hv]
        · rfl

lemma seqDesc_iff_map : SeqDesc l ↔ (l.map seqno).Pairwise fun a b => b < a := by
  rw [SeqDesc, pairwise_map]

lemma seqDesc_compactRun {A : List Entry} (h : SeqDesc (A ++ (seg ++ B))) :
    SeqDesc (A ++ (compactRun last op seg ++ B)) := by
  rw [seqDesc_iff_map] at h ⊢
  simp only [map_append] at h ⊢
  exact h.sublist ((compactRun_seqno_sublist.append_right _).append_left _)

end

/-! ### The streams, key by key -/

lemma withKey_compactionStream (h : KeySorted key l) (k : Key) :
    withKey key k (compactionStream last op l) = compactRun last op (withKey key k l) :=
  filter_flatMap_runs (keepsKey_compactRun last op) h k

lemma withKey_mvccStream (h : KeySorted key l) (k : Key) :
    withKey key k (mvccStream v op l) = (mvccRun v op (withKey key k l)).toList :=
  filter_flatMap_runs (keepsKey_mvccRun v op) h k

lemma compactionStream_sortedLE (h : SortedLE l) : SortedLE (compactionStream last op l) := by
  refine sortedLE_of_keySorted (sorted_flatMap_runs (keepsKey_compactRun last op) h.keySorted)
    fun k => ?_
  rw [withKey_compactionStream h.keySorted, ← pairwise_map (R := fun a b => b ≤ a)]
  refine List.Pairwise.sublist compactRun_seqno_sublist ?_
  exact pairwise_map.mpr (h.withKey_desc k)

lemma mvccStream_keySorted (h : KeySorted key l) : KeySorted key (mvccStream v op l) :=
  sorted_flatMap_runs (keepsKey_mvccRun v op) h

@[simp] lemma mvccRun_none (run : List Entry) :
    mvccRun v none run = run.find? fun e => decide (e.seqno ≤ v) := by
  cases run <;> rfl

lemma mvccStream_cons (v : ℕ) (e : Entry) (l : List Entry) : mvccStream v none (e :: l) =
    ((e :: l.takeWhile fun p => decide (p.key = e.key)).find? fun e =>
      decide (e.seqno ≤ v)).toList ++
      mvccStream v none (l.dropWhile fun p => decide (p.key = e.key)) := by
  rw [mvccStream, runs_eq_cons, flatMap_cons, mvccRun_none, mvccStream]
  congr!

/-- **The stream is what its calls return**, until there is none. -/
lemma mvccStream_eq_next (v : ℕ) (l : List Entry) : mvccStream v none l =
    ((mvccNext v l).map fun r => r.1 :: mvccStream v none r.2).getD [] := by
  fun_induction mvccNext v l with
  | case1 => rfl
  | case2 entry inner hv => simp [mvccStream_cons, hv]
  | case3 entry inner hv next left h =>
    rw [seekVisible_eq] at h
    obtain ⟨hfind, rfl⟩ := Prod.mk.inj h
    simp [mvccStream_cons, hv, hfind]
  | case4 entry inner hv left h ih =>
    rw [seekVisible_eq] at h
    obtain ⟨hfind, rfl⟩ := Prod.mk.inj h
    simp [mvccStream_cons, hv, hfind, ih]

/-- The stream yields a key at most once. -/
lemma mvccStream_ascending (h : KeySorted key l) :
    (mvccStream v op l).Pairwise fun a b => a.key < b.key := by
  refine pairwise_iff_forall_sublist.mpr fun {a b} hab => ?_
  refine lt_of_le_of_ne (pairwise_iff_forall_sublist.mp (mvccStream_keySorted h) hab) fun heq => ?_
  -- two entries of one key would both come from the one its run is reduced to
  have hlen : (withKey key a.key [a, b]).length ≤ (withKey key a.key (mvccStream v op l)).length :=
    (hab.filter _).length_le
  rw [withKey_mvccStream h, withKey_eq_self (by simp [heq])] at hlen
  exact absurd (hlen.trans Option.length_toList_le) (by simp)

lemma mem_mvccStream (h : KeySorted key l) {k : Key} : e ∈ mvccStream v none l ∧ e.key = k ↔
      (withKey key k l).find? (fun e => decide (e.seqno ≤ v)) = some e := by
  refine mem_withKey.symm.trans ?_
  rw [withKey_mvccStream h, mvccRun_none, Option.mem_toList]

/-- **The merge and its view.** -/
theorem merged_view_newest_visible (heap : HeapOrder) (sources : List (List Entry))
    (h : ∀ s ∈ sources, SortedLE s) :
    (mergeIterator heap sources).Perm sources.flatten ∧ SortedLE (mergeIterator heap sources) ∧
      ∀ v, let view := mvccStream v none (mergeIterator heap sources)
        (∀ l, mvccStream v none l =
          ((mvccNext v l).map fun r => r.1 :: mvccStream v none r.2).getD []) ∧
        (view.Pairwise fun a b => a.key < b.key) ∧
        (∀ e ∈ view, e ∈ sources.flatten ∧ e.seqno ≤ v ∧
          ∀ x ∈ sources.flatten, x.key = e.key → x.seqno ≤ v → x.seqno ≤ e.seqno) ∧
        ∀ x ∈ sources.flatten, x.seqno ≤ v → ∃ e ∈ view, e.key = x.key := by
  have hperm := mergeIterator_perm heap sources
  have hsorted : SortedLE (mergeIterator heap sources) := mergeIterator_sorted h
  refine ⟨hperm, hsorted, fun v => ⟨mvccStream_eq_next v, mvccStream_ascending hsorted.keySorted,
    fun e he => ?_, fun x hx hv => ?_⟩⟩
  · have hfind := (mem_mvccStream hsorted.keySorted).mp ⟨he, rfl⟩
    have hmem := mem_of_find?_eq_some hfind
    refine ⟨hperm.subset (mem_withKey.mp hmem).1, by simpa using find?_some hfind, ?_⟩
    intro x hx hkey hv
    -- the versions in front of the entry are newer and not visible
    obtain ⟨-, newer, older, hrun, hnewer⟩ := find?_eq_some_iff_append.mp hfind
    have hdesc := hsorted.withKey_desc e.key
    have hx' : x ∈ withKey key e.key (mergeIterator heap sources) :=
      mem_withKey.mpr ⟨hperm.mem_iff.mpr hx, hkey⟩
    rw [hrun] at hdesc hx'
    rcases mem_append.mp hx' with hx' | hx'
    · exact absurd hv (by simpa using hnewer x hx')
    · rcases mem_cons.mp hx' with rfl | hx'
      · exact le_refl _
      · exact (pairwise_cons.mp (pairwise_append.mp hdesc).2.1).1 x hx'
  · have hx' : x ∈ withKey key x.key (mergeIterator heap sources) :=
      mem_withKey.mpr ⟨hperm.mem_iff.mpr hx, rfl⟩
    have hsome : ((withKey key x.key (mergeIterator heap sources)).find?
        fun e => decide (e.seqno ≤ v)).isSome := find?_isSome.mpr ⟨x, hx', decide_eq_true hv⟩
    obtain ⟨e, hfind⟩ := Option.isSome_iff_exists.mp hsome
    exact ⟨e, (mem_mvccStream hsorted.keySorted).mpr hfind⟩

theorem merged_view_two_sources :
    let sources : List (List Entry) := [[⟨[1], [5], 3, .value⟩], [⟨[1], [4], 1, .value⟩]]
    (∀ s ∈ sources, SortedLE s) ∧
      ∃ e ∈ mvccStream 2 none (mergeIterator (fun _ _ => 0) sources), e.key = [1] :=
  ⟨by decide, ((merged_view_newest_visible _ _ (by decide)).2.2 2).2.2.2 ⟨[1], [4], 1, .value⟩
    (by decide) (by decide)⟩

end XyzDB
