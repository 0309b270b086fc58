import XyzDB.Turba.Stream

/-!
# Entries that are not read

A scan and a compaction merge sorted sources and keep something of the run of each key. When
part of the entries is not read, what comes out of the rest is in general something else: an
older version, or a key that was deleted.

`Superseded` says when it is the same. A value that is not read must have a newer version beside
it. A tombstone that is not read must not let a value come up that it hides. Of a key whose
versions are folded, nothing may be missing above a tombstone that is read. For keys that are
not folded this is exact (`values_eq_iff`, `compacted_eq_iff`); for the others it is enough.
-/

namespace XyzDB

open KeyRuns List Entry

/-- No internal key stands for two different entries. Repetitions of one entry are allowed: a
journal that is replayed over flushed tables leaves them. -/
def CopiesAgree (l : List Entry) : Prop :=
  ∀ a ∈ l, ∀ b ∈ l, a.key = b.key → a.seqno = b.seqno → a = b

instance (l : List Entry) : Decidable (CopiesAgree l) :=
  inferInstanceAs (Decidable (∀ a ∈ l, ∀ b ∈ l, _))

/-- What is not read of `all` makes no difference to a reader that drops tombstones, or that
keeps them (`drops`). -/
def Superseded (drops : Bool) (op : Option MergeOperator) (read all : List Entry) : Prop :=
  ∀ e ∈ all, e ∉ read →
    if owned op e.key then
      ∃ x ∈ read, x.key = e.key ∧ x.isValue = false ∧ e.seqno < x.seqno
    else if e.isValue || !drops then ∃ x ∈ all, x.key = e.key ∧ e.seqno < x.seqno
    else ∀ d ∈ read, d.key = e.key → d.isValue = true → d.seqno < e.seqno →
      ∃ x ∈ read, x.key = e.key ∧ d.seqno < x.seqno

instance (drops : Bool) (op : Option MergeOperator) (read all : List Entry) :
    Decidable (Superseded drops op read all) := by
  unfold Superseded
  infer_instance

/-! ### Repeated versions -/

section

variable {run : List Entry} {last : Option ℕ}

lemma distinctSeqnos_sublist (last : Option ℕ) (run : List Entry) :
    (distinctSeqnos last run).Sublist run := by
  induction run generalizing last with
  | nil => exact .slnil
  | cons e run ih =>
    rw [distinctSeqnos]
    split
    · exact (ih _).cons e
    · exact (ih _).cons_cons e

lemma distinctSeqnos_seqDesc (hrun : run.Pairwise fun a b => b.seqno ≤ a.seqno)
    (hlast : ∀ s ∈ last, ∀ e ∈ run, e.seqno ≤ s) : SeqDesc (distinctSeqnos last run) ∧
      ∀ s ∈ last, ∀ e ∈ distinctSeqnos last run, e.seqno < s := by
  induction run generalizing last with
  | nil => exact ⟨.nil, fun _ _ _ h => by cases h⟩
  | cons e run ih =>
    obtain ⟨he, hrun⟩ := pairwise_cons.mp hrun
    rw [distinctSeqnos]
    split
    · exact ih hrun fun s hs x hx => hlast s hs x (.tail _ hx)
    · next hne =>
      obtain ⟨hdesc, hlt⟩ := @ih (some e.seqno) hrun fun s hs x hx => by
        cases hs
        exact he x hx
      refine ⟨pairwise_cons.mpr ⟨hlt e.seqno rfl, hdesc⟩, fun s hs x hx => ?_⟩
      have hes : e.seqno < s := lt_of_le_of_ne (hlast s hs e (by simp)) fun h => hne (h ▸ hs)
      rcases mem_cons.mp hx with rfl | hx
      · exact hes
      · exact (hlt e.seqno rfl x hx).trans hes

lemma exists_distinctSeqnos {e : Entry} (he : e ∈ run) :
    last = some e.seqno ∨ ∃ x ∈ distinctSeqnos last run, x.seqno = e.seqno := by
  induction run generalizing last with
  | nil => cases he
  | cons a run ih =>
    rw [distinctSeqnos]
    split
    · next ha =>
      rcases mem_cons.mp he with rfl | he
      · exact .inl ha
      · exact ih he
    · rcases mem_cons.mp he with rfl | he
      · exact .inr ⟨e, by simp, rfl⟩
      · rcases @ih (some a.seqno) he with h | ⟨x, hx, hxe⟩
        · exact .inr ⟨a, by simp, by simpa using h⟩
        · exact .inr ⟨x, .tail _ hx, hxe⟩

/-- The fold loop of a reader sees each version once. -/
lemma visibleDeltas_distinct {v : ℕ} (hvis : ∀ e ∈ run, e.seqno ≤ v) :
    visibleDeltas v last run = ((distinctSeqnos last run).takeWhile isValue,
      (distinctSeqnos last run).find? fun e => !e.isValue) := by
  induction run generalizing last with
  | nil => rfl
  | cons e run ih =>
    have ih := fun last => @ih last fun x hx => hvis x (.tail _ hx)
    rw [visibleDeltas, if_neg (not_lt.mpr (hvis e (by simp))), distinctSeqnos]
    split
    · exact ih last
    · cases hv : e.isValue with
      | false => simp [not_isValue.mpr hv, hv]
      | true =>
        have htomb : ¬ e.valueType = .tombstone := by simp [not_isValue, hv]
        simp [htomb, hv, ih]

/-- Where copies agree, repetitions can be dropped before the run is cut at its first
tombstone. -/
lemma distinctSeqnos_takeWhile (hcopies : ∀ a ∈ run, ∀ b ∈ run, a.seqno = b.seqno → a = b)
    (hlast : ∀ e ∈ run, last = some e.seqno → e.isValue = true) :
    distinctSeqnos last (run.takeWhile isValue) = (distinctSeqnos last run).takeWhile isValue ∧
      (run.find? fun e => !e.isValue) = (distinctSeqnos last run).find? fun e => !e.isValue := by
  induction run generalizing last with
  | nil => exact ⟨rfl, rfl⟩
  | cons e run ih =>
    have hcopies' : ∀ a ∈ run, ∀ b ∈ run, a.seqno = b.seqno → a = b :=
      fun a ha b hb => hcopies a (.tail _ ha) b (.tail _ hb)
    cases hv : e.isValue with
    | false =>
      have hne : ¬ last = some e.seqno := fun h => by simp [hlast e (by simp) h] at hv
      simp [distinctSeqnos, hv, hne]
    | true =>
      rw [takeWhile_cons_of_pos hv, find?_cons_of_neg (by simp [hv])]
      simp only [distinctSeqnos]
      split
      · exact ih hcopies' fun x hx => hlast x (.tail _ hx)
      · obtain ⟨htake, hfind⟩ := @ih (some e.seqno) hcopies' fun x hx hxe => by
          rw [← hcopies e (by simp) x (.tail _ hx) (by simpa using hxe)]
          exact hv
        rw [htake, hfind, takeWhile_cons_of_pos hv, find?_cons_of_neg (by simp [hv])]
        exact ⟨rfl, rfl⟩

end

/-! ### One key -/

section

variable {R R₀ : List Entry} (hsub : R ⊆ R₀)
  (hcopies : ∀ a ∈ R₀, ∀ b ∈ R₀, a.seqno = b.seqno → a = b)

include hsub

/-- Two descending runs that differ below a tombstone only are the same above it. -/
lemma takeWhile_of_missing (hR : SeqDesc R) (hR₀ : SeqDesc R₀)
    (hmissing : ∀ e ∈ R₀, e ∉ R → ∃ x ∈ R, x.isValue = false ∧ e.seqno < x.seqno) :
    R.takeWhile isValue = R₀.takeWhile isValue ∧
      (R.find? fun e => !e.isValue) = R₀.find? fun e => !e.isValue := by
  induction R₀ generalizing R with
  | nil => rw [subset_nil.mp hsub]; exact ⟨rfl, rfl⟩
  | cons e R₀ ih =>
    obtain ⟨he, hR₀⟩ := pairwise_cons.mp hR₀
    have hmem : e ∈ R := by
      by_contra hno
      obtain ⟨x, hx, -, hlt⟩ := hmissing e (by simp) hno
      rcases mem_cons.mp (hsub hx) with rfl | hx'
      · exact hno hx
      · have := he x hx'
        omega
    -- so both runs start with `e`
    obtain ⟨R, rfl⟩ : ∃ R', R = e :: R' := by
      cases R with
      | nil => cases hmem
      | cons a R' =>
        rcases mem_cons.mp hmem with rfl | hmem
        · exact ⟨R', rfl⟩
        · have h1 := (pairwise_cons.mp hR).1 e hmem
          rcases mem_cons.mp (hsub (by simp : a ∈ a :: R')) with rfl | ha
          · exact ⟨R', rfl⟩
          · have := he a ha
            omega
    obtain ⟨heR, hR⟩ := pairwise_cons.mp hR
    cases hv : e.isValue with
    | false => simp [hv]
    | true =>
      have hsub' : R ⊆ R₀ := fun x hx => by
        rcases mem_cons.mp (hsub (.tail _ hx)) with rfl | h
        · exact absurd (heR x hx) (lt_irrefl _)
        · exact h
      obtain ⟨htake, hfind⟩ := ih hsub' hR hR₀ fun x hx hno => by
        obtain ⟨y, hy, hyv, hlt⟩ := hmissing x (.tail _ hx) fun h => by
          rcases mem_cons.mp h with rfl | h
          · exact absurd (he x hx) (lt_irrefl _)
          · exact hno h
        rcases mem_cons.mp hy with rfl | hy
        · simp [hv] at hyv
        · exact ⟨y, hy, hyv, hlt⟩
      simp [hv, htake, hfind]

variable (hR : R.Pairwise fun a b => b.seqno ≤ a.seqno)
  (hR₀ : R₀.Pairwise fun a b => b.seqno ≤ a.seqno)

include hcopies hR hR₀

/-- The newest version is read iff what is not read is older than something. -/
lemma head?_eq_iff : R.head? = R₀.head? ↔
    ∀ e ∈ R₀, e ∉ R → ∃ x ∈ R₀, e.seqno < x.seqno := by
  cases R₀ with
  | nil => simp [subset_nil.mp hsub]
  | cons a R₀ =>
    have hmax : ∀ x ∈ a :: R₀, x.seqno ≤ a.seqno := fun x hx => by
      rcases mem_cons.mp hx with rfl | hx
      · exact le_rfl
      · exact (pairwise_cons.mp hR₀).1 x hx
    constructor
    · intro hhead e he hno
      have ha : a ∈ R := mem_of_mem_head? hhead
      refine ⟨a, by simp, lt_of_le_of_ne (hmax e he) fun hs => hno ?_⟩
      rwa [hcopies e he a (by simp) hs]
    · intro hnewer
      have ha : a ∈ R := by
        by_contra hno
        obtain ⟨x, hx, hlt⟩ := hnewer a (by simp) hno
        have := hmax x hx
        omega
      cases R with
      | nil => cases ha
      | cons d R =>
        have hda : a.seqno ≤ d.seqno := by
          rcases mem_cons.mp ha with rfl | ha
          · exact le_rfl
          · exact (pairwise_cons.mp hR).1 a ha
        have hd : d ∈ a :: R₀ := hsub (by simp)
        rw [head?_cons, head?_cons, hcopies d hd a (by simp) ((hmax d hd).antisymm hda)]

/-- The newest version is the same, or a tombstone hides what a tombstone or nothing hides, iff
what is not read makes no difference. -/
lemma value_eq_iff : R.head?.filter isValue = R₀.head?.filter isValue ↔
    ∀ e ∈ R₀, e ∉ R → if e.isValue then ∃ x ∈ R₀, e.seqno < x.seqno
      else ∀ d ∈ R, d.isValue = true → d.seqno < e.seqno → ∃ x ∈ R, d.seqno < x.seqno := by
  cases R₀ with
  | nil => simp [subset_nil.mp hsub]
  | cons a R₀ =>
    have hmax : ∀ x ∈ a :: R₀, x.seqno ≤ a.seqno := fun x hx => by
      rcases mem_cons.mp hx with rfl | hx
      · exact le_rfl
      · exact (pairwise_cons.mp hR₀).1 x hx
    have hlt : ∀ x ∈ a :: R₀, x ≠ a → x.seqno < a.seqno := fun x hx hne =>
      lt_of_le_of_ne (hmax x hx) fun hs => hne (hcopies x hx a (by simp) hs)
    by_cases ha : a ∈ R
    · -- the newest version is read
      have hhead : R.head? = some a := (head?_eq_iff hsub hcopies hR hR₀).mpr fun e he hno =>
        ⟨a, by simp, hlt e he fun h => hno (h ▸ ha)⟩
      rw [hhead, head?_cons, eq_self, true_iff]
      intro e he hno
      have hea := hlt e he fun h => hno (h ▸ ha)
      split
      · exact ⟨a, by simp, hea⟩
      · exact fun d hd _ hde => ⟨a, ha, hde.trans hea⟩
    · cases hv : a.isValue with
      | true =>
        -- a value that is lost and that nothing hides
        have hne : R.head?.filter isValue ≠ (a :: R₀).head?.filter isValue := by
          rw [head?_cons, Option.filter_some, if_pos hv]
          intro h
          exact ha (mem_of_mem_head? (Option.eq_some_of_filter_eq_some h))
        refine iff_of_false hne fun h => ?_
        have := h a (by simp) ha
        rw [if_pos hv] at this
        obtain ⟨x, hx, hax⟩ := this
        have := hmax x hx
        omega
      | false =>
        rw [head?_cons, Option.filter_some, if_neg (by simp [hv])]
        constructor
        · -- a tombstone is lost, and no value comes up
          intro h e he hno
          split
          · next hev => exact ⟨a, by simp, hlt e he fun h' => by simp [h', hv] at hev⟩
          · intro d hd hdv hde
            cases R with
            | nil => cases hd
            | cons b R =>
              have hbv : b.isValue = false := by simpa [Option.filter_some] using h
              rcases mem_cons.mp hd with rfl | hd'
              · simp [hbv] at hdv
              · refine ⟨b, by simp, lt_of_le_of_ne ((pairwise_cons.mp hR).1 d hd') fun hs => ?_⟩
                have := hcopies d (hsub hd) b (hsub (by simp)) hs
                simp [this, hbv] at hdv
        · intro h
          cases R with
          | nil => rfl
          | cons b R =>
            rw [head?_cons, Option.filter_some, if_neg]
            intro hbv
            have hab := h a (by simp) ha
            rw [if_neg (by simp [hv])] at hab
            obtain ⟨x, hx, hbx⟩ := hab b (by simp) hbv
              (hlt b (hsub (by simp)) fun h' => ha (h' ▸ by simp))
            rcases mem_cons.mp hx with rfl | hx
            · exact lt_irrefl _ hbx
            · have := (pairwise_cons.mp hR).1 x hx
              omega

end

/-- `Superseded` key by key. -/
lemma superseded_iff {drops : Bool} {op : Option MergeOperator} {read all : List Entry} :
    Superseded drops op read all ↔ ∀ k, ∀ e ∈ withKey key k all, e ∉ withKey key k read →
      if owned op k then ∃ x ∈ withKey key k read, x.isValue = false ∧ e.seqno < x.seqno
      else if e.isValue || !drops then ∃ x ∈ withKey key k all, e.seqno < x.seqno
      else ∀ d ∈ withKey key k read, d.isValue = true → d.seqno < e.seqno →
        ∃ x ∈ withKey key k read, d.seqno < x.seqno := by
  simp only [mem_withKey, and_imp, and_assoc]
  constructor
  · rintro h k e he rfl hno
    exact h e he fun hr => hno ⟨hr, rfl⟩
  · intro h e he hno
    exact h e.key e he rfl fun hr => hno hr.1

/-- `Superseded` looks at what the lists hold, not at their order. -/
lemma superseded_congr {drops : Bool} {op : Option MergeOperator} {read all read' all' : List Entry}
    (hread : ∀ e, e ∈ read ↔ e ∈ read') (hall : ∀ e, e ∈ all ↔ e ∈ all') :
    Superseded drops op read all ↔ Superseded drops op read' all' := by
  simp only [Superseded, hread, hall]

section

variable {v : ℕ} {op : Option MergeOperator} {last : Bool} {k : Key} {R R₀ : List Entry}
  (hsub : R ⊆ R₀) (hcopies : ∀ a ∈ R₀, ∀ b ∈ R₀, a.seqno = b.seqno → a = b)
  (hR : R.Pairwise fun a b => b.seqno ≤ a.seqno) (hR₀ : R₀.Pairwise fun a b => b.seqno ≤ a.seqno)
  (hmissing : ∀ e ∈ R₀, e ∉ R → ∃ x ∈ R, x.isValue = false ∧ e.seqno < x.seqno)

include hsub hcopies hR hR₀ hmissing

/-- With repetitions dropped, runs that differ below a tombstone only are the same above it. -/
lemma distinct_of_missing :
    (distinctSeqnos none R).takeWhile isValue = (distinctSeqnos none R₀).takeWhile isValue ∧
      ((distinctSeqnos none R).find? fun e => !e.isValue) =
        (distinctSeqnos none R₀).find? fun e => !e.isValue := by
  have hmem : ∀ {S : List Entry}, S ⊆ R₀ → ∀ e ∈ S, e ∈ distinctSeqnos none S := by
    intro S hS e he
    rcases @exists_distinctSeqnos _ none _ he with h | ⟨x, hx, hxe⟩
    · cases h
    · rwa [← hcopies x (hS ((distinctSeqnos_sublist _ _).subset hx)) e (hS he) hxe]
  refine takeWhile_of_missing (fun e he => ?_) (distinctSeqnos_seqDesc hR (by simp)).1
    (distinctSeqnos_seqDesc hR₀ (by simp)).1 fun e he hno => ?_
  · exact hmem (Subset.refl _) e (hsub ((distinctSeqnos_sublist _ _).subset he))
  · obtain ⟨x, hx, hxv, hlt⟩ := hmissing e ((distinctSeqnos_sublist _ _).subset he)
      fun h => hno (hmem hsub e h)
    exact ⟨x, hmem hsub x hx, hxv, hlt⟩

lemma mvccRun_of_missing (hkey : ∀ e ∈ R₀, e.key = k) (hown : owned op k = true)
    (hvis : ∀ e ∈ R₀, e.seqno ≤ v) : mvccRun v op R = mvccRun v op R₀ := by
  obtain ⟨htake, hfind⟩ := distinct_of_missing hsub hcopies hR hR₀ hmissing
  rw [mvccRun_of_owned (fun e he => hkey e (hsub he)) hown, mvccRun_of_owned hkey hown,
    visibleDeltas_distinct fun e he => hvis e (hsub he), visibleDeltas_distinct hvis, htake, hfind]

lemma compactRun_of_missing (hkey : ∀ e ∈ R₀, e.key = k) (hown : owned op k = true) :
    compactRun last op R = compactRun last op R₀ := by
  obtain ⟨htake, hfind⟩ := distinct_of_missing hsub hcopies hR hR₀ hmissing
  obtain ⟨hcut, hbound⟩ := @distinctSeqnos_takeWhile _ none
    (fun a ha b hb => hcopies a (hsub ha) b (hsub hb)) (by simp)
  obtain ⟨hcut₀, hbound₀⟩ := @distinctSeqnos_takeWhile _ none hcopies (by simp)
  have hhead : R.head? = R₀.head? := (head?_eq_iff hsub hcopies hR hR₀).mpr fun e he hno =>
    let ⟨x, hx, _, hlt⟩ := hmissing e he hno
    ⟨x, hsub hx, hlt⟩
  cases R₀ with
  | nil => rw [subset_nil.mp hsub]
  | cons a R₀ =>
    obtain ⟨R, rfl⟩ : ∃ R', R = a :: R' := by
      cases R with
      | nil => cases hhead
      | cons b R' => exact ⟨R', by simpa using hhead⟩
    have ha : owned op a.key = true := by rwa [hkey a (by simp)]
    have hlive : ((a :: R).takeWhile isValue = []) ↔ ((a :: R₀).takeWhile isValue = []) := by
      cases hv : a.isValue <;> simp [hv]
    simp only [compactRun, if_pos ha, foldedLive, deleteBoundary, hcut, hcut₀, htake,
      hbound, hbound₀, hfind, hlive]

end

/-! ### Streams -/

section

variable {v : ℕ} {op : Option MergeOperator} {last : Bool} {k : Key} {l l₀ : List Entry}
  (hl : SortedLE l) (hl₀ : SortedLE l₀) (hsub : l ⊆ l₀) (hcopies : CopiesAgree l₀)

lemma toList_inj {α : Type} {a b : Option α} : a.toList = b.toList ↔ a = b := by
  cases a <;> cases b <;> simp

/-- What a scan yields for a key. -/
lemma withKey_values (hl : SortedLE l) (v : ℕ) (k : Key) :
    withKey key k ((mvccStream v op l).filter isValue) =
      ((mvccRun v op (withKey key k (l.filter fun e => decide (e.seqno ≤ v)))).filter
        isValue).toList := by
  have hvis : withKey key k (l.filter fun e => decide (e.seqno ≤ v)) =
      (withKey key k l).filter fun e => decide (e.seqno ≤ v) := filter_comm ..
  rw [hvis, mvccRun_filter fun e he => (mem_withKey.mp he).2, withKey, filter_comm]
  change (withKey key k _).filter _ = _
  rw [withKey_mvccStream hl.keySorted]
  cases mvccRun v op _ with
  | none => rfl
  | some e => cases h : e.isValue <;> simp [h, Option.filter]

include hl hl₀

lemma values_eq_iff_keys :
    (mvccStream v op l).filter isValue = (mvccStream v op l₀).filter isValue ↔
    ∀ k, (mvccRun v op (withKey key k (l.filter fun e => decide (e.seqno ≤ v)))).filter isValue =
      (mvccRun v op (withKey key k (l₀.filter fun e => decide (e.seqno ≤ v)))).filter isValue := by
  constructor
  · intro h k
    have := congrArg (withKey key k) h
    rw [withKey_values hl, withKey_values hl₀] at this
    exact toList_inj.mp this
  · intro h
    refine KeySorted.ext ((mvccStream_keySorted hl.keySorted).filter _)
      ((mvccStream_keySorted hl₀.keySorted).filter _) fun k => ?_
    rw [withKey_values hl, withKey_values hl₀, h k]

lemma compacted_eq_iff_keys : compactionStream last op l = compactionStream last op l₀ ↔
    ∀ k, compactRun last op (withKey key k l) = compactRun last op (withKey key k l₀) := by
  constructor
  · intro h k
    rw [← withKey_compactionStream hl.keySorted, ← withKey_compactionStream hl₀.keySorted, h]
  · intro h
    refine KeySorted.ext (compactionStream_sortedLE hl).keySorted
      (compactionStream_sortedLE hl₀).keySorted fun k => ?_
    rw [withKey_compactionStream hl.keySorted, withKey_compactionStream hl₀.keySorted, h k]

include hsub hcopies

/-- The runs of a key in the two streams, as the lemmas on one key need them. -/
lemma runs_of_key (k : Key) : withKey key k l ⊆ withKey key k l₀ ∧
    (∀ a ∈ withKey key k l₀, ∀ b ∈ withKey key k l₀, a.seqno = b.seqno → a = b) ∧
    ((withKey key k l).Pairwise fun a b => b.seqno ≤ a.seqno) ∧
    (withKey key k l₀).Pairwise fun a b => b.seqno ≤ a.seqno := by
  refine ⟨filter_subset _ hsub, fun a ha b hb => ?_, hl.withKey_desc k, hl₀.withKey_desc k⟩
  obtain ⟨ha, hak⟩ := mem_withKey.mp ha
  obtain ⟨hb, hbk⟩ := mem_withKey.mp hb
  exact hcopies a ha b hb (hak.trans hbk.symm)

/-- The newest visible version of a key that is not folded. -/
lemma value_eq_iff_superseded (hown : owned op k = false) :
    ((mvccRun v op (withKey key k (l.filter fun e => decide (e.seqno ≤ v)))).filter isValue =
      (mvccRun v op (withKey key k (l₀.filter fun e => decide (e.seqno ≤ v)))).filter isValue) ↔
    ∀ e ∈ withKey key k (l₀.filter fun e => decide (e.seqno ≤ v)),
      e ∉ withKey key k (l.filter fun e => decide (e.seqno ≤ v)) →
      if e.isValue || !true then
        ∃ x ∈ withKey key k (l₀.filter fun e => decide (e.seqno ≤ v)), e.seqno < x.seqno
      else ∀ d ∈ withKey key k (l.filter fun e => decide (e.seqno ≤ v)), d.isValue = true →
        d.seqno < e.seqno →
          ∃ x ∈ withKey key k (l.filter fun e => decide (e.seqno ≤ v)), d.seqno < x.seqno := by
  have hhead : ∀ m : List Entry, mvccRun v op (withKey key k (m.filter fun e =>
      decide (e.seqno ≤ v))) = (withKey key k (m.filter fun e => decide (e.seqno ≤ v))).head? := by
    intro m
    rw [mvccRun_of_not_owned (fun e he => (mem_withKey.mp he).2) hown, ← head?_filter,
      filter_eq_self.mpr fun e he => (mem_filter.mp (mem_withKey.mp he).1).2]
  obtain ⟨h1, h2, h3, h4⟩ := runs_of_key (hl.filter fun e => decide (e.seqno ≤ v))
    (hl₀.filter fun e => decide (e.seqno ≤ v)) (filter_subset _ hsub)
    (fun a ha b hb => hcopies a (mem_filter.mp ha).1 b (mem_filter.mp hb).1) k
  rw [hhead, hhead, value_eq_iff h1 h2 h3 h4]
  simp only [Bool.not_true, Bool.or_false]

/-- **Scans.** When what is not read is superseded, a scan yields what it yields when all is. -/
theorem values_eq_of_superseded (h : Superseded true op (l.filter fun e => decide (e.seqno ≤ v))
    (l₀.filter fun e => decide (e.seqno ≤ v))) :
    (mvccStream v op l).filter isValue = (mvccStream v op l₀).filter isValue := by
  refine (values_eq_iff_keys hl hl₀).mpr fun k => ?_
  have hk := superseded_iff.mp h k
  cases hown : owned op k with
  | true =>
    obtain ⟨h1, h2, h3, h4⟩ := runs_of_key (hl.filter fun e => decide (e.seqno ≤ v))
      (hl₀.filter fun e => decide (e.seqno ≤ v)) (filter_subset _ hsub)
      (fun a ha b hb => hcopies a (mem_filter.mp ha).1 b (mem_filter.mp hb).1) k
    rw [mvccRun_of_missing h1 h2 h3 h4 (fun e he hno => by simpa [hown] using hk e he hno)
      (fun e he => (mem_withKey.mp he).2) hown
      fun e he => by simpa using (mem_filter.mp (mem_withKey.mp he).1).2]
  | false =>
    refine (value_eq_iff_superseded hl hl₀ hsub hcopies hown).mpr fun e he hno => ?_
    simpa [hown] using hk e he hno

/-- **Scans, exactly.** Without folded keys the converse holds as well. -/
theorem values_eq_iff (hown : ∀ e ∈ l₀, owned op e.key = false) :
    (mvccStream v op l).filter isValue = (mvccStream v op l₀).filter isValue ↔
      Superseded true op (l.filter fun e => decide (e.seqno ≤ v))
        (l₀.filter fun e => decide (e.seqno ≤ v)) := by
  refine ⟨fun h => superseded_iff.mpr fun k e he hno => ?_,
    values_eq_of_superseded hl hl₀ hsub hcopies⟩
  obtain ⟨hmem, hek⟩ := mem_withKey.mp he
  have hk : owned op k = false := hek ▸ hown e (mem_filter.mp hmem).1
  rw [hk, if_neg (by simp)]
  exact (value_eq_iff_superseded hl hl₀ hsub hcopies hk).mp
    ((values_eq_iff_keys hl hl₀).mp h k) e he hno

/-- What a compaction keeps of a key that is not folded. -/
lemma compact_eq_iff_superseded (hown : owned op k = false) :
    compactRun last op (withKey key k l) = compactRun last op (withKey key k l₀) ↔
    ∀ e ∈ withKey key k l₀, e ∉ withKey key k l →
      if e.isValue || !last then ∃ x ∈ withKey key k l₀, e.seqno < x.seqno
      else ∀ d ∈ withKey key k l, d.isValue = true → d.seqno < e.seqno →
        ∃ x ∈ withKey key k l, d.seqno < x.seqno := by
  have hrun : ∀ m : List Entry, compactRun last op (withKey key k m) =
      (if last then (withKey key k m).head?.filter isValue
        else (withKey key k m).head?).toList := by
    intro m
    cases hm : withKey key k m with
    | nil => cases last <;> rfl
    | cons a R =>
      have hak : owned op a.key = false := by
        rwa [(mem_withKey.mp (hm ▸ mem_cons_self : a ∈ withKey key k m)).2]
      cases last <;> cases hv : a.isValue <;> simp [compactRun, hak, hv, Option.filter]
  obtain ⟨h1, h2, h3, h4⟩ := runs_of_key hl hl₀ hsub hcopies k
  rw [hrun, hrun, toList_inj]
  cases last with
  | false => simpa using head?_eq_iff h1 h2 h3 h4
  | true => simpa using value_eq_iff h1 h2 h3 h4

/-- **Compactions.** When what is not read is superseded, a compaction keeps what it keeps when all
is read. -/
theorem compacted_eq_of_superseded (h : Superseded last op l l₀) :
    compactionStream last op l = compactionStream last op l₀ := by
  refine (compacted_eq_iff_keys hl hl₀).mpr fun k => ?_
  have hk := superseded_iff.mp h k
  cases hown : owned op k with
  | true =>
    obtain ⟨h1, h2, h3, h4⟩ := runs_of_key hl hl₀ hsub hcopies k
    exact compactRun_of_missing h1 h2 h3 h4 (fun e he hno => by simpa [hown] using hk e he hno)
      (fun e he => (mem_withKey.mp he).2) hown
  | false =>
    refine (compact_eq_iff_superseded hl hl₀ hsub hcopies hown).mpr fun e he hno => ?_
    simpa [hown] using hk e he hno

/-- **Compactions, exactly.** Without folded keys the converse holds as well. -/
theorem compacted_eq_iff (hown : ∀ e ∈ l₀, owned op e.key = false) :
    compactionStream last op l = compactionStream last op l₀ ↔ Superseded last op l l₀ := by
  refine ⟨fun h => superseded_iff.mpr fun k e he hno => ?_,
    compacted_eq_of_superseded hl hl₀ hsub hcopies⟩
  obtain ⟨hmem, hek⟩ := mem_withKey.mp he
  have hk : owned op k = false := hek ▸ hown e hmem
  rw [hk, if_neg (by simp)]
  exact (compact_eq_iff_superseded hl hl₀ hsub hcopies hk).mp
    ((compacted_eq_iff_keys hl hl₀).mp h k)
    e he hno

end

end XyzDB
