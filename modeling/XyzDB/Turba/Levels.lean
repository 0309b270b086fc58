import XyzDB.Turba.Compaction

/-!
# What applying a compaction does to the levels

A version is read layer by layer, newest first: level `0` from its last table to
its first, then the deeper levels in order. `Version.run` lists all entries in
that order, and the versions of one key along it form the on-disk part of the
key's version chain.

Applying the outputs of a compaction task replaces a contiguous segment of the
chain of each key by what the outputs hold of the key (`chain_applyOutputs`),
and leaves the deep levels disjoint and sorted (`disjoint_applyOutputs`). Both
are proved from the shape every task has and from a handful of facts about the
outputs, collected in `Outputs`.
-/

namespace XyzDB

open List Version Table KeyRuns

namespace Version

open Entry

variable {n : ℕ} {t : Table}

section

variable (v : Version)

/-- The entries of a level in reading order: the newest table of level `0` comes
first. -/
def levelRun (n : ℕ) : List Entry :=
  if n = 0 then (v.level 0).reverse.flatMap entries
  else (v.level n).flatMap entries

/-- All entries on disk in reading order. -/
def run : List Entry := (range maxLevels).flatMap v.levelRun

/-- The versions of a key on disk, in reading order. -/
def chain (k : Key) : List Entry := withKey key k v.run

lemma chain_eq (k : Key) :
    v.chain k = (range maxLevels).flatMap fun n => withKey key k (v.levelRun n) :=
  withKey_flatMap k _ _

lemma levelRun_pos (h : n ≠ 0) : v.levelRun n = (v.level n).flatMap entries := by
  simp [levelRun, h]

end

lemma mem_levelRun {v : Version} {e : Entry} :
    e ∈ v.levelRun n ↔ ∃ t ∈ v.level n, e ∈ t.entries := by
  unfold levelRun
  split
  · next h => subst h; simp
  · simp

lemma mem_run {v : Version} {e : Entry} : e ∈ v.run ↔ ∃ t ∈ v.allTables, e ∈ t.entries := by
  simp only [run, allTables, mem_flatMap, mem_levelRun]
  constructor
  · rintro ⟨n, hn, t, ht, he⟩
    exact ⟨t, ⟨n, hn, ht⟩, he⟩
  · rintro ⟨t, ⟨n, hn, ht⟩, he⟩
    exact ⟨n, hn, t, ht, he⟩

end Version

/-- Two tables with separate key ranges. -/
def Table.Separate (a b : Table) : Prop := a.keyMax < b.keyMin ∨ b.keyMax < a.keyMin

lemma Table.Separate.symm {a b : Table} (h : a.Separate b) : b.Separate a := Or.symm h

lemma Table.Separate.key_ne {a b : Table} (h : a.Separate b) (ha : SortedLE a.entries)
    (hb : SortedLE b.entries) {x y : Entry} (hx : x ∈ a.entries) (hy : y ∈ b.entries) :
    x.key ≠ y.key := by
  intro heq
  have hx1 := keyMin_le ha.keySorted hx
  have hx2 := le_keyMax ha.keySorted hx
  have hy1 := keyMin_le hb.keySorted hy
  have hy2 := le_keyMax hb.keySorted hy
  rcases h with h | h
  · exact absurd (hx2.trans_lt (h.trans_le (heq ▸ hy1))) (lt_irrefl _)
  · exact absurd (hy2.trans_lt (h.trans_le (heq ▸ hx1))) (lt_irrefl _)

/-- The versions of a key in a list of pairwise separate tables do not depend on
the order of the tables. -/
lemma withKey_flatMap_perm {l l' : List Table} (hperm : l.Perm l')
    (hsep : l.Pairwise Separate) (hsorted : ∀ t ∈ l, SortedLE t.entries) (k : Key) :
    withKey Entry.key k (l.flatMap entries) = withKey Entry.key k (l'.flatMap entries) := by
  induction hperm with
  | nil => rfl
  | cons t _ ih =>
    obtain ⟨-, hsep⟩ := pairwise_cons.mp hsep
    simp only [flatMap_cons, withKey_append]
    rw [ih hsep fun u hu => hsorted u (.tail _ hu)]
  | swap t u l =>
    -- one of two separate tables does not hold the key
    simp only [flatMap_cons, withKey_append, ← append_assoc]
    have hut := (pairwise_cons.mp hsep).1 t (by simp)
    by_cases ht : withKey Entry.key k t.entries = []
    · rw [ht, append_nil, nil_append]
    · obtain ⟨x, hx⟩ := exists_mem_of_ne_nil _ ht
      obtain ⟨hx, hxk⟩ := mem_withKey.mp hx
      have hu : withKey Entry.key k u.entries = [] := by
        refine withKey_eq_nil.mpr fun y hy hyk => ?_
        exact hut.key_ne (hsorted u (by simp)) (hsorted t (by simp)) hy hx (hyk.trans hxk.symm)
      rw [hu, append_nil, nil_append]
  | trans h₁ _ ih₁ ih₂ =>
    have hsep' := (h₁.pairwise_iff fun h => h.symm).mp hsep
    rw [ih₁ hsep hsorted, ih₂ hsep' fun t ht => hsorted t (h₁.symm.subset ht)]

lemma Version.Disjoint.separate {v : Version} (hd : v.Disjoint) (h1 : 1 ≤ n) (h7 : n < maxLevels) :
    (v.level n).Pairwise Separate :=
  (hd n h1 h7).imp Or.inl

/-- A list sorted by smallest key whose tables are pairwise separate is a run of
disjoint tables. -/
lemma disjoint_of_sorted {l : List Table} (hsorted : l.Pairwise keyMinLE)
    (hsep : l.Pairwise Separate) (ht : ∀ t ∈ l, t.keyMin ≤ t.keyMax) :
    l.Pairwise fun a b => a.keyMax < b.keyMin := by
  refine pairwise_iff_forall_sublist.mpr fun {a b} hab => ?_
  have hle : a.keyMin ≤ b.keyMin := pairwise_iff_forall_sublist.mp hsorted hab
  rcases pairwise_iff_forall_sublist.mp hsep hab with h | h
  · exact h
  · exact absurd (hle.trans (ht b (hab.subset (by simp)))) (not_le.mpr h)

/-- What the outputs installed for a task have to satisfy. -/
structure Outputs (v : Version) (task : CompactionTask) (outs : List Table) : Prop where
  /-- The outputs have distinct ids. -/
  nodup : (outs.map Table.id).Nodup
  /-- No table that stays carries the id of an output. -/
  fresh : ∀ n < maxLevels, ∀ t ∈ v.level n, t.id ∉ task.inputIds → ∀ o ∈ outs, t.id ≠ o.id
  sorted : ∀ o ∈ outs, SortedLE o.entries
  /-- Every key of an output is a key of an input. -/
  keys : ∀ o ∈ outs, ∀ e ∈ o.entries, ∃ t ∈ task.inputTables, ∃ x ∈ t.entries, x.key = e.key
  separate : outs.Pairwise Separate

section

variable {v : Version} {task : CompactionTask}

section

variable (sh : TaskShape v task)

include sh

lemma TaskShape.target_lt : task.targetLevel < maxLevels := by
  rw [sh.target_eq]
  exact sh.source_lt

lemma TaskShape.source_lt' : task.sourceLevel < maxLevels := by
  have := sh.source_lt
  omega

lemma TaskShape.upper_mem (ht : t ∈ sh.upper) : t ∈ v.level task.sourceLevel := by
  rcases sh.upper_eq with ⟨h0, n, hn⟩ | ⟨-, p, hp, hu⟩
  · rw [hn] at ht
    rw [h0]
    exact mem_of_mem_take ht
  · rw [hu, mem_singleton] at ht
    exact ht ▸ hp

lemma TaskShape.mem_inputs (ht : t ∈ task.inputTables) :
    (t ∈ sh.upper ∧ t ∈ v.level task.sourceLevel) ∨
      (t ∈ v.level task.targetLevel ∧ overlaps t.keyMin t.keyMax sh.range.1 sh.range.2 = true) := by
  rw [sh.inputs_eq] at ht
  rcases mem_append.mp ht with ht | ht
  · exact .inl ⟨ht, sh.upper_mem ht⟩
  · exact .inr (by simpa [overlapping] using ht)

lemma TaskShape.exists_level (ht : t ∈ task.inputTables) : ∃ n < maxLevels, t ∈ v.level n := by
  rcases sh.mem_inputs ht with ⟨-, h⟩ | ⟨h, -⟩
  · exact ⟨_, sh.source_lt', h⟩
  · exact ⟨_, sh.target_lt, h⟩

end

variable (hw : v.WellFormed) (sh : TaskShape v task)

include hw sh

lemma TaskShape.inputs_sorted (ht : t ∈ task.inputTables) : SortedLE t.entries := by
  obtain ⟨n, hn, h⟩ := sh.exists_level ht
  exact hw.sorted n hn t h

lemma TaskShape.mem_inputs_of_id (hn : n < maxLevels) (ht : t ∈ v.level n)
    (hid : t.id ∈ task.inputIds) : t ∈ task.inputTables := by
  obtain ⟨u, hu, hut⟩ := mem_map.mp hid
  obtain ⟨m, hm, hum⟩ := sh.exists_level hu
  exact hw.eq_of_id hn hm ht hum hut.symm ▸ hu

lemma TaskShape.retain_other (hn : n < maxLevels) (hs : n ≠ task.sourceLevel)
    (ht : n ≠ task.targetLevel) : retain task.inputIds (v.level n) = v.level n := by
  refine filter_eq_self.mpr fun t htn => ?_
  have : t.id ∉ task.inputIds := by
    intro hid
    have hin := sh.mem_inputs_of_id hw hn htn hid
    rcases sh.mem_inputs hin with ⟨-, h⟩ | ⟨h, -⟩
    · exact hs (hw.level_eq n hn _ sh.source_lt' t htn t h rfl)
    · exact ht (hw.level_eq n hn _ sh.target_lt t htn t h rfl)
  simpa using this

lemma TaskShape.retain_target : retain task.inputIds (v.level task.targetLevel) =
      (v.level task.targetLevel).filter fun t =>
        !overlaps t.keyMin t.keyMax sh.range.1 sh.range.2 := by
  refine filter_congr fun t ht => ?_
  congr 1
  have hiff : t.id ∈ task.inputIds ↔ overlaps t.keyMin t.keyMax sh.range.1 sh.range.2 = true := by
    constructor
    · intro hid
      rcases sh.mem_inputs (sh.mem_inputs_of_id hw sh.target_lt ht hid) with ⟨-, h⟩ | ⟨-, h⟩
      · have := hw.level_eq _ sh.target_lt _ sh.source_lt' t ht t h rfl
        have := sh.target_eq
        omega
      · exact h
    · intro hov
      refine mem_map.mpr ⟨t, ?_, rfl⟩
      rw [sh.inputs_eq]
      exact mem_append_right _ (mem_filter.mpr ⟨ht, hov⟩)
  rw [Bool.eq_iff_iff, contains_iff_mem, hiff]

/-- In the target level, the tables that stay and the inputs partition the level. -/
lemma TaskShape.target_perm : (v.level task.targetLevel).Perm
      (retain task.inputIds (v.level task.targetLevel) ++
        overlapping (v.level task.targetLevel) sh.range) := by
  rw [sh.retain_target hw]
  refine (perm_append_comm).trans ?_ |>.symm
  exact filter_append_perm _ _

/-- The ids of the tables that stay in the source level, for the two shapes of the
upper inputs. -/
lemma TaskShape.retain_source_zero (h0 : task.sourceLevel = 0)
    (hu : sh.upper = (v.level 0).take n) :
    retain task.inputIds (v.level 0) = (v.level 0).drop n := by
  have hnodup := hw.nodup 0 (by decide)
  conv_lhs => rw [← take_append_drop n (v.level 0)]
  rw [retain, filter_append]
  have htake : ((v.level 0).take n).filter (fun t => !task.inputIds.contains t.id) = [] := by
    refine filter_eq_nil_iff.mpr fun t ht => ?_
    have hin : t.id ∈ task.inputIds := by
      refine mem_map.mpr ⟨t, ?_, rfl⟩
      rw [sh.inputs_eq, hu]
      exact mem_append_left _ ht
    simpa using hin
  have hdrop : ((v.level 0).drop n).filter (fun t => !task.inputIds.contains t.id) =
      (v.level 0).drop n := by
    refine filter_eq_self.mpr fun t ht => ?_
    have hnot : t.id ∉ task.inputIds := by
      intro hid
      have ht0 : t ∈ v.level 0 := mem_of_mem_drop ht
      rcases sh.mem_inputs (sh.mem_inputs_of_id hw (by decide) ht0 hid) with ⟨h, -⟩ | ⟨h, -⟩
      · -- a table cannot be both in the batch and behind it
        rw [hu] at h
        rw [← take_append_drop n (v.level 0), map_append] at hnodup
        exact (nodup_append.mp hnodup).2.2 _ (mem_map_of_mem h) _ (mem_map_of_mem ht) rfl
      · have := hw.level_eq 0 (by decide) _ sh.target_lt t ht0 t h rfl
        have := sh.target_eq
        omega
    simpa using hnot
  rw [htake, hdrop, nil_append]

lemma TaskShape.retain_source_pos {p : Table} (hu : sh.upper = [p]) {l r : List Table}
    (hl : v.level task.sourceLevel = l ++ p :: r) :
    retain task.inputIds (v.level task.sourceLevel) = l ++ r := by
  have hnodup := hw.nodup task.sourceLevel sh.source_lt'
  rw [hl] at hnodup
  have hkeep : ∀ t ∈ l ++ r, t.id ∉ task.inputIds := by
    intro t ht hid
    have hts : t ∈ v.level task.sourceLevel := by
      rw [hl]
      rcases mem_append.mp ht with h | h
      · exact mem_append_left _ h
      · exact mem_append_right _ (.tail _ h)
    rcases sh.mem_inputs (sh.mem_inputs_of_id hw sh.source_lt' hts hid) with ⟨h, -⟩ | ⟨h, -⟩
    · rw [hu, mem_singleton] at h
      subst h
      have hperm : (l ++ t :: r).Perm (t :: (l ++ r)) := perm_middle
      have hnodup' : ((t :: (l ++ r)).map Table.id).Nodup := by
        refine (hperm.map Table.id).nodup_iff.mp ?_
        simpa using hnodup
      rw [map_cons, nodup_cons] at hnodup'
      exact hnodup'.1 (mem_map_of_mem ht)
    · have := hw.level_eq _ sh.source_lt' _ sh.target_lt t hts t h rfl
      have := sh.target_eq
      omega
  have hp : p.id ∈ task.inputIds := by
    refine mem_map.mpr ⟨p, ?_, rfl⟩
    rw [sh.inputs_eq, hu]
    simp
  rw [retain, hl, filter_append, filter_cons_of_neg (by simpa using hp), ← filter_append]
  exact filter_eq_self.mpr fun t ht => by simpa using hkeep t ht

/-- The upper inputs are the oldest part of what the source level holds of a key:
what stays is read before them. -/
lemma TaskShape.source_split (hd : v.Disjoint) (v' : Version)
    (hv' : v'.level task.sourceLevel = Version.retain task.inputIds (v.level task.sourceLevel))
    (k : Key) : withKey Entry.key k (v.levelRun task.sourceLevel) =
      withKey Entry.key k (v'.levelRun task.sourceLevel) ++
        withKey Entry.key k (sh.upper.reverse.flatMap entries) := by
  rcases sh.upper_eq with ⟨h0, n, hu⟩ | ⟨h1, p, hp, hu⟩
  · rw [h0] at hv' ⊢
    rw [sh.retain_source_zero hw h0 hu] at hv'
    rw [Version.levelRun, Version.levelRun, if_pos rfl, if_pos rfl, hv', hu, ← withKey_append,
      ← flatMap_append, ← reverse_append, take_append_drop]
  · obtain ⟨l, r, hl⟩ := append_of_mem hp
    rw [sh.retain_source_pos hw hu hl] at hv'
    rw [v.levelRun_pos (by omega), v'.levelRun_pos (by omega), hv', hu, hl]
    have hsep := hd.separate h1 sh.source_lt'
    rw [hl] at hsep
    have hsorted : ∀ t ∈ l ++ p :: r, SortedLE t.entries := fun t ht =>
      hw.sorted _ sh.source_lt' t (hl ▸ ht)
    have hperm : (l ++ p :: r).Perm ((l ++ r) ++ [p]) :=
      perm_middle.trans (perm_append_singleton p (l ++ r)).symm
    rw [withKey_flatMap_perm hperm hsep hsorted, flatMap_append, withKey_append]
    rfl

/-- A table that stays in the target level lies on one side of all inputs. -/
lemma TaskShape.kept_side (hd : v.Disjoint) {u : Table}
    (hu : u ∈ retain task.inputIds (v.level task.targetLevel)) :
    (∀ t ∈ task.inputTables, u.keyMax < t.keyMin) ∨
      ∀ t ∈ task.inputTables, t.keyMax < u.keyMin := by
  rw [sh.retain_target hw, mem_filter] at hu
  obtain ⟨hu, hnot⟩ := hu
  have h1 : 1 ≤ task.targetLevel := by rw [sh.target_eq]; omega
  have hbound : ∀ t : Table, t ∈ v.level task.targetLevel → t.keyMin ≤ t.keyMax := fun t ht =>
    keyMin_le_keyMax (hw.sorted _ sh.target_lt t ht).keySorted
  have hsep : ∀ t ∈ v.level task.targetLevel, overlaps t.keyMin t.keyMax sh.range.1 sh.range.2
      = true → u.Separate t := by
    intro t ht hov
    have hne : u ≠ t := by
      rintro rfl
      simp [hov] at hnot
    have : Std.Symm Separate := ⟨fun _ _ h => h.symm⟩
    exact (hd.separate h1 sh.target_lt).forall hu ht hne
  have hside : sh.range.2 < u.keyMin ∨ u.keyMax < sh.range.1 := by
    by_contra h
    rw [not_or] at h
    simp [overlaps, h.1, h.2] at hnot
  rcases hside with hside | hside
  · -- beyond the range: everything that meets the range is below
    refine .inr fun t ht => ?_
    rcases sh.mem_inputs ht with ⟨h, -⟩ | ⟨h, hov⟩
    · exact (sh.cover t h).2.trans_lt hside
    · rcases hsep t h hov with h' | h'
      · have : t.keyMin ≤ sh.range.2 := by simpa using (Bool.and_eq_true_iff.mp hov).1
        exact absurd ((hbound u hu).trans_lt (h'.trans_le this)) (not_lt.mpr hside.le)
      · exact h'
  · refine .inl fun t ht => ?_
    rcases sh.mem_inputs ht with ⟨h, -⟩ | ⟨h, hov⟩
    · exact hside.trans_le (sh.cover t h).1
    · rcases hsep t h hov with h' | h'
      · exact h'
      · have : sh.range.1 ≤ t.keyMax := by simpa using (Bool.and_eq_true_iff.mp hov).2
        exact absurd (this.trans_lt (h'.trans_le (hbound u hu))) (not_lt.mpr hside.le)

lemma TaskShape.kept_key_ne (hd : v.Disjoint) {u t : Table}
    (hu : u ∈ retain task.inputIds (v.level task.targetLevel))
    (ht : t ∈ task.inputTables) {x y : Entry} (hx : x ∈ u.entries) (hy : y ∈ t.entries) :
    x.key ≠ y.key := by
  have hsep : u.Separate t := (sh.kept_side hw hd hu).imp (fun h => h t ht) fun h => h t ht
  have hu' := hw.sorted _ sh.target_lt u (mem_retain.mp hu).1
  exact hsep.key_ne hu' (sh.inputs_sorted hw ht) hx hy

end

/-! ### The new version -/

/-- The version after the outputs of a task have been installed. -/
def applyOutputs (v : Version) (task : CompactionTask) (outs : List Table) : Version :=
  v.withCompactionApplied task.inputIds outs task.targetLevel

instance : Std.Total keyMinLE := ⟨fun a b => le_total a.keyMin b.keyMin⟩

instance : IsTrans Table keyMinLE := ⟨fun _ _ _ h h' => le_trans h h'⟩

section

variable {v : Version} {task : CompactionTask} {outs : List Table}

lemma applyOutputs_level_ne (hn : n ≠ task.targetLevel) :
    (applyOutputs v task outs).level n = retain task.inputIds (v.level n) :=
  v.withCompactionApplied_level_ne _ _ hn

section

variable (sh : TaskShape v task)

include sh

lemma applyOutputs_level_target : (applyOutputs v task outs).level task.targetLevel =
      (retain task.inputIds (v.level task.targetLevel) ++ outs).insertionSort keyMinLE :=
  v.withCompactionApplied_level_target _ _ (by rw [sh.target_eq]; omega) sh.target_lt

lemma target_perm_applied : ((applyOutputs v task outs).level task.targetLevel).Perm
      (retain task.inputIds (v.level task.targetLevel) ++ outs) := by
  rw [applyOutputs_level_target sh]
  exact perm_insertionSort _ _

lemma mem_applyOutputs : t ∈ (applyOutputs v task outs).level n ↔
      (t ∈ v.level n ∧ t.id ∉ task.inputIds) ∨ (n = task.targetLevel ∧ t ∈ outs) := by
  by_cases hn : n = task.targetLevel
  · subst hn
    rw [(target_perm_applied sh).mem_iff, mem_append, mem_retain]
    simp
  · rw [applyOutputs_level_ne hn, mem_retain]
    simp [hn]

lemma mem_allTables_applyOutputs
    (ht : t ∈ (applyOutputs v task outs).allTables) : t ∈ v.allTables ∨ t ∈ outs := by
  obtain ⟨n, hn, ht⟩ := mem_allTables.mp ht
  rcases (mem_applyOutputs sh).mp ht with ⟨ht, -⟩ | ⟨-, ht⟩
  · exact .inl (mem_allTables.mpr ⟨n, hn, ht⟩)
  · exact .inr ht

end

lemma wellFormed_applyOutputs (hw : v.WellFormed) (sh : TaskShape v task)
    (ho : Outputs v task outs) : (applyOutputs v task outs).WellFormed := by
  constructor
  · intro n hn
    have hsub : (retain task.inputIds (v.level n)).Sublist (v.level n) :=
      filter_sublist
    have hkept : ((retain task.inputIds (v.level n)).map Table.id).Nodup :=
      (hw.nodup n hn).sublist (hsub.map _)
    by_cases hnt : n = task.targetLevel
    · subst hnt
      refine ((target_perm_applied sh).map Table.id).nodup_iff.mpr ?_
      rw [map_append]
      refine nodup_append.mpr ⟨hkept, ho.nodup, ?_⟩
      rintro _ ha _ hb
      obtain ⟨t, ht, rfl⟩ := mem_map.mp ha
      obtain ⟨o, ho', rfl⟩ := mem_map.mp hb
      obtain ⟨ht, hid⟩ := mem_retain.mp ht
      exact ho.fresh _ hn t ht hid o ho'
    · rw [applyOutputs_level_ne hnt]
      exact hkept
  · intro n hn m hm t ht u hu hid
    rcases (mem_applyOutputs sh).mp ht with ⟨ht', htid⟩ | ⟨hnt, ht'⟩ <;>
      rcases (mem_applyOutputs sh).mp hu with ⟨hu', huid⟩ | ⟨hmt, hu'⟩
    · exact hw.level_eq n hn m hm t ht' u hu' hid
    · exact absurd hid (ho.fresh n hn t ht' htid u hu')
    · exact absurd hid.symm (ho.fresh m hm u hu' huid t ht')
    · rw [hnt, hmt]
  · intro n hn t ht
    rcases (mem_applyOutputs sh).mp ht with ⟨ht, -⟩ | ⟨-, ht⟩
    · exact hw.sorted n hn t ht
    · exact ho.sorted t ht

lemma separate_applyOutputs (hw : v.WellFormed) (hd : v.Disjoint) (sh : TaskShape v task)
    (ho : Outputs v task outs) :
    (retain task.inputIds (v.level task.targetLevel) ++ outs).Pairwise Separate := by
  have h1 : 1 ≤ task.targetLevel := by rw [sh.target_eq]; omega
  refine pairwise_append.mpr ⟨(hd.separate h1 sh.target_lt).sublist filter_sublist, ho.separate, ?_⟩
  intro u hu o ho'
  -- the bounds of an output are keys of inputs
  obtain ⟨a, ha, hamin⟩ := o.keyMin_mem
  obtain ⟨b, hb, hbmax⟩ := o.keyMax_mem
  obtain ⟨t, ht, x, hx, hxa⟩ := ho.keys o ho' a ha
  obtain ⟨t', ht', y, hy, hyb⟩ := ho.keys o ho' b hb
  rcases sh.kept_side hw hd hu with hside | hside
  · refine .inl ((hside t ht).trans_le ?_)
    rw [← hamin, ← hxa]
    exact keyMin_le (sh.inputs_sorted hw ht).keySorted hx
  · refine .inr (lt_of_le_of_lt ?_ (hside t' ht'))
    rw [← hbmax, ← hyb]
    exact le_keyMax (sh.inputs_sorted hw ht').keySorted hy

/-- **Deep levels stay disjoint.** -/
theorem disjoint_applyOutputs (hw : v.WellFormed) (hd : v.Disjoint) (sh : TaskShape v task)
    (ho : Outputs v task outs) : (applyOutputs v task outs).Disjoint := by
  intro n h1 h7
  by_cases hn : n = task.targetLevel
  · subst hn
    have hperm : ((applyOutputs v task outs).level task.targetLevel).Perm _ :=
      target_perm_applied sh
    refine disjoint_of_sorted ?_ ?_ fun t ht => ?_
    · rw [applyOutputs_level_target sh]
      exact pairwise_insertionSort _ _
    · exact (hperm.pairwise_iff fun h => h.symm).mpr (separate_applyOutputs hw hd sh ho)
    · exact keyMin_le_keyMax ((wellFormed_applyOutputs hw sh ho).sorted _ h7 t ht).keySorted
  · rw [applyOutputs_level_ne hn]
    exact (hd n h1 h7).sublist filter_sublist

/-- What the inputs of a task hold of a key, newest first. -/
def TaskShape.segment (sh : TaskShape v task) (k : Key) : List Entry :=
  withKey Entry.key k (sh.upper.reverse.flatMap entries) ++
    withKey Entry.key k ((overlapping (v.level task.targetLevel) sh.range).flatMap entries)

lemma TaskShape.mem_segment (sh : TaskShape v task) {k : Key} {e : Entry} :
    e ∈ sh.segment k ↔ (∃ t ∈ task.inputTables, e ∈ t.entries) ∧ e.key = k := by
  simp only [TaskShape.segment, mem_append, mem_withKey, mem_flatMap, mem_reverse, sh.inputs_eq]
  constructor
  · rintro (⟨⟨t, ht, he⟩, hk⟩ | ⟨⟨t, ht, he⟩, hk⟩)
    · exact ⟨⟨t, .inl ht, he⟩, hk⟩
    · exact ⟨⟨t, .inr ht, he⟩, hk⟩
  · rintro ⟨⟨t, ht | ht, he⟩, hk⟩
    · exact .inl ⟨⟨t, ht, he⟩, hk⟩
    · exact .inr ⟨⟨t, ht, he⟩, hk⟩

lemma range_split {s : ℕ} (hs : s + 1 < maxLevels) : range maxLevels =
      range s ++ ([s, s + 1] ++ range' (s + 2) (maxLevels - (s + 2))) := by
  have h6 : s < 6 := by
    simp only [maxLevels] at hs
    omega
  interval_cases s <;> rfl

/-- The part of a chain above level `n`. -/
def Version.chainAbove (v : Version) (n : ℕ) (k : Key) : List Entry :=
  (List.range n).flatMap fun m => withKey Entry.key k (v.levelRun m)

/-- The part of a chain from level `n` on. -/
def Version.chainFrom (v : Version) (n : ℕ) (k : Key) : List Entry :=
  (List.range' n (maxLevels - n)).flatMap fun m => withKey Entry.key k (v.levelRun m)

lemma Version.chain_split (v : Version) {s : ℕ} (hs : s + 1 < maxLevels) (k : Key) :
    v.chain k = v.chainAbove s k ++ (withKey Entry.key k (v.levelRun s) ++
      (withKey Entry.key k (v.levelRun (s + 1)) ++ v.chainFrom (s + 2) k)) := by
  rw [v.chain_eq, range_split hs]
  simp [chainAbove, chainFrom]

section

variable (hw : v.WellFormed) (sh : TaskShape v task)

include hw sh

lemma levelRun_applyOutputs (hn : n < maxLevels) (hs : n ≠ task.sourceLevel)
    (ht : n ≠ task.targetLevel) : (applyOutputs v task outs).levelRun n = v.levelRun n := by
  have hl : (applyOutputs v task outs).level n = v.level n := by
    rw [applyOutputs_level_ne ht, sh.retain_other hw hn hs ht]
  by_cases h0 : n = 0
  · subst h0
    simp [levelRun, hl]
  · rw [levelRun_pos _ h0, levelRun_pos _ h0, hl]

lemma chainAbove_applyOutputs (k : Key) :
    (applyOutputs v task outs).chainAbove task.sourceLevel k = v.chainAbove task.sourceLevel k := by
  refine flatMap_congr fun n hn => ?_
  have hlt := mem_range.mp hn
  have := sh.target_eq
  have := sh.source_lt
  rw [levelRun_applyOutputs hw sh (by omega) (by omega) (by omega)]

lemma chainFrom_applyOutputs (k : Key) :
    (applyOutputs v task outs).chainFrom (task.sourceLevel + 2) k =
      v.chainFrom (task.sourceLevel + 2) k := by
  refine flatMap_congr fun n hn => ?_
  have hlt := mem_range'_1.mp hn
  have := sh.target_eq
  rw [levelRun_applyOutputs hw sh (by omega) (by omega) (by omega)]

lemma kept_eq_nil (hd : v.Disjoint) {k : Key} (ht : t ∈ task.inputTables) {x : Entry}
    (hx : x ∈ t.entries) (hxk : x.key = k) :
    withKey Entry.key k ((Version.retain task.inputIds (v.level task.targetLevel)).flatMap
      entries) = [] := by
  refine withKey_eq_nil.mpr fun y hy hyk => ?_
  obtain ⟨u, hu, hyu⟩ := mem_flatMap.mp hy
  exact sh.kept_key_ne hw hd hu ht hyu hx (hyk.trans hxk.symm)

lemma target_chain (hd : v.Disjoint) (k : Key) : withKey Entry.key k (v.levelRun task.targetLevel) =
      withKey Entry.key k ((Version.retain task.inputIds (v.level task.targetLevel)).flatMap
        entries) ++
      withKey Entry.key k ((overlapping (v.level task.targetLevel) sh.range).flatMap entries) := by
  have ht := sh.target_eq
  rw [v.levelRun_pos (by omega), withKey_flatMap_perm (sh.target_perm hw)
    (hd.separate (by omega) sh.target_lt) (fun t h => hw.sorted _ sh.target_lt t h),
    flatMap_append, withKey_append]

lemma target_chain_applyOutputs (hd : v.Disjoint) (ho : Outputs v task outs) (k : Key) :
    withKey Entry.key k ((applyOutputs v task outs).levelRun task.targetLevel) =
      withKey Entry.key k ((Version.retain task.inputIds (v.level task.targetLevel)).flatMap
        entries) ++ withKey Entry.key k (outs.flatMap entries) := by
  have ht := sh.target_eq
  have hsorted : ∀ t ∈ Version.retain task.inputIds (v.level task.targetLevel) ++ outs,
      SortedLE t.entries := by
    intro t h
    rcases mem_append.mp h with h | h
    · exact hw.sorted _ sh.target_lt t (mem_retain.mp h).1
    · exact ho.sorted t h
  rw [levelRun_pos _ (by omega),
    ← withKey_flatMap_perm (target_perm_applied sh).symm
      (separate_applyOutputs hw hd sh ho) hsorted,
    flatMap_append, withKey_append]

end

/-- **A compaction replaces a segment.** In the chain of a key, what the inputs
held of the key is contiguous, and the outputs take its place. Nothing follows
the segment when the task counts as last. -/
theorem chain_applyOutputs (hw : v.WellFormed) (hd : v.Disjoint) (sh : TaskShape v task)
    (ho : Outputs v task outs) (k : Key) :
    ∃ A B, v.chain k = A ++ (sh.segment k ++ B) ∧ (applyOutputs v task outs).chain k =
        A ++ (withKey Entry.key k (outs.flatMap entries) ++ B) ∧
      (task.isLastLevel = true → B = []) := by
  have hsource : withKey Entry.key k (v.levelRun task.sourceLevel) = _ :=
    sh.source_split hw hd (applyOutputs v task outs)
      (applyOutputs_level_ne (by have := sh.target_eq; omega)) k
  have htarget := target_chain hw sh hd k
  have htarget' := target_chain_applyOutputs hw sh hd ho k
  rw [sh.target_eq] at htarget htarget'
  refine ⟨v.chainAbove task.sourceLevel k ++
    (withKey Entry.key k ((applyOutputs v task outs).levelRun task.sourceLevel) ++
      withKey Entry.key k ((Version.retain task.inputIds (v.level task.targetLevel)).flatMap
        entries)), v.chainFrom (task.sourceLevel + 2) k, ?_, ?_, ?_⟩
  · rw [v.chain_split sh.source_lt, hsource, htarget, TaskShape.segment, sh.target_eq]
    by_cases hseg : sh.segment k = []
    · -- the inputs hold nothing of the key
      obtain ⟨hup, hov⟩ := append_eq_nil_iff.mp hseg
      simp [hup]
    · -- the inputs hold the key, so no table that stays does
      obtain ⟨e, he⟩ := exists_mem_of_ne_nil _ hseg
      obtain ⟨⟨t, ht, het⟩, hek⟩ := sh.mem_segment.mp he
      have hkept := kept_eq_nil hw sh hd ht het hek
      rw [sh.target_eq] at hkept
      simp [hkept]
  · rw [chain_split _ sh.source_lt, chainAbove_applyOutputs hw sh, htarget',
      chainFrom_applyOutputs hw sh, sh.target_eq]
    simp
  · intro hlast
    refine flatMap_eq_nil_iff.mpr fun n hn => ?_
    have hn' := mem_range'_1.mp hn
    have ht := sh.target_eq
    rw [v.levelRun_pos (by omega), sh.last hlast n (by omega) (by omega)]
    rfl

end

end XyzDB
