import XyzDB.Turba.Table

/-!
# Versions: the on-disk levels of a tree

A `Version` is the immutable snapshot of a tree's tables by level
(`tree/version.rs`). Level `0` collects flushed tables in the order they were
installed and may overlap; levels `1` and up are searched by binary search and
are meant to be runs of pairwise disjoint tables sorted by smallest key.

`Version.WellFormed` collects what the operations rely on: table ids are unique,
tables are sorted inside. `Version.Disjoint` is the shape of the deep levels.
-/

namespace XyzDB

open KeyRuns

/-- The number of levels of every version. -/
def maxLevels : ℕ := 7

/-- The tables of a tree by level. Levels at or above `maxLevels` are never
accessed. -/
structure Version where
  level : ℕ → List Table

variable {n target : ℕ}

namespace Version

/-- `Version::new`: no tables. -/
def new : Version := ⟨fun _ => []⟩

section

variable (v : Version)

/-- `Version::with_new_l0_tables`: append to level `0`. -/
def withNewL0Tables (tables : List Table) : Version :=
  ⟨Function.update v.level 0 (v.level 0 ++ tables)⟩

/-- Drop the tables with one of the given ids. -/
def retain (oldIds : List ℕ) (l : List Table) : List Table :=
  l.filter fun t => !oldIds.contains t.id

/-- The order a deep level is sorted by. -/
def keyMinLE (a b : Table) : Prop := a.keyMin ≤ b.keyMin

instance : DecidableRel keyMinLE := fun a b => inferInstanceAs (Decidable (a.keyMin ≤ b.keyMin))

/-- `Version::with_compaction_applied`: remove the inputs from all levels, add the
outputs to the target level, and sort it (stably) by smallest key unless it is
level `0`. -/
def withCompactionApplied (oldIds : List ℕ) (newTables : List Table) (targetLevel : ℕ) : Version :=
  ⟨fun n =>
    if n = targetLevel ∧ targetLevel < maxLevels then
      let extended := retain oldIds (v.level n) ++ newTables
      if 1 ≤ targetLevel then extended.insertionSort keyMinLE else extended
    else retain oldIds (v.level n)⟩

def allTables : List Table := (List.range maxLevels).flatMap v.level

@[simp] lemma new_level (n : ℕ) : new.level n = [] := rfl

@[simp] lemma withNewL0Tables_level_zero (ts : List Table) :
    (v.withNewL0Tables ts).level 0 = v.level 0 ++ ts := by
  simp [withNewL0Tables]

lemma withNewL0Tables_level_pos (ts : List Table) (hn : n ≠ 0) :
    (v.withNewL0Tables ts).level n = v.level n := by
  simp [withNewL0Tables, hn]

end

variable {v : Version} {t : Table}

lemma mem_withNewL0Tables {ts : List Table} :
    t ∈ (v.withNewL0Tables ts).level n ↔ t ∈ v.level n ∨ (n = 0 ∧ t ∈ ts) := by
  rcases Nat.eq_zero_or_pos n with rfl | hn
  · simp
  · rw [v.withNewL0Tables_level_pos ts (ne_of_gt hn)]
    simp [ne_of_gt hn]

lemma withNewL0Tables_nil (v : Version) : v.withNewL0Tables [] = v := by simp [withNewL0Tables]

lemma withCompactionApplied_level_ne (v : Version) (ids : List ℕ) (ts : List Table)
    (hn : n ≠ target) :
    (v.withCompactionApplied ids ts target).level n = retain ids (v.level n) := by
  simp [withCompactionApplied, hn]

lemma withCompactionApplied_level_target (v : Version) (ids : List ℕ) (ts : List Table)
    (h1 : 1 ≤ target) (h7 : target < maxLevels) :
    (v.withCompactionApplied ids ts target).level target =
      (retain ids (v.level target) ++ ts).insertionSort keyMinLE := by
  simp [withCompactionApplied, h1, h7]

lemma mem_retain {ids : List ℕ} {l : List Table} : t ∈ retain ids l ↔ t ∈ l ∧ t.id ∉ ids := by
  simp [retain]

lemma mem_of_withCompactionApplied {ids : List ℕ} {ts : List Table}
    (h : t ∈ (v.withCompactionApplied ids ts target).level n) :
    (t ∈ v.level n ∧ t.id ∉ ids) ∨ t ∈ ts := by
  have hmem : t ∈ retain ids (v.level n) ++ ts → (t ∈ v.level n ∧ t.id ∉ ids) ∨ t ∈ ts := by
    rw [List.mem_append, mem_retain]
    exact fun h => h
  unfold withCompactionApplied at h
  dsimp only at h
  split at h
  · split at h
    · exact hmem ((List.mem_insertionSort _).mp h)
    · exact hmem h
  · exact .inl (mem_retain.mp h)

lemma mem_allTables : t ∈ v.allTables ↔ ∃ n < maxLevels, t ∈ v.level n := by
  simp [allTables]

/-- Table ids are unique across the version and every table is sorted. -/
structure WellFormed (v : Version) : Prop where
  /-- No two tables of a level share an id. -/
  nodup : ∀ n < maxLevels, ((v.level n).map Table.id).Nodup
  /-- A table sits in one level only. -/
  level_eq : ∀ n < maxLevels, ∀ m < maxLevels, ∀ t ∈ v.level n, ∀ u ∈ v.level m, t.id = u.id → n = m
  /-- Tables are sorted by internal key. -/
  sorted : ∀ n < maxLevels, ∀ t ∈ v.level n, SortedLE t.entries

/-- The deep levels are runs of disjoint tables in key order. -/
def Disjoint (v : Version) : Prop :=
  ∀ n, 1 ≤ n → n < maxLevels → (v.level n).Pairwise fun a b => a.keyMax < b.keyMin

lemma WellFormed.eq_of_id (h : v.WellFormed) {m : ℕ} (hn : n < maxLevels) (hm : m < maxLevels)
    {u : Table} (ht : t ∈ v.level n) (hu : u ∈ v.level m) (hid : t.id = u.id) : t = u := by
  obtain rfl := h.level_eq n hn m hm t ht u hu hid
  exact List.inj_on_of_nodup_map (h.nodup n hn) ht hu hid

lemma wellFormed_new : new.WellFormed := by constructor <;> simp

lemma disjoint_new : new.Disjoint := by
  intro n _ _
  simp

end Version

end XyzDB
