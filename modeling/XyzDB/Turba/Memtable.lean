import XyzDB.Turba.Types

/-!
# Memtables

The in-memory write buffer (`memtable.rs`): a map ordered by internal key, its
approximate size and the highest sequence number it has seen. A `Memtable`
carries the order of its entries and the bound `highestSeqno` puts on their
sequence numbers, so both hold of every memtable that can be built.

Inserting at an internal key that is already present replaces the entry there,
value type included, because the value type does not take part in the order.
-/

namespace XyzDB

open KeyRuns List Entry

/-- Insert into a list ordered by internal key; an entry with the same internal
key is replaced. -/
def insertEntry (e : Entry) : List Entry → List Entry
  | [] => [e]
  | x :: l =>
    if e.LT x then e :: x :: l
    else if x.LT e then x :: insertEntry e l
    else e :: l

lemma mem_insertEntry_self (e : Entry) (l : List Entry) : e ∈ insertEntry e l := by
  induction l with
  | nil => simp [insertEntry]
  | cons x l ih =>
    unfold insertEntry
    split
    · simp
    · split
      · exact .tail _ ih
      · simp

variable {l : List Entry} {e : Entry}

lemma mem_of_mem_insertEntry {x : Entry} (h : x ∈ insertEntry e l) : x = e ∨ x ∈ l := by
  induction l with
  | nil => simpa [insertEntry] using h
  | cons y l ih =>
    unfold insertEntry at h
    split at h
    · rcases mem_cons.mp h with h | h
      · exact .inl h
      · exact .inr h
    · split at h
      · rcases mem_cons.mp h with rfl | h
        · exact .inr mem_cons_self
        · exact (ih h).imp_right (mem_cons_of_mem _)
      · rcases mem_cons.mp h with h | h
        · exact .inl h
        · exact .inr (.tail _ h)

lemma mem_insertEntry_of_mem {x : Entry} (h : x ∈ l)
    (hne : x.key ≠ e.key ∨ x.seqno ≠ e.seqno) : x ∈ insertEntry e l := by
  induction l with
  | nil => cases h
  | cons y l ih =>
    unfold insertEntry
    split
    · exact .tail _ h
    · next h1 =>
      split
      · rcases mem_cons.mp h with rfl | h
        · exact mem_cons_self
        · exact .tail _ (ih h)
      · next h2 =>
        rcases mem_cons.mp h with rfl | h
        · -- neither before nor after `e`: the same internal key
          rcases lt_trichotomy' e x with h' | ⟨hk, hs⟩ | h'
          · exact absurd h' h1
          · rcases hne with hne | hne
            · exact absurd hk.symm hne
            · exact absurd hs.symm hne
          · exact absurd h' h2
        · exact .tail _ h

lemma sorted_insertEntry (h : Sorted l) : Sorted (insertEntry e l) := by
  induction l with
  | nil => exact pairwise_singleton _ _
  | cons x l ih =>
    obtain ⟨hx, hl⟩ := pairwise_cons.mp h
    unfold insertEntry
    split
    · next h1 =>
      refine pairwise_cons.mpr ⟨fun y hy => ?_, h⟩
      rcases mem_cons.mp hy with rfl | hy
      · exact h1
      · exact h1.trans (hx y hy)
    · next h1 =>
      split
      · next h2 =>
        refine pairwise_cons.mpr ⟨fun y hy => ?_, ih hl⟩
        rcases mem_of_mem_insertEntry hy with rfl | hy
        · exact h2
        · exact hx y hy
      · next h2 =>
        refine pairwise_cons.mpr ⟨fun y hy => ?_, hl⟩
        rcases lt_trichotomy' e x with h' | ⟨hk, hs⟩ | h'
        · exact absurd h' h1
        · have := hx y hy
          unfold Entry.LT at this ⊢
          rw [hk, hs]
          exact this
        · exact absurd h' h2

lemma withKey_insertEntry_ne {k : Key} (hk : e.key ≠ k) (l : List Entry) :
    withKey key k (insertEntry e l) = withKey key k l := by
  induction l with
  | nil => simp [insertEntry, withKey_cons, hk]
  | cons x l ih =>
    unfold insertEntry
    split
    · simp [withKey_cons, hk]
    · next h1 =>
      split
      · simp [withKey_cons, ih]
      · next h2 =>
        have hxe : x.key = e.key := by
          rcases lt_trichotomy' e x with h' | ⟨h', -⟩ | h'
          · exact absurd h' h1
          · exact h'.symm
          · exact absurd h' h2
        simp [withKey_cons, hxe, hk]

lemma filter_insertEntry {n : ℕ} (hn : n < e.seqno) (l : List Entry) :
    ((insertEntry e l).filter fun x => decide (x.seqno ≤ n)) =
      l.filter fun x => decide (x.seqno ≤ n) := by
  have he : ∀ {x : Entry}, x.seqno = e.seqno → ∀ l, ((x :: l).filter fun x =>
      decide (x.seqno ≤ n)) = l.filter fun x => decide (x.seqno ≤ n) := fun hx l =>
    filter_cons_of_neg (by simpa [hx] using hn)
  induction l with
  | nil => exact he rfl []
  | cons x l ih =>
    unfold insertEntry
    split
    · exact he rfl _
    · next h1 =>
      split
      · rw [filter_cons, filter_cons, ih]
      · next h2 =>
        -- the entry it replaces has the same number
        have hxe : x.seqno = e.seqno := by
          rcases lt_trichotomy' e x with h' | ⟨-, h'⟩ | h'
          · exact absurd h' h1
          · exact h'.symm
          · exact absurd h' h2
        rw [he rfl, he hxe]

/-- A version at least as new as every version of its key becomes the first of them,
in place of one with the same sequence number. -/
lemma withKey_insertEntry_top (hs : Sorted l) (h : ∀ x ∈ withKey key e.key l, x.seqno ≤ e.seqno) :
    withKey key e.key (insertEntry e l) =
      e :: (withKey key e.key l).filter fun x => decide (x.seqno ≠ e.seqno) := by
  induction l with
  | nil => simp [insertEntry, withKey_cons]
  | cons x l ih =>
    obtain ⟨hx, hl⟩ := pairwise_cons.mp hs
    -- what follows an entry of the same internal key is older
    have hkeep : ∀ y, e.LT y ∨ (e.key = y.key ∧ e.seqno = y.seqno) →
        ∀ z, y.LT z → z.key = e.key → z.seqno ≠ e.seqno := by
      intro y hy z hyz hz
      have hlt : e.LT z := by
        rcases hy with hy | ⟨hk, hn⟩
        · exact hy.trans hyz
        · unfold Entry.LT at hyz ⊢
          rwa [hk, hn]
      rcases hlt with hlt | ⟨-, hlt⟩
      · exact absurd hz hlt.ne'
      · exact hlt.ne
    unfold insertEntry
    split
    · next h1 =>
      rw [withKey_cons, if_pos rfl, filter_eq_self.mpr]
      intro z hz
      obtain ⟨hzl, hzk⟩ := mem_withKey.mp hz
      rcases mem_cons.mp hzl with rfl | hzl
      · rcases h1 with h1 | ⟨-, h1⟩
        · exact absurd hzk h1.ne'
        · simpa using h1.ne
      · simpa using hkeep x (.inl h1) z (hx z hzl) hzk
    · next h1 =>
      split
      · next h2 =>
        have hxk : x.key ≠ e.key := by
          intro hxk
          rcases h2 with h2 | ⟨-, h2⟩
          · exact absurd hxk h2.ne
          · have := h x (mem_withKey.mpr ⟨mem_cons_self, hxk⟩)
            omega
        rw [withKey_cons, if_neg hxk, withKey_cons, if_neg hxk]
        refine ih hl fun y hy => h y ?_
        rw [withKey_cons, if_neg hxk]
        exact hy
      · next h2 =>
        obtain ⟨hk, hn⟩ : e.key = x.key ∧ e.seqno = x.seqno := by
          rcases lt_trichotomy' e x with h' | h' | h'
          · exact absurd h' h1
          · exact h'
          · exact absurd h' h2
        rw [withKey_cons, if_pos rfl, withKey_cons, if_pos hk.symm,
          filter_cons_of_neg (by simp [hn]), filter_eq_self.mpr]
        intro z hz
        obtain ⟨hzl, hzk⟩ := mem_withKey.mp hz
        simpa using hkeep x (.inr ⟨hk, hn⟩) z (hx z hzl) hzk

/-- An in-memory write buffer. -/
structure Memtable where
  /-- The entries of the ordered map. -/
  entries : List Entry
  /-- The map is ordered by internal key. -/
  sorted : Sorted entries
  /-- Accounted bytes; only ever grows. -/
  approximateSize : ℕ
  /-- The highest sequence number inserted. -/
  highestSeqno : ℕ
  /-- No entry is above `highestSeqno`. -/
  le_highest : ∀ e ∈ entries, e.seqno ≤ highestSeqno
  /-- `highestSeqno` is the number of an entry. -/
  highest_mem : highestSeqno = 0 ∨ ∃ e ∈ entries, e.seqno = highestSeqno

namespace Memtable

def new : Memtable where
  entries := []
  sorted := List.Pairwise.nil
  approximateSize := 0
  highestSeqno := 0
  le_highest := by simp
  highest_mem := .inl rfl

variable (m : Memtable)

def insert (e : Entry) : Memtable where
  entries := insertEntry e m.entries
  sorted := sorted_insertEntry m.sorted
  approximateSize := m.approximateSize + (e.key.length + e.value.length + 32)
  highestSeqno := max m.highestSeqno e.seqno
  le_highest x hx := by
    rcases mem_of_mem_insertEntry hx with rfl | hx
    · exact Nat.le_max_right ..
    · exact (m.le_highest x hx).trans (Nat.le_max_left ..)
  highest_mem := by
    rcases Nat.le_total m.highestSeqno e.seqno with hle | hle
    · exact .inr ⟨e, mem_insertEntry_self _ _, (Nat.max_eq_right hle).symm⟩
    · rw [Nat.max_eq_left hle]
      refine m.highest_mem.imp_right fun ⟨x, hx, hxs⟩ => ?_
      -- the highest entry survives unless the new one takes its place
      by_cases hsame : x.seqno = e.seqno
      · exact ⟨e, mem_insertEntry_self _ _, hsame.symm.trans hxs⟩
      · exact ⟨x, mem_insertEntry_of_mem hx (.inr hsame), hxs⟩

def isEmpty : Bool := m.entries.isEmpty

/-- `Memtable::get`: seek to the newest version of the key and take the first one
that is visible. -/
def get (userKey : Key) (visibleSeqno : ℕ) : Option (ValueType × Value) :=
  (((m.entries.dropWhile fun e => decide (e.key < userKey)).takeWhile fun e =>
    decide (e.key = userKey)).find? fun e => decide (e.seqno ≤ visibleSeqno)).map
      fun e => (e.valueType, e.value)

@[simp] lemma new_entries : new.entries = [] := rfl

@[simp] lemma insert_entries (e : Entry) : (m.insert e).entries = insertEntry e m.entries := rfl

lemma isEmpty_iff {m : Memtable} : m.isEmpty = true ↔ m.entries = [] := List.isEmpty_iff

lemma get_eq (k : Key) (v : ℕ) :
    m.get k v = ((withKey key k m.entries).find? fun e => decide (e.seqno ≤ v)).map
      fun e => (e.valueType, e.value) := by
  unfold get
  rw [← m.sorted.keySorted.seek k]
  congr!

end Memtable

end XyzDB
