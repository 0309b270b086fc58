import XyzDB.Lib.Runs

/-!
# Keys, sequence numbers and entries

The data the storage engine moves around (`types.rs`). Keys and values are byte
strings ordered lexicographically; a write is an `Entry` stamped with a sequence
number and marked as a value or as a tombstone. Sequence numbers are unbounded
naturals: a counter that wraps after `2 ^ 64` writes is out of scope.

Every sorted structure of the engine is sorted by *internal key*, user key
ascending and sequence number descending; the value type does not take part in
the comparison. `Entry.LT` is that order, `Entry.le` the non-strict comparison
the merge heap uses.
-/

open List

/-- The numeric order of bytes. -/
instance instLinearOrderUInt8 : LinearOrder UInt8 where
  le_refl := UInt8.le_refl
  le_trans _ _ _ := UInt8.le_trans
  lt_iff_le_not_ge a b := by
    simp only [UInt8.le_iff_toNat_le, UInt8.lt_iff_toNat_lt]
    omega
  le_antisymm _ _ := UInt8.le_antisymm
  le_total := UInt8.le_total
  toDecidableLE := inferInstance
  toDecidableLT := inferInstance

namespace XyzDB

open KeyRuns

variable {l : List Entry}

/-- A user key. -/
abbrev Key := List UInt8

/-- A stored value. -/
abbrev Value := List UInt8

/-- `u64::MAX`. -/
def u64Max : ℕ := 2 ^ 64 - 1

/-- Whether an entry carries a value or records a deletion. -/
inductive ValueType where
  | value
  | tombstone
  deriving DecidableEq, Repr

/-- A key-value entry as stored in blocks and memtables. -/
structure Entry where
  key : Key
  value : Value
  seqno : ℕ
  valueType : ValueType
  deriving DecidableEq, Repr

namespace Entry

/-- What a reader is given for an entry: its value, nothing for a tombstone. -/
def live (e : Entry) : Option Value :=
  match e.valueType with
  | .value => some e.value
  | .tombstone => none

/-- Internal-key order: user key ascending, sequence number descending. -/
def LT (a b : Entry) : Prop := a.key < b.key ∨ (a.key = b.key ∧ b.seqno < a.seqno)

/-- The non-strict internal-key comparison. -/
def le (a b : Entry) : Bool :=
  decide (a.key < b.key) || (decide (a.key = b.key) && decide (b.seqno ≤ a.seqno))

instance (a b : Entry) : Decidable (LT a b) := inferInstanceAs (Decidable (_ ∨ _))

lemma le_iff {a b : Entry} :
    le a b = true ↔ a.key < b.key ∨ (a.key = b.key ∧ b.seqno ≤ a.seqno) := by
  simp [le]

lemma le_total (a b : Entry) : le a b = true ∨ le b a = true := by
  simp only [le_iff]
  rcases lt_trichotomy a.key b.key with h | h | h
  · exact .inl (.inl h)
  · rcases Nat.le_total b.seqno a.seqno with h' | h'
    · exact .inl (.inr ⟨h, h'⟩)
    · exact .inr (.inr ⟨h.symm, h'⟩)
  · exact .inr (.inl h)

lemma le_trans (a b c : Entry) (hab : le a b = true) (hbc : le b c = true) : le a c = true := by
  simp only [le_iff] at *
  rcases hab with hab | ⟨hab, hs⟩ <;> rcases hbc with hbc | ⟨hbc, hs'⟩
  · exact .inl (hab.trans hbc)
  · exact .inl (hbc ▸ hab)
  · exact .inl (hab ▸ hbc)
  · exact .inr ⟨hab.trans hbc, by omega⟩

lemma LT.trans {a b c : Entry} (hab : LT a b) (hbc : LT b c) : LT a c := by
  rcases hab with hab | ⟨hab, hs⟩ <;> rcases hbc with hbc | ⟨hbc, hs'⟩
  · exact .inl (hab.trans hbc)
  · exact .inl (hbc ▸ hab)
  · exact .inl (hab ▸ hbc)
  · exact .inr ⟨hab.trans hbc, by omega⟩

lemma LT.le {a b : Entry} (h : LT a b) : Entry.le a b = true := by
  rw [le_iff]
  rcases h with h | ⟨h, hs⟩
  · exact .inl h
  · exact .inr ⟨h, by omega⟩

lemma lt_trichotomy' (a b : Entry) : LT a b ∨ (a.key = b.key ∧ a.seqno = b.seqno) ∨ LT b a := by
  rcases lt_trichotomy a.key b.key with h | h | h
  · exact .inl (.inl h)
  · rcases Nat.lt_trichotomy a.seqno b.seqno with h' | h' | h'
    · exact .inr (.inr (.inr ⟨h.symm, h'⟩))
    · exact .inr (.inl ⟨h, h'⟩)
    · exact .inl (.inr ⟨h, h'⟩)
  · exact .inr (.inr (.inl h))

end Entry

/-! ### Version lists

`withKey Entry.key k l` lists the versions of key `k` in `l`, in list order. -/

section

variable (l : List Entry)

/-- Sequence numbers strictly descend: newest first, no version twice. -/
def SeqDesc : Prop := l.Pairwise fun a b => b.seqno < a.seqno

/-- Sorted by internal key, no internal key twice. -/
def Sorted : Prop := l.Pairwise Entry.LT

/-- Sorted by internal key, repetitions allowed. -/
def SortedLE : Prop := l.Pairwise fun a b => Entry.le a b = true

instance : Decidable (SortedLE l) := inferInstanceAs (Decidable (l.Pairwise _))

end

lemma Sorted.sortedLE (h : Sorted l) : SortedLE l :=
  List.Pairwise.imp Entry.LT.le h

lemma SortedLE.keySorted (h : SortedLE l) : KeySorted Entry.key l := by
  refine List.Pairwise.imp (fun {a b} hab => ?_) h
  rcases Entry.le_iff.mp hab with h | ⟨h, -⟩
  · exact h.le
  · exact le_of_eq h

lemma Sorted.keySorted (h : Sorted l) : KeySorted Entry.key l :=
  h.sortedLE.keySorted

lemma SortedLE.withKey_desc (h : SortedLE l) (k : Key) :
    (withKey Entry.key k l).Pairwise fun a b => b.seqno ≤ a.seqno := by
  refine pairwise_iff_forall_sublist.mpr fun {a b} hab => ?_
  have ha := (mem_withKey.mp (hab.subset (by simp : a ∈ [a, b]))).2
  have hb := (mem_withKey.mp (hab.subset (by simp : b ∈ [a, b]))).2
  rcases Entry.le_iff.mp (pairwise_iff_forall_sublist.mp h
    (hab.trans filter_sublist)) with h | ⟨-, h⟩
  · exact absurd h (by rw [ha, hb]; exact lt_irrefl k)
  · exact h

lemma sortedLE_of_keySorted (h : KeySorted Entry.key l)
    (hv : ∀ k, (withKey Entry.key k l).Pairwise fun a b => b.seqno ≤ a.seqno) : SortedLE l := by
  refine pairwise_iff_forall_sublist.mpr fun {a b} hab => ?_
  have hle : a.key ≤ b.key := pairwise_iff_forall_sublist.mp h hab
  refine Entry.le_iff.mpr ((lt_or_eq_of_le hle).imp_right fun heq => ⟨heq, ?_⟩)
  have hsub : [a, b].Sublist (withKey Entry.key a.key l) := sublist_withKey hab (by simp [heq])
  exact pairwise_iff_forall_sublist.mp (hv a.key) hsub

lemma Sorted.seqDesc_withKey (h : Sorted l) (k : Key) : SeqDesc (withKey Entry.key k l) := by
  refine pairwise_iff_forall_sublist.mpr fun {a b} hab => ?_
  have hkey : ∀ x ∈ [a, b], x.key = k := fun x hx => (mem_withKey.mp (hab.subset hx)).2
  rcases pairwise_iff_forall_sublist.mp h (hab.trans filter_sublist) with hlt | ⟨-, hlt⟩
  · rw [hkey a (by simp), hkey b (by simp)] at hlt
    exact absurd hlt (lt_irrefl k)
  · exact hlt

lemma SeqDesc.head?_eq_some (h : SeqDesc l) {x : Entry} (hx : x ∈ l)
    (hmax : ∀ y ∈ l, y.seqno ≤ x.seqno) : l.head? = some x := by
  cases l with
  | nil => cases hx
  | cons y l =>
    rcases mem_cons.mp hx with rfl | hx
    · rfl
    · have hlt := rel_of_pairwise_cons h hx
      exact absurd (hmax y mem_cons_self) (by omega)

/-- The first version of a descending chain that is visible is not below any other. -/
lemma SeqDesc.exists_find? (h : SeqDesc l) {x : Entry} (hx : x ∈ l) {v : ℕ} (hv : x.seqno ≤ v) :
    ∃ y ∈ l, (l.find? fun e => decide (e.seqno ≤ v)) = some y ∧
      x.seqno ≤ y.seqno ∧ y.seqno ≤ v := by
  induction l with
  | nil => cases hx
  | cons a l ih =>
    by_cases ha : a.seqno ≤ v
    · refine ⟨a, mem_cons_self, find?_cons_of_pos (by simpa using ha), ?_, ha⟩
      rcases mem_cons.mp hx with rfl | hx
      · exact le_rfl
      · exact le_of_lt (rel_of_pairwise_cons h hx)
    · have hx : x ∈ l := by
        rcases mem_cons.mp hx with rfl | hx
        · exact absurd hv ha
        · exact hx
      obtain ⟨y, hy, hfind, hle⟩ := ih h.of_cons hx
      exact ⟨y, mem_cons_of_mem _ hy, by rw [find?_cons_of_neg (by simpa using ha), hfind], hle⟩

lemma SeqDesc.eq_of_perm {l l' : List Entry} (h : SeqDesc l) (hperm : l'.Perm l)
    (h' : l'.Pairwise fun a b => b.seqno ≤ a.seqno) : l' = l := by
  refine hperm.eq_of_pairwise (fun a b ha hb hab hba => ?_) h'
    (List.Pairwise.imp (fun {a b} hab => le_of_lt hab) h)
  -- equal sequence numbers are one and the same position of `l`
  have ha' := hperm.subset ha
  have hsymm : l.Pairwise fun a b : Entry => a.seqno ≠ b.seqno :=
    List.Pairwise.imp (fun {a b} hab => ne_of_gt hab) h
  have : Std.Symm fun a b : Entry => a.seqno ≠ b.seqno := ⟨fun _ _ h => h.symm⟩
  by_contra hne
  exact hsymm.forall ha' hb hne (by omega)

/-- The loop of `prefix_to_range` on the reversed prefix: drop trailing `0xFF`
bytes, increment the last byte that is left. -/
def incrementLast : List UInt8 → Option (List UInt8)
  | [] => none
  | b :: rest => if b < 0xFF then some ((b + 1) :: rest) else incrementLast rest

/-- Convert a prefix to the half-open range `[prefix, upper)`. There is no upper
bound when every byte of the prefix is `0xFF`. -/
def prefixToRange (p : Key) : Key × Option Key :=
  (p, (incrementLast p.reverse).map List.reverse)

lemma incrementLast_append_singleton (l : List UInt8) (b : UInt8) : incrementLast (l ++ [b]) =
      match incrementLast l with
      | some u => some (u ++ [b])
      | none => if b < 0xFF then some [b + 1] else none := by
  induction l with
  | nil => simp [incrementLast]
  | cons c l ih =>
    rw [cons_append, incrementLast, incrementLast]
    split
    · rfl
    · exact ih

lemma prefixToRange_cons (b : UInt8) (p : Key) : (prefixToRange (b :: p)).2 =
      match (prefixToRange p).2 with
      | some u => some (b :: u)
      | none => if b < 0xFF then some [b + 1] else none := by
  simp only [prefixToRange, reverse_cons, incrementLast_append_singleton]
  cases incrementLast p.reverse with
  | some u => simp
  | none =>
    by_cases hb : b < 0xFF
    · simp [hb]
    · simp [hb]

private theorem lt_succ_byte {b c : UInt8} (hb : b < 0xFF) : c < b + 1 ↔ c ≤ b := by
  have hb' : b.toNat < 255 := by simpa [UInt8.lt_iff_toNat_lt] using hb
  rw [UInt8.lt_iff_toNat_lt, UInt8.le_iff_toNat_le, UInt8.toNat_add]
  simp only [UInt8.reduceToNat]
  omega

private theorem byte_le_max (b c : UInt8) (hb : ¬ b < 0xFF) : c ≤ b := by
  have hc := c.toNat_lt
  rw [UInt8.lt_iff_toNat_lt] at hb
  rw [UInt8.le_iff_toNat_le]
  simp only [UInt8.reduceToNat] at hb
  omega

/-- **A prefix is a range.** The keys with prefix `p` are exactly those of the
half-open range `prefix_to_range` computes. -/
theorem isPrefix_iff_mem_range (p k : Key) :
    p <+: k ↔ p ≤ k ∧ ∀ u, (prefixToRange p).2 = some u → k < u := by
  induction p generalizing k with
  | nil => simpa [prefixToRange, incrementLast] using not_lt.mp (not_lt_nil k)
  | cons b p ih =>
    cases k with
    | nil => simp
    | cons c k =>
      have hle : b :: p ≤ c :: k ↔ b < c ∨ (b = c ∧ p ≤ k) := by
        rw [← not_lt, cons_lt_cons_iff]
        rcases lt_trichotomy b c with h | h | h
        · simp [h, h.not_gt, h.ne']
        · simp [h]
        · simp [h, h.not_gt, h.ne']
      rw [cons_prefix_cons, hle, ih, prefixToRange_cons]
      cases hu : (prefixToRange p).2 with
      | some u =>
        simp only [Option.some.injEq, forall_eq', cons_lt_cons_iff]
        constructor
        · rintro ⟨rfl, h1, h2⟩
          exact ⟨.inr ⟨rfl, h1⟩, .inr ⟨rfl, h2⟩⟩
        · rintro ⟨h1 | ⟨rfl, h1⟩, h2 | ⟨h2, h3⟩⟩
          · exact absurd h1 h2.not_gt
          · exact absurd h1 (h2 ▸ lt_irrefl _)
          · exact absurd h2 (lt_irrefl _)
          · exact ⟨rfl, h1, h3⟩
      | none =>
        by_cases hb : b < 0xFF
        · simp only [hb, if_true, Option.some.injEq, forall_eq', cons_lt_cons_iff,
            lt_succ_byte hb, not_lt_nil, and_false, or_false, reduceCtorEq, false_implies,
            implies_true, and_true]
          constructor
          · rintro ⟨rfl, h1⟩
            exact ⟨.inr ⟨rfl, h1⟩, le_refl _⟩
          · rintro ⟨h1 | h1, h2⟩
            · exact absurd h1 (not_lt.mpr h2)
            · exact h1
        · simp only [hb]
          have hmax : ¬ b < c := not_lt.mpr (byte_le_max b c hb)
          simp [hmax]

end XyzDB
