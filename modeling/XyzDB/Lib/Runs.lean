import Mathlib

/-!
# Key runs of a sorted stream

A stream sorted by key presents the elements of one key as one contiguous *run*.
Stream filters that collect a run, decide what to keep of it and move on to the
next key have the shape `(runs key l).flatMap f`. This file says what such a
filter computes, one key at a time: restricted to a key, its output is `f`
applied to the elements of that key (`filter_flatMap_runs`), and it stays sorted
by key (`sorted_flatMap_runs`).

The general principle behind both is `runs_cons`: the first run of a sorted
stream is the set of all elements with the first key.
-/

namespace KeyRuns

open List

variable {α κ : Type} [LinearOrder κ] (key : α → κ)

/-- The maximal runs of adjacent elements with equal keys. -/
def runs (l : List α) : List (List α) := l.splitBy fun a b => decide (key a = key b)

/-- Sorted by key, elements of one key in any order. -/
def KeySorted (l : List α) : Prop := l.Pairwise fun a b => key a ≤ key b

/-- The elements of a list with a given key. -/
def withKey (k : κ) (l : List α) : List α := l.filter fun a => decide (key a = k)

variable {key}

@[simp] lemma runs_nil : runs key ([] : List α) = [] := rfl

lemma flatten_runs (key : α → κ) (l : List α) : (runs key l).flatten = l := flatten_splitBy ..

@[simp] lemma withKey_nil (k : κ) : withKey key k ([] : List α) = [] := rfl

@[simp] lemma withKey_append (k : κ) (l l' : List α) :
    withKey key k (l ++ l') = withKey key k l ++ withKey key k l' := filter_append ..

lemma withKey_cons (k : κ) (a : α) (l : List α) :
    withKey key k (a :: l) = if key a = k then a :: withKey key k l else withKey key k l := by
  simp [withKey, filter_cons]

variable {l : List α} {k : κ}

variable {a : α}

@[simp] lemma mem_withKey : a ∈ withKey key k l ↔ a ∈ l ∧ key a = k := by simp [withKey]

lemma withKey_eq_nil : withKey key k l = [] ↔ ∀ a ∈ l, key a ≠ k := by
  simp [withKey]

lemma withKey_eq_self (h : ∀ a ∈ l, key a = k) : withKey key k l = l :=
  filter_eq_self.mpr (by simpa using h)

lemma sublist_withKey {l' : List α} (h : l'.Sublist l) (hk : ∀ a ∈ l', key a = k) :
    l'.Sublist (withKey key k l) := by
  rw [← withKey_eq_self hk]
  exact h.filter _

lemma withKey_withKey {k' : κ} (l : List α) :
    withKey key k (withKey key k' l) = if k = k' then withKey key k l else [] := by
  split
  · next h => subst h; exact withKey_eq_self fun a ha => (mem_withKey.mp ha).2
  · next h => exact withKey_eq_nil.mpr fun a ha h' => h (h' ▸ (mem_withKey.mp ha).2)

lemma withKey_flatMap (k : κ) (l : List β) (f : β → List α) :
    withKey key k (l.flatMap f) = l.flatMap fun b => withKey key k (f b) := by
  simp only [withKey, filter_flatMap]

lemma withKey_flatten_single {ls : List (List α)} (i : ℕ)
    (h : ∀ j l, j ≠ i → ls[j]? = some l → ∀ a ∈ l, key a ≠ k) :
    withKey key k ls.flatten = withKey key k (ls[i]?.getD []) := by
  induction ls generalizing i with
  | nil => simp
  | cons l ls ih =>
    cases i with
    | zero =>
      have hrest : withKey key k ls.flatten = [] := by
        refine withKey_eq_nil.mpr fun a ha => ?_
        obtain ⟨l', hl', hal⟩ := mem_flatten.mp ha
        obtain ⟨j, hj⟩ := mem_iff_getElem?.mp hl'
        exact h (j + 1) l' (by omega) (by simpa using hj) a hal
      simp [hrest]
    | succ i =>
      have hl : withKey key k l = [] :=
        withKey_eq_nil.mpr fun a ha => h 0 l (by omega) (by simp) a ha
      rw [flatten_cons, withKey_append, hl]
      exact ih i fun j l' hj hl' => h (j + 1) l' (by omega) (by simpa using hl')

lemma KeySorted.tail (h : KeySorted key (a :: l)) : KeySorted key l :=
  (pairwise_cons.mp h).2

lemma KeySorted.filter (h : KeySorted key l) (p : α → Bool) :
    KeySorted key (l.filter p) := List.Pairwise.filter p h

/-- Seeking to the first element at or past `k` and reading while the key is `k`
collects every element of key `k`. -/
lemma KeySorted.seek (h : KeySorted key l) (k : κ) :
    (l.dropWhile fun a => decide (key a < k)).takeWhile (fun a => decide (key a = k)) =
      withKey key k l := by
  induction l with
  | nil => rfl
  | cons a l ih =>
    have hle := (pairwise_cons.mp h).1
    rcases lt_trichotomy (key a) k with hlt | heq | hgt
    · rw [dropWhile_cons_of_pos (by simpa using hlt), ih h.tail, withKey_cons, if_neg hlt.ne]
    · -- the first element of key `k`: nothing is skipped from here on
      rw [dropWhile_cons_of_neg (by simp [heq]), takeWhile_cons_of_pos (by simpa using heq),
        withKey_cons, if_pos heq]
      have hskip : (l.dropWhile fun a => decide (key a < k)) = l := by
        cases l with
        | nil => rfl
        | cons b l =>
          simpa using heq ▸ hle b mem_cons_self
      have := ih h.tail
      rw [hskip] at this
      rw [this]
    · have hnone : withKey key k (a :: l) = [] := by
        refine withKey_eq_nil.mpr fun b hb => ?_
        rcases mem_cons.mp hb with rfl | hb
        · exact hgt.ne'
        · exact (lt_of_lt_of_le hgt (hle b hb)).ne'
      rw [dropWhile_cons_of_neg (by simpa using hgt.le),
        takeWhile_cons_of_neg (by simpa using hgt.ne'), hnone]

/-- The first run goes as far as the first key does. -/
lemma runs_eq_cons (a : α) (l : List α) : runs key (a :: l) =
    (a :: l.takeWhile fun b => decide (key b = key a)) ::
      runs key (l.dropWhile fun b => decide (key b = key a)) := by
  have hkey : ∀ b ∈ a :: l.takeWhile fun b => decide (key b = key a), key b = key a := by
    simpa using fun b hb => by simpa using mem_takeWhile_imp hb
  have hchain : (a :: l.takeWhile fun b => decide (key b = key a)).IsChain
      fun b c => decide (key b = key c) := by
    refine List.Pairwise.isChain (pairwise_iff_forall_sublist.mpr fun {b c} hbc => ?_)
    simp [hkey b (hbc.subset (by simp)), hkey c (hbc.subset (by simp))]
  unfold runs
  conv_lhs => rw [← l.takeWhile_append_dropWhile (p := fun b => decide (key b = key a)),
    ← cons_append]
  rw [splitBy_append, splitBy_of_isChain (cons_ne_nil _ _) hchain]
  · rfl
  · intro b hb c hc
    have hc' := head?_dropWhile_not (fun b => decide (key b = key a)) l
    rw [hc] at hc'
    rw [decide_eq_false_iff_not, hkey b (mem_of_mem_getLast? hb)]
    exact fun h => by simp [h] at hc'

/-- In a sorted stream the elements of the first key stand in front. -/
lemma KeySorted.first_run (h : KeySorted key (a :: l)) :
    a :: l.takeWhile (fun b => decide (key b = key a)) = withKey key (key a) (a :: l) ∧
      l.dropWhile (fun b => decide (key b = key a)) =
        (a :: l).filter fun b => decide (key b ≠ key a) := by
  have hrun : a :: l.takeWhile (fun b => decide (key b = key a)) =
      withKey key (key a) (a :: l) := by
    rw [← h.seek, dropWhile_cons_of_neg (by simp), takeWhile_cons_of_pos (by simp)]
  have hsplit : withKey key (key a) (a :: l) ++
      l.dropWhile (fun b => decide (key b = key a)) = a :: l := by
    rw [← hrun, cons_append, takeWhile_append_dropWhile]
  -- nothing returns to the first key
  have hrest : ∀ b ∈ l.dropWhile (fun b => decide (key b = key a)), key b ≠ key a := by
    have hk := congrArg (withKey key (key a)) hsplit
    rwa [withKey_append, withKey_withKey, if_pos rfl, append_right_eq_self, withKey_eq_nil] at hk
  refine ⟨hrun, ?_⟩
  conv_rhs => rw [← hsplit, filter_append]
  rw [filter_eq_nil_iff.mpr fun b hb => by simpa using (mem_withKey.mp hb).2, nil_append,
    filter_eq_self.mpr (by simpa using hrest)]

lemma KeySorted.split_first (h : KeySorted key (a :: l)) :
    withKey key (key a) (a :: l) ++ (a :: l).filter (fun b => decide (key b ≠ key a)) = a :: l := by
  rw [← h.first_run.1, ← h.first_run.2, cons_append, takeWhile_append_dropWhile]

/-- **The first run** of a sorted stream collects every element of the first key. -/
theorem runs_cons (h : KeySorted key (a :: l)) : runs key (a :: l) = withKey key (key a) (a :: l) ::
      runs key ((a :: l).filter fun b => decide (key b ≠ key a)) := by
  rw [runs_eq_cons, h.first_run.1, h.first_run.2]

/-- A sorted stream is determined by what it holds of each key. -/
lemma KeySorted.ext {l l' : List α} (h : KeySorted key l) (h' : KeySorted key l')
    (heq : ∀ k, withKey key k l = withKey key k l') : l = l' := by
  induction l generalizing l' with
  | nil =>
    cases l' with
    | nil => rfl
    | cons b l' => simpa [withKey_cons] using heq (key b)
  | cons a l ih =>
    cases l' with
    | nil => simpa [withKey_cons] using heq (key a)
    | cons b l' =>
      have hmem : ∀ k c, key c = k → (c ∈ a :: l ↔ c ∈ b :: l') := fun k c hc => by
        have hiff : c ∈ withKey key k (a :: l) ↔ c ∈ withKey key k (b :: l') := by rw [heq]
        simpa [hc] using hiff
      -- neither key is below the other
      have hab : key a = key b := by
        refine le_antisymm ?_ ?_
        · rcases mem_cons.mp ((hmem _ b rfl).mpr (by simp)) with rfl | hb
          · exact le_rfl
          · exact (pairwise_cons.mp h).1 b hb
        · rcases mem_cons.mp ((hmem _ a rfl).mp (by simp)) with rfl | ha
          · exact le_rfl
          · exact (pairwise_cons.mp h').1 a ha
      have hhead := heq (key a)
      rw [withKey_cons, withKey_cons, if_pos rfl, if_pos hab.symm] at hhead
      obtain ⟨rfl, -⟩ := cons.inj hhead
      rw [ih h.tail h'.tail fun k => ?_]
      have hk := heq k
      rw [withKey_cons, withKey_cons] at hk
      split at hk
      · exact (cons.inj hk).2
      · exact hk

private theorem length_filter_lt :
    ((a :: l).filter fun b => decide (key b ≠ key a)).length < (a :: l).length := by
  rw [filter_cons_of_neg (by simp)]
  exact Nat.lt_succ_of_le (length_filter_le _ _)

/-- Induction over the runs of a sorted stream: peel off the first key. -/
lemma KeySorted.run_induction {P : ∀ l, KeySorted key l → Prop} (nil : P [] List.Pairwise.nil)
    (run : ∀ a l (h : KeySorted key (a :: l)),
      P ((a :: l).filter fun b => decide (key b ≠ key a)) (h.filter _) → P (a :: l) h)
    (l : List α) (h : KeySorted key l) : P l h := by
  induction hn : l.length using Nat.strong_induction_on generalizing l with
  | _ n ih =>
    cases l with
    | nil => exact nil
    | cons a l =>
      refine run a l h (ih _ ?_ _ (h.filter _) rfl)
      exact hn ▸ length_filter_lt

section

variable {β : Type} {keyOut : β → κ} {f : List α → List β}

/-- `f` turns a run into elements of the run's key, and makes nothing of nothing. -/
structure KeepsKey (key : α → κ) (keyOut : β → κ) (f : List α → List β) : Prop where
  nil : f [] = []
  mem : ∀ k r, (∀ a ∈ r, key a = k) → ∀ b ∈ f r, keyOut b = k

variable (hf : KeepsKey key keyOut f)

include hf

lemma filter_flatMap_runs (h : KeySorted key l)
    (k : κ) : withKey keyOut k ((runs key l).flatMap f) = f (withKey key k l) := by
  induction l, h using KeySorted.run_induction with
  | nil => simp [hf.nil]
  | run a l h ih =>
    have hrun : ∀ b ∈ withKey key (key a) (a :: l), key b = key a := fun b hb =>
      (mem_withKey.mp hb).2
    rw [runs_cons h, flatMap_cons, withKey_append, ih]
    conv_rhs => rw [← h.split_first, withKey_append, withKey_withKey]
    by_cases hk : k = key a
    · subst hk
      have hrest : withKey key (key a) ((a :: l).filter fun b => decide (key b ≠ key a)) = [] :=
        withKey_eq_nil.mpr fun b hb => by simpa using (mem_filter.mp hb).2
      rw [if_pos rfl, hrest, hf.nil, append_nil, append_nil, withKey_eq_self (hf.mem _ _ hrun)]
    · rw [if_neg hk, nil_append,
        withKey_eq_nil.mpr (fun b hb h' => hk (h'.symm.trans (hf.mem _ _ hrun b hb))),
        nil_append]

lemma exists_of_mem_flatMap_runs (h : KeySorted key l) {b : β} (hb : b ∈ (runs key l).flatMap f) :
    ∃ a ∈ l, key a = keyOut b := by
  have hb' : b ∈ withKey keyOut (keyOut b) ((runs key l).flatMap f) := mem_withKey.mpr ⟨hb, rfl⟩
  rw [filter_flatMap_runs hf h] at hb'
  by_contra hne
  have hnil : withKey key (keyOut b) l = [] :=
    withKey_eq_nil.mpr fun a ha h' => hne ⟨a, ha, h'⟩
  simp [hnil, hf.nil] at hb'

lemma sorted_flatMap_runs (h : KeySorted key l) : KeySorted keyOut ((runs key l).flatMap f) := by
  induction l, h using KeySorted.run_induction with
  | nil => exact List.Pairwise.nil
  | run a l h ih =>
    have hrun : ∀ b ∈ withKey key (key a) (a :: l), key b = key a := fun b hb =>
      (mem_withKey.mp hb).2
    rw [runs_cons h]
    refine pairwise_append.mpr ⟨?_, ih, ?_⟩
    · refine pairwise_iff_forall_sublist.mpr fun {b c} hbc => ?_
      rw [hf.mem _ _ hrun b (hbc.subset (by simp)), hf.mem _ _ hrun c (hbc.subset (by simp))]
    · intro b hb c hc
      obtain ⟨d, hd, hdc⟩ := exists_of_mem_flatMap_runs hf (h.filter _) hc
      rw [hf.mem _ _ hrun b hb, ← hdc]
      rcases mem_cons.mp (mem_filter.mp hd).1 with rfl | hd
      · exact le_refl _
      · exact (pairwise_cons.mp h).1 d hd

end

end KeyRuns
