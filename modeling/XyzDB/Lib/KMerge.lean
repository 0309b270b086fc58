import Mathlib

/-!
# K-way merge of sorted sources

A heap-driven merge repeatedly pops a least head among its sources. The order in
which it pops heads that compare equal is an accident of the heap's layout; here
it is a parameter `pick`, consulted with the remaining sources, which may name
any least head (an answer that is not one is replaced by the first least head).
Every statement below holds for every `pick`.

The merge loses and invents nothing (`kmerge_perm`) and its output is sorted
when the sources are (`kmerge_sorted`).
-/

namespace KMerge

open List

variable {α : Type}

section

variable (le : α → α → Bool)

/-- Whether the head of source `i` is least among the heads. -/
def isLeast (srcs : List (List α)) (i : ℕ) : Bool :=
  match srcs[i]? with
  | some (a :: _) => srcs.all fun s => s.head?.all fun b => le a b
  | _ => false

variable (pick : List (List α) → ℕ)

/-- The source whose head is popped next. -/
def popIdx (srcs : List (List α)) : Option ℕ :=
  if isLeast le srcs (pick srcs) then some (pick srcs)
  else (range srcs.length).find? (isLeast le srcs)

/-- Pop a least head and advance its source. -/
def pop (srcs : List (List α)) : Option (α × List (List α)) :=
  (popIdx le pick srcs).bind fun i =>
    match srcs[i]? with
    | some (a :: s) => some (a, srcs.set i s)
    | _ => none

/-- Pop until the sources run dry. -/
def kmergeAux (le : α → α → Bool) (pick : List (List α) → ℕ) : ℕ → List (List α) → List α
  | 0, _ => []
  | n + 1, srcs =>
    match pop le pick srcs with
    | some (a, srcs') => a :: kmergeAux le pick n srcs'
    | none => []

/-- The merged stream. Each pop shortens one source, so the total length bounds
the number of pops. -/
def kmerge (srcs : List (List α)) : List α :=
  kmergeAux le pick srcs.flatten.length srcs

end

variable {le : α → α → Bool} {pick : List (List α) → ℕ} {srcs : List (List α)}

lemma isLeast_iff {i : ℕ} : isLeast le srcs i = true ↔
      ∃ a s, srcs[i]? = some (a :: s) ∧ ∀ b t, (b :: t) ∈ srcs → le a b = true := by
  unfold isLeast
  split
  · next a s hi =>
    simp only [all_eq_true]
    constructor
    · intro h
      exact ⟨a, s, hi, fun b t hb => by simpa using h _ hb⟩
    · rintro ⟨a', s', hi', h⟩ t ht
      obtain ⟨rfl, rfl⟩ : a = a' ∧ s = s' := by simpa [hi] using hi'
      cases t with
      | nil => rfl
      | cons b t => simpa using h b t ht
  · next hne =>
    simp only [Bool.false_eq_true, false_iff, not_exists, not_and]
    intro a s h
    exact absurd h (hne a s)

lemma isLeast_of_popIdx {i : ℕ} (h : popIdx le pick srcs = some i) : isLeast le srcs i = true := by
  unfold popIdx at h
  split at h
  · next h' => exact Option.some.inj h ▸ h'
  · exact find?_some h

lemma pop_eq_some {srcs' : List (List α)} {a : α} (h : pop le pick srcs = some (a, srcs')) :
    ∃ i s, srcs[i]? = some (a :: s) ∧ srcs' = srcs.set i s ∧
      ∀ b t, (b :: t) ∈ srcs → le a b = true := by
  obtain ⟨i, hi, h⟩ := Option.bind_eq_some_iff.mp h
  obtain ⟨a', s, hget, hle⟩ := isLeast_iff.mp (isLeast_of_popIdx hi)
  rw [hget] at h
  obtain ⟨rfl, rfl⟩ := h
  exact ⟨i, s, hget, rfl, hle⟩

lemma perm_set_flatten {i : ℕ} {a : α} {s : List α}
    (h : srcs[i]? = some (a :: s)) : srcs.flatten.Perm (a :: (srcs.set i s).flatten) := by
  induction srcs generalizing i with
  | nil => simp at h
  | cons t srcs ih =>
    cases i with
    | zero =>
      simp only [getElem?_cons_zero, Option.some.injEq] at h
      subst h
      simp
    | succ i =>
      exact ((ih h).append_left t).trans perm_middle

lemma kmergeAux_subset {n : ℕ} {b : α} (h : b ∈ kmergeAux le pick n srcs) : b ∈ srcs.flatten := by
  induction n generalizing srcs with
  | zero => cases h
  | succ n ih =>
    unfold kmergeAux at h
    cases hp : pop le pick srcs with
    | none => simp [hp] at h
    | some p =>
      obtain ⟨a, srcs'⟩ := p
      obtain ⟨i, s, hget, rfl, -⟩ := pop_eq_some hp
      rw [hp] at h
      refine (perm_set_flatten hget).symm.subset ?_
      rcases mem_cons.mp h with rfl | h
      · exact mem_cons_self
      · exact .tail _ (ih h)

section

variable (htotal : ∀ a b, le a b = true ∨ le b a = true)
  (htrans : ∀ a b c, le a b = true → le b c = true → le a c = true)

include htotal htrans

lemma exists_isLeast (h : srcs.flatten ≠ []) : ∃ i, isLeast le srcs i = true := by
  have key : ∀ srcs : List (List α), srcs.flatten ≠ [] →
      ∃ a s, (a :: s) ∈ srcs ∧ ∀ b t, (b :: t) ∈ srcs → le a b = true := by
    intro srcs
    induction srcs with
    | nil => intro h; exact absurd rfl h
    | cons t srcs ih =>
      intro h
      by_cases hrest : srcs.flatten = []
      · -- only the first source is live
        cases t with
        | nil => simp [hrest] at h
        | cons a s =>
          refine ⟨a, s, mem_cons_self, fun b u hb => ?_⟩
          rcases mem_cons.mp hb with hb | hb
          · obtain ⟨rfl, -⟩ := cons.inj hb
            rcases htotal b b with h | h <;> exact h
          · have := (flatten_eq_nil_iff.mp hrest) _ hb
            cases this
      · obtain ⟨a, s, ha, hle⟩ := ih hrest
        cases t with
        | nil =>
          refine ⟨a, s, mem_cons_of_mem _ ha, fun b u hb => ?_⟩
          exact hle b u (by simpa using hb)
        | cons c u =>
          -- compare the new head with the least of the others
          rcases htotal c a with hca | hac
          · refine ⟨c, u, mem_cons_self, fun b w hb => ?_⟩
            rcases mem_cons.mp hb with hb | hb
            · obtain ⟨rfl, -⟩ := cons.inj hb
              rcases htotal b b with h | h <;> exact h
            · exact htrans _ _ _ hca (hle b w hb)
          · refine ⟨a, s, mem_cons_of_mem _ ha, fun b w hb => ?_⟩
            rcases mem_cons.mp hb with hb | hb
            · obtain ⟨rfl, -⟩ := cons.inj hb
              exact hac
            · exact hle b w hb
  obtain ⟨a, s, ha, hle⟩ := key srcs h
  obtain ⟨i, hi⟩ := mem_iff_getElem?.mp ha
  exact ⟨i, isLeast_iff.mpr ⟨a, s, hi, hle⟩⟩

lemma exists_pop (h : srcs.flatten ≠ []) : ∃ a srcs', pop le pick srcs = some (a, srcs') := by
  obtain ⟨i, hi⟩ : ∃ i, popIdx le pick srcs = some i := by
    unfold popIdx
    split
    · exact ⟨_, rfl⟩
    · obtain ⟨i, hi⟩ := exists_isLeast htotal htrans h
      rw [← Option.isSome_iff_exists, List.find?_isSome]
      obtain ⟨a, s, hget, -⟩ := isLeast_iff.mp hi
      exact ⟨i, List.mem_range.mpr (List.getElem?_eq_some_iff.mp hget).1, hi⟩
  obtain ⟨a, s, hget, -⟩ := isLeast_iff.mp (isLeast_of_popIdx hi)
  exact ⟨a, srcs.set i s, by simp [pop, hi, hget]⟩

lemma kmergeAux_perm : ∀ {n : ℕ} {srcs : List (List α)}, srcs.flatten.length ≤ n →
    (kmergeAux le pick n srcs).Perm srcs.flatten := by
  intro n
  induction n with
  | zero =>
    intro srcs h
    rw [eq_nil_of_length_eq_zero (Nat.le_zero.mp h)]
    rfl
  | succ n ih =>
    intro srcs h
    unfold kmergeAux
    by_cases hne : srcs.flatten = []
    · have hnone : pop le pick srcs = none := by
        cases hp : pop le pick srcs with
        | none => rfl
        | some p =>
          obtain ⟨i, s, hget, -⟩ := pop_eq_some hp
          have := (flatten_eq_nil_iff.mp hne) _ (mem_of_getElem? hget)
          cases this
      rw [hnone, hne]
    · obtain ⟨a, srcs', hp⟩ : ∃ a srcs', pop le pick srcs = some (a, srcs') :=
        exists_pop htotal htrans hne
      rw [hp]
      obtain ⟨i, s, hget, rfl, -⟩ := pop_eq_some hp
      have hperm := perm_set_flatten hget
      have hlen : (srcs.set i s).flatten.length ≤ n := by
        have := hperm.length_eq
        simp only [length_cons] at this
        omega
      exact ((ih hlen).cons a).trans hperm.symm

/-- **Nothing lost, nothing invented.** -/
theorem kmerge_perm (srcs : List (List α)) : (kmerge le pick srcs).Perm srcs.flatten :=
  kmergeAux_perm htotal htrans le_rfl

omit htotal in
/-- **The merged stream is sorted** when every source is. -/
theorem kmerge_sorted (hsorted : ∀ s ∈ srcs, s.Pairwise fun a b => le a b = true) :
    (kmerge le pick srcs).Pairwise fun a b => le a b = true := by
  unfold kmerge
  generalize srcs.flatten.length = n
  induction n generalizing srcs with
  | zero => exact List.Pairwise.nil
  | succ n ih =>
    unfold kmergeAux
    cases hp : pop le pick srcs with
    | none => exact List.Pairwise.nil
    | some p =>
      obtain ⟨a, srcs'⟩ := p
      obtain ⟨i, s, hget, rfl, hle⟩ := pop_eq_some hp
      have hmem : (a :: s) ∈ srcs := mem_of_getElem? hget
      have hsorted' : ∀ t ∈ srcs.set i s, t.Pairwise fun a b => le a b = true := by
        intro t ht
        rcases mem_or_eq_of_mem_set ht with ht | rfl
        · exact hsorted t ht
        · exact (pairwise_cons.mp (hsorted _ hmem)).2
      refine pairwise_cons.mpr ⟨fun b hb => ?_, ih hsorted'⟩
      -- everything still to come is at or above some head, hence above `a`
      have hb' : b ∈ srcs.flatten := by
        refine (perm_set_flatten hget).symm.subset (.tail _ ?_)
        exact kmergeAux_subset hb
      obtain ⟨t, ht, hbt⟩ := mem_flatten.mp hb'
      cases t with
      | nil => cases hbt
      | cons c t =>
        have hac := hle c t ht
        rcases mem_cons.mp hbt with rfl | hbt
        · exact hac
        · exact htrans _ _ _ hac ((pairwise_cons.mp (hsorted _ ht)).1 b hbt)

end

end KMerge
