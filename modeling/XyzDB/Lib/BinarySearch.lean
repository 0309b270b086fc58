import Mathlib

/-!
# Binary search on a slice

The search of the Rust standard library, `slice::binary_search_by`: the interval
`[base, base + size)` is halved without an early exit on a match, and a single
comparison at the end classifies the candidate. `slice::partition_point` is the
same search with a comparison that never answers `Equal`.

The slice is only assumed to be *partitioned* by the comparison, all `Less`
before all `Equal` before all `Greater`. Under that assumption a successful
search points at a match and a failed one rules every match out
(`binarySearchBy_found`, `binarySearchBy_notFound`), and `partition_point` counts the leading
elements that satisfy its predicate (`partitionPoint_spec`). When several
elements match, which of them is returned is an accident of the halving.
-/

namespace BinarySearch

open List Option

variable {α : Type}

/-- The halving loop: from `[base, base + size)` to the last candidate index. -/
def searchLoop (cmp : α → Ordering) (l : List α) : ℕ → ℕ → ℕ → ℕ
  | 0, base, _ => base
  | fuel + 1, base, size =>
    if size ≤ 1 then base
    else
      let half := size / 2
      let mid := base + half
      let base' := if (l[mid]?.map cmp) = some .gt then base else mid
      searchLoop cmp l fuel base' (size - half)

/-- `slice::binary_search_by`: `.ok i` is the index of a match, `.error i` the
index at which a match could be inserted. -/
def binarySearchBy (cmp : α → Ordering) (l : List α) : Except ℕ ℕ :=
  match l with
  | [] => .error 0
  | a :: l' =>
    let base := searchLoop cmp (a :: l') (a :: l').length 0 (a :: l').length
    match (a :: l')[base]?.map cmp with
    | some .eq => .ok base
    | some .lt => .error (base + 1)
    | _ => .error base

def partitionPoint (p : α → Bool) (l : List α) : ℕ :=
  match binarySearchBy (fun a => if p a then .lt else .gt) l with
  | .ok i => i
  | .error i => i

/-- `l` lists the elements `cmp` calls `Less` first, then its matches, then those
it calls `Greater`. -/
def Partitioned (cmp : α → Ordering) (l : List α) : Prop :=
  l.Pairwise fun a b => (cmp b = .lt → cmp a = .lt) ∧ (cmp a = .gt → cmp b = .gt)

variable {cmp : α → Ordering} {l : List α}

variable {i : ℕ} {a : α}

lemma Partitioned.of_le (h : Partitioned cmp l) {j : ℕ} (hij : i ≤ j) {b : α}
    (ha : l[i]? = some a) (hb : l[j]? = some b) :
    (cmp b = .lt → cmp a = .lt) ∧ (cmp a = .gt → cmp b = .gt) := by
  obtain ⟨hi, rfl⟩ := List.getElem?_eq_some_iff.mp ha
  obtain ⟨hj, rfl⟩ := List.getElem?_eq_some_iff.mp hb
  rcases Nat.lt_or_eq_of_le hij with hlt | rfl
  · exact List.pairwise_iff_getElem.mp h i j hi hj hlt
  · exact ⟨id, id⟩

/-- What the loop maintains: the interval lies in the slice, everything at or
past its end is `Greater`, and its first element is not, unless it is the first
of the slice. -/
structure LoopInv (cmp : α → Ordering) (l : List α) (base size : ℕ) : Prop where
  size_pos : 0 < size
  le_length : base + size ≤ l.length
  upper : ∀ j b, base + size ≤ j → l[j]? = some b → cmp b = .gt
  lower : base = 0 ∨ ∃ b, l[base]? = some b ∧ cmp b ≠ .gt

lemma searchLoop_inv (hp : Partitioned cmp l) :
    ∀ {fuel base size : ℕ}, LoopInv cmp l base size → size ≤ fuel →
      LoopInv cmp l (searchLoop cmp l fuel base size) 1 := by
  intro fuel
  induction fuel with
  | zero => intro base size h hf; exact absurd h.size_pos (by omega)
  | succ fuel ih =>
    intro base size h hf
    unfold searchLoop
    split
    · next h1 =>
      have hs : size = 1 := by have := h.size_pos; omega
      exact hs ▸ h
    · next h1 =>
      have hmid : base + size / 2 < l.length := by have := h.le_length; omega
      obtain ⟨b, hb⟩ : ∃ b, l[base + size / 2]? = some b :=
        ⟨_, getElem?_eq_getElem hmid⟩
      refine ih ?_ (by omega)
      rw [hb, map_some]
      split
      · next hgt =>
        -- the middle is `Greater`: so is everything after it
        have hgt : cmp b = .gt := some.inj hgt
        refine ⟨by omega, by have := h.le_length; omega, fun j c hj hc => ?_, h.lower⟩
        exact (hp.of_le (by omega) hb hc).2 hgt
      · next hgt =>
        refine ⟨by omega, by have := h.le_length; omega, fun j c hj hc => ?_, Or.inr ⟨b, hb, ?_⟩⟩
        · exact h.upper j c (by omega) hc
        · exact fun h' => hgt (by rw [h'])

lemma binarySearchBy_found (h : binarySearchBy cmp l = .ok i) :
    ∃ a, l[i]? = some a ∧ cmp a = .eq := by
  cases l with
  | nil => simp [binarySearchBy] at h
  | cons a l =>
    simp only [binarySearchBy] at h
    split at h
    · next heq =>
      simp only [Except.ok.injEq] at h
      rw [← h]
      simpa [map_eq_some_iff] using heq
    · cases h
    · cases h

/-- A failed search splits the slice at the returned index into `Less` and
`Greater`, so nothing matches. -/
lemma binarySearchBy_notFound (hp : Partitioned cmp l) (h : binarySearchBy cmp l = .error i) :
    i ≤ l.length ∧ (∀ j b, j < i → l[j]? = some b → cmp b = .lt) ∧
      ∀ j b, i ≤ j → l[j]? = some b → cmp b = .gt := by
  cases hl : l with
  | nil =>
    subst hl
    simp only [binarySearchBy, Except.error.injEq] at h
    exact ⟨by omega, fun j b hj => by omega, fun j b _ hb => by simp at hb⟩
  | cons a l' =>
    have hinv : LoopInv cmp l 0 l.length := by
      refine ⟨by simp [hl], by simp, fun j b hj hb => ?_, Or.inl rfl⟩
      rw [getElem?_eq_none (by omega)] at hb
      cases hb
    have hend := searchLoop_inv hp hinv le_rfl
    rw [hl] at h
    simp only [binarySearchBy] at h
    rw [← hl] at h ⊢
    set base := searchLoop cmp l l.length 0 l.length with hbase
    have hlen := hend.le_length
    obtain ⟨c, hc⟩ : ∃ c, l[base]? = some c := ⟨_, getElem?_eq_getElem (by omega)⟩
    rw [hc, map_some] at h
    split at h
    · cases h
    · next hlt =>
      -- the candidate is `Less`: everything up to it is, everything after is `Greater`
      have hlt : cmp c = .lt := some.inj hlt
      simp only [Except.error.injEq] at h
      subst h
      exact ⟨hlen, fun j b hj hb => (hp.of_le (by omega) hb hc).1 hlt,
        fun j b hj hb => hend.upper j b (by omega) hb⟩
    · next hne1 hne2 =>
      simp only [Except.error.injEq] at h
      have hgt : cmp c = .gt := by
        cases hcmp : cmp c with
        | lt => exact absurd (by rw [hcmp]) hne2
        | eq => exact absurd (by rw [hcmp]) hne1
        | gt => rfl
      -- a `Greater` candidate can only be the first element
      have h0 : base = 0 := by
        rcases hend.lower with h0 | ⟨b, hb, hb'⟩
        · exact h0
        · rw [hc] at hb
          exact absurd (some.inj hb ▸ hgt) hb'
      subst h
      refine ⟨by omega, fun j b hj _ => by omega, fun j b hj hb => ?_⟩
      exact (hp.of_le hj hc hb).2 hgt

lemma binarySearchBy_eq_none (hp : Partitioned cmp l) (h : binarySearchBy cmp l = .error i)
    (ha : a ∈ l) : cmp a ≠ .eq := by
  obtain ⟨-, hlt, hgt⟩ := binarySearchBy_notFound hp h
  obtain ⟨j, hj⟩ := mem_iff_getElem?.mp ha
  rcases lt_or_ge j i with hji | hji
  · rw [hlt j a hji hj]; decide
  · rw [hgt j a hji hj]; decide

/-- `partition_point` is the number of leading elements that satisfy the
predicate, when these are all the elements that do. -/
lemma partitionPoint_spec {p : α → Bool} (hp : l.Pairwise fun a b => p b = true → p a = true) :
    partitionPoint p l ≤ l.length ∧ (∀ j b, j < partitionPoint p l → l[j]? = some b → p b = true) ∧
      ∀ j b, partitionPoint p l ≤ j → l[j]? = some b → p b = false := by
  have hpart : Partitioned (fun a => if p a then Ordering.lt else .gt) l := by
    refine hp.imp ?_
    intro a b hab
    cases ha : p a <;> cases hb : p b <;> simp_all
  unfold partitionPoint
  cases hs : binarySearchBy (fun a => if p a then Ordering.lt else .gt) l with
  | ok i =>
    obtain ⟨a, -, ha⟩ := binarySearchBy_found hs
    cases hpa : p a <;> simp [hpa] at ha
  | error i =>
    obtain ⟨hle, hlt, hgt⟩ := binarySearchBy_notFound hpart hs
    refine ⟨hle, fun j b hj hb => ?_, fun j b hj hb => ?_⟩
    · have := hlt j b hj hb
      cases hpb : p b <;> simp [hpb] at this ⊢
    · have := hgt j b hj hb
      cases hpb : p b <;> simp [hpb] at this ⊢

lemma drop_partitionPoint {p : α → Bool} (hp : l.Pairwise fun a b => p b = true → p a = true) :
    l.drop (partitionPoint p l) = l.dropWhile p := by
  obtain ⟨hle, hlt, hge⟩ := partitionPoint_spec hp
  set n := partitionPoint p l
  have htake : ∀ a ∈ l.take n, p a = true := by
    intro a ha
    obtain ⟨j, hj⟩ := List.mem_iff_getElem?.mp ha
    have hjn : j < n := by
      have := (List.getElem?_eq_some_iff.mp hj).1
      rw [List.length_take] at this
      omega
    exact hlt j a hjn (by rwa [List.getElem?_take_of_lt hjn] at hj)
  conv_rhs => rw [← List.take_append_drop n l, List.dropWhile_append_of_pos htake]
  cases hd : l.drop n with
  | nil => rfl
  | cons a r =>
    have ha : l[n]? = some a := by rw [← List.head?_drop, hd, List.head?_cons]
    rw [List.dropWhile_cons_of_neg (by simp [hge n a (Nat.le_refl n) ha])]

end BinarySearch
