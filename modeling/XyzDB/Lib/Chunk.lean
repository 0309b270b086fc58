import Mathlib

/-!
# Cutting a stream into size-bounded chunks

A writer that fills one container after another compares the size of the open
container with a limit *before* each element and opens a new one when the limit
has been reached. The chunks are never empty, their concatenation is the stream,
and each but the last has reached the limit.

`fillAt` is the size of the open container when the next element arrives. A cut
falls between two adjacent elements exactly when it has reached the limit there,
so a stream sorted by key whose equal keys always arrive at a container with
room is cut into chunks of separate key ranges (`chunk_separated`).
-/

namespace Chunk

open List

variable {α : Type} (size : α → ℕ) (limit : ℕ)

/-- The loop of the writer: `cur` is the open container, `fill` its size. -/
def chunkAux : List α → ℕ → List α → List (List α)
  | cur, _, [] => [cur]
  | cur, fill, a :: l =>
    if limit ≤ fill then cur :: chunkAux [a] (size a) l
    else chunkAux (cur ++ [a]) (fill + size a) l

/-- Cut a stream into chunks. -/
def chunk : List α → List (List α)
  | [] => []
  | a :: l => chunkAux size limit [a] (size a) l

/-- The size of the open container after a prefix of the stream. -/
def fillAux : ℕ → List α → ℕ
  | fill, [] => fill
  | fill, a :: l => fillAux (if limit ≤ fill then size a else fill + size a) l

/-- The size of the open container after the stream `l`, `0` before the first
element. -/
def fillAt : List α → ℕ
  | [] => 0
  | a :: l => fillAux size limit (size a) l

variable {size limit}

@[simp] lemma chunk_nil : chunk size limit ([] : List α) = [] := rfl

lemma chunkAux_flatten (cur : List α) (fill : ℕ) (l : List α) :
    (chunkAux size limit cur fill l).flatten = cur ++ l := by
  induction l generalizing cur fill with
  | nil => simp [chunkAux]
  | cons a l ih =>
    unfold chunkAux
    split
    · simp [ih]
    · simp [ih]

@[simp] lemma chunk_flatten (l : List α) : (chunk size limit l).flatten = l := by
  cases l with
  | nil => rfl
  | cons a l => simp [chunk, chunkAux_flatten]

variable {l c : List α}

lemma chunkAux_ne_nil {cur : List α} (hcur : cur ≠ []) {fill : ℕ}
    (hc : c ∈ chunkAux size limit cur fill l) : c ≠ [] := by
  induction l generalizing cur fill with
  | nil => simp only [chunkAux, mem_singleton] at hc; exact hc ▸ hcur
  | cons a l ih =>
    unfold chunkAux at hc
    split at hc
    · rcases mem_cons.mp hc with rfl | hc
      · exact hcur
      · exact ih (by simp) hc
    · exact ih (by simp) hc

lemma chunk_ne_nil (hc : c ∈ chunk size limit l) : c ≠ [] := by
  cases l with
  | nil => cases hc
  | cons a l => exact chunkAux_ne_nil (by simp) hc

lemma mem_of_mem_chunk (hc : c ∈ chunk size limit l) {a : α} (ha : a ∈ c) : a ∈ l := by
  have h : a ∈ (chunk size limit l).flatten := mem_flatten.mpr ⟨c, hc, ha⟩
  rwa [chunk_flatten] at h

lemma Pairwise.of_mem_chunk {R : α → α → Prop} (h : l.Pairwise R) (hc : c ∈ chunk size limit l) :
    c.Pairwise R := by
  rw [← chunk_flatten l] at h
  exact (pairwise_flatten.mp h).1 c hc

lemma chunkAux_boundary {cur : List α} {fill : ℕ} {pre : List (List α)} {c' : List α}
    {post : List (List α)} (h : chunkAux size limit cur fill l = pre ++ c :: c' :: post) :
    ∃ l₁, cur ++ l₁ = pre.flatten ++ c ∧ limit ≤ fillAux size limit fill l₁ := by
  induction l generalizing cur fill pre with
  | nil =>
    have := congrArg List.length h
    simp [chunkAux] at this
    omega
  | cons a l ih =>
    unfold chunkAux at h
    split at h
    · next hfull =>
      cases pre with
      | nil =>
        -- the cut right before `a`
        obtain ⟨rfl, -⟩ := List.cons.inj h
        exact ⟨[], by simp, hfull⟩
      | cons p pre =>
        obtain ⟨rfl, h'⟩ := List.cons.inj h
        obtain ⟨l₁, hl₁, hfill⟩ := ih h'
        refine ⟨a :: l₁, ?_, by simpa [fillAux, hfull] using hfill⟩
        rw [flatten_cons, append_assoc, ← hl₁]
        rfl
    · next hroom =>
      obtain ⟨l₁, hl₁, hfill⟩ := ih h
      exact ⟨a :: l₁, by simpa using hl₁, by simpa [fillAux, hroom] using hfill⟩

lemma chunk_boundary {pre : List (List α)} {c' : List α} {post : List (List α)}
    (h : chunk size limit l = pre ++ c :: c' :: post) :
    limit ≤ fillAt size limit (pre.flatten ++ c) := by
  cases l with
  | nil => simp at h
  | cons a l =>
    obtain ⟨l₁, hl₁, hfill⟩ := chunkAux_boundary h
    rw [← hl₁]
    exact hfill

/-- **Separation.** A stream sorted by key, in which an element never arrives at
a full container right after one of the same key, is cut into chunks of strictly
increasing keys. -/
theorem chunk_separated {κ : Type} [LinearOrder κ] {key : α → κ}
    (hsorted : l.Pairwise fun a b => key a ≤ key b)
    (hroom : ∀ pre a b post, l = pre ++ a :: b :: post → key a = key b →
      fillAt size limit (pre ++ [a]) < limit) :
    (chunk size limit l).Pairwise fun c c' => ∀ a ∈ c, ∀ b ∈ c', key a < key b := by
  refine pairwise_iff_forall_sublist.mpr ?_
  intro c d hcd a ha b hb
  -- bring out the chunk right after `c`
  obtain ⟨pre, rest, hsplit, hd⟩ : ∃ pre rest, chunk size limit l = pre ++ c :: rest ∧
      d ∈ rest := by
    obtain ⟨r₁, r₂, hr, h₁, h₂⟩ := cons_sublist_iff.mp hcd
    obtain ⟨p, q, rfl⟩ := append_of_mem h₁
    refine ⟨p, q ++ r₂, by simpa using hr, ?_⟩
    exact mem_append_right _ (h₂.subset (by simp))
  cases rest with
  | nil => cases hd
  | cons c' post =>
    have hl : l = pre.flatten ++ (c ++ (c' ++ post.flatten)) := by
      rw [← chunk_flatten l, hsplit]
      simp
    have hmem : ∀ x ∈ chunk size limit l, x ≠ [] := fun x hx => chunk_ne_nil hx
    obtain ⟨c₀, x, rfl⟩ := eq_nil_or_concat' c |>.resolve_left (hmem c (by rw [hsplit]; simp))
    obtain ⟨y, c₁, rfl⟩ := exists_cons_of_ne_nil (hmem c' (by rw [hsplit]; simp))
    -- `a ≤ x`, the last of `c`, strictly before `y`, the first of the next chunk, `≤ b`
    rw [hl] at hsorted
    obtain ⟨-, htail, -⟩ := pairwise_append.mp hsorted
    obtain ⟨hc, hafter, hacross⟩ := pairwise_append.mp htail
    have hax : key a ≤ key x := by
      rcases mem_append.mp ha with ha | ha
      · exact (pairwise_append.mp hc).2.2 a ha x (by simp)
      · rw [mem_singleton.mp ha]
    have hyb : key y ≤ key b := by
      have hb' : b ∈ y :: (c₁ ++ post.flatten) := by
        rcases mem_cons.mp hd with rfl | hd
        · exact mem_append_left _ hb
        · exact .tail _ (mem_append_right _ (mem_flatten.mpr ⟨d, hd, hb⟩))
      rcases mem_cons.mp hb' with rfl | hb'
      · exact le_refl _
      · exact (pairwise_cons.mp hafter).1 b hb'
    have hxy : key x ≤ key y := hacross x (by simp) y (by simp)
    have hne : key x ≠ key y := by
      intro heq
      have hlt := hroom (pre.flatten ++ c₀) x y (c₁ ++ post.flatten) (by simp [hl]) heq
      have hge := chunk_boundary hsplit
      rw [append_assoc] at hlt
      exact absurd hlt (not_lt.mpr hge)
    exact lt_of_le_of_lt hax (lt_of_lt_of_le (lt_of_le_of_ne hxy hne) hyb)

end Chunk
