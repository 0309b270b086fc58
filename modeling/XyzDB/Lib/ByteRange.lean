import Mathlib

/-!
# Key ranges of a prefix

The keys of one length that start with a prefix are a range of keys: from the prefix filled up
with the least byte to the prefix filled up with the greatest.

Strings that part at a byte are ordered by it, whatever follows; their complements are ordered the
other way.
-/

namespace ByteRange

open List UInt8

/-- The least key of length `p.length + n` that starts with `p`. -/
def least (p : List UInt8) (n : ℕ) : List UInt8 := p ++ replicate n 0

/-- The greatest key of length `p.length + n` that starts with `p`. -/
def greatest (p : List UInt8) (n : ℕ) : List UInt8 := p ++ replicate n 0xFF

lemma replicate_zero_le : ∀ {n : ℕ} {k : List UInt8}, k.length = n → List.replicate n 0 ≤ k
  | 0, k, h => by
    rw [List.length_eq_zero_iff.mp h]
    exact List.le_refl _
  | n + 1, b :: k, h => by
    rw [List.replicate_succ, List.cons_le_cons_iff]
    refine (UInt8.lt_or_eq_of_le UInt8.zero_le).imp_right fun hb => ⟨hb, ?_⟩
    exact replicate_zero_le (Nat.succ_inj.mp h)

lemma le_replicate_max : ∀ {n : ℕ} {k : List UInt8}, k.length = n → k ≤ List.replicate n 0xFF
  | 0, k, h => by
    rw [List.length_eq_zero_iff.mp h]
    exact List.le_refl _
  | n + 1, b :: k, h => by
    rw [List.replicate_succ, List.cons_le_cons_iff]
    have hb : b ≤ 0xFF := UInt8.le_iff_toNat_le.mpr (Nat.le_of_lt_succ b.toNat_lt)
    exact (UInt8.lt_or_eq_of_le hb).imp_right fun hb => ⟨hb, le_replicate_max (Nat.succ_inj.mp h)⟩

/-- **A range of keys is a prefix**, among the keys of one length. -/
theorem between_iff_prefix {n : ℕ} : ∀ {p k : List UInt8}, k.length = p.length + n →
    (least p n ≤ k ∧ k ≤ greatest p n ↔ p <+: k)
  | [], k, h => by
    have hk : k.length = n := by simpa using h
    simp only [ nil_prefix, iff_true]
    exact ⟨replicate_zero_le hk, le_replicate_max hk⟩
  | a :: p, [], h => by
    simp only [length_nil, length_cons] at h
    omega
  | a :: p, b :: k, h => by
    have hk : k.length = p.length + n := by simp only [length_cons] at h; omega
    have ih := between_iff_prefix hk
    simp only [least, greatest, cons_append, cons_le_cons_iff, cons_prefix_cons] at ih ⊢
    constructor
    · rintro ⟨hlo | ⟨rfl, hlo⟩, hhi | ⟨hba, hhi⟩⟩
      · exact absurd (UInt8.lt_trans hlo hhi) (UInt8.lt_irrefl _)
      · exact absurd (hba ▸ hlo) (UInt8.lt_irrefl _)
      · exact absurd hhi (UInt8.lt_irrefl _)
      · exact ⟨rfl, ih.mp ⟨hlo, hhi⟩⟩
    · rintro ⟨rfl, hp⟩
      obtain ⟨hlo, hhi⟩ := ih.mpr hp
      exact ⟨.inr ⟨rfl, hlo⟩, .inr ⟨rfl, hhi⟩⟩

lemma append_zero_le_iff : ∀ {k x : List UInt8}, k ++ [0] ≤ x ↔ k < x
  | [], [] => by simp
  | [], c :: x => by
    rw [nil_append, cons_le_cons_iff]
    simp [UInt8.lt_or_eq_of_le (UInt8.zero_le (a := c))]
  | b :: k, [] => by simp
  | b :: k, c :: x => by rw [cons_append, cons_le_cons_iff, cons_lt_cons_iff, append_zero_le_iff]

/-- `a` and `b` part at a byte that is smaller in `a`. -/
inductive Diverges : List UInt8 → List UInt8 → Prop
  | here {x y : UInt8} (h : x < y) (a b : List UInt8) : Diverges (x :: a) (y :: b)
  | cons (x : UInt8) {a b : List UInt8} (h : Diverges a b) : Diverges (x :: a) (x :: b)

namespace Diverges

variable {a b : List UInt8}

lemma append (h : Diverges a b) (t u : List UInt8) : Diverges (a ++ t) (b ++ u) := by
  induction h with
  | here h => exact .here h _ _
  | cons x _ ih => exact .cons x ih

lemma append_left (h : Diverges a b) : ∀ c, Diverges (c ++ a) (c ++ b)
  | [] => h
  | x :: c => .cons x (append_left h c)

lemma lt (h : Diverges a b) : a < b := by
  induction h with
  | here h => exact cons_lt_cons_iff.mpr (.inl h)
  | cons x _ ih => exact cons_lt_cons_iff.mpr (.inr ⟨rfl, ih⟩)

/-- Complements part the other way. -/
lemma map_not (h : Diverges a b) : Diverges (b.map (~~~ ·)) (a.map (~~~ ·)) := by
  induction h with
  | @here x y h =>
    refine .here ?_ _ _
    have hy := y.toNat_lt
    simp only [UInt8.lt_iff_toNat_lt, UInt8.toNat_not, UInt8.size] at h ⊢
    omega
  | cons x _ ih => exact .cons _ ih

lemma of_lt : ∀ {a b : List UInt8}, a < b → a <+: b ∨ Diverges a b
  | [], _, _ => .inl ⟨_, rfl⟩
  | x :: a, y :: b, h => by
    rcases cons_lt_cons_iff.mp h with hlt | ⟨rfl, hlt⟩
    · exact .inr (.here hlt a b)
    · exact (of_lt hlt).imp (cons_prefix_cons.mpr ⟨rfl, ·⟩) (.cons x)

end Diverges

lemma lt_iff_of_lt {α β : Type} [LinearOrder α] [LinearOrder β] {x y : α} {a b : β}
    (hlt : a < b → x < y) (heq : a = b → x = y) (hgt : b < a → y < x) :
    (x < y ↔ a < b) ∧ (x = y → a = b) := by
  rcases lt_trichotomy a b with h | h | h
  · exact ⟨iff_of_true (hlt h) h, fun hxy => absurd hxy (hlt h).ne⟩
  · exact ⟨iff_of_false (heq h).not_lt h.not_lt, fun _ => h⟩
  · exact ⟨iff_of_false (hgt h).not_gt h.not_gt, fun hxy => absurd hxy (hgt h).ne'⟩

end ByteRange
