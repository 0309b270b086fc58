import Mathlib

/-!
# Reading framed records

A reader takes a value off the front of a list of symbols. The notion everything is
stated in is `Reader.Exact r x a`: the reader `r` reads the string `x` as `a`, whatever
follows, and reads nothing from a proper prefix of `x`. It composes (`Exact.bind`,
`Exact.count`), so a record format is exact as soon as its fields are.

A file of records is read by `Reader.many`: record after record until one cannot be
read. For an exact format it returns the whole records at the front of a file
(`many_append`) and nothing for a torn one behind them (`many_eq_nil`), and cutting such a
file anywhere leaves a file of the same kind (`Torn.take`).
-/

namespace Codec

open List

variable {σ α β : Type}

/-- A reader takes a value off the front of a list of symbols. -/
abbrev Reader (σ α : Type) := List σ → Option (α × List σ)

variable {l rest : List σ} {n : ℕ}

namespace Reader

/-- Read nothing. -/
def pure (a : α) : Reader σ α := fun l => some (a, l)

/-- Read one thing after the other. -/
def bind (r : Reader σ α) (f : α → Reader σ β) : Reader σ β := fun l =>
  match r l with
  | none => none
  | some (a, rest) => f a rest

/-- Read one symbol. -/
def one : Reader σ σ
  | [] => none
  | b :: l => some (b, l)

/-- Read a given number of symbols. -/
def take (n : ℕ) : Reader σ (List σ) := fun l =>
  if n ≤ l.length then some (l.take n, l.drop n) else none

/-- Read the same thing a given number of times. -/
def count (r : Reader σ α) : ℕ → Reader σ (List α)
  | 0 => pure []
  | n + 1 => r.bind fun a => (count r n).bind fun as => pure (a :: as)

/-- Read record after record, and stop where none can be read. The fuel bounds the
number of records. -/
def many (r : Reader σ α) : ℕ → List σ → List α
  | 0, _ => []
  | fuel + 1, l =>
    if l.isEmpty then []
    else match r l with
      | none => []
      | some (a, rest) => a :: many r fuel rest

/-- `r` reads `x` as `a`, whatever follows, and reads nothing from less. -/
structure Exact (r : Reader σ α) (x : List σ) (a : α) : Prop where
  reads : ∀ rest, r (x ++ rest) = some (a, rest)
  short : ∀ y, y <+: x → y ≠ x → r y = none

lemma exact_pure (a : α) : (pure a : Reader σ α).Exact [] a :=
  ⟨fun _ => rfl, fun _ hy hne => absurd (prefix_nil.mp hy) hne⟩

lemma exact_one (b : σ) : (one : Reader σ σ).Exact [b] b := by
  refine ⟨fun _ => rfl, fun y hy hne => ?_⟩
  cases y with
  | nil => rfl
  | cons c y =>
    obtain ⟨rfl, htail⟩ := cons_prefix_cons.mp hy
    exact absurd (congrArg (c :: ·) (prefix_nil.mp htail)) hne

lemma exact_take (x : List σ) : (take x.length : Reader σ (List σ)).Exact x x := by
  refine ⟨fun rest => ?_, fun y hy hne => ?_⟩
  · rw [take, if_pos (by simp), take_left, drop_left]
  · rw [take, if_neg]
    intro hle
    exact hne (hy.eq_of_length (le_antisymm hy.length_le hle))

/-- A proper prefix of two strings in a row ends in the first or in the second. -/
lemma prefix_append_cases {x y : List σ} (h : z <+: x ++ y) (hne : z ≠ x ++ y) :
    (z <+: x ∧ z ≠ x) ∨ ∃ w, z = x ++ w ∧ w <+: y ∧ w ≠ y := by
  rcases prefix_or_prefix_of_prefix h (prefix_append x y) with hz | ⟨w, rfl⟩
  · by_cases heq : z = x
    · subst heq
      exact .inr ⟨[], (append_nil _).symm, nil_prefix, fun hy => hne (by simp [← hy])⟩
    · exact .inl ⟨hz, heq⟩
  · exact .inr ⟨w, rfl, (prefix_append_right_inj x).mp h, fun heq => hne (by rw [heq])⟩

lemma Exact.bind {r : Reader σ α} {f : α → Reader σ β} {x y : List σ} {a : α} {b : β}
    (hr : r.Exact x a) (hf : (f a).Exact y b) : (r.bind f).Exact (x ++ y) b := by
  refine ⟨fun rest => ?_, fun z hz hne => ?_⟩
  · rw [Reader.bind, append_assoc, hr.reads]
    exact hf.reads rest
  · rcases prefix_append_cases hz hne with ⟨hz, hne⟩ | ⟨w, rfl, hw, hne⟩
    · rw [Reader.bind, hr.short z hz hne]
    · rw [Reader.bind, hr.reads]
      exact hf.short w hw hne

lemma Exact.map {r : Reader σ α} {x : List σ} {a : α} (hr : r.Exact x a) (g : α → β) :
    (r.bind fun a => pure (g a)).Exact x (g a) := by
  have h := hr.bind (f := fun a => pure (g a)) (exact_pure (g a))
  rwa [append_nil] at h

lemma Exact.count {r : Reader σ α} (h : ∀ a ∈ as, r.Exact (enc a) a) :
    (r.count as.length).Exact (as.flatMap enc) as := by
  induction as with
  | nil => exact exact_pure []
  | cons a as ih =>
    refine (h a mem_cons_self).bind ?_
    exact (ih fun b hb => h b (.tail _ hb)).map (a :: ·)

lemma bind_eq_some {r : Reader σ α} {f : α → Reader σ β} {b : β} :
    r.bind f l = some (b, rest) ↔ ∃ a l', r l = some (a, l') ∧ f a l' = some (b, rest) := by
  unfold Reader.bind
  rcases r l with - | ⟨a, l'⟩ <;> simp

lemma one_eq_some {b : σ} : one l = some (b, rest) ↔ l = b :: rest := by
  cases l <;> simp [one]

lemma take_eq_some {x : List σ} (h : take n l = some (x, rest)) : n = x.length ∧ l = x ++ rest := by
  unfold take at h
  split at h <;> cases h
  simpa

lemma count_eq_some {r : Reader σ α} (hr : ∀ l a rest, r l = some (a, rest) → l = enc a ++ rest)
    (h : r.count n l = some (as, rest)) : n = as.length ∧ l = as.flatMap enc ++ rest := by
  induction n generalizing l as with
  | zero =>
    cases h
    exact ⟨rfl, rfl⟩
  | succ n ih =>
    obtain ⟨a, l', ha, h⟩ := bind_eq_some.mp h
    obtain ⟨as', l'', has, h⟩ := bind_eq_some.mp h
    cases h
    obtain ⟨rfl, rfl⟩ := ih has
    exact ⟨rfl, by rw [hr l a _ ha, flatMap_cons, append_assoc]⟩

lemma exists_of_many {r : Reader σ α} (hr : ∀ l a rest, r l = some (a, rest) → l = enc a ++ rest)
    (fuel : ℕ) (l : List σ) : ∃ rest, l = (r.many fuel l).flatMap enc ++ rest := by
  induction fuel generalizing l with
  | zero => exact ⟨l, rfl⟩
  | succ fuel ih =>
    unfold many
    split
    · exact ⟨l, rfl⟩
    · split
      · exact ⟨l, rfl⟩
      · next a rest ha =>
        obtain ⟨rest', hrest⟩ := ih rest
        exact ⟨rest', by rw [hr l a rest ha, flatMap_cons, append_assoc, ← hrest]⟩

/-- What a failed append leaves: a proper prefix of a record, possibly nothing. -/
def Torn (enc : α → List σ) (P : α → Prop) (z : List σ) : Prop :=
  z = [] ∨ ∃ a, P a ∧ z <+: enc a ∧ z ≠ enc a

section

variable {r : Reader σ α} {enc : α → List σ} {P : α → Prop} {as : List α} {z : List σ}

/-- Records that are whole are read, and what follows them is read with the rest of the fuel. -/
lemma many_append (hexact : ∀ a ∈ as, r.Exact (enc a) a) (hne : ∀ a ∈ as, enc a ≠ []) (fuel : ℕ) :
    r.many (as.length + fuel) (as.flatMap enc ++ z) = as ++ r.many fuel z := by
  induction as with
  | nil => rw [length_nil, Nat.zero_add, flatMap_nil, nil_append, nil_append]
  | cons a as ih =>
    have hnil : (enc a ++ (as.flatMap enc ++ z)).isEmpty = false := by
      cases henc : enc a with
      | nil => exact absurd henc (hne a mem_cons_self)
      | cons b l => rfl
    rw [flatMap_cons, append_assoc, length_cons, Nat.add_right_comm, many, hnil,
      (hexact a mem_cons_self).reads]
    exact congrArg (a :: ·) (ih (fun b hb => hexact b (.tail _ hb)) fun b hb => hne b (.tail _ hb))

lemma many_eq_nil (h : r z = none) (fuel : ℕ) : r.many fuel z = [] := by
  cases fuel with
  | zero => rfl
  | succ fuel =>
    rw [many, h]
    split <;> rfl

lemma length_le_of_ne_nil (hne : ∀ a ∈ as, enc a ≠ []) : as.length ≤ (as.flatMap enc).length := by
  induction as with
  | nil => exact le_rfl
  | cons a as ih =>
    have hpos : 0 < (enc a).length := length_pos_iff.mpr (hne a mem_cons_self)
    have := ih fun b hb => hne b (.tail _ hb)
    rw [flatMap_cons, length_append, length_cons]
    omega

lemma Torn.of_prefix (hz : Torn enc P z) {y : List σ} (hy : y <+: z) : Torn enc P y := by
  rcases hz with rfl | ⟨a, ha, hpre, hneq⟩
  · exact .inl (prefix_nil.mp hy)
  · refine .inr ⟨a, ha, hy.trans hpre, fun heq => hneq ?_⟩
    exact hpre.eq_of_length (le_antisymm hpre.length_le (heq ▸ hy.length_le))

/-- **Cutting a file.** The cut file has a front of the records, among them all that end
before the cut, and a torn one. -/
theorem Torn.take (hP : ∀ a ∈ as, P a) (hz : Torn enc P z) {i : ℕ} (hi : i ≤ as.length)
    (hn : ((as.take i).flatMap enc).length ≤ n) : ∃ j z', i ≤ j ∧ j ≤ as.length ∧
      (as.flatMap enc ++ z).take n = (as.take j).flatMap enc ++ z' ∧ Torn enc P z' := by
  induction as generalizing i n with
  | nil => exact ⟨0, z.take n, hi, le_rfl, rfl, hz.of_prefix ( take_prefix _ _)⟩
  | cons a as ih =>
    by_cases hcut : n < (enc a).length
    · -- the cut is in the first record
      have hi0 : i = 0 := by
        cases i with
        | zero => rfl
        | succ i =>
          rw [take_succ_cons, flatMap_cons, length_append] at hn
          omega
      refine ⟨0, (enc a).take n, by omega, Nat.zero_le _, ?_, .inr ⟨a, hP a (by simp), ?_, ?_⟩⟩
      · rw [flatMap_cons, append_assoc, take_append_of_le_length hcut.le]
        rfl
      · exact take_prefix _ _
      · intro heq
        have := congrArg List.length heq
        rw [length_take] at this
        omega
    · have hn' : ((as.take (i - 1)).flatMap enc).length ≤ n - (enc a).length := by
        cases i with
        | zero => simp
        | succ i =>
          rw [take_succ_cons, flatMap_cons, length_append] at hn
          rw [Nat.add_sub_cancel]
          omega
      obtain ⟨j, z', hij, hj, heq, hz'⟩ := ih (fun b hb => hP b (.tail _ hb))
        (Nat.sub_le_of_le_add hi) hn'
      refine ⟨j + 1, z', by omega, Nat.succ_le_succ hj, ?_, hz'⟩
      rw [flatMap_cons, append_assoc, take_append, heq,
        take_of_length_le (Nat.not_lt.mp hcut), take_succ_cons, flatMap_cons,
        append_assoc]

end

end Reader

/-- The little-endian bytes of a number, cut off at a width. -/
def toLE : ℕ → ℕ → List UInt8
  | 0, _ => []
  | w + 1, n => UInt8.ofNat n :: toLE w (n / 256)

/-- The number a list of bytes stands for. -/
def ofLE : List UInt8 → ℕ
  | [] => 0
  | b :: l => b.toNat + 256 * ofLE l

@[simp] lemma length_toLE (w n : ℕ) : (toLE w n).length = w := by
  induction w generalizing n with
  | zero => rfl
  | succ w ih => rw [toLE, length_cons, ih]

variable {w : ℕ}

/-- The bytes above the width are cut off. -/
lemma toLE_mod (w n : ℕ) : toLE w (n % 256 ^ w) = toLE w n := by
  induction w generalizing n with
  | zero => rfl
  | succ w ih =>
    have hdiv : n % 256 ^ (w + 1) / 256 = n / 256 % 256 ^ w := by
      rw [pow_succ', Nat.mod_mul_right_div_self]
    have hbyte : UInt8.ofNat (n % 256 ^ (w + 1)) = UInt8.ofNat n := by
      rw [← UInt8.toNat_inj, UInt8.toNat_ofNat', UInt8.toNat_ofNat', pow_succ',
        Nat.mod_mod_of_dvd _ (Dvd.intro _ rfl)]
    rw [toLE, toLE, hdiv, hbyte, ih]

lemma ofLE_toLE (h : n < 256 ^ w) : ofLE (toLE w n) = n := by
  induction w generalizing n with
  | zero =>
    exact (Nat.lt_one_iff.mp h).symm
  | succ w ih =>
    rw [toLE, ofLE, ih (by rw [pow_succ] at h; omega), UInt8.toNat_ofNat']
    omega

lemma ofLE_lt : ∀ l : List UInt8, ofLE l < 256 ^ l.length
  | [] => Nat.one_pos
  | b :: l => by
    have hb : b.toNat < 256 := b.toNat_lt
    have ih := ofLE_lt l
    rw [ofLE, length_cons, Nat.pow_succ]
    omega

lemma toLE_ofLE : ∀ l : List UInt8, toLE l.length (ofLE l) = l
  | [] => rfl
  | b :: l => by
    have hb : b.toNat < 256 := b.toNat_lt
    have hdiv : (b.toNat + 256 * ofLE l) / 256 = ofLE l := by omega
    have hbyte : UInt8.ofNat (b.toNat + 256 * ofLE l) = b := by
      rw [← UInt8.toNat_inj, UInt8.toNat_ofNat']
      omega
    rw [ofLE, length_cons, toLE, hdiv, hbyte, toLE_ofLE l]

/-- Read a little-endian number of a given width. -/
def readLE (w : ℕ) : Reader UInt8 ℕ := (Reader.take w).bind fun l => .pure (ofLE l)

lemma exact_readLE (h : n < 256 ^ w) : (readLE w).Exact (toLE w n) n := by
  have hmap := (Reader.exact_take (toLE w n)).map ofLE
  rw [length_toLE, ofLE_toLE h] at hmap
  exact hmap

lemma readLE_eq_some {l rest : List UInt8} (h : readLE w l = some (n, rest)) :
    l = toLE w n ++ rest := by
  obtain ⟨x, l', htake, h⟩ := Reader.bind_eq_some.mp h
  cases h
  obtain ⟨rfl, rfl⟩ := Reader.take_eq_some htake
  rw [toLE_ofLE]

end Codec
