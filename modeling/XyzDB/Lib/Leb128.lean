import Mathlib

/-!
# Variable-length numbers

A number in groups of seven bits, the lowest first, one group a byte, with the high bit set in
every byte but the last. The reader has a width: it refuses a byte whose group would start at
or beyond it, and drops the bits that do not fit. Numbers below that width are read back
whatever follows them (`read_write`).
-/

namespace Leb128

/-- The bytes of a number, in at most `fuel` groups. -/
def writeAux : ℕ → ℕ → List UInt8
  | 0, _ => []
  | fuel + 1, n =>
    if n / 128 = 0 then [UInt8.ofNat (n % 128)]
    else UInt8.ofNat (n % 128 + 128) :: writeAux fuel (n / 128)

/-- The bytes of a number of at most `width` bits. -/
def write (width n : ℕ) : List UInt8 := writeAux (width / 7 + 1) n

/-- The loop of the reader: `value` is what has been read, `shift` where the next group goes. -/
def readAux (width : ℕ) : List UInt8 → ℕ → ℕ → Option (ℕ × List UInt8)
  | [], _, _ => none
  | byte :: rest, value, shift =>
    if width ≤ shift then none
    else
      let value' := value ||| ((byte.toNat % 128) <<< shift) % 2 ^ width
      if byte.toNat < 128 then some (value', rest) else readAux width rest value' (shift + 7)

/-- The number at the front, and what is behind it. -/
def read (width : ℕ) (bytes : List UInt8) : Option (ℕ × List UInt8) := readAux width bytes 0 0

variable {width value shift : ℕ}

lemma or_group {group : ℕ} (hvalue : value < 2 ^ shift) (hfits : group * 2 ^ shift < 2 ^ width) :
    value ||| (group <<< shift) % 2 ^ width = value + group * 2 ^ shift := by
  rw [Nat.shiftLeft_eq, Nat.mod_eq_of_lt hfits, Nat.or_comm, Nat.mul_comm group,
    ← Nat.two_pow_add_eq_or_of_lt hvalue, Nat.add_comm]

variable {n : ℕ}

lemma readAux_last (rest : List UInt8) (hn : n < 128) (hvalue : value < 2 ^ shift)
    (hshift : shift < width) (hfits : n * 2 ^ shift < 2 ^ width) :
    readAux width (UInt8.ofNat n :: rest) value shift = some (value + n * 2 ^ shift, rest) := by
  have hbyte : (UInt8.ofNat n).toNat = n := by
    rw [UInt8.toNat_ofNat']
    omega
  simp only [readAux, if_neg (not_le.mpr hshift), hbyte, if_pos hn, Nat.mod_eq_of_lt hn,
    or_group hvalue hfits]

/-- The loop reads what the writer wrote: `value` is below the groups still to come. -/
lemma readAux_writeAux {fuel : ℕ} (rest : List UInt8) (hfuel : n < 128 ^ (fuel + 1))
    (hvalue : value < 2 ^ shift) (hshift : shift < width) (hfits : n * 2 ^ shift < 2 ^ width) :
    readAux width (writeAux (fuel + 1) n ++ rest) value shift =
      some (value + n * 2 ^ shift, rest) := by
  induction fuel generalizing n value shift with
  | zero =>
    have hn : n < 128 := by simpa using hfuel
    rw [writeAux, if_pos (Nat.div_eq_of_lt hn), Nat.mod_eq_of_lt hn]
    exact readAux_last rest hn hvalue hshift hfits
  | succ fuel ih =>
    rw [writeAux]
    have hsplit : n % 128 + 128 * (n / 128) = n := Nat.mod_add_div n 128
    have hlow : n % 128 * 2 ^ shift < 2 ^ width :=
      lt_of_le_of_lt (Nat.mul_le_mul_right _ (Nat.mod_le n 128)) hfits
    by_cases hzero : n / 128 = 0
    · have hn : n < 128 := by omega
      rw [if_pos hzero, Nat.mod_eq_of_lt hn]
      exact readAux_last rest hn hvalue hshift hfits
    · rw [if_neg hzero, List.cons_append, readAux, if_neg (not_le.mpr hshift)]
      have hbyte : (UInt8.ofNat (n % 128 + 128)).toNat = n % 128 + 128 := by
        rw [UInt8.toNat_ofNat']
        omega
      have hgroup : (n % 128 + 128) % 128 = n % 128 := by omega
      have hmore : ¬ n % 128 + 128 < 128 := by omega
      simp only [hbyte, hgroup, or_group hvalue hlow]
      -- the rest of the number stands seven bits higher
      have hpow : 2 ^ (shift + 7) = 128 * 2 ^ shift := by rw [Nat.pow_add]; omega
      have hrest : n / 128 * 2 ^ (shift + 7) < 2 ^ width := by
        rw [hpow, ← Nat.mul_assoc]
        refine lt_of_le_of_lt (Nat.mul_le_mul_right _ ?_) hfits
        omega
      rw [ih (by rw [Nat.pow_succ] at hfuel; omega) ?_ ?_ hrest]
      · refine congrArg some (Prod.ext ?_ rfl)
        rw [hpow, Nat.add_assoc]
        refine congrArg (value + ·) ?_
        calc n % 128 * 2 ^ shift + n / 128 * (128 * 2 ^ shift)
            = (n % 128 + 128 * (n / 128)) * 2 ^ shift := by
              rw [Nat.add_mul, Nat.mul_comm 128 (n / 128), Nat.mul_assoc]
          _ = n * 2 ^ shift := by rw [hsplit]
      · rw [hpow]
        have : n % 128 * 2 ^ shift ≤ 127 * 2 ^ shift := Nat.mul_le_mul_right _ (by omega)
        omega
      · -- a further group is only written when the number reaches it
        refine (Nat.pow_lt_pow_iff_right (by decide : 1 < 2)).mp (lt_of_le_of_lt ?_ hrest)
        exact Nat.le_mul_of_pos_left _ (pos_of_ne_zero hzero)

/-- **Round trip.** A number below the width is read back, and nothing behind it is touched. -/
theorem read_write (rest : List UInt8) (hwidth : 0 < width) (hn : n < 2 ^ width) :
    read width (write width n ++ rest) = some (n, rest) := by
  have hfuel : n < 128 ^ (width / 7 + 1) := by
    refine lt_of_lt_of_le hn ?_
    rw [show 128 = 2 ^ 7 by rfl, ← Nat.pow_mul]
    exact Nat.pow_le_pow_right (by decide) (by omega)
  have h : readAux width (write width n ++ rest) 0 0 = some (0 + n * 2 ^ 0, rest) :=
    readAux_writeAux rest hfuel (by decide) hwidth (by simpa using hn)
  simpa [read] using h

end Leb128
