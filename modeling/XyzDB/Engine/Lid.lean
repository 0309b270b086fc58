import XyzDB.Engine.Record

/-!
# Logical identifiers

A record's `lid` is 128 bits: node, lobe of birth, time of birth, a counter and the number of
the process lifetime. It is printed as five groups of hexadecimal digits and read back from
that form; a lookup in the dictionary goes through the printed form.
-/

namespace XyzDB.Engine

open List

abbrev Lid := BitVec 128

instance : Std.TransOrd Lid := inferInstance

namespace Lid

section

variable (lobe : UInt16)

/-- `LID::new`, with the clock, the counter and the lifetime as they are at the call. -/
def new (timestamp seq epoch : ℕ) : Lid :=
  BitVec.ofNat 128 (lobe.toNat * 2 ^ 96 + timestamp % 2 ^ 48 * 2 ^ 48 + seq % 2 ^ 32 * 2 ^ 16 +
    epoch % 2 ^ 16)

def nodeId (lid : Lid) : ℕ := lid.toNat / 2 ^ 112

def lobeId (lid : Lid) : UInt16 := UInt16.ofNat (lid.toNat / 2 ^ 96)

def timestamp (lid : Lid) : ℕ := lid.toNat / 2 ^ 48 % 2 ^ 48

def sequence (lid : Lid) : ℕ := lid.toNat / 2 ^ 16 % 2 ^ 32

def bootEpoch (lid : Lid) : ℕ := lid.toNat % 2 ^ 16

lemma toNat_new (timestamp seq epoch : ℕ) : (new lobe timestamp seq epoch).toNat =
      lobe.toNat * 2 ^ 96 + timestamp % 2 ^ 48 * 2 ^ 48 + seq % 2 ^ 32 * 2 ^ 16 +
        epoch % 2 ^ 16 := by
  have hl : lobe.toNat < 2 ^ 16 := lobe.toNat_lt
  rw [new, BitVec.toNat_ofNat]
  exact Nat.mod_eq_of_lt (by omega)

lemma sequence_new (timestamp seq epoch : ℕ) :
    (new lobe timestamp seq epoch).sequence = seq % 2 ^ 32 := by
  rw [sequence, toNat_new]
  omega

lemma bootEpoch_new (timestamp seq epoch : ℕ) :
    (new lobe timestamp seq epoch).bootEpoch = epoch % 2 ^ 16 := by
  rw [bootEpoch, toNat_new]
  omega

lemma lobeId_new (timestamp seq epoch : ℕ) : (new lobe timestamp seq epoch).lobeId = lobe := by
  rw [lobeId, toNat_new]
  convert UInt16.ofNat_toNat using 2
  omega

end

def hexDigit (d : ℕ) : Char :=
  if d < 10 then Char.ofNat ('0'.toNat + d) else Char.ofNat ('A'.toNat + (d - 10))

/-- `{:0wX}` of a number that fits. -/
def toHex : ℕ → ℕ → Text
  | 0, _ => []
  | w + 1, n => toHex w (n / 16) ++ [hexDigit (n % 16)]

/-- `char::to_digit(16)`. -/
def hexValue (c : Char) : Option ℕ :=
  if '0' ≤ c ∧ c ≤ '9' then some (c.toNat - '0'.toNat)
  else if 'A' ≤ c ∧ c ≤ 'F' then some (c.toNat - 'A'.toNat + 10)
  else if 'a' ≤ c ∧ c ≤ 'f' then some (c.toNat - 'a'.toNat + 10)
  else none

/-- The number of a text of hexadecimal digits, behind the digits read so far. -/
def hexNumber (acc : ℕ) : Text → Option ℕ
  | [] => some acc
  | c :: rest =>
    match hexValue c with
    | some d => hexNumber (acc * 16 + d) rest
    | none => none

/-- `from_str_radix(_, 16)` of an unsigned type with `bits` bits; a plus sign is allowed. -/
def fromHex (bits : ℕ) (s : Text) : Option ℕ :=
  let digits := if s.head? = some '+' then s.tail else s
  if digits = [] then none
  else
    match hexNumber 0 digits with
    | some n => if n < 2 ^ bits then some n else none
    | none => none

/-- `Display`. -/
def toText (lid : Lid) : Text :=
  [':'].intercalate
    [toHex 4 lid.nodeId, toHex 4 lid.lobeId.toNat, toHex 12 lid.timestamp, toHex 8 lid.sequence,
      toHex 4 lid.bootEpoch]

/-- `LID::parse`: five groups, each in its range; the time is cut to 48 bits. -/
def parse (s : Text) : Option Lid :=
  match s.splitOn ':' with
  | [node, lobe, time, seq, epoch] => do
    let node ← fromHex 16 node
    let lobe ← fromHex 16 lobe
    let time ← fromHex 64 time
    let seq ← fromHex 32 seq
    let epoch ← fromHex 16 epoch
    return BitVec.ofNat 128 (node * 2 ^ 112 + lobe * 2 ^ 96 + time % 2 ^ 48 * 2 ^ 48 +
      seq * 2 ^ 16 + epoch)
  | _ => none

lemma hexValue_hexDigit : ∀ d < 16, hexValue (hexDigit d) = some d := by decide

lemma hexDigit_ne : ∀ d < 16, hexDigit d ≠ ':' ∧ hexDigit d ≠ '+' := by decide

@[simp] lemma length_toHex (w n : ℕ) : (toHex w n).length = w := by
  induction w generalizing n with
  | zero => rfl
  | succ w ih => rw [toHex, length_append, ih, length_singleton]

lemma ne_of_mem_toHex {w n : ℕ} {c : Char} (h : c ∈ toHex w n) : c ≠ ':' ∧ c ≠ '+' := by
  induction w generalizing n with
  | zero => simp [toHex] at h
  | succ w ih =>
    rcases mem_append.mp h with h | h
    · exact ih h
    · rw [mem_singleton.mp h]
      exact hexDigit_ne _ (Nat.mod_lt _ (by omega))

lemma hexNumber_append {acc m : ℕ} {s t : Text} (h : hexNumber acc s = some m) :
    hexNumber acc (s ++ t) = hexNumber m t := by
  induction s generalizing acc with
  | nil =>
    obtain rfl : acc = m := by simpa [hexNumber] using h
    rfl
  | cons c s ih =>
    rw [cons_append, hexNumber]
    rw [hexNumber] at h
    split at h
    · next d hd => exact ih h
    · cases h

lemma hexNumber_toHex {w n acc : ℕ} (h : n < 16 ^ w) :
    hexNumber acc (toHex w n) = some (acc * 16 ^ w + n) := by
  induction w generalizing n with
  | zero =>
    obtain rfl : n = 0 := by omega
    simp [toHex, hexNumber]
  | succ w ih =>
    rw [toHex, hexNumber_append (ih (show n / 16 < 16 ^ w by omega)), hexNumber,
      hexValue_hexDigit _ (Nat.mod_lt _ (by omega))]
    simp only [hexNumber, Option.some.injEq]
    rw [Nat.pow_succ, Nat.add_mul, Nat.mul_assoc]
    omega

lemma fromHex_toHex {bits w n : ℕ} (hw : w ≠ 0) (hn : n < 16 ^ w) (hbits : n < 2 ^ bits) :
    fromHex bits (toHex w n) = some n := by
  have hne : toHex w n ≠ [] := fun h => hw (by rw [← length_toHex w n, h, length_nil])
  have hhead : ¬ (toHex w n).head? = some '+' := fun h =>
    (ne_of_mem_toHex (mem_of_mem_head? h)).2 rfl
  simp only [fromHex, if_neg hhead, if_neg hne, hexNumber_toHex hn, Nat.zero_mul, Nat.zero_add,
    if_pos hbits]

/-- **What is printed is read back.** -/
theorem parse_toText (lid : Lid) : parse lid.toText = some lid := by
  have hsplit : lid.toText.splitOn ':' =
      [toHex 4 lid.nodeId, toHex 4 lid.lobeId.toNat, toHex 12 lid.timestamp, toHex 8 lid.sequence,
        toHex 4 lid.bootEpoch] := by
    refine splitOn_intercalate ':' (fun l hl hmem => ?_) (by simp)
    have hhex : ∃ w n, l = toHex w n := by
      simp only [mem_cons, not_mem_nil, or_false] at hl
      rcases hl with rfl | rfl | rfl | rfl | rfl <;> exact ⟨_, _, rfl⟩
    obtain ⟨w, n, rfl⟩ := hhex
    exact (ne_of_mem_toHex hmem).1 rfl
  have hlobe : lid.lobeId.toNat = lid.toNat / 2 ^ 96 % 2 ^ 16 := by rw [lobeId, UInt16.toNat_ofNat']
  have hnode : lid.nodeId < 2 ^ 16 := by rw [nodeId]; omega
  have htime : lid.timestamp < 2 ^ 48 := by rw [timestamp]; omega
  have hseq : lid.sequence < 2 ^ 32 := by rw [sequence]; omega
  have hepoch : lid.bootEpoch < 2 ^ 16 := by rw [bootEpoch]; omega
  rw [parse, hsplit]
  simp only [fromHex_toHex (show 4 ≠ 0 by omega) (show lid.nodeId < 16 ^ 4 by omega) hnode,
    fromHex_toHex (show 4 ≠ 0 by omega) (show lid.lobeId.toNat < 16 ^ 4 by omega)
      (show lid.lobeId.toNat < 2 ^ 16 by omega),
    fromHex_toHex (show 12 ≠ 0 by omega) (show lid.timestamp < 16 ^ 12 by omega)
      (show lid.timestamp < 2 ^ 64 by omega),
    fromHex_toHex (show 8 ≠ 0 by omega) (show lid.sequence < 16 ^ 8 by omega) hseq,
    fromHex_toHex (show 4 ≠ 0 by omega) (show lid.bootEpoch < 16 ^ 4 by omega) hepoch,
    Option.bind_eq_bind, Option.bind_some, Option.pure_def, Option.some.injEq]
  refine BitVec.eq_of_toNat_eq ?_
  rw [BitVec.toNat_ofNat, hlobe, nodeId, timestamp, sequence, bootEpoch]
  omega

end Lid

end XyzDB.Engine
