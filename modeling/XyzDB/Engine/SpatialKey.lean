import XyzDB.Engine.FieldRegistry
import XyzDB.Lib.ByteRange

/-!
# Spatial keys

The key of a record is 24 bytes: the lobe, the gravity bucket, the satellite within the bucket,
type and time interleaved, and a sequence number. Keys of one bucket are one range of keys.
-/

namespace XyzDB.Engine

open List

def spatialKeySize : ℕ := 24

/-- The low `w` bytes of a number, most significant first. -/
def toBE (w n : ℕ) : List UInt8 := (Codec.toLE w n).reverse

/-- The number of the given bytes, most significant first. -/
def ofBE (bytes : List UInt8) : ℕ := Codec.ofLE bytes.reverse

@[simp] lemma length_toBE (w n : ℕ) : (toBE w n).length = w := by simp [toBE]

lemma ofBE_toBE {w n : ℕ} (h : n < 256 ^ w) : ofBE (toBE w n) = n := by
  rw [ofBE, toBE, reverse_reverse, Codec.ofLE_toLE h]

lemma toBE_inj {w m n : ℕ} (hm : m < 256 ^ w) (hn : n < 256 ^ w) (h : toBE w m = toBE w n) :
    m = n := by
  rw [← ofBE_toBE hm, ← ofBE_toBE hn, h]

/-- `spread_bits_21`: bit `i` goes to position `2 * i`. -/
def spreadBits21 (v : ℕ) : ℕ :=
  (List.range 21).foldl (fun z i => z ||| ((v >>> i) &&& 1) <<< (i * 2)) 0

def zOrder2dEncode (y z : ℕ) : ℕ :=
  spreadBits21 (y &&& 0x1FFFFF) ||| (spreadBits21 (z &&& 0x1FFFFF) <<< 1)

/-- `compact_bits_21`: bit `2 * i` goes back to position `i`. -/
def compactBits21 (z : ℕ) : ℕ :=
  (List.range 21).foldl (fun v i => v ||| ((z >>> (i * 2)) &&& 1) <<< i) 0

def zOrder2dDecode (val : ℕ) : ℕ × ℕ := (compactBits21 val, compactBits21 (val >>> 1))

structure SpatialKey where
  lobeId : UInt16
  gravityHash : BitVec 48
  sat : UInt16
  typeId : UInt16
  timestampNorm : ℕ
  seq : ℕ

namespace SpatialKey

variable (lobeId : UInt16)

variable (gravityHash : BitVec 48)

def newWithSat (sat typeId : UInt16) (timestampNorm seq : ℕ) : SpatialKey :=
  ⟨lobeId, gravityHash, sat, typeId, timestampNorm &&& 0x1FFFFF, seq⟩

/-- `SpatialKey::new`, in satellite 0. -/
def new (typeId : UInt16) (timestampNorm seq : ℕ) : SpatialKey :=
  newWithSat lobeId gravityHash 0 typeId timestampNorm seq

/-- The bytes that the keys of one bucket start with. -/
def bucketPrefix : List UInt8 :=
  beBytes lobeId ++ toBE 6 gravityHash.toNat

/-- The bytes that the keys of one satellite start with. -/
def satellitePrefix (sat : UInt16) : List UInt8 :=
  bucketPrefix lobeId gravityHash ++ beBytes sat

def toBytes (k : SpatialKey) : Key :=
  satellitePrefix k.lobeId k.gravityHash k.sat ++
    (toBE 6 (zOrder2dEncode k.typeId.toNat k.timestampNorm) ++ toBE 8 k.seq)

def prefixForGravity : Key × Key :=
  (ByteRange.least (bucketPrefix lobeId gravityHash) 16,
    ByteRange.greatest (bucketPrefix lobeId gravityHash) 16)

def prefixForSatellite (sat : UInt16) : Key × Key :=
  (ByteRange.least (satellitePrefix lobeId gravityHash sat) 14,
    ByteRange.greatest (satellitePrefix lobeId gravityHash sat) 14)

end SpatialKey

def normalizeTimestamp (micros : ℕ) : ℕ := micros &&& 0x1FFFFF

/-- The lobe of a key: its first two bytes. -/
def keyLobe : Key → UInt16
  | hi :: lo :: _ => fromBeBytes hi lo
  | _ => 0

/-- `gravity_hash_from_bytes`: bytes 2 to 8. -/
def gravityHashFromBytes (k : Key) : BitVec 48 := BitVec.ofNat 48 (ofBE ((k.drop 2).take 6))

/-- The satellite of a key: bytes 8 to 10. -/
def satFromBytes (k : Key) : UInt16 := UInt16.ofNat (ofBE ((k.drop 8).take 2))

/-- The sequence number of a key: bytes 16 to 24. -/
def seqFromBytes (k : Key) : ℕ := ofBE ((k.drop 16).take 8)

def SpatialKey.fromBytes (k : Key) : SpatialKey :=
  let (typeIdRaw, timestampNorm) := zOrder2dDecode (ofBE ((k.drop 10).take 6))
  ⟨keyLobe k, gravityHashFromBytes k, satFromBytes k, .ofNat typeIdRaw, timestampNorm,
    seqFromBytes k⟩

/-- A fold that moves bit `f i` to position `g i`. -/
lemma testBit_foldl (f g : ℕ → ℕ) (v j : ℕ) (l : List ℕ) (z : ℕ) :
    (l.foldl (fun z i => z ||| ((v >>> f i) &&& 1) <<< g i) z).testBit j ↔
      z.testBit j ∨ ∃ i ∈ l, g i = j ∧ v.testBit (f i) := by
  induction l generalizing z with
  | nil => simp
  | cons i l ih =>
    have hbit : (((v >>> f i) &&& 1) <<< g i).testBit j ↔ g i = j ∧ v.testBit (f i) := by
      simp only [Nat.testBit_shiftLeft, Nat.testBit_and, Bool.and_eq_true,
        decide_eq_true_eq, Nat.testBit_one_eq_true_iff_self_eq_zero]
      constructor
      · rintro ⟨hle, hv, h0⟩
        exact ⟨by omega, by rwa [h0] at hv⟩
      · rintro ⟨rfl, hv⟩
        exact ⟨le_refl _, by rwa [Nat.sub_self], Nat.sub_self _⟩
    rw [foldl_cons, ih, Nat.testBit_or, Bool.or_eq_true, hbit, or_assoc]
    simp only [mem_cons, exists_eq_or_imp]

lemma testBit_spreadBits21 (v j : ℕ) :
    (spreadBits21 v).testBit j ↔ ∃ i < 21, i * 2 = j ∧ v.testBit i := by
  exact (testBit_foldl id (· * 2) v j _ 0).trans (by simp)

lemma testBit_compactBits21 (z j : ℕ) :
    (compactBits21 z).testBit j ↔ j < 21 ∧ z.testBit (j * 2) := by
  exact (testBit_foldl (· * 2) id z j _ 0).trans (by simp)

private theorem testBit_mask (x j : ℕ) : (x &&& 0x1FFFFF).testBit j ↔ j < 21 ∧ x.testBit j := by
  rw [show (0x1FFFFF : ℕ) = 2 ^ 21 - 1 by rfl, Nat.testBit_and, Nat.testBit_two_pow_sub_one]
  simp [and_comm]

lemma testBit_zOrder2dEncode (y z j : ℕ) : (zOrder2dEncode y z).testBit j ↔
    ∃ i < 21, (i * 2 = j ∧ y.testBit i) ∨ (i * 2 + 1 = j ∧ z.testBit i) := by
  rw [zOrder2dEncode, Nat.testBit_or, Nat.testBit_shiftLeft]
  simp only [Bool.or_eq_true, Bool.and_eq_true, testBit_spreadBits21,
    testBit_mask]
  grind

lemma zOrder2dEncode_lt (y z : ℕ) : zOrder2dEncode y z < 256 ^ 6 := by
  refine Nat.lt_pow_two_of_testBit (n := 48) _ fun j hj => Bool.eq_false_iff.mpr fun hbit => ?_
  obtain ⟨i, hi, h | h⟩ := (testBit_zOrder2dEncode y z j).mp hbit <;> omega

lemma zOrder2dDecode_encode (y z : ℕ) :
    zOrder2dDecode (zOrder2dEncode y z) = (y &&& 0x1FFFFF, z &&& 0x1FFFFF) := by
  refine Prod.ext (Nat.eq_of_testBit_eq fun j => Bool.eq_iff_iff.mpr ?_)
    (Nat.eq_of_testBit_eq fun j => Bool.eq_iff_iff.mpr ?_)
  · rw [zOrder2dDecode, testBit_compactBits21, testBit_zOrder2dEncode, testBit_mask]
    grind
  · rw [zOrder2dDecode, testBit_compactBits21, Nat.testBit_shiftRight, testBit_zOrder2dEncode,
      testBit_mask]
    grind

@[simp] lemma length_beBytes (n : UInt16) : (beBytes n).length = 2 := rfl

@[simp] lemma keyLobe_beBytes_append (n : UInt16) (rest : List UInt8) :
    keyLobe (beBytes n ++ rest) = n :=
  fromBeBytes_beBytes n

namespace SpatialKey

@[simp] lemma length_bucketPrefix (lobe : UInt16) (hash : BitVec 48) :
    (bucketPrefix lobe hash).length = 8 := by simp [bucketPrefix]

@[simp] lemma length_satellitePrefix (lobe : UInt16) (hash : BitVec 48) (sat : UInt16) :
    (satellitePrefix lobe hash sat).length = 10 := by simp [satellitePrefix]

@[simp] lemma length_toBytes (k : SpatialKey) : k.toBytes.length = spatialKeySize := by
  simp [toBytes, spatialKeySize]

@[simp] lemma keyLobe_toBytes (k : SpatialKey) : keyLobe k.toBytes = k.lobeId := by
  simp [toBytes, satellitePrefix, bucketPrefix]

@[simp] lemma gravityHashFromBytes_toBytes (k : SpatialKey) :
    gravityHashFromBytes k.toBytes = k.gravityHash := by
  have hlt : k.gravityHash.toNat < 256 ^ 6 := k.gravityHash.isLt
  have hdrop : (k.toBytes.drop 2).take 6 = toBE 6 k.gravityHash.toNat := rfl
  rw [gravityHashFromBytes, hdrop, ofBE_toBE hlt, BitVec.ofNat_toNat, BitVec.setWidth_eq]

@[simp] lemma seqFromBytes_toBytes {k : SpatialKey} (h : k.seq < 2 ^ 64) :
    seqFromBytes k.toBytes = k.seq := by
  have hdrop : (k.toBytes.drop 16).take 8 = toBE 8 k.seq := by
    rw [toBytes, ← append_assoc, drop_left' (by simp), take_of_length_le (by simp)]
  rw [seqFromBytes, hdrop, ofBE_toBE (by simpa using h)]

lemma satFromBytes_toBytes (k : SpatialKey) : satFromBytes k.toBytes = k.sat := by
  have hdrop : (k.toBytes.drop 8).take 2 = beBytes k.sat := rfl
  rw [satFromBytes, hdrop]
  refine Eq.trans (congrArg UInt16.ofNat ?_) (fromBeBytes_beBytes k.sat)
  simp [ofBE, Codec.ofLE, beBytes, add_comm, mul_comm]

/-- A key with a time of 21 bits is read back from its bytes. -/
lemma fromBytes_toBytes {k : SpatialKey} (htime : k.timestampNorm < 2 ^ 21)
    (hseq : k.seq < 2 ^ 64) : fromBytes k.toBytes = k := by
  have hz : (k.toBytes.drop 10).take 6 =
      toBE 6 (zOrder2dEncode k.typeId.toNat k.timestampNorm) := by
    rw [toBytes, drop_left' (length_satellitePrefix ..), take_left' (length_toBE ..)]
  have htype : k.typeId.toNat < 2 ^ 21 := k.typeId.toNat_lt.trans (by decide)
  rw [fromBytes, hz, ofBE_toBE (zOrder2dEncode_lt ..), zOrder2dDecode_encode,
    keyLobe_toBytes, gravityHashFromBytes_toBytes, satFromBytes_toBytes,
    seqFromBytes_toBytes hseq,
    Nat.and_two_pow_sub_one_of_lt_two_pow htype, Nat.and_two_pow_sub_one_of_lt_two_pow htime]
  exact congrArg (SpatialKey.mk _ _ _ · _ _) (UInt16.ofNat_toNat ..)

end SpatialKey

lemma toBE_ofBE {w : ℕ} {bytes : List UInt8} (h : bytes.length = w) :
    toBE w (ofBE bytes) = bytes := by
  rw [toBE, ofBE, ← h, ← length_reverse, Codec.toLE_ofLE, reverse_reverse]

lemma ofBE_lt {w : ℕ} {bytes : List UInt8} (h : bytes.length = w) : ofBE bytes < 256 ^ w := by
  rw [← h, ← length_reverse]
  exact Codec.ofLE_lt _

lemma beBytes_fromBeBytes (hi lo : UInt8) : beBytes (fromBeBytes hi lo) = [hi, lo] := by
  have hh : hi.toNat < 256 := hi.toNat_lt
  have hl : lo.toNat < 256 := lo.toNat_lt
  have hn : (fromBeBytes hi lo).toNat = hi.toNat * 256 + lo.toNat := by
    rw [fromBeBytes, UInt16.toNat_ofNat', Nat.mod_eq_of_lt (by omega)]
  rw [beBytes, hn, show (hi.toNat * 256 + lo.toNat) / 256 = hi.toNat by omega,
    show (hi.toNat * 256 + lo.toNat) % 256 = lo.toNat by omega, UInt8.ofNat_toNat,
    UInt8.ofNat_toNat]

lemma beBytes_keyLobe {k : Key} (hk : 2 ≤ k.length) : beBytes (keyLobe k) = k.take 2 := by
  match k, hk with
  | hi :: lo :: _, _ => exact beBytes_fromBeBytes hi lo

lemma take_eight {k : Key} (hk : 8 ≤ k.length) :
    k.take 8 = SpatialKey.bucketPrefix (keyLobe k) (gravityHashFromBytes k) := by
  have hlen : ((k.drop 2).take 6).length = 6 := by
    rw [length_take, length_drop]
    omega
  have hhash : (gravityHashFromBytes k).toNat = ofBE ((k.drop 2).take 6) := by
    exact Nat.mod_eq_of_lt (ofBE_lt hlen)
  rw [SpatialKey.bucketPrefix, beBytes_keyLobe (by omega), hhash, toBE_ofBE hlen, ← take_add]

lemma SpatialKey.bucketPrefix_inj {lobe lobe' : UInt16} {hash hash' : BitVec 48} :
    bucketPrefix lobe hash = bucketPrefix lobe' hash' ↔ lobe = lobe' ∧ hash = hash' := by
  refine ⟨fun h => ?_, fun ⟨hl, hh⟩ => by rw [hl, hh]⟩
  obtain ⟨hl, hh⟩ := append_inj h (by simp)
  refine ⟨beBytes_inj hl, BitVec.eq_of_toNat_eq ?_⟩
  exact toBE_inj hash.isLt hash'.isLt hh

lemma SpatialKey.satellitePrefix_inj {lobe lobe' : UInt16} {hash hash' : BitVec 48}
    {sat sat' : UInt16} :
    satellitePrefix lobe hash sat = satellitePrefix lobe' hash' sat' ↔
      lobe = lobe' ∧ hash = hash' ∧ sat = sat' := by
  refine ⟨fun h => ?_, fun ⟨hl, hh, hs⟩ => by rw [hl, hh, hs]⟩
  obtain ⟨hbucket, hsat⟩ := append_inj h (by simp)
  obtain ⟨hl, hh⟩ := bucketPrefix_inj.mp hbucket
  exact ⟨hl, hh, beBytes_inj hsat⟩

/-- **The range of a bucket** holds the keys of the lobe that carry its hash. -/
theorem mem_prefixForGravity {k : Key} (hk : k.length = spatialKeySize) (lobe : UInt16)
    (hash : BitVec 48) : ((SpatialKey.prefixForGravity lobe hash).1 ≤ k ∧
        k ≤ (SpatialKey.prefixForGravity lobe hash).2) ↔
      keyLobe k = lobe ∧ gravityHashFromBytes k = hash := by
  rw [SpatialKey.prefixForGravity, ByteRange.between_iff_prefix (by simp [hk, spatialKeySize]),
    prefix_iff_eq_take, SpatialKey.length_bucketPrefix,
    take_eight (by rw [hk, spatialKeySize]; omega), SpatialKey.bucketPrefix_inj, eq_comm,
    @eq_comm _ hash]

end XyzDB.Engine
