import XyzDB.Engine.Record

/-!
# Comparing and printing values

`Value` has a derived `==`, an order for the comparisons of a WHERE, and a `Display` that is
also the text from which dictionary keys and gravity hashes are made. Floats are bits: equality
and order are the IEEE ones, which are computed here. What is not computed (the decimal print
of a float, the rounding of an integer to a float, case folding, derived debug prints, the hash
functions) is a `Platform`.
-/

namespace XyzDB.Engine

open Talk (Literal FloatTable literalToValue literalToString)

/-- What the engine takes from its surroundings. The two hashes are FNV-1a in the source;
nothing here depends on which functions they are. -/
structure Platform extends FloatTable where
  /-- `i64 as f64`, and `i128 as f64`. -/
  ofInt : ℤ → UInt64
  add64 : UInt64 → UInt64 → UInt64
  sub64 : UInt64 → UInt64 → UInt64
  mul64 : UInt64 → UInt64 → UInt64
  /-- `f32` printed by `Display`. -/
  display32 : UInt32 → Text
  /-- `hash_to_48bits`. -/
  hash48 : Text → BitVec 48
  /-- `hash_to_16bits`. -/
  hash16 : Text → UInt16
  /-- `str::to_lowercase`. -/
  toLowercase : Text → Text
  /-- `str::trim`. -/
  trim : Text → Text
  /-- The derived debug print of a literal. -/
  debugLiteral : Literal → Text
  /-- The derived debug print of a record's fields. -/
  debugFields : Fields → Text
  /-- The derived debug print of a value. -/
  debugValue : Value → Text
  /-- The squared norm stored with a vector. -/
  normSq : List UInt32 → UInt64
  /-- `postcard::to_allocvec` of a value. -/
  postcard : Value → List UInt8
  /-- The shard of a dictionary entry, by the standard hasher. -/
  anchorShard : List UInt8 → ℕ

/-- A platform for runs on given inputs: texts are hashed as numbers, floats are not printed and
not added. -/
def Platform.sample : Platform where
  widen x := x.toUInt64
  narrow x := x.toUInt32
  display _ := []
  ofInt _ := 0
  add64 x _ := x
  sub64 x _ := x
  mul64 x _ := x
  display32 _ := []
  hash48 s := BitVec.ofNat 48 (s.foldl (fun n c => n * 31 + c.toNat) 7)
  hash16 s := UInt16.ofNat (s.foldl (fun n c => n * 31 + c.toNat) 7)
  toLowercase s := s
  trim s := s
  debugLiteral _ := []
  debugFields _ := []
  debugValue _ := []
  normSq _ := 0
  postcard _ := []
  anchorShard k := k.length % 256

/-- Sign and magnitude of `w + 1` bits as a number: the order of floats that are not NaN. The
two zeros are one number. -/
def floatRank (w : ℕ) (bits : ℕ) : ℤ :=
  if bits / 2 ^ w % 2 = 1 then -(bits % 2 ^ w : ℕ) else (bits % 2 ^ w : ℕ)

def isNan64 (x : UInt64) : Bool := 0x7FF0000000000000 < x.toNat % 2 ^ 63

def isNan32 (x : UInt32) : Bool := 0x7F800000 < x.toNat % 2 ^ 31

/-- `f64 == f64`. -/
def eq64 (x y : UInt64) : Bool :=
  !isNan64 x && !isNan64 y && floatRank 63 x.toNat == floatRank 63 y.toNat

/-- `f32 == f32`. -/
def eq32 (x y : UInt32) : Bool :=
  !isNan32 x && !isNan32 y && floatRank 31 x.toNat == floatRank 31 y.toNat

/-- `f64::partial_cmp`. -/
def partialCmp64 (x y : UInt64) : Option Ordering :=
  if isNan64 x || isNan64 y then none
  else some (compare (floatRank 63 x.toNat) (floatRank 63 y.toNat))

/-- Equality of two vectors. -/
def vectorEq : List UInt32 → List UInt32 → Bool
  | [], [] => true
  | x :: v, y :: w => eq32 x y && vectorEq v w
  | _, _ => false

mutual

/-- The derived `==` of `Value`. -/
def valueEq : Value → Value → Bool
  | .bool a, .bool b => a == b
  | .int a, .int b => a == b
  | .float a, .float b => eq64 a b
  | .text a, .text b => a == b
  | .timestamp a, .timestamp b => a == b
  | .bytes a, .bytes b => a == b
  | .list a, .list b => itemsEq a b
  | .map a, .map b => pairsEq a b
  | .null, .null => true
  | .vector a, .vector b => vectorEq a b
  | _, _ => false

def itemsEq : List Value → List Value → Bool
  | [], [] => true
  | a :: as, b :: bs => valueEq a b && itemsEq as bs
  | _, _ => false

def pairsEq : List (Text × Value) → List (Text × Value) → Bool
  | [], [] => true
  | (k, a) :: as, (l, b) :: bs => k == l && valueEq a b && pairsEq as bs
  | _, _ => false

end

/-- `partial_cmp_value`: numbers compare with numbers, everything else within its type. -/
def partialCmpValue (p : Platform) : Value → Value → Option Ordering
  | .null, .null => some .eq
  | .int a, .int b => some (compare a b)
  | .float a, .float b => partialCmp64 a b
  | .int a, .float b => partialCmp64 (p.ofInt a) b
  | .float a, .int b => partialCmp64 a (p.ofInt b)
  | .text a, .text b => some (compare a b)
  | .timestamp a, .timestamp b => some (compare a b)
  | .bool a, .bool b => some (compare a b)
  | _, _ => none

/-- `{n:06}`: zeros up to a width of six, counting the sign. -/
def padSix (n : ℤ) : Text :=
  let digits := (toString n.natAbs).toList
  if n < 0 then '-' :: (List.replicate (5 - digits.length) '0' ++ digits)
  else List.replicate (6 - digits.length) '0' ++ digits

def displayBool (b : Bool) : Text := if b then "true".toList else "false".toList

def displayInt (i : ℤ) : Text := (toString i).toList

/-- Texts with `", "` between them. -/
def joinComma : List Text → Text
  | [] => []
  | [t] => t
  | t :: ts => t ++ ", ".toList ++ joinComma ts

section

variable (p : Platform)

mutual

/-- `Display` of a value. -/
def displayValue : Value → Text
  | .bool b => displayBool b
  | .int i => displayInt i
  | .float f => p.display f
  | .text s => '"' :: s ++ ['"']
  | .timestamp t =>
    "@ts(".toList ++ displayInt (t.tdiv 1000000) ++ '.' :: padSix (t.tmod 1000000) ++ [')']
  | .bytes data => '<' :: (toString data.length).toList ++ " bytes>".toList
  | .list items => '[' :: joinComma (displayItems items) ++ [']']
  | .map pairs => "\x7b".toList ++ joinComma (displayPairs pairs) ++ "\x7d".toList
  | .null => "null".toList
  | .vector v => '[' :: joinComma (v.map p.display32) ++ [']']

def displayItems : List Value → List Text
  | [] => []
  | v :: items => displayValue v :: displayItems items

def displayPairs : List (Text × Value) → List Text
  | [] => []
  | (k, v) :: pairs => (k ++ ": ".toList ++ displayValue v) :: displayPairs pairs

end

/-- `value_to_anchor_string`: a text stands for itself, everything else is printed. -/
def valueToAnchorString : Value → Text
  | .text s => s
  | v => displayValue p v

/-- `literal_to_value`. A placeholder never gets here: binding has replaced them all. -/
def valueOf (l : Literal) : Value := (literalToValue p.toFloatTable l).getD .null

/-- `literal_to_string`, the text of a literal that is looked up in the dictionary. -/
def literalString (l : Literal) : Text :=
  (literalToString p.toFloatTable p.debugLiteral l).getD []

end

mutual

/-- No float or vector component of the value is a zero, which has two forms. -/
def zeroFree : Value → Bool
  | .float x => x.toNat % 2 ^ 63 != 0
  | .vector v => v.all fun x => x.toNat % 2 ^ 31 != 0
  | .list items => itemsZeroFree items
  | .map pairs => pairsZeroFree pairs
  | _ => true

def itemsZeroFree : List Value → Bool
  | [] => true
  | v :: items => zeroFree v && itemsZeroFree items

def pairsZeroFree : List (Text × Value) → Bool
  | [] => true
  | (_, v) :: pairs => zeroFree v && pairsZeroFree pairs

end

lemma floatRank_injOn {w a b : ℕ} (ha : a < 2 ^ (w + 1)) (hb : b < 2 ^ (w + 1))
    (hzero : b % 2 ^ w ≠ 0) (h : floatRank w a = floatRank w b) : a = b := by
  rw [Nat.pow_succ, Nat.mul_comm] at ha hb
  have hqa : a / 2 ^ w < 2 := Nat.div_lt_of_lt_mul (by rwa [Nat.mul_comm])
  have hqb : b / 2 ^ w < 2 := Nat.div_lt_of_lt_mul (by rwa [Nat.mul_comm])
  have hda := Nat.div_add_mod a (2 ^ w)
  have hdb := Nat.div_add_mod b (2 ^ w)
  -- the sign is known from the rank because the magnitude is not zero
  have hq : a / 2 ^ w = b / 2 ^ w ∧ a % 2 ^ w = b % 2 ^ w := by
    unfold floatRank at h
    generalize a / 2 ^ w = qa at *
    generalize b / 2 ^ w = qb at *
    omega
  rw [← hda, ← hdb, hq.1, hq.2]

lemma eq_of_eq64 {x y : UInt64} (hy : y.toNat % 2 ^ 63 ≠ 0) (h : eq64 x y = true) : x = y := by
  simp only [eq64, Bool.and_eq_true, beq_iff_eq] at h
  exact UInt64.toNat_inj.mp (floatRank_injOn x.toNat_lt y.toNat_lt hy h.2)

lemma eq_of_eq32 {x y : UInt32} (hy : y.toNat % 2 ^ 31 ≠ 0) (h : eq32 x y = true) : x = y := by
  simp only [eq32, Bool.and_eq_true, beq_iff_eq] at h
  exact UInt32.toNat_inj.mp (floatRank_injOn x.toNat_lt y.toNat_lt hy h.2)

lemma eq_of_vectorEq : ∀ {v w : List UInt32},
    (w.all fun x => x.toNat % 2 ^ 31 != 0) = true → vectorEq v w = true → v = w
  | [], [], _, _ => rfl
  | [], _ :: _, _, h => by simp [vectorEq] at h
  | _ :: _, [], _, h => by simp [vectorEq] at h
  | x :: v, y :: w, hw, h => by
    simp only [List.all_cons, Bool.and_eq_true, bne_iff_ne] at hw
    simp only [vectorEq, Bool.and_eq_true] at h
    rw [eq_of_eq32 hw.1 h.1, eq_of_vectorEq hw.2 h.2]

mutual

/-- **Equal values are the same value**, where the right one has no zeros among its floats. -/
theorem eq_of_valueEq {a b : Value} (hb : zeroFree b = true) (h : valueEq a b = true) : a = b := by
  match a, b with
  | .bool _, .bool _ | .int _, .int _ | .text _, .text _ | .timestamp _, .timestamp _
  | .bytes _, .bytes _ => simpa [valueEq] using h
  | .null, .null => rfl
  | .float x, .float y =>
    simp only [zeroFree, bne_iff_ne] at hb
    rw [eq_of_eq64 hb h]
  | .vector v, .vector w =>
    rw [eq_of_vectorEq hb h]
  | .list as, .list bs =>
    rw [eq_of_itemsEq hb h]
  | .map as, .map bs =>
    rw [eq_of_pairsEq hb h]

lemma eq_of_itemsEq {as bs : List Value} (hb : itemsZeroFree bs = true)
    (h : itemsEq as bs = true) : as = bs := by
  match as, bs with
  | [], [] => rfl
  | a :: as, b :: bs =>
    simp only [itemsZeroFree, Bool.and_eq_true] at hb
    simp only [itemsEq, Bool.and_eq_true] at h
    rw [eq_of_valueEq hb.1 h.1, eq_of_itemsEq hb.2 h.2]

lemma eq_of_pairsEq {as bs : List (Text × Value)} (hb : pairsZeroFree bs = true)
    (h : pairsEq as bs = true) : as = bs := by
  match as, bs with
  | [], [] => rfl
  | (k, a) :: as, (l, b) :: bs =>
    simp only [pairsZeroFree, Bool.and_eq_true] at hb
    simp only [pairsEq, Bool.and_eq_true, beq_iff_eq] at h
    rw [h.1.1, eq_of_valueEq hb.1 h.1.2, eq_of_pairsEq hb.2 h.2]

end

end XyzDB.Engine
