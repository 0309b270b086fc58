import XyzDB.Talk.Parse

/-!
# Values and the literals that stand for them

The stored values, and how the engine turns a literal into one. Both conversions of a literal
have an `unreachable!` arm for placeholders: it is `none` here, and nothing else is.
-/

namespace XyzDB.Talk

open Nom

/-- A stored value. Floats are kept as their bits, a map as its pairs in key order. -/
inductive Value where
  | bool (b : Bool)
  | int (i : ℤ)
  | float (bits : UInt64)
  | text (s : Text)
  | timestamp (micros : ℤ)
  | bytes (data : List UInt8)
  | list (items : List Value)
  | map (pairs : List (Text × Value))
  | null
  | vector (packed : List UInt32)

/-- What the hardware decides about floats: `as f64`, `as f32` and `to_string`. -/
structure FloatTable where
  widen : UInt32 → UInt64
  narrow : UInt64 → UInt32
  display : UInt64 → Text

/-- `str::parse::<i64>`, `None` for anything but digits with an optional sign. -/
def parseSigned (s : Text) : Option ℤ :=
  let digits := if s.head? = some '-' || s.head? = some '+' then s.tail else s
  if digits = [] || !digits.all isAsciiDigit then none
  else parseI64 (if s.head? = some '-' then '-' :: digits else digits)

/-- `s.split(['-', 'T', ':'])`. -/
def splitTimestamp : Text → List Text
  | [] => [[]]
  | c :: rest =>
    if c = '-' || c = 'T' || c = ':' then [] :: splitTimestamp rest
    else
      match splitTimestamp rest with
      | [] => [[c]]
      | part :: parts => (c :: part) :: parts

/-- `parse_timestamp_micros`: days are counted without looking at the length of a month. -/
def parseTimestampMicros (s : Text) : ℤ :=
  let parts := splitTimestamp s
  if parts.length < 3 then 0
  else
    let part (i : ℕ) (default : ℤ) : ℤ := (parts[i]? >>= parseSigned).getD default
    let days := (part 0 2026 - 1970) * 365 + (part 0 2026 - 1969).tdiv 4 +
      (part 1 1 - 1) * 30 + part 2 1
    let secs := days * 86400 + part 3 0 * 3600 + part 4 0 * 60 + part 5 0
    secs * 1000000

variable (floats : FloatTable)

/-- From this length on, a list of floats is stored as a packed vector. -/
def vectorF32MinDims : ℕ := 64

/-- The floats of a list that has nothing else. -/
def allFloats : List Literal → Option (List UInt64)
  | [] => some []
  | .float f :: items => (allFloats items).map (f :: ·)
  | _ :: _ => none

/-- `BTreeMap::insert`, in a list ordered by key. -/
def insertKey {α : Type} (k : Text) (v : α) : List (Text × α) → List (Text × α)
  | [] => [(k, v)]
  | (k', v') :: rest =>
    if k = k' then (k, v) :: rest
    else if k < k' then (k, v) :: (k', v') :: rest
    else (k', v') :: insertKey k v rest

mutual

def literalToValue : Literal → Option Value
  | .int i => some (.int i)
  | .float f => some (.float f)
  | .text s => some (.text s)
  | .bool b => some (.bool b)
  | .timestamp s => some (.timestamp (parseTimestampMicros s))
  | .lid s => some (.text s)
  | .null => some .null
  | .list items =>
    -- a long list of floats is an embedding
    match allFloats items with
    | some fs =>
      if vectorF32MinDims ≤ items.length then some (.vector (fs.map floats.narrow))
      else (literalsToValues items).map .list
    | none => (literalsToValues items).map .list
  | .map pairs => (pairsToValues pairs).map fun vs =>
      .map (vs.foldl (fun m (k, v) => insertKey k v m) [])
  | .param _ => none

def literalsToValues : List Literal → Option (List Value)
  | [] => some []
  | l :: items => do
    let v ← literalToValue l
    let vs ← literalsToValues items
    return v :: vs

def pairsToValues : List (Text × Literal) → Option (List (Text × Value))
  | [] => some []
  | (k, l) :: pairs => do
    let v ← literalToValue l
    let vs ← pairsToValues pairs
    return (k, v) :: vs

end

/-- `literal_to_string`; `debug` is the derived debug print of a list or map. -/
def literalToString (debug : Literal → Text) : Literal → Option Text
  | .int i => some (toString i).toList
  | .float f => some (floats.display f)
  | .text s => some s
  | .bool b => some (if b then "true".toList else "false".toList)
  | .timestamp s => some s
  | .lid s => some s
  | .null => some "null".toList
  | .list items => some (debug (.list items))
  | .map pairs => some (debug (.map pairs))
  | .param _ => none

mutual

/-- The names of the placeholders in a literal. -/
def Literal.params : Literal → List Text
  | .param name => [name]
  | .list items => literalsParams items
  | .map pairs => pairsParams pairs
  | _ => []

def literalsParams : List Literal → List Text
  | [] => []
  | l :: items => l.params ++ literalsParams items

def pairsParams : List (Text × Literal) → List Text
  | [] => []
  | (_, l) :: pairs => l.params ++ pairsParams pairs

end

mutual

/-- **The conversion stops at placeholders only.** -/
theorem literalToValue_isSome {l : Literal} (h : l.params = []) :
    ∃ v, literalToValue floats l = some v := by
  match l with
  | .int _ | .float _ | .text _ | .bool _ | .timestamp _ | .lid _ | .null => simp [literalToValue]
  | .list items =>
    obtain ⟨vs, hvs⟩ := literalsToValues_isSome (by simpa [Literal.params] using h)
    rw [literalToValue]
    split
    · split <;> simp [hvs]
    · simp [hvs]
  | .map pairs =>
    obtain ⟨vs, hvs⟩ := pairsToValues_isSome (by simpa [Literal.params] using h)
    simp [literalToValue, hvs]
  | .param _ => simp [Literal.params] at h

lemma literalsToValues_isSome {items : List Literal} (h : literalsParams items = []) :
    ∃ vs, literalsToValues floats items = some vs := by
  match items with
  | [] => simp [literalsToValues]
  | l :: items =>
    obtain ⟨hl, hitems⟩ := List.append_eq_nil_iff.mp h
    obtain ⟨v, hv⟩ := literalToValue_isSome hl
    obtain ⟨vs, hvs⟩ := literalsToValues_isSome hitems
    simp [literalsToValues, hv, hvs]

lemma pairsToValues_isSome {pairs : List (Text × Literal)} (h : pairsParams pairs = []) :
    ∃ vs, pairsToValues floats pairs = some vs := by
  match pairs with
  | [] => simp [pairsToValues]
  | (k, l) :: pairs =>
    obtain ⟨hl, hpairs⟩ := List.append_eq_nil_iff.mp h
    obtain ⟨v, hv⟩ := literalToValue_isSome hl
    obtain ⟨vs, hvs⟩ := pairsToValues_isSome hpairs
    simp [pairsToValues, hv, hvs]

end

lemma literalToString_isSome {debug : Literal → Text} {l : Literal} (h : l.params = []) :
    ∃ s, literalToString floats debug l = some s := by
  match l with
  | .int _ | .float _ | .text _ | .bool _ | .timestamp _ | .lid _ | .null | .list _ | .map _ =>
    simp [literalToString]
  | .param _ => simp [Literal.params] at h

end XyzDB.Talk
