import XyzDB.Engine.Filter

/-!
# Incremental aggregates

A ghost keeps the aggregates of its records as they are written: one `AggregateState` for all
of them and, under a GROUP BY, one for each group. Past a number of groups the states of the
groups move to disk, where every later write appends a signed `RollupDelta` and a read folds
what it finds. Counts and sums are undone by a removal; a minimum or maximum is only marked.
-/

namespace XyzDB.Engine

open Std (ExtTreeMap)
open Talk (FilterExpr)

inductive AggOp where
  | count | sum | min | max | avg
  deriving DecidableEq

/-- One metric: an operation over a field, for the records that pass its own WHERE. -/
structure Metric where
  field : Text
  op : AggOp
  label : Text
  filter : Option FilterExpr

def countLabel : Text := "count".toList

namespace Metric

/-- `rides_total_count`: the plain `count()`, which is the total of the group. -/
def ridesTotalCount (m : Metric) : Bool := m.op = .count && m.label = countLabel

def matchesRecord (p : Platform) (m : Metric) (r : Record) : Bool :=
  recordMatchesOptExpr p r m.filter

end Metric

/-- Integers are added exactly; the first float makes the sum a compensated float. -/
inductive SumAcc where
  | int (acc : ℤ)
  | float (sum comp : UInt64)

namespace SumAcc

variable (p : Platform)

def neumaierAdd (sum comp x : UInt64) : SumAcc :=
  let t := p.add64 sum x
  -- the absolute values are the bits without the sign
  if x.toNat % 2 ^ 63 ≤ sum.toNat % 2 ^ 63 then
    .float t (p.add64 comp (p.add64 (p.sub64 sum t) x))
  else .float t (p.add64 comp (p.add64 (p.sub64 x t) sum))

/-- `add_scaled`: add the value `sign` times; what is no number is passed over. -/
def addScaled (acc : SumAcc) (v : Value) (sign : ℤ) : SumAcc :=
  match v with
  | .int i =>
    match acc with
    | .int a => .int (a + i * sign)
    | .float sum comp => neumaierAdd p sum comp (p.ofInt (i * sign))
  | .float f =>
    let delta := p.mul64 f (p.ofInt sign)
    match acc with
    | .int a => neumaierAdd p (p.ofInt a) 0 delta
    | .float sum comp => neumaierAdd p sum comp delta
  | _ => acc

def merge (acc other : SumAcc) : SumAcc :=
  match acc, other with
  | .int a, .int b => .int (a + b)
  | .float sum comp, .int b => neumaierAdd p sum comp (p.ofInt b)
  | .int a, .float os oc =>
    match neumaierAdd p (p.ofInt a) 0 os with
    | .float sum comp => .float sum (p.add64 comp oc)
    | acc => acc
  | .float sum comp, .float os oc =>
    match neumaierAdd p sum comp os with
    | .float sum comp => .float sum (p.add64 comp oc)
    | acc => acc

end SumAcc

/-- What a minimum or maximum is kept as. -/
inductive StoredValue where
  | null
  | int (i : ℤ)
  | float (bits : UInt64)
  | text (s : Text)
  deriving DecidableEq

namespace StoredValue

def fromValue : Value → StoredValue
  | .int i => .int i
  | .float f => .float f
  | .text s => .text s
  | _ => .null

variable (p : Platform)

/-- `partial_cmp`: null is below everything, a number and a text do not compare. -/
def partialCmp : StoredValue → StoredValue → Option Ordering
  | .null, .null => some .eq
  | .null, _ => some .lt
  | _, .null => some .gt
  | .int a, .int b => some (compare a b)
  | .float a, .float b => partialCmp64 a b
  | .text a, .text b => some (compare a b)
  | .int a, .float b => partialCmp64 (p.ofInt a) b
  | .float a, .int b => partialCmp64 a (p.ofInt b)
  | _, _ => none

/-- `a < b`. -/
def lt (a b : StoredValue) : Bool := partialCmp p a b == some .lt

/-- `a > b`. -/
def gt (a b : StoredValue) : Bool := partialCmp p a b == some .gt

/-- `AggValue::add` of a minimum: a value takes the place of null and of a greater value. -/
def addMin (current sv : StoredValue) : StoredValue :=
  if current = .null || sv.lt p current then sv else current

def addMax (current sv : StoredValue) : StoredValue :=
  if current = .null || sv.gt p current then sv else current

/-- `DeltaValue::merge` of two minima: null stands for nothing on either side. -/
def mergeMin (a b : StoredValue) : StoredValue :=
  if b ≠ .null && (a = .null || b.lt p a) then b else a

def mergeMax (a b : StoredValue) : StoredValue :=
  if b ≠ .null && (a = .null || b.gt p a) then b else a

end StoredValue

/-- `as_f64`: whether a value counts in an average. -/
def isNumber : Value → Bool
  | .int _ => true
  | .float _ => true
  | _ => false

inductive AggValue where
  | count (c : ℕ)
  | sum (s : SumAcc)
  | min (v : StoredValue)
  | max (v : StoredValue)
  | avg (sum : SumAcc) (count : ℕ)

namespace AggValue

variable (p : Platform)

def new : AggOp → AggValue
  | .count => .count 0
  | .sum => .sum (.int 0)
  | .min => .min .null
  | .max => .max .null
  | .avg => .avg (.int 0) 0

def add (a : AggValue) (v : Value) : AggValue :=
  match a with
  | .count c => .count (c + 1)
  | .sum s => .sum (s.addScaled p v 1)
  | .min current => .min (current.addMin p (.fromValue v))
  | .max current => .max (current.addMax p (.fromValue v))
  | .avg s n => if isNumber v then .avg (s.addScaled p v 1) (n + 1) else .avg s n

/-- The value after a removal, and whether it may be out of date from now on. -/
def subtract (a : AggValue) (v : Value) : AggValue × Bool :=
  match a with
  | .count c => (.count (c - 1), false)
  | .sum s => (.sum (s.addScaled p v (-1)), false)
  | .avg s n => (if isNumber v then .avg (s.addScaled p v (-1)) (n - 1) else .avg s n, false)
  | .min v => (.min v, true)
  | .max v => (.max v, true)

end AggValue

structure AggregateState where
  count : ℕ
  values : ExtTreeMap Text AggValue
  dirty : Bool

namespace AggregateState

variable (p : Platform)

/-- `AggregateState::default()`. -/
def empty : AggregateState := ⟨0, ∅, false⟩

/-- The part of `add` that one metric has. -/
def addMetric (r : Record) (values : ExtTreeMap Text AggValue) (m : Metric) :
    ExtTreeMap Text AggValue :=
  if m.ridesTotalCount || !m.matchesRecord p r then values
  else if m.op = .count then
    match values[m.label]? with
    | none => values.insert m.label (.count 1)
    | some (.count c) => values.insert m.label (.count (c + 1))
    | some _ => values
  else
    match r.fields[m.field]? with
    | none => values
    | some v => values.insert m.label ((values[m.label]?.getD (.new m.op)).add p v)

variable (s : AggregateState)

def add (r : Record) (metrics : List Metric) : AggregateState :=
  ⟨s.count + 1, metrics.foldl (addMetric p r) s.values, s.dirty⟩

/-- The part of `subtract` that one metric has. -/
def subtractMetric (r : Record) (s : AggregateState) (m : Metric) : AggregateState :=
  if m.ridesTotalCount || !m.matchesRecord p r then s
  else if m.op = .count then
    match s.values[m.label]? with
    | some (.count c) => { s with values := s.values.insert m.label (.count (c - 1)) }
    | _ => s
  else
    match r.fields[m.field]?, s.values[m.label]? with
    | some v, some entry =>
      { s with
        values := s.values.insert m.label (entry.subtract p v).1
        dirty := s.dirty || (entry.subtract p v).2 }
    | _, _ => s

def subtract (r : Record) (metrics : List Metric) : AggregateState :=
  metrics.foldl (subtractMetric p r) { s with count := s.count - 1 }

end AggregateState

inductive DeltaValue where
  | count (c : ℤ)
  | sum (s : SumAcc)
  | min (v : StoredValue)
  | max (v : StoredValue)
  | avg (sum : SumAcc) (count : ℤ)

/-- A value in memory as a contribution. -/
def AggValue.toDelta : AggValue → DeltaValue
  | .count c => .count c
  | .sum s => .sum s
  | .min v => .min v
  | .max v => .max v
  | .avg s n => .avg s n

/-- `DeltaValue::merge`; two operations do not mix. -/
def DeltaValue.merge (p : Platform) : DeltaValue → DeltaValue → DeltaValue
  | .count a, .count b => .count (a + b)
  | .sum a, .sum b => .sum (a.merge p b)
  | .min a, .min b => .min (a.mergeMin p b)
  | .max a, .max b => .max (a.mergeMax p b)
  | .avg s c, .avg s' c' => .avg (s.merge p s') (c + c')
  | a, _ => a

structure RollupDelta where
  count : ℤ
  values : ExtTreeMap Text DeltaValue
  dirty : Bool

namespace RollupDelta

variable (p : Platform)

/-- The contribution of a value to a metric other than a count. -/
def deltaOf (op : AggOp) (v : Value) (sign : ℤ) : DeltaValue :=
  match op with
  | .count => .count sign
  | .sum => .sum ((SumAcc.int 0).addScaled p v sign)
  | .min => .min (if sign < 0 then .null else .fromValue v)
  | .max => .max (if sign < 0 then .null else .fromValue v)
  | .avg => .avg ((SumAcc.int 0).addScaled p v sign) sign

/-- The part of `for_record` that one metric has. -/
def recordMetric (r : Record) (sign : ℤ) (d : RollupDelta) (m : Metric) : RollupDelta :=
  if m.ridesTotalCount || !m.matchesRecord p r then d
  else if m.op = .count then { d with values := d.values.insert m.label (.count sign) }
  else
    match r.fields[m.field]? with
    | none => d
    | some v =>
      { d with
        values := d.values.insert m.label (deltaOf p m.op v sign)
        dirty := d.dirty || (sign < 0 && (m.op = .min || m.op = .max)) }

/-- `for_record`: `sign` is 1 for a record that comes and -1 for one that goes. -/
def forRecord (r : Record) (metrics : List Metric) (sign : ℤ) : RollupDelta :=
  metrics.foldl (recordMetric p r sign) ⟨sign, ∅, false⟩

def merge (d other : RollupDelta) : RollupDelta :=
  ⟨d.count + other.count, other.values.toList.foldl (fun m x =>
        match m[x.1]? with
        | none => m.insert x.1 x.2
        | some mine => m.insert x.1 (mine.merge p x.2)) d.values,
    d.dirty || other.dirty⟩

def fromAggregateState (s : AggregateState) : RollupDelta :=
  ⟨s.count, s.values.map fun _ v => v.toDelta, s.dirty⟩

end RollupDelta

/-- The UTF-8 bytes of a text. -/
def utf8 (s : Text) : List UInt8 := s.flatMap String.utf8EncodeChar

def fromUtf8 (bytes : List UInt8) : Option Text := bytes.toByteArray.utf8Decode?.map Array.toList

lemma fromUtf8_utf8 (s : Text) : fromUtf8 (utf8 s) = some s := by
  change s.utf8Encode.utf8Decode?.map Array.toList = some s
  rw [List.utf8Decode?_utf8Encode]
  rfl

lemma utf8_inj {s t : Text} (h : utf8 s = utf8 t) : s = t := by
  have hs := fromUtf8_utf8 s
  rwa [h, fromUtf8_utf8, Option.some_inj, eq_comm] at hs

/-- `value_to_group_key_fragment`: a letter for the type, and the value printed. -/
def valueToGroupKeyFragment (p : Platform) : Option Value → Text
  | some (.text s) => 's' :: s
  | some (.int i) => 'i' :: displayInt i
  | some (.float f) => 'f' :: p.display f
  | some .null | none => ['n']
  | some v => '?' :: p.debugValue v

/-- `encode_group_key`: every fragment behind its length in bytes. -/
def encodeGroupKey (fragments : List Text) : Text :=
  fragments.flatMap fun frag => (toString (utf8 frag).length).toList ++ ':' :: frag

def extractGroupKey (p : Platform) (fields : Fields) (groupFields : List Text) : Text :=
  encodeGroupKey (groupFields.map fun f => valueToGroupKeyFragment p fields[f]?)

end XyzDB.Engine
