import XyzDB.Engine.Values

/-!
# WHERE

The conditions of a WHERE as the engine evaluates them: a flat conjunction, checked by
`matches_filters`, or a tree, walked by `matches_core_expr`. The operators of the two layers
are the same ten, so `convert_filter_op` is the identity here.
-/

namespace XyzDB.Engine

open Std (ExtTreeMap)
open Talk (Filter FilterExpr FilterOp parseUnsigned)
open Nom (isAsciiDigit)

/-- `str::parse::<usize>`: digits, with an optional plus sign. -/
def parseUsize (s : Text) : Option ℕ :=
  let digits := if s.head? = some '+' then s.tail else s
  if digits = [] || !digits.all isAsciiDigit then none else parseUnsigned 64 digits

/-- The value of a key, in pairs ordered by key. -/
def mapGet (pairs : List (Text × Value)) (key : Text) : Option Value :=
  (pairs.find? fun pair => pair.1 == key).map Prod.snd

/-- Follow the parts of a path into maps and lists. -/
def walkPath : Value → List Text → Option Value
  | v, [] => some v
  | .map pairs, part :: parts =>
    match mapGet pairs part with
    | some v => walkPath v parts
    | none => none
  | .list items, part :: parts =>
    match parseUsize part >>= (items[·]?) with
    | some v => walkPath v parts
    | none => none
  | _, _ :: _ => none

/-- `resolve_path`: a path with dots leads into nested values. -/
def resolvePath (fields : Fields) (path : Text) : Option Value :=
  if '.' ∈ path then
    match path.splitOn '.' with
    | first :: rest => fields[first]? >>= (walkPath · rest)
    | [] => none
  else fields[path]?

lemma resolvePath_of_undotted {fields : Fields} {path : Text} (h : '.' ∉ path) :
    resolvePath fields path = fields[path]? := by
  rw [resolvePath, if_neg h]

/-- A converted condition: field, operator, value. -/
structure CoreFilter where
  field : Text
  op : FilterOp
  value : Value

section

variable (p : Platform)

/-- One condition of `matches_filters`. -/
def CoreFilter.holds (fields : Fields) (c : CoreFilter) : Bool :=
  match c.op with
  | .isNull => match resolvePath fields c.field with
    | none | some .null => true
    | some _ => false
  | .isNotNull => match resolvePath fields c.field with
    | none | some .null => false
    | some _ => true
  | .contains => match resolvePath fields c.field with
    | some (.list items) => items.any (valueEq · c.value)
    | _ => false
  | .inList => match resolvePath fields c.field, c.value with
    | some v, .list items => items.any (valueEq · v)
    | _, _ => false
  | .eq => match resolvePath fields c.field with
    | some v => valueEq v c.value
    | none => false
  | .neq => match resolvePath fields c.field with
    | some v => !valueEq v c.value
    | none => false
  | .gt => match resolvePath fields c.field with
    | some v => partialCmpValue p v c.value == some .gt
    | none => false
  | .gte => match resolvePath fields c.field with
    | some v => partialCmpValue p v c.value == some .gt || partialCmpValue p v c.value == some .eq
    | none => false
  | .lt => match resolvePath fields c.field with
    | some v => partialCmpValue p v c.value == some .lt
    | none => false
  | .lte => match resolvePath fields c.field with
    | some v => partialCmpValue p v c.value == some .lt || partialCmpValue p v c.value == some .eq
    | none => false

def matchesFilters (r : Record) (filters : List CoreFilter) : Bool :=
  filters.all (·.holds p r.fields)

/-- A WHERE tree in the form that is evaluated. -/
inductive CoreFilterExpr where
  | leaf (filter : CoreFilter)
  | and (exprs : List CoreFilterExpr)
  | or (exprs : List CoreFilterExpr)
  | not (expr : CoreFilterExpr)

/-- `convert_filters`, of one condition. -/
def convertFilter (f : Filter) : CoreFilter := ⟨f.field, f.op, valueOf p f.value⟩

def convertFilters (filters : List Filter) : List CoreFilter := filters.map (convertFilter p)

mutual

def toCoreExpr : FilterExpr → CoreFilterExpr
  | .condition f => .leaf (convertFilter p f)
  | .and exprs => .and (toCoreExprs exprs)
  | .or exprs => .or (toCoreExprs exprs)
  | .not e => .not (toCoreExpr e)

def toCoreExprs : List FilterExpr → List CoreFilterExpr
  | [] => []
  | e :: exprs => toCoreExpr e :: toCoreExprs exprs

end

mutual

def matchesCoreExpr (r : Record) : CoreFilterExpr → Bool
  | .leaf c => matchesFilters p r [c]
  | .and exprs => allMatch r exprs
  | .or exprs => anyMatch r exprs
  | .not e => !matchesCoreExpr r e

def allMatch (r : Record) : List CoreFilterExpr → Bool
  | [] => true
  | e :: exprs => matchesCoreExpr r e && allMatch r exprs

def anyMatch (r : Record) : List CoreFilterExpr → Bool
  | [] => false
  | e :: exprs => matchesCoreExpr r e || anyMatch r exprs

end

def matchesFilterExpr (r : Record) (e : FilterExpr) : Bool := matchesCoreExpr p r (toCoreExpr p e)

def recordMatchesOptExpr (r : Record) : Option FilterExpr → Bool
  | none => true
  | some e => matchesFilterExpr p r e

end

mutual

/-- `as_flat_and`: the conditions of a tree without OR and NOT. -/
def asFlatAnd : FilterExpr → Option (List Filter)
  | .condition f => some [f]
  | .and exprs => flatAnds exprs
  | .or _ => none
  | .not _ => none

def flatAnds : List FilterExpr → Option (List Filter)
  | [] => some []
  | e :: exprs => do
    let fs ← asFlatAnd e
    let rest ← flatAnds exprs
    return fs ++ rest

end

/-- `filter_expr_to_flat`. An expression that is not flat gives no conditions at all. -/
def filterExprToFlat : Option FilterExpr → List Filter
  | none => []
  | some e => (asFlatAnd e).getD []

def convertFilterExpr (p : Platform) (e : Option FilterExpr) : List CoreFilter :=
  convertFilters p (filterExprToFlat e)

section

variable (p : Platform) (r : Record)

lemma matchesFilters_append (fs gs : List CoreFilter) :
    matchesFilters p r (fs ++ gs) = (matchesFilters p r fs && matchesFilters p r gs) := by
  simp [matchesFilters]

lemma convertFilters_append (fs gs : List Filter) :
    convertFilters p (fs ++ gs) = convertFilters p fs ++ convertFilters p gs := by
  simp [convertFilters]

mutual

/-- **A flat tree says what its conditions say.** -/
theorem matchesCoreExpr_of_flat {e : FilterExpr} {fs : List Filter} (h : asFlatAnd e = some fs) :
    matchesCoreExpr p r (toCoreExpr p e) = matchesFilters p r (convertFilters p fs) := by
  match e with
  | .condition f =>
    obtain rfl : [f] = fs := by simpa [asFlatAnd] using h
    rfl
  | .and exprs =>
    exact allMatch_of_flat (by simpa [asFlatAnd] using h)
  | .or _ => simp [asFlatAnd] at h
  | .not _ => simp [asFlatAnd] at h

lemma allMatch_of_flat {exprs : List FilterExpr} {fs : List Filter} (h : flatAnds exprs = some fs) :
    allMatch p r (toCoreExprs p exprs) = matchesFilters p r (convertFilters p fs) := by
  match exprs with
  | [] =>
    obtain rfl : [] = fs := by simpa [flatAnds] using h
    rfl
  | e :: exprs =>
    simp only [flatAnds, Option.bind_eq_bind, Option.bind_eq_some_iff, Option.pure_def,
      Option.some.injEq] at h
    obtain ⟨gs, hgs, rest, hrest, rfl⟩ := h
    rw [toCoreExprs, allMatch, matchesCoreExpr_of_flat hgs, allMatch_of_flat hrest,
      convertFilters_append, matchesFilters_append]

end

end

end XyzDB.Engine
