import Mathlib

/-!
# The statements of xyTalk

The syntax tree that the parser builds and the engine runs. Strings are lists of characters,
an `f64` is kept as its bits, and the machine integers of the source are unbounded here: the
parser checks their range when it reads them.
-/

namespace XyzDB

abbrev Text := List Char

instance : LawfulBEq Text := inferInstance

namespace Talk

/-- A literal. `param` is a placeholder `$name`, to be replaced by `bindParams`. -/
inductive Literal where
  | int (value : ℤ)
  | float (bits : UInt64)
  | text (value : Text)
  | bool (value : Bool)
  | timestamp (value : Text)
  | lid (value : Text)
  | null
  | list (items : List Literal)
  | map (pairs : List (Text × Literal))
  | param (name : Text)

inductive FilterOp where
  | eq | neq | gt | gte | lt | lte
  | isNull | isNotNull
  | contains
  | inList
  deriving DecidableEq

structure Filter where
  field : Text
  op : FilterOp
  value : Literal

/-- A WHERE tree. -/
inductive FilterExpr where
  | condition (filter : Filter)
  | and (exprs : List FilterExpr)
  | or (exprs : List FilterExpr)
  | not (expr : FilterExpr)

inductive FindTarget where
  | lobe (name : Text)
  | byLid (lid : Text)
  deriving DecidableEq

/-- A field of a PUT. `gravity` marks the field that places the record. -/
structure PutField where
  name : Text
  value : Literal
  gravity : Bool

structure LinkClause where
  target : FindTarget
  filters : List Filter
  relationName : Text

inductive OnConflict where
  | update
  deriving DecidableEq

structure PutStmt where
  fields : List PutField
  lobe : Text
  link : Option LinkClause
  onConflict : Option OnConflict

structure PutBatchStmt where
  records : List (List PutField)
  lobe : Text
  link : Option LinkClause
  onConflict : Option OnConflict

/-- FIND has a flat conjunction and no tree. -/
structure FindStmt where
  target : FindTarget
  filters : List Filter
  limit : Option ℕ
  cursor : Option Text

structure PullStmt where
  target : Option FindTarget
  depth : ℕ
  only : Option Text

structure OrderBy where
  field : Text
  descending : Bool
  deriving DecidableEq

structure ScanStmt where
  lobe : Text
  filterExpr : Option FilterExpr
  orderBy : Option OrderBy
  limit : Option ℕ
  cursor : Option Text

/-- `target` and `filterExpr` are `none` in a pipeline, where the step works on what comes in. -/
structure SetStmt where
  target : Option FindTarget
  assignments : List (Text × Literal)
  filterExpr : Option FilterExpr

structure DeleteStmt where
  target : Option FindTarget
  filterExpr : Option FilterExpr

structure PurgeStmt where
  lobe : Text

structure FetchStmt where
  lobes : List Text
  filterExpr : Option FilterExpr
  names : Option (List Text)

structure LinkStmt where
  source : FindTarget
  target : FindTarget
  relationName : Text
  sourceFilterExpr : Option FilterExpr
  targetFilterExpr : Option FilterExpr

structure AnchorStmt where
  field : Text
  lobe : Text

inductive GravityTransform where
  | lower | trim
  deriving DecidableEq

inductive GravitySpecAst where
  | raw (field : Text)
  | normalized (field : Text) (transform : GravityTransform)
  | composite (fields : List Text)

structure GravityStmt where
  lobe : Text
  spec : GravitySpecAst

structure VectorStmt where
  field : Text
  lobe : Text

structure SatelliteStmt where
  field : Text
  lobe : Text

structure LobeStmt where
  name : Text
  hint : Option Text

inductive ShowStmt where
  | lobes
  | anchors (lobe : Text)
  | throttle
  | ghosts
  | scanStats
  | profile (lobe : Text)
  | cache

structure AutoAnchorApplyStmt where
  field : Text
  lobe : Text

structure InCacheStmt where
  lobe : Text
  filterExpr : Option FilterExpr

structure PinStmt where
  fields : List Text
  lobe : Text

structure UnpinStmt where
  fields : List Text
  lobe : Text

inductive AggregateFunc where
  | count
  | sum (field : Text)
  | avg (field : Text)
  | min (field : Text)
  | max (field : Text)
  deriving DecidableEq

/-- One metric, with its own WHERE and the name of its column. -/
structure Aggregate where
  func : AggregateFunc
  filter : Option FilterExpr
  column : Option Text

inductive TopBy where
  | metric (func : AggregateFunc)
  | column (name : Text)
  deriving DecidableEq

structure TopStmt where
  n : ℕ
  by_ : Option TopBy
  descending : Bool

structure ShapeStmt where
  fields : List Text

structure FollowStmt where
  field : Text
  lobe : Text
  targetField : Text

inductive NearestQuery where
  | vector (literal : Literal)
  | param (name : Text)
  | ref (id : Text)

structure NearestStmt where
  field : Text
  query : NearestQuery
  k : ℕ
  metric : Text

/-- A ghost without a WHERE has the filter `and []`. -/
structure CreateGhostStmt where
  name : Text
  sourceLobe : Text
  filter : FilterExpr
  orderBy : Text
  sortDescending : Bool
  orderMetric : Option TopBy
  groupBy : List Text
  aggregates : List Aggregate
  embed : List Text

structure ScanGhostStmt where
  name : Text
  filterExpr : Option FilterExpr
  limit : Option ℕ

inductive PipelineStep where
  | find (stmt : FindStmt)
  | pull (stmt : PullStmt)
  | set (stmt : SetStmt)
  | delete (stmt : DeleteStmt)
  | scan (stmt : ScanStmt)
  | scanGhost (stmt : ScanGhostStmt)
  | aggregate (metrics : List Aggregate)
  | groupBy (fields : List Text)
  | nearest (stmt : NearestStmt)
  | follow (stmt : FollowStmt)
  | top (stmt : TopStmt)
  | shape (stmt : ShapeStmt)

inductive Statement where
  | put (stmt : PutStmt)
  | putBatch (stmt : PutBatchStmt)
  | find (stmt : FindStmt)
  | pull (stmt : PullStmt)
  | scan (stmt : ScanStmt)
  | set (stmt : SetStmt)
  | delete (stmt : DeleteStmt)
  | purge (stmt : PurgeStmt)
  | fetch (stmt : FetchStmt)
  | link (stmt : LinkStmt)
  | anchor (stmt : AnchorStmt)
  | gravity (stmt : GravityStmt)
  | vector (stmt : VectorStmt)
  | satellite (stmt : SatelliteStmt)
  | lobe (stmt : LobeStmt)
  | show (stmt : ShowStmt)
  | autoAnchorApply (stmt : AutoAnchorApplyStmt)
  | createGhost (stmt : CreateGhostStmt)
  | scanGhost (stmt : ScanGhostStmt)
  | refreshGhost (name : Text)
  | dropGhost (name : Text)
  | analyze (lobe : Text)
  | compact
  | scrub
  | bulkMode (on : Bool)
  | migrate (lobe : Option Text)
  | inCache (stmt : InCacheStmt)
  | outCache (lobe : Text)
  | pin (stmt : PinStmt)
  | unpin (stmt : UnpinStmt)
  | pipeline (steps : List PipelineStep)

end Talk

end XyzDB
