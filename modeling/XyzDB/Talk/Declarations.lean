import XyzDB.Talk.Grammar

/-!
# Pipeline steps, ghosts and declarations

The rest of the statement parsers: the steps of a pipeline, the statements about ghosts (a ghost
is a saved query and owns its pipes), and the declarations and switches of a lobe.
-/

namespace XyzDB.Talk

open Nom

variable (std : CharTable)

def parseAggCount : Parser AggregateFunc := fun input => do
  let (input, _) ← ws (kw "count") input
  let (input, _) ← char '(' input
  let (input, _) ← opt (ws (char '*')) input
  let (input, _) ← ws (char ')') input
  return (input, .count)

def parseAggFieldFunc (name : String) : Parser Text := fun input => do
  let (input, _) ← ws (kw name) input
  let (input, _) ← char '(' input
  let (input, field) ← ws (identifier std) input
  let (input, _) ← char ')' input
  return (input, field)

def parseAggSum : Parser AggregateFunc := map (parseAggFieldFunc std "sum") .sum

def parseAggAvg : Parser AggregateFunc := map (parseAggFieldFunc std "avg") .avg

def parseAggMin : Parser AggregateFunc := map (parseAggFieldFunc std "min") .min

def parseAggMax : Parser AggregateFunc := map (parseAggFieldFunc std "max") .max

def parseAggregateFunc : Parser AggregateFunc :=
  alt parseAggCount (alt (parseAggSum std) (alt (parseAggAvg std)
    (alt (parseAggMin std) (parseAggMax std))))

def parseAggregateItem : Parser Aggregate := fun input => do
  let (input, func) ← parseAggregateFunc std input
  let (input, column) ← opt (preceded (ws (kw "AS")) (ws (identifier std))) input
  let (input, filter) ← opt (parseWhereExpr std) input
  return (input, ⟨func, filter, column⟩)

def parseAggregate : Parser (List Aggregate) := fun input => do
  let (input, _) ← ws (kw "AGGREGATE") input
  separatedList1 (ws (char ',')) (parseAggregateItem std) input

def parseTake : Parser TopStmt := fun input => do
  let (input, _) ← ws (alt (kw "TAKE") (kw "TOP")) input
  let (input, n) ← digitsU64 input
  let (input, by_) ← opt (preceded (ws (kw "BY"))
      (alt (map (parseAggregateFunc std) .metric) (map (ws (identifier std)) .column))) input
  let (input, descending) ← direction input
  return (input, ⟨n, by_, descending.getD true⟩)

def parseGroupBy : Parser (List Text) := fun input => do
  let (input, _) ← ws (kw "GROUP") input
  let (input, _) ← ws (kw "BY") input
  identifierList std input

def parseShapeStep : Parser ShapeStmt := fun input => do
  let (input, _) ← ws (kw "SHAPE") input
  let (input, fields) ← bracedList std input
  return (input, ⟨fields⟩)

def parseFollow : Parser FollowStmt := fun input => do
  let (input, _) ← ws (kw "FOLLOW") input
  let (input, field) ← ws (identifier std) input
  let (input, _) ← ws (kw "TO") input
  let (input, lobe) ← ws quotedString input
  let (input, _) ← ws (kw "ON") input
  let (input, targetField) ← ws (identifier std) input
  return (input, ⟨field, lobe, targetField⟩)

def parseNearestParam : Parser NearestQuery := fun input => do
  let (input, _) ← char '$' input
  let (input, name) ← identifier std input
  return (input, .param name)

def parseNearestRef : Parser NearestQuery := map (keywordName "REF") .ref

def parseNearestQuery : Parser NearestQuery :=
  alt (parseNearestParam std) (alt parseNearestRef (map (parseLiteral std) .vector))

def parseNearestFunc : Parser NearestStmt := fun input => do
  let (input, _) ← ws (char '(') input
  let (input, field) ← ws (identifier std) input
  let (input, _) ← ws (char ',') input
  let (input, query) ← ws (parseNearestQuery std) input
  let (input, _) ← ws (char ',') input
  let (input, k) ← ws parseU64 input
  let (input, _) ← ws (char ',') input
  let (input, metric) ← ws (identifier std) input
  let (input, _) ← ws (char ')') input
  return (input, ⟨field, query, k, metric⟩)

def parseNearestPhrase : Parser NearestStmt := fun input => do
  let (input, k) ← ws parseU64 input
  let (input, _) ← ws (kw "BY") input
  let (input, field) ← ws (identifier std) input
  let (input, _) ← ws (kw "TO") input
  let (input, query) ← ws (parseNearestQuery std) input
  let (input, metric) ← opt (preceded (ws (kw "USING")) (ws (identifier std))) input
  return (input, ⟨field, query, k, metric.getD "cosine".toList⟩)

def parseNearest : Parser NearestStmt := fun input => do
  let (input, _) ← ws (kw "NEAREST") input
  alt (parseNearestFunc std) (parseNearestPhrase std) input

/-- What follows `FROM "lobe" [WHERE …]` in a ghost's declaration. -/
structure GhostShape where
  orderBy : Text
  orderMetric : Option TopBy
  sortDescending : Bool
  groupBy : List Text
  aggregates : List Aggregate
  embed : List Text

def parseGhostOrderTarget : Parser (Text × Option TopBy) :=
  alt (map (parseAggregateFunc std) fun f => ([], some (.metric f)))
    (map (ws (identifier std)) fun s => (s, none))

def parseGhostDirection : Parser Bool := map direction (·.getD false)

/-- The loop of `parse_ghost_embed`: a comma without a name behind it is left where it is. -/
def embedLoop : ℕ → Text → List Text → Text × List Text
  | 0, rest, fields => (rest, fields.reverse)
  | fuel + 1, rest, fields =>
    match preceded (ws (char ',')) (ws (identifier std)) rest with
    | .ok (r, field) => embedLoop fuel r (field :: fields)
    | .error _ => (rest, fields.reverse)

def parseGhostEmbed : Parser (List Text) := fun input => do
  let (input, _) ← ws (kw "EMBED") input
  let (input, first) ← ws (identifier std) input
  return embedLoop std input.length input [first]

def parseGhostPipelineShape : Parser GhostShape := fun input => do
  let pipe := ws (char '|')
  let (input, groupBy) ← opt (preceded pipe (parseGroupBy std)) input
  let (input, aggregates) ← opt (preceded pipe (parseAggregate std)) input
  let (input, _) ← pipe input
  let (input, _) ← ws (kw "TAKE") input
  let (input, _) ← ws (kw "BY") input
  let (input, orderBy, orderMetric) ← parseGhostOrderTarget std input
  let (input, sortDescending) ← parseGhostDirection input
  let (input, embed) ← opt (preceded pipe (parseGhostEmbed std)) input
  return (input, ⟨orderBy, orderMetric, sortDescending, groupBy.getD [], aggregates.getD [],
    embed.getD []⟩)

def parseGhostClauseShape : Parser GhostShape := fun input => do
  let (input, _) ← ws (kw "ORDER") input
  let (input, _) ← ws (kw "BY") input
  let (input, orderBy, orderMetric) ← parseGhostOrderTarget std input
  let (input, sortDescending) ← parseGhostDirection input
  let (input, groupBy) ← opt (parseGroupBy std) input
  let (input, aggregates) ← opt (parseAggregate std) input
  let (input, embed) ← opt (parseGhostEmbed std) input
  return (input, ⟨orderBy, orderMetric, sortDescending, groupBy.getD [], aggregates.getD [],
    embed.getD []⟩)

def parseCreateGhost : Parser CreateGhostStmt := fun input => do
  let (input, _) ← ws (kw "CREATE") input
  let (input, _) ← ws (kw "GHOST") input
  let (input, name) ← ws quotedString input
  let (input, _) ← ws (kw "FROM") input
  let (input, sourceLobe) ← ws quotedString input
  let (input, filter) ← opt (parseWhereExpr std) input
  let (input, shape) ← alt (parseGhostPipelineShape std) (parseGhostClauseShape std) input
  return (input, {
    name, sourceLobe
    filter := filter.getD (.and [])
    orderBy := shape.orderBy
    sortDescending := shape.sortDescending
    orderMetric := shape.orderMetric
    groupBy := shape.groupBy
    aggregates := shape.aggregates
    embed := shape.embed })

def parseScanGhost : Parser ScanGhostStmt := fun input => do
  let (input, _) ← ws (kw "SCAN") input
  let (input, _) ← ws (kw "GHOST") input
  let (input, name) ← ws quotedString input
  let (input, filterExpr) ← opt (parseWhereExpr std) input
  let (input, limit) ← opt parseLimit input
  return (input, ⟨name, filterExpr, limit⟩)

def parseRefreshGhost : Parser Text := fun input => do
  let (input, _) ← ws (kw "REFRESH") input
  keywordName "GHOST" input

def parseDropGhost : Parser Text := fun input => do
  let (input, _) ← ws (kw "DROP") input
  keywordName "GHOST" input

def parseAnchor : Parser AnchorStmt := fun input => do
  let (input, field) ← keywordName "ANCHOR" input
  let (input, _) ← ws (kw "UNIQUE") input
  let (input, lobe) ← keywordName "IN" input
  return (input, ⟨field, lobe⟩)

def parseAutoanchorApply : Parser AutoAnchorApplyStmt := fun input => do
  let (input, _) ← ws (kw "AUTOANCHOR") input
  let (input, field) ← keywordName "APPLY" input
  let (input, lobe) ← keywordName "IN" input
  return (input, ⟨field, lobe⟩)

def parseVector : Parser VectorStmt := fun input => do
  let (input, _) ← ws (kw "VECTOR") input
  let (input, field) ← ws (identifier std) input
  let (input, lobe) ← keywordName "IN" input
  return (input, ⟨field, lobe⟩)

def parseSatellite : Parser SatelliteStmt := fun input => do
  let (input, _) ← ws (kw "SATELLITE") input
  let (input, _) ← ws (kw "BY") input
  let (input, field) ← ws (identifier std) input
  let (input, lobe) ← keywordName "IN" input
  return (input, ⟨field, lobe⟩)

def parseGravityComposite : Parser GravitySpecAst := fun input => do
  let (input, _) ← ws (char '(') input
  let (input, fields) ← identifierList std input
  let (input, _) ← ws (char ')') input
  return (input, .composite fields)

def parseGravityTransform : Parser GravitySpecAst := fun input => do
  let (input, name) ← ws (alt (kw "lower") (kw "trim")) input
  let (input, _) ← ws (char '(') input
  let (input, field) ← ws (identifier std) input
  let (input, _) ← ws (char ')') input
  return (input,
    .normalized field (if name.map Char.toLower = "lower".toList then .lower else .trim))

def parseGravityExpr : Parser GravitySpecAst :=
  alt (parseGravityComposite std) (alt (parseGravityTransform std) (map (ws (identifier std)) .raw))

def parseGravity : Parser GravityStmt := fun input => do
  let (input, _) ← ws (kw "GRAVITY") input
  let (input, _) ← ws (kw "BY") input
  let (input, spec) ← parseGravityExpr std input
  let (input, lobe) ← keywordName "IN" input
  return (input, ⟨lobe, spec⟩)

def parseLobeHint : Parser Text := fun input => do
  let (input, _) ← ws (kw "HINT") input
  let (input, _) ← ws (char '=') input
  ws quotedString input

def parseLobe : Parser LobeStmt := fun input => do
  let (input, name) ← keywordName "LOBE" input
  let (input, hint) ← opt parseLobeHint input
  return (input, ⟨name, hint⟩)

def parsePin : Parser PinStmt := fun input => do
  let (input, _) ← ws (kw "PIN") input
  let (input, fields) ← identifierList std input
  let (input, lobe) ← keywordName "IN" input
  return (input, ⟨fields, lobe⟩)

def parseUnpin : Parser UnpinStmt := fun input => do
  let (input, _) ← ws (kw "UNPIN") input
  let (input, fields) ← identifierList std input
  let (input, lobe) ← keywordName "IN" input
  return (input, ⟨fields, lobe⟩)

def parseIncache : Parser InCacheStmt := fun input => do
  let (input, _) ← ws (kw "INCACHE") input
  let (input, lobe) ← lobeName std input
  let (input, filterExpr) ← opt (parseWhereExpr std) input
  return (input, ⟨lobe, filterExpr⟩)

def parseOutcache : Parser Text := fun input => do
  let (input, _) ← ws (kw "OUTCACHE") input
  lobeName std input

def parseAnalyze : Parser Text := keywordName "ANALYZE"

def parseShowScanStats : Parser ShowStmt := fun input => do
  let (input, _) ← ws (kw "SCAN") input
  let (input, _) ← ws (kw "STATS") input
  return (input, .scanStats)

def parseShowProfile : Parser ShowStmt := map (keywordName "PROFILE") .profile

def parseShowCache : Parser ShowStmt := value .cache (ws (kw "CACHE"))

def parseShowThrottle : Parser ShowStmt := value .throttle (ws (kw "THROTTLE"))

def parseShowGhosts : Parser ShowStmt := value .ghosts (ws (kw "GHOSTS"))

def parseShowAnchors : Parser ShowStmt := fun input => do
  let (input, _) ← ws (kw "ANCHORS") input
  let (input, lobe) ← keywordName "IN" input
  return (input, .anchors lobe)

def parseShowLobes : Parser ShowStmt := value .lobes (ws (kw "LOBES"))

def parseShow : Parser ShowStmt := fun input => do
  let (input, _) ← ws (kw "SHOW") input
  alt parseShowScanStats (alt parseShowProfile (alt parseShowCache (alt parseShowThrottle
    (alt parseShowGhosts (alt parseShowAnchors parseShowLobes))))) input

end XyzDB.Talk
