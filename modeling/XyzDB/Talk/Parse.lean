import XyzDB.Talk.Declarations

/-!
# From a text to statements

The entry points of the parser. `parse` takes one statement or pipeline, `parseMulti` cuts the
text at semicolons first. Which parser runs is decided by how the upper-cased text starts, and
what that parser leaves of the text is dropped, except for FIND.
-/

namespace XyzDB.Talk

open Nom

/-- The errors of the parser and of parameter binding, with their texts. -/
inductive XyzError where
  | parse (message : Text)
  | invalidQuery (message : Text)

variable (std : CharTable)

/-- `parse_failure`: the message for an error of a statement parser, with the place it stopped
at, cut after 40 characters. -/
def parseFailure (e : Err) : XyzError :=
  let rest := trim std (match e with | .error input => input | .failure input => input)
  if rest = [] then
    .parse ("statement ends where more input was expected — check the statement's " ++
      "grammar in docs/xytalk-spec.md").toList
  else
    .parse ("could not parse from: '".toList ++ rest.take 40 ++
      (if 40 < rest.length then ['…'] else []) ++
      "' — check the statement's grammar in docs/xytalk-spec.md".toList)

/-- Runs a statement parser and drops what it leaves. -/
def finish {α : Type} (p : Parser α) (input : Text) : Except XyzError α :=
  match p input with
  | .ok (_, a) => .ok a
  | .error e => .error (parseFailure std e)

/-- Whether the upper-cased text starts with a keyword. -/
def startsWith (upper : Text) (keyword : String) : Bool := keyword.toList.isPrefixOf upper

def parsePipelineStep (input : Text) : Except XyzError PipelineStep :=
  let trimmed := trim std input
  let upper := toUppercase std trimmed
  if startsWith upper "PULL" then .pull <$> finish std (parsePullStep std) trimmed
  else if startsWith upper "SET" then .set <$> finish std (parseSetStep std) trimmed
  else if startsWith upper "DELETE" then .delete <$> finish std parseDeleteStep trimmed
  else if startsWith upper "AGGREGATE" then .aggregate <$> finish std (parseAggregate std) trimmed
  else if startsWith upper "GROUP" then .groupBy <$> finish std (parseGroupBy std) trimmed
  else if startsWith upper "NEAREST" then .nearest <$> finish std (parseNearest std) trimmed
  else if startsWith upper "FOLLOW" then .follow <$> finish std (parseFollow std) trimmed
  else if startsWith upper "TAKE" || startsWith upper "TOP" then
    .top <$> finish std (parseTake std) trimmed
  else if startsWith upper "SHAPE" then .shape <$> finish std (parseShapeStep std) trimmed
  else
    .error (.parse ("Unknown pipeline step: '".toList ++ trimmed ++
      ("'. Expected PULL, SET, DELETE, AGGREGATE, GROUP BY, TAKE, SHAPE, NEAREST, " ++
        "or FOLLOW").toList))

def checkFindTail (rest : Text) (stmt : FindStmt) : Except XyzError FindStmt :=
  let tail := trimStart std rest
  if tail = [] then .ok stmt
  else
    let word := toUppercase std (tail.takeWhile std.isAlphanumeric)
    if word = "OR".toList || word = "NOT".toList then
      .error (.parse ("FIND is AND-only (anchor/gravity fast path); OR/NOT needs a " ++
        "traversal — use SCAN").toList)
    else .error (.parse ("unexpected trailing input in FIND: '".toList ++ tail ++ "'".toList))

/-- FIND: the one statement whose rest is looked at. -/
def finishFind (input : Text) : Except XyzError FindStmt :=
  match parseFind std input with
  | .ok (rest, stmt) => checkFindTail std rest stmt
  | .error e => .error (parseFailure std e)

/-- SCAN: an ORDER BY needs a LIMIT. -/
def checkScan (stmt : ScanStmt) : Except XyzError ScanStmt :=
  if stmt.orderBy.isSome && stmt.limit.isNone then
    .error (.parse ("ORDER BY requires LIMIT to bound the sort — add `LIMIT n`, " ++
      "or use `| TAKE n BY <field>` for a top-N").toList)
  else .ok stmt

/-- DELETE: a WHERE is needed. -/
def checkDelete (stmt : DeleteStmt) : Except XyzError DeleteStmt :=
  if stmt.filterExpr.isNone then
    .error (.parse ("DELETE requires WHERE — add a predicate, or use `PURGE \"lobe\"` " ++
      "to empty a whole lobe").toList)
  else .ok stmt

/-- FETCH: a WHERE is needed, and one section name for each lobe when there are names. -/
def checkFetch (stmt : FetchStmt) : Except XyzError FetchStmt :=
  if stmt.filterExpr.isNone then
    .error (.parse ("FETCH requires WHERE — add the shared predicate (e.g. WHERE rfc = \"X\") " ++
      "that selects the co-located records across the lobes").toList)
  else
    match stmt.names with
    | none => .ok stmt
    | some names =>
      if names.length = stmt.lobes.length then .ok stmt
      else
        .error (.parse ("FETCH AS lists ".toList ++ (Nat.toDigits 10 names.length) ++
          " name(s) for ".toList ++ (Nat.toDigits 10 stmt.lobes.length) ++
          " lobe(s) — give one section name per lobe".toList))

/-- BULKMODE, given the rest of the upper-cased text. -/
def parseBulkMode (rest : Text) : Except XyzError Statement :=
  let rest := trim std rest
  if startsWith rest "ON" then .ok (.bulkMode true)
  else if startsWith rest "OFF" then .ok (.bulkMode false)
  else .error (.parse "Expected BULKMODE ON or BULKMODE OFF".toList)

/-- The text behind the first `n` bytes. -/
def dropBytes (n : ℕ) : Text → Text
  | [] => []
  | c :: rest => if n = 0 then c :: rest else dropBytes (n - c.utf8Size) rest

/-- `str::trim_matches('"')`. -/
def trimQuotes (input : Text) : Text :=
  ((input.dropWhile (· == '"')).reverse.dropWhile (· == '"')).reverse

/-- MIGRATE, without a parser of its own. -/
def parseMigrate (trimmed : Text) : Statement :=
  let rest := trim std (dropBytes 7 trimmed)
  if rest = [] then .migrate none else .migrate (some (trimQuotes rest))

/-- The first word of a text, for the error about an unknown command. -/
def firstWord (trimmed : Text) : Text :=
  (trimStart std trimmed).takeWhile fun c => !std.isWhitespace c

/-- `parse_single_statement`. The order of the tests matters: `PUT BATCH` before `PUT`,
`SCAN GHOST` before `SCAN`, `AUTOANCHOR` apart from `ANCHOR`. -/
def parseSingleStatement (input : Text) : Except XyzError Statement :=
  let trimmed := trim std input
  let upper := toUppercase std trimmed
  if startsWith upper "PUT BATCH" || startsWith upper "PUT  BATCH" then
    .putBatch <$> finish std (parsePutBatch std) trimmed
  else if startsWith upper "PUT" then .put <$> finish std (parsePut std) trimmed
  else if startsWith upper "FIND" then .find <$> finishFind std trimmed
  else if startsWith upper "PULL" then .pull <$> finish std (parsePullFull std) trimmed
  else if startsWith upper "SCAN GHOST" then
    .scanGhost <$> finish std (parseScanGhost std) trimmed
  else if startsWith upper "SCAN" then
    .scan <$> (finish std (parseScan std) trimmed >>= checkScan)
  else if startsWith upper "CREATE GHOST" then
    .createGhost <$> finish std (parseCreateGhost std) trimmed
  else if startsWith upper "REFRESH GHOST" then
    .refreshGhost <$> finish std parseRefreshGhost trimmed
  else if startsWith upper "DROP GHOST" then .dropGhost <$> finish std parseDropGhost trimmed
  else if startsWith upper "SET" then .set <$> finish std (parseSetFull std) trimmed
  else if startsWith upper "DELETE" then
    .delete <$> (finish std (parseDeleteFull std) trimmed >>= checkDelete)
  else if startsWith upper "PURGE" then .purge <$> finish std parsePurge trimmed
  else if startsWith upper "FETCH" then
    .fetch <$> (finish std (parseFetch std) trimmed >>= checkFetch)
  else if startsWith upper "LINK" then .link <$> finish std (parseLink std) trimmed
  else if startsWith upper "ANALYZE" then .analyze <$> finish std parseAnalyze trimmed
  else if startsWith upper "BULKMODE" then parseBulkMode std (upper.drop 8)
  else if startsWith upper "COMPACT" then .ok .compact
  else if startsWith upper "SCRUB" then .ok .scrub
  else if startsWith upper "MIGRATE" then .ok (parseMigrate std trimmed)
  else if startsWith upper "PIN" && !startsWith upper "PIPELINE" then
    .pin <$> finish std (parsePin std) trimmed
  else if startsWith upper "UNPIN" then .unpin <$> finish std (parseUnpin std) trimmed
  else if startsWith upper "AUTOANCHOR" then
    .autoAnchorApply <$> finish std parseAutoanchorApply trimmed
  else if startsWith upper "ANCHOR" then .anchor <$> finish std parseAnchor trimmed
  else if startsWith upper "GRAVITY" then .gravity <$> finish std (parseGravity std) trimmed
  else if startsWith upper "VECTOR" then .vector <$> finish std (parseVector std) trimmed
  else if startsWith upper "SATELLITE" then
    .satellite <$> finish std (parseSatellite std) trimmed
  else if startsWith upper "LOBE" then .lobe <$> finish std parseLobe trimmed
  else if startsWith upper "INCACHE" then .inCache <$> finish std (parseIncache std) trimmed
  else if startsWith upper "OUTCACHE" then .outCache <$> finish std (parseOutcache std) trimmed
  else if startsWith upper "SHOW" then .show <$> finish std parseShow trimmed
  else .error (.parse ("Unknown command: '".toList ++ firstWord std trimmed ++ "'".toList))

/-- How a pipeline may start. -/
def firstStep : Statement → Except XyzError PipelineStep
  | .find f => .ok (.find f)
  | .scan s => .ok (.scan s)
  | .scanGhost s => .ok (.scanGhost s)
  | _ => .error (.parse "Pipeline must start with FIND, SCAN, or SCAN GHOST".toList)

def parsePipeline (first : Text) (others : List Text) : Except XyzError Statement := do
  let stmt ← parseSingleStatement std first
  let step ← firstStep stmt
  let steps ← others.mapM (parsePipelineStep std)
  return .pipeline (step :: steps)

/-- `parse_segment`. A ghost's declaration is not cut at its pipes. -/
def parseSegment (trimmed : Text) : Except XyzError Statement :=
  if startsWith (toUppercase std trimmed) "CREATE GHOST" then parseSingleStatement std trimmed
  else
    match splitPipeline std trimmed with
    | [] => .error (.parse "Empty input".toList)
    | [segment] => parseSingleStatement std segment
    | first :: others => parsePipeline std first others

def parse (input : Text) : Except XyzError Statement :=
  let trimmed := trim std (stripComments input)
  if trimmed = [] then .error (.parse "Empty input".toList) else parseSegment std trimmed

def parseMulti (input : Text) : Except XyzError (List Statement) := do
  let segments := (splitSemicolon (stripComments input)).map (trim std)
  let stmts ← (segments.filter (· ≠ [])).mapM (parseSegment std)
  if stmts.isEmpty then .error (.parse "Empty input".toList) else return stmts

end XyzDB.Talk
