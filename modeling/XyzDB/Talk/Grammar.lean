import XyzDB.Talk.Lexer

/-!
# The statement parsers of xyTalk

One definition for each parser of the source, in its order. A parser returns what it leaves of
the input; nothing here looks at whether that is empty.

An optional clause is parsed by `opt`. When a clause starts as it should and then goes wrong,
`opt` takes it for absent and leaves it in the input, for all errors but the failures that a
broken list inside of it gives.

The parsers of WHERE trees recurse through NOT and parentheses. They run on fuel, which the
length of the text bounds: both take a character.
-/

namespace XyzDB.Talk

open Nom

variable (std : CharTable)

def parseFilterOp : Parser FilterOp :=
  alt (value .neq (tag "!=".toList)) (alt (value .gte (tag ">=".toList))
    (alt (value .lte (tag "<=".toList)) (alt (value .gt (tag ">".toList))
      (alt (value .lt (tag "<".toList)) (value .eq (tag "=".toList))))))

def parseIsNullFilter : Parser Filter := fun input => do
  let (input, field) ← ws (identifier std) input
  let (input, _) ← ws (kw "IS") input
  let (input, negated) ← opt (ws (kw "NOT")) input
  let (input, _) ← ws (kw "NULL") input
  return (input, ⟨field, if negated.isSome then .isNotNull else .isNull, .null⟩)

def parseContainsFilter : Parser Filter := fun input => do
  let (input, field) ← ws (identifier std) input
  let (input, _) ← ws (kw "CONTAINS") input
  let (input, val) ← ws (parseLiteral std) input
  return (input, ⟨field, .contains, val⟩)

def parseComparisonFilter : Parser Filter := fun input => do
  let (input, field) ← ws (identifier std) input
  let (input, op) ← ws parseFilterOp input
  let (input, val) ← ws (parseLiteral std) input
  return (input, ⟨field, op, val⟩)

/-- `parse_in_filter`. The bracket that opens decides which one closes. -/
def parseInFilter : Parser Filter := fun input => do
  let (input, field) ← ws (identifier std) input
  let (input, _) ← ws (kw "IN") input
  let (input, bracket) ← ws (alt (char '(') (char '[')) input
  let close := if bracket = '(' then ')' else ']'
  let (input, first) ← ws (parseLiteral std) input
  let (remaining, items) ←
    itemsLoop std close (ws (parseLiteral std)) (input.length + 1) input [first]
  return (remaining, ⟨field, .inList, .list items⟩)

def parseFilter : Parser Filter :=
  alt (parseIsNullFilter std) (alt (parseContainsFilter std)
    (alt (parseInFilter std) (parseComparisonFilter std)))

def parseWhereClause : Parser (List Filter) := fun input => do
  let (input, _) ← ws (kw "WHERE") input
  separatedList1 (ws (kw "AND")) (parseFilter std) input

/-- `try_keyword`: unlike `kw` it wants a word boundary behind the keyword. -/
def tryKeyword (input : Text) (keyword : String) : Option Text :=
  let trimmed := trimStart std input
  if (trimmed.take keyword.length).map Char.toLower = keyword.toList.map Char.toLower then
    let after := trimmed.drop keyword.length
    if after.head?.any fun c => std.isAlphanumeric c || c == '_' then none else some after
  else none

/-- The loop of `parse_or_expr` and `parse_and_expr`. -/
def termsLoop (keyword : String) (term : Parser FilterExpr) :
    ℕ → Text → List FilterExpr → Except Err (Text × List FilterExpr)
  | 0, remaining, _ => .error (.failure remaining)
  | fuel + 1, remaining, terms =>
    match tryKeyword std remaining keyword with
    | none => .ok (remaining, terms.reverse)
    | some rest =>
      match term rest with
      | .error e => .error e
      | .ok (rest, next) => termsLoop keyword term fuel rest (next :: terms)

/-- Terms joined by a keyword; a single one stands for itself. -/
def parseTerms (keyword : String) (join : List FilterExpr → FilterExpr)
    (term : Parser FilterExpr) : Parser FilterExpr := fun input => do
  let (input, first) ← term input
  let (input, terms) ← termsLoop std keyword term (input.length + 1) input [first]
  match terms with
  | [e] => return (input, e)
  | terms => return (input, join terms)

/-- `parse_filter_atom`, given the parser for the inside of parentheses. -/
def parseFilterAtom (orExpr : Parser FilterExpr) : Parser FilterExpr := fun input => do
  let trimmed := trimStart std input
  if trimmed.head? = some '(' then
    let (rest, _) ← char '(' trimmed
    let (rest, expr) ← orExpr rest
    let (rest, _) ← ws (char ')') rest
    return (rest, expr)
  else
    let (rest, filter) ← parseFilter std trimmed
    return (rest, .condition filter)

/-- `parse_and_expr`, given `parse_not_expr`. -/
def parseAndExpr (notExpr : Parser FilterExpr) : Parser FilterExpr :=
  parseTerms std "AND" .and notExpr

/-- `parse_or_expr`, given `parse_not_expr`. -/
def parseOrExpr (notExpr : Parser FilterExpr) : Parser FilterExpr :=
  parseTerms std "OR" .or (parseAndExpr std notExpr)

def parseNotExpr : ℕ → Parser FilterExpr
  | 0 => fun input => .error (.failure input)
  | fuel + 1 => fun input =>
    match tryKeyword std input "NOT" with
    | some rest => do
      let (rest, inner) ← parseNotExpr fuel rest
      return (rest, .not inner)
    | none => parseFilterAtom std (parseOrExpr std (parseNotExpr fuel)) input

def parseWhereExpr : Parser FilterExpr := fun input => do
  let (input, _) ← ws (kw "WHERE") input
  parseOrExpr std (parseNotExpr std (input.length + 1)) input

def parseFindTargetLid : Parser FindTarget := fun input => do
  let (input, _) ← ws (kw "LID") input
  let (input, _) ← char '(' input
  let (input, s) ← quotedString input
  let (input, _) ← char ')' input
  return (input, .byLid s)

def parseFindTargetName : Parser FindTarget := fun input => do
  let (input, _) ← multispace0 input
  alt (map quotedString .lobe) (map (identifier std) .lobe) input

def parseFindTarget : Parser FindTarget := alt parseFindTargetLid (parseFindTargetName std)

/-- Names between commas. -/
def identifierList : Parser (List Text) := separatedList1 (ws (char ',')) (ws (identifier std))

/-- Names between commas, in braces. -/
def bracedList : Parser (List Text) := fun input => do
  let (input, _) ← ws (char '{') input
  let (input, fields) ← identifierList std input
  let (input, _) ← ws (char '}') input
  return (input, fields)

/-- An optional `DESC` or `ASC`. -/
def direction : Parser (Option Bool) :=
  opt (alt (value true (ws (kw "DESC"))) (value false (ws (kw "ASC"))))

def parseOrderBy : Parser OrderBy := fun input => do
  let (input, _) ← ws (kw "ORDER") input
  let (input, _) ← ws (kw "BY") input
  let (input, field) ← ws (identifier std) input
  let (input, desc) ← direction input
  return (input, ⟨field, desc.getD false⟩)

/-- Digits between whitespace, as a `u64`. -/
def digitsU64 : Parser ℕ := fun input => do
  let (input, digits) ← ws (takeWhile1 isAsciiDigit) input
  match parseUnsigned 64 digits with
  | none => .error (.error input)
  | some n => .ok (input, n)

def parseLimit : Parser ℕ := fun input => do
  let (input, _) ← ws (kw "LIMIT") input
  digitsU64 input

def parseCursor : Parser Text := fun input => do
  let (input, _) ← ws (kw "CURSOR") input
  ws quotedString input

def parseFieldPair : Parser PutField := fun input => do
  let (input, gravity) ← opt (ws (char '*')) input
  let (input, key) ← ws (identifier std) input
  let (input, _) ← ws (char ':') input
  let (input, val) ← ws (parseLiteral std) input
  return (input, ⟨key, val, gravity.isSome⟩)

/-- The loop of `parse_fields_block`. -/
def fieldsLoop : ℕ → Text → List PutField → Except Err (Text × List PutField)
  | 0, remaining, _ => .error (.failure remaining)
  | fuel + 1, remaining, fields => do
    let trimmed := trimStart std remaining
    if trimmed.head? = some '}' then return (trimmed.tail, fields.reverse)
    else
      let (remaining, _) ← if fields.isEmpty then .ok (trimmed, ',') else ws (char ',') trimmed
      let (rest, field) ← parseFieldPair std remaining
      fieldsLoop fuel rest (field :: fields)

def parseFieldsBlock : Parser (List PutField) := fun input => do
  let (input, _) ← ws (char '{') input
  fieldsLoop std (input.length + 1) input []

def parsePutLinkClause : Parser LinkClause := fun input => do
  let (input, _) ← ws (kw "LINK") input
  let (input, _) ← ws (kw "TO") input
  let (input, target) ← parseFindTarget std input
  let (input, filters) ← opt (parseWhereClause std) input
  let (input, _) ← ws (kw "AS") input
  let (input, relName) ← ws quotedString input
  return (input, ⟨target, filters.getD [], relName⟩)

def parseOnConflict : Parser OnConflict := fun input => do
  let (input, _) ← ws (kw "ON") input
  let (input, _) ← ws (kw "CONFLICT") input
  let (input, _) ← ws (kw "UPDATE") input
  return (input, .update)

def parsePut : Parser PutStmt := fun input => do
  let (input, _) ← ws (kw "PUT") input
  let (input, fields) ← parseFieldsBlock std input
  let (input, _) ← ws (kw "IN") input
  let (input, lobe) ← lobeName std input
  let (input, link) ← opt (parsePutLinkClause std) input
  let (input, onConflict) ← opt parseOnConflict input
  return (input, ⟨fields, lobe, link, onConflict⟩)

def parsePutBatch : Parser PutBatchStmt := fun input => do
  let (input, _) ← ws (kw "PUT") input
  let (input, _) ← ws (kw "BATCH") input
  let (input, _) ← ws (kw "IN") input
  let (input, lobe) ← lobeName std input
  let (input, records) ←
    delimited (ws (char '[')) (separatedList1 (ws (char ',')) (parseFieldsBlock std))
      (ws (char ']')) input
  let (input, link) ← opt (parsePutLinkClause std) input
  let (input, onConflict) ← opt parseOnConflict input
  return (input, ⟨records, lobe, link, onConflict⟩)

def parseFind : Parser FindStmt := fun input => do
  let (input, _) ← ws (kw "FIND") input
  let (input, target) ← ws (parseFindTarget std) input
  let (input, filters) ← opt (parseWhereClause std) input
  let (input, limit) ← opt parseLimit input
  let (input, cursor) ← opt parseCursor input
  let (input, _) ← multispace0 input
  return (input, ⟨target, filters.getD [], limit, cursor⟩)

/-- The loop of `parse_pull_params`. A depth out of range counts as `1`. -/
def pullParamsLoop : ℕ → Text → ℕ → Option Text → Except Err (Text × ℕ × Option Text)
  | 0, rest, _, _ => .error (.failure rest)
  | fuel + 1, rest, depth, only => do
    let (r, _) ← multispace0 rest
    match kw "depth" r with
    | .ok (r, _) =>
      let (r, _) ← ws (char '=') r
      let (r, d) ← takeWhile1 isAsciiDigit r
      pullParamsLoop fuel r ((parseUnsigned 32 d).getD 1) only
    | .error _ =>
      match kw "only" r with
      | .ok (r, _) =>
        let (r, _) ← ws (char '=') r
        let (r, name) ← identifier std r
        pullParamsLoop fuel r depth (some name)
      | .error _ => .ok (rest, depth, only)

def parsePullParams : Parser (ℕ × Option Text) := fun input =>
  pullParamsLoop std (input.length + 1) input 1 none

def parsePullStep : Parser PullStmt := fun input => do
  let (input, _) ← ws (kw "PULL") input
  let (input, depth, only) ← parsePullParams std input
  return (input, ⟨none, depth, only⟩)

def parsePullFull : Parser PullStmt := fun input => do
  let (input, _) ← ws (kw "PULL") input
  let (input, _) ← ws (kw "FROM") input
  let (input, target) ← ws (parseFindTarget std) input
  let (input, depth, only) ← parsePullParams std input
  return (input, ⟨some target, depth, only⟩)

def parseScan : Parser ScanStmt := fun input => do
  let (input, _) ← ws (kw "SCAN") input
  let (input, lobe) ← lobeName std input
  let (input, filterExpr) ← opt (parseWhereExpr std) input
  let (input, orderBy) ← opt (parseOrderBy std) input
  let (input, limit) ← opt parseLimit input
  let (input, cursor) ← opt parseCursor input
  return (input, ⟨lobe, filterExpr, orderBy, limit, cursor⟩)

def parseAssignment : Parser (Text × Literal) := fun input => do
  let (input, key) ← ws (identifier std) input
  let (input, _) ← ws (char '=') input
  let (input, val) ← ws (parseLiteral std) input
  return (input, (key, val))

def parseSetStep : Parser SetStmt := fun input => do
  let (input, _) ← ws (kw "SET") input
  let (input, assignments) ← separatedList1 (ws (char ',')) (parseAssignment std) input
  return (input, ⟨none, assignments, none⟩)

def parseSetFull : Parser SetStmt := fun input => do
  let (input, _) ← ws (kw "SET") input
  let (input, target) ← ws (parseFindTarget std) input
  let (input, assignments) ← separatedList1 (ws (char ',')) (parseAssignment std) input
  let (input, filterExpr) ← opt (parseWhereExpr std) input
  return (input, ⟨some target, assignments, filterExpr⟩)

def parseDeleteStep : Parser DeleteStmt := fun input => do
  let (input, _) ← ws (kw "DELETE") input
  return (input, ⟨none, none⟩)

def parseDeleteFull : Parser DeleteStmt := fun input => do
  let (input, _) ← ws (kw "DELETE") input
  let (input, target) ← ws (parseFindTarget std) input
  let (input, filterExpr) ← opt (parseWhereExpr std) input
  return (input, ⟨some target, filterExpr⟩)

/-- A keyword and a quoted name: the shape of several statements. -/
def keywordName (keyword : String) : Parser Text := fun input => do
  let (input, _) ← ws (kw keyword) input
  ws quotedString input

def parsePurge : Parser PurgeStmt := map (keywordName "PURGE") PurgeStmt.mk

def parseFetchAs : Parser (List Text) := fun input => do
  let (input, _) ← ws (kw "AS") input
  bracedList std input

def parseFetch : Parser FetchStmt := fun input => do
  let (input, _) ← ws (kw "FETCH") input
  let (input, lobes) ← separatedList1 (ws (char ',')) (ws quotedString) input
  let (input, filterExpr) ← opt (parseWhereExpr std) input
  let (input, names) ← opt (parseFetchAs std) input
  return (input, ⟨lobes, filterExpr, names⟩)

def parseLink : Parser LinkStmt := fun input => do
  let (input, _) ← ws (kw "LINK") input
  let (input, source) ← ws (parseFindTarget std) input
  let (input, sourceFilterExpr) ← opt (parseWhereExpr std) input
  let (input, _) ← ws (kw "TO") input
  let (input, target) ← ws (parseFindTarget std) input
  let (input, targetFilterExpr) ← opt (parseWhereExpr std) input
  let (input, _) ← ws (kw "AS") input
  let (input, relName) ← ws quotedString input
  return (input, ⟨source, target, relName, sourceFilterExpr, targetFilterExpr⟩)

end XyzDB.Talk
