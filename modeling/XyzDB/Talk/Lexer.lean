import XyzDB.Lib.Nom
import XyzDB.Talk.Ast

/-!
# Texts and literals of xyTalk

The passes that look at a raw text before any statement parser does (comments, pipes, trimming,
the upper-cased copy), and the parsers of strings, names and literals.

What the standard library of the source decides about characters and numbers comes in as a
`CharTable`. Offsets into a text are counted in characters. The source counts bytes, which
makes no difference at the places it cuts a text (always next to an ASCII character), except
for keywords spelled with a Kelvin sign: cutting inside of one panics there.
-/

namespace XyzDB.Talk

open Nom

/-- `char::is_alphanumeric`, `char::is_whitespace`, `char::to_uppercase` and `str::parse::<f64>`,
with what is known of them on ASCII. -/
structure CharTable where
  isAlphanumeric : Char → Bool
  isWhitespace : Char → Bool
  toUppercase : Char → Text
  parseF64 : Text → Option UInt64
  isWhitespace_ascii : ∀ c, c.toNat < 128 → isWhitespace c = (c == ' ' || ('\t' ≤ c && c ≤ '\r'))
  toUppercase_ascii : ∀ c, c.toNat < 128 → toUppercase c = [c.toUpper]

/-- A table that knows the ASCII characters only. -/
def CharTable.ascii : CharTable where
  isAlphanumeric c := c.isAlphanum
  isWhitespace c := c == ' ' || ('\t' ≤ c && c ≤ '\r')
  toUppercase c := [c.toUpper]
  parseF64 _ := none
  isWhitespace_ascii _ _ := rfl
  toUppercase_ascii _ _ := rfl

variable (std : CharTable)

section

variable (input : Text)

def trimStart : Text := input.dropWhile std.isWhitespace

def trimEnd : Text := input.rdropWhile std.isWhitespace

def trim : Text := trimEnd std (trimStart std input)

def toUppercase : Text := input.flatMap std.toUppercase

/-- `str::lines`. `cur` is the line so far, in reverse; only a line that ends in a newline loses
a carriage return before it. -/
def lines (cur : Text) : Text → List Text
  | [] => if cur = [] then [] else [cur.reverse]
  | c :: rest =>
    if c = '\n' then
      (if cur.head? = some '\r' then cur.tail else cur).reverse :: lines [] rest
    else lines (c :: cur) rest

/-- The loop of `strip_comments` over one line. -/
def cutComment (inString : Bool) : Text → Text
  | [] => []
  | c :: rest =>
    if c = '"' then c :: cutComment (!inString) rest
    else if !inString && c = '-' && rest.head? = some '-' then []
    else c :: cutComment inString rest

def stripComments : Text :=
  [' '].intercalate ((lines [] input).map (cutComment false))

/-- The loop of `split_pipeline`. `cur` is the part since the last cut, in reverse. -/
def splitPipelineLoop (cur : Text) (depth : ℤ) (inString : Bool) : Text → List Text
  | [] => [trim std cur.reverse]
  | c :: rest =>
    if c = '"' then splitPipelineLoop (c :: cur) depth (!inString) rest
    else if !inString && c = '{' then splitPipelineLoop (c :: cur) (depth + 1) inString rest
    else if !inString && c = '}' then splitPipelineLoop (c :: cur) (depth - 1) inString rest
    else if !inString && c = '|' && depth = 0 then
      trim std cur.reverse :: splitPipelineLoop [] depth inString rest
    else splitPipelineLoop (c :: cur) depth inString rest

def splitPipeline : List Text := splitPipelineLoop std [] 0 false input

end

/-- `str::split(';')`. -/
def splitSemicolon : Text → List Text
  | [] => [[]]
  | c :: rest =>
    if c = ';' then [] :: splitSemicolon rest
    else
      match splitSemicolon rest with
      | [] => [[c]]
      | part :: parts => (c :: part) :: parts

/-- `kw`: a keyword in any case, with no word boundary after it. -/
def kw (keyword : String) : Parser Text := tagNoCase keyword.toList

/-- The loop of `quoted_string`, behind the opening quote at `start`. A backslash before anything
but a quote or a backslash stays in the value. -/
def quotedLoop (start : Text) : Text → Text → Except Err (Text × Text)
  | _, [] => .error (.error start)
  | acc, '\\' :: '"' :: rest => quotedLoop start ('"' :: acc) rest
  | acc, '\\' :: '\\' :: rest => quotedLoop start ('\\' :: acc) rest
  | acc, '\\' :: c :: rest => quotedLoop start (c :: '\\' :: acc) rest
  | _, ['\\'] => .error (.error start)
  | acc, '"' :: rest => .ok (rest, acc.reverse)
  | acc, c :: rest => quotedLoop start (c :: acc) rest

def quotedString : Parser Text := fun input => do
  let (input, _) ← char '"' input
  quotedLoop input [] input

def isIdentChar (c : Char) : Bool := std.isAlphanumeric c || c == '_' || c == '.'

def identifier : Parser Text := takeWhile1 (isIdentChar std)

/-- A lobe name, quoted or bare. -/
def lobeName : Parser Text := ws (alt quotedString (identifier std))

/-- The value of a string of digits. -/
def digitsValue (digits : Text) : ℕ :=
  digits.foldl (fun n c => 10 * n + (c.toNat - '0'.toNat)) 0

/-- `digits.parse()` for an unsigned type of `bits` bits. -/
def parseUnsigned (bits : ℕ) (digits : Text) : Option ℕ :=
  if digitsValue digits < 2 ^ bits then some (digitsValue digits) else none

/-- `num_str.parse::<i64>()`, for digits with an optional sign. -/
def parseI64 (numStr : Text) : Option ℤ :=
  let n : ℤ :=
    match numStr with
    | '-' :: digits => -(digitsValue digits : ℤ)
    | digits => digitsValue digits
  if -2 ^ 63 ≤ n ∧ n < 2 ^ 63 then some n else none

/-- One digit or more. -/
def Digits (d : Text) : Prop := d ≠ [] ∧ ∀ c ∈ d, isAsciiDigit c = true

/-- An optional sign. -/
def Sign (s : Text) : Prop := s = [] ∨ s = ['-']

/-- A numeral of an `i64` is read as its value. -/
lemma parseI64_append {sign d : Text} {i : ℤ} (hsign : Sign sign) (hd : Digits d)
    (hi : i = if sign = [] then (digitsValue d : ℤ) else -digitsValue d) (hlow : -2 ^ 63 ≤ i)
    (hhigh : i < 2 ^ 63) : parseI64 (sign ++ d) = some i := by
  unfold parseI64
  rcases hsign with rfl | rfl
  · obtain ⟨c, d, rfl⟩ := List.exists_cons_of_ne_nil hd.1
    have hc : c ≠ '-' := by rintro rfl; cases hd.2 '-' List.mem_cons_self
    subst hi
    split
    · next h => cases h; exact absurd rfl hc
    · exact if_pos ⟨hlow, hhigh⟩
  · rw [if_neg (List.cons_ne_nil _ _)] at hi
    subst hi
    exact if_pos ⟨hlow, hhigh⟩

/-- The text that `parse_number_literal` takes. -/
def numberText : Parser Text :=
  recognize (pair (opt (char '-')) (pair (takeWhile1 isAsciiDigit)
    (pair (opt (pair (char '.') (takeWhile1 isAsciiDigit))) (opt (pair (oneOf ['e', 'E'])
        (pair (opt (oneOf ['+', '-'])) (takeWhile1 isAsciiDigit)))))))

def parseNumberLiteral : Parser Literal := fun input => do
  let (input, numStr) ← numberText input
  if '.' ∈ numStr || 'e' ∈ numStr || 'E' ∈ numStr then
    match std.parseF64 numStr with
    | none => .error (.error input)
    | some f => .ok (input, .float f)
  else
    match parseI64 numStr with
    | none => .error (.error input)
    | some i => .ok (input, .int i)

/-- A bare unsigned integer of 64 bits: `parse_u64`. -/
def parseU64 : Parser ℕ := fun input => do
  let (input, digits) ← takeWhile1 isAsciiDigit input
  match parseUnsigned 64 digits with
  | none => .error (.error input)
  | some n => .ok (input, n)

def parseTimestampLiteral : Parser Literal := fun input => do
  let (input, _) ← char '@' input
  let (input, s) ← quotedString input
  return (input, .timestamp s)

def parseLidLiteral : Parser Literal := fun input => do
  let (input, _) ← kw "LID" input
  let (input, _) ← multispace0 input
  let (input, _) ← char '(' input
  let (input, s) ← quotedString input
  let (input, _) ← char ')' input
  return (input, .lid s)

def parseNullLiteral : Parser Literal := fun input => do
  let (input, _) ← kw "null" input
  let (input, _) ← notPeek (takeWhile1 fun c => std.isAlphanumeric c || c == '_') input
  return (input, .null)

def parseBoolLiteral : Parser Literal :=
  alt (value (.bool true) (kw "true")) (value (.bool false) (kw "false"))

def parseStringLiteral : Parser Literal := map quotedString .text

def parseParamLiteral : Parser Literal := fun input => do
  let (input, _) ← char '$' input
  let (input, name) ← alt (identifier std) (takeWhile1 isAsciiDigit) input
  return (input, .param name)

/-- The loop of `parse_list_literal` and of `parse_in_filter`: items up to `close`. Anything but
a comma or `close` is a failure. -/
def itemsLoop (close : Char) (item : Parser Literal) :
    ℕ → Text → List Literal → Except Err (Text × List Literal)
  | 0, remaining, _ => .error (.failure remaining)
  | fuel + 1, remaining, items =>
    match trimStart std remaining with
    | [] => .error (.failure [])
    | c :: rest =>
      if c = close then .ok (rest, items.reverse)
      else if c = ',' then
        match item rest with
        | .error e => .error e
        | .ok (rest, literal) => itemsLoop close item fuel rest (literal :: items)
      else .error (.failure (c :: rest))

section

variable (item : Parser Literal)

def parseListLiteral : Parser Literal := fun input => do
  let (input, _) ← char '[' input
  let (input, _) ← multispace0 input
  match char ']' input with
  | .ok (input, _) => return (input, .list [])
  | .error _ =>
    let (input, first) ← item (trim std input)
    let (input, items) ← itemsLoop std ']' (item ∘ trim std) (input.length + 1) input [first]
    return (input, .list items)

/-- One `key: value` of a map. -/
def parseMapPair : Parser (Text × Literal) := fun input => do
  let (input, key) ← identifier std input
  let (input, _) ← ws (char ':') input
  let (input, val) ← item (trim std input)
  return (input, (key, val))

/-- The loop of `parse_map_literal`. -/
def pairsLoop (item : Parser Literal) :
    ℕ → Text → List (Text × Literal) → Except Err (Text × List (Text × Literal))
  | 0, remaining, _ => .error (.failure remaining)
  | fuel + 1, remaining, pairs =>
    match trimStart std remaining with
    | [] => .error (.failure [])
    | c :: rest =>
      if c = '}' then .ok (rest, pairs.reverse)
      else if c = ',' then
        match parseMapPair std item (trimStart std rest) with
        | .error e => .error e
        | .ok (rest, p) => pairsLoop item fuel rest (p :: pairs)
      else .error (.failure (c :: rest))

def parseMapLiteral : Parser Literal := fun input => do
  let (input, _) ← char '{' input
  let (input, _) ← multispace0 input
  match char '}' input with
  | .ok (input, _) => return (input, .map [])
  | .error _ =>
    let (input, first) ← parseMapPair std item (trim std input)
    let (input, pairs) ← pairsLoop std item (input.length + 1) input [first]
    return (input, .map pairs)

end

/-- `parse_literal_depth`, with the number of levels that are left. -/
def parseLiteralDepth : ℕ → Parser Literal
  | 0 => fun input => .error (.failure input)
  | levels + 1 => fun input =>
    if input.head?.any fun c => isAsciiDigit c || c == '-' then parseNumberLiteral std input
    else if input.head? = some '$' then parseParamLiteral std input
    else
      alt (parseListLiteral std (parseLiteralDepth levels))
        (alt (parseMapLiteral std (parseLiteralDepth levels))
          (alt parseTimestampLiteral (alt parseLidLiteral (alt (parseNullLiteral std)
            (alt parseBoolLiteral (alt parseStringLiteral (parseNumberLiteral std))))))) input

/-- Lists and maps nest to this depth. -/
def maxLiteralDepth : ℕ := 16

def parseLiteral : Parser Literal := parseLiteralDepth std (maxLiteralDepth + 1)

end XyzDB.Talk
