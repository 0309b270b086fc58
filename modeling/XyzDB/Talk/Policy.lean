import XyzDB.Talk.Append
import XyzDB.Talk.Binding

/-!
# The query policy of the MCP server

The server may be told to let reads through only, or everything but deletions. It parses the
statement text of a query and looks at the class of the result; what the engine then gets is the
text with a cursor clause behind it, which the engine cuts at semicolons before it parses. The
tools that describe a lobe put the lobe's name into a text without a look at it.

A semicolon in the statement, in the cursor or in a lobe's name, and a pipe in the cursor, let
statements and steps through that the policy forbids (`policy_bypassed`). The policy is enforced
exactly if the pieces of the engine's text, cut at semicolons and pipes, start with words that it
allows (`policy_enforced`).
-/

namespace XyzDB.Talk

open List Nom

variable {stmt : Statement} {input : Text} {bound : Text → Option Value}

/-- What a statement does to the data, in increasing order. -/
inductive StatementClass where
  | read | write | destructive
  deriving DecidableEq

def StatementClass.rank : StatementClass → ℕ
  | .read => 0
  | .write => 1
  | .destructive => 2

instance : LinearOrder StatementClass :=
  LinearOrder.lift' StatementClass.rank (by intro a b; cases a <;> cases b <;> decide)

inductive QueryPolicy where
  | full | noDestructive | readOnly
  deriving DecidableEq

def QueryPolicy.asStr : QueryPolicy → String
  | .full => "full"
  | .noDestructive => "no-destructive"
  | .readOnly => "read-only"

def QueryPolicy.allows : QueryPolicy → StatementClass → Bool
  | .full, _ => true
  | .noDestructive, cls => cls != .destructive
  | .readOnly, cls => cls == .read

/-- The class of one step in `classify_pipeline`. -/
def stepClass : PipelineStep → StatementClass
  | .delete _ => .destructive
  | .set _ => .write
  | .find _ | .pull _ | .scan _ | .scanGhost _ | .aggregate _ | .groupBy _ | .nearest _
  | .follow _ | .top _ | .shape _ => .read

def classifyPipeline (steps : List PipelineStep) : StatementClass :=
  steps.foldl (fun cls step => max cls (stepClass step)) .read

def classify : Statement → StatementClass
  | .find _ | .pull _ | .scan _ | .show _ | .scanGhost _ | .fetch _ | .scrub => .read
  | .delete _ | .purge _ | .dropGhost _ => .destructive
  | .put _ | .putBatch _ | .set _ | .link _ | .anchor _ | .gravity _ | .vector _ | .satellite _
  | .lobe _ | .autoAnchorApply _ | .createGhost _ | .refreshGhost _ | .analyze _ | .compact
  | .bulkMode _ | .migrate _ | .inCache _ | .outCache _ | .pin _ | .unpin _ => .write
  | .pipeline steps => classifyPipeline steps

section

variable (std : CharTable) (floats : FloatTable)

/-- The statements that `Engine::run_with_params` executes for a text. -/
def runWithParams (bound : Text → Option Value) (input : Text) :
    Except XyzError (List Statement) := do
  let bind (stmt : Statement) : Except XyzError Statement :=
    if '$' ∈ input then bindParams floats bound stmt else .ok stmt
  if ';' ∉ input then
    let stmt ← bind (← parse std input)
    return [stmt]
  else
    let stmts ← parseMulti std input
    stmts.mapM bind

def augmentWithCursor (stmt : Text) : Option Text → Text
  | none => stmt
  | some token =>
    if (toUppercase std stmt).tails.any ("CURSOR".toList.isPrefixOf ·) then stmt
    else stmt ++ " CURSOR \"".toList ++ token ++ "\"".toList

/-- The debug print of a class. -/
def StatementClass.debug : StatementClass → String
  | .read => "Read"
  | .write => "Write"
  | .destructive => "Destructive"

variable (policy : QueryPolicy)

/-- The guard at the head of the query tool; an error is the message of the refusal. -/
def queryGuard (statement : Text) : Except Text Unit :=
  if policy = .full then .ok ()
  else
    match parse std statement with
    | .ok stmt =>
      if policy.allows (classify stmt) then .ok ()
      else .error ("query-policy '".toList ++ policy.asStr.toList ++ "' forbids a ".toList ++
        (classify stmt).debug.toList ++
        (" statement (this MCP server is configured to protect the data; rerun the operator " ++
          "with a less restrictive --query-policy if this write is intended)").toList)
    | .error _ => .error ("query rejected: statement could not be parsed for policy " ++
        "classification under a restricted --query-policy").toList

/-- A call of the server: a query, or a lobe's description (the tool or the resource). -/
inductive Call where
  | query (statement : Text) (cursor : Option Text) (params : Text → Option Value)
  | describeLobe (lobe : Text)

/-- The texts, with their parameters, that the engine gets for a call. `lobes` are the names that
exist. -/
def engineTexts (lobes : List Text) : Call → List (Text × (Text → Option Value))
  | .query statement cursor params =>
    match queryGuard std policy statement with
    | .error _ => []
    | .ok _ => [(augmentWithCursor std statement cursor, params)]
  | .describeLobe name =>
    let lobe := trim std name
    let unbound : Text → Option Value := fun _ => none
    if lobe = [] then []
    else if lobe ∈ lobes then
      [("SHOW LOBES".toList, unbound),
        ("SHOW ANCHORS IN \"".toList ++ lobe ++ "\"".toList, unbound),
        ("SHOW GHOSTS".toList, unbound),
        ("SHOW PROFILE \"".toList ++ lobe ++ "\"".toList, unbound)]
    else [("SHOW LOBES".toList, unbound)]

/-- `stmt` is among the statements that the engine executes for a call. -/
def Executes (lobes : List Text) (call : Call) (stmt : Statement) : Prop :=
  ∃ input bound stmts, (input, bound) ∈ engineTexts std policy lobes call ∧
    runWithParams std floats bound input = .ok stmts ∧ stmt ∈ stmts

end

/-- What the first word of a statement decides: whether a pipeline may start with it, which only
reads may, and its class. -/
inductive Kind where
  | source
  | other (cls : StatementClass)
  deriving DecidableEq

def Kind.cls : Kind → StatementClass
  | .source => .read
  | .other cls => cls

def Statement.kind : Statement → Kind
  | .find _ | .scan _ | .scanGhost _ => .source
  | .pull _ | .show _ | .fetch _ | .scrub => .other .read
  | .delete _ | .purge _ | .dropGhost _ => .other .destructive
  | .put _ | .putBatch _ | .set _ | .link _ | .anchor _ | .gravity _ | .vector _ | .satellite _
  | .lobe _ | .autoAnchorApply _ | .createGhost _ | .refreshGhost _ | .analyze _ | .compact
  | .bulkMode _ | .migrate _ | .inCache _ | .outCache _ | .pin _ | .unpin _ => .other .write
  | .pipeline steps => .other (classifyPipeline steps)

lemma classify_eq_kind (stmt : Statement) : classify stmt = stmt.kind.cls := by cases stmt <;> rfl

variable {step : PipelineStep}

lemma kind_of_firstStep (h : firstStep stmt = .ok step) : stmt.kind = .source := by
  cases stmt <;> first | rfl | cases h

/-- The words that statements start with, with the kind of the statement. -/
def verbs : List (String × Kind) :=
  [("PUT BATCH", .other .write), ("PUT  BATCH", .other .write), ("PUT", .other .write),
    ("FIND", .source), ("PULL", .other .read), ("SCAN GHOST", .source), ("SCAN", .source),
    ("CREATE GHOST", .other .write), ("REFRESH GHOST", .other .write),
    ("DROP GHOST", .other .destructive), ("SET", .other .write), ("DELETE", .other .destructive),
    ("PURGE", .other .destructive), ("FETCH", .other .read), ("LINK", .other .write),
    ("ANALYZE", .other .write), ("BULKMODE", .other .write), ("COMPACT", .other .write),
    ("SCRUB", .other .read), ("MIGRATE", .other .write), ("PIN", .other .write),
    ("UNPIN", .other .write), ("AUTOANCHOR", .other .write), ("ANCHOR", .other .write),
    ("GRAVITY", .other .write), ("VECTOR", .other .write), ("SATELLITE", .other .write),
    ("LOBE", .other .write), ("INCACHE", .other .write), ("OUTCACHE", .other .write),
    ("SHOW", .other .read)]

/-- The words that steps start with, with the class of the step. -/
def stepVerbs : List (String × StatementClass) :=
  [("PULL", .read), ("SET", .write), ("DELETE", .destructive), ("AGGREGATE", .read),
    ("GROUP", .read), ("NEAREST", .read), ("FOLLOW", .read), ("TAKE", .read), ("TOP", .read),
    ("SHAPE", .read)]

lemma startsWith_iff {keyword : String} :
    startsWith upper keyword = true ↔ keyword.toList <+: upper :=
  isPrefixOf_iff_prefix

variable {a : Text}

section

variable {κ : Type} {table : List (String × κ)} {upper : Text} {kind kind' : κ}

/-- The text starts with a word of the table that has this kind. -/
def HasVerb (table : List (String × κ)) (upper : Text) (kind : κ) : Prop :=
  ∃ verb ∈ table, startsWith upper verb.1 = true ∧ verb.2 = kind

/-- Words of the table that start alike are of one kind. -/
def Unambiguous (table : List (String × κ)) : Prop :=
  ∀ v ∈ table, ∀ w ∈ table, v.1.toList <+: w.1.toList → v.2 = w.2

lemma HasVerb.append (h : HasVerb table upper kind) (x : Text) :
    HasVerb table (upper ++ x) kind := by
  obtain ⟨verb, hmem, hstart, hkind⟩ := h
  refine ⟨verb, hmem, startsWith_iff.mpr ?_, hkind⟩
  exact (startsWith_iff.mp hstart).trans (prefix_append _ _)

lemma HasVerb.unique (htable : Unambiguous table) (h : HasVerb table upper kind)
    (h' : HasVerb table upper kind') : kind = kind' := by
  obtain ⟨v, hv, hvstart, rfl⟩ := h
  obtain ⟨w, hw, hwstart, rfl⟩ := h'
  rw [startsWith_iff] at hvstart hwstart
  -- of two fronts of one text, one is a front of the other
  rcases prefix_or_prefix_of_prefix hvstart hwstart with hvw | hwv
  · exact htable v hv w hw hvw
  · exact (htable w hw v hv hwv).symm

lemma HasVerb.of_startsWith (keyword : String) (hmem : (keyword, kind) ∈ table)
    (h : startsWith upper keyword = true) : HasVerb table upper kind :=
  ⟨(keyword, kind), hmem, h, rfl⟩

lemma HasVerb.of_or {keyword keyword' : String} (hmem : (keyword, kind) ∈ table)
    (hmem' : (keyword', kind) ∈ table)
    (h : (startsWith upper keyword || startsWith upper keyword') = true) :
    HasVerb table upper kind := by
  rcases (Bool.or_eq_true _ _).mp h with h | h
  · exact .of_startsWith keyword hmem h
  · exact .of_startsWith keyword' hmem' h

lemma not_hasVerb_nil (htable : ∀ v ∈ table, v.1.toList ≠ []) : ¬ HasVerb table [] kind := by
  rintro ⟨verb, hmem, hstart, -⟩
  exact htable verb hmem (prefix_nil.mp (startsWith_iff.mp hstart))

/-- The verb of a text that is not blank is the verb of the text with something behind it. -/
lemma hasVerb_trim_append (htable : ∀ v ∈ table, v.1.toList ≠ []) (x : Text)
    (h : HasVerb table (toUppercase std (trim std a)) kind) :
    HasVerb table (toUppercase std (trim std (a ++ x))) kind := by
  have hne : trim std a ≠ [] := by
    intro hnil
    rw [hnil] at h
    exact not_hasVerb_nil htable h
  obtain ⟨y, hy, -⟩ := exists_trim_append x hne
  rw [hy, toUppercase_append]
  exact h.append _

/-- One test of a dispatch: its branch has a kind, and the words it tests for have the same. -/
lemma hasVerb_branch {α : Type} {kindOf : α → κ} {b : Bool} {x y : Except XyzError α} {a : α}
    (h : (if b = true then x else y) = .ok a) (hb : b = true → HasVerb table upper kind)
    (hx : x = .ok a → kindOf a = kind) (hy : y = .ok a → HasVerb table upper (kindOf a)) :
    HasVerb table upper (kindOf a) := by
  split at h
  · next hk => exact hx h ▸ hb hk
  · exact hy h

lemma kind_of_map {α β : Type} {kindOf : β → κ} {f : α → β} {x : Except XyzError α} {b : β}
    (hf : ∀ a, kindOf (f a) = kind) (h : f <$> x = .ok b) : kindOf b = kind := by
  obtain ⟨a, -, rfl⟩ := map_eq_ok.mp h
  exact hf a

lemma kind_of_ok {α : Type} {kindOf : α → κ} {a b : α} (ha : kindOf a = kind)
    (h : (.ok a : Except XyzError α) = .ok b) : kindOf b = kind := by
  cases h
  exact ha

end

lemma unambiguous_verbs : Unambiguous verbs := by
  unfold Unambiguous
  decide +kernel

lemma unambiguous_stepVerbs : Unambiguous stepVerbs := by
  unfold Unambiguous
  decide +kernel

section

variable {std : CharTable}

lemma kind_parseBulkMode {rest : Text} (h : parseBulkMode std rest = .ok stmt) :
    stmt.kind = .other .write := by
  rw [parseBulkMode] at h
  split at h
  · cases h; rfl
  · split at h
    · cases h; rfl
    · cases h

lemma kind_parseMigrate (trimmed : Text) : (parseMigrate std trimmed).kind = .other .write := by
  rw [parseMigrate]
  split <;> rfl

/-- **The kind of a statement is the kind of its first word.** One line for each test of the
dispatch. -/
theorem hasVerb_of_parseSingleStatement (h : parseSingleStatement std input = .ok stmt) :
    HasVerb verbs (toUppercase std (trim std input)) stmt.kind := by
  refine hasVerb_branch h (.of_or (by decide) (by decide)) (kind_of_map fun _ => rfl) fun h => ?_
  -- PUT to ANALYZE
  iterate 14
    refine hasVerb_branch h (.of_startsWith _ (by decide)) (kind_of_map fun _ => rfl) fun h => ?_
  -- BULKMODE, COMPACT, SCRUB, MIGRATE
  refine hasVerb_branch h (.of_startsWith _ (by decide)) kind_parseBulkMode fun h => ?_
  refine hasVerb_branch h (.of_startsWith _ (by decide)) (kind_of_ok rfl) fun h => ?_
  refine hasVerb_branch h (.of_startsWith _ (by decide)) (kind_of_ok rfl) fun h => ?_
  refine hasVerb_branch h (.of_startsWith _ (by decide)) (kind_of_ok (kind_parseMigrate _))
    fun h => ?_
  -- PIN, which is not the beginning of PIPELINE
  refine hasVerb_branch h
    (fun hk => .of_startsWith "PIN" (by decide) ((Bool.and_eq_true _ _).mp hk).1)
    (kind_of_map fun _ => rfl) fun h => ?_
  -- UNPIN to SHOW
  iterate 10
    refine hasVerb_branch h (.of_startsWith _ (by decide)) (kind_of_map fun _ => rfl) fun h => ?_
  cases h

lemma hasVerb_of_parsePipelineStep (h : parsePipelineStep std input = .ok step) :
    HasVerb stepVerbs (toUppercase std (trim std input)) (stepClass step) := by
  -- PULL to FOLLOW
  iterate 7
    refine hasVerb_branch h (.of_startsWith _ (by decide)) (kind_of_map fun _ => rfl) fun h => ?_
  refine hasVerb_branch h (.of_or (by decide) (by decide)) (kind_of_map fun _ => rfl) fun h => ?_
  refine hasVerb_branch h (.of_startsWith _ (by decide)) (kind_of_map fun _ => rfl) fun h => ?_
  cases h

end

/-! ### What stands behind a statement does not change its class -/

variable {x : Text} {stmt' : Statement}

section

variable {std : CharTable} {floats : FloatTable}

lemma parseSingleStatement_trim (a : Text) :
    parseSingleStatement std (trim std a) = parseSingleStatement std a := by
  rw [parseSingleStatement, trim_trim, ← parseSingleStatement]

lemma classifyPipeline_eq (steps : List PipelineStep) (step : PipelineStep) :
    classifyPipeline (steps ++ [step]) = max (classifyPipeline steps) (stepClass step) := by
  rw [classifyPipeline, foldl_append]
  rfl

lemma stepClass_le_classifyPipeline {steps : List PipelineStep}
    (h : step ∈ steps) : stepClass step ≤ classifyPipeline steps := by
  induction steps using List.reverseRecOn with
  | nil => cases h
  | append_singleton steps last ih =>
    rw [classifyPipeline_eq]
    rcases mem_append.mp h with h | h
    · exact (ih h).trans (le_max_left ..)
    · rw [mem_singleton.mp h]
      exact le_max_right ..

lemma trim_ne_nil_of_parse (h : parse std input = .ok stmt) : trim std (stripComments input) ≠ [] ∧
      parseSegment std (trim std (stripComments input)) = .ok stmt := by
  rw [parse] at h
  split at h
  · cases h
  · next hne => exact ⟨hne, h⟩

/-- The trimmed text of a text with something behind it, when the text itself is not blank. -/
lemma exists_trim_stripComments_append {s : Text} (t : Text)
    (hs : trim std (stripComments s) ≠ []) :
    ∃ y, trim std (stripComments (s ++ ' ' :: t)) = trim std (stripComments s) ++ y ∧
      ('|' ∉ t → '|' ∉ y) := by
  obtain ⟨x, hx, hxsub⟩ := exists_stripComments_append s t
  obtain ⟨y, hy, hysub⟩ := exists_trim_append x hs
  refine ⟨y, by rw [hx, hy], fun ht hmem => ?_⟩
  rcases hysub '|' hmem with hwhite | hmem
  · rw [std.isWhitespace_ascii '|' (by decide)] at hwhite
    exact absurd hwhite (by decide)
  · rcases mem_cons.mp (hxsub hmem) with h | h
    · exact absurd h (by decide)
    · exact ht h

lemma trim_show : trim std "SHOW".toList = "SHOW".toList := by
  apply trim_eq_self
  intro c hc
  have hascii : c.toNat < 128 ∧ (c == ' ' || ('\t' ≤ c && c ≤ '\r')) = false := by
    revert c
    decide
  rw [std.isWhitespace_ascii c hascii.1, hascii.2]

lemma toUppercase_show : toUppercase std "SHOW".toList = "SHOW".toList := by
  simp [toUppercase, std.toUppercase_ascii]

/-- A text that starts with SHOW is a read, whatever stands behind that: a pipeline does not
start with it. -/
lemma classify_parse_show (t : Text) (h : parse std ("SHOW".toList ++ ' ' :: t) = .ok stmt) :
    classify stmt = .read := by
  obtain ⟨-, h⟩ := trim_ne_nil_of_parse h
  have hstrip : trim std (stripComments "SHOW".toList) = "SHOW".toList := trim_show
  obtain ⟨y, hy, -⟩ := @exists_trim_stripComments_append std "SHOW".toList t
    (by rw [hstrip]; decide)
  rw [hy, hstrip, parseSegment, toUppercase_append, toUppercase_show] at h
  have hghost : startsWith ("SHOW".toList ++ toUppercase std y) "CREATE GHOST" = false := rfl
  rw [if_neg nofun] at h
  -- the first part starts with SHOW as well
  obtain ⟨front, parts, hparts⟩ := @exists_head_splitPipelineLoop std y "WOHS".toList 0 false
  have hsplit : splitPipeline std ("SHOW".toList ++ y) =
      trim std ("SHOW".toList ++ front) :: parts := hparts
  have hkind : ∀ s, parseSingleStatement std (trim std ("SHOW".toList ++ front)) = .ok s →
      s.kind = .other .read := by
    intro s hs
    rw [parseSingleStatement_trim] at hs
    refine (hasVerb_of_parseSingleStatement hs).unique unambiguous_verbs ?_
    refine hasVerb_trim_append (by decide) front (.of_startsWith "SHOW" (by decide) ?_)
    rw [trim_show, toUppercase_show]
    decide
  rw [hsplit] at h
  cases parts with
  | nil => rw [classify_eq_kind, hkind stmt h]; rfl
  | cons part parts =>
    simp only [parsePipeline, bind_eq_ok] at h
    obtain ⟨s, hs, step, hstep, -⟩ := h
    cases (hkind s hs).symm.trans (kind_of_firstStep hstep)

lemma stepClass_bindStep {step' : PipelineStep} (h : bindStep floats bound step = .ok step') :
    stepClass step' = stepClass step := by
  match step with
  | .find _ | .scan _ | .scanGhost _ | .delete _ =>
    simp only [bindStep, bind_eq_ok, pure_eq_ok] at h
    obtain ⟨_, -, rfl⟩ := h
    rfl
  | .set _ | .nearest _ =>
    obtain ⟨_, -, rfl⟩ := map_eq_ok.mp h
    rfl
  | .aggregate _ | .pull _ | .groupBy _ | .shape _ | .follow _ | .top _ =>
    cases h
    rfl

lemma classifyPipeline_eq_foldl (steps : List PipelineStep) :
    classifyPipeline steps = (steps.map stepClass).foldl max .read :=
  foldl_map.symm

lemma classify_bindParams (h : bindParams floats bound stmt = .ok stmt') :
    classify stmt' = classify stmt := by
  cases stmt <;> simp only [bindParams, bind_eq_ok, pure_eq_ok] at h
  case put | putBatch | find | scan | delete | fetch | createGhost | scanGhost | inCache =>
    obtain ⟨_, -, rfl⟩ := h
    rfl
  case link =>
    obtain ⟨_, -, _, -, rfl⟩ := h
    rfl
  case set =>
    obtain ⟨_, -, rfl⟩ := map_eq_ok.mp h
    rfl
  case pipeline steps =>
    obtain ⟨steps', hsteps, rfl⟩ := map_eq_ok.mp h
    show classifyPipeline steps' = classifyPipeline steps
    rw [classifyPipeline_eq_foldl, classifyPipeline_eq_foldl,
      map_of_mapM (fun _ _ => stepClass_bindStep) hsteps]
  all_goals
    cases h
    rfl

end

/-! ### The policy -/

section

variable {std : CharTable} {floats : FloatTable} {policy : QueryPolicy} {lobes : List Text}

/-- Without a semicolon one statement runs, and it has the class of what `parse` returns. -/
lemma classify_of_runWithParams {stmts : List Statement} (hsemi : ';' ∉ input)
    (h : runWithParams std floats bound input = .ok stmts) (hstmt : stmt ∈ stmts) :
    ∃ parsed, parse std input = .ok parsed ∧ classify stmt = classify parsed := by
  simp only [runWithParams, if_pos hsemi, bind_eq_ok, pure_eq_ok] at h
  obtain ⟨parsed, hparsed, bounded, hbind, rfl⟩ := h
  rw [mem_singleton.mp hstmt]
  refine ⟨parsed, hparsed, ?_⟩
  split at hbind
  · exact classify_bindParams hbind
  · cases hbind
    rfl

lemma allows_read (policy : QueryPolicy) : policy.allows .read = true := by cases policy <;> rfl

lemma QueryPolicy.allows_of_le {cls cls' : StatementClass} (hle : cls ≤ cls')
    (h : policy.allows cls' = true) : policy.allows cls = true := by
  revert hle h
  cases policy <;> cases cls <;> cases cls' <;> decide

/-- What a policy asks of a statement: under a read-only policy it is a read, under a
no-destructive one it is not destructive, and the same goes for every step of a pipeline. -/
def QueryPolicy.Obeyed (policy : QueryPolicy) (stmt : Statement) : Prop :=
  (policy = .readOnly → classify stmt = .read ∧
    ∀ steps, stmt = .pipeline steps → ∀ step ∈ steps, stepClass step = .read) ∧
  (policy = .noDestructive → classify stmt ≠ .destructive ∧
    ∀ steps, stmt = .pipeline steps → ∀ step ∈ steps, stepClass step ≠ .destructive)

lemma QueryPolicy.obeyed_iff : policy.Obeyed stmt ↔ policy.allows (classify stmt) = true := by
  have hsteps : policy.allows (classify stmt) = true → ∀ steps, stmt = .pipeline steps →
      ∀ step ∈ steps, policy.allows (stepClass step) = true := by
    rintro hstmt steps rfl step hstep
    exact QueryPolicy.allows_of_le (stepClass_le_classifyPipeline hstep) hstmt
  cases policy with
  | full => exact iff_of_true ⟨nofun, nofun⟩ rfl
  | noDestructive =>
    refine ⟨fun h => bne_iff_ne.mpr (h.2 rfl).1, fun h => ⟨nofun, fun _ => ⟨bne_iff_ne.mp h, ?_⟩⟩⟩
    exact fun steps hs step hstep => bne_iff_ne.mp (hsteps h steps hs step hstep)
  | readOnly =>
    refine ⟨fun h => beq_iff_eq.mpr (h.1 rfl).1, fun h => ⟨fun _ => ⟨eq_of_beq h, ?_⟩, nofun⟩⟩
    exact fun steps hs step hstep => eq_of_beq (hsteps h steps hs step hstep)

end

/-! ### The words that a call brings -/

section

variable (std : CharTable) (floats : FloatTable) (policy : QueryPolicy)

/-- The pieces of a text that are statements of their own. -/
def pieces (input : Text) : List Text :=
  if ';' ∉ input then [trim std (stripComments input)]
  else ((splitSemicolon (stripComments input)).map (trim std)).filter (· ≠ [])

/-- A statement and its steps. A ghost's declaration is not cut at its pipes. -/
def pipeParts (piece : Text) : List Text :=
  if startsWith (toUppercase std piece) "CREATE GHOST" then [piece] else splitPipeline std piece

/-- The words that a statement and its steps start with are allowed. -/
def WordsAllowed (piece : Text) : Prop :=
  match pipeParts std piece with
  | [] => True
  | first :: others =>
    (∀ kind, HasVerb verbs (toUppercase std (trim std first)) kind →
      policy.allows kind.cls = true) ∧
    ∀ other ∈ others, ∀ cls, HasVerb stepVerbs (toUppercase std (trim std other)) cls →
      policy.allows cls = true

/-- A text that the engine runs has only words that are allowed. -/
def Harmless (bound : Text → Option Value) (input : Text) : Prop :=
  ∀ stmts, runWithParams std floats bound input = .ok stmts →
    ∀ piece ∈ pieces std input, WordsAllowed std policy piece

/-- The statement is refused, or it has only allowed words with the cursor behind it; and so have
the texts that a lobe's name is put into. -/
def Call.Safe (lobes : List Text) : Call → Prop
  | .query statement cursor params => queryGuard std policy statement = .ok () →
      Harmless std floats policy params (augmentWithCursor std statement cursor)
  | .describeLobe name => trim std name ≠ [] → trim std name ∈ lobes →
      Harmless std floats policy (fun _ => none)
          ("SHOW ANCHORS IN \"".toList ++ trim std name ++ "\"".toList) ∧
        Harmless std floats policy (fun _ => none)
          ("SHOW PROFILE \"".toList ++ trim std name ++ "\"".toList)

variable {std floats policy} {lobes : List Text}

lemma allows_classifyPipeline {steps : List PipelineStep} :
    policy.allows (classifyPipeline steps) = true ↔
      ∀ step ∈ steps, policy.allows (stepClass step) = true := by
  induction steps using List.reverseRecOn with
  | nil => exact iff_of_true (allows_read policy) (forall_mem_nil _)
  | append_singleton steps last ih =>
    rw [classifyPipeline_eq, forall_mem_append, ← ih, forall_mem_singleton]
    rcases le_total (classifyPipeline steps) (stepClass last) with hle | hle
    · rw [max_eq_right hle, and_iff_right_of_imp (QueryPolicy.allows_of_le hle)]
    · rw [max_eq_left hle, and_iff_left_of_imp (QueryPolicy.allows_of_le hle)]

/-- The first word of a statement decides whether it is allowed. -/
lemma allows_of_verb (h : parseSingleStatement std input = .ok stmt) :
    policy.allows (classify stmt) = true ↔
      ∀ kind, HasVerb verbs (toUppercase std (trim std input)) kind →
        policy.allows kind.cls = true := by
  have hverb := hasVerb_of_parseSingleStatement h
  rw [classify_eq_kind]
  exact ⟨fun hallows kind hkind => hkind.unique unambiguous_verbs hverb ▸ hallows,
    fun hall => hall _ hverb⟩

lemma allows_of_stepVerb (h : parsePipelineStep std input = .ok step) :
    policy.allows (stepClass step) = true ↔
      ∀ cls, HasVerb stepVerbs (toUppercase std (trim std input)) cls →
        policy.allows cls = true := by
  have hverb := hasVerb_of_parsePipelineStep h
  exact ⟨fun hallows cls hcls => hcls.unique unambiguous_stepVerbs hverb ▸ hallows,
    fun hall => hall _ hverb⟩

/-- A pipeline is allowed exactly if all its words are. -/
lemma allows_parsePipeline {first : Text} {others : List Text}
    (h : parsePipeline std first others = .ok stmt) :
    policy.allows (classify stmt) = true ↔
      (∀ kind, HasVerb verbs (toUppercase std (trim std first)) kind →
        policy.allows kind.cls = true) ∧
      ∀ other ∈ others, ∀ cls, HasVerb stepVerbs (toUppercase std (trim std other)) cls →
        policy.allows cls = true := by
  simp only [parsePipeline, bind_eq_ok, pure_eq_ok] at h
  obtain ⟨s, hs, step, hstep, steps, hsteps, rfl⟩ := h
  have hkind := kind_of_firstStep hstep
  -- a pipeline starts with a read, and so does its list of steps
  have hfirst : policy.allows (classify s) = true := by
    rw [classify_eq_kind, hkind]
    exact allows_read policy
  have hread : policy.allows (stepClass step) = true := by
    cases s <;> cases hstep <;> exact allows_read policy
  change policy.allows (classifyPipeline (step :: steps)) = true ↔ _
  rw [← allows_of_verb hs, allows_classifyPipeline, forall_mem_cons, and_iff_right hread,
    and_iff_right hfirst]
  exact forall_mem_of_mapM (fun _ _ => allows_of_stepVerb) hsteps

lemma allows_parseSegment {piece : Text} (h : parseSegment std piece = .ok stmt) :
    policy.allows (classify stmt) = true ↔ WordsAllowed std policy piece := by
  rw [parseSegment] at h
  rw [WordsAllowed, pipeParts]
  split at h
  · next hghost =>
    rw [if_pos hghost]
    simpa using allows_of_verb h
  · next hghost =>
    rw [if_neg hghost]
    split at h
    · cases h
    · next hsplit =>
      rw [hsplit]
      simpa using allows_of_verb h
    · next hsplit =>
      rw [hsplit]
      exact allows_parsePipeline h

/-- What runs is allowed exactly if the words of the text are. -/
lemma allows_runWithParams {stmts : List Statement}
    (h : runWithParams std floats bound input = .ok stmts) :
    (∀ stmt ∈ stmts, policy.allows (classify stmt) = true) ↔
      ∀ piece ∈ pieces std input, WordsAllowed std policy piece := by
  have hbind : ∀ stmt stmt' : Statement,
      (if '$' ∈ input then bindParams floats bound stmt else .ok stmt) = .ok stmt' →
        classify stmt' = classify stmt := by
    intro stmt stmt' hstmt
    split at hstmt
    · exact classify_bindParams hstmt
    · cases hstmt
      rfl
  by_cases hsemi : ';' ∉ input
  · simp only [runWithParams, if_pos hsemi, bind_eq_ok, pure_eq_ok] at h
    obtain ⟨parsed, hparsed, bounded, hbounded, rfl⟩ := h
    rw [pieces, if_pos hsemi, forall_mem_singleton, forall_mem_singleton, hbind _ _ hbounded]
    exact allows_parseSegment (trim_ne_nil_of_parse hparsed).2
  · simp only [runWithParams, if_neg hsemi, bind_eq_ok] at h
    obtain ⟨parsed, hparsed, hbounded⟩ := h
    simp only [parseMulti, bind_eq_ok] at hparsed
    obtain ⟨parsed', hsegments, hparsed⟩ := hparsed
    split at hparsed
    · cases hparsed
    · cases hparsed
      rw [pieces, if_neg hsemi, ← forall_mem_of_mapM (fun _ _ => allows_parseSegment) hsegments]
      exact forall_mem_of_mapM (fun _ _ h => by rw [hbind _ _ h]) hbounded

lemma forall_executes {call : Call} : (∀ stmt, Executes std floats policy lobes call stmt →
      policy.allows (classify stmt) = true) ↔
    ∀ x ∈ engineTexts std policy lobes call, Harmless std floats policy x.2 x.1 := by
  constructor
  · intro h x hx stmts hrun
    exact (allows_runWithParams hrun).mp fun stmt hstmt => h stmt ⟨x.1, x.2, stmts, hx, hrun, hstmt⟩
  · rintro h stmt ⟨input, bound, stmts, hx, hrun, hstmt⟩
    exact (allows_runWithParams hrun).mpr (h _ hx stmts hrun) stmt hstmt

/-- A text without a semicolon that starts with SHOW is harmless. -/
lemma harmless_show {bound : Text → Option Value} (t : Text)
    (hsemi : ';' ∉ "SHOW".toList ++ ' ' :: t) :
    Harmless std floats policy bound ("SHOW".toList ++ ' ' :: t) := by
  intro stmts hrun
  refine (allows_runWithParams hrun).mp fun stmt hstmt => ?_
  obtain ⟨parsed, hparsed, hcls⟩ := classify_of_runWithParams hsemi hrun hstmt
  rw [hcls, classify_parse_show t hparsed]
  exact allows_read policy

lemma forall_engineTexts (call : Call) : (∀ x ∈ engineTexts std policy lobes call,
      Harmless std floats policy x.2 x.1) ↔ call.Safe std floats policy lobes := by
  cases call with
  | query statement cursor params =>
    simp only [engineTexts, Call.Safe]
    cases queryGuard std policy statement with
    | error e => simp
    | ok u => simp
  | describeLobe name =>
    have hlobes : Harmless std floats policy (fun _ => none) "SHOW LOBES".toList :=
      harmless_show "LOBES".toList (by decide)
    have hghosts : Harmless std floats policy (fun _ => none) "SHOW GHOSTS".toList :=
      harmless_show "GHOSTS".toList (by decide)
    simp only [engineTexts, Call.Safe]
    split
    · next hnil => simp [hnil]
    · next hne =>
      split
      · next hmem => simp only [forall_mem_cons, not_mem_nil, hlobes, hghosts, hmem]; tauto
      · next hmem => simp only [forall_mem_singleton, hlobes, hmem]; tauto

/-- **The policy is enforced** exactly if the call is safe: the guard refuses it, or the engine does
not run its text, or all words that the text's statements and steps start with are allowed. -/
theorem policy_enforced (std : CharTable) (floats : FloatTable) (policy : QueryPolicy)
    (lobes : List Text) (call : Call) :
    (∀ stmt, Executes std floats policy lobes call stmt → policy.Obeyed stmt) ↔
      call.Safe std floats policy lobes := by
  simp only [QueryPolicy.obeyed_iff]
  exact forall_executes.trans (forall_engineTexts call)

end

/-- Some statement with a property is executed, by evaluation. -/
def executesAny (policy : QueryPolicy) (lobes : List Text) (call : Call)
    (p : Statement → Bool) : Bool :=
  (engineTexts .ascii policy lobes call).any fun (input, bound) =>
    (runWithParams .ascii .zero bound input).toOption.any fun stmts => stmts.any p

lemma exists_executes_of_any {call : Call} {p : Statement → Bool}
    (h : executesAny policy lobes call p = true) :
    ∃ stmt, Executes .ascii .zero policy lobes call stmt ∧ p stmt = true := by
  obtain ⟨⟨input, bound⟩, htext, hrun⟩ := any_eq_true.mp h
  obtain ⟨stmts, hstmts, hany⟩ := exists_ok_of_any hrun
  obtain ⟨stmt, hstmt, hp⟩ := any_eq_true.mp hany
  exact ⟨stmt, ⟨input, bound, stmts, htext, hstmts, hstmt⟩, hp⟩

/-- A second statement behind a semicolon: the guard sees the first one only. -/
def semicolonCall : Call := .query "SHOW LOBES; PURGE \"m\"".toList none fun _ => none

/-- A cursor that closes its quote and adds a step. -/
def cursorCall : Call :=
  .query "SCAN \"m\"".toList (some "x\" | DELETE".toList) fun _ => none

/-- The name of a lobe that closes its quote and adds a statement. -/
def injectingLobe : Text := "a\"; PURGE \"b".toList

/-- **The policy can be bypassed.** Under a read-only policy each of these calls makes the engine
execute a destructive statement. -/
theorem policy_bypassed : (∃ stmt, Executes .ascii .zero .readOnly [] semicolonCall stmt ∧
      classify stmt = .destructive) ∧
    (∃ stmt, Executes .ascii .zero .readOnly [] cursorCall stmt ∧ classify stmt = .destructive) ∧
    (∃ stmt, Executes .ascii .zero .readOnly [injectingLobe] (.describeLobe injectingLobe) stmt ∧
      classify stmt = .destructive) := by
  have hany : ∀ (lobes : List Text) (call : Call),
      executesAny .readOnly lobes call (classify · == .destructive) = true →
      ∃ stmt, Executes .ascii .zero .readOnly lobes call stmt ∧ classify stmt = .destructive := by
    intro lobes call h
    obtain ⟨stmt, hexec, hcls⟩ := exists_executes_of_any h
    exact ⟨stmt, hexec, eq_of_beq hcls⟩
  refine ⟨hany _ _ ?_, hany _ _ ?_, hany _ _ ?_⟩
  · decide +kernel
  · decide +kernel
  · decide +kernel

/-- The second statement is forbidden, and so is the first: the call is refused. -/
example : Call.Safe .ascii .zero .readOnly []
    (.query "PURGE \"m\"; SHOW LOBES".toList none bindP) := by
  have hrefused : (queryGuard .ascii .readOnly
    "PURGE \"m\"; SHOW LOBES".toList).toOption.isNone = true := by
    decide +kernel
  intro h
  rw [h] at hrefused
  cases hrefused

end XyzDB.Talk
