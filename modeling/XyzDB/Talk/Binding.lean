import XyzDB.Talk.Values

/-!
# Bound parameters

A statement may hold placeholders `$name`. `bindParams` walks a statement before it runs and
puts the bound values in their place, or fails. The walk does not enter three places a parser
puts literals in: the WHERE of a LINK clause in a PUT or PUT BATCH, the WHERE of a metric of an
AGGREGATE step, and the WHERE of a metric in a ghost's declaration.

`params_bindParams` says exactly what is left: the placeholders in these three places, and no
others.
-/

namespace XyzDB.Talk

open List Nom PipelineStep

variable (floats : FloatTable) (bound : Text → Option Value)

mutual

def valueToLiteral (name : Text) : Value → Except XyzError Literal
  | .bool b => .ok (.bool b)
  | .int i => .ok (.int i)
  | .float f => .ok (.float f)
  | .text s => .ok (.text s)
  | .null => .ok .null
  | .list items => .list <$> valuesToLiterals name items
  | .map pairs => .map <$> valuePairsToLiterals name pairs
  | .vector packed => .ok (.list (packed.map fun x => .float (floats.widen x)))
  | .timestamp _ | .bytes _ =>
    .error (.invalidQuery ("parameter $".toList ++ name ++
      ": type not bindable yet (use Text/Int/Float/Bool/List/Map)".toList))

def valuesToLiterals (name : Text) : List Value → Except XyzError (List Literal)
  | [] => .ok []
  | v :: items => do
    let l ← valueToLiteral name v
    let ls ← valuesToLiterals name items
    return l :: ls

def valuePairsToLiterals (name : Text) :
    List (Text × Value) → Except XyzError (List (Text × Literal))
  | [] => .ok []
  | (k, v) :: pairs => do
    let l ← valueToLiteral name v
    let ls ← valuePairsToLiterals name pairs
    return (k, l) :: ls

end

mutual

def bindLiteral : Literal → Except XyzError Literal
  | .param name =>
    match bound name with
    | none => .error (.invalidQuery ("unbound parameter $".toList ++ name))
    | some v => valueToLiteral floats name v
  | .list items => .list <$> bindLiterals items
  | .map pairs => .map <$> bindPairs pairs
  | l => .ok l

def bindLiterals : List Literal → Except XyzError (List Literal)
  | [] => .ok []
  | l :: items => do
    let l ← bindLiteral l
    let items ← bindLiterals items
    return l :: items

def bindPairs : List (Text × Literal) → Except XyzError (List (Text × Literal))
  | [] => .ok []
  | (k, l) :: pairs => do
    let l ← bindLiteral l
    let pairs ← bindPairs pairs
    return (k, l) :: pairs

end

/-- One filter of `bind_filters`. -/
def bindFilter (f : Filter) : Except XyzError Filter := do
  let value ← bindLiteral floats bound f.value
  return { f with value }

def bindFilters (filters : List Filter) : Except XyzError (List Filter) :=
  filters.mapM (bindFilter floats bound)

def bindFields (fields : List PutField) : Except XyzError (List PutField) :=
  fields.mapM fun f => do
    let value ← bindLiteral floats bound f.value
    return { f with value }

mutual

def bindFilterExpr : FilterExpr → Except XyzError FilterExpr
  | .condition f => .condition <$> bindFilter floats bound f
  | .and exprs => .and <$> bindFilterExprs exprs
  | .or exprs => .or <$> bindFilterExprs exprs
  | .not expr => .not <$> bindFilterExpr expr

def bindFilterExprs : List FilterExpr → Except XyzError (List FilterExpr)
  | [] => .ok []
  | e :: exprs => do
    let e ← bindFilterExpr e
    let exprs ← bindFilterExprs exprs
    return e :: exprs

end

def bindFilterExprOpt : Option FilterExpr → Except XyzError (Option FilterExpr)
  | none => .ok none
  | some e => some <$> bindFilterExpr floats bound e

def bindSet (s : SetStmt) : Except XyzError SetStmt := do
  let assignments ← s.assignments.mapM fun (k, l) => do
    let l ← bindLiteral floats bound l
    return (k, l)
  let filterExpr ← bindFilterExprOpt floats bound s.filterExpr
  return { s with assignments, filterExpr }

def bindNearest (n : NearestStmt) : Except XyzError NearestStmt :=
  match n.query with
  | .param name =>
    match bound name with
    | none => .error (.invalidQuery ("NEAREST: parameter $".toList ++ name ++ " not bound".toList))
    | some v => do
      match ← valueToLiteral floats name v with
      | .list items => return { n with query := .vector (.list items) }
      | _ => .error (.invalidQuery ("NEAREST: parameter $".toList ++ name ++
          " must be a list of numbers".toList))
  | .vector l => do
    let l ← bindLiteral floats bound l
    return { n with query := .vector l }
  | .ref _ => .ok n

/-- The pipeline arm of `bind_params`. -/
def bindStep : PipelineStep → Except XyzError PipelineStep
  | .find f => do
    let filters ← bindFilters floats bound f.filters
    return .find { f with filters }
  | .scan s => do
    let filterExpr ← bindFilterExprOpt floats bound s.filterExpr
    return .scan { s with filterExpr }
  | .scanGhost g => do
    let filterExpr ← bindFilterExprOpt floats bound g.filterExpr
    return .scanGhost { g with filterExpr }
  | .set s => .set <$> bindSet floats bound s
  | .delete d => do
    let filterExpr ← bindFilterExprOpt floats bound d.filterExpr
    return .delete { d with filterExpr }
  | .nearest n => .nearest <$> bindNearest floats bound n
  | step => .ok step

def bindParams : Statement → Except XyzError Statement
  | .put p => do
    let fields ← bindFields floats bound p.fields
    return .put { p with fields }
  | .putBatch p => do
    let records ← p.records.mapM (bindFields floats bound)
    return .putBatch { p with records }
  | .find f => do
    let filters ← bindFilters floats bound f.filters
    return .find { f with filters }
  | .scan s => do
    let filterExpr ← bindFilterExprOpt floats bound s.filterExpr
    return .scan { s with filterExpr }
  | .set s => .set <$> bindSet floats bound s
  | .delete d => do
    let filterExpr ← bindFilterExprOpt floats bound d.filterExpr
    return .delete { d with filterExpr }
  | .fetch f => do
    let filterExpr ← bindFilterExprOpt floats bound f.filterExpr
    return .fetch { f with filterExpr }
  | .link l => do
    let sourceFilterExpr ← bindFilterExprOpt floats bound l.sourceFilterExpr
    let targetFilterExpr ← bindFilterExprOpt floats bound l.targetFilterExpr
    return .link { l with sourceFilterExpr, targetFilterExpr }
  | .createGhost g => do
    let filter ← bindFilterExpr floats bound g.filter
    return .createGhost { g with filter }
  | .scanGhost g => do
    let filterExpr ← bindFilterExprOpt floats bound g.filterExpr
    return .scanGhost { g with filterExpr }
  | .inCache c => do
    let filterExpr ← bindFilterExprOpt floats bound c.filterExpr
    return .inCache { c with filterExpr }
  | .pipeline steps => .pipeline <$> steps.mapM (bindStep floats bound)
  | stmt => .ok stmt

mutual

def FilterExpr.literals : FilterExpr → List Literal
  | .condition f => [f.value]
  | .and exprs => exprsLiterals exprs
  | .or exprs => exprsLiterals exprs
  | .not expr => expr.literals

def exprsLiterals : List FilterExpr → List Literal
  | [] => []
  | e :: exprs => e.literals ++ exprsLiterals exprs

end

def whereLiterals : Option FilterExpr → List Literal
  | none => []
  | some e => e.literals

def filtersLiterals (filters : List Filter) : List Literal := filters.map (·.value)

def fieldsLiterals (fields : List PutField) : List Literal := fields.map (·.value)

def linkLiterals : Option LinkClause → List Literal
  | none => []
  | some link => filtersLiterals link.filters

def metricsLiterals (metrics : List Aggregate) : List Literal :=
  metrics.flatMap fun m => whereLiterals m.filter

def SetStmt.literals (s : SetStmt) : List Literal :=
  s.assignments.map (·.2) ++ whereLiterals s.filterExpr

def NearestQuery.literals : NearestQuery → List Literal
  | .vector l => [l]
  | _ => []

def PipelineStep.literals : PipelineStep → List Literal
  | .find f => filtersLiterals f.filters
  | .scan s => whereLiterals s.filterExpr
  | .scanGhost g => whereLiterals g.filterExpr
  | .set s => s.literals
  | .delete d => whereLiterals d.filterExpr
  | .nearest n => n.query.literals
  | .aggregate metrics => metricsLiterals metrics
  | _ => []

def Statement.literals : Statement → List Literal
  | .put p => fieldsLiterals p.fields ++ linkLiterals p.link
  | .putBatch p => p.records.flatMap fieldsLiterals ++ linkLiterals p.link
  | .find f => filtersLiterals f.filters
  | .scan s => whereLiterals s.filterExpr
  | .set s => s.literals
  | .delete d => whereLiterals d.filterExpr
  | .fetch f => whereLiterals f.filterExpr
  | .link l => whereLiterals l.sourceFilterExpr ++ whereLiterals l.targetFilterExpr
  | .createGhost g => g.filter.literals ++ metricsLiterals g.aggregates
  | .scanGhost g => whereLiterals g.filterExpr
  | .inCache c => whereLiterals c.filterExpr
  | .pipeline steps => steps.flatMap PipelineStep.literals
  | _ => []

/-- The placeholder that a NEAREST step has for its whole query. -/
def PipelineStep.queryParam : PipelineStep → List Text
  | .nearest n =>
    match n.query with
    | .param name => [name]
    | _ => []
  | _ => []

/-- Every placeholder of a pipeline step. -/
def PipelineStep.params (step : PipelineStep) : List Text :=
  step.literals.flatMap Literal.params ++ step.queryParam

/-- Every placeholder of a statement. -/
def Statement.params : Statement → List Text
  | .pipeline steps => steps.flatMap PipelineStep.params
  | stmt => stmt.literals.flatMap Literal.params

/-- The literals of a step that `bindParams` does not come to. -/
def PipelineStep.skipped : PipelineStep → List Literal
  | .aggregate metrics => metricsLiterals metrics
  | _ => []

/-- The literals of a statement that `bindParams` does not come to. -/
def Statement.skipped : Statement → List Literal
  | .put p => linkLiterals p.link
  | .putBatch p => linkLiterals p.link
  | .createGhost g => metricsLiterals g.aggregates
  | .pipeline steps => steps.flatMap PipelineStep.skipped
  | _ => []

def Statement.skippedParams (stmt : Statement) : List Text :=
  stmt.skipped.flatMap Literal.params

variable {name : Text}

section

variable {floats bound}

mutual

lemma params_valueToLiteral {v : Value} {l : Literal} (h : valueToLiteral floats name v = .ok l) :
    l.params = [] := by
  match v with
  | .bool _ | .int _ | .float _ | .text _ | .null =>
    cases h
    rfl
  | .list items =>
    obtain ⟨ls, hls, rfl⟩ := map_eq_ok.mp h
    exact params_valuesToLiterals hls
  | .map pairs =>
    obtain ⟨ls, hls, rfl⟩ := map_eq_ok.mp h
    exact params_valuePairsToLiterals hls
  | .vector packed =>
    cases h
    rw [Literal.params]
    induction packed with
    | nil => rfl
    | cons x packed ih => rw [map_cons, literalsParams, ih]; rfl
  | .timestamp _ | .bytes _ => cases h

lemma params_valuesToLiterals {items : List Value} {ls : List Literal}
    (h : valuesToLiterals floats name items = .ok ls) : literalsParams ls = [] := by
  match items with
  | [] => cases h; rfl
  | v :: items =>
    simp only [valuesToLiterals, bind_eq_ok, pure_eq_ok] at h
    obtain ⟨l, hl, ls, hls, rfl⟩ := h
    rw [literalsParams, params_valueToLiteral hl, params_valuesToLiterals hls, append_nil]

lemma params_valuePairsToLiterals {pairs : List (Text × Value)} {ls : List (Text × Literal)}
    (h : valuePairsToLiterals floats name pairs = .ok ls) : pairsParams ls = [] := by
  match pairs with
  | [] => cases h; rfl
  | (k, v) :: pairs =>
    simp only [valuePairsToLiterals, bind_eq_ok, pure_eq_ok] at h
    obtain ⟨l, hl, ls, hls, rfl⟩ := h
    rw [pairsParams, params_valueToLiteral hl, params_valuePairsToLiterals hls, append_nil]

end

mutual

lemma params_bindLiteral {l l' : Literal} (h : bindLiteral floats bound l = .ok l') :
    l'.params = [] := by
  match l with
  | .int _ | .float _ | .text _ | .bool _ | .timestamp _ | .lid _ | .null =>
    cases h
    rfl
  | .param name =>
    rw [bindLiteral] at h
    split at h
    · cases h
    · exact params_valueToLiteral h
  | .list items =>
    obtain ⟨ls, hls, rfl⟩ := map_eq_ok.mp h
    exact params_bindLiterals hls
  | .map pairs =>
    obtain ⟨ls, hls, rfl⟩ := map_eq_ok.mp h
    exact params_bindPairs hls

lemma params_bindLiterals {items ls : List Literal}
    (h : bindLiterals floats bound items = .ok ls) : literalsParams ls = [] := by
  match items with
  | [] => cases h; rfl
  | l :: items =>
    simp only [bindLiterals, bind_eq_ok, pure_eq_ok] at h
    obtain ⟨l, hl, ls, hls, rfl⟩ := h
    rw [literalsParams, params_bindLiteral hl, params_bindLiterals hls, append_nil]

lemma params_bindPairs {pairs ls : List (Text × Literal)}
    (h : bindPairs floats bound pairs = .ok ls) : pairsParams ls = [] := by
  match pairs with
  | [] => cases h; rfl
  | (k, l) :: pairs =>
    simp only [bindPairs, bind_eq_ok, pure_eq_ok] at h
    obtain ⟨l, hl, ls, hls, rfl⟩ := h
    rw [pairsParams, params_bindLiteral hl, params_bindPairs hls, append_nil]

end

lemma params_bindFilter {f f' : Filter} (h : bindFilter floats bound f = .ok f') :
    f'.value.params = [] := by
  simp only [bindFilter, bind_eq_ok, pure_eq_ok] at h
  obtain ⟨l, hl, rfl⟩ := h
  exact params_bindLiteral hl

mutual

lemma params_bindFilterExpr {e e' : FilterExpr} (h : bindFilterExpr floats bound e = .ok e') :
    e'.literals.flatMap Literal.params = [] := by
  match e with
  | .condition f =>
    obtain ⟨f', hf, rfl⟩ := map_eq_ok.mp h
    rw [FilterExpr.literals, flatMap_singleton, params_bindFilter hf]
  | .and exprs | .or exprs =>
    obtain ⟨es, hes, rfl⟩ := map_eq_ok.mp h
    exact params_bindFilterExprs hes
  | .not expr =>
    obtain ⟨e', he, rfl⟩ := map_eq_ok.mp h
    rw [FilterExpr.literals, params_bindFilterExpr he]

lemma params_bindFilterExprs {es es' : List FilterExpr}
    (h : bindFilterExprs floats bound es = .ok es') :
    (exprsLiterals es').flatMap Literal.params = [] := by
  match es with
  | [] => cases h; rfl
  | e :: es =>
    simp only [bindFilterExprs, bind_eq_ok, pure_eq_ok] at h
    obtain ⟨e, he, es, hes, rfl⟩ := h
    rw [exprsLiterals, flatMap_append, params_bindFilterExpr he, params_bindFilterExprs hes,
      append_nil]

end

lemma params_bindFilterExprOpt {e e' : Option FilterExpr}
    (h : bindFilterExprOpt floats bound e = .ok e') :
    (whereLiterals e').flatMap Literal.params = [] := by
  match e with
  | none => cases h; rfl
  | some e =>
    obtain ⟨e', he, rfl⟩ := map_eq_ok.mp h
    exact params_bindFilterExpr he

lemma params_bindFilters {fs fs' : List Filter} (h : bindFilters floats bound fs = .ok fs') :
    (filtersLiterals fs').flatMap Literal.params = [] := by
  rw [filtersLiterals, flatMap_map]
  refine flatMap_eq_nil_of_mapM (fun f f' hf => ?_) h
  exact params_bindFilter hf

lemma params_bindFields {fs fs' : List PutField} (h : bindFields floats bound fs = .ok fs') :
    (fieldsLiterals fs').flatMap Literal.params = [] := by
  rw [fieldsLiterals, flatMap_map]
  refine flatMap_eq_nil_of_mapM (fun f f' hf => ?_) h
  simp only [bind_eq_ok, pure_eq_ok] at hf
  obtain ⟨l, hl, rfl⟩ := hf
  exact params_bindLiteral hl

lemma params_bindSet {s s' : SetStmt} (h : bindSet floats bound s = .ok s') :
    s'.literals.flatMap Literal.params = [] := by
  simp only [bindSet, bind_eq_ok, pure_eq_ok] at h
  obtain ⟨as, has, e, he, rfl⟩ := h
  rw [SetStmt.literals, flatMap_append, params_bindFilterExprOpt he, append_nil, flatMap_map]
  refine flatMap_eq_nil_of_mapM (fun a a' ha => ?_) has
  simp only [bind_eq_ok, pure_eq_ok] at ha
  obtain ⟨l, hl, rfl⟩ := ha
  exact params_bindLiteral hl

lemma params_bindNearest {n n' : NearestStmt} (h : bindNearest floats bound n = .ok n') :
    (nearest n').params = [] := by
  rw [bindNearest] at h
  split at h
  · split at h
    · cases h
    · obtain ⟨l, hl, h⟩ := bind_eq_ok.mp h
      split at h <;> cases h
      have := params_valueToLiteral hl
      simpa [params, literals, NearestQuery.literals, queryParam] using this
  · simp only [bind_eq_ok, pure_eq_ok] at h
    obtain ⟨l, hl, rfl⟩ := h
    have := params_bindLiteral hl
    simpa [params, literals, NearestQuery.literals, queryParam] using this
  · next hq =>
    cases h
    simp [params, literals, NearestQuery.literals, queryParam, hq]

lemma params_bindStep {step step' : PipelineStep} (h : bindStep floats bound step = .ok step') :
    step'.params = step.skipped.flatMap Literal.params := by
  match step with
  | .find f =>
    simp only [bindStep, bind_eq_ok, pure_eq_ok] at h
    obtain ⟨fs, hfs, rfl⟩ := h
    exact append_eq_nil_iff.mpr ⟨params_bindFilters hfs, rfl⟩
  | .scan _ | .scanGhost _ | .delete _ =>
    simp only [bindStep, bind_eq_ok, pure_eq_ok] at h
    obtain ⟨e, he, rfl⟩ := h
    exact append_eq_nil_iff.mpr ⟨params_bindFilterExprOpt he, rfl⟩
  | .set s =>
    obtain ⟨s', hs, rfl⟩ := map_eq_ok.mp h
    exact append_eq_nil_iff.mpr ⟨params_bindSet hs, rfl⟩
  | .nearest n =>
    obtain ⟨n', hn, rfl⟩ := map_eq_ok.mp h
    exact params_bindNearest hn
  | .aggregate _ =>
    -- the one arm that drops a literal
    cases h
    exact append_nil _
  | .pull _ | .groupBy _ | .shape _ | .follow _ | .top _ =>
    cases h
    rfl

/-- **What is left is what was skipped.** -/
theorem params_bindParams {stmt stmt' : Statement}
    (h : bindParams floats bound stmt = .ok stmt') : stmt'.params = stmt.skippedParams := by
  -- what `bindParams` leaves alone keeps its parameters; what it visits has none
  cases stmt <;> simp only [bindParams, bind_eq_ok, pure_eq_ok] at h
  case put =>
    obtain ⟨fs, hfs, rfl⟩ := h
    rw [Statement.params, Statement.literals, flatMap_append, params_bindFields hfs]
    · rfl
    · nofun
  case putBatch =>
    obtain ⟨rs, hrs, rfl⟩ := h
    have hrs : (rs.flatMap fieldsLiterals).flatMap Literal.params = [] := by
      rw [flatMap_assoc]
      exact flatMap_eq_nil_of_mapM (fun _ _ => params_bindFields) hrs
    rw [Statement.params, Statement.literals, flatMap_append, hrs]
    · rfl
    · nofun
  case find =>
    obtain ⟨fs, hfs, rfl⟩ := h
    exact params_bindFilters hfs
  case set =>
    obtain ⟨s', hs, rfl⟩ := map_eq_ok.mp h
    exact params_bindSet hs
  case scan | delete | fetch | scanGhost | inCache =>
    obtain ⟨e, he, rfl⟩ := h
    exact params_bindFilterExprOpt he
  case link =>
    obtain ⟨e, he, e', he', rfl⟩ := h
    rw [Statement.params, Statement.literals, flatMap_append, params_bindFilterExprOpt he,
      params_bindFilterExprOpt he']
    · rfl
    · nofun
  case createGhost =>
    obtain ⟨e, he, rfl⟩ := h
    rw [Statement.params, Statement.literals, flatMap_append, params_bindFilterExpr he]
    · rfl
    · nofun
  case pipeline =>
    obtain ⟨steps', hsteps, rfl⟩ := map_eq_ok.mp h
    rw [Statement.skippedParams, Statement.skipped, flatMap_assoc]
    exact flatMap_of_mapM (fun _ _ => params_bindStep) hsteps
  all_goals
    cases h
    rfl

lemma Statement.params_of_mem {stmt : Statement} (h : stmt.params = []) {l : Literal}
    (hl : l ∈ stmt.literals) : l.params = [] := by
  cases stmt
  case pipeline =>
    obtain ⟨step, hstep, hl⟩ := mem_flatMap.mp hl
    have hstep := flatMap_eq_nil_iff.mp h step hstep
    exact flatMap_eq_nil_iff.mp (append_eq_nil_iff.mp hstep).1 l hl
  all_goals exact flatMap_eq_nil_iff.mp h l hl

/-- **No placeholder survives binding** if and only if none stands in a place the walk skips: then
no literal or query of the bound statement is one, and neither conversion of a literal comes to
its `unreachable!` arm. -/
theorem bound_statement_has_no_params {stmt stmt' : Statement}
    (h : bindParams floats bound stmt = .ok stmt') :
    (stmt'.params = [] ∧ ∀ l ∈ stmt'.literals, (∃ v, literalToValue floats l = some v) ∧
      ∀ debug, ∃ s, literalToString floats debug l = some s) ↔ stmt.skippedParams = [] := by
  constructor
  · rintro ⟨hparams, -⟩
    exact (params_bindParams h).symm.trans hparams
  · intro hskip
    have hparams : stmt'.params = [] := (params_bindParams h).trans hskip
    refine ⟨hparams, fun l hl => ?_⟩
    have hl := Statement.params_of_mem hparams hl
    exact ⟨literalToValue_isSome floats hl, fun debug => literalToString_isSome floats hl⟩

end

/-- A table of floats for evaluation. -/
def FloatTable.zero : FloatTable := ⟨fun _ => 0, fun _ => 0, fun _ => []⟩

/-- `p` is bound to the number `1`. -/
def bindP : Text → Option Value := fun name => if name = ['p'] then some (.int 1) else none

def metricText : Text := "SCAN \"x\" | AGGREGATE sum(a) WHERE a = $p AS c".toList

/-- Its placeholder is bound, binding succeeds, and the placeholder is still there: the literal
that the metric's filter is compared with is the `unreachable!` case of its conversion. -/
theorem placeholder_survives_binding : ∃ stmt stmt', parse .ascii metricText = .ok stmt ∧
    bindParams .zero bindP stmt = .ok stmt' ∧ stmt'.params ≠ [] ∧
    ∃ l ∈ stmt'.literals, literalToValue .zero l = none := by
  have hrun : (parse .ascii metricText).toOption.any (fun stmt =>
      (bindParams .zero bindP stmt).toOption.any fun stmt' =>
        stmt'.params ≠ [] && stmt'.literals.any fun l => (literalToValue .zero l).isNone) := by
    decide +kernel
  obtain ⟨stmt, hparse, hrun⟩ := exists_ok_of_any hrun
  obtain ⟨stmt', hbind, hrun⟩ := exists_ok_of_any hrun
  obtain ⟨hparams, hlits⟩ := (Bool.and_eq_true _ _).mp hrun
  obtain ⟨l, hl, hnone⟩ := any_eq_true.mp hlits
  exact ⟨stmt, stmt', hparse, hbind, of_decide_eq_true hparams, l, hl,
    Option.isNone_iff_eq_none.mp hnone⟩

def whereText : Text := "SCAN \"x\" WHERE a = $p | AGGREGATE count()".toList

/-- With the placeholder in the WHERE of the scan, it is replaced. -/
theorem bound_statement_has_no_params_where : ∃ stmt stmt', parse .ascii whereText = .ok stmt ∧
    stmt.params ≠ [] ∧ bindParams .zero bindP stmt = .ok stmt' ∧ stmt'.params = [] := by
  have hrun : (parse .ascii whereText).toOption.any (fun stmt =>
      (stmt.params ≠ [] && stmt.skippedParams = []) &&
        (bindParams .zero bindP stmt).toOption.any fun _ => true) := by
    decide +kernel
  obtain ⟨stmt, hparse, hrun⟩ := exists_ok_of_any hrun
  obtain ⟨hstmt, hrun⟩ := (Bool.and_eq_true _ _).mp hrun
  obtain ⟨hparams, hskip⟩ := (Bool.and_eq_true _ _).mp hstmt
  obtain ⟨stmt', hbind, -⟩ := exists_ok_of_any hrun
  exact ⟨stmt, stmt', hparse, of_decide_eq_true hparams, hbind,
    ((bound_statement_has_no_params hbind).mpr (of_decide_eq_true hskip)).1⟩

end XyzDB.Talk
