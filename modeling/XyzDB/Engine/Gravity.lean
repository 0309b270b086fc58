import XyzDB.Engine.Filter
import XyzDB.Engine.SpatialKey

/-!
# Gravity

A lobe may declare how the bucket of a record follows from its fields. The writer places a
record by `compute_hash`; a query whose conditions fix every field of the declaration reads the
one bucket that `pinned_gravity_hash` names. The two agree on the records that the query asks
for (`computeHash_of_matches`), up to fields reached through a dotted path and up to the two
forms of a float zero, which are equal and print differently.
-/

namespace XyzDB.Engine

open Std (ExtTreeMap)
open Talk (FilterOp GravitySpecAst GravityTransform)

open List Option

/-- How a lobe computes its gravity hash. -/
inductive GravitySpec where
  | raw (field : Text)
  | normalized (field : Text) (transform : GravityTransform)
  | composite (fields : List Text)
  deriving DecidableEq

def convertGravitySpec : GravitySpecAst → GravitySpec
  | .raw field => .raw field
  | .normalized field transform => .normalized field transform
  | .composite fields => .composite fields

section

variable (p : Platform)

/-- `Transform::apply`. -/
def applyTransform : GravityTransform → Text → Text
  | .lower, s => p.toLowercase s
  | .trim, s => p.trim s

/-- `compute_gravity_hash`: the values, with a zero character between them. An empty text before
the first character does not count. -/
def computeGravityHash (values : List Value) : BitVec 48 :=
  p.hash48 (values.foldl (fun combined v =>
      (if combined = [] then combined else combined ++ ['\x00']) ++ valueToAnchorString p v) [])

namespace GravitySpec

/-- The fields that a spec reads. -/
def fields : GravitySpec → List Text
  | .raw field => [field]
  | .normalized field _ => [field]
  | .composite fields => fields

variable (spec : GravitySpec)

/-- `hash_pairs`, without the names that the hash does not see. -/
def hashValues (fields : Fields) : Option (List Value) :=
  match spec with
  | .raw field => fields[field]?.map fun v => [v]
  | .normalized field transform =>
    fields[field]?.map fun v => [.text (applyTransform p transform (valueToAnchorString p v))]
  | .composite components => components.mapM (fields[·]?)

def computeHash (fields : Fields) : Option (BitVec 48) :=
  (spec.hashValues p fields).map (computeGravityHash p)

/-- The value of the only condition on a field, if that is an equality. -/
def pinnedValue (filters : List CoreFilter) (field : Text) : Option Value :=
  match filters.filter (·.field == field) with
  | [c] => if c.op = .eq then some c.value else none
  | _ => none

/-- `pinned_gravity_hash`: every field of the spec has exactly one condition, an equality. -/
def pinnedGravityHash (filters : List CoreFilter) : Option (BitVec 48) := do
  let values ← spec.fields.mapM fun field => (pinnedValue filters field).map fun v => (field, v)
  spec.computeHash p (ExtTreeMap.ofList values)

end GravitySpec

end

namespace GravitySpec

variable {p : Platform} {spec : GravitySpec} {filters : List CoreFilter}

lemma mapM_congr {l : List Text} {f g : Text → Option Value} (h : ∀ x ∈ l, f x = g x) :
    l.mapM f = l.mapM g := by
  induction l with
  | nil => rfl
  | cons x l ih =>
    simp only [mapM_cons, h x mem_cons_self, ih fun y hy => h y (.tail _ hy)]

lemma computeHash_congr {a b : Fields} (h : ∀ f ∈ spec.fields, a[f]? = b[f]?) :
    spec.computeHash p a = spec.computeHash p b := by
  have : spec.hashValues p a = spec.hashValues p b := by
    cases spec with
    | raw field | normalized field transform => simp only [hashValues, h field (by simp [fields])]
    | composite components => exact mapM_congr h
  rw [computeHash, computeHash, this]

lemma pinnedValue_eq_some {field : Text} {v : Value} (h : pinnedValue filters field = some v) :
    (⟨field, .eq, v⟩ : CoreFilter) ∈ filters := by
  unfold pinnedValue at h
  split at h
  · next c hc =>
    split at h <;> cases h
    next hop =>
    have hmem : c ∈ filters.filter (·.field == field) := by rw [hc]; exact mem_singleton_self c
    obtain ⟨hmem, hfield⟩ := mem_filter.mp hmem
    rw [beq_iff_eq] at hfield
    rwa [← hfield, ← hop]
  · cases h

/-- The conditions that fix the fields of a spec leave no zero and no path open. -/
abbrev PinsPlainly (spec : GravitySpec) (filters : List CoreFilter) : Prop :=
  ∀ f ∈ spec.fields, '.' ∉ f ∧ (pinnedValue filters f).all zeroFree = true

lemma getElem?_of_matches {r : Record} (hplain : spec.PinsPlainly filters)
    (hmatch : matchesFilters p r filters = true) {f : Text} (hf : f ∈ spec.fields) {v : Value}
    (hv : pinnedValue filters f = some v) : r.fields[f]? = some v := by
  obtain ⟨hdot, hzero⟩ := hplain f hf
  have hholds := all_eq_true.mp hmatch _ (pinnedValue_eq_some hv)
  simp only [CoreFilter.holds, resolvePath_of_undotted hdot] at hholds
  split at hholds
  · next x hx =>
    rw [hv] at hzero
    rw [hx, eq_of_valueEq hzero hholds]
  · cases hholds

lemma mapM_eq_some_iff {l : List Text} {g : Text → Option Value} {pairs : List (Text × Value)}
    (h : (l.mapM fun f => (g f).map fun v => (f, v)) = some pairs) :
    pairs.map Prod.fst = l ∧ ∀ x ∈ pairs, g x.1 = some x.2 := by
  induction l generalizing pairs with
  | nil =>
    obtain rfl : [] = pairs := by simpa using h
    simp
  | cons f l ih =>
    simp only [List.mapM_cons, Option.bind_eq_bind, Option.bind_eq_some_iff, Option.map_eq_some_iff,
      Option.pure_def, Option.some.injEq] at h
    obtain ⟨_, ⟨v, hv, rfl⟩, rest, hrest, rfl⟩ := h
    obtain ⟨hfst, hval⟩ := ih hrest
    refine ⟨by simp [hfst], fun x hx => ?_⟩
    rcases List.mem_cons.mp hx with rfl | hx
    · exact hv
    · exact hval x hx

/-- **Writer and query name the same bucket**: a record that satisfies conditions which fix the
bucket is placed in it. -/
theorem computeHash_of_matches {r : Record} {hash : BitVec 48}
    (hplain : spec.PinsPlainly filters) (hmatch : matchesFilters p r filters = true)
    (hpin : spec.pinnedGravityHash p filters = some hash) :
    spec.computeHash p r.fields = some hash := by
  simp only [pinnedGravityHash, bind_eq_bind, bind_eq_some_iff] at hpin
  obtain ⟨pairs, hpairs, hhash⟩ := hpin
  obtain ⟨hfst, hval⟩ := mapM_eq_some_iff hpairs
  rw [← hhash]
  refine computeHash_congr fun f hf => ?_
  obtain ⟨x, hx, rfl⟩ : ∃ x ∈ pairs, x.1 = f := by
    rw [← hfst] at hf
    simpa using hf
  rw [getElem?_of_matches hplain hmatch hf (hval x hx)]
  refine (OrdMap.getElem?_ofList_of_mem' (fun y hy hyx => ?_) hx).symm
  have hyv := hval y hy
  rw [hyx, hval x hx, some.injEq] at hyv
  exact hyv.symm

end GravitySpec

end XyzDB.Engine
