import XyzDB.Engine.Statements
import XyzDB.Engine.FieldSafety

/-!
# Declarations

What a statement declares is never taken back. A change of the catalog adds a lobe, an anchor, a
gravity, a search field or names for fields, and leaves those that are there (`Facts.kept`). So a
store that is reached from another one, by whatever statements, has all that the other one had
declared, and fields have the numbers they are stored under (`declarations_kept`).
-/

namespace XyzDB.Engine

open Std (ExtTreeMap)

open List Option LobeFieldRegistry OrdMap

/-! ### The names of fields -/

lemma FieldDict.prefix_getOrCreateId (d : FieldDict) (name : Text) :
    d.idToName <+: (d.getOrCreateId name).2.idToName := by
  unfold FieldDict.getOrCreateId
  split
  · exact prefix_rfl
  · exact prefix_append _ _

lemma prefix_assignIds (l : List (Text × Value)) (d : FieldDict) :
    d.idToName <+: (assignIds l d).2.idToName := by
  induction l generalizing d with
  | nil => exact prefix_rfl
  | cons f l ih => exact (d.prefix_getOrCreateId f.1).trans (ih _)

lemma prefix_serializeRecordV5 (normSq : List UInt32 → UInt64) (r : Record) (d : FieldDict)
    (search : Option Text) : d.idToName <+: (serializeRecordV5 normSq r d search).2.2.idToName := by
  have hvector : d.idToName <+: (searchVector r search d).2.idToName := by
    unfold searchVector
    split
    · exact prefix_rfl
    · split
      · exact d.prefix_getOrCreateId _
      · exact prefix_rfl
  exact hvector.trans (prefix_assignIds _ _)

variable {d : FieldDict} {p : Platform} {reg reg' : LobeFieldRegistry}

lemma names_insert_le {lobe' : UInt16} (h : (reg.dictOrDefault lobe').idToName <+: d.idToName)
    (lobe : UInt16) :
    reg.names lobe <+: (⟨reg.dicts.insert lobe' d⟩ : LobeFieldRegistry).names lobe := by
  rw [names, names]
  by_cases hlobe : lobe = lobe'
  · rwa [hlobe, dictOrDefault_insert]
  · rw [dictOrDefault_insert_of_ne reg d hlobe]

/-- **Names keep their numbers.** -/
theorem Grows.names_le (h : Grows p reg reg') (lobe : UInt16) :
    reg.names lobe <+: reg'.names lobe := by
  induction h with
  | refl => exact prefix_rfl
  | split lobe' r f _ ih =>
    exact ih.trans (names_insert_le (prefix_serializeRecordV5 p.normSq r _ (some f)) lobe)
  | number lobe' r _ ih =>
    exact ih.trans (names_insert_le (prefix_assignIds r.fields.toList _) lobe)

/-! ### What a change keeps -/

variable {db db' start : Db} {l : DbLabel}

/-- What was declared is still declared, and fields have their numbers. -/
structure Kept (c c' : Catalog) : Prop where
  lobes {name lobe} : c.Names name lobe → c'.Names name lobe
  anchors {lobe f} : c.isAnchor lobe f = true → c'.isAnchor lobe f = true
  gravity {lobe spec} : c.getGravitySpec lobe = some spec → c'.getGravitySpec lobe = some spec
  search {lobe f} : c.searchField lobe = some f → c'.searchField lobe = some f
  fields (lobe) : c.fieldRegistry.names lobe <+: c'.fieldRegistry.names lobe

lemma Kept.trans {a b c : Catalog} (h : Kept a b) (h' : Kept b c) : Kept a c :=
  ⟨h'.lobes ∘ h.lobes, h'.anchors ∘ h.anchors, h'.gravity ∘ h.gravity, h'.search ∘ h.search,
    fun l => (h.fields l).trans (h'.fields l)⟩

lemma Later.kept {c c' : Catalog} (h : Later p c c') : Kept c c' :=
  ⟨h.names_iff.mpr, fun hf => by rwa [Catalog.isAnchor, h.anchors], h.gravity _ _,
    (h.search _).trans, h.names.names_le⟩

lemma Facts.kept {I : Db → Prop} {c : Change} (h : Facts p I l start db c) :
    Kept db.catalog (db.apply p c).catalog := by
  have hrefl := (Later.refl (p := p) db.catalog).kept
  cases c with
  | lobe name => exact { hrefl with lobes := names_apply }
  | anchor lobe field =>
    exact { hrefl with anchors := fun hf => isAnchor_addAnchor.mpr (.inl hf) }
  | gravity lobe id spec => exact (since_gravity h.1).later.kept
  | vector lobe spec =>
    rcases h.2 with ⟨hnone, -⟩ | ⟨f, d, hspec, rfl⟩
    · -- a lobe with a search field has a spec
      refine { hrefl with search := fun {name f} hf => ?_ }
      obtain ⟨spec', hspec, rfl⟩ := map_eq_some_iff.mp hf
      refine map_eq_some_iff.mpr ⟨spec', getElem?_insert.trans ((if_neg ?_).trans hspec), rfl⟩
      rintro rfl
      cases hnone.symm.trans hspec
    · exact (quiet_vector hspec).later.kept
  | satellite => exact { hrefl with }
  | fieldDict reg => exact (quiet_fieldDict h).later.kept
  | _ => exact (later_of_leavesCatalog (p := p) db rfl).kept

/-! ### Histories -/

/-- What every change keeps, histories from any store on keep. -/
lemma history_keeps {J : Db → Prop} (hbase : ∀ db, J db → Base db)
    (hstep : ∀ start db l c, J db → Facts p J l start db c → J (db.apply p c))
    (hstart : J start) (h : TransSys.Reach ⟨start, Db.next p⟩ TransSys.anyStep db) : J db :=
  h.invariant J hstart fun db l _ hJ _ hnext => @next_invariant p _ _ _ J (fun _ _ => True) hbase
    (fun db₁ c h hf _ => hstep db db₁ l c h hf) hJ (fun _ _ => trivial) hnext

/-- **Declarations are permanent.** Whatever is executed from any store of any history on, lobes
keep their numbers, anchors, gravity and search fields, and fields the numbers they are stored
under. -/
theorem declarations_kept {cached : Bool} {spillLimit : ℕ}
    (h : (dbSys p cached spillLimit).Reach TransSys.anyStep db)
    (h' : TransSys.Reach ⟨db, Db.next p⟩ TransSys.anyStep db') : Kept db.catalog db'.catalog := by
  have hbase : Base db := history_keeps (fun _ h => h)
    (fun _ _ _ _ h hf => h.apply (fun _ h => h) hf) (base_empty cached spillLimit) h
  have hrefl := (Later.refl (p := p) db.catalog).kept
  exact (history_keeps (J := fun db' => Base db' ∧ Kept db.catalog db'.catalog) (fun _ h => h.1)
    (fun _ _ _ _ h hf => ⟨h.1.apply (fun _ h => h.1) hf, h.2.trans hf.kept⟩) ⟨hbase, hrefl⟩ h').2

/-- A lobe with a search field, and a record in it. -/
def searched : List DbLabel :=
  [clocked 1 (.lobe ⟨"a".toList, none⟩), clocked 2 (.vector ⟨"v".toList, "a".toList⟩),
    clocked 3 (putIn "a" [unstarred "k" (.int 1)])]

theorem declarations_kept_set : ∃ db db' : Db, (dbSys .sample false 8).Reach TransSys.anyStep db ∧
    (db.catalog.searchField "a".toList).isSome = true ∧ Kept db.catalog db'.catalog := by
  obtain ⟨db, h, hf, hset⟩ : ∃ db, (dbSys .sample false 8).Reach TransSys.anyStep db ∧
      (db.catalog.searchField "a".toList).isSome = true ∧
        (db.next .sample (clocked 4 (putIn "a" [unstarred "n" (.int 3)]))).isSome = true :=
    TransSys.exists_reach_of_run searched (by decide +kernel)
  obtain ⟨db', hnext⟩ := isSome_iff_exists.mp hset
  exact ⟨db, db', h, hf, declarations_kept h (.step .init trivial hnext)⟩

end XyzDB.Engine
