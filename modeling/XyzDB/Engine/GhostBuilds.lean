import XyzDB.Engine.Writes

/-!
# Building ghosts

CREATE GHOST and the batched creation of several ghosts, as what they do to a store
(`run_executeCreateGhost`, `run_executeCreateGhostBatch`): all that changes are the ghosts. A batch
whose names are new and different builds what its statements build one after the other
(`foldl_build`), since the numbers are given out in the same order and a build looks at nothing
that another build changes.

A build touches the keys of its own number only, and a write touches the keys of the ghosts of its
lobe. So a ghost that is there while another lobe is written is the ghost that is built after the
write (`create_notifyWrite`).
-/

namespace XyzDB.Engine

open Std (ExtTreeMap)
open List OrdMap

section

variable (p : Platform)

namespace GhostStore

variable (gs : GhostStore)

/-- A ghost with a number is built and becomes visible. -/
def build (id lobe : UInt16) (spec : GhostSpec) (records : List (Record × Key)) : GhostStore :=
  (gs.ingest p id spec records).insertGhost (gs.built p id lobe spec records)

/-- A new ghost takes the next number. -/
def create (lobe : UInt16) (spec : GhostSpec) (records : List (Record × Key)) : GhostStore :=
  gs.allocId.build p gs.nextId lobe spec records

/-- New ghosts of a lobe, one after the other. -/
def createAll (lobe : UInt16) (records : GhostSpec → List (Record × Key)) (specs : List GhostSpec) :
    GhostStore :=
  specs.foldl (fun gs spec => gs.create p lobe spec (records spec)) gs

end GhostStore

/-- The records of a lobe that a ghost is built from. -/
def Db.buildRecords (db : Db) (lobeName : Text) (lobe : UInt16) (spec : GhostSpec) :
    List (Record × Key) :=
  XyzDB.Engine.buildRecords p spec lobeName (db.catalog.fieldRegistry.getDict lobe)
    (db.lobeEntries lobe)

/-- The store with a new ghost. -/
def Db.createGhost (db : Db) (lobeName : Text) (lobe : UInt16) (spec : GhostSpec) : Db :=
  { db with ghosts := db.ghosts.create p lobe spec (db.buildRecords p lobeName lobe spec) }

/-- The store with new ghosts of a lobe. -/
def Db.createGhosts (db : Db) (lobeName : Text) (lobe : UInt16) (specs : List GhostSpec) : Db :=
  { db with ghosts := db.ghosts.createAll p lobe (db.buildRecords p lobeName lobe) specs }

/-- What `create` and `create_batch` say of a ghost. -/
def createdMessage (lobeName : Text) (spec : GhostSpec) (records : List (Record × Key)) : Text :=
  "Ghost ".toList ++ quoted spec.name ++ " created: ".toList ++ displayInt records.length ++
    " index entries from ".toList ++ quoted lobeName ++ " ordered by ".toList ++
    quoted spec.orderByField ++ if spec.sortInverted then " DESC".toList else " ASC".toList

/-- The ids of the ghosts of a batch; the names are looked up before any of them is created. -/
def allocAll : List GhostSpec → Run (List UInt16)
  | [] => return []
  | spec :: specs => do
    if ← .ask fun db => db.ghosts.containsGhost spec.name then .fail (.ghostExists spec.name)
    else
      let ghostId ← .makeWith (fun _ => .allocGhost) fun db => db.ghosts.nextId
      return ghostId :: (← allocAll specs)

/-- The end of a creation: the entries, and the ghost. -/
def finalizeGhost (lobe id : UInt16) (spec : GhostSpec) (records : List (Record × Key)) :
    Run Unit := do
  let g ← .makeWith (fun _ => .ingestGhost id spec records) fun db =>
    db.ghosts.built p id lobe spec records
  .make (.insertGhost g)

/-- `create_batch`: one scan for all of them. -/
def executeCreateGhostBatch (lobeName : Text) (specs : List GhostSpec) : Run QueryResult := do
  let lobe ← lobeId lobeName
  let ids ← allocAll specs
  let builds ← .ask fun db => (ids.zip specs).map fun (id, spec) => (id, spec,
    db.buildRecords p lobeName lobe spec)
  Prog.each (fun (id, spec, records) => finalizeGhost p lobe id spec records) builds
  return .ok none (['\n'].intercalate (builds.map fun (_, spec, records) =>
    createdMessage lobeName spec records))

end

section

variable {p : Platform} {db : Db} {lobeName : Text} {lobe : UInt16} {spec : GhostSpec}

/-! ### What runs -/

/-- A build does not look at other ghosts. -/
@[simp] lemma Db.buildRecords_ghosts {gs : GhostStore} :
    ({ db with ghosts := gs } : Db).buildRecords p lobeName lobe spec =
      db.buildRecords p lobeName lobe spec := rfl

@[simp] lemma Db.apply_allocGhost :
    db.apply p .allocGhost = { db with ghosts := db.ghosts.allocId } := by
  obtain ⟨catalog, trees, cache, ghosts, locks⟩ := db
  cases cache <;> rfl

@[simp] lemma Db.apply_ingestGhost {id : UInt16} {records : List (Record × Key)} :
    db.apply p (.ingestGhost id spec records) =
      { db with ghosts := db.ghosts.ingest p id spec records } := by
  obtain ⟨catalog, trees, cache, ghosts, locks⟩ := db
  cases cache <;> rfl

@[simp] lemma Db.apply_insertGhost {g : GhostMeta} :
    db.apply p (.insertGhost g) = { db with ghosts := db.ghosts.insertGhost g } := by
  obtain ⟨catalog, trees, cache, ghosts, locks⟩ := db
  cases cache <;> rfl

lemma run_finalizeGhost {id : UInt16} {records : List (Record × Key)} :
    (finalizeGhost p lobe id spec records).run (Db.apply p) db =
      (.ok (), { db with ghosts := db.ghosts.build p id lobe spec records }) := by
  simp [finalizeGhost, bind, Prog.makeWith, Prog.make, Prog.bind, Prog.run, Prog.after,
    GhostStore.build]

lemma run_lobeId (h : db.catalog.lobes.get lobeName = some lobe) :
    (lobeId lobeName).run (Db.apply p) db = (.ok lobe, db) := by
  simp [lobeId, Prog.query, Prog.run, Prog.after, h]

lemma run_lobeId_missing (h : db.catalog.lobes.get lobeName = none) :
    (lobeId lobeName).run (Db.apply p) db = (.error (.lobeNotFound lobeName), db) := by
  simp [lobeId, Prog.query, Prog.run, Prog.after, h]

/-- **CREATE GHOST** fails and changes nothing, or adds the ghost. -/
lemma run_executeCreateGhost :
    (executeCreateGhost p lobeName spec).run (Db.apply p) db =
      match db.catalog.lobes.get lobeName with
      | none => (.error (.lobeNotFound lobeName), db)
      | some lobe =>
        if db.ghosts.containsGhost spec.name then (.error (.ghostExists spec.name), db)
        else (.ok (.ok none (createdMessage lobeName spec (db.buildRecords p lobeName lobe spec))),
          db.createGhost p lobeName lobe spec) := by
  rw [executeCreateGhost, Prog.run_bind]
  cases hlobe : db.catalog.lobes.get lobeName with
  | none => rw [run_lobeId_missing hlobe]
  | some lobe =>
    rw [run_lobeId hlobe]
    dsimp only
    rw [Prog.run_bind, Prog.run_ask]
    dsimp only
    split
    · rfl
    · simp only [bind, Prog.makeWith, Prog.ask, Prog.make, Prog.bind, Prog.run, Prog.after,
        if_true, Db.apply_allocGhost, Db.apply_ingestGhost, Db.apply_insertGhost]
      rfl

/-! ### Batches -/

/-- The numbers of some ghosts. -/
def idsFrom (next : UInt16) : List GhostSpec → List UInt16
  | [] => []
  | _ :: specs => next :: idsFrom (next + 1) specs

/-- Every ghost of a batch gets a number, or a name is in use; then the numbers of those before it
are lost. -/
lemma run_allocAll (specs : List GhostSpec) (db : Db) :
    (∀ spec ∈ specs, db.ghosts.containsGhost spec.name = false) ∧
      (allocAll specs).run (Db.apply p) db = (.ok (idsFrom db.ghosts.nextId specs),
        { db with ghosts := GhostStore.allocId^[specs.length] db.ghosts }) ∨
    ∃ fresh spec rest, specs = fresh ++ spec :: rest ∧
      db.ghosts.containsGhost spec.name = true ∧
      (allocAll specs).run (Db.apply p) db = (.error (.ghostExists spec.name),
        { db with ghosts := GhostStore.allocId^[fresh.length] db.ghosts }) := by
  induction specs generalizing db with
  | nil => exact .inl ⟨nofun, rfl⟩
  | cons spec specs ih =>
    rw [allocAll, Prog.run_bind, Prog.run_ask]
    cases hspec : db.ghosts.containsGhost spec.name with
    | true =>
      refine .inr ⟨[], spec, specs, rfl, hspec, ?_⟩
      simp only [if_true]
      rfl
    | false =>
      simp only [Bool.false_eq_true, if_false]
      rw [Prog.run_bind]
      simp only [Prog.makeWith, Prog.run, Prog.after, if_true, Db.apply_allocGhost]
      rw [Prog.run_bind]
      rcases ih { db with ghosts := db.ghosts.allocId } with
        ⟨hnew, hrun⟩ | ⟨fresh, s, rest, rfl, hused, hrun⟩
      · rw [hrun]
        exact .inl ⟨forall_mem_cons.mpr ⟨hspec, hnew⟩, rfl⟩
      · rw [hrun]
        exact .inr ⟨spec :: fresh, s, rest, rfl, hused, rfl⟩

/-- The ghosts of a batch are built one after the other. -/
lemma run_each_finalizeGhost (builds : List (UInt16 × GhostSpec × List (Record × Key))) :
    (Prog.each (fun x => finalizeGhost p lobe x.1 x.2.1 x.2.2) builds).run (Db.apply p) db =
      (.ok (), { db with ghosts := builds.foldl (fun gs x =>
        gs.build p x.1 lobe x.2.1 x.2.2) db.ghosts }) := by
  induction builds generalizing db with
  | nil => rfl
  | cons x builds ih =>
    refine (Prog.run_bind ..).trans ?_
    rw [run_finalizeGhost]
    exact ih

namespace GhostStore

variable {gs : GhostStore}

lemma build_iterate_allocId {id : UInt16} {records : List (Record × Key)} (n : ℕ) :
    (allocId^[n] gs).build p id lobe spec records =
      allocId^[n] (gs.build p id lobe spec records) := by
  induction n generalizing gs with
  | zero => rfl
  | succ n ih => exact ih

/-- **Numbers first or one by one**: the ghosts are the same. -/
lemma foldl_build {specs : List GhostSpec} (records : GhostSpec → List (Record × Key)) :
    ((idsFrom gs.nextId specs).zip specs).foldl
        (fun gs x => gs.build p x.1 lobe x.2 (records x.2)) (allocId^[specs.length] gs) =
      gs.createAll p lobe records specs := by
  induction specs generalizing gs with
  | nil => rfl
  | cons spec specs ih =>
    have hbuild : (allocId^[specs.length + 1] gs).build p gs.nextId lobe spec (records spec) =
        allocId^[specs.length] (gs.create p lobe spec (records spec)) :=
      @build_iterate_allocId p lobe spec gs.allocId gs.nextId (records spec) specs.length
    rw [idsFrom, zip_cons_cons, foldl_cons, length_cons, hbuild]
    exact ih

end GhostStore

/-- **The batched creation**, when no name is in use. -/
lemma run_executeCreateGhostBatch {specs : List GhostSpec}
    (hlobe : db.catalog.lobes.get lobeName = some lobe)
    (hnew : ∀ spec ∈ specs, db.ghosts.containsGhost spec.name = false) :
    ∃ answer, (executeCreateGhostBatch p lobeName specs).run (Db.apply p) db =
      (.ok answer, db.createGhosts p lobeName lobe specs) := by
  have hfold := @GhostStore.foldl_build p lobe db.ghosts specs (db.buildRecords p lobeName lobe)
  obtain ⟨-, halloc⟩ := (run_allocAll (p := p) specs db).resolve_right <| by
    rintro ⟨fresh, s, rest, rfl, hused, -⟩
    rw [hnew s (mem_append_right _ mem_cons_self)] at hused
    cases hused
  rw [executeCreateGhostBatch, Prog.run_bind, run_lobeId hlobe]
  dsimp only
  rw [Prog.run_bind, halloc]
  dsimp only
  rw [Prog.run_bind, Prog.run_ask]
  dsimp only
  rw [Prog.run_bind, run_each_finalizeGhost, foldl_map]
  simp only [Db.buildRecords_ghosts]
  rw [hfold]
  exact ⟨_, rfl⟩

/-- Nothing is created on a lobe that is not there, or when the first name is in use. -/
lemma run_executeCreateGhostBatch_fails {specs : List GhostSpec}
    (h : ∀ lobe, db.catalog.lobes.get lobeName = some lobe →
      db.ghosts.containsGhost spec.name = true) :
    (executeCreateGhostBatch p lobeName (spec :: specs)).run (Db.apply p) db =
      (executeCreateGhost p lobeName spec).run (Db.apply p) db := by
  rw [executeCreateGhostBatch, run_executeCreateGhost, Prog.run_bind]
  cases hlobe : db.catalog.lobes.get lobeName with
  | none => rw [run_lobeId_missing hlobe]
  | some lobe =>
    have hfails : (allocAll (spec :: specs)).run (Db.apply p) db =
        (.error (.ghostExists spec.name), db) := by
      rw [allocAll, Prog.run_bind, Prog.run_ask]
      simp only [h lobe hlobe, if_true]
      rfl
    rw [run_lobeId hlobe]
    dsimp only
    rw [Prog.run_bind, hfails, if_pos (h lobe hlobe)]

/-- When a name behind the first is in use, nothing is created, but numbers are lost. -/
lemma run_executeCreateGhostBatch_refused {specs : List GhostSpec}
    (hlobe : db.catalog.lobes.get lobeName = some lobe)
    (hspec : db.ghosts.containsGhost spec.name = false)
    (hused : ∃ s ∈ specs, db.ghosts.containsGhost s.name = true) :
    ∃ e n, 0 < n ∧ n ≤ specs.length ∧
      (executeCreateGhostBatch p lobeName (spec :: specs)).run (Db.apply p) db =
        (.error e, { db with ghosts := GhostStore.allocId^[n] db.ghosts }) := by
  obtain ⟨s, hs, hname⟩ := hused
  rcases run_allocAll (p := p) (spec :: specs) db with
    ⟨hnew, -⟩ | ⟨fresh, x, rest, heq, hx, hrun⟩
  · cases (hnew s (mem_cons_of_mem _ hs)).symm.trans hname
  · cases fresh with
    | nil =>
      cases heq
      cases hspec.symm.trans hx
    | cons y fresh =>
      refine ⟨.ghostExists x.name, (y :: fresh).length, Nat.succ_pos _, ?_, ?_⟩
      · have hlen := congrArg length heq
        simp only [length_append, length_cons] at hlen ⊢
        omega
      · rw [executeCreateGhostBatch, Prog.run_bind, run_lobeId hlobe]
        dsimp only
        rw [Prog.run_bind, hrun]

/-! ### Names -/

namespace GhostStore

variable {gs : GhostStore} {name : Text}

lemma containsGhost_iff : gs.containsGhost name = true ↔
    ∃ (lobe : UInt16) (shard : ExtTreeMap Text GhostMeta),
      gs.shards[lobe]? = some shard ∧ shard.contains name = true := by
  rw [containsGhost, any_eq_true]
  constructor
  · rintro ⟨⟨lobe, shard⟩, hmem, hname⟩
    exact ⟨lobe, shard, ExtTreeMap.mem_toList_iff_getElem?_eq_some.mp hmem, hname⟩
  · rintro ⟨lobe, shard, hshard, hname⟩
    exact ⟨(lobe, shard), ExtTreeMap.mem_toList_iff_getElem?_eq_some.mpr hshard, hname⟩

/-- The ghosts of a lobe after a creation. -/
lemma shards_create {records : List (Record × Key)} : (gs.create p lobe spec records).shards =
    gs.shards.insert lobe ((gs.shards[lobe]?.getD ∅).insert spec.name
      (gs.built p gs.nextId lobe spec records)) := rfl

/-- A creation adds its name. -/
lemma containsGhost_create {records : List (Record × Key)} :
    (gs.create p lobe spec records).containsGhost name = true ↔
      gs.containsGhost name = true ∨ spec.name = name := by
  simp only [containsGhost_iff, shards_create, OrdMap.getElem?_insert]
  constructor
  · rintro ⟨lobe', shard, hshard, hname⟩
    split at hshard
    · cases hshard
      rw [ExtTreeMap.contains_insert, Bool.or_eq_true, beq_iff_eq,
        Std.LawfulEqOrd.compare_eq_iff_eq]
        at hname
      rcases hname with hname | hname
      · exact .inr hname
      · cases hold : gs.shards[lobe]? with
        | none => simp [hold] at hname
        | some shard => exact .inl ⟨lobe, shard, hold, by simpa [hold] using hname⟩
    · exact .inl ⟨lobe', shard, hshard, hname⟩
  · rintro (⟨lobe', shard, hshard, hname⟩ | rfl)
    · by_cases heq : lobe = lobe'
      · subst heq
        refine ⟨lobe, _, if_pos rfl, ?_⟩
        simp [ExtTreeMap.contains_insert, hshard, hname]
      · exact ⟨lobe', shard, by rw [if_neg heq, hshard], hname⟩
    · exact ⟨lobe, _, if_pos rfl, by simp⟩

/-- The number of the ghost that has a name in a lobe. -/
def idAt (gs : GhostStore) (lobe : UInt16) (name : Text) : Option UInt16 :=
  (gs.shards[lobe]?.bind (·[name]?)).map GhostMeta.ghostId

lemma containsGhost_of_idAt {id : UInt16} (h : gs.idAt lobe name = some id) :
    gs.containsGhost name = true := by
  obtain ⟨g, hg, -⟩ := Option.map_eq_some_iff.mp h
  obtain ⟨shard, hshard, hname⟩ := Option.bind_eq_some_iff.mp hg
  refine containsGhost_iff.mpr ⟨lobe, shard, hshard, ?_⟩
  rw [ExtTreeMap.contains_eq_isSome_getElem?, hname]
  rfl

lemma idAt_create {records : List (Record × Key)} {lobe' : UInt16} :
    (gs.create p lobe spec records).idAt lobe' name =
      if lobe = lobe' ∧ spec.name = name then some gs.nextId else gs.idAt lobe' name := by
  rw [idAt, shards_create, OrdMap.getElem?_insert]
  by_cases hlobe : lobe = lobe'
  · subst hlobe
    rw [if_pos rfl, Option.bind_some, OrdMap.getElem?_insert]
    by_cases hname : spec.name = name
    · rw [if_pos hname, if_pos ⟨rfl, hname⟩]
      rfl
    · rw [if_neg hname, if_neg fun h => hname h.2, idAt]
      cases gs.shards[lobe]? with
      | none => simp
      | some shard => rfl
  · rw [if_neg hlobe, if_neg fun h => hlobe h.1, idAt]

/-- At most `n` numbers are given out, and the ghosts that are new have them. -/
structure Grew (n : ℕ) (gs gs' : GhostStore) : Prop where
  le : gs.nextId.toNat ≤ gs'.nextId.toNat
  bound : gs'.nextId.toNat ≤ gs.nextId.toNat + n
  ids : ∀ lobe name, gs'.idAt lobe name = gs.idAt lobe name ∨
    ∃ id, gs'.idAt lobe name = some id ∧ gs.nextId.toNat ≤ id.toNat

namespace Grew

lemma refl (n : ℕ) (gs : GhostStore) : Grew n gs gs :=
  ⟨le_rfl, Nat.le_add_right _ _, fun _ _ => .inl rfl⟩

lemma trans {n k : ℕ} {gs₁ gs₂ : GhostStore} (h : Grew n gs gs₁) (h' : Grew k gs₁ gs₂) :
    Grew (n + k) gs gs₂ := by
  refine ⟨h.le.trans h'.le, ?_, fun lobe name => ?_⟩
  · have h₁ := h.bound
    have h₂ := h'.bound
    omega
  · rcases h'.ids lobe name with heq | ⟨id, hid, hle⟩
    · rw [heq]
      exact h.ids lobe name
    · exact .inr ⟨id, hid, h.le.trans hle⟩

end Grew

lemma nextId_allocId (hroom : gs.nextId.toNat + 1 < 2 ^ 16) :
    gs.allocId.nextId.toNat = gs.nextId.toNat + 1 :=
  (UInt16.toNat_add ..).trans (Nat.mod_eq_of_lt hroom)

lemma grew_create {records : List (Record × Key)} (hroom : gs.nextId.toNat + 1 < 2 ^ 16) :
    Grew 1 gs (gs.create p lobe spec records) := by
  refine ⟨(Nat.le_succ _).trans (nextId_allocId hroom).ge, (nextId_allocId hroom).le,
    fun lobe' name => ?_⟩
  rw [idAt_create]
  split
  · exact .inr ⟨_, rfl, le_rfl⟩
  · exact .inl rfl

/-- New ghosts have numbers of their own. -/
lemma createAll_spec (records : GhostSpec → List (Record × Key)) {specs : List GhostSpec}
    (hroom : gs.nextId.toNat + specs.length < 2 ^ 16) :
    Grew specs.length gs (gs.createAll p lobe records specs) ∧
      ∀ s ∈ specs, ∃ id, (gs.createAll p lobe records specs).idAt lobe s.name = some id ∧
        gs.nextId.toNat ≤ id.toNat := by
  induction specs generalizing gs with
  | nil => exact ⟨.refl 0 gs, nofun⟩
  | cons s specs ih =>
    rw [length_cons] at hroom ⊢
    have hfirst : gs.nextId.toNat + 1 < 2 ^ 16 := by omega
    have hnext : (gs.create p lobe s (records s)).nextId.toNat = gs.nextId.toNat + 1 :=
      nextId_allocId hfirst
    obtain ⟨hgrew, hown⟩ := @ih (gs.create p lobe s (records s)) (by omega)
    rw [Nat.add_comm]
    refine ⟨(grew_create hfirst).trans hgrew, forall_mem_cons.mpr ⟨?_, fun s' hs' => ?_⟩⟩
    · rcases hgrew.ids lobe s.name with heq | ⟨id, hid, hle⟩
      · refine ⟨gs.nextId, heq.trans ?_, le_rfl⟩
        rw [idAt_create, if_pos ⟨rfl, rfl⟩]
      · exact ⟨id, hid, by omega⟩
    · obtain ⟨id, hid, hle⟩ := hown s' hs'
      exact ⟨id, hid, by omega⟩

lemma nextId_iterate_allocId {n : ℕ} (hroom : gs.nextId.toNat + n < 2 ^ 16) :
    (allocId^[n] gs).nextId.toNat = gs.nextId.toNat + n := by
  induction n generalizing gs with
  | zero => rfl
  | succ n ih =>
    have hnext := @nextId_allocId gs (by omega)
    rw [Function.iterate_succ_apply, ih (by omega), hnext]
    omega

lemma idAt_iterate_allocId (n : ℕ) : (allocId^[n] gs).idAt lobe name = gs.idAt lobe name := by
  induction n generalizing gs with
  | zero => rfl
  | succ n ih => exact ih

lemma grew_iterate_allocId {n k : ℕ} (hn : n ≤ k) (hroom : gs.nextId.toNat + k < 2 ^ 16) :
    Grew k gs (allocId^[n] gs) := by
  have hnext := @nextId_iterate_allocId gs n (by omega)
  exact ⟨by omega, by omega, fun _ _ => .inl (idAt_iterate_allocId n)⟩

end GhostStore

/-! ### Builds and writes keep to their own keys -/

/-- The keys of the entries of ghosts with some numbers. -/
def entryKeys (ids : Set UInt16) : Set Key := { k | ∃ id ∈ ids, beBytes id <+: k }

/-- The keys of the rollups of ghosts with some numbers. -/
def rollupKeys (ids : Set UInt16) : Set Key :=
  { k | ∃ id ∈ ids, 0xFF :: 0xF9 :: beBytes id <+: k }

/-- A change of the keyspaces that reads and writes the keys of some ghosts only. -/
def LocalDisk (ids : Set UInt16) (F : GhostDisk → GhostDisk) : Prop :=
  ∃ E R, LocalOn (entryKeys ids) E ∧ LocalOn (rollupKeys ids) R ∧
    ∀ disk : GhostDisk, F disk = ⟨E disk.entries, R disk.rollups⟩

/-- A change of the rollups of one ghost, with a result that does not depend on them. -/
def Rolls {ρ : Type} (id : UInt16) (f : Rollups → ρ × Rollups) : Prop :=
  ∃ res R, LocalOn (rollupKeys {id}) R ∧ ∀ rollups, f rollups = (res, R rollups)

lemma beBytes_prefix_inj {id id' : UInt16} {k : Key} (h : beBytes id <+: k)
    (h' : beBytes id' <+: k) : id = id' := by
  obtain ⟨rest, rfl⟩ := h
  obtain ⟨rest', heq⟩ := h'
  simpa using congrArg keyLobe heq.symm

namespace LocalDisk

variable {ids ids' : Set UInt16} {F G : GhostDisk → GhostDisk}

lemma id : LocalDisk ids fun disk => disk := ⟨_, _, .id, .id, fun _ => rfl⟩

lemma comp (hF : LocalDisk ids F) (hG : LocalDisk ids G) :
    LocalDisk ids fun disk => F (G disk) := by
  obtain ⟨E, R, hE, hR, hF⟩ := hF
  obtain ⟨E', R', hE', hR', hG⟩ := hG
  exact ⟨_, _, hE.comp hE', hR.comp hR', fun disk => by dsimp only; rw [hF, hG]⟩

lemma mono (hF : LocalDisk ids F) (h : ids ⊆ ids') : LocalDisk ids' F := by
  obtain ⟨E, R, hE, hR, hF⟩ := hF
  exact ⟨E, R, hE.mono fun k ⟨id, hid, hk⟩ => ⟨id, h hid, hk⟩,
    hR.mono fun k ⟨id, hid, hk⟩ => ⟨id, h hid, hk⟩, hF⟩

/-- Changes of different ghosts commute. -/
lemma commute (hF : LocalDisk ids F) (hG : LocalDisk ids' G) (h : Disjoint ids ids')
    (disk : GhostDisk) : F (G disk) = G (F disk) := by
  obtain ⟨E, R, hE, hR, hF⟩ := hF
  obtain ⟨E', R', hE', hR', hG⟩ := hG
  have hentries : Disjoint (entryKeys ids) (entryKeys ids') := Set.disjoint_left.mpr
    fun k ⟨id, hid, hk⟩ ⟨id', hid', hk'⟩ =>
      Set.disjoint_left.mp h hid (beBytes_prefix_inj hk hk' ▸ hid')
  have hrollups : Disjoint (rollupKeys ids) (rollupKeys ids') := Set.disjoint_left.mpr
    fun k ⟨id, hid, hk⟩ ⟨id', hid', hk'⟩ => by
      obtain ⟨rest, rfl⟩ := hk
      rw [cons_append, cons_append, cons_prefix_cons, cons_prefix_cons] at hk'
      exact Set.disjoint_left.mp h hid (beBytes_prefix_inj (prefix_append _ _) hk'.2.2 ▸ hid')
  rw [hF, hG, hG, hF]
  dsimp only
  rw [hE.commute hE' hentries, hR.commute hR' hrollups]

end LocalDisk

namespace Rolls

variable {id : UInt16}

lemma pure {ρ : Type} (res : ρ) : Rolls id fun rollups => (res, rollups) :=
  ⟨res, _, .id, fun _ => rfl⟩

lemma of_local {ρ : Type} {R : Rollups → Rollups} (hR : LocalOn (rollupKeys {id}) R) (res : ρ) :
    Rolls id fun rollups => (res, R rollups) :=
  ⟨res, R, hR, fun _ => rfl⟩

lemma ite {ρ : Type} {b : Prop} [Decidable b] {f g : Rollups → ρ × Rollups} (hf : Rolls id f)
    (hg : Rolls id g) : Rolls id fun rollups => if b then f rollups else g rollups := by
  split
  · exact hf
  · exact hg

end Rolls

lemma rollupKey_mem (id : UInt16) (groupKey : Text) : rollupKey id groupKey ∈ rollupKeys {id} :=
  ⟨id, rfl, by simp [rollupKey]⟩

lemma localOn_rollupAppend (id : UInt16) (groupKey : Text) (delta : RollupDelta) :
    LocalOn (rollupKeys {id}) fun rollups => rollupAppend id rollups groupKey delta :=
  .modify (rollupKey_mem id groupKey) fun old => delta :: old.getD []

lemma localOn_spill (id : UInt16) (groups : ExtTreeMap Text AggregateState) :
    LocalOn (rollupKeys {id}) fun rollups => spill id groups rollups :=
  .foldl fun _ _ => localOn_rollupAppend ..

section

variable {id : UInt16} {specs : List Metric} {groupFields : List Text}

lemma rolls_groupInsert (limit : ℕ) (res : Residency) (r : Record) :
    Rolls id fun rollups => groupInsert p limit id specs groupFields res rollups r := by
  cases res with
  | spilled => exact .of_local (localOn_rollupAppend ..) _
  | inRam groups => exact .ite (.of_local (localOn_spill ..) _) (.pure _)

lemma rolls_groupRemove (res : Residency) (r : Record) :
    Rolls id fun rollups => groupRemove p id specs groupFields res rollups r := by
  cases res with
  | spilled => exact .of_local (localOn_rollupAppend ..) _
  | inRam groups =>
    simp only [groupRemove]
    split
    · exact .pure _
    · exact .ite (.pure _) (.pure _)

lemma rolls_groupUpdate (res : Residency) (old new : Record) :
    Rolls id fun rollups => groupUpdate p id specs groupFields res rollups old new := by
  cases res with
  | spilled =>
    exact .ite (.of_local (localOn_rollupAppend ..) _)
      (.of_local ((localOn_rollupAppend ..).comp (localOn_rollupAppend ..)) _)
  | inRam groups =>
    simp only [groupUpdate]
    refine .ite ?_ (.pure _)
    split
    · exact .pure _
    · exact .pure _

end

/-- The aggregates of a ghost change with the rollups of the ghost. -/
lemma rolls_changeAggregates {g : GhostMeta} {skip : Bool}
    {f : AggregateContent → AggregateState → AggregateState}
    {h : AggregateContent → Residency → Rollups → Residency × Rollups}
    (hh : ∀ agg, Rolls g.ghostId fun rollups => h agg agg.residency rollups) :
    ∃ g' R, g'.name = g.name ∧ g'.ghostId = g.ghostId ∧ LocalOn (rollupKeys {g.ghostId}) R ∧
      ∀ rollups, g.changeAggregates skip rollups (fun agg => agg.change rollups (f agg) (h agg)) =
        (g', R rollups) := by
  cases hagg : g.aggregate with
  | none => exact ⟨g, _, rfl, rfl, .id, fun _ => by rw [GhostMeta.changeAggregates, hagg]⟩
  | some agg =>
    cases skip with
    | true => exact ⟨g, _, rfl, rfl, .id, fun _ => by rw [GhostMeta.changeAggregates, hagg]; rfl⟩
    | false =>
      by_cases hgroups : agg.groupFields = []
      · refine ⟨{ g with aggregate := some { agg with
          globalAggregates := f agg agg.globalAggregates } }, _, rfl, rfl, .id, fun _ => ?_⟩
        rw [GhostMeta.changeAggregates, hagg]
        simp only [AggregateContent.change, hgroups, if_true, Bool.false_eq_true, if_false]
      · obtain ⟨res, R, hR, hres⟩ := hh agg
        refine ⟨{ g with aggregate := some { agg with
          globalAggregates := f agg agg.globalAggregates, residency := res } }, R, rfl, rfl, hR,
            fun rollups => ?_⟩
        rw [GhostMeta.changeAggregates, hagg]
        simp only [AggregateContent.change, hgroups, hres, Bool.false_eq_true, if_false]

lemma entryKey_mem (p : Platform) (g : GhostMeta) (r : Record) (key : Key) :
    g.entryKey p r key ∈ entryKeys {g.ghostId} :=
  ⟨g.ghostId, rfl, prefix_append _ _⟩

/-- A ghost changes, and its own keys with it; what becomes of it does not depend on the
keyspaces. -/
def ChangesOwn (g : GhostMeta) (f : GhostDisk → GhostMeta × GhostDisk) : Prop :=
  ∃ g' F, (g'.name = g.name ∧ g'.ghostId = g.ghostId) ∧ LocalDisk {g.ghostId} F ∧
    ∀ disk, f disk = (g', F disk)

section

variable (skip : Bool) (g : GhostMeta) (r : Record) (key : Key)

lemma changesOwn_stay : ChangesOwn g fun disk => (g, disk) :=
  ⟨g, _, ⟨rfl, rfl⟩, .id, fun _ => rfl⟩

lemma changesOwn_insert (limit : ℕ) :
    ChangesOwn g fun disk => ghostInsertInner p limit skip disk g r key := by
  obtain ⟨g', R, hname, hid, hR, hg'⟩ := @rolls_changeAggregates
    { g with indexCount := g.indexCount + 1 } skip (fun agg s => s.add p r agg.aggregateSpecs)
    (fun agg res rollups =>
      groupInsert p limit g.ghostId agg.aggregateSpecs agg.groupFields res rollups r)
    fun agg => rolls_groupInsert limit agg.residency r
  exact ⟨g', _, ⟨hname, hid⟩,
    ⟨_, R, .insert (entryKey_mem p g r key) (g.entryValue p r key), hR, fun _ => rfl⟩,
    fun disk => by simp only [ghostInsertInner, hg']⟩

lemma changesOwn_remove : ChangesOwn g fun disk => ghostRemoveInner p skip disk g r key := by
  obtain ⟨g', R, hname, hid, hR, hg'⟩ := @rolls_changeAggregates
    { g with indexCount := g.indexCount - 1 } skip (fun agg s => s.subtract p r agg.aggregateSpecs)
    (fun agg res rollups =>
      groupRemove p g.ghostId agg.aggregateSpecs agg.groupFields res rollups r)
    fun agg => rolls_groupRemove agg.residency r
  exact ⟨g', _, ⟨hname, hid⟩, ⟨_, R, .erase (entryKey_mem p g r key), hR, fun _ => rfl⟩,
    fun disk => by simp only [ghostRemoveInner, hg']⟩

lemma changesOwn_update (old : Record) (oldKey : Key) :
    ChangesOwn g fun disk => ghostUpdateInner p skip disk g old r oldKey key := by
  obtain ⟨g', R, hname, hid, hR, hg'⟩ := @rolls_changeAggregates g skip
    (fun agg s => (s.subtract p old agg.aggregateSpecs).add p r agg.aggregateSpecs)
    (fun agg res rollups =>
      groupUpdate p g.ghostId agg.aggregateSpecs agg.groupFields res rollups old r)
    fun agg => rolls_groupUpdate agg.residency old r
  have hnew : LocalOn (entryKeys {g.ghostId}) fun m : ExtTreeMap Key (List UInt8) =>
      m.insert (g.entryKey p r key) (g.entryValue p r key) := .insert (entryKey_mem p g r key) _
  by_cases hkeys : g.entryKey p r key ≠ g.entryKey p old oldKey
  · exact ⟨g', _, ⟨hname, hid⟩,
      ⟨_, R, LocalOn.comp (.erase (entryKey_mem p g old oldKey)) hnew, hR, fun _ => rfl⟩,
      fun disk => by simp only [ghostUpdateInner, hg', if_pos hkeys]⟩
  · exact ⟨g', _, ⟨hname, hid⟩, ⟨_, R, hnew, hR, fun _ => rfl⟩,
      fun disk => by simp only [ghostUpdateInner, hg', if_neg hkeys]⟩

/-- **A ghost that is told of a write** changes its own keys only. -/
lemma changesOwn_notify (limit : ℕ) (w : WriteType) :
    ChangesOwn g fun disk => g.notify p limit skip disk r key w := by
  cases w with
  | insert =>
    simp only [GhostMeta.notify]
    split
    · exact changesOwn_insert skip g r key limit
    · exact changesOwn_stay g
  | delete =>
    simp only [GhostMeta.notify]
    split
    · exact changesOwn_remove skip g r key
    · exact changesOwn_stay g
  | update old oldKey =>
    simp only [GhostMeta.notify]
    split
    · exact changesOwn_stay g
    · exact changesOwn_insert skip g r key limit
    · exact changesOwn_remove skip g old oldKey
    · exact changesOwn_update skip g r key old oldKey

end

/-- A ghost is filed under its name, and has a number below some bound. -/
def FiledBelow (next : UInt16) (shard : ExtTreeMap Text GhostMeta) : Prop :=
  ∀ (name : Text) g, shard[name]? = some g → g.name = name ∧ g.ghostId < next

/-- The ghosts of a lobe are told of a write one after the other. -/
lemma foldl_notifyOne (limit : ℕ) (skip : Bool) (r : Record) (key : Key) (w : WriteType)
    {next : UInt16} {l : List GhostMeta} (hids : ∀ g ∈ l, g.ghostId < next) :
    ∃ (H : ExtTreeMap Text GhostMeta → ExtTreeMap Text GhostMeta) (F : GhostDisk → GhostDisk),
      LocalDisk { id | id < next } F ∧
        (∀ shard, FiledBelow next shard → (∀ g ∈ l, shard.contains g.name = true) →
          FiledBelow next (H shard) ∧ ∀ name, (H shard).contains name = shard.contains name) ∧
        ∀ shard disk, l.foldl (notifyOne p limit skip r key w) (shard, disk) =
          (H shard, F disk) := by
  induction l with
  | nil => exact ⟨_, _, .id, fun _ hfiled _ => ⟨hfiled, fun _ => rfl⟩, fun _ _ => rfl⟩
  | cons g l ih =>
    obtain ⟨hg, hl⟩ := forall_mem_cons.mp hids
    obtain ⟨H, F, hF, hshards, hfold⟩ := ih hl
    by_cases hpaused : g.paused = true
    · refine ⟨H, F, hF, fun shard hfiled hall => hshards shard hfiled (forall_mem_cons.mp hall).2,
        fun shard disk => ?_⟩
      rw [foldl_cons, notifyOne, if_pos hpaused, hfold]
    · obtain ⟨g', F', ⟨hname, hid⟩, hF', hnotify⟩ :=
        changesOwn_notify (p := p) skip g r key limit w
      refine ⟨fun shard => H (shard.insert g.name g'), fun disk => F (F' disk),
        hF.comp (hF'.mono (Set.singleton_subset_iff.mpr hg)), fun shard hfiled hall => ?_,
        fun shard disk => ?_⟩
      · -- the changed ghost takes the place of the old one
        obtain ⟨hthis, hrest⟩ := forall_mem_cons.mp hall
        have hcontains : ∀ name, (shard.insert g.name g').contains name = shard.contains name := by
          intro name
          rw [ExtTreeMap.contains_insert, Bool.or_eq_right_iff_imp]
          intro heq
          rwa [← Std.LawfulEqOrd.eq_of_compare (eq_of_beq heq)]
        have hfiled' : FiledBelow next (shard.insert g.name g') := by
          intro name g'' hg''
          rw [OrdMap.getElem?_insert] at hg''
          split at hg''
          · next heq =>
            cases hg''
            exact ⟨hname.trans heq, hid ▸ hg⟩
          · exact hfiled name g'' hg''
        obtain ⟨hfiledH, hnames⟩ := hshards _ hfiled' fun g hg =>
          (hcontains g.name).trans (hrest g hg)
        exact ⟨hfiledH, fun name => (hnames name).trans (hcontains name)⟩
      · rw [foldl_cons, notifyOne, if_neg hpaused]
        simp only [hnotify, hfold]

namespace GhostStore

variable {gs : GhostStore}

/-- Every ghost is filed under its name, and the numbers are below the next one. -/
def Numbered (gs : GhostStore) : Prop :=
  ∀ (lobe : UInt16) shard, gs.shards[lobe]? = some shard → FiledBelow gs.nextId shard

section

variable {other : UInt16} (r : Record) (key : Key) (w : WriteType)

lemma notifyWrite_of_none (h : gs.shards[other]? = none) :
    gs.notifyWrite p other r key w = gs := by
  rw [notifyWrite, h]

/-- What a write does to the ghosts of its lobe, and to their keys. -/
lemma exists_notifyWrite (hn : gs.Numbered) {shard : ExtTreeMap Text GhostMeta}
    (hshard : gs.shards[other]? = some shard) :
    ∃ (shard' : ExtTreeMap Text GhostMeta) (F : GhostDisk → GhostDisk),
      LocalDisk { id | id < gs.nextId } F ∧ FiledBelow gs.nextId shard' ∧
        (∀ name, shard'.contains name = shard.contains name) ∧
        ∀ gs' : GhostStore, gs'.shards[other]? = some shard → gs'.spillLimit = gs.spillLimit →
          gs'.bulkMode = gs.bulkMode → gs'.notifyWrite p other r key w =
            { gs' with shards := gs'.shards.insert other shard', disk := F gs'.disk } := by
  have hfiled := hn other shard hshard
  have hmem : ∀ g ∈ shard.toList.map Prod.snd, ∃ name : Text, shard[name]? = some g := by
    intro g hg
    obtain ⟨⟨name, g⟩, hmem, rfl⟩ := mem_map.mp hg
    exact ⟨name, ExtTreeMap.mem_toList_iff_getElem?_eq_some.mp hmem⟩
  obtain ⟨H, F, hF, hshards, hfold⟩ := @foldl_notifyOne p gs.spillLimit gs.bulkMode r key w
    gs.nextId (shard.toList.map Prod.snd) fun g hg => by
      obtain ⟨name, hname⟩ := hmem g hg
      exact (hfiled name g hname).2
  obtain ⟨hfiled', hnames⟩ := hshards shard hfiled fun g hg => by
    obtain ⟨name, hname⟩ := hmem g hg
    rw [(hfiled name g hname).1, ExtTreeMap.contains_eq_isSome_getElem?, hname]
    rfl
  refine ⟨H shard, F, hF, hfiled', hnames, fun gs' hshard' hlimit hbulk => ?_⟩
  rw [notifyWrite, hshard']
  simp only [hlimit, hbulk, hfold]

/-- A write adds and removes no ghost. -/
lemma containsGhost_notifyWrite (hn : gs.Numbered) (name : Text) :
    (gs.notifyWrite p other r key w).containsGhost name = gs.containsGhost name := by
  cases hshard : gs.shards[other]? with
  | none => rw [notifyWrite_of_none r key w hshard]
  | some shard =>
    obtain ⟨shard', F, -, -, hnames, heq⟩ := exists_notifyWrite (p := p) r key w hn hshard
    rw [heq gs hshard rfl rfl, Bool.eq_iff_iff]
    simp only [containsGhost_iff, OrdMap.getElem?_insert]
    constructor
    · rintro ⟨lobe, shard'', hlobe, hname⟩
      split at hlobe
      · cases hlobe
        exact ⟨other, shard, hshard, (hnames name).symm.trans hname⟩
      · exact ⟨lobe, shard'', hlobe, hname⟩
    · rintro ⟨lobe, shard'', hlobe, hname⟩
      by_cases hother : other = lobe
      · subst hother
        cases hshard.symm.trans hlobe
        exact ⟨other, shard', if_pos rfl, (hnames name).trans hname⟩
      · exact ⟨lobe, shard'', by rw [if_neg hother, hlobe], hname⟩

lemma Numbered.notifyWrite (hn : gs.Numbered) :
    (gs.notifyWrite p other r key w).Numbered := by
  cases hshard : gs.shards[other]? with
  | none => rwa [notifyWrite_of_none r key w hshard]
  | some shard =>
    obtain ⟨shard', F, -, hfiled, -, heq⟩ := exists_notifyWrite (p := p) r key w hn hshard
    rw [heq gs hshard rfl rfl]
    intro lobe shard'' hlobe
    dsimp only at hlobe ⊢
    rw [OrdMap.getElem?_insert] at hlobe
    split at hlobe
    · cases hlobe
      exact hfiled
    · exact hn lobe shard'' hlobe

end

end GhostStore

/-- The groups of a build do not depend on the rollups. -/
lemma rolls_foldl_buildGroup (limit : ℕ) (id : UInt16) (spec : GhostSpec)
    (records : List (Record × Key)) (groups : ExtTreeMap Text AggregateState) (spilled : Bool) :
    ∃ groups' spilled' R, LocalOn (rollupKeys {id}) R ∧
      ∀ rollups, records.foldl (buildGroup p limit id spec) (groups, spilled, rollups) =
        (groups', spilled', R rollups) := by
  induction records generalizing groups spilled with
  | nil => exact ⟨groups, spilled, _, .id, fun _ => rfl⟩
  | cons x records ih =>
    simp only [foldl_cons, buildGroup]
    split
    · obtain ⟨groups', spilled', R, hR, heq⟩ := ih ∅ true
      exact ⟨groups', spilled', _, hR.comp (localOn_spill ..), fun rollups => heq _⟩
    · exact ih _ _

lemma rolls_buildAggregate (limit : ℕ) (id : UInt16) (spec : GhostSpec)
    (records : List (Record × Key)) :
    Rolls id fun rollups => buildAggregate p limit id spec records rollups := by
  obtain ⟨groups, spilled, R, hR, heq⟩ :=
    rolls_foldl_buildGroup (p := p) limit id spec records ∅ false
  simp only [buildAggregate, heq]
  refine .ite (.pure _) (.ite (.pure _) (.ite ?_ ?_))
  · exact .of_local ((localOn_spill ..).comp hR) _
  · exact .of_local hR _

lemma localOn_buildEntries (id : UInt16) (spec : GhostSpec) (records : List (Record × Key)) :
    LocalOn (entryKeys {id}) fun entries => records.foldl (buildEntry p spec id) entries := by
  refine .foldl fun x _ => ?_
  have hkey : encodeSortKey id (getSortValue x.1 spec.orderByField) spec.sortInverted
      (ghostEntryTiebreak p spec.groupFields x.1.fields x.2) ∈ entryKeys {id} :=
    ⟨id, rfl, prefix_append _ _⟩
  exact .insert hkey _

namespace GhostStore

variable {gs : GhostStore}

/-- **A build changes the keys of its number only**, and what it makes of the records does not
depend on the keyspaces. -/
lemma exists_create (lobe : UInt16) (spec : GhostSpec) (limit : ℕ) (id : UInt16)
    (records : List (Record × Key)) :
    ∃ (g : GhostMeta) (F : GhostDisk → GhostDisk), g.name = spec.name ∧ g.ghostId = id ∧
      LocalDisk {id} F ∧ ∀ gs : GhostStore, gs.spillLimit = limit → gs.nextId = id →
        gs.create p lobe spec records =
          { gs with
            shards := gs.shards.insert lobe ((gs.shards[lobe]?.getD ∅).insert spec.name g)
            disk := F gs.disk
            nextId := id + 1 } := by
  obtain ⟨agg, R, hR, heq⟩ := rolls_buildAggregate (p := p) limit id spec records
  refine ⟨{ spec.initial id lobe with aggregate := agg, indexCount := records.length }, _, rfl, rfl,
    ⟨_, R, localOn_buildEntries (p := p) id spec records, hR, fun _ => rfl⟩, ?_⟩
  rintro gs rfl rfl
  simp only [create, build, ingest, built, insertGhost, allocId, heq]
  rfl

/-- **A ghost that is there while another lobe is written** is the ghost that is built after the
write. -/
theorem create_notifyWrite (hn : gs.Numbered) {other : UInt16} (hne : other ≠ lobe) (r : Record)
    (key : Key) (w : WriteType) (records : List (Record × Key)) :
    (gs.create p lobe spec records).notifyWrite p other r key w =
      (gs.notifyWrite p other r key w).create p lobe spec records := by
  obtain ⟨g, B, -, -, hB, hcreate⟩ :=
    exists_create (p := p) lobe spec gs.spillLimit gs.nextId records
  have hshard' : (gs.create p lobe spec records).shards[other]? = gs.shards[other]? := by
    rw [shards_create, OrdMap.getElem?_insert, if_neg hne.symm]
  cases hshard : gs.shards[other]? with
  | none =>
    rw [notifyWrite_of_none r key w hshard, notifyWrite_of_none r key w (hshard'.trans hshard)]
  | some shard =>
    obtain ⟨shard', F, hF, -, -, heq⟩ := exists_notifyWrite (p := p) r key w hn hshard
    have hdisjoint : Disjoint {gs.nextId} { id | id < gs.nextId } :=
      Set.disjoint_singleton_left.mpr (UInt16.lt_irrefl gs.nextId)
    have hlobe : (gs.shards.insert other shard')[lobe]? = gs.shards[lobe]? := by
      rw [OrdMap.getElem?_insert, if_neg hne]
    have hleft := heq _ (hshard'.trans hshard) rfl rfl
    have hright := hcreate { gs with shards := gs.shards.insert other shard', disk := F gs.disk }
      rfl rfl
    rw [hcreate gs rfl rfl] at hleft ⊢
    rw [hleft, heq gs hshard rfl rfl, hright]
    dsimp only
    rw [hlobe, hB.commute hF hdisjoint]
    congr 1
    refine ExtTreeMap.ext_getElem? fun k => ?_
    simp only [OrdMap.getElem?_insert]
    split_ifs with h h' <;> first | rfl | exact absurd (h.trans h'.symm) hne

lemma numbered_empty (spillLimit : ℕ) : (empty spillLimit).Numbered := by
  intro lobe shard h
  simp [empty] at h

/-- A creation keeps the numbers below the next one, as long as this does not wrap around. -/
lemma Numbered.create (hn : gs.Numbered) (hroom : gs.nextId < gs.nextId + 1)
    (records : List (Record × Key)) : (gs.create p lobe spec records).Numbered := by
  have hmono : ∀ {shard : ExtTreeMap Text GhostMeta}, FiledBelow gs.nextId shard →
      FiledBelow (gs.nextId + 1) shard := fun h name g hg =>
    ⟨(h name g hg).1, UInt16.lt_trans (h name g hg).2 hroom⟩
  intro lobe' shard hshard
  rw [shards_create, OrdMap.getElem?_insert] at hshard
  split at hshard
  · cases hshard
    intro name g hg
    rw [OrdMap.getElem?_insert] at hg
    split at hg
    · next hname =>
      cases hg
      exact ⟨hname, hroom⟩
    · cases hold : gs.shards[lobe]? with
      | none => simp [hold] at hg
      | some shard => exact hmono (hn lobe shard hold) name g (by simpa [hold] using hg)
  · exact hmono (hn lobe' shard hshard)

/-- A write as the ghosts are told of it: its lobe, the record and its key. -/
abbrev Notice := UInt16 × Record × Key × WriteType

/-- The ghosts are told of some writes. -/
def notifyAll (p : Platform) (gs : GhostStore) (writes : List Notice) : GhostStore :=
  writes.foldl (fun gs x => gs.notifyWrite p x.1 x.2.1 x.2.2.1 x.2.2.2) gs

lemma containsGhost_notifyAll (hn : gs.Numbered) (writes : List Notice) (name : Text) :
    (gs.notifyAll p writes).containsGhost name = gs.containsGhost name := by
  induction writes generalizing gs with
  | nil => rfl
  | cons x writes ih =>
    exact (ih (hn.notifyWrite _ _ _)).trans (containsGhost_notifyWrite _ _ _ hn name)

/-- Writes to other lobes, one after the other. -/
theorem create_notifyAll (hn : gs.Numbered) {writes : List Notice} (hne : ∀ x ∈ writes, x.1 ≠ lobe)
    (records : List (Record × Key)) :
    (gs.create p lobe spec records).notifyAll p writes =
      (gs.notifyAll p writes).create p lobe spec records := by
  induction writes generalizing gs with
  | nil => rfl
  | cons x writes ih =>
    obtain ⟨hx, hwrites⟩ := forall_mem_cons.mp hne
    rw [notifyAll, foldl_cons, create_notifyWrite hn hx]
    exact ih (hn.notifyWrite _ _ _) hwrites

end GhostStore

end

end XyzDB.Engine
