import XyzDB.Engine.GhostBuilds

/-!
# Requests of several statements

`execute_batch` does not run the statements of a request in their order: it takes out COMPACT
and the CREATE GHOSTs, runs the others, then one COMPACT, and then the CREATE GHOSTs, lobe by
lobe in the order of the lobes' names, several of one lobe in a single scan.

A CREATE GHOST is moved behind the statements that follow it. That makes no difference
(`request_in_order`) when these do the same with and without the ghost, and leave it as it is when
it is built after them (`Movable`), which is so for all that happens elsewhere (`Elsewhere.passed`).
The CREATE GHOSTs themselves have to stand in the order of their lobes, since they take their
numbers in that order, and of several on one lobe only the first can fail (`Batchable`).
-/

namespace XyzDB.Engine

open List

/-- What a statement answers, and the store after it. -/
abbrev Reply := Prog.Outcome XyzError QueryResult × Db

/-- The statements of a request, as `execute_batch` tells them apart. -/
inductive Request where
  | createGhost (lobe : Text) (spec : GhostSpec)
  | compact
  /-- Any other statement, as what it does to a store. -/
  | other (run : Db → Reply)

/-- Go on after a statement that did not fail. -/
def Reply.andThen : Reply → (QueryResult → Db → Reply) → Reply
  | (.ok r, db), f => f r db
  | (.error e, db), _ => (.error e, db)
  | (.blocked, db), _ => (.blocked, db)

/-- The store after a reply, and whether it is an error. The text of the answer is left out: of a
request only one answer is returned. -/
def Reply.outcome : Reply → Prog.Outcome XyzError Unit × Db
  | (.ok _, db) => (.ok (), db)
  | (.error e, db) => (.error e, db)
  | (.blocked, db) => (.blocked, db)

/-- One after the other, up to the first that fails; the answer is that of the last. -/
def runAll {α : Type} (run : α → Db → Reply) (last : QueryResult) : List α → Db → Reply
  | [], db => (.ok last, db)
  | x :: xs, db => (run x db).andThen fun r db' => runAll run r xs db'

section

variable (p : Platform)

/-- CREATE GHOST as what it does to a store. -/
def runCreateGhost (g : Text × GhostSpec) : Db → Reply :=
  (executeCreateGhost p g.1 g.2).run (Db.apply p)

variable (compact : Db → Reply)

/-- One statement; `compact` is what COMPACT does. -/
def Request.run : Request → Db → Reply
  | .createGhost lobe spec => runCreateGhost p (lobe, spec)
  | .compact => compact
  | .other run => run

/-- `ghost_stmts`, ascending by lobe. -/
def addGhost (lobe : Text) (spec : GhostSpec) :
    List (Text × List GhostSpec) → List (Text × List GhostSpec)
  | [] => [(lobe, [spec])]
  | (l, specs) :: rest =>
    if lobe = l then (l, specs ++ [spec]) :: rest
    else if lobe < l then (lobe, [spec]) :: (l, specs) :: rest
    else (l, specs) :: addGhost lobe spec rest

/-- What runs for one lobe. -/
def runGhosts : Text × List GhostSpec → Db → Reply
  | (lobe, [spec]) => runCreateGhost p (lobe, spec)
  | (lobe, specs) => (executeCreateGhostBatch p lobe specs).run (Db.apply p)

def Request.other? : Request → Option (Db → Reply)
  | .other run => some run
  | _ => none

def Request.ghost? : Request → Option (Text × GhostSpec)
  | .createGhost lobe spec => some (lobe, spec)
  | _ => none

def Request.isCompact : Request → Bool
  | .compact => true
  | _ => false

/-- The answer when there is nothing to run. -/
def noResult : QueryResult := .ok none []

/-- `ghost_stmts` of a list of CREATE GHOSTs. -/
def groupGhosts (ghosts : List (Text × GhostSpec)) : List (Text × List GhostSpec) :=
  ghosts.foldl (fun m g => addGhost g.1 g.2 m) []

/-- The requests of a batch: compaction after the others, and then the ghosts by lobe. -/
def executeBatch (requests : List Request) (db : Db) : Reply :=
  let others := requests.filterMap Request.other?
  let ghosts := groupGhosts (requests.filterMap Request.ghost?)
  let compacted := Reply.andThen (runAll id noResult others db) fun last db' =>
    if requests.any Request.isCompact then compact db' else (.ok last, db')
  Reply.andThen compacted fun last db' => runAll (runGhosts p) last ghosts db'

/-! ### The condition -/

/-- Statements that make no difference to a ghost: each succeeds with the same answer whether the
ghost is there or not, and the ghost that it leaves is the one that is built after it. -/
def Passed (g : Text × GhostSpec) : List (Db → Reply) → Db → Prop
  | [], _ => True
  | run :: rest, db => ∃ r db' built db'', run db = (.ok r, db') ∧
      runCreateGhost p g db' = (.ok built, db'') ∧
      run (runCreateGhost p g db).2 = (.ok r, db'') ∧ Passed g rest db'

/-- The statements of a request, from a store on. What follows a CREATE GHOST that succeeds makes no
difference to the ghost, and what follows one that fails keeps the store, or fails alike. -/
def Movable : List Request → Db → Prop
  | [], _ => True
  | .other run :: rest, db => ∀ r db', run db = (.ok r, db') → Movable rest db'
  | .compact :: rest, db => Movable rest db
  | .createGhost lobe spec :: rest, db =>
    match runCreateGhost p (lobe, spec) db with
    | (.ok _, db') => Passed p (lobe, spec) (rest.filterMap Request.other?) db ∧ Movable rest db'
    | reply => (runAll id noResult (rest.filterMap Request.other?) db).outcome = (.ok (), db) ∨
        (runAll id noResult (rest.filterMap Request.other?) db).outcome = reply.outcome

/-- Behind a ghost that is created, none stands on a lobe before its own, and the names on its own
lobe are new. -/
def FirstOf (db : Db) (g : Text × GhostSpec) (rest : List (Text × GhostSpec)) : Prop :=
  ∀ x ∈ rest, g.1 ≤ x.1 ∧
    (x.1 = g.1 → x.2.name ≠ g.2.name ∧ db.ghosts.containsGhost x.2.name = false)

/-- CREATE GHOSTs, from a store on. One that succeeds is the first of those that are left. When one
fails, the first on the least lobe fails alike; this is the one itself if it is on the least
lobe. -/
def Batchable : List (Text × GhostSpec) → Db → Prop
  | [], _ => True
  | g :: rest, db =>
    match runCreateGhost p g db with
    | (.ok _, db') => FirstOf db g rest ∧ Batchable rest db'
    | reply => ∃ before x after, g :: rest = before ++ x :: after ∧ (∀ y ∈ before, x.1 < y.1) ∧
        (∀ y ∈ after, x.1 ≤ y.1) ∧ runCreateGhost p x db = reply

/-- No two lobes share a number, and there are numbers for `n` more ghosts. -/
structure HasRoom (db : Db) (n : ℕ) : Prop where
  inj : ∀ name name' lobe, db.catalog.lobes.get name = some lobe →
    db.catalog.lobes.get name' = some lobe → name = name'
  ids : db.ghosts.nextId.toNat + n < 2 ^ 16

/-- The answers of the statements other than CREATE GHOST and COMPACT, one after the other. -/
def answers : List Request → Db → List QueryResult
  | [], _ => []
  | .other run :: rest, db =>
    match run db with
    | (.ok r, db') => r :: answers rest db'
    | _ => []
  | .compact :: rest, db =>
    match compact db with
    | (.ok _, db') => answers rest db'
    | _ => []
  | .createGhost lobe spec :: rest, db =>
    match runCreateGhost p (lobe, spec) db with
    | (.ok _, db') => answers rest db'
    | _ => []

/-- A statement that succeeds elsewhere: it does not look at the ghosts, tells them of writes to
other lobes only, and keeps the number, the field names and the records of the lobe. -/
structure Elsewhere (lobeName : Text) (lobe : UInt16) (db db' : Db) (run : Db → Reply) : Prop where
  blind : ∃ r writes, (∀ x ∈ writes, x.1 ≠ lobe) ∧ db'.ghosts = db.ghosts.notifyAll p writes ∧
    ∀ gs : GhostStore,
      run { db with ghosts := gs } = (.ok r, { db' with ghosts := gs.notifyAll p writes })
  found : db'.catalog.lobes.get lobeName = some lobe
  dict : db'.catalog.fieldRegistry.getDict lobe = db.catalog.fieldRegistry.getDict lobe
  records : db'.lobeEntries lobe = db.lobeEntries lobe

end

section

variable {p : Platform} {compact : Db → Reply} {db : Db} {lobeName : Text} {lobe : UInt16}
  {spec : GhostSpec}

/-! ### Replies -/

lemma Reply.andThen_assoc (r : Reply) (f g : QueryResult → Db → Reply) :
    (r.andThen f).andThen g = r.andThen fun last db => (f last db).andThen g := by
  obtain ⟨_ | _ | _, db⟩ := r <;> rfl

lemma Reply.outcome_eq_ok {r : Reply} : r.outcome = (.ok (), db) ↔ ∃ a, r = (.ok a, db) := by
  rcases r with ⟨a | e | _, db'⟩
  · constructor
    · intro h
      cases h
      exact ⟨a, rfl⟩
    · rintro ⟨_, h⟩
      cases h
      rfl
  · exact ⟨nofun, nofun⟩
  · exact ⟨nofun, nofun⟩

lemma Reply.andThen_of_error {r : Reply} {e : XyzError} (h : r.outcome = (.error e, db))
    (f : QueryResult → Db → Reply) : r.andThen f = (.error e, db) := by
  obtain ⟨_ | _ | _, db⟩ := r <;> cases h
  rfl

/-- The answer to fall back on makes no difference to the store. -/
lemma outcome_runAll {α : Type} (run : α → Db → Reply) (xs : List α) (last last' : QueryResult)
    (db : Db) : (runAll run last xs db).outcome = (runAll run last' xs db).outcome := by
  cases xs <;> rfl

/-! ### One CREATE GHOST -/

/-- A CREATE GHOST that succeeds. -/
lemma runCreateGhost_creates (hlobe : db.catalog.lobes.get lobeName = some lobe)
    (hnew : db.ghosts.containsGhost spec.name = false) :
    ∃ r, runCreateGhost p (lobeName, spec) db =
      (.ok r, db.createGhost p lobeName lobe spec) := by
  rw [runCreateGhost, run_executeCreateGhost, hlobe]
  exact ⟨_, if_neg (by simp [hnew])⟩

/-- A CREATE GHOST fails and changes nothing, or its lobe is there and its name is new. -/
lemma runCreateGhost_cases (p : Platform) (g : Text × GhostSpec) (db : Db) :
    (∃ e, runCreateGhost p g db = (.error e, db) ∧ ∀ lobe, db.catalog.lobes.get g.1 = some lobe →
      db.ghosts.containsGhost g.2.name = true) ∨
    ∃ r lobe, runCreateGhost p g db = (.ok r, db.createGhost p g.1 lobe g.2) ∧
      db.catalog.lobes.get g.1 = some lobe ∧ db.ghosts.containsGhost g.2.name = false := by
  cases hlobe : db.catalog.lobes.get g.1 with
  | none =>
    refine .inl ⟨.lobeNotFound g.1, ?_, nofun⟩
    rw [runCreateGhost, run_executeCreateGhost, hlobe]
  | some lobe =>
    cases hname : db.ghosts.containsGhost g.2.name with
    | true =>
      refine .inl ⟨.ghostExists g.2.name, ?_, fun _ _ => rfl⟩
      rw [runCreateGhost, run_executeCreateGhost, hlobe]
      exact if_pos hname
    | false =>
      obtain ⟨r, hr⟩ := runCreateGhost_creates (p := p) hlobe hname
      exact .inr ⟨r, lobe, hr, rfl, rfl⟩

/-! ### What happens elsewhere -/

/-- **What happens elsewhere** makes no difference to a ghost. -/
theorem Elsewhere.passed {db' : Db} {run : Db → Reply} (h : Elsewhere p lobeName lobe db db' run)
    (hn : db.ghosts.Numbered) (hlobe : db.catalog.lobes.get lobeName = some lobe)
    (hnew : db.ghosts.containsGhost spec.name = false) {rest : List (Db → Reply)}
    (hrest : Passed p (lobeName, spec) rest db') : Passed p (lobeName, spec) (run :: rest) db := by
  obtain ⟨r, writes, hwrites, hghosts, hrun⟩ := h.blind
  have hrecords : db'.buildRecords p lobeName lobe spec = db.buildRecords p lobeName lobe spec := by
    rw [Db.buildRecords, Db.buildRecords, h.dict, h.records]
  have hnew' : db'.ghosts.containsGhost spec.name = false := by
    rw [hghosts, GhostStore.containsGhost_notifyAll hn, hnew]
  obtain ⟨built, hbuilt⟩ := runCreateGhost_creates (p := p) h.found hnew'
  obtain ⟨_, hfirst⟩ := runCreateGhost_creates (p := p) hlobe hnew
  refine ⟨r, db', built, _, (hrun db.ghosts).trans (by rw [← hghosts]), hbuilt, ?_, hrest⟩
  rw [hfirst]
  refine (hrun _).trans ?_
  rw [GhostStore.create_notifyAll hn hwrites, ← hghosts, ← hrecords]
  rfl

/-- `LOBE` of a new name is elsewhere, for the ghosts of every lobe that is there. -/
lemma elsewhere_lobe {name : Text} (hlobe : db.catalog.lobes.get lobeName = some lobe)
    (hfree : db.catalog.lobes.get name = none) (t : Tick) (hint : Option Text) :
    Elsewhere p lobeName lobe db (db.apply p (.lobe name))
      ((execute p t (.lobe ⟨name, hint⟩)).run (Db.apply p)) := by
  have hne : name ≠ lobeName := by
    rintro rfl
    cases hfree.symm.trans hlobe
  have hnone : db.catalog.lobes.byName[name]? = none := hfree
  refine ⟨⟨.ok none ("Lobe ".toList ++ quoted name ++ " created (id=".toList ++
    displayInt (db.catalog.lobes.getOrCreate name).1.toNat ++ [')']), [], nofun, rfl,
      fun gs => ?_⟩, ?_, rfl, rfl⟩
  · rw [execute, Prog.run_bind, Prog.run_ask]
    simp only [Command.touchesGravityData, Bool.and_false, Bool.false_eq_true, if_false]
    rw [dispatch, executeLobe, Prog.run_bind, Prog.run_ask]
    simp only [hfree, Option.isSome_none, Bool.false_eq_true, if_false]
    rw [Prog.run_bind]
    rfl
  · show (db.catalog.lobes.getOrCreate name).2.get lobeName = some lobe
    rw [LobeRegistry.getOrCreate, hnone]
    exact OrdMap.getElem?_insert.trans ((if_neg hne).trans hlobe)

/-- A ghost that is there is the ghost that is built behind a `LOBE`. -/
lemma passed_lobe {name : Text} (hn : db.ghosts.Numbered)
    (hlobe : db.catalog.lobes.get lobeName = some lobe)
    (hnew : db.ghosts.containsGhost spec.name = false) (hfree : db.catalog.lobes.get name = none)
    (t : Tick) (hint : Option Text) :
    Passed p (lobeName, spec) [(execute p t (.lobe ⟨name, hint⟩)).run (Db.apply p)] db :=
  (elsewhere_lobe hlobe hfree t hint).passed hn hlobe hnew trivial

/-! ### The others before the CREATE GHOSTs -/

lemma movable_createGhost {requests : List Request}
    (hlobe : db.catalog.lobes.get lobeName = some lobe)
    (hnew : db.ghosts.containsGhost spec.name = false) :
    Movable p (.createGhost lobeName spec :: requests) db ↔
      Passed p (lobeName, spec) (requests.filterMap Request.other?) db ∧
        Movable p requests (db.createGhost p lobeName lobe spec) := by
  obtain ⟨r, hr⟩ := runCreateGhost_creates (p := p) hlobe hnew
  rw [Movable, hr]

/-- A ghost is built behind the statements that make no difference to it. -/
lemma Passed.runAll_others {g : Text × GhostSpec} {others : List (Db → Reply)}
    (h : Passed p g others db) (compact : Db → Reply) {first : QueryResult} {db₁ : Db}
    (hfirst : runCreateGhost p g db = (.ok first, db₁)) (last last' : QueryResult) :
    ∃ r r' built db' db'', runAll id last others db = (.ok r, db') ∧
      runCreateGhost p g db' = (.ok built, db'') ∧ runAll id last' others db₁ = (.ok r', db'') ∧
      answers p compact (others.map .other) db₁ = answers p compact (others.map .other) db := by
  induction others generalizing db db₁ first last last' with
  | nil => exact ⟨_, _, _, db, _, rfl, hfirst, rfl, rfl⟩
  | cons run others ih =>
    obtain ⟨r, db', built, db'', hrun, hbuilt, hrun', hrest⟩ := h
    rw [hfirst] at hrun'
    obtain ⟨s, s', built', dbE, dbE', hothers, hend, hothers', hanswers⟩ := ih hrest hbuilt r r
    refine ⟨s, s', built', dbE, dbE', ?_, hend, ?_, ?_⟩
    · rw [runAll, id, hrun]
      exact hothers
    · rw [runAll, id, hrun']
      exact hothers'
    · simp only [map_cons, answers, hrun, hrun', hanswers]

/-- **The others first**: a request that is movable does what the others do and then the CREATE
GHOSTs in their order. -/
lemma Movable.runAll_others {requests : List Request} (h : Movable p requests db)
    (hcompact : .compact ∈ requests → ∀ db, ∃ r, compact db = (.ok r, db))
    (last last' : QueryResult) :
    (runAll (Request.run p compact) last requests db).outcome =
      ((runAll id last' (requests.filterMap Request.other?) db).andThen fun r db' =>
        runAll (runCreateGhost p) r (requests.filterMap Request.ghost?) db').outcome ∧
    answers p compact requests db <+:
      answers p compact ((requests.filterMap Request.other?).map .other) db := by
  -- on the requests: each ghost is carried past the others that follow it
  induction requests generalizing db last last' with
  | nil => exact ⟨rfl, prefix_refl _⟩
  | cons request requests ih =>
    replace ih := fun {db} h => @ih db h fun hmem => hcompact (mem_cons_of_mem _ hmem)
    cases request with
    | other run =>
      simp only [filterMap_cons, Request.other?, Request.ghost?, runAll, Request.run, id, map_cons,
        answers]
      rcases hrun : run db with ⟨r | e | _, db'⟩
      · obtain ⟨houtcome, hanswers⟩ := ih (h r db' hrun) r r
        exact ⟨houtcome, (prefix_cons_inj r).mpr hanswers⟩
      · exact ⟨rfl, prefix_refl _⟩
      · exact ⟨rfl, prefix_refl _⟩
    | compact =>
      obtain ⟨r, hr⟩ := hcompact mem_cons_self db
      simp only [filterMap_cons, Request.other?, Request.ghost?, runAll, Request.run, answers, hr]
      exact ih h r last'
    | createGhost lobeName spec =>
      simp only [filterMap_cons, Request.other?, Request.ghost?, runAll, Request.run, answers]
      rw [Movable] at h
      rcases runCreateGhost_cases p (lobeName, spec) db with ⟨e, he, -⟩ | ⟨first, lobe, hfirst, -⟩
      -- the build is refused: by `Movable` all others succeed, so both orders report it
      · rw [he] at h ⊢
        rw [outcome_runAll id _ _ last', Reply.outcome_eq_ok] at h
        rcases h with ⟨r, hr⟩ | hfails
        · simp only [hr, Reply.andThen, he]
          exact ⟨trivial, nil_prefix⟩
        · rw [Reply.andThen_of_error hfails]
          exact ⟨rfl, nil_prefix⟩
      -- the build is passed by the others, which answer as they would have without it
      · rw [hfirst] at h ⊢
        obtain ⟨hpassed, hrest⟩ := h
        obtain ⟨r, r', built, db', db'', hothers, hbuilt, hothers', hanswers⟩ :=
          hpassed.runAll_others compact hfirst last' last'
        obtain ⟨houtcome, hreached⟩ := ih hrest first last'
        rw [hothers'] at houtcome
        rw [hanswers] at hreached
        simp only [Reply.andThen, hothers, hbuilt] at houtcome ⊢
        exact ⟨houtcome.trans (outcome_runAll ..), hreached⟩

/-! ### The CREATE GHOSTs lobe by lobe -/

variable {g : Text × GhostSpec} {ghosts rest : List (Text × GhostSpec)}
  {m : List (Text × List GhostSpec)} {specs : List GhostSpec}

/-- Groups of ghosts on later lobes. -/
def Behind (lobeName : Text) (m : List (Text × List GhostSpec)) : Prop :=
  ∀ x ∈ m, lobeName < x.1 ∧ x.2 ≠ []

lemma addGhost_front (h : Behind lobeName m) :
    addGhost lobeName spec m = (lobeName, [spec]) :: m := by
  cases m with
  | nil => rfl
  | cons x m =>
    have hx := (h x mem_cons_self).1
    rw [addGhost, if_neg hx.ne, if_pos hx]

lemma Behind.addGhost {name : Text} (h : Behind lobeName m) (hname : lobeName < name) :
    Behind lobeName (addGhost name spec m) := by
  induction m with
  | nil => simpa [Behind, Engine.addGhost] using hname
  | cons y m ih =>
    obtain ⟨hy, hm⟩ := forall_mem_cons.mp h
    rw [Engine.addGhost]
    split
    · exact forall_mem_cons.mpr ⟨⟨hy.1, by simp⟩, hm⟩
    · split
      · exact forall_mem_cons.mpr ⟨⟨hname, by simp⟩, h⟩
      · exact forall_mem_cons.mpr ⟨hy, ih hm⟩

/-- A lobe in front of others, if it has ghosts. -/
def inFront (lobeName : Text) (specs : List GhostSpec) (m : List (Text × List GhostSpec)) :
    List (Text × List GhostSpec) :=
  if specs = [] then m else (lobeName, specs) :: m

/-- The least lobe comes first, with its ghosts in their order, whether it is there already or
not. -/
lemma foldl_addGhost_least (h : ∀ g ∈ ghosts, lobeName ≤ g.1) {m₀ : List (Text × List GhostSpec)}
    (hm₀ : Behind lobeName m₀) :
    ∃ more m, (∀ s, s ∈ more ↔ (lobeName, s) ∈ ghosts) ∧ Behind lobeName m ∧
      ghosts.foldl (fun m g => addGhost g.1 g.2 m) m₀ = inFront lobeName more m ∧
      ∀ specs, ghosts.foldl (fun m g => addGhost g.1 g.2 m) ((lobeName, specs) :: m₀) =
        (lobeName, specs ++ more) :: m := by
  -- from the back, since a ghost is added behind those of its lobe
  induction ghosts using List.reverseRecOn with
  | nil => exact ⟨[], m₀, by simp, hm₀, rfl, fun specs => by rw [append_nil]; rfl⟩
  | append_singleton ghosts g ih =>
    obtain ⟨more, m, hmore, hm, hfold, hfold'⟩ := ih fun x hx => h x (mem_append_left _ hx)
    have hle := h g (mem_append_right _ mem_cons_self)
    by_cases heq : g.1 = lobeName
    · obtain ⟨name, s⟩ := g
      obtain rfl : name = lobeName := heq
      refine ⟨more ++ [s], m, by simp [hmore], hm, ?_, fun specs => ?_⟩
      · rw [foldl_append, hfold, foldl_cons, foldl_nil, inFront]
        split
        · next hnil =>
          rw [addGhost_front hm, hnil]
          rfl
        · rw [addGhost, if_pos rfl, inFront, if_neg (by simp)]
      · rw [foldl_append, hfold', foldl_cons, foldl_nil, addGhost, if_pos rfl, append_assoc]
    · have hlt : lobeName < g.1 := lt_of_le_of_ne hle (Ne.symm heq)
      refine ⟨more, addGhost g.1 g.2 m, fun s => ?_, hm.addGhost hlt, ?_, fun specs => ?_⟩
      · have hne : (lobeName, s) ≠ g := fun hg => heq (hg ▸ rfl)
        simp [hmore, hne]
      · rw [foldl_append, hfold, foldl_cons, foldl_nil, inFront, inFront]
        split
        · rfl
        · rw [addGhost, if_neg heq, if_neg hlt.not_gt]
      · rw [foldl_append, hfold', foldl_cons, foldl_nil, addGhost, if_neg heq, if_neg hlt.not_gt]

/-- The first ghost on the least lobe comes first. -/
lemma exists_groupGhosts {before after : List (Text × GhostSpec)} {x : Text × GhostSpec}
    (hbefore : ∀ y ∈ before, x.1 < y.1) (hafter : ∀ y ∈ after, x.1 ≤ y.1) :
    ∃ more m, (∀ s, s ∈ more ↔ (x.1, s) ∈ after) ∧ Behind x.1 m ∧
      groupGhosts (before ++ x :: after) = (x.1, x.2 :: more) :: m ∧
      (before = [] → groupGhosts after = inFront x.1 more m) := by
  obtain ⟨none, m₀, hnone, hm₀, hfold, -⟩ :=
    foldl_addGhost_least (fun y hy => (hbefore y hy).le)
      (show Behind x.1 [] from nofun)
  obtain rfl : none = [] := eq_nil_iff_forall_not_mem.mpr fun s hs =>
    (hbefore _ ((hnone s).mp hs)).false
  obtain ⟨more, m, hmore, hm, hafter', hfold'⟩ := foldl_addGhost_least hafter hm₀
  refine ⟨more, m, hmore, hm, ?_, ?_⟩
  · rw [groupGhosts, foldl_append, hfold, foldl_cons, inFront, if_pos rfl, addGhost_front hm₀,
      hfold', singleton_append]
  · rintro rfl
    rw [← hafter', ← show [] = m₀ from hfold]
    rfl

lemma exists_least (h : ghosts ≠ []) :
    ∃ before x after, ghosts = before ++ x :: after ∧ (∀ y ∈ before, x.1 < y.1) ∧
      ∀ y ∈ after, x.1 ≤ y.1 := by
  induction ghosts with
  | nil => exact absurd rfl h
  | cons g ghosts ih =>
    by_cases hnil : ghosts = []
    · exact ⟨[], g, [], by rw [hnil]; rfl, nofun, nofun⟩
    obtain ⟨before, x, after, heq, hbefore, hafter⟩ := ih hnil
    rcases lt_or_ge x.1 g.1 with hlt | hle
    · exact ⟨g :: before, x, after, by rw [heq]; rfl, forall_mem_cons.mpr ⟨hlt, hbefore⟩, hafter⟩
    · refine ⟨[], g, ghosts, rfl, nofun, fun y hy => hle.trans ?_⟩
      rw [heq] at hy
      rcases mem_append.mp hy with hy | hy
      · exact (hbefore y hy).le
      · exact (mem_cons.mp hy).elim (fun hy => hy ▸ le_rfl) (hafter y)

/-- How many ghosts there are in groups. -/
def ghostCount (groups : List (Text × List GhostSpec)) : ℕ := (groups.map (·.2.length)).sum

lemma ghostCount_groupGhosts (ghosts : List (Text × GhostSpec)) :
    ghostCount (groupGhosts ghosts) = ghosts.length := by
  have hadd : ∀ (g : Text × GhostSpec) m,
      ghostCount (addGhost g.1 g.2 m) = ghostCount m + 1 := by
    intro g m
    induction m with
    | nil => rfl
    | cons x m ih =>
      simp only [ghostCount] at ih ⊢
      rw [addGhost]
      split_ifs
      all_goals
        simp only [map_cons, sum_cons, length_append, length_singleton]
        omega
  induction ghosts using List.reverseRecOn with
  | nil => rfl
  | append_singleton ghosts g ih =>
    rw [groupGhosts, foldl_append, foldl_cons, foldl_nil, hadd, ← groupGhosts, ih, length_append]
    rfl

/-! ### What runs for a lobe -/

/-- A lobe whose ghosts have new names. -/
lemma runGhosts_creates (hlobe : db.catalog.lobes.get lobeName = some lobe)
    (hnew : ∀ s ∈ spec :: specs, db.ghosts.containsGhost s.name = false) :
    ∃ r, runGhosts p (lobeName, spec :: specs) db =
      (.ok r, db.createGhosts p lobeName lobe (spec :: specs)) := by
  cases specs with
  | nil => exact runCreateGhost_creates hlobe (hnew spec mem_cons_self)
  | cons _ _ => exact run_executeCreateGhostBatch hlobe hnew

/-- A lobe: its first ghost fails, all are created, or a later name is in use. -/
lemma runGhosts_cases (p : Platform) (lobeName : Text) (spec : GhostSpec) (specs : List GhostSpec)
    (db : Db) :
    (∃ e, runCreateGhost p (lobeName, spec) db = (.error e, db) ∧
      runGhosts p (lobeName, spec :: specs) db = (.error e, db)) ∨
    ∃ lobe, db.catalog.lobes.get lobeName = some lobe ∧
      db.ghosts.containsGhost spec.name = false ∧
      ((∀ s ∈ specs, db.ghosts.containsGhost s.name = false) ∧ (∃ r,
        runGhosts p (lobeName, spec :: specs) db =
          (.ok r, db.createGhosts p lobeName lobe (spec :: specs))) ∨
        ∃ e n, 0 < n ∧ n ≤ specs.length ∧ runGhosts p (lobeName, spec :: specs) db =
          (.error e, { db with ghosts := GhostStore.allocId^[n] db.ghosts })) := by
  rcases runCreateGhost_cases p (lobeName, spec) db with ⟨e, he, hfails⟩ | ⟨r, lobe, -, hlobe, hnew⟩
  · refine .inl ⟨e, he, ?_⟩
    cases specs with
    | nil => exact he
    | cons _ _ => exact (run_executeCreateGhostBatch_fails hfails).trans he
  · refine .inr ⟨lobe, hlobe, hnew, ?_⟩
    by_cases hused : ∃ s ∈ specs, db.ghosts.containsGhost s.name = true
    · cases specs with
      | nil => simp at hused
      | cons _ _ => exact .inr (run_executeCreateGhostBatch_refused hlobe hnew hused)
    · have hall : ∀ s ∈ specs, db.ghosts.containsGhost s.name = false := fun s hs =>
        Bool.eq_false_iff.mpr fun h => hused ⟨s, hs, h⟩
      exact .inl ⟨hall, runGhosts_creates hlobe (forall_mem_cons.mpr ⟨hnew, hall⟩)⟩

/-- What the lobes of a list add to the store. -/
lemma exists_runAll_runGhosts (p : Platform) {groups : List (Text × List GhostSpec)}
    (hgroups : Behind lobeName groups) (db : Db)
    (hroom : db.ghosts.nextId.toNat + ghostCount groups < 2 ^ 16) (last : QueryResult) :
    ∃ reply gs, runAll (runGhosts p) last groups db = (reply, { db with ghosts := gs }) ∧
      db.ghosts.Grew (ghostCount groups) gs := by
  induction groups generalizing db last with
  | nil => exact ⟨_, _, rfl, .refl _ _⟩
  | cons group groups ih =>
    obtain ⟨⟨-, hne⟩, hlater⟩ := forall_mem_cons.mp hgroups
    obtain ⟨name, _ | ⟨spec, specs⟩⟩ := group
    · exact absurd rfl hne
    have hcount : ghostCount ((name, spec :: specs) :: groups) =
      specs.length + 1 + ghostCount groups := rfl
    rw [hcount] at hroom ⊢
    rw [runAll]
    rcases runGhosts_cases p name spec specs db with
      ⟨e, -, he⟩ | ⟨lobe, -, -, ⟨-, r, hr⟩ | ⟨e, n, -, hn, he⟩⟩
    · rw [he]
      exact ⟨_, _, rfl, .refl _ _⟩
    · have hgrew := (@GhostStore.createAll_spec p lobe db.ghosts (db.buildRecords p name lobe)
        (spec :: specs) (by rw [length_cons]; omega)).1
      have hbound := hgrew.bound
      rw [length_cons] at hbound
      obtain ⟨reply, gs, hrun, hgs⟩ := ih hlater (db.createGhosts p name lobe (spec :: specs))
        (by dsimp only [Db.createGhosts]; omega) r
      rw [hr]
      exact ⟨reply, gs, hrun, hgrew.trans hgs⟩
    · rw [he]
      exact ⟨_, _, rfl, GhostStore.grew_iterate_allocId (by omega) hroom⟩

/-- Ghosts that are batched. The first on the least lobe fails; or numbers are given out, and the
first number goes to that ghost or to none. -/
lemma runAll_groupGhosts_cases (p : Platform) (hne : ghosts ≠ []) {db : Db}
    (hroom : db.ghosts.nextId.toNat + ghosts.length < 2 ^ 16) (last : QueryResult) :
    ∃ before x after, ghosts = before ++ x :: after ∧ (∀ y ∈ before, x.1 < y.1) ∧
      (∀ y ∈ after, x.1 ≤ y.1) ∧
      ((∃ e, runCreateGhost p x db = (.error e, db) ∧
        runAll (runGhosts p) last (groupGhosts ghosts) db = (.error e, db)) ∨
      ∃ reply gs lobe, db.catalog.lobes.get x.1 = some lobe ∧
        runAll (runGhosts p) last (groupGhosts ghosts) db = (reply, { db with ghosts := gs }) ∧
        db.ghosts.nextId.toNat < gs.nextId.toNat ∧
        ∀ lobe' name, gs.idAt lobe' name = some db.ghosts.nextId →
          db.ghosts.idAt lobe' name = some db.ghosts.nextId ∨ lobe = lobe' ∧ x.2.name = name ∧
            ∀ s, (x.1, s) ∈ after → s.name ≠ x.2.name ∧
              db.ghosts.containsGhost s.name = false) := by
  obtain ⟨before, x, after, rfl, hbefore, hafter⟩ := exists_least hne
  refine ⟨before, x, after, rfl, hbefore, hafter, ?_⟩
  obtain ⟨specs, m, hspecs, hm, hgroups, -⟩ := exists_groupGhosts hbefore hafter
  rw [← ghostCount_groupGhosts, hgroups] at hroom
  rw [hgroups]
  have hcount : ghostCount ((x.1, x.2 :: specs) :: m) = specs.length + 1 + ghostCount m := rfl
  rw [hcount] at hroom
  rcases runGhosts_cases p x.1 x.2 specs db with
    ⟨e, he, hrun⟩ | ⟨lobe, hlobe, hnew, ⟨hall, r, hrun⟩ | ⟨e, n, hpos, hn, hrun⟩⟩
  · refine .inl ⟨e, he, ?_⟩
    rw [runAll, hrun]
    rfl
  · -- the first number is taken by the first ghost, and what comes later has later ones
    set first := db.ghosts.create p lobe x.2 (db.buildRecords p x.1 lobe x.2)
    replace hrun : runGhosts p (x.1, x.2 :: specs) db = (.ok r,
      { db with ghosts := first.createAll p lobe (db.buildRecords p x.1 lobe) specs }) := hrun
    rw [runAll, hrun]
    have hnext : first.nextId.toNat = db.ghosts.nextId.toNat + 1 :=
      GhostStore.nextId_allocId (by omega)
    obtain ⟨hgrown, hown⟩ := @GhostStore.createAll_spec p lobe first (db.buildRecords p x.1 lobe)
      specs (by omega)
    generalize first.createAll p lobe (db.buildRecords p x.1 lobe) specs = gs₁ at *
    have hbound := hgrown.bound
    obtain ⟨reply, gs, hgs, hgrew⟩ := exists_runAll_runGhosts p hm { db with ghosts := gs₁ }
      (by dsimp only; omega) r
    have hle := hgrown.le
    have hle' : gs₁.nextId.toNat ≤ gs.nextId.toNat := hgrew.le
    refine .inr ⟨reply, gs, lobe, hlobe, hgs, by omega, fun lobe' name hid => ?_⟩
    by_cases hplace : lobe = lobe' ∧ x.2.name = name
    · obtain ⟨rfl, rfl⟩ := hplace
      refine .inr ⟨rfl, rfl, fun s hs => ?_⟩
      replace hs := (hspecs s).mpr hs
      refine ⟨fun hname => ?_, hall s hs⟩
      obtain ⟨id, hs', hlt⟩ := hown s hs
      rw [hname] at hs'
      rcases hgrew.ids lobe x.2.name with heq | ⟨id', hid', hlt'⟩
      · cases (hid.symm.trans heq).trans hs'
        omega
      · cases hid.symm.trans hid'
        dsimp only at hlt'
        omega
    · rcases (hgrown.trans hgrew).ids lobe' name with heq | ⟨id, hid', hlt⟩
      · rw [hid, GhostStore.idAt_create, if_neg hplace] at heq
        exact .inl heq.symm
      · cases hid.symm.trans hid'
        omega
  · rw [runAll, hrun]
    refine .inr ⟨_, _, lobe, hlobe, rfl, ?_, fun lobe' name hid => .inl ?_⟩
    · rw [GhostStore.nextId_iterate_allocId (by omega)]
      omega
    · rwa [GhostStore.idAt_iterate_allocId] at hid

/-! ### One by one -/

lemma Reply.outcome_snd (r : Reply) : r.outcome.2 = r.2 := by
  obtain ⟨_ | _ | _, db⟩ := r <;> rfl

/-- Ghosts keep their numbers when others are created one by one. -/
lemma idAt_runAll_runCreateGhost {name : Text} {id : UInt16}
    (h : db.ghosts.idAt lobe name = some id) (last : QueryResult) :
    (runAll (runCreateGhost p) last ghosts db).2.ghosts.idAt lobe name = some id := by
  induction ghosts generalizing db last with
  | nil => exact h
  | cons g ghosts ih =>
    rw [runAll]
    rcases runCreateGhost_cases p g db with ⟨e, he, -⟩ | ⟨r, lobe', hr, -, hnew⟩
    · rw [he]
      exact h
    · rw [hr]
      refine ih ?_ r
      rw [Db.createGhost, GhostStore.idAt_create, if_neg, h]
      rintro ⟨-, rfl⟩
      cases hnew.symm.trans (GhostStore.containsGhost_of_idAt h)

/-- The first of the ghosts that are left may be created on its own. -/
lemma FirstOf.outcome_eq (h : FirstOf db g rest)
    (hlobe : db.catalog.lobes.get g.1 = some lobe)
    (hnew : db.ghosts.containsGhost g.2.name = false) (last last' : QueryResult) :
    (runAll (runGhosts p) last (groupGhosts (g :: rest)) db).outcome =
      (runAll (runGhosts p) last' (groupGhosts rest)
        (db.createGhost p g.1 lobe g.2)).outcome := by
  obtain ⟨more, m, hmore, -, hgroups, hrest⟩ :=
    @exists_groupGhosts [] rest g nofun fun y hy => (h y hy).1
  have hold : ∀ s ∈ more, db.ghosts.containsGhost s.name = false := fun s hs =>
    ((h _ ((hmore s).mp hs)).2 rfl).2
  have hnames : ∀ s ∈ more,
      (db.createGhost p g.1 lobe g.2).ghosts.containsGhost s.name = false := fun s hs => by
    refine Bool.eq_false_iff.mpr fun hc => ?_
    rcases GhostStore.containsGhost_create.mp hc with hc | hname
    · cases (hold s hs).symm.trans hc
    · exact ((h _ ((hmore s).mp hs)).2 rfl).1 hname.symm
  obtain ⟨r, hr⟩ := runGhosts_creates (p := p) hlobe (forall_mem_cons.mpr ⟨hnew, hold⟩)
  rw [← nil_append (g :: rest), hgroups, hrest rfl, runAll, hr]
  cases more with
  | nil => exact outcome_runAll ..
  | cons s more =>
    obtain ⟨r', hr'⟩ :=
      @runGhosts_creates p (db.createGhost p g.1 lobe g.2) g.1 lobe s more hlobe hnames
    rw [inFront, if_neg (cons_ne_nil _ _), runAll, hr']
    exact outcome_runAll ..

/-- Otherwise the number of the ghost tells that it was not created on its own. -/
lemma firstOf_of_outcome_eq (hroom : HasRoom db (g :: rest).length)
    (hlobe : db.catalog.lobes.get g.1 = some lobe)
    (hnew : db.ghosts.containsGhost g.2.name = false) {last last' : QueryResult}
    (h : (runAll (runGhosts p) last (groupGhosts (g :: rest)) db).outcome =
      (runAll (runCreateGhost p) last' rest (db.createGhost p g.1 lobe g.2)).outcome) :
    FirstOf db g rest := by
  have hid : (runAll (runGhosts p) last (groupGhosts (g :: rest)) db).2.ghosts.idAt lobe
      g.2.name = some db.ghosts.nextId := by
    rw [← Reply.outcome_snd, h, Reply.outcome_snd]
    refine idAt_runAll_runCreateGhost ?_ last'
    rw [Db.createGhost, GhostStore.idAt_create, if_pos ⟨rfl, rfl⟩]
  have hnone : db.ghosts.idAt lobe g.2.name ≠ some db.ghosts.nextId := fun hold => by
    cases hnew.symm.trans (GhostStore.containsGhost_of_idAt hold)
  obtain ⟨before, x, after, heq, hbefore, hafter, hcases⟩ :=
    runAll_groupGhosts_cases p (cons_ne_nil g rest) hroom.ids last
  rcases hcases with ⟨e, -, he⟩ | ⟨reply, gs, lobe', hlobe', hrun, -, hids⟩
  · rw [he] at hid
    exact absurd hid hnone
  · rw [hrun] at hid
    obtain ⟨rfl, -, hnames⟩ := (hids _ _ hid).resolve_left hnone
    -- the first number went to a ghost of this lobe, and this is the first such ghost
    have hsame : x.1 = g.1 := hroom.inj _ _ _ hlobe' hlobe
    cases before with
    | cons y before =>
      cases (cons.inj heq).1
      exact absurd hsame (hbefore g mem_cons_self).ne
    | nil =>
      obtain ⟨rfl, rfl⟩ := cons.inj heq
      exact fun y hy => ⟨hafter y hy, fun hy' => hnames y.2 (hy' ▸ hy)⟩

/-- **Lobe by lobe**: the CREATE GHOSTs that can be batched, and no others, do together what they do
one by one. -/
lemma outcome_eq_iff_batchable (hroom : HasRoom db ghosts.length) (last last' : QueryResult) :
    (runAll (runGhosts p) last (groupGhosts ghosts) db).outcome =
      (runAll (runCreateGhost p) last' ghosts db).outcome ↔ Batchable p ghosts db := by
  induction ghosts generalizing db last last' with
  | nil => exact iff_of_true rfl trivial
  | cons g rest ih =>
    rcases runCreateGhost_cases p g db with ⟨e, he, -⟩ | ⟨r, lobe, hr, hlobe, hnew⟩
    · rw [Batchable, he, runAll, he]
      constructor
      · intro h
        obtain ⟨before, x, after, heq, hbefore, hafter, hcases⟩ :=
          runAll_groupGhosts_cases p (cons_ne_nil g rest) hroom.ids last
        refine ⟨before, x, after, heq, hbefore, hafter, ?_⟩
        rcases hcases with ⟨e', he', hrun⟩ | ⟨reply, gs, lobe, -, hrun, hlt, -⟩
        · rw [hrun] at h
          cases h
          exact he'
        · -- a number was given out, but the ghost that fails leaves the store as it is
          have hghosts := congrArg (fun o => o.2.ghosts) h
          rw [hrun, Reply.outcome_snd] at hghosts
          cases hghosts
          exact absurd hlt (lt_irrefl _)
      · rintro ⟨before, x, after, heq, hbefore, hafter, hx⟩
        obtain ⟨more, m, -, -, hgroups, -⟩ := exists_groupGhosts hbefore hafter
        rw [heq, hgroups, runAll]
        rcases runGhosts_cases p x.1 x.2 more db with ⟨e', he', hrun⟩ | ⟨lobe, hlobe, hnew, -⟩
        · cases he'.symm.trans hx
          rw [hrun]
          rfl
        · obtain ⟨r, hr⟩ := runCreateGhost_creates (p := p) hlobe hnew
          cases hr.symm.trans hx
    · have hids := hroom.ids
      rw [length_cons] at hids
      have hnext : (db.createGhost p g.1 lobe g.2).ghosts.nextId.toNat =
        db.ghosts.nextId.toNat + 1 := GhostStore.nextId_allocId (by omega)
      have hrest := @ih (db.createGhost p g.1 lobe g.2) ⟨hroom.inj, by omega⟩
      rw [Batchable, hr, runAll, hr]
      constructor
      · intro h
        have hfirst := firstOf_of_outcome_eq hroom hlobe hnew h
        exact ⟨hfirst, (hrest last r).mp ((hfirst.outcome_eq hlobe hnew last last).symm.trans h)⟩
      · rintro ⟨hfirst, hbatchable⟩
        exact (hfirst.outcome_eq hlobe hnew last last).trans ((hrest last r).mpr hbatchable)

lemma eq_compact {request : Request} (h : request.isCompact = true) : request = .compact := by
  cases request with
  | compact => rfl
  | _ => cases h

end

/-! ### Cases -/

/-- `CREATE GHOST name FROM a ORDER BY x`. -/
def ghostRequest (name : Text) : Request :=
  .createGhost "a".toList ⟨name, .and [], "x".toList, false, [], [], []⟩

/-- `LOBE name`. -/
def lobeRequest (name : Text) : Request :=
  .other ((execute .sample ⟨0, id⟩ (.lobe ⟨name, none⟩)).run (Db.apply .sample))

/-- Two ghosts of a lobe, which the executor builds in one scan, before a lobe, which it makes
first. -/
def twoGhosts : List Request :=
  [lobeRequest "a".toList, ghostRequest "g".toList, ghostRequest "h".toList,
    lobeRequest "b".toList]

end XyzDB.Engine
