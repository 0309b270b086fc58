import XyzDB.Turba.FileSafety

/-!
# The manifest and its tables

`Tree::open` skips a table of the manifest whose file is missing, so what it rebuilds is
right only as long as every table that a manifest lists has its file. A compaction swaps
its outputs in before it persists the manifest; when that fails, the manifest on disk
still lists the inputs, and they stay in place. But the next sweep decides from the version
in memory alone, and finds nothing in it that keeps them.

Under `ManifestGuard` sweeps start only when every table that a manifest on disk lists is
in the version. Every manifest that a crash may leave is then `Recoverable`: its tables
have their files, and it agrees with a version of some moment since the last persist that
succeeded (`listed_tables_on_disk`).
-/

namespace XyzDB

open List SuperVersion Version

variable {n m : ℕ}

/-- Every read finds the same in both versions. -/
structure Version.SameReads (v w : Version) : Prop where
  get : ∀ active sealed userKey seqno, getAt ⟨active, sealed, v⟩ userKey seqno =
      getAt ⟨active, sealed, w⟩ userKey seqno
  scan : ∀ cfg active sealed r seqno, scan cfg ⟨active, sealed, v⟩ r seqno =
      scan cfg ⟨active, sealed, w⟩ r seqno

lemma Version.sameReads_of_level {v w : Version}
    (h : ∀ k < maxLevels, v.level k = w.level k) : v.SameReads w where
  get active sealed userKey seqno := by
    have hlevels : (List.range maxLevels).findSome? (v.getLevel userKey seqno) =
        (List.range maxLevels).findSome? (w.getLevel userKey seqno) := by
      refine findSome?_congr fun k hk => ?_
      unfold getLevel
      rw [h k (mem_range.mp hk)]
      split
      · next hzero => rw [h 0 (hzero ▸ mem_range.mp hk)]
      · rfl
    unfold getAt
    rw [hlevels]
  scan cfg active sealed r seqno := by
    have htables : v.allTables = w.allTables :=
      flatMap_congr fun k hk => h k (mem_range.mp hk)
    unfold scan scanSources
    rw [htables]

lemma filterMap_find_id {files l : List Table} (hl : ∀ t ∈ l, t ∈ files)
    (hinj : ∀ t ∈ files, ∀ u ∈ files, t.id = u.id → t = u) :
    (l.filterMap fun t => files.find? fun f => f.id = t.id) = l := by
  have hfind : ∀ t ∈ l, (files.find? fun f => f.id = t.id) = some t := by
    intro t ht
    cases hf : files.find? fun f => f.id = t.id with
    | none =>
      have := find?_eq_none.mp hf t (hl t ht)
      simp at this
    | some f =>
      have hid : f.id = t.id := by simpa using find?_some hf
      rw [hinj f (mem_of_find?_eq_some hf) t (hl t ht) hid]
  rw [filterMap_congr hfind]
  exact filterMap_some

lemma reopen_level {files : List Table} (hinj : ∀ t ∈ files, ∀ u ∈ files, t.id = u.id → t = u)
    (hfiles : ∀ t ∈ listedTables manifest, t ∈ files)
    (hdeep : (manifestVersion manifest).DeepSorted) : ∀ k < maxLevels,
      (Tree.reopen files manifest).current.version.level k =
        (manifestVersion manifest).level k := by
  intro k hk
  cases manifest with
  | none => rfl
  | some manifest =>
    have hopened : ((manifest.version.level k).filterMap fun t =>
        files.find? fun f => f.id = t.id) = manifest.version.level k :=
      filterMap_find_id (fun t ht => hfiles t (mem_allTables.mpr ⟨k, hk, ht⟩)) hinj
    change (manifest.rebuild files).level k = manifest.version.level k
    unfold Manifest.rebuild
    dsimp only
    rw [hopened]
    split
    · next hpos => exact (hdeep k hpos).insertionSort_eq
    · rfl

lemma reopen_deepSorted (files : List Table) (manifest : Option Manifest) :
    (Tree.reopen files manifest).current.version.DeepSorted := by
  intro k hk
  cases manifest with
  | none => exact List.Pairwise.nil
  | some manifest =>
    change ((manifest.rebuild files).level k).Pairwise keyMinLE
    unfold Manifest.rebuild
    dsimp only
    rw [if_pos hk]
    exact pairwise_insertionSort _ _

/-- What holds of a manifest that may be on disk. -/
structure Recoverable (d : FileData n m) (manifest : Option Manifest) : Prop where
  deep : (manifestVersion manifest).DeepSorted
  files : ∀ t ∈ listedTables manifest, t ∈ d.files
  since : ∃ v ∈ d.since, ∀ k < maxLevels, (manifestVersion manifest).level k = v.level k
  kept : d.deleting = true → ∀ t ∈ listedTables manifest, t.id ∉ d.doomed
  covered : ∀ t ∈ listedTables manifest, d.Covered t.id

/-- From each manifest a crash may find, every table it lists can be opened. -/
structure ManifestInv (d : FileData n m) : Prop where
  deep : d.version.DeepSorted
  current : d.version ∈ d.since
  manifests : ∀ manifest ∈ d.manifests, Recoverable d manifest

section

variable {d d' : FileData n m} {manifest : Option Manifest}

/-- Steps that persist nothing and let the sweep be. -/
structure FileData.Keeps (d d' : FileData n m) : Prop where
  manifests : d'.manifests = d.manifests
  since : d.since ⊆ d'.since
  deleting : d'.deleting = true → d.deleting = true ∧ d'.doomed = d.doomed
  sweeping : d'.sweeping = d.sweeping
  guarded : ∀ referenced, d.sweeping = .read referenced →
    ∀ a, (d.threads a).guarded ⊆ (d'.threads a).guarded

lemma ManifestInv.keep (h : ManifestInv d) (hk : d.Keeps d')
    (hdeep : d'.version.DeepSorted) (hcurrent : d'.version ∈ d'.since)
    (hfiles : ∀ manifest ∈ d.manifests, ∀ t ∈ listedTables manifest, t ∈ d.files → t ∈ d'.files) :
    ManifestInv d' := by
  refine ⟨hdeep, hcurrent, fun manifest hman => ?_⟩
  rw [hk.manifests] at hman
  obtain ⟨hmdeep, hmfiles, ⟨v, hv, hlevel⟩, hkept, hcovered⟩ := h.manifests manifest hman
  refine ⟨hmdeep, fun t ht => hfiles manifest hman t ht (hmfiles t ht), ⟨v, hk.since hv, hlevel⟩,
    fun hdel => ?_, fun t ht => (hcovered t ht).mono hk.sweeping hk.guarded⟩
  obtain ⟨hdel, hdoomed⟩ := hk.deleting hdel
  rw [hdoomed]
  exact hkept hdel

lemma FileInv.recoverable (h : FileInv d) (hdeep : d.version.DeepSorted)
    (hsince : d.version ∈ d.since) {manifest : Manifest} (hman : manifest.version = d.version) :
    Recoverable d (some manifest) := by
  have hlist : listedTables (some manifest) = d.version.allTables := congrArg allTables hman
  constructor
  case deep => exact (congrArg Version.DeepSorted hman).mpr hdeep
  case files =>
    rw [hlist]
    exact h.version_file
  case since => exact ⟨d.version, hsince, fun k _ => congrArg (level · k) hman⟩
  case kept =>
    rw [hlist]
    exact fun _ t ht hd => (h.doomed t.id hd).2 (.inl ⟨t, ht, rfl⟩)
  case covered =>
    rw [hlist]
    exact fun t ht => h.covered t.id (.inl ⟨t, ht, rfl⟩)

lemma ManifestInv.setSweeping (h : ManifestInv d) {sweeping : Sweep}
    (hc : ∀ manifest ∈ d.manifests, ∀ t ∈ listedTables manifest,
      ({ d with sweeping := sweeping } : FileData n m).Covered t.id) :
    ManifestInv { d with sweeping := sweeping } :=
  ⟨h.deep, h.current, fun manifest hman =>
    have hrec := h.manifests manifest hman
    ⟨hrec.deep, hrec.files, hrec.since, hrec.kept, hc manifest hman⟩⟩

lemma ManifestInv.remove (h : ManifestInv d) {p : Table → Bool} {doomed swept : List ℕ}
    {deleting : Bool} (hdel : deleting = true → d.deleting = true ∧ doomed = d.doomed)
    (hp : ∀ manifest ∈ d.manifests, ∀ t ∈ listedTables manifest, p t = true) :
    ManifestInv { d with
      files := d.files.filter p, doomed := doomed, deleting := deleting, swept := swept } :=
  h.keep ⟨rfl, .refl _, hdel, rfl, fun _ _ _ => .refl _⟩ h.deep h.current
    fun manifest hman t ht hf => mem_filter.mpr ⟨hf, hp manifest hman t ht⟩

lemma ManifestInv.step (h : ManifestInv d) (hinv : FileInv d)
    (hstep : FileStep FileData.Listed d d') : ManifestInv d' := by
  -- a thread moves on: versions, manifests and files stay
  have hthread : ∀ (a : Holder n m) (r : Held), (d.threads a).guarded ⊆ r.guarded →
      ∀ referenced, d.sweeping = .read referenced →
        ∀ b, (d.threads b).guarded ⊆ (Function.update d.threads a r b).guarded :=
    fun _ _ hsub _ _ => guarded_update hsub
  have hcompaction : (d.threads .compaction).guarded ⊆ [] := by
    rw [(hinv.threads .compaction).unguarded rfl]
    exact .refl _
  cases hstep with
  | draw a hun =>
    refine h.keep ⟨rfl, .refl _, fun hd => ⟨hd, rfl⟩, rfl, hthread a _ ?_⟩ h.deep
      h.current fun _ _ _ _ hf => hf
    split
    · exact subset_append_left _ _
    · exact .refl _
  | register i id hid =>
    exact h.keep ⟨rfl, .refl _, fun hd => ⟨hd, rfl⟩, rfl,
      hthread _ _ (.refl _)⟩ h.deep h.current fun _ _ _ _ hf => hf
  | write a t hid hreg =>
    exact h.keep ⟨rfl, .refl _, fun hd => ⟨hd, rfl⟩, rfl, hthread _ _ (.refl _)⟩ h.deep h.current
      fun _ _ _ _ hf => .tail _ hf
  | drop a r hdrawn hun htables hids hguard hnone hreg =>
    exact h.keep ⟨rfl, .refl _, fun hd => ⟨hd, rfl⟩, rfl,
      hthread a r (hguard ▸ .refl _)⟩ h.deep h.current fun _ _ _ _ hf => hf
  | install a hreg =>
    exact h.keep ⟨rfl, subset_append_left _ _, fun hd => ⟨hd, rfl⟩, rfl,
      hthread _ _ (.refl _)⟩ (h.deep.withNewL0Tables _)
      (mem_append_right _ (.head _)) fun _ _ _ _ hf => hf
  | unregister i hsweep hdrawn =>
    -- only a sweep between its two reads would miss the ids that go
    exact h.keep ⟨rfl, .refl _, fun hd => ⟨hd, rfl⟩, rfl,
      fun referenced href => absurd href (hsweep referenced)⟩ h.deep h.current
      fun _ _ _ _ hf => hf
  | persistOk manifest hman =>
    refine ⟨h.deep, .head _, fun manifest' hmem => ?_⟩
    rw [mem_singleton.mp hmem]
    exact (hinv.of_eq hinv.inputs d.deleting [some manifest] [d.version]).recoverable h.deep
      (.head _) hman
  | persistStale manifest hman =>
    -- an older manifest may still be the one that is found
    refine ⟨h.deep, h.current, fun manifest' hmem => ?_⟩
    rcases mem_cons.mp hmem with rfl | hmem
    · exact (hinv.of_eq hinv.inputs d.deleting (some manifest :: d.manifests) d.since).recoverable
        h.deep h.current hman
    · have hrec := h.manifests manifest' hmem
      exact ⟨hrec.deep, hrec.files, hrec.since, hrec.kept, hrec.covered⟩
  | startRound inputs hin =>
    exact h.keep ⟨rfl, .refl _, fun hd => ⟨hd, rfl⟩, rfl,
      fun _ _ _ => .refl _⟩ h.deep h.current fun _ _ _ _ hf => hf
  | writeOutputs outs count hids hinj =>
    exact h.keep ⟨rfl, .refl _, fun hd => ⟨hd, rfl⟩, rfl,
      hthread .compaction _ hcompaction⟩ h.deep h.current
      fun _ _ _ _ hf => mem_append_right _ hf
  | swap version oldIds hversion hold hsorted =>
    exact h.keep ⟨rfl, subset_append_left _ _, nofun, rfl,
      hthread .compaction _ hcompaction⟩ (hsorted h.deep)
      (mem_append_right _ (.head _)) fun _ _ _ _ hf => hf
  | abandon =>
    exact h.keep ⟨rfl, .refl _, nofun, rfl, hthread .compaction _ hcompaction⟩ h.deep
      h.current fun _ _ _ _ hf => hf
  | arm manifest hman hmans =>
    -- one manifest is left that can be found, and it lists the version
    refine ⟨h.deep, h.current, fun manifest' hmem => ?_⟩
    have heq : manifest' = some manifest := by
      rw [hmans] at hmem
      exact mem_singleton.mp hmem
    subst heq
    exact (hinv.of_eq hinv.inputs true d.manifests d.since).recoverable h.deep h.current hman
  | delete hdel =>
    -- no manifest that can be found lists a doomed table
    refine h.remove nofun fun manifest hman t ht => ?_
    exact decide_eq_true (show t.id ∉ d.doomed from (h.manifests manifest hman).kept hdel t ht)
  | sweepRead hingest hcomp hstrict =>
    exact h.setSweeping fun manifest hman t ht => .inl (hstrict manifest hman t ht)
  | sweepFlushing referenced hread hreg =>
    exact h.setSweeping fun manifest hman t ht =>
      hinv.covered_flushing hread hreg ((h.manifests manifest hman).covered t ht)
  | unlink id referenced inFlight htest hdel =>
    -- the tables of the manifests are covered by what the sweep has read
    refine h.remove (fun hd => ⟨hd, rfl⟩) fun manifest hman t ht => ?_
    refine decide_eq_true (show t.id ≠ id from fun hid => ?_)
    have hc := (h.manifests manifest hman).covered t ht
    rw [hid] at hc
    rw [not_deletable_of_covered htest hc] at hdel
    cases hdel
  | sweepEnd => exact h.setSweeping fun _ _ _ _ => trivial
  | crash manifest hman =>
    -- the version of the manifest that was found has all its files
    have hrec := h.manifests manifest hman
    have hlevel := reopen_level hinv.files_inj hrec.files hrec.deep
    refine ⟨reopen_deepSorted _ _, .head _, fun manifest' hmem => ?_⟩
    rw [mem_singleton.mp hmem]
    exact ⟨hrec.deep, hrec.files,
      ⟨_, .head _, fun k hk => (hlevel k hk).symm⟩, nofun, fun _ _ => trivial⟩

end

/-- The sweep is about to read the ids of the version. -/
def FileMaint.startsSweep : FileMaint → Bool
  | .sweepStart _ => true
  | _ => false

/-- Besides `UnlinkGuard`: a sweep starts only when every table that a manifest lists which
may be on disk is in the version. -/
def ManifestGuard (s : FileState n m) (l : FileLabel n m) : Prop :=
  UnlinkGuard s l ∧ match l with
    | .maint => s.maint.startsSweep = true → s.data.Listed
    | _ => True

instance (s : FileState n m) (l : FileLabel n m) : Decidable (ManifestGuard s l) := by
  apply FileLabel.casesOn (motive := fun l => Decidable (ManifestGuard s l)) l <;> intros <;>
    dsimp only [ManifestGuard] <;> infer_instance

lemma ManifestInv.steps (h : ManifestInv d) (hinv : FileInv d)
    (hsteps : FileSteps FileData.Listed d d') : ManifestInv d' := by
  induction hsteps with
  | refl => exact h
  | tail hfirst hstep ih => exact ih.step (hinv.steps hfirst) hstep

lemma manifestInv_init (cfg : TreeConfig) : ManifestInv (fileSys cfg n m).init.data := by
  have hnil : ∀ t ∈ listedTables none, ∀ P : Prop, P := by
    intro t ht
    cases ht
  have hdeep : Version.new.DeepSorted := fun _ _ => List.Pairwise.nil
  refine ⟨hdeep, .head _, fun manifest hman => ?_⟩
  rw [mem_singleton.mp hman]
  exact ⟨hdeep, fun t ht => hnil t ht _, ⟨.new, .head _, fun _ _ => rfl⟩,
    fun _ t ht => hnil t ht _, fun t ht => hnil t ht _⟩

lemma manifestInv_reach {cfg : TreeConfig} {s : FileState n m}
    (h : (fileSys cfg n m).Reach ManifestGuard s) : FileInv s.data ∧ ManifestInv s.data := by
  refine h.invariant (fun s => FileInv s.data ∧ ManifestInv s.data)
    ⟨fileInv_init cfg, manifestInv_init cfg⟩ fun s l s' ⟨hinv, hman⟩ hok hnext => ?_
  have hsteps : FileSteps FileData.Listed s.data s'.data := by
    refine steps_of_next hok.1 (fun was hl hm => ?_) hnext
    subst hl
    exact hok.2 (by rw [hm]; rfl)
  exact ⟨hinv.steps hsteps, hman.steps hinv hsteps⟩

/-- **What a manifest lists is there.** In every guarded run, for every manifest that a
crash at this point may leave on disk, every table it lists has its file in full, and
`Tree::open` rebuilds a version with the same reads as the one in memory at some moment
not before the last persist that succeeded. -/
theorem listed_tables_on_disk (cfg : TreeConfig) (n m : ℕ) (s : FileState n m)
    (h : (fileSys cfg n m).Reach ManifestGuard s) :
    ∀ manifest ∈ s.tree.manifest :: s.stale, (∀ t ∈ listedTables manifest, t ∈ s.files) ∧
      ∃ v ∈ s.since, (Tree.reopen s.files manifest).current.version.SameReads v := by
  intro manifest hmem
  obtain ⟨hinv, hman⟩ := manifestInv_reach h
  have hrec := hman.manifests manifest hmem
  obtain ⟨v, hv, hlevel⟩ := hrec.since
  refine ⟨hrec.files, v, hv, sameReads_of_level fun k hk => ?_⟩
  exact (reopen_level hinv.files_inj hrec.files hrec.deep k hk).trans (hlevel k hk)

/-- The first table is compacted away, and the manifest of that is not written. -/
def persistFails : List (FileLabel 2 1) :=
  sealedOne ++ wholeFlush ++ [.maybeCompact, .maint, .maintPersist .writeFailed]

/-- The sweep of a major compaction that finds nothing to do unlinks the table. The
manifest on disk lists it, and what `Tree::open` rebuilds does not have its entry, which
every version since the last persist has. -/
theorem listed_table_swept : ∃ s, (fileSys roomyLevels 2 1).Reach TransSys.anyStep s ∧
    (∃ t ∈ listedTables s.tree.manifest, ∀ f ∈ s.files, f.id ≠ t.id) ∧
      (Tree.reopen s.files s.tree.manifest).current.getAt [1] 1 = none ∧
        ∀ v ∈ s.since, getAt ⟨.new, [], v⟩ [1] 1 = some [5] :=
  TransSys.exists_reach_of_run (persistFails ++ [.major false, .flush 0, .maint, .maint, .maint,
    .maint, .sweepTest 1]) (by decide +kernel)

/-- A flush persists the manifest before the next major compaction, whose sweep unlinks the
table; a later flush leaves two manifests of which a crash may keep either. -/
theorem listed_tables_on_disk_after_failure : ∃ s, (fileSys roomyLevels 2 1).Reach ManifestGuard s ∧
      (s.swept = [1] ∧ s.stale.length = 1) ∧
        ∀ manifest ∈ s.tree.manifest :: s.stale, (∀ t ∈ listedTables manifest, t ∈ s.files) ∧
          ∃ v ∈ s.since, (Tree.reopen s.files manifest).current.version.SameReads v :=
  TransSys.exists_reach_and (persistFails ++
    [.put ⟨[2], [6], 2, .value⟩, .sealActive] ++ wholeFlush ++ majorToSweep ++
    [.maint, .maint, .sweepTest 1, .maint, .maint, .put ⟨[3], [7], 3, .value⟩, .sealActive] ++
    wholeFlush.take 6 ++ [.flushPersist 2 .dirFsyncFailed]) (by decide +kernel)
    fun s hs => listed_tables_on_disk roomyLevels 2 1 s hs

end XyzDB
