import XyzDB.Turba.FlushSafety
import XyzDB.Turba.LevelSafety

/-!
# The counters of a tree

`markSys` is `treeSys` with two more steps: a write under a given sequence number
(`insert_with_seqno`), and `set_compaction_enabled`.

`flushed_seqno`, `manifest_durable_seqno` and the manifest move together with the flushes
that are under way. `Marks` is that part of a state, and `MarkStep` lists all that a step
can do to it.
-/

namespace XyzDB

open Function TreeState

/-- The steps on one tree. -/
inductive MarkLabel where
  | tree (l : TreeLabel)
  | put (e : Entry)
  | setCompactionEnabled (enabled : Bool)

/-- A tree whose writes bring their sequence numbers. -/
def markSys (cfg : TreeConfig) : TransSys TreeState MarkLabel where
  init := (treeSys cfg).init
  next s
  | .tree l => (treeSys cfg).next s l
  | .put e => some (s.put e)
  | .setCompactionEnabled enabled => some { s with tree := s.tree.setCompactionEnabled enabled }

/-- What a flush has installed, until it returns. -/
def Flush.installedMax : Flush → Option ℕ
  | .installed maxFlushed | .persisting maxFlushed | .persisted maxFlushed _ => some maxFlushed
  | _ => none

/-- What a flush has persisted and not yet declared durable. -/
def Flush.persistedMax : Flush → Option ℕ
  | .persisted maxFlushed true => some maxFlushed
  | _ => none

/-- The manifest, the counters, and the numbers on their way to them. -/
structure Marks where
  manifest : Option Manifest
  flushed : ℕ
  durable : ℕ
  installed : Owner → Option ℕ
  persisted : Owner → Option ℕ

/-- The lock holder is about to raise the durable counter to the flushed one. -/
def Maint.catchesUp : Maint → Bool
  | .checkpointCatchUp _ | .majorCatchUp => true
  | _ => false

namespace TreeState

def flushOf (s : TreeState) : Owner → Flush
  | .flusher i => s.flushes i
  | .maint => s.maint.flush

def marks (s : TreeState) : Marks where
  manifest := s.tree.manifest
  flushed := s.tree.flushedSeqno
  durable := s.tree.manifestDurableSeqno
  installed o := (s.flushOf o).installedMax
  persisted o := (s.flushOf o).persistedMax

end TreeState

/-- All that a step can do to the counters. -/
inductive MarkStep (s : TreeState) (l : TreeLabel) (s' : TreeState) : Prop
  | keep (hmarks : s'.marks = s.marks)
  | install (o : Owner) (job : FlushJob) (tables : List Table)
      (ho : ownerOf l = some o) (hjob : s.jobs o = some job)
      (htables : job.tables = some tables) (hsealed : s'.sealedLog = s.sealedLog)
      (hdrops : s'.drops = s.drops + min job.memtables.length s.tree.current.sealed.length)
      (hmarks : s'.marks = { s.marks with
        installed := update s.marks.installed o (some (Tree.maxFlushed job.memtables)) })
  | flushPersist (o : Owner) (maxFlushed : ℕ) (hmax : s.marks.installed o = some maxFlushed)
      (hcurrent : s'.tree.current = s.tree.current)
      (hmarks : s'.marks = { s.marks with
        manifest := s.tree.persistManifest.manifest
        persisted := update s.marks.persisted o (some maxFlushed) })
  | persist (hcurrent : s'.tree.current = s.tree.current)
      (hmarks : s'.marks = { s.marks with manifest := s.tree.persistManifest.manifest })
  | advance (o : Owner) (maxFlushed : ℕ) (manifestPersisted : Bool)
      (hmax : s.marks.installed o = some maxFlushed)
      (hper : manifestPersisted = true → s.marks.persisted o = some maxFlushed)
      (hmarks : s'.marks = { s.marks with
        flushed := max s.marks.flushed maxFlushed
        durable := if manifestPersisted then max s.marks.durable maxFlushed else s.marks.durable
        installed := update s.marks.installed o none
        persisted := update s.marks.persisted o none })
  | catchUp (hl : l = .maint) (hcatch : s.maint.catchesUp = true)
      (hcurrent : s'.tree.current = s.tree.current)
      (hmarks : s'.marks = { s.marks with durable := max s.marks.durable s.marks.flushed })

variable {o : Owner} {f : Flush}

section

variable {cfg : TreeConfig} {s s' : TreeState} {l : TreeLabel}

/-- Two trees with the same counters. -/
abbrev SameCounters (t t' : Tree Memtable) : Prop :=
  (t'.manifest, t'.flushedSeqno, t'.manifestDurableSeqno) =
    (t.manifest, t.flushedSeqno, t.manifestDurableSeqno)

lemma marks_of_flushOf {s₁ : TreeState} (h : s'.flushOf = update s.flushOf o f)
    (htree : SameCounters s₁.tree s'.tree) : s'.marks = { s₁.marks with
      installed := update s.marks.installed o f.installedMax
      persisted := update s.marks.persisted o f.persistedMax } := by
  have hin : (fun o' => (s'.flushOf o').installedMax) =
      update s.marks.installed o f.installedMax := by
    rw [h]
    exact comp_update Flush.installedMax s.flushOf o f
  have hper : (fun o' => (s'.flushOf o').persistedMax) =
      update s.marks.persisted o f.persistedMax := by
    rw [h]
    exact comp_update Flush.persistedMax s.flushOf o f
  simp only [Prod.mk.injEq] at htree
  unfold marks at hin hper ⊢
  rw [hin, hper, htree.1, htree.2.1, htree.2.2]

lemma jobs_flushOf (s : TreeState) (o : Owner) : s.jobs o = (s.flushOf o).job := by cases o <;> rfl

lemma MarkStep.of_keep (h : s'.flushOf = update s.flushOf o f)
    (hin : f.installedMax = (s.flushOf o).installedMax)
    (hper : f.persistedMax = (s.flushOf o).persistedMax) (htree : SameCounters s.tree s'.tree) :
    MarkStep s l s' := by
  refine .keep ?_
  rw [marks_of_flushOf h htree, hin, hper]
  have hself : update s.marks.installed o (s.flushOf o).installedMax = s.marks.installed :=
    update_eq_self o s.marks.installed
  have hself' : update s.marks.persisted o (s.flushOf o).persistedMax =
      s.marks.persisted := update_eq_self o s.marks.persisted
  rw [hself, hself']

lemma TreeState.flushStep_idle (cfg : TreeConfig) (s : TreeState) : (s.flushStep cfg .idle).1 = s ∧
    ((s.flushStep cfg .idle).2.getD .idle).installedMax = none ∧
      ((s.flushStep cfg .idle).2.getD .idle).persistedMax = none := by
  simp only [flushStep]
  split <;> exact ⟨rfl, rfl, rfl⟩

lemma TreeState.flushStep_installed (cfg : TreeConfig) (s : TreeState) (maxFlushed : ℕ) :
    ((s.flushStep cfg (.installed maxFlushed)).2.getD .idle).installedMax = some maxFlushed ∧
      ((s.flushStep cfg (.installed maxFlushed)).2.getD .idle).persistedMax = none := by
  simp only [flushStep]
  cases s.tree.compactionEnabled <;> exact ⟨rfl, rfl⟩

lemma MarkStep.of_flushStep (cfg : TreeConfig) (ho : ownerOf l = some o) (hf : s.flushOf o = f)
    (hflush : s'.flushOf = update s.flushOf o ((s.flushStep cfg f).2.getD .idle))
    (htree : s'.tree = (s.flushStep cfg f).1.tree)
    (hsealed : s'.sealedLog = (s.flushStep cfg f).1.sealedLog)
    (hdrops : s'.drops = (s.flushStep cfg f).1.drops) : MarkStep s l s' := by
  have hmarks : ∀ s₁ : TreeState, s'.tree = s₁.tree → s'.marks = { s₁.marks with
      installed := update s.marks.installed o ((s.flushStep cfg f).2.getD .idle).installedMax
      persisted := update s.marks.persisted o
        ((s.flushStep cfg f).2.getD .idle).persistedMax } := fun _ h =>
    marks_of_flushOf hflush (by rw [h])
  cases f with
  | idle =>
    obtain ⟨hself, hin, hper⟩ := flushStep_idle cfg s
    rw [hself] at htree
    exact .of_keep hflush (by rw [hin, hf]; rfl) (by rw [hper, hf]; rfl) (by rw [htree])
  | snapshot memtables seals drops =>
    exact .of_keep hflush (by rw [hf]; rfl) (by rw [hf]; rfl) (by rw [htree]; rfl)
  | written tables memtables seals drops =>
    -- the tables are in the version, and nothing is known of the manifest
    have hjob : s.jobs o = some ⟨memtables, seals, drops, some tables⟩ := by
      rw [jobs_flushOf, hf]
      rfl
    refine .install o _ tables ho hjob rfl hsealed hdrops ?_
    have hper : update s.marks.persisted o none = s.marks.persisted := by
      have hnone : s.marks.persisted o = none := congrArg Flush.persistedMax hf
      rw [← hnone, update_eq_self]
    rw [hmarks _ htree]
    change ({ s.marks with
      installed := update s.marks.installed o (some (Tree.maxFlushed memtables))
      persisted := update s.marks.persisted o none } : Marks) = _
    rw [hper]
  | installed maxFlushed =>
    obtain ⟨hin, hper⟩ := flushStep_installed cfg s maxFlushed
    exact .of_keep hflush (by rw [hin, hf]; rfl) (by rw [hper, hf]; rfl) (by rw [htree]; rfl)
  | persisting maxFlushed =>
    -- the manifest lists the version, and so all that this flush has installed
    have hin : s.marks.installed o = some maxFlushed := congrArg Flush.installedMax hf
    refine .flushPersist o maxFlushed hin (by rw [htree]; rfl) ?_
    rw [hmarks _ htree]
    change ({ s.marks with
      manifest := s.tree.persistManifest.manifest
      installed := update s.marks.installed o (some maxFlushed)
      persisted := update s.marks.persisted o (some maxFlushed) } : Marks) = _
    rw [← hin, update_eq_self]
  | persisted maxFlushed manifestPersisted =>
    -- the durable mark moves only where the manifest was written
    have hin : s.marks.installed o = some maxFlushed := congrArg Flush.installedMax hf
    refine .advance o maxFlushed manifestPersisted hin (fun hp => ?_) ?_
    · subst hp
      exact congrArg Flush.persistedMax hf
    · rw [hmarks _ htree]
      have hadv : (s.flushStep cfg (.persisted maxFlushed manifestPersisted)).1.marks =
          { s.marks with
            flushed := max s.marks.flushed maxFlushed
            durable := if manifestPersisted then max s.marks.durable maxFlushed
              else s.marks.durable } := by
        change Marks.mk (s.tree.flushAdvance maxFlushed manifestPersisted).manifest
          (s.tree.flushAdvance maxFlushed manifestPersisted).flushedSeqno
          (s.tree.flushAdvance maxFlushed manifestPersisted).manifestDurableSeqno _ _ = _
        rw [Tree.flushAdvance_manifest, Tree.flushAdvance_flushed, Tree.flushAdvance_durable]
        rfl
      rw [hadv]
      rfl

lemma flushOf_congr (hf : s'.flushes = s.flushes) (hm : s'.maint.flush = s.maint.flush) :
    s'.flushOf = s.flushOf := by
  funext o
  cases o with
  | flusher i => exact congrFun hf i
  | maint => exact hm

lemma marks_congr (hf : s'.flushes = s.flushes) (hm : s'.maint.flush = s.maint.flush)
    (htree : SameCounters s.tree s'.tree) : s'.marks = s.marks := by
  simp only [Prod.mk.injEq] at htree
  unfold marks
  rw [flushOf_congr hf hm, htree.1, htree.2.1, htree.2.2]

lemma TreeState.sealActive_marks : s.sealActive.marks = s.marks := by
  simp only [sealActive, Tree.sealActive]
  split <;> rfl

lemma TreeState.startRound_marks (driver : Driver) (r : Round) (hm : s.maint.flush = .idle) :
    (s.startRound cfg driver r).marks = s.marks := by
  cases r with
  | done => rfl
  | stalled => rfl
  | move | compact => exact marks_congr rfl hm.symm rfl

lemma MarkStep.of_maintFlush (hl : l = .maint) (hf : s.maint.flush = f)
    {resume : Option Flush → Maint} (hresume : ∀ r, (resume r).flush = r.getD .idle) :
    MarkStep s l (s.maintFlush cfg f resume) := by
  refine .of_flushStep cfg (o := .maint) (f := f) (by rw [hl]; rfl) hf ?_ rfl rfl rfl
  funext o
  cases o with
  | flusher i =>
    exact congrFun (flushStep_frame cfg s f).1 i
  | maint =>
    rw [← hresume]
    rfl

lemma MarkStep.of_persist (hf : s'.flushes = s.flushes) (hm : s'.maint.flush = s.maint.flush)
    (htree : s'.tree = s.tree.persistManifest) : MarkStep s l s' := by
  refine .persist (by rw [htree]; rfl) ?_
  unfold marks
  rw [flushOf_congr hf hm, htree]
  rfl

lemma MarkStep.of_catchUp (hl : l = .maint) (hcatch : s.maint.catchesUp = true)
    (hf : s'.flushes = s.flushes) (hm : s'.maint.flush = s.maint.flush)
    (htree : s'.tree = s.tree.catchUp) : MarkStep s l s' := by
  refine .catchUp hl hcatch (by rw [htree]; rfl) ?_
  unfold marks
  rw [flushOf_congr hf hm, htree]
  rfl

lemma MarkStep.of_maintStep (hl : l = .maint) (h : s.maintStep cfg s.maint = some s') :
    MarkStep s l s' := by
  generalize hm : s.maint = m at h
  cases m with
  | idle => cases h
  | move | compact | checkpointRestore | majorMeasure =>
    cases h
    exact .keep (marks_congr rfl (by rw [hm]; rfl) rfl)
  | persist driver =>
    cases h
    refine .of_persist rfl ?_ rfl
    rw [hm]
    cases driver <;> rfl
  | checkpointSeal was =>
    cases h
    have hidle : s.sealActive.maint.flush = .idle := by
      change s.maint.flush = .idle
      rw [hm]
      rfl
    have hkeep : ({ s.sealActive with maint := .checkpointFlush was .idle } : TreeState).marks =
        s.sealActive.marks := marks_congr rfl hidle.symm rfl
    exact .keep (hkeep.trans sealActive_marks)
  | checkpointFlush | majorFlush =>
    cases h
    refine .of_maintFlush hl (by rw [hm]; rfl) fun r => ?_
    cases r <;> rfl
  | checkpointPersist was =>
    cases h
    exact .of_persist rfl (by rw [hm]; rfl) rfl
  | checkpointCatchUp | majorCatchUp =>
    -- the durable mark is raised to the flushed one, without a look at the manifest
    cases h
    exact .of_catchUp hl (by rw [hm]; rfl) rfl (by rw [hm]; rfl) rfl
  | majorRound was observer baseline consumed =>
    rw [maintStep] at h
    have hidle : s.maint.flush = .idle := by rw [hm]; rfl
    cases hr : XyzDB.majorRound cfg observer baseline consumed s.tree.current.version with
    | done | stalled =>
      rw [hr] at h
      cases h
      exact .keep (marks_congr rfl hidle.symm rfl)
    | move | compact =>
      rw [hr] at h
      cases h
      exact .keep (startRound_marks _ _ hidle)
  | majorRestore was stalled =>
    cases h
    refine .keep (marks_congr rfl ?_ ?_)
    · rw [hm]
      cases stalled <;> rfl
    · cases was <;> rfl

/-- **Inversion.** Every step other than an ingest does one of the things `MarkStep`
lists. -/
theorem markStep_of_next (hl : l.isIngest = false) (h : (treeSys cfg).next s l = some s') :
    MarkStep s l s' := by
  cases l with
  | insert | remove =>
    cases h
    exact .keep rfl
  | ingestSorted entries => cases hl
  | commitSeqno c items =>
    simp only [treeSys] at h
    split at h <;> cases h
    exact .keep rfl
  | commitInsert c =>
    simp only [treeSys, commitInsert] at h
    split at h
    · cases h
    · cases h
      exact .keep rfl
    · cases h
      exact .keep rfl
  | sealActive =>
    cases h
    exact .keep sealActive_marks
  | flush i =>
    cases h
    refine .of_flushStep cfg (o := .flusher i) (f := s.flushes i) rfl rfl ?_ rfl rfl rfl
    funext o
    cases o with
    | flusher j =>
      by_cases hj : j = i
      · subst hj
        rw [update_self]
        exact update_self ..
      · rw [update_of_ne (by simpa using hj)]
        exact update_of_ne hj ..
    | maint =>
      exact congrArg Maint.flush (flushStep_frame cfg s (s.flushes i)).2
  | maybeCompact =>
    simp only [treeSys] at h
    split at h <;> cases h
    next hm => exact .keep (startRound_marks _ _ (by rw [hm]; rfl))
  | checkpoint | major =>
    simp only [treeSys] at h
    split at h <;> cases h
    next hm => exact .keep (marks_congr rfl (by rw [hm]; rfl) rfl)
  | maint => exact .of_maintStep rfl h

end

end XyzDB
