import XyzDB.Lib.TransSys

/-!
# Group commit and failed syncs

Commits append to the journal and wait until the sync thread has moved `synced_epoch`
past the epoch they enrolled in. After an `fsync` has failed, a later one may report
success without the earlier bytes having reached the disk, so the sync thread sets a
`poisoned` flag when its `fsync` fails and never syncs again. `groupSys` has the atomic
pieces of `WriteBatch::commit`, of the sync thread and of `persist`, and the syncs that
`create_snapshot` and `rotate` do, in any interleaving.

The sync thread tests the flag before it takes the journal lock, `persist` sets it after
it has released the lock, and the other two never set it. So a sync outside the thread
can fail with bytes of waiting commits in the file, and the thread's next sync succeeds
and acknowledges them. When a sync outside the thread fails only while every commit with
bytes at risk has returned, no commit returns `Ok` on bytes that a failed sync has
dropped (`no_ack_after_failed_fsync`).

Sequence numbers and memtables play no part here and are left out, as is what a
snapshot or a rotation does besides its sync. Whether a commit finds compaction enabled
is up to the label.
-/

namespace XyzDB

open List Option

inductive PersistMode where
  | buffer
  | syncData
  deriving DecidableEq

/-- What has become of the bytes of a commit. -/
inductive ByteState where
  /-- Appended, and no sync since. -/
  | buffered
  /-- A sync has succeeded since, before any failed. -/
  | covered
  /-- A sync has failed since, before any succeeded. -/
  | tainted
  deriving DecidableEq

/-- How `sync` ends: by which of its steps fails. `rollFailed` also stands for a
`rotate` that fails behind its sync. -/
inductive SyncOutcome where
  | ok
  | flushFailed
  | fsyncFailed
  | rollFailed
  deriving DecidableEq

/-- What a sync does to bytes. Those of an earlier failure stay lost. -/
def SyncOutcome.apply : SyncOutcome → ByteState → ByteState
  | .ok, .buffered | .rollFailed, .buffered => .covered
  | .fsyncFailed, .buffered => .tainted
  | _, b => b

inductive CommitPhase where
  | start
  /-- The flag was not set. -/
  | checked
  /-- The batch is in the file; the lock is held. -/
  | appended
  /-- Before it loads `synced_epoch`. -/
  | waiting (epoch : ℕ)
  /-- `synced_epoch` was too low; before it loads the flag. -/
  | lagging (epoch : ℕ)
  /-- Past the journal. -/
  | inserting
  | done (ok : Bool)
  deriving DecidableEq

structure GroupCommit where
  phase : CommitPhase
  /-- `none` until the append. -/
  bytes : Option ByteState
  deriving DecidableEq

inductive SyncThread where
  | idle
  /-- The flag was not set. -/
  | checked
  /-- Epochs up to `pending` are to be synced. -/
  | loaded (pending : ℕ)
  | locked (pending : ℕ)
  /-- The sync succeeded; the lock is held. -/
  | synced (pending : ℕ)
  /-- The sync failed; the lock is held. -/
  | failed
  deriving DecidableEq

structure GroupState where
  commits : List GroupCommit
  pendingEpoch : ℕ
  syncedEpoch : ℕ
  poisoned : Bool
  thread : SyncThread
  /-- How many `persist` calls have failed and not set the flag yet. -/
  poisoning : ℕ
  deriving DecidableEq

inductive CommitPiece where
  | check
  /-- Compaction is disabled: the journal is skipped. -/
  | skipWal
  | append
  | appendFail
  | enrol
  | loadSynced
  | loadPoisoned
  | returnOk
  deriving DecidableEq

/-- Who syncs besides the sync thread. -/
inductive SyncCaller where
  | persist
  | createSnapshot
  | rotate
  deriving DecidableEq

inductive GroupLabel where
  | begin
  | commit (i : ℕ) (piece : CommitPiece)
  /-- The sync thread moves on. -/
  | thread
  /-- The sync thread's sync ends. -/
  | threadSync (r : SyncOutcome)
  | sync (caller : SyncCaller) (r : SyncOutcome)
  /-- A `persist` that has failed sets the flag. -/
  | persistPoison

/-- The sync thread holds the journal lock. -/
def SyncThread.holdsLock : SyncThread → Bool
  | .locked _ | .synced _ | .failed => true
  | .idle | .checked | .loaded _ => false

namespace GroupState

variable (s : GroupState)

/-- Nobody holds the journal lock. -/
def journalFree : Bool :=
  !s.thread.holdsLock && s.commits.all fun c => decide (c.phase ≠ .appended)

/-- A commit moves on; the second component is the pending epoch. -/
def commitStep (mode : PersistMode) (s : GroupState) (c : GroupCommit) (piece : CommitPiece) :
    Option (GroupCommit × ℕ) :=
  match c.phase, piece with
  | .start, .check =>
    some ({ c with phase := if s.poisoned then .done false else .checked }, s.pendingEpoch)
  | .checked, .skipWal => some ({ c with phase := .inserting }, s.pendingEpoch)
  | .checked, .append =>
    if s.journalFree then
      match mode with
      | .syncData => some (⟨.appended, some .buffered⟩, s.pendingEpoch)
      -- `write_batch` does not sync in this mode
      | .buffer => some (⟨.inserting, some .buffered⟩, s.pendingEpoch)
    else none
  | .checked, .appendFail =>
    if s.journalFree then some ({ c with phase := .done false }, s.pendingEpoch) else none
  | .appended, .enrol =>
    some ({ c with phase := .waiting (s.pendingEpoch + 1) }, s.pendingEpoch + 1)
  | .waiting epoch, .loadSynced =>
    some ({ c with phase := if s.syncedEpoch < epoch then .lagging epoch else .inserting },
      s.pendingEpoch)
  | .lagging epoch, .loadPoisoned =>
    some ({ c with phase := if s.poisoned then .done false else .waiting epoch }, s.pendingEpoch)
  | .inserting, .returnOk => some ({ c with phase := .done true }, s.pendingEpoch)
  | _, _ => none

/-- The sync thread moves on. -/
def threadStep : Option GroupState :=
  match s.thread with
  | .idle => some { s with thread := if s.poisoned then .idle else .checked }
  | .checked => some { s with
      thread := if s.syncedEpoch < s.pendingEpoch then .loaded s.pendingEpoch else .idle }
  | .loaded pending => some { s with
      thread := if s.journalFree then .locked pending else .idle }
  | .locked _ => none
  | .synced pending => some { s with syncedEpoch := pending, thread := .idle }
  | .failed => some { s with poisoned := true, thread := .idle }

/-- A sync of the journal. -/
def syncBytes (r : SyncOutcome) : GroupState :=
  { s with commits := s.commits.map fun c => { c with bytes := c.bytes.map r.apply } }

end GroupState

/-- Commits, the sync thread and the other callers of `sync`. -/
def groupSys (mode : PersistMode) : TransSys GroupState GroupLabel where
  init := ⟨[], 0, 0, false, .idle, 0⟩
  next s
  | .begin => some { s with commits := s.commits ++ [⟨.start, none⟩] }
  | .commit i piece => do
    let c ← s.commits[i]?
    let (c', pending) ← s.commitStep mode c piece
    some { s with commits := s.commits.set i c', pendingEpoch := pending }
  | .thread => s.threadStep
  | .threadSync r =>
    match s.thread with
    | .locked pending => some { s.syncBytes r with
        thread := if r = .ok then .synced pending else .failed }
    | _ => none
  | .sync caller r =>
    if s.journalFree then some { s.syncBytes r with
      poisoning := if caller = .persist ∧ r ≠ .ok then s.poisoning + 1 else s.poisoning }
    else none
  | .persistPoison =>
    if 0 < s.poisoning then some { s with poisoned := true, poisoning := s.poisoning - 1 }
    else none

def GroupCommit.returned (c : GroupCommit) : Bool :=
  match c.phase with
  | .done _ => true
  | _ => false

/-- An `fsync` outside the sync thread fails only when every commit with bytes that no
sync has covered has returned. -/
def SyncGuard (s : GroupState) : GroupLabel → Prop
  | .sync _ .fsyncFailed => ∀ c ∈ s.commits, c.bytes = some .buffered → c.returned = true
  | _ => True

instance (s : GroupState) (l : GroupLabel) : Decidable (SyncGuard s l) := by
  unfold SyncGuard
  split <;> infer_instance

/-! ### The invariant -/

namespace GroupState

/-- The sync thread does not sync again. -/
def Halted (s : GroupState) : Prop :=
  s.thread = .failed ∨ s.thread = .idle ∧ s.poisoned = true

/-- The sync thread acknowledges, or is about to acknowledge, the epoch. -/
def Acked (s : GroupState) (epoch : ℕ) : Prop :=
  epoch ≤ s.syncedEpoch ∨ ∃ pending, s.thread = .synced pending ∧ epoch ≤ pending

end GroupState

/-- What holds of a commit that waits for an epoch: it has enrolled, its bytes are in
the file, and they are covered once the epoch is acknowledged. -/
structure Enrolled (s : GroupState) (bytes : Option ByteState) (epoch : ℕ) : Prop where
  le_pending : epoch ≤ s.pendingEpoch
  appended : bytes ≠ none
  acked : s.Acked epoch → bytes = some .covered

/-- What holds of the bytes of a commit at each of its phases. -/
def CommitPhase.Holds (mode : PersistMode) (s : GroupState) (bytes : Option ByteState) :
    CommitPhase → Prop
  | .start | .checked => bytes = none
  | .appended => mode = .syncData ∧ bytes = some .buffered
  | .waiting epoch | .lagging epoch => Enrolled s bytes epoch
  | .inserting => bytes = none ∨ bytes = some .covered ∨ mode = .buffer ∧ bytes = some .buffered
  | .done _ => True

/-- The invariant of one commit. Bytes are lost only under commits that have returned,
or when the sync thread has come to its end. -/
structure CommitInv (mode : PersistMode) (s : GroupState) (c : GroupCommit) : Prop where
  phase : c.phase.Holds mode s c.bytes
  tainted : c.bytes = some .tainted → c.returned = true ∨ s.Halted

/-- The invariant of the system. -/
structure GroupInv (mode : PersistMode) (s : GroupState) : Prop where
  commits : ∀ c ∈ s.commits, CommitInv mode s c
  synced_le : s.syncedEpoch ≤ s.pendingEpoch
  /-- The epochs the thread works on have been drawn. -/
  thread : ∀ p, s.thread = .loaded p ∨ s.thread = .locked p ∨ s.thread = .synced p →
    0 < p ∧ p ≤ s.pendingEpoch
  buffer : mode = .buffer → s.pendingEpoch = 0
  lock : s.thread.holdsLock = true → ∀ c ∈ s.commits, c.phase ≠ .appended

variable {epoch pending : ℕ} {piece : CommitPiece}

section

variable {mode : PersistMode} {s s' : GroupState} {c c' : GroupCommit}

lemma Enrolled.frame {bytes : Option ByteState} (h : Enrolled s bytes epoch)
    (hpending : s.pendingEpoch ≤ s'.pendingEpoch) (hacked : ∀ e, s'.Acked e → s.Acked e) :
    Enrolled s' bytes epoch :=
  ⟨h.le_pending.trans hpending, h.appended, fun ha => h.acked (hacked epoch ha)⟩

/-- A step that draws epochs at most, acknowledges none and leaves a halted thread
halted does not concern other commits. -/
lemma CommitInv.frame (h : CommitInv mode s c) (hpending : s.pendingEpoch ≤ s'.pendingEpoch)
    (hacked : ∀ e, s'.Acked e → s.Acked e) (hhalted : s.Halted → s'.Halted) :
    CommitInv mode s' c := by
  refine ⟨?_, fun ht => (h.tainted ht).imp_right hhalted⟩
  have hphase := h.phase
  cases hc : c.phase <;> rw [hc] at hphase
  case waiting epoch => exact Enrolled.frame hphase hpending hacked
  case lagging epoch => exact Enrolled.frame hphase hpending hacked
  all_goals exact hphase

lemma GroupInv.acked_le (h : GroupInv mode s) (ha : s.Acked epoch) : epoch ≤ s.pendingEpoch := by
  rcases ha with ha | ⟨p, hp, ha⟩
  · exact ha.trans h.synced_le
  · exact ha.trans (h.thread p (.inr (.inr hp))).2

/-- A commit moves on. It enrols above every acknowledged epoch, and leaves the wait
only for an acknowledged one. -/
lemma CommitInv.step (h : GroupInv mode s) (hc : CommitInv mode s c)
    (hstep : s.commitStep mode c piece = some (c', pending)) (commits : List GroupCommit) :
    CommitInv mode { s with commits := commits, pendingEpoch := pending } c' ∧
      s.pendingEpoch ≤ pending ∧ (mode = .buffer → pending = 0) := by
  have hphase := hc.phase
  unfold GroupState.commitStep at hstep
  split at hstep
  case h_1 hp =>
    -- the poison test
    cases hstep
    rw [hp] at hphase
    refine ⟨⟨?_, fun ht => ?_⟩, le_rfl, h.buffer⟩
    · dsimp only
      split
      · trivial
      · exact hphase
    · exact absurd (hphase.symm.trans ht) nofun
  case h_2 hp =>
    cases hstep
    rw [hp] at hphase
    exact ⟨⟨.inl hphase, fun ht => absurd (hphase.symm.trans ht) nofun⟩, le_rfl, h.buffer⟩
  case h_3 hp =>
    split at hstep
    · split at hstep
      · cases hstep
        exact ⟨⟨⟨rfl, rfl⟩, nofun⟩, le_rfl, h.buffer⟩
      · cases hstep
        exact ⟨⟨.inr (.inr ⟨rfl, rfl⟩), nofun⟩, le_rfl, h.buffer⟩
    · cases hstep
  case h_4 hp =>
    split at hstep <;> cases hstep
    exact ⟨⟨trivial, fun _ => .inl rfl⟩, le_rfl, h.buffer⟩
  case h_5 hp =>
    -- enrolment
    cases hstep
    rw [hp] at hphase
    obtain ⟨hmode, hbytes⟩ := hphase
    refine ⟨⟨⟨le_rfl, ?_, fun ha => ?_⟩, fun ht => ?_⟩, Nat.le_succ _, fun hm => ?_⟩
    · exact hbytes ▸ nofun
    · exact absurd (h.acked_le ha) (Nat.not_succ_le_self _)
    · exact absurd (hbytes.symm.trans ht) nofun
    · exact absurd (hmode.symm.trans hm) nofun
  case' h_6 epoch hp | h_7 epoch hp =>
    cases hstep
    rw [hp] at hphase
    have henr : Enrolled s c.bytes epoch := hphase
    have htaint : c.bytes = some .tainted → s.Halted := fun ht =>
      (hc.tainted ht).resolve_left fun hr => by rw [GroupCommit.returned, hp] at hr; cases hr
    refine ⟨⟨?_, fun ht => .inr (htaint ht)⟩, le_rfl, h.buffer⟩
    split
  · exact ⟨henr.le_pending, henr.appended, henr.acked⟩
  · next hlt =>
    -- the wait ends when the epoch is acknowledged, and then the bytes are covered
    exact .inr (.inl (henr.acked (.inl (not_lt.mp hlt))))
  · trivial
  · exact ⟨henr.le_pending, henr.appended, henr.acked⟩
  case h_8 hp =>
    cases hstep
    exact ⟨⟨trivial, fun _ => .inl rfl⟩, le_rfl, h.buffer⟩
  case h_9 => cases hstep

lemma ne_appended_of_commitStep (hl : s.thread.holdsLock = true)
    (hstep : s.commitStep mode c piece = some (c', pending)) : c'.phase ≠ .appended := by
  have hfree : s.journalFree = false := by rw [GroupState.journalFree, hl]; rfl
  unfold GroupState.commitStep at hstep
  rw [hfree] at hstep
  split at hstep
  case h_3 => cases hstep
  case h_4 => cases hstep
  case h_9 => cases hstep
  all_goals
    obtain ⟨rfl, -⟩ := Prod.mk.inj (some.inj hstep)
    first
    | (split <;> simp)
    | simp

lemma GroupInv.commit (h : GroupInv mode s) {i : ℕ} (hc : s.commits[i]? = some c)
    (hstep : s.commitStep mode c piece = some (c', pending)) :
    GroupInv mode { s with commits := s.commits.set i c', pendingEpoch := pending } := by
  have hinv := CommitInv.step h (h.commits c (mem_of_getElem? hc)) hstep (s.commits.set i c')
  refine ⟨forall_mem_set (fun d hd => ?_) hinv.1, h.synced_le.trans hinv.2.1, fun p hp => ?_,
    hinv.2.2, fun hl => forall_mem_set (h.lock hl) ?_⟩
  · exact (h.commits d hd).frame hinv.2.1 (fun e he => he) fun hh => hh
  · exact (h.thread p hp).imp_right fun hle => hle.trans hinv.2.1
  · exact ne_appended_of_commitStep (s := s) hl hstep

/-! ### Syncs -/

lemma SyncOutcome.apply_covered (r : SyncOutcome) : r.apply .covered = .covered := by
  cases r <;> rfl

lemma SyncOutcome.apply_ok {b : ByteState} (h : b ≠ .tainted) :
    SyncOutcome.ok.apply b = .covered := by
  cases b
  · rfl
  · rfl
  · exact absurd rfl h

lemma SyncOutcome.eq_of_apply_tainted {r : SyncOutcome} {b : ByteState}
    (h : r.apply b = .tainted) : b = .tainted ∨ r = .fsyncFailed ∧ b = .buffered := by
  cases b with
  | tainted => exact .inl rfl
  | covered => exact absurd (r.apply_covered.symm.trans h) nofun
  | buffered => cases r <;> first | exact .inr ⟨rfl, rfl⟩ | cases h

/-- An enrolled commit stays so, and a successful sync covers it. -/
lemma Enrolled.sync {bytes : Option ByteState} (h : Enrolled s bytes epoch) (r : SyncOutcome)
    (hpending : s'.pendingEpoch = s.pendingEpoch)
    (hacked : s'.Acked epoch → s.Acked epoch ∨ r = .ok ∧ bytes ≠ some .tainted) :
    Enrolled s' (bytes.map r.apply) epoch := by
  obtain ⟨b, hb⟩ := ne_none_iff_exists'.mp h.appended
  refine ⟨h.le_pending.trans hpending.ge, ?_, fun ha => ?_⟩
  · simp [hb]
  · rcases hacked ha with ha | ⟨rfl, hne⟩
    · simp [h.acked ha, SyncOutcome.apply_covered]
    · have hb' : b ≠ .tainted := fun heq => hne (hb.trans (congrArg some heq))
      simp [hb, SyncOutcome.apply_ok hb']

/-- A sync changes the bytes of a commit. Bytes may be lost when the commit has
returned, or by the sync thread. -/
lemma CommitInv.sync (hc : CommitInv mode s c) (hfree : c.phase ≠ .appended) (r : SyncOutcome)
    (hpending : s'.pendingEpoch = s.pendingEpoch)
    (hacked : ∀ e, s'.Acked e → s.Acked e ∨ r = .ok ∧ ¬ s.Halted)
    (hhalted : s.Halted → s'.Halted)
    (htaint : r = .fsyncFailed → c.bytes = some .buffered →
      c.returned = true ∨ mode = .syncData ∧ s'.Halted) :
    CommitInv mode s' { c with bytes := c.bytes.map r.apply } := by
  have hphase := hc.phase
  -- a commit that waits has its bytes when the thread is still at work
  have hwait : c.returned = false → ∀ e, s'.Acked e →
      s.Acked e ∨ r = .ok ∧ c.bytes ≠ some .tainted := fun hr e he =>
    (hacked e he).imp_right fun ⟨hok, hh⟩ => ⟨hok, fun ht =>
      (hc.tainted ht).elim (fun hr' => by rw [hr] at hr'; cases hr') hh⟩
  constructor
  · change CommitPhase.Holds mode s' _ c.phase
    cases hp : c.phase <;> rw [hp] at hphase
    case start => exact congrArg (Option.map r.apply) hphase
    case checked => exact congrArg (Option.map r.apply) hphase
    case appended => exact absurd hp hfree
    case waiting epoch =>
      exact Enrolled.sync hphase r hpending (hwait (by rw [GroupCommit.returned, hp]) epoch)
    case lagging epoch =>
      exact Enrolled.sync hphase r hpending (hwait (by rw [GroupCommit.returned, hp]) epoch)
    case inserting =>
      rcases hphase with hb | hb | ⟨hm, hb⟩
      · exact .inl (congrArg (Option.map r.apply) hb)
      · refine .inr (.inl ?_)
        simp [hb, SyncOutcome.apply_covered]
      · cases r with
        | ok | rollFailed => exact .inr (.inl (by simp [hb, SyncOutcome.apply]))
        | flushFailed => exact .inr (.inr ⟨hm, by simp [hb, SyncOutcome.apply]⟩)
        | fsyncFailed =>
          rcases htaint rfl hb with hr | ⟨hm', -⟩
          · rw [GroupCommit.returned, hp] at hr
            cases hr
          · exact absurd (hm.symm.trans hm') nofun
    case done => trivial
  · intro ht
    obtain ⟨b, hb, hbt⟩ := map_eq_some_iff.mp ht
    rcases SyncOutcome.eq_of_apply_tainted hbt with rfl | ⟨rfl, rfl⟩
    · exact (hc.tainted hb).imp_right hhalted
    · exact (htaint rfl hb).imp_right And.right

lemma GroupState.syncBytes_lock (s : GroupState) (r : SyncOutcome)
    (h : ∀ c ∈ s.commits, c.phase ≠ .appended) :
    ∀ c ∈ (s.syncBytes r).commits, c.phase ≠ .appended := by
  intro c' hc'
  obtain ⟨c, hc, rfl⟩ := mem_map.mp hc'
  exact h c hc

lemma ne_appended_of_journalFree (h : s.journalFree = true) :
    ∀ c ∈ s.commits, c.phase ≠ .appended := by
  have hall := (Bool.and_eq_true_iff.mp h).2
  exact fun c hc => of_decide_eq_true (all_eq_true.mp hall c hc)

lemma GroupInv.sync (h : GroupInv mode s) {r : SyncOutcome} (hfree : s.journalFree = true)
    (hok : r = .fsyncFailed → ∀ c ∈ s.commits, c.bytes = some .buffered → c.returned = true)
    (n : ℕ) : GroupInv mode { s.syncBytes r with poisoning := n } := by
  refine ⟨fun c' hc' => ?_, h.synced_le, h.thread, h.buffer, fun hl =>
    s.syncBytes_lock r (h.lock hl)⟩
  obtain ⟨c, hc, rfl⟩ := mem_map.mp hc'
  exact (h.commits c hc).sync (ne_appended_of_journalFree hfree c hc) r rfl (fun e he => .inl he)
    (fun hh => hh) fun hr hb => .inl (hok hr c hc hb)

lemma not_halted_of_ne (hidle : s.thread ≠ .idle) (hfailed : s.thread ≠ .failed) : ¬ s.Halted := by
  rintro (hh | ⟨hh, -⟩)
  · exact hfailed hh
  · exact hidle hh

section

variable (h : GroupInv mode s)

include h

lemma GroupInv.threadSync {p : ℕ} (hthread : s.thread = .locked p) (r : SyncOutcome) :
    GroupInv mode { s.syncBytes r with thread := if r = .ok then .synced p else .failed } := by
  have hhalted := not_halted_of_ne (s := s) (hthread ▸ nofun) (hthread ▸ nofun)
  have hp := h.thread p (.inr (.inl hthread))
  have hfree := h.lock (by rw [hthread]; rfl)
  have hmode : mode = .syncData := by
    cases mode with
    | syncData => rfl
    | buffer =>
      have := h.buffer rfl
      omega
  refine ⟨fun c' hc' => ?_, h.synced_le, fun q hq => ?_, h.buffer,
    fun _ => s.syncBytes_lock r hfree⟩
  · obtain ⟨c, hc, rfl⟩ := mem_map.mp hc'
    refine (h.commits c hc).sync (hfree c hc) r rfl (fun e he => ?_) (fun hh => absurd hh hhalted)
      fun hr _ => .inr ⟨hmode, ?_⟩
    · rcases he with he | ⟨q, hq, -⟩
      · exact .inl (.inl he)
      · refine .inr ⟨?_, hhalted⟩
        by_contra hne
        exact absurd ((if_neg hne).symm.trans hq) nofun
    · rw [hr]
      exact .inl rfl
  · split at hq
    · rcases hq with hq | hq | hq
      · cases hq
      · cases hq
      · cases hq
        exact hp
    · rcases hq with hq | hq | hq <;> cases hq

/-- What the thread may change: it halts for good, and acknowledges no epoch that it has
not synced. -/
lemma GroupInv.move (hcommits : s'.commits = s.commits)
    (hpending : s'.pendingEpoch = s.pendingEpoch) (hsynced : s'.syncedEpoch ≤ s.pendingEpoch)
    (hacked : ∀ e, s'.Acked e → s.Acked e) (hhalted : s.Halted → s'.Halted)
    (hthread : ∀ p, s'.thread = .loaded p ∨ s'.thread = .locked p ∨ s'.thread = .synced p →
      0 < p ∧ p ≤ s.pendingEpoch)
    (hlock : s'.thread.holdsLock = true → ∀ c ∈ s.commits, c.phase ≠ .appended) :
    GroupInv mode s' := by
  refine ⟨fun c hc => ?_, hpending ▸ hsynced, hpending ▸ hthread, hpending ▸ h.buffer,
    hcommits ▸ hlock⟩
  exact (h.commits c (hcommits ▸ hc)).frame hpending.ge hacked hhalted


/-- The thread moves on without a sync. -/
lemma GroupInv.setThread {t : SyncThread} (hsynced : ∀ p, t ≠ .synced p)
    (hhalted : s.Halted → t = .idle ∧ s.poisoned = true)
    (hthread : ∀ p, t = .loaded p ∨ t = .locked p → 0 < p ∧ p ≤ s.pendingEpoch)
    (hlock : t.holdsLock = true → ∀ c ∈ s.commits, c.phase ≠ .appended) :
    GroupInv mode { s with thread := t } := by
  refine h.move rfl rfl h.synced_le ?_ (fun hh => .inr (hhalted hh)) ?_ hlock
  · rintro e (he | ⟨p, hp, -⟩)
    · exact .inl he
    · exact absurd hp (hsynced p)
  · rintro p (hp | hp | hp)
    · exact hthread p (.inl hp)
    · exact hthread p (.inr hp)
    · exact absurd hp (hsynced p)

lemma GroupInv.thread_step (hstep : s.threadStep = some s') : GroupInv mode s' := by
  unfold GroupState.threadStep at hstep
  split at hstep
  case h_1 hthread =>
    -- only an idle thread can be halted, and a halted one stays idle
    cases hstep
    split
    · next hp => exact h.setThread nofun (fun _ => ⟨rfl, hp⟩) (by simp) nofun
    · next hp =>
      exact h.setThread nofun (fun hh => absurd (hh.resolve_left (hthread ▸ nofun)).2 hp) (by simp)
        nofun
  case h_2 hthread =>
    cases hstep
    have hhalt := not_halted_of_ne (s := s) (hthread ▸ nofun) (hthread ▸ nofun)
    split
    · next hlt =>
      refine h.setThread nofun (absurd · hhalt) ?_ nofun
      rintro p (hp | hp) <;> cases hp
      exact ⟨Nat.zero_lt_of_lt hlt, le_rfl⟩
    · exact h.setThread nofun (absurd · hhalt) (by simp) nofun
  case h_3 p hthread =>
    cases hstep
    have hhalt := not_halted_of_ne (s := s) (hthread ▸ nofun) (hthread ▸ nofun)
    split
    · next hfree =>
      refine h.setThread nofun (absurd · hhalt) ?_ fun _ => ne_appended_of_journalFree hfree
      rintro q (hq | hq) <;> cases hq
      exact h.thread p (.inl hthread)
    · exact h.setThread nofun (absurd · hhalt) (by simp) nofun
  case h_4 => cases hstep
  case h_5 p hthread =>
    -- the store makes no epoch acknowledged that was not about to be
    cases hstep
    have hhalt := not_halted_of_ne (s := s) (hthread ▸ nofun) (hthread ▸ nofun)
    refine h.move rfl rfl (h.thread p (.inr (.inr hthread))).2 ?_ (absurd · hhalt) ?_ nofun
    · rintro e (he | ⟨q, hq, -⟩)
      · exact .inr ⟨p, hthread, he⟩
      · cases hq
    · intro q hq
      simp at hq
  case h_6 hthread =>
    cases hstep
    refine h.move rfl rfl h.synced_le ?_ (fun _ => .inr ⟨rfl, rfl⟩) ?_ nofun
    · rintro e (he | ⟨q, hq, -⟩)
      · exact .inl he
      · cases hq
    · intro q hq
      simp at hq

end

/-! ### Runs -/

lemma groupInv_step {l : GroupLabel} (h : GroupInv mode s) (hok : SyncGuard s l)
    (hnext : (groupSys mode).next s l = some s') : GroupInv mode s' := by
  cases l with
  | begin =>
    cases hnext
    refine ⟨forall_mem_concat (fun c hc => ?_) ⟨rfl, nofun⟩, h.synced_le, h.thread, h.buffer,
      fun hl => forall_mem_concat (h.lock hl) nofun⟩
    exact (h.commits c hc).frame le_rfl (fun e he => he) fun hh => hh
  | commit i piece =>
    obtain ⟨c, hc, hnext⟩ := bind_eq_some_iff.mp hnext
    obtain ⟨⟨c', pending⟩, hstep, hnext⟩ := bind_eq_some_iff.mp hnext
    cases hnext
    exact h.commit hc hstep
  | thread => exact h.thread_step hnext
  | threadSync r =>
    change (match s.thread with | .locked _ => _ | _ => none) = _ at hnext
    split at hnext <;> cases hnext
    next p hthread => exact h.threadSync hthread r
  | sync caller r =>
    change (if _ then _ else none) = _ at hnext
    split at hnext <;> cases hnext
    next hfree => exact h.sync hfree (fun hr => by subst hr; exact hok) _
  | persistPoison =>
    change (if _ then _ else none) = _ at hnext
    split at hnext <;> cases hnext
    exact h.move rfl rfl h.synced_le (fun e he => he)
      (fun hh => hh.imp_right fun hidle => ⟨hidle.1, rfl⟩) h.thread h.lock

lemma groupInv_reach (h : (groupSys mode).Reach SyncGuard s) : GroupInv mode s :=
  h.invariant (GroupInv mode)
    ⟨fun c hc => (not_mem_nil hc).elim, le_rfl, fun p hp => by simp [groupSys] at hp,
      fun _ => rfl, fun _ c hc => (not_mem_nil hc).elim⟩
    fun _ _ _ hinv hok hnext => groupInv_step hinv hok hnext

end

/-- **No false acknowledgement.** In every guarded run a commit that returns `Ok` has no
bytes that a failed `fsync` has dropped; with `SyncData`, bytes it has appended are
covered by a successful one. -/
theorem no_ack_after_failed_fsync (mode : PersistMode) (s s' : GroupState)
    (h : (groupSys mode).Reach SyncGuard s) (i : ℕ)
    (hnext : (groupSys mode).next s (.commit i .returnOk) = some s') :
    ∃ c, s.commits[i]? = some c ∧ c.bytes ≠ some .tainted ∧
      (mode = .syncData → c.bytes = none ∨ c.bytes = some .covered) := by
  obtain ⟨c, hc, hnext⟩ := bind_eq_some_iff.mp hnext
  obtain ⟨⟨c', pending⟩, hstep, -⟩ := bind_eq_some_iff.mp hnext
  have hphase := ((groupInv_reach h).commits c (mem_of_getElem? hc)).phase
  have hins : c.phase = .inserting := by
    unfold GroupState.commitStep at hstep
    cases hp : c.phase with
    | inserting => rfl
    | _ => rw [hp] at hstep; cases hstep
  rw [hins] at hphase
  refine ⟨c, hc, ?_⟩
  rcases hphase with hb | hb | ⟨rfl, hb⟩
  · exact ⟨hb ▸ nofun, fun _ => .inl hb⟩
  · exact ⟨hb ▸ nofun, fun _ => .inr hb⟩
  · exact ⟨hb ▸ nofun, nofun⟩

/-- A commit enrols and the sync thread passes its poison test; a sync elsewhere fails;
the thread takes the lock, syncs and acknowledges. -/
def syncFailsElsewhere (caller : SyncCaller) : List GroupLabel :=
  [.begin, .commit 0 .check, .commit 0 .append, .commit 0 .enrol, .thread, .thread,
    .sync caller .fsyncFailed, .thread, .threadSync .ok, .thread, .commit 0 .loadSynced,
    .commit 0 .returnOk]

/-- A commit in `Buffer` mode returns after a `persist` has failed on its bytes. -/
def persistFailsOnBuffered : List GroupLabel :=
  [.begin, .commit 0 .check, .commit 0 .append, .sync .persist .fsyncFailed, .persistPoison,
    .commit 0 .returnOk]

theorem ack_after_failed_fsync : (∀ caller, ∃ s, (groupSys .syncData).run (groupSys .syncData).init
      (syncFailsElsewhere caller) = some s ∧ s.commits = [⟨.done true, some .tainted⟩]) ∧
    ∃ s, (groupSys .buffer).Reach TransSys.anyStep s ∧ s.poisoned = true ∧
      s.commits = [⟨.done true, some .tainted⟩] := by
  constructor
  · intro caller
    cases caller <;> exact ⟨_, rfl, rfl⟩
  · exact TransSys.exists_reach_of_run persistFailsOnBuffered (by decide)

/-- One commit is acknowledged, the sync for the next one fails, and a `persist` between
them fails when all bytes are covered. -/
theorem no_ack_after_failed_fsync_two_commits : ∃ s, (groupSys .syncData).Reach SyncGuard s ∧
      s.commits = [⟨.inserting, some .covered⟩, ⟨.done false, some .tainted⟩] ∧
        ∃ c, s.commits[0]? = some c ∧ c.bytes ≠ some .tainted := by
  obtain ⟨s, hs, hcommits, hnext⟩ : ∃ s, (groupSys .syncData).Reach SyncGuard s ∧
      s.commits = [⟨.inserting, some .covered⟩, ⟨.done false, some .tainted⟩] ∧
        ((groupSys .syncData).next s (.commit 0 .returnOk)).isSome = true :=
    TransSys.exists_reach_of_runWith [.begin, .commit 0 .check, .begin, .commit 1 .check,
      .commit 0 .append, .commit 0 .enrol, .thread, .thread, .thread, .threadSync .ok, .thread,
      .sync .persist .fsyncFailed, .commit 0 .loadSynced, .commit 1 .append, .commit 1 .enrol,
      .thread, .thread, .thread, .threadSync .fsyncFailed, .thread, .commit 1 .loadSynced,
      .commit 1 .loadPoisoned] (by decide)
  obtain ⟨s', hs'⟩ := isSome_iff_exists.mp hnext
  obtain ⟨c, hc, hne, -⟩ := no_ack_after_failed_fsync .syncData s s' hs 0 hs'
  exact ⟨s, hs, hcommits, c, hc, hne⟩

end XyzDB
