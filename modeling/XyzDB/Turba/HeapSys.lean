import XyzDB.Lib.TransSys
import XyzDB.Turba.Reads

/-!
# A tree with memtables by reference

Writers take no lock. `insert`, `remove` and `insert_with_seqno` load the current
super-version and insert into the active memtable they find there, and by the time
they insert, that memtable may have been sealed, written out or dropped. Scans in turn
read memtables that writers still insert into. Here super-versions therefore hold
handles, and the memtables live in `HeapState.mems`.

`heapSys` interleaves any number of writers, seals, one flush at a time, and one scan.

* A writer draws its number (a direct write from the tree's counter, a commit from the
  engine's), and then for each of its items raises the tree's counter, loads the
  super-version and inserts.
* A flush takes the sealed memtables and their highest sequence number, writes them
  out one by one, installs the tables, reads the compaction flag, persists the
  manifest, and advances the counters.
* A scan loads the visible sequence number, loads the super-version, and reads one
  memtable after the other; the tables of the version it loaded do not change.

There is no compaction here, so the tables of a version are those of its flushes.
-/

namespace XyzDB

/-- Where a writer stands with its next item. -/
inductive WriterPhase where
  | drawn
  /-- Has raised the tree's counter. -/
  | raised
  /-- Holds the active memtable of the super-version it loaded. -/
  | loaded (active : ℕ)

/-- A call of `insert`, `remove` or `commit`. -/
structure Writer where
  seqno : ℕ
  /-- The items inserted so far. -/
  inserted : List (Key × Value × ValueType)
  /-- The items still to be inserted. -/
  left : List (Key × Value × ValueType)
  phase : WriterPhase

/-- The entry of an item under the number of its writer. -/
def entryAt (seqno : ℕ) (item : Key × Value × ValueType) : Entry :=
  ⟨item.1, item.2.1, seqno, item.2.2⟩

/-- All entries of a writer, in the order of its items. -/
def Writer.entries (w : Writer) : List Entry := (w.inserted ++ w.left).map (entryAt w.seqno)

/-- Where the running call of `flush_sealed` stands. -/
inductive HeapFlush where
  | idle
  /-- Holds a snapshot of the sealed memtables and has written out the first `done` of
  them. -/
  | reading (memtables : List ℕ) (maxFlushed done : ℕ) (tables : List Table)
  | installed (maxFlushed : ℕ)
  /-- Has read the compaction flag as set. -/
  | persisting (maxFlushed : ℕ)
  | persisted (maxFlushed : ℕ) (manifestPersisted : Bool)

/-- Where the running call of `range_stream` stands. -/
inductive HeapScan where
  | idle
  | seqnoLoaded (start stop : Key) (visibleSeqno : ℕ)
  /-- Holds a super-version and has read some of its memtables, the active one first. -/
  | reading (start stop : Key) (visibleSeqno : ℕ) (version : Version) (read : List Memtable)
    (left : List ℕ)
  | done (start stop : Key) (visibleSeqno : ℕ) (out : List Entry)

/-- A tree, its memtables and its threads. -/
structure HeapState where
  tree : Tree ℕ
  mems : ℕ → Memtable
  /-- The next handle to be handed out. -/
  nextMem : ℕ
  /-- The engine's counter, which commits draw from. -/
  engineSeqno : ℕ
  /-- Every writer so far, in the order they started. -/
  writers : List Writer
  flush : HeapFlush
  scan : HeapScan
  /-- Every entry inserted, newest insert first. -/
  log : List Entry

/-- The steps of the threads. -/
inductive HeapLabel where
  | insert (userKey : Key) (value : Value)
  | remove (userKey : Key)
  | commit (items : List (Key × Value × ValueType))
  /-- The next piece of a writer. -/
  | write (i : ℕ)
  | sealActive
  /-- The next piece of the running flush, or its start. -/
  | flush
  | scan (start stop : Key)
  /-- The next piece of the running scan. -/
  | scanStep

/-- The steps that start a direct write. -/
def HeapLabel.isDirect : HeapLabel → Bool
  | .insert _ _ | .remove _ => true
  | _ => false

/-- Look up the memtables of a super-version. -/
def SuperVersion.resolve (mems : ℕ → Memtable) (sv : SuperVersion ℕ) : SuperVersion Memtable :=
  ⟨mems sv.active, sv.sealed.map mems, sv.version⟩

namespace HeapState

section

variable (s : HeapState)

/-- A direct write draws the next number of the tree's counter. -/
def startDirect (item : Key × Value × ValueType) : HeapState :=
  { s with
    tree := { s.tree with seqno := s.tree.seqno + 1 }
    writers := s.writers ++ [⟨s.tree.seqno + 1, [], [item], .raised⟩] }

/-- A commit draws the next number of the engine's counter. -/
def startCommit (items : List (Key × Value × ValueType)) : HeapState :=
  { s with
    engineSeqno := s.engineSeqno + 1
    writers := s.writers ++ [⟨s.engineSeqno + 1, [], items, .drawn⟩] }

/-- Insert an entry into a memtable and log it. -/
def put (mem : ℕ) (e : Entry) : HeapState :=
  { s with mems := Function.update s.mems mem ((s.mems mem).insert e), log := e :: s.log }

/-- The next piece of a writer; `none` when it has no item left. -/
def writeStep (i : ℕ) (w : Writer) : Option HeapState :=
  match w.left with
  | [] => none
  | item :: left =>
    match w.phase with
    | .drawn => some { s with
        tree := { s.tree with seqno := max s.tree.seqno w.seqno }
        writers := s.writers.set i { w with phase := .raised } }
    | .raised => some { s with
        writers := s.writers.set i { w with phase := .loaded s.tree.current.active } }
    | .loaded mem => some { s.put mem (entryAt w.seqno item) with
        writers := s.writers.set i ⟨w.seqno, w.inserted ++ [item], left, .drawn⟩ }

/-- `seal_active`: a fresh memtable takes the place of the active one. -/
def sealActive : HeapState :=
  if (s.mems s.tree.current.active).isEmpty then s
  else { s with
    tree := s.tree.sealWith s.nextMem
    mems := Function.update s.mems s.nextMem .new
    nextMem := s.nextMem + 1 }

end

/-- The next piece of the running flush. -/
def flushStep (cfg : TreeConfig) (s : HeapState) : HeapFlush → HeapState
  | .idle =>
    if s.tree.current.sealed = [] then s
    else
      let maxFlushed := Tree.maxFlushed (s.tree.current.sealed.map s.mems)
      { s with flush := .reading s.tree.current.sealed maxFlushed 0 [] }
  | .reading memtables maxFlushed done tables =>
    match memtables[done]? with
    | some mem =>
      let new := Tree.flushTables cfg s.tree.compactionEnabled s.tree.nextTableId [s.mems mem]
      { s with
        tree := s.tree.allocate 1
        flush := .reading memtables maxFlushed (done + 1) (tables ++ new) }
    | none => { s with
        tree := s.tree.installFlush tables memtables.length
        flush := .installed maxFlushed }
  | .installed maxFlushed => { s with
      flush := if s.tree.compactionEnabled then .persisting maxFlushed
        else .persisted maxFlushed false }
  | .persisting maxFlushed => { s with
      tree := s.tree.persistManifest
      flush := .persisted maxFlushed true }
  | .persisted maxFlushed manifestPersisted => { s with
      tree := s.tree.flushAdvance maxFlushed manifestPersisted
      flush := .idle }

/-- The next piece of the running scan; `none` when none runs. -/
def scanStep (cfg : TreeConfig) (s : HeapState) : HeapScan → Option HeapState
  | .seqnoLoaded start stop visible =>
    let sv := s.tree.current
    some { s with scan := .reading start stop visible sv.version [] (sv.active :: sv.sealed) }
  | .reading start stop visible version read (mem :: left) => some { s with
      scan := .reading start stop visible version (read ++ [s.mems mem]) left }
  | .reading start stop visible version (active :: sealed) [] =>
    let out := (SuperVersion.mk active sealed version).scan cfg (.closed start stop) visible
    some { s with scan := .done start stop visible out }
  | .reading _ _ _ _ [] [] | .idle | .done _ _ _ _ => none

end HeapState

open HeapState in
/-- One tree, its memtables by reference, and everything that runs against it. -/
def heapSys (cfg : TreeConfig) : TransSys HeapState HeapLabel where
  init := ⟨.openWith 0 none, fun _ => .new, 1, 0, [], .idle, .idle, []⟩
  next s
  | .insert k v => some (s.startDirect (k, v, .value))
  | .remove k => some (s.startDirect (k, [], .tombstone))
  | .commit items => some (s.startCommit items)
  | .write i => s.writers[i]?.bind (s.writeStep i)
  | .sealActive => some s.sealActive
  | .flush => some (s.flushStep cfg s.flush)
  | .scan start stop =>
    match s.scan with
    | .idle | .done _ _ _ _ => some { s with scan := .seqnoLoaded start stop s.tree.seqno }
    | _ => none
  | .scanStep => s.scanStep cfg s.scan

/-- All that a step can do. -/
inductive HeapStep (cfg : TreeConfig) (s : HeapState) : HeapLabel → HeapState → Prop
  | quiet (l : HeapLabel) : HeapStep cfg s l s
  | direct (l : HeapLabel) (item : Key × Value × ValueType) (hl : l.isDirect = true) :
      HeapStep cfg s l (s.startDirect item)
  | commit (items : List (Key × Value × ValueType)) :
      HeapStep cfg s (.commit items) (s.startCommit items)
  | raise (i : ℕ) (w : Writer) (hw : s.writers[i]? = some w) (hphase : w.phase = .drawn)
      (hne : w.left ≠ []) : HeapStep cfg s (.write i)
      { s with
        tree := { s.tree with seqno := max s.tree.seqno w.seqno }
        writers := s.writers.set i { w with phase := .raised } }
  | load (i : ℕ) (w : Writer) (hw : s.writers[i]? = some w) (hphase : w.phase = .raised)
      (hne : w.left ≠ []) : HeapStep cfg s (.write i)
      { s with writers := s.writers.set i { w with phase := .loaded s.tree.current.active } }
  | put (i : ℕ) (w : Writer) (hw : s.writers[i]? = some w) (mem : ℕ)
      (hphase : w.phase = .loaded mem) (item : Key × Value × ValueType)
      (left : List (Key × Value × ValueType)) (hleft : w.left = item :: left) :
      HeapStep cfg s (.write i)
      { s.put mem (entryAt w.seqno item) with
        writers := s.writers.set i ⟨w.seqno, w.inserted ++ [item], left, .drawn⟩ }
  | sealActive (hne : (s.mems s.tree.current.active).isEmpty = false) : HeapStep cfg s .sealActive
      { s with
        tree := s.tree.sealWith s.nextMem
        mems := Function.update s.mems s.nextMem .new
        nextMem := s.nextMem + 1 }
  | snapshot (hidle : s.flush = .idle) : HeapStep cfg s .flush
      { s with
        flush := .reading s.tree.current.sealed
          (Tree.maxFlushed (s.tree.current.sealed.map s.mems)) 0 [] }
  | readOut (memtables : List ℕ) (maxFlushed done : ℕ) (tables : List Table)
      (hflush : s.flush = .reading memtables maxFlushed done tables) (mem : ℕ)
      (hmem : memtables[done]? = some mem) : HeapStep cfg s .flush
      { s with
        tree := s.tree.allocate 1
        flush := .reading memtables maxFlushed (done + 1) (tables ++
          Tree.flushTables cfg s.tree.compactionEnabled s.tree.nextTableId [s.mems mem]) }
  | install (memtables : List ℕ) (maxFlushed done : ℕ) (tables : List Table)
      (hflush : s.flush = .reading memtables maxFlushed done tables)
      (hdone : memtables[done]? = none) : HeapStep cfg s .flush
      { s with
        tree := s.tree.installFlush tables memtables.length
        flush := .installed maxFlushed }
  | flag (maxFlushed : ℕ) (hflush : s.flush = .installed maxFlushed) : HeapStep cfg s .flush
      { s with
        flush := if s.tree.compactionEnabled then .persisting maxFlushed
          else .persisted maxFlushed false }
  | persist (maxFlushed : ℕ) (hflush : s.flush = .persisting maxFlushed) : HeapStep cfg s .flush
      { s with tree := s.tree.persistManifest, flush := .persisted maxFlushed true }
  | advance (maxFlushed : ℕ) (b : Bool) (hflush : s.flush = .persisted maxFlushed b) :
      HeapStep cfg s .flush
      { s with tree := s.tree.flushAdvance maxFlushed b, flush := .idle }
  | scan (start stop : Key) : HeapStep cfg s (.scan start stop)
      { s with scan := .seqnoLoaded start stop s.tree.seqno }
  | scanStep (s' : HeapState) (hnext : s.scanStep cfg s.scan = some s') :
      HeapStep cfg s .scanStep s'

section

variable {cfg : TreeConfig} {s s' : HeapState} {l : HeapLabel}

lemma HeapStep.of_flushStep : HeapStep cfg s .flush (s.flushStep cfg s.flush) := by
  cases hf : s.flush with
  | idle =>
    unfold HeapState.flushStep
    dsimp only
    split
    · exact .quiet .flush
    · exact .snapshot hf
  | reading memtables maxFlushed done tables =>
    unfold HeapState.flushStep
    dsimp only
    split
    · next mem hmem => exact .readOut memtables maxFlushed done tables hf mem hmem
    · next hnone => exact .install memtables maxFlushed done tables hf hnone
  | installed maxFlushed => exact .flag maxFlushed hf
  | persisting maxFlushed => exact .persist maxFlushed hf
  | persisted maxFlushed b => exact .advance maxFlushed b hf

lemma HeapStep.of_writeStep {i : ℕ} {w : Writer} (hw : s.writers[i]? = some w)
    (h : s.writeStep i w = some s') : HeapStep cfg s (.write i) s' := by
  unfold HeapState.writeStep at h
  split at h
  · cases h
  · next item left hleft =>
    split at h
    · next hphase =>
      cases h
      exact .raise i w hw hphase (by simp [hleft])
    · next hphase =>
      cases h
      exact .load i w hw hphase (by simp [hleft])
    · next mem hphase =>
      cases h
      exact .put i w hw mem hphase item left hleft

/-- **Inversion.** Every step of the system is one of the listed ones. -/
theorem heapStep_of_next (h : (heapSys cfg).next s l = some s') : HeapStep cfg s l s' := by
  cases l with
  | insert | remove =>
    cases h
    exact .direct _ _ rfl
  | commit items =>
    cases h
    exact .commit items
  | write i =>
    obtain ⟨w, hw, hstep⟩ := Option.bind_eq_some_iff.mp h
    exact .of_writeStep hw hstep
  | sealActive =>
    cases h
    unfold HeapState.sealActive
    split
    · exact .quiet _
    · next hne => exact .sealActive (by simpa using hne)
  | flush =>
    cases h
    exact .of_flushStep
  | scan start stop =>
    simp only [heapSys] at h
    split at h
    · cases h
      exact .scan start stop
    · cases h
      exact .scan start stop
    · cases h
  | scanStep => exact .scanStep s' h

end

end XyzDB
