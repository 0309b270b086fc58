import XyzDB.Turba.Refinement

/-!
# The engine and its two write paths

A `TurbaEngine` holds one tree per keyspace and a counter of its own. A committed
batch draws one number from that counter and inserts all its items under it; a direct
`Tree::insert` or `Tree::remove` draws from the counter of the tree. The two counters
only meet in `insert_with_seqno`, which raises the tree's counter to the batch's
number, never the engine's counter to the tree's.

`engineSys` is an engine driven by one client, call after call.
-/

namespace XyzDB

/-- The keyspaces of an engine. -/
inductive Keyspace where
  | spatial
  | identity
  | dictionary
  | ghosts
  | vectors
  deriving DecidableEq

/-- All keyspaces, in the order of their ids. -/
def Keyspace.all : List Keyspace := [.spatial, .identity, .dictionary, .ghosts, .vectors]

lemma Keyspace.mem_all (ks : Keyspace) : ks ∈ Keyspace.all := by cases ks <;> decide

/-- One item of a write batch. -/
structure BatchItem where
  keyspace : Keyspace
  key : Key
  value : Value
  valueType : ValueType
  deriving DecidableEq

/-- The entry an item becomes under the number of its batch. -/
def BatchItem.entry (item : BatchItem) (seqno : ℕ) : Entry :=
  ⟨item.key, item.value, seqno, item.valueType⟩

/-- The trees of an engine and the engine's counter. -/
structure TurbaEngine where
  trees : Keyspace → Tree Memtable
  seqno : ℕ

namespace TurbaEngine

/-- Step 3 of `WriteBatch::commit`: insert the items one by one. -/
def insertItems (seqno : ℕ) (items : List BatchItem) (trees : Keyspace → Tree Memtable) :
    Keyspace → Tree Memtable :=
  items.foldl (fun trees item => Function.update trees item.keyspace
    ((trees item.keyspace).insertWithSeqno (item.entry seqno))) trees

/-- `maybe_trigger_flush`: seal a memtable that is large enough. -/
def maybeTriggerFlush (cfg : TreeConfig) (t : Tree Memtable) : Tree Memtable :=
  if cfg.maxMemtableSize ≤ t.current.active.approximateSize then t.sealActive else t

/-- `WriteBatch::commit`, as far as the trees are concerned. Backpressure only waits. -/
def commit (cfg : Keyspace → TreeConfig) (e : TurbaEngine) (items : List BatchItem) : TurbaEngine :=
  if items = [] then e
  else
    let seqno := e.seqno + 1
    let trees := insertItems seqno items e.trees
    { trees := fun ks =>
        if items.any fun item => item.keyspace = ks then maybeTriggerFlush (cfg ks) (trees ks)
        else trees ks
      seqno := seqno }

end TurbaEngine

/-- The calls of a client: a committed batch, or a call on one tree. -/
inductive EngineOp where
  | commit (items : List BatchItem)
  | tree (ks : Keyspace) (op : TreeOp)

/-- An item as a write of its tree. -/
def BatchItem.op (item : BatchItem) : TreeOp :=
  match item.valueType with
  | .value => .insert item.key item.value
  | .tombstone => .remove item.key

/-- An engine and, for each keyspace, the writes and calls made so far in program
order. -/
structure EngineState where
  engine : TurbaEngine
  history : Keyspace → List TreeOp

/-- An engine driven by one client. -/
def engineSys (cfg : Keyspace → TreeConfig) : TransSys EngineState EngineOp where
  init := ⟨⟨fun _ => .empty, 0⟩, fun _ => []⟩
  next s
  | .commit items => some
      { engine := s.engine.commit cfg items
        history := fun ks => s.history ks ++
          (items.filter fun item => item.keyspace = ks).map BatchItem.op }
  | .tree ks op => ((s.engine.trees ks).apply (cfg ks) op).map fun t =>
      { engine := { s.engine with trees := Function.update s.engine.trees ks t }
        history := Function.update s.history ks (s.history ks ++ [op]) }

end XyzDB
