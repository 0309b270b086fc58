import XyzDB.Turba.HeapInv

/-!
# The layers of a tree

A super-version is a stack of layers: its tables at the bottom, the sealed memtables
over them, the active memtable on top. `Layered R` says that everything in a lower layer
is related by `R` to everything in a higher one. Nothing a flush does can break it,
because a flush turns the lowest memtables into the highest tables; what keeps it is that
every insert fits between the layers below and above the one it goes to
(`HeapState.Fits`).
-/

namespace XyzDB

open KeyRuns List SuperVersion

/-- An entry fits between the layers below and above the memtable it goes to. -/
def HeapState.Fits (R : Entry → Entry → Prop) (s : HeapState) (mem : ℕ) (e : Entry) : Prop :=
  (∀ m ∈ s.live, (m < mem → ∀ x ∈ (s.mems m).entries, R x e) ∧
    (mem < m → ∀ y ∈ (s.mems m).entries, R e y)) ∧
  ∀ x ∈ s.tree.current.version.run, R x e

instance (R : Entry → Entry → Prop) [DecidableRel R] (s : HeapState) (mem : ℕ) (e : Entry) :
    Decidable (s.Fits R mem e) := inferInstanceAs (Decidable (_ ∧ _))

/-- Everything is related to everything in the layers above it. Within the tables, which
were layers once, two versions of a key are related or from one sorted table. -/
structure Layered (R : Entry → Entry → Prop) (s : HeapState) : Prop where
  live : ∀ a ∈ s.live, ∀ b ∈ s.live, a < b →
    ∀ x ∈ (s.mems a).entries, ∀ y ∈ (s.mems b).entries, R x y
  above : ∀ x ∈ s.tree.current.version.run, ∀ m ∈ s.live, ∀ y ∈ (s.mems m).entries, R x y
  chain : ∀ k, (s.tree.current.version.chain k).Pairwise fun y x => R x y ∨ x.seqno < y.seqno

section

variable {R : Entry → Entry → Prop} {cfg : TreeConfig} {s s' : HeapState} {l : HeapLabel}

lemma HeapState.run_eq (s : HeapState) : s.sv.run =
    (s.live.reverse.flatMap fun m => (s.mems m).entries) ++ s.tree.current.version.run := by
  simp [sv, resolve, run, live, flatMap_map, ← map_reverse]

/-- Two versions of a key are related or from one sorted structure. -/
lemma Layered.pairwise_chain (h : Layered R s) (hinv : HeapInv s) (k : Key) :
    (s.sv.chain k).Pairwise fun y x => R x y ∨ x.seqno < y.seqno := by
  have hchain : s.sv.chain k =
      (s.live.reverse.flatMap fun m => withKey Entry.key k (s.mems m).entries) ++
        s.tree.current.version.chain k := by
    rw [SuperVersion.chain, s.run_eq, withKey_append, withKey_flatMap]
    rfl
  rw [hchain]
  refine pairwise_append.mpr ⟨pairwise_flatMap.mpr ⟨fun m _ => ?_, ?_⟩, h.chain k, ?_⟩
  · exact ((s.mems m).sorted.seqDesc_withKey k).imp .inr
  · -- from the active memtable to the oldest sealed one
    refine pairwise_reverse.mpr (hinv.ascending.imp_of_mem fun {a b} ha hb hab x hx y hy => ?_)
    exact .inl (h.live a ha b hb hab y (mem_withKey.mp hy).1 x (mem_withKey.mp hx).1)
  · intro x hx y hy
    obtain ⟨m, hm, hx⟩ := mem_flatMap.mp hx
    exact .inl (h.above y (mem_withKey.mp hy).1 m (mem_reverse.mp hm) x (mem_withKey.mp hx).1)

/-- **Insert.** An entry that fits keeps the layers. -/
theorem Layered.put (h : Layered R s) {mem : ℕ} {e : Entry} (hfits : s.Fits R mem e)
    (writers : List Writer) : Layered R { s.put mem e with writers := writers } := by
  refine ⟨fun a ha b hb hab x hx y hy => ?_, fun x hx m hm y hy => ?_, h.chain⟩
  · rcases mem_put hx with ⟨hxe, hxm⟩ | hxa <;> rcases mem_put hy with ⟨hye, hym⟩ | hyb
    · exact absurd (hxm.trans hym.symm) hab.ne
    · exact hxe ▸ (hfits.1 b hb).2 (hxm ▸ hab) y hyb
    · exact hye ▸ (hfits.1 a ha).1 (hym ▸ hab) x hxa
    · exact h.live a ha b hb hab x hxa y hyb
  · rcases mem_put hy with ⟨rfl, rfl⟩ | hy
    · exact hfits.2 x hx
    · exact h.above x hx m hm y hy

/-- **Seal.** The fresh memtable is empty. -/
theorem Layered.sealActive (h : Layered R s) (hinv : HeapInv s) : Layered R { s with
    tree := s.tree.sealWith s.nextMem
    mems := Function.update s.mems s.nextMem .new
    nextMem := s.nextMem + 1 } := by
  -- an entry of a live memtable is an entry of one that was live before
  have hold : ∀ m ∈ s.live ++ [s.nextMem], ∀ x ∈
      (Function.update s.mems s.nextMem .new m).entries, m ∈ s.live ∧ x ∈ (s.mems m).entries := by
    intro m hm x hx
    rcases mem_append.mp hm with hm | hm
    · rw [Function.update_of_ne (hinv.fresh m hm).ne] at hx
      exact ⟨hm, hx⟩
    · rw [mem_singleton.mp hm, Function.update_self] at hx
      cases hx
  refine ⟨fun a ha b hb hab x hx y hy => ?_, fun x hx m hm y hy => ?_, h.chain⟩
  · obtain ⟨ha, hx⟩ := hold a ha x hx
    obtain ⟨hb, hy⟩ := hold b hb y hy
    exact h.live a ha b hb hab x hx y hy
  · obtain ⟨hm, hy⟩ := hold m hm y hy
    exact h.above x hx m hm y hy

lemma HeapInv.lt_of_split (hinv : HeapInv s) {job : HeapJob} (hjob : s.flush.job = some job)
    (hdone : job.memtables[job.done]? = none) {a b : ℕ} (ha : a ∈ job.memtables)
    (hb : b ∈ s.tree.current.sealed.drop
      (min job.memtables.length s.tree.current.sealed.length) ++ [s.tree.current.active]) :
    a ∈ s.live ∧ b ∈ s.live ∧ a < b := by
  have hlive : s.live = job.memtables ++ (s.tree.current.sealed.drop
      (min job.memtables.length s.tree.current.sealed.length) ++ [s.tree.current.active]) := by
    rw [← append_assoc, ← (hinv.split hjob hdone).1]
    rfl
  have hasc := hinv.ascending
  rw [hlive] at hasc ⊢
  exact ⟨mem_append_left _ ha, mem_append_right _ hb, (pairwise_append.mp hasc).2.2 a ha b hb⟩

lemma HeapInv.mem_tables (hinv : HeapInv s) {job : HeapJob} (hjob : s.flush.job = some job)
    {x : Entry} (hx : x ∈ job.tables.reverse.flatMap Table.entries) :
    ∃ m ∈ job.memtables, x ∈ (s.mems m).entries := by
  obtain ⟨t, ht, hx⟩ := mem_flatMap.mp hx
  have hmem : t.entries ∈ job.tables.map Table.entries :=
    mem_map_of_mem (mem_reverse.mp ht)
  rw [(hinv.job job hjob).tables] at hmem
  obtain ⟨m, hm, heq⟩ := mem_map.mp (mem_filter.mp hmem).1
  exact ⟨m, mem_of_mem_take hm, heq ▸ hx⟩

/-- **Install.** The oldest memtables become the newest tables. -/
theorem Layered.install (h : Layered R s) (hinv : HeapInv s) {job : HeapJob}
    (hjob : s.flush.job = some job) (hdone : job.memtables[job.done]? = none) (f : HeapFlush) :
    Layered R { s with
      tree := s.tree.installFlush job.tables job.memtables.length, flush := f } := by
  have hsub : ∀ m ∈ s.tree.current.sealed.drop (min job.memtables.length
      s.tree.current.sealed.length) ++ [s.tree.current.active], m ∈ s.live :=
    fun m hm => ((drop_sublist _ _).append_right _).subset hm
  refine ⟨fun a ha b hb => h.live a (hsub a ha) b (hsub b hb), fun x hx m hm y hy => ?_,
    fun k => ?_⟩
  · have hx : x ∈ (s.tree.current.version.withNewL0Tables job.tables).run := hx
    rw [Version.run_withNewL0Tables] at hx
    rcases mem_append.mp hx with hx | hx
    · obtain ⟨a, ha, hx⟩ := hinv.mem_tables hjob hx
      obtain ⟨ha, hb, hlt⟩ := hinv.lt_of_split hjob hdone ha hm
      exact h.live a ha m hb hlt x hx y hy
    · exact h.above x hx m (hsub m hm) y hy
  · -- the chain of the tables is the end of the whole chain, which is as before
    have hchain : (resolve s.mems
        (s.tree.installFlush job.tables job.memtables.length).current).chain k = s.sv.chain k :=
      congrArg (withKey Entry.key k) (hinv.run_install hjob hdone)
    have hdesc := h.pairwise_chain hinv k
    rw [← hchain, chain_eq] at hdesc
    exact hdesc.sublist ((sublist_append_right _ _).trans (sublist_append_right _ _))

/-- **Step.** Where inserts fit, every step keeps the layers. -/
theorem layered_step (hinv : HeapInv s) (h : Layered R s)
    (hfits : ∀ p ∈ s.putOf l, s.Fits R p.1 p.2) (hstep : HeapStep cfg s l s') : Layered R s' := by
  cases hstep with
  | quiet => exact h
  | direct | commit | raise | load | snapshot | readOut | flag | persist | scan =>
    exact ⟨h.live, h.above, h.chain⟩
  | put i w hw mem hphase item left hleft =>
    exact h.put (hfits _ (HeapState.putOf_write hw hphase hleft)) _
  | sealActive hne => exact h.sealActive hinv
  | install memtables maxFlushed done tables hflush hdone =>
    exact h.install hinv (congrArg HeapFlush.job hflush) hdone _
  | advance =>
    unfold Tree.flushAdvance
    split <;> exact ⟨h.live, h.above, h.chain⟩
  | scanStep _ hnext =>
    obtain ⟨sc, rfl⟩ := HeapState.scanStep_eq hnext
    exact ⟨h.live, h.above, h.chain⟩

end

lemma layered_init (R : Entry → Entry → Prop) (cfg : TreeConfig) : Layered R (heapSys cfg).init :=
  ⟨fun _ _ _ _ _ _ hx => absurd hx not_mem_nil, nofun, fun _ => List.Pairwise.nil⟩

end XyzDB
