import XyzDB.Turba.FileSteps

/-!
# Sweeps and live tables

Under `UnlinkGuard` no sweep unlinks a table of the version, or one that is installed
later: every table of the version has its file (`live_tables_on_disk`).

The invariant (`FileInv`) says who owns an id. An id that a thread has drawn belongs to
that thread until it is installed, and then to the version; these ids are *live*. While a
sweep is under way every live id is *covered* by what the sweep has read: it is among
the ids of the version, or above them all, or in flight.
-/

namespace XyzDB

open List Function Version

variable {n m : ℕ} {t : Table} {r : Held} {id : ℕ}

namespace FileData

/-- The id is in the version, or a thread is going to install it. -/
def Live (d : FileData n m) (id : ℕ) : Prop :=
  (∃ t ∈ d.version.allTables, t.id = id) ∨ ∃ h, id ∈ (d.threads h).drawn

/-- The sweep, if one is under way, leaves the id alone. Between its reads, the ids of
flushes that have not returned will be in the second one. -/
def Covered (d : FileData n m) (id : ℕ) : Prop :=
  match d.sweeping with
  | .none => True
  | .read referenced => id ∈ referenced ∨ referenced.foldl max 0 < id ∨
      ∃ h, id ∈ (d.threads h).guarded
  | .test referenced inFlight => id ∈ referenced ∨ referenced.foldl max 0 < id ∨ id ∈ inFlight

/-- The ids the sweep has read in the version. -/
def referenced (d : FileData n m) : List ℕ :=
  match d.sweeping with
  | .none => []
  | .read referenced | .test referenced _ => referenced

end FileData

open FileData

/-- Every id has one owner, and all ids are below the next one. -/
structure Owned (nextTableId : ℕ) (ids : Holder n m → List ℕ) : Prop where
  lt : ∀ h, ∀ id ∈ ids h, id < nextTableId
  unique : ∀ h h' id, id ∈ ids h → id ∈ ids h' → h = h'

/-- What holds of the record of a thread. -/
structure ThreadInv (files : List Table) (version : Version) (flushingIds : List ℕ)
    (h : Holder n m) (r : Held) : Prop where
  tables : ∀ t ∈ r.tables, t ∈ files ∧ t.id ∈ r.drawn
  new : ∀ id ∈ r.drawn, ∀ t ∈ version.allTables, t.id ≠ id
  unwritten : ∀ id, r.unwritten = some id → id ∈ r.drawn ∧ ∀ t ∈ files, t.id ≠ id
  unregistered : ∀ id, r.unregistered = some id → r.unwritten = some id
  drawn_guarded : h.registers = true → r.drawn ⊆ r.guarded
  unguarded : h.registers = false → r.guarded = []
  registered : ∀ id ∈ r.guarded, id ∈ flushingIds ∨ r.unregistered = some id

/-- The invariant. -/
structure FileInv (d : FileData n m) : Prop where
  next_pos : 0 < d.nextTableId
  files_lt : ∀ t ∈ d.files, t.id < d.nextTableId
  files_inj : ∀ t ∈ d.files, ∀ u ∈ d.files, t.id = u.id → t = u
  version_file : ∀ t ∈ d.version.allTables, t ∈ d.files
  inputs : ∀ t ∈ d.inputs, t ∈ d.version.allTables
  drawn : Owned d.nextTableId fun h => (d.threads h).drawn
  guarded : Owned d.nextTableId fun h => (d.threads h).guarded
  threads : ∀ h, ThreadInv d.files d.version d.flushingIds h (d.threads h)
  doomed : ∀ id ∈ d.doomed, id < d.nextTableId ∧ ¬ d.Live id
  referenced_lt : ∀ id ∈ d.referenced, id < d.nextTableId
  covered : ∀ id, d.Live id → d.Covered id
  swept : ∀ id ∈ d.swept, id < d.nextTableId ∧ ¬ d.Live id

section

variable {d d' : FileData n m} {strict : FileData n m → Prop} {a : Holder n m}

lemma FileInv.live_tables (h : FileInv d) (ht : t ∈ (d.threads a).tables) :
    d.Live t.id := .inr ⟨a, ((h.threads a).tables t ht).2⟩

/-! ### Steps that make no id live

Most steps make no id live: threads install, return or fail, the lock holder swaps, files
go. One lemma is for all of them. -/

/-- A thread lets go of ids and tables, or takes its ids out of its guard. -/
structure Held.Shrinks (r r' : Held) : Prop where
  drawn : r'.drawn ⊆ r.drawn
  tables : ∀ t ∈ r'.tables, t ∈ r.tables ∧ t.id ∈ r'.drawn
  unwritten : ∀ id, r'.unwritten = some id → r.unwritten = some id ∧ id ∈ r'.drawn
  guarded : r'.guarded ⊆ r.guarded
  drawn_guarded : ∀ id ∈ r'.drawn, id ∈ r.guarded → id ∈ r'.guarded
  unregistered : (r'.unregistered = r.unregistered ∧ r'.unwritten = r.unwritten) ∨
    (r'.unregistered = .none ∧ (r.unregistered = .none ∨ r'.guarded = []))

lemma Held.shrinks_none (r : Held) : r.Shrinks .none :=
  ⟨nil_subset _, nofun, nofun, nil_subset _, nofun, .inr ⟨rfl, .inr rfl⟩⟩

lemma ThreadInv.shrinks_refl (h : ThreadInv d.files d.version d.flushingIds a r) : r.Shrinks r where
  drawn := .refl _
  tables t ht := ⟨ht, (h.tables t ht).2⟩
  unwritten id hid := ⟨hid, (h.unwritten id hid).1⟩
  guarded := .refl _
  drawn_guarded _ _ hg := hg
  unregistered := .inl ⟨rfl, rfl⟩

lemma FileInv.shrinks_update (h : FileInv d) (hr : (d.threads a).Shrinks r) :
    ∀ b, (d.threads b).Shrinks (update d.threads a r b) :=
  (forall_update_iff d.threads fun b r => (d.threads b).Shrinks r).mpr
    ⟨hr, fun b _ => (h.threads b).shrinks_refl⟩

lemma guarded_update (h : (d.threads a).guarded ⊆ r.guarded) :
    ∀ b, (d.threads b).guarded ⊆ (update d.threads a r b).guarded :=
  (forall_update_iff d.threads fun b r => (d.threads b).guarded ⊆ r.guarded).mpr
    ⟨h, fun _ _ => .refl _⟩

/-- A step after which no id is live that was not. -/
structure FileData.Shrinks (d d' : FileData n m) : Prop where
  next : d'.nextTableId = d.nextTableId
  files : d'.files ⊆ d.files
  threads : ∀ a, (d.threads a).Shrinks (d'.threads a)
  tables : ∀ a, ∀ t ∈ (d'.threads a).tables, t ∈ d'.files
  version : ∀ t ∈ d'.version.allTables,
    t ∈ d'.files ∧ d.Live t.id ∧ ∀ a, t.id ∉ (d'.threads a).drawn
  flushing : ∀ a, ∀ id ∈ (d'.threads a).guarded, id ∈ d.flushingIds → id ∈ d'.flushingIds
  inputs : ∀ t ∈ d'.inputs, t ∈ d'.version.allTables
  doomed : ∀ id ∈ d'.doomed, id ∈ d.doomed ∨ id < d.nextTableId ∧ ¬ d'.Live id
  sweeping : d'.sweeping = d.sweeping
  guarded : ∀ referenced, d.sweeping = .read referenced →
    ∀ a, (d.threads a).guarded ⊆ (d'.threads a).guarded
  swept : ∀ id ∈ d'.swept, id ∈ d.swept ∨ id < d.nextTableId ∧ ¬ d'.Live id

lemma FileData.Shrinks.live (hs : d.Shrinks d') (hl : d'.Live id) : d.Live id := by
  rcases hl with ⟨t, ht, rfl⟩ | ⟨a, ha⟩
  · exact (hs.version t ht).2.1
  · exact .inr ⟨a, (hs.threads a).drawn ha⟩

/-- What is covered stays covered while the reads of the sweep and the guards stay. -/
lemma FileData.Covered.mono (hsweep : d'.sweeping = d.sweeping)
    (hguard : ∀ referenced, d.sweeping = .read referenced →
      ∀ a, (d.threads a).guarded ⊆ (d'.threads a).guarded)
    (hc : d.Covered id) : d'.Covered id := by
  unfold Covered at hc ⊢
  rw [hsweep]
  cases hsw : d.sweeping with
  | none => trivial
  | read referenced =>
    rw [hsw] at hc
    exact hc.imp_right (Or.imp_right fun ⟨a, ha⟩ => ⟨a, hguard referenced hsw a ha⟩)
  | test referenced inFlight =>
    rw [hsw] at hc
    exact hc

lemma FileData.referenced_eq (hsweep : d'.sweeping = d.sweeping) :
    d'.referenced = d.referenced := by
  unfold referenced
  rw [hsweep]

lemma ThreadInv.shrink
    (h : ThreadInv d.files d.version d.flushingIds a (d.threads a)) (hs : d.Shrinks d') :
    ThreadInv d'.files d'.version d'.flushingIds a (d'.threads a) where
  tables t ht := ⟨hs.tables a t ht, ((hs.threads a).tables t ht).2⟩
  new id hid t ht heq := (hs.version t ht).2.2 a (heq ▸ hid)
  unwritten id hid :=
    have hun := (hs.threads a).unwritten id hid
    ⟨hun.2, fun t ht => (h.unwritten id hun.1).2 t (hs.files ht)⟩
  unregistered id hid := by
    rcases (hs.threads a).unregistered with ⟨hreg, hun⟩ | ⟨hreg, -⟩
    · rw [hun]
      exact h.unregistered id (hreg ▸ hid)
    · rw [hreg] at hid
      cases hid
  drawn_guarded ha id hid := (hs.threads a).drawn_guarded id hid
    (h.drawn_guarded ha ((hs.threads a).drawn hid))
  unguarded ha := eq_nil_of_subset_nil (h.unguarded ha ▸ (hs.threads a).guarded)
  registered id hid := by
    rcases h.registered id ((hs.threads a).guarded hid) with hf | hreg
    · exact .inl (hs.flushing a id hid hf)
    · rcases (hs.threads a).unregistered with ⟨heq, -⟩ | ⟨-, hnone | hnil⟩
      · exact .inr (heq.trans hreg)
      · exact absurd (hnone.symm.trans hreg) nofun
      · rw [hnil] at hid
        cases hid

lemma Owned.shrink {next : ℕ} {ids ids' : Holder n m → List ℕ} (h : Owned next ids)
    (hsub : ∀ a, ids' a ⊆ ids a) : Owned next ids' :=
  ⟨fun a id hid => h.lt a id (hsub a hid),
    fun a b id ha hb => h.unique a b id (hsub a ha) (hsub b hb)⟩

variable (h : FileInv d)

include h

lemma FileInv.shrink (hs : d.Shrinks d') : FileInv d' where
  next_pos := hs.next ▸ h.next_pos
  files_lt t ht := hs.next ▸ h.files_lt t (hs.files ht)
  files_inj t ht u hu := h.files_inj t (hs.files ht) u (hs.files hu)
  version_file t ht := (hs.version t ht).1
  inputs := hs.inputs
  drawn := hs.next ▸ h.drawn.shrink fun a => (hs.threads a).drawn
  guarded := hs.next ▸ h.guarded.shrink fun a => (hs.threads a).guarded
  threads a := (h.threads a).shrink hs
  doomed id hid := hs.next ▸ (hs.doomed id hid).elim
    (fun hd => (h.doomed id hd).imp_right fun hn hl => hn (hs.live hl)) fun hd => hd
  referenced_lt id hid :=
    hs.next ▸ h.referenced_lt id (referenced_eq hs.sweeping ▸ hid)
  covered id hl := (h.covered id (hs.live hl)).mono hs.sweeping hs.guarded
  swept id hid := hs.next ▸ (hs.swept id hid).elim
    (fun hd => (h.swept id hd).imp_right fun hn hl => hn (hs.live hl)) fun hd => hd

/-- A thread lets go, and the version takes over what it had written. -/
lemma FileInv.shrinks_thread {v : Version} {inputs : List Table} {doomed flushingIds : List ℕ}
    (hr : (d.threads a).Shrinks r)
    (hv : ∀ t ∈ v.allTables, t ∈ d.version.allTables ∨ t ∈ (d.threads a).tables ∧ r.drawn = [])
    (hflushing : ∀ b, ∀ id ∈ (update d.threads a r b).guarded,
      id ∈ d.flushingIds → id ∈ flushingIds)
    (hin : ∀ t ∈ inputs, t ∈ v.allTables)
    (hdoomed : ∀ id ∈ doomed, id ∈ d.doomed ∨ id < d.nextTableId ∧
      (∀ t ∈ v.allTables, t.id ≠ id) ∧ ∀ b, id ∉ (d.threads b).drawn)
    (hguard : ∀ referenced, d.sweeping = .read referenced → (d.threads a).guarded ⊆ r.guarded)
    (since : List Version) (deleting : Bool) :
    d.Shrinks
      { d with
        version := v, since := since, inputs := inputs, doomed := doomed, deleting := deleting
        flushingIds := flushingIds, threads := update d.threads a r } := by
  have hthreads := h.shrinks_update hr
  constructor
  case next => rfl
  case files => exact .refl _
  case threads => exact hthreads
  case tables => exact fun b t ht => ((h.threads b).tables t ((hthreads b).tables t ht).1).1
  case version =>
    intro t ht
    rcases hv t ht with ht | ⟨ht, hnil⟩
    · exact ⟨h.version_file t ht, .inl ⟨t, ht, rfl⟩, fun b hb =>
        (h.threads b).new t.id ((hthreads b).drawn hb) t ht rfl⟩
    · -- the id was the thread's alone, and it has let go of it
      refine ⟨((h.threads a).tables t ht).1, h.live_tables ht, fun b hb => ?_⟩
      have hb : t.id ∈ (update d.threads a r b).drawn := hb
      obtain rfl := h.drawn.unique a b t.id ((h.threads a).tables t ht).2 ((hthreads b).drawn hb)
      rw [update_self, hnil] at hb
      cases hb
  case flushing => exact hflushing
  case inputs => exact hin
  case doomed =>
    refine fun id hid => (hdoomed id hid).imp_right (And.imp_right fun ⟨hver, hdrawn⟩ => ?_)
    rintro (⟨t, ht, htid⟩ | ⟨b, hb⟩)
    · exact hver t ht htid
    · exact hdrawn b ((hthreads b).drawn hb)
  case sweeping => rfl
  case guarded => exact fun referenced hread => guarded_update (hguard referenced hread)
  case swept => exact fun _ hid => .inl hid

/-- **Swap.** The lock holder's outputs take the place of its inputs, whose ids nobody
uses any more. -/
theorem FileInv.shrinks_swap {v : Version} {oldIds : List ℕ}
    (hv : ∀ t ∈ v.allTables, (t ∈ d.version.allTables ∧ t.id ∉ oldIds) ∨
      t ∈ (d.threads .compaction).tables ∨ (oldIds = [] ∧ t ∈ d.inputs))
    (hold : ∀ id ∈ oldIds, ∃ t ∈ d.inputs, t.id = id) (since : List Version) :
    d.Shrinks
      { d with
        version := v
        since := since
        inputs := []
        doomed := oldIds
        deleting := false
        threads := update d.threads .compaction .none } := by
  refine h.shrinks_thread (d.threads .compaction).shrinks_none (fun t ht => ?_)
    (fun _ _ _ hf => hf) (fun _ ht => (not_mem_nil ht).elim) (fun id hid => ?_)
    (fun _ _ => (h.threads .compaction).unguarded rfl ▸ nil_subset _) since false
  · rcases hv t ht with ⟨ht, -⟩ | ht | ⟨-, ht⟩
    · exact .inl ht
    · exact .inr ⟨ht, rfl⟩
    · exact .inl (h.inputs t ht)
  · obtain ⟨u, hu, rfl⟩ := hold id hid
    have hu' := h.inputs u hu
    refine .inr ⟨h.files_lt u (h.version_file u hu'), fun t ht htu => ?_, fun b hb =>
      (h.threads b).new u.id hb u hu' rfl⟩
    rcases hv t ht with ⟨-, hne⟩ | ht | ⟨rfl, -⟩
    · exact hne (htu ▸ hid)
    · have hdrawn := ((h.threads .compaction).tables t ht).2
      exact (h.threads .compaction).new t.id hdrawn u hu' htu.symm
    · cases hid

lemma FileInv.shrinks_remove {p : Table → Bool}
    (hp : ∀ t, d.Live t.id → p t = true) {doomed swept : List ℕ} (deleting : Bool)
    (hdoomed : doomed ⊆ d.doomed)
    (hswept : ∀ id ∈ swept, id ∈ d.swept ∨ id < d.nextTableId ∧ ¬ d.Live id) :
    d.Shrinks
      { d with
        files := d.files.filter p
        doomed := doomed
        deleting := deleting
        swept := swept } where
  next := rfl
  files _ ht := (mem_filter.mp ht).1
  threads a := (h.threads a).shrinks_refl
  tables a t ht := mem_filter.mpr ⟨((h.threads a).tables t ht).1, hp t (h.live_tables ht)⟩
  version t ht :=
    have hl : d.Live t.id := .inl ⟨t, ht, rfl⟩
    ⟨mem_filter.mpr ⟨h.version_file t ht, hp t hl⟩, hl, fun a ha =>
      (h.threads a).new t.id ha t ht rfl⟩
  flushing _ _ _ hf := hf
  inputs := h.inputs
  doomed _ hid := .inl (hdoomed hid)
  sweeping := rfl
  guarded _ _ _ := .refl _
  swept := hswept

lemma FileInv.shrinks_unregister {i : Fin (n + 1)}
    (hsweep : ∀ referenced, d.sweeping ≠ .read referenced) :
    d.Shrinks
      { d with
        flushingIds := d.flushingIds.filter fun id => id ∉ (d.threads (.flush i)).guarded
        threads := update d.threads (.flush i) .none } := by
  have hnone := (d.threads (.flush i)).shrinks_none
  refine h.shrinks_thread hnone (fun t ht => .inl ht) (fun b id hid hf => ?_) h.inputs
    (fun _ hid => .inl hid) (fun referenced hread => absurd hread (hsweep referenced)) _ _
  refine mem_filter.mpr ⟨hf, decide_eq_true fun hid' => ?_⟩
  obtain rfl := h.guarded.unique b (.flush i) id ((h.shrinks_update hnone b).guarded hid) hid'
  rw [update_self] at hid
  cases hid

/-! ### Steps that draw and write -/

lemma FileInv.foldl_max_lt : d.referenced.foldl max 0 < d.nextTableId := by
  have hmax : ∀ (l : List ℕ) (b : ℕ), b < d.nextTableId → (∀ id ∈ l, id < d.nextTableId) →
      l.foldl max b < d.nextTableId := by
    intro l
    induction l with
    | nil => exact fun b hb _ => hb
    | cons id l ih =>
      exact fun b hb hl => ih (max b id) (Nat.max_lt.mpr ⟨hb, hl id mem_cons_self⟩)
        fun x hx => hl x (.tail _ hx)
  exact hmax _ 0 h.next_pos h.referenced_lt

lemma FileInv.covered_new (hid : d.nextTableId ≤ id) : d.Covered id := by
  have hmax := h.foldl_max_lt
  unfold Covered
  unfold referenced at hmax
  cases hs : d.sweeping with
  | none => trivial
  | read | test =>
    rw [hs] at hmax
    exact .inr (.inl (lt_of_lt_of_le hmax hid))

omit h

lemma Owned.grow {next count : ℕ} {ids ids' : Holder n m → List ℕ} (h : Owned next ids)
    (hids : ∀ b, ∀ id ∈ ids' b, id ∈ ids b ∨ b = a ∧ next ≤ id ∧ id < next + count) :
    Owned (next + count) ids' := by
  constructor
  · intro b id hid
    rcases hids b id hid with hid | ⟨-, -, hlt⟩
    · exact Nat.lt_add_right count (h.lt b id hid)
    · exact hlt
  · intro b c id hb hc
    rcases hids b id hb with hb | ⟨rfl, hnew, -⟩
    · rcases hids c id hc with hc | ⟨-, hnew, -⟩
      · exact h.unique b c id hb hc
      · exact absurd (h.lt b id hb) (not_lt.mpr hnew)
    · rcases hids c id hc with hc | ⟨rfl, -, -⟩
      · exact absurd (h.lt c id hc) (not_lt.mpr hnew)
      · rfl

section

variable {a : Holder n m} {r : Held} {count : ℕ} {new : List Table}

/-- The other threads do not notice that a thread draws ids and writes their files. -/
lemma ThreadInv.grow {b : Holder n m} (h : FileInv d) (hb : b ≠ a)
    (hdrawn : ∀ id ∈ r.drawn, id ∈ (d.threads a).drawn ∨
      d.nextTableId ≤ id ∧ id < d.nextTableId + count) (hnew : ∀ t ∈ new, t.id ∈ r.drawn) :
    ThreadInv (new ++ d.files) d.version d.flushingIds b (d.threads b) := by
  have hinv := h.threads b
  refine ⟨fun t ht => (hinv.tables t ht).imp_left (mem_append_right _), hinv.new,
    fun id hid => ⟨(hinv.unwritten id hid).1, fun t ht => ?_⟩, hinv.unregistered,
    hinv.drawn_guarded, hinv.unguarded, hinv.registered⟩
  have hown := (hinv.unwritten id hid).1
  rcases mem_append.mp ht with ht | ht
  · rintro rfl
    rcases hdrawn t.id (hnew t ht) with ha | ⟨hge, -⟩
    · exact hb (h.drawn.unique b a t.id hown ha)
    · exact absurd (h.drawn.lt b t.id hown) (not_lt.mpr hge)
  · exact (hinv.unwritten id hid).2 t ht

/-- **Growth.** A thread draws ids and writes files for ids it has drawn. -/
theorem FileInv.grow (h : FileInv d) (count : ℕ) (new : List Table)
    (hdrawn : ∀ id ∈ r.drawn, id ∈ (d.threads a).drawn ∨
      d.nextTableId ≤ id ∧ id < d.nextTableId + count)
    (hsub : (d.threads a).guarded ⊆ r.guarded)
    (hguarded : ∀ id ∈ r.guarded, id ∈ (d.threads a).guarded ∨
      d.nextTableId ≤ id ∧ id < d.nextTableId + count)
    (hnew : ∀ t ∈ new, t.id ∈ r.drawn ∧ ∀ u ∈ d.files, u.id ≠ t.id)
    (hinj : ∀ t ∈ new, ∀ u ∈ new, t.id = u.id → t = u)
    (hthread : ThreadInv (new ++ d.files) d.version d.flushingIds a r) :
    FileInv { d with
      nextTableId := d.nextTableId + count
      files := new ++ d.files
      threads := update d.threads a r } := by
  have hle : d.nextTableId ≤ d.nextTableId + count := Nat.le_add_right _ _
  have hupdate (ids : Held → List ℕ) (hids : ∀ id ∈ ids r, id ∈ ids (d.threads a) ∨
      d.nextTableId ≤ id ∧ id < d.nextTableId + count) : ∀ b, ∀ id ∈ ids (update d.threads a r b),
      id ∈ ids (d.threads b) ∨ b = a ∧ d.nextTableId ≤ id ∧ id < d.nextTableId + count :=
    (forall_update_iff d.threads fun b r => ∀ id ∈ ids r, id ∈ ids (d.threads b) ∨
      b = a ∧ d.nextTableId ≤ id ∧ id < d.nextTableId + count).mpr
      ⟨fun id hid => (hids id hid).imp_right fun hid => ⟨rfl, hid⟩, fun _ _ _ hid => .inl hid⟩
  have hdrawn' := hupdate Held.drawn hdrawn
  have hdrawn_lt := (h.drawn.grow hdrawn').lt
  -- nothing but new ids comes to life
  have hlive : ∀ id, ((∃ t ∈ d.version.allTables, t.id = id) ∨
      ∃ b, id ∈ (update d.threads a r b).drawn) → d.Live id ∨ d.nextTableId ≤ id := by
    rintro id (hver | ⟨b, hb⟩)
    · exact .inl (.inl hver)
    · exact (hdrawn' b id hb).imp (fun hb => .inr ⟨b, hb⟩) fun hb => hb.2.1
  have hdead {id : ℕ} (hid : id < d.nextTableId ∧ ¬ d.Live id) : id < d.nextTableId + count ∧
      ¬ ((∃ t ∈ d.version.allTables, t.id = id) ∨ ∃ b, id ∈ (update d.threads a r b).drawn) :=
    ⟨lt_of_lt_of_le hid.1 hle, fun hl => (hlive id hl).elim hid.2 (not_le.mpr hid.1)⟩
  constructor
  case next_pos => exact lt_of_lt_of_le h.next_pos hle
  case files_lt =>
    intro t ht
    rcases mem_append.mp ht with ht | ht
    · refine hdrawn_lt a t.id ?_
      rw [update_self]
      exact (hnew t ht).1
    · exact lt_of_lt_of_le (h.files_lt t ht) hle
  case files_inj =>
    intro t ht u hu hid
    rcases mem_append.mp ht with ht | ht <;> rcases mem_append.mp hu with hu | hu
    · exact hinj t ht u hu hid
    · exact absurd hid.symm ((hnew t ht).2 u hu)
    · exact absurd hid ((hnew u hu).2 t ht)
    · exact h.files_inj t ht u hu hid
  case version_file => exact fun t ht => mem_append_right _ (h.version_file t ht)
  case inputs => exact h.inputs
  case drawn => exact h.drawn.grow hdrawn'
  case guarded => exact h.guarded.grow (hupdate Held.guarded hguarded)
  case threads =>
    exact (forall_update_iff d.threads _).mpr
      ⟨hthread, fun b hb => ThreadInv.grow h hb hdrawn fun t ht => (hnew t ht).1⟩
  case doomed => exact fun id hid => hdead (h.doomed id hid)
  case referenced_lt => exact fun id hid => lt_of_lt_of_le (h.referenced_lt id hid) hle
  case covered =>
    intro id hl
    have hc : d.Covered id := (hlive id hl).elim (h.covered id) h.covered_new
    refine Covered.mono (d := d) ?_ ?_ hc
    · rfl
    · exact fun _ _ => guarded_update hsub
  case swept => exact fun id hid => hdead (h.swept id hid)

end

lemma FileInv.draw (h : FileInv d) (a : Holder n m) (hun : (d.threads a).unwritten = none) :
    FileInv { d with
      nextTableId := d.nextTableId + 1
      threads := update d.threads a
        { d.threads a with
          drawn := (d.threads a).drawn ++ [d.nextTableId]
          unwritten := some d.nextTableId
          guarded := if a.registers then (d.threads a).guarded ++ [d.nextTableId]
            else (d.threads a).guarded
          unregistered := if a.registers then some d.nextTableId
            else (d.threads a).unregistered } } := by
  have hinv := h.threads a
  have hreg : (d.threads a).unregistered = none := by
    rw [Option.eq_none_iff_forall_not_mem]
    exact fun id hid => absurd (hun.symm.trans (hinv.unregistered id hid)) nofun
  have hnew : ∀ {l : List ℕ}, ∀ id ∈ l ++ [d.nextTableId],
      id ∈ l ∨ d.nextTableId ≤ id ∧ id < d.nextTableId + 1 := fun id hid =>
    (mem_append.mp hid).imp_right fun hid => by
      rw [mem_singleton.mp hid]
      exact ⟨le_rfl, lt_add_one _⟩
  -- one id more is taken, and no file is written yet
  refine h.grow 1 [] hnew ?_ ?_ nofun nofun ?_
  · dsimp only
    split
    · exact subset_append_left _ _
    · exact .refl _
  · dsimp only
    split
    · exact hnew
    · exact fun id hid => .inl hid
  · constructor
    case tables => exact fun t ht => (hinv.tables t ht).imp_right (mem_append_left _)
    case new =>
      -- tables of the version have files, and files lie below the next id
      intro id hid t ht
      rcases hnew id hid with hid | ⟨hge, -⟩
      · exact hinv.new id hid t ht
      · exact ne_of_lt (lt_of_lt_of_le (h.files_lt t (h.version_file t ht)) hge)
    case unwritten =>
      intro id hid
      cases hid
      exact ⟨mem_append_right _ (.head _), fun t ht => ne_of_lt (h.files_lt t ht)⟩
    case unregistered =>
      split
      · exact fun id hid => hid
      · exact fun id hid => absurd (hreg.symm.trans hid) nofun
    case drawn_guarded =>
      intro ha
      rw [if_pos ha]
      intro id hid
      exact mem_append.mpr ((mem_append.mp hid).imp_left (hinv.drawn_guarded ha ·))
    case unguarded =>
      intro ha
      rw [if_neg (by simp [ha])]
      exact hinv.unguarded ha
    case registered =>
      split
      · intro id hid
        rcases mem_append.mp hid with hid | hid
        · exact .inl ((hinv.registered id hid).resolve_right fun hu =>
            absurd (hreg.symm.trans hu) nofun)
        · exact .inr (by rw [mem_singleton.mp hid])
      · exact hinv.registered

lemma FileInv.register (h : FileInv d) {i : Fin (n + 1)}
    (hid : (d.threads (.flush i)).unregistered = some id) :
    FileInv { d with
      flushingIds := id :: d.flushingIds
      threads := update d.threads (.flush i)
        { d.threads (.flush i) with unregistered := none } } := by
  -- the ids of the threads stay
  have hsame : ∀ b, (update d.threads (.flush i)
      { d.threads (.flush i) with unregistered := none } b).drawn ⊆ (d.threads b).drawn ∧
      (update d.threads (.flush i)
        { d.threads (.flush i) with unregistered := none } b).guarded ⊆ (d.threads b).guarded :=
    (forall_update_iff d.threads fun b r => r.drawn ⊆ (d.threads b).drawn ∧
      r.guarded ⊆ (d.threads b).guarded).mpr ⟨⟨.refl _, .refl _⟩, fun _ _ => ⟨.refl _, .refl _⟩⟩
  have hlive : ∀ id', ((∃ t ∈ d.version.allTables, t.id = id') ∨
      ∃ b, id' ∈ (update d.threads (.flush i)
        { d.threads (.flush i) with unregistered := none } b).drawn) → d.Live id' := fun id' hl =>
    hl.imp_right fun ⟨b, hb⟩ => ⟨b, (hsame b).1 hb⟩
  have hinv := h.threads (.flush i)
  refine ⟨h.next_pos, h.files_lt, h.files_inj, h.version_file, h.inputs,
    h.drawn.shrink fun b => (hsame b).1, h.guarded.shrink fun b => (hsame b).2, ?_,
    fun x hx => (h.doomed x hx).imp_right fun hn hl => hn (hlive x hl),
    h.referenced_lt, fun x hx => ?_,
    fun x hx => (h.swept x hx).imp_right fun hn hl => hn (hlive x hl)⟩
  · refine (forall_update_iff d.threads _).mpr ⟨?_, fun b _ => ?_⟩
    · refine ⟨hinv.tables, hinv.new, hinv.unwritten, nofun, hinv.drawn_guarded, hinv.unguarded,
        fun x hx => .inl ?_⟩
      rcases hinv.registered x hx with hf | hu
      · exact .tail _ hf
      · exact mem_cons.mpr (.inl (Option.some.inj (hu.symm.trans hid)))
    · have hb := h.threads b
      exact ⟨hb.tables, hb.new, hb.unwritten, hb.unregistered, hb.drawn_guarded, hb.unguarded,
        fun x hx => (hb.registered x hx).imp_left (mem_cons_of_mem _)⟩
  · refine Covered.mono (d := d) ?_ ?_ (h.covered x (hlive x hx))
    · rfl
    · exact fun _ _ => guarded_update (.refl _)

lemma FileInv.write (h : FileInv d) (a : Holder n m) (hid : (d.threads a).unwritten = some t.id)
    (hreg : (d.threads a).unregistered = none) :
    FileInv { d with
      files := t :: d.files
      threads := update d.threads a
        { d.threads a with unwritten := none, tables := (d.threads a).tables ++ [t] } } := by
  have hinv := h.threads a
  obtain ⟨hown, hfree⟩ := hinv.unwritten t.id hid
  refine h.grow 0 [t] (fun _ hid => .inl hid) (.refl _) (fun _ hid => .inl hid) ?_ ?_ ?_
  · exact forall_mem_singleton.mpr ⟨hown, hfree⟩
  · intro u hu w hw _
    rw [mem_singleton.mp hu, mem_singleton.mp hw]
  · refine ⟨fun u hu => ?_, hinv.new, nofun, fun id hu => ?_, hinv.drawn_guarded, hinv.unguarded,
      hinv.registered⟩
    · rcases mem_append.mp hu with hu | hu
      · exact (hinv.tables u hu).imp_left (mem_append_right _)
      · rw [mem_singleton.mp hu]
        exact ⟨mem_cons_self, hown⟩
    · exact absurd (hreg.symm.trans hu) nofun

lemma FileInv.writeOutputs (h : FileInv d) {outs : List Table} {count : ℕ}
    (hids : ∀ t ∈ outs, d.nextTableId ≤ t.id ∧ t.id < d.nextTableId + count)
    (hinj : (outs.map Table.id).Nodup) :
    FileInv { d with
      nextTableId := d.nextTableId + count
      files := outs ++ d.files
      threads := update d.threads .compaction ⟨outs.map Table.id, none, outs, [], none⟩ } := by
  refine h.grow count outs (fun id hid => ?_) ?_ nofun (fun t ht => ⟨mem_map_of_mem ht, ?_⟩)
    (fun t ht u hu => inj_on_of_nodup_map hinj ht hu)
    ⟨fun t ht => ⟨mem_append_left _ ht, mem_map_of_mem ht⟩, fun id hid u hu => ?_, nofun,
      nofun, nofun, fun _ => rfl, nofun⟩
  · obtain ⟨t, ht, rfl⟩ := mem_map.mp hid
    exact .inr (hids t ht)
  · rw [(h.threads .compaction).unguarded rfl]
    exact nil_subset _
  · exact fun u hu => ne_of_lt (lt_of_lt_of_le (h.files_lt u hu) (hids t ht).1)
  · obtain ⟨t, ht, rfl⟩ := mem_map.mp hid
    exact ne_of_lt (lt_of_lt_of_le (h.files_lt u (h.version_file u hu)) (hids t ht).1)

/-! ### Sweeps -/

lemma not_deletable_of_covered {referenced inFlight : List ℕ}
    (htest : d.sweeping = .test referenced inFlight) (hc : d.Covered id) :
    orphanIsDeletable id referenced (referenced.foldl max 0) inFlight = false := by
  unfold Covered at hc
  rw [htest] at hc
  unfold orphanIsDeletable
  rcases hc with hc | hc | hc
  · simp [hc]
  · simp [not_le.mpr hc]
  · simp [hc]

/-- At the first read, live ids are in the version or flushes have drawn them. -/
lemma FileInv.covered_reading (h : FileInv d) (hingest : ∀ j, (d.threads (.ingest j)).drawn = [])
    (hcompaction : (d.threads .compaction).drawn = []) (hl : d.Live id) :
      ({ d with
        sweeping := .read (d.version.allTables.map Table.id) } : FileData n m).Covered id := by
  rcases hl with ⟨t, ht, rfl⟩ | ⟨a, ha⟩
  · exact .inl (mem_map_of_mem ht)
  · cases a with
    | flush i => exact .inr (.inr ⟨.flush i, (h.threads _).drawn_guarded rfl ha⟩)
    | ingest j =>
      rw [hingest j] at ha
      cases ha
    | compaction =>
      rw [hcompaction] at ha
      cases ha

/-- The second read finds the ids of all flushes that have not returned. -/
lemma FileInv.covered_flushing (h : FileInv d) {referenced : List ℕ}
    (hread : d.sweeping = .read referenced) (hreg : ∀ a, (d.threads a).unregistered = none)
    (hc : d.Covered id) :
    ({ d with sweeping := .test referenced d.flushingIds } : FileData n m).Covered id := by
  unfold Covered at hc ⊢
  rw [hread] at hc
  refine hc.imp_right (Or.imp_right fun ⟨a, ha⟩ => ?_)
  exact ((h.threads a).registered id ha).resolve_right fun hu =>
    absurd ((hreg a).symm.trans hu) nofun

lemma FileInv.setSweeping (h : FileInv d) {sweeping : Sweep}
    (hlt : ∀ id ∈ ({ d with sweeping := sweeping } : FileData n m).referenced, id < d.nextTableId)
    (hc : ∀ id, d.Live id → ({ d with sweeping := sweeping } : FileData n m).Covered id) :
    FileInv { d with sweeping := sweeping } :=
  ⟨h.next_pos, h.files_lt, h.files_inj, h.version_file, h.inputs, h.drawn, h.guarded, h.threads,
    h.doomed, hlt, hc, h.swept⟩

lemma FileInv.of_eq (h : FileInv d) {inputs : List Table}
    (hin : ∀ t ∈ inputs, t ∈ d.version.allTables) (deleting : Bool)
    (manifests : List (Option Manifest)) (since : List Version) :
    FileInv { d with
      inputs := inputs, deleting := deleting, manifests := manifests, since := since } :=
  ⟨h.next_pos, h.files_lt, h.files_inj, h.version_file, hin, h.drawn, h.guarded, h.threads,
    h.doomed, h.referenced_lt, h.covered, h.swept⟩

lemma mem_rebuild {files : List Table} {manifest : Manifest}
    (ht : t ∈ (manifest.rebuild files).allTables) : t ∈ files := by
  obtain ⟨k, -, ht⟩ := mem_allTables.mp ht
  have hopened : t ∈ (manifest.version.level k).filterMap
      fun t => files.find? fun f => f.id = t.id := by
    unfold Manifest.rebuild at ht
    dsimp only at ht
    split at ht
    · exact (mem_insertionSort _).mp ht
    · exact ht
  obtain ⟨u, -, hu⟩ := mem_filterMap.mp hopened
  exact mem_of_find?_eq_some hu

lemma lt_maxOnDisk {files : List Table} (ht : t ∈ files) : t.id < maxOnDiskTableId files + 1 := by
  exact Nat.lt_succ_of_le ((le_foldl_max id _ 0).2 t.id (mem_map_of_mem ht))

lemma FileInv.crash (h : FileInv d) (manifest : Option Manifest) : FileInv
      ({ version := (Tree.reopen d.files manifest).current.version
         nextTableId := (Tree.reopen d.files manifest).nextTableId
         files := d.files
         flushingIds := []
         threads := fun _ => .none
         inputs := []
         doomed := []
         deleting := false
         sweeping := .none
         manifests := [manifest]
         since := [(Tree.reopen d.files manifest).current.version]
         swept := [] } : FileData n m) where
  next_pos := lt_of_lt_of_le (Nat.succ_pos _) (le_max_right ..)
  files_lt _ ht := lt_of_lt_of_le (lt_maxOnDisk ht) (le_max_right ..)
  files_inj := h.files_inj
  version_file t ht := by
    cases manifest with
    | none => simp [Tree.reopen, mem_allTables] at ht
    | some manifest => exact mem_rebuild ht
  inputs := nofun
  drawn := ⟨nofun, nofun⟩
  guarded := ⟨nofun, nofun⟩
  threads _ := ⟨nofun, nofun, nofun, nofun, fun _ => nil_subset _, fun _ => rfl, nofun⟩
  doomed := nofun
  referenced_lt := nofun
  covered _ _ := trivial
  swept := nofun

lemma FileInv.step (h : FileInv d) (hstep : FileStep strict d d') : FileInv d' := by
  cases hstep with
  | draw a hun => exact h.draw a hun
  | register i id hid => exact h.register hid
  | write a t hid hreg => exact h.write a hid hreg
  | drop a r hdrawn hun htables hids hguard hnone hreg =>
    -- the thread forgets ids and tables; what it still holds it held before
    have hsub : ∀ t ∈ r.tables, t ∈ (d.threads a).tables := by
      rcases htables with hnil | heq
      · rw [hnil]
        exact nofun
      · rw [heq]
        exact fun t ht => ht
    have hr : (d.threads a).Shrinks r :=
      ⟨hdrawn, fun t ht => ⟨hsub t ht, hids (fun t ht => ((h.threads a).tables t ht).2) t ht⟩,
        fun id hid => absurd (hun.symm.trans hid) nofun, hguard ▸ .refl _,
        fun id _ hid => hguard ▸ hid, .inr ⟨hnone, .inl hreg⟩⟩
    exact h.shrink (h.shrinks_thread hr (fun t ht => .inl ht) (fun _ _ _ hf => hf) h.inputs
      (fun _ hid => .inl hid) (fun _ _ => hguard ▸ .refl _) d.since d.deleting)
  | install a hreg =>
    -- its tables pass from the thread to the version
    have hr : (d.threads a).Shrinks
        { d.threads a with drawn := [], unwritten := none, tables := [] } :=
      ⟨nil_subset _, nofun, nofun, .refl _, nofun, .inr ⟨hreg, .inl hreg⟩⟩
    refine h.shrink (h.shrinks_thread hr (fun t ht => ?_) (fun _ _ _ hf => hf) (fun t ht => ?_)
      (fun _ hid => .inl hid) (fun _ _ => .refl _) _ d.deleting)
    · obtain ⟨k, hk, ht⟩ := mem_allTables.mp ht
      rcases mem_withNewL0Tables.mp ht with ht | ⟨-, ht⟩
      · exact .inl (mem_allTables.mpr ⟨k, hk, ht⟩)
      · exact .inr ⟨ht, rfl⟩
    · obtain ⟨k, hk, ht⟩ := mem_allTables.mp (h.inputs t ht)
      exact mem_allTables.mpr ⟨k, hk, mem_withNewL0Tables.mpr (.inl ht)⟩
  | unregister i hsweep hdrawn => exact h.shrink (h.shrinks_unregister hsweep)
  | persistOk manifest _ => exact h.of_eq h.inputs d.deleting _ _
  | persistStale manifest _ => exact h.of_eq h.inputs d.deleting _ d.since
  | startRound inputs hin => exact h.of_eq hin d.deleting d.manifests d.since
  | writeOutputs outs count hids hinj => exact h.writeOutputs hids hinj
  | swap version oldIds hversion hold _ => exact h.shrink (h.shrinks_swap hversion hold _)
  | abandon => exact h.shrink (h.shrinks_swap (fun t ht => .inl ⟨ht, not_mem_nil⟩) nofun d.since)
  | arm manifest _ _ => exact h.of_eq h.inputs true d.manifests d.since
  | delete hdel =>
    refine h.shrink (h.shrinks_remove (fun t hl => ?_) false (nil_subset _) fun id hid => .inl hid)
    -- a live id is not doomed
    exact decide_eq_true (show t.id ∉ d.doomed from fun hd => (h.doomed t.id hd).2 hl)
  | sweepRead hingest hcompaction _ =>
    refine h.setSweeping (fun id hid => ?_) fun id hl => h.covered_reading hingest hcompaction hl
    obtain ⟨t, ht, rfl⟩ := mem_map.mp hid
    exact h.files_lt t (h.version_file t ht)
  | sweepFlushing referenced hread hreg =>
    refine h.setSweeping (fun id hid => h.referenced_lt id ?_) fun id hl =>
      h.covered_flushing hread hreg (h.covered id hl)
    rw [FileData.referenced, hread]
    exact hid
  | unlink id referenced inFlight htest hdel =>
    -- a live id is covered by what the sweep has read, and the test spares those
    have hnot : ¬ d.Live id := fun hl => by
      rw [not_deletable_of_covered htest (h.covered id hl)] at hdel
      cases hdel
    have hlt : id < d.nextTableId := by
      have hmax := h.foldl_max_lt
      rw [FileData.referenced, htest] at hmax
      unfold orphanIsDeletable at hdel
      simp only [Bool.and_eq_true, decide_eq_true_eq] at hdel
      exact lt_of_le_of_lt hdel.1.2 hmax
    refine h.shrink (h.shrinks_remove (fun t hl => ?_) d.deleting (.refl _) fun x hx => ?_)
    · exact decide_eq_true (show t.id ≠ id from fun hd => hnot (hd ▸ hl))
    · rcases mem_cons.mp hx with rfl | hx
      · exact .inr ⟨hlt, hnot⟩
      · exact .inl hx
  | sweepEnd => exact h.setSweeping nofun fun _ _ => trivial
  | crash manifest _ => exact h.crash manifest

end

lemma fileInv_init (cfg : TreeConfig) : FileInv (fileSys cfg n m).init.data := by
  have hrec : (fileSys cfg n m).init.data.threads = fun _ => .none := by
    funext h
    cases h <;> rfl
  constructor
  case next_pos => exact Nat.one_pos
  case drawn =>
    exact ⟨nofun, nofun⟩
  case guarded =>
    exact ⟨nofun, nofun⟩
  case threads =>
    rw [hrec]
    exact fun _ => ⟨nofun, nofun, nofun, nofun, fun _ => nil_subset _, fun _ => rfl, nofun⟩
  all_goals exact nofun

lemma FileInv.steps (h : FileInv d) (hsteps : FileSteps strict d d') : FileInv d' := by
  induction hsteps with
  | refl => exact h
  | tail _ hstep ih => exact ih.step hstep

lemma fileInv_reach {cfg : TreeConfig} {s : FileState n m}
    (h : (fileSys cfg n m).Reach UnlinkGuard s) : FileInv s.data := by
  refine h.invariant (fun s => FileInv s.data) (fileInv_init cfg) fun s l s' hinv hok hnext => ?_
  have hsteps : FileSteps (fun _ => True) s.data s'.data :=
    steps_of_next hok (fun _ _ _ => trivial) hnext
  exact hinv.steps hsteps

/-- **Live tables stay.** In every guarded run every table of the version has its file,
in full, and no sweep has unlinked it before or after it was installed. -/
theorem live_tables_on_disk (cfg : TreeConfig) (n m : ℕ) (s : FileState n m)
    (h : (fileSys cfg n m).Reach UnlinkGuard s) :
    ∀ t ∈ s.tree.current.version.allTables, t ∈ s.files ∧ t.id ∉ s.swept := by
  intro t ht
  have hinv := fileInv_reach h
  exact ⟨hinv.version_file t ht, fun hs => (hinv.swept t.id hs).2 (.inl ⟨t, ht, rfl⟩)⟩

/-! ### Runs in which a sweep unlinks a live table -/

/-- A tree whose levels below the first have room. -/
def roomyLevels : TreeConfig :=
  { smallConfig none 4096 with
    leveled := { (smallConfig none 4096).leveled with
      baseSizeBytes := 4096
      maxTablesPerLevel := 8 } }

/-- A whole flush by thread `2`. -/
def wholeFlush : List (FileLabel 2 1) :=
  [.flush 2, .flush 2, .flush 2, .flush 2, .flush 2, .flush 2, .flushPersist 2 .ok, .flush 2]

/-- A major compaction that merges one table, up to its sweep. -/
def majorToSweep : List (FileLabel 2 1) :=
  [.major false, .flush 0, .maint, .maint, .maint, .maintPersist .ok, .maint, .maint]

/-- One sealed memtable. -/
def sealedOne : List (FileLabel 2 1) := [.put ⟨[1], [5], 1, .value⟩, .sealActive]

/-- An ingest has written its file and installs it after the sweep. -/
def sweptIngest : List (FileLabel 2 1) :=
  sealedOne ++ [.ingest 0 [⟨[2], [6], 2, .value⟩], .ingestStep 0, .ingestStep 0] ++ wholeFlush ++
    majorToSweep ++ [.maint, .maint, .sweepTest 1, .ingestStep 0]

/-- A flush installs and returns between the reads of the sweep. -/
def sweptBetweenReads : List (FileLabel 2 1) :=
  sealedOne ++ [.flush 1, .flush 1, .flush 1, .flush 1] ++ wholeFlush ++ majorToSweep ++
    [.maint, .flush 1, .flush 1, .flush 1, .maint, .sweepTest 1]

/-- A flush has drawn an id and registers it after the sweep has read `flushing_ids`. -/
def sweptUnregistered : List (FileLabel 2 1) :=
  sealedOne ++ [.flush 1, .flush 1] ++ wholeFlush ++ majorToSweep ++
    [.maint, .maint, .flush 1, .flush 1, .sweepTest 1, .flush 1]

/-- The version names a table that a sweep has unlinked and no file stands for. -/
abbrev SweptLive (s : FileState n m) : Prop :=
  ∃ t ∈ s.tree.current.version.allTables, t.id ∈ s.swept ∧ ∀ f ∈ s.files, f.id ≠ t.id

theorem live_table_swept : [sweptIngest, sweptBetweenReads, sweptUnregistered].Forall fun ls =>
    ∃ s, (fileSys roomyLevels 2 1).run (fileSys roomyLevels 2 1).init ls = some s ∧
      SweptLive s := by
  refine List.forall_iff_forall_mem.mpr fun ls hls => exists_of_any ?_
  revert ls
  decide +kernel

/-- A flush has registered its id and written its file before the sweep, and installs it
afterwards. -/
theorem live_tables_on_disk_in_flight : ∃ s, (fileSys roomyLevels 2 1).Reach UnlinkGuard s ∧
    s.tree.current.version.allTables.map Table.id = [1, 3] ∧
      ∀ t ∈ s.tree.current.version.allTables, t ∈ s.files ∧ t.id ∉ s.swept :=
  TransSys.exists_reach_and (sealedOne ++ [.flush 1, .flush 1, .flush 1, .flush 1] ++
    wholeFlush ++ majorToSweep ++ [.maint, .maint, .sweepTest 1, .maint, .flush 1])
      (by decide +kernel)
    fun s hs => live_tables_on_disk roomyLevels 2 1 s hs

end XyzDB
