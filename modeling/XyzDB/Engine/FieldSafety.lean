import XyzDB.Engine.FieldRegistry

/-!
# Committed records stay decodable

What a statement does is said once, for every keyspaces its batch may later be committed to
(`Encoded`): the dictionary of its lobe registers the names it asks for, every blob in its
batch is encoded with the names registered by then, and the batch has the whole list as an
entry exactly when the list grew.

The invariant `RegistryInv` ties three lists of names of a lobe: the list on disk is a prefix
of the list in memory, so is the list that each batch on its way has seen, and every committed
blob is encoded with a prefix of the list on disk. A commit in growth order keeps it: a batch
with new names brings a list that extends the one on disk, and a batch without any has seen
no more than the list on disk. After a crash the list in memory is the list on disk.
-/

namespace XyzDB.Engine

open Std (ExtTreeMap)

open List Option LobeFieldRegistry

variable {cfg : RegistryConfig}

lemma Keyspaces.commit_append (ks : Keyspaces) (ops ops' : List BatchOp) :
    ks.commit (ops ++ ops') = (ks.commit ops).commit ops' := foldl_append

/-- A stored blob is its record, with the column beside it. -/
structure StoredOk (cfg : RegistryConfig) (key : Key) (x : Stored) (column : Option (List UInt8)) :
    Prop where
  lobe : ∃ lobe, key.take 2 = beBytes lobe ∧ x.record.lobeName = cfg.lobeName lobe
  storable : x.record.Storable
  encodes : Encodes cfg.normSq x.names x.record x.blob column
  nonempty : x.blob.formatVersion ≠ 1 → x.names ≠ []

/-- Every stored blob is its record. -/
def Keyspaces.Ok (cfg : RegistryConfig) (ks : Keyspaces) : Prop :=
  ∀ (key : Key) (x : Stored), ks.spatial[key]? = some x → StoredOk cfg key x ks.vectors[key]?

def LobeFieldRegistry.names (reg : LobeFieldRegistry) (lobe : UInt16) : List Text :=
  (reg.dictOrDefault lobe).idToName

/-- **What a statement does**: `asked` are the names it asks for, `ops` is its batch. -/
structure Encoded (cfg : RegistryConfig) (lobe : UInt16) (reg reg' : LobeFieldRegistry)
    (asked : List Text) (ops : List BatchOp) : Prop where
  wf : (reg'.dictOrDefault lobe).WF
  names : reg'.names lobe = registerAll (reg.names lobe) asked
  other : ∀ lobe', lobe' ≠ lobe → reg'.dictOrDefault lobe' = reg.dictOrDefault lobe'
  keeps : ∀ ks, Keyspaces.Ok cfg ks → Keyspaces.Ok cfg (ks.commit ops)
  fresh : ∀ (ks : Keyspaces) (key : Key) (x : Stored), (ks.commit ops).spatial[key]? = some x →
    ks.spatial[key]? = some x ∨ (key.take 2 = beBytes lobe ∧ x.names <+: reg'.names lobe ∧
      (asked = [] → x.names = []))
  dictionary : ∀ ks : Keyspaces, (ks.commit ops).dictionary =
    if (reg.names lobe).length < (reg'.names lobe).length then
      ks.dictionary.insert (registryKey lobe) (reg'.names lobe)
    else ks.dictionary

namespace Encoded

variable {lobe : UInt16} {reg reg' reg'' : LobeFieldRegistry} {asked asked' : List Text}
  {ops ops' : List BatchOp}

lemma refl (h : (reg.dictOrDefault lobe).WF) : Encoded cfg lobe reg reg [] [] where
  wf := h
  names := rfl
  other _ _ := rfl
  keeps _ hks := hks
  fresh _ _ _ hx := .inl hx
  dictionary ks := by rw [if_neg (lt_irrefl _)]; rfl

lemma le (h : Encoded cfg lobe reg reg' asked ops) : reg.names lobe <+: reg'.names lobe := by
  rw [h.names]
  exact prefix_registerAll _ _

lemma insert_insert {α : Type} (m : ExtTreeMap Key α) (k : Key) (a b : α) :
    (m.insert k a).insert k b = m.insert k b := by
  refine ExtTreeMap.ext_getElem? fun x => ?_
  simp only [ExtTreeMap.getElem?_insert]
  split <;> rfl

lemma append (h : Encoded cfg lobe reg reg' asked ops)
    (h' : Encoded cfg lobe reg' reg'' asked' ops') :
    Encoded cfg lobe reg reg'' (asked ++ asked') (ops ++ ops') where
  wf := h'.wf
  names := by rw [h'.names, h.names, registerAll_append]
  other lobe' hne := (h'.other lobe' hne).trans (h.other lobe' hne)
  keeps ks hks := by
    rw [Keyspaces.commit_append]
    exact h'.keeps _ (h.keeps _ hks)
  fresh ks key x hx := by
    rw [Keyspaces.commit_append] at hx
    rcases h'.fresh _ key x hx with hx | ⟨hkey, hle, hnil⟩
    · rcases h.fresh _ key x hx with hx | ⟨hkey, hle, hnil⟩
      · exact .inl hx
      · exact .inr ⟨hkey, hle.trans h'.le, fun happ => hnil (append_eq_nil_iff.mp happ).1⟩
    · exact .inr ⟨hkey, hle, fun happ => hnil (append_eq_nil_iff.mp happ).2⟩
  dictionary ks := by
    rw [Keyspaces.commit_append, h'.dictionary, h.dictionary]
    have hle := h.le.length_le
    have hle' := h'.le.length_le
    by_cases hgrew : (reg'.names lobe).length < (reg''.names lobe).length
    · rw [if_pos hgrew, if_pos (lt_of_le_of_lt hle hgrew)]
      split
      · exact insert_insert ..
      · rfl
    · -- the second statement brought nothing, so its list is the first one's
      have heq : reg''.names lobe = reg'.names lobe :=
        (h'.le.eq_of_length (le_antisymm hle' (not_lt.mp hgrew))).symm
      rw [if_neg hgrew, heq]

end Encoded

/-- A record put under a key, with its column, after the old key has been cleared. -/
lemma Keyspaces.Ok.put {ks ks' : Keyspaces} {key : Key} (moved : List Key)
    (h : Keyspaces.Ok cfg ks) (hx : StoredOk cfg key x ks'.vectors[key]?)
    (hspatial : ∀ k : Key, ks'.spatial[k]? =
      if k = key then some x else if k ∈ moved then none else ks.spatial[k]?)
    (hvectors : ∀ k : Key, k ≠ key → k ∉ moved → ks'.vectors[k]? = ks.vectors[k]?) :
    Keyspaces.Ok cfg ks' := by
  intro k y hy
  rw [hspatial k] at hy
  split_ifs at hy with hk hm
  · cases hy
    exact hk ▸ hx
  · rw [hvectors k hk hm]
    exact h k y hy

namespace LobeFieldRegistry

@[simp] lemma dictOrDefault_insert (reg : LobeFieldRegistry) (lobe : UInt16) (d : FieldDict) :
    (⟨reg.dicts.insert lobe d⟩ : LobeFieldRegistry).dictOrDefault lobe = d := by
  simp [dictOrDefault, getDict]

lemma dictOrDefault_insert_of_ne (reg : LobeFieldRegistry) {lobe' : UInt16} (d : FieldDict)
    (h : lobe' ≠ lobe) : (⟨reg.dicts.insert lobe d⟩ : LobeFieldRegistry).dictOrDefault lobe' =
      reg.dictOrDefault lobe' := by
  simp [dictOrDefault, getDict, OrdMap.getElem?_insert, h.symm]

end LobeFieldRegistry

lemma getElem?_putMoved {α : Type} (m : ExtTreeMap Key α) (moved : Option Key) (key k : Key)
    (a : α) :
    ((moved.elim m m.erase).insert key a)[k]? =
      if k = key then some a else if k ∈ moved.toList then none else m[k]? := by
  cases moved with
  | none => simp [OrdMap.getElem?_insert, eq_comm]
  | some old => simp [OrdMap.getElem?_insert, OrdMap.getElem?_erase, eq_comm]

/-- What a batch with one record does: put it, clear its old key, bring the column and the
names. -/
structure PutsOne (w : Write) (x : Stored) (column : Option (List UInt8))
    (entry : Option (Key × List Text)) (ops : List BatchOp) : Prop where
  spatial : ∀ ks : Keyspaces, (ks.commit ops).spatial =
    (w.movedFrom.elim ks.spatial ks.spatial.erase).insert w.key x
  vectors : ∀ ks : Keyspaces, (ks.commit ops).vectors =
    column.elim (w.movedFrom.elim ks.vectors ks.vectors.erase)
      ((w.movedFrom.elim ks.vectors ks.vectors.erase).insert w.key)
  dictionary : ∀ ks : Keyspaces, (ks.commit ops).dictionary =
    entry.elim ks.dictionary fun e => ks.dictionary.insert e.1 e.2

lemma putsOne (w : Write) (x : Stored) (column : Option (List UInt8))
    (entry : Option (Key × List Text)) : PutsOne w x column entry (putOps w x column entry) := by
  constructor <;> intro ks <;> rw [putOps] <;> cases w.movedFrom <;> cases column <;>
    cases entry <;> rfl

variable {names : List Text}

section

variable {lobe : UInt16} {reg reg' : LobeFieldRegistry} {w : Write} {x : Stored}
  {column : Option (List UInt8)} {asked : List Text} {d : FieldDict} {ops : List BatchOp}

/-- **One record.** Its blob is encoded with the names of the lobe's dictionary `d` after it
got its numbers. -/
theorem encoded_of_putsOne (hreg : reg'.dictOrDefault lobe = d)
    (hother : ∀ lobe', lobe' ≠ lobe → reg'.dictOrDefault lobe' = reg.dictOrDefault lobe')
    (hfits : w.Fits cfg lobe) (hd : d.WF) (hnames : d.idToName = registerAll (reg.names lobe) asked)
    (hwrite : PutsOne w x column (grownEntry lobe (reg.dictOrDefault lobe) d) ops)
    (hx : x.record = w.record) (hxnames : x.names <+: d.idToName) (hnil : asked = [] → x.names = [])
    (hnonempty : x.blob.formatVersion ≠ 1 → x.names ≠ [])
    (hencodes : ∀ col, (∀ c, column = some c → col = some c) →
      Encodes cfg.normSq x.names x.record x.blob col) : Encoded cfg lobe reg reg' asked ops where
  wf := by rwa [hreg]
  names := by rw [names, hreg, hnames]
  other := hother
  keeps ks hks := by
    have hvectors : ∀ k : Key, k ≠ w.key → k ∉ w.movedFrom.toList →
        (ks.commit ops).vectors[k]? = ks.vectors[k]? := by
      intro k hk hm
      have herase : (w.movedFrom.elim ks.vectors ks.vectors.erase)[k]? = ks.vectors[k]? := by
        cases hmoved : w.movedFrom with
        | none => rfl
        | some old =>
          have hne : k ≠ old := by simpa [hmoved] using hm
          rw [elim_some, OrdMap.getElem?_erase, if_neg hne.symm]
      rw [hwrite.vectors ks]
      cases column with
      | none => exact herase
      | some c =>
        rw [elim_some, OrdMap.getElem?_insert, if_neg hk.symm, herase]
    refine hks.put w.movedFrom.toList ⟨⟨lobe, hfits.1, hx ▸ hfits.2.1⟩, hx ▸ hfits.2.2,
      hencodes _ fun c hc => ?_, hnonempty⟩ (fun k => ?_) hvectors
    · rw [hwrite.vectors ks, hc, elim_some, ExtTreeMap.getElem?_insert_self]
    · rw [hwrite.spatial ks, getElem?_putMoved]
  fresh ks key y hy := by
    rw [hwrite.spatial ks, getElem?_putMoved] at hy
    split_ifs at hy with hk
    · cases hy
      subst hk
      refine .inr ⟨hfits.1, ?_, hnil⟩
      rwa [names, hreg]
    · exact .inl hy
  dictionary ks := by
    rw [hwrite.dictionary ks, grownEntry]
    simp only [names, hreg]
    split <;> rfl

lemma ne_nil_of_mem_asked (h : asked ≠ []) : registerAll names asked ≠ [] := by
  obtain ⟨name, rest, rfl⟩ := exists_cons_of_ne_nil h
  exact ne_nil_of_mem (mem_registerAll.mpr (.inr mem_cons_self))

lemma names_ne_nil_of_link {relation target : Text} (h : w.form = .link relation target) :
    w.record.names ≠ [] := by
  refine ne_nil_of_mem (a := "_link_".toList ++ relation) (mem_names.mpr ⟨.text target, ?_⟩)
  simp [Write.record, h]

lemma Write.splits_eq_some (w : Write) {name : Text} (h : w.splits = some name) :
    ∃ v, w.record.fields[name]? = some (.vector v) := by
  rw [Write.splits] at h
  split at h
  · split at h
    · next v hv =>
      cases h
      exact ⟨v, hv⟩
    · cases h
  · cases h

lemma encoded_encodeWrite (hfits : w.Fits cfg lobe) (hwf : (reg.dictOrDefault lobe).WF)
    (hlen : (registerAll (reg.names lobe) w.asked).length ≤ 2 ^ 16) :
    Encoded cfg lobe reg (encodeWrite cfg.normSq lobe w reg).2 w.asked
      (encodeWrite cfg.normSq lobe w reg).1 := by
  cases hform : w.form with
  | link relation target =>
    -- a link is always stored under numbers
    have hasked : w.asked = w.record.names := by simp only [Write.asked, hform]
    rw [hasked] at hlen ⊢
    simp only [encodeWrite, hform, serializeRecordV2Durable, dictOrDefault_insert]
    obtain ⟨hd, hnames⟩ := hwf.serializeRecordV2 hlen
    refine encoded_of_putsOne (dictOrDefault_insert ..)
      (fun _ hne => dictOrDefault_insert_of_ne reg _ hne) hfits hd hnames
      (putsOne ..) rfl prefix_rfl (fun hnil => absurd hnil (names_ne_nil_of_link hform))
      (fun _ => hnames ▸ ne_nil_of_mem_asked (names_ne_nil_of_link hform)) fun col _ => ?_
    rw [hnames]
    exact encodes_serializeRecordV2 hwf hlen
  | put movedFrom search =>
    cases hsplits : w.splits with
    | some name =>
      -- a vector in its own column: the rest of the record is stored under numbers
      have hasked : w.asked = w.record.namesV5 name := by simp only [Write.asked, hform, hsplits]
      obtain ⟨v, hvec⟩ := w.splits_eq_some hsplits
      rw [hasked] at hlen ⊢
      simp only [encodeWrite, hform, hsplits, serializeRecordV5Durable, dictOrDefault_insert]
      obtain ⟨hd, hnames, hencodes⟩ := hwf.serializeRecordV5 hvec hlen
      refine encoded_of_putsOne (dictOrDefault_insert ..)
        (fun _ hne => dictOrDefault_insert_of_ne reg _ hne) hfits hd hnames
        (putsOne ..) rfl prefix_rfl (fun hnil => absurd hnil (cons_ne_nil _ _))
        (fun _ => hnames ▸ ne_nil_of_mem_asked (cons_ne_nil _ _)) fun col hcol => ?_
      rw [hnames, hcol _ (column_serializeRecordV5 hvec)]
      exact column_serializeRecordV5 hvec ▸ hencodes
    | none =>
      -- no vector: the blob has its names in full, and no name is registered
      have hasked : w.asked = [] := by simp only [Write.asked, hform, hsplits]
      rw [hasked]
      simp only [encodeWrite, hform, hsplits]
      have hgrown : grownEntry lobe (reg.dictOrDefault lobe)
          (reg.dictOrDefault lobe) = none := if_neg (lt_irrefl _)
      have hputs : PutsOne w ⟨serializeRecord w.record, w.record, []⟩ none
          (grownEntry lobe (reg.dictOrDefault lobe) (reg.dictOrDefault lobe))
          (putOps w ⟨serializeRecord w.record, w.record, []⟩ none none) := by
        rw [hgrown]
        exact putsOne ..
      exact encoded_of_putsOne (x := ⟨serializeRecord w.record, w.record, []⟩) rfl
        (fun _ _ => rfl) hfits hwf rfl hputs rfl nil_prefix (fun _ => rfl)
        (fun h => absurd rfl h) fun col _ => .v1 col

/-- **A whole statement.** -/
theorem encoded_encodeWrites {writes : List Write} (hfits : ∀ w ∈ writes, w.Fits cfg lobe)
    (hwf : (reg.dictOrDefault lobe).WF)
    (hlen : (registerAll (reg.names lobe) (writes.flatMap Write.asked)).length ≤ 2 ^ 16) :
    Encoded cfg lobe reg (encodeWrites cfg.normSq lobe writes reg).2
      (writes.flatMap Write.asked) (encodeWrites cfg.normSq lobe writes reg).1 := by
  induction writes generalizing reg with
  | nil => exact .refl hwf
  | cons w writes ih =>
    rw [flatMap_cons, registerAll_append] at hlen
    have hle := (prefix_registerAll (registerAll (reg.names lobe) w.asked)
      (writes.flatMap Write.asked)).length_le
    have hw := encoded_encodeWrite (hfits w mem_cons_self) hwf (hle.trans hlen)
    rw [← hw.names] at hlen
    exact hw.append (ih (fun w' hw' => hfits w' (.tail _ hw')) hw.wf hlen)

end

/-- The names that are registered are distinct, so there are no more than are asked for. -/
lemma length_registerAll_le (h : names.Nodup) :
    (registerAll names asked).length ≤ (names ++ asked).dedup.length := by
  refine ((nodup_registerAll h asked).subperm fun x hx => ?_).length_le
  rw [mem_dedup, mem_append]
  exact mem_registerAll.mp hx

/-! ### The invariant -/

/-- What a batch on its way does to the keyspaces, when the lobe has the names `names` in
memory. -/
structure BatchOk (cfg : RegistryConfig) (names : List Text) (b : Batch) : Prop where
  seen : b.seen <+: names
  keeps : ∀ ks, Keyspaces.Ok cfg ks → Keyspaces.Ok cfg (ks.commit b.ops)
  fresh : ∀ (ks : Keyspaces) (key : Key) (x : Stored), (ks.commit b.ops).spatial[key]? = some x →
    ks.spatial[key]? = some x ∨ (key.take 2 = beBytes b.lobe ∧ x.names <+: b.seen)
  dictionary : ∀ ks : Keyspaces, (ks.commit b.ops).dictionary =
    if b.grew then ks.dictionary.insert (registryKey b.lobe) b.seen else ks.dictionary

lemma BatchOk.mono {names' : List Text} {b : Batch} (h : BatchOk cfg names b)
    (hle : names <+: names') : BatchOk cfg names' b :=
  ⟨h.seen.trans hle, h.keeps, h.fresh, h.dictionary⟩

/-- Every blob, stored or pending, decodes by the names that are known for its lobe. -/
structure RegistryInv (cfg : RegistryConfig) (s : RegistryState) : Prop where
  /-- The dictionaries in memory are well formed. -/
  wf : ∀ lobe, (s.registry.dictOrDefault lobe).WF
  /-- The names on disk come first in memory. -/
  disk : ∀ lobe, s.keyspaces.names lobe <+: s.names lobe
  /-- The dictionary keyspace has no other keys. -/
  keys : ∀ (key : Key) (names : List Text), s.keyspaces.dictionary[key]? = some names →
    ∃ lobe, key = registryKey lobe
  /-- Committed blobs are their records. -/
  stored : s.keyspaces.Ok cfg
  /-- They are encoded with names that are on disk. -/
  names : ∀ (lobe : UInt16) (key : Key) (x : Stored), key.take 2 = beBytes lobe →
    s.keyspaces.spatial[key]? = some x → x.names <+: s.keyspaces.names lobe
  pending : ∀ (writer : ℕ) (b : Batch), s.pending writer = some b → BatchOk cfg (s.names b.lobe) b

lemma registryKey_inj {a b : UInt16} (h : registryKey a = registryKey b) : a = b := by
  simp only [registryKey, List.cons.injEq, true_and] at h
  exact beBytes_inj h

section

variable {dictionary : ExtTreeMap Key (List Text)}

lemma loadEntry_eq_some {lobe lobe' : UInt16} {d : FieldDict} :
    loadEntry (registryKey lobe, names) = some (lobe', d) ↔
      names ≠ [] ∧ lobe = lobe' ∧ .fromNames names = d := by
  show (if names.isEmpty then none else some (fromBeBytes _ _, FieldDict.fromNames names)) = _ ↔ _
  rw [fromBeBytes_beBytes]
  cases names <;> simp

variable (hkeys : ∀ (key : Key) (names : List Text), dictionary[key]? = some names →
  ∃ lobe, key = registryKey lobe) (lobe : UInt16)

include hkeys

/-- **What boot loads** for a lobe: its list of names, unless it has none. -/
theorem getDict_loadFromDisk (d : FieldDict) : (loadFromDisk dictionary).getDict lobe = some d ↔
      ∃ names, dictionary[registryKey lobe]? = some names ∧ names ≠ [] ∧ .fromNames names = d := by
  rw [getDict, loadFromDisk, OrdMap.getElem?_ofList_filterMap]
  · constructor
    · rintro ⟨key, names, hget, hload⟩
      obtain ⟨lobe', rfl⟩ := hkeys key names hget
      obtain ⟨hnil, rfl, hd⟩ := loadEntry_eq_some.mp hload
      exact ⟨names, hget, hnil, hd⟩
    · rintro ⟨names, hget, hnil, hd⟩
      exact ⟨registryKey lobe, names, hget, loadEntry_eq_some.mpr ⟨hnil, rfl, hd⟩⟩
  · intro key names key' names' c d d' hget hget' hload hload'
    obtain ⟨a, rfl⟩ := hkeys key names hget
    obtain ⟨b, rfl⟩ := hkeys key' names' hget'
    rw [(loadEntry_eq_some.mp hload).2.1, (loadEntry_eq_some.mp hload').2.1]

lemma names_eq_nil_of_getDict (hget : (loadFromDisk dictionary).getDict lobe = none) :
    (dictionary[registryKey lobe]?).getD [] = [] := by
  cases hnames : dictionary[registryKey lobe]? with
  | none => rfl
  | some names =>
    by_contra hnil
    have := (getDict_loadFromDisk hkeys lobe _).mpr ⟨names, hnames, hnil, rfl⟩
    rw [hget] at this
    cases this

lemma dictOrDefault_loadFromDisk : (loadFromDisk dictionary).dictOrDefault lobe =
    .fromNames ((dictionary[registryKey lobe]?).getD []) := by
  rw [dictOrDefault]
  cases hget : (loadFromDisk dictionary).getDict lobe with
  | some d =>
    obtain ⟨names, hnames, -, rfl⟩ := (getDict_loadFromDisk hkeys lobe d).mp hget
    rw [hnames]
    rfl
  | none =>
    rw [names_eq_nil_of_getDict hkeys lobe hget]
    rfl

end

section

variable {s s' : RegistryState}

lemma registryInv_init : RegistryInv cfg (registrySys cfg).init where
  wf _ := by simpa [registrySys, dictOrDefault, getDict] using FieldDict.wf_new
  disk lobe := by simp [registrySys, Keyspaces.names]
  keys key names h := by simp [registrySys] at h
  stored key x h := by simp [registrySys] at h
  names lobe key x _ h := by simp [registrySys] at h
  pending writer b h := by simp [registrySys] at h

section

variable (h : RegistryInv cfg s)

include h

/-- A statement takes the lock: its names come behind those that are there. -/
lemma RegistryInv.serialize {writer : ℕ} {writes : List Write}
    (hfits : ∀ w ∈ writes, w.Fits cfg lobe)
    (hlen : (s.names lobe ++ writes.flatMap Write.asked).dedup.length ≤ 2 ^ 16) :
    RegistryInv cfg { s with
      registry := (encodeWrites cfg.normSq lobe writes s.registry).2
      pending := Function.update s.pending writer (some (s.batch cfg lobe writes)) } := by
  have henc := encoded_encodeWrites hfits (h.wf lobe)
    ((length_registerAll_le (h.wf lobe).nodup).trans hlen)
  -- names are only ever added, and in one lobe
  have hle : ∀ lobe', s.names lobe' <+:
      (encodeWrites cfg.normSq lobe writes s.registry).2.names lobe' := by
    intro lobe'
    by_cases hlobe : lobe' = lobe
    · exact hlobe ▸ henc.le
    · rw [LobeFieldRegistry.names, henc.other lobe' hlobe]
      exact prefix_rfl
  refine ⟨fun lobe' => ?_, fun lobe' => (h.disk lobe').trans (hle lobe'), h.keys, h.stored,
    h.names, fun writer' b hb => ?_⟩
  · by_cases hlobe : lobe' = lobe
    · exact hlobe ▸ henc.wf
    · exact henc.other lobe' hlobe ▸ h.wf lobe'
  · rcases update_eq_some hb with ⟨-, hb⟩ | ⟨-, hb⟩
    · cases hb
      by_cases hnil : writes.all (·.asked.isEmpty) = true
      · -- a batch without numbers has seen nothing and brings nothing
        have hasked : writes.flatMap Write.asked = [] :=
          flatMap_eq_nil_iff.mpr fun w hw => isEmpty_iff.mp (all_eq_true.mp hnil w hw)
        have hnames := henc.names
        rw [hasked] at hnames
        have hgrew : ¬ (s.registry.names lobe).length <
            ((encodeWrites cfg.normSq lobe writes s.registry).2.names lobe).length := by
          rw [hnames]
          exact lt_irrefl _
        refine ⟨?_, henc.keeps, fun ks key x hx => ?_, fun ks => ?_⟩
        · simp only [RegistryState.batch, if_pos hnil, nil_prefix]
        · refine (henc.fresh ks key x hx).imp id fun hf => ⟨hf.1, ?_⟩
          rw [hf.2.2 hasked]
          exact nil_prefix
        · rw [show (ks.commit (s.batch cfg lobe writes).ops).dictionary = _ from
            henc.dictionary ks, if_neg hgrew]
          exact (if_neg fun hb => hgrew (of_decide_eq_true hb)).symm
      · refine ⟨?_, henc.keeps, fun ks key x hx => ?_, fun ks => ?_⟩
        · simp only [RegistryState.batch, if_neg hnil]
          exact prefix_rfl
        · simp only [RegistryState.batch, if_neg hnil]
          exact (henc.fresh ks key x hx).imp id fun hf => ⟨hf.1, hf.2.1⟩
        · simp only [RegistryState.batch, if_neg hnil, decide_eq_true_eq]
          exact henc.dictionary ks
    · exact (h.pending writer' b hb).mono (hle b.lobe)

lemma RegistryInv.commit {writer : ℕ} {b : Batch} (hb : s.pending writer = some b)
    (horder : if b.grew then (s.keyspaces.names b.lobe).length ≤ b.seen.length
      else b.seen.length ≤ (s.keyspaces.names b.lobe).length) :
    RegistryInv cfg { s with
      keyspaces := s.keyspaces.commit b.ops
      pending := Function.update s.pending writer none } := by
  have hok := h.pending writer b hb
  -- the three lists are prefixes of the one in memory, so the shorter comes first
  have hnames : (s.keyspaces.commit b.ops).names b.lobe <+: s.names b.lobe ∧
      b.seen <+: (s.keyspaces.commit b.ops).names b.lobe ∧
        s.keyspaces.names b.lobe <+: (s.keyspaces.commit b.ops).names b.lobe := by
    rw [Keyspaces.names, hok.dictionary]
    by_cases hgrew : b.grew = true
    · rw [if_pos hgrew] at horder ⊢
      rw [ExtTreeMap.getElem?_insert_self]
      exact ⟨hok.seen, prefix_rfl, prefix_of_prefix_length_le (h.disk b.lobe) hok.seen horder⟩
    · rw [if_neg hgrew] at horder ⊢
      exact ⟨h.disk b.lobe, prefix_of_prefix_length_le hok.seen (h.disk b.lobe) horder, prefix_rfl⟩
  have hother : ∀ lobe, lobe ≠ b.lobe →
      (s.keyspaces.commit b.ops).names lobe = s.keyspaces.names lobe := by
    intro lobe hne
    rw [Keyspaces.names, hok.dictionary]
    split
    · rw [OrdMap.getElem?_insert, if_neg fun heq => hne (registryKey_inj heq).symm]
      rfl
    · rfl
  refine ⟨h.wf, fun lobe => ?_, fun key names hget => ?_, hok.keeps _ h.stored,
    fun lobe key x hkey hx => ?_, fun writer' b' hb' => ?_⟩
  · by_cases hlobe : lobe = b.lobe
    · exact hlobe ▸ hnames.1
    · show (s.keyspaces.commit b.ops).names lobe <+: _
      exact hother lobe hlobe ▸ h.disk lobe
  · change (s.keyspaces.commit b.ops).dictionary[key]? = some names at hget
    rw [hok.dictionary] at hget
    split at hget
    · rw [OrdMap.getElem?_insert] at hget
      split at hget
      · next heq => exact ⟨b.lobe, heq.symm⟩
      · exact h.keys key names hget
    · exact h.keys key names hget
  · show x.names <+: (s.keyspaces.commit b.ops).names lobe
    rcases hok.fresh _ key x hx with hx | ⟨hkey', hle⟩
    · by_cases hlobe : lobe = b.lobe
      · subst hlobe
        exact (h.names _ key x hkey hx).trans hnames.2.2
      · rw [hother lobe hlobe]
        exact h.names lobe key x hkey hx
    · cases beBytes_inj (hkey.symm.trans hkey')
      exact hle.trans hnames.2.1
  · rcases update_eq_some hb' with ⟨-, hb'⟩ | ⟨-, hb'⟩
    · cases hb'
    · exact h.pending writer' b' hb'

lemma RegistryInv.reboot : RegistryInv cfg s.reboot := by
  have hdict : ∀ lobe, s.reboot.registry.dictOrDefault lobe =
      .fromNames (s.keyspaces.names lobe) := dictOrDefault_loadFromDisk h.keys
  refine ⟨fun lobe => ?_, fun lobe => ?_, h.keys, h.stored, h.names, fun writer b hb => ?_⟩
  · rw [hdict]
    exact FieldDict.wf_fromNames ((h.wf lobe).nodup.sublist (h.disk lobe).sublist)
      ((h.disk lobe).length_le.trans (h.wf lobe).fits)
  · show s.keyspaces.names lobe <+: (s.reboot.registry.dictOrDefault lobe).idToName
    rw [hdict]
    exact prefix_rfl
  · cases hb

lemma RegistryInv.next {l : RegistryLabel} (hok : GrowthOrder s l)
    (hnext : (registrySys cfg).next s l = some s') : RegistryInv cfg s' := by
  cases l with
  | serialize writer lobe writes =>
    simp only [registrySys, RegistryState.next] at hnext
    split at hnext <;> cases hnext
    next hfits => exact h.serialize hfits.2 hok
  | commit writer =>
    obtain ⟨b, hb, rfl⟩ := map_eq_some_iff.mp hnext
    exact h.commit hb (hok b hb)
  | fail writer =>
    obtain ⟨b, hb, rfl⟩ := map_eq_some_iff.mp hnext
    refine ⟨h.wf, h.disk, h.keys, h.stored, h.names, fun writer' b' hb' => ?_⟩
    rcases update_eq_some hb' with ⟨-, hb'⟩ | ⟨-, hb'⟩
    · cases hb'
    · exact h.pending writer' b' hb'
  | crash =>
    cases hnext
    exact h.reboot

end

lemma registryInv_of_reach (h : (registrySys cfg).Reach GrowthOrder s) : RegistryInv cfg s :=
  h.invariant (RegistryInv cfg) registryInv_init fun _ _ _ hinv hok hnext => hinv.next hok hnext

/-! ### What follows -/

lemma RegistryInv.decodable (h : RegistryInv cfg s) : s.Decodable cfg := by
  intro lobe key x hkey hx
  have hstored := h.stored key x hx
  obtain ⟨lobe', hkey', hname⟩ := hstored.lobe
  cases beBytes_inj (hkey'.symm.trans hkey)
  have hle := h.names lobe key x hkey hx
  have hread : s.reboot.read cfg lobe key = deserializeHydrated s.keyspaces.vectors[key]? x.blob
      x.record.lobeName (s.reboot.registry.getDict lobe) := by
    simp only [RegistryState.read, hname]
    rw [show s.reboot.keyspaces.spatial[key]? = some x from hx]
    rfl
  rw [hread]
  cases hget : s.reboot.registry.getDict lobe with
  | some d =>
    obtain ⟨names, hnames, -, rfl⟩ := (getDict_loadFromDisk h.keys lobe d).mp hget
    have hdisk : s.keyspaces.names lobe = names := by rw [Keyspaces.names, hnames]; rfl
    refine deserializeHydrated_of_encodes (hstored.encodes.mono (hdisk ▸ hle)) ?_ hstored.storable
    exact hdisk ▸ (h.wf lobe).nodup.sublist (h.disk lobe).sublist
  | none =>
    -- without a list there are no numbers, so the record has its names in it
    have hv1 : x.blob.formatVersion = 1 := by
      by_contra hne
      have hnil : s.keyspaces.names lobe = [] := names_eq_nil_of_getDict h.keys lobe hget
      exact hstored.nonempty hne (prefix_nil.mp (hnil ▸ hle))
    exact deserializeHydrated_of_v1 hstored.encodes hv1 hstored.storable

lemma RegistryInv.numbersKept (h : RegistryInv cfg s) : s.NumbersKept := by
  intro lobe key x id name name' hkey hx huses hname'
  have hle := (h.names lobe key x hkey hx).trans (h.disk lobe)
  have hname : (s.registry.dictOrDefault lobe).idToName[id.toNat]? = some name :=
    getElem?_mono hle huses.2.2
  rw [(h.wf lobe).agree, hname, Option.some.injEq] at hname'
  exact hname'.symm

end

/-- **Records stay decodable.** In every run in growth order, with any number of writers, failed
commits and crashes, every committed record is read after a reboot as it was written, and no
number that it uses is given to another name. -/
theorem committed_records_decodable (cfg : RegistryConfig) {s : RegistryState}
    (h : (registrySys cfg).Reach GrowthOrder s) : s.Decodable cfg ∧ s.NumbersKept :=
  ⟨(registryInv_of_reach h).decodable, (registryInv_of_reach h).numbersKept⟩

/-- An environment for runs. -/
def plainConfig : RegistryConfig := ⟨fun _ => 0, fun _ => []⟩

/-- An edge from the record under the key `[0, 1, k]` of lobe 1. -/
def edge (k : UInt8) (relation : String) : Write :=
  ⟨[0, 1, k], ⟨7, [], ∅, 0, 0⟩, .link relation.toList ['t']⟩

/-- Two writers use one new name, and commit in the order in which they took the lock. -/
def inOrder : List RegistryLabel :=
  [.serialize 0 1 [edge 1 "a"], .serialize 1 1 [edge 2 "a"], .commit 0, .commit 1, .crash]

theorem committed_records_decodable_run : ∃ s, (registrySys plainConfig).Reach GrowthOrder s ∧
    (s.keyspaces.spatial[([0, 1, 2] : Key)]?).isSome ∧ s.Decodable plainConfig ∧ s.NumbersKept :=
  TransSys.exists_reach_and inOrder (by decide +kernel)
    fun _ hs => committed_records_decodable plainConfig hs

/-- The second user of the new name `b` gets no entry for it, and commits first. -/
def lostName : List RegistryLabel :=
  [.serialize 0 1 [edge 1 "a"], .commit 0, .serialize 1 1 [edge 2 "b"],
    .serialize 2 1 [edge 3 "b"], .commit 2]

/-- After the crash the number of `b` goes to `c`. -/
def reusedNumber : List RegistryLabel := lostName ++ [.crash, .serialize 3 1 [edge 4 "c"]]

/-- **A record loses a field.** When the engine stops after `lostName`, the name is on no disk;
the record of writer 2 is read without its field, and the next new name gets its number. -/
theorem second_user_loses_name :
    ¬ (∀ s, (registrySys plainConfig).Reach TransSys.anyStep s → s.Decodable plainConfig) ∧
      ¬ (∀ s, (registrySys plainConfig).Reach TransSys.anyStep s → s.NumbersKept) := by
  refine ⟨fun hall => ?_, fun hall => ?_⟩
  · obtain ⟨s, hs, hwritten, hread⟩ : ∃ s, (registrySys plainConfig).Reach TransSys.anyStep s ∧
        (s.keyspaces.spatial[([0, 1, 3] : Key)]?).map (fun x => x.record.names) =
            some ["_link_b".toList] ∧
          (s.reboot.read plainConfig 1 [0, 1, 3]).map Record.names = some [] :=
      TransSys.exists_reach_of_run lostName (by decide +kernel)
    obtain ⟨x, hx, hnames⟩ := map_eq_some_iff.mp hwritten
    rw [hall s hs 1 [0, 1, 3] x (by decide) hx, map_some, hnames] at hread
    exact absurd hread (by decide)
  · obtain ⟨s, hs, huses, hname⟩ : ∃ s, (registrySys plainConfig).Reach TransSys.anyStep s ∧
        (s.keyspaces.spatial[([0, 1, 3] : Key)]?).map (fun x =>
          decide (x.Uses 1 "_link_b".toList)) = some true ∧
          (s.registry.dictOrDefault 1).nameToId["_link_c".toList]? = some 1 :=
      TransSys.exists_reach_of_run reusedNumber (by decide +kernel)
    obtain ⟨x, hx, huses⟩ := map_eq_some_iff.mp huses
    have hreused := hall s hs 1 [0, 1, 3] x 1 "_link_b".toList "_link_c".toList (by decide) hx
      (of_decide_eq_true huses) hname
    exact absurd hreused (by decide)

end XyzDB.Engine
