import XyzDB.Engine.Record
import XyzDB.Lib.OrdMap

/-!
# Reading back what was written

A dictionary is well formed when its two directions agree and no name stands twice in it.
Numbers are given out by `register`: a new name goes to the end of the list, so the list only
grows at its end and a number keeps its meaning in every later list.

`Encodes names r blob column` says that the blob, with the column beside it, is the record `r`
written with the numbers that the list `names` gives. It is kept when the list grows
(`Encodes.mono`), and a well-formed dictionary with such a list reads the record back
(`deserializeHydrated_of_encodes`).
-/

namespace XyzDB.Engine

open Std (ExtTreeMap)

open List

variable {i : ℕ} {name : Text} {d : FieldDict} {l : List (Text × Value)}
  {ids : List (UInt16 × Value)} {v : Value}

/-- Both directions agree, no name stands twice, and every number fits in 16 bits. -/
structure FieldDict.WF (d : FieldDict) : Prop where
  nodup : d.idToName.Nodup
  fits : d.idToName.length ≤ 2 ^ 16
  agree : ∀ (name : Text) (id : UInt16),
    d.nameToId[name]? = some id ↔ d.idToName[id.toNat]? = some name

lemma getElem?_ofNat {names : List Text} (hfits : names.length ≤ 2 ^ 16)
    (h : names[i]? = some name) : names[(UInt16.ofNat i).toNat]? = some name := by
  obtain ⟨hi, -⟩ := List.getElem?_eq_some_iff.mp h
  rw [UInt16.toNat_ofNat_of_lt' (lt_of_lt_of_le hi hfits), h]

lemma getElem?_mono {α : Type} {l l' : List α} (h : l <+: l') {a : α} (hi : l[i]? = some a) :
    l'[i]? = some a := by
  obtain ⟨hlt, rfl⟩ := List.getElem?_eq_some_iff.mp hi
  exact List.prefix_iff_getElem?.mp h i hlt

namespace FieldDict

lemma wf_new : new.WF :=
  ⟨nodup_nil, Nat.zero_le _, fun name id => by simp [new]⟩

/-- What is in the map that `from_names` builds: the names of the list, and what was there
before under other names. -/
lemma getElem?_fromNamesAux {names : List Text} (h : names.Nodup) {m : ExtTreeMap Text UInt16}
    {id : UInt16} : (fromNamesAux i names m)[name]? = some id ↔
      (∃ j, names[j]? = some name ∧ UInt16.ofNat (i + j) = id) ∨
        (name ∉ names ∧ m[name]? = some id) := by
  induction names generalizing i m with
  | nil => simp [fromNamesAux]
  | cons x names ih =>
    obtain ⟨hx, hnames⟩ := nodup_cons.mp h
    rw [fromNamesAux, ih hnames, OrdMap.getElem?_insert]
    constructor
    · rintro (⟨j, hj, rfl⟩ | ⟨hname, hm⟩)
      · exact .inl ⟨j + 1, by simpa using hj, by rw [Nat.add_assoc, Nat.add_comm 1 j]⟩
      · split at hm
        · next heq =>
          cases heq
          exact .inl ⟨0, rfl, Option.some.inj hm⟩
        · next hne =>
          refine .inr ⟨fun hmem => ?_, hm⟩
          rcases mem_cons.mp hmem with rfl | hmem
          · exact hne rfl
          · exact hname hmem
    · rintro (⟨j, hj, rfl⟩ | ⟨hname, hm⟩)
      · cases j with
        | zero =>
          cases Option.some.inj hj
          exact .inr ⟨hx, by rw [if_pos rfl, Nat.add_zero]⟩
        | succ j => exact .inl ⟨j, by simpa using hj, by rw [Nat.add_assoc, Nat.add_comm 1 j]⟩
      · obtain ⟨hne, hnotin⟩ := not_or.mp fun h => hname (mem_cons.mpr h)
        refine .inr ⟨hnotin, ?_⟩
        rw [if_neg (Ne.symm hne), hm]

lemma wf_fromNames {names : List Text} (hnodup : names.Nodup) (hfits : names.length ≤ 2 ^ 16) :
    (fromNames names).WF := by
  refine ⟨hnodup, hfits, fun name id => ?_⟩
  show (fromNamesAux 0 names ∅)[name]? = some id ↔ names[id.toNat]? = some name
  rw [getElem?_fromNamesAux hnodup]
  constructor
  · rintro (⟨j, hj, rfl⟩ | ⟨-, hm⟩)
    · rw [Nat.zero_add]
      exact getElem?_ofNat hfits hj
    · simp at hm
  · intro h
    exact .inl ⟨id.toNat, h, by simp⟩

lemma WF.mem_iff (h : d.WF) : name ∈ d.idToName ↔ ∃ id, d.nameToId[name]? = some id := by
  constructor
  · intro hmem
    obtain ⟨i, hi⟩ := mem_iff_getElem?.mp hmem
    exact ⟨_, (h.agree name _).mpr (getElem?_ofNat h.fits hi)⟩
  · rintro ⟨id, hid⟩
    exact mem_of_getElem? ((h.agree name id).mp hid)

end FieldDict

section

variable (names : List Text)

/-- The list of names after one more name has been asked for. -/
def register (name : Text) : List Text :=
  if name ∈ names then names else names ++ [name]

lemma prefix_register (name : Text) : names <+: register names name := by
  rw [register]
  split
  · exact prefix_rfl
  · exact prefix_append _ _

lemma nodup_register {names : List Text} (h : names.Nodup) (name : Text) :
    (register names name).Nodup := by
  rw [register]
  split
  · exact h
  · next hnotin =>
    refine nodup_append.mpr ⟨h, nodup_singleton _, fun a ha b hb => ?_⟩
    rw [mem_singleton.mp hb]
    exact fun heq => hnotin (heq ▸ ha)

lemma mem_register {names : List Text} {name x : Text} :
    x ∈ register names name ↔ x ∈ names ∨ x = name := by
  rw [register]
  split
  · next hin => exact ⟨.inl, fun h => h.elim id fun heq => heq ▸ hin⟩
  · simp

/-- The list of names after several names have been asked for. -/
def registerAll (asked : List Text) : List Text := asked.foldl register names

lemma prefix_registerAll (asked : List Text) : names <+: registerAll names asked := by
  induction asked generalizing names with
  | nil => exact prefix_rfl
  | cons x asked ih => exact (prefix_register names x).trans (ih _)

lemma nodup_registerAll {names : List Text} (h : names.Nodup) (asked : List Text) :
    (registerAll names asked).Nodup := by
  induction asked generalizing names with
  | nil => exact h
  | cons x asked ih => exact ih (nodup_register h x)

lemma mem_registerAll {names asked : List Text} {x : Text} :
    x ∈ registerAll names asked ↔ x ∈ names ∨ x ∈ asked := by
  induction asked generalizing names with
  | nil => simp [registerAll]
  | cons y asked ih =>
    show x ∈ registerAll (register names y) asked ↔ _
    rw [ih, mem_register, mem_cons, or_assoc]

lemma registerAll_append (a b : List Text) :
    registerAll names (a ++ b) = registerAll (registerAll names a) b := foldl_append

end

namespace FieldDict

variable {d : FieldDict} {name : Text}

/-- **One number.** Asking for a name's number registers the name; the number is the name's
index in the new list. -/
theorem WF.getOrCreateId (h : d.WF) (hfits : (register d.idToName name).length ≤ 2 ^ 16) :
    (d.getOrCreateId name).2.WF ∧ (d.getOrCreateId name).2.idToName = register d.idToName name ∧
        (register d.idToName name)[(d.getOrCreateId name).1.toNat]? = some name := by
  rw [FieldDict.getOrCreateId]
  cases hid : d.nameToId[name]? with
  | some id =>
    have hreg : register d.idToName name = d.idToName := if_pos (h.mem_iff.mpr ⟨id, hid⟩)
    rw [hreg]
    exact ⟨h, rfl, (h.agree name id).mp hid⟩
  | none =>
    have hnotin : name ∉ d.idToName := by
      intro hmem
      obtain ⟨id, hid'⟩ := h.mem_iff.mp hmem
      rw [hid] at hid'
      cases hid'
    have hreg : register d.idToName name = d.idToName ++ [name] := if_neg hnotin
    rw [hreg] at hfits ⊢
    have hlast : (d.idToName ++ [name])[d.idToName.length]? = some name := by simp
    refine ⟨⟨hreg ▸ nodup_register h.nodup name, hfits, fun x id => ?_⟩, rfl,
      getElem?_ofNat hfits hlast⟩
    rw [OrdMap.getElem?_insert]
    split
    · next heq =>
      cases heq
      rw [Option.some.injEq]
      constructor
      · rintro rfl
        exact getElem?_ofNat hfits hlast
      · intro hget
        -- the name stands nowhere but at the end
        obtain ⟨hlt, hget'⟩ := List.getElem?_eq_some_iff.mp hget
        have hle : d.idToName.length ≤ id.toNat := by
          by_contra hlt'
          rw [List.getElem?_append_left (not_le.mp hlt')] at hget
          exact hnotin (List.mem_of_getElem? hget)
        have hid : id.toNat = d.idToName.length := by
          rw [List.length_append, List.length_singleton] at hlt
          omega
        rw [← hid]
        simp
    · next hne =>
      rw [h.agree]
      constructor
      · intro hget
        exact getElem?_mono (List.prefix_append _ _) hget
      · intro hget
        by_cases hlt : id.toNat < d.idToName.length
        · rwa [List.getElem?_append_left hlt] at hget
        · rw [List.getElem?_append_right (not_lt.mp hlt)] at hget
          have hx := List.mem_singleton.mp (List.mem_of_getElem? hget)
          exact absurd hx.symm hne

end FieldDict

/-- The numbers `ids` stand for the fields `l`, in the same order. -/
def Numbered (names : List Text) (l : List (Text × Value)) (ids : List (UInt16 × Value)) : Prop :=
  List.Forall₂ (fun p q => names[p.1.toNat]? = some q.1 ∧ p.2 = q.2) ids l

lemma Numbered.mono {names : List Text} (h : Numbered names l ids) (hle : names <+: names') :
    Numbered names' l ids :=
  h.imp fun _ _ hpq => ⟨getElem?_mono hle hpq.1, hpq.2⟩

/-- **All numbers of a record.** -/
theorem FieldDict.WF.assignIds (h : d.WF)
    (hfits : (registerAll d.idToName (l.map Prod.fst)).length ≤ 2 ^ 16) :
    (assignIds l d).2.WF ∧ (assignIds l d).2.idToName = registerAll d.idToName (l.map Prod.fst) ∧
        Numbered (registerAll d.idToName (l.map Prod.fst)) l (assignIds l d).1 := by
  induction l generalizing d with
  | nil => exact ⟨h, rfl, .nil⟩
  | cons f l ih =>
    obtain ⟨name, v⟩ := f
    have hgrow : register d.idToName name <+:
        registerAll (register d.idToName name) (l.map Prod.fst) := prefix_registerAll _ _
    obtain ⟨hwf, hnames, hid⟩ := h.getOrCreateId (hgrow.length_le.trans hfits)
    rw [map_cons] at hfits ⊢
    change (registerAll (register d.idToName name) (l.map Prod.fst)).length ≤ 2 ^ 16 at hfits
    rw [← hnames] at hfits
    obtain ⟨hwf', hnames', hids⟩ := ih hwf hfits
    rw [hnames] at hnames' hids
    exact ⟨hwf', hnames', .cons ⟨getElem?_mono hgrow hid, rfl⟩ hids⟩

lemma exists_mem_of_forall₂ {R : α → β → Prop} (h : List.Forall₂ R as bs) :
    (∀ a ∈ as, ∃ b ∈ bs, R a b) ∧ ∀ b ∈ bs, ∃ a ∈ as, R a b := by
  induction h with
  | nil => simp
  | cons hab _ ih =>
    simp only [mem_cons, forall_eq_or_imp, exists_eq_or_imp]
    exact ⟨⟨.inl hab, fun a ha => .inr (ih.1 a ha)⟩, .inl hab, fun b hb => .inr (ih.2 b hb)⟩

lemma Numbered.pairwise {names : List Text} (h : Numbered names l ids)
    (hl : l.Pairwise fun p q => p.1 ≠ q.1) : ids.Pairwise fun p q => p.1 ≠ q.1 := by
  induction h with
  | nil => exact .nil
  | @cons p q ids l hpq htail ih =>
    obtain ⟨hq, hl⟩ := pairwise_cons.mp hl
    refine pairwise_cons.mpr ⟨fun p' hp' heq => ?_, ih hl⟩
    obtain ⟨q', hmem, hname, -⟩ := (exists_mem_of_forall₂ htail).1 p' hp'
    rw [← heq, hpq.1, Option.some.injEq] at hname
    exact hq _ hmem hname

/-- **Numbers back to names.** -/
theorem getElem?_namedFields (hnodup : d.idToName.Nodup) (h : Numbered d.idToName l ids)
    (hl : l.Pairwise fun p q => p.1 ≠ q.1) :
    (namedFields d (ExtTreeMap.ofList ids))[name]? = some v ↔ (name, v) ∈ l := by
  have hget : ∀ {id : UInt16} {v : Value}, (ExtTreeMap.ofList ids)[id]? = some v ↔ (id, v) ∈ ids :=
    OrdMap.getElem?_ofList_iff (h.pairwise hl)
  rw [namedFields, OrdMap.getElem?_ofList_filterMap]
  · constructor
    · rintro ⟨id, w, hid, hf⟩
      obtain ⟨n, hn, hnw⟩ := Option.map_eq_some_iff.mp hf
      cases hnw
      obtain ⟨⟨name', _⟩, hmem, hname', rfl⟩ := (exists_mem_of_forall₂ h).1 _ (hget.mp hid)
      have : name = name' := Option.some.inj (hn.symm.trans hname')
      exact this ▸ hmem
    · intro hmem
      obtain ⟨⟨id, _⟩, hids, hid, rfl⟩ := (exists_mem_of_forall₂ h).2 _ hmem
      exact ⟨id, _, hget.mpr hids, Option.map_eq_some_iff.mpr ⟨name, hid, rfl⟩⟩
  · intro id v id' v' c w w' hid hid' hc hc'
    obtain ⟨n, hn, hnw⟩ := Option.map_eq_some_iff.mp hc
    obtain ⟨n', hn', hnw'⟩ := Option.map_eq_some_iff.mp hc'
    cases hnw
    cases hnw'
    -- no name stands twice, so the two numbers are one
    obtain ⟨hlt, hn⟩ := List.getElem?_eq_some_iff.mp hn
    obtain ⟨hlt', hn'⟩ := List.getElem?_eq_some_iff.mp hn'
    exact UInt16.toNat_inj.mp ((hnodup.getElem_inj_iff).mp (hn.trans hn'.symm))

@[simp] lemma decodeFloats_nil : decodeFloats [] = [] := rfl

lemma decodeFloats_toLE (x : UInt32) (rest : List UInt8) :
    decodeFloats (Codec.toLE 4 x.toNat ++ rest) = x :: decodeFloats rest := by
  have hx : Codec.ofLE (Codec.toLE 4 x.toNat) = x.toNat := Codec.ofLE_toLE x.toNat_lt
  show UInt32.ofNat (Codec.ofLE (Codec.toLE 4 x.toNat)) :: decodeFloats rest = _
  rw [hx, UInt32.ofNat_toNat]

lemma decodeFloats_flatMap (v : List UInt32) :
    decodeFloats (v.flatMap fun x => Codec.toLE 4 x.toNat) = v := by
  induction v with
  | nil => rfl
  | cons x v ih => rw [flatMap_cons, decodeFloats_toLE, ih]

lemma length_flatMap_toLE (v : List UInt32) :
    (v.flatMap fun x => Codec.toLE 4 x.toNat).length = v.length * 4 := by
  simp [length_flatMap]

lemma readLeb128_writeLeb128 {n : ℕ} (rest : List UInt8) (hn : n < 2 ^ 128) :
    readLeb128 (writeLeb128 n ++ rest) = some (n, rest) :=
  Leb128.read_write rest (by decide) hn

/-- **The column is read back**, whatever the norm. -/
theorem readVectorPrefix_vectorColumn (normSq : List UInt32 → UInt64) (lid : BitVec 128)
    (id : UInt16) {v : List UInt32} (hv : v.length * 4 < 2 ^ 64) :
    readVectorPrefix (vectorColumn normSq lid id v) =
      some (lid, id, v.flatMap fun x => Codec.toLE 4 x.toNat) := by
  have hid : id.toNat < 2 ^ 128 := lt_trans id.toNat_lt (by decide)
  have hlen : v.length < 2 ^ 128 := by omega
  have hmarker : ¬ (0x04 : UInt8) = 0x03 := by decide
  simp only [vectorColumn, xyzdbMagic, cons_append, nil_append, readVectorPrefix, if_true,
    Option.bind_eq_bind, Option.bind_some, readLeb128_writeLeb128 _ lid.isLt,
    readLeb128_writeLeb128 _ hid, readLeb128_writeLeb128 _ hlen, length_append, length_flatMap_toLE,
    Codec.length_toLE, id.toNat_lt, hv, Nat.le_refl, UInt16.ofNat_toNat, BitVec.ofNat_toNat]
  rw [← length_flatMap_toLE v, take_left]
  rfl

/-- The length of a packed vector. -/
def vectorLength : Value → ℕ
  | .vector v => v.length
  | _ => 0

/-- What the machine stores: values that were read from a literal or a decoded frame are nested
less deep than `maxDecodeDepth`, and a vector's bytes are counted by a `usize`. -/
abbrev Record.Storable (r : Record) : Prop :=
  ∀ f ∈ r.fields.toList, valueDepth f.2 ≤ maxDecodeDepth ∧ vectorLength f.2 * 4 < 2 ^ 64

/-- The blob and the column are the record, with the numbers of `names`. -/
inductive Encodes (normSq : List UInt32 → UInt64) (names : List Text) (r : Record) :
    Blob → Option (List UInt8) → Prop
  | v1 (column : Option (List UInt8)) : Encodes normSq names r (serializeRecord r) column
  | v2 {ids : List (UInt16 × Value)} (column : Option (List UInt8))
      (hids : Numbered names r.fields.toList ids) :
      Encodes normSq names r (.v2 ⟨r.lid, ExtTreeMap.ofList ids, r.createdAt, r.updatedAt⟩) column
  | v5 {ids : List (UInt16 × Value)} {name : Text} {id : UInt16} {v : List UInt32}
      (hvec : r.fields[name]? = some (.vector v)) (hid : names[id.toNat]? = some name)
      (hids : Numbered names (r.fields.toList.filter fun f => some f.1 != some name) ids) :
      Encodes normSq names r (.v5 ⟨r.lid, ExtTreeMap.ofList ids, r.createdAt, r.updatedAt⟩)
        (some (vectorColumn normSq r.lid id v))

/-- The names that a V2 record asks numbers for. -/
def Record.names (r : Record) : List Text := r.fields.toList.map Prod.fst

/-- The names that a V5 record asks numbers for: the vector's first. -/
def Record.namesV5 (r : Record) (search : Text) : List Text :=
  search :: (r.fields.toList.filter fun f => some f.1 != some search).map Prod.fst

section

variable {normSq : List UInt32 → UInt64} {names names' : List Text} {r : Record} {blob : Blob}
  {column : Option (List UInt8)}

lemma Encodes.mono (h : Encodes normSq names r blob column) (hle : names <+: names') :
    Encodes normSq names' r blob column := by
  cases h with
  | v1 => exact .v1 _
  | v2 _ hids => exact .v2 _ (hids.mono hle)
  | v5 hvec hid hids => exact .v5 hvec (getElem?_mono hle hid) (hids.mono hle)

lemma mem_fields : (name, v) ∈ r.fields.toList ↔ r.fields[name]? = some v :=
  ExtTreeMap.mem_toList_iff_getElem?_eq_some

lemma decodes_ofList (hstore : r.Storable) (hsub : ∀ f ∈ l, f ∈ r.fields.toList)
    (hl : l.Pairwise fun p q => p.1 ≠ q.1) (h : Numbered names l ids) :
    (⟨r.lid, ExtTreeMap.ofList ids, r.createdAt, r.updatedAt⟩ : Payload UInt16).decodes := by
  refine all_eq_true.mpr fun f hf => ?_
  obtain ⟨id, v⟩ := f
  rw [OrdMap.mem_toList_ofList (h.pairwise hl)] at hf
  obtain ⟨q, hmem, -, rfl⟩ := (exists_mem_of_forall₂ h).1 _ hf
  exact decide_eq_true (hstore _ (hsub _ hmem)).1

lemma mem_names : name ∈ r.names ↔ ∃ v, r.fields[name]? = some v := by
  simp only [Record.names, mem_map, Prod.exists, exists_and_right, exists_eq_right, mem_fields]

lemma FieldDict.WF.serializeRecordV2 (h : d.WF)
    (hfits : (registerAll d.idToName r.names).length ≤ 2 ^ 16) : (serializeRecordV2 r d).2.WF ∧
      (serializeRecordV2 r d).2.idToName = registerAll d.idToName r.names := by
  obtain ⟨hwf, hnames, -⟩ := h.assignIds hfits
  exact ⟨hwf, hnames⟩

lemma encodes_serializeRecordV2 (h : d.WF)
    (hfits : (registerAll d.idToName r.names).length ≤ 2 ^ 16) :
    Encodes normSq (registerAll d.idToName r.names) r (serializeRecordV2 r d).1 column :=
  .v2 column (h.assignIds hfits).2.2

lemma column_serializeRecordV5 {search : Text} {v : List UInt32}
    (hvec : r.fields[search]? = some (.vector v)) :
    (serializeRecordV5 normSq r d (some search)).2.1 =
      some (vectorColumn normSq r.lid (d.getOrCreateId search).1 v) := by
  simp only [serializeRecordV5, searchVector, hvec, Option.map_some]

lemma FieldDict.WF.serializeRecordV5 (h : d.WF) {search : Text} {v : List UInt32}
    (hvec : r.fields[search]? = some (.vector v))
    (hfits : (registerAll d.idToName (r.namesV5 search)).length ≤ 2 ^ 16) :
    (serializeRecordV5 normSq r d (some search)).2.2.WF ∧
      (serializeRecordV5 normSq r d (some search)).2.2.idToName =
        registerAll d.idToName (r.namesV5 search) ∧
      Encodes normSq (registerAll d.idToName (r.namesV5 search)) r
        (serializeRecordV5 normSq r d (some search)).1
        (serializeRecordV5 normSq r d (some search)).2.1 := by
  have hgrow : register d.idToName search <+: registerAll d.idToName (r.namesV5 search) :=
    prefix_registerAll _ _
  obtain ⟨hwf, hnames, hid⟩ := h.getOrCreateId (hgrow.length_le.trans hfits)
  have hsearch : searchVector r (some search) d =
      (some (search, (d.getOrCreateId search).1, v), (d.getOrCreateId search).2) := by
    simp only [searchVector, hvec]
  have hfits' : (registerAll (d.getOrCreateId search).2.idToName
      ((r.fields.toList.filter fun f => some f.1 != some search).map
        Prod.fst)).length ≤ 2 ^ 16 := by
    rw [hnames]
    exact hfits
  obtain ⟨hwf', hnames', hids⟩ := hwf.assignIds hfits'
  rw [hnames] at hnames' hids
  simp only [XyzDB.Engine.serializeRecordV5, hsearch]
  exact ⟨hwf', hnames', .v5 hvec (getElem?_mono hgrow hid) hids⟩

/-- A record written with its names is read back by any dictionary, and by none. -/
lemma deserializeHydrated_of_v1 {d : Option FieldDict}
    (h : Encodes normSq names r blob column) (hv1 : blob.formatVersion = 1)
    (hstore : r.Storable) : deserializeHydrated column blob r.lobeName d = some r := by
  cases h with
  | v1 =>
    have hdec : (⟨r.lid, r.fields, r.createdAt, r.updatedAt⟩ : Payload Text).decodes :=
      all_eq_true.mpr fun f hf => decide_eq_true (hstore f hf).1
    simp [deserializeHydrated, serializeRecord, deserializeRecord, hdec, Blob.formatVersion]
  | v2 => cases hv1
  | v5 => cases hv1

/-- **A record is read back** by a dictionary whose list gives the numbers it was written
with. -/
theorem deserializeHydrated_of_encodes (h : Encodes normSq d.idToName r blob column)
    (hnodup : d.idToName.Nodup) (hstore : r.Storable) :
    deserializeHydrated column blob r.lobeName (some d) = some r := by
  have hpair := OrdMap.pairwise_toList r.fields
  cases h with
  | v1 =>
    have h : Encodes normSq [] r (serializeRecord r) column := .v1 column
    exact deserializeHydrated_of_v1 h rfl hstore
  | @v2 ids _ hids =>
    have hdec := decodes_ofList hstore (fun _ => id) hpair hids
    have hfields : namedFields d (ExtTreeMap.ofList ids) = r.fields :=
      OrdMap.ext_iff_some fun name v => by rw [getElem?_namedFields hnodup hids hpair, mem_fields]
    simp [deserializeHydrated, deserializeRecord, deserializeIds, hdec, hfields, Blob.formatVersion]
  | @v5 ids name id v hvec hid hids =>
    have hfilter : (r.fields.toList.filter fun f => some f.1 != some name).Pairwise
        fun p q => p.1 ≠ q.1 := hpair.filter _
    have hdec := decodes_ofList hstore (fun f hf => (mem_filter.mp hf).1) hfilter hids
    have hlen : v.length * 4 < 2 ^ 64 := (hstore _ (mem_fields.mpr hvec)).2
    -- the blob has every field but the vector, which the column puts back
    have hfields : (namedFields d (ExtTreeMap.ofList ids)).insert name (.vector v) = r.fields := by
      refine ExtTreeMap.ext_getElem? fun x => ?_
      rw [OrdMap.getElem?_insert]
      split
      · next heq => exact heq ▸ hvec.symm
      · next hne =>
        have hx : x ≠ name := Ne.symm hne
        refine Option.ext fun w => ?_
        rw [getElem?_namedFields hnodup hids hfilter]
        simp [hx]
    simp [deserializeHydrated, deserializeRecord, deserializeIds, hdec, Blob.formatVersion,
      hydrateVector, readVectorPrefix_vectorColumn normSq r.lid id hlen, FieldDict.getName, hid,
      decodeFloats_flatMap, hfields]

end

/-- A dictionary after names were registered. -/
def FieldDict.registered (asked : List Text) : FieldDict :=
  asked.foldl (fun d name => (d.getOrCreateId name).2) .new

/-- The dictionary lists the names, however many, and knows each by its index cut to 16 bits. -/
structure FieldDict.Tracks (d : FieldDict) (names : List Text) : Prop where
  list : d.idToName = names
  nodup : names.Nodup
  number : ∀ name, d.nameToId[name]? =
    if name ∈ names then some (UInt16.ofNat (names.idxOf name)) else none

lemma idxOf_mono {names names' : List Text} (hle : names <+: names') (hmem : name ∈ names) :
    names'.idxOf name = names.idxOf name := by
  obtain ⟨more, rfl⟩ := hle
  exact idxOf_append_of_mem hmem

namespace FieldDict.Tracks

variable {d : FieldDict} {names : List Text} (h : d.Tracks names)

include h

lemma getOrCreateId (name : Text) : (d.getOrCreateId name).2.Tracks (register names name) ∧
    (d.getOrCreateId name).1 = UInt16.ofNat ((register names name).idxOf name) := by
  rw [FieldDict.getOrCreateId, h.number]
  by_cases hmem : name ∈ names
  · rw [if_pos hmem, register, if_pos hmem]
    exact ⟨h, rfl⟩
  · have hlast : (names ++ [name]).idxOf name = names.length := by
      rw [idxOf_append_of_notMem hmem, idxOf_cons_self, Nat.add_zero]
    rw [if_neg hmem, register, if_neg hmem, hlast, h.list]
    refine ⟨⟨rfl, ?_, fun x => ?_⟩, rfl⟩
    · have := nodup_register h.nodup name
      rwa [register, if_neg hmem] at this
    · rw [OrdMap.getElem?_insert]
      split
      · next heq => rw [← heq, hlast, if_pos (by simp)]
      · next hne =>
        rw [h.number]
        by_cases hx : x ∈ names
        · rw [if_pos hx, if_pos (mem_append_left _ hx), idxOf_append_of_mem hx]
        · rw [if_neg hx, if_neg (by simp [hx, Ne.symm hne])]

lemma assignIds (l : List (Text × Value)) :
    (assignIds l d).2.Tracks (registerAll names (l.map Prod.fst)) ∧
      (XyzDB.Engine.assignIds l d).1 = l.map fun f =>
        (UInt16.ofNat ((registerAll names (l.map Prod.fst)).idxOf f.1), f.2) := by
  induction l generalizing d names with
  | nil => exact ⟨h, rfl⟩
  | cons f l ih =>
    obtain ⟨name, v⟩ := f
    obtain ⟨hone, hid⟩ := h.getOrCreateId name
    obtain ⟨hall, hids⟩ := ih hone
    refine ⟨hall, ?_⟩
    rw [XyzDB.Engine.assignIds]
    change (_, v) :: (XyzDB.Engine.assignIds l (d.getOrCreateId name).2).1 = _
    -- the index of the name does not change when more names are registered
    rw [hids, hid, ← idxOf_mono (prefix_registerAll _ (l.map Prod.fst))
      (mem_register.mpr (.inr rfl))]
    rfl

end FieldDict.Tracks

lemma FieldDict.tracks_registered (asked : List Text) :
    (registered asked).Tracks (registerAll [] asked) := by
  induction asked using List.reverseRecOn with
  | nil => exact ⟨rfl, nodup_nil, fun name => by simp [registered, new, registerAll]⟩
  | append_singleton asked name ih =>
    rw [registerAll_append, registered, foldl_append]
    exact (ih.getOrCreateId name).1

section

variable {normSq : List UInt32 → UInt64} {names : List Text} {r : Record} {search : Text}
  {v : List UInt32}

/-- The fields that stay in the blob, under their numbers in a list of names. -/
def Record.keptIds (r : Record) (search : Text) (names : List Text) : List (UInt16 × Value) :=
  (r.fields.toList.filter fun f => some f.1 != some search).map fun f =>
    (UInt16.ofNat (names.idxOf f.1), f.2)

/-- What a V5 record is written as: every number is an index in the list of all names. -/
lemma FieldDict.Tracks.serializeRecordV5 (h : d.Tracks names)
    (hvec : r.fields[search]? = some (.vector v)) :
    let x := serializeRecordV5 normSq r d (some search)
    let names := registerAll names (r.namesV5 search)
    x.2.2.Tracks names ∧
      x.1 = .v5 ⟨r.lid, ExtTreeMap.ofList (r.keptIds search names), r.createdAt, r.updatedAt⟩ ∧
      x.2.1 = some (vectorColumn normSq r.lid (UInt16.ofNat (names.idxOf search)) v) := by
  obtain ⟨hone, hid⟩ := h.getOrCreateId search
  obtain ⟨hall, hids⟩ := hone.assignIds
    (r.fields.toList.filter fun f => some f.1 != some search)
  have hsearch : searchVector r (some search) d =
      (some (search, (d.getOrCreateId search).1, v), (d.getOrCreateId search).2) := by
    simp only [searchVector, hvec]
  rw [← idxOf_mono (prefix_registerAll _ _) (mem_register.mpr (.inr rfl))] at hid
  simp only [XyzDB.Engine.serializeRecordV5, hsearch]
  refine ⟨hall, ?_, ?_⟩
  · exact congrArg (fun ids =>
      Blob.v5 ⟨r.lid, ExtTreeMap.ofList ids, r.createdAt, r.updatedAt⟩) hids
  · exact congrArg (fun id => some (vectorColumn normSq r.lid id v)) hid

/-- A name among the first `2 ^ 16` is found under its number. -/
lemma getElem?_idxOf_ofNat (h : name ∈ names.take (2 ^ 16)) :
    names[(UInt16.ofNat (names.idxOf name)).toNat]? = some name := by
  have hmem : name ∈ names := mem_of_mem_take h
  rw [UInt16.toNat_ofNat_of_lt' ((mem_take_iff_idxOf_lt hmem).mp h), getElem?_idxOf hmem]

lemma numbered_idxOf (h : ∀ f ∈ l, f.1 ∈ names.take (2 ^ 16)) :
    Numbered names l (l.map fun f => (UInt16.ofNat (names.idxOf f.1), f.2)) :=
  forall₂_map_left_iff.mpr (forall₂_same.mpr fun f hf => ⟨getElem?_idxOf_ofNat (h f hf), rfl⟩)

/-- Nothing is read under a name behind the first `2 ^ 16`. -/
lemma mem_take_of_getName (h : d.Tracks names) {id : UInt16} (hid : d.getName id = some name) :
    name ∈ names.take (2 ^ 16) := by
  rw [FieldDict.getName, h.list] at hid
  exact mem_of_getElem? (getElem?_take_of_lt id.toNat_lt ▸ hid)

lemma mem_take_of_namedFields (h : d.Tracks names) {ids : ExtTreeMap UInt16 Value} {w : Value}
    (hget : (namedFields d ids)[name]? = some w) : name ∈ names.take (2 ^ 16) := by
  have hmem : name ∈ namedFields d ids := ExtTreeMap.mem_iff_isSome_getElem?.mpr (by rw [hget]; rfl)
  rw [namedFields, ExtTreeMap.mem_ofList, contains_iff_mem, mem_map] at hmem
  obtain ⟨⟨_, _⟩, hf, rfl⟩ := hmem
  obtain ⟨f, -, hf⟩ := mem_filterMap.mp hf
  obtain ⟨n, hn, heq⟩ := Option.map_eq_some_iff.mp hf
  cases heq
  exact mem_take_of_getName h hn

/-- What is read of a V5 blob has names that are found under numbers. -/
lemma deserializeHydrated_v5 {p : Payload UInt16} {column bytes : List UInt8} {lid : BitVec 128}
    {id : UInt16} (hcolumn : readVectorPrefix column = some (lid, id, bytes))
    (hread : deserializeHydrated (some column) (.v5 p) r.lobeName (some d) = some r) :
    p.decodes = true ∧ (d.Tracks names → ∀ {name w}, r.fields[name]? = some w →
      name ∈ names.take (2 ^ 16)) := by
  cases hdecodes : p.decodes with
  | false => simp [deserializeHydrated, deserializeRecord, deserializeIds, hdecodes] at hread
  | true =>
    refine ⟨rfl, fun htracks {name w} hw => ?_⟩
    simp only [deserializeHydrated, deserializeRecord, deserializeIds, hdecodes, Blob.formatVersion,
      hydrateVector, hcolumn] at hread
    cases hname : d.getName id with
    | none =>
      rw [hname] at hread
      have hfields : namedFields d p.fields = r.fields := by
        simpa using congrArg (Option.map Record.fields) hread
      exact mem_take_of_namedFields htracks (hfields ▸ hw)
    | some n =>
      rw [hname] at hread
      have hfields : (namedFields d p.fields).insert n
        (.vector (decodeFloats bytes)) = r.fields := by
        simpa using congrArg (Option.map Record.fields) hread
      rw [← hfields, OrdMap.getElem?_insert] at hw
      split at hw
      · next heq => exact heq ▸ mem_take_of_getName htracks hname
      · exact mem_take_of_namedFields htracks hw

/-- **The split format is read back** exactly if the names of the record are among the first
`2 ^ 16` of the dictionary and no value is nested too deep: blob and column give the record, the
column its identifier, the number of the search field and the bytes of the vector. -/
theorem split_record_round_trip (normSq : List UInt32 → UInt64) (asked : List Text) (r : Record)
    {search : Text} {v : List UInt32} (hvec : r.fields[search]? = some (.vector v))
    (hlen : ∀ f ∈ r.fields.toList, vectorLength f.2 * 4 < 2 ^ 64) :
    let x := serializeRecordV5 normSq r (.registered asked) (some search)
    (∃ column id, x.2.1 = some column ∧
      deserializeHydrated (some column) x.1 r.lobeName (some x.2.2) = some r ∧
      x.2.2.getName id = some search ∧
      readVectorPrefix column = some (r.lid, id, v.flatMap fun y => Codec.toLE 4 y.toNat)) ↔
    (∀ name ∈ r.names, name ∈ (registerAll [] (asked ++ r.namesV5 search)).take (2 ^ 16)) ∧
      ∀ f ∈ r.fields.toList, valueDepth f.2 ≤ maxDecodeDepth := by
  intro x
  obtain ⟨htracks, hblob, hcolumn⟩ : x.2.2.Tracks _ ∧ x.1 = _ ∧ x.2.1 = _ :=
    (FieldDict.tracks_registered asked).serializeRecordV5 hvec
  rw [← registerAll_append] at htracks hblob hcolumn
  set names := registerAll [] (asked ++ r.namesV5 search)
  have hprefix := readVectorPrefix_vectorColumn normSq r.lid (UInt16.ofNat (names.idxOf search))
    (hlen _ (mem_fields.mpr hvec))
  rw [hcolumn, hblob]
  constructor
  -- read back: each field found its name again, so its number is below `2 ^ 16`
  · rintro ⟨column, id, hcol, hread, -, -⟩
    cases hcol
    obtain ⟨hdecodes, hfields⟩ := deserializeHydrated_v5 hprefix hread
    have hnames : ∀ name ∈ r.names, name ∈ names.take (2 ^ 16) := fun name hname => by
      obtain ⟨w, hw⟩ := mem_names.mp hname
      exact hfields htracks hw
    refine ⟨hnames, fun f hf => ?_⟩
    by_cases hf' : f.1 = search
    · -- the vector itself
      have hw : some f.2 = some (.vector v) :=
        (mem_fields.mp hf).symm.trans (hf' ▸ hvec)
      rw [Option.some_inj.mp hw]
      exact Nat.le_of_ble_eq_true rfl
    · -- no two of the names share a number, so the value is in the blob
      have hmem : f ∈ r.fields.toList.filter fun f => some f.1 != some search :=
        mem_filter.mpr ⟨hf, by simpa using hf'⟩
      have hnumbered : Numbered names _ (r.keptIds search names) := numbered_idxOf fun g hg =>
        hnames g.1 (mem_map_of_mem (mem_filter.mp hg).1)
      have hin := (OrdMap.mem_toList_ofList (hnumbered.pairwise
        ((OrdMap.pairwise_toList r.fields).filter _))).mpr
        (mem_map_of_mem (f := fun f => (UInt16.ofNat (names.idxOf f.1), f.2)) hmem)
      simpa using all_eq_true.mp hdecodes _ hin
  -- the names have different numbers, so the map of numbers holds every field
  · rintro ⟨hnames, hdepth⟩
    have hnumbers : ∀ f ∈ r.fields.toList, f.1 ∈ names.take (2 ^ 16) := fun f hf =>
      hnames f.1 (mem_map_of_mem hf)
    have hsearch : names[(UInt16.ofNat (names.idxOf search)).toNat]? = some search :=
      getElem?_idxOf_ofNat (hnumbers _ (mem_fields.mpr hvec))
    have hencodes : Encodes normSq x.2.2.idToName r
        (.v5 ⟨r.lid, ExtTreeMap.ofList (r.keptIds search names), r.createdAt, r.updatedAt⟩)
        (some (vectorColumn normSq r.lid (UInt16.ofNat (names.idxOf search)) v)) := by
      rw [htracks.list]
      exact .v5 hvec hsearch (numbered_idxOf fun f hf => hnumbers f (mem_filter.mp hf).1)
    refine ⟨_, _, rfl, deserializeHydrated_of_encodes hencodes (htracks.list ▸ htracks.nodup)
      fun f hf => ⟨hdepth f hf, hlen f hf⟩, ?_, hprefix⟩
    rw [FieldDict.getName, htracks.list, hsearch]

end

/-- A vector, and a list nested in lists. -/
def nestedRecord (n : ℕ) : Record :=
  ⟨7, [], .ofList [(['v'], .vector [1]), (['w'], (Talk.Value.list [·])^[n] .null)], 0, 0⟩

theorem split_record_round_trip_nested : ∃ column,
    let x := serializeRecordV5 (fun _ => 0) (nestedRecord 31) (.registered [['a']]) (some ['v'])
    deserializeHydrated (some column) x.1 [] (some x.2.2) = some (nestedRecord 31) :=
  have ⟨column, _, _, hread, _⟩ := (@split_record_round_trip (fun _ => 0) [['a']] (nestedRecord 31)
    ['v'] [1] rfl (by decide +kernel)).mpr ⟨by decide +kernel, by decide +kernel⟩
  ⟨column, hread⟩

/-- A value that is nested too deep is written and not read. -/
theorem deep_value_not_read :
    let x := serializeRecordV5 (fun _ => 0) (nestedRecord 32) .new (some ['v'])
    deserializeHydrated x.2.1 x.1 [] (some x.2.2) = none := by
  decide +kernel

end XyzDB.Engine
