import XyzDB.Lib.Codec
import XyzDB.Lib.TransSys
import XyzDB.Turba.Types

/-!
# The journal

The write-ahead log (`journal/`) is an active file `journal.wal` and archived segments
`journal.<max_seqno>.wal`. This module has its record format, the writer and the
recovery, byte for byte.

A batch is a start tag with the number of items and the sequence number, the items, and
an end tag with a checksum of all that comes before it. Lengths are written as `u32`
and cut off there. The checksum is a parameter: any function into 128 bits.

The writer appends encoded batches to the active file. A sync that finds the active file
large enough renames it to an archived segment, named by the highest sequence number
the writer has ever seen; a rename replaces a file that has the name already. A prune
removes archived segments by name. An append may fail, and then leaves a proper prefix
of its record in the file.
-/

namespace XyzDB

open Codec List Reader

/-- One item of a write batch, as the journal has it. -/
structure WalItem where
  keyspaceId : UInt8
  key : Key
  value : Value
  valueType : ValueType
  deriving DecidableEq

/-- A batch, as the journal has it. -/
structure WalBatch where
  seqno : ℕ
  items : List WalItem
  deriving DecidableEq

/-- `value_type as u8`. -/
def ValueType.toU8 : ValueType → UInt8
  | .value => 0
  | .tombstone => 1

def ValueType.fromU8 (b : UInt8) : Option ValueType :=
  if b = 0 then some .value else if b = 1 then some .tombstone else none

namespace WalItem

variable (item : WalItem)

/-- The bytes of an item. -/
def encode : List UInt8 :=
  [2, item.keyspaceId] ++ (toLE 4 item.key.length ++ (item.key ++
    (toLE 4 item.value.length ++ (item.value ++ [item.valueType.toU8]))))

/-- What fits the format: lengths below `2 ^ 32`. -/
def Fits : Prop := item.key.length < 2 ^ 32 ∧ item.value.length < 2 ^ 32

instance : Decidable item.Fits := inferInstanceAs (Decidable (_ ∧ _))

end WalItem

/-- Read a given tag. -/
def readTag (tag : UInt8) : Reader UInt8 Unit :=
  one.bind fun b => if b = tag then .pure () else fun _ => none

def readValueType : Reader UInt8 ValueType :=
  one.bind fun b =>
    match ValueType.fromU8 b with
    | some vt => .pure vt
    | none => fun _ => none

def readItem : Reader UInt8 WalItem :=
  (readTag 2).bind fun _ => one.bind fun keyspaceId =>
    (readLE 4).bind fun keyLen => (Reader.take keyLen).bind fun key =>
      (readLE 4).bind fun valueLen => (Reader.take valueLen).bind fun value =>
        readValueType.bind fun valueType => .pure ⟨keyspaceId, key, value, valueType⟩

/-- The start of a batch and its items: what the checksum covers. -/
def readPayload : Reader UInt8 WalBatch :=
  (readTag 1).bind fun _ => (readLE 4).bind fun itemCount => (readLE 8).bind fun seqno =>
    (readItem.count itemCount).bind fun items => .pure ⟨seqno, items⟩

/-- The end of a batch: its checksum. -/
def readEnd : Reader UInt8 ℕ := (readTag 3).bind fun _ => readLE 16

variable {b : WalBatch} {l rest : List UInt8}

section

variable (xxh : List UInt8 → BitVec 128)

namespace WalBatch

variable (b : WalBatch)

/-- What the checksum covers. -/
def payload : List UInt8 :=
  [1] ++ (toLE 4 b.items.length ++ (toLE 8 b.seqno ++ b.items.flatMap WalItem.encode))

/-- `encode_batch`. -/
def encode : List UInt8 := b.payload ++ ([3] ++ toLE 16 (xxh b.payload).toNat)

/-- What fits the format. -/
def Fits : Prop :=
  b.items.length < 2 ^ 32 ∧ b.seqno < 2 ^ 64 ∧ ∀ item ∈ b.items, item.Fits

instance : Decidable b.Fits := inferInstanceAs (Decidable (_ ∧ _ ∧ _))

end WalBatch

open WalBatch

def parseOneBatch : Reader UInt8 WalBatch := fun data =>
  match readPayload data with
  | none => none
  | some (batch, rest) =>
    match readEnd rest with
    | none => none
    | some (checksum, rest') =>
      if checksum = (xxh (data.take (data.length - rest.length))).toNat then some (batch, rest')
      else none

/-- `decode_batches`. Every batch has a byte, so the length is fuel enough. -/
def decodeBatches (data : List UInt8) : List WalBatch :=
  (parseOneBatch xxh).many (data.length + 1) data

lemma exact_readTag (tag : UInt8) : (readTag tag).Exact [tag] () := by
  refine (exact_one tag).bind (y := []) ?_
  rw [if_pos rfl]
  exact exact_pure ()

lemma exact_readValueType (vt : ValueType) : readValueType.Exact [vt.toU8] vt := by
  refine (exact_one vt.toU8).bind (y := []) ?_
  cases vt <;> exact exact_pure _

lemma exact_readItem {item : WalItem} (h : item.Fits) : readItem.Exact item.encode item := by
  refine (exact_readTag 2).bind ((exact_one item.keyspaceId).bind ?_)
  refine (exact_readLE h.1).bind ((exact_take item.key).bind ?_)
  refine (exact_readLE h.2).bind ((Reader.exact_take item.value).bind ?_)
  exact (exact_readValueType item.valueType).map _

lemma exact_readPayload (h : b.Fits) : readPayload.Exact b.payload b := by
  refine (exact_readTag 1).bind ((exact_readLE h.1).bind ((exact_readLE h.2.1).bind ?_))
  exact (Exact.count fun item hitem => exact_readItem (h.2.2 item hitem)).map _

lemma exact_readEnd (checksum : BitVec 128) :
    readEnd.Exact ([3] ++ toLE 16 checksum.toNat) checksum.toNat :=
  (exact_readTag 3).bind (exact_readLE checksum.isLt)

/-- **Batches are read back.** The parser reads the encoding of a batch that fits the
format, and nothing from less. -/
theorem exact_parseOneBatch (h : b.Fits) : (parseOneBatch xxh).Exact (b.encode xxh) b := by
  have hpay := exact_readPayload h
  have hend := exact_readEnd (xxh b.payload)
  refine ⟨fun rest => ?_, fun z hz hne => ?_⟩
  · have htake : (b.payload ++ (([3] ++ toLE 16 (xxh b.payload).toNat) ++ rest)).take
        ((b.payload ++ (([3] ++ toLE 16 (xxh b.payload).toNat) ++ rest)).length -
          (([3] ++ toLE 16 (xxh b.payload).toNat) ++ rest).length) = b.payload := by
      rw [length_append, Nat.add_sub_cancel, take_left]
    unfold parseOneBatch encode
    rw [append_assoc, hpay.reads]
    dsimp only
    rw [hend.reads, htake]
    exact if_pos rfl
  · -- the payload is cut, or it is whole and the end is cut
    unfold parseOneBatch
    rcases prefix_append_cases hz hne with ⟨hz, hne⟩ | ⟨w, rfl, hw, hne⟩
    · rw [hpay.short z hz hne]
    · rw [hpay.reads]
      dsimp only
      rw [hend.short w hw hne]

lemma encode_ne_nil (b : WalBatch) : b.encode xxh ≠ [] := by
  simp [encode]

/-- Decoding returns the batches in front of the first place where none can be read. -/
lemma decodeBatches_of_none {bs : List WalBatch} (hbs : ∀ b ∈ bs, b.Fits) {z : List UInt8}
    (hz : parseOneBatch xxh z = none) : decodeBatches xxh (bs.flatMap (encode xxh) ++ z) = bs := by
  have hlen : bs.length ≤ (bs.flatMap (encode xxh)).length :=
    length_le_of_ne_nil fun b _ => encode_ne_nil xxh b
  obtain ⟨fuel, hfuel⟩ : ∃ fuel, (bs.flatMap (encode xxh) ++ z).length + 1 = bs.length + fuel :=
    Nat.exists_eq_add_of_le (by rw [length_append]; omega)
  rw [decodeBatches, hfuel, many_append (fun b hb => exact_parseOneBatch xxh (hbs b hb))
    (fun b _ => encode_ne_nil xxh b), many_eq_nil hz, append_nil]

lemma decodeBatches_eq {bs : List WalBatch} (hbs : ∀ b ∈ bs, b.Fits) {z : List UInt8}
    (hz : Torn (encode xxh) Fits z) : decodeBatches xxh (bs.flatMap (encode xxh) ++ z) = bs := by
  refine decodeBatches_of_none xxh hbs ?_
  rcases hz with rfl | ⟨b, hb, hpre, hne⟩
  · rfl
  · exact (exact_parseOneBatch xxh hb).short z hpre hne

/-- A batch of `2 ^ 32` items or more has an item where its count says that it ends. -/
lemma exists_payload_of_oversized (hlong : 2 ^ 32 ≤ b.items.length) : ∃ pre more,
    b.encode xxh = WalBatch.payload ⟨b.seqno, pre⟩ ++ 2 :: more ∧ pre.length < 2 ^ 32 ∧
      pre ⊆ b.items := by
  have hlt : b.items.length % 2 ^ 32 < b.items.length :=
    (Nat.mod_lt _ (by norm_num)).trans_le hlong
  obtain ⟨pre, item, post, hitems, hpre⟩ : ∃ pre item post, b.items = pre ++ item :: post ∧
      pre.length = b.items.length % 2 ^ 32 :=
    ⟨b.items.take (b.items.length % 2 ^ 32), b.items[b.items.length % 2 ^ 32],
      b.items.drop (b.items.length % 2 ^ 32 + 1), by simp, by
        rw [length_take, min_eq_left hlt.le]⟩
  have hcount : toLE 4 b.items.length = toLE 4 pre.length := by
    rw [hpre]
    exact (toLE_mod 4 b.items.length).symm
  have hpayload : b.payload = WalBatch.payload ⟨b.seqno, pre⟩ ++
      2 :: (item.encode.tail ++ post.flatMap WalItem.encode) := by
    rw [payload, hcount, hitems, flatMap_append, flatMap_cons]
    simp [payload, WalItem.encode]
  refine ⟨pre, item.encode.tail ++ post.flatMap WalItem.encode ++
    ([3] ++ toLE 16 (xxh b.payload).toNat), ?_, hpre ▸ Nat.mod_lt _ (by norm_num), by simp [hitems]⟩
  rw [encode, ← cons_append, ← append_assoc _ _ ([3] ++ _), ← hpayload]

/-- **The cast.** Nothing is read from a batch of `2 ^ 32` items or more, nor from part of it. -/
lemma parseOneBatch_oversized (hlong : 2 ^ 32 ≤ b.items.length) (hseqno : b.seqno < 2 ^ 64)
    (hitems : ∀ item ∈ b.items, item.Fits) {z : List UInt8} (hz : z <+: b.encode xxh ++ l) :
    parseOneBatch xxh z = none := by
  obtain ⟨pre, more, hencode, hlen, hsub⟩ := exists_payload_of_oversized xxh hlong
  have hpay := exact_readPayload (b := ⟨b.seqno, pre⟩)
    ⟨hlen, hseqno, fun item hitem => hitems item (hsub hitem)⟩
  rw [hencode, append_assoc] at hz
  unfold parseOneBatch
  rcases prefix_or_prefix_of_prefix hz ( prefix_append _ _) with hshort | ⟨w, rfl⟩
  · by_cases heq : z = WalBatch.payload ⟨b.seqno, pre⟩
    · -- the items that are counted, and then nothing
      have hread := hpay.reads []
      rw [append_nil] at hread
      rw [heq, hread]
      rfl
    · rw [hpay.short z hshort heq]
  · have hw := ( prefix_append_right_inj _).mp hz
    rw [hpay.reads]
    cases w with
    | nil => rfl
    | cons c w =>
      -- the tag of an item, where the tag of the end is expected
      obtain ⟨rfl, -⟩ := cons_prefix_cons.mp hw
      rfl

lemma readTag_eq_some {tag : UInt8} {u : Unit} (h : readTag tag l = some (u, rest)) :
    l = [tag] ++ rest := by
  obtain ⟨b, l', hone, h⟩ := bind_eq_some.mp h
  rw [one_eq_some.mp hone]
  split at h <;> cases h
  next hb =>
  rw [hb]
  rfl

lemma readValueType_eq_some {vt : ValueType} (h : readValueType l = some (vt, rest)) :
    l = [vt.toU8] ++ rest := by
  obtain ⟨b, l', hone, h⟩ := bind_eq_some.mp h
  rw [one_eq_some.mp hone]
  unfold ValueType.fromU8 at h
  by_cases h0 : b = 0
  · subst h0
    cases h
    rfl
  · by_cases h1 : b = 1
    · subst h1
      cases h
      rfl
    · simp [h0, h1] at h

lemma readItem_eq_some {item : WalItem} (h : readItem l = some (item, rest)) :
    l = item.encode ++ rest := by
  obtain ⟨_, l1, htag, h⟩ := bind_eq_some.mp h
  obtain ⟨keyspaceId, l2, hks, h⟩ := bind_eq_some.mp h
  obtain ⟨keyLen, l3, hkeyLen, h⟩ := bind_eq_some.mp h
  obtain ⟨key, l4, hkey, h⟩ := bind_eq_some.mp h
  obtain ⟨valueLen, l5, hvalueLen, h⟩ := bind_eq_some.mp h
  obtain ⟨value, l6, hvalue, h⟩ := bind_eq_some.mp h
  obtain ⟨valueType, l7, hvt, h⟩ := bind_eq_some.mp h
  cases h
  obtain ⟨rfl, rfl⟩ := Reader.take_eq_some hkey
  obtain ⟨rfl, rfl⟩ := Reader.take_eq_some hvalue
  rw [readTag_eq_some htag, one_eq_some.mp hks, readLE_eq_some hkeyLen,
    readLE_eq_some hvalueLen, readValueType_eq_some hvt]
  simp [WalItem.encode]

lemma readPayload_eq_some (h : readPayload l = some (b, rest)) : l = b.payload ++ rest := by
  obtain ⟨_, l1, htag, h⟩ := bind_eq_some.mp h
  obtain ⟨itemCount, l2, hcount, h⟩ := bind_eq_some.mp h
  obtain ⟨seqno, l3, hseqno, h⟩ := bind_eq_some.mp h
  obtain ⟨items, l4, hitems, h⟩ := bind_eq_some.mp h
  cases h
  obtain ⟨rfl, rfl⟩ := count_eq_some (fun _ _ _ => readItem_eq_some) hitems
  rw [readTag_eq_some htag, readLE_eq_some hcount, readLE_eq_some hseqno]
  simp [payload]

lemma parseOneBatch_eq_some {data : List UInt8} (h : parseOneBatch xxh data = some (b, rest)) :
    data = b.encode xxh ++ rest := by
  unfold parseOneBatch at h
  split at h
  · cases h
  · next batch rest₁ hpay =>
    split at h
    · cases h
    · next checksum rest₂ hend =>
      split at h <;> cases h
      next hsum =>
      obtain ⟨_, rest₃, htag, hle⟩ := bind_eq_some.mp hend
      -- what the checksum covers is the payload
      rw [readPayload_eq_some hpay] at hsum
      rw [readPayload_eq_some hpay, readTag_eq_some htag, readLE_eq_some hle, hsum]
      simp [encode]

/-- **The record format.** A file of batches and any part of a further one is read back exactly if
each of the batches has fewer than `2 ^ 32` items; and whatever is read, of any bytes, is at the
front of them as it would be written. -/
theorem decode_batches_exact (bs : List WalBatch) (further : WalBatch) (t : List UInt8)
    (hbounds : ∀ b ∈ further :: bs, b.seqno < 2 ^ 64 ∧ ∀ item ∈ b.items, item.Fits)
    (ht : t <+: further.encode xxh) (hne : t ≠ further.encode xxh) (data : List UInt8) :
    (decodeBatches xxh (bs.flatMap (encode xxh) ++ t) = bs ↔
        ∀ b ∈ bs, b.items.length < 2 ^ 32) ∧
      ∃ rest, data = (decodeBatches xxh data).flatMap (encode xxh) ++ rest := by
  obtain ⟨hfurther, hbs⟩ := forall_mem_cons.mp hbounds
  refine ⟨⟨fun h => ?_, fun hfew => ?_⟩,
    exists_of_many (fun _ _ _ => parseOneBatch_eq_some xxh) _ _⟩
  · by_contra hmany
    push Not at hmany
    obtain ⟨b, hfind⟩ : ∃ b, bs.find? (fun b => decide (2 ^ 32 ≤ b.items.length)) = some b :=
      Option.isSome_iff_exists.mp (find?_isSome.mpr (by simpa using hmany))
    -- the batches in front of the first that is too long are all that is read
    obtain ⟨hlong, pre, post, rfl, hpre⟩ := find?_eq_some_iff_append.mp hfind
    have hb := hbs b (by simp)
    rw [flatMap_append, flatMap_cons, append_assoc, append_assoc, decodeBatches_of_none xxh
      (fun a ha => ⟨by simpa using hpre a ha, hbs a (by simp [ha])⟩)
      (parseOneBatch_oversized xxh (by simpa using hlong) hb.1 hb.2 (List.prefix_refl _))] at h
    simpa using congrArg List.length h
  · refine decodeBatches_of_none xxh (fun b hb => ⟨hfew b hb, hbs b hb⟩) ?_
    by_cases hlong : 2 ^ 32 ≤ further.items.length
    · refine parseOneBatch_oversized xxh (l := []) hlong hfurther.1 hfurther.2 ?_
      rwa [append_nil]
    · exact (exact_parseOneBatch xxh ⟨by omega, hfurther⟩).short t ht hne

/-- An item without key and value. -/
def emptyItem : WalItem := ⟨0, [], [], .value⟩

theorem decode_batches_exact_one :
    (decodeBatches (fun _ => 0) ([⟨5, [emptyItem]⟩].flatMap (encode fun _ => 0) ++ [1]) =
        [⟨5, [emptyItem]⟩] ↔ ∀ b ∈ [(⟨5, [emptyItem]⟩ : WalBatch)], b.items.length < 2 ^ 32) ∧
      ∃ rest, [1] = (decodeBatches (fun _ => 0) [1]).flatMap (encode fun _ => 0) ++ rest :=
  decode_batches_exact (fun _ => 0) [⟨5, [emptyItem]⟩] ⟨6, []⟩ [1] (by decide) (by decide)
    (by decide) [1]

/-- Of a batch of `2 ^ 32` items, whatever the checksum, nothing is read back. -/
theorem oversized_batch_unread : (fun xxh => decodeBatches xxh
    (encode xxh ⟨5, replicate (2 ^ 32) emptyItem⟩)) = fun _ => [] := by
  funext xxh
  obtain ⟨more, hitems⟩ : ∃ more, replicate (2 ^ 32) emptyItem = emptyItem :: more :=
    ⟨replicate (2 ^ 32 - 1) emptyItem, replicate_succ⟩
  have hlen : (emptyItem :: more).length = 2 ^ 32 := hitems ▸ length_replicate
  -- the count is written as zero, and an item stands where the end is expected
  have hcount : toLE 4 (2 ^ 32) = [0, 0, 0, 0] := rfl
  rw [hitems, decodeBatches, encode, payload, hlen, hcount]
  rfl

/-- The batch of the roundtrip test. -/
example : decodeBatches (fun _ => 7) (encode (fun _ => 7)
    ⟨42, [⟨0, [107], [118], .value⟩, ⟨2, [107], [], .tombstone⟩]⟩) =
      [⟨42, [⟨0, [107], [118], .value⟩, ⟨2, [107], [], .tombstone⟩]⟩] := by decide +kernel

end

section

variable {β : Type}

/-- Put a file into a directory listing that is sorted by name; a file of that name is
replaced, as `rename` does. -/
def putFile (name : ℕ) (data : β) : List (ℕ × β) → List (ℕ × β)
  | [] => [(name, data)]
  | (n, d) :: files =>
    if name < n then (name, data) :: (n, d) :: files
    else if name = n then (name, data) :: files
    else (n, d) :: putFile name data files

/-- Remove a file; `none` when there is none of that name. -/
def removeFile (name : ℕ) (files : List (ℕ × β)) : Option (List (ℕ × β)) :=
  if files.any fun f => f.1 = name then some (files.filter fun f => f.1 ≠ name) else none

/-- The loop of `prune`. Returns the files and the segments the writer goes on with. The
writer's list is taken before the loop, so when a file is missing the error leaves it
empty. -/
def pruneSegments (watermark : ℕ) : List ℕ → List (ℕ × β) → List ℕ → List (ℕ × β) × List ℕ
  | [], files, kept => (files, kept)
  | name :: segments, files, kept =>
    if name ≤ watermark then
      match removeFile name files with
      | some files' => pruneSegments watermark segments files' kept
      | none => (files, [])
    else pruneSegments watermark segments files (kept ++ [name])

/-- The loop of `prune` when the file system may refuse to remove a file: `refused i` is about the
`i`-th segment of the list. -/
def pruneRefused (watermark : ℕ) :
    (ℕ → Bool) → List ℕ → List (ℕ × β) → List ℕ → List (ℕ × β) × List ℕ
  | _, [], files, kept => (files, kept)
  | refused, name :: segments, files, kept =>
    if name ≤ watermark then
      match if refused 0 then none else removeFile name files with
      | some files' => pruneRefused watermark (fun i => refused (i + 1)) segments files' kept
      | none => (files, [])
    else pruneRefused watermark (fun i => refused (i + 1)) segments files (kept ++ [name])

/-- A removal that `prune` would try for the `i`-th segment of its list fails: the file system
refuses it, there is no such file, or the file is gone with an earlier entry of the same name. -/
def RemovalFails (watermark : ℕ) (refused : ℕ → Bool) (segments : List ℕ) (files : List (ℕ × β))
    (i : ℕ) : Prop :=
  ∃ name, segments[i]? = some name ∧ name ≤ watermark ∧
    (refused i = true ∨ (∀ f ∈ files, f.1 ≠ name) ∨ name ∈ segments.take i)

section

variable {watermark name : ℕ} {refused : ℕ → Bool} {segments : List ℕ} {files : List (ℕ × β)}

lemma removalFails_zero : RemovalFails watermark refused (name :: segments) files 0 ↔
    name ≤ watermark ∧ (refused 0 = true ∨ ∀ f ∈ files, f.1 ≠ name) := by
  simp [RemovalFails]

/-- After a removal, the later ones fail as they would have before it. -/
lemma removalFails_succ_of_le : RemovalFails watermark refused (name :: segments) files (i + 1) ↔
    RemovalFails watermark (fun i => refused (i + 1)) segments
      (files.filter fun f => f.1 ≠ name) i := by
  refine exists_congr fun n => ?_
  rw [getElem?_cons_succ, take_succ_cons, mem_cons]
  refine and_congr_right fun _ => and_congr_right fun _ => or_congr_right ?_
  simp only [mem_filter, decide_eq_true_eq, and_imp]
  constructor
  · rintro (h | rfl | h)
    · exact .inl fun f hf _ => h f hf
    · exact .inl fun f _ hne => hne
    · exact .inr h
  · rintro (h | h)
    · by_cases hn : n = name
      · exact .inr (.inl hn)
      · refine .inl fun f hf hfn => h f hf ?_ hfn
        rwa [hfn]
    · exact .inr (.inr h)

/-- A segment that is kept has no part in the removals. -/
lemma removalFails_succ_of_lt (hlt : watermark < name) :
    RemovalFails watermark refused (name :: segments) files (i + 1) ↔
      RemovalFails watermark (fun i => refused (i + 1)) segments files i := by
  refine exists_congr fun n => ?_
  rw [getElem?_cons_succ, take_succ_cons, mem_cons]
  refine and_congr_right fun _ => and_congr_right fun hn => ?_
  rw [or_iff_right (by omega : ¬ n = name)]

lemma removeFile_of_mem (h : ¬ ∀ f ∈ files, f.1 ≠ name) :
    removeFile name files = some (files.filter fun f => f.1 ≠ name) := by
  push Not at h
  exact if_pos (any_eq_true.mpr (by simpa using h))

/-- A prune of which no removal fails removes what is at or below the watermark, and keeps the
rest of the list. -/
lemma pruneRefused_of_removed (h : ∀ i, ¬ RemovalFails watermark refused segments files i)
    (kept : List ℕ) : pruneRefused watermark refused segments files kept =
      (files.filter fun f => ¬ (f.1 ≤ watermark ∧ f.1 ∈ segments),
        kept ++ segments.filter fun name => watermark < name) := by
  induction segments generalizing refused files kept with
  | nil => simp [pruneRefused]
  | cons name segments ih =>
    by_cases hle : name ≤ watermark
    · have hzero := mt removalFails_zero.mpr (h 0)
      push Not at hzero
      obtain ⟨hrefused, hfile⟩ := hzero hle
      rw [pruneRefused, if_pos hle, if_neg hrefused, removeFile_of_mem (by push Not; exact hfile)]
      dsimp only
      rw [ih (fun i => mt removalFails_succ_of_le.mpr (h (i + 1))) kept, filter_filter,
        filter_cons_of_neg (by simpa using hle)]
      congr 1
      refine filter_congr fun g _ => ?_
      by_cases hg : g.1 = name <;> simp [hg, hle]
    · rw [pruneRefused, if_neg hle,
        ih (fun i => mt (removalFails_succ_of_lt (by omega)).mpr (h (i + 1))), append_assoc]
      congr 1
      · refine filter_congr fun g _ => ?_
        by_cases hg : g.1 = name <;> simp [hg, hle]
      · rw [filter_cons_of_pos (by simpa using hle), singleton_append]

/-- A prune of which a removal fails leaves an empty list, and the files that it had not come
to. -/
lemma pruneRefused_of_fails (hi : RemovalFails watermark refused segments files i)
    (hfirst : ∀ k < i, ¬ RemovalFails watermark refused segments files k) (kept : List ℕ) :
    pruneRefused watermark refused segments files kept =
      (files.filter fun f => ¬ (f.1 ≤ watermark ∧ f.1 ∈ segments.take i), []) := by
  induction segments generalizing refused files kept i with
  | nil => obtain ⟨n, hn, -⟩ := hi; simp at hn
  | cons name segments ih =>
    cases i with
    | zero =>
      obtain ⟨hle, hfail⟩ := removalFails_zero.mp hi
      have hnone : (if refused 0 then none else removeFile name files) = none := by
        split
        · rfl
        · next hr =>
          refine if_neg fun hany => ?_
          obtain ⟨f, hf, hfn⟩ := any_eq_true.mp hany
          exact hfail.resolve_left hr f hf (by simpa using hfn)
      rw [pruneRefused, if_pos hle, hnone]
      simp
    | succ i =>
      by_cases hle : name ≤ watermark
      · have hzero := mt removalFails_zero.mpr (hfirst 0 (Nat.succ_pos i))
        push Not at hzero
        obtain ⟨hrefused, hfile⟩ := hzero hle
        rw [pruneRefused, if_pos hle, if_neg hrefused, removeFile_of_mem (by push Not; exact hfile)]
        dsimp only
        rw [ih (removalFails_succ_of_le.mp hi) (fun k hk =>
          mt removalFails_succ_of_le.mpr (hfirst (k + 1) (Nat.succ_lt_succ hk))) kept,
            filter_filter]
        congr 1
        refine filter_congr fun g _ => ?_
        by_cases hg : g.1 = name <;> simp [hg, hle]
      · have hlt : watermark < name := by omega
        rw [pruneRefused, if_neg hle, ih ((removalFails_succ_of_lt hlt).mp hi) (fun k hk =>
          mt (removalFails_succ_of_lt hlt).mpr (hfirst (k + 1) (Nat.succ_lt_succ hk)))]
        congr 1
        refine filter_congr fun g _ => ?_
        by_cases hg : g.1 = name <;> simp [hg, hle]

end

lemma putFile_of_lt {name : ℕ} {data : β} {files : List (ℕ × β)} (h : ∀ f ∈ files, f.1 < name) :
    putFile name data files = files ++ [(name, data)] := by
  induction files with
  | nil => rfl
  | cons f files ih =>
    have hf := h f mem_cons_self
    rw [putFile, if_neg (by omega), if_neg (by omega), ih fun g hg => h g (.tail _ hg)]
    rfl

lemma pruneSegments_eq_filter (watermark : ℕ) (segments : List ℕ) (files : List (ℕ × β))
    (kept : List ℕ) : ∃ p : ℕ → Bool,
      (pruneSegments watermark segments files kept).1 = files.filter fun f => p f.1 := by
  induction segments generalizing files kept with
  | nil => exact ⟨fun _ => true, by simp [pruneSegments]⟩
  | cons name segments ih =>
    unfold pruneSegments
    split
    · unfold removeFile
      split
      · next files' hrm =>
        split at hrm <;> cases hrm
        obtain ⟨p, hp⟩ := ih (files.filter fun f => f.1 ≠ name) kept
        exact ⟨fun n => p n && decide (n ≠ name), by rw [hp, filter_filter]⟩
      · exact ⟨fun _ => true, by simp⟩
    · exact ih files (kept ++ [name])

end

/-- `JournalWriter`, with the files it writes to. -/
structure JournalWriter where
  /-- What has been handed to the active file. -/
  active : List UInt8
  /-- How much of it a sync has made durable. -/
  syncedBytes : ℕ
  activeBytes : ℕ
  activeMaxSeqno : ℕ
  /-- The names of the archived segments, in the order they were rolled. -/
  segments : List ℕ
  /-- The archived files on disk, by name. -/
  archived : List (ℕ × List UInt8)

namespace JournalWriter

def create : JournalWriter := ⟨[], 0, 0, 0, [], []⟩

def writeBatchBuffered (xxh : List UInt8 → BitVec 128) (j : JournalWriter) (b : WalBatch) :
    JournalWriter :=
  { j with
    active := j.active ++ b.encode xxh
    activeBytes := j.activeBytes + (b.encode xxh).length
    activeMaxSeqno := max j.activeMaxSeqno b.seqno }

/-- `write_batch_buffered` when the write fails after `n` bytes. -/
def writeBatchFailed (xxh : List UInt8 → BitVec 128) (j : JournalWriter) (b : WalBatch) (n : ℕ) :
    JournalWriter :=
  { j with active := j.active ++ (b.encode xxh).take n }

section

variable (segmentMaxBytes : ℕ)

variable (j : JournalWriter)

/-- Whether the next sync rolls. -/
def rolls : Bool :=
  decide (segmentMaxBytes ≤ j.activeBytes) && decide (j.activeMaxSeqno ≠ 0)

/-- `maybe_roll`. The highest sequence number is not reset. -/
def maybeRoll : JournalWriter :=
  if j.rolls segmentMaxBytes then
    { j with
      archived := putFile j.activeMaxSeqno j.active j.archived
      segments := j.segments ++ [j.activeMaxSeqno]
      active := []
      syncedBytes := 0
      activeBytes := 0 }
  else j

def sync : JournalWriter :=
  { j with syncedBytes := j.active.length }.maybeRoll segmentMaxBytes

end

def prune (watermark : ℕ) (j : JournalWriter) : JournalWriter :=
  { j with
    archived := (pruneSegments watermark j.segments j.archived []).1
    segments := (pruneSegments watermark j.segments j.archived []).2 }

/-- `prune` when the file system may refuse to remove a file. -/
def pruneRefused (watermark : ℕ) (refused : ℕ → Bool) (j : JournalWriter) : JournalWriter :=
  let r := XyzDB.pruneRefused watermark refused j.segments j.archived []
  { j with archived := r.1, segments := r.2 }

def onDisk (j : JournalWriter) (segments : List ℕ) : List ℕ :=
  segments.filter fun name => j.archived.any fun f => f.1 = name

section

variable {j : JournalWriter} {watermark : ℕ} {refused : ℕ → Bool}

/-- When a removal fails the list is empty, so nothing of it may be left on disk. -/
lemma lists_segments_of_fails {i : ℕ} (hi : RemovalFails watermark refused j.segments j.archived i)
    (hfirst : ∀ k < i, ¬ RemovalFails watermark refused j.segments j.archived k) :
    (j.pruneRefused watermark refused).segments =
        (j.pruneRefused watermark refused).onDisk j.segments ↔
      ∀ name ∈ j.onDisk j.segments, name ≤ watermark ∧ name ∈ j.segments.take i := by
  simp only [pruneRefused, pruneRefused_of_fails hi hfirst [], onDisk, eq_comm (a := []),
    filter_eq_nil_iff, any_eq_true, mem_filter, decide_eq_true_eq]
  constructor
  · rintro h name ⟨hname, f, hf, rfl⟩
    by_contra hno
    exact h f.1 hname ⟨f, ⟨hf, hno⟩, rfl⟩
  · rintro h name hname ⟨f, ⟨hf, hno⟩, rfl⟩
    exact hno (h f.1 ⟨hname, f, hf, rfl⟩)

/-- When no removal fails the list is that of the segments above the watermark. -/
lemma lists_segments_of_removed
    (h : ∀ i, ¬ RemovalFails watermark refused j.segments j.archived i) :
    (j.pruneRefused watermark refused).segments =
        (j.pruneRefused watermark refused).onDisk j.segments ↔
      ∀ name ∈ j.segments, watermark < name → name ∈ j.onDisk j.segments := by
  simp only [pruneRefused, pruneRefused_of_removed h [], onDisk, nil_append]
  -- of the files that are left, those of listed segments are above the watermark
  have hleft : ∀ name ∈ j.segments,
      ((j.archived.filter fun f => ¬ (f.1 ≤ watermark ∧ f.1 ∈ j.segments)).any
        fun f => f.1 = name) = true ↔
      watermark < name ∧ ∃ f ∈ j.archived, f.1 = name := by
    intro name hname
    simp only [any_eq_true, mem_filter, decide_eq_true_eq]
    constructor
    · rintro ⟨f, ⟨hf, hno⟩, rfl⟩
      exact ⟨by by_contra hle; exact hno ⟨by omega, hname⟩, f, hf, rfl⟩
    · rintro ⟨hlt, f, hf, rfl⟩
      exact ⟨f, ⟨hf, fun hle => by omega⟩, rfl⟩
  constructor
  · intro heq name hname hlt
    have hmem : name ∈ j.segments.filter fun n => watermark < n := mem_filter.mpr ⟨hname, by simpa⟩
    rw [heq] at hmem
    have hfile := ((hleft name hname).mp (mem_filter.mp hmem).2).2
    exact mem_filter.mpr ⟨hname, any_eq_true.mpr (by simpa using hfile)⟩
  · intro hdisk
    refine filter_congr fun name hname => ?_
    rw [Bool.eq_iff_iff, decide_eq_true_eq, hleft name hname]
    refine ⟨fun hlt => ⟨hlt, ?_⟩, And.left⟩
    simpa using (mem_filter.mp (hdisk name hname hlt)).2

variable (j watermark refused)

/-- **Prune keeps its list** exactly in two cases. No removal that it tries fails, and the segments
above the watermark are on disk; or one fails, and what the list has on disk was removed before. -/
theorem prune_lists_segments : (j.pruneRefused watermark refused).segments =
        (j.pruneRefused watermark refused).onDisk j.segments ↔
      ((∀ i, ¬ RemovalFails watermark refused j.segments j.archived i) ∧
        ∀ name ∈ j.segments, watermark < name → name ∈ j.onDisk j.segments) ∨
      ∃ i, RemovalFails watermark refused j.segments j.archived i ∧
        (∀ k < i, ¬ RemovalFails watermark refused j.segments j.archived k) ∧
        ∀ name ∈ j.onDisk j.segments, name ≤ watermark ∧ name ∈ j.segments.take i := by
  classical
  by_cases hfails : ∃ i, RemovalFails watermark refused j.segments j.archived i
  · have hfirst := fun k (hk : k < Nat.find hfails) => Nat.find_min hfails hk
    constructor
    · intro h
      exact .inr ⟨_, Nat.find_spec hfails, hfirst,
        (lists_segments_of_fails (Nat.find_spec hfails) hfirst).mp h⟩
    · rintro (⟨hno, -⟩ | ⟨i, hi, hmin, h⟩)
      · exact absurd (Nat.find_spec hfails) (hno _)
      · exact (lists_segments_of_fails hi hmin).mpr h
  · push Not at hfails
    rw [lists_segments_of_removed hfails, and_iff_right hfails,
      or_iff_left (by rintro ⟨i, hi, -⟩; exact hfails i hi)]

end

/-- Two archived segments. -/
def twoSegments : JournalWriter := ⟨[], 0, 0, 2, [1, 2], [(1, [7]), (2, [8])]⟩

/-- A refusal above the watermark is not met. -/
example : (twoSegments.pruneRefused 1 (· == 1)).segments = [2] := by decide

theorem refused_prune_forgets : (twoSegments.pruneRefused 1 fun _ => true).segments = [] ∧
    (twoSegments.pruneRefused 1 fun _ => true).onDisk twoSegments.segments = [1, 2] := by decide

end JournalWriter

/-- `recover_journal`, given the archived files in the order of their names and the
active file. -/
def recoverJournal (xxh : List UInt8 → BitVec 128) (archived : List (ℕ × List UInt8))
    (active : List UInt8) : List WalBatch :=
  (archived.flatMap fun f => decodeBatches xxh f.2) ++ decodeBatches xxh active

end XyzDB
