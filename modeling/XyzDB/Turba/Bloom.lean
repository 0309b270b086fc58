import XyzDB.Lib.Codec
import XyzDB.Turba.Table

/-!
# Bloom filters

The filter of a table (`bloom.rs`): an array of bits, the number of probes of a hash and the
number of bits. The builder and the reader compute the positions of the probes apart from each
other. What the floating-point arithmetic of the builder gives is a parameter.
-/

namespace XyzDB.Bloom

open Codec List

/-- Bit position of a probe of the double hashing. -/
def bitPos (hash : UInt64) (numBits : UInt32) (i : ℕ) : ℕ :=
  ((hash + UInt64.ofNat i * (hash <<< 32 ||| hash >>> 32)) % numBits.toUInt64).toNat

def mask (pos : ℕ) : UInt8 := 1 <<< UInt8.ofNat (pos % 8)

def setBit (bits : List UInt8) (pos : ℕ) : List UInt8 := bits.modify (pos / 8) (· ||| mask pos)

def testBit (bits : List UInt8) (pos : ℕ) : Bool := bits.getD (pos / 8) 0 &&& mask pos != 0

/-- The positions of the probes of a hash. -/
def positions (k : UInt8) (numBits : UInt32) (hash : UInt64) : List ℕ :=
  (range k.toNat).map (bitPos hash numBits)

/-- What `bits_per_key` is asked for. -/
structure Config where
  /-- `bits_per_key > 0.0`. -/
  positive : Bool
  /-- `(len as f64 * bits_per_key).ceil() as u32`. -/
  rawBits : ℕ → UInt32
  /-- `(bits_per_key * 0.693) as u8`. -/
  rawProbes : UInt8

/-- `BloomBuilder::finish`. With no bits left after the cast to `u32` the remainder panics. -/
def Config.finish (cfg : Config) (hashes : List UInt64) : Option (List UInt8) :=
  if hashes = [] then some (0 :: toLE 4 0)
  else
    let numBytes := ((max (cfg.rawBits hashes.length) 64).toNat + 7) / 8
    let numBits := UInt32.ofNat (numBytes * 8)
    let k := min (max cfg.rawProbes 1) 30
    if numBits = 0 then none
    else some ((hashes.flatMap (positions k numBits)).foldl setBit (replicate numBytes 0) ++
      k :: toLE 4 numBits.toNat)

structure Filter where
  bits : List UInt8
  k : UInt8
  numBits : UInt32

namespace Filter

def fromBytes (data : List UInt8) : Option Filter :=
  if data.length < 5 then none
  else
    let footerStart := data.length - 5
    let k := data.getD footerStart 0
    let numBits := UInt32.ofNat (ofLE (data.drop (footerStart + 1)))
    if numBits = 0 ∧ k = 0 then some ⟨[], 0, 0⟩
    else if footerStart ≠ (numBits.toNat + 7) / 8 then none
    else some ⟨data.take footerStart, k, numBits⟩

def maybeContains (f : Filter) (hash : UInt64) : Bool :=
  f.numBits = 0 || (positions f.k f.numBits hash).all (testBit f.bits)

lemma fromBytes_append {f : Filter} (hpos : f.numBits ≠ 0)
    (hlen : f.bits.length = (f.numBits.toNat + 7) / 8) :
    fromBytes (f.bits ++ f.k :: toLE 4 f.numBits.toNat) = some f := by
  have hall : (f.bits ++ f.k :: toLE 4 f.numBits.toNat).length = f.bits.length + 5 := by simp
  have hdrop : (f.bits ++ f.k :: toLE 4 f.numBits.toNat).drop (f.bits.length + 1) =
      toLE 4 f.numBits.toNat := by
    rw [drop_append, drop_eq_nil_of_le (Nat.le_succ _), Nat.add_sub_cancel_left]
    rfl
  have hbits : UInt32.ofNat (ofLE (toLE 4 f.numBits.toNat)) = f.numBits := by
    rw [ofLE_toLE f.numBits.toNat_lt, UInt32.ofNat_toNat]
  unfold fromBytes
  simp only [hall, Nat.add_sub_cancel, hdrop, hbits]
  rw [if_neg (by omega), if_neg fun h => hpos h.1, if_neg fun h => h hlen]
  simp

end Filter

lemma mask_ne_zero (pos : ℕ) : mask pos ≠ 0 :=
  (by decide : ∀ r < 8, (1 : UInt8) <<< UInt8.ofNat r ≠ 0) _ (Nat.mod_lt _ (by decide))

lemma bitPos_lt (hash : UInt64) {numBits : UInt32} (h : numBits ≠ 0) (i : ℕ) :
    bitPos hash numBits i < numBits.toNat := by
  have hpos : 0 < numBits.toNat := Nat.pos_of_ne_zero fun h0 => h (UInt32.toNat_inj.mp h0)
  exact Nat.mod_lt _ hpos

variable {bits : List UInt8} {pos q : ℕ}

lemma getD_setBit : (setBit bits pos).getD q 0 =
    if pos / 8 = q ∧ q < bits.length then bits.getD q 0 ||| mask pos else bits.getD q 0 := by
  simp only [setBit]
  by_cases hq : q < bits.length
  · by_cases heq : pos / 8 = q <;> simp [hq, heq]
  · simp [hq]

lemma or_and_eq_zero {a b c : UInt8} (h : (a ||| b) &&& c = 0) : a &&& c = 0 ∧ b &&& c = 0 := by
  refine UInt8.or_eq_zero_iff.mp (Eq.trans ?_ h)
  refine UInt8.toNat_inj.mp ?_
  simp only [UInt8.toNat_or, UInt8.toNat_and, Nat.and_or_distrib_right]

lemma testBit_setBit (h : testBit bits q = true) : testBit (setBit bits pos) q = true := by
  simp only [testBit, bne_iff_ne, getD_setBit] at h ⊢
  split
  · exact fun hzero => h (or_and_eq_zero hzero).1
  · exact h

lemma testBit_setBit_self (h : pos / 8 < bits.length) : testBit (setBit bits pos) pos = true := by
  simp only [testBit, bne_iff_ne, getD_setBit, h]
  intro hzero
  have hmask := (or_and_eq_zero hzero).2
  rw [UInt8.and_self] at hmask
  exact mask_ne_zero pos hmask

/-- **Setting bits.** What was set stays set, and every position in range is set. -/
lemma foldl_setBit (ps : List ℕ) (bits : List UInt8) : (ps.foldl setBit bits).length = bits.length ∧
      ∀ q, (testBit bits q = true ∨ q ∈ ps ∧ q / 8 < bits.length) →
        testBit (ps.foldl setBit bits) q = true := by
  induction ps generalizing bits with
  | nil =>
    refine ⟨rfl, fun q hq => hq.elim id fun h => ?_⟩
    exact absurd h.1 not_mem_nil
  | cons p ps ih =>
    have hlen : (setBit bits p).length = bits.length := length_modify _ _ _
    obtain ⟨hfold, hset⟩ := ih (setBit bits p)
    refine ⟨hfold.trans hlen, fun q hq => hset q ?_⟩
    rcases hq with hq | ⟨hq, hin⟩
    · exact .inl (testBit_setBit hq)
    · rcases mem_cons.mp hq with rfl | hq
      · exact .inl (testBit_setBit_self hin)
      · exact .inr ⟨hq, hlen ▸ hin⟩

variable {cfg : Config} {hashes : List UInt64}

/-- What the builder writes is read back, and admits what was inserted; with nothing inserted it
admits everything. -/
lemma exists_fromBytes {data : List UInt8} (h : cfg.finish hashes = some data) :
    ∃ f, Filter.fromBytes data = some f ∧
      ∀ hash, hashes = [] ∨ hash ∈ hashes → f.maybeContains hash = true := by
  unfold Config.finish at h
  split at h
  · cases h
    exact ⟨⟨[], 0, 0⟩, rfl, fun _ _ => rfl⟩
  · next hne =>
    dsimp only at h
    split at h <;> cases h
    next hpos =>
    set n := (max (cfg.rawBits hashes.length) 64).toNat
    set k := min (max cfg.rawProbes 1) 30
    have hn : n < 2 ^ 32 := UInt32.toNat_lt _
    -- `2 ^ 29` bytes are the only size whose number of bits does not fit
    have hfit : (n + 7) / 8 * 8 < 2 ^ 32 := by
      by_contra hbig
      exact hpos (by rw [show (n + 7) / 8 * 8 = 2 ^ 32 by omega]; rfl)
    have hnum : (UInt32.ofNat ((n + 7) / 8 * 8)).toNat = (n + 7) / 8 * 8 :=
      UInt32.toNat_ofNat_of_lt hfit
    set numBits := UInt32.ofNat ((n + 7) / 8 * 8)
    obtain ⟨hlen, hset⟩ := foldl_setBit (hashes.flatMap (positions k numBits))
      (replicate ((n + 7) / 8) 0)
    rw [length_replicate] at hlen hset
    refine ⟨_, Filter.fromBytes_append (f := ⟨_, k, numBits⟩) hpos ?_, fun hash hmem => ?_⟩
    · rw [hlen, hnum]
      omega
    · rw [Filter.maybeContains, Bool.or_eq_true, all_eq_true]
      refine .inr fun q hq => hset q (.inr ⟨mem_flatMap.mpr ⟨hash, ?_, hq⟩, ?_⟩)
      · exact hmem.resolve_left hne
      · obtain ⟨i, -, rfl⟩ := mem_map.mp hq
        have hlt := bitPos_lt hash hpos i
        rw [hnum] at hlt
        exact Nat.div_lt_of_lt_mul (by rwa [Nat.mul_comm])

/-- What `SSTableWriter::add` inserts for the keys of a table. -/
def Config.inserted (cfg : Config) (keyHash : Key → UInt64) (keys : List Key) : List UInt64 :=
  if cfg.positive then keys.map keyHash else []

/-- `bloom_maybe_contains` for a table of the given keys. -/
def Config.admits (cfg : Config) (keyHash : Key → UInt64) (keys : List Key) (k : Key) : Bool :=
  ((cfg.finish (cfg.inserted keyHash keys)).bind Filter.fromBytes).any (·.maybeContains (keyHash k))

lemma admits_of_mem {keyHash : Key → UInt64} {keys : List Key} {k : Key}
    (h : (cfg.finish (cfg.inserted keyHash keys)).isSome) (hk : k ∈ keys) :
    cfg.admits keyHash keys k = true := by
  obtain ⟨data, hdata⟩ := Option.isSome_iff_exists.mp h
  obtain ⟨f, hf, hall⟩ := exists_fromBytes hdata
  rw [Config.admits, hdata, Option.bind_some, hf]
  refine hall _ ?_
  unfold Config.inserted
  split
  · exact .inr (mem_map_of_mem hk)
  · exact .inl rfl

end XyzDB.Bloom

namespace XyzDB.Table

open List Bloom

lemma mem_of_pointRead {block : List Entry} {k : Key} {v : ℕ} {e : Entry}
    (h : pointRead block k v = some e) : e ∈ block ∧ e.key = k := by
  have hmem := mem_of_find?_eq_some h
  exact ⟨mem_of_mem_drop ((takeWhile_sublist _).subset hmem), by simpa using mem_takeWhile_imp hmem⟩

lemma mem_of_getNoBloom {t : Table} {k : Key} {v : ℕ} {e : Entry} (h : t.getNoBloom k v = some e) :
    e ∈ t.entries ∧ e.key = k := by
  unfold getNoBloom at h
  split at h
  · next block hblock =>
    obtain ⟨he, hkey⟩ := mem_of_pointRead h
    exact ⟨mem_flatten.mpr ⟨block, mem_of_getElem? hblock, he⟩, hkey⟩
  · cases h

/-- **Bloom filters have no false negatives.** A filter that is built is read back and admits
every hash that was inserted, so the filter of a table never hides an entry. -/
theorem bloom_admits_inserted (cfg : Bloom.Config) (keyHash : Key → UInt64) :
    (∀ hashes data, hashes ≠ [] → cfg.finish hashes = some data →
        ∃ f, Filter.fromBytes data = some f ∧ ∀ hash ∈ hashes, f.maybeContains hash = true) ∧
      ∀ (dataBlockSize id : ℕ) (l : List Entry) (t : Table),
        (cfg.finish (cfg.inserted keyHash (l.map Entry.key))).isSome →
        write ⟨dataBlockSize, cfg.admits keyHash⟩ id l = some t →
        ∀ k v, t.get k v = t.getNoBloom k v := by
  refine ⟨fun hashes data _ hdata => ?_, fun dataBlockSize id l t hbuilt hwrite k v => ?_⟩
  · obtain ⟨f, hf, hall⟩ := exists_fromBytes hdata
    exact ⟨f, hf, fun hash hmem => hall hash (.inr hmem)⟩
  · obtain ⟨hentries, -, hne⟩ := write_eq_some hwrite
    have hbloom : t.bloom = cfg.admits keyHash (l.map Entry.key) := by
      rw [write, dif_neg hne] at hwrite
      cases hwrite
      rfl
    rw [Table.get]
    split
    · rfl
    · next hno =>
      -- whatever the block holds for the key would have been admitted
      refine (Option.eq_none_iff_forall_ne_some.mpr fun e he => hno ?_).symm
      obtain ⟨hmem, rfl⟩ := mem_of_getNoBloom he
      rw [hbloom]
      exact admits_of_mem hbuilt (mem_map_of_mem (hentries ▸ hmem))

theorem bloom_admits_inserted_two : ∃ t,
    write ⟨4096, Config.admits ⟨true, fun _ => 20, 6⟩ fun k => UInt64.ofNat k.length⟩ 0
        splitVersions = some t ∧ t.get [1] 2 = t.getNoBloom [1] 2 :=
  ⟨_, rfl, (bloom_admits_inserted _ _).2 4096 0 splitVersions _ (by decide +kernel) rfl [1] 2⟩

end XyzDB.Table
