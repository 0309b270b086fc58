import XyzDB.Turba.Journal

/-!
# What recovery finds in the journal

`walSys` runs a journal writer through appends, failed appends, syncs and prunes, and
logs beside it which batches each segment got. Recovery reads every segment up to the
first record it cannot parse, so a torn record hides whatever is appended after it; and
a segment whose name is already taken replaces the older one.

Under `WalGuard` neither happens: nothing is appended to a segment that has a torn
record, and no roll takes a name in use. Then recovery returns the batches of all
segments that were not pruned, and of the active file a front that has every synced
batch, each as often as it was appended and nothing else (`synced_batches_recovered`).
-/

namespace XyzDB

open Codec List WalBatch TransSys

/-- A journal and what was appended to it. -/
structure WalState where
  journal : JournalWriter
  /-- The batches of each archived segment that was not pruned, in the order of the
  rolls. -/
  segLog : List (ℕ × List WalBatch)
  /-- The batches of the active segment. -/
  activeLog : List WalBatch
  /-- How many of them a sync has covered. -/
  synced : ℕ

/-- What happens to a journal. -/
inductive WalLabel where
  | append (b : WalBatch)
  /-- An append fails after `n` bytes. -/
  | appendFail (b : WalBatch) (n : ℕ)
  | sync
  | prune (watermark : ℕ)

/-- A journal whose segments roll at a given size. -/
def walSys (xxh : List UInt8 → BitVec 128) (segmentMaxBytes : ℕ) : TransSys WalState WalLabel where
  init := ⟨.create, [], [], 0⟩
  next s
  | .append b => some { s with
      journal := s.journal.writeBatchBuffered xxh b
      activeLog := s.activeLog ++ [b] }
  | .appendFail b n =>
    if n < (b.encode xxh).length then some { s with journal := s.journal.writeBatchFailed xxh b n }
    else none
  | .sync =>
    if s.journal.rolls segmentMaxBytes then some
      { journal := s.journal.sync segmentMaxBytes
        segLog := s.segLog ++ [(s.journal.activeMaxSeqno, s.activeLog)]
        activeLog := []
        synced := 0 }
    else some { s with
      journal := s.journal.sync segmentMaxBytes
      synced := s.activeLog.length }
  | .prune watermark => some { s with
      journal := s.journal.prune watermark
      segLog := s.segLog.filter fun g =>
        (s.journal.prune watermark).archived.any fun f => f.1 = g.1 }

/-- Batches fit the format and are appended to segments without a torn record, and a
roll takes a fresh name. Only appends that succeed count in `active_bytes`, so a segment
without a torn record is one whose length is that count. -/
def WalGuard (segmentMaxBytes : ℕ) (s : WalState) : WalLabel → Prop
  | .append b | .appendFail b _ => b.Fits ∧ s.journal.active.length = s.journal.activeBytes
  | .sync => s.journal.rolls segmentMaxBytes = true →
      ∀ f ∈ s.journal.archived, f.1 ≠ s.journal.activeMaxSeqno
  | .prune _ => True

instance (segmentMaxBytes : ℕ) (s : WalState) (l : WalLabel) :
    Decidable (WalGuard segmentMaxBytes s l) := by
  cases l <;> unfold WalGuard <;> infer_instance

section

variable (xxh : List UInt8 → BitVec 128)

/-- A file has the given batches and then at most a torn record. -/
def HasBatches (data : List UInt8) (bs : List WalBatch) : Prop :=
  (∀ b ∈ bs, b.Fits) ∧ ∃ z, Reader.Torn (encode xxh) WalBatch.Fits z ∧
    data = bs.flatMap (encode xxh) ++ z

/-- The files have the batches that were logged, and names ascend. -/
structure WalInv (s : WalState) : Prop where
  active : HasBatches xxh s.journal.active s.activeLog
  bytes : s.journal.activeBytes = (s.activeLog.flatMap (encode xxh)).length
  synced_le : s.synced ≤ s.activeLog.length
  synced : ((s.activeLog.take s.synced).flatMap (encode xxh)).length ≤ s.journal.syncedBytes
  archived : List.Forall₂ (fun f g => f.1 = g.1 ∧ HasBatches xxh f.2 g.2)
    s.journal.archived s.segLog
  ascending : s.journal.archived.Pairwise fun f g => f.1 < g.1
  le_max : ∀ f ∈ s.journal.archived, f.1 ≤ s.journal.activeMaxSeqno

variable {xxh} {segmentMaxBytes : ℕ} {s s' : WalState}

section

variable (h : WalInv xxh s)

include h

lemma WalInv.active_eq (hlen : s.journal.active.length = s.journal.activeBytes) :
    s.journal.active = s.activeLog.flatMap (encode xxh) := by
  obtain ⟨-, z, -, heq⟩ := h.active
  rw [h.bytes, heq, length_append] at hlen
  rw [heq, eq_nil_of_length_eq_zero (Nat.add_eq_left.mp hlen), append_nil]

lemma WalInv.append {b : WalBatch} (hfits : b.Fits)
    (hlen : s.journal.active.length = s.journal.activeBytes) :
    WalInv xxh { s with
      journal := s.journal.writeBatchBuffered xxh b
      activeLog := s.activeLog ++ [b] } := by
  have hflat : (s.activeLog ++ [b]).flatMap (encode xxh) =
      s.activeLog.flatMap (encode xxh) ++ b.encode xxh := by simp
  refine ⟨⟨fun c hc => ?_, [], .inl rfl, ?_⟩, ?_, ?_, ?_, h.archived, h.ascending, fun f hf => ?_⟩
  · rcases mem_append.mp hc with hc | hc
    · exact h.active.1 c hc
    · exact mem_singleton.mp hc ▸ hfits
  · change s.journal.active ++ b.encode xxh = _
    rw [hflat, h.active_eq hlen, append_nil]
  · change s.journal.activeBytes + (b.encode xxh).length = _
    rw [hflat, h.bytes, length_append]
  · exact h.synced_le.trans (by simp)
  · change (((s.activeLog ++ [b]).take s.synced).flatMap (encode xxh)).length ≤ _
    rw [take_append_of_le_length h.synced_le]
    exact h.synced
  · exact (h.le_max f hf).trans (le_max_left ..)

lemma WalInv.appendFail {b : WalBatch} (hfits : b.Fits) {n : ℕ} (hn : n < (b.encode xxh).length)
    (hlen : s.journal.active.length = s.journal.activeBytes) :
    WalInv xxh { s with journal := s.journal.writeBatchFailed xxh b n } := by
  refine ⟨⟨h.active.1, (b.encode xxh).take n, .inr ⟨b, hfits, take_prefix _ _, ?_⟩, ?_⟩,
    h.bytes, h.synced_le, h.synced, h.archived, h.ascending, h.le_max⟩
  · intro heq
    have := congrArg List.length heq
    rw [length_take] at this
    omega
  · change s.journal.active ++ _ = _
    rw [h.active_eq hlen]

/-- **Roll.** The active file becomes the last archived segment. -/
theorem WalInv.roll (hroll : s.journal.rolls segmentMaxBytes = true)
    (hfresh : ∀ f ∈ s.journal.archived, f.1 ≠ s.journal.activeMaxSeqno) :
    WalInv xxh
      { journal := s.journal.sync segmentMaxBytes
        segLog := s.segLog ++ [(s.journal.activeMaxSeqno, s.activeLog)]
        activeLog := []
        synced := 0 } := by
  have hlt : ∀ f ∈ s.journal.archived, f.1 < s.journal.activeMaxSeqno := fun f hf =>
    lt_of_le_of_ne (h.le_max f hf) (hfresh f hf)
  have hsync : s.journal.sync segmentMaxBytes =
      { s.journal with
        archived := s.journal.archived ++ [(s.journal.activeMaxSeqno, s.journal.active)]
        segments := s.journal.segments ++ [s.journal.activeMaxSeqno]
        active := [], syncedBytes := 0, activeBytes := 0 } := by
    rw [← putFile_of_lt hlt]
    exact if_pos hroll
  rw [hsync]
  refine ⟨⟨by simp, [], .inl rfl, rfl⟩, rfl, le_rfl, le_rfl, ?_, ?_, fun f hf => ?_⟩
  · exact rel_append h.archived (.cons ⟨rfl, h.active⟩ .nil)
  · refine pairwise_append.mpr ⟨h.ascending, pairwise_singleton _ _, fun f hf g hg => ?_⟩
    rw [mem_singleton.mp hg]
    exact hlt f hf
  · rcases mem_append.mp hf with hf | hf
    · exact h.le_max f hf
    · rw [mem_singleton.mp hf]

lemma WalInv.sync (hroll : s.journal.rolls segmentMaxBytes = false) : WalInv xxh { s with
      journal := s.journal.sync segmentMaxBytes
      synced := s.activeLog.length } := by
  have hsync : s.journal.sync segmentMaxBytes =
      { s.journal with syncedBytes := s.journal.active.length } :=
    if_neg (Bool.eq_false_iff.mp hroll)
  rw [hsync]
  refine ⟨h.active, h.bytes, le_rfl, ?_, h.archived, h.ascending, h.le_max⟩
  obtain ⟨-, z, -, heq⟩ := h.active
  rw [take_length, heq, length_append]
  exact Nat.le_add_right _ _

end

section

variable {β γ : Type} {R : ℕ × β → ℕ × γ → Prop} {fs : List (ℕ × β)} {gs : List (ℕ × γ)}

lemma names_of_forall₂ (h : List.Forall₂ R fs gs) (hR : ∀ f g, R f g → f.1 = g.1) :
    fs.map Prod.fst = gs.map Prod.fst := by
  induction h with
  | nil => rfl
  | cons hfg _ ih => rw [map_cons, map_cons, hR _ _ hfg, ih]

lemma forall₂_filter_names (h : List.Forall₂ R fs gs) (hR : ∀ f g, R f g → f.1 = g.1)
    (p : ℕ → Bool) : List.Forall₂ R (fs.filter fun f => p f.1) (gs.filter fun g => p g.1) := by
  induction h with
  | nil => exact .nil
  | @cons f g fs gs hfg _ ih =>
    rw [filter_cons, filter_cons, ← hR f g hfg]
    split
    · exact .cons hfg ih
    · exact ih

end

/-- **Prune.** Segments go with their files. -/
theorem WalInv.prune (h : WalInv xxh s) (watermark : ℕ) : WalInv xxh { s with
      journal := s.journal.prune watermark
      segLog := s.segLog.filter fun g =>
        (s.journal.prune watermark).archived.any fun f => f.1 = g.1 } := by
  obtain ⟨p, hp⟩ := pruneSegments_eq_filter watermark s.journal.segments s.journal.archived []
  have hnames := names_of_forall₂ h.archived fun f g hfg => hfg.1
  have harch : (s.journal.prune watermark).archived = s.journal.archived.filter fun f => p f.1 := hp
  -- a segment is kept when its name is
  have hkeep : (s.segLog.filter fun g =>
      (s.journal.prune watermark).archived.any fun f => f.1 = g.1) =
        s.segLog.filter fun g => p g.1 := by
    refine filter_congr fun g hg => ?_
    obtain ⟨f, hf, hfg⟩ := mem_map.mp (hnames ▸ mem_map_of_mem (f := Prod.fst) hg)
    rw [harch, Bool.eq_iff_iff, any_eq_true]
    constructor
    · rintro ⟨f', hf', heq⟩
      exact of_decide_eq_true heq ▸ (mem_filter.mp hf').2
    · intro hp
      exact ⟨f, mem_filter.mpr ⟨hf, by rwa [hfg]⟩, decide_eq_true hfg⟩
  refine ⟨h.active, h.bytes, h.synced_le, h.synced, ?_, ?_, fun f hf => ?_⟩
  · change List.Forall₂ _ (s.journal.prune watermark).archived _
    rw [hkeep, harch]
    exact forall₂_filter_names h.archived (fun f g hfg => hfg.1) p
  · change (s.journal.prune watermark).archived.Pairwise _
    rw [harch]
    exact h.ascending.filter _
  · have hf : f ∈ (s.journal.prune watermark).archived := hf
    rw [harch] at hf
    exact h.le_max f (mem_filter.mp hf).1

lemma walInv_step {l : WalLabel} (h : WalInv xxh s) (hok : WalGuard segmentMaxBytes s l)
    (hnext : (walSys xxh segmentMaxBytes).next s l = some s') : WalInv xxh s' := by
  cases l with
  | append b =>
    cases hnext
    exact h.append hok.1 hok.2
  | appendFail b n =>
    change (if _ then _ else none) = _ at hnext
    split at hnext <;> cases hnext
    next hn => exact h.appendFail hok.1 hn hok.2
  | sync =>
    change (if _ then _ else _) = _ at hnext
    split at hnext
    · next hroll =>
      cases hnext
      exact h.roll hroll (hok hroll)
    · next hroll =>
      cases hnext
      exact h.sync (Bool.eq_false_iff.mpr hroll)
  | prune watermark =>
    cases hnext
    exact h.prune watermark

lemma walInv_reach (h : (walSys xxh segmentMaxBytes).Reach (WalGuard segmentMaxBytes) s) :
    WalInv xxh s :=
  h.invariant (WalInv xxh) ⟨⟨by simp [walSys], [], .inl rfl, rfl⟩, rfl, le_rfl, le_rfl, .nil, .nil,
      fun f hf => (not_mem_nil hf).elim⟩
    fun _ _ _ hinv hok hnext => walInv_step hinv hok hnext

lemma WalInv.recover_archived (h : WalInv xxh s) :
    (s.journal.archived.flatMap fun f => decodeBatches xxh f.2) = s.segLog.flatMap Prod.snd := by
  have hforall := h.archived
  generalize s.journal.archived = fs, s.segLog = gs at hforall
  induction hforall with
  | nil => rfl
  | cons hfg _ ih =>
    obtain ⟨-, hfits, z, hz, heq⟩ := hfg
    rw [flatMap_cons, flatMap_cons, ih, heq, decodeBatches_eq xxh hfits hz]

/-- Of the active file, cut no earlier than where the last sync ended, a front with all
synced batches is read back. -/
lemma WalInv.recover_active (h : WalInv xxh s) {n : ℕ} (hn : s.journal.syncedBytes ≤ n) :
    ∃ j, s.synced ≤ j ∧ j ≤ s.activeLog.length ∧
      decodeBatches xxh (s.journal.active.take n) = s.activeLog.take j := by
  obtain ⟨hfits, z, hz, heq⟩ := h.active
  obtain ⟨j, z', hij, hj, htake, hz'⟩ :=
    Reader.Torn.take hfits hz h.synced_le (h.synced.trans hn)
  refine ⟨j, hij, hj, ?_⟩
  rw [heq, htake]
  exact decodeBatches_eq xxh (fun b hb => hfits b (mem_of_mem_take hb)) hz'

end

/-- **Synced batches are recovered.** In every state a guarded journal reaches, and after
a crash that cuts the active file anywhere behind the last sync, recovery returns what
was appended to the segments that were not pruned, in order and once each, and then a
front of what was appended to the active file that has every synced batch. What a failed
append left is never returned. -/
theorem synced_batches_recovered (xxh : List UInt8 → BitVec 128) (segmentMaxBytes : ℕ)
    (s : WalState) (h : (walSys xxh segmentMaxBytes).Reach (WalGuard segmentMaxBytes) s)
    (n : ℕ) (hn : s.journal.syncedBytes ≤ n) :
    ∃ j, s.synced ≤ j ∧ j ≤ s.activeLog.length ∧
      recoverJournal xxh s.journal.archived (s.journal.active.take n) =
        s.segLog.flatMap Prod.snd ++ s.activeLog.take j := by
  have hinv := walInv_reach h
  obtain ⟨j, hij, hj, hactive⟩ := hinv.recover_active hn
  refine ⟨j, hij, hj, ?_⟩
  unfold recoverJournal
  rw [hinv.recover_archived, hactive]

/-- An append fails after its first byte; the next append succeeds and is synced. -/
def tornThenAppend : List WalLabel := [.appendFail ⟨1, []⟩ 1, .append ⟨2, []⟩, .sync]

/-- Two batches arrive with the later sequence number first, and a sync after each
rolls: both segments are called `journal.2.wal`. -/
def rollTwice : List WalLabel := [.append ⟨2, []⟩, .sync, .append ⟨1, []⟩, .sync]

/-- Whatever the checksum is, the synced batch behind the torn record is not recovered,
and neither is the one of the segment that was replaced. -/
lemma synced_batch_lost (xxh : List UInt8 → BitVec 128) :
    (∃ s, (walSys xxh 4096).Reach anyStep s ∧ s.activeLog = [⟨2, []⟩] ∧ s.synced = 1 ∧
      recoverJournal xxh s.journal.archived s.journal.active = []) ∧
    ∃ s, (walSys xxh 1).Reach anyStep s ∧ s.segLog = [(2, [⟨2, []⟩]), (2, [⟨1, []⟩])] ∧
      recoverJournal xxh s.journal.archived s.journal.active = [⟨1, []⟩] := by
  constructor
  · obtain ⟨s, hs, hlog, hsynced, harch, hactive⟩ :
        ∃ s, (walSys xxh 4096).Reach anyStep s ∧ s.activeLog = [⟨2, []⟩] ∧ s.synced = 1 ∧
          s.journal.archived = [] ∧ s.journal.active = [1] ++ encode xxh ⟨2, []⟩ :=
      ⟨_, reach_of_run (rfl : run _ _ tornThenAppend = some _), rfl, rfl, rfl, rfl⟩
    -- the stray start tag shifts the record behind it, whose first item then has no tag
    have hparse : parseOneBatch xxh ([1] ++ encode xxh ⟨2, []⟩) = none := rfl
    refine ⟨s, hs, hlog, hsynced, ?_⟩
    rw [recoverJournal, harch, hactive, decodeBatches, Reader.many, hparse]
    rfl
  · obtain ⟨s, hs, hlog, harch, hactive⟩ : ∃ s, (walSys xxh 1).Reach anyStep s ∧
          s.segLog = [(2, [⟨2, []⟩]), (2, [⟨1, []⟩])] ∧
            s.journal.archived = [(2, [⟨1, []⟩].flatMap (encode xxh) ++ [])] ∧
              s.journal.active = [].flatMap (encode xxh) ++ [] :=
      ⟨_, reach_of_run (rfl : run _ _ rollTwice = some _), rfl, rfl, rfl⟩
    refine ⟨s, hs, hlog, ?_⟩
    rw [recoverJournal, harch, hactive, flatMap_singleton,
      decodeBatches_eq xxh (by decide) (.inl rfl), decodeBatches_eq xxh (by simp) (.inl rfl)]
    rfl

/-- For one checksum; `synced_batch_lost` has it for all. -/
theorem synced_batch_not_recovered : ∃ xxh : List UInt8 → BitVec 128,
    (∃ s, (walSys xxh 4096).Reach anyStep s ∧ s.activeLog = [⟨2, []⟩] ∧ s.synced = 1 ∧
      recoverJournal xxh s.journal.archived s.journal.active = []) ∧
    ∃ s, (walSys xxh 1).Reach anyStep s ∧ s.segLog = [(2, [⟨2, []⟩]), (2, [⟨1, []⟩])] ∧
      recoverJournal xxh s.journal.archived s.journal.active = [⟨1, []⟩] :=
  ⟨fun _ => 0, synced_batch_lost _⟩

/-- One failed append, in a segment that gets no other: the batches of the segment
before it and of the segment after it are recovered. -/
theorem synced_batches_recovered_after_failure :
    ∃ s, (walSys (fun _ => 0) 31).Reach (WalGuard 31) s ∧ s.journal.active.length = 40 ∧
      ∃ j, 1 ≤ j ∧ j ≤ 1 ∧ recoverJournal (fun _ => 0) s.journal.archived
        (s.journal.active.take 40) = [⟨1, []⟩, ⟨2, []⟩] ++ [WalBatch.mk 3 []].take j := by
  obtain ⟨s, hs, hseg, hlog, hsynced, hlen, hbytes⟩ :
      ∃ s, (walSys (fun _ => 0) 31).Reach (WalGuard 31) s ∧
        s.segLog = [(2, [⟨1, []⟩, ⟨2, []⟩])] ∧ s.activeLog = [⟨3, []⟩] ∧ s.synced = 1 ∧
          s.journal.active.length = 40 ∧ s.journal.syncedBytes ≤ 40 :=
    exists_reach_of_runWith [.append ⟨1, []⟩, .append ⟨2, []⟩, .sync, .append ⟨3, []⟩,
      .sync, .appendFail ⟨4, []⟩ 10] (by decide +kernel)
  have := synced_batches_recovered (fun _ => 0) 31 s hs 40 hbytes
  rw [hseg, hlog, hsynced] at this
  exact ⟨s, hs, hlen, this⟩

end XyzDB
