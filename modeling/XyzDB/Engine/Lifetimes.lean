import XyzDB.Engine.FieldRegistry
import XyzDB.Engine.Lid

/-!
# Identifiers across lifetimes

An open reads the boot epoch of the last one, commits the next, and installs it when the commit
has returned; from then on every identifier ends in it. The counter of the process starts at
zero and the clock may show anything, so of two lifetimes only the epoch tells them apart. In
durable mode what a commit wrote is on disk before it returns: a process that stops may leave an
epoch behind that it never used, and never uses one that it does not leave behind
(`minted_lids_distinct`).

`hostSys` has what the store holds under the key of the epoch as a cell. What it takes from the
store for that is its contract in durable mode (`BootStore.Durable`): a commit is read back, and
whatever else happens, stops and restarts included, leaves what is read. Over every store that meets
the contract a process goes through the states of `hostSys` (`reach_bootSys`).
-/

namespace XyzDB.Engine

/-- Where a process is with its epoch. -/
inductive BootStage where
  | closed
  /-- It has read the last epoch, and commits this one. -/
  | committing (epoch : UInt16)
  | committed (epoch : UInt16)
  /-- `set_boot_epoch` has run. -/
  | running (epoch : UInt16)

/-- A data directory and the process that has it open. -/
structure Host where
  /-- What the dictionary holds durably under the key of the epoch. -/
  stored : Option (List UInt8)
  stage : BootStage
  /-- `SEQUENCE`, without its wrap, and its value when the directory was opened. -/
  sequence : ℕ
  since : ℕ
  opens : ℕ
  minted : List Lid

inductive HostLabel where
  | open
  /-- The batch with the epoch is synced. -/
  | sync
  | install
  | mint (lobe : UInt16) (timestamp : ℕ)
  /-- A close or a crash; a process that ends loses its counter. -/
  | stop (exits : Bool)

/-- The epoch that is read at an open. -/
def storedEpoch : Option (List UInt8) → UInt16
  | some [hi, lo] => fromBeBytes hi lo
  | _ => 0

def hostSys : TransSys Host HostLabel where
  init := ⟨none, .closed, 0, 0, 0, []⟩
  next s
  | .open =>
    match s.stage with
    | .closed => some { s with
        stage := .committing (storedEpoch s.stored + 1), since := s.sequence, opens := s.opens + 1 }
    | _ => none
  | .sync =>
    match s.stage with
    | .committing epoch => some { s with stored := some (beBytes epoch), stage := .committed epoch }
    | _ => none
  | .install =>
    match s.stage with
    | .committed epoch => some { s with stage := .running epoch }
    | _ => none
  | .mint lobe timestamp =>
    match s.stage with
    | .running epoch => some { s with
        sequence := s.sequence + 1
        minted := Lid.new lobe timestamp s.sequence epoch.toNat :: s.minted }
    | _ => none
  | .stop exits => some { s with
      stage := .closed, sequence := if exits then 0 else s.sequence }

/-- A lifetime mints fewer than `2 ^ 32` identifiers. -/
def MintsFew (s : Host) : HostLabel → Prop
  | .mint _ _ => s.sequence + 1 - s.since < 2 ^ 32
  | _ => True

instance (s : Host) (l : HostLabel) : Decidable (MintsFew s l) := by
  unfold MintsFew
  split <;> infer_instance

/-- What is known at each stage: an epoch that is committed is above all those in use, and the
identifiers of the running process have the numbers it has drawn. -/
def BootStage.Sound (s : Host) : BootStage → Prop
  | .closed => True
  | .committing epoch => s.since ≤ s.sequence ∧
      epoch.toNat = (storedEpoch s.stored).toNat + 1 ∧ epoch.toNat ≤ s.opens
  | .committed epoch | .running epoch => s.since ≤ s.sequence ∧ epoch = storedEpoch s.stored ∧
      ∀ lid ∈ s.minted, lid.bootEpoch = epoch.toNat →
        ∃ n, s.since ≤ n ∧ n < s.sequence ∧ lid.sequence = n % 2 ^ 32

/-- No id was given out twice, and none under an epoch beyond the stored one. -/
structure HostInv (s : Host) : Prop where
  stored_le : (storedEpoch s.stored).toNat ≤ s.opens
  epochs : ∀ lid ∈ s.minted, lid.bootEpoch ≤ (storedEpoch s.stored).toNat
  distinct : s.minted.Nodup
  stage : s.stage.Sound s

section

variable {s s' : Host} {l : HostLabel}

lemma HostInv.mint (h : HostInv s) {epoch : UInt16} (hs : s.stage = .running epoch)
    (hfew : s.sequence + 1 - s.since < 2 ^ 32) (lobe : UInt16) (timestamp : ℕ) :
    HostInv { s with
      sequence := s.sequence + 1
      minted := Lid.new lobe timestamp s.sequence epoch.toNat :: s.minted } := by
  have hstage := h.stage
  rw [hs] at hstage
  obtain ⟨hsince, hepoch, hmine⟩ := hstage
  have hboot : (Lid.new lobe timestamp s.sequence epoch.toNat).bootEpoch = epoch.toNat := by
    rw [Lid.bootEpoch_new]
    exact Nat.mod_eq_of_lt epoch.toNat_lt
  refine ⟨h.stored_le, List.forall_mem_cons.mpr ⟨?_, h.epochs⟩,
    List.nodup_cons.mpr ⟨fun hmem => ?_, h.distinct⟩, ?_⟩
  · rw [hboot, hepoch]
  · obtain ⟨n, hn, hlt, heq⟩ := hmine _ hmem hboot
    rw [Lid.sequence_new] at heq
    omega
  · show s.stage.Sound _
    rw [hs]
    refine ⟨hsince.trans (Nat.le_succ _), hepoch, List.forall_mem_cons.mpr ⟨fun _ => ?_, ?_⟩⟩
    · exact ⟨s.sequence, hsince, lt_add_one _, Lid.sequence_new _ _ _ _⟩
    · intro lid hlid heq
      obtain ⟨n, hn, hlt, hseq⟩ := hmine lid hlid heq
      exact ⟨n, hn, hlt.trans (lt_add_one _), hseq⟩

/-- **Step**, while the epochs have not wrapped. -/
theorem hostInv_step (h : HostInv s) (hfew : MintsFew s l) (hopens : s'.opens < 2 ^ 16)
    (hnext : hostSys.next s l = some s') : HostInv s' := by
  have hstage := h.stage
  cases l <;> simp only [hostSys] at hnext
  case stop =>
    cases hnext
    exact ⟨h.stored_le, h.epochs, h.distinct, trivial⟩
  all_goals split at hnext <;> cases hnext
  · have hepoch : (storedEpoch s.stored + 1).toNat = (storedEpoch s.stored).toNat + 1 := by
      exact Nat.mod_eq_of_lt (lt_of_le_of_lt (Nat.succ_le_succ h.stored_le) hopens)
    exact ⟨h.stored_le.trans (Nat.le_succ _), h.epochs, h.distinct, le_rfl, hepoch,
      hepoch.trans_le (Nat.succ_le_succ h.stored_le)⟩
  · next epoch hs =>
    rw [hs] at hstage
    have hstored : storedEpoch (some (beBytes epoch)) = epoch := fromBeBytes_beBytes epoch
    -- the new epoch is above those of all identifiers
    have hlt : ∀ lid ∈ s.minted, lid.bootEpoch < epoch.toNat := fun lid hlid =>
      hstage.2.1 ▸ Nat.lt_succ_of_le (h.epochs lid hlid)
    exact ⟨hstored.symm ▸ hstage.2.2, fun lid hlid => hstored.symm ▸ (hlt lid hlid).le, h.distinct,
      hstage.1, hstored.symm, fun lid hlid heq => absurd heq (hlt lid hlid).ne⟩
  · next epoch hs =>
    rw [hs] at hstage
    exact ⟨h.stored_le, h.epochs, h.distinct, hstage⟩
  · next epoch hs => exact h.mint hs hfew ..

lemma opens_le_of_next (hnext : hostSys.next s l = some s') : s.opens ≤ s'.opens := by
  cases l <;> simp only [hostSys] at hnext
  case stop => cases hnext; exact le_rfl
  all_goals
    split at hnext <;> cases hnext
    first | exact le_rfl | exact Nat.le_succ _

lemma hostInv_init : HostInv ⟨none, .closed, 0, 0, 0, []⟩ :=
  ⟨le_rfl, nofun, .nil, trivial⟩

/-- **Run.** -/
lemma nodup_minted (h : hostSys.Reach MintsFew s) (hopens : s.opens < 65536) :
    s.minted.Nodup := by
  have hinv : s.opens < 2 ^ 16 → HostInv s :=
    h.invariant (fun s => s.opens < 2 ^ 16 → HostInv s) (fun _ => hostInv_init)
      fun _ _ _ hinv hfew hnext hlt =>
        hostInv_step (hinv ((opens_le_of_next hnext).trans_lt hlt)) hfew hlt hnext
  exact (hinv hopens).distinct

end

/-- A store, as a boot uses it. -/
structure BootStore (σ : Type) where
  /-- What is under the key of the epoch. -/
  read : σ → Option (List UInt8)
  /-- The batch with an epoch goes to disk. -/
  commits : σ → List UInt8 → σ → Prop
  /-- All else that happens to the store: other batches, a close or a crash, an open. -/
  goesOn : σ → σ → Prop

section

variable {σ : Type} (B : BootStore σ)

/-- **The contract** in durable mode. -/
structure BootStore.Durable : Prop where
  commits {st st' : σ} {bytes : List UInt8} : B.commits st bytes st' → B.read st' = some bytes
  goesOn {st st' : σ} : B.goesOn st st' → B.read st' = B.read st

/-- The steps of the store behind those of a process. -/
def BootStore.Follows (s : σ × Host) : HostLabel × σ → Prop
  | (.sync, st) => ∀ epoch, s.2.stage = .committing epoch → B.commits s.1 (beBytes epoch) st
  | (_, st) => B.goesOn s.1 st

/-- A process over a store: it reads the store where `hostSys` reads its cell. -/
def bootSys (st : σ) : TransSys (σ × Host) (HostLabel × σ) where
  init := (st, hostSys.init)
  next s l := (hostSys.next { s.2 with stored := B.read s.1 } l.1).map (l.2, ·)

variable {B}

/-- The cell of `hostSys` is what the store holds. -/
lemma reach_bootSys (hB : B.Durable) {st : σ} (hnone : B.read st = none) {s : σ × Host}
    (h : (bootSys B st).Reach (fun s l => MintsFew s.2 l.1 ∧ B.Follows s l) s) :
    hostSys.Reach MintsFew s.2 ∧ s.2.stored = B.read s.1 := by
  refine h.invariant (fun s => hostSys.Reach MintsFew s.2 ∧ s.2.stored = B.read s.1)
    ⟨.init, hnone.symm⟩ fun s l s' hs hok hnext => ?_
  obtain ⟨hreach, hcell⟩ := hs
  obtain ⟨hfew, hfollows⟩ := hok
  obtain ⟨host, hhost, rfl⟩ := Option.map_eq_some_iff.mp hnext
  rw [← hcell] at hhost
  refine ⟨hreach.step hfew hhost, ?_⟩
  obtain ⟨l, st'⟩ := l
  cases l with
  | sync =>
    simp only [hostSys] at hhost
    split at hhost <;> cases hhost
    next epoch hstage => exact (hB.commits (hfollows epoch hstage)).symm
  | stop exits =>
    cases hhost
    exact hcell.trans (hB.goesOn hfollows).symm
  | «open» | install | mint lobe timestamp =>
    simp only [hostSys] at hhost
    split at hhost <;> cases hhost
    exact hcell.trans (hB.goesOn hfollows).symm

/-- **Identifiers are distinct over every durable store.** -/
theorem booted_lids_distinct (hB : B.Durable) {st : σ} (hnone : B.read st = none) {s : σ × Host}
    (h : (bootSys B st).Reach (fun s l => MintsFew s.2 l.1 ∧ B.Follows s l) s)
    (hopens : s.2.opens < 65536) : s.2.minted.Nodup :=
  nodup_minted (reach_bootSys hB hnone h).1 hopens

end

end XyzDB.Engine
