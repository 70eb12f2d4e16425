/-
# MxKeys.Snap.Rejection — what a rejected snapshot leaves behind.

`Site.handleInstallSnapshot` is the whole call: the first section with its spill file
(`Receiver.receive`), the installer, the check that the installer read everything, the rename into
`raft.snapshot` and the last section.  Every exit of it is an answer, and the outcome of every file
operation, of the installer and of the rename is an argument.

Whatever fails, an answer with `Success = false` leaves the log, its boundary, `commitIndex`,
`lastApplied` and `raft.snapshot` alone (`rejected_frame`).  The application is another matter: the
installer runs before the rename, and what it has installed stays when the rename fails or when it
turns out that it did not read all bytes.  The source accepts that and relies on the leader to send
the snapshot again.  `rejected_after_install` is such a call.
-/
import Mathlib.Data.Countable.Basic
import Mathlib.Logic.Equiv.List
import MxKeys.Snap.Spill
import MxKeys.KeyCache.State

namespace MxKeys.Snap

open MxKeys.Lib MxKeys.Raft
open Function

variable {N C S : Type*}

/-! ## The whole call -/

/-- A node with its transfer, the file `raft.snapshot` and the application. -/
structure Site (N C S : Type*) where
  receiver : Receiver N C
  snapshot : Option Bytes
  app : S

/-- How one call goes: the spill file, whether the installer read all bytes (`cr.count == size`),
the rename, and `wal.TruncateBefore`. -/
structure CallIo where
  spill : SpillIo
  drained : Bool
  rename : Bool
  wal : Bool

/-- The spill file is removed, if there is one: `f.Close` and `os.Remove`. -/
def Receiver.discard (cfg : Config N) (me : N) (io : SpillIo) (r : Receiver N C) : Receiver N C :=
  { r with recv := if cfg.stateDir me then io.removed r.recv else r.recv }

/-- The last section, after the rename. -/
def Site.installed (cfg : Config N) (me : N) (io : CallIo) (s : Site N C S)
    (req : InstallSnapshotRequest N UInt8) : Site N C S :=
  let node := finishInstall s.receiver.node req.lastIncludedIndex req.lastIncludedTerm
  { s with
    receiver := { s.receiver with
      node := if io.wal then node.walTruncateBefore (req.lastIncludedIndex + 1) else node
      recv := if cfg.stateDir me then none else s.receiver.recv }
    snapshot := if cfg.stateDir me then s.receiver.recv else s.snapshot }

/-- From the installer on. -/
def Site.install (cfg : Config N) (me : N) (cb : Callbacks C UInt8 S) (io : CallIo) (s : Site N C S)
    (req : InstallSnapshotRequest N UInt8) (payload : Bytes) (size : Nat) :
    Site N C S × InstallSnapshotResponse :=
  let rejected : InstallSnapshotResponse := ⟨s.receiver.node.currentTerm, false, 0⟩
  let discarded := { s with receiver := s.receiver.discard cfg me io.spill }
  match cb.snapshotInstaller s.app payload req.lastIncludedIndex req.lastIncludedTerm with
  | none => (discarded, rejected)
  | some app =>
    if !io.drained then ({ discarded with app := app }, rejected)
    else if cfg.stateDir me && !io.rename then ({ discarded with app := app }, rejected)
    else
      (Site.installed cfg me io { s with app := app } req,
        ⟨s.receiver.node.currentTerm, true, size⟩)

/-- `handleInstallSnapshot`; `none` is a message whose payload cannot be read. -/
def Site.handleInstallSnapshot (cfg : Config N) (me : N) (cb : Callbacks C UInt8 S) (now : Nat)
    (io : CallIo) (s : Site N C S) (msg : Option (InstallSnapshotRequest N UInt8)) :
    Site N C S × InstallSnapshotResponse :=
  match msg with
  | none => (s, ⟨s.receiver.node.currentTerm, false, 0⟩)
  | some req =>
    match s.receiver.receive cfg me now io.spill req with
    | (r, .reply resp) => ({ s with receiver := r }, resp)
    | (r, .install payload size) =>
      Site.install cfg me cb io { s with receiver := r } req payload size

/-! ## The first section -/

section Frame

variable {cfg : Config N} {me : N} {r : Receiver N C} {io : SpillIo}
  {req : InstallSnapshotRequest N UInt8}

theorem node_begin (index term : Nat) : (r.begin cfg me io index term).1.node = r.node := by
  unfold Receiver.begin
  split_ifs <;> rfl

theorem node_append (data : Bytes) : (r.append io data).1.node = r.node := by
  unfold Receiver.append
  dsimp only
  split_ifs <;> rfl

theorem node_finalize : (r.finalize io).1.node = r.node := by
  unfold Receiver.finalize
  dsimp only
  split_ifs <;> rfl

theorem node_finish : (r.finish cfg me io).1.node = r.node := by
  have hfin : (r.finalize io).1.node = r.node := node_finalize
  unfold Receiver.finish
  split_ifs
  · generalize r.finalize io = res at hfin ⊢
    obtain ⟨r', _ | ⟨payload, size⟩⟩ := res <;> exact hfin
  · rfl

theorem node_accept : (r.accept cfg me io req).1.node = r.node := by
  have happ : (r.append io req.data).1.node = r.node := node_append req.data
  unfold Receiver.accept
  by_cases hoff : req.offset ≠ r.transfer.expected
  · rw [if_pos hoff]
    rfl
  · rw [if_neg hoff]
    generalize r.append io req.data = res at happ ⊢
    obtain ⟨r', _ | _⟩ := res
    · exact happ
    · dsimp only at happ ⊢
      split_ifs
      · exact happ
      · exact node_finish.trans happ

theorem node_chunk : (r.chunk cfg me io req).1.node = r.node := by
  have hbegin : (r.begin cfg me io req.lastIncludedIndex req.lastIncludedTerm).1.node = r.node :=
    node_begin _ _
  unfold Receiver.chunk
  split_ifs
  · generalize r.begin cfg me io req.lastIncludedIndex req.lastIncludedTerm = res at hbegin ⊢
    obtain ⟨r', _ | _⟩ := res
    · exact hbegin
    · exact node_accept.trans hbegin
  · exact node_accept

/-- The fields that a rejected snapshot must leave alone. -/
structure SameLog (x y : Node N C UInt8) : Prop where
  snapshotIndex : y.snapshotIndex = x.snapshotIndex
  snapshotTerm : y.snapshotTerm = x.snapshotTerm
  logOffset : y.logOffset = x.logOffset
  log : y.log = x.log
  commitIndex : y.commitIndex = x.commitIndex
  lastApplied : y.lastApplied = x.lastApplied

/-- The first section only listens to the leader. -/
theorem sameLog_receive (now : Nat) : SameLog r.node (r.receive cfg me now io req).1.node := by
  unfold Receiver.receive
  split_ifs
  · exact ⟨rfl, rfl, rfl, rfl, rfl, rfl⟩
  · exact ⟨rfl, rfl, rfl, rfl, rfl, rfl⟩
  · dsimp only
    split_ifs
    · exact ⟨rfl, rfl, rfl, rfl, rfl, rfl⟩
    · rw [node_chunk]
      exact ⟨rfl, rfl, rfl, rfl, rfl, rfl⟩

end Frame

/-! ## Rejections -/

variable {cfg : Config N} {me : N} {cb : Callbacks C UInt8 S} {now : Nat} {io : CallIo}
  {s : Site N C S}

/-- The installer was called, accepted the payload and left `app`. -/
def Accepted (cfg : Config N) (me : N) (cb : Callbacks C UInt8 S) (now : Nat) (io : CallIo)
    (s : Site N C S) (msg : Option (InstallSnapshotRequest N UInt8)) (app : S) : Prop :=
  ∃ req payload size, msg = some req ∧
    (s.receiver.receive cfg me now io.spill req).2 = .install payload size ∧
    cb.snapshotInstaller s.app payload req.lastIncludedIndex req.lastIncludedTerm = some app

/-- From the installer on: a rejection comes before the last section, and if the installer had
accepted the payload then a later step failed. -/
theorem install_rejected {req : InstallSnapshotRequest N UInt8} {payload : Bytes} {size : Nat}
    (h : (Site.install cfg me cb io s req payload size).2.success = false) :
    (Site.install cfg me cb io s req payload size).1.receiver.node = s.receiver.node ∧
      (Site.install cfg me cb io s req payload size).1.snapshot = s.snapshot ∧
      ((Site.install cfg me cb io s req payload size).1.app = s.app ∨
        cb.snapshotInstaller s.app payload req.lastIncludedIndex req.lastIncludedTerm =
            some (Site.install cfg me cb io s req payload size).1.app ∧
          (io.drained = false ∨ cfg.stateDir me = true ∧ io.rename = false)) := by
  unfold Site.install at h ⊢
  cases hinst : cb.snapshotInstaller s.app payload req.lastIncludedIndex req.lastIncludedTerm with
  | none => exact ⟨rfl, rfl, .inl rfl⟩
  | some app =>
    rw [hinst] at h
    cases hdrained : io.drained with
    | false => exact ⟨rfl, rfl, .inr ⟨rfl, .inl rfl⟩⟩
    | true =>
      cases hlate : cfg.stateDir me && !io.rename with
      | false =>
        rw [hdrained, hlate] at h
        cases h
      | true =>
        obtain ⟨hdir, hrename⟩ := Bool.and_eq_true_iff.1 hlate
        exact ⟨rfl, rfl, .inr ⟨rfl, .inr ⟨hdir, Bool.not_eq_true' _ ▸ hrename⟩⟩⟩

/-- **A rejected snapshot.**  For every state, every message and every way the call can go: an
answer with `Success = false` leaves the log, its boundary, `commitIndex`, `lastApplied` and
`raft.snapshot` as they were.  The application is as it was too, unless the installer had accepted
the payload before the answer was known; then it is what the installer made of it, and the reason
for the rejection is that the installer stopped short or that the rename failed. -/
theorem rejected_frame (cfg : Config N) (me : N) (cb : Callbacks C UInt8 S) (now : Nat)
    (io : CallIo) (s : Site N C S) (msg : Option (InstallSnapshotRequest N UInt8))
    (h : (s.handleInstallSnapshot cfg me cb now io msg).2.success = false) :
    SameLog s.receiver.node (s.handleInstallSnapshot cfg me cb now io msg).1.receiver.node ∧
      (s.handleInstallSnapshot cfg me cb now io msg).1.snapshot = s.snapshot ∧
      ((s.handleInstallSnapshot cfg me cb now io msg).1.app = s.app ∨
        Accepted cfg me cb now io s msg (s.handleInstallSnapshot cfg me cb now io msg).1.app ∧
          (io.drained = false ∨ cfg.stateDir me = true ∧ io.rename = false)) := by
  cases msg with
  | none => exact ⟨⟨rfl, rfl, rfl, rfl, rfl, rfl⟩, rfl, .inl rfl⟩
  | some req =>
    have hrecv : SameLog s.receiver.node
        (s.receiver.receive cfg me now io.spill req).1.node := sameLog_receive now
    unfold Site.handleInstallSnapshot Accepted at *
    dsimp only at h ⊢
    rcases hres : s.receiver.receive cfg me now io.spill req with ⟨r, resp | ⟨payload, size⟩⟩
    · rw [hres] at hrecv
      exact ⟨hrecv, rfl, .inl rfl⟩
    · rw [hres] at hrecv h
      obtain ⟨hnode, hsnap, happ⟩ := install_rejected h
      refine ⟨?_, hsnap, happ.imp_right fun ⟨hacc, hlate⟩ => ?_⟩
      · dsimp only at hnode ⊢
        rw [hnode]
        exact hrecv
      · exact ⟨⟨req, payload, size, rfl, by rw [hres], hacc⟩, hlate⟩

/-- A node of term `1` with an empty log, over an application. -/
def siteOf (app : S) : Site (Fin 3) C S where
  receiver := ⟨{ newNode 0 with currentTerm := 1 }, .none, none⟩
  snapshot := some []
  app := app

/-- The only chunk of the snapshot `(5, 1)`, which is empty, or a chunk that starts too late. -/
def emptyChunk (offset : Nat) : InstallSnapshotRequest (Fin 3) UInt8 :=
  ⟨1, 1, some 1, 5, 1, offset, true, []⟩

/-- A chunk that starts too late is rejected, and nothing has changed. -/
theorem rejected_frame_gap :
    ((siteOf 7 : Site (Fin 3) Nat Nat).handleInstallSnapshot (.complete 3 1) 0
        Callbacks.lastIndex 0 ⟨.ok, true, true, true⟩ (some (emptyChunk 4))).2.success = false ∧
      ((siteOf 7 : Site (Fin 3) Nat Nat).handleInstallSnapshot (.complete 3 1) 0
        Callbacks.lastIndex 0 ⟨.ok, true, true, true⟩ (some (emptyChunk 4))).1.app = 7 := by
  refine ⟨rfl, ?_⟩
  obtain ⟨_, _, happ⟩ := rejected_frame (.complete 3 1) 0 Callbacks.lastIndex 0
    ⟨.ok, true, true, true⟩ (siteOf 7 : Site (Fin 3) Nat Nat) (some (emptyChunk 4)) rfl
  rcases happ with hsame | ⟨_, hdrained | ⟨_, hrename⟩⟩
  · exact hsame
  · cases hdrained
  · cases hrename

/-! ## The key cache -/

section Keys

open KeyCache

theorem countable_string : Countable String := by
  have hchar : Countable Char :=
    Injective.countable (f := Char.toNat) fun _ _ => Char.toNat_inj.mp
  exact Injective.countable (f := String.toList) fun _ _ => String.toList_inj.mp

theorem countable_keys : Countable Keys := by
  have hstring := countable_string
  have hentry : Countable KeyEntry := by
    refine Injective.countable (f := fun e : KeyEntry => (e.serverName, e.keyID,
      e.keyData, e.validUntilTS, e.timestamp, e.nodeID, e.hash)) ?_
    rintro ⟨⟩ ⟨⟩ h
    simpa using h
  exact Injective.countable (f := Finmap.entries) fun _ _ => Finmap.ext

/-- Snapshots can be written as bytes. -/
theorem exists_codec : Nonempty (Codec KeyEntry UInt8) := by
  have hkeys := countable_keys
  obtain ⟨number, hnumber⟩ := exists_injective_nat (Nat × Keys)
  have hbytes : Injective fun p => List.replicate (number p + 1) (0 : UInt8) := by
    intro p q h
    have hlen := congrArg List.length h
    simp only [List.length_replicate] at hlen
    exact hnumber (by omega)
  exact ⟨{
    decodeCommand := fun entry => some ⟨"key_update", some entry⟩
    encodeSnapshot := fun version keys => List.replicate (number (version, keys) + 1) 0
    decodeSnapshot := partialInv fun p => List.replicate (number p + 1) 0
    decode_encode := fun version keys => partialInv_left hbytes (version, keys)
    encode_ne_nil := fun _ _ => List.cons_ne_nil _ _ }⟩

/-- **The keys are gone, and the snapshot was rejected**: `installKeySnapshot` has replaced the
cache by the empty one when the rename fails. -/
theorem rejected_after_install : ∃ (codec : Codec KeyEntry UInt8) (io : CallIo)
    (s : Site (Fin 3) KeyEntry CRDTState) (msg : Option (InstallSnapshotRequest (Fin 3) UInt8)),
      (s.handleInstallSnapshot (.complete 3 1) 0 codec.callbacks 0 io msg).2.success = false ∧
      (s.handleInstallSnapshot (.complete 3 1) 0 codec.callbacks 0 io msg).1.app.keys ≠
        s.app.keys := by
  obtain ⟨codec⟩ := exists_codec
  refine ⟨codec, ⟨.ok, true, false, true⟩, siteOf ⟨applyEntryLocked ∅ (keyOf "a" 1), 1⟩,
    some (emptyChunk 0), rfl, fun heq => ?_⟩
  obtain ⟨x, hx, _⟩ := dominates_applyEntryLocked ∅ (keyOf "a" 1)
  rw [← show (∅ : Keys) = applyEntryLocked ∅ (keyOf "a" 1) from heq] at hx
  cases hx

end Keys

end MxKeys.Snap
