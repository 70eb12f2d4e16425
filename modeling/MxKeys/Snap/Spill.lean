/-
# MxKeys.Snap.Spill — receiving a snapshot chunk by chunk.

A node with a state directory spills the chunks into `raft.snapshot.recv`: the header goes first,
with length and checksum left open, the chunks behind it, and at the end length and checksum are
patched in.  A node without one collects them in memory.  The state of the transfer is spread over
the `pendingSnapshot*` fields and the file.

`receive_refines`: all of this implements the handler of the cluster model, which keeps the bytes
received so far in one list.  `finalize_spec` adds that the finished spill file is, byte for byte,
the file that `SaveSnapshot` would have written.
-/
import MxKeys.Snap.File

namespace MxKeys.Snap

open MxKeys.Lib MxKeys.Lib.Digest MxKeys.Raft
open List

variable {N C : Type*}

/-! ## The transfer -/

/-- The `pendingSnapshot*` fields. -/
structure Transfer where
  /-- `pendingSnapshot`, the buffer of a node without a state directory. -/
  buffer : Bytes
  expected : Nat
  index : Nat
  term : Nat
  /-- The running checksum, `nil` outside a transfer to disk. -/
  crc : Option UInt32
  /-- `pendingSnapshotFile != nil`.  The handle stands at the end of the file, which was truncated
  when it was opened and is written in order. -/
  file : Bool
  /-- `pendingSnapshotPath != ""`. -/
  path : Bool

/-- Nothing in flight. -/
def Transfer.none : Transfer := ⟨[], 0, 0, 0, Option.none, false, false⟩

/-- A node with its transfer and the spill file, if there is one.  `pending` of the node is not
used: the transfer takes its place. -/
structure Receiver (N C : Type*) where
  node : Node N C UInt8
  transfer : Transfer
  recv : Option Bytes

/-- How the file operations of one chunk end.  A failed write leaves `torn` in the file. -/
structure SpillIo where
  mkdir : Bool
  create : Bool
  header : Bool
  write : Bool
  patch : Bool
  sync : Bool
  seek : Bool
  remove : Bool
  torn : Bytes

/-- All file operations succeed. -/
def SpillIo.ok : SpillIo := ⟨true, true, true, true, true, true, true, true, []⟩

/-- The file after `os.Remove`. -/
def SpillIo.removed (io : SpillIo) (recv : Option Bytes) : Option Bytes :=
  if io.remove then none else recv

/-- Overwrite bytes of a file from an offset on. -/
def writeAt (file : Bytes) (offset : Nat) (bytes : Bytes) : Bytes :=
  file.take offset ++ bytes ++ file.drop (offset + bytes.length)

/-- `releasePendingSnapshot`. -/
def Receiver.release (r : Receiver N C) (io : SpillIo) : Receiver N C :=
  { r with
    transfer := .none
    recv := if r.transfer.path then io.removed r.recv else r.recv }

/-- The header as `writePendingSnapshotHeader` leaves it: length and checksum are zero. -/
def openHeader (index term : Nat) : Bytes := headerStart index term ++ (le32 0 ++ le32 0)

/-- `beginPendingSnapshot`, and whether it succeeds. -/
def Receiver.begin (cfg : Config N) (me : N) (io : SpillIo) (r : Receiver N C) (index term : Nat) :
    Receiver N C × Bool :=
  let r := r.release io
  let r := { r with transfer := { r.transfer with index := index, term := term } }
  if !cfg.stateDir me then (r, true)
  else if !io.mkdir || !io.create then (r, false)
  else if !io.header then ({ r with recv := io.removed (some io.torn) }, false)
  else
    ({ r with
      recv := some (openHeader index term)
      transfer := { r.transfer with file := true, path := true, crc := some 0 } }, true)

/-- `appendPendingSnapshot`, and whether it succeeds. -/
def Receiver.append (io : SpillIo) (r : Receiver N C) (data : Bytes) : Receiver N C × Bool :=
  let newSize := r.transfer.expected + data.length
  if maxSnapshotSize < newSize then (r, false)
  else if r.transfer.file then
    if !io.write then ({ r with recv := some io.torn }, false)
    else
      ({ r with
        recv := r.recv.map fun bytes => bytes ++ data
        transfer := { r.transfer with
          crc := r.transfer.crc.map fun crc => crcUpdate crc data
          expected := newSize } }, true)
  else
    ({ r with transfer := { r.transfer with
        buffer := r.transfer.buffer ++ data
        expected := newSize } }, true)

/-- `finalizePendingSnapshot`: what the handle yields from the start of the data on, and the size.
-/
def Receiver.finalize (io : SpillIo) (r : Receiver N C) :
    Receiver N C × Option (Bytes × Nat) :=
  if !r.transfer.file then (r, none)
  else
    let size := r.transfer.expected
    let crc := r.transfer.crc.getD 0
    let detached : Transfer := ⟨r.transfer.buffer, 0, 0, 0, none, false, false⟩
    if 4294967295 < size then
      ({ r with transfer := detached, recv := io.removed r.recv }, none)
    else if !io.patch || !io.sync || !io.seek then
      ({ r with transfer := detached, recv := io.removed (some io.torn) }, none)
    else
      let bytes := writeAt (r.recv.getD []) snapshotHeaderLenOffset (le32 size ++ le32 crc.toNat)
      ({ r with transfer := detached, recv := some bytes },
        some (bytes.drop snapshotHeaderSize, size))

/-- `drainPendingSnapshotInMemory`. -/
def Receiver.drain (r : Receiver N C) : Receiver N C × Bytes :=
  ({ r with transfer := { r.transfer with buffer := [], expected := 0, index := 0, term := 0 } },
    r.transfer.buffer)

/-! ## The handler -/

/-- What the first section of the handler decides: an answer, or an installer call with its reader
and its size. -/
inductive Outcome
  | reply (resp : InstallSnapshotResponse)
  | install (payload : Bytes) (size : Nat)

/-- `newTransfer`. -/
def Transfer.isNew (t : Transfer) (req : InstallSnapshotRequest N UInt8) : Bool :=
  req.offset == 0 || req.lastIncludedIndex != t.index || req.lastIncludedTerm != t.term

/-- The final chunk: the spill file is finished, or the buffer drained. -/
def Receiver.finish (cfg : Config N) (me : N) (io : SpillIo) (r : Receiver N C) :
    Receiver N C × Outcome :=
  if cfg.stateDir me then
    match r.finalize io with
    | (r, none) => (r, .reply ⟨r.node.currentTerm, false, 0⟩)
    | (r, some (payload, size)) => (r, .install payload size)
  else
    let (r, data) := r.drain
    (r, .install data data.length)

/-- From the offset check on. -/
def Receiver.accept (cfg : Config N) (me : N) (io : SpillIo) (r : Receiver N C)
    (req : InstallSnapshotRequest N UInt8) : Receiver N C × Outcome :=
  if req.offset ≠ r.transfer.expected then
    (r.release io, .reply ⟨r.node.currentTerm, false, 0⟩)
  else
    match r.append io req.data with
    | (r, false) => (r.release io, .reply ⟨r.node.currentTerm, false, 0⟩)
    | (r, true) =>
      if !req.done then (r, .reply ⟨r.node.currentTerm, true, r.transfer.expected⟩)
      else r.finish cfg me io

/-- The part of the first section that follows the checks on term, installer and index. -/
def Receiver.chunk (cfg : Config N) (me : N) (io : SpillIo) (r : Receiver N C)
    (req : InstallSnapshotRequest N UInt8) : Receiver N C × Outcome :=
  if r.transfer.isNew req then
    match r.begin cfg me io req.lastIncludedIndex req.lastIncludedTerm with
    | (r, false) => (r, .reply ⟨r.node.currentTerm, false, 0⟩)
    | (r, true) => r.accept cfg me io req
  else r.accept cfg me io req

/-- The first section of `handleInstallSnapshot`. -/
def Receiver.receive (cfg : Config N) (me : N) (now : Nat) (io : SpillIo) (r : Receiver N C)
    (req : InstallSnapshotRequest N UInt8) : Receiver N C × Outcome :=
  if req.term < r.node.currentTerm then (r, .reply ⟨r.node.currentTerm, false, 0⟩)
  else if !cfg.hasInstaller me then (r, .reply ⟨r.node.currentTerm, false, 0⟩)
  else
    let r := { r with node := r.node.hearLeader now req.term req.leaderID req.leaderAddress }
    if req.lastIncludedIndex ≤ r.node.snapshotIndex ∧ 0 < r.node.snapshotIndex then
      (r, .reply ⟨r.node.currentTerm, true, 0⟩)
    else r.chunk cfg me io req

/-! ## What the transfer stands for -/

/-- The bytes received so far. -/
def Receiver.data (r : Receiver N C) : Bytes :=
  if r.transfer.file then (r.recv.getD []).drop snapshotHeaderSize else r.transfer.buffer

/-- The node as the cluster model sees it. -/
def Receiver.view (r : Receiver N C) : Node N C UInt8 :=
  { r.node with pending := ⟨r.transfer.index, r.transfer.term, r.data⟩ }

/-- The outcomes of the file operations as the cluster model sees them. -/
def SpillIo.view (io : SpillIo) : ChunkIo :=
  ⟨io.mkdir && io.create && io.header, io.write, io.patch && io.sync && io.seek⟩

/-- The fields of a transfer fit together. -/
inductive Receiver.Fits (cfg : Config N) (me : N) (r : Receiver N C) : Prop
  /-- To disk: the file holds the open header and the bytes, the checksum is theirs. -/
  | disk (hdir : cfg.stateDir me = true) (data : Bytes)
      (hfile : r.transfer.file = true) (hbuffer : r.transfer.buffer = [])
      (hrecv : r.recv = some (openHeader r.transfer.index r.transfer.term ++ data))
      (hexpected : r.transfer.expected = data.length)
      (hcrc : r.transfer.crc = some (crc32c data))
  /-- To disk, with no file open: nothing was received. -/
  | closed (hdir : cfg.stateDir me = true) (hfile : r.transfer.file = false)
      (hbuffer : r.transfer.buffer = []) (hexpected : r.transfer.expected = 0)
  | memory (hdir : cfg.stateDir me = false) (hfile : r.transfer.file = false)
      (hexpected : r.transfer.expected = r.transfer.buffer.length)

variable {cfg : Config N} {me : N} {r : Receiver N C}

/-- Nothing is in flight, apart from the tuple. -/
theorem Receiver.Fits.empty (cfg : Config N) (me : N) (hfile : r.transfer.file = false)
    (hbuffer : r.transfer.buffer = []) (hexpected : r.transfer.expected = 0) :
    r.Fits cfg me ∧ r.data = [] := by
  refine ⟨?_, by rw [Receiver.data, hfile]; exact hbuffer⟩
  cases hdir : cfg.stateDir me with
  | true => exact .closed hdir hfile hbuffer hexpected
  | false => exact .memory hdir hfile (by rw [hexpected, hbuffer]; rfl)

/-- The counter is the number of bytes. -/
theorem Receiver.Fits.expected_eq (h : r.Fits cfg me) : r.transfer.expected = r.data.length := by
  unfold Receiver.data
  cases h with
  | disk hdir data hfile hbuffer hrecv hexpected hcrc =>
    rw [hexpected, hfile, hrecv]
    rfl
  | closed hdir hfile hbuffer hexpected => rw [hexpected, hfile, hbuffer]; rfl
  | memory hdir hfile hexpected => rw [hexpected, hfile]; rfl

theorem Receiver.begin_refines (r : Receiver N C) (cfg : Config N) (me : N) (io : SpillIo)
    (index term : Nat) :
    (r.begin cfg me io index term).1.Fits cfg me ∧
    (r.begin cfg me io index term).1.view = { r.view with pending := ⟨index, term, []⟩ } ∧
    (r.begin cfg me io index term).2 = cfg.diskOk me io.view.begin ∧
    ((r.begin cfg me io index term).2 = true → cfg.stateDir me = true →
      (r.begin cfg me io index term).1.transfer.file = true) := by
  unfold Receiver.begin Config.diskOk SpillIo.view
  cases hdir : cfg.stateDir me with
  | false =>
    refine ⟨?_, rfl, rfl, nofun⟩
    exact .memory hdir rfl rfl
  | true =>
    cases io.mkdir with
    | false => exact ⟨.closed hdir rfl rfl rfl, rfl, rfl, nofun⟩
    | true =>
      cases io.create with
      | false => exact ⟨.closed hdir rfl rfl rfl, rfl, rfl, nofun⟩
      | true =>
        cases io.header with
        | false => exact ⟨.closed hdir rfl rfl rfl, rfl, rfl, nofun⟩
        | true =>
          refine ⟨?_, rfl, rfl, fun _ _ => rfl⟩
          exact .disk hdir [] rfl rfl (congrArg some (append_nil _).symm) rfl
            (congrArg some crc32c_nil.symm)

/-- Appending to a transfer that is open. -/
theorem Receiver.append_refines (h : r.Fits cfg me) (io : SpillIo) (data : Bytes)
    (hopen : cfg.stateDir me = true → r.transfer.file = true) :
    (r.append io data).1.node = r.node ∧
    ((r.append io data).2 = true ↔ ¬(maxSnapshotSize < r.data.length + data.length ∨
      !cfg.diskOk me io.view.append)) ∧
    ((r.append io data).2 = true → (r.append io data).1.Fits cfg me ∧
      (r.append io data).1.view =
        { r.view with pending := ⟨r.transfer.index, r.transfer.term, r.data ++ data⟩ } ∧
      (r.append io data).1.transfer.file = r.transfer.file ∧
      (r.append io data).1.transfer.index = r.transfer.index ∧
      (r.append io data).1.transfer.term = r.transfer.term) := by
  have hexp := h.expected_eq
  unfold Receiver.append
  rw [hexp]
  by_cases hmax : maxSnapshotSize < r.data.length + data.length
  · rw [if_pos hmax]
    exact ⟨rfl, by simp [hmax], nofun⟩
  · rw [if_neg hmax]
    cases h with
    | closed hdir hfile => rw [hopen hdir] at hfile; cases hfile
    | memory hdir hfile hexpected =>
      have hdata : r.data = r.transfer.buffer := by rw [Receiver.data, hfile]; rfl
      simp only [hfile, Config.diskOk, hdir]
      refine ⟨rfl, by simp [hmax], fun _ => ⟨?_, ?_, rfl, rfl, rfl⟩⟩
      · refine .memory hdir rfl ?_
        show r.data.length + data.length = (r.transfer.buffer ++ data).length
        rw [hdata, length_append]
      · simp [Receiver.view, Receiver.data, hfile]
    | disk hdir received hfile hbuffer hrecv hexpected hcrc =>
      have hdata : r.data = received := by
        rw [Receiver.data, hfile, hrecv]
        rfl
      simp only [hfile, Config.diskOk, hdir, SpillIo.view]
      cases hw : io.write with
      | false => exact ⟨rfl, by simp, nofun⟩
      | true =>
        refine ⟨rfl, by simp [hmax], fun _ => ⟨?_, ?_, rfl, rfl, rfl⟩⟩
        · refine .disk hdir (received ++ data) rfl hbuffer ?_ ?_ ?_
          · show r.recv.map _ = _
            rw [hrecv]
            exact congrArg some (append_assoc _ _ _)
          · show r.data.length + data.length = _
            rw [hdata, length_append]
          · show r.transfer.crc.map _ = _
            rw [hcrc]
            exact congrArg some (crcUpdate_crc32c received data)
        · simp only [Receiver.view, Receiver.data, hfile, hrecv]
          rfl

/-- The spill file with length and checksum patched in is a snapshot file. -/
theorem writeAt_openHeader (index term : Nat) (data : Bytes) :
    writeAt (openHeader index term ++ data) snapshotHeaderLenOffset
      (le32 data.length ++ le32 (crc32c data).toNat) = fileOf ⟨index, term, data⟩ := by
  have htake : (openHeader index term ++ data).take snapshotHeaderLenOffset =
      headerStart index term := rfl
  have hdrop : (openHeader index term ++ data).drop (snapshotHeaderLenOffset + 8) = data := rfl
  show (openHeader index term ++ data).take snapshotHeaderLenOffset ++ _ ++
    (openHeader index term ++ data).drop (snapshotHeaderLenOffset + 8) = _
  rw [htake, hdrop]
  rfl

/-- **Finishing the spill file.**  It is the file of the snapshot, its data part is what was
received, and the transfer is over; or it fails, and the transfer is over. -/
theorem Receiver.finalize_spec {data : Bytes} (hfile : r.transfer.file = true)
    (hbuffer : r.transfer.buffer = [])
    (hrecv : r.recv = some (openHeader r.transfer.index r.transfer.term ++ data))
    (hexpected : r.transfer.expected = data.length) (hcrc : r.transfer.crc = some (crc32c data))
    (hmax : data.length ≤ maxSnapshotSize) (io : SpillIo) :
    (r.finalize io).1.node = r.node ∧ (r.finalize io).1.transfer = .none ∧
    ((r.finalize io).2 = none ∧ io.view.finalize = false ∨
      (r.finalize io).2 = some (data, data.length) ∧ io.view.finalize = true ∧
        (r.finalize io).1.recv = some (fileOf ⟨r.transfer.index, r.transfer.term, data⟩)) := by
  have hsmall : ¬4294967295 < data.length := by
    have : maxSnapshotSize < 4294967295 := by decide
    omega
  have hdetach : (⟨r.transfer.buffer, 0, 0, 0, none, false, false⟩ : Transfer) = .none := by
    rw [hbuffer]
    rfl
  unfold Receiver.finalize
  simp only [hfile, hexpected, hcrc, hrecv, hdetach, Option.getD_some, writeAt_openHeader,
    drop_fileOf, if_neg hsmall, SpillIo.view]
  cases io.patch <;> cases io.sync <;> cases io.seek <;> simp

/-! ## The handler implements the one of the cluster model -/

/-- `receiveChunk` of the cluster model from the offset check on, for a pending transfer. -/
def acceptPending (cfg : Config N) (me : N) (io : ChunkIo) (n : Node N C UInt8)
    (pending : PendingSnapshot UInt8) (req : InstallSnapshotRequest N UInt8) :
    Node N C UInt8 × ChunkResult UInt8 :=
  if req.offset ≠ pending.data.length then
    ({ n with pending := .none }, .reply ⟨n.currentTerm, false, 0⟩)
  else if maxSnapshotSize < pending.data.length + req.data.length ∨ !cfg.diskOk me io.append then
    ({ n with pending := .none }, .reply ⟨n.currentTerm, false, 0⟩)
  else if !req.done then
    ({ n with pending := ⟨pending.index, pending.term, pending.data ++ req.data⟩ },
      .reply ⟨n.currentTerm, true, (pending.data ++ req.data).length⟩)
  else if !cfg.diskOk me io.finalize then
    ({ n with pending := .none }, .reply ⟨n.currentTerm, false, 0⟩)
  else ({ n with pending := .none }, .install (pending.data ++ req.data))

theorem receiveChunk_eq (io : ChunkIo) (n : Node N C UInt8)
    (req : InstallSnapshotRequest N UInt8) :
    receiveChunk cfg me io n req =
      if n.newTransfer req && !cfg.diskOk me io.begin then
        ({ n with pending := ⟨req.lastIncludedIndex, req.lastIncludedTerm, []⟩ },
          .reply ⟨n.currentTerm, false, 0⟩)
      else acceptPending cfg me io n (n.transferFor req) req := rfl

/-- The same answer, or the same payload with its length. -/
inductive Outcome.Matches : Outcome → ChunkResult UInt8 → Prop
  | reply (resp : InstallSnapshotResponse) : Outcome.Matches (.reply resp) (.reply resp)
  | install (payload : Bytes) : Outcome.Matches (.install payload payload.length) (.install payload)

/-- A run of the handler against one of the cluster model's.  Whoever runs the installer has taken
the file over. -/
structure Refines (cfg : Config N) (me : N) (concrete : Receiver N C × Outcome)
    (abstract : Node N C UInt8 × ChunkResult UInt8) : Prop where
  fits : concrete.1.Fits cfg me
  view : concrete.1.view = abstract.1
  outcome : concrete.2.Matches abstract.2
  closed : ∀ payload size, concrete.2 = .install payload size → concrete.1.transfer.file = false

/-- An answer. -/
theorem Refines.reply {r' : Receiver N C} {n : Node N C UInt8}
    {resp resp' : InstallSnapshotResponse}
    (hfits : r'.Fits cfg me) (hview : r'.view = n) (hresp : resp = resp') :
    Refines cfg me (r', .reply resp) (n, .reply resp') := by
  subst hresp
  exact ⟨hfits, hview, .reply _, nofun⟩

/-- A transfer that is over. -/
theorem Refines.over {t : Receiver N C} (hnode : t.node = r.node) (hover : t.transfer = .none)
    {out : Outcome} {res : ChunkResult UInt8} (h : out.Matches res) :
    Refines cfg me (t, out) ({ r.view with pending := .none }, res) := by
  obtain ⟨hfits, hdata⟩ := Receiver.Fits.empty cfg me (r := t)
    (by rw [hover]; rfl) (by rw [hover]; rfl) (by rw [hover]; rfl)
  refine ⟨hfits, ?_, h, fun _ _ _ => by rw [hover]; rfl⟩
  show { t.node with pending := ⟨t.transfer.index, t.transfer.term, t.data⟩ } = _
  rw [hdata, hover, hnode]
  rfl

/-- A transfer of which all bytes are there. -/
theorem Receiver.finish_refines (h : r.Fits cfg me) (io : SpillIo)
    (hopen : cfg.stateDir me = true → r.transfer.file = true)
    (hmax : r.data.length ≤ maxSnapshotSize) :
    Refines cfg me (r.finish cfg me io)
      (if !cfg.diskOk me io.view.finalize then
        ({ r.view with pending := .none }, .reply ⟨r.view.currentTerm, false, 0⟩)
      else ({ r.view with pending := .none }, .install r.data)) := by
  cases h with
  | closed hdir hfile => rw [hopen hdir] at hfile; cases hfile
  | memory hdir hfile hexpected =>
    have hdata : r.data = r.transfer.buffer := by rw [Receiver.data, hfile]; rfl
    have hout : r.finish cfg me io =
        (r.drain.1, .install r.transfer.buffer r.transfer.buffer.length) := by
      unfold Receiver.finish
      rw [hdir]
      rfl
    obtain ⟨hfits, hempty⟩ := Receiver.Fits.empty cfg me (r := r.drain.1) hfile rfl rfl
    rw [hout, Config.diskOk, hdir, hdata]
    refine ⟨hfits, ?_, .install _, fun _ _ _ => hfile⟩
    show { r.node with pending := ⟨0, 0, r.drain.1.data⟩ } = _
    rw [hempty]
    rfl
  | disk hdir data hfile hbuffer hrecv hexpected hcrc =>
    have hdata : r.data = data := by
      rw [Receiver.data, hfile, hrecv]
      rfl
    rw [hdata] at hmax ⊢
    obtain ⟨hnode, hover, hres⟩ := finalize_spec hfile hbuffer hrecv hexpected hcrc hmax io
    unfold Receiver.finish
    rw [hdir, Config.diskOk, hdir]
    rcases hfin : r.finalize io with ⟨r', res⟩
    rw [hfin] at hnode hover hres
    obtain ⟨rfl, hio⟩ | ⟨rfl, hio, -⟩ := hres
    · rw [hio]
      refine .over hnode hover ?_
      rw [show r'.node = r.node from hnode]
      exact .reply _
    · rw [hio]
      exact .over hnode hover (.install data)

theorem Receiver.accept_refines (h : r.Fits cfg me) (io : SpillIo)
    (req : InstallSnapshotRequest N UInt8)
    (hopen : req.offset = r.transfer.expected → cfg.stateDir me = true → r.transfer.file = true) :
    Refines cfg me (r.accept cfg me io req)
      (acceptPending cfg me io.view r.view r.view.pending req) := by
  have hdata : r.view.pending.data = r.data := rfl
  unfold Receiver.accept acceptPending
  rw [hdata, ← h.expected_eq]
  by_cases hoff : req.offset = r.transfer.expected
  · rw [if_neg (not_not_intro hoff), if_neg (not_not_intro hoff)]
    obtain ⟨hnode, hok, hthen⟩ := r.append_refines h io req.data (hopen hoff)
    rw [← h.expected_eq] at hok
    rcases happ : r.append io req.data with ⟨r', ok⟩
    rw [happ] at hnode hok hthen
    cases ok with
    | false =>
      have hbad : maxSnapshotSize < r.transfer.expected + req.data.length ∨
          (!cfg.diskOk me io.view.append) = true := by
        by_contra hgood
        cases hok.2 hgood
      rw [if_pos hbad]
      refine .over (t := r'.release io) hnode rfl ?_
      rw [show r'.node = r.node from hnode]
      exact .reply _
    | true =>
      have hgood := hok.1 rfl
      obtain ⟨hfits, hview, hfile, hindex, hterm⟩ := hthen rfl
      have hbytes : r'.data = r.data ++ req.data := congrArg (fun x => x.pending.data) hview
      rw [if_neg hgood]
      cases hdone : req.done with
      | false =>
        refine .reply hfits hview ?_
        rw [show r'.node = r.node from hnode, hfits.expected_eq, hbytes]
        rfl
      | true =>
        have hmax : r'.data.length ≤ maxSnapshotSize := by
          rw [hbytes, length_append, ← h.expected_eq]
          exact Nat.not_lt.1 fun hlt => hgood (.inl hlt)
        have hfin := r'.finish_refines hfits io
          (fun hdir => hfile.trans (hopen hoff hdir)) hmax
        rw [hbytes] at hfin
        have hclear : { r'.view with pending := PendingSnapshot.none } =
            { r.view with pending := PendingSnapshot.none } := by
          rw [hview]
        have hcur : r'.view.currentTerm = r.view.currentTerm := by
          rw [hview]
        rw [hclear, hcur] at hfin
        exact hfin
  · rw [if_pos hoff, if_pos hoff]
    exact .over rfl rfl (.reply _)

theorem Receiver.chunk_refines (h : r.Fits cfg me) (io : SpillIo)
    (req : InstallSnapshotRequest N UInt8) :
    Refines cfg me (r.chunk cfg me io req) (receiveChunk cfg me io.view r.view req) := by
  have hnew : r.view.newTransfer req = r.transfer.isNew req := rfl
  rw [receiveChunk_eq, hnew]
  unfold Receiver.chunk
  cases hisNew : r.transfer.isNew req with
  | false =>
    have hfor : r.view.transferFor req = r.view.pending := by
      unfold Node.transferFor
      rw [hnew, hisNew]
      rfl
    rw [hfor]
    refine r.accept_refines h io req fun hoff hdir => ?_
    -- a chunk that continues a transfer has an offset, so that something was received
    cases h with
    | disk _ _ hfile => exact hfile
    | closed _ _ _ hexpected =>
      rw [hexpected] at hoff
      simp [Transfer.isNew, hoff] at hisNew
    | memory hno => rw [hno] at hdir; cases hdir
  | true =>
    have hfor : r.view.transferFor req = ⟨req.lastIncludedIndex, req.lastIncludedTerm, []⟩ := by
      unfold Node.transferFor
      rw [hnew, hisNew]
      rfl
    obtain ⟨hfits, hview, hok, hopen⟩ := r.begin_refines cfg me io req.lastIncludedIndex
      req.lastIncludedTerm
    rcases hbegin : r.begin cfg me io req.lastIncludedIndex req.lastIncludedTerm with ⟨r', ok⟩
    rw [hbegin] at hfits hview hok hopen
    rw [hfor, ← show ok = cfg.diskOk me io.view.begin from hok]
    have hcur : r'.node.currentTerm = r.view.currentTerm := by
      show r'.view.currentTerm = _
      rw [show r'.view = _ from hview]
    cases ok with
    | false =>
      refine .reply hfits hview ?_
      rw [hcur]
    | true =>
      have hacc := r'.accept_refines hfits io req fun _ hdir => hopen rfl hdir
      rw [show r'.view = _ from hview] at hacc
      exact hacc

/-- **The spill file implements the transfer of the cluster model.**  For every request and every
outcome of the file operations, the handler answers as the cluster model's does, or runs the
installer on the same bytes, and it leaves a transfer that stands for the same bytes. -/
theorem Receiver.receive_refines (h : r.Fits cfg me) (now : Nat) (io : SpillIo)
    (req : InstallSnapshotRequest N UInt8) :
    Refines cfg me (r.receive cfg me now io req)
      (handleInstallSnapshot cfg me now io.view r.view req) := by
  unfold Receiver.receive handleInstallSnapshot
  by_cases hterm : req.term < r.node.currentTerm
  · rw [if_pos hterm, if_pos (show req.term < r.view.currentTerm from hterm)]
    exact .reply h rfl rfl
  · rw [if_neg hterm, if_neg (show ¬req.term < r.view.currentTerm from hterm)]
    cases hinst : cfg.hasInstaller me with
    | false => exact .reply h rfl rfl
    | true =>
      have hfits : Receiver.Fits cfg me { r with
          node := r.node.hearLeader now req.term req.leaderID req.leaderAddress } := by
        cases h with
        | disk hdir data hfile hbuffer hrecv hexpected hcrc =>
          exact .disk hdir data hfile hbuffer hrecv hexpected hcrc
        | closed hdir hfile hbuffer hexpected => exact .closed hdir hfile hbuffer hexpected
        | memory hdir hfile hexpected => exact .memory hdir hfile hexpected
      have hsnap : (r.view.hearLeader now req.term req.leaderID req.leaderAddress).snapshotIndex =
          (r.node.hearLeader now req.term req.leaderID req.leaderAddress).snapshotIndex := rfl
      simp only [Bool.not_true, Bool.false_eq_true, if_false, hsnap]
      split_ifs
      · exact .reply hfits rfl rfl
      · exact Receiver.chunk_refines hfits io req

end MxKeys.Snap
