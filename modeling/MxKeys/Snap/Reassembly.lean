/-
# MxKeys.Snap.Reassembly — what reaches the installer is what was sent.

Chunks of several snapshots, from several leaders, reach a node in any order, some of them twice and
some never, and any of the file operations may fail.  `chunks_reassemble`: as long as every chunk is
a slice of the payload that belongs to its index and term, and `Done` marks the slices that end it,
every installer call gets the payload of its index and term, whole and with its length.
-/
import MxKeys.Raft.Cluster
import MxKeys.Snap.Spill

namespace MxKeys.Snap

open MxKeys.Lib MxKeys.Raft
open List

variable {N C : Type*}

/-! ## A node that is sent chunks -/

/-- A call of the installer: the tuple, what the reader yields, and the size it is given. -/
structure InstallerCall where
  index : Nat
  term : Nat
  payload : Bytes
  size : Nat
  deriving DecidableEq

/-- The receiver, and the installer calls so far. -/
structure Inbox (N C : Type*) where
  receiver : Receiver N C
  calls : List InstallerCall

/-- A chunk is handled, or the node changes in any other way.  Nothing but the handler touches the
transfer. -/
inductive Event (N C : Type*)
  | chunk (now : Nat) (io : SpillIo) (req : InstallSnapshotRequest N UInt8)
  | other (x : Node N C UInt8)

/-- One event.  `snapMu` is held from the last chunk to the end of the installation, so that the
installer reads the file as the handler left it; afterwards the file is renamed or removed. -/
def Inbox.step (cfg : Config N) (me : N) (s : Inbox N C) : Event N C → Option (Inbox N C)
  | .chunk now io req =>
    match s.receiver.receive cfg me now io req with
    | (r, .reply _) => some { s with receiver := r }
    | (r, .install payload size) =>
      some {
        receiver := { r with recv := io.removed r.recv }
        calls := ⟨req.lastIncludedIndex, req.lastIncludedTerm, payload, size⟩ :: s.calls }
  | .other x => some { s with receiver := { s.receiver with node := x } }

/-- No transfer is under way; a spill file may be left from an earlier life. -/
def Inbox.start (x : Node N C UInt8) (recv : Option Bytes) : Inbox N C :=
  ⟨⟨x, .none, recv⟩, []⟩

/-- The chunk is the slice at its offset of the payload of its tuple, and `Done` is set exactly if
the slice ends the payload. -/
structure SliceOf (payload : Nat → Nat → Bytes) (req : InstallSnapshotRequest N UInt8) : Prop where
  inside : req.offset + req.data.length ≤
    (payload req.lastIncludedIndex req.lastIncludedTerm).length
  slice : req.data =
    ((payload req.lastIncludedIndex req.lastIncludedTerm).drop req.offset).take req.data.length
  done : req.done = true ↔ req.offset + req.data.length =
    (payload req.lastIncludedIndex req.lastIncludedTerm).length

/-- Every chunk that is handled is a slice. -/
def Event.Slices (payload : Nat → Nat → Bytes) : Event N C → Prop
  | .chunk _ _ req => SliceOf payload req
  | .other _ => True

/-- The chunks of `SendInstallSnapshot` are slices of the payload of their snapshot. -/
theorem sliceOf_snapshotChunk (cfg : Config N) (self : N) {payload : Nat → Nat → Bytes}
    (snap : Snapshot UInt8) (term : Nat) {offset : Nat} (hoffset : offset ≤ snap.data.length)
    (hpayload : payload snap.lastIncludedIndex snap.lastIncludedTerm = snap.data) :
    SliceOf payload (snapshotChunk cfg self snap term offset) := by
  have hlen : (snapshotChunk cfg self snap term offset).data.length =
      min snapshotChunkSize (snap.data.length - offset) := by
    simp [snapshotChunk]
  have hD : payload (snapshotChunk cfg self snap term offset).lastIncludedIndex
      (snapshotChunk cfg self snap term offset).lastIncludedTerm = snap.data := hpayload
  have hoff : (snapshotChunk cfg self snap term offset).offset = offset := rfl
  have hpos : 0 < snapshotChunkSize := by decide
  refine ⟨?_, ?_, ?_⟩
  · rw [hD, hlen, hoff]
    omega
  · rw [hD, hlen, hoff]
    show (snap.data.drop offset).take snapshotChunkSize = _
    rcases le_total snapshotChunkSize (snap.data.length - offset) with h | h
    · rw [min_eq_left h]
    · rw [min_eq_right h, take_of_length_le (by simpa using h),
        take_of_length_le (by simp)]
  · rw [hD, hlen, hoff]
    show decide (snap.data.length ≤ offset + snapshotChunkSize) = true ↔ _
    rw [decide_eq_true_iff]
    omega

/-! ## The bytes received so far -/

variable {cfg : Config N} {me : N} {payload : Nat → Nat → Bytes}

/-- The bytes received so far begin the payload of the tuple they are received for. -/
def Gathered (payload : Nat → Nat → Bytes) (p : PendingSnapshot UInt8) : Prop :=
  p.data <+: payload p.index p.term

theorem gathered_nil (index term : Nat) : Gathered payload ⟨index, term, []⟩ := nil_prefix

/-- A slice at the offset that was reached goes on where the bytes end. -/
theorem append_slice {D got data : Bytes} (hgot : got <+: D)
    (hdata : data = (D.drop got.length).take data.length) :
    got ++ data = D.take (got.length + data.length) := by
  obtain ⟨rest, rfl⟩ := hgot
  rw [drop_left] at hdata
  rw [take_length_add_append, ← hdata]

variable {n : Node N C UInt8} {req : InstallSnapshotRequest N UInt8}

theorem acceptPending_gathered {io : ChunkIo} {p : PendingSnapshot UInt8} (hp : Gathered payload p)
    (hindex : p.index = req.lastIncludedIndex) (hterm : p.term = req.lastIncludedTerm)
    (hreq : SliceOf payload req) :
    Gathered payload (acceptPending cfg me io n p req).1.pending ∧
      ∀ data, (acceptPending cfg me io n p req).2 = .install data →
        data = payload req.lastIncludedIndex req.lastIncludedTerm ∧
          data.length ≤ maxSnapshotSize := by
  have hover : ∀ r, Gathered payload ({ n with pending := .none } : Node N C UInt8).pending ∧
      ∀ data, (.reply r : ChunkResult UInt8) = .install data →
        data = payload req.lastIncludedIndex req.lastIncludedTerm ∧
          data.length ≤ maxSnapshotSize :=
    fun r => ⟨gathered_nil 0 0, nofun⟩
  unfold acceptPending
  by_cases hoff : req.offset = p.data.length
  · rw [if_neg (not_not_intro hoff)]
    by_cases hbad : maxSnapshotSize < p.data.length + req.data.length ∨ !cfg.diskOk me io.append
    · rw [if_pos hbad]
      exact hover _
    · rw [if_neg hbad]
      unfold Gathered at hp
      rw [hindex, hterm] at hp
      have hslice := hreq.slice
      rw [hoff] at hslice
      have htake := append_slice hp hslice
      cases hdone : req.done with
      | false =>
        refine ⟨?_, nofun⟩
        show p.data ++ req.data <+: payload p.index p.term
        rw [hindex, hterm, htake]
        exact take_prefix _ _
      | true =>
        by_cases hfin : cfg.diskOk me io.finalize = true
        · -- the last slice: its end is the end of the payload
          have hend := hreq.done.1 hdone
          rw [hoff] at hend
          simp only [hfin, Bool.not_true, Bool.false_eq_true, if_false]
          refine ⟨gathered_nil 0 0, fun data h => ?_⟩
          obtain rfl : p.data ++ req.data = data := by injection h
          refine ⟨by rw [htake, hend, take_length], ?_⟩
          rw [length_append]
          exact not_lt.1 fun hlt => hbad (.inl hlt)
        · simp only [Bool.not_true, Bool.false_eq_true, if_false, hfin]
          exact hover _
  · rw [if_pos hoff]
    exact hover _

/-- **One chunk in the cluster model.** -/
theorem handleInstallSnapshot_gathered (cfg : Config N) (me : N) (now : Nat) (io : ChunkIo)
    (hp : Gathered payload n.pending) (hreq : SliceOf payload req) :
    Gathered payload (handleInstallSnapshot cfg me now io n req).1.pending ∧
      ∀ data, (handleInstallSnapshot cfg me now io n req).2 = .install data →
        data = payload req.lastIncludedIndex req.lastIncludedTerm ∧
          data.length ≤ maxSnapshotSize := by
  unfold handleInstallSnapshot
  dsimp only
  split_ifs
  · exact ⟨hp, nofun⟩
  · exact ⟨hp, nofun⟩
  · exact ⟨hp, nofun⟩
  · rw [receiveChunk_eq]
    split_ifs with hbegin
    · exact ⟨gathered_nil _ _, nofun⟩
    · -- the transfer that the chunk belongs to has the chunk's tuple
      unfold Node.transferFor
      by_cases hnew :
          (n.hearLeader now req.term req.leaderID req.leaderAddress).newTransfer req = true
      · rw [if_pos hnew]
        exact acceptPending_gathered (gathered_nil _ _) rfl rfl hreq
      · rw [if_neg hnew]
        have hsame : req.lastIncludedIndex = n.pending.index ∧
            req.lastIncludedTerm = n.pending.term := by
          simp only [Node.newTransfer, Node.hearLeader, Bool.or_eq_true, bne_iff_ne, ne_eq,
            not_or, not_not] at hnew
          exact ⟨hnew.1.2, hnew.2⟩
        exact acceptPending_gathered hp hsame.1.symm hsame.2.symm hreq

/-! ## Every sequence of deliveries -/

/-- The call got the payload of its tuple. -/
def InstallerCall.Exact (payload : Nat → Nat → Bytes) (c : InstallerCall) : Prop :=
  c.payload = payload c.index c.term ∧ c.size = (payload c.index c.term).length ∧
    (payload c.index c.term).length ≤ maxSnapshotSize

/-- The invariant of the inbox. -/
structure InboxInv (cfg : Config N) (me : N) (payload : Nat → Nat → Bytes) (s : Inbox N C) :
    Prop where
  fits : s.receiver.Fits cfg me
  gathered : Gathered payload s.receiver.view.pending
  exact : ∀ c ∈ s.calls, c.Exact payload

/-- Neither the spill file of a finished transfer nor the rest of the node matters. -/
theorem Receiver.Fits.of_transfer {r r' : Receiver N C} (h : r.Fits cfg me)
    (htransfer : r'.transfer = r.transfer)
    (hrecv : r.transfer.file = true → r'.recv = r.recv) : r'.Fits cfg me := by
  cases h with
  | disk hdir data hfile hbuffer hr hexpected hcrc =>
    refine .disk hdir data ?_ ?_ ?_ ?_ ?_ <;> rw [htransfer]
    · exact hfile
    · exact hbuffer
    · rw [hrecv hfile]
      exact hr
    · exact hexpected
    · exact hcrc
  | closed hdir hfile hbuffer hexpected =>
    refine .closed hdir ?_ ?_ ?_ <;> rw [htransfer]
    · exact hfile
    · exact hbuffer
    · exact hexpected
  | memory hdir hfile hexpected =>
    refine .memory hdir ?_ ?_ <;> rw [htransfer]
    · exact hfile
    · exact hexpected

/-- **One event.** -/
theorem InboxInv.step {s s' : Inbox N C} (h : InboxInv cfg me payload s) {a : Event N C}
    (ha : a.Slices payload) (hs : s.step cfg me a = some s') : InboxInv cfg me payload s' := by
  cases a with
  | other x =>
    cases hs
    exact ⟨h.fits.of_transfer rfl fun _ => rfl, h.gathered, h.exact⟩
  | chunk now io req =>
    have href := Receiver.receive_refines h.fits now io req
    obtain ⟨hgathered, hinstall⟩ := handleInstallSnapshot_gathered cfg me now io.view
      h.gathered ha
    simp only [Inbox.step] at hs
    rcases hr : s.receiver.receive cfg me now io req with ⟨r, out⟩
    rcases hn : handleInstallSnapshot cfg me now io.view s.receiver.view req with ⟨n, res⟩
    rw [hr, hn] at href
    rw [hn] at hgathered hinstall
    rw [hr] at hs
    rw [← show r.view = n from href.view] at hgathered
    cases href.outcome with
    | reply resp =>
      cases hs
      exact ⟨href.fits, hgathered, h.exact⟩
    | install data =>
      cases hs
      have hclosed : r.transfer.file = false := href.closed _ _ rfl
      obtain ⟨hwhole, hmax⟩ := hinstall data rfl
      refine ⟨href.fits.of_transfer rfl fun hopen => ?_, ?_, fun c hc => ?_⟩
      · rw [show r.transfer.file = false from hclosed] at hopen
        cases hopen
      · have hdata : Receiver.data { r with recv := io.removed r.recv } = r.data := by
          simp only [Receiver.data, hclosed]
          rfl
        show Receiver.data _ <+: payload r.transfer.index r.transfer.term
        rw [hdata]
        exact hgathered
      · rcases mem_cons.1 hc with rfl | hc
        · exact ⟨hwhole, congrArg List.length hwhole, hwhole ▸ hmax⟩
        · exact h.exact c hc

/-- **Chunks reassemble exactly.**  Whatever is lost, repeated, reordered or mixed, and whatever the
file operations do, every installer call gets the payload of its tuple and its length, and the
payload is within the limit. -/
theorem chunks_reassemble {x : Node N C UInt8} {recv : Option Bytes} {s : Inbox N C}
    (hs : Reach (Inbox.step cfg me) (fun _ a => a.Slices payload) (Inbox.start x recv) s)
    {c : InstallerCall} (hc : c ∈ s.calls) :
    c.payload = payload c.index c.term ∧ c.size = (payload c.index c.term).length ∧
      (payload c.index c.term).length ≤ maxSnapshotSize := by
  have hstart : InboxInv cfg me payload (Inbox.start x recv) :=
    ⟨(Receiver.Fits.empty cfg me rfl rfl rfl).1, gathered_nil 0 0, fun _ h => absurd h not_mem_nil⟩
  have hinv : InboxInv cfg me payload s :=
    hs.invariant (P := InboxInv cfg me payload) hstart fun _ _ _ hi ha hu => hi.step ha hu
  exact hinv.exact c hc

/-- A chunk of the snapshot `(index, 1)` from a leader of term `1`. -/
def chunkOf (leader : N) (index offset : Nat) (done : Bool) (data : Bytes) :
    InstallSnapshotRequest N UInt8 :=
  ⟨1, leader, some leader, index, 1, offset, done, data⟩

/-- Two snapshots are sent in turns; the first chunk of each new turn begins its transfer again. -/
def mixedSchedule (leader : N) : List (Event N Nat) :=
  [.chunk 0 .ok (chunkOf leader 5 0 false [1, 2]), .chunk 0 .ok (chunkOf leader 7 0 false [9]),
    .chunk 0 .ok (chunkOf leader 5 2 true [3]), .chunk 0 .ok (chunkOf leader 5 0 false [1, 2]),
    .chunk 0 .ok (chunkOf leader 5 2 true [3])]

/-- The payloads of the two snapshots. -/
def mixedPayload (index _term : Nat) : Bytes := if index = 7 then [9, 9] else [1, 2, 3]

theorem chunks_reassemble_mixed :
    ∃ s : Inbox (Fin 3) Nat,
      Reach (Inbox.step (.complete 3 1) 0) (fun _ a => a.Slices mixedPayload)
        (Inbox.start (newNode 0) none) s ∧
      ∃ c ∈ s.calls, c.index = 5 ∧ c.payload = mixedPayload c.index c.term ∧
        c.size = (mixedPayload c.index c.term).length := by
  have hrun : (execute (Inbox.step (.complete 3 1) 0) (fun _ _ => true)
      (Inbox.start (newNode 0) none : Inbox (Fin 3) Nat) (mixedSchedule 1)).map Inbox.calls =
      some [⟨5, 1, [1, 2, 3], 3⟩] := by
    decide +kernel
  have hslices : ∀ a ∈ mixedSchedule (1 : Fin 3), a.Slices mixedPayload := by
    have hslice : ∀ index offset done data,
        offset + data.length ≤ (mixedPayload index 1).length ∧
          data = ((mixedPayload index 1).drop offset).take data.length ∧
          (done = true ↔ offset + data.length = (mixedPayload index 1).length) →
        SliceOf mixedPayload (chunkOf (1 : Fin 3) index offset done data) :=
      fun _ _ _ _ h => ⟨h.1, h.2.1, h.2.2⟩
    simp only [mixedSchedule, forall_mem_cons]
    exact ⟨hslice _ _ _ _ (by decide), hslice _ _ _ _ (by decide), hslice _ _ _ _ (by decide),
      hslice _ _ _ _ (by decide), hslice _ _ _ _ (by decide), fun _ h => absurd h not_mem_nil⟩
  obtain ⟨s, hs, hcalls⟩ := reach_observe hslices (fun _ _ h _ => h) hrun
  have hc : (⟨5, 1, [1, 2, 3], 3⟩ : InstallerCall) ∈ s.calls := by
    rw [hcalls]
    exact mem_singleton_self _
  obtain ⟨hpayload, hsize, _⟩ := chunks_reassemble hs hc
  exact ⟨s, hs, _, hc, rfl, hpayload, hsize⟩

end MxKeys.Snap
