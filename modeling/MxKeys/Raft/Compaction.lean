/-
# MxKeys.Raft.Compaction — compaction cannot be seen from outside.

`CompactLog` drops the entries up to the index `a` the provider reported and serves the boundary
from `snapshotTerm`.  `Node.Compacted a x y` relates a node `x` with its full window to the node `y`
that has dropped it: the two share every field but the window, the boundary and the files, and the
entry that `x` still has at `a` is the one `y` remembers the term of.

Every accessor agrees on related nodes above the boundary, and every handler takes related nodes to
related nodes with the same reply, as long as an `AppendEntries` request starts at the boundary or
above it (`Node.Compacted.serve`).  So no sequence of such requests can tell the two nodes apart.
-/
import MxKeys.Raft.Solo

namespace MxKeys.Raft

open List

variable {N C B : Type*} {x y : Node N C B} {a i : Nat}

/-! ## `CompactLog` -/

/-- Why `CompactLog` failed. -/
inductive CompactError
  /-- "raft: compaction requires state dir and snapshot provider" -/
  | notConfigured
  /-- "raft: snapshot provider" -/
  | provider
  /-- "raft: nothing to compact" -/
  | nothingToCompact
  /-- "raft: provider index %d not above current snapshotIndex %d" -/
  | notAbove (appliedIdx snapshotIndex : Nat)
  /-- "raft: provider index %d above commitIndex %d" -/
  | aboveCommit (appliedIdx commitIndex : Nat)
  /-- "raft: provider index %d outside log view [offset=%d, len=%d]" -/
  | outsideView (appliedIdx logOffset logLen : Nat)
  /-- The error of `SaveSnapshot`. -/
  | save
  /-- "raft: compact wal" -/
  | wal
  deriving DecidableEq

/-- The snapshot provider of a node: absent, failing, or answering with a payload and its index. -/
inductive Provider (B : Type*)
  | absent
  | fails
  | answers (data : List B) (appliedIdx : Nat)

/-- Outcomes of the disk writes of one `CompactLog`: `SaveSnapshot` and `wal.TruncateBefore`. -/
structure CompactIo where
  save : Bool
  wal : Bool

/-- `CompactLog` with nothing running in between: the node afterwards and the error. -/
def compactLog (cfg : Config N) (self : N) (provider : Provider B) (io : CompactIo)
    (n : Node N C B) : Node N C B × Option CompactError :=
  if !cfg.stateDir self then (n, some .notConfigured)
  else
    match provider with
    | .absent => (n, some .notConfigured)
    | .fails => (n, some .provider)
    | .answers data appliedIdx =>
      if appliedIdx = 0 then (n, some .nothingToCompact)
      else if appliedIdx ≤ n.snapshotIndex then
        (n, some (.notAbove appliedIdx n.snapshotIndex))
      else if n.commitIndex < appliedIdx then
        (n, some (.aboveCommit appliedIdx n.commitIndex))
      else
        match n.termAt appliedIdx with
        | none => (n, some (.outsideView appliedIdx n.logOffset n.log.length))
        | some lastTerm =>
          if !io.save then (n, some .save)
          else
            let n := n.setSnapshotFile (some ⟨appliedIdx, lastTerm, data⟩)
            let n := compactFinish n appliedIdx lastTerm
            if io.wal then (n.walTruncateBefore (appliedIdx + 1), none) else (n, some .wal)

/-! ## A node and its compacted version -/

/-- Drop the window up to `a`, whose entry has term `term`; the files hold whatever they hold. -/
def Node.dropTo (x : Node N C B) (a term : Nat) (wal : List (LogEntry C))
    (file : Option (Snapshot B)) : Node N C B :=
  { x with
    log := x.log.drop (a - x.logOffset)
    logOffset := a
    snapshotIndex := a
    snapshotTerm := term
    wal := wal
    snapshotFile := file }

/-- `y` is `x` after a compaction at `a`. -/
structure Node.Compacted (a : Nat) (x y : Node N C B) : Prop where
  above : x.snapshotIndex < a
  /-- The entry at `a`, which `y` remembers the term of only. -/
  last : ∃ e, x.entryAt a = some e ∧ e.index = a ∧ e.term = y.snapshotTerm
  eq : y = x.dropTo a y.snapshotTerm y.wal y.snapshotFile

namespace Node.Compacted

variable (h : Compacted a x y)
include h

/-- A field that compaction does not touch. -/
theorem field {α : Type*} (f : Node N C B → α)
    (hf : ∀ term wal file, f (x.dropTo a term wal file) = f x) : f y = f x := by
  rw [h.eq, hf]

theorem offset : y.logOffset = a := by
  rw [h.eq]
  rfl

theorem log : y.log = x.log.drop (a - x.logOffset) := by
  rw [h.eq]
  rfl

theorem window : x.logOffset < a ∧ a ≤ x.logOffset + x.log.length := by
  obtain ⟨e, he, _⟩ := h.last
  obtain ⟨hlt, hle, _⟩ := entryAt_some he
  exact ⟨hlt, hle⟩

theorem logLen : y.logLen = x.logLen := by
  have := h.window
  unfold Node.logLen
  rw [h.offset, h.log, length_drop]
  omega

theorem entryAt (hi : a < i) : y.entryAt i = x.entryAt i := by
  have := h.window
  rw [entryAt_of_lt (h.offset ▸ hi), entryAt_of_lt (by omega), h.log, h.offset,
    getElem?_drop]
  congr 1
  omega

/-- At the boundary the snapshot's term stands in for the entry's. -/
theorem termAt (hi : a ≤ i) : y.termAt i = x.termAt i := by
  have hpos : i ≠ 0 := by
    have := h.window
    omega
  have hx : x.termAt i = (x.entryAt i).map LogEntry.term := by
    have := h.above
    rw [Node.termAt, if_neg hpos, if_neg (by omega)]
  have hsnap : y.snapshotIndex = a := by
    rw [h.eq]
    rfl
  rw [Node.termAt, if_neg hpos, hsnap, hx]
  rcases eq_or_lt_of_le hi with rfl | hlt
  · obtain ⟨e, he, _, hterm⟩ := h.last
    rw [if_pos rfl, he, ← hterm]
    rfl
  · rw [if_neg (by omega), h.entryAt hlt]

theorem lastLogIndexTerm : y.lastLogIndexTerm = x.lastLogIndexTerm := by
  obtain ⟨e, he, hidx, hterm⟩ := h.last
  obtain ⟨hlt, hle⟩ := h.window
  unfold Node.lastLogIndexTerm
  rw [h.log, getLast?_drop]
  split_ifs with hall
  · -- nothing lies above the boundary, so the last entry is the one at `a`
    have hlast : x.log.getLast? = some e := by
      rw [entryAt_of_lt hlt] at he
      rw [getLast?_eq_getElem?, ← he]
      congr 1
      omega
    rw [hlast, h.eq]
    show (a, y.snapshotTerm) = (e.index, e.term)
    rw [hidx, hterm]
  · cases hlast : x.log.getLast? with
    | none =>
      rw [getLast?_eq_none_iff.1 hlast] at hall
      exact absurd (Nat.zero_le _) hall
    | some last => rfl

/-- The window changes above the boundary only. -/
theorem setLog {l : List (LogEntry C)}
    (hl : l.take (a - x.logOffset) = x.log.take (a - x.logOffset)) (w w' : List (LogEntry C)) :
    Compacted a ((x.setLog l).setWal w)
      ((y.setLog (l.drop (a - x.logOffset))).setWal w') := by
  obtain ⟨e, he, hidx, hterm⟩ := h.last
  obtain ⟨hlt, _⟩ := h.window
  refine ⟨h.above, ⟨e, ?_, hidx, hterm⟩, ?_⟩
  · rw [entryAt_of_lt hlt] at he
    rw [entryAt_of_lt (by exact hlt)]
    have hpos : a - x.logOffset - 1 < a - x.logOffset := by omega
    calc l[a - x.logOffset - 1]?
        = (l.take (a - x.logOffset))[a - x.logOffset - 1]? := (getElem?_take_of_lt hpos).symm
      _ = (x.log.take (a - x.logOffset))[a - x.logOffset - 1]? := by rw [hl]
      _ = x.log[a - x.logOffset - 1]? := getElem?_take_of_lt hpos
      _ = some e := he
  · conv_lhs => rw [h.eq]
    rfl

/-- What touches neither the window nor the boundary acts in the same way on both nodes. -/
theorem map (f : Node N C B → Node N C B) (hkeep : (f x).logPart = x.logPart)
    (hcomm : ∀ term wal file, f (x.dropTo a term wal file) = (f x).dropTo a term wal file) :
    Compacted a (f x) (f y) := by
  obtain ⟨hlog, hrest⟩ := Prod.mk.inj hkeep
  obtain ⟨hoff, hrest⟩ := Prod.mk.inj hrest
  have hsnap : (f x).snapshotIndex = x.snapshotIndex := (Prod.mk.inj hrest).1
  obtain ⟨e, he, hidx, hterm⟩ := h.last
  have hy : f y = (f x).dropTo a y.snapshotTerm y.wal y.snapshotFile := by
    conv_lhs => rw [h.eq]
    exact hcomm _ _ _
  refine ⟨hsnap ▸ h.above, ⟨e, ?_, hidx, ?_⟩, ?_⟩
  · rw [Node.entryAt, Node.sliceIndex, hlog, hoff]
    exact he
  · rw [hy]
    exact hterm
  · rw [hy]
    rfl

/-! ## Votes -/

theorem currentTerm : y.currentTerm = x.currentTerm :=
  h.field Node.currentTerm fun _ _ _ => rfl

theorem votedFor : y.votedFor = x.votedFor :=
  h.field Node.votedFor fun _ _ _ => rfl

theorem commitIndex : y.commitIndex = x.commitIndex :=
  h.field Node.commitIndex fun _ _ _ => rfl

theorem isLogUpToDate (lastLogIndex lastLogTerm : Nat) :
    y.isLogUpToDate lastLogIndex lastLogTerm = x.isLogUpToDate lastLogIndex lastLogTerm := by
  unfold Node.isLogUpToDate
  rw [h.lastLogIndexTerm]

theorem observeTerm (term : Nat) : Compacted a (x.observeTerm term) (y.observeTerm term) := by
  refine h.map (fun n => n.observeTerm term) (logPart_observeTerm x term) fun _ _ _ => ?_
  show (if x.currentTerm < term then _ else _) = Node.dropTo (if x.currentTerm < term then _ else _)
    _ _ _ _
  split_ifs <;> rfl

theorem handlePreVote (electionTimeout now : Nat) (req : RequestVoteRequest N) :
    handlePreVote electionTimeout now y req = handlePreVote electionTimeout now x req := by
  unfold Raft.handlePreVote
  rw [h.currentTerm, h.isLogUpToDate, h.field Node.lastContact fun _ _ _ => rfl,
    h.field Node.leaderId fun _ _ _ => rfl]

theorem handleRequestVote [DecidableEq N] (now : Nat) (req : RequestVoteRequest N) :
    (handleRequestVote now y req).2 = (handleRequestVote now x req).2 ∧
      Compacted a (handleRequestVote now x req).1 (handleRequestVote now y req).1 := by
  unfold Raft.handleRequestVote
  rw [h.currentTerm]
  split_ifs with hstale
  · exact ⟨rfl, h⟩
  · have h' := h.observeTerm req.term
    dsimp only
    rw [h'.votedFor, h'.isLogUpToDate]
    split_ifs with hgrant
    · exact ⟨congrArg (RequestVoteResponse.mk · true) h'.currentTerm,
        h'.map (fun n => { n with votedFor := some req.candidateId, lastContact := now })
          rfl fun _ _ _ => rfl⟩
    · exact ⟨congrArg (RequestVoteResponse.mk · false) h'.currentTerm, h'⟩

/-! ## Appending entries -/

theorem prevMatches {prev : Nat} (hprev : a ≤ prev) (term : Nat) :
    y.prevMatches prev term = x.prevMatches prev term := by
  unfold Node.prevMatches
  rw [h.termAt hprev]

theorem appendEntry (entry : LogEntry C) (ok : Bool) :
    (y.appendEntry entry ok).2 = (x.appendEntry entry ok).2 ∧
      Compacted a (x.appendEntry entry ok).1 (y.appendEntry entry ok).1 := by
  cases ok with
  | false => exact ⟨rfl, h⟩
  | true =>
    have hle : a - x.logOffset ≤ x.log.length := by
      have := h.window
      omega
    have hset := h.setLog (l := x.log ++ [entry]) (take_append_of_le_length hle)
      (x.wal ++ [entry]) (y.wal ++ [entry])
    rw [drop_append_of_le_length hle, ← h.log] at hset
    exact ⟨rfl, hset⟩

/-- A conflict above the boundary cuts both windows at the same index. -/
theorem truncateAfter {idx : Nat} (hidx : a < idx) (hle : idx ≤ x.logLen)
    (w w' : List (LogEntry C)) : Compacted a ((x.truncateSliceAfter (idx - 1)).setWal w)
      ((y.truncateSliceAfter (idx - 1)).setWal w') := by
  obtain ⟨hlt, _⟩ := h.window
  rw [truncateSliceAfter_eq (by omega) hle,
    truncateSliceAfter_eq (h.offset ▸ hidx) (h.logLen ▸ hle)]
  have hcut : y.log.take (idx - y.logOffset - 1) =
      (x.log.take (idx - x.logOffset - 1)).drop (a - x.logOffset) := by
    rw [drop_take, h.log, h.offset]
    congr 1
    omega
  rw [hcut]
  refine h.setLog ?_ w w'
  rw [take_take]
  congr 1
  omega

/-- One entry of a request, above the boundary. -/
theorem takeEntry {idx : Nat} (hidx : a < idx) (entry : LogEntry C) (t p : Bool) :
    (y.takeEntry idx entry t p).2 = (x.takeEntry idx entry t p).2 ∧
      Compacted a (x.takeEntry idx entry t p).1 (y.takeEntry idx entry t p).1 := by
  unfold Node.takeEntry
  rw [h.entryAt hidx, h.logLen]
  cases he : x.entryAt idx with
  | none =>
    dsimp only
    split_ifs
    · exact h.appendEntry entry p
    · exact ⟨rfl, h⟩
  | some existing =>
    have hle : idx ≤ x.logLen := (entryAt_some he).2.1
    dsimp only
    split_ifs with hconflict ht
    · exact (h.truncateAfter hidx hle _ _).appendEntry entry p
    · exact ⟨rfl, h.truncateAfter hidx hle _ _⟩
    · exact ⟨rfl, h⟩

omit h in
/-- The loop over the entries of a request; the invariant is the relation itself. -/
theorem takeEntries (entries : List (LogEntry C)) {prev : Nat} (hprev : a ≤ prev)
    (t p : Nat → Bool) : ∀ (x y : Node N C B) (i : Nat), Compacted a x y →
      (y.takeEntries prev i t p entries).2 = (x.takeEntries prev i t p entries).2 ∧
        Compacted a (x.takeEntries prev i t p entries).1 (y.takeEntries prev i t p entries).1 := by
  induction entries with
  | nil => exact fun x y i h => ⟨rfl, h⟩
  | cons entry rest ih =>
    intro x y i h
    obtain ⟨hgo, hone⟩ := h.takeEntry (show a < prev + i + 1 by omega) entry (t i) (p i)
    unfold Node.takeEntries
    generalize x.takeEntry (prev + i + 1) entry (t i) (p i) = rx at hgo hone ⊢
    generalize y.takeEntry (prev + i + 1) entry (t i) (p i) = ry at hgo hone ⊢
    obtain ⟨x', go⟩ := rx
    obtain ⟨y', go'⟩ := ry
    obtain rfl : go' = go := hgo
    cases go' with
    | false => exact ⟨rfl, hone⟩
    | true => exact ih x' y' (i + 1) hone

theorem hearLeader (now term : Nat) (leader : N) (address : Option N) :
    Compacted a (x.hearLeader now term leader address) (y.hearLeader now term leader address) :=
  h.map (fun n => n.hearLeader now term leader address) rfl fun _ _ _ => rfl

theorem followCommit (leaderCommit lastNew : Nat) :
    Compacted a (x.followCommit leaderCommit lastNew) (y.followCommit leaderCommit lastNew) := by
  obtain ⟨c, hc, _⟩ := followCommit_eq x leaderCommit lastNew
  refine h.map (fun n => n.followCommit leaderCommit lastNew) ?_ fun _ _ _ => ?_
  · show (x.followCommit leaderCommit lastNew).logPart = x.logPart
    rw [hc]
    rfl
  · show (if x.commitIndex < leaderCommit then _ else _) =
      Node.dropTo (if x.commitIndex < leaderCommit then _ else _) _ _ _ _
    split_ifs <;> rfl

theorem handleAppendEntries (cfg : Config N) (self : N) (now : Nat)
    (io : AppendIo) (req : AppendEntriesRequest N C) (hprev : a ≤ req.prevLogIndex) :
    (handleAppendEntries cfg self now io y req).2 =
        (handleAppendEntries cfg self now io x req).2 ∧
      Compacted a (handleAppendEntries cfg self now io x req).1
        (handleAppendEntries cfg self now io y req).1 := by
  unfold Raft.handleAppendEntries
  rw [h.currentTerm]
  split_ifs with hstale
  · exact ⟨rfl, h⟩
  · have h' := h.hearLeader now req.term req.leaderId req.leaderAddress
    dsimp only
    rw [h'.prevMatches hprev]
    split_ifs with hmiss
    · exact ⟨rfl, h'⟩
    · obtain ⟨hgo, htaken⟩ := takeEntries req.entries hprev
        (fun i => cfg.diskOk self (io.truncate i))
        (fun i => cfg.diskOk self (io.persist i)) _ _ 0 h'
      generalize (x.hearLeader now req.term req.leaderId req.leaderAddress).takeEntries _ _ _ _ _ =
        rx at hgo htaken ⊢
      generalize (y.hearLeader now req.term req.leaderId req.leaderAddress).takeEntries _ _ _ _ _ =
        ry at hgo htaken ⊢
      obtain ⟨x', go⟩ := rx
      obtain ⟨y', go'⟩ := ry
      obtain rfl : go' = go := hgo
      cases go' with
      | false => exact ⟨rfl, htaken⟩
      | true =>
        have hend := htaken.followCommit req.leaderCommit
          (req.prevLogIndex + req.entries.length)
        exact ⟨congrArg (AppendEntriesResponse.mk · true) hend.currentTerm, hend⟩

end Node.Compacted

/-! ## What the outside sees -/

/-- A request, with the clock and the disk it meets. -/
inductive Rpc (N C : Type*)
  | preVote (now : Nat) (req : RequestVoteRequest N)
  | requestVote (now : Nat) (req : RequestVoteRequest N)
  | appendEntries (now : Nat) (io : AppendIo) (req : AppendEntriesRequest N C)

/-- The answer to a request. -/
inductive Reply
  | vote (r : RequestVoteResponse)
  | append (r : AppendEntriesResponse)

/-- The handler of a request. -/
def serve [DecidableEq N] (cfg : Config N) (self : N) (n : Node N C B) :
    Rpc N C → Node N C B × Reply
  | .preVote now req => (n, .vote (handlePreVote cfg.electionTimeout now n req))
  | .requestVote now req =>
    ((handleRequestVote now n req).1, .vote (handleRequestVote now n req).2)
  | .appendEntries now io req =>
    ((handleAppendEntries cfg self now io n req).1,
      .append (handleAppendEntries cfg self now io n req).2)

/-- An `AppendEntries` request starts at the boundary or above it. -/
def Rpc.From (a : Nat) : Rpc N C → Prop
  | .appendEntries _ _ req => a ≤ req.prevLogIndex
  | _ => True

/-- **One request**: the same answer, and the nodes stay related. -/
theorem Node.Compacted.serve [DecidableEq N] (h : Node.Compacted a x y) (cfg : Config N) (self : N)
    {rpc : Rpc N C} (hrpc : rpc.From a) :
    (serve cfg self y rpc).2 = (serve cfg self x rpc).2 ∧
      Node.Compacted a (serve cfg self x rpc).1 (serve cfg self y rpc).1 := by
  cases rpc with
  | preVote now req => exact ⟨congrArg Reply.vote (h.handlePreVote _ now req), h⟩
  | requestVote now req =>
    obtain ⟨hreply, h'⟩ := h.handleRequestVote now req
    exact ⟨congrArg Reply.vote hreply, h'⟩
  | appendEntries now io req =>
    obtain ⟨hreply, h'⟩ := h.handleAppendEntries cfg self now io req hrpc
    exact ⟨congrArg Reply.append hreply, h'⟩

/-- What a compaction at `a` must leave alone: terms, votes, the commit index and the log above. -/
structure SameAbove (a : Nat) (x y : Node N C B) : Prop where
  currentTerm : y.currentTerm = x.currentTerm
  votedFor : y.votedFor = x.votedFor
  commitIndex : y.commitIndex = x.commitIndex
  logLen : y.logLen = x.logLen
  lastLogIndexTerm : y.lastLogIndexTerm = x.lastLogIndexTerm
  termAt : ∀ i, a ≤ i → y.termAt i = x.termAt i
  entryAt : ∀ i, a < i → y.entryAt i = x.entryAt i

theorem SameAbove.refl (a : Nat) (x : Node N C B) : SameAbove a x x :=
  ⟨rfl, rfl, rfl, rfl, rfl, fun _ _ => rfl, fun _ _ => rfl⟩

theorem Node.Compacted.sameAbove (h : Node.Compacted a x y) : SameAbove a x y :=
  ⟨h.currentTerm, h.votedFor, h.commitIndex, h.logLen, h.lastLogIndexTerm, fun _ => h.termAt,
    fun _ => h.entryAt⟩

/-- With a state directory and a snapshot that could be saved, `CompactLog` drops the window up to
the provider's index; otherwise it leaves the node alone. -/
theorem compactLog_compacted (cfg : Config N) (self : N) (hx : x.LaidOut)
    (hlt : x.snapshotIndex < a) (hcommit : a ≤ x.commitIndex) (hlen : a ≤ x.logLen)
    (data : List B) (io : CompactIo) :
    if cfg.stateDir self && io.save then
      Node.Compacted a x (compactLog cfg self (.answers data a) io x).1
    else (compactLog cfg self (.answers data a) io x).1 = x := by
  have hoff : x.logOffset < a := by
    rw [hx.boundary]
    exact hlt
  -- the entry at `a`, which the provider's index refers to
  obtain ⟨e, he⟩ : ∃ e, x.log[a - x.logOffset - 1]? = some e := by
    have hpos : a - x.logOffset - 1 < x.log.length := by
      unfold Node.logLen at hlen
      omega
    exact ⟨_, getElem?_eq_getElem hpos⟩
  have hat : x.entryAt a = some e := (entryAt_of_lt hoff).trans he
  have hterm : x.termAt a = some e.term := by
    rw [Node.termAt, if_neg (by omega), if_neg (by omega), hat]
    rfl
  have hidx : e.index = a := by
    have := hx.indexed _ e he
    omega
  have hfinish : ∀ wal, Node.Compacted a x
      ((compactFinish (x.setSnapshotFile (some ⟨a, e.term, data⟩)) a e.term).setWal wal) := by
    intro wal
    obtain ⟨hlog, hoff', hsnap, hsterm⟩ := compactFinish_log
      (x := x.setSnapshotFile (some ⟨a, e.term, data⟩)) hx.boundary.symm hlt e.term
    refine ⟨hlt, ⟨e, hat, hidx, hsterm.symm⟩, ?_⟩
    unfold compactFinish at hlog ⊢
    rw [if_neg (by exact not_le.2 hlt)] at hlog ⊢
    dsimp only at hlog ⊢
    rw [hlog]
    rfl
  unfold compactLog
  dsimp only
  rw [hterm, if_neg (show ¬a = 0 by omega), if_neg (show ¬a ≤ x.snapshotIndex by omega),
    if_neg (show ¬x.commitIndex < a by omega)]
  cases cfg.stateDir self with
  | false => rfl
  | true =>
    cases hsave : io.save with
    | false => rfl
    | true =>
      cases io.wal with
      | false => exact hfinish _
      | true => exact hfinish _

/-- **Compaction is invisible.**  On a node whose window starts at its boundary, `CompactLog` with
an index above the boundary and not above the commit index leaves every accessor the same above
that index, and every later request that starts there gets the same answer and leaves the same
terms, votes, commit index and entries.  The window itself moves up to the index, unless the
snapshot could not be saved. -/
theorem compaction_invisible [DecidableEq N] (cfg : Config N) (self : N) (hx : x.LaidOut)
    (hlt : x.snapshotIndex < a) (hcommit : a ≤ x.commitIndex) (hlen : x.commitIndex ≤ x.logLen)
    (data : List B) (io : CompactIo) :
    SameAbove a x (compactLog cfg self (.answers data a) io x).1 ∧
      (∀ rpc : Rpc N C, rpc.From a →
        (serve cfg self (compactLog cfg self (.answers data a) io x).1 rpc).2 =
            (serve cfg self x rpc).2 ∧
          SameAbove a (serve cfg self x rpc).1
            (serve cfg self (compactLog cfg self (.answers data a) io x).1 rpc).1) ∧
      (cfg.stateDir self = true → io.save = true →
        (compactLog cfg self (.answers data a) io x).1.logOffset = a) := by
  have hspec := compactLog_compacted cfg self hx hlt hcommit (hcommit.trans hlen) data io
  split_ifs at hspec with hdone
  · refine ⟨hspec.sameAbove, fun rpc hrpc => ?_, fun _ _ => hspec.offset⟩
    obtain ⟨hreply, h'⟩ := hspec.serve cfg self hrpc
    exact ⟨hreply, h'.sameAbove⟩
  · rw [hspec]
    refine ⟨.refl a x, fun rpc _ => ⟨rfl, .refl a _⟩, fun hdir hsave => ?_⟩
    rw [hdir, hsave] at hdone
    exact absurd rfl hdone

/-- A leader's log of two entries, both committed. -/
def compactionSample : Node (Fin 3) Nat Nat :=
  { newNode 0 with
    currentTerm := 1
    log := [⟨1, 1, 10⟩, ⟨2, 1, 20⟩]
    commitIndex := 2 }

theorem compactionSample_laidOut : compactionSample.LaidOut := by
  refine ⟨rfl, fun k e he => ?_⟩
  rcases k with _ | _ | k
  · cases he
    rfl
  · cases he
    rfl
  · cases he

/-- The first entry is compacted away, and nobody notices. -/
theorem compaction_invisible_sample :
    SameAbove 1 compactionSample
        (compactLog (.complete 3 1) 0 (.answers [7] 1) ⟨true, true⟩ compactionSample).1 ∧
      (compactLog (.complete 3 1) 0 (.answers [7] 1) ⟨true, true⟩ compactionSample).1.log =
        [⟨2, 1, 20⟩] :=
  ⟨(compaction_invisible (.complete 3 1) 0 compactionSample_laidOut (a := 1) (by decide)
    (by decide) (by decide) [7] ⟨true, true⟩).1, by decide⟩

end MxKeys.Raft
