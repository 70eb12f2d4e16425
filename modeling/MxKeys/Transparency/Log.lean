/-
# MxKeys.Transparency.Log — the transparency log at work.

The table, the hash of the last entry and the Merkle tree are three records of one sequence.  An
append writes the table first and the other two afterwards, under the lock of the log; `Cleanup`
deletes rows before it takes the lock, then builds the tree anew and reads the last hash.  Tree
heads are signed between any of these steps, and a restart reads everything back from the table.

`log_agrees`: whenever no call is in progress the three records agree, in every interleaving.

`heads_grow`: the signed trees extend one another as long as no row behind a returned head is
deleted and no head is signed between a deletion and the rebuild; `shrunken_head` is a run with a
deletion.

`chain_verifies`: the log passes its own `VerifyChain` as long as clocks have whole microseconds in
the zone of the session, deletions take all rows or none, and no entry is linked to a deleted one;
`nanosecond_rejected` is the first entry of a log at a nanosecond the table cannot hold.
-/
import MxKeys.Keys.Delivery
import MxKeys.Lib.Run
import MxKeys.Merkle.Tree
import MxKeys.Transparency.Chain

namespace MxKeys.Transparency

open Lib
open List Option

/-! ## Tree heads -/

/-- The answer of `SignedTreeHead`. -/
structure SignedTreeHead where
  treeSize : Nat
  rootHash : Text
  timestamp : Text
  timestampMs : Int
  signer : Text
  keyID : Text
  signature : Text
  signPayload : Text

variable {sha256 : Bytes → Bytes} {scheme : Keys.Scheme}

/-- `SignedTreeHead`, at the instant `now`.  RFC 3339 without a fraction is the format at the start
of the second. -/
def signedTreeHead (n : Keys.Notary scheme) (tree : Merkle.Tree sha256) (now : Int) :
    SignedTreeHead :=
  let ms := now / 1000000
  let payload := Canonical.intText tree.size ++ '|' :: (tree.rootHex ++ '|' :: Canonical.intText ms)
  let signature := scheme.sign n.serverKeyPair.priv (Utf8.encode payload)
  { treeSize := tree.size
    rootHash := tree.rootHex
    timestamp := Rfc3339.format (now / 1000000000 * 1000000000) 0
    timestampMs := ms
    signer := n.serverName
    keyID := n.serverKeyID
    signature := Base64.rawStdEncode signature
    signPayload := payload }

/-- A head that was returned, with the tree behind it. -/
structure Returned (sha256 : Bytes → Bytes) where
  head : SignedTreeHead
  tree : Merkle.Tree sha256

/-! ## The log and its steps -/

/-- Who holds the lock of the log: an append whose row is inserted, or a `Cleanup` that has built
the tree. -/
inductive Holder
  | free
  | appending (entry : Entry)
  | rebuilding
  deriving DecidableEq

/-- `TransparencyLog` and its table, rows in the order of their numbers. `cleanups` counts the calls
of `Cleanup` between a `DELETE` that removed rows and the rebuild. -/
structure Log (sha256 : Bytes → Bytes) where
  table : List Row
  lastHash : Text
  merkleTree : Merkle.Tree sha256
  holder : Holder
  cleanups : Nat
  returned : List (Returned sha256)

/-- `addMerkleHash`. -/
def addMerkleHash (tree : Merkle.Tree sha256) (entryHash : Text) :
    Option (Merkle.Tree sha256) :=
  (Hex.decode entryHash).map tree.addHash

/-- `rebuildMerkleTree`: the tree, and whether all hashes were added. -/
def rebuildMerkleTree (tree : Merkle.Tree sha256) : List Row → Merkle.Tree sha256 × Bool
  | [] => (tree, true)
  | row :: rows =>
    match addMerkleHash tree row.entryHash with
    | none => (tree, false)
    | some next => rebuildMerkleTree next rows

/-- `loadLastHash`. -/
def loadLastHash (table : List Row) : Text :=
  (table.getLast?.map Row.entryHash).getD genesis

/-- `NewTransparencyLog` over a table; it fails when a hash of the table does not decode. -/
def newTransparencyLog (sha256 : Bytes → Bytes) (table : List Row) :
    Option (Log sha256) :=
  let built := rebuildMerkleTree (Merkle.new sha256) table
  if built.2 then
    some {
      table := table
      lastHash := loadLastHash table
      merkleTree := built.1
      holder := .free
      cleanups := 0
      returned := [] }
  else none

/-- The first lines of `appendEntry`. -/
def chainEntry (sha256 : Bytes → Bytes) (lastHash : Text) (entry : Entry) : Entry :=
  let e := { entry with previousHash := lastHash }
  { e with entryHash := computeEntryHash sha256 e }

/-- The rows that `DELETE … WHERE timestamp < cutoff` leaves. -/
def keptRows (cutoff : Int) (table : List Row) : List Row :=
  table.filter fun row => ¬ row.timestamp < roundMicros cutoff

/-- A statement of a call, or a restart. -/
inductive Action
  | insert (entry : Entry)
  | finish
  | delete (cutoff : Int)
  | rebuild
  | reload
  | head (now : Int)
  | restart

/-- One step.  `insert` and `finish` are the two halves of `appendEntry`; `delete`, `rebuild` and
`reload` are the parts of `Cleanup`.  Statements succeed, so no two rows have the same hash. -/
def step (n : Keys.Notary scheme) (s : Log sha256) : Action → Option (Log sha256)
  | .insert entry =>
    let e := chainEntry sha256 s.lastHash entry
    if s.holder = .free ∧ ∀ row ∈ s.table, row.entryHash ≠ e.entryHash then
      some { s with table := s.table ++ [e.toRow], holder := .appending e }
    else none
  | .finish =>
    match s.holder with
    | .appending e =>
      some { s with
        lastHash := e.entryHash
        merkleTree := (addMerkleHash s.merkleTree e.entryHash).getD s.merkleTree
        holder := .free }
    | _ => none
  | .delete cutoff =>
    let kept := keptRows cutoff s.table
    some { s with
      table := kept
      cleanups := if kept.length < s.table.length then s.cleanups + 1 else s.cleanups }
  | .rebuild =>
    if s.holder = .free ∧ 0 < s.cleanups then
      some { s with
        merkleTree := (rebuildMerkleTree (Merkle.new sha256) s.table).1
        holder := .rebuilding
        cleanups := s.cleanups - 1 }
    else none
  | .reload =>
    if s.holder = .rebuilding then
      some { s with lastHash := loadLastHash s.table, holder := .free }
    else none
  | .head now =>
    if s.holder = .free then
      some { s with
        returned := s.returned ++ [⟨signedTreeHead n s.merkleTree now, s.merkleTree⟩] }
    else none
  | .restart =>
    (newTransparencyLog sha256 s.table).map fun fresh => { fresh with returned := s.returned }

/-- A log whose table is empty. -/
def emptyLog (sha256 : Bytes → Bytes) : Log sha256 where
  table := []
  lastHash := genesis
  merkleTree := Merkle.new sha256
  holder := .free
  cleanups := 0
  returned := []

example : newTransparencyLog sha256 [] = some (emptyLog sha256) := rfl

/-! ## What a step does -/

/-- The leaf of a row. -/
def Row.leaf (row : Row) : Bytes := (Hex.decode row.entryHash).getD []

/-- The leaf of an append whose row is in the table and whose hash is not yet in the tree. -/
def Holder.pending : Holder → List Bytes
  | .appending e => [e.toRow.leaf]
  | _ => []

theorem decode_chainEntry (sha256 : Bytes → Bytes) (lastHash : Text)
    (entry : Entry) : (Hex.decode (chainEntry sha256 lastHash entry).entryHash).isSome := by
  show (Hex.decode (Hex.encode _)).isSome
  rw [Hex.decode_encode]
  rfl

theorem addMerkleHash_leaves (tree : Merkle.Tree sha256) (row : Row)
    (h : (Hex.decode row.entryHash).isSome) :
    ∃ next, addMerkleHash tree row.entryHash = some next ∧
      next.leaves = tree.leaves ++ [row.leaf] := by
  obtain ⟨bytes, hbytes⟩ := isSome_iff_exists.1 h
  refine ⟨tree.addHash bytes, ?_, ?_⟩
  · rw [addMerkleHash, hbytes]
    rfl
  · rw [Row.leaf, hbytes]
    rfl

/-- `rebuildMerkleTree` adds the leaf of every row. -/
theorem rebuildMerkleTree_leaves {rows : List Row} (tree : Merkle.Tree sha256)
    (h : ∀ row ∈ rows, (Hex.decode row.entryHash).isSome) :
    (rebuildMerkleTree tree rows).1.leaves = tree.leaves ++ rows.map Row.leaf ∧
      (rebuildMerkleTree tree rows).2 = true := by
  induction rows generalizing tree with
  | nil => exact ⟨(append_nil _).symm, rfl⟩
  | cons row rows ih =>
    obtain ⟨next, hnext, hleaves⟩ := addMerkleHash_leaves tree row (h row mem_cons_self)
    obtain ⟨hrest, hall⟩ := ih next fun r hr => h r (mem_cons_of_mem _ hr)
    rw [rebuildMerkleTree, hnext]
    refine ⟨?_, hall⟩
    rw [hrest, hleaves, append_assoc]
    rfl

variable {table : List Row} {cutoff : Int} {a : Action}

theorem rebuild_new_leaves (sha256 : Bytes → Bytes)
    (h : ∀ row ∈ table, (Hex.decode row.entryHash).isSome) :
    (rebuildMerkleTree (Merkle.new sha256) table).1.leaves = table.map Row.leaf :=
  (rebuildMerkleTree_leaves (Merkle.new sha256) h).1

theorem keptRows_eq_self (h : ∀ row ∈ table, ¬ row.timestamp < roundMicros cutoff) :
    keptRows cutoff table = table :=
  filter_eq_self.2 fun row hrow => decide_eq_true (h row hrow)

/-- A `DELETE` that removes nothing leaves the table as it is. -/
theorem keptRows_of_length (h : ¬ (keptRows cutoff table).length < table.length) :
    keptRows cutoff table = table :=
  filter_sublist.eq_of_length_le (Nat.le_of_not_lt h)

variable {n : Keys.Notary scheme} {s t : Log sha256}

theorem step_insert {entry : Entry} (h : step n s (.insert entry) = some t) :
    s.holder = .free ∧ t = { s with
      table := s.table ++ [(chainEntry sha256 s.lastHash entry).toRow]
      holder := .appending (chainEntry sha256 s.lastHash entry) } := by
  simp only [step] at h
  split_ifs at h with hguard
  exact ⟨hguard.1, (some.inj h).symm⟩

theorem step_finish (h : step n s .finish = some t) :
    ∃ e, s.holder = .appending e ∧ t = { s with
      lastHash := e.entryHash
      merkleTree := (addMerkleHash s.merkleTree e.entryHash).getD s.merkleTree
      holder := .free } := by
  cases hholder : s.holder with
  | appending e =>
    simp only [step, hholder] at h
    exact ⟨e, rfl, (some.inj h).symm⟩
  | free | rebuilding => simp [step, hholder] at h

/-- The tree after an append has one more leaf. -/
theorem step_finish_leaves
    (hpending : ∀ e, s.holder = .appending e → (Hex.decode e.entryHash).isSome)
    (h : step n s .finish = some t) :
    ∃ e next, s.holder = .appending e ∧ next.leaves = s.merkleTree.leaves ++ [e.toRow.leaf] ∧
      t = { s with lastHash := e.entryHash, merkleTree := next, holder := .free } := by
  obtain ⟨e, hholder, rfl⟩ := step_finish h
  obtain ⟨next, hnext, hleaves⟩ :=
    addMerkleHash_leaves s.merkleTree e.toRow (hpending e hholder)
  refine ⟨e, next, hholder, hleaves, ?_⟩
  rw [show addMerkleHash s.merkleTree e.entryHash = some next from hnext, getD_some]

theorem step_rebuild (h : step n s .rebuild = some t) :
    s.holder = .free ∧ t = { s with
      merkleTree := (rebuildMerkleTree (Merkle.new sha256) s.table).1
      holder := .rebuilding
      cleanups := s.cleanups - 1 } := by
  simp only [step] at h
  split_ifs at h with hguard
  exact ⟨hguard.1, (some.inj h).symm⟩

theorem step_reload (h : step n s .reload = some t) :
    s.holder = .rebuilding ∧
      t = { s with lastHash := loadLastHash s.table, holder := .free } := by
  simp only [step] at h
  split_ifs at h with hguard
  exact ⟨hguard, (some.inj h).symm⟩

theorem step_head {now : Int} (h : step n s (.head now) = some t) :
    s.holder = .free ∧ t = { s with
      returned := s.returned ++ [⟨signedTreeHead n s.merkleTree now, s.merkleTree⟩] } := by
  simp only [step] at h
  split_ifs at h with hguard
  exact ⟨hguard, (some.inj h).symm⟩

theorem step_restart (h : step n s .restart = some t) :
    t = { emptyLog sha256 with
      table := s.table
      lastHash := loadLastHash s.table
      merkleTree := (rebuildMerkleTree (Merkle.new sha256) s.table).1
      returned := s.returned } := by
  simp only [step, newTransparencyLog] at h
  split_ifs at h with hguard
  · exact (some.inj h).symm
  · cases h

/-! ## Table, tree and last hash -/

/-- The hash that the next entry is linked to once the lock is free. -/
def Log.nextHash (s : Log sha256) : Text :=
  match s.holder with
  | .appending e => e.entryHash
  | _ => s.lastHash

/-- Every hash of the table decodes, and while no `Cleanup` is under way the tree has the leaves of
the table, except for one that is still to come, and the last hash is that of the last row. -/
structure Agrees (s : Log sha256) : Prop where
  decodes : ∀ row ∈ s.table, (Hex.decode row.entryHash).isSome
  pending : ∀ e, s.holder = .appending e → (Hex.decode e.entryHash).isSome
  leaves : s.cleanups = 0 → s.merkleTree.leaves ++ s.holder.pending = s.table.map Row.leaf
  last : s.cleanups = 0 → s.holder ≠ .rebuilding → s.nextHash = loadLastHash s.table

theorem loadLastHash_append (table : List Row) (row : Row) :
    loadLastHash (table ++ [row]) = row.entryHash := by
  rw [loadLastHash, getLast?_concat]
  rfl

theorem agrees_emptyLog : Agrees (emptyLog sha256) where
  decodes := nofun
  pending := fun _ h => nomatch h
  leaves := fun _ => rfl
  last := fun _ _ => rfl

namespace Agrees

theorem insert {entry : Entry} (hs : Agrees s) (h : step n s (.insert entry) = some t) :
    Agrees t := by
  obtain ⟨hfree, rfl⟩ := step_insert h
  have hnew := decode_chainEntry sha256 s.lastHash entry
  refine ⟨?_, ?_, ?_, ?_⟩
  · intro row hrow
    rcases mem_append.1 hrow with hrow | hrow
    · exact hs.decodes row hrow
    · rw [mem_singleton.1 hrow]
      exact hnew
  · intro e he
    obtain rfl := Holder.appending.inj he
    exact hnew
  · intro hzero
    have hleaves := hs.leaves hzero
    rw [hfree] at hleaves
    show s.merkleTree.leaves ++ [_] = (s.table ++ _).map Row.leaf
    rw [map_append, ← hleaves]
    simp [Holder.pending]
  · exact fun _ _ =>
      (loadLastHash_append s.table (chainEntry sha256 s.lastHash entry).toRow).symm

theorem finish (hs : Agrees s) (h : step n s .finish = some t) : Agrees t := by
  obtain ⟨e, next, hholder, hleaves, rfl⟩ := step_finish_leaves hs.pending h
  refine ⟨hs.decodes, (fun _ he => nomatch he), fun hzero => ?_, fun hzero _ => ?_⟩
  · have hold := hs.leaves hzero
    rw [hholder] at hold
    show next.leaves ++ [] = _
    rw [append_nil, hleaves]
    exact hold
  · have hnext := hs.last hzero (hholder ▸ Holder.noConfusion)
    rwa [Log.nextHash, hholder] at hnext

/-- A deletion that removes nothing changes nothing, and after any other a rebuild is to come. -/
theorem delete {cutoff : Int} (hs : Agrees s) (h : step n s (.delete cutoff) = some t) :
    Agrees t := by
  cases h
  have hsame : (if (keptRows cutoff s.table).length < s.table.length then s.cleanups + 1
      else s.cleanups) = 0 → s.cleanups = 0 ∧ keptRows cutoff s.table = s.table := by
    split_ifs with hlt
    · nofun
    · exact fun hzero => ⟨hzero, keptRows_of_length hlt⟩
  refine ⟨fun row hrow => hs.decodes row (mem_of_mem_filter hrow), hs.pending, ?_, ?_⟩
  · intro hzero
    obtain ⟨hcleanups, hkept⟩ := hsame hzero
    simp only [hkept]
    exact hs.leaves hcleanups
  · intro hzero hholder
    obtain ⟨hcleanups, hkept⟩ := hsame hzero
    simp only [hkept]
    exact hs.last hcleanups hholder

theorem rebuild (hs : Agrees s) (h : step n s .rebuild = some t) : Agrees t := by
  obtain ⟨-, rfl⟩ := step_rebuild h
  refine ⟨hs.decodes, (fun _ he => nomatch he), fun _ => ?_, fun _ hholder => absurd rfl hholder⟩
  rw [rebuild_new_leaves sha256 hs.decodes]
  exact append_nil _

theorem reload (hs : Agrees s) (h : step n s .reload = some t) : Agrees t := by
  obtain ⟨hholder, rfl⟩ := step_reload h
  refine ⟨hs.decodes, (fun _ he => nomatch he), fun hzero => ?_, fun _ _ => rfl⟩
  have hleaves := hs.leaves hzero
  rw [hholder] at hleaves
  exact hleaves

theorem head {now : Int} (hs : Agrees s) (h : step n s (.head now) = some t) : Agrees t := by
  obtain ⟨-, rfl⟩ := step_head h
  exact ⟨hs.decodes, hs.pending, hs.leaves, hs.last⟩

theorem restart (hs : Agrees s) (h : step n s .restart = some t) : Agrees t := by
  obtain rfl := step_restart h
  refine ⟨hs.decodes, (fun _ he => nomatch he), fun _ => ?_, fun _ _ => rfl⟩
  rw [rebuild_new_leaves sha256 hs.decodes]
  exact append_nil _

theorem leaves_free (hs : Agrees s) (hfree : s.holder = .free) (hzero : s.cleanups = 0) :
    s.merkleTree.leaves = s.table.map Row.leaf := by
  have hleaves := hs.leaves hzero
  rw [hfree] at hleaves
  simpa [Holder.pending] using hleaves

end Agrees

theorem agrees_step (hs : Agrees s) (h : step n s a = some t) : Agrees t := by
  cases a with
  | insert entry => exact hs.insert h
  | finish => exact hs.finish h
  | delete cutoff => exact hs.delete h
  | rebuild => exact hs.rebuild h
  | reload => exact hs.reload h
  | head now => exact hs.head h
  | restart => exact hs.restart h

/-- **Tree, table and chain head agree** whenever no call is in progress: the leaves are the decoded
hashes of the table in order, and the last hash is that of the last row. -/
theorem log_agrees {s : Log sha256} (h : Reach (step n) anyAction (emptyLog sha256) s)
    (hfree : s.holder = .free) (hcleanups : s.cleanups = 0) :
    s.table.map (fun row => Hex.decode row.entryHash) = s.merkleTree.leaves.map some ∧
      s.lastHash = (s.table.getLast?.map Row.entryHash).getD genesis := by
  have hs : Agrees s := h.invariant agrees_emptyLog fun _ _ _ hs _ hstep => agrees_step hs hstep
  constructor
  · rw [hs.leaves_free hfree hcleanups, List.map_map]
    refine map_congr_left fun row hrow => ?_
    obtain ⟨bytes, hbytes⟩ := isSome_iff_exists.1 (hs.decodes row hrow)
    rw [Function.comp, Row.leaf, hbytes]
    rfl
  · have hlast := hs.last hcleanups (by rw [hfree]; exact Holder.noConfusion)
    rwa [Log.nextHash, hfree] at hlast

/-- A failed fetch from the server `a`, at an instant of a clock in UTC. -/
def failureAt (instant : Int) : Entry where
  timestamp := ⟨instant, 0⟩
  serverName := "a".toList
  keyID := []
  eventType := "FETCH_FAILED".toList
  details := "timeout".toList
  keyHash := []
  validUntilTS := 0
  previousHash := []
  entryHash := []

/-- `appendEntry`. -/
def appendAt (instant : Int) : List Action := [.insert (failureAt instant), .finish]

/-- `Cleanup`. -/
def cleanupAt (cutoff : Int) : List Action := [.delete cutoff, .rebuild, .reload]

/-- An entry is appended between the deletion and the rebuild. -/
theorem log_agrees_between : ∃ s : Log Digest.sha256, s.table.length = 1 ∧
    s.table.map (fun row => Hex.decode row.entryHash) = s.merkleTree.leaves.map some ∧
      s.lastHash = (s.table.getLast?.map Row.entryHash).getD genesis := by
  have hrun : (execute (step Keys.sampleNotary) (fun _ _ => true) (emptyLog Digest.sha256)
      (appendAt 1000 ++ [.delete 5000] ++ appendAt 6000 ++ [.rebuild, .reload])).map
        (fun s => (s.table.length, s.holder, s.cleanups)) = some (1, .free, 0) := by
    decide +kernel
  obtain ⟨s, hreach, hs⟩ := reach_observe_any hrun
  obtain ⟨hlength, hrest⟩ := Prod.mk.inj hs
  obtain ⟨hfree, hcleanups⟩ := Prod.mk.inj hrest
  exact ⟨s, hlength, log_agrees hreach hfree hcleanups⟩

/-! ## The tree grows -/

/-- What keeps the signed trees growing: a `DELETE` spares the rows behind every returned head, and
a head is signed while no `Cleanup` is between its `DELETE` and its rebuild. -/
def KeepsHeads (s : Log sha256) : Action → Prop
  | .delete cutoff => ∀ r ∈ s.returned, ∀ row ∈ s.table.take r.head.treeSize,
      ¬ row.timestamp < roundMicros cutoff
  | .head _ => s.cleanups = 0
  | _ => True

/-- The trees of the heads are initial parts of each other, of the table and of the tree; while no
`Cleanup` is under way the tree has the leaves of the table, except for one that is still to come.
-/
structure Growing (s : Log sha256) : Prop where
  decodes : ∀ row ∈ s.table, (Hex.decode row.entryHash).isSome
  pending : ∀ e, s.holder = .appending e → (Hex.decode e.entryHash).isSome
  ordered : s.returned.Pairwise fun a b => a.tree.leaves <+: b.tree.leaves
  size : ∀ r ∈ s.returned, r.head.treeSize = r.tree.leaves.length
  inTable : ∀ r ∈ s.returned, r.tree.leaves <+: s.table.map Row.leaf
  inTree : ∀ r ∈ s.returned, r.tree.leaves <+: s.merkleTree.leaves
  synced : s.cleanups = 0 → s.merkleTree.leaves ++ s.holder.pending = s.table.map Row.leaf

theorem growing_emptyLog : Growing (emptyLog sha256) where
  decodes := nofun
  pending := fun _ h => nomatch h
  ordered := .nil
  size := nofun
  inTable := nofun
  inTree := nofun
  synced := fun _ => rfl

namespace Growing

theorem insert {entry : Entry} (hs : Growing s) (ht : Agrees t)
    (h : step n s (.insert entry) = some t) : Growing t := by
  obtain ⟨-, rfl⟩ := step_insert h
  refine ⟨ht.decodes, ht.pending, hs.ordered, hs.size, fun r hr => ?_, hs.inTree, ht.leaves⟩
  show _ <+: (s.table ++ _).map Row.leaf
  rw [map_append]
  exact (hs.inTable r hr).trans (prefix_append _ _)

theorem finish (hs : Growing s) (ht : Agrees t) (h : step n s .finish = some t) : Growing t := by
  obtain ⟨e, next, -, hleaves, rfl⟩ := step_finish_leaves hs.pending h
  refine ⟨ht.decodes, ht.pending, hs.ordered, hs.size, hs.inTable, fun r hr => ?_, ht.leaves⟩
  show _ <+: next.leaves
  rw [hleaves]
  exact (hs.inTree r hr).trans (prefix_append _ _)

/-- The rows behind a head are spared, so they are still the first rows of the table. -/
theorem inTable_keptRows {cutoff : Int} {r : Returned sha256} (hs : Growing s)
    (hr : r ∈ s.returned)
    (hspared : ∀ row ∈ s.table.take r.head.treeSize, ¬ row.timestamp < roundMicros cutoff) :
    r.tree.leaves <+: (keptRows cutoff s.table).map Row.leaf := by
  have hfirst : r.tree.leaves = (s.table.take r.head.treeSize).map Row.leaf := by
    rw [hs.size r hr, map_take]
    exact prefix_iff_eq_take.1 (hs.inTable r hr)
  have hsplit : keptRows cutoff s.table = keptRows cutoff (s.table.take r.head.treeSize) ++
      keptRows cutoff (s.table.drop r.head.treeSize) := by
    unfold keptRows
    rw [← filter_append, take_append_drop]
  rw [hsplit, keptRows_eq_self hspared, map_append, ← hfirst]
  exact prefix_append _ _

theorem delete {cutoff : Int} (hs : Growing s) (ht : Agrees t)
    (hok : KeepsHeads s (.delete cutoff)) (h : step n s (.delete cutoff) = some t) :
    Growing t := by
  cases h
  exact ⟨ht.decodes, ht.pending, hs.ordered, hs.size,
    fun r hr => hs.inTable_keptRows hr (hok r hr), hs.inTree, ht.leaves⟩

/-- A tree that is built anew has the leaves of the table. -/
theorem inTree_rebuilt (hs : Growing s) : ∀ r ∈ s.returned,
    r.tree.leaves <+: (rebuildMerkleTree (Merkle.new sha256) s.table).1.leaves := by
  rw [rebuild_new_leaves sha256 hs.decodes]
  exact hs.inTable

theorem head {now : Int} (hs : Growing s) (ht : Agrees t) (hok : KeepsHeads s (.head now))
    (h : step n s (.head now) = some t) : Growing t := by
  obtain ⟨hfree, rfl⟩ := step_head h
  have hnew : s.merkleTree.leaves = s.table.map Row.leaf := ht.leaves_free hfree hok
  refine ⟨ht.decodes, ht.pending, ?_, ?_, ?_, ?_, ht.leaves⟩
  · refine pairwise_append.2 ⟨hs.ordered, pairwise_singleton _ _, ?_⟩
    intro a ha b hb
    rw [mem_singleton.1 hb]
    exact hs.inTree a ha
  · exact forall_mem_append.2 ⟨hs.size, forall_mem_singleton.2 rfl⟩
  · refine forall_mem_append.2 ⟨hs.inTable, forall_mem_singleton.2 ?_⟩
    exact hnew ▸ prefix_refl _
  · exact forall_mem_append.2 ⟨hs.inTree, forall_mem_singleton.2 (prefix_refl _)⟩

end Growing

theorem growing_step (hs : Growing s) (ht : Agrees t) (hok : KeepsHeads s a)
    (h : step n s a = some t) : Growing t := by
  cases a with
  | insert entry => exact hs.insert ht h
  | finish => exact hs.finish ht h
  | delete cutoff => exact hs.delete ht hok h
  | head now => exact hs.head ht hok h
  | rebuild =>
    obtain ⟨-, rfl⟩ := step_rebuild h
    exact ⟨ht.decodes, ht.pending, hs.ordered, hs.size, hs.inTable, hs.inTree_rebuilt, ht.leaves⟩
  | reload =>
    obtain ⟨-, rfl⟩ := step_reload h
    exact ⟨ht.decodes, ht.pending, hs.ordered, hs.size, hs.inTable, hs.inTree, ht.leaves⟩
  | restart =>
    obtain rfl := step_restart h
    exact ⟨ht.decodes, ht.pending, hs.ordered, hs.size, hs.inTable, hs.inTree_rebuilt, ht.leaves⟩

/-- **The signed tree only grows**, in every run in which no row behind a returned head is deleted
and no head is signed between a deletion and the rebuild. -/
theorem heads_grow {s : Log sha256} (h : Reach (step n) KeepsHeads (emptyLog sha256) s) :
    s.returned.Pairwise fun a b => a.tree.leaves <+: b.tree.leaves := by
  have hs : Agrees s ∧ Growing s := by
    refine h.invariant (P := fun s => Agrees s ∧ Growing s) ⟨agrees_emptyLog, growing_emptyLog⟩
      fun _ _ _ hs hok hstep => ?_
    have ht := agrees_step hs.1 hstep
    exact ⟨ht, growing_step hs.2 ht hok hstep⟩
  exact hs.2.ordered

instance (s : Log sha256) : (a : Action) → Decidable (KeepsHeads s a)
  | .delete cutoff => inferInstanceAs (Decidable (∀ r ∈ s.returned,
      ∀ row ∈ s.table.take r.head.treeSize, ¬ row.timestamp < roundMicros cutoff))
  | .head _ => inferInstanceAs (Decidable (s.cleanups = 0))
  | .insert _ | .finish | .rebuild | .reload | .restart => isTrue trivial

/-- A row behind no head is deleted between two heads. -/
theorem heads_grow_spared : ∃ s : Log Digest.sha256,
    s.returned.map (fun r => r.tree.leaves.length) = [1, 2] ∧
      s.returned.Pairwise fun a b => a.tree.leaves <+: b.tree.leaves := by
  have hrun : (execute (step Keys.sampleNotary) (fun s a => decide (KeepsHeads s a))
      (emptyLog Digest.sha256) (appendAt 9000 ++ [.head 9000] ++ appendAt 1000 ++ cleanupAt 5000 ++
        appendAt 10000 ++ [.head 10000])).map
        (fun s => s.returned.map fun r => r.tree.leaves.length) = some [1, 2] := by
    decide +kernel
  obtain ⟨s, hreach, hlengths⟩ := reach_observe (P := fun _ => True) (fun _ _ => trivial)
    (fun _ _ _ h => of_decide_eq_true h) hrun
  exact ⟨s, hlengths, heads_grow hreach⟩

/-- **A shorter tree is signed after a longer one**: an entry, a head, a `Cleanup` and a head. -/
theorem shrunken_head : ∃ s : Log Digest.sha256,
    Reach (step Keys.sampleNotary) anyAction (emptyLog Digest.sha256) s ∧
      ¬ s.returned.Pairwise fun a b => a.tree.leaves <+: b.tree.leaves := by
  have hrun : (execute (step Keys.sampleNotary) (fun _ _ => true) (emptyLog Digest.sha256)
      (appendAt 1000 ++ [.head 1000] ++ cleanupAt 5000 ++ [.head 5000])).map
        (fun s => decide (s.returned.Pairwise fun a b => a.tree.leaves <+: b.tree.leaves)) =
        some false := by
    decide +kernel
  obtain ⟨s, hreach, hpairs⟩ := reach_observe_any hrun
  exact ⟨s, hreach, of_decide_eq_false hpairs⟩

/-! ## The chain of the log -/

variable {zone : Int → Int}

/-- What keeps the chain: an entry has a clock reading of whole microseconds in the zone of the
session and is appended while no `Cleanup` is between its `DELETE` and its rebuild, and a `DELETE`
removes no row or all rows. -/
def KeepsChain (zone : Int → Int) (s : Log sha256) : Action → Prop
  | .insert entry => entry.timestamp.instant % 1000 = 0 ∧
      entry.timestamp.offset = zone entry.timestamp.instant ∧ s.cleanups = 0
  | .delete cutoff => (∀ row ∈ s.table, ¬ row.timestamp < roundMicros cutoff) ∨
      ∀ row ∈ s.table, row.timestamp < roundMicros cutoff
  | _ => True

/-- The table is a chain from the beginning, and its last hash is the one to continue. -/
structure Chained (zone : Int → Int) (s : Log sha256) : Prop where
  linked : Linked sha256 zone genesis s.table
  last : s.cleanups = 0 → s.holder ≠ .rebuilding → s.nextHash = loadLastHash s.table

/-- A chain is continued by a row that is linked to its last hash. -/
theorem linked_append {previous : Text} {rows : List Row} {row : Row}
    (hrows : Linked sha256 zone previous rows)
    (hprevious : (row.scan zone).previousHash = (rows.getLast?.map Row.entryHash).getD previous)
    (hhash : computeEntryHash sha256 (row.scan zone) = row.entryHash) :
    Linked sha256 zone previous (rows ++ [row]) := by
  induction rows generalizing previous with
  | nil => exact ⟨hprevious, hhash, trivial⟩
  | cons first rows ih =>
    refine ⟨hrows.1, hrows.2.1, ih hrows.2.2 ?_⟩
    rw [hprevious]
    cases rows <;> rfl

theorem keptRows_eq_nil (h : ∀ row ∈ table, row.timestamp < roundMicros cutoff) :
    keptRows cutoff table = [] := by
  refine filter_eq_nil_iff.2 fun row hrow => ?_
  simp [h row hrow]

theorem chained_emptyLog : Chained zone (emptyLog sha256) := ⟨trivial, fun _ _ => rfl⟩

namespace Chained

theorem insert {entry : Entry} (hs : Chained zone s) (ht : Agrees t)
    (hok : KeepsChain zone s (.insert entry)) (h : step n s (.insert entry) = some t) :
    Chained zone t := by
  obtain ⟨hfree, rfl⟩ := step_insert h
  obtain ⟨hmicros, hzone, hzero⟩ := hok
  have hread : (chainEntry sha256 s.lastHash entry).toRow.scan zone =
      chainEntry sha256 s.lastHash entry := scan_toRow hmicros hzone
  have hlast : s.lastHash = loadLastHash s.table := by
    have hnext := hs.last hzero (hfree ▸ Holder.noConfusion)
    rwa [Log.nextHash, hfree] at hnext
  refine ⟨linked_append hs.linked ?_ ?_, ht.last⟩
  · rw [hread]
    exact hlast
  · rw [hread]
    rfl

theorem delete {cutoff : Int} (hs : Chained zone s) (ht : Agrees t)
    (hok : KeepsChain zone s (.delete cutoff)) (h : step n s (.delete cutoff) = some t) :
    Chained zone t := by
  cases h
  refine ⟨?_, ht.last⟩
  show Linked sha256 zone genesis (keptRows cutoff s.table)
  rcases hok with hnone | hall
  · rw [keptRows_eq_self hnone]
    exact hs.linked
  · rw [keptRows_eq_nil hall]
    trivial

end Chained

theorem chained_step (hs : Chained zone s) (ht : Agrees t) (hok : KeepsChain zone s a)
    (h : step n s a = some t) : Chained zone t := by
  cases a with
  | insert entry => exact hs.insert ht hok h
  | delete cutoff => exact hs.delete ht hok h
  -- the other steps leave the table alone
  | finish =>
    obtain ⟨e, -, rfl⟩ := step_finish h
    exact ⟨hs.linked, ht.last⟩
  | rebuild =>
    obtain ⟨-, rfl⟩ := step_rebuild h
    exact ⟨hs.linked, ht.last⟩
  | reload =>
    obtain ⟨-, rfl⟩ := step_reload h
    exact ⟨hs.linked, ht.last⟩
  | head now =>
    obtain ⟨-, rfl⟩ := step_head h
    exact ⟨hs.linked, ht.last⟩
  | restart =>
    obtain rfl := step_restart h
    exact ⟨hs.linked, ht.last⟩

/-- **The chain verifier accepts the log**, in every run of entries at whole microseconds in the
zone of the session, linked to no deleted row, with deletions of all rows or none. -/
theorem chain_verifies {s : Log sha256} {limit : Nat}
    (h : Reach (step n) (KeepsChain zone) (emptyLog sha256) s) (hlimit : s.table.length ≤ limit) :
    (verifyChain sha256 zone limit s.table).1 = true := by
  have hs : Agrees s ∧ Chained zone s := by
    refine h.invariant (P := fun s => Agrees s ∧ Chained zone s) ⟨agrees_emptyLog, chained_emptyLog⟩
      fun _ _ _ hs hok hstep => ?_
    have ht := agrees_step hs.1 hstep
    exact ⟨ht, chained_step hs.2 ht hok hstep⟩
  exact (verifyChain_valid hlimit).2 hs.2.linked

instance (s : Log sha256) : (a : Action) → Decidable (KeepsChain zone s a)
  | .insert entry => inferInstanceAs (Decidable (entry.timestamp.instant % 1000 = 0 ∧
      entry.timestamp.offset = zone entry.timestamp.instant ∧ s.cleanups = 0))
  | .delete cutoff => inferInstanceAs (Decidable (
      (∀ row ∈ s.table, ¬ row.timestamp < roundMicros cutoff) ∨
        ∀ row ∈ s.table, row.timestamp < roundMicros cutoff))
  | .finish | .rebuild | .reload | .head _ | .restart => isTrue trivial

/-- Two entries, a `Cleanup` that deletes them, and two entries after it. -/
theorem chain_verifies_cleaned : ∃ s : Log Digest.sha256, s.table.length = 2 ∧
    (verifyChain Digest.sha256 (fun _ => 0) 2 s.table).1 = true := by
  have hrun : (execute (step Keys.sampleNotary) (fun s a => decide (KeepsChain (fun _ => 0) s a))
      (emptyLog Digest.sha256) (appendAt 1000 ++ appendAt 2000 ++ cleanupAt 5000 ++ appendAt 6000 ++
        appendAt 7000)).map (fun s => s.table.length) = some 2 := by
    decide +kernel
  obtain ⟨s, hreach, hlength⟩ := reach_observe (P := fun _ => True) (fun _ _ => trivial)
    (fun _ _ _ h => of_decide_eq_true h) hrun
  exact ⟨s, hlength, chain_verifies hreach hlength.le⟩

/-- **The log fails its own verification**: the table holds microseconds, and the first entry was
made one nanosecond after one. -/
theorem nanosecond_rejected : ∃ s : Log Digest.sha256,
    Reach (step Keys.sampleNotary) anyAction (emptyLog Digest.sha256) s ∧
      verifyChain Digest.sha256 (fun _ => 0) 1 s.table = (false, 1) := by
  have hrun : (execute (step Keys.sampleNotary) (fun _ _ => true) (emptyLog Digest.sha256)
      (appendAt 1001)).map (fun s => verifyChain Digest.sha256 (fun _ => 0) 1 s.table) =
        some (false, 1) := by
    decide +kernel
  exact reach_observe_any hrun

end MxKeys.Transparency
