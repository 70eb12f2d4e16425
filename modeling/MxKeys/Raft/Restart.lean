/-
# MxKeys.Raft.Restart — the votes of one node across crashes.

One node in an arbitrary environment: any request and any response may reach it, its sections run in
any order, and it may crash at any time and come back through `LoadFromDisk`.  Its snapshot file
survives a crash as it is; of the write-ahead log the environment chooses what `ReadAll` returns, so
that a record being written may or may not be there and a torn record may hide what follows it.

Term and vote are not written to disk, so a restarted node may vote again in a term in which it has
voted: `voted_twice`.  `second_vote_after_crash`: while every request for a vote names a candidate
and `currentTerm`, a `uint64`, does not wrap around, this is the only way to vote twice. A crash
lies between the two votes, and nothing that `LoadFromDisk` read then carried a term above the one
voted in.
-/
import MxKeys.Raft.Election
import MxKeys.Raft.Recovery
import Mathlib.Algebra.Group.Nat.Defs

namespace MxKeys.Raft

open MxKeys.Lib
open Option

variable {N C B : Type*}

/-! ## One node and its environment -/

/-- What a node did that outlives it. -/
inductive Mark (N C B : Type*)
  /-- The vote of a term was given to a candidate, or to the empty id. -/
  | granted (term : Nat) (candidate : Option N)
  /-- A crash, and what `LoadFromDisk` read afterwards. -/
  | restarted (file : Option (Snapshot B)) (walEntries : List (LogEntry C))

/-- A node with its clock; `trace` is what it did, the latest first. -/
structure Host (N C B : Type*) where
  node : Node N C B
  clock : Nat
  trace : List (Mark N C B)

/-- What can happen to a node: a section of its own or a crash. -/
inductive Input (N C B : Type*)
  | tick (d : Nat)
  /-- `none` is the empty id of a candidate. -/
  | requestVote (req : RequestVoteRequest (Option N))
  /-- A pre-vote round was won. -/
  | campaign
  /-- A vote round was won. -/
  | elected
  /-- A response to `RequestVote` or to a chunk of a snapshot, with its term. -/
  | response (term : Nat)
  | appendEntries (io : AppendIo) (req : AppendEntriesRequest N C)
  | appendReply (peer : N) (req : AppendEntriesRequest N C) (nextIdx : Nat)
      (resp : AppendEntriesResponse)
  | submit (command : C)
  | persist (entry : LogEntry C)
  | rollback (entry : LogEntry C) (publishedLen : Nat)
  | commit
  | apply
  | chunk (io : ChunkIo) (req : InstallSnapshotRequest N B)
  /-- A snapshot file is put in place, by `CompactLog` or by `handleInstallSnapshot`. -/
  | saveSnapshot (snap : Snapshot B)
  | finishInstall (index term : Nat) (walOk : Bool)
  | finishCompact (index term : Nat) (walOk : Bool)
  | snapshotSent (peer : N) (index : Nat)
  | crash (installOk : Bool) (walEntries : List (LogEntry C)) (status : WalStatus)

/-- The terms that arrive with an input. -/
def Input.terms : Input N C B → List Nat
  | .requestVote req => [req.term, req.lastLogTerm]
  | .response term => [term]
  | .appendEntries _ req => req.term :: req.prevLogTerm :: req.entries.map LogEntry.term
  | .appendReply _ _ _ resp => [resp.term]
  | .persist entry => [entry.term]
  | .chunk _ req => [req.term, req.lastIncludedTerm]
  | .saveSnapshot snap => [snap.lastIncludedTerm]
  | .crash _ walEntries _ => walEntries.map LogEntry.term
  | _ => []

/-- `handleRequestVote`, where the id may be empty.  `""` also stands for no vote, so that a vote
for it leaves the vote of the term free. -/
def handleVoteRequest [DecidableEq N] (now : Nat) (n : Node N C B)
    (req : RequestVoteRequest (Option N)) : Node N C B × RequestVoteResponse :=
  if req.term < n.currentTerm then (n, ⟨n.currentTerm, false⟩)
  else
    let n := n.observeTerm req.term
    if (n.votedFor = none ∨ n.votedFor = req.candidateId) ∧
        n.isLogUpToDate req.lastLogIndex req.lastLogTerm then
      ({ n with votedFor := req.candidateId, lastContact := now }, ⟨n.currentTerm, true⟩)
    else (n, ⟨n.currentTerm, false⟩)

/-- Whoever asks for a vote, only term, vote and state are changed. -/
theorem restands_handleVoteRequest [DecidableEq N] (now : Nat) (x : Node N C B)
    (req : RequestVoteRequest (Option N)) : x.Restands (handleVoteRequest now x req).1 := by
  have hobs := restands_observeTerm x req.term
  unfold handleVoteRequest
  dsimp only
  split_ifs
  · exact rfl
  · exact congrArg (fun y : Node N C B =>
      { y with votedFor := req.candidateId, lastContact := now }) hobs
  · exact hobs

def Host.init : Host N C B := ⟨newNode 0, 0, []⟩

/-- Replace the node. -/
def Host.setNode (h : Host N C B) (x : Node N C B) : Host N C B := { h with node := x }

/-- A section of the node; `none` if it does not run or `LoadFromDisk` fails. -/
def Host.perform [DecidableEq N] (cfg : Config N) (self : N) (h : Host N C B) :
    Input N C B → Option (Host N C B)
  | .tick d => some { h with clock := h.clock + d }
  | .requestVote req =>
    let (x, r) := handleVoteRequest h.clock h.node req
    some { h with
      node := x
      trace := if r.voteGranted then .granted x.currentTerm req.candidateId :: h.trace
        else h.trace }
  | .campaign =>
    -- `n.currentTerm++` on a `uint64`
    let x := { startElection self h.clock h.node with
      currentTerm := (h.node.currentTerm + 1) % 2 ^ 64 }
    some { h with node := x, trace := .granted x.currentTerm (some self) :: h.trace }
  | .elected =>
    if h.node.state = .candidate then some (h.setNode (becomeLeader cfg self h.node)) else none
  | .response term => some (h.setNode (h.node.observeTerm term))
  | .appendEntries io req =>
    some (h.setNode (handleAppendEntries cfg self h.clock io h.node req).1)
  | .appendReply peer req nextIdx resp =>
    some (h.setNode (appendEntriesReply cfg self h.node peer req nextIdx resp))
  | .submit command => (submitPublish h.node command).map fun p => h.setNode p.1
  | .persist entry => some (h.setNode (h.node.persistEntry entry))
  | .rollback entry len => some (h.setNode (submitRollback h.node entry len))
  | .commit => some (h.setNode (h.node.updateCommitIndex cfg self))
  | .apply => (applyNext h.node).map fun p => h.setNode p.1
  | .chunk io req => some (h.setNode (handleInstallSnapshot cfg self h.clock io h.node req).1)
  | .saveSnapshot snap => some (h.setNode (h.node.setSnapshotFile (some snap)))
  | .finishInstall index term walOk =>
    let x := finishInstall h.node index term
    some (h.setNode (if walOk then x.walTruncateBefore (index + 1) else x))
  | .finishCompact index term walOk =>
    let x := compactFinish h.node index term
    some (h.setNode (if walOk then x.walTruncateBefore (index + 1) else x))
  | .snapshotSent peer index => some (h.setNode (Raft.snapshotSent h.node peer index))
  | .crash installOk walEntries status =>
    -- without a state directory there is nothing to read
    let file := if cfg.stateDir self then h.node.snapshotFile else none
    let walEntries := if cfg.stateDir self then walEntries else []
    (loadFromDisk cfg self installOk h.clock file walEntries status).map fun x =>
      { h with node := x, trace := .restarted file walEntries :: h.trace }

/-- One step of the node.  A term that is no `uint64` is not decoded. -/
def Host.step [DecidableEq N] (cfg : Config N) (self : N) (h : Host N C B) (a : Input N C B) :
    Option (Host N C B) :=
  if ∀ term ∈ a.terms, term < 2 ^ 64 then h.perform cfg self a else none

variable {cfg : Config N} {self : N} {h h' : Host N C B}

theorem perform_of_step [DecidableEq N] {a : Input N C B} (hs : h.step cfg self a = some h') :
    h.perform cfg self a = some h' := by
  unfold Host.step at hs
  split_ifs at hs
  exact hs

/-- Requests for a vote name a candidate, and an election is started below the last term. -/
def proper (h : Host N C B) : Input N C B → Bool
  | .requestVote req => req.candidateId.isSome
  | .campaign => h.node.currentTerm + 1 < 2 ^ 64
  | _ => true

/-! ## What a step does to the vote -/

/-- A step gives no vote, gives one, or is a restart. -/
inductive Voting (self : N) (h h' : Host N C B) : Prop
  | keeps (htrace : h'.trace = h.trace) (hterm : h.node.currentTerm ≤ h'.node.currentTerm)
      (hvote : h'.node.currentTerm = h.node.currentTerm → h'.node.votedFor = h.node.votedFor)
  | grants (candidate : N)
      (htrace : h'.trace = .granted h'.node.currentTerm (some candidate) :: h.trace)
      (hterm : h.node.currentTerm ≤ h'.node.currentTerm)
      (hfree : h'.node.currentTerm = h.node.currentTerm →
        h.node.votedFor = none ∨ h.node.votedFor = some candidate)
      (hvote : h'.node.votedFor = some candidate)
  | restarts (file : Option (Snapshot B)) (walEntries : List (LogEntry C))
      (htrace : h'.trace = .restarted file walEntries :: h.trace)
      (hterm : ∀ T, h'.node.currentTerm ≤ T → DiskBelow file walEntries T)

theorem Drift.voting {x : Node N C B} (hd : Drift h.node x) : Voting self h (h.setNode x) :=
  .keeps rfl hd.term_le hd.same

/-- Sections that leave state, term and vote alone. -/
theorem voting_of_standing {x : Node N C B} (hx : x.standing = h.node.standing) :
    Voting self h (h.setNode x) :=
  (Drift.of_standing hx).voting

theorem voting_step [DecidableEq N] {a : Input N C B} (ha : proper h a = true)
    (hs : h.step cfg self a = some h') : Voting self h h' := by
  replace hs := perform_of_step hs
  cases a with try cases hs
  | tick d => exact .keeps rfl le_rfl fun _ => rfl
  | requestVote req =>
    obtain ⟨term, candidateId, lastLogIndex, lastLogTerm⟩ := req
    obtain ⟨candidate, rfl⟩ := isSome_iff_exists.1 ha
    -- a request that names its candidate is handled by `handleRequestVote` as it is
    rcases handleRequestVote_spec h.clock h.node ⟨term, candidate, lastLogIndex, lastLogTerm⟩ rfl
      with ⟨hno, hd⟩ | ⟨hyes, _, hle, hvote, hfree, _⟩
    · exact .keeps (if_neg (Bool.eq_false_iff.1 hno)) hd.term_le hd.same
    · exact .grants candidate (if_pos hyes) hle (fun heq => hfree heq.symm) hvote
  | campaign =>
    -- the term is a new one
    have hterm : (h.node.currentTerm + 1) % 2 ^ 64 = h.node.currentTerm + 1 :=
      Nat.mod_eq_of_lt (of_decide_eq_true ha)
    refine .grants self rfl ?_ (fun heq => ?_) rfl
    · show h.node.currentTerm ≤ (h.node.currentTerm + 1) % 2 ^ 64
      rw [hterm]
      exact Nat.le_succ _
    · exact absurd (hterm.symm.trans heq) (Nat.succ_ne_self _)
  | elected =>
    simp only [Host.perform] at hs
    split_ifs at hs
    cases hs
    exact .keeps rfl le_rfl fun _ => rfl
  | response term => exact (drift_observeTerm _ _).voting
  | appendEntries io req => exact (drift_handleAppendEntries ..).voting
  | appendReply peer req nextIdx resp => exact (drift_appendEntriesReply ..).voting
  | submit command =>
    obtain ⟨p, hp, rfl⟩ := map_eq_some_iff.1 hs
    unfold submitPublish at hp
    split_ifs at hp
    cases hp
    exact voting_of_standing rfl
  | persist _ | saveSnapshot _ | snapshotSent _ _ =>
    exact voting_of_standing rfl
  | rollback entry len => exact voting_of_standing (standing_submitRollback _ _ _)
  | commit => exact voting_of_standing (standing_updateCommitIndex _ _ _)
  | apply =>
    obtain ⟨p, hp, rfl⟩ := map_eq_some_iff.1 hs
    unfold applyNext at hp
    split_ifs at hp
    cases hp
    exact voting_of_standing rfl
  | chunk io req => exact (drift_handleInstallSnapshot ..).voting
  | finishInstall index term walOk =>
    cases walOk <;> exact voting_of_standing rfl
  | finishCompact index term walOk =>
    cases walOk <;> exact voting_of_standing (standing_compactFinish _ _ _)
  | crash installOk walEntries status =>
    obtain ⟨x, hx, rfl⟩ := map_eq_some_iff.1 hs
    refine .restarts _ _ rfl fun T hT => ?_
    cases hdir : cfg.stateDir self with
    | true => simpa [hdir] using (loadFromDisk_currentTerm_le_iff hdir hx T).1 hT
    | false => exact ⟨fun _ hf => by simp at hf, fun _ he => by simp at he⟩

/-! ## Votes that bind -/

/-- The trace holds a vote of term `T` for `c`, and no restart since has come back to that term or
to an earlier one. -/
inductive Binds (T : Nat) (c : N) : List (Mark N C B) → Prop
  | here (rest : List (Mark N C B)) : Binds T c (.granted T (some c) :: rest)
  | granted (T' : Nat) (c' : Option N) {rest : List (Mark N C B)} (h : Binds T c rest) :
      Binds T c (.granted T' c' :: rest)
  | restarted {file : Option (Snapshot B)} {walEntries : List (LogEntry C)}
      {rest : List (Mark N C B)} (habove : ¬DiskBelow file walEntries T) (h : Binds T c rest) :
      Binds T c (.restarted file walEntries :: rest)

/-- Every vote agrees with the ones that bound when it was given. -/
inductive Coherent : List (Mark N C B) → Prop
  | nil : Coherent []
  | granted {T : Nat} {c : N} {rest : List (Mark N C B)} (hone : ∀ c', Binds T c' rest → c' = c)
      (h : Coherent rest) : Coherent (.granted T (some c) :: rest)
  | restarted {file : Option (Snapshot B)} {walEntries : List (LogEntry C)}
      {rest : List (Mark N C B)} (h : Coherent rest) :
      Coherent (.restarted file walEntries :: rest)

/-- A vote that binds is one of an earlier term or the node's present one. -/
structure VoteInv (h : Host N C B) : Prop where
  binds : ∀ T c, Binds T c h.trace → T ≤ h.node.currentTerm ∧
    (T = h.node.currentTerm → h.node.votedFor = some c)
  coherent : Coherent h.trace

theorem voteInv_init : VoteInv (Host.init : Host N C B) :=
  ⟨fun _ _ hb => (by cases hb), .nil⟩

/-- **One step keeps the votes coherent.** -/
theorem VoteInv.step (hi : VoteInv h) (hv : Voting self h h') : VoteInv h' := by
  obtain ⟨hbinds, hcons⟩ := hi
  cases hv with
  | keeps htrace hterm hvote =>
    refine ⟨fun T c hb => ?_, htrace ▸ hcons⟩
    rw [htrace] at hb
    obtain ⟨hle, hsame⟩ := hbinds T c hb
    refine ⟨hle.trans hterm, fun heq => ?_⟩
    have hstay : h'.node.currentTerm = h.node.currentTerm := by omega
    rw [hvote hstay]
    exact hsame (heq.trans hstay)
  | grants candidate htrace hterm hfree hvote =>
    -- a vote of this term that binds was for the same candidate
    have hone : ∀ c, Binds h'.node.currentTerm c h.trace → c = candidate := by
      intro c hb
      obtain ⟨hle, hsame⟩ := hbinds _ c hb
      have hstay : h'.node.currentTerm = h.node.currentTerm := by omega
      have hc := hsame hstay
      rcases hfree hstay with hnone | hsome
      · rw [hnone] at hc
        cases hc
      · rw [hsome] at hc
        exact (some.inj hc).symm
    refine ⟨fun T c hb => ?_, by rw [htrace]; exact .granted hone hcons⟩
    rw [htrace] at hb
    cases hb with
    | here => exact ⟨le_refl _, fun _ => hvote⟩
    | granted _ _ hb =>
      obtain ⟨hle, _⟩ := hbinds T c hb
      refine ⟨hle.trans hterm, fun heq => ?_⟩
      rw [hvote, hone c (heq ▸ hb)]
  | restarts file walEntries htrace hterm =>
    refine ⟨fun T c hb => ?_, by rw [htrace]; exact .restarted hcons⟩
    rw [htrace] at hb
    cases hb with
    | restarted habove hb =>
      -- the term read from disk lies above every vote that still binds
      have hlt : T < h'.node.currentTerm :=
        Nat.lt_of_not_le fun hle => habove (hterm T hle)
      exact ⟨le_of_lt hlt, fun heq => absurd heq (ne_of_lt hlt)⟩

theorem voteInv_reach [DecidableEq N]
    (hs : Reach (Host.step cfg self) (fun h a => proper h a = true) Host.init h) : VoteInv h :=
  hs.invariant voteInv_init fun _ _ _ hi ha hu => hi.step (voting_step ha hu)

theorem Coherent.tail {later rest : List (Mark N C B)} (hc : Coherent (later ++ rest)) :
    Coherent rest := by
  induction later with
  | nil => exact hc
  | cons m later ih =>
    cases hc with
    | granted _ hc => exact ih hc
    | restarted hc => exact ih hc

/-- A vote that no longer binds was undone by a restart. -/
theorem restarted_of_not_binds {T : Nat} {c : N} {between earlier : List (Mark N C B)}
    (h : ¬Binds T c (between ++ .granted T (some c) :: earlier)) :
    ∃ file walEntries, .restarted file walEntries ∈ between ∧ DiskBelow file walEntries T := by
  induction between with
  | nil => exact absurd (.here earlier) h
  | cons m between ih =>
    cases m with
    | granted T' c' =>
      obtain ⟨file, walEntries, hmem, hdisk⟩ := ih fun hb => h (.granted T' c' hb)
      exact ⟨file, walEntries, List.mem_cons_of_mem _ hmem, hdisk⟩
    | restarted file walEntries =>
      by_cases hdisk : DiskBelow file walEntries T
      · exact ⟨file, walEntries, List.mem_cons_self, hdisk⟩
      · obtain ⟨file, walEntries, hmem, hdisk⟩ := ih fun hb => h (.restarted hdisk hb)
        exact ⟨file, walEntries, List.mem_cons_of_mem _ hmem, hdisk⟩

/-- **Two votes in one term.**  If a node has given its vote of term `T` to `c` and later to `c'`,
it has crashed in between, and nothing on disk then carried a term above `T`. -/
theorem second_vote_after_crash [DecidableEq N]
    (hs : Reach (Host.step cfg self) (fun h a => proper h a = true) Host.init h) {T : Nat}
    {c c' : N}
    {later between earlier : List (Mark N C B)}
    (htrace : h.trace =
      later ++ .granted T (some c') :: (between ++ .granted T (some c) :: earlier))
    (hne : c ≠ c') :
    ∃ file walEntries, .restarted file walEntries ∈ between ∧ DiskBelow file walEntries T := by
  have hcons := (voteInv_reach hs).coherent
  rw [htrace] at hcons
  cases hcons.tail with
  | granted hone _ => exact restarted_of_not_binds fun hb => hne (hone c hb)

/-- All records survive a crash. -/
def surviving [DecidableEq C] (h : Host N C B) : Input N C B → Bool
  | .crash _ walEntries status => walEntries = h.node.wal ∧ status = .clean
  | _ => true

/-- Candidate `a` asks for the vote of term `1`, the node crashes, candidate `b` asks for it. -/
def revoteSchedule (a b : N) : List (Input N Nat Nat) :=
  [.requestVote ⟨1, some a, 0, 0⟩, .crash true [] .clean, .requestVote ⟨1, some b, 0, 0⟩]

/-- **A vote does not survive a crash**, even if everything that was written does. -/
theorem voted_twice :
    ∃ h : Host (Fin 3) Nat Nat,
      Reach (Host.step (.complete 3 1) 0) (fun h a => surviving h a ∧ proper h a) Host.init h ∧
      ∃ T c c', c ≠ c' ∧ .granted T (some c) ∈ h.trace ∧ .granted T (some c') ∈ h.trace := by
  have hrun : (execute (Host.step (.complete 3 1) 0) (fun h a => surviving h a && proper h a)
      Host.init (revoteSchedule 1 2)).map Host.trace =
      some [.granted 1 (some 2), .restarted none [], .granted 1 (some 1)] := rfl
  obtain ⟨h, hs, htrace⟩ := reach_observe (P := fun _ => True) (fun _ _ => trivial)
    (fun _ _ _ ha => Bool.and_eq_true_iff.1 ha) hrun
  refine ⟨h, hs, 1, 1, 2, by decide, ?_, ?_⟩ <;> simp [htrace]

theorem second_vote_after_crash_revote :
    ∃ h : Host (Fin 3) Nat Nat,
      Reach (Host.step (.complete 3 1) 0) (fun h a => proper h a = true) Host.init h ∧
      h.trace = [] ++ .granted 1 (some 2) :: ([.restarted none []] ++ .granted 1 (some 1) :: []) ∧
      ∃ file walEntries, .restarted file walEntries ∈
        [(.restarted none [] : Mark (Fin 3) Nat Nat)] ∧
        DiskBelow file walEntries 1 := by
  have hrun : (execute (Host.step (.complete 3 1) 0) proper Host.init
      (revoteSchedule 1 2)).map Host.trace =
      some ([] ++ .granted 1 (some 2) :: ([.restarted none []] ++ .granted 1 (some 1) :: [])) := rfl
  obtain ⟨h, hs, htrace⟩ := reach_observe (P := fun _ => True) (fun _ _ => trivial)
    (fun _ _ _ ha => ha) hrun
  exact ⟨h, hs, htrace, second_vote_after_crash hs htrace (by decide)⟩

end MxKeys.Raft
