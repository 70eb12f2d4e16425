/-
# MxKeys.KeyCache.State — the replicated key cache and its Raft callbacks.

The cache maps a server name and a key ID to the newest `KeyEntry` seen, by timestamp.  The source
keeps a map of maps; an inner map that is empty (`mergeState` can make one) is read like one that is
missing, so the two levels are one finite map here.  `raftLastApplied` is the index that the cache
claims to reflect.

The callbacks are those that `startRaft` registers: `onApply`, `snapshotKeyState` and
`installKeySnapshot`.  How commands and snapshots are written as JSON is a parameter, `Codec`, of
which the results only need that a snapshot is read back as it was written.

The one fact about last-writer-wins that replication relies on is `applyCommand_replay`: a command
that is part of the history already changes nothing when it is applied again.  Recovery and a late
snapshot repeat commands in any order and number; `reapplied_harmless` is that fact along any such
sequence.
-/
import Mathlib.Data.Finmap
import MxKeys.Raft.Cluster

namespace MxKeys.KeyCache

open MxKeys.Raft
open List

/-- `KeyEntry`; the timestamp in nanoseconds. -/
structure KeyEntry where
  serverName : String
  keyID : String
  keyData : String
  validUntilTS : Int
  timestamp : Int
  nodeID : String
  hash : String
  deriving DecidableEq

/-- `raftCommand`, without the timestamp that no one reads. -/
structure RaftCommand where
  type : String
  entry : Option KeyEntry

/-- The map, by server name and key ID. -/
abbrev Keys := Finmap fun _ : String × String => KeyEntry

/-- `CRDTState`. -/
structure CRDTState where
  keys : Keys
  raftLastApplied : Nat

/-- `keySnapshotVersion`. -/
def keySnapshotVersion : Nat := 1

/-- How commands (`C`) and key snapshots (bytes `B`) are written and read. -/
structure Codec (C B : Type*) where
  /-- `json.Unmarshal` into a `raftCommand`. -/
  decodeCommand : C → Option RaftCommand
  /-- `json.Marshal` of a `keyStateSnapshot`: version and keys. -/
  encodeSnapshot : Nat → Keys → List B
  decodeSnapshot : List B → Option (Nat × Keys)
  decode_encode : ∀ version keys, decodeSnapshot (encodeSnapshot version keys) =
    some (version, keys)
  encode_ne_nil : ∀ version keys, encodeSnapshot version keys ≠ []

variable {C B : Type*} (codec : Codec C B)

/-! ## The callbacks -/

/-- `applyEntryLocked`: the entry is kept unless one at least as new is there. -/
def applyEntryLocked (keys : Keys) (entry : KeyEntry) : Keys :=
  match keys.lookup (entry.serverName, entry.keyID) with
  | some existing =>
    if existing.timestamp < entry.timestamp then
      keys.insert (entry.serverName, entry.keyID) entry
    else keys
  | none => keys.insert (entry.serverName, entry.keyID) entry

/-- What a command does to the keys.  Commands that cannot be read, of another type or without an
entry do nothing. -/
def Codec.applyCommand (keys : Keys) (command : C) : Keys :=
  match codec.decodeCommand command with
  | some cmd =>
    if cmd.type = "key_update" then
      match cmd.entry with
      | some entry => applyEntryLocked keys entry
      | none => keys
    else keys
  | none => keys

/-- The callback of `SetOnApply`. -/
def Codec.onApply (st : CRDTState) (entry : LogEntry C) : CRDTState where
  keys := codec.applyCommand st.keys entry.command
  raftLastApplied := max st.raftLastApplied entry.index

/-- `snapshotKeyState`: the map, and the index it reflects. -/
def Codec.snapshotKeyState (st : CRDTState) : List B × Nat :=
  (codec.encodeSnapshot keySnapshotVersion st.keys, st.raftLastApplied)

/-- `installKeySnapshot`: the keys are replaced whatever index they reflect. -/
def Codec.installKeySnapshot (st : CRDTState) (data : List B) (lastIncludedIndex _term : Nat) :
    Option CRDTState :=
  if data.length = 0 then some ⟨∅, max st.raftLastApplied lastIncludedIndex⟩
  else
    match codec.decodeSnapshot data with
    | some (version, keys) =>
      if version ≠ keySnapshotVersion then none
      else some ⟨keys, max st.raftLastApplied lastIncludedIndex⟩
    | none => none

/-- The callbacks that `startRaft` registers. -/
def Codec.callbacks : Callbacks C B CRDTState where
  init := ⟨∅, 0⟩
  onApply := codec.onApply
  snapshotProvider := codec.snapshotKeyState
  snapshotInstaller := codec.installKeySnapshot

/-! ## Histories -/

/-- The keys after a history of commands. -/
def Codec.replay (h : List (LogEntry C)) : Keys :=
  h.foldl (fun keys e => codec.applyCommand keys e.command) ∅

theorem Codec.replay_concat (h : List (LogEntry C)) (e : LogEntry C) :
    codec.replay (h ++ [e]) = codec.applyCommand (codec.replay h) e.command := by
  simp [Codec.replay]

/-- The snapshot of a state is installed as that state. -/
theorem Codec.install_snapshot (st : CRDTState) (keys : Keys) (index term : Nat) :
    codec.installKeySnapshot st (codec.encodeSnapshot keySnapshotVersion keys) index term =
      some ⟨keys, max st.raftLastApplied index⟩ := by
  unfold Codec.installKeySnapshot
  rw [if_neg fun h0 => codec.encode_ne_nil _ keys (eq_nil_of_length_eq_zero h0),
    codec.decode_encode]
  rfl

/-- The keys hold an entry for the same key that is at least as new. -/
def Dominates (keys : Keys) (entry : KeyEntry) : Prop :=
  ∃ x, keys.lookup (entry.serverName, entry.keyID) = some x ∧ entry.timestamp ≤ x.timestamp

variable {keys : Keys} {entry : KeyEntry} {h : List (LogEntry C)}

theorem applyEntryLocked_of_dominates (h : Dominates keys entry) :
    applyEntryLocked keys entry = keys := by
  obtain ⟨x, hx, hle⟩ := h
  unfold applyEntryLocked
  rw [hx]
  exact if_neg (not_lt.2 hle)

theorem dominates_applyEntryLocked (keys : Keys) (entry : KeyEntry) :
    Dominates (applyEntryLocked keys entry) entry := by
  unfold applyEntryLocked
  split
  · rename_i x hx
    split_ifs with hlt
    · exact ⟨entry, Finmap.lookup_insert _, le_refl _⟩
    · exact ⟨x, hx, not_lt.1 hlt⟩
  · exact ⟨entry, Finmap.lookup_insert _, le_refl _⟩

/-- **The cache never goes back**: what an entry is dominated by is only replaced by newer ones. -/
theorem Dominates.applyEntryLocked (h : Dominates keys entry) (other : KeyEntry) :
    Dominates (applyEntryLocked keys other) entry := by
  obtain ⟨x, hx, hle⟩ := h
  unfold KeyCache.applyEntryLocked
  by_cases hkey : (entry.serverName, entry.keyID) = (other.serverName, other.keyID)
  · rw [← hkey, hx]
    dsimp only
    split_ifs with hlt
    · exact ⟨other, Finmap.lookup_insert _, le_trans hle (le_of_lt hlt)⟩
    · exact ⟨x, hx, hle⟩
  · split
    · split_ifs
      · exact ⟨x, by rw [Finmap.lookup_insert_of_ne _ hkey]; exact hx, hle⟩
      · exact ⟨x, hx, hle⟩
    · exact ⟨x, by rw [Finmap.lookup_insert_of_ne _ hkey]; exact hx, hle⟩

/-- A command never does anything, or it always writes the same entry. -/
theorem Codec.applyCommand_cases (command : C) : (∀ k, codec.applyCommand k command = k) ∨
    ∃ entry, ∀ k, codec.applyCommand k command = applyEntryLocked k entry := by
  unfold Codec.applyCommand
  split
  · split_ifs
    · split
      · exact .inr ⟨_, fun _ => rfl⟩
      · exact .inl fun _ => rfl
    · exact .inl fun _ => rfl
  · exact .inl fun _ => rfl

theorem Codec.dominates_foldl (later : List (LogEntry C)) (h : Dominates keys entry) :
    Dominates (later.foldl (fun keys e => codec.applyCommand keys e.command) keys) entry := by
  induction later generalizing keys with
  | nil => exact h
  | cons e rest ih =>
    refine ih ?_
    show Dominates (codec.applyCommand keys e.command) entry
    rcases codec.applyCommand_cases e.command with hnone | ⟨other, hother⟩
    · rw [hnone]
      exact h
    · rw [hother]
      exact h.applyEntryLocked other

/-- **Applying a command of the history again changes nothing.** -/
theorem Codec.applyCommand_replay {e : LogEntry C} (he : e ∈ h) :
    codec.applyCommand (codec.replay h) e.command = codec.replay h := by
  obtain ⟨before, after, rfl⟩ := append_of_mem he
  have hsplit : codec.replay (before ++ e :: after) =
      after.foldl (fun keys e => codec.applyCommand keys e.command)
        (codec.applyCommand (codec.replay before) e.command) := by
    simp [Codec.replay]
  rw [hsplit]
  rcases codec.applyCommand_cases e.command with hnone | ⟨entry, hentry⟩
  · exact hnone _
  · rw [hentry, hentry]
    exact applyEntryLocked_of_dominates
      (codec.dominates_foldl after (dominates_applyEntryLocked (codec.replay before) entry))

/-! ## Repeated commands and snapshots -/

/-- The state after the callbacks for a list of entries, from the empty cache. -/
def Codec.applied (h : List (LogEntry C)) : CRDTState := h.foldl codec.onApply ⟨∅, 0⟩

theorem Codec.applied_keys (h : List (LogEntry C)) : (codec.applied h).keys = codec.replay h := by
  have hfold : ∀ (l : List (LogEntry C)) (st : CRDTState), (l.foldl codec.onApply st).keys =
      l.foldl (fun keys e => codec.applyCommand keys e.command) st.keys := by
    intro l
    induction l with
    | nil => exact fun st => rfl
    | cons e rest ih => exact fun st => ih (codec.onApply st e)
  exact hfold h ⟨∅, 0⟩

/-- What can happen to a cache again: an entry is applied, or a snapshot is installed, as the one of
any index and term. -/
inductive Again (C : Type*)
  | apply (e : LogEntry C)
  | install (lastIncludedIndex lastIncludedTerm : Nat)

/-- One such event, with the payload of the snapshot; `none` when the installer fails. -/
def Codec.again (data : List B) (st : CRDTState) : Again C → Option CRDTState
  | .apply e => some (codec.onApply st e)
  | .install index term => codec.installKeySnapshot st data index term

/-- The event repeats a command of the history. -/
def Again.Of (h : List (LogEntry C)) : Again C → Prop
  | .apply e => e.command ∈ h.map LogEntry.command
  | .install _ _ => True

/-- **One event again**: it succeeds and the keys stay. -/
theorem Codec.again_keys {st : CRDTState} (hst : st.keys = codec.replay h) {event : Again C}
    (hevent : event.Of h) :
    ∃ st', codec.again (codec.snapshotKeyState (codec.applied h)).1 st event = some st' ∧
      st'.keys = codec.replay h := by
  cases event with
  | apply e =>
    obtain ⟨e', he', hcmd⟩ := mem_map.1 hevent
    refine ⟨codec.onApply st e, rfl, ?_⟩
    show codec.applyCommand st.keys e.command = codec.replay h
    rw [hst, ← hcmd, codec.applyCommand_replay he']
  | install index term =>
    refine ⟨⟨codec.replay h, max st.raftLastApplied index⟩, ?_, rfl⟩
    show codec.installKeySnapshot st (codec.encodeSnapshot keySnapshotVersion
      (codec.applied h).keys) index term = _
    rw [codec.applied_keys, codec.install_snapshot]

/-- **Repeating committed commands is harmless.**  After a list of commands, any sequence of
commands of that list and of installs of the snapshot taken after it succeeds and leaves the keys
as they are. -/
theorem reapplied_harmless (h : List (LogEntry C)) (events : List (Again C))
    (hevents : ∀ event ∈ events, event.Of h) :
    ∃ st, events.foldlM (codec.again (codec.snapshotKeyState (codec.applied h)).1)
        (codec.applied h) = some st ∧ st.keys = (codec.applied h).keys := by
  rw [codec.applied_keys]
  have hrun : ∀ (l : List (Again C)), (∀ event ∈ l, event.Of h) → ∀ st : CRDTState,
      st.keys = codec.replay h → ∃ st', l.foldlM
        (codec.again (codec.snapshotKeyState (codec.applied h)).1) st = some st' ∧
        st'.keys = codec.replay h := by
    intro l
    induction l with
    | nil => exact fun _ st hst => ⟨st, rfl, hst⟩
    | cons event rest ih =>
      intro hl st hst
      obtain ⟨st', hstep, hst'⟩ := codec.again_keys hst (hl event mem_cons_self)
      obtain ⟨st'', hrest, hst''⟩ := ih (fun e he => hl e (mem_cons_of_mem _ he)) st' hst'
      exact ⟨st'', by rw [foldlM_cons, hstep]; exact hrest, hst''⟩
  exact hrun events hevents _ (codec.applied_keys h)

/-- Commands are entries and a snapshot is one unit. -/
def Codec.plain : Codec KeyEntry (Nat × Keys) where
  decodeCommand := fun entry => some ⟨"key_update", some entry⟩
  encodeSnapshot := fun version keys => [(version, keys)]
  decodeSnapshot := fun data => data.head?
  decode_encode := fun _ _ => rfl
  encode_ne_nil := fun _ _ => List.cons_ne_nil _ _

/-- A key of the server `hs`. -/
def keyOf (keyID : String) (timestamp : Int) : KeyEntry :=
  ⟨"hs", keyID, "data", 0, timestamp, "node", "hash"⟩

/-- Two entries of one key at the same time, and an older one of another node: whatever is repeated,
the first stays. -/
theorem reapplied_harmless_equal :
    ∃ st, [Again.apply ⟨2, 1, keyOf "a" 5⟩, .install 3 1, .apply ⟨3, 1, keyOf "a" 4⟩].foldlM
        (Codec.plain.again (Codec.plain.snapshotKeyState (Codec.plain.applied
          [⟨1, 1, keyOf "a" 5⟩, ⟨2, 1, keyOf "a" 5⟩, ⟨3, 1, keyOf "a" 4⟩])).1)
        (Codec.plain.applied [⟨1, 1, keyOf "a" 5⟩, ⟨2, 1, keyOf "a" 5⟩, ⟨3, 1, keyOf "a" 4⟩]) =
          some st ∧
      st.keys = (Codec.plain.applied
        [⟨1, 1, keyOf "a" 5⟩, ⟨2, 1, keyOf "a" 5⟩, ⟨3, 1, keyOf "a" 4⟩]).keys := by
  refine reapplied_harmless Codec.plain _ _ fun event hevent => ?_
  simp only [mem_cons, not_mem_nil, or_false] at hevent
  rcases hevent with rfl | rfl | rfl
  · exact mem_cons_self
  · trivial
  · exact mem_cons_of_mem _ (mem_cons_of_mem _ mem_cons_self)

end MxKeys.KeyCache
