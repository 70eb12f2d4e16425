/-
# MxKeys.KeyCache.Replica — the key cache of a node against the committed history.

The apply loop, the installer and compaction work on the cache in turns that no common lock orders.
`NodeInv` is what holds between any two of their sections: the keys are those of the history up to
`raftLastApplied`, wherever `lastApplied` is meanwhile, and every snapshot on its way (in a file, in
a transfer, in the hands of the holder of `snapMu`) holds the keys of the history up to its index.

A command may be applied again after a snapshot that covers it was installed; by
`applyCommand_replay` this changes nothing.
-/
import MxKeys.KeyCache.State
import MxKeys.Raft.Applying
import MxKeys.Raft.Safety

namespace MxKeys.KeyCache

open MxKeys.Lib MxKeys.Raft
open List Option

variable {N C B S : Type*}

/-! ## Committed histories -/

/-- `h` is a committed history: some node has applied its entries, at the indices `1`, `2`, … -/
def Committed (applied : List (N × LogEntry C)) (h : List (LogEntry C)) : Prop :=
  ∀ k e, h[k]? = some e → e.index = k + 1 ∧ ∃ m, (m, e) ∈ applied

/-- No two different entries were applied at one index. -/
def Consistent (applied : List (N × LogEntry C)) : Prop :=
  ∀ p ∈ applied, ∀ q ∈ applied, p.2.index = q.2.index → p.2 = q.2

variable {applied applied' : List (N × LogEntry C)} {h h' : List (LogEntry C)}

theorem Committed.mono (hh : Committed applied h) (hsub : applied ⊆ applied') :
    Committed applied' h := by
  intro k e he
  obtain ⟨hi, m, hm⟩ := hh k e he
  exact ⟨hi, m, hsub hm⟩

/-- **There is one history of each length.** -/
theorem Consistent.unique (hc : Consistent applied) (hh : Committed applied h)
    (hh' : Committed applied h') (hlen : h.length = h'.length) : h = h' := by
  refine ext_getElem hlen fun k hk hk' => ?_
  obtain ⟨hi, m, hm⟩ := hh k _ (getElem?_eq_getElem hk)
  obtain ⟨hi', m', hm'⟩ := hh' k _ (getElem?_eq_getElem hk')
  exact hc _ hm _ hm' (hi.trans hi'.symm)

variable {m : N} {e : LogEntry C}

/-- A history goes on with an entry that was applied at the next index. -/
theorem Committed.concat (hh : Committed applied h) (he : (m, e) ∈ applied)
    (hi : e.index = h.length + 1) : Committed applied (h ++ [e]) := by
  intro k f hf
  rcases lt_or_ge k h.length with hlt | hge
  · rw [getElem?_append_left hlt] at hf
    exact hh k f hf
  · rw [getElem?_append_right hge] at hf
    obtain ⟨hk, rfl⟩ := List.getElem?_eq_some_iff.1 hf
    rw [length_singleton] at hk
    rw [getElem_singleton]
    exact ⟨by omega, m, he⟩

/-- An entry that was applied at an index of a history is in it. -/
theorem Consistent.mem (hc : Consistent applied) (hh : Committed applied h) (he : (m, e) ∈ applied)
    (hpos : 1 ≤ e.index) (hi : e.index ≤ h.length) :
    e ∈ h := by
  have hlt : e.index - 1 < h.length := by omega
  obtain ⟨hi', m', hm'⟩ := hh _ _ (getElem?_eq_getElem hlt)
  have heq : e = h[e.index - 1] := hc _ he _ hm' (by show e.index = h[e.index - 1].index; omega)
  rw [heq]
  exact getElem_mem hlt

/-! ## Snapshots -/

variable (codec : Codec C B)

/-- `data` is the snapshot of the keys after the first `index` commands. -/
def Content (applied : List (N × LogEntry C)) (index : Nat) (data : List B) : Prop :=
  ∃ h, Committed applied h ∧ h.length = index ∧
    data = codec.encodeSnapshot keySnapshotVersion (codec.replay h)

/-- The bytes received so far are the first ones of a snapshot. -/
def PendingContent (applied : List (N × LogEntry C)) (p : PendingSnapshot B) : Prop :=
  p.data = [] ∨ ∃ data, Content codec applied p.index data ∧ p.data <+: data

/-- The snapshot in the hands of the holder of `snapMu`; one taken here covers no more than has been
applied. -/
def JobContent (applied : List (N × LogEntry C)) (lastApplied : Nat) : SnapJob B → Prop
  | .install _ x _ data | .installed _ x _ data | .renamed _ x _ data =>
    Content codec applied x data
  | .provided data x | .validated data x _ => Content codec applied x data ∧ x ≤ lastApplied
  | .saved x _ => x ≤ lastApplied

variable {codec} {index : Nat} {data data' : List B}

theorem Content.mono (hd : Content codec applied index data) (hsub : applied ⊆ applied') :
    Content codec applied' index data := by
  obtain ⟨h, hh, hlen, heq⟩ := hd
  exact ⟨h, hh.mono hsub, hlen, heq⟩

theorem Content.unique (hd : Content codec applied index data)
    (hd' : Content codec applied index data') (hc : Consistent applied) : data = data' := by
  obtain ⟨h, hh, hlen, rfl⟩ := hd
  obtain ⟨h', hh', hlen', rfl⟩ := hd'
  rw [hc.unique hh hh' (hlen.trans hlen'.symm)]

theorem PendingContent.mono {p : PendingSnapshot B} (hp : PendingContent codec applied p)
    (hsub : applied ⊆ applied') : PendingContent codec applied' p := by
  rcases hp with hp | ⟨data, hd, hpre⟩
  · exact .inl hp
  · exact .inr ⟨data, hd.mono hsub, hpre⟩

theorem JobContent.mono {L L' : Nat} {j : SnapJob B} (hj : JobContent codec applied L j)
    (hsub : applied ⊆ applied') (hL : L ≤ L') : JobContent codec applied' L' j := by
  cases j with
  | install _ _ _ _ | installed _ _ _ _ | renamed _ _ _ _ => exact Content.mono hj hsub
  | provided _ _ | validated _ _ _ => exact ⟨hj.1.mono hsub, le_trans hj.2 hL⟩
  | saved _ _ => exact hj.trans hL

variable {x : Node N C B} {snap : Snapshot B}

/-- The bytes received for the snapshot that a chunk belongs to are its first ones. -/
theorem transferFor_content (hc : Consistent applied) (hp : PendingContent codec applied x.pending)
    (hsnap : Content codec applied snap.lastIncludedIndex snap.data) (cfg : Config N) (sender : N)
    (term offset : Nat) :
    (x.transferFor (snapshotChunk cfg sender snap term offset)).index = snap.lastIncludedIndex ∧
      (x.transferFor (snapshotChunk cfg sender snap term offset)).data <+: snap.data := by
  unfold Node.transferFor
  split_ifs with hnew
  · exact ⟨rfl, nil_prefix⟩
  · have hidx : snap.lastIncludedIndex = x.pending.index := by
      by_contra hne
      exact hnew (by simp [Node.newTransfer, snapshotChunk, hne])
    refine ⟨hidx.symm, ?_⟩
    rcases hp with hnil | ⟨data, hd, hpre⟩
    · rw [hnil]
      exact nil_prefix
    · rw [← hidx] at hd
      rw [hsnap.unique hd hc]
      exact hpre

/-- **A transfer delivers the snapshot it was started for**, even if several leaders send chunks of
it: the bytes received are always the first ones, and the last chunk completes them. -/
theorem receiveChunk_content (hc : Consistent applied) {cfg : Config N} {self sender : N}
    {io : ChunkIo} {term offset : Nat} (hp : PendingContent codec applied x.pending)
    (hsnap : Content codec applied snap.lastIncludedIndex snap.data) {x' : Node N C B}
    {out : ChunkResult B}
    (h : receiveChunk cfg self io x (snapshotChunk cfg sender snap term offset) = (x', out)) :
    ∃ p, x' = { x with pending := p } ∧ PendingContent codec applied p ∧
      ∀ data, out = .install data → data = snap.data := by
  -- whether the transfer starts here or goes on, it is one of this snapshot
  have hstart := transferFor_content (x := x) hc hp hsnap cfg sender term offset
  unfold receiveChunk at h
  generalize x.transferFor (snapshotChunk cfg sender snap term offset) = pend at h hstart
  obtain ⟨hidx, hpre⟩ := hstart
  dsimp only at h
  split at h
  · cases h
    exact ⟨_, rfl, .inl rfl, nofun⟩
  split at h
  · cases h
    exact ⟨_, rfl, .inl rfl, nofun⟩
  rename_i hoff
  split at h
  · cases h
    exact ⟨_, rfl, .inl rfl, nofun⟩
  have happend : pend.data ++ (snap.data.drop offset).take snapshotChunkSize =
      snap.data.take (offset + snapshotChunkSize) := by
    have hlen : offset = pend.data.length := not_not.1 hoff
    rw [take_add, hlen, ← prefix_iff_eq_take.1 hpre]
  split at h
  · cases h
    refine ⟨_, rfl, .inr ⟨snap.data, hidx ▸ hsnap, ?_⟩, nofun⟩
    show pend.data ++ (snap.data.drop offset).take snapshotChunkSize <+: snap.data
    rw [happend]
    exact take_prefix _ _
  rename_i hdone
  split at h
  · cases h
    exact ⟨_, rfl, .inl rfl, nofun⟩
  · cases h
    refine ⟨_, rfl, .inl rfl, fun data hd => ?_⟩
    obtain rfl := ChunkResult.install.inj hd
    exact happend.trans (take_of_length_le (by simpa [snapshotChunk] using hdone))

/-! ## A node and its cache -/

/-- The index that the apply loop has taken and not applied; `0` if there is none. -/
def takenAt : Option (LogEntry C) → Nat
  | some e => e.index
  | none => 0

/-- The index of a snapshot that the installer has put into the cache while the node's own
`lastApplied` does not know of it; `0` if there is none. -/
def replacedAt : Option (SnapJob B) → Nat
  | some (.installed _ x _ _) | some (.renamed _ x _ _) => x
  | _ => 0

/-- What holds of a node between any two sections. -/
structure NodeInv (codec : Codec C B) (applied : List (N × LogEntry C)) (x : Node N C B)
    (st : CRDTState) (applying : Option (LogEntry C)) (job : Option (SnapJob B)) : Prop where
  keys : ∃ h, Committed applied h ∧ h.length = st.raftLastApplied ∧ st.keys = codec.replay h
  /-- The apply loop is at most one entry ahead of the cache. -/
  taken : takenAt applying ≤ st.raftLastApplied + 1 ∧ takenAt applying ≤ x.lastApplied ∧
    x.lastApplied ≤ max st.raftLastApplied (takenAt applying)
  /-- The cache is ahead of the apply loop only by a snapshot being installed. -/
  replaced : replacedAt job ≤ st.raftLastApplied ∧
    st.raftLastApplied ≤ max x.lastApplied (replacedAt job)
  offset : x.logOffset ≤ x.lastApplied
  job : ∀ j, job = some j → JobContent codec applied x.lastApplied j
  file : ∀ f, x.snapshotFile = some f → Content codec applied f.lastIncludedIndex f.data
  pending : PendingContent codec applied x.pending

namespace NodeInv

variable {x x' : Node N C B} {st : CRDTState} {applying : Option (LogEntry C)}
  {job : Option (SnapJob B)}

theorem mono (hx : NodeInv codec applied x st applying job) (hsub : applied ⊆ applied') :
    NodeInv codec applied' x st applying job where
  keys := by
    obtain ⟨h, hh, hlen, heq⟩ := hx.keys
    exact ⟨h, hh.mono hsub, hlen, heq⟩
  taken := hx.taken
  replaced := hx.replaced
  offset := hx.offset
  job := fun j hj => (hx.job j hj).mono hsub le_rfl
  file := fun f hf => (hx.file f hf).mono hsub
  pending := hx.pending.mono hsub

theorem frame (hx : NodeInv codec applied x st applying job) (h : cachePart x' = cachePart x) :
    NodeInv codec applied x' st applying job := by
  obtain ⟨hfile, hrest⟩ := Prod.mk.inj h
  obtain ⟨hpend, hrest⟩ := Prod.mk.inj hrest
  obtain ⟨hlast, hoff⟩ := Prod.mk.inj hrest
  exact ⟨hx.keys, by rw [hlast]; exact hx.taken, by rw [hlast]; exact hx.replaced,
    by rw [hlast, hoff]; exact hx.offset, by rw [hlast]; exact hx.job, by rw [hfile]; exact hx.file,
    by rw [hpend]; exact hx.pending⟩

/-! ### The apply loop -/

variable {e : LogEntry C}

theorem applyTake (hx : NodeInv codec applied x st none job) (he : e.index = x.lastApplied + 1) :
    NodeInv codec applied x.bumpApplied st (some e) job := by
  obtain ⟨_, _, hidle⟩ := hx.taken
  obtain ⟨hle, hge⟩ := hx.replaced
  have hidle : x.lastApplied ≤ st.raftLastApplied := by simpa [takenAt] using hidle
  refine ⟨hx.keys, ?_, ⟨hle, ?_⟩, Nat.le_succ_of_le hx.offset, fun j hj => ?_, hx.file, hx.pending⟩
  · simp only [takenAt, Node.bumpApplied]
    omega
  · simp only [Node.bumpApplied]
    omega
  · exact (hx.job j hj).mono (fun _ hp => hp) (Nat.le_succ _)

/-- **`onApply`**: the entry is the next one of the history, or the history has it already. -/
theorem applyRun {n : N} (hx : NodeInv codec applied x st (some e) job)
    (hc : Consistent ((n, e) :: applied)) (hpos : 1 ≤ e.index) :
    NodeInv codec ((n, e) :: applied) x (codec.onApply st e) none job := by
  obtain ⟨htake, hlast, hle⟩ := hx.taken
  obtain ⟨hrep, hge⟩ := hx.replaced
  simp only [takenAt] at htake hlast hle
  obtain ⟨h, hh, hlen, hkeys⟩ := hx.keys
  have hsub : applied ⊆ (n, e) :: applied := subset_cons_self _ _
  have hx' := hx.mono hsub
  have hh' := hh.mono hsub
  refine ⟨?_, ⟨?_, ?_, ?_⟩, ⟨?_, ?_⟩, hx.offset, hx'.job, hx'.file, hx'.pending⟩
  · rcases lt_or_ge h.length e.index with hnext | hold
    · refine ⟨h ++ [e], hh'.concat mem_cons_self (by omega), ?_, ?_⟩
      · simp only [length_append, length_singleton, Codec.onApply]
        omega
      · rw [codec.replay_concat, ← hkeys]
        rfl
    · refine ⟨h, hh', ?_, ?_⟩
      · simp only [Codec.onApply]
        omega
      · have hmem := hc.mem hh' mem_cons_self hpos hold
        rw [← codec.applyCommand_replay hmem, ← hkeys]
        rfl
  all_goals
    simp only [takenAt, Codec.onApply]
    omega

/-! ### Installing -/

variable {term i index appliedIdx : Nat} {data : List B}

theorem handleInstallSnapshot (hx : NodeInv codec applied x st applying job)
    (hc : Consistent applied) {cfg : Config N} {self sender : N} {now offset : Nat} {io : ChunkIo}
    {snap : Snapshot B} (hsnap : Content codec applied snap.lastIncludedIndex snap.data)
    {out : ChunkResult B}
    (h : handleInstallSnapshot cfg self now io x (snapshotChunk cfg sender snap term offset) =
      (x', out)) :
    NodeInv codec applied x' st applying job ∧ ∀ data, out = .install data → data = snap.data := by
  unfold Raft.handleInstallSnapshot at h
  dsimp only at h
  split_ifs at h
  · cases h
    exact ⟨hx, nofun⟩
  · cases h
    exact ⟨hx, nofun⟩
  · cases h
    exact ⟨hx.frame rfl, nofun⟩
  · obtain ⟨p, rfl, hp, hdata⟩ := receiveChunk_content hc (x := x.hearLeader _ _ _ _) hx.pending
      hsnap h
    exact ⟨⟨hx.keys, hx.taken, hx.replaced, hx.offset, hx.job, hx.file, hp⟩, hdata⟩

/-- The installer is given a snapshot that is not behind the cache. -/
theorem runInstaller (hx : NodeInv codec applied x st applying (some (.install i index term data)))
    (hfwd : st.raftLastApplied ≤ index) :
    ∃ a, codec.installKeySnapshot st data index term = some a ∧
      NodeInv codec applied x a applying (some (.installed i index term data)) := by
  obtain ⟨h, hh, hlen, rfl⟩ := hx.job _ rfl
  obtain ⟨htake, hlast, hle⟩ := hx.taken
  obtain ⟨_, hge⟩ := hx.replaced
  refine ⟨_, codec.install_snapshot st _ index term, ⟨h, hh, ?_, rfl⟩, ?_, ?_, hx.offset, ?_,
    hx.file, hx.pending⟩
  · dsimp only
    omega
  · dsimp only
    omega
  · simp only [replacedAt]
    omega
  · intro j hj
    cases hj
    exact ⟨h, hh, hlen, rfl⟩

theorem renameSnapshot {file : Option (Snapshot B)}
    (hx : NodeInv codec applied x st applying (some (.installed i index term data)))
    (hfile : file = some ⟨index, term, data⟩ ∨ file = x.snapshotFile) :
    NodeInv codec applied (x.setSnapshotFile file) st applying
      (some (.renamed i index term data)) := by
  have hcontent : Content codec applied index data := hx.job _ rfl
  refine ⟨hx.keys, hx.taken, hx.replaced, hx.offset, ?_, fun f hf => ?_, hx.pending⟩
  · intro j hj
    cases hj
    exact hcontent
  · rcases hfile with rfl | rfl
    · cases hf
      exact hcontent
    · exact hx.file f hf

theorem installEnd (wal : List (LogEntry C))
    (hx : NodeInv codec applied x st applying (some (.renamed i index term data))) :
    NodeInv codec applied ((finishInstall x index term).setWal wal) st applying none := by
  obtain ⟨htake, hlast, hle⟩ := hx.taken
  obtain ⟨hrep, hge⟩ := hx.replaced
  have hoff := hx.offset
  simp only [replacedAt] at hrep hge
  refine ⟨hx.keys, ?_, ?_, ?_, nofun, hx.file, hx.pending⟩
  · simp only [finishInstall, Node.setWal]
    omega
  · simp only [finishInstall, Node.setWal, replacedAt]
    omega
  · simp only [finishInstall, Node.setWal]
    omega

/-! ### Compaction -/

/-- The holder of `snapMu` changes, and no snapshot of a leader is in the cache before its time. -/
theorem setJob {job' : Option (SnapJob B)} (hx : NodeInv codec applied x st applying job)
    (hrep : replacedAt job = 0) (hrep' : replacedAt job' = 0)
    (hjob : ∀ j, job' = some j → JobContent codec applied x.lastApplied j) :
    NodeInv codec applied x st applying job' :=
  ⟨hx.keys, hx.taken, by rw [hrep', ← hrep]; exact hx.replaced, hx.offset, hjob, hx.file,
    hx.pending⟩

theorem compactStart (hx : NodeInv codec applied x st applying none) :
    NodeInv codec applied x st applying
      (some (.provided (codec.snapshotKeyState st).1 (codec.snapshotKeyState st).2)) := by
  refine hx.setJob rfl rfl fun j hj => ?_
  cases hj
  obtain ⟨h, hh, hlen, hkeys⟩ := hx.keys
  refine ⟨⟨h, hh, hlen, by rw [← hkeys]; rfl⟩, ?_⟩
  simpa [replacedAt, Codec.snapshotKeyState] using hx.replaced.2

theorem compactCheck (hx : NodeInv codec applied x st applying (some (.provided data appliedIdx)))
    (term : Option Nat) : NodeInv codec applied x st applying
      (term.map fun t => .validated data appliedIdx t) := by
  have hcontent : Content codec applied appliedIdx data ∧ appliedIdx ≤ x.lastApplied :=
    hx.job _ rfl
  cases term with
  | none => exact hx.setJob rfl rfl nofun
  | some t =>
    refine hx.setJob rfl rfl fun j hj => ?_
    cases hj
    exact hcontent

theorem compactSave
    (hx : NodeInv codec applied x st applying (some (.validated data appliedIdx term))) :
    NodeInv codec applied (x.setSnapshotFile (some ⟨appliedIdx, term, data⟩)) st applying
      (some (.saved appliedIdx term)) := by
  have hcontent : Content codec applied appliedIdx data ∧ appliedIdx ≤ x.lastApplied :=
    hx.job _ rfl
  refine ⟨hx.keys, hx.taken, hx.replaced, hx.offset, fun j hj => ?_, fun f hf => ?_, hx.pending⟩
  · cases hj
    exact hcontent.2
  · cases hf
    exact hcontent.1

theorem compactEnd (wal : List (LogEntry C))
    (hx : NodeInv codec applied x st applying (some (.saved appliedIdx term))) :
    NodeInv codec applied ((compactFinish x appliedIdx term).setWal wal) st applying none := by
  have hle : appliedIdx ≤ x.lastApplied := hx.job _ rfl
  have hnone : NodeInv codec applied x st applying none :=
    hx.setJob rfl rfl nofun
  unfold compactFinish
  split
  · exact hnone.frame rfl
  · exact ⟨hx.keys, hx.taken, hnone.replaced, hle, hnone.job, hx.file, hx.pending⟩

end NodeInv

end MxKeys.KeyCache
