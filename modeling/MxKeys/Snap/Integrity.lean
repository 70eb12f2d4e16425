/-
# MxKeys.Snap.Integrity — which snapshot files are accepted.

`raft.snapshot` is written by `SaveSnapshot`, or chunk by chunk by a follower; it is read by
`LoadSnapshotReader` when the node starts and by `LoadSnapshot` when a leader sends it.

* `spill_is_saved`: a finished spill file is the file that `SaveSnapshot` writes for the same
  payload, however it was cut into chunks, and it is accepted.
* `corruption_detected_iff`: the change of one byte is detected, unless it lies in index or term.
  The length of the file, the magic and the checksum of the payload are compared, but there is no
  checksum of the header: `index_changed_unnoticed`.
* `loaders_agree_iff`: the two readers agree, unless bytes follow the payload.  Only
  `LoadSnapshotReader` looks at the length of the file: `trailing_bytes_sent`.
-/
import MxKeys.Raft.Cluster
import MxKeys.Snap.Spill

namespace MxKeys.Snap

open MxKeys.Lib MxKeys.Lib.Digest MxKeys.Raft
open List Option

/-! ## A file in parts -/

/-- The fields of the header, and the payload. -/
structure Parts where
  magic : Bytes
  index : Bytes
  term : Bytes
  size : Bytes
  crc : Bytes
  data : Bytes

/-- The file made of them. -/
def Parts.bytes (p : Parts) : Bytes :=
  p.magic ++ (p.index ++ (p.term ++ (p.size ++ (p.crc ++ p.data))))

/-- The lengths that `SaveSnapshot` writes. -/
structure Parts.Sized (p : Parts) : Prop where
  magic : p.magic.length = 4
  index : p.index.length = 8
  term : p.term.length = 8
  size : p.size.length = 4
  crc : p.crc.length = 4

variable {p : Parts}

theorem Parts.Sized.length_bytes (h : p.Sized) :
    p.bytes.length = snapshotHeaderSize + p.data.length := by
  simp only [Parts.bytes, length_append, h.magic, h.index, h.term, h.size, h.crc,
    snapshotHeaderSize]
  omega

theorem readSnapshotHeader_parts (h : p.Sized) :
    readSnapshotHeader p.bytes =
      if p.magic = snapshotMagic then
        some ⟨ofLe64 p.index, ofLe64 p.term, ofLe32 p.size, ofLe32 p.crc, p.data⟩
      else none := by
  have hlen : ¬p.bytes.length < snapshotHeaderSize := by
    rw [h.length_bytes]
    omega
  -- the bytes behind each field
  have h4 : p.bytes.drop 4 = p.index ++ (p.term ++ (p.size ++ (p.crc ++ p.data))) :=
    drop_left' h.magic
  have h12 : p.bytes.drop 12 = p.term ++ (p.size ++ (p.crc ++ p.data)) := by
    rw [show 12 = 4 + 8 from rfl, ← drop_drop, h4, drop_left' h.index]
  have h20 : p.bytes.drop 20 = p.size ++ (p.crc ++ p.data) := by
    rw [show 20 = 12 + 8 from rfl, ← drop_drop, h12, drop_left' h.term]
  have h24 : p.bytes.drop 24 = p.crc ++ p.data := by
    rw [show 24 = 20 + 4 from rfl, ← drop_drop, h20, drop_left' h.size]
  have h28 : p.bytes.drop snapshotHeaderSize = p.data := by
    rw [show snapshotHeaderSize = 24 + 4 from rfl, ← drop_drop, h24, drop_left' h.crc]
  have hmagic : p.bytes.take 4 = p.magic := take_left' h.magic
  unfold readSnapshotHeader
  rw [if_neg hlen, hmagic, h4, h12, h20, h24, h28, take_left' h.index, take_left' h.term,
    take_left' h.size, take_left' h.crc, ite_not]

/-- What `LoadSnapshotReader` compares. -/
def Parts.Accepted (p : Parts) : Prop :=
  p.magic = snapshotMagic ∧ p.data.length = ofLe32 p.size ∧ (crc32c p.data).toNat = ofLe32 p.crc

instance (p : Parts) : Decidable p.Accepted := inferInstanceAs (Decidable (_ ∧ _))

/-- **What `LoadSnapshotReader` accepts**, field by field. -/
theorem loadSnapshotReader_parts (h : p.Sized) :
    loadSnapshotReader p.bytes =
      if p.Accepted then some ⟨ofLe64 p.index, ofLe64 p.term, p.data⟩ else none := by
  unfold loadSnapshotReader
  rw [readSnapshotHeader_parts h]
  by_cases hmagic : p.magic = snapshotMagic
  · rw [if_pos hmagic, bind_some, h.length_bytes]
    by_cases hsize : p.data.length = ofLe32 p.size
    · rw [if_neg (not_not.2 (congrArg _ hsize)), ← hsize, take_length, ite_not]
      simp only [Parts.Accepted, hmagic, hsize, true_and]
    · rw [if_pos fun h => hsize (Nat.add_left_cancel h), if_neg fun h => hsize h.2.1]
  · rw [if_neg hmagic, if_neg fun h => hmagic h.1]
    rfl

theorem loadSnapshotReader_eq_none (h : p.Sized) :
    loadSnapshotReader p.bytes = none ↔ ¬p.Accepted := by
  rw [loadSnapshotReader_parts h]
  split_ifs with haccepted
  · exact iff_of_false nofun (not_not.2 haccepted)
  · exact iff_of_true rfl haccepted

/-- The parts of the file of a snapshot. -/
def partsOf (snap : Snapshot UInt8) : Parts where
  magic := snapshotMagic
  index := le64 snap.lastIncludedIndex
  term := le64 snap.lastIncludedTerm
  size := le32 snap.data.length
  crc := le32 (crc32c snap.data).toNat
  data := snap.data

theorem sized_partsOf (snap : Snapshot UInt8) : (partsOf snap).Sized := ⟨rfl, rfl, rfl, rfl, rfl⟩

theorem fileOf_eq (snap : Snapshot UInt8) : fileOf snap = (partsOf snap).bytes := by
  simp only [fileOf, headerStart, Parts.bytes, partsOf, append_assoc]

/-! ## One byte changed -/

/-- The parts of a file after byte `i` was set. -/
def Parts.setByte (p : Parts) (i : Nat) (b : UInt8) : Parts :=
  if i < 4 then { p with magic := p.magic.set i b }
  else if i < 12 then { p with index := p.index.set (i - 4) b }
  else if i < 20 then { p with term := p.term.set (i - 12) b }
  else if i < 24 then { p with size := p.size.set (i - 20) b }
  else if i < 28 then { p with crc := p.crc.set (i - 24) b }
  else { p with data := p.data.set (i - 28) b }

theorem Parts.Sized.setByte (h : p.Sized) (i : Nat) (b : UInt8) : (p.setByte i b).Sized := by
  obtain ⟨hmagic, hindex, hterm, hsize, hcrc⟩ := h
  unfold Parts.setByte
  split_ifs <;> constructor <;> simpa

theorem Parts.Sized.set_bytes (h : p.Sized) (i : Nat) (b : UInt8) :
    p.bytes.set i b = (p.setByte i b).bytes := by
  have h4 : ∀ n, i - n < 4 ↔ i < n + 4 := by omega
  have h8 : ∀ n, i - n < 8 ↔ i < n + 8 := by omega
  unfold Parts.setByte Parts.bytes
  simp only [set_append, h.magic, h.index, h.term, h.size, h.crc, Nat.sub_sub, h4, h8,
    Nat.reduceAdd]
  split_ifs <;> rfl

theorem Parts.Sized.getElem?_bytes (h : p.Sized) (i : Nat) : p.bytes[i]? =
    if i < 4 then p.magic[i]? else if i < 12 then p.index[i - 4]?
    else if i < 20 then p.term[i - 12]?
    else if i < 24 then p.size[i - 20]? else if i < 28 then p.crc[i - 24]?
    else p.data[i - 28]? := by
  have h4 : ∀ n, i - n < 4 ↔ i < n + 4 := by omega
  have h8 : ∀ n, i - n < 8 ↔ i < n + 8 := by omega
  unfold Parts.bytes
  simp only [getElem?_append, h.magic, h.index, h.term, h.size, h.crc, Nat.sub_sub, h4, h8,
    Nat.reduceAdd]

variable {snap : Snapshot UInt8} {file : Bytes}

theorem accepted_partsOf (h : snap.data.length ≤ maxSnapshotSize) :
    (partsOf snap).Accepted :=
  ⟨rfl, (ofLe32_le32 (lt_of_le_of_lt h (by decide))).symm,
    (ofLe32_le32 (crc32c snap.data).toNat_lt).symm⟩

theorem saveSnapshot_some (h : saveSnapshot snap = some file) :
    snap.data.length ≤ maxSnapshotSize ∧ file = (partsOf snap).bytes := by
  unfold saveSnapshot at h
  split_ifs at h with hlen
  exact ⟨hlen, by rw [← fileOf_eq, some.inj h]⟩

/-- The change of a byte is noticed where a field is compared with something. -/
theorem accepted_setByte_iff (h : p.Sized) (haccepted : p.Accepted) {i : Nat}
    (hi : i < p.bytes.length) {b : UInt8} (hb : p.bytes[i]? ≠ some b) :
    (p.setByte i b).Accepted ↔ 4 ≤ i ∧ i < 20 := by
  obtain ⟨hmagic, hsize, hcrc⟩ := haccepted
  rw [h.getElem?_bytes] at hb
  rw [h.length_bytes, snapshotHeaderSize] at hi
  unfold Parts.setByte
  split_ifs at hb ⊢ with h4 h12 h20 h24 h28
  · refine iff_of_false (fun hacc => ?_) (by omega)
    exact set_ne_self (h.magic ▸ h4) hb (hacc.1.trans hmagic.symm)
  · exact iff_of_true ⟨hmagic, hsize, hcrc⟩ (by omega)
  · exact iff_of_true ⟨hmagic, hsize, hcrc⟩ (by omega)
  · refine iff_of_false (fun hacc => ?_) (by omega)
    exact ofLe32_set_ne h.size (by rw [h.size]; omega) hb (hacc.2.1.symm.trans hsize)
  · refine iff_of_false (fun hacc => ?_) (by omega)
    exact ofLe32_set_ne h.crc (by rw [h.crc]; omega) hb (hacc.2.2.symm.trans hcrc)
  · refine iff_of_false (fun hacc => ?_) (by omega)
    refine crc32c_set_ne (by omega) hb (UInt32.toNat_inj.1 ?_)
    exact hacc.2.2.trans hcrc.symm

/-- **Corruption of a saved snapshot**: the change of any byte is detected, exactly when it is not
one of the sixteen bytes of index and term. -/
theorem corruption_detected_iff (index term : UInt64) {data file : Bytes}
    (hsave : saveSnapshot ⟨index.toNat, term.toNat, data⟩ = some file) {i : Nat}
    (hi : i < file.length) {b : UInt8} (hb : file[i]? ≠ some b) :
    loadSnapshotReader (file.set i b) = none ↔ ¬(4 ≤ i ∧ i < 20) := by
  obtain ⟨hlen, rfl⟩ := saveSnapshot_some hsave
  have hsized := sized_partsOf ⟨index.toNat, term.toNat, data⟩
  rw [hsized.set_bytes, loadSnapshotReader_eq_none (hsized.setByte i b),
    accepted_setByte_iff hsized (accepted_partsOf hlen) hi hb]

/-- A change of the only byte of a payload is detected. -/
theorem corruption_detected_sample :
    ∃ file, saveSnapshot ⟨1, 1, [7]⟩ = some file ∧ 28 < file.length ∧ file[28]? ≠ some 8 ∧
      loadSnapshotReader (file.set 28 8) = none := by
  have hlen : 28 < (fileOf ⟨1, 1, [7]⟩).length := by decide
  have hbyte : (fileOf ⟨1, 1, [7]⟩)[28]? ≠ some 8 := by decide +kernel
  have hsave : saveSnapshot ⟨(1 : UInt64).toNat, (1 : UInt64).toNat, [7]⟩ =
      some (fileOf ⟨1, 1, [7]⟩) := rfl
  have hdetected := (corruption_detected_iff 1 1 hsave hlen hbyte).2 (by decide)
  exact ⟨_, hsave, hlen, hbyte, hdetected⟩

/-- **An index that was changed unnoticed**: the first byte behind the magic. -/
theorem index_changed_unnoticed : ∃ file, saveSnapshot ⟨1, 1, [7]⟩ = some file ∧
    4 < file.length ∧ file[4]? = some 1 ∧
    loadSnapshotReader (file.set 4 2) = some ⟨2, 1, [7]⟩ :=
  ⟨fileOf ⟨1, 1, [7]⟩, rfl, by decide, by decide, by decide +kernel⟩

/-! ## Two readers -/

/-- `LoadSnapshot`: the payload is as long as the header says, whatever follows it.  With the `Size`
of the metadata. -/
def loadSnapshot (file : Bytes) : Option (Snapshot UInt8 × Nat) :=
  (readSnapshotHeader file).bind fun h =>
    if h.rest.length < h.size then none
    else if (crc32c (h.rest.take h.size)).toNat ≠ h.crc then none
    else some (⟨h.lastIndex, h.lastTerm, h.rest.take h.size⟩, h.size)

/-- `LoadSnapshotReader` with the `Size` of the metadata. -/
def loadSnapshotReaderMeta (file : Bytes) : Option (Snapshot UInt8 × Nat) :=
  (readSnapshotHeader file).bind fun h => (loadSnapshotReader file).map fun snap => (snap, h.size)

/-- The header describes a payload with its checksum, and more bytes follow. -/
def Trailing (file : Bytes) : Prop :=
  ∃ h, readSnapshotHeader file = some h ∧ h.size < h.rest.length ∧
    (crc32c (h.rest.take h.size)).toNat = h.crc

theorem length_of_readSnapshotHeader {h : Header} (hread : readSnapshotHeader file = some h) :
    file.length = snapshotHeaderSize + h.rest.length := by
  unfold readSnapshotHeader at hread
  split_ifs at hread with hlen hmagic
  cases hread
  rw [length_drop]
  omega

/-- **The two readers agree** on a file, in success and in what they give, exactly when no bytes
follow a valid payload. -/
theorem loaders_agree_iff (file : Bytes) :
    loadSnapshot file = loadSnapshotReaderMeta file ↔ ¬Trailing file := by
  unfold loadSnapshot loadSnapshotReaderMeta loadSnapshotReader Trailing
  cases hread : readSnapshotHeader file with
  | none => exact iff_of_true rfl (by rintro ⟨h, hh, -⟩; cases hh)
  | some h =>
    have hlen := length_of_readSnapshotHeader hread
    simp only [bind_some, some.injEq, exists_eq_left', hlen, ne_eq,
      Nat.add_left_cancel_iff, ite_not]
    rcases Nat.lt_trichotomy h.rest.length h.size with hlt | heq | hgt
    · rw [if_pos hlt, if_neg (Nat.ne_of_lt hlt)]
      exact iff_of_true rfl fun htrailing => absurd htrailing.1 (by omega)
    · rw [if_neg (by omega), if_pos heq, ← heq, take_length]
      refine iff_of_true ?_ fun htrailing => absurd htrailing.1 (by omega)
      split_ifs <;> rfl
    · rw [if_neg (by omega), if_neg (Nat.ne_of_gt hgt)]
      by_cases hcrc : (crc32c (h.rest.take h.size)).toNat = h.crc
      · rw [if_pos hcrc]
        exact iff_of_false nofun (not_not.2 ⟨hgt, hcrc⟩)
      · rw [if_neg hcrc]
        exact iff_of_true rfl fun htrailing => hcrc htrailing.2

/-- **A file that is sent and would not be loaded**: a saved snapshot with one more byte. -/
theorem trailing_bytes_sent :
    loadSnapshot (fileOf ⟨1, 1, [7]⟩ ++ [0]) = some (⟨1, 1, [7]⟩, 1) ∧
      loadSnapshotReader (fileOf ⟨1, 1, [7]⟩ ++ [0]) = none := by
  decide +kernel

/-! ## A file that was received -/

variable {N C : Type*} {cfg : Config N} {me : N} {r : Receiver N C}

/-- `appendPendingSnapshot` for one chunk after another; nothing when one fails. -/
def Receiver.appendAll (r : Receiver N C) : List (SpillIo × Bytes) → Option (Receiver N C)
  | [] => some r
  | (io, chunk) :: chunks =>
    match r.append io chunk with
    | (r', true) => r'.appendAll chunks
    | (_, false) => none

/-- A transfer from `beginPendingSnapshot` to `finalizePendingSnapshot`, with what the finished file
yields from the start of the data on and the size; nothing when an operation fails. -/
def Receiver.spill (cfg : Config N) (me : N) (r : Receiver N C) (index term : Nat) (first : SpillIo)
    (chunks : List (SpillIo × Bytes)) (last : SpillIo) :
    Option (Receiver N C × Bytes × Nat) :=
  match r.begin cfg me first index term with
  | (_, false) => none
  | (r, true) =>
    (r.appendAll chunks).bind fun r =>
      match r.finalize last with
      | (_, none) => none
      | (r, some (payload, size)) => some (r, payload, size)

/-- A transfer to disk that holds these bytes. -/
structure Receiver.Holds (cfg : Config N) (me : N) (index term : Nat) (data : Bytes)
    (r : Receiver N C) : Prop where
  fits : r.Fits cfg me
  file : r.transfer.file = true
  index : r.transfer.index = index
  term : r.transfer.term = term
  data : r.data = data

theorem Receiver.holds_begin (hdir : cfg.stateDir me = true) (io : SpillIo) (index term : Nat)
    (h : (r.begin cfg me io index term).2 = true) :
    (r.begin cfg me io index term).1.Holds cfg me index term [] := by
  obtain ⟨hfits, hview, -, hfile⟩ := r.begin_refines cfg me io index term
  have hpending := congrArg Node.pending hview
  exact ⟨hfits, hfile h hdir, congrArg PendingSnapshot.index hpending,
    congrArg PendingSnapshot.term hpending, congrArg PendingSnapshot.data hpending⟩

variable {index term : Nat} {data : Bytes} {io : SpillIo}

theorem Receiver.Holds.append (h : r.Holds cfg me index term data) {chunk : Bytes}
    (happend : (r.append io chunk).2 = true) :
    (r.append io chunk).1.Holds cfg me index term (data ++ chunk) := by
  obtain ⟨-, -, hok⟩ := Receiver.append_refines h.fits io chunk fun _ => h.file
  obtain ⟨hfits, hview, hfile, hindex, hterm⟩ := hok happend
  refine ⟨hfits, hfile.trans h.file, hindex.trans h.index, hterm.trans h.term, ?_⟩
  rw [← h.data]
  exact congrArg PendingSnapshot.data (congrArg Node.pending hview)

theorem Receiver.Holds.append_ok (h : r.Holds cfg me index term data)
    (hdir : cfg.stateDir me = true) (chunk : Bytes)
    (hmax : data.length + chunk.length ≤ maxSnapshotSize) (hio : io.view.append = true) :
    (r.append io chunk).2 = true := by
  obtain ⟨-, hiff, -⟩ := Receiver.append_refines h.fits io chunk fun _ => h.file
  refine hiff.2 ?_
  rw [h.data, Config.diskOk, hdir, hio]
  simpa using hmax

/-- The chunks of a transfer, together. -/
def payloadOf (chunks : List (SpillIo × Bytes)) : Bytes := (chunks.map Prod.snd).flatten

theorem payloadOf_cons (io : SpillIo) (chunk : Bytes) (chunks : List (SpillIo × Bytes)) :
    payloadOf ((io, chunk) :: chunks) = chunk ++ payloadOf chunks := rfl

variable {chunks : List (SpillIo × Bytes)} {r' : Receiver N C}

theorem Receiver.Holds.appendAll (h : r.Holds cfg me index term data)
    (happend : r.appendAll chunks = some r') :
    r'.Holds cfg me index term (data ++ payloadOf chunks) := by
  induction chunks generalizing r data with
  | nil =>
    cases happend
    rw [payloadOf, map_nil, flatten_nil, append_nil]
    exact h
  | cons step chunks ih =>
    obtain ⟨io, chunk⟩ := step
    unfold Receiver.appendAll at happend
    split at happend
    · rename_i r₁ hstep
      have hr₁ := h.append (congrArg Prod.snd hstep)
      rw [hstep] at hr₁
      rw [payloadOf_cons, ← append_assoc]
      exact ih hr₁ happend
    · cases happend

theorem Receiver.Holds.appendAll_ok (h : r.Holds cfg me index term data)
    (hdir : cfg.stateDir me = true)
    (hmax : data.length + (payloadOf chunks).length ≤ maxSnapshotSize)
    (hio : ∀ step ∈ chunks, step.1.view.append = true) : ∃ r', r.appendAll chunks = some r' := by
  induction chunks generalizing r data with
  | nil => exact ⟨r, rfl⟩
  | cons step chunks ih =>
    obtain ⟨io, chunk⟩ := step
    obtain ⟨hfirst, hrest⟩ := forall_mem_cons.1 hio
    rw [payloadOf_cons, length_append] at hmax
    have hok := h.append_ok hdir chunk (by omega) hfirst
    unfold Receiver.appendAll
    split
    · rename_i r₁ hstep
      have hr₁ := h.append hok
      rw [hstep] at hr₁
      refine ih hr₁ ?_ hrest
      rw [length_append]
      omega
    · rename_i r₁ hstep
      rw [hstep] at hok
      cases hok

/-- The end of a transfer: the finished file is that of the snapshot. -/
theorem Receiver.Holds.finalize (h : r.Holds cfg me index term data)
    (hmax : data.length ≤ maxSnapshotSize) (io : SpillIo) :
    ((r.finalize io).2 = none ∧ io.view.finalize = false) ∨
      ((r.finalize io).2 = some (data, data.length) ∧ io.view.finalize = true ∧
        (r.finalize io).1.recv = some (fileOf ⟨index, term, data⟩)) := by
  obtain ⟨hfits, hfile, rfl, rfl, hdata⟩ := h
  cases hfits with
  | disk hdir received hfile hbuffer hrecv hexpected hcrc =>
    have hreceived : r.data = received := by
      rw [Receiver.data, hfile, hrecv]
      rfl
    rw [hreceived] at hdata
    subst hdata
    exact (Receiver.finalize_spec hfile hbuffer hrecv hexpected hcrc hmax io).2.2
  | closed hdir hclosed => rw [hfile] at hclosed; cases hclosed
  | memory hdir hclosed => rw [hfile] at hclosed; cases hclosed

variable {first last : SpillIo}

/-- A transfer that was finished has left the file of the snapshot. -/
theorem Receiver.spill_some (hdir : cfg.stateDir me = true)
    (hmax : (payloadOf chunks).length ≤ maxSnapshotSize) {payload : Bytes} {size : Nat}
    (h : r.spill cfg me index term first chunks last = some (r', payload, size)) :
    payload = payloadOf chunks ∧ size = (payloadOf chunks).length ∧
      r'.recv = some (fileOf ⟨index, term, payloadOf chunks⟩) := by
  have hholds := r.holds_begin hdir first index term
  unfold Receiver.spill at h
  split at h
  · cases h
  · rename_i r₁ hfirst
    rw [hfirst] at hholds
    obtain ⟨r₂, hr₂, h⟩ := bind_eq_some_iff.1 h
    have hr₂ := (hholds rfl).appendAll hr₂
    rw [nil_append] at hr₂
    have hend := hr₂.finalize hmax last
    split at h
    · cases h
    · rename_i r₃ payload' size' hfinal
      rw [hfinal] at hend
      obtain ⟨rfl, hresult⟩ := Prod.mk.inj (some.inj h)
      cases hresult
      rcases hend with ⟨hnone, -⟩ | ⟨hsome, -, hrecv⟩
      · cases hnone
      · cases hsome
        exact ⟨rfl, rfl, hrecv⟩

/-- A transfer whose file operations succeed is finished. -/
theorem Receiver.spill_isSome (r : Receiver N C) (hdir : cfg.stateDir me = true) (index term : Nat)
    (hmax : (payloadOf chunks).length ≤ maxSnapshotSize) (hfirst : first.view.begin = true)
    (hchunks : ∀ step ∈ chunks, step.1.view.append = true) (hlast : last.view.finalize = true) :
    (r.spill cfg me index term first chunks last).isSome := by
  have hbegin : (r.begin cfg me first index term).2 = true := by
    rw [(r.begin_refines cfg me first index term).2.2.1, Config.diskOk, hdir, hfirst]
    rfl
  have hholds := r.holds_begin hdir first index term hbegin
  have hmax₁ : ([] : Bytes).length + (payloadOf chunks).length ≤ maxSnapshotSize := by
    rwa [length_nil, Nat.zero_add]
  obtain ⟨r₂, hr₂⟩ := hholds.appendAll_ok hdir hmax₁ hchunks
  have hend := (hholds.appendAll hr₂).finalize (by rwa [nil_append]) last
  unfold Receiver.spill
  split
  · rename_i hfailed
    rw [hfailed] at hbegin
    cases hbegin
  · rename_i r₁ hr₁
    rw [hr₁] at hr₂
    rw [hr₂, bind_some]
    split
    · rename_i hfinal
      rw [hfinal] at hend
      rcases hend with ⟨-, hfail⟩ | ⟨hsome, -⟩
      · rw [hlast] at hfail
        cases hfail
      · cases hsome
    · rfl

/-- **A received snapshot is a saved one**: however the payload was cut into chunks, the finished
spill file has the bytes that `SaveSnapshot` writes, the installer reads the payload from it, and
`LoadSnapshotReader` accepts it.  Nothing but a failing file operation keeps a payload of admissible
length from getting there. -/
theorem spill_is_saved (hdir : cfg.stateDir me = true) (r : Receiver N C) (index term : UInt64)
    {chunks : List (SpillIo × Bytes)} (hmax : (payloadOf chunks).length ≤ maxSnapshotSize)
    (first last : SpillIo) :
    (∀ r' payload size,
      r.spill cfg me index.toNat term.toNat first chunks last = some (r', payload, size) →
      payload = payloadOf chunks ∧ size = (payloadOf chunks).length ∧
      ∃ file, r'.recv = some file ∧
        saveSnapshot ⟨index.toNat, term.toNat, payloadOf chunks⟩ = some file ∧
        loadSnapshotReader file = some ⟨index.toNat, term.toNat, payloadOf chunks⟩) ∧
    (first.view.begin = true → (∀ step ∈ chunks, step.1.view.append = true) →
      last.view.finalize = true →
      (r.spill cfg me index.toNat term.toNat first chunks last).isSome) := by
  refine ⟨fun r' payload size hspill => ?_, fun hfirst hchunks hlast => ?_⟩
  · obtain ⟨hpayload, hsize, hrecv⟩ := Receiver.spill_some hdir hmax hspill
    have hcounters : Snapshot.IsUint64 ⟨index.toNat, term.toNat, payloadOf chunks⟩ :=
      ⟨index.toNat_lt, term.toNat_lt⟩
    refine ⟨hpayload, hsize, _, hrecv, ?_, loadSnapshotReader_fileOf hcounters hmax⟩
    rw [saveSnapshot, if_pos hmax]
  · exact r.spill_isSome hdir _ _ hmax hfirst hchunks hlast

/-- Two chunks, received by a node that has just been started. -/
theorem spill_is_saved_sample : ∃ (r' : Receiver (Fin 1) Nat) (file : Bytes),
    ((⟨newNode 0, .none, none⟩ : Receiver (Fin 1) Nat).spill (Config.complete 1 0) 0 3 2 .ok
      [(.ok, [7]), (.ok, [8, 9])] .ok) = some (r', [7, 8, 9], 3) ∧ r'.recv = some file ∧
    saveSnapshot ⟨3, 2, [7, 8, 9]⟩ = some file ∧
    loadSnapshotReader file = some ⟨3, 2, [7, 8, 9]⟩ := by
  have hmax : (payloadOf [(.ok, [7]), (.ok, [8, 9])]).length ≤ maxSnapshotSize := by decide
  obtain ⟨hfile, hdone⟩ := spill_is_saved
    (show (Config.complete 1 0).stateDir 0 = true from rfl)
    (⟨newNode 0, .none, none⟩ : Receiver (Fin 1) Nat) 3 2 hmax .ok .ok
  obtain ⟨⟨r', payload, size⟩, hspill⟩ := isSome_iff_exists.1
    (hdone rfl (by simp [SpillIo.view, SpillIo.ok]) rfl)
  obtain ⟨rfl, rfl, file, hrecv, hsave, hload⟩ := hfile _ _ _ hspill
  exact ⟨r', file, hspill, hrecv, hsave, hload⟩

end MxKeys.Snap
