import MerlionTsdb.Head.SeriesStore
import MerlionTsdb.Wal.Record
import MerlionTsdb.Wal.Segment

/-!
# The head

`head.cpp`: appends go to the series store and to two pending lists, a commit logs these, and
opening a head replays its WAL.  The head is written over the three operations it calls on a WAL, so
that it runs on a segment writer as well as on a plain list of records.  As in the store, `none`
stands for an exception out of a container.
-/

-- The class of `head.hpp` keeps its name inside the namespace of its directory.
set_option linter.dupNamespace false

namespace MerlionTsdb.Head

open Chunkenc Model Wal Wal.Record

/-! ## The WAL under a head -/

/-- What a head asks of its WAL.  `L`, `S` and `K` are the answers of the system calls made. -/
structure WalOps (W L S K : Type) where
  log : W → Bytes → L → Bool × W
  sync : W → S → Bool × W
  cut : W → K → Bool × W

/-- The segment writer on its directory. -/
def segmentWal : WalOps (SegmentWriter × Files) LogCalls SyncCalls CutCalls where
  log w body calls := w.1.log w.2 body calls
  sync w calls := w.1.sync w.2 calls
  cut w calls := w.1.cut w.2 calls

/-- A WAL that keeps the logged bodies, in order, and never fails. -/
def listWal : WalOps (List Bytes) Unit Unit Unit where
  log w body _ := (true, w ++ [body])
  sync w _ := (true, w)
  cut w _ := (true, w)

/-- The answers to the calls of a commit. -/
structure CommitCalls (L S : Type) where
  series : L
  samples : L
  sync : S

/-! ## Appends and commits -/

inductive HeadError
  | operationNotPermitted
  | invalidArgument
  deriving DecidableEq, Repr

/-- `Head`, less its path. -/
structure Head (W : Type) where
  wal : W
  series : SeriesStore := {}
  pendingSeries : List RefSeries := []
  pendingSamples : List RefSample := []
  closed : Bool := false

def toWalLabels (ref : SeriesRef) (l : Labels) : RefSeries :=
  { ref := ref, labels := l.entries, length_le := l.length_le }

def toModelLabels (s : RefSeries) : Labels := Labels.ofList s.labels s.length_le

namespace Head

variable {W L S K : Type}

def append (h : Head W) (labels : Labels) (x : Sample) :
    Option (Except HeadError SeriesRef × Head W) :=
  if h.closed then some (.error .operationNotPermitted, h)
  else
    match h.series.getOrCreate labels with
    | none => none
    | some (slot, fresh, store) =>
      match store.get slot with
      | none => none
      | some s =>
        let pendingSeries :=
          if fresh then h.pendingSeries ++ [toWalLabels s.ref labels] else h.pendingSeries
        match store.append slot s x with
        | (false, store) =>
          some (.error .invalidArgument, { h with series := store, pendingSeries := pendingSeries })
        | (true, store) =>
          some (.ok s.ref, { h with
            series := store
            pendingSeries := pendingSeries
            pendingSamples := h.pendingSamples ++ [{ ref := s.ref, t := x.t, st := 0, v := x.v }] })

/-- The series record of a commit. -/
def logSeries (ops : WalOps W L S K) (h : Head W) (calls : L) : Option (Bool × Head W) :=
  if h.pendingSeries.isEmpty then some (true, h)
  else
    let record := encodeSeries h.pendingSeries
    if kMaxSize < record.length then none
    else
      match ops.log h.wal record calls with
      | (false, wal) => some (false, { h with wal := wal })
      | (true, wal) => some (true, { h with wal := wal, pendingSeries := [] })

/-- The sample record of a commit. -/
def logSamples (ops : WalOps W L S K) (h : Head W) (calls : L) : Option (Bool × Head W) :=
  if h.pendingSamples.isEmpty then some (true, h)
  else
    let record := encodeSamplesV2 h.pendingSamples
    if kMaxSize < record.length then none
    else
      match ops.log h.wal record calls with
      | (false, wal) => some (false, { h with wal := wal })
      | (true, wal) => some (true, { h with wal := wal, pendingSamples := [] })

/-- `commit`, and whether it succeeded. -/
def commit (ops : WalOps W L S K) (h : Head W) (calls : CommitCalls L S) : Option (Bool × Head W) :=
  if h.closed then some (false, h)
  else
    match h.logSeries ops calls.series with
    | none => none
    | some (false, h) => some (false, h)
    | some (true, h) =>
      match h.logSamples ops calls.samples with
      | none => none
      | some (false, h) => some (false, h)
      | some (true, h) =>
        let (ok, wal) := ops.sync h.wal calls.sync
        some (ok, { h with wal := wal })

/-- `close`: a last commit and a cut. -/
def close (ops : WalOps W L S K) (h : Head W) (calls : CommitCalls L S) (cut : K) :
    Option (Bool × Head W) :=
  if h.closed then some (true, h)
  else
    match h.commit ops calls with
    | none => none
    | some (false, h) => some (false, { h with closed := true })
    | some (true, h) =>
      let (ok, wal) := ops.cut h.wal cut
      some (ok, { h with wal := wal, closed := true })

/-! ### What these calls can do -/

/-- An append leaves the WAL alone, and does nothing on a closed head. -/
theorem append_keeps {h h' : Head W} {labels : Labels} {x : Sample}
    {r : Except HeadError SeriesRef} (happend : h.append labels x = some (r, h')) :
    h'.wal = h.wal ∧ h'.closed = h.closed ∧ (h.closed = true → h' = h) := by
  unfold append at happend
  split at happend
  · cases happend
    exact ⟨rfl, rfl, fun _ ↦ rfl⟩
  · rename_i hopen
    have hno : h.closed = true → h' = h := fun hclosed ↦ absurd hclosed hopen
    split at happend
    · cases happend
    split at happend
    · cases happend
    dsimp only at happend
    split at happend
    all_goals
      cases happend
      exact ⟨rfl, rfl, hno⟩

/-- Where the sample of an append goes: to a series that is there, or to a new one, which is then pending. -/
inductive Finds (h : Head W) (labels : Labels) : Head W → SeriesRef → MemSeries → Prop
  | found {slot : SeriesRef} {s : MemSeries} (hget : h.series.get slot = some s)
    (hlabels : s.labels = labels) : Finds h labels h slot s
  | created (hnew : h.series.findRef labels = none) (hlen : h.series.byRef.length < kMaxSlots) :
    Finds h labels
      { h with
        series := h.series.push labels
        pendingSeries := h.pendingSeries ++ [toWalLabels h.series.nextRef labels] }
      h.series.nextRef { ref := h.series.nextRef, labels := labels }

section

variable {h h₁ : Head W} {labels : Labels} {slot : SeriesRef} {s : MemSeries}

theorem Finds.labels_eq (hf : h.Finds labels h₁ slot s) : s.labels = labels := by
  cases hf with
  | found _ hlabels => exact hlabels
  | created => rfl

theorem Finds.get_eq (hf : h.Finds labels h₁ slot s) (hwf : h.series.WF) :
    h₁.series.get slot = some s := by
  cases hf with
  | found hget => exact hget
  | created hnew hlen =>
    show (h.series.push labels).get h.series.nextRef = _
    rw [(hwf.push hnew hlen).2, if_pos rfl]

theorem Finds.pendingSamples_eq (hf : h.Finds labels h₁ slot s) :
    h₁.pendingSamples = h.pendingSamples := by
  cases hf <;> rfl

theorem Finds.getOrCreate (hf : h.Finds labels h₁ slot s) (hwf : h.series.WF) :
    ∃ fresh, h.series.getOrCreate labels = some (slot, fresh, h₁.series) ∧
      h₁ = { h with
        series := h₁.series
        pendingSeries :=
          if fresh then h.pendingSeries ++ [toWalLabels s.ref labels] else h.pendingSeries } := by
  cases hf with
  | found hget hlabels =>
    refine ⟨false, SeriesStore.getOrCreate_found ?_, rfl⟩
    exact hwf.findRef_eq_some.mpr ⟨s, hget, hlabels⟩
  | created hnew hlen =>
    refine ⟨true, ?_, rfl⟩
    rw [hwf.getOrCreate_new hnew, if_pos hlen]

/-- A series is found or created, or the store is full. -/
theorem finds_or_full (hwf : h.series.WF) (labels : Labels) :
    (∃ h₁ slot s, h.Finds labels h₁ slot s) ∨ h.series.getOrCreate labels = none := by
  cases hfind : h.series.findRef labels with
  | some ref =>
    obtain ⟨s, hget, hlabels⟩ := hwf.findRef_eq_some.mp hfind
    exact Or.inl ⟨h, ref, s, .found hget hlabels⟩
  | none =>
    by_cases hlen : h.series.byRef.length < kMaxSlots
    · exact Or.inl ⟨_, _, _, .created hfind hlen⟩
    · right
      rw [hwf.getOrCreate_new hfind, if_neg hlen]

theorem Finds.append_eq (hf : h.Finds labels h₁ slot s) (hwf : h.series.WF) (hopen : h.closed = false)
    (x : Sample) :
    h.append labels x = some (if (s.append x).1 then
      (.ok s.ref, { h₁ with
        series := h₁.series.put slot (s.append x).2
        pendingSamples := h₁.pendingSamples ++ [{ ref := s.ref, t := x.t, st := 0, v := x.v }] })
      else (.error .invalidArgument, { h₁ with series := h₁.series.put slot (s.append x).2 })) := by
  obtain ⟨fresh, hget, heq⟩ := hf.getOrCreate hwf
  have hgo : ¬ h.closed = true := by simp [hopen]
  unfold append
  rw [if_neg hgo, hget]
  dsimp only
  rw [hf.get_eq hwf]
  dsimp only
  unfold SeriesStore.append
  rw [heq]
  rcases s.append x with ⟨_ | _, s'⟩ <;> rfl

/-- An append does nothing on a closed head, and on an open one its sample is accepted or refused. -/
theorem append_cases {h' : Head W} {x : Sample} {r : Except HeadError SeriesRef} (hwf : h.series.WF)
    (happend : h.append labels x = some (r, h')) :
    (h.closed = true ∧ r = .error .operationNotPermitted ∧ h' = h) ∨
      h.closed = false ∧ ∃ h₁ slot s, h.Finds labels h₁ slot s ∧
        (((s.append x).1 = true ∧ r = .ok s.ref ∧ h' = { h₁ with
            series := h₁.series.put slot (s.append x).2
            pendingSamples := h₁.pendingSamples ++ [{ ref := s.ref, t := x.t, st := 0, v := x.v }] }) ∨
          ((s.append x).1 = false ∧ r = .error .invalidArgument ∧
            h' = { h₁ with series := h₁.series.put slot (s.append x).2 })) := by
  cases hclosed : h.closed with
  | true =>
    unfold append at happend
    rw [if_pos hclosed] at happend
    cases happend
    exact Or.inl ⟨rfl, rfl, rfl⟩
  | false =>
    right
    rcases finds_or_full hwf labels with ⟨h₁, slot, s, hf⟩ | hfull
    · refine ⟨rfl, h₁, slot, s, hf, ?_⟩
      rw [hf.append_eq hwf hclosed] at happend
      cases haccept : (s.append x).1 with
      | true =>
        rw [haccept] at happend
        cases happend
        exact Or.inl ⟨rfl, rfl, rfl⟩
      | false =>
        rw [haccept] at happend
        cases happend
        exact Or.inr ⟨rfl, rfl, rfl⟩
    · -- A store that is full ends the call.
      unfold append at happend
      rw [hclosed, if_neg Bool.false_ne_true, hfull] at happend
      cases happend

end

/-- The series record of a commit: not needed, refused, or logged. -/
theorem logSeries_cases {ops : WalOps W L S K} {h h' : Head W} {calls : L} {ok : Bool}
    (hlog : h.logSeries ops calls = some (ok, h')) :
    (h.pendingSeries = [] ∧ ok = true ∧ h' = h) ∨
      (h.pendingSeries ≠ [] ∧ (encodeSeries h.pendingSeries).length ≤ kMaxSize ∧
        ∃ wal, ops.log h.wal (encodeSeries h.pendingSeries) calls = (ok, wal) ∧
          h' = if ok then { h with wal := wal, pendingSeries := [] } else { h with wal := wal }) := by
  unfold logSeries at hlog
  split at hlog
  · rename_i hnone
    cases hlog
    exact Or.inl ⟨List.isEmpty_iff.mp hnone, rfl, rfl⟩
  · rename_i hsome
    dsimp only at hlog
    split at hlog
    · cases hlog
    · rename_i hlen
      right
      refine ⟨fun hnone ↦ hsome (List.isEmpty_iff.mpr hnone), Nat.le_of_not_lt hlen, ?_⟩
      rcases hresult : ops.log h.wal (encodeSeries h.pendingSeries) calls with ⟨_ | _, wal⟩
      all_goals
        rw [hresult] at hlog
        cases hlog
        exact ⟨wal, rfl, rfl⟩

/-- The sample record of a commit: not needed, refused, or logged. -/
theorem logSamples_cases {ops : WalOps W L S K} {h h' : Head W} {calls : L} {ok : Bool}
    (hlog : h.logSamples ops calls = some (ok, h')) :
    (h.pendingSamples = [] ∧ ok = true ∧ h' = h) ∨
      (h.pendingSamples ≠ [] ∧ (encodeSamplesV2 h.pendingSamples).length ≤ kMaxSize ∧
        ∃ wal, ops.log h.wal (encodeSamplesV2 h.pendingSamples) calls = (ok, wal) ∧
          h' = if ok then { h with wal := wal, pendingSamples := [] } else { h with wal := wal }) := by
  unfold logSamples at hlog
  split at hlog
  · rename_i hnone
    cases hlog
    exact Or.inl ⟨List.isEmpty_iff.mp hnone, rfl, rfl⟩
  · rename_i hsome
    dsimp only at hlog
    split at hlog
    · cases hlog
    · rename_i hlen
      right
      refine ⟨fun hnone ↦ hsome (List.isEmpty_iff.mpr hnone), Nat.le_of_not_lt hlen, ?_⟩
      rcases hresult : ops.log h.wal (encodeSamplesV2 h.pendingSamples) calls with ⟨_ | _, wal⟩
      all_goals
        rw [hresult] at hlog
        cases hlog
        exact ⟨wal, rfl, rfl⟩

theorem commit_closed {h : Head W} (hclosed : h.closed = true) (ops : WalOps W L S K)
    (calls : CommitCalls L S) : h.commit ops calls = some (false, h) := by
  unfold commit
  rw [if_pos hclosed]

theorem close_closed {h : Head W} (hclosed : h.closed = true) (ops : WalOps W L S K)
    (calls : CommitCalls L S) (cut : K) : h.close ops calls cut = some (true, h) := by
  unfold close
  rw [if_pos hclosed]

/-- A commit stops at the first record that is refused, and else syncs. -/
theorem commit_cases {ops : WalOps W L S K} {h h' : Head W} {calls : CommitCalls L S} {ok : Bool}
    (hopen : h.closed = false) (hcommit : h.commit ops calls = some (ok, h')) :
    (h.logSeries ops calls.series = some (false, h') ∧ ok = false) ∨
      ∃ h₁ : Head W, h.logSeries ops calls.series = some (true, h₁) ∧
        ((h₁.logSamples ops calls.samples = some (false, h') ∧ ok = false) ∨
          ∃ h₂ : Head W, h₁.logSamples ops calls.samples = some (true, h₂) ∧
            ∃ wal, ops.sync h₂.wal calls.sync = (ok, wal) ∧ h' = { h₂ with wal := wal }) := by
  unfold commit at hcommit
  rw [hopen, if_neg Bool.false_ne_true] at hcommit
  split at hcommit
  · cases hcommit
  · rename_i hlog
    cases hcommit
    exact Or.inl ⟨hlog, rfl⟩
  · rename_i h₁ hlog
    right
    refine ⟨h₁, hlog, ?_⟩
    split at hcommit
    · cases hcommit
    · rename_i hlog₂
      cases hcommit
      exact Or.inl ⟨hlog₂, rfl⟩
    · rename_i h₂ hlog₂
      cases hcommit
      exact Or.inr ⟨h₂, hlog₂, _, rfl, rfl⟩

/-- A close stops at a commit that fails, and else cuts. -/
theorem close_cases {ops : WalOps W L S K} {h h' : Head W} {calls : CommitCalls L S} {cut : K}
    {ok : Bool} (hopen : h.closed = false) (hclose : h.close ops calls cut = some (ok, h')) :
    (∃ h₁ : Head W, h.commit ops calls = some (false, h₁) ∧ ok = false ∧
        h' = { h₁ with closed := true }) ∨
      ∃ h₁ : Head W, h.commit ops calls = some (true, h₁) ∧
        ∃ wal, ops.cut h₁.wal cut = (ok, wal) ∧ h' = { h₁ with wal := wal, closed := true } := by
  unfold close at hclose
  rw [hopen, if_neg Bool.false_ne_true] at hclose
  split at hclose
  · cases hclose
  · rename_i h₁ hcommit
    cases hclose
    exact Or.inl ⟨h₁, hcommit, rfl, rfl⟩
  · rename_i h₁ hcommit
    cases hclose
    exact Or.inr ⟨h₁, hcommit, _, rfl, rfl⟩

end Head

/-! ## Replay -/

/-- The series of a record into the store, or an error. -/
def insertAll : List RefSeries → SeriesStore → Option SeriesStore
  | [], store => some store
  | s :: series, store =>
    match store.insertWithRef s.ref (toModelLabels s) with
    | some (true, store) => insertAll series store
    | _ => none

/-- The samples of a record into the store, or an error. -/
def appendAll : List RefSample → SeriesStore → Option SeriesStore
  | [], store => some store
  | s :: samples, store =>
    match store.get s.ref with
    | none => none
    | some series =>
      match store.append s.ref series { t := s.t, v := s.v } with
      | (true, store) => appendAll samples store
      | (false, _) => none

/-- One round of the replay loop.  Records of other types are skipped. -/
def replayRecord (record : Bytes) (store : SeriesStore) : Option SeriesStore :=
  if peekType record = kSeries then
    match decodeSeries record with
    | .ok series => insertAll series store
    | .error _ => none
  else if peekType record = kSamplesV2 then
    match decodeSamplesV2 record with
    | .ok samples => appendAll samples store
    | .error _ => none
  else some store

/-- The replay loop over the records read. -/
def replayRecords : List Bytes → SeriesStore → Option SeriesStore
  | [], store => some store
  | record :: records, store => (replayRecord record store).bind (replayRecords records)

/-- `replay_wal_into` a fresh store. -/
def replayWal (files : Files) : Option SeriesStore :=
  match SegmentReader.readAll (segments files) with
  | (records, e) => (replayRecords records {}).bind fun store ↦
    if e = .endOfStream then some store else none

namespace Head

/-- `Head::open`: replay first, then a fresh segment.  `opened` is the answer of its `::open`. -/
def openDir (files : Files) (opened : Bool) : Option (Head (SegmentWriter × Files)) :=
  match replayWal files with
  | none => none
  | some store =>
    match SegmentWriter.openDir files kDefaultSegmentSize opened with
    | (true, wal) => some { wal := wal, series := store }
    | (false, _) => none

/-- A head opened on a list of records. -/
def openList (records : List Bytes) : Option (Head (List Bytes)) :=
  (replayRecords records {}).map fun store ↦ { wal := records, series := store }

end Head
end MerlionTsdb.Head
