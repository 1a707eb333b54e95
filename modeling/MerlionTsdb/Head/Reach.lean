import MerlionTsdb.Head.Select

/-!
# Heads in use

Which samples a head holds after any run of its operations, and what an iterator makes of the chunks
of one of its series.
-/

set_option linter.dupNamespace false

namespace MerlionTsdb.Head

open Block Chunkenc Encoding Model SeriesStore Wal.Record

variable {W L S K : Type}

/-- A head that has come from an opened one by appends, commits and closes.  The samples it has
accepted follow, for each label set, those it was opened with. -/
inductive Reaches (ops : WalOps W L S K) : Head W → (Labels → List Sample) → Prop
  | opened {records : List Bytes} {store : SeriesStore} (wal : W)
    (hreplay : replayRecords records {} = some store) :
    Reaches ops { wal := wal, series := store } store.samplesOf
  | accepted {h h' : Head W} {content : Labels → List Sample} {labels : Labels} {x : Sample}
    {ref : SeriesRef} (hr : Reaches ops h content)
    (happend : h.append labels x = some (.ok ref, h')) :
    Reaches ops h' (Function.update content labels (content labels ++ [x]))
  | rejected {h h' : Head W} {content : Labels → List Sample} {labels : Labels} {x : Sample}
    {e : HeadError} (hr : Reaches ops h content)
    (happend : h.append labels x = some (.error e, h')) : Reaches ops h' content
  | committed {h h' : Head W} {content : Labels → List Sample} {calls : CommitCalls L S} {ok : Bool}
    (hr : Reaches ops h content) (hcommit : h.commit ops calls = some (ok, h')) :
    Reaches ops h' content
  | closed {h h' : Head W} {content : Labels → List Sample} {calls : CommitCalls L S} {cut : K}
    {ok : Bool} (hr : Reaches ops h content) (hclose : h.close ops calls cut = some (ok, h')) :
    Reaches ops h' content

/-! ## What the store contains -/

/-- The series that a sample goes to is there, or a new one is empty. -/
theorem Contains.finds {h h₁ : Head W} {content : Labels → List Sample} {labels : Labels}
    {slot : SeriesRef} {s : MemSeries} (hc : Contains h.series content)
    (hf : h.Finds labels h₁ slot s) : Contains h₁.series content := by
  cases hf with
  | found => exact hc
  | created hnew hlen =>
    obtain ⟨hwf, hget⟩ := hc.wf.push hnew hlen
    exact hc.insert hwf hnew rfl hget

/-- An append to the store of a head. -/
theorem Contains.headAppend {h h' : Head W} {content : Labels → List Sample} {labels : Labels}
    {x : Sample} {r : Except HeadError SeriesRef} (hc : Contains h.series content)
    (happend : h.append labels x = some (r, h')) :
    Contains h'.series
      (if r.isOk then Function.update content labels (content labels ++ [x]) else content) := by
  rcases Head.append_cases hc.wf happend with ⟨-, rfl, rfl⟩ | ⟨-, h₁, slot, s, hf, hresult⟩
  · exact hc
  have hget := hf.get_eq hc.wf
  have hsample := (hc.finds hf).append hget x
  rw [hf.labels_eq] at hsample
  rcases hresult with ⟨haccept, rfl, rfl⟩ | ⟨hreject, rfl, rfl⟩
  · rcases hsample with ⟨-, hc'⟩ | ⟨hreject, -⟩
    · exact hc'
    · rw [haccept] at hreject
      cases hreject
  · rcases hsample with ⟨haccept, -⟩ | ⟨-, hsame⟩
    · rw [hreject] at haccept
      cases haccept
    · show Contains (h₁.series.put slot (s.append x).2) content
      rw [hsame]
      exact hc.finds hf

/-- A commit does not touch the series. -/
theorem commit_series {ops : WalOps W L S K} {h h' : Head W} {calls : CommitCalls L S} {ok : Bool}
    (hcommit : h.commit ops calls = some (ok, h')) : h'.series = h.series := by
  have hlogSeries : ∀ {h h' : Head W} {calls : L} {ok : Bool},
      h.logSeries ops calls = some (ok, h') → h'.series = h.series := by
    intro h h' calls ok hlog
    rcases Head.logSeries_cases hlog with ⟨-, -, rfl⟩ | ⟨-, -, wal, -, rfl⟩
    · rfl
    · split <;> rfl
  have hlogSamples : ∀ {h h' : Head W} {calls : L} {ok : Bool},
      h.logSamples ops calls = some (ok, h') → h'.series = h.series := by
    intro h h' calls ok hlog
    rcases Head.logSamples_cases hlog with ⟨-, -, rfl⟩ | ⟨-, -, wal, -, rfl⟩
    · rfl
    · split <;> rfl
  cases hclosed : h.closed with
  | true =>
    rw [Head.commit_closed hclosed] at hcommit
    cases hcommit
    rfl
  | false =>
    rcases Head.commit_cases hclosed hcommit with ⟨hlog, -⟩ | ⟨h₁, hlog, hrest⟩
    · exact hlogSeries hlog
    · rcases hrest with ⟨hlog₂, -⟩ | ⟨h₂, hlog₂, wal, -, rfl⟩
      · rw [hlogSamples hlog₂, hlogSeries hlog]
      · show h₂.series = h.series
        rw [hlogSamples hlog₂, hlogSeries hlog]

theorem close_series {ops : WalOps W L S K} {h h' : Head W} {calls : CommitCalls L S} {cut : K}
    {ok : Bool} (hclose : h.close ops calls cut = some (ok, h')) : h'.series = h.series := by
  cases hclosed : h.closed with
  | true =>
    rw [Head.close_closed hclosed] at hclose
    cases hclose
    rfl
  | false =>
    rcases Head.close_cases hclosed hclose with ⟨h₁, hcommit, -, rfl⟩ | ⟨h₁, hcommit, wal, -, rfl⟩
    · show h₁.series = h.series
      exact commit_series hcommit
    · show h₁.series = h.series
      exact commit_series hcommit

/-- The series of a reached head hold the samples it has accepted. -/
theorem Reaches.contains {ops : WalOps W L S K} {h : Head W} {content : Labels → List Sample}
    (hr : Reaches ops h content) : Contains h.series content := by
  induction hr with
  | @opened records store wal hreplay =>
    obtain ⟨content, hc⟩ := contains_replayRecords Contains.empty hreplay
    have heq : store.samplesOf = content := funext hc.samplesOf
    rw [heq]
    exact hc
  | accepted _ happend ih => exact ih.headAppend happend
  | rejected _ happend ih => exact ih.headAppend happend
  | committed _ hcommit ih =>
    rw [commit_series hcommit]
    exact ih
  | closed _ hclose ih =>
    rw [close_series hclose]
    exact ih

/-! ## The series in order -/

/-- The slot of a series. -/
theorem SeriesStore.WF.ref_of_getElem {st : SeriesStore} (h : st.WF) {i : Nat} {s : MemSeries}
    (hslot : st.byRef[i]? = some (some s)) : st.get s.ref = some s ∧ s.ref.toNat = i + 1 := by
  obtain ⟨hlt, -⟩ := List.getElem?_eq_some_iff.mp hslot
  have hle := h.length_le
  unfold kMaxSlots kMaxSize at hle
  have hnat : (UInt64.ofNat (i + 1)).toNat = i + 1 := by
    rw [UInt64.toNat_ofNat_of_lt']
    rw [UInt64.size]
    omega
  have hget : st.get (UInt64.ofNat (i + 1)) = some s := by
    have hzero : UInt64.ofNat (i + 1) ≠ 0 := by
      intro hzero
      rw [hzero] at hnat
      cases hnat
    rw [get_eq, if_neg hzero, hnat, Nat.add_sub_cancel, hslot]
    rfl
  have href := h.ref_eq hget
  rw [href]
  exact ⟨hget, hnat⟩

theorem SeriesStore.WF.mem_allSeries {st : SeriesStore} (h : st.WF) {s : MemSeries} :
    s ∈ st.allSeries ↔ st.get s.ref = some s := by
  unfold allSeries
  rw [List.mem_filterMap]
  constructor
  · rintro ⟨slot, hslot, rfl⟩
    obtain ⟨i, hi⟩ := List.mem_iff_getElem?.mp hslot
    exact (h.ref_of_getElem hi).1
  · intro hget
    rw [get_eq] at hget
    split at hget
    · cases hget
    · exact ⟨some s, List.mem_of_getElem? (Option.join_eq_some_iff.mp hget), rfl⟩

/-- The series by ascending reference. -/
theorem SeriesStore.WF.pairwise_allSeries {st : SeriesStore} (h : st.WF) :
    st.allSeries.Pairwise fun s t ↦ s.ref < t.ref := by
  unfold allSeries
  rw [List.pairwise_filterMap, List.pairwise_iff_getElem]
  intro i j hi hj hij s hs t ht
  have hslot : st.byRef[i]? = some (some s) := by
    rw [List.getElem?_eq_getElem hi]
    exact congrArg some hs
  have hslot' : st.byRef[j]? = some (some t) := by
    rw [List.getElem?_eq_getElem hj]
    exact congrArg some ht
  rw [UInt64.lt_iff_toNat_lt, (h.ref_of_getElem hslot).2, (h.ref_of_getElem hslot').2]
  omega

/-- Two series have two label sets. -/
theorem SeriesStore.WF.nodup_labels {st : SeriesStore} (h : st.WF) :
    (st.allSeries.map MemSeries.labels).Nodup := by
  refine List.pairwise_map.mpr (h.pairwise_allSeries.imp_of_mem ?_)
  intro s t hs ht hlt heq
  rw [h.eq_of_labels_eq (h.mem_allSeries.mp hs) (h.mem_allSeries.mp ht) heq] at hlt
  exact UInt64.lt_irrefl _ hlt

/-! ## Chunks under an iterator -/

/-- The times in the chunk reach into the range from both sides. -/
def chunkMeets (mint maxt : Int64) (c : XORChunk) : Bool :=
  c.samples.1.any (fun x ↦ x.t ≤ maxt) && c.samples.1.any (fun x ↦ mint ≤ x.t)

/-- The least and the greatest time in the chunk. -/
structure Covers (c : XORChunk) (m : ChunkMeta) : Prop where
  least : (∃ x ∈ c.samples.1, x.t = m.minTime) ∧ ∀ x ∈ c.samples.1, m.minTime ≤ x.t
  greatest : (∃ x ∈ c.samples.1, x.t = m.maxTime) ∧ ∀ x ∈ c.samples.1, x.t ≤ m.maxTime

/-- `c` encodes the samples `part`, of which there is at least one, in the order of their times. -/
def EncodesRun (c : XORChunk) (part : List Sample) : Prop :=
  (∃ d, c.Encodes part d) ∧ part ≠ [] ∧ part.Pairwise fun x y ↦ x.t ≤ y.t

/-- The chunks of a series that holds samples. -/
theorem MemSeries.Holds.runs {s : MemSeries} {xs : List Sample} (h : s.Holds xs) :
    ∃ parts, List.Forall₂ EncodesRun s.chunks parts ∧ parts.flatten = xs := by
  obtain ⟨⟨parts, henc, hne, hflat⟩, -, -, -, hordered, -⟩ := h
  refine ⟨parts, ?_, hflat⟩
  have hchunks := henc.forall₂
  rw [← hflat, List.pairwise_flatten] at hordered
  have hparts := hordered.1
  clear henc hordered hflat
  generalize s.chunks = chunks at hchunks ⊢
  induction hchunks with
  | nil => exact List.Forall₂.nil
  | cons hc _ ih =>
    have hrest := ih (fun part hpart ↦ hne part (List.mem_cons_of_mem _ hpart))
      fun part hpart ↦ hparts part (List.mem_cons_of_mem _ hpart)
    exact List.Forall₂.cons ⟨hc, hne _ List.mem_cons_self, hparts _ List.mem_cons_self⟩ hrest

/-- A chunk holds a sample, and not more than 4096 of them. -/
theorem MemSeries.Holds.length_bounds {s : MemSeries} {xs : List Sample} (h : s.Holds xs) :
    s.chunks.length ≤ xs.length ∧ xs.length ≤ 4096 * s.chunks.length := by
  obtain ⟨parts, hruns, hflat⟩ := h.runs
  have hsized : ∀ c ∈ s.chunks, c.Sized := h.sized
  rw [← hflat, List.length_flatten]
  clear h hflat
  generalize s.chunks = chunks at hruns hsized
  induction hruns with
  | nil => exact ⟨Nat.le_refl 0, Nat.le_refl 0⟩
  | @cons c part chunks parts hc _ ih =>
    obtain ⟨hlow, hhigh⟩ := ih fun c' hc' ↦ hsized c' (List.mem_cons_of_mem _ hc')
    obtain ⟨⟨d, hd⟩, hne, -⟩ := hc
    -- Two bits for each sample, in at most 1024 bytes.
    obtain ⟨n, ⟨hcount, hlen⟩, hbits, -, -, hbytes⟩ := hsized c List.mem_cons_self
    have hstream : c.writer.stream.length ≤ 1024 := hbytes
    have hpos := List.length_pos_iff.mpr hne
    rw [hd.numSamples_eq] at hbits
    rw [List.map_cons, List.sum_cons, List.length_cons]
    omega

/-- The walk goes from the first sample to the last. -/
theorem timeSpan_of_encodes {c : XORChunk} {x : Sample} {xs : List Sample} {d : XORAppender}
    (h : c.Encodes (x :: xs) d) :
    timeSpan c = .ok (some (x.t, ((x :: xs).getLast (List.cons_ne_nil x xs)).t)) := by
  obtain ⟨hsamples, herr, -⟩ := h.drain
  unfold timeSpan
  rcases hdrain : c.samples with ⟨xs', it⟩
  rw [hdrain] at hsamples herr
  dsimp only at hsamples herr
  subst hsamples
  dsimp only
  rw [herr]
  rfl

namespace EncodesRun

variable {c : XORChunk} {part : List Sample}

theorem samples_eq (h : EncodesRun c part) : c.samples.1 = part := by
  obtain ⟨⟨d, hd⟩, -⟩ := h
  exact hd.drain.1

theorem numSamples_eq (h : EncodesRun c part) : c.numSamples = part.length := by
  obtain ⟨⟨d, hd⟩, -⟩ := h
  exact hd.numSamples_eq

theorem numSamples_ne_zero (h : EncodesRun c part) : c.numSamples ≠ 0 := by
  rw [h.numSamples_eq]
  intro hzero
  exact h.2.1 (List.length_eq_zero_iff.mp hzero)

theorem le_last {xs : List Sample} (hne : xs ≠ []) (hordered : xs.Pairwise fun x y ↦ x.t ≤ y.t) :
    ∀ x ∈ xs, x.t ≤ (xs.getLast hne).t := by
  rcases List.eq_nil_or_concat' xs with rfl | ⟨init, last, rfl⟩
  · exact absurd rfl hne
  · intro x hx
    rw [List.getLast_append_singleton]
    rcases List.mem_append.mp hx with hx | hx
    · exact (List.pairwise_append.mp hordered).2.2 x hx last (by simp)
    · cases List.mem_singleton.mp hx
      exact Int64.le_refl _

/-- The walk finds the first and the last time, and these are the least and the greatest. -/
theorem timeSpan_eq (h : EncodesRun c part) :
    ∃ m : ChunkMeta, timeSpan c = .ok (some (m.minTime, m.maxTime)) ∧ m.ref = 0 ∧ Covers c m ∧
      ∀ mint maxt, overlaps m.minTime m.maxTime mint maxt = chunkMeets mint maxt c := by
  obtain ⟨⟨d, hd⟩, hne, hordered⟩ := h
  obtain ⟨hsamples, herr, -⟩ := hd.drain
  cases part with
  | nil => exact absurd rfl hne
  | cons x part =>
    have hfirst : ∀ y ∈ x :: part, x.t ≤ y.t := by
      intro y hy
      rcases List.mem_cons.mp hy with rfl | hy
      · exact Int64.le_refl _
      · exact (List.pairwise_cons.mp hordered).1 y hy
    have hlast := le_last hne hordered
    have hmem := List.getLast_mem hne
    refine ⟨⟨x.t, ((x :: part).getLast hne).t, 0⟩, timeSpan_of_encodes hd, rfl, ?_, ?_⟩
    · constructor
      · rw [hsamples]
        exact ⟨⟨x, List.mem_cons_self, rfl⟩, hfirst⟩
      · rw [hsamples]
        exact ⟨⟨_, hmem, rfl⟩, hlast⟩
    · intro mint maxt
      dsimp only
      -- One sample on each side of the range is enough.
      have hleft : (x :: part).any (fun y ↦ y.t ≤ maxt) = decide (x.t ≤ maxt) := by
        rw [Bool.eq_iff_iff, List.any_eq_true, decide_eq_true_iff]
        constructor
        · rintro ⟨y, hy, hle⟩
          exact Int64.le_trans (hfirst y hy) (of_decide_eq_true hle)
        · intro hle
          exact ⟨x, List.mem_cons_self, decide_eq_true hle⟩
      have hright : (x :: part).any (fun y ↦ mint ≤ y.t) =
          decide (mint ≤ ((x :: part).getLast hne).t) := by
        rw [Bool.eq_iff_iff, List.any_eq_true, decide_eq_true_iff]
        constructor
        · rintro ⟨y, hy, hle⟩
          exact Int64.le_trans (of_decide_eq_true hle) (hlast y hy)
        · intro hle
          exact ⟨_, hmem, decide_eq_true hle⟩
      unfold chunkMeets overlaps
      rw [hsamples, hleft, hright, Bool.eq_iff_iff]
      simp

end EncodesRun

/-! ## Samples in order -/

/-- One append after the other, as long as they are accepted. -/
def Head.appendEach (h : Head W) : List (Labels × Sample) → Option (Head W)
  | [] => some h
  | (labels, x) :: samples =>
    match h.append labels x with
    | some (.ok _, h') => h'.appendEach samples
    | _ => none

theorem reaches_new (ops : WalOps W L S K) (wal : W) : Reaches ops { wal := wal } fun _ ↦ [] := by
  have hopened := @Reaches.opened _ _ _ _ ops [] {} wal rfl
  have hempty : SeriesStore.samplesOf {} = fun _ ↦ [] := funext Contains.empty.samplesOf
  rwa [hempty] at hopened

theorem Reaches.appendEach {ops : WalOps W L S K} {h h' : Head W} {content : Labels → List Sample}
    (hr : Reaches ops h content) {samples : List (Labels × Sample)}
    (hall : h.appendEach samples = some h') :
    Reaches ops h' fun labels ↦ content labels ++ samplesUnder labels samples := by
  induction samples generalizing h content with
  | nil =>
    cases hall
    have hsame : (fun labels ↦ content labels ++ samplesUnder labels []) = content := by
      funext labels
      rw [samplesUnder, List.filterMap_nil, List.append_nil]
    rw [hsame]
    exact hr
  | cons e samples ih =>
    obtain ⟨labels, x⟩ := e
    unfold Head.appendEach at hall
    split at hall
    · rename_i ref h₁ happend
      have hnext := ih (hr.accepted happend) hall
      rwa [update_append_samplesUnder] at hnext
    · cases hall

/-- An open head whose store is not full accepts a sample that is not older than the last one. -/
theorem Reaches.exists_append {ops : WalOps W L S K} {h : Head W} {content : Labels → List Sample}
    (hr : Reaches ops h content) (hopen : h.closed = false) (hroom : h.series.byRef.length < kMaxSlots)
    {labels : Labels} {x : Sample} (hle : ∀ y ∈ (content labels).getLast?, y.t ≤ x.t) :
    ∃ ref h', h.append labels x = some (.ok ref, h') ∧ h'.closed = false ∧
      h'.series.byRef.length ≤ h.series.byRef.length + 1 := by
  have hc := hr.contains
  obtain ⟨h₁, slot, s, hf⟩ : ∃ h₁ slot s, h.Finds labels h₁ slot s := by
    rcases Head.finds_or_full hc.wf labels with hf | hfull
    · exact hf
    · cases hfind : h.series.findRef labels with
      | none =>
        rw [hc.wf.getOrCreate_new hfind, if_pos hroom] at hfull
        cases hfull
      | some ref =>
        rw [getOrCreate_found hfind] at hfull
        cases hfull
  have hholds := (hc.finds hf).holds (hf.get_eq hc.wf)
  rw [hf.labels_eq] at hholds
  obtain ⟨s', happend, -⟩ := hholds.append_of_le hle
  have hstep := hf.append_eq hc.wf hopen x
  rw [happend, if_pos rfl] at hstep
  refine ⟨_, _, hstep, ?_, ?_⟩
  · cases hf <;> exact hopen
  · show (h₁.series.byRef.set (slot.toNat - 1) (some s')).length ≤ _
    rw [List.length_set]
    cases hf with
    | found => exact Nat.le_succ _
    | created =>
      show (h.series.byRef ++ [_]).length ≤ _
      rw [List.length_append, List.length_singleton]

/-- Samples whose times never go back under a label set are all accepted, if there are slots for them. -/
theorem Reaches.exists_appendEach {ops : WalOps W L S K} {h : Head W} {content : Labels → List Sample}
    (hr : Reaches ops h content) (hopen : h.closed = false) {samples : List (Labels × Sample)}
    (hroom : h.series.byRef.length + samples.length ≤ kMaxSlots)
    (hordered : ∀ labels, (content labels ++ samplesUnder labels samples).Pairwise fun x y ↦ x.t ≤ y.t) :
    ∃ h', h.appendEach samples = some h' := by
  induction samples generalizing h content with
  | nil => exact ⟨h, rfl⟩
  | cons e samples ih =>
    obtain ⟨labels, x⟩ := e
    rw [List.length_cons] at hroom
    have hle : ∀ y ∈ (content labels).getLast?, y.t ≤ x.t := by
      intro y hy
      apply (List.pairwise_append.mp (hordered labels)).2.2 y (List.mem_of_getLast? hy)
      rw [samplesUnder_cons, if_pos rfl]
      exact List.mem_cons_self
    obtain ⟨ref, h₁, happend, hopen₁, hlen⟩ := hr.exists_append hopen (by omega) hle
    obtain ⟨h', hall⟩ := ih (hr.accepted happend) hopen₁ (by omega) fun labels' ↦ by
      have hsame := congrFun (update_append_samplesUnder content labels x samples) labels'
      rw [hsame]
      exact hordered labels'
    refine ⟨h', ?_⟩
    unfold Head.appendEach
    rw [happend]
    exact hall

/-- A new head with these samples. -/
def filledHead (samples : List (Labels × Sample)) : Head (List Bytes) :=
  (({ wal := [] } : Head (List Bytes)).appendEach samples).getD { wal := [] }

theorem reaches_filledHead {samples : List (Labels × Sample)}
    (h : (({ wal := [] } : Head (List Bytes)).appendEach samples).isSome = true) :
    Reaches listWal (filledHead samples) fun labels ↦ samplesUnder labels samples := by
  obtain ⟨h', hall⟩ := Option.isSome_iff_exists.mp h
  unfold filledHead
  rw [hall]
  exact (reaches_new listWal []).appendEach hall

end MerlionTsdb.Head
