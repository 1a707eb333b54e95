import MerlionTsdb.Head.SelectExact

/-!
# A series of equal samples

A sample that repeats the one before takes two bits, so a chunk holds thousands of them before the next is
cut.
-/

namespace MerlionTsdb.Head

open Block Chunkenc Encoding Model SeriesStore

/-! ## One chunk -/

/-- The chunk holds nothing, or equal samples at time 0 with value 0. -/
def Repeats (c : XORChunk) (a : XORAppender) : Prop :=
  ∃ n, c.writer.Spans n ∧ ((c.numSamples = 0 ∧ n = 16) ∨
    (16 ≤ n ∧ n ≤ 80 + 9 * c.numSamples ∧ 0 < c.numSamples ∧ a.t = 0 ∧ a.v = 0 ∧ a.tDelta = 0))

theorem repeats_new (a : XORAppender) : Repeats XORChunk.new a :=
  ⟨16, ⟨by decide, rfl⟩, Or.inl ⟨by decide, rfl⟩⟩

/-- One sample more. -/
theorem Repeats.append {c : XORChunk} {a : XORAppender} (h : Repeats c a)
    (hfull : c.numSamples ≠ kMaxSamples) (hmax : c.numSamples + 1 < 65536) :
    ∃ c' a', c.append a ⟨0, 0⟩ = (true, c', a') ∧ Repeats c' a' := by
  obtain ⟨n, hspans, hcase⟩ := h
  have hfull' : headerCount c.writer.stream ≠ kMaxSamples := hfull
  -- The header is set behind the bits of the sample.
  have hset : ∀ {w : BitWriter} {k : Nat}, w.Spans (n + k) → 16 ≤ n → n + k ≤ 80 + 9 * (c.numSamples + 1) →
      ∀ win, Repeats { writer := setHeader w (c.numSamples + 1) } ⟨0, 0, 0, win⟩ := by
    intro w k hw hlow hhigh win
    have hlen : 2 ≤ w.stream.length := by
      obtain ⟨-, hlen⟩ := hw
      omega
    have hnum : ({ writer := setHeader w (c.numSamples + 1) } : XORChunk).numSamples = c.numSamples + 1 :=
      headerCount_setHeader hlen hmax
    refine ⟨n + k, setHeader_spans hw _, Or.inr ?_⟩
    rw [hnum]
    exact ⟨hlow.trans (Nat.le_add_right _ _), hhigh, Nat.succ_pos _, rfl, rfl, rfl⟩
  unfold XORChunk.append XORAppender.append
  dsimp only
  rw [if_neg hfull']
  have hnum : headerCount c.writer.stream = c.numSamples := rfl
  rcases hcase with ⟨hzero, rfl⟩ | ⟨hlow, hhigh, hpos, ht, hv, hdelta⟩
  · rw [hnum, hzero]
    have hw := (hspans.foldl_writeByte (Varint.putVarint 0)).writeBits 0 64
    have hone : (Varint.putVarint 0).length = 1 := by decide
    rw [hone, Nat.add_assoc] at hw
    rw [hzero] at hset
    exact ⟨_, _, rfl, hset hw le_rfl (by omega) a.window⟩
  · have hsame : ∀ w : BitWriter, xorWrite w 0 a.v a.window = (w.writeBit false, a.window) := by
      intro w
      rw [hv]
      rfl
    rw [hnum]
    match hm : c.numSamples with
    | 0 => omega
    | 1 =>
      have hw := (hspans.foldl_writeByte (Varint.putUvarint 0)).writeBit false
      have hone : (Varint.putUvarint 0).length = 1 := by decide
      rw [hone, Nat.add_assoc] at hw
      rw [hm] at hset hhigh
      rw [ht, hsame]
      exact ⟨_, _, rfl, hset hw hlow (by omega) a.window⟩
    | m + 2 =>
      have hw := (hspans.writeBit false).writeBit false
      rw [Nat.add_assoc] at hw
      rw [hm] at hset hhigh
      rw [ht, hdelta]
      simp only [hsame]
      exact ⟨{ writer := setHeader ((c.writer.writeBit false).writeBit false) (m + 3) },
        ⟨0, 0, 0, a.window⟩, rfl, hset hw hlow (by omega) a.window⟩

/-- A chunk without room for a sample holds many. -/
theorem Repeats.many {c : XORChunk} {a : XORAppender} (h : Repeats c a) (hlong : 1005 < c.bytes.length) :
    884 ≤ c.numSamples := by
  obtain ⟨n, ⟨hcount, hlen⟩, hcase⟩ := h
  have hbytes : 1005 < c.writer.stream.length := hlong
  omega

/-- A chunk with room for a sample takes one. -/
theorem Repeats.append_room {c : XORChunk} {a : XORAppender} (h : Repeats c a) (hsized : c.Sized)
    (hroom : c.bytes.length ≤ 1005) : ∃ c' a', c.append a ⟨0, 0⟩ = (true, c', a') ∧ Repeats c' a' := by
  obtain ⟨n, ⟨hcount, hlen⟩, hlow, -⟩ := hsized
  have hbytes : c.writer.stream.length ≤ 1005 := hroom
  have hmax : kMaxSamples = 65535 := rfl
  exact h.append (by omega) (by omega)

/-! ## The series -/

/-- All chunks but the last hold many samples, and the last repeats the one. -/
structure Equal (s : MemSeries) : Prop where
  many : ∀ c ∈ s.chunks.dropLast, 884 ≤ c.numSamples
  last : ∀ c ∈ s.chunks.getLast?, ∃ a, s.currentAppender = some a ∧ Repeats c a
  sized : s.Sized

theorem equal_new (ref : SeriesRef) (labels : Labels) : Equal { ref := ref, labels := labels } where
  many _ hc := absurd hc List.not_mem_nil
  last c hc := by cases hc
  sized c hc := absurd hc List.not_mem_nil

theorem Equal.cutChunk {s : MemSeries} (h : Equal s)
    (hlong : ∀ c ∈ s.chunks.getLast?, 1005 < c.bytes.length) : Equal s.cutChunk := by
  constructor
  · intro c hc
    have hinit : s.cutChunk.chunks.dropLast = s.chunks := List.dropLast_concat
    rw [hinit] at hc
    rcases List.eq_nil_or_concat' s.chunks with hnil | ⟨init, last, hsplit⟩
    · rw [hnil] at hc
      cases hc
    · have hlast : s.chunks.getLast? = some last := by rw [hsplit, List.getLast?_concat]
      have hdrop : s.chunks.dropLast = init := by rw [hsplit, List.dropLast_concat]
      rw [hsplit] at hc
      rcases List.mem_append.mp hc with hold | hnew
      · exact h.many c (by rw [hdrop]; exact hold)
      · rw [List.mem_singleton.mp hnew]
        obtain ⟨a, -, hrepeats⟩ := h.last last hlast
        exact hrepeats.many (hlong last hlast)
  · intro c hc
    have hlast : s.cutChunk.chunks.getLast? = some XORChunk.new := List.getLast?_concat
    rw [hlast] at hc
    cases hc
    refine ⟨{}, ?_, repeats_new _⟩
    show XORChunk.new.appender.toOption = some {}
    decide
  · exact h.sized.cutChunk

/-- One sample more. -/
theorem Equal.append {s s' : MemSeries} (h : Equal s) (hok : s.append ⟨0, 0⟩ = (true, s')) : Equal s' := by
  -- The chunk that takes the sample has room for it.
  have hstart : ∃ s₁, (if s.needsCut then s.cutChunk else s) = s₁ ∧ Equal s₁ ∧
      ∃ c, s₁.chunks.getLast? = some c ∧ c.bytes.length ≤ 1005 := by
    refine ⟨_, rfl, ?_⟩
    by_cases hcut : s.needsCut = true
    · rw [if_pos hcut]
      refine ⟨h.cutChunk fun c hc ↦ ?_, XORChunk.new, List.getLast?_concat, by decide⟩
      have hlast : s.chunks.getLast? = some c := hc
      unfold MemSeries.needsCut at hcut
      rw [hlast] at hcut
      exact of_decide_eq_true hcut
    · rw [if_neg hcut]
      refine ⟨h, ?_⟩
      unfold MemSeries.needsCut at hcut
      cases hlast : s.chunks.getLast? with
      | none =>
        rw [hlast] at hcut
        exact absurd rfl hcut
      | some c =>
        rw [hlast] at hcut
        exact ⟨c, rfl, Nat.le_of_not_lt (of_decide_eq_false (Bool.eq_false_of_not_eq_true hcut))⟩
  obtain ⟨s₁, hs₁, h₁, c, hlast, hroom⟩ := hstart
  obtain ⟨a, ha, hrepeats⟩ := h₁.last c hlast
  obtain ⟨c', a', happend, hrepeats'⟩ :=
    hrepeats.append_room (h₁.sized c (List.mem_of_getLast? hlast)) hroom
  have hcurrent : s₁.appendCurrent ⟨0, 0⟩ =
      (true, { s₁ with chunks := s₁.chunks.dropLast ++ [c'], currentAppender := some a' }) := by
    unfold MemSeries.appendCurrent
    rw [hlast, ha]
    dsimp only
    rw [happend]
  have hsized := h.sized.append ⟨0, 0⟩
  rw [hok] at hsized
  unfold MemSeries.append at hok
  split at hok
  · cases hok
  · dsimp only at hok
    rw [hs₁, hcurrent] at hok
    cases hok
    constructor
    · intro c₁ hc₁
      have hinit : (s₁.chunks.dropLast ++ [c']).dropLast = s₁.chunks.dropLast := List.dropLast_concat
      exact h₁.many c₁ (by rw [← hinit]; exact hc₁)
    · intro c₁ hc₁
      have hlast' : (s₁.chunks.dropLast ++ [c']).getLast? = some c' := List.getLast?_concat
      have hsome : some c' = some c₁ := hlast'.symm.trans hc₁
      rw [← Option.some_inj.mp hsome]
      exact ⟨a', rfl, hrepeats'⟩
    · exact hsized

/-- The chunks of a series with so many samples. -/
theorem Equal.length_chunks {s : MemSeries} (h : Equal s) {xs : List Sample} (hs : s.Holds xs) :
    884 * s.chunks.length ≤ xs.length + 884 := by
  obtain ⟨runs, hruns, hflat⟩ := hs.runs
  have hmany := h.many
  rw [← hflat, List.length_flatten]
  clear hflat hs h
  generalize s.chunks = chunks at hruns hmany
  induction hruns with
  | nil => exact Nat.zero_le _
  | @cons c run chunks runs hc hrest ih =>
    rw [List.map_cons, List.sum_cons, List.length_cons, ← hc.numSamples_eq]
    cases chunks with
    | nil =>
      rw [List.length_nil]
      omega
    | cons c₂ chunks =>
      have hfirst := hmany c (by rw [List.dropLast_cons_cons]; exact List.mem_cons_self)
      have hlater := ih fun c' hc' ↦ hmany c' (by
        rw [List.dropLast_cons_cons]
        exact List.mem_cons_of_mem _ hc')
      omega

/-- A head with `n` equal samples in chunks of many. -/
theorem exists_equal (n : Nat) : ∃ h, Filled n h ∧ ∀ s, h.series.get 1 = some s → Equal s := by
  induction n with
  | zero =>
    refine ⟨_, filled_zero, fun s hs ↦ ?_⟩
    cases hs
  | succ n ih =>
    obtain ⟨h, hf, hequal⟩ := ih
    obtain ⟨h', s, s', hf', hold, happend, hget⟩ := hf.step
    refine ⟨h', hf', fun s'' hs'' ↦ ?_⟩
    rw [hget] at hs''
    cases hs''
    have hs : Equal s := by
      rcases hold with hget | rfl
      · exact hequal s hget
      · exact equal_new 1 sampleLabels
    exact hs.append happend

end MerlionTsdb.Head
