import MerlionTsdb.Chunkenc.XorRoundtrip

/-!
# Re-wrapped chunks

`compact` and `from_bytes` adopt a chunk's bytes with a byte-aligned writer: the position inside the
last byte is lost, and its free bits stay behind as zeros in front of whatever is appended next.
-/

namespace MerlionTsdb.Chunkenc

open Encoding BitString

/-- The two ways to re-wrap a chunk. -/
inductive Rewrap
  | compact
  | fromBytes
  deriving DecidableEq, Repr

namespace XORChunk

def rewrap : Rewrap → XORChunk → XORChunk
  | .compact, c => c.compact
  | .fromBytes, c => fromBytes c.bytes

/-- Appending `ys` to the chunk `c` of the samples `xs` after re-wrapping it, and reading it all
back without an error. -/
def rewrapTransparent (how : Rewrap) (c : XORChunk) (xs ys : List Sample) : Bool :=
  let c := c.rewrap how
  match c.appender with
  | .error _ => false
  | .ok a =>
    match c.run a (ys.map fun y ↦ (false, y)) with
    | .error _ => false
    | .ok (_, c, _) => c.samples.1 = xs ++ ys && c.samples.2.err = none

/-- `ys` go on from a sample `t`, `v` with the same delta and the same value each time. -/
def Repeats (delta : Int64) (v : UInt64) : Int64 → List Sample → Prop
  | _, [] => True
  | t, y :: ys => y.t = t + delta ∧ y.v = v ∧ Repeats delta v y.t ys

theorem rewrap_writer (how : Rewrap) (c : XORChunk) :
    (c.rewrap how).writer = { stream := c.writer.stream, count := 0 } := by
  cases how <;> rfl

/-- Re-wrapping turns the free bits of the last byte into written zeros. -/
theorem holds_rewrap {c : XORChunk} {l : List Bool} (how : Rewrap) (hw : c.writer.Holds l) :
    (c.rewrap how).writer.Holds (l ++ List.replicate c.writer.count false) := by
  rw [rewrap_writer]
  refine ⟨Nat.zero_lt_succ 7, ?_⟩
  dsimp only
  rw [hw.2, List.replicate_zero, List.append_nil]

/-- A zero bit in front of an iterator past the second sample reads as a repeated delta, two of them
as a repeated sample. -/
theorem next_zero {it : XORIterator} {n : Nat} {d : XORAppender} {rest : List Bool} (hn : 2 ≤ n)
    (hat : it.At n d (false :: rest)) (htotal : n < it.numTotal) :
    it.next.2.t = d.t + d.tDelta.toInt64 ∧
      ∀ rest', rest = false :: rest' → it.next.2.v = d.v := by
  obtain ⟨rfl, rfl, herr, hreads⟩ := hat
  obtain ⟨r₁, hprefix, h₁⟩ := readPrefix_ones 0 4 0 hreads (by omega)
  have hdelta : (it.tDelta.toInt64 + 0).toUInt64 = it.tDelta := by
    rw [Int64.add_zero, UInt64.toUInt64_toInt64]
  have hnext : it.next = XORIterator.readValue
      { it with reader := r₁, tDelta := it.tDelta, t := it.t + it.tDelta.toInt64 } := by
    rw [XORIterator.next, if_neg (by rw [herr]; simp; omega), if_neg (by omega),
      if_neg (by omega), XORIterator.nextRest, hprefix]
    dsimp only
    rw [show readDod r₁ (pushOnes 0 0 <<< 1) = (.ok 0, r₁) from rfl]
    dsimp only
    rw [hdelta]
  rw [hnext]
  constructor
  · rw [XORIterator.readValue]
    split <;> rfl
  · rintro rest' rfl
    obtain ⟨r₂, hbit, -⟩ := BitReader.readBit_reads h₁
    rw [XORIterator.readValue, xorRead, hbit]
    rfl

/-- The appends of a run through one appender all succeed. -/
theorem run_holds {c : XORChunk} {a d : XORAppender} {n : Nat} {l : List Bool}
    (hw : c.writer.Holds (ofNat 16 n ++ l)) (ha : a.Tracks n d) (ys : List Sample)
    (hmax : n + ys.length ≤ kMaxSamples) :
    ∃ c' a' more, c.run a (ys.map fun y ↦ (false, y)) =
        .ok (List.replicate ys.length true, c', a') ∧
      c'.writer.Holds (ofNat 16 (n + ys.length) ++ (l ++ more)) := by
  induction ys generalizing c a d n l with
  | nil => exact ⟨c, a, [], rfl, by simpa using hw⟩
  | cons y ys ih =>
    rw [List.length_cons] at hmax
    obtain ⟨bits, d', hok, hw', -, -, ha'⟩ := append_decodes (by omega) hw ha y
    obtain ⟨c', a', more, hrun, hholds⟩ := ih (c := (c.append a y).2.1) hw' ha' (by omega)
    have hrun' : (c.append a y).2.1.run (c.append a y).2.2 (ys.map fun y ↦ (false, y)) =
        .ok (List.replicate ys.length true, c', a') := hrun
    refine ⟨c', a', bits ++ more, ?_, ?_⟩
    · rw [List.map_cons, XORChunk.run, if_neg Bool.false_ne_true]
      dsimp only
      rw [hrun', show (c.append a y).1 = true from hok]
      rfl
    · rw [List.length_cons, Nat.add_comm ys.length, ← Nat.add_assoc, ← List.append_assoc l]
      exact hholds

theorem run_cons_false {c c' : XORChunk} {a a' : XORAppender} {y : Sample} {ys : List Sample}
    {oks : List Bool}
    (h : (c.append a y).2.1.run (c.append a y).2.2 (ys.map fun y ↦ (false, y)) =
      .ok (oks, c', a')) :
    c.run a ((y :: ys).map fun y ↦ (false, y)) = .ok ((c.append a y).1 :: oks, c', a') := by
  rw [List.map_cons, XORChunk.run, if_neg Bool.false_ne_true]
  dsimp only
  rw [h]

/-- Appending behind `p` stray zero bits is harmless just when every sample is coded as two zeros. -/
theorem run_padded_iff {c : XORChunk} {a d : XORAppender} {xs : List Sample} {l : List Bool}
    {p : Nat} (hpos : 0 < p) (hxs : 2 ≤ xs.length)
    (hw : c.writer.Holds (ofNat 16 xs.length ++ (l ++ List.replicate p false)))
    (hdec : Decodes l xs d) (ha : a.Tracks xs.length d) (ys : List Sample)
    (hmax : xs.length + ys.length ≤ kMaxSamples) :
    ∃ c' a', c.run a (ys.map fun y ↦ (false, y)) =
        .ok (List.replicate ys.length true, c', a') ∧
      (c'.samples.1 = xs ++ ys ∧ c'.samples.2.err = none ↔
        Repeats d.tDelta.toInt64 d.v d.t ys) := by
  induction ys generalizing c a d xs l with
  | nil =>
    obtain ⟨hsamples, herr, -⟩ := drain_decoded (by simpa using hmax) hw hdec
    refine ⟨c, a, rfl, ?_⟩
    simpa [Repeats] using And.intro hsamples herr
  | cons y ys ih =>
    rw [List.length_cons] at hmax
    obtain ⟨dbits, vbits, d', hok, hw', hsame, hdiff, hvsame, hvdiff, htDelta, hnext, ha'⟩ :=
      append_later hxs (by omega) hw ha y
    by_cases hrepeat : y.t = d.t + d.tDelta.toInt64 ∧ y.v = d.v
    · -- The code of `y` is two zeros, which trade places with the stray ones.
      obtain ⟨ht, hv⟩ := hrepeat
      rw [hsame ht, hvsame hv] at hw' hnext
      have hswap : l ++ List.replicate p false ++ ([false] ++ [false]) =
          l ++ ([false] ++ [false]) ++ List.replicate p false := by
        rw [List.append_assoc, List.append_assoc]
        congr 1
        exact (List.replicate_add p 2 false).symm.trans
          ((congrArg (List.replicate · false) (Nat.add_comm p 2)).trans (List.replicate_add 2 p false))
      have hdelta : d'.tDelta = d.tDelta := by
        rw [htDelta, ht, Int64.add_comm, Int64.add_sub_cancel, UInt64.toUInt64_toInt64]
      have hlen : (xs ++ [y]).length = xs.length + 1 := List.length_append
      rw [hswap, ← hlen] at hw'
      obtain ⟨c', a', hrun, hiff⟩ := ih (c := (c.append a y).2.1) (by omega) hw'
        (hdec.snoc (List.cons_ne_nil _ _) hnext) (hlen ▸ ha') (by omega)
      refine ⟨c', a', ?_, ?_⟩
      · rw [run_cons_false hrun, show (c.append a y).1 = true from hok]
        rfl
      · rw [hdelta, hnext.t_eq, hnext.v_eq, hv, List.append_assoc] at hiff
        rw [Repeats]
        exact hiff.trans ⟨fun h ↦ ⟨ht, hv, h⟩, fun h ↦ h.2.2⟩
    · -- Otherwise the stray zeros are read as the start of its code.
      obtain ⟨c', a', more, hrun, hholds⟩ := run_holds (c := (c.append a y).2.1) hw' ha' ys (by omega)
      refine ⟨c', a', ?_, ?_⟩
      · rw [run_cons_false hrun, show (c.append a y).1 = true from hok]
        rfl
      refine iff_of_false ?_ (fun h ↦ hrepeat ⟨h.1, h.2.1⟩)
      rintro ⟨hsamples, -⟩
      rw [kMaxSamples] at hmax
      obtain ⟨hat, htotal⟩ := new_at hholds (by omega)
      obtain ⟨q, rfl⟩ : ∃ q, p = q + 1 := ⟨p - 1, by omega⟩
      simp only [List.append_assoc] at hat
      obtain ⟨it, hat', htotal', hdrain⟩ := hdec.drainLoop hat (by omega) (ys.length + 2)
      have hyield : (it.drainLoop (ys.length + 2)).1 = y :: ys := by
        have hall : c'.samples = (xs ++ (it.drainLoop (ys.length + 2)).1,
            (it.drainLoop (ys.length + 2)).2) := by
          change (XORIterator.new c'.writer.stream).drainLoop
            ((XORIterator.new c'.writer.stream).numTotal + 1) = _
          rw [htotal, ← hdrain]
          congr 1
          omega
        rw [hall] at hsamples
        exact List.append_cancel_left hsamples
      -- The iterator makes a repetition of the stray zeros, so `y` is one.
      obtain ⟨ht, hv⟩ := next_zero hxs hat' (by omega)
      rw [XORIterator.drainLoop] at hyield
      split at hyield
      · cases hyield
      · rename_i it₁ hstep
        rw [hstep] at ht hv
        rw [List.cons.injEq] at hyield
        have hyt : y.t = d.t + d.tDelta.toInt64 := by
          rw [← hyield.1]
          exact ht
        apply hrepeat
        refine ⟨hyt, ?_⟩
        rw [← hyield.1]
        rw [hsame hyt] at hv
        cases q with
        | zero => exact hv _ rfl
        | succ q => exact hv _ rfl

/-! ## The first sample ends on a byte boundary -/

theorem count_writeByte (w : BitWriter) (b : UInt8) : (w.writeByte b).count = w.count := by
  unfold BitWriter.writeByte
  split <;> rfl

theorem count_foldl_writeByte (w : BitWriter) (bs : Bytes) :
    (bs.foldl BitWriter.writeByte w).count = w.count := by
  induction bs generalizing w with
  | nil => rfl
  | cons b bs ih => rw [List.foldl_cons, ih, count_writeByte]

theorem count_writeTopBytes (w : BitWriter) (u : UInt64) (n : Nat) :
    (w.writeTopBytes u n).1.count = w.count := by
  induction n generalizing w u with
  | zero => rfl
  | succ n ih => rw [BitWriter.writeTopBytes, ih, count_writeByte]

theorem count_writeBits_word (w : BitWriter) (u : UInt64) : (w.writeBits u 64).count = w.count := by
  unfold BitWriter.writeBits
  rw [if_neg (by decide)]
  dsimp only
  rw [show 64 % 8 = 0 from rfl, BitWriter.writeTopBits, count_writeTopBytes]

theorem count_append_new (a : XORAppender) (s : Sample) :
    (new.append a s).2.1.writer.count = 0 := by
  have hempty : headerCount new.writer.stream = 0 := rfl
  rw [XORChunk.append, XORAppender.append, hempty, if_neg (by decide)]
  dsimp only [setHeader]
  rw [count_writeBits_word, putVarintViaWriter, count_foldl_writeByte]
  rfl

theorem appender_new : new.appender = .ok {} := rfl

theorem count_build_of_short {ops : List (Bool × Sample)} {oks : List Bool} {c : XORChunk}
    {a : XORAppender} (hbuild : build ops = .ok (oks, c, a)) (hshort : ops.length < 2) :
    c.writer.count = 0 := by
  match ops, hshort with
  | [], _ =>
    rw [build, appender_new] at hbuild
    dsimp only at hbuild
    rw [XORChunk.run] at hbuild
    cases hbuild
    rfl
  | [(reacquire, s)], _ =>
    have hacquire : (if reacquire then new.appender else .ok {}) = .ok {} := by
      rw [appender_new, ite_self]
    rw [build, appender_new] at hbuild
    dsimp only at hbuild
    rw [XORChunk.run, hacquire] at hbuild
    dsimp only at hbuild
    rw [XORChunk.run] at hbuild
    dsimp only at hbuild
    rw [Except.ok.injEq, Prod.mk.injEq, Prod.mk.injEq] at hbuild
    obtain ⟨-, rfl, -⟩ := hbuild
    exact count_append_new {} s

/-- Re-wrapping a chunk is transparent to later appends exactly when the writer stood at a byte
boundary, or what is appended only repeats the last sample's delta and value. -/
theorem rewrapTransparent_iff (how : Rewrap) (ops : List (Bool × Sample)) (ys : List Sample)
    (hlen : ops.length + ys.length ≤ kMaxSamples) :
    ∃ c a, build ops = .ok (List.replicate ops.length true, c, a) ∧
      (c.rewrapTransparent how (ops.map Prod.snd) ys = true ↔
        c.writer.count = 0 ∨ Repeats a.tDelta.toInt64 a.v a.t ys) := by
  obtain ⟨c, a, d, hbuild, hc, ha⟩ := build_encodes ops (by omega)
  refine ⟨c, a, hbuild, ?_⟩
  rw [rewrapTransparent]
  by_cases haligned : c.writer.count = 0
  · -- Nothing is lost: the re-wrapped chunk is the chunk.
    have hsame : c.rewrap how = c := by
      have hwriter := rewrap_writer how c
      rw [← haligned] at hwriter
      exact congrArg XORChunk.mk hwriter
    obtain ⟨a₁, happender, ha₁⟩ := hc.appender
    obtain ⟨c', a', d', hrun, hc', -⟩ := hc.run ha₁ (ys.map fun y ↦ (false, y))
      (by rw [List.length_map, List.length_map]; exact hlen)
    obtain ⟨hsamples, herr, -⟩ := hc'.drain
    have hys : (ys.map fun y ↦ (false, y)).map Prod.snd = ys := by simp
    rw [hys] at hsamples
    rw [hsame, happender]
    dsimp only
    rw [hrun]
    dsimp only
    rw [hsamples, herr]
    simp [haligned]
  · -- The first sample ends on a byte boundary, so there is a second.
    have hlong : 2 ≤ ops.length := by
      by_contra hshort
      exact haligned (count_build_of_short hbuild (by omega))
    have hxs : (ops.map Prod.snd).length = ops.length := List.length_map _
    obtain ⟨hmax, hlegal, l, hw, hdec⟩ := hc
    have hpadded := holds_rewrap how hw
    rw [List.append_assoc] at hpadded
    obtain ⟨a₁, happender, ha₁⟩ := appender_decoded hmax hlegal hpadded hdec
    obtain ⟨c', a', hrun, hiff⟩ := run_padded_iff (Nat.pos_of_ne_zero haligned) (by omega) hpadded
      hdec ha₁ ys (by omega)
    rw [happender]
    dsimp only
    rw [hrun]
    dsimp only
    rw [Bool.and_eq_true, decide_eq_true_iff, decide_eq_true_iff, hiff, ha.tDelta_eq,
      ha.v_eq (by omega), ha.t_eq (by omega)]
    exact ⟨Or.inr, fun h ↦ h.resolve_left haligned⟩

theorem rewrapTransparent_iff_pair :
    ∃ c a, build [(false, ⟨0, 0⟩), (false, ⟨1, 0⟩)] = .ok ([true, true], c, a) ∧
      (c.rewrapTransparent .compact [⟨0, 0⟩, ⟨1, 0⟩] [⟨2, 0⟩] = true ↔
        c.writer.count = 0 ∨ Repeats a.tDelta.toInt64 a.v a.t [⟨2, 0⟩]) :=
  rewrapTransparent_iff .compact [(false, ⟨0, 0⟩), (false, ⟨1, 0⟩)] [⟨2, 0⟩] (by decide)

/-- Seven bits of the last byte are free, and a sample with a new delta is appended behind them. -/
theorem rewrap_misreads_appended :
    ∃ c a, build [(false, ⟨0, 0⟩), (false, ⟨1, 0⟩)] = .ok ([true, true], c, a) ∧
      c.rewrapTransparent .compact [⟨0, 0⟩, ⟨1, 0⟩] [⟨3, 0⟩] = false ∧
      c.rewrapTransparent .fromBytes [⟨0, 0⟩, ⟨1, 0⟩] [⟨3, 0⟩] = false :=
  ⟨{ writer := { stream := [0, 2, 0, 0, 0, 0, 0, 0, 0, 0, 0, 1, 0], count := 7 } },
    { t := 1, v := 0, tDelta := 1 }, by decide, by decide, by decide⟩

end XORChunk
end MerlionTsdb.Chunkenc
