import MerlionTsdb.Chunkenc.XorCodec

/-!
# XOR chunks read back what was appended

A chunk is related to the samples it encodes by `Encodes`: its writer holds the sample count and
then bits that `Decodes` splits into one code for each sample.  Each append adds one code, whatever
the window and the bit offset, and draining an iterator takes the codes off one by one.  An appender
`Tracks` the decoder's state, its own or one re-acquired from the chunk.
-/

namespace MerlionTsdb.Chunkenc

open Encoding BitString

/-! ## The sample count -/

theorem holds_foldl_writeByte {w : BitWriter} {l : List Bool} (hw : w.Holds l) (bs : Bytes) :
    (bs.foldl BitWriter.writeByte w).Holds (l ++ ofBytes bs) := by
  induction bs generalizing w l with
  | nil => simpa using hw
  | cons b bs ih =>
    have hbits := ih (hw.writeByte b)
    rwa [List.append_assoc, ← ofBytes_cons] at hbits

/-- The two header bytes of a stream that holds a 16-bit count first. -/
theorem exists_header {w : BitWriter} {n : Nat} {l : List Bool} (hw : w.Holds (ofNat 16 n ++ l)) :
    ∃ b₀ b₁ rest, w.stream = b₀ :: b₁ :: rest ∧
      ofNat 8 b₀.toNat ++ ofNat 8 b₁.toNat = ofNat 16 n ∧
      ofBytes rest = l ++ List.replicate w.count false := by
  obtain ⟨hcount, hbits⟩ := hw
  have hlen := congrArg List.length hbits
  simp only [length_ofBytes, List.length_append, length_ofNat, List.length_replicate] at hlen
  match hs : w.stream, hlen with
  | [], hlen => rw [List.length_nil] at hlen; omega
  | [_], hlen => rw [List.length_singleton] at hlen; omega
  | b₀ :: b₁ :: rest, _ =>
    have hsplit : (ofNat 8 b₀.toNat ++ ofNat 8 b₁.toNat) ++ ofBytes rest =
        ofNat 16 n ++ (l ++ List.replicate w.count false) := by
      rw [hs, ofBytes_cons, ofBytes_cons] at hbits
      simpa only [List.append_assoc] using hbits
    obtain ⟨hhead, hrest⟩ := List.append_inj hsplit (by simp only [List.length_append, length_ofNat])
    exact ⟨b₀, b₁, rest, rfl, hhead, hrest⟩

theorem headerCount_eq {w : BitWriter} {n : Nat} {l : List Bool} (hw : w.Holds (ofNat 16 n ++ l))
    (hn : n < 65536) : headerCount w.stream = n := by
  obtain ⟨b₀, b₁, rest, hs, hhead, -⟩ := exists_header hw
  have hnat := congrArg toNat hhead
  rw [toNat_append, length_ofNat, toNat_ofNat_of_lt b₀.toNat_lt, toNat_ofNat_of_lt b₁.toNat_lt,
    toNat_ofNat_of_lt hn] at hnat
  rw [hs]
  exact hnat

theorem setHeader_holds {w : BitWriter} {n : Nat} {l : List Bool} (hw : w.Holds (ofNat 16 n ++ l))
    (m : Nat) : (setHeader w m).Holds (ofNat 16 m ++ l) := by
  obtain ⟨b₀, b₁, rest, hs, -, hrest⟩ := exists_header hw
  refine ⟨hw.1, ?_⟩
  have hhigh : ofNat 8 (UInt8.ofNat (m / 256)).toNat = ofNat 8 (m >>> 8) := by
    rw [UInt8.toNat_ofNat', ofNat_mod le_rfl, Nat.shiftRight_eq_div_pow]
  have hlow : ofNat 8 (UInt8.ofNat m).toNat = ofNat 8 m := by
    rw [UInt8.toNat_ofNat', ofNat_mod le_rfl]
  rw [setHeader, hs]
  dsimp only [List.set_cons_zero, List.set_cons_succ]
  rw [ofBytes_cons, ofBytes_cons, hrest, hhigh, hlow, ofNat_add 8 8 m]
  simp only [List.append_assoc]

/-! ## Iterating -/

/-- The encoder state an iterator hands to a re-acquired appender. -/
def XORIterator.state (it : XORIterator) : XORAppender :=
  { t := it.t, v := it.v, tDelta := it.tDelta, window := it.window }

/-- `it` has read `n` samples, is in state `d`, and has the bits `l` in front of it. -/
structure XORIterator.At (it : XORIterator) (n : Nat) (d : XORAppender) (l : List Bool) : Prop where
  numRead_eq : it.numRead = n
  state_eq : it.state = d
  err_eq : it.err = none
  reads : it.reader.Reads l

/-- From state `d` after `n` samples, the bits `bits` decode to the sample `s` and state `d'`. -/
structure DecodesNext (n : Nat) (d : XORAppender) (bits : List Bool) (s : Sample)
    (d' : XORAppender) : Prop where
  t_eq : d'.t = s.t
  v_eq : d'.v = s.v
  next : ∀ (it : XORIterator) (rest : List Bool), it.At n d (bits ++ rest) → n < it.numTotal →
    ∃ it' : XORIterator, it.next = (true, it') ∧ it'.At (n + 1) d' rest ∧ it'.numTotal = it.numTotal

/-- The state of an iterator that has read nothing. -/
def initial : XORAppender := { t := 0, window := { leading := 0, trailing := 0 } }

/-- The bits `l` decode to the samples `xs` and leave the decoder in state `d`. -/
inductive Decodes : List Bool → List Sample → XORAppender → Prop
  | nil : Decodes [] [] initial
  | snoc {l bits : List Bool} {xs : List Sample} {d d' : XORAppender} {s : Sample} :
    Decodes l xs d → bits ≠ [] → DecodesNext xs.length d bits s d' →
      Decodes (l ++ bits) (xs ++ [s]) d'

/-- An iterator in front of an encoding yields its samples, then goes on from what follows. -/
theorem Decodes.drainLoop {l : List Bool} {xs : List Sample} {d : XORAppender}
    (h : Decodes l xs d) {it : XORIterator} {rest : List Bool} (hat : it.At 0 initial (l ++ rest))
    (htotal : xs.length ≤ it.numTotal) (fuel : Nat) :
    ∃ it' : XORIterator, it'.At xs.length d rest ∧ it'.numTotal = it.numTotal ∧
      it.drainLoop (xs.length + fuel) =
        (xs ++ (it'.drainLoop fuel).1, (it'.drainLoop fuel).2) := by
  induction h generalizing rest fuel with
  | nil => exact ⟨it, hat, rfl, by simp⟩
  | @snoc l bits xs d d' s _ _ hnext ih =>
    rw [List.length_append, List.length_singleton] at htotal ⊢
    rw [List.append_assoc] at hat
    obtain ⟨it₁, hat₁, htotal₁, hdrain⟩ := ih hat (by omega) (fuel + 1)
    obtain ⟨it', hstep, hat', htotal'⟩ := hnext.next it₁ rest hat₁ (by omega)
    refine ⟨it', hat', htotal'.trans htotal₁, ?_⟩
    have hsample : ({ t := it'.t, v := it'.v } : Sample) = s := by
      have ht := congrArg XORAppender.t hat'.state_eq
      have hv := congrArg XORAppender.v hat'.state_eq
      rw [hnext.t_eq] at ht
      rw [hnext.v_eq] at hv
      exact congrArg₂ Sample.mk ht hv
    rw [Nat.add_assoc, Nat.add_comm 1, hdrain, XORIterator.drainLoop, hstep]
    simp [hsample]

/-- A fresh iterator over a written stream. -/
theorem new_at {w : BitWriter} {n : Nat} {l : List Bool} (hw : w.Holds (ofNat 16 n ++ l))
    (hn : n < 65536) :
    (XORIterator.new w.stream).At 0 initial (l ++ List.replicate w.count false) ∧
      (XORIterator.new w.stream).numTotal = n := by
  obtain ⟨b₀, b₁, rest, hs, -, hrest⟩ := exists_header hw
  have hlen : kHeaderSize ≤ w.stream.length := by
    rw [hs, kHeaderSize, List.length_cons, List.length_cons]
    omega
  rw [XORIterator.new, if_pos hlen]
  refine ⟨⟨rfl, rfl, rfl, ?_⟩, headerCount_eq hw hn⟩
  rw [← hrest, hs]
  exact BitReader.reads_new rest

/-! ## Appending -/

/-- The appender `a` after `n` samples encodes what a decoder in state `d` expects. -/
structure XORAppender.Tracks (a : XORAppender) (n : Nat) (d : XORAppender) : Prop where
  t_eq : n ≠ 0 → a.t = d.t
  v_eq : n ≠ 0 → a.v = d.v
  tDelta_eq : a.tDelta = d.tDelta
  start : n = 0 → d.tDelta = 0
  window : a.window.Matches d.window

theorem tracks_initial : ({} : XORAppender).Tracks 0 initial :=
  ⟨fun h ↦ absurd rfl h, fun h ↦ absurd rfl h, rfl, fun _ ↦ rfl, ⟨by decide, by decide⟩, Or.inr rfl⟩

theorem readValue_at {it : XORIterator} {n : Nat} {d : XORAppender} {bits rest : List Bool}
    {v : UInt64} {win : Window} (hat : it.At n d (bits ++ rest))
    (hread : ∀ r rest, r.Reads (bits ++ rest) →
      ∃ r', xorRead r d.v d.window = (.ok v, r', win) ∧ r'.Reads rest) :
    ∃ it' : XORIterator, it.readValue = (true, it') ∧
      it'.At (n + 1) { d with v := v, window := win } rest ∧ it'.numTotal = it.numTotal := by
  obtain ⟨hn, rfl, herr, hreads⟩ := hat
  obtain ⟨r', hxor, hrest⟩ := hread it.reader rest hreads
  change xorRead it.reader it.v it.window = _ at hxor
  rw [XORIterator.readValue, hxor]
  exact ⟨_, rfl, ⟨congrArg (· + 1) hn, rfl, herr, hrest⟩, rfl⟩

/-- The first sample. -/
theorem append_first {a d : XORAppender} {w : BitWriter} {l : List Bool}
    (hw : w.Holds (ofNat 16 0 ++ l)) (ha : a.Tracks 0 d) (s : Sample) :
    ∃ bits d', (a.append w s.t s.v).1 = true ∧
      (a.append w s.t s.v).2.1.Holds (ofNat 16 1 ++ (l ++ bits)) ∧ bits ≠ [] ∧
      DecodesNext 0 d bits s d' ∧ (a.append w s.t s.v).2.2.Tracks 1 d' := by
  have hcount := headerCount_eq hw (by omega)
  have hbits := (holds_foldl_writeByte hw (Varint.putVarint s.t)).writeBits s.v le_rfl
  rw [XORAppender.append, hcount]
  refine ⟨ofBytes (Varint.putVarint s.t) ++ ofNat 64 s.v.toNat, { d with t := s.t, v := s.v }, rfl,
    ?_, ?_, ⟨rfl, rfl, ?_⟩, ⟨fun _ ↦ rfl, fun _ ↦ rfl, (ha.start rfl).symm, fun h ↦ absurd h one_ne_zero,
      ha.window⟩⟩
  · rw [List.append_assoc, List.append_assoc] at hbits
    exact setHeader_holds hbits 1
  · intro hnil
    have hlen := congrArg List.length hnil
    simp only [List.length_append, length_ofNat, List.length_nil] at hlen
    omega
  · intro it rest hat htotal
    obtain ⟨hn, hstate, herr, hreads⟩ := hat
    rw [List.append_assoc] at hreads
    obtain ⟨r₁, hvarint, h₁⟩ := BitReader.readVarint_reads hreads
    obtain ⟨r₂, hword, h₂⟩ := BitReader.readBits_reads h₁ s.v.toNat_lt le_rfl
    rw [XORIterator.next, herr, hn, if_neg (by simp; omega), if_pos rfl, XORIterator.nextFirst,
      hvarint]
    dsimp only
    rw [hword]
    refine ⟨_, rfl, ⟨congrArg (· + 1) hn, ?_, herr, h₂⟩, rfl⟩
    rw [← hstate]
    rfl

/-- The second sample. -/
theorem append_second {a d : XORAppender} {w : BitWriter} {l : List Bool}
    (hw : w.Holds (ofNat 16 1 ++ l)) (ha : a.Tracks 1 d) (s : Sample) :
    ∃ bits d', (a.append w s.t s.v).1 = true ∧
      (a.append w s.t s.v).2.1.Holds (ofNat 16 2 ++ (l ++ bits)) ∧ bits ≠ [] ∧
      DecodesNext 1 d bits s d' ∧ (a.append w s.t s.v).2.2.Tracks 2 d' := by
  have hcount := headerCount_eq hw (by omega)
  set tDelta := (s.t - a.t).toUInt64 with htDelta
  have hvarint := holds_foldl_writeByte hw (Varint.putUvarint tDelta)
  obtain ⟨vbits, hbits, -, -, win', hwin', hvalue⟩ := xorWrite_decodes hvarint s.v a.v ha.window
  rw [XORAppender.append, hcount]
  -- The reader adds the delta back onto the first time.
  have hstep : d.t + tDelta.toInt64 = s.t := by
    rw [htDelta, Int64.toInt64_toUInt64, ha.t_eq one_ne_zero, Int64.add_comm, Int64.sub_add_cancel]
  rw [ha.v_eq one_ne_zero] at hvalue
  refine ⟨ofBytes (Varint.putUvarint tDelta) ++ vbits,
    { t := s.t, v := s.v, tDelta := tDelta, window := win' }, rfl,
    ?_, ?_, ⟨rfl, rfl, ?_⟩, ⟨fun _ ↦ rfl, fun _ ↦ rfl, rfl, fun h ↦ absurd h (by omega), hwin'⟩⟩
  · rw [List.append_assoc, List.append_assoc] at hbits
    exact setHeader_holds hbits 2
  · exact List.append_ne_nil_of_left_ne_nil (ofBytes_ne_nil (Varint.putUvarint_ne_nil _)) _
  · intro it rest hat htotal
    obtain ⟨hn, rfl, herr, hreads⟩ := hat
    rw [List.append_assoc] at hreads
    obtain ⟨r₁, hread, h₁⟩ := BitReader.readUvarint_reads hreads
    rw [XORIterator.next, herr, hn, if_neg (by simp; omega), if_neg one_ne_zero, if_pos rfl,
      XORIterator.nextSecond, hread]
    have hstate : ({ it with
          reader := r₁
          tDelta := tDelta
          t := it.t + tDelta.toInt64 } : XORIterator).At 1
        { it.state with t := s.t, tDelta := tDelta } (vbits ++ rest) :=
      ⟨hn, by rw [← hstep]; rfl, herr, h₁⟩
    exact readValue_at hstate hvalue

/-- Every later sample; its code starts with a one unless the delta repeats. -/
theorem append_later {a d : XORAppender} {w : BitWriter} {l : List Bool} {n : Nat}
    (hn2 : 2 ≤ n) (hmax : n < kMaxSamples) (hw : w.Holds (ofNat 16 n ++ l)) (ha : a.Tracks n d)
    (s : Sample) :
    ∃ dbits vbits d', (a.append w s.t s.v).1 = true ∧
      (a.append w s.t s.v).2.1.Holds (ofNat 16 (n + 1) ++ (l ++ (dbits ++ vbits))) ∧
      (s.t = d.t + d.tDelta.toInt64 → dbits = [false]) ∧
      (s.t ≠ d.t + d.tDelta.toInt64 → ∃ more, dbits = true :: more) ∧
      (s.v = d.v → vbits = [false]) ∧ (s.v ≠ d.v → ∃ more, vbits = true :: more) ∧
      d'.tDelta = (s.t - d.t).toUInt64 ∧ DecodesNext n d (dbits ++ vbits) s d' ∧
      (a.append w s.t s.v).2.2.Tracks (n + 1) d' := by
  have hn0 : n ≠ 0 := by omega
  have hcount := headerCount_eq hw (by rw [kMaxSamples] at hmax; omega)
  set tDelta := (s.t - a.t).toUInt64 with htDelta
  set dod := (tDelta - a.tDelta).toInt64 with hdod
  obtain ⟨dbits, hdbits, hzero, hnonzero, hprefix⟩ := writeDod_decodes hw dod
  obtain ⟨vbits, hbits, hvsame, hvdiff, win', hwin', hvalue⟩ :=
    xorWrite_decodes hdbits s.v a.v ha.window
  have happend : a.append w s.t s.v =
      (true, setHeader (xorWrite (writeDod w dod) s.v a.v a.window).1 (n + 1),
        ⟨s.t, s.v, tDelta, (xorWrite (writeDod w dod) s.v a.v a.window).2⟩) := by
    rw [XORAppender.append, hcount, if_neg (by omega)]
    match n, hn2 with
    | n + 2, _ => rfl
  have hstep : d.t + tDelta.toInt64 = s.t := by
    rw [htDelta, Int64.toInt64_toUInt64, ha.t_eq hn0, Int64.add_comm, Int64.sub_add_cancel]
  have hdelta : (d.tDelta.toInt64 + dod).toUInt64 = tDelta := by
    rw [Int64.toUInt64_add, UInt64.toUInt64_toInt64, hdod, UInt64.toUInt64_toInt64, ha.tDelta_eq,
      UInt64.add_comm, UInt64.sub_add_cancel]
  -- The delta of deltas vanishes exactly when the timestamp is the one the last delta predicts.
  have hrepeat : dod = 0 ↔ s.t = d.t + d.tDelta.toInt64 := by
    constructor
    · intro hzero
      rw [hzero, Int64.add_zero, UInt64.toUInt64_toInt64] at hdelta
      rw [hdelta, hstep]
    · intro hpredicted
      have hsame : tDelta = d.tDelta := by
        rw [htDelta, ha.t_eq hn0, hpredicted, Int64.add_comm, Int64.add_sub_cancel,
          UInt64.toUInt64_toInt64]
      rw [hdod, hsame, ha.tDelta_eq, UInt64.sub_self]
      rfl
  rw [ha.v_eq hn0] at hvsame hvdiff hvalue
  rw [happend]
  refine ⟨dbits, vbits, { t := s.t, v := s.v, tDelta := tDelta, window := win' }, rfl, ?_,
    fun h ↦ hzero (hrepeat.mpr h), fun h ↦ hnonzero (mt hrepeat.mp h), hvsame, hvdiff,
    by rw [htDelta, ha.t_eq hn0], ⟨rfl, rfl, ?_⟩, ⟨fun _ ↦ rfl, fun _ ↦ rfl, rfl, fun h ↦ absurd h (by omega), hwin'⟩⟩
  · rw [List.append_assoc, List.append_assoc] at hbits
    exact setHeader_holds hbits (n + 1)
  · intro it rest hat htotal
    obtain ⟨hn, rfl, herr, hreads⟩ := hat
    rw [List.append_assoc] at hreads
    obtain ⟨p, r₁, r₂, hread, hread₂, h₂⟩ := hprefix _ _ hreads
    rw [XORIterator.next, herr, hn, if_neg (by simp; omega), if_neg hn0, if_neg (by omega),
      XORIterator.nextRest, hread]
    dsimp only
    rw [hread₂]
    dsimp only
    change (it.tDelta.toInt64 + dod).toUInt64 = tDelta at hdelta
    rw [hdelta]
    have hstate : ({ it with reader := r₂, tDelta := tDelta, t := it.t + tDelta.toInt64 } :
        XORIterator).At n { it.state with t := s.t, tDelta := tDelta } (vbits ++ rest) :=
      ⟨hn, by rw [← hstep]; rfl, herr, h₂⟩
    exact readValue_at hstate hvalue

/-- One append: the sample it writes is the one a decoder reads next. -/
theorem append_decodes {a d : XORAppender} {w : BitWriter} {l : List Bool} {n : Nat}
    (hmax : n < kMaxSamples) (hw : w.Holds (ofNat 16 n ++ l)) (ha : a.Tracks n d) (s : Sample) :
    ∃ bits d', (a.append w s.t s.v).1 = true ∧
      (a.append w s.t s.v).2.1.Holds (ofNat 16 (n + 1) ++ (l ++ bits)) ∧ bits ≠ [] ∧
      DecodesNext n d bits s d' ∧ (a.append w s.t s.v).2.2.Tracks (n + 1) d' := by
  match n with
  | 0 => exact append_first hw ha s
  | 1 => exact append_second hw ha s
  | n + 2 =>
    obtain ⟨dbits, vbits, d', hok, hholds, hsame, hdiff, -, -, -, hnext, htracks⟩ :=
      append_later (by omega) hmax hw ha s
    refine ⟨dbits ++ vbits, d', hok, hholds, ?_, hnext, htracks⟩
    by_cases h : s.t = d.t + d.tDelta.toInt64
    · rw [hsame h]
      exact List.cons_ne_nil _ _
    · obtain ⟨more, hmore⟩ := hdiff h
      rw [hmore]
      exact List.cons_ne_nil _ _

/-- A full chunk refuses the sample and is left as it is. -/
theorem append_full {a : XORAppender} {w : BitWriter} {l : List Bool}
    (hw : w.Holds (ofNat 16 kMaxSamples ++ l)) (s : Sample) :
    a.append w s.t s.v = (false, w, a) := by
  rw [XORAppender.append, headerCount_eq hw (by decide), if_pos rfl]

/-! ## Chunks -/

/-- `c` is an encoding of the samples `xs`, whose decoding ends in state `d`. -/
structure XORChunk.Encodes (c : XORChunk) (xs : List Sample) (d : XORAppender) : Prop where
  length_le : xs.length ≤ kMaxSamples
  legal : d.window.Legal
  exists_bits : ∃ l, c.writer.Holds (ofNat 16 xs.length ++ l) ∧ Decodes l xs d

theorem Decodes.eq_initial {xs : List Sample} {d : XORAppender} {l : List Bool}
    (h : Decodes l xs d) (hempty : l = [] ∨ xs = []) : xs = [] ∧ d = initial := by
  cases h with
  | nil => exact ⟨rfl, rfl⟩
  | snoc _ hbits _ =>
    rcases hempty with h | h
    · exact absurd (List.append_eq_nil_iff.mp h).2 hbits
    · exact absurd h (by simp)

namespace XORChunk

theorem encodes_new : new.Encodes [] initial :=
  ⟨Nat.zero_le _, ⟨by decide, by decide⟩, [], BitWriter.holds_reset {} _, Decodes.nil⟩

/-- Draining an iterator over an encoding, with unread bits left behind it. -/
theorem drain_decoded {c : XORChunk} {xs : List Sample} {d : XORAppender} {l junk : List Bool}
    (hmax : xs.length ≤ kMaxSamples) (hw : c.writer.Holds (ofNat 16 xs.length ++ (l ++ junk)))
    (hdec : Decodes l xs d) :
    c.samples.1 = xs ∧ c.samples.2.err = none ∧ c.samples.2.next.1 = false ∧
      c.samples.2.state = d := by
  rw [kMaxSamples] at hmax
  obtain ⟨hat, htotal⟩ := new_at hw (by omega)
  rw [List.append_assoc] at hat
  obtain ⟨it, hat', htotal', hdrain⟩ := hdec.drainLoop hat htotal.ge 1
  have hdone : it.next = (false, it) := by
    rw [XORIterator.next, if_pos]
    rw [hat'.numRead_eq, htotal', htotal]
    simp
  have hsamples : c.samples = (xs, it) := by
    change (XORIterator.new c.writer.stream).drainLoop _ = _
    rw [show c.iterator.numTotal = xs.length from htotal, hdrain, XORIterator.drainLoop, hdone]
    simp
  rw [hsamples]
  exact ⟨rfl, hat'.err_eq, by rw [hdone], hat'.state_eq⟩

theorem Encodes.drain {c : XORChunk} {xs : List Sample} {d : XORAppender} (h : c.Encodes xs d) :
    c.samples.1 = xs ∧ c.samples.2.err = none ∧ c.samples.2.next.1 = false ∧
      c.samples.2.state = d := by
  obtain ⟨hmax, -, l, hw, hdec⟩ := h
  rw [← List.append_nil l] at hw
  exact drain_decoded hmax hw hdec

theorem Encodes.numSamples_eq {c : XORChunk} {xs : List Sample} {d : XORAppender}
    (h : c.Encodes xs d) : c.numSamples = xs.length := by
  obtain ⟨hmax, -, l, hw, -⟩ := h
  rw [kMaxSamples] at hmax
  exact headerCount_eq hw (by omega)

/-- A re-acquired appender takes up the decoder's state. -/
theorem appender_decoded {c : XORChunk} {xs : List Sample} {d : XORAppender} {l junk : List Bool}
    (hmax : xs.length ≤ kMaxSamples) (hlegal : d.window.Legal)
    (hw : c.writer.Holds (ofNat 16 xs.length ++ (l ++ junk))) (hdec : Decodes l xs d) :
    ∃ a, c.appender = .ok a ∧ a.Tracks xs.length d := by
  obtain ⟨-, herr, -, hstate⟩ := drain_decoded hmax hw hdec
  have hlen := congrArg List.length hw.2
  simp only [length_ofBytes, List.length_append, length_ofNat, List.length_replicate] at hlen
  rw [XORChunk.appender]
  by_cases hheader : c.bytes.length = kHeaderSize
  · -- Only the header: nothing was ever appended.
    have hl : l = [] := by
      rw [show c.writer.stream.length = 2 from hheader] at hlen
      exact List.length_eq_zero_iff.mp (by omega)
    obtain ⟨rfl, rfl⟩ := hdec.eq_initial (Or.inl hl)
    rw [if_pos hheader]
    exact ⟨{}, rfl, tracks_initial⟩
  · rw [if_neg hheader]
    have herr' : c.iterator.drain.2.err = none := herr
    dsimp only
    rw [herr']
    refine ⟨d, congrArg Except.ok hstate, fun _ ↦ rfl, fun _ ↦ rfl, rfl, ?_, hlegal, Or.inl rfl⟩
    intro hzero
    rw [(hdec.eq_initial (Or.inr (List.length_eq_zero_iff.mp hzero))).2]
    rfl

theorem Encodes.appender {c : XORChunk} {xs : List Sample} {d : XORAppender}
    (h : c.Encodes xs d) : ∃ a, c.appender = .ok a ∧ a.Tracks xs.length d := by
  obtain ⟨hmax, hlegal, l, hw, hdec⟩ := h
  rw [← List.append_nil l] at hw
  exact appender_decoded hmax hlegal hw hdec

theorem Encodes.append {c : XORChunk} {a d : XORAppender} {xs : List Sample}
    (h : c.Encodes xs d) (ha : a.Tracks xs.length d) (hmax : xs.length < kMaxSamples)
    (s : Sample) :
    ∃ d', (c.append a s).1 = true ∧ (c.append a s).2.1.Encodes (xs ++ [s]) d' ∧
      (c.append a s).2.2.Tracks (xs.length + 1) d' := by
  obtain ⟨-, -, l, hw, hdec⟩ := h
  obtain ⟨bits, d', hok, hw', hbits, hnext, ha'⟩ := append_decodes hmax hw ha s
  have hlen : (xs ++ [s]).length = xs.length + 1 := List.length_append
  exact ⟨d', hok, ⟨hlen ▸ hmax, ha'.window.1, l ++ bits, hlen ▸ hw', hdec.snoc hbits hnext⟩, ha'⟩

/-- A run of appends through one appender, re-acquired before those marked `true`; the answers of
the appends and the chunk and appender at the end. -/
def run (c : XORChunk) (a : XORAppender) :
    List (Bool × Sample) → Except Fault (List Bool × XORChunk × XORAppender)
  | [] => .ok ([], c, a)
  | (reacquire, s) :: ops =>
    match if reacquire then c.appender else .ok a with
    | .error e => .error e
    | .ok a =>
      let (ok, c, a) := c.append a s
      match run c a ops with
      | .error e => .error e
      | .ok (oks, c, a) => .ok (ok :: oks, c, a)

/-- A chunk built from nothing by a run. -/
def build (ops : List (Bool × Sample)) : Except Fault (List Bool × XORChunk × XORAppender) :=
  match new.appender with
  | .error e => .error e
  | .ok a => run new a ops

theorem Encodes.run {c : XORChunk} {a d : XORAppender} {xs : List Sample} (h : c.Encodes xs d)
    (ha : a.Tracks xs.length d) (ops : List (Bool × Sample))
    (hmax : xs.length + ops.length ≤ kMaxSamples) :
    ∃ c' a' d', c.run a ops = .ok (List.replicate ops.length true, c', a') ∧
      c'.Encodes (xs ++ ops.map Prod.snd) d' ∧
      a'.Tracks (xs ++ ops.map Prod.snd).length d' := by
  induction ops generalizing c a d xs with
  | nil => exact ⟨c, a, d, rfl, by simpa using h, by simpa using ha⟩
  | cons op ops ih =>
    obtain ⟨reacquire, s⟩ := op
    rw [List.length_cons] at hmax
    obtain ⟨a₁, hacquire, ha₁⟩ : ∃ a₁, (if reacquire then c.appender else .ok a) = .ok a₁ ∧
        a₁.Tracks xs.length d := by
      cases reacquire
      · exact ⟨a, rfl, ha⟩
      · exact h.appender
    obtain ⟨d₂, hok, h₂, ha₂⟩ := h.append ha₁ (by omega) s
    obtain ⟨c', a', d', hrun, h', ha'⟩ := ih h₂ (by simpa using ha₂) (by simp; omega)
    have happend : xs ++ [s] ++ ops.map Prod.snd = xs ++ (s :: ops.map Prod.snd) := by simp
    rw [happend] at h' ha'
    refine ⟨c', a', d', ?_, h', ha'⟩
    rw [XORChunk.run, hacquire]
    dsimp only
    rw [hrun, hok]
    rfl

theorem build_encodes (ops : List (Bool × Sample)) (hlen : ops.length ≤ kMaxSamples) :
    ∃ c a d, build ops = .ok (List.replicate ops.length true, c, a) ∧
      c.Encodes (ops.map Prod.snd) d ∧ a.Tracks (ops.map Prod.snd).length d :=
  encodes_new.run tracks_initial ops (by simpa using hlen)

/-- Appending at most 65535 samples to a fresh chunk, through any appenders, always succeeds, and
the chunk reads back exactly these samples; a full chunk refuses one more and keeps its bytes. -/
theorem build_roundtrip (ops : List (Bool × Sample)) (hlen : ops.length ≤ kMaxSamples) :
    ∃ c a, build ops = .ok (List.replicate ops.length true, c, a) ∧
      c.numSamples = ops.length ∧ c.samples.1 = ops.map Prod.snd ∧
      c.samples.2.next.1 = false ∧ c.samples.2.err = none ∧ (∃ a', c.appender = .ok a') ∧
      (ops.length = kMaxSamples →
        ∀ a' s, (c.append a' s).1 = false ∧ (c.append a' s).2.1.bytes = c.bytes) := by
  obtain ⟨c, a, d, hbuild, hc, -⟩ := build_encodes ops hlen
  obtain ⟨hsamples, herr, hdone, -⟩ := hc.drain
  obtain ⟨a', happender, -⟩ := hc.appender
  refine ⟨c, a, hbuild, ?_, hsamples, hdone, herr, ⟨a', happender⟩, ?_⟩
  · rw [hc.numSamples_eq, List.length_map]
  · intro hfull a' s
    obtain ⟨-, -, l, hw, -⟩ := hc
    rw [List.length_map, hfull] at hw
    rw [XORChunk.append, append_full hw]
    exact ⟨rfl, rfl⟩

theorem build_roundtrip_two :
    ∃ c a, build [(false, ⟨-5, 1⟩), (true, ⟨7, 0⟩)] = .ok ([true, true], c, a) ∧
      c.numSamples = 2 ∧ c.samples.1 = [⟨-5, 1⟩, ⟨7, 0⟩] := by
  obtain ⟨c, a, hbuild, hnum, hsamples, -⟩ :=
    build_roundtrip [(false, ⟨-5, 1⟩), (true, ⟨7, 0⟩)] (by decide)
  exact ⟨c, a, hbuild, hnum, hsamples⟩

end XORChunk
end MerlionTsdb.Chunkenc
