import MerlionTsdb.Block.ChunksRoundtrip
import MerlionTsdb.Lib.Placed

/-!
# Chunk writers behind failed writes

A write that fails may leave bytes in the file that `seg_offset_` does not count, and a cut that fails
in its header leaves a file without one.  References into a file stay readable as long as every chunk
that is written finds its file in step with the writer.
-/

namespace MerlionTsdb.Block

open Encoding Wal

/-! ## Files that only grow -/

/-- Every file of `contents` is still there in `contents'`, perhaps longer. -/
def Grows (contents contents' : List Bytes) : Prop :=
  ∀ (i : Nat) (bytes : Bytes), contents[i]? = some bytes →
    ∃ more, contents'[i]? = some (bytes ++ more)

theorem Grows.refl (contents : List Bytes) : Grows contents contents := by
  intro i bytes h
  exact ⟨[], by rw [h, List.append_nil]⟩

theorem Grows.trans {a b c : List Bytes} (hab : Grows a b) (hbc : Grows b c) : Grows a c := by
  intro i bytes h
  obtain ⟨more, hb⟩ := hab i bytes h
  obtain ⟨more', hc⟩ := hbc i _ hb
  exact ⟨more ++ more', by rw [hc, List.append_assoc]⟩

/-- The last file gets longer. -/
theorem grows_last (done : List Bytes) (cur more : Bytes) :
    Grows (done ++ [cur]) (done ++ [cur ++ more]) := by
  intro i bytes h
  by_cases hi : i < done.length
  · rw [List.getElem?_append_left hi] at h ⊢
    exact ⟨[], by rw [h, List.append_nil]⟩
  · rw [List.getElem?_append_right (Nat.le_of_not_lt hi), List.getElem?_singleton] at h ⊢
    split at h
    · cases h
      exact ⟨more, by rw [if_pos ‹_›]⟩
    · cases h

theorem grows_next (contents : List Bytes) (bytes : Bytes) : Grows contents (contents ++ [bytes]) := by
  intro i bytes' h
  have hi := (List.getElem?_eq_some_iff.mp h).1
  exact ⟨[], by rw [List.getElem?_append_left hi, h, List.append_nil]⟩

/-- The chunk stands where its reference points, in a file with a header. -/
def Kept (contents : List Bytes) (ref : BlockChunkRef) (c : ChunkPayload) : Prop :=
  ∃ bytes, contents[ref.seq.toNat]? = some bytes ∧ segmentHeader <+: bytes ∧
    Placed bytes ref.offset.toNat (frame c)

theorem Kept.grow {contents contents' : List Bytes} {ref : BlockChunkRef} {c : ChunkPayload}
    (h : Kept contents ref c) (hgrows : Grows contents contents') : Kept contents' ref c := by
  obtain ⟨bytes, hget, hheader, hplaced⟩ := h
  obtain ⟨more, hget'⟩ := hgrows _ _ hget
  exact ⟨_, hget', hheader.trans (List.prefix_append _ _), hplaced.append more⟩

/-! ## The writer and its files -/

/-- The writer has closed the files `done` and writes to the one that holds `cur`, whatever its
offset. -/
structure Growing (w : ChunkWriter) (files : Files) (done : List Bytes) (cur : Bytes) : Prop where
  fd_eq : w.fd = some (formatSegmentName (w.seq + 1))
  seq_eq : w.seq.toNat = done.length
  closed_eq : w.closed = false
  exists_base : ∃ base : Files, files = base.set (formatSegmentName (w.seq + 1)) cur ∧
    base.numbered parseSegmentName = numberBytes done
  few : done.length < 999999

/-- Only writes may fail. -/
def ChunkCutCalls.OnlyWritesFail (calls : ChunkCutCalls) : Prop :=
  calls.fsync = true ∧ calls.close = true ∧ calls.opened = true

/-- The open segment has its header, and ends where the next reference will point. -/
def InStep (w : ChunkWriter) (files : Files) : Prop :=
  ∀ name ∈ w.fd, segmentHeader <+: files.content name ∧ (files.content name).length = w.segOffset

instance (w : ChunkWriter) (files : Files) : Decidable (InStep w files) :=
  inferInstanceAs (Decidable (∀ name ∈ w.fd, _ ∧ _))

/-- A chunk that does not roll over, and whose bytes all get through, finds its segment in step; the
segments keep to six digits and the offsets to 32 bits. -/
def ChunkWrite.Safe (w : ChunkWriter) (files : Files) (x : ChunkWrite) : Prop :=
  if w.rollsOver x.payload.data.length then w.seq.toNat + 1 < 999999
  else (writeAll x.calls.write (frame x.payload)).1 = true → InStep w files ∧ w.segOffset < 2 ^ 32

instance (w : ChunkWriter) (files : Files) (x : ChunkWrite) : Decidable (x.Safe w files) :=
  inferInstanceAs (Decidable (ite _ _ _))

namespace Growing

variable {w : ChunkWriter} {files : Files} {done : List Bytes} {cur : Bytes}

theorem numbered_eq (h : Growing w files done cur) :
    files.numbered parseSegmentName = numberBytes (done ++ [cur]) := by
  obtain ⟨base, rfl, hbase⟩ := h.exists_base
  rw [Files.numbered_set_new (parseSegmentName_format h.seq_eq h.few), hbase, numberBytes_concat]
  intro e he
  rw [hbase] at he
  have hle := le_of_mem_numberBytes he
  omega

theorem content_eq (h : Growing w files done cur) :
    files.content (formatSegmentName (w.seq + 1)) = cur := by
  obtain ⟨base, rfl, -⟩ := h.exists_base
  exact Files.content_set _ _ _

/-- Bytes at the end of the open file, all of them or not. -/
theorem append (h : Growing w files done cur) (bytes : Bytes) :
    Growing w (files.append (formatSegmentName (w.seq + 1)) bytes) done (cur ++ bytes) where
  fd_eq := h.fd_eq
  seq_eq := h.seq_eq
  closed_eq := h.closed_eq
  exists_base := by
    obtain ⟨base, rfl, hbase⟩ := h.exists_base
    exact ⟨base, Files.append_set _ _ _ _, hbase⟩
  few := h.few

theorem setOffset (h : Growing w files done cur) (offset : Nat) :
    Growing { w with segOffset := offset } files done cur :=
  ⟨h.fd_eq, h.seq_eq, h.closed_eq, h.exists_base, h.few⟩

/-- A chunk into the open file: if all its bytes get through, its reference points at it. -/
theorem writeFrame (h : Growing w files done cur) {calls : List WriteResult} {c : ChunkPayload}
    (hstep : (writeAll calls (frame c)).1 = true →
      segmentHeader <+: cur ∧ cur.length = w.segOffset ∧ w.segOffset < 2 ^ 32) :
    ∃ ok files' written, w.writeFd files calls (frame c) = (ok, files') ∧
      Growing w files' done (cur ++ written) ∧
      (ok = true →
        Kept (done ++ [cur ++ written]) { seq := w.seq, offset := UInt32.ofNat w.segOffset } c) := by
  unfold ChunkWriter.writeFd
  rw [h.fd_eq]
  rcases hwrite : writeAll calls (frame c) with ⟨ok, written⟩
  refine ⟨ok, _, written, rfl, h.append written, ?_⟩
  intro hok
  subst hok
  rw [hwrite] at hstep
  obtain ⟨hheader, hlen, hlt⟩ := hstep rfl
  have hall : written = frame c := writeAll_true hwrite
  have hoffset : (UInt32.ofNat w.segOffset).toNat = cur.length := by
    rw [UInt32.toNat_ofNat_of_lt' hlt, hlen]
  refine ⟨cur ++ written, ?_, hheader.trans (List.prefix_append _ _), ?_⟩
  · rw [h.seq_eq, List.getElem?_append_right (Nat.le_refl _), Nat.sub_self]
    rfl
  · show Placed _ (UInt32.ofNat w.segOffset).toNat _
    rw [hoffset, hall]
    exact Placed.of_append cur (frame c)

/-- A new file, with whatever got through of its header. -/
theorem cutNewSegment (h : Growing w files done cur) {calls : ChunkCutCalls}
    (hcalls : calls.OnlyWritesFail) (hfew : done.length + 1 < 999999) :
    ∃ ok w' files' header, w.cutNewSegment files calls = (ok, w', files') ∧
      Growing w' files' (done ++ [cur]) header ∧
      (ok = true → header = segmentHeader ∧ w'.segOffset = kChunksSegmentHeaderSize) := by
  obtain ⟨hfsync, hclose, hopened⟩ := hcalls
  have hsucc : (w.seq + 1).toNat = done.length + 1 := by
    rw [UInt32.toNat_add, h.seq_eq]
    exact Nat.mod_eq_of_lt (by rw [UInt32.toNat_one]; omega)
  have hnew : ∀ (bytes : Bytes) (offset : Nat),
      Growing
        { w with fd := some (formatSegmentName (w.seq + 1 + 1)), seq := w.seq + 1, segOffset := offset }
        (files.set (formatSegmentName (w.seq + 1 + 1)) bytes) (done ++ [cur]) bytes := by
    intro bytes offset
    refine ⟨rfl, ?_, h.closed_eq, ⟨files, rfl, h.numbered_eq⟩, ?_⟩
    · rw [List.length_append]
      exact hsucc
    · rw [List.length_append]
      exact hfew
  unfold ChunkWriter.cutNewSegment
  rw [h.fd_eq, hfsync, hclose, hopened]
  simp only [Option.isSome_some, Bool.not_true, Bool.and_false, Bool.false_eq_true, ↓reduceIte,
    ChunkWriter.writeFd]
  rcases hwrite : writeAll calls.header segmentHeader with ⟨_ | _, written⟩
  · refine ⟨false, _, _, written, rfl, ?_, fun hok ↦ by cases hok⟩
    rw [Files.append_set]
    exact hnew written w.segOffset
  · refine ⟨true, _, _, written, rfl, ?_, fun _ ↦ ⟨writeAll_true hwrite, rfl⟩⟩
    rw [Files.append_set]
    exact hnew written kChunksSegmentHeaderSize

/-- One write: nothing that was written before is lost, and a reference points at its chunk. -/
theorem write (h : Growing w files done cur) {x : ChunkWrite} (hcalls : x.calls.cut.OnlyWritesFail)
    (hsafe : x.Safe w files) :
    ∃ r w' files' done' cur', w.write files x.payload x.calls = (r, w', files') ∧
      Growing w' files' done' cur' ∧ Grows (done ++ [cur]) (done' ++ [cur']) ∧
      ∀ ref, r = .ok ref → Kept (done' ++ [cur']) ref x.payload := by
  unfold ChunkWrite.Safe at hsafe
  unfold ChunkWriter.write
  rw [h.closed_eq, if_neg Bool.false_ne_true]
  by_cases hroll : w.rollsOver x.payload.data.length = true
  · rw [if_pos hroll] at hsafe ⊢
    obtain ⟨ok, w₁, files₁, header, hcut, h₁, hheader⟩ :=
      h.cutNewSegment hcalls (by rw [← h.seq_eq]; exact hsafe)
    rw [hcut]
    cases ok with
    | false =>
      -- The chunk is refused, and the new file is left without its header.
      exact ⟨_, w₁, files₁, _, header, rfl, h₁, grows_next _ _, fun ref href ↦ by cases href⟩
    | true =>
      obtain ⟨rfl, hoffset⟩ := hheader rfl
      obtain ⟨ok, files₂, written, hwrite, h₂, hkept⟩ := h₁.writeFrame fun _ ↦
        ⟨List.prefix_refl _, by rw [hoffset, length_segmentHeader], by rw [hoffset]; decide⟩
      have hgrows := (grows_next (done ++ [cur]) segmentHeader).trans (grows_last _ _ written)
      dsimp only
      rw [hwrite]
      cases ok with
      | false => exact ⟨_, _, _, _, _, rfl, h₂, hgrows, fun ref href ↦ by cases href⟩
      | true =>
        refine ⟨_, _, _, _, _, rfl, h₂.setOffset _, hgrows, fun ref href ↦ ?_⟩
        cases href
        exact hkept rfl
  · rw [if_neg hroll] at hsafe ⊢
    obtain ⟨ok, files₁, written, hwrite, h₁, hkept⟩ := h.writeFrame fun hall ↦ by
      obtain ⟨hstep, hlt⟩ := hsafe hall
      obtain ⟨hheader, hlen⟩ := hstep _ (by rw [h.fd_eq]; rfl)
      rw [h.content_eq] at hheader hlen
      exact ⟨hheader, hlen, hlt⟩
    dsimp only
    rw [hwrite]
    cases ok with
    | false => exact ⟨_, _, _, _, _, rfl, h₁, grows_last _ _ written, fun ref href ↦ by cases href⟩
    | true =>
      refine ⟨_, _, _, _, _, rfl, h₁.setOffset _, grows_last _ _ written, fun ref href ↦ ?_⟩
      cases href
      exact hkept rfl

end Growing

/-! ## Runs -/

/-- Every write of the run is safe where it is made. -/
def SafeWrites : ChunkWriter → Files → List ChunkWrite → Prop
  | _, _, [] => True
  | w, files, x :: writes =>
    x.Safe w files ∧
      SafeWrites (w.write files x.payload x.calls).2.1 (w.write files x.payload x.calls).2.2 writes

instance decidableSafeWrites : (w : ChunkWriter) → (files : Files) → (writes : List ChunkWrite) →
    Decidable (SafeWrites w files writes)
  | _, _, [] => inferInstanceAs (Decidable True)
  | w, files, x :: writes =>
    have := decidableSafeWrites (w.write files x.payload x.calls).2.1
      (w.write files x.payload x.calls).2.2 writes
    inferInstanceAs (Decidable (x.Safe w files ∧ SafeWrites _ _ writes))

theorem Growing.writeChunks {w : ChunkWriter} {files : Files} {done : List Bytes} {cur : Bytes}
    (h : Growing w files done cur) {writes : List ChunkWrite}
    (hcalls : ∀ x ∈ writes, x.calls.cut.OnlyWritesFail) (hsafe : SafeWrites w files writes) :
    ∃ results w' files' done' cur', Block.writeChunks w files writes = (results, w', files') ∧
      Growing w' files' done' cur' ∧ Grows (done ++ [cur]) (done' ++ [cur']) ∧
      List.Forall₂ (fun r x ↦ ∀ ref, r = .ok ref → Kept (done' ++ [cur']) ref x.payload) results
        writes := by
  induction writes generalizing w files done cur with
  | nil => exact ⟨[], w, files, done, cur, rfl, h, .refl _, .nil⟩
  | cons x writes ih =>
    obtain ⟨hx, hrest⟩ := hsafe
    obtain ⟨r, w₁, files₁, done₁, cur₁, hwrite, h₁, hgrows₁, hkept⟩ :=
      h.write (hcalls x List.mem_cons_self) hx
    rw [hwrite] at hrest
    obtain ⟨results, w', files', done', cur', hwrites, h', hgrows, hall⟩ :=
      ih h₁ (fun x' hx' ↦ hcalls x' (List.mem_cons_of_mem _ hx')) hrest
    refine ⟨r :: results, w', files', done', cur', ?_, h', hgrows₁.trans hgrows, .cons ?_ hall⟩
    · rw [Block.writeChunks, hwrite]
      dsimp only
      rw [hwrites]
    · -- Later writes only add to the files.
      exact fun ref href ↦ (hkept ref href).grow hgrows

theorem growing_openDir {files files' : Files} {size : Nat} {calls : ChunkCutCalls} {w : ChunkWriter}
    (h : ChunkWriter.openDir files size calls = (.ok w, files')) :
    Growing w files' [] segmentHeader := by
  unfold ChunkWriter.openDir at h
  by_cases hnew : files.numbered parseSegmentName = []
  · rw [if_neg (not_not.mpr hnew)] at h
    unfold ChunkWriter.cutNewSegment at h
    simp only [Option.isSome_none, Bool.false_and, Bool.false_eq_true, ↓reduceIte,
      ChunkWriter.writeFd] at h
    cases hopened : calls.opened with
    | false =>
      rw [hopened] at h
      cases h
    | true =>
      rw [hopened] at h
      rcases hwrite : writeAll calls.header segmentHeader with ⟨_ | _, written⟩
      · rw [hwrite] at h
        cases h
      · rw [hwrite] at h
        cases h
        rw [writeAll_true hwrite, Files.append_set]
        exact ⟨rfl, rfl, rfl, ⟨files, rfl, hnew⟩, by decide⟩
  · rw [if_pos hnew] at h
    cases h

/-- A reader gives back a chunk that stands where its reference points, whatever it did before. -/
theorem Kept.read {contents : List Bytes} {ref : BlockChunkRef} {c : ChunkPayload}
    (h : Kept contents ref c) (hdata : c.data.length ≤ kMaxSize) (history : List ChunkCall) :
    ((afterCalls (ChunkReader.ofSegments contents) history).read ref).1 = .ok c := by
  obtain ⟨bytes, hget, hheader, front, rest, rfl, hfront⟩ := h
  have hcached := (cached_ofSegments contents).afterCalls history
  have hperform := (hcached.perform (.read ref)).1
  simp only [ChunkCall.perform, ChunkCall.resultOn, ChunkCall.seq, ChunkResult.read.injEq] at hperform
  have hlt := (List.getElem?_eq_some_iff.mp hget).1
  have hbytes : contents.getD ref.seq.toNat [] = front ++ (frame c ++ rest) := by
    rw [List.getD_eq_getElem?_getD, hget]
    rfl
  rw [hperform]
  unfold served
  dsimp only
  rw [if_neg (Nat.not_le.mpr hlt), hbytes, if_pos (Or.inl (headerValid_of_front hheader)), ← hfront]
  apply readRecord_frame
  have hframe := length_frame_le c
  have hoffset := ref.offset.toNat_lt
  rw [hfront]
  unfold Varint.maxVarintLen64 kChunkEncodingSize kChunkCrcSize at hframe
  unfold kMaxSize at hdata
  omega

/-- In every run whose writes are safe, whatever fails in between, each reference returned is read back
as the chunk of its call. -/
theorem refs_readable {files files₀ files' : Files} {size : Nat} {cut : ChunkCutCalls}
    {w₀ w : ChunkWriter} {writes : List ChunkWrite} {results : List (Except Errc BlockChunkRef)}
    (hopen : ChunkWriter.openDir files size cut = (.ok w₀, files₀))
    (hcalls : ∀ x ∈ writes, x.calls.cut.OnlyWritesFail) (hsafe : SafeWrites w₀ files₀ writes)
    (hrun : writeChunks w₀ files₀ writes = (results, w, files')) :
    (w.close true true).1 = true ∧
      ∀ history : List ChunkCall,
        List.Forall₂ (fun r x ↦ ∀ ref, r = .ok ref →
          ((afterCalls (ChunkReader.openDir files') history).read ref).1 = .ok x.payload)
          results writes := by
  obtain ⟨results', w', files'', done, cur, hwrites, h, -, hkept⟩ :=
    (growing_openDir hopen).writeChunks hcalls hsafe
  rw [hrun] at hwrites
  cases hwrites
  constructor
  · unfold ChunkWriter.close
    rw [h.closed_eq, h.fd_eq]
    rfl
  · intro history
    unfold ChunkReader.openDir
    rw [chunkSegments_numbered h.numbered_eq]
    apply hkept.imp
    intro r x hx ref href
    exact (hx ref href).read x.data.length_le history

/-- A header that does not get through, a retry in the next segment, and a chunk behind it. -/
def retriedWrites : List ChunkWrite :=
  [⟨.xor, ⟨[1, 2, 3], by decide⟩, {}⟩,
    ⟨.xor, ⟨[4, 5, 6], by decide⟩, { cut := { header := [.wrote 3, .failed] } }⟩,
    ⟨.xor, ⟨[4, 5, 6], by decide⟩, {}⟩]

theorem refs_readable_retried :
    ∃ w₀ files₀ w files' ref₁ ref₂,
      ChunkWriter.openDir Files.empty 20 {} = (.ok w₀, files₀) ∧
      writeChunks w₀ files₀ retriedWrites = ([.ok ref₁, .error .system, .ok ref₂], w, files') ∧
      ∀ history : List ChunkCall,
        let r := afterCalls (ChunkReader.openDir files') history
        (r.read ref₁).1 = .ok ⟨.xor, [1, 2, 3]⟩ ∧ (r.read ref₂).1 = .ok ⟨.xor, [4, 5, 6]⟩ := by
  refine ⟨_, _, _, _, ⟨0, 8⟩, ⟨2, 8⟩, rfl, rfl, fun history ↦ ?_⟩
  have hread := (@refs_readable Files.empty _ _ 20 {} _ _ retriedWrites _ rfl
    (by simp [retriedWrites, ChunkCutCalls.OnlyWritesFail]) (by decide) rfl).2 history
  obtain _ | ⟨hfirst, _ | ⟨-, _ | ⟨hlast, -⟩⟩⟩ := hread
  exact ⟨hfirst _ rfl, hlast _ rfl⟩

/-- One byte of the first chunk reaches the file.  The reference of the second points at it. -/
theorem lost_behind_short_write :
    let c : Str := ⟨[1, 2, 3], by decide⟩
    let writes : List ChunkWrite := [⟨.xor, c, { write := [.wrote 1, .failed] }⟩, ⟨.xor, c, {}⟩]
    ∃ w₀ files₀ w files' ref,
      ChunkWriter.openDir Files.empty kDefaultChunksSegmentSize {} = (.ok w₀, files₀) ∧
      writeChunks w₀ files₀ writes = ([.error .system, .ok ref], w, files') ∧
      (w.close true true).1 = true ∧
      ((ChunkReader.openDir files').read ref).1 ≠ .ok ⟨.xor, c.bytes⟩ := by
  intro c writes
  refine ⟨_, _, _, _, ⟨0, 8⟩, rfl, rfl, rfl, ?_⟩
  decide

-- A cut that fails in its header keeps the old offset: the next small chunk goes to a file without one.
example :
    let writes : List ChunkWrite :=
      [⟨.xor, ⟨List.replicate 10 7, by decide⟩, {}⟩,
        ⟨.xor, ⟨List.replicate 30 7, by decide⟩, { cut := { header := [.wrote 3, .failed] } }⟩,
        ⟨.xor, ⟨[1], by decide⟩, {}⟩]
    ∃ w₀ files₀ w files' ref₁ ref₃,
      ChunkWriter.openDir Files.empty 60 {} = (.ok w₀, files₀) ∧
      writeChunks w₀ files₀ writes = ([.ok ref₁, .error .system, .ok ref₃], w, files') ∧
      ((ChunkReader.openDir files').read ref₃).1 ≠ .ok ⟨.xor, [1]⟩ := by
  intro writes
  refine ⟨_, _, _, _, ⟨0, 8⟩, ⟨1, 24⟩, rfl, rfl, ?_⟩
  decide

end MerlionTsdb.Block
