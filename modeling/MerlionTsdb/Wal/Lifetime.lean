import MerlionTsdb.Lib.StableSort
import MerlionTsdb.Wal.Crash

/-!
# The life of a WAL directory

Writers come and go on a directory: one is opened, makes calls, and is destroyed or dies with its
process, and any of its system calls may fail.  No segment ever loses a byte, and the segments of the
writers that are gone are left as they are.
-/

namespace MerlionTsdb.Wal

/-! ## Writers on a directory -/

/-- `~SegmentWriter`: a last flush, which may fail unnoticed. -/
def SegmentWriter.destroy (w : SegmentWriter) (files : Files) (calls : List WriteResult) : Files :=
  if w.fd.isNone then files else (w.flushPending files calls).2.2

/-- A directory, and the writer on it. -/
structure WalLife where
  files : Files
  writer : Option SegmentWriter := none

/-- What happens to a directory.  A writer is opened when the last one is gone. -/
inductive WalEvent
  | opened (segmentSize : Nat) (ok : Bool)
  | call (call : WriterCall)
  | destroyed (calls : List WriteResult)
  | killed
  deriving DecidableEq, Repr

def WalEvent.step (s : WalLife) : WalEvent → WalLife
  | .opened size ok =>
    match s.writer with
    | some _ => s
    | none =>
      match SegmentWriter.openDir s.files size ok with
      | (true, w, files) => ⟨files, some w⟩
      | (false, _, files) => ⟨files, none⟩
  | .call c =>
    match s.writer with
    | none => s
    | some w => ⟨(w.call s.files c).2.2, some (w.call s.files c).2.1⟩
  | .destroyed calls =>
    match s.writer with
    | none => s
    | some w => ⟨w.destroy s.files calls, none⟩
  | .killed => ⟨s.files, none⟩

def WalLife.run (s : WalLife) (events : List WalEvent) : WalLife := events.foldl WalEvent.step s

/-! ## Moves -/

/-- What the calls make of a writer and its directory, in steps. -/
inductive Move : SegmentWriter × Files → SegmentWriter × Files → Prop
  | buffer {w w' : SegmentWriter} {files : Files} (hfd : w'.fd = w.fd)
    (hidx : w'.segIndex = w.segIndex) : Move (w, files) (w', files)
  | append {w w' : SegmentWriter} {files : Files} {name : FileName} (hopen : w.fd = some name)
    (hfd : w'.fd = w.fd) (hidx : w'.segIndex = w.segIndex) (bytes : Bytes) :
    Move (w, files) (w', files.append name bytes)
  | next {w w' : SegmentWriter} {files : Files} {name : FileName} (hopen : w.fd = some name)
    (hidx : w'.segIndex = w.segIndex + 1) (hfd : w'.fd = some (formatSegmentName w'.segIndex)) :
    Move (w, files) (w', files.set (formatSegmentName w'.segIndex) [])
  | stop {w w' : SegmentWriter} {files : Files} (hfd : w'.fd = none) : Move (w, files) (w', files)

abbrev Moves := Relation.ReflTransGen Move

theorem flushPending_fd (w : SegmentWriter) (files : Files) (calls : List WriteResult) :
    (w.flushPending files calls).2.1.fd = w.fd := by
  unfold SegmentWriter.flushPending
  split
  · rfl
  split
  · rfl
  dsimp only
  split <;> rfl

theorem move_flushPending (w : SegmentWriter) (files : Files) (calls : List WriteResult) :
    Move (w, files) (w.flushPending files calls).2 := by
  rcases hopen : w.fd with _ | name
  · unfold SegmentWriter.flushPending
    rw [hopen]
    exact .buffer rfl rfl
  · rw [flushPending_opened hopen]
    split
    · exact .buffer rfl rfl
    · -- Whether all is written or not, something may be.
      dsimp only
      split
      · exact .append hopen (by rfl) (by rfl) _
      · exact .append hopen (by rfl) (by rfl) _

theorem moves_sync (w : SegmentWriter) (files : Files) (calls : SyncCalls) :
    Moves (w, files) (w.sync files calls).2 := by
  have hflush := move_flushPending w files calls.write
  unfold SegmentWriter.sync
  split
  · exact .refl
  · rcases hcall : w.flushPending files calls.write with ⟨_ | _, w', files'⟩
    · rw [hcall] at hflush
      exact .single hflush
    · rw [hcall] at hflush
      exact .single hflush

theorem moves_cut (w : SegmentWriter) (files : Files) (calls : CutCalls) :
    Moves (w, files) (w.cut files calls).2 := by
  unfold SegmentWriter.cut
  split
  · exact .refl
  rename_i hopen
  rw [Option.isNone_iff_eq_none] at hopen
  obtain ⟨name, hname⟩ := Option.ne_none_iff_exists'.mp hopen
  have hclose : Move (w, files) ({ w with pw := w.pw.closePage }, files) := .buffer rfl rfl
  have hflush := move_flushPending { w with pw := w.pw.closePage } files calls.write
  have hfd := flushPending_fd { w with pw := w.pw.closePage } files calls.write
  dsimp only
  rcases hcall : SegmentWriter.flushPending { w with pw := w.pw.closePage } files calls.write with
    ⟨_ | _, w', files'⟩
  · rw [hcall] at hflush
    exact (Relation.ReflTransGen.single hclose).tail hflush
  rw [hcall] at hflush hfd
  dsimp only at hflush hfd ⊢
  have hflushed : Moves (w, files) (w', files') :=
    (Relation.ReflTransGen.single hclose).tail hflush
  split
  · exact hflushed
  split
  · exact hflushed
  unfold SegmentWriter.openNewSegment
  split
  · exact hflushed.tail (.next (hfd.trans hname) rfl rfl)
  · exact hflushed.tail (.stop rfl)

theorem moves_log (w : SegmentWriter) (files : Files) (body : Bytes) (calls : LogCalls) :
    Moves (w, files) (w.log files body calls).2 := by
  have hroll : Moves (w, files)
      (if w.rollsOver body then w.cut files calls.cut else (true, w, files)).2 := by
    split
    · exact moves_cut w files calls.cut
    · exact .refl
  unfold SegmentWriter.log
  rcases hcall : (if w.rollsOver body then w.cut files calls.cut else (true, w, files)) with
    ⟨_ | _, w', files'⟩
  · rw [hcall] at hroll
    exact hroll
  · rw [hcall] at hroll
    have hframe : Move (w', files') ({ w' with pw := w'.pw.log body }, files') := .buffer rfl rfl
    exact (hroll.tail hframe).tail (move_flushPending _ files' calls.write)

theorem moves_call (w : SegmentWriter) (files : Files) (call : WriterCall) :
    Moves (w, files) (w.call files call).2 := by
  cases call with
  | log body calls => exact moves_log w files body calls
  | sync calls => exact moves_sync w files calls
  | cut calls => exact moves_cut w files calls

/-- What every move keeps, all calls keep. -/
theorem Moves.keep {P : SegmentWriter → Files → Prop}
    (hmove : ∀ w files w' files', Move (w, files) (w', files') → P w files → P w' files')
    {p q : SegmentWriter × Files} (h : Moves p q) (hp : P p.1 p.2) : P q.1 q.2 := by
  induction h with
  | refl => exact hp
  | tail _ hstep ih => exact hmove _ _ _ _ hstep ih

/-! ## Segments only grow -/

theorem parseSegmentName_format_eq {idx i : Nat}
    (h : parseSegmentName (formatSegmentName idx) = some i) :
    i = idx ∧ idx < 10 ^ kSegmentNameWidth := by
  by_cases hidx : idx < 10 ^ kSegmentNameWidth
  · rw [parseSegmentName_format hidx] at h
    exact ⟨(Option.some.inj h).symm, hidx⟩
  · rw [parseSegmentName_format_of_le (Nat.not_lt.mp hidx)] at h
    cases h

theorem nextIndex_le_iff {files : Files} {n : Nat} :
    SegmentWriter.nextIndex files ≤ n ↔
      ∀ e ∈ files.entries, ∀ idx, parseSegmentName e.1 = some idx → idx < n := by
  have hfold : ∀ (found : List (Nat × Bytes)) (start : Nat),
      found.foldl (fun next e ↦ max next (e.1 + 1)) start ≤ n ↔
        start ≤ n ∧ ∀ e ∈ found, e.1 < n := by
    intro found
    induction found with
    | nil => simp
    | cons e found ih =>
      intro start
      rw [List.foldl_cons, ih, List.forall_mem_cons, max_le_iff, Nat.add_one_le_iff, and_assoc]
  unfold SegmentWriter.nextIndex indexed
  rw [hfold]
  simp only [Nat.zero_le, true_and, List.mem_filterMap, Option.map_eq_some_iff]
  constructor
  · intro h e he idx hidx
    exact h (idx, e.2) ⟨e, he, idx, hidx, rfl⟩
  · rintro h _ ⟨e, he, idx, hidx, rfl⟩
    exact h e he idx hidx

theorem nextIndex_set_le {files : Files} {idx : Nat}
    (h : SegmentWriter.nextIndex files ≤ idx + 1) (bytes : Bytes) :
    SegmentWriter.nextIndex (files.set (formatSegmentName idx) bytes) ≤ idx + 1 := by
  rw [nextIndex_le_iff] at h ⊢
  intro e he i hi
  rcases Files.mem_set he with rfl | hmem
  · obtain ⟨rfl, -⟩ := parseSegmentName_format_eq hi
    omega
  · exact h e hmem i hi

/-- Segments have only grown, and files of other names are as they were. -/
structure Grown (files files' : Files) : Prop where
  segment : ∀ name, (parseSegmentName name).isSome → files.content name <+: files'.content name
  other : ∀ name, (∀ idx, name ≠ formatSegmentName idx) → files'.content name = files.content name

namespace Grown

variable {old files : Files}

theorem refl (files : Files) : Grown files files :=
  ⟨fun _ _ ↦ List.prefix_rfl, fun _ _ ↦ rfl⟩

theorem append (h : Grown old files) (idx : Nat) (bytes : Bytes) :
    Grown old (files.append (formatSegmentName idx) bytes) := by
  unfold Files.append
  constructor
  · intro name hname
    apply (h.segment name hname).trans
    by_cases heq : name = formatSegmentName idx
    · rw [heq, Files.content_set]
      exact List.prefix_append _ _
    · exact (Files.content_set_of_ne heq files _).symm ▸ List.prefix_rfl
  · intro name hname
    rw [Files.content_set_of_ne (hname idx), h.other name hname]

/-- No segment has the name of a new one. -/
theorem create (h : Grown old files) {idx : Nat} (hfresh : SegmentWriter.nextIndex files ≤ idx) :
    Grown old (files.set (formatSegmentName idx) []) := by
  constructor
  · intro name hname
    by_cases heq : name = formatSegmentName idx
    · obtain ⟨i, hi⟩ := Option.isSome_iff_exists.mp hname
      rw [heq] at hi
      have hnew := not_mem_of_fresh hfresh (parseSegmentName_format_eq hi).2
      have hempty : files.content name = [] := by
        unfold Files.content
        rw [heq, List.find?_eq_none.mpr]
        · rfl
        · intro e he hname
          exact hnew (List.mem_map.mpr ⟨e, he, of_decide_eq_true hname⟩)
      rw [heq, Files.content_set, ← heq, ← hempty]
      exact h.segment name hname
    · rw [Files.content_set_of_ne heq]
      exact h.segment name hname
  · intro name hname
    rw [Files.content_set_of_ne (hname idx), h.other name hname]

end Grown

/-- The open file is the last segment. -/
def AtLast (w : SegmentWriter) (files : Files) : Prop :=
  ∀ name, w.fd = some name →
    name = formatSegmentName w.segIndex ∧ SegmentWriter.nextIndex files ≤ w.segIndex + 1

theorem Move.grown {old files files' : Files} {w w' : SegmentWriter}
    (h : Move (w, files) (w', files')) (hold : AtLast w files ∧ Grown old files) :
    AtLast w' files' ∧ Grown old files' := by
  obtain ⟨hlast, hgrown⟩ := hold
  cases h with
  | buffer hfd hidx =>
    refine ⟨?_, hgrown⟩
    unfold AtLast
    rw [hfd, hidx]
    exact hlast
  | @append _ _ _ name hopen hfd hidx bytes =>
    obtain ⟨rfl, hnext⟩ := hlast name hopen
    refine ⟨?_, hgrown.append _ bytes⟩
    unfold AtLast
    rw [hfd, hidx, hopen]
    rintro _ ⟨⟩
    exact ⟨rfl, nextIndex_set_le hnext _⟩
  | next hopen hidx hfd =>
    have hnext := (hlast _ hopen).2
    rw [← hidx] at hnext
    refine ⟨?_, hgrown.create hnext⟩
    unfold AtLast
    rw [hfd]
    rintro _ ⟨⟩
    exact ⟨rfl, nextIndex_set_le (by omega) _⟩
  | stop hfd =>
    refine ⟨?_, hgrown⟩
    unfold AtLast
    rw [hfd]
    rintro _ ⟨⟩

/-- The writer, if there is one, is at the last segment. -/
def WalLife.Orderly (s : WalLife) : Prop := ∀ w, s.writer = some w → AtLast w s.files

theorem orderly_none (files : Files) : WalLife.Orderly ⟨files, none⟩ := nofun

theorem WalEvent.grown {old : Files} {s : WalLife} (event : WalEvent)
    (h : s.Orderly ∧ Grown old s.files) :
    (event.step s).Orderly ∧ Grown old (event.step s).files := by
  obtain ⟨hs, hgrown⟩ := h
  obtain ⟨files, writer⟩ := s
  cases writer with
  | none =>
    cases event with
    | opened size ok =>
      cases ok with
      | true =>
        refine ⟨?_, hgrown.create le_rfl⟩
        rintro w ⟨⟩ name ⟨⟩
        exact ⟨rfl, nextIndex_set_le (Nat.le_succ _) _⟩
      | false => exact ⟨orderly_none _, hgrown⟩
    | call => exact ⟨hs, hgrown⟩
    | destroyed => exact ⟨hs, hgrown⟩
    | killed => exact ⟨hs, hgrown⟩
  | some w =>
    have hw := hs w rfl
    cases event with
    | opened => exact ⟨hs, hgrown⟩
    | call c =>
      obtain ⟨hlast, hgrown'⟩ := (moves_call w files c).keep
        (fun _ _ _ _ hmove ↦ hmove.grown) ⟨hw, hgrown⟩
      refine ⟨?_, hgrown'⟩
      rintro _ ⟨⟩
      exact hlast
    | destroyed calls =>
      refine ⟨orderly_none _, ?_⟩
      show Grown old (w.destroy files calls)
      unfold SegmentWriter.destroy
      split
      · exact hgrown
      · exact ((move_flushPending w files calls).grown ⟨hw, hgrown⟩).2
    | killed => exact ⟨orderly_none _, hgrown⟩

/-! ## Segments left alone -/

/-- What stands in front is as it was, files with names too long for a segment apart; behind it, no
segment has an index below `n`. -/
inductive LeftAlone (n : Nat) : List (FileName × Bytes) → List (FileName × Bytes) → Prop
  | new {added : List (FileName × Bytes)}
    (hnew : ∀ e ∈ added, ∀ idx, parseSegmentName e.1 = some idx → n ≤ idx) : LeftAlone n [] added
  | same {e : FileName × Bytes} {entries entries' : List (FileName × Bytes)}
    (h : LeftAlone n entries entries') : LeftAlone n (e :: entries) (e :: entries')
  | long {idx : Nat} {bytes bytes' : Bytes} {entries entries' : List (FileName × Bytes)}
    (hlong : 10 ^ kSegmentNameWidth ≤ idx) (h : LeftAlone n entries entries') :
    LeftAlone n ((formatSegmentName idx, bytes) :: entries)
      ((formatSegmentName idx, bytes') :: entries')

namespace LeftAlone

variable {n : Nat} {entries entries' : List (FileName × Bytes)}

theorem refl (n : Nat) (entries : List (FileName × Bytes)) : LeftAlone n entries entries := by
  induction entries with
  | nil => exact .new nofun
  | cons e entries ih => exact .same ih

theorem set (h : LeftAlone n entries entries')
    (hbelow : ∀ e ∈ entries, ∀ idx, parseSegmentName e.1 = some idx → idx < n) {idx : Nat}
    (hidx : n ≤ idx) (bytes : Bytes) :
    LeftAlone n entries (Files.setEntries entries' (formatSegmentName idx) bytes) := by
  induction h with
  | new hnew =>
    apply LeftAlone.new
    intro e he i hi
    rcases Files.mem_setEntries he with rfl | hmem
    · rw [(parseSegmentName_format_eq hi).1]
      exact hidx
    · exact hnew e hmem i hi
  | @same e entries entries' h ih =>
    have hrest := ih fun e' he' ↦ hbelow e' (List.mem_cons_of_mem _ he')
    unfold Files.setEntries
    split
    · rename_i heq
      obtain ⟨name, old⟩ := e
      cases heq
      refine .long ?_ h
      -- A segment of that name would have an index below `n`.
      by_contra hlt
      have hi := hbelow _ List.mem_cons_self idx (parseSegmentName_format (Nat.not_le.mp hlt))
      omega
    · exact .same hrest
  | @long i old old' entries entries' hlong h ih =>
    have hrest := ih fun e' he' ↦ hbelow e' (List.mem_cons_of_mem _ he')
    unfold Files.setEntries
    split
    · rename_i heq
      rw [show formatSegmentName idx = formatSegmentName i from heq.symm]
      exact .long hlong h
    · exact .long hlong hrest

/-- The segments are in front of the others. -/
theorem exists_indexed {files files' : Files} (h : LeftAlone n files.entries files'.entries) :
    ∃ added, indexed files' = indexed files ++ added ∧ ∀ e ∈ added, n ≤ e.1 := by
  unfold indexed
  generalize files.entries = entries, files'.entries = entries' at h
  induction h with
  | @new added hnew =>
    refine ⟨_, rfl, ?_⟩
    simp only [List.mem_filterMap, Option.map_eq_some_iff]
    rintro _ ⟨e, he, idx, hidx, rfl⟩
    exact hnew e he idx hidx
  | @same e entries entries' h ih =>
    obtain ⟨added, heq, hadded⟩ := ih
    refine ⟨added, ?_, hadded⟩
    rw [List.filterMap_cons, List.filterMap_cons, heq]
    split <;> rfl
  | long hlong h ih =>
    rw [List.filterMap_cons_none (by rw [parseSegmentName_format_of_le hlong]; rfl),
      List.filterMap_cons_none (by rw [parseSegmentName_format_of_le hlong]; rfl)]
    exact ih

theorem mem (h : LeftAlone n entries entries') {e : FileName × Bytes} (he : e ∈ entries)
    (hname : ∀ idx, 10 ^ kSegmentNameWidth ≤ idx → e.1 ≠ formatSegmentName idx) : e ∈ entries' := by
  induction h with
  | new => cases he
  | same h ih =>
    rcases List.mem_cons.mp he with rfl | hmem
    · exact List.mem_cons_self
    · exact List.mem_cons_of_mem _ (ih hmem)
  | long hlong h ih =>
    rcases List.mem_cons.mp he with rfl | hmem
    · exact absurd rfl (hname _ hlong)
    · exact List.mem_cons_of_mem _ (ih hmem)

/-- The segments of before come first. -/
theorem isPrefix {files files' : Files}
    (h : LeftAlone (SegmentWriter.nextIndex files) files.entries files'.entries) :
    segments files <+: segments files' := by
  obtain ⟨added, heq, hadded⟩ := h.exists_indexed
  have hsort : StableSort.stableSort Prod.fst (indexed files ++ added) =
      StableSort.stableSort Prod.fst (indexed files) ++ StableSort.stableSort Prod.fst added :=
    StableSort.stableSort_append Prod.fst fun a ha b hb ↦ (lt_nextIndex ha).le.trans (hadded b hb)
  unfold segments
  rw [heq]
  exact ⟨(StableSort.stableSort Prod.fst added).map Prod.snd,
    (List.map_append.symm.trans (congrArg (List.map Prod.snd) hsort.symm))⟩

theorem nextIndex_le {files files' : Files} (h : LeftAlone n files.entries files'.entries) :
    SegmentWriter.nextIndex files ≤ SegmentWriter.nextIndex files' := by
  obtain ⟨added, heq, -⟩ := h.exists_indexed
  rw [nextIndex_le_iff]
  intro e he idx hidx
  have hfound : (idx, e.2) ∈ indexed files := by
    unfold indexed
    rw [List.mem_filterMap]
    exact ⟨e, he, by rw [hidx]; rfl⟩
  apply lt_nextIndex (e := (idx, e.2))
  rw [heq]
  exact List.mem_append_left _ hfound

end LeftAlone

/-- The directory holds what it held, and a writer on it is at a segment behind. -/
structure Behind (base : Files) (w : SegmentWriter) (files : Files) : Prop where
  alone : LeftAlone (SegmentWriter.nextIndex base) base.entries files.entries
  next : ∀ name, w.fd = some name →
    name = formatSegmentName w.segIndex ∧ SegmentWriter.nextIndex base ≤ w.segIndex

theorem Move.behind {base files files' : Files} {w w' : SegmentWriter}
    (h : Move (w, files) (w', files')) (hold : Behind base w files) : Behind base w' files' := by
  have hbelow := nextIndex_le_iff.mp (le_refl (SegmentWriter.nextIndex base))
  cases h with
  | buffer hfd hidx =>
    refine ⟨hold.alone, ?_⟩
    rw [hfd, hidx]
    exact hold.next
  | @append _ _ _ name hopen hfd hidx bytes =>
    obtain ⟨rfl, hnext⟩ := hold.next name hopen
    refine ⟨hold.alone.set hbelow hnext _, ?_⟩
    rw [hfd, hidx]
    exact hold.next
  | next hopen hidx hfd =>
    have hnext := (hold.next _ hopen).2
    refine ⟨hold.alone.set hbelow (by omega) _, ?_⟩
    rw [hfd]
    rintro _ ⟨⟩
    exact ⟨rfl, by omega⟩
  | stop hfd =>
    refine ⟨hold.alone, ?_⟩
    rw [hfd]
    nofun

/-- The directory holds what it held, and so it does under the writer, if there is one. -/
def WalLife.After (base : Files) (s : WalLife) : Prop :=
  LeftAlone (SegmentWriter.nextIndex base) base.entries s.files.entries ∧
    ∀ w, s.writer = some w → Behind base w s.files

theorem WalEvent.after {base : Files} {s : WalLife} (event : WalEvent) (h : s.After base) :
    (event.step s).After base := by
  obtain ⟨halone, hwriter⟩ := h
  obtain ⟨files, writer⟩ := s
  cases writer with
  | none =>
    cases event with
    | opened size ok =>
      cases ok with
      | true =>
        have hbelow := nextIndex_le_iff.mp (le_refl (SegmentWriter.nextIndex base))
        have hset := halone.set hbelow halone.nextIndex_le []
        refine ⟨hset, ?_⟩
        rintro w ⟨⟩
        refine ⟨hset, ?_⟩
        rintro _ ⟨⟩
        exact ⟨rfl, halone.nextIndex_le⟩
      | false => exact ⟨halone, nofun⟩
    | call => exact ⟨halone, hwriter⟩
    | destroyed => exact ⟨halone, hwriter⟩
    | killed => exact ⟨halone, hwriter⟩
  | some w =>
    have hw := hwriter w rfl
    cases event with
    | opened => exact ⟨halone, hwriter⟩
    | call c =>
      have hw' := (moves_call w files c).keep (fun _ _ _ _ hmove ↦ hmove.behind) hw
      refine ⟨hw'.alone, ?_⟩
      rintro _ ⟨⟩
      exact hw'
    | destroyed calls =>
      refine ⟨?_, nofun⟩
      show LeftAlone _ _ (w.destroy files calls).entries
      unfold SegmentWriter.destroy
      split
      · exact halone
      · exact ((move_flushPending w files calls).behind hw).alone
    | killed => exact ⟨halone, nofun⟩

/-! ## Lives -/

namespace WalLife

theorem run_keeps {P : WalLife → Prop} (hstep : ∀ event s, P s → P (WalEvent.step s event))
    (events : List WalEvent) {s : WalLife} (h : P s) : P (s.run events) := by
  induction events generalizing s with
  | nil => exact h
  | cons event events ih => exact ih (hstep event s h)

theorem run_grown {old : Files} {s : WalLife} (events : List WalEvent)
    (h : s.Orderly ∧ Grown old s.files) :
    (s.run events).Orderly ∧ Grown old (s.run events).files :=
  run_keeps (P := fun s ↦ s.Orderly ∧ Grown old s.files) (fun event _ h ↦ event.grown h) events h

theorem run_after {base : Files} {s : WalLife} (events : List WalEvent) (h : s.After base) :
    (s.run events).After base :=
  run_keeps (P := WalLife.After base) (fun event _ h ↦ event.after h) events h

/-- Without a writer, all is to stay. -/
theorem after_self {s : WalLife} (h : s.writer = none) : s.After s.files := by
  refine ⟨.refl _ _, fun w hw ↦ ?_⟩
  rw [h] at hw
  cases hw

end WalLife

/-- Whatever fails, segments only grow, and files of other names stay as they are.  What stands in
the directory while no writer is on it stays so, and a reader finds its records first. -/
theorem append_only (files : Files) (events later : List WalEvent) :
    let s := WalLife.run ⟨files, none⟩ events
    let s' := s.run later
    Grown s.files s'.files ∧
      (s.writer = none →
        (∀ e ∈ s.files.entries, (∀ idx, 10 ^ kSegmentNameWidth ≤ idx → e.1 ≠ formatSegmentName idx) →
          e ∈ s'.files.entries) ∧
        segments s.files <+: segments s'.files ∧
        (CleanSegments (segments s.files) →
          recordsOf (segments s.files) <+: (SegmentReader.readAll (segments s'.files)).1)) := by
  intro s s'
  have horderly : s.Orderly :=
    (WalLife.run_grown events ⟨orderly_none files, Grown.refl files⟩).1
  refine ⟨(WalLife.run_grown later ⟨horderly, Grown.refl s.files⟩).2, fun hnone ↦ ?_⟩
  have halone : LeftAlone _ s.files.entries s'.files.entries :=
    (WalLife.run_after later (WalLife.after_self hnone)).1
  refine ⟨fun e he ↦ halone.mem he, halone.isPrefix, fun hclean ↦ ?_⟩
  -- The segments behind them cannot stop the reader before it gets there.
  obtain ⟨more, hmore⟩ := halone.isPrefix
  rw [SegmentReader.readAll_eq, ← hmore, joinSegments_clean hclean]
  exact List.prefix_append _ _

/-- A second writer dies in the middle of a write. -/
theorem append_only_killed :
    let s := WalLife.run ⟨Files.empty, none⟩
      [.opened kPageSize true, .call (.log [1] {}), .destroyed []]
    let s' := s.run [.opened kPageSize true, .call (.log [2, 3] { write := [.wrote 8, .failed] }),
      .killed]
    [[1]] <+: (SegmentReader.readAll (segments s'.files)).1 ∧ segments s'.files ≠ segments s.files := by
  intro s s'
  obtain ⟨-, hidle⟩ := append_only Files.empty
    [.opened kPageSize true, .call (.log [1] {}), .destroyed []]
    [.opened kPageSize true, .call (.log [2, 3] { write := [.wrote 8, .failed] }), .killed]
  have hnone : s.writer = none := rfl
  have hclean : CleanSegments (segments s.files) := by
    show ∀ seg ∈ segments s.files, _
    decide
  have hrecs : recordsOf (segments s.files) = [[1]] := by decide
  refine ⟨?_, by decide⟩
  rw [← hrecs]
  exact (hidle hnone).2.2 hclean

end MerlionTsdb.Wal
