import MerlionTsdb.Head.Crash

/-!
# One head after another

A directory serves any number of heads, one after the other.  Each is opened, used, and closed or
not, and then the power goes.  What a head holds at last lies, in order, between what all of them
have committed and what all of them have accepted.
-/

namespace MerlionTsdb.Head

open Chunkenc Model Wal Wal.Record

/-! ## The end of a session -/

/-- `Head::close` at the end of a run. -/
def DiskRun.close (r : DiskRun) (calls : CommitCalls LogCalls SyncCalls) (cut : CutCalls) :
    Option DiskRun :=
  (r.head.close diskWal calls cut).map fun res ↦
    { r with
      head := res.2
      committed :=
        if (r.head.commit diskWal calls).any Prod.fst then r.accepted else r.committed }

/-- The commit is harmless, and so is the cut behind it. -/
structure CloseHarmless (h : Head Disk) (calls : CommitCalls LogCalls SyncCalls) (cut : CutCalls) :
    Prop where
  room : CommitHasRoom (h.mapWal forget) calls
  commit : CommitHarmless (h.mapWal forget) calls
  cut : ∀ h', h.commit diskWal calls = some (true, h') →
    cut.Harmless h'.wal.writer ∧ h'.wal.writer.segIndex + 1 < 10 ^ kSegmentNameWidth

/-- A run whose head is closed or dropped. -/
inductive Ends (r : DiskRun) : DiskRun → Prop
  | dropped : Ends r r
  | closed {calls : CommitCalls LogCalls SyncCalls} {cut : CutCalls} {r' : DiskRun}
    (hharmless : CloseHarmless r.head calls cut) (hclose : r.close calls cut = some r') : Ends r r'

/-- Whether the cut behind it succeeds or not, a commit that succeeded is on disk. -/
theorem Guarded.cut_survives {h : Head Disk} {j : Journal Bytes} {start : SeriesStore}
    {accepted : List (Labels × Sample)}
    (hg : Guarded h j.sync [] h.series (extended start accepted)) {cut : CutCalls} {ok : Bool}
    {d : Disk} (hharmless : cut.Harmless h.wal.writer)
    (hidx : h.wal.writer.segIndex + 1 < 10 ^ kSegmentNameWidth)
    (hcut : h.wal.cut cut = (ok, d)) : Survives start d accepted accepted := by
  obtain ⟨named, hl⟩ := hg.exists_named
  have hdisk : ∃ pend, OnDisk d j.sync pend := by
    cases ok with
    | true => exact ⟨[], (hg.onDisk.cut_true hidx hcut).2⟩
    | false => exact hg.onDisk.cut_false hharmless hcut
  obtain ⟨pend, hdisk⟩ := hdisk
  exact ⟨j.sync, pend, h.series, h.series, hdisk, hl.replayed, refl_of Extends _, hl.contains,
    h.series, hl.replayed, hl.contains⟩

theorem Crashable.ends {start : SeriesStore} {r r' : DiskRun} (hr : Crashable start r)
    (hend : Ends r r') : Survives start r'.head.wal r'.accepted r'.committed := by
  obtain ⟨j, pend, logged, hg, kept, hkept, hcommitted⟩ := hr.exists_guarded
  cases hend with
  | dropped => exact hg.survives hkept hcommitted
  | @closed calls cut _ hharmless hclose =>
    obtain ⟨⟨ok, h'⟩, hresult, rfl⟩ := Option.map_eq_some_iff.mp hclose
    rcases Head.close_cases hg.opened hresult with
      ⟨h₁, hcommit, -, rfl⟩ | ⟨h₁, hcommit, d, hcut, rfl⟩
    · obtain ⟨j', pend', logged', hg', hsynced⟩ :=
        hg.commit_false hharmless.room hharmless.commit hcommit
      rw [← hsynced] at hkept
      rw [hcommit]
      exact hg'.survives hkept hcommitted
    · obtain ⟨j', hg'⟩ := hg.commit_true hharmless.room hcommit
      obtain ⟨hcutHarmless, hidx⟩ := hharmless.cut h₁ hcommit
      rw [hcommit]
      exact hg'.cut_survives hcutHarmless hidx hcut

/-! ## Sessions -/

/-- All of every file is on disk. -/
def allKept (files : Files) : Kept := fun name ↦ (files.content name).length

/-- A directory after any number of sessions, with what their heads accepted and committed.  The
power loss that ends a session cuts files, and no session starts on a torn tail. -/
inductive Sessions : Files → List (Labels × Sample) → List (Labels × Sample) → Prop
  | none : Sessions Files.empty [] []
  | next {files : Files} {accepted committed : List (Labels × Sample)}
    (h : Sessions files accepted committed) {start : SegmentHead}
    (hopen : Head.openDir files true = some start) (htail : ¬ TornTail files)
    (hidx : SegmentWriter.nextIndex files < 10 ^ kSegmentNameWidth) {calls : List HeadCall}
    {r r' : DiskRun} (hrun : runOnDisk calls { head := onDisk start (allKept files) } = some r)
    (hok : RunAll (fun r call ↦ call.Harmless r) calls { head := start }) (hend : Ends r r')
    {left : FileName → Bytes} (hgarbles : Garbles r'.head.wal.kept r'.head.wal.files left)
    (hcuts : Cuts r'.head.wal.files left) :
    Sessions (r'.head.wal.files.crashed left) (accepted ++ r'.accepted) (committed ++ r'.committed)

theorem samplesOf_of_openDir_empty {hd : SegmentHead}
    (hopen : Head.openDir Files.empty true = some hd) (labels : Labels) :
    hd.series.samplesOf labels = [] := by
  obtain ⟨store, hwal, rfl⟩ := openDir_iff.mp hopen
  cases hwal
  exact Contains.empty.samplesOf labels

theorem whole_allKept (files : Files) : Whole (allKept files) files := by
  intro e he _
  unfold allKept
  rw [Files.content_of_mem he]

/-- The store holds everything that was committed, in order, and nothing but what was accepted. -/
def Between (accepted committed : List (Labels × Sample)) (st : SeriesStore) : Prop :=
  ∀ labels, (samplesUnder labels committed).Sublist (st.samplesOf labels) ∧
    (st.samplesOf labels).Sublist (samplesUnder labels accepted)

/-- The session behind others, and what is found after its crash. -/
theorem Survives.between {start : SeriesStore} {d : Disk}
    {accepted accepted' committed committed' : List (Labels × Sample)} {left : FileName → Bytes}
    (hd : Survives start d accepted' committed') (hbetween : Between accepted committed start)
    (hgarbles : Garbles d.kept d.files left) (hcuts : Cuts d.files left) {hd' : SegmentHead}
    (hopen : Head.openDir (d.files.crashed left) true = some hd') :
    Between (accepted ++ accepted') (committed ++ committed') hd'.series := by
  intro labels
  obtain ⟨hkept, hfrom⟩ := hbetween labels
  have hge := hd.committed_le hgarbles hopen labels
  have hle := hd.le_accepted hgarbles hcuts hopen labels
  rw [samplesUnder_append, samplesUnder_append]
  constructor
  · exact (hkept.append (.refl _)).trans hge.sublist
  · exact hle.sublist.trans (hfrom.append (.refl _))

/-- What a head finds at last holds everything that was committed in any session, in order, and
nothing but what was accepted in one. -/
theorem sessions_recover {files : Files} {accepted committed : List (Labels × Sample)}
    (h : Sessions files accepted committed) {hd : SegmentHead}
    (hopen : Head.openDir files true = some hd) (labels : Labels) :
    (samplesUnder labels committed).Sublist (hd.series.samplesOf labels) ∧
      (hd.series.samplesOf labels).Sublist (samplesUnder labels accepted) := by
  have hall : Between accepted committed hd.series := by
    clear labels
    induction h generalizing hd with
    | none =>
      intro labels
      rw [samplesOf_of_openDir_empty hopen]
      exact ⟨.slnil, .slnil⟩
    | @next files accepted committed _ start hstart htail hidx calls r r' hrun hok hend left hgarbles
        hcuts ih =>
      have hcrashable := crashable_openDir hstart (clean_of_openDir hstart htail) hidx
        (whole_allKept files)
      exact ((hcrashable.run hok hrun).ends hend).between (ih hstart) hgarbles hcuts hopen
  exact hall labels

theorem not_tornTail_of {files : Files}
    (h : ∀ seg ∈ segments files, (PageReader.readAll seg).2 ≠ .tornRecord) : ¬ TornTail files := by
  rintro ⟨init, seg, hsegs, htorn⟩
  exact h seg (by rw [hsegs]; simp) htorn

theorem closeHarmless_iff {h : Head Disk} {calls : CommitCalls LogCalls SyncCalls} {cut : CutCalls} :
    CloseHarmless h calls cut ↔
      CommitHasRoom (h.mapWal forget) calls ∧ CommitHarmless (h.mapWal forget) calls ∧
        ∀ res ∈ h.commit diskWal calls, res.1 = true → cut.Harmless res.2.wal.writer ∧
          res.2.wal.writer.segIndex + 1 < 10 ^ kSegmentNameWidth := by
  constructor
  · intro hharmless
    refine ⟨hharmless.room, hharmless.commit, ?_⟩
    rintro ⟨ok, h'⟩ hcommit rfl
    exact hharmless.cut h' hcommit
  · rintro ⟨hroom, hcommit, hcut⟩
    exact ⟨hroom, hcommit, fun h' hresult ↦ hcut (true, h') hresult rfl⟩

instance (h : Head Disk) (calls : CommitCalls LogCalls SyncCalls) (cut : CutCalls) :
    Decidable (CloseHarmless h calls cut) :=
  decidable_of_iff' _ closeHarmless_iff

/-! ### A session with its checks -/

/-- What is left when all goes that is not on disk. -/
def keptOnly (d : Disk) (name : FileName) : Bytes := (d.files.content name).take (d.kept name)

/-- The end of a session, if it is harmless. -/
def DiskRun.finish (r : DiskRun) :
    Option (CommitCalls LogCalls SyncCalls × CutCalls) → Option DiskRun
  | none => some r
  | some (calls, cut) => if CloseHarmless r.head calls cut then r.close calls cut else none

/-- One more session, if nothing in it is harmful. -/
def session (files : Files) (calls : List HeadCall)
    (closing : Option (CommitCalls LogCalls SyncCalls × CutCalls)) :
    Option (Files × List (Labels × Sample) × List (Labels × Sample)) :=
  (Head.openDir files true).bind fun start ↦
    if (∀ seg ∈ segments files, (PageReader.readAll seg).2 ≠ .tornRecord) ∧
        SegmentWriter.nextIndex files < 10 ^ kSegmentNameWidth ∧
        RunAll (fun r call ↦ call.Harmless r) calls { head := start } then
      (runOnDisk calls { head := onDisk start (allKept files) }).bind fun r ↦
        (r.finish closing).map fun r' ↦
          (r'.head.wal.files.crashed (keptOnly r'.head.wal), r'.accepted, r'.committed)
    else none

theorem DiskRun.ends_of_finish {r r' : DiskRun}
    {closing : Option (CommitCalls LogCalls SyncCalls × CutCalls)}
    (h : r.finish closing = some r') : Ends r r' := by
  cases closing with
  | none =>
    cases h
    exact .dropped
  | some c =>
    obtain ⟨calls, cut⟩ := c
    rw [DiskRun.finish] at h
    by_cases hharmless : CloseHarmless r.head calls cut
    · rw [if_pos hharmless] at h
      exact .closed hharmless h
    · rw [if_neg hharmless] at h
      cases h

theorem Sessions.session {files files' : Files}
    {accepted accepted' committed committed' : List (Labels × Sample)}
    (h : Sessions files accepted committed) {calls : List HeadCall}
    {closing : Option (CommitCalls LogCalls SyncCalls × CutCalls)}
    (hrun : session files calls closing = some (files', accepted', committed')) :
    Sessions files' (accepted ++ accepted') (committed ++ committed') := by
  unfold Head.session at hrun
  obtain ⟨start, hopen, hrun⟩ := Option.bind_eq_some_iff.mp hrun
  split at hrun
  · rename_i hguard
    obtain ⟨htail, hidx, hok⟩ := hguard
    obtain ⟨r, hcalls, hrun⟩ := Option.bind_eq_some_iff.mp hrun
    obtain ⟨r', hfinish, hresult⟩ := Option.map_eq_some_iff.mp hrun
    cases hresult
    obtain ⟨hgarbles, hcuts⟩ := garbles_take (fun name ↦ le_refl (r'.head.wal.kept name))
      r'.head.wal.files
    exact h.next hopen (not_tornTail_of htail) hidx hcalls hok (DiskRun.ends_of_finish hfinish)
      hgarbles hcuts
  · cases hrun

/-- Two heads: the first is dropped behind its commit, the second is closed. -/
theorem sessions_recover_two :
    ∃ files accepted committed, ∃ hd : SegmentHead, Sessions files accepted committed ∧
      Head.openDir files true = some hd ∧
        ([⟨1, 7⟩, ⟨2, 8⟩] : List Sample).Sublist (hd.series.samplesOf Labels.empty) := by
  have hcheck : ((do
      let s ← session Files.empty [.append Labels.empty ⟨1, 7⟩, .commit ⟨{}, {}, {}⟩] none
      let s' ← session s.1 [.append Labels.empty ⟨2, 8⟩] (some (⟨{}, {}, {}⟩, {}))
      let _ ← Head.openDir s'.1 true
      some (samplesUnder Labels.empty (s.2.2 ++ s'.2.2))) : Option (List Sample)) =
        some [⟨1, 7⟩, ⟨2, 8⟩] := by
    decide +kernel
  obtain ⟨⟨files, accepted, committed⟩, hfirst, hcheck⟩ := Option.bind_eq_some_iff.mp hcheck
  obtain ⟨⟨files', accepted', committed'⟩, hsecond, hcheck⟩ := Option.bind_eq_some_iff.mp hcheck
  obtain ⟨hd, hopen, hcheck⟩ := Option.bind_eq_some_iff.mp hcheck
  have hlived := (Sessions.none.session hfirst).session hsecond
  refine ⟨_, _, _, hd, hlived, hopen, ?_⟩
  rw [← Option.some.inj hcheck]
  exact (sessions_recover hlived hopen Labels.empty).1

end MerlionTsdb.Head
