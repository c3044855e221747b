import PartitionLog.Proofs.Invocations
import PartitionLog.Proofs.ToolTasks

/-!
# Runs on one log file

A log file and the snapshot beside it are `Saved` if the file is the frames of some payloads from
position 0 on and the snapshot lists places of their records. They are `Standing` if there is no
snapshot yet, or if the file, where there is one, begins with the log that the snapshot was saved for.
Whatever an invocation is to do and however it ends, it leaves them standing (`Standing.runAt`). One
that appends without failing leaves them saved with its records behind the others
(`Standing.append_runAt`), both at any pace of the appender, and a dump of a saved log lists its records
(`Saved.run_dump`).
-/

namespace PartitionLog.CommandLine.Invocation

variable {i : Invocation} {fs after : FileSystem} {s : LogStream} {u : Storage} {number : Nat}
  {payloads : List Bytes} {bytes : Bytes} {paces : Nat → LogStream.WritePace}

/-- The bytes of the log once its directory is made: none if there is no file yet. -/
def held (i : Invocation) (fs : FileSystem) : Bytes := ((i.prepared fs).read? i.file).getD []

/-- There is no file where the snapshot belongs. -/
def Unsaved (i : Invocation) (fs : FileSystem) : Prop :=
  ∀ path, i.snapshot? = some path → ∀ n, fs.find path ≠ .ok n

/-- The log file is the frames of the payloads. -/
structure Holds (i : Invocation) (fs : FileSystem) (payloads : List Bytes) : Prop where
  tidy : fs.Tidy
  made : i.Made fs
  file : fs.read? i.file = some (Frame.encodeRun 0 payloads)
  short : ∀ x ∈ payloads, x.length < 2 ^ 32

/-- The snapshot lists places of records of a log of the payloads. -/
structure Listed (i : Invocation) (fs : FileSystem) (payloads : List Bytes) : Prop where
  short : ∀ x ∈ payloads, x.length < 2 ^ 32
  size : (Frame.encodeRun 0 payloads).length < 2 ^ 63
  snapshot : ∀ path, i.snapshot? = some path →
    ∃ ix, IndexedLog.SnapshotAt fs path ix ∧ ix.Lists payloads

/-- The snapshot is that of the log file. -/
structure Saved (i : Invocation) (fs : FileSystem) (payloads : List Bytes) : Prop
    extends i.Holds fs payloads, i.Listed fs payloads

/-- A record that the bytes begin with has position 0. -/
def BeginsAtZero (bytes : Bytes) : Prop :=
  ∀ r, Frame.decode bytes 0 = .ok (some r) → r.position = 0

/-- The log and its snapshot as they are between two runs. -/
structure Standing (i : Invocation) (fs : FileSystem) : Prop where
  first : BeginsAtZero ((fs.read? i.file).getD [])
  beside : i.Unsaved fs ∨ ∃ payloads, i.Listed fs payloads ∧
    ∀ log, fs.read? i.file = some log → Frame.encodeRun 0 payloads <+: log

theorem Listed.readable (h : i.Listed fs payloads) : Frame.Readable 0 payloads := by
  have hsize := h.size
  rw [Frame.length_encodeRun] at hsize
  exact Frame.readable_of_lt (by decide) (by omega) h.short

theorem beginsAtZero_encodeRun (hshort : ∀ x ∈ payloads, x.length < 2 ^ 32) :
    BeginsAtZero (Frame.encodeRun 0 payloads) := by
  intro r hd
  by_cases hnil : payloads = []
  · subst hnil
    simp [Frame.encodeRun] at hd
  · exact Frame.first_of_run hnil hshort List.prefix_rfl hd

theorem Holds.held (h : i.Holds fs payloads) : i.held fs = Frame.encodeRun 0 payloads := by
  rw [Invocation.held, h.made.prepared, h.file]
  rfl

/-- The log stands if it has not been saved yet. -/
theorem Holds.standing (h : i.Holds fs payloads) (hmissing : i.Unsaved fs) : i.Standing fs := by
  refine ⟨?_, .inl hmissing⟩
  rw [h.file]
  exact beginsAtZero_encodeRun h.short

theorem Saved.standing (h : i.Saved fs payloads) : i.Standing fs := by
  refine ⟨?_, .inr ⟨payloads, h.toListed, fun log hlog => ?_⟩⟩
  · rw [h.file]
    exact beginsAtZero_encodeRun h.toHolds.short
  · rw [h.file, Option.some.injEq] at hlog
    exact hlog ▸ List.prefix_rfl

/-! ## Opening -/

/-- What may lie beside an open log: no snapshot yet, or one of what the log begins with, if it is not
empty. -/
def Beside (i : Invocation) (fs : FileSystem) (log : Bytes) : Prop :=
  i.Unsaved fs ∨
    ∃ payloads, i.Listed fs payloads ∧ (log = [] ∨ Frame.encodeRun 0 payloads <+: log)

/-- What opening the log finds. -/
structure Opening (i : Invocation) (fs : FileSystem) (s : LogStream) (u : Storage) (number : Nat) :
    Prop where
  openAt : u.OpenAt i.file number
  made : i.Made u.files
  stored : u.stored = i.held fs
  first : BeginsAtZero u.stored
  beside : i.Beside u.files u.stored

/-- A recovery starts from entries that suit the log. -/
theorem Beside.suits (h : i.Beside u.files bytes) (hcreated : i.Created fs s) :
    (IndexedLog.loadSnapshot { s.appender.log with storage := u }).index.Suits bytes := by
  obtain hsame | ⟨path, ix, hpath, hread, hloaded⟩ :=
    IndexedLog.loadSnapshot_cases { s.appender.log with storage := u }
  · rw [hsame]
    show s.appender.log.index.Suits bytes
    rw [hcreated.index]
    exact .empty bytes
  · have hpath : i.snapshot? = some path := hcreated.snapshotPath ▸ hpath
    have hread : BlockIndex.Snapshot.read u.files path = .ok (some ix) := hread
    rcases h with hmissing | ⟨payloads, hlisted, halong⟩
    · exact absurd hread (BlockIndex.Snapshot.read_of_missing (hmissing path hpath) ix)
    · obtain ⟨saved, hthere, hlists⟩ := hlisted.snapshot path hpath
      rw [hthere.read (hlists.storable hlisted.size)] at hread
      simp only [Except.ok.injEq, Option.some.injEq] at hread
      subst hread
      rw [hloaded]
      exact ⟨payloads, hlisted.readable, hlists, halong⟩

theorem Standing.opening (h : i.Standing (i.prepared fs)) (hapart : i.Apart) (hfs : fs.Tidy)
    (hcreated : i.Created fs s) (hu : Storage.openUp.run s.storage = (.ok (), u)) :
    ∃ number, i.Opening fs s u number := by
  have hprepared := (i.prepared_spares hfs []).tidy
  obtain ⟨hclosed, hfiles⟩ := hcreated.closedAt hprepared
  have hmade := made_prepared hfs hcreated.made
  obtain ⟨hspares, -, number, hat, htouch, hstored⟩ := Storage.openUp_file hclosed hu
  rw [hfiles] at hspares
  rw [hfiles, hmade.makeParent_file] at htouch hstored
  refine ⟨number, hat, hmade.mono hprepared (hspares []).directories, hstored, hstored ▸ h.first, ?_⟩
  rw [hstored]
  refine h.beside.imp (fun hmissing path hpath n hn => hmissing path hpath n ?_)
    fun ⟨payloads, hlisted, hbegins⟩ => ⟨payloads, { hlisted with snapshot := ?_ }, ?_⟩
  · exact FileSystem.find_before_touch htouch (fun key hkey _ => (hapart.misses hkey hpath).1) hn
  · intro path hpath
    obtain ⟨ix, hthere, hlists⟩ := hlisted.snapshot path hpath
    exact ⟨ix, hthere.touch hprepared htouch, hlists⟩
  · cases hfile : (i.prepared fs).read? i.file with
    | none => exact .inl rfl
    | some log => exact .inr (hbegins log hfile)

/-- A recovery that succeeds leaves a log that holds what can be read from the beginning on. -/
theorem Opening.recover (h : i.Opening fs s u number) (hcreated : i.Created fs s) {found : Recovered}
    {log : IndexedLog} (hr : (IndexedLog.recover (-1)).run { s.appender.log with storage := u }
      = (.ok found, log)) :
    ∃ payloads, log.Holds u i.snapshot? payloads ∧ found.nextPosition = Frame.span payloads ∧
      Frame.Readable 0 payloads ∧
      (Frame.walk u.stored Storage.firstAddress).1 = Frame.recordsOf 0 0 payloads := by
  have hsound : ({ s.appender.log with storage := u } : IndexedLog).storage.Sound :=
    h.openAt.works.sound
  rw [← show ({ s.appender.log with storage := u } : IndexedLog).sampling.snapshotPath = i.snapshot?
    from hcreated.snapshotPath]
  exact IndexedLog.recover_holds hsound (h.beside.suits hcreated) h.first hr

/-- A log that is whole is recovered. -/
theorem Opening.recover_whole (h : i.Opening fs s u number) (hcreated : i.Created fs s)
    (hstored : u.stored = Frame.encodeRun 0 payloads) (hr : Frame.Readable 0 payloads) :
    ∃ found log,
      (IndexedLog.recover (-1)).run { s.appender.log with storage := u } = (.ok found, log) ∧
      log.Holds u i.snapshot? payloads ∧ found.nextPosition = Frame.span payloads := by
  have hat : ({ s.appender.log with storage := u } : IndexedLog).storage.OpenAt i.file number :=
    h.openAt
  rw [← show ({ s.appender.log with storage := u } : IndexedLog).sampling.snapshotPath = i.snapshot?
    from hcreated.snapshotPath]
  exact IndexedLog.recover_whole (-1) hat.works hstored hr (h.beside.suits hcreated)

/-! ## Leaving -/

/-- Calls on an open log leave what lies beside it. -/
theorem Beside.confined {t : Storage} (h : i.Beside u.files u.stored) (hapart : i.Apart)
    (hat : u.OpenAt i.file number) (hc : u.Confined t) : i.Beside t.files u.stored := by
  obtain ⟨key, hkey, -⟩ := FileSystem.find_eq_ok_iff.1 hat.placed.1.find
  refine h.imp (fun hmissing path hpath n hn => hmissing path hpath n ((hc.find path).1 hn))
    fun ⟨payloads, hlisted, hbegins⟩ => ⟨payloads, { hlisted with snapshot := ?_ }, hbegins⟩
  intro path hpath
  obtain ⟨ix, hthere, hlists⟩ := hlisted.snapshot path hpath
  exact ⟨ix, hc.snapshotAt hat hkey (hapart.misses hkey hpath).1 hthere, hlists⟩

/-- Saving the index leaves a file that holds what the log holds. -/
theorem holds_of_persist {log after : IndexedLog} {r : Except LogError Unit} (hapart : i.Apart)
    (hat : u.OpenAt i.file number) (hmade : i.Made u.files)
    (h : log.Holds u i.snapshot? payloads) (hp : IndexedLog.persist.run log = (r, after)) :
    i.Holds after.storage.files payloads := by
  have hlog := hat.confined h.confined h.sound
  obtain ⟨key, hkey, -⟩ := FileSystem.find_eq_ok_iff.1 hlog.placed.1.find
  have hmiss : ∀ snapshot, log.sampling.snapshotPath = some snapshot →
      FileSystem.Misses snapshot key ∧
        FileSystem.Misses (BlockIndex.Snapshot.draftPath snapshot) key :=
    fun snapshot hsaved => hapart.misses hkey (h.snapshotPath ▸ hsaved)
  obtain ⟨hopen, hstored⟩ := IndexedLog.persist_keeps hlog hkey hmiss hp
  obtain ⟨hspares, -⟩ := IndexedLog.persist_spares hlog.tidy hmiss hp
  refine ⟨hopen.tidy, ?_, ?_, h.short⟩
  · exact (hmade.mono hat.tidy h.confined.keepsDirectories).mono hlog.tidy hspares.directories
  · rw [hopen.placed.1.read?, ← hopen.placed.2, hstored, h.stored]

/-- Saving the index leaves a log that is saved; where that fails there was no snapshot, and there is
none. -/
theorem saved_of_persist {log after : IndexedLog} {r : Except LogError Unit} (hapart : i.Apart)
    (hat : u.OpenAt i.file number)
    (hmade : i.Made u.files) (hbeside : i.Beside u.files bytes) (h : log.Holds u i.snapshot? payloads)
    (hsize : (Frame.encodeRun 0 payloads).length < 2 ^ 63)
    (hp : IndexedLog.persist.run log = (r, after)) :
    (r = .ok () ∧ i.Saved after.storage.files payloads) ∨
      (r ≠ .ok () ∧ i.Unsaved after.storage.files ∧
        ¬ ∀ path, i.snapshot? = some path → ∃ ix, IndexedLog.SnapshotAt u.files path ix) := by
  have hsaved : (∀ path, i.snapshot? = some path →
      ∃ ix, IndexedLog.SnapshotAt after.storage.files path ix ∧ ix.Lists payloads) →
      i.Saved after.storage.files payloads :=
    fun hthere => ⟨holds_of_persist hapart hat hmade h hp, hsize, hthere⟩
  have hlog := hat.confined h.confined h.sound
  have hlogMade := hmade.mono hat.tidy h.confined.keepsDirectories
  obtain ⟨rfl, -, hnone⟩ | ⟨path, files, -, hpath, hsave, hafter⟩ := IndexedLog.persist_cases hp
  · refine .inl ⟨rfl, hsaved fun path hpath => ?_⟩
    rw [← h.snapshotPath, hnone h.isOpen] at hpath
    simp at hpath
  · rw [h.snapshotPath] at hpath
    have hfiles : after.storage.files = files := by rw [hafter]
    rw [hfiles] at hsaved ⊢
    cases r with
    | ok done =>
      refine .inl ⟨rfl, hsaved fun other hother => ?_⟩
      obtain rfl : path = other := by rwa [hpath, Option.some.injEq] at hother
      exact ⟨_, IndexedLog.saveSnapshot_ok hlog.tidy hsave, h.lists⟩
    | error e =>
      -- over a snapshot that is there another one would have been saved
      rcases hbeside with hmissing | ⟨others, hlisted, -⟩
      · refine .inr ⟨by simp, fun other hother => ?_, fun hthere => ?_⟩
        · obtain rfl : path = other := by rwa [hpath, Option.some.injEq] at hother
          exact IndexedLog.saveSnapshot_missing (hlogMade.makeParent_snapshot hpath)
            (fun key hkey hfile => draft_misses hpath hkey hfile)
            (fun n hn => hmissing path hpath n ((h.confined.find path).1 hn)) hsave
        · obtain ⟨ix, hsnapshot⟩ := hthere path hpath
          obtain ⟨n, hn, -⟩ := hsnapshot.found
          exact hmissing path hpath n hn
      · obtain ⟨key, hkey, -⟩ := FileSystem.find_eq_ok_iff.1 hat.placed.1.find
        obtain ⟨ix, hsnapshot, -⟩ := hlisted.snapshot path hpath
        obtain ⟨files, hok⟩ := (h.confined.snapshotAt hat hkey (hapart.misses hkey hpath).1
          hsnapshot).save hlog.tidy log.index
        rw [hok] at hsave
        simp at hsave

/-! ## Running -/

theorem over_launched {log : IndexedLog} {position : Int} (hcreated : i.Created fs s)
    (h : log.Holds u i.snapshot? payloads) (hnext : position = Frame.span payloads) :
    (s.launched log position).appender.Over u i.snapshot? payloads := by
  refine ⟨h, hcreated.buffer.2.2, fun x hx => ?_, fun _ => hnext⟩
  have hempty : (s.launched log position).appender.buffer.slots = [] := hcreated.buffer.1
  simp [WriteBuffer.entries, hempty, entriesOf, payloadsOf] at hx

/-- A task that was performed on an opened log leaves the log with its index saved, or tried to. -/
theorem Opening.leaves (hopening : i.Opening fs s u number) (hcreated : i.Created fs s)
    {found : Recovered} {log : IndexedLog} {outcome : Except LogError Unit} {console : Console}
    (hr : (IndexedLog.recover (-1)).run { s.appender.log with storage := u } = (.ok found, log))
    (hp : (i.order.performAt paces).run { stream := s.launched log found.nextPosition }
      = (outcome, console)) :
    ∃ (last after : IndexedLog) (r : Except LogError Unit) (payloads : List Bytes),
      last.Holds u i.snapshot? payloads ∧ IndexedLog.persist.run last = (r, after) ∧
        console.stream.closeStream.2.storage.files = after.storage.files := by
  obtain ⟨payloads, hholds, hnext, hreadable, -⟩ := hopening.recover hcreated hr
  have hover := over_launched hcreated hholds hnext
  have hrests : i.order.writes = false →
      (s.launched log found.nextPosition).appender.isRunning = false := by
    intro hreads
    show (!s.config.appenderDisabled) = false
    rw [hcreated.disabled, hreads]
    rfl
  have hopen : (s.launched log found.nextPosition).state ≠ .closed := nofun
  obtain ⟨t, after, hlast, hstate, hclosing⟩ :=
    perform_over hover hopen hopening.openAt hrests hreadable hp
  obtain ⟨last, rest, hlog, -, hfiles⟩ := LogStream.closeStream_over hstate hlast hopening.openAt
  exact ⟨last, (IndexedLog.persist.run last).2, (IndexedLog.persist.run last).1, rest, hlog, rfl,
    by rw [hclosing, hfiles]⟩

/-- Whatever an invocation is to do, however it ends and at whatever pace the appender works, the log
and its snapshot stand as before. -/
theorem Standing.runAt (h : i.Standing (i.prepared fs)) (hapart : i.Apart) (hfs : fs.Tidy)
    (paces : Nat → LogStream.WritePace) (hsize : (i.held (i.runAt paces fs).2).length < 2 ^ 63) :
    (i.runAt paces fs).2.Tidy ∧ i.Standing (i.prepared (i.runAt paces fs).2) := by
  have hprepared := (i.prepared_spares hfs []).tidy
  have hagain := (i.prepared_again hfs).2
  have hends : i.Ends _ fs (i.runAt paces fs).1 (i.runAt paces fs).2 := i.runTask_ends _ fs
  generalize i.runAt paces fs = result at hends hsize ⊢
  obtain ⟨report, files⟩ := result
  dsimp only at hends hsize ⊢
  cases hends with
  | unnamed => exact ⟨hfs, h⟩
  | uncreated => exact ⟨hprepared, by rw [hagain]; exact h⟩
  | @unopened s e u hcreated hu =>
    obtain ⟨hclosed, hfiles⟩ := hcreated.closedAt hprepared
    have hsame : u.files = i.prepared fs := by
      rw [(Storage.openUp_file hclosed hu).2.2.2, hfiles,
        (made_prepared hfs hcreated.made).makeParent_file]
    rw [hsame]
    exact ⟨hprepared, by rw [hagain]; exact h⟩
  | @unrecovered s u e log hcreated hu hrecover =>
    obtain ⟨number, hopening⟩ := h.opening hapart hfs hcreated hu
    have hat := hopening.openAt
    have hsound : ({ s.appender.log with storage := u } : IndexedLog).storage.Sound :=
      hat.works.sound
    have hconfined : u.Confined log.storage := IndexedLog.recover_confined hrecover
    obtain ⟨⟨hlogSound, hkeeps⟩, -, -⟩ : IndexedLog.Untouched _ log :=
      IndexedLog.recover_loaded hsound (hopening.beside.suits hcreated).describes hrecover
    have hlog := hat.confined hconfined hlogSound
    have hfile : log.storage.files.read? i.file = some u.stored := by
      rw [hlog.placed.1.read?, ← hlog.placed.2, hkeeps]
    refine ⟨hlog.tidy, ?_⟩
    rw [(hopening.made.mono hat.tidy hconfined.keepsDirectories).prepared]
    refine ⟨by rw [hfile]; exact hopening.first, ?_⟩
    refine (hopening.beside.confined hapart hat hconfined).imp_right ?_
    rintro ⟨payloads, hlisted, hempty | hbegins⟩
    · -- an empty log would have been recovered
      have hwhole : u.stored = Frame.encodeRun 0 [] := hempty
      obtain ⟨found, after, hok, -⟩ := hopening.recover_whole hcreated hwhole trivial
      rw [hok] at hrecover
      simp at hrecover
    · refine ⟨payloads, hlisted, fun content hcontent => ?_⟩
      rw [hfile, Option.some.injEq] at hcontent
      exact hcontent ▸ hbegins
  | @performed s u found log outcome console hcreated hu hrecover hperform =>
    obtain ⟨number, hopening⟩ := h.opening hapart hfs hcreated hu
    have hat := hopening.openAt
    obtain ⟨last, after, r, payloads, hlast, hpersist, hfiles⟩ :=
      hopening.leaves hcreated hrecover hperform
    have hholds := holds_of_persist hapart hat hopening.made hlast hpersist
    rw [hfiles] at hsize ⊢
    rw [hholds.held] at hsize
    rw [hholds.made.prepared]
    refine ⟨hholds.tidy, ?_⟩
    obtain ⟨-, hsaved⟩ | ⟨-, hmissing, -⟩ :=
      saved_of_persist hapart hat hopening.made hopening.beside hlast hsize hpersist
    · exact hsaved.standing
    · exact hholds.standing hmissing

theorem Standing.run (h : i.Standing (i.prepared fs)) (hapart : i.Apart) (hfs : fs.Tidy)
    (hsize : (i.held (i.run fs).2).length < 2 ^ 63) :
    (i.run fs).2.Tidy ∧ i.Standing (i.prepared (i.run fs).2) := by
  rw [run_eq_runAt] at hsize ⊢
  exact h.runAt hapart hfs _ hsize

/-! ## Appending and dumping -/

/-- An appending run that does not fail puts its records behind those of the log, and tells their
positions, at whatever pace the appender drains them. -/
theorem Standing.append_runAt (h : i.Standing (i.prepared fs)) (hapart : i.Apart) (hfs : fs.Tidy)
    (paces : Nat → LogStream.WritePace) {words : List String} {timeout : Nat}
    (happend : i.order = .append words timeout) {old : List Bytes}
    (hheld : i.held fs = Frame.encodeRun 0 old) (hold : ∀ x ∈ old, x ≠ [] ∧ x.length < 2 ^ 32)
    (hsize : (Frame.encodeRun 0 (old ++ words.map Bytes.ofText)).length < 2 ^ 63)
    (hexit : (i.runAt paces fs).1.failure = none) :
    (i.runAt paces fs).1.printed = appended words.length (Frame.span old)
        (Frame.span (old ++ words.map Bytes.ofText)) ++ "\n" ∧
      i.Saved (i.runAt paces fs).2 (old ++ words.map Bytes.ofText) ∧ ∃ s, i.Created fs s := by
  have hends : i.Ends _ fs (i.runAt paces fs).1 (i.runAt paces fs).2 := i.runTask_ends _ fs
  generalize i.runAt paces fs = result at hends hexit ⊢
  obtain ⟨report, files⟩ := result
  dsimp only at hends hexit ⊢
  cases hends with
  | unnamed => simp at hexit
  | uncreated => simp at hexit
  | unopened => simp at hexit
  | unrecovered => simp at hexit
  | @performed s u found log outcome console hcreated hu hrecover hperform =>
    obtain ⟨number, hopening⟩ := h.opening hapart hfs hcreated hu
    have hat := hopening.openAt
    obtain ⟨payloads, hholds, hnext, -, hwalk⟩ := hopening.recover hcreated hrecover
    -- what is recovered is what was there
    have hreadable : Frame.Readable 0 old := by
      rw [Frame.length_encodeRun, Frame.span_append] at hsize
      exact Frame.readable_of_lt (by decide) (by omega) fun x hx => (hold x hx).2
    obtain rfl := IndexedLog.eq_of_walk (hopening.stored.trans hheld) hreadable hwalk
    have hopen : (s.launched log found.nextPosition).state ≠ .closed := nofun
    have hlive : (s.launched log found.nextPosition).appender.isLive = true := by
      have henabled : s.config.appenderDisabled = false := by
        rw [hcreated.disabled, happend]
        rfl
      simp [LogStream.launched, Appender.isLive, henabled]
    have hladen := Appender.Laden.of_over (over_launched hcreated hholds hnext) hlive
      (fun x hx => (hold x hx).1) hcreated.buffer.1
    rw [happend] at hperform
    obtain rfl : outcome = .ok () := by
      cases outcome with
      | ok done => rfl
      | error e => simp [reason?] at hexit
    obtain ⟨last, hlast, hsaving, hfiles, hprinted⟩ := appendAt_ok hladen hopen hat hperform
    rw [hfiles]
    refine ⟨?_, ?_, s, hcreated⟩
    · rw [hprinted, List.length_map, show LogStream.appender _ = _ from rfl]
      show "" ++ appended words.length found.nextPosition _ ++ "\n" = _
      rw [hnext, String.empty_append, Frame.span_append]
      rfl
    · obtain ⟨-, hsaved⟩ | ⟨hfailed, -⟩ := saved_of_persist hapart hat hopening.made hopening.beside
        hlast hsize rfl
      · exact hsaved
      · exact absurd hsaving hfailed

/-- Over a saved log every task is performed, on a stream that has recovered the log. -/
theorem Saved.performs (h : i.Saved fs payloads) (hapart : i.Apart) {name : String}
    (hname : Path.fileStem? i.file = some name)
    (hcreate : LogStream.create (i.config name) { medium := .file i.file none, files := fs } = .ok s)
    (task : Attempt Console Unit) :
    ∃ (s : LogStream) (u : Storage) (number : Nat) (found : Recovered) (log : IndexedLog)
      (outcome : Except LogError Unit) (console : Console),
      i.Created fs s ∧ i.Opening fs s u number ∧ u.files = fs ∧
        log.Holds u i.snapshot? payloads ∧ found.nextPosition = Frame.span payloads ∧
        task.run { stream := s.launched log found.nextPosition } = (outcome, console) ∧
        i.runTask task fs
          = (⟨console.printed, reason? outcome⟩, console.stream.closeStream.2.storage.files) := by
  have hprepared := h.made.prepared
  have hstanding : i.Standing (i.prepared fs) := by
    rw [hprepared]
    exact h.standing
  obtain ⟨n, hfind, -⟩ := FileSystem.read?_eq_some_iff.1 h.file
  have hends := i.runTask_ends task fs
  generalize i.runTask task fs = result at hends ⊢
  obtain ⟨report, files⟩ := result
  dsimp only at hends
  -- where the stream is opened, it is over the files as they are
  have hopening : ∀ {s : LogStream} {u : Storage}, i.Created fs s →
      Storage.openUp.run s.storage = (.ok (), u) → u.files = fs ∧
        u.stored = Frame.encodeRun 0 payloads ∧ ∃ number, i.Opening fs s u number := by
    intro s u hcreated hu
    obtain ⟨number, hopening⟩ := hstanding.opening hapart h.tidy hcreated hu
    obtain ⟨hclosed, hfiles⟩ := hcreated.closedAt (by rw [hprepared]; exact h.tidy)
    rw [hprepared] at hfiles
    have hsame := (Storage.openUp_file hclosed hu).2.1 n (hfiles ▸ hfind)
    exact ⟨hsame.trans hfiles, hopening.stored.trans h.held, number, hopening⟩
  cases hends with
  | unnamed hnone =>
    rw [hname] at hnone
    simp at hnone
  | uncreated hnamed hnone =>
    rw [hname, Option.some.injEq] at hnamed
    subst hnamed
    refine absurd ?_ (hnone s)
    rw [stream_eq, h.made.making, hprepared]
    exact hcreate
  | unopened hcreated hu =>
    obtain ⟨hclosed, hfiles⟩ := hcreated.closedAt (by rw [hprepared]; exact h.tidy)
    rw [hprepared] at hfiles
    obtain ⟨t, hok⟩ := Storage.openUp_of_touch hclosed (hfiles ▸ h.made.makeParent_file)
      (hfiles ▸ FileSystem.touch_of_find hfind)
    rw [hok] at hu
    simp at hu
  | unrecovered hcreated hu hrecover =>
    obtain ⟨hsame, hstored, number, hopened⟩ := hopening hcreated hu
    obtain ⟨found, log, hok, -⟩ := hopened.recover_whole hcreated hstored h.readable
    rw [hok] at hrecover
    simp at hrecover
  | @performed s u found log outcome console hcreated hu hrecover hperform =>
    obtain ⟨hsame, hstored, number, hopened⟩ := hopening hcreated hu
    obtain ⟨found', log', hok, hholds, hnext⟩ := hopened.recover_whole hcreated hstored h.readable
    rw [hok, Prod.mk.injEq, Except.ok.injEq] at hrecover
    obtain ⟨rfl, rfl⟩ := hrecover
    exact ⟨s, u, number, found', log', outcome, console, hcreated, hopened, hsame, hholds, hnext,
      hperform, rfl⟩

/-- The index of a log whose snapshot was there is saved. -/
theorem Saved.persist {log after : IndexedLog} {r : Except LogError Unit} {old : List Bytes}
    (h : i.Saved fs old) (hapart : i.Apart) (hopening : i.Opening fs s u number)
    (hsame : u.files = fs) (hlog : log.Holds u i.snapshot? payloads)
    (hsize : (Frame.encodeRun 0 payloads).length < 2 ^ 63)
    (hp : IndexedLog.persist.run log = (r, after)) :
    r = .ok () ∧ i.Saved after.storage.files payloads := by
  obtain hsaved | ⟨-, -, hnone⟩ := saved_of_persist hapart hopening.openAt hopening.made
    hopening.beside hlog hsize hp
  · exact hsaved
  · refine absurd (fun path hpath => ?_) hnone
    obtain ⟨ix, hthere, -⟩ := h.snapshot path hpath
    exact ⟨ix, hsame ▸ hthere⟩

/-- A dump of a saved log lists its records, and leaves it saved. -/
theorem Saved.run_dump (h : i.Saved fs payloads) (hapart : i.Apart) {preview : Nat}
    (hdump : i.order = .dump none preview) {name : String} (hname : Path.fileStem? i.file = some name)
    (hcreate : LogStream.create (i.config name) { medium := .file i.file none, files := fs } = .ok s) :
    (i.run fs).1 = { printed := printout (listing preview (Frame.recordsOf 0 0 payloads)) } ∧
      i.Saved (i.run fs).2 payloads := by
  obtain ⟨s, u, number, found, log, outcome, console, hcreated, hopened, hsame, hholds, hnext,
    hperform, hrun⟩ := h.performs hapart hname hcreate i.order.perform
  rw [run, hrun]
  have hat := hopened.openAt
  have hover := over_launched hcreated hholds hnext
  rw [hdump] at hperform
  obtain ⟨v, halike, hdumped⟩ := run_dump_over
    (c := { stream := s.launched log found.nextPosition }) preview hover hat h.readable rfl
  have hrun : (dump none preview).run { stream := s.launched log found.nextPosition }
      = (outcome, console) := hperform
  rw [hdumped, Prod.mk.injEq] at hrun
  obtain ⟨rfl, rfl⟩ := hrun
  let read := (s.launched log found.nextPosition).withStorage v
  have hopen : read.state ≠ .closed := by
    simp [read, LogStream.withStorage, LogStream.withAppender, LogStream.launched]
  -- the appender of a dump does not run
  have hstop : (Appender.stop { read.appender with buffer := read.appender.buffer.shut }).log.Holds u
      i.snapshot? payloads := by
    have hrests : read.appender.isLive = false := by
      have hdisabled : s.config.appenderDisabled = true := by
        rw [hcreated.disabled, hdump]
        rfl
      simp [read, LogStream.withStorage, LogStream.withAppender, LogStream.launched,
        Appender.isLive, hdisabled]
    have hlive : ({ read.appender with buffer := read.appender.buffer.shut } : Appender).isLive
        = false := hrests
    unfold Appender.stop
    rw [hlive]
    exact hover.holds.storage halike.confined (halike.alike.keeps hover.holds.sound)
  obtain ⟨last, hlast, hclosed, hfiles, houtcome⟩ := LogStream.closeStream_stop hopen hat hstop
  generalize hpersist : IndexedLog.persist.run last = persisted at hfiles houtcome
  obtain ⟨saving, persisted⟩ := persisted
  obtain ⟨hsaving, hsaved⟩ := h.persist hapart hopened hsame hlast h.size hpersist
  have hwaited : read.buffer.waited read.config.graceSpan = .ok () := by
    have hends : read.buffer.outstanding = 0 := hcreated.buffer.2.1
    rw [WriteBuffer.waited, hends]
    rfl
  rw [hwaited, hsaving] at houtcome
  refine ⟨?_, ?_⟩
  · show Report.mk _ (reason? read.closeStream.1) = _
    rw [houtcome]
    rfl
  · show i.Saved read.closeStream.2.closeStream.2.storage.files payloads
    rw [LogStream.closeStream_of_closed hclosed, hfiles]
    exact hsaved

end PartitionLog.CommandLine.Invocation
