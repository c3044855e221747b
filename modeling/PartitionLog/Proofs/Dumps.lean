import PartitionLog.Proofs.Invocations

/-!
# What a dump does to the log file

Whatever a log file holds and however the command ends, a dump leaves the file as it was, or cut off at
a torn frame, as opening a log does (`dump_keeps_log`). A torn log does lose its end
(`dump_cuts_tornFile`).
-/

namespace PartitionLog.CommandLine

namespace Invocation

variable {i : Invocation} {fs : FileSystem}

/-- Where the opening of the log starts to read it: at the beginning, or where an entry of the snapshot
leads to a record. -/
def ReadsFrom (i : Invocation) (fs : FileSystem) (bytes : Bytes) (address : Nat) : Prop :=
  address = Storage.firstAddress ∨ ∃ path ix e, i.snapshot? = some path ∧
    BlockIndex.Snapshot.read fs path = .ok (some ix) ∧ e ∈ ix.entries ∧ e.address = address ∧
      e.Names bytes

/-- The bytes of a log that was opened: what they were, or what is before a torn frame at which reading
stopped. -/
def Leaves (i : Invocation) (fs : FileSystem) (before after : Bytes) : Prop :=
  after = before ∨ ∃ address cut, i.ReadsFrom fs before address ∧
    IndexedLog.TornFrom before address cut ∧ after = before.take cut

/-- Opening the log leaves its bytes, or cuts off a torn frame. -/
theorem leaves_of_recover {s : LogStream} {u : Storage} {log : IndexedLog} {number : Nat}
    {r : Except LogError Recovered} (hcreated : i.Created fs s) (hsame : u.files = fs)
    (hat : u.OpenAt i.file number)
    (hrecover : (IndexedLog.recover (-1)).run { s.appender.log with storage := u } = (r, log)) :
    log.storage.OpenAt i.file number ∧ i.Leaves fs u.stored log.storage.stored := by
  obtain ⟨hsound, hleaves⟩ := IndexedLog.recover_leaves hat.works.sound hrecover
  refine ⟨hat.confined (IndexedLog.recover_confined hrecover) hsound,
    hleaves.imp_right ?_⟩
  rintro ⟨address, cut, hfrom, htorn, htaken⟩
  refine ⟨address, cut, hfrom.imp_right ?_, htorn, htaken⟩
  rintro ⟨e, he, haddress, hnames⟩
  -- entries to start from come from the snapshot that was there
  obtain hnone | ⟨path, ix, hpath, hread, hloaded⟩ :=
    IndexedLog.loadSnapshot_cases { s.appender.log with storage := u }
  · rw [hnone, hcreated.index] at he
    simp [BlockIndex.empty] at he
  · rw [hloaded] at he
    exact ⟨path, ix, e, hcreated.snapshotPath ▸ hpath, hsame ▸ hread, he, haddress, hnames⟩

theorem run_dump {start : Option Int} {preview : Nat} {before : Bytes}
    (hdump : i.order = .dump start preview) (hfs : fs.Tidy) (hfile : fs.read? i.file = some before)
    (hapart : i.Apart) :
    ∃ left, (i.run fs).2.read? i.file = some left ∧ i.Leaves fs before left := by
  obtain ⟨n, hfind, hcontent⟩ := FileSystem.read?_eq_some_iff.1 hfile
  have hprepared : i.prepared fs = fs := prepared_of_find hfind fun _ hk => hk
  have hends := i.run_ends fs
  generalize i.run fs = result at hends ⊢
  obtain ⟨report, files⟩ := result
  dsimp only at hends ⊢
  -- where the stream is opened, it is over the file as it is
  have hopening : ∀ {s : LogStream} {u : Storage}, i.Created fs s →
      Storage.openUp.run s.storage = (.ok (), u) →
        u.files = fs ∧ u.stored = before ∧ ∃ number, u.OpenAt i.file number := by
    intro s u hcreated hu
    obtain ⟨hclosed, hfiles⟩ := hcreated.closedAt (by rw [hprepared]; exact hfs)
    rw [hprepared] at hfiles
    obtain ⟨-, hsame, number, hat, -, hstored⟩ := Storage.openUp_file hclosed hu
    refine ⟨(hsame n (hfiles ▸ hfind)).trans hfiles, ?_, number, hat⟩
    rw [hstored, hfiles, FileSystem.makeParent_of_find hfind, hfile]
    rfl
  cases hends with
  | unnamed => exact ⟨before, hfile, .inl rfl⟩
  | uncreated =>
    refine ⟨before, ?_, .inl rfl⟩
    rw [hprepared]
    exact hfile
  | unopened hcreated hu =>
    obtain ⟨hclosed, hfiles⟩ := hcreated.closedAt (by rw [hprepared]; exact hfs)
    rw [hprepared] at hfiles
    refine ⟨before, ?_, .inl rfl⟩
    rw [(Storage.openUp_file hclosed hu).2.1 n (hfiles ▸ hfind), hfiles]
    exact hfile
  | unrecovered hcreated hu hrecover =>
    obtain ⟨hsame, rfl, number, hat⟩ := hopening hcreated hu
    obtain ⟨hlog, hleaves⟩ := leaves_of_recover hcreated hsame hat hrecover
    exact ⟨_, hlog.placed.2 ▸ hlog.placed.1.read?, hleaves⟩
  | @performed s u found log outcome console hcreated hu hrecover hperform =>
    obtain ⟨hsame, rfl, number, hat⟩ := hopening hcreated hu
    obtain ⟨hlog, hleaves⟩ := leaves_of_recover hcreated hsame hat hrecover
    refine ⟨_, ?_, hleaves⟩
    rw [hdump] at hperform
    obtain ⟨v, halike, hconsole⟩ := dump_stream hperform
    -- the stream as it has been read, which is closed once or twice
    let read := (s.launched log found.nextPosition).withStorage v
    have hstate : read.state ≠ .closed := nofun
    have hrests : read.appender.isRunning = false := by
      show (!s.config.appenderDisabled) = false
      rw [hcreated.disabled, hdump]
      rfl
    have hclosing : console.stream.closeStream.2 = read.closeStream.2 := by
      rcases hconsole with hconsole | hconsole
      · rw [hconsole]
      · rw [hconsole, LogStream.closeStream_of_closed (LogStream.closeStream_files hstate hrests).1]
    have hv : v.OpenAt i.file number := hlog.confined halike.confined
      (halike.alike.sound hlog.works.sound)
    obtain ⟨key, hkey, -⟩ := FileSystem.find_eq_ok_iff.1 hv.placed.1.find
    have hpath : read.appender.log.sampling.snapshotPath = i.snapshot? :=
      (IndexedLog.recover_snapshotPath hat.works.sound hrecover).trans hcreated.snapshotPath
    rw [hclosing, LogStream.closeStream_keeps hstate hrests hv hkey
      fun snapshot hsaved => hapart.misses hkey (hpath ▸ hsaved)]
    exact congrArg some halike.alike.stored

end Invocation

/-! ## The tool -/

/-- A dump leaves the log file, whatever it holds and however the dump ends: as it was, or without the
torn frame at which opening the log stopped to read it. -/
theorem dump_keeps_log {arguments : List String} {i : Invocation} {start : Option Int} {preview : Nat}
    {fs : FileSystem} {before : Bytes} (harguments : Request.read arguments = .ok (.run i))
    (hdump : i.order = .dump start preview) (hfs : fs.Tidy) (hfile : fs.read? i.file = some before)
    (hapart : i.Apart) :
    ∃ left, (runTool arguments fs).2.read? i.file = some left ∧ i.Leaves fs before left := by
  unfold runTool
  rw [harguments]
  exact i.run_dump hdump hfs hfile hapart

/-- The working directory with a single file in it. -/
def oneFile (name : String) (bytes : Bytes) : FileSystem :=
  { entries := [([name], .file 0)], contents := [bytes] }

theorem oneFile_tidy (name : String) (bytes : Bytes) : (oneFile name bytes).Tidy := by
  have hkey : ∀ key n, FileSystem.entry? (oneFile name bytes) key = some (.file n) →
      n = 0 ∧ key = [name] := by
    intro key n h
    rw [FileSystem.entry?, oneFile] at h
    split at h
    · simp at h
    · rw [List.lookup_cons] at h
      split at h
      · next heq =>
        simp only [Option.some.injEq, Entry.file.injEq] at h
        exact ⟨h.symm, eq_of_beq heq⟩
      · simp at h
  refine ⟨fun key n h => ?_, fun key other n h hother => ?_⟩
  · rw [(hkey key n h).1]
    exact Nat.one_pos
  · rw [(hkey key n h).2, (hkey other n hother).2]

theorem dump_keeps_oneRecord :
    ∃ left, (runTool ["dump", "-f", "./x.log", "--from", "2"]
        (oneFile "x.log" (Frame.encode 0 [5, 6, 7]))).2.read? "./x.log" = some left ∧
      Invocation.Leaves ⟨"./x.log", 1, .dump (some 2) 32⟩ (oneFile "x.log" (Frame.encode 0 [5, 6, 7]))
        (Frame.encode 0 [5, 6, 7]) left := by
  let i : Invocation := ⟨"./x.log", 1, .dump (some 2) 32⟩
  have harguments : Request.read ["dump", "-f", "./x.log", "--from", "2"] = .ok (.run i) := by
    decide +kernel
  have hfile : (oneFile "x.log" (Frame.encode 0 [5, 6, 7])).read? i.file
      = some (Frame.encode 0 [5, 6, 7]) := by
    decide +kernel
  exact dump_keeps_log harguments rfl (oneFile_tidy _ _) hfile (by decide +kernel)

/-- Opening a log for a dump cuts off a torn frame. -/
theorem dump_cuts_tornFile :
    (oneFile "x.log" [1, 2, 3]).read? "x.log" = some [1, 2, 3] ∧
      (runTool ["-f", "x.log", "dump"] (oneFile "x.log" [1, 2, 3])).2.read? "x.log" = some [] := by
  decide +kernel

end PartitionLog.CommandLine
