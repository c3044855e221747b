import PartitionLog.Proofs.ToolRoom

/-!
# Appending to a log and dumping it

`Left` tells what files earlier runs on a log leave, if there was no snapshot of it at first. Whatever
the runs did, the log and its snapshot stand (`Left.standing`). On such files a successful append puts
the new frames behind the old bytes, and a dump lists the records of both (`append_then_dump`), at
whatever pace the appender works.
-/

namespace PartitionLog.CommandLine

namespace Invocation

variable {i j : Invocation} {fs : FileSystem} {payloads : List Bytes}

/-! ## Invocations on one file -/

section

variable (same : j.file = i.file)

include same

theorem snapshot?_congr : j.snapshot? = i.snapshot? := by
  simp only [snapshot?, config, LogConfig.snapshotPath, directory?, same]

theorem Apart.congr (h : i.Apart) : j.Apart := by
  simpa only [Apart, directory?, same] using h

theorem prepared_congr : j.prepared fs = i.prepared fs := by
  simp only [prepared, directory?, same]

theorem making_congr : j.making fs = i.making fs := by
  simp only [making, directory?, same]

theorem held_congr : j.held fs = i.held fs := by
  rw [held, held, prepared_congr same, same]

theorem Listed.congr (h : i.Listed fs payloads) : j.Listed fs payloads where
  short := h.short
  size := h.size
  snapshot := by simpa only [snapshot?_congr same] using h.snapshot

theorem Saved.congr (h : i.Saved fs payloads) : j.Saved fs payloads where
  toHolds := ⟨h.tidy, ⟨making_congr same ▸ h.made.making, prepared_congr same ▸ h.made.prepared⟩,
    same ▸ h.file, h.toHolds.short⟩
  size := h.size
  snapshot := (h.toListed.congr same).snapshot

theorem Standing.congr (h : i.Standing fs) : j.Standing fs where
  first := same ▸ h.first
  beside := by
    rw [same, Unsaved, snapshot?_congr same]
    exact h.beside.imp_right fun ⟨payloads, hlisted, hbegins⟩ =>
      ⟨payloads, hlisted.congr same, hbegins⟩

end

/-! ## What runs leave -/

/-- Files as they are after runs on a log, at any pace of the appender. There was no snapshot of it
before the first run, and its first record, if any, had position 0. Between two runs it may have been
removed, or have grown. -/
inductive Left (i : Invocation) : FileSystem → Prop
  | start {fs : FileSystem} (tidy : fs.Tidy) (missing : i.Unsaved (i.prepared fs))
      (first : BeginsAtZero (i.held fs)) : Left i fs
  | run {fs : FileSystem} {j : Invocation} (paces : Nat → LogStream.WritePace) (left : Left i fs)
      (same : j.file = i.file) (size : (i.held (j.runAt paces fs).2).length < 2 ^ 63) :
      Left i (j.runAt paces fs).2
  | removed {fs : FileSystem} (left : Left i fs) : Left i (fs.remove i.file).2
  | grown {fs : FileSystem} {log more : Bytes} (left : Left i fs) (file : fs.read? i.file = some log)
      (first : BeginsAtZero (log ++ more)) : Left i (fs.write i.file (log ++ more)).2

/-- Removing the log leaves its snapshot. -/
theorem Standing.remove (h : i.Standing fs) (hapart : i.Apart) (hfs : fs.Tidy) :
    i.Standing (fs.remove i.file).2 := by
  have hnone : (fs.remove i.file).2.read? i.file = none := by
    cases hread : (fs.remove i.file).2.read? i.file with
    | none => rfl
    | some log =>
      obtain ⟨n, hfind, -⟩ := FileSystem.read?_eq_some_iff.1 hread
      exact absurd hfind (FileSystem.find_remove fs i.file n)
  refine ⟨fun r hr => by simp [hnone] at hr, ?_⟩
  refine h.beside.imp (fun hmissing path hpath n hn => hmissing path hpath n ?_)
    fun ⟨payloads, hlisted, _⟩ => ⟨payloads, { hlisted with snapshot := ?_ }, by simp [hnone]⟩
  · exact FileSystem.find_before_remove (fun key hkey => (hapart.misses hkey hpath).1) hn
  · intro path hpath
    obtain ⟨ix, hthere, hlists⟩ := hlisted.snapshot path hpath
    exact ⟨ix, hthere.remove hfs fun key hkey => (hapart.misses hkey hpath).1, hlists⟩

/-- A log that grows still begins with what its snapshot was saved for. -/
theorem Standing.grow {log more : Bytes} {after : FileSystem} (h : i.Standing fs) (hapart : i.Apart)
    (hfs : fs.Tidy) (hfile : fs.read? i.file = some log) (hfirst : BeginsAtZero (log ++ more))
    (hw : fs.write i.file (log ++ more) = (.ok (), after)) : i.Standing after := by
  obtain ⟨number, hfind, hcontent⟩ := FileSystem.find_of_write hfs hw
  have hread : after.read? i.file = some (log ++ more) :=
    FileSystem.read?_eq_some_iff.2 ⟨number, hfind, hcontent⟩
  refine ⟨by rwa [hread], ?_⟩
  refine h.beside.imp (fun hmissing path hpath n hn => hmissing path hpath n ?_)
    fun ⟨payloads, hlisted, hbegins⟩ => ⟨payloads, { hlisted with snapshot := ?_ }, ?_⟩
  · exact FileSystem.find_before_write hw (fun key hkey _ => (hapart.misses hkey hpath).1) hn
  · intro path hpath
    obtain ⟨ix, hthere, hlists⟩ := hlisted.snapshot path hpath
    exact ⟨ix, hthere.write hfs (fun _ key hkey => (hapart.misses hkey hpath).1) hw, hlists⟩
  · intro content hcontent
    rw [hread, Option.some.injEq] at hcontent
    exact hcontent ▸ (hbegins log hfile).trans (List.prefix_append log more)

/-- After any runs the log and its snapshot stand. -/
theorem Left.standing (h : i.Left fs) (hapart : i.Apart) :
    fs.Tidy ∧ i.Standing (i.prepared fs) := by
  induction h with
  | start htidy hmissing hfirst => exact ⟨htidy, hfirst, .inl hmissing⟩
  | @run fs j paces _ hsame hsize ih =>
    have hstanding : j.Standing (j.prepared fs) := by
      rw [prepared_congr hsame]
      exact ih.2.congr hsame
    rw [← held_congr hsame] at hsize
    obtain ⟨hafter, hrun⟩ := hstanding.runAt (hapart.congr hsame) ih.1 paces hsize
    rw [prepared_congr hsame] at hrun
    exact ⟨hafter, hrun.congr hsame.symm⟩
  | @removed fs _ ih =>
    refine ⟨FileSystem.remove_tidy ih.1 i.file, ?_⟩
    obtain ⟨hsame, -⟩ | ⟨key, n, hfind, -, he, hdrop⟩ := FileSystem.remove_cases fs i.file
    · rw [hsame]
      exact ih.2
    · rw [hdrop, prepared_of_find hfind (FileSystem.dropEntry_keeps he), ← hdrop]
      have hstanding := ih.2
      rw [prepared_of_find hfind fun _ hk => hk] at hstanding
      exact hstanding.remove hapart ih.1
  | @grown fs log more _ hfile hfirst ih =>
    obtain ⟨n, hfind, -⟩ := FileSystem.read?_eq_some_iff.1 hfile
    have hstanding := ih.2
    rw [prepared_of_find hfind fun _ hk => hk] at hstanding
    have hw : fs.write i.file (log ++ more) = (.ok (), (fs.write i.file (log ++ more)).2) := by
      rw [FileSystem.write, FileSystem.touch_of_find hfind]
    obtain ⟨htidy, hkeeps⟩ := FileSystem.write_leaves ih.1 hw
    rw [prepared_of_find hfind hkeeps]
    exact ⟨htidy, hstanding.grow hapart ih.1 hfile hfirst hw⟩

/-- Where a run that appends has created its stream, a run on the same file can. -/
theorem Created.again {s : LogStream} (h : i.Created fs s) (same : j.file = i.file) (place : Storage) :
    ∃ name, Path.fileStem? j.file = some name ∧
      ∃ t, LogStream.create (j.config name) place = .ok t := by
  obtain ⟨name, hname, hcreate⟩ := h.created
  have hvalid : (j.config name).validate = (i.config name).validate := by
    simp only [config, directory?, same]
    rfl
  exact ⟨name, same ▸ hname, LogStream.create_alike hcreate hvalid rfl rfl⟩

/-- The log after an append that did not fail, what the append says and what a dump then shows: all
that does not depend on the pace of the appender. -/
theorem Standing.append_runAt_dump (h : i.Standing (i.prepared fs)) (hapart : i.Apart)
    (hfs : fs.Tidy) (paces : Nat → LogStream.WritePace) {words : List String} {timeout : Nat}
    (happend : i.order = .append words timeout) {old : List Bytes}
    (hheld : i.held fs = Frame.encodeRun 0 old) (hold : ∀ x ∈ old, x ≠ [] ∧ x.length < 2 ^ 32)
    (hsize : (Frame.encodeRun 0 (old ++ words.map Bytes.ofText)).length < 2 ^ 63)
    (hexit : (i.runAt paces fs).1.failure = none) :
    let appending := i.runAt paces fs
    let new := words.map Bytes.ofText
    appending.2.read? i.file
        = some (Frame.encodeRun 0 old ++ Frame.encodeRun (Frame.span old) new) ∧
      appending.1.printed
        = appended new.length (Frame.span old) (Frame.span (old ++ new)) ++ "\n" ∧
      ∀ (j : Invocation) (preview : Nat), j.file = i.file → j.order = .dump none preview →
        (j.run appending.2).1
            = { printed := printout (listing preview (Frame.recordsOf 0 0 (old ++ new))) } ∧
          (j.run appending.2).2.read? i.file = appending.2.read? i.file := by
  obtain ⟨hprinted, hsaved, s, hcreated⟩ :=
    h.append_runAt hapart hfs paces happend hheld hold hsize hexit
  dsimp only
  refine ⟨?_, ?_, fun j preview hsame hdump => ?_⟩
  · rw [hsaved.file, Frame.encodeRun_append, Int.zero_add]
  · rw [List.length_map]
    exact hprinted
  · obtain ⟨name, hname, t, hcreate⟩ := hcreated.again hsame _
    obtain ⟨hreport, hafter⟩ :=
      (hsaved.congr hsame).run_dump (hapart.congr hsame) hdump hname hcreate
    refine ⟨hreport, ?_⟩
    rw [hsaved.file, ← hsame]
    exact hafter.file

end Invocation

/-! ## The tool -/

/-- After an append that succeeded, at whatever pace the appender worked, the log is the old bytes and
behind them a frame for each word, and the positions of the new records are told. A dump then lists the
old records and the new ones, and leaves the log. No file reaches 2^63 bytes. -/
theorem append_then_dump {arguments words : List String} {i : Invocation} {timeout : Nat}
    {fs : FileSystem} {old : List Bytes} (harguments : Request.read arguments = .ok (.run i))
    (happend : i.order = .append words timeout) (hapart : i.Apart) (hleft : i.Left fs)
    (paces : Nat → LogStream.WritePace)
    (hheld : i.held fs = Frame.encodeRun 0 old) (hold : ∀ x ∈ old, x ≠ [] ∧ x.length < 2 ^ 32)
    (hsize : (Frame.encodeRun 0 (old ++ words.map Bytes.ofText)).length < 2 ^ 63)
    (hexit : (runToolAt paces arguments fs).1.exitCode = 0) :
    let appending := runToolAt paces arguments fs
    let new := words.map Bytes.ofText
    appending.2.read? i.file
        = some (Frame.encodeRun 0 old ++ Frame.encodeRun (Frame.span old) new) ∧
      appending.1.printed
        = appended new.length (Frame.span old) (Frame.span (old ++ new)) ++ "\n" ∧
      ∀ (others : List String) (j : Invocation) (preview : Nat),
        Request.read others = .ok (.run j) → j.file = i.file → j.order = .dump none preview →
        (runTool others appending.2).1
            = { printed := printout (listing preview (Frame.recordsOf 0 0 (old ++ new))) } ∧
          (runTool others appending.2).2.read? i.file = appending.2.read? i.file := by
  obtain ⟨htidy, hstanding⟩ := hleft.standing hapart
  rw [runToolAt_of_read paces harguments] at hexit
  have hsucceeded : (i.runAt paces fs).1.failure = none := by
    rw [Report.exitCode] at hexit
    split at hexit
    · assumption
    · simp at hexit
    · simp at hexit
  obtain ⟨hfile, hprinted, hdumps⟩ :=
    hstanding.append_runAt_dump hapart htidy paces happend hheld hold hsize hsucceeded
  dsimp only
  rw [runToolAt_of_read paces harguments]
  refine ⟨hfile, hprinted, fun others j preview hothers hsame hdump => ?_⟩
  have hdumping : ∀ fs, runTool others fs = j.run fs := fun fs => by rw [runTool, hothers]
  rw [hdumping]
  exact hdumps j preview hsame hdump

theorem find_of_noFiles (path : String) (n : Nat) : FileSystem.find {} path ≠ .ok n := by
  intro h
  obtain ⟨key, -, he, -⟩ := FileSystem.find_eq_ok_iff.1 h
  rw [FileSystem.entry?] at he
  split at he <;> simp at he

/-- An appender that drains the first record while the second one is filled in, and the others when
the stream is closed. -/
def lazyPace (number : Nat) : LogStream.WritePace :=
  { filling := if number = 1 then [.cycle] else [] }

theorem append_then_dump_afterAppend :
    let earlier := runToolAt (fun _ => {}) ["-f", "./x.log", "append", "a", "bc"] {}
    let appending := runToolAt lazyPace ["-f", "./x.log", "append", "def", "g", "hi"] earlier.2
    appending.2.read? "./x.log"
        = some (Frame.encodeRun 0 [[97], [98, 99], [100, 101, 102], [103], [104, 105]]) ∧
      appending.1.printed = "appended 3 records at positions [3, 9)\n" ∧
      (runTool ["-f", "./x.log", "dump"] appending.2).1
        = { printed := "    position       address    length  payload\n"
              ++ "           0             0         1  a\n"
              ++ "           1            17         2  bc\n"
              ++ "           3            35         3  def\n"
              ++ "           6            54         1  g\n"
              ++ "           7            71         2  hi\n" ++ "5 records\n" } := by
  let k : Invocation := ⟨"./x.log", 1, .append ["a", "bc"] 1000⟩
  let i : Invocation := ⟨"./x.log", 1, .append ["def", "g", "hi"] 1000⟩
  let j : Invocation := ⟨"./x.log", 1, .dump none 32⟩
  have hearlier : Request.read ["-f", "./x.log", "append", "a", "bc"] = .ok (.run k) := by
    decide +kernel
  have happend : Request.read ["-f", "./x.log", "append", "def", "g", "hi"] = .ok (.run i) := by
    decide +kernel
  have hdump : Request.read ["-f", "./x.log", "dump"] = .ok (.run j) := by decide +kernel
  have hstart : i.Left {} := by
    refine .start FileSystem.tidy_empty (fun path _ n => ?_) ?_
    · rw [show i.prepared {} = {} by decide +kernel]
      exact find_of_noFiles path n
    · rw [show i.held {} = [] by decide +kernel]
      exact fun r hr => by simp at hr
  have hapart : i.Apart := by decide +kernel
  have hfile : k.file = i.file := rfl
  -- the earlier append leaves a log that is saved
  have hstanding : k.Standing (k.prepared {}) := (hstart.standing hapart).2.congr hfile
  obtain ⟨-, hsaved, s, hcreated⟩ := hstanding.append_runAt hapart FileSystem.tidy_empty
    (fun _ => {}) rfl (show k.held {} = Frame.encodeRun 0 [] by decide +kernel) (by decide)
    (by decide +kernel) (by decide +kernel)
  have hsaved : i.Saved (k.runAt (fun _ => {}) {}).2 [[97], [98, 99]] := by
    rw [show [] ++ ["a", "bc"].map Bytes.ofText = [[97], [98, 99]] by decide +kernel] at hsaved
    exact hsaved.congr hfile.symm
  have hleft : i.Left (k.runAt (fun _ => {}) {}).2 :=
    hstart.run _ rfl (by rw [hsaved.held]; decide +kernel)
  -- so the other one succeeds
  obtain ⟨name, hname, t, hcreate⟩ := hcreated.again (j := i) rfl
    { medium := .file i.file none, files := (k.runAt (fun _ => {}) {}).2 }
  obtain rfl : name = "x" := by
    rw [show Path.fileStem? i.file = some "x" by decide +kernel, Option.some.injEq] at hname
    exact hname.symm
  have hsucceeded : (i.runAt lazyPace (k.runAt (fun _ => {}) {}).2).1.failure = none :=
    hsaved.append_succeeds hapart lazyPace rfl (by decide) hname hcreate (by decide +kernel)
      (by decide +kernel) (by decide +kernel)
  have hexit : (runToolAt lazyPace ["-f", "./x.log", "append", "def", "g", "hi"]
      (k.runAt (fun _ => {}) {}).2).1.exitCode = 0 := by
    rw [runToolAt_of_read _ happend, Report.exitCode, hsucceeded]
  dsimp only
  rw [runToolAt_of_read _ hearlier]
  obtain ⟨hlog, hprinted, hdumps⟩ := append_then_dump happend rfl hapart hleft lazyPace hsaved.held
    (by decide) (by decide +kernel) hexit
  exact ⟨hlog.trans (by decide +kernel), hprinted.trans (by decide +kernel),
    (hdumps _ j 32 hdump rfl rfl).1.trans (by decide +kernel)⟩

/-- Where the log has the name of its snapshot, closing it saves the index over the records. -/
theorem append_saves_over_log :
    (runTool ["-f", "./x.idx", "append", "a"] {}).1.exitCode = 0 ∧
      (runTool ["-f", "./x.idx", "append", "a"] {}).2.read? "./x.idx"
        ≠ some (Frame.encode 0 [97]) := by
  decide +kernel

end PartitionLog.CommandLine
