import PartitionLog.Proofs.ToolStreams

/-!
# The course of an invocation

An invocation makes the directory of the log file (`prepared`), opens a stream over the file, carries
out its order and closes the stream; `runTask_ends` tells where it can end, whatever it is to do with
the stream. The snapshot lies beside the log file, and can be neither written nor drafted into it
unless the log file has a snapshot's name (`Apart.misses`).
-/

namespace PartitionLog.CommandLine

namespace Invocation

variable {i : Invocation} {fs after : FileSystem} {name : String}

/-- The index snapshot is not the log file. It would be if the log file had the extension of snapshots,
in a directory. -/
def Apart (i : Invocation) : Prop := Path.extension? i.file = some "idx" → i.directory? = none

instance (i : Invocation) : Decidable i.Apart := by
  unfold Apart; infer_instance

/-- Where the index snapshot lies, if there is to be one. -/
def snapshot? (i : Invocation) : Option String :=
  (Path.fileStem? i.file).bind fun name => (i.config name).snapshotPath

/-- The files once the directory of the log is made. -/
def prepared (i : Invocation) (fs : FileSystem) : FileSystem :=
  match i.directory? with
  | none => fs
  | some directory => (fs.makeDirectories directory).2

theorem parent_of_directory {directory : String} (h : i.directory? = some directory) :
    Path.parent? i.file = some directory ∧ directory ≠ "" := by
  obtain ⟨hparent, hsome⟩ := Option.filter_eq_some_iff.1 h
  exact ⟨hparent, by simpa using hsome⟩

/-- Whether the directory of the log can be made. -/
def making (i : Invocation) (fs : FileSystem) : Except SystemFault Unit :=
  match i.directory? with
  | none => .ok ()
  | some directory => (fs.makeDirectories directory).1

/-- The stream is created once the directory is made. -/
theorem stream_eq (i : Invocation) (name : String) (fs : FileSystem) :
    i.stream name fs = (match i.making fs with
      | .error e => .error (.io (.system e))
      | .ok () => LogStream.create (i.config name)
          { medium := .file i.file none, files := i.prepared fs }, i.prepared fs) := by
  have hcreate : ∀ made : FileSystem, Attempt.run (do
      Attempt.ofExcept (LogStream.create (i.config name)
        { medium := .file i.file none, files := ← Attempt.get })) made
        = (LogStream.create (i.config name) { medium := .file i.file none, files := made }, made) :=
    fun made => by rw [Attempt.run_bind_ok (Attempt.run_get made), Reading.run_ofExcept]
  unfold stream prepared making
  cases hdirectory : i.directory? with
  | none => exact hcreate fs
  | some directory =>
    dsimp only
    generalize hmade : fs.makeDirectories directory = result
    obtain ⟨outcome, made⟩ := result
    cases outcome with
    | error e => simp only [bind, Attempt.bind, hmade, Prod.map, Except.mapError]; rfl
    | ok done =>
      simp only [bind, Attempt.bind, hmade, Prod.map, Except.mapError]
      exact hcreate made

/-! ## The directory of the log -/

/-- The directory of the log is there. -/
structure Made (i : Invocation) (fs : FileSystem) : Prop where
  making : i.making fs = .ok ()
  prepared : i.prepared fs = fs

theorem prepared_spares (h : fs.Tidy) (key : List String) :
    FileSystem.Spares key fs (i.prepared fs) := by
  unfold prepared
  split
  · exact .refl h key
  · exact (FileSystem.makeDirectories_spares h key rfl).1

/-- Preparing the files again ends as it did before, and changes nothing. -/
theorem prepared_again (h : fs.Tidy) : i.making (i.prepared fs) = i.making fs ∧
    i.prepared (i.prepared fs) = i.prepared fs := by
  unfold making prepared
  cases hdirectory : i.directory? with
  | none => exact ⟨rfl, rfl⟩
  | some directory =>
    have hagain := FileSystem.makeDirectories_again h (Prod.eta (fs.makeDirectories directory)).symm
    exact ⟨congrArg Prod.fst hagain, congrArg Prod.snd hagain⟩

theorem made_prepared (h : fs.Tidy) (hmaking : i.making fs = .ok ()) : i.Made (i.prepared fs) :=
  ⟨(prepared_again h).1.trans hmaking, (prepared_again h).2⟩

theorem Made.directory (h : i.Made fs) {directory : String}
    (hdirectory : i.directory? = some directory) : fs.makeDirectories directory = (.ok (), fs) := by
  obtain ⟨hmaking, hprepared⟩ := h
  simp only [Invocation.making, Invocation.prepared, hdirectory] at hmaking hprepared
  exact Prod.ext hmaking hprepared

/-- The directory of the log stays while directories stay. -/
theorem Made.mono (h : i.Made fs) (hfs : fs.Tidy) (hkeeps : fs.KeepsDirectories after) :
    i.Made after := by
  cases hdirectory : i.directory? with
  | none => exact ⟨by simp [Invocation.making, hdirectory], by simp [Invocation.prepared, hdirectory]⟩
  | some directory =>
    have hagain : after.makeDirectories directory = (.ok (), after) :=
      (FileSystem.makeDirectories_spares hfs [] (h.directory hdirectory)).2 rfl after hkeeps
    exact ⟨by simp [Invocation.making, hdirectory, hagain],
      by simp [Invocation.prepared, hdirectory, hagain]⟩

theorem Made.makeParent_file (h : i.Made fs) : fs.makeParent i.file = (.ok (), fs) := by
  unfold FileSystem.makeParent
  split
  · rfl
  · next above habove =>
    cases hdirectory : i.directory? with
    | some directory =>
      obtain rfl : directory = above := by
        have hparent := (parent_of_directory hdirectory).1
        rw [habove, Option.some.injEq] at hparent
        exact hparent.symm
      exact h.directory hdirectory
    | none =>
      -- the path tells the working directory, which is there
      obtain rfl : above = "" := by
        rw [directory?, habove, Option.filter_eq_none_iff] at hdirectory
        simpa using hdirectory above rfl
      rfl

/-- The snapshot lies in the directory of the log. -/
theorem snapshot_cases {path : String} (h : i.snapshot? = some path) :
    ∃ name directory, Path.fileName? i.file = some name ∧ i.directory? = some directory ∧
      path = Path.join directory (Path.stem name ++ ".idx") := by
  obtain ⟨stem, hstem, hconfig⟩ := Option.bind_eq_some_iff.1 h
  obtain ⟨name, hname, rfl⟩ := Option.map_eq_some_iff.1 hstem
  obtain ⟨directory, hdata, rfl⟩ := Option.map_eq_some_iff.1 hconfig
  exact ⟨name, directory, hname, hdata, rfl⟩

theorem plain_fileName {path name : String} (h : Path.fileName? path = some name) :
    Path.IsPart name := by
  obtain ⟨hparts, -⟩ := Path.fileName?_eq_some_iff.1 h
  exact Path.isPart_of_mem (List.mem_of_getLast? hparts)

theorem Made.makeParent_snapshot (h : i.Made fs) {path : String} (hpath : i.snapshot? = some path) :
    (fs.makeParent path).2 = fs := by
  obtain ⟨name, directory, hname, hdirectory, rfl⟩ := snapshot_cases hpath
  have hsome := (parent_of_directory hdirectory).2
  have hplain := Path.plain_stem (plain_fileName hname).plain
  unfold FileSystem.makeParent
  split
  · rfl
  · next above habove =>
    obtain ⟨hparts, habsolute⟩ := Path.parts_parent habove
    have hsame : Path.parts above = Path.parts directory := by
      rw [hparts, Path.parts_join hsome (Path.isPart_append hplain (by simp) (by decide))]
      simp
    have horigin : FileSystem.origin above = FileSystem.origin directory := by
      rw [FileSystem.origin, FileSystem.origin, habsolute,
        Path.isAbsolute_join hsome (by simp [hplain])]
    have hthere := h.directory hdirectory
    unfold FileSystem.makeDirectories at hthere ⊢
    split at hthere
    · simp at hthere
    · split
      · rfl
      · rw [hsame, horigin, hthere]

/-- A draft of the snapshot cannot be written to the snapshot. -/
theorem draft_misses {path : String} {key : List String} (hpath : i.snapshot? = some path)
    (hkey : fs.resolve (BlockIndex.Snapshot.draftPath path) = .ok key)
    (hfile : Path.namesDirectory (BlockIndex.Snapshot.draftPath path) = false) :
    FileSystem.Misses path key := by
  obtain ⟨name, directory, hname, hdirectory, rfl⟩ := snapshot_cases hpath
  have hsome := (parent_of_directory hdirectory).2
  have hpart := plain_fileName hname
  have hplain := Path.plain_stem hpart.plain
  rcases Path.draft_cases hsome (Path.stem_ne_empty hpart.some) hplain with hdraft | hdraft
  · have hlast := FileSystem.getLast?_of_resolve hkey hdraft (Path.append_ne_above (by decide))
    refine FileSystem.misses_of_name hlast (Path.getLast?_parts_snapshot hsome hplain)
      (Path.append_ne_above (by decide)) fun heq => ?_
    have hlength := congrArg String.length heq
    rw [String.length_append, String.length_append] at hlength
    exact absurd (Nat.add_left_cancel hlength) (by decide)
  · rw [hdraft] at hfile
    simp at hfile

/-- Where a log file is, its directory is prepared, and stays so while directories stay. -/
theorem prepared_of_find {n : Nat} (h : fs.find i.file = .ok n)
    (hkeeps : fs.KeepsDirectories after) : i.prepared after = after := by
  unfold prepared
  split
  · rfl
  · next directory hdirectory =>
    exact FileSystem.makeDirectories_of_find (parent_of_directory hdirectory).1 h hkeeps

/-- Neither the snapshot nor its draft can be written to the log file. -/
theorem Apart.misses (h : i.Apart) {key : List String} {path : String}
    (hkey : fs.resolve i.file = .ok key) (hpath : i.snapshot? = some path) :
    FileSystem.Misses path key ∧
      FileSystem.Misses (BlockIndex.Snapshot.draftPath path) key := by
  obtain ⟨name, directory, hname, hdirectory, rfl⟩ := snapshot_cases hpath
  obtain ⟨hparts, habove⟩ := Path.fileName?_eq_some_iff.1 hname
  have hpart := plain_fileName hname
  have hlast := FileSystem.getLast?_of_resolve hkey hparts habove
  have hsome : directory ≠ "" := (parent_of_directory hdirectory).2
  have hplain := Path.plain_stem hpart.plain
  have hextension : Path.extension? i.file ≠ some "idx" := fun hidx => by
    rw [h hidx] at hdirectory
    simp at hdirectory
  refine ⟨FileSystem.misses_of_name hlast (Path.getLast?_parts_snapshot hsome hplain)
    (Path.append_ne_above (by decide)) (Path.snapshot_ne hname hextension), ?_⟩
  rcases Path.draft_cases hsome (Path.stem_ne_empty hpart.some) hplain with hdraft | hdraft
  · exact FileSystem.misses_of_name hlast hdraft (Path.append_ne_above (by decide))
      (Path.draft_ne hname)
  · exact .inl hdraft

/-! ## Where it ends -/

/-- The stream of an invocation, before it is opened. -/
structure Created (i : Invocation) (fs : FileSystem) (s : LogStream) : Prop where
  made : i.making fs = .ok ()
  created : ∃ name, Path.fileStem? i.file = some name ∧
    LogStream.create (i.config name) { medium := .file i.file none, files := i.prepared fs } = .ok s
  unused : s.Unused
  storage : s.storage = { medium := .file i.file none, files := i.prepared fs }
  snapshotPath : s.appender.log.sampling.snapshotPath = i.snapshot?
  index : s.appender.log.index = .empty
  disabled : s.config.appenderDisabled = !i.order.writes
  commit : s.commit = -1
  buffer : s.buffer.slots = [] ∧ s.buffer.outstanding = 0 ∧ s.buffer.maxFragment < 2 ^ 32

theorem Created.closedAt {s : LogStream} (h : i.Created fs s) (hfs : (i.prepared fs).Tidy) :
    s.storage.ClosedAt i.file ∧ s.storage.files = i.prepared fs := by
  rw [h.storage]
  exact ⟨⟨rfl, hfs, fun _ _ => rfl⟩, rfl⟩

/-- Why a task failed, if it did. -/
def reason? : Except LogError Unit → Option Failure
  | .ok () => none
  | .error e => some (.log e)

/-- The ends of an invocation with a task, with the report and the files that it leaves there. -/
inductive Ends (i : Invocation) (task : Attempt Console Unit) (fs : FileSystem) :
    Report → FileSystem → Prop
  | unnamed {e : Failure} (unnamed : Path.fileStem? i.file = none) :
      Ends i task fs { failure := some e } fs
  | uncreated {e : Failure} {name : String} (named : Path.fileStem? i.file = some name)
      (uncreated : ∀ s, (i.stream name fs).1 ≠ .ok s) :
      Ends i task fs { failure := some e } (i.prepared fs)
  | unopened {s : LogStream} {e : LogError} {u : Storage} (created : i.Created fs s)
      (opening : Storage.openUp.run s.storage = (.error e, u)) :
      Ends i task fs { failure := some (.log e) } u.files
  | unrecovered {s : LogStream} {u : Storage} {e : LogError} {log : IndexedLog}
      (created : i.Created fs s) (opening : Storage.openUp.run s.storage = (.ok (), u))
      (recovery : (IndexedLog.recover (-1)).run { s.appender.log with storage := u }
        = (.error e, log)) :
      Ends i task fs { failure := some (.log e) } log.storage.files
  | performed {s : LogStream} {u : Storage} {found : Recovered} {log : IndexedLog}
      {outcome : Except LogError Unit} {console : Console}
      (created : i.Created fs s) (opening : Storage.openUp.run s.storage = (.ok (), u))
      (recovery : (IndexedLog.recover (-1)).run { s.appender.log with storage := u }
        = (.ok found, log))
      (performance : task.run { stream := s.launched log found.nextPosition } = (outcome, console)) :
      Ends i task fs ⟨console.printed, reason? outcome⟩ console.stream.closeStream.2.storage.files

theorem created_of_create {s : LogStream} (hname : Path.fileStem? i.file = some name)
    (hmade : i.making fs = .ok ()) (h : LogStream.create (i.config name)
      { medium := .file i.file none, files := i.prepared fs } = .ok s) : i.Created fs s := by
  obtain ⟨hunused, hstorage, hsnapshot, hindex, hconfig, hcommit, hbuffer⟩ := LogStream.create_ok h
  refine ⟨hmade, ⟨name, hname, h⟩, hunused, hstorage, ?_, hindex, by rw [hconfig]; rfl, hcommit, ?_⟩
  · rw [hsnapshot, snapshot?, hname]
    rfl
  · rw [hbuffer]
    refine ⟨rfl, rfl, ?_⟩
    show min (16 * 1024 * 1024) (4 * 1024 * 1024) - Frame.headerLength < 2 ^ 32
    decide

theorem runTask_ends (i : Invocation) (task : Attempt Console Unit) (fs : FileSystem) :
    i.Ends task fs (i.runTask task fs).1 (i.runTask task fs).2 := by
  unfold runTask
  split
  · next hname => exact .unnamed hname
  · next name hname =>
    split
    · next e files hstream =>
      obtain rfl : i.prepared fs = files := by
        rw [stream_eq, Prod.mk.injEq] at hstream
        exact hstream.2
      exact .uncreated hname fun s hs => by rw [hstream] at hs; simp at hs
    · next s files hstream =>
      have hcreated : i.Created fs s := by
        rw [stream_eq, Prod.mk.injEq] at hstream
        obtain ⟨hcreate, -⟩ := hstream
        split at hcreate
        · simp at hcreate
        · next hmade => exact created_of_create hname hmade hcreate
      have hclosed : s.storage.isOpen = false := by rw [hcreated.storage]; rfl
      dsimp only
      rw [Attempt.run_bind, run_onStream]
      generalize hopen : LogStream.openStream.run s = opened
      obtain ⟨r, t⟩ := opened
      obtain ⟨e, u, hu, rfl, hstate, hleft, -⟩ | ⟨u, hu, hopened⟩ :=
        LogStream.openStream_cases hcreated.unused hclosed hopen
      · dsimp only
        rw [LogStream.closeStream_of_closed hstate, hleft, Storage.close_files]
        exact .unopened hcreated hu
      · rw [hcreated.commit] at hopened
        rcases hopened with ⟨e, log, hrecover, rfl, hstate, hleft, -⟩ |
          ⟨found, log, hrecover, rfl, rfl⟩
        · dsimp only
          rw [LogStream.closeStream_of_closed hstate, hleft, Storage.close_files]
          exact .unrecovered hcreated hu hrecover
        · dsimp only
          generalize hperform : task.run { stream := s.launched log found.nextPosition } = performed
          obtain ⟨outcome, console⟩ := performed
          cases outcome with
          | ok => exact .performed hcreated hu hrecover hperform
          | error e => exact .performed hcreated hu hrecover hperform

theorem run_ends (i : Invocation) (fs : FileSystem) :
    i.Ends i.order.perform fs (i.run fs).1 (i.run fs).2 := i.runTask_ends i.order.perform fs

end Invocation

end PartitionLog.CommandLine
