import PartitionLog.CommandLine
import PartitionLog.Proofs.Handlers
import PartitionLog.Proofs.LogFiles

/-!
# The stream of an invocation

An invocation works on a stream of its own, which nothing has used before (`Unused`). Opening it opens
the file, recovers the log and starts the appender, and where one of these fails the file is closed
again (`openStream_cases`). Closing an open stream stops the appender, saves the index and closes the
file, whatever fails on the way (`closeStream_files`).
-/

namespace PartitionLog

namespace LogStream

variable {s t : LogStream}

/-- A stream on which nothing has been done. -/
structure Unused (s : LogStream) : Prop where
  state : s.state = .closed
  isRunning : s.appender.isRunning = false
  phase : s.appender.phase = .closed
  stale : s.appender.staleBlock = none
  failedBefore : s.appender.failedBefore = false

theorem create_ok {config : LogConfig} {storage : Storage} (h : create config storage = .ok s) :
    s.Unused ∧ s.storage = storage ∧ s.appender.log.sampling.snapshotPath = config.snapshotPath ∧
      s.appender.log.index = .empty ∧ s.config = config ∧ s.commit = -1 ∧
      s.buffer = ⟨config.writeBufferSize, config.maxFragment, [], 0, 0, 0, 0, false, false⟩ := by
  unfold create WriteBuffer.create at h
  simp only [bind, Except.bind, pure, Except.pure] at h
  split at h
  · simp at h
  · split at h
    · simp at h
    · next hbuffer =>
      split at hbuffer
      · simp at hbuffer
      · simp only [Except.ok.injEq] at h hbuffer
        subst h hbuffer
        exact ⟨⟨rfl, rfl, rfl, rfl, rfl⟩, rfl, rfl, rfl, rfl, rfl, rfl⟩

/-- Where a stream was created, another one can be with the same sizes. -/
theorem create_alike {config other : LogConfig} {storage place : Storage}
    (h : create config storage = .ok s) (hvalid : other.validate = config.validate)
    (hsize : other.writeBufferSize = config.writeBufferSize)
    (hmax : other.maxFragment = config.maxFragment) : ∃ t, create other place = .ok t := by
  unfold create at h ⊢
  rw [hvalid, hsize, hmax]
  cases hvalidated : config.validate with
  | error e => simp [hvalidated, bind, Except.bind] at h
  | ok done =>
    cases hbuffer : WriteBuffer.create config.writeBufferSize config.maxFragment with
    | error e => simp [hvalidated, hbuffer, bind, Except.bind] at h
    | ok buffer => exact ⟨_, rfl⟩

/-- A stream over a recovered log, the next record of which gets `position`. -/
def launched (s : LogStream) (log : IndexedLog) (position : Int) : LogStream :=
  { s with
    state := .opened
    appender := { s.appender with
      log := log
      buffer := s.buffer.reopen
      nextPosition := position
      phase := if s.config.appenderDisabled then .closed else .draining
      isRunning := !s.config.appenderDisabled
      isFresh := if s.config.appenderDisabled then s.appender.isFresh else true } }

theorem discardStale_of_none {a : Appender} (h : a.staleBlock = none) :
    Appender.discardStale.run a = (.ok (), a) := by
  unfold Attempt.run Appender.discardStale
  simp only [h]

theorem run_onAppender {α : Type} {x : Attempt Appender α} {r : Except LogError α} {a : Appender}
    (h : x.run s.appender = (r, a)) : (onAppender x).run s = (r, { s with appender := a }) := by
  unfold Attempt.run at h
  simp only [Attempt.run, onAppender, Attempt.within, h]

theorem run_onLog {α : Type} {x : Attempt IndexedLog α} {r : Except LogError α} {a : Appender}
    {log : IndexedLog} (h : x.run a.log = (r, log)) :
    (Appender.onLog x).run a = (r, { a with log := log }) := by
  unfold Attempt.run at h
  simp only [Attempt.run, Appender.onLog, Attempt.within, h]

/-- Once the log is recovered, nothing keeps a stream that was not used from starting. -/
theorem takeOff_unused {a : Appender} (position : Int) (hrests : a.isRunning = false)
    (hphase : a.phase = .closed) (hstale : a.staleBlock = none) (hfailed : a.failedBefore = false) :
    (takeOff position).run { s with appender := a }
      = (.ok (), { (launched { s with appender := a } a.log position) with state := s.state }) := by
  obtain ⟨log, buffer, listeners, maxBlock, sync, next, unflushed, phase, running, fresh, failed,
    stale⟩ := a
  dsimp only at hrests hphase hstale hfailed
  subst hrests hphase hstale hfailed
  rw [takeOff, Attempt.run_bind_ok (run_moveTo rfl position),
    Attempt.run_bind_ok (Attempt.run_modify _ _), Attempt.run_bind_ok (Attempt.run_get _)]
  split
  · next henabled =>
    have hdisabled : s.config.appenderDisabled = false := by
      simpa using (show (!s.config.appenderDisabled) = true from henabled)
    simp only [launched, hdisabled]
    rfl
  · next henabled =>
    have hdisabled : s.config.appenderDisabled = true := by
      simpa using (show ¬ (!s.config.appenderDisabled) = true from henabled)
    simp only [launched, hdisabled]
    rfl

/-- Opening an unused stream fails with the storage's open or with the recovery, and closes the
storage again, or launches the stream on the recovered log. -/
theorem openStream_cases {r : Except LogError Unit} (h : s.Unused) (hclosed : s.storage.isOpen = false)
    (ho : openStream.run s = (r, t)) :
    (∃ e u, Storage.openUp.run s.storage = (.error e, u) ∧ r = .error e ∧ t.state = .closed ∧
      t.storage = (Storage.close.run u).2 ∧ t.index = s.index) ∨
    ∃ u, Storage.openUp.run s.storage = (.ok (), u) ∧
      ((∃ e log, (IndexedLog.recover s.commit).run { s.appender.log with storage := u }
          = (.error e, log) ∧ r = .error e ∧ t.state = .closed ∧
          t.storage = (Storage.close.run log.storage).2 ∧ t.index = log.index) ∨
        ∃ found log, (IndexedLog.recover s.commit).run { s.appender.log with storage := u }
          = (.ok found, log) ∧ r = .ok () ∧ t = s.launched log found.nextPosition) := by
  have hclose : ∀ v : LogStream, v.appender.isRunning = false →
      (v.withAppender Appender.stop).closeStorage.2.state = .closed ∧
        (v.withAppender Appender.stop).closeStorage.2.storage = (Storage.close.run v.storage).2 ∧
        (v.withAppender Appender.stop).closeStorage.2.index = v.index := by
    intro v hrests
    have hstop : (Appender.stop v.appender).log = v.appender.log := by
      simp [Appender.stop, Appender.isLive, hrests]
    refine ⟨rfl, ?_, ?_⟩
    · show (Storage.close.run (Appender.stop v.appender).log.storage).2 = _
      rw [hstop]
      rfl
    · show (Appender.stop v.appender).log.index = _
      rw [hstop]
      rfl
  unfold Attempt.run openStream at ho
  rw [if_neg (by rw [h.state]; simp), Attempt.run_bind] at ho
  generalize hopen : openStorage.run { s with state := .opening } = opened at ho
  obtain ⟨outcome, v⟩ := opened
  have hstorage : (onStorage Storage.openUp).run { s with state := .opening } = (outcome, v) := by
    unfold Attempt.run openStorage at hopen
    rwa [if_neg (by simpa [storage] using hclosed)] at hopen
  obtain ⟨u, hu, rfl⟩ := onStorage_cases hstorage
  cases outcome with
  | error e =>
    simp only [Prod.mk.injEq] at ho
    obtain ⟨rfl, rfl⟩ := ho
    exact .inl ⟨e, u, hu, rfl, hclose _ h.isRunning⟩
  | ok done =>
    refine .inr ⟨u, hu, ?_⟩
    dsimp only at ho
    have hstale : (LogStream.withStorage { s with state := .opening } u).appender.staleBlock
        = none := h.stale
    rw [startUp, Attempt.run_bind_ok (run_onAppender (discardStale_of_none hstale)),
      Attempt.run_bind_ok (Attempt.run_get _), Attempt.run_bind] at ho
    generalize hrecover : (IndexedLog.recover s.commit).run { s.appender.log with storage := u }
      = recovered at ho
    obtain ⟨answer, log⟩ := recovered
    have hlog : (onAppender (Appender.onLog (IndexedLog.recover
        (LogStream.withStorage { s with state := .opening } u).commit))).run
        (LogStream.withStorage { s with state := .opening } u)
          = (answer, { s with state := .opening, appender := { s.appender with log := log } }) :=
      run_onAppender (run_onLog hrecover)
    rw [hlog] at ho
    cases answer with
    | error e =>
      simp only [Prod.mk.injEq] at ho
      obtain ⟨rfl, rfl⟩ := ho
      exact .inl ⟨e, log, rfl, rfl, hclose _ h.isRunning⟩
    | ok found =>
      have htakeOff := takeOff_unused (s := { s with state := .opening })
        (a := { s.appender with log := log }) found.nextPosition h.isRunning h.phase h.stale
        h.failedBefore
      rw [takeOff] at htakeOff
      dsimp only at ho htakeOff
      rw [htakeOff] at ho
      simp only [Prod.mk.injEq] at ho
      obtain ⟨rfl, rfl⟩ := ho
      exact .inr ⟨found, log, rfl, rfl, rfl⟩

/-! ## Closing -/

theorem closeStream_of_closed (h : s.state = .closed) : s.closeStream = (.ok (), s) := by
  unfold closeStream
  rw [if_pos h]

/-- Closing a stream whose appender does not run saves the index and leaves the files so. -/
theorem closeStream_files (hstate : s.state ≠ .closed) (hrests : s.appender.isRunning = false) :
    s.closeStream.2.state = .closed ∧
      s.closeStream.2.storage.files = (IndexedLog.persist.run s.appender.log).2.storage.files := by
  have hstop : (Appender.stop { s.appender with buffer := s.appender.buffer.shut }).log
      = s.appender.log := by
    simp [Appender.stop, Appender.isLive, hrests]
  unfold closeStream
  rw [if_neg hstate]
  refine ⟨rfl, ?_⟩
  refine (Storage.close_files _).trans ?_
  show (IndexedLog.persist.run
    (Appender.stop { s.appender with buffer := s.appender.buffer.shut }).log).2.storage.files = _
  rw [hstop]

/-- Closing a stream whose appender does not run leaves the log file as it is, if the snapshot is
elsewhere. -/
theorem closeStream_keeps {path : String} {number : Nat} {key : List String}
    (hstate : s.state ≠ .closed) (hrests : s.appender.isRunning = false)
    (hat : s.storage.OpenAt path number) (hkey : s.storage.files.resolve path = .ok key)
    (hmiss : ∀ snapshot, s.appender.log.sampling.snapshotPath = some snapshot →
      FileSystem.Misses snapshot key ∧
        FileSystem.Misses (BlockIndex.Snapshot.draftPath snapshot) key) :
    s.closeStream.2.storage.files.read? path = some s.storage.stored := by
  generalize hpersist : IndexedLog.persist.run s.appender.log = result
  obtain ⟨r, log⟩ := result
  obtain ⟨hopen, hstored⟩ := IndexedLog.persist_keeps hat hkey hmiss hpersist
  have hfiles := (closeStream_files hstate hrests).2
  rw [hpersist] at hfiles
  rw [hfiles, hopen.placed.1.read?, ← hopen.placed.2, hstored]
  rfl

/-! ## Reading -/

/-- A dump reads, and changes nothing else in the stream. -/
theorem recordsFrom_reads {start : Option Int} {r : Except LogError (List Record × Option LogError)}
    (h : (recordsFrom start).run s = (r, t)) :
    ∃ u, s.storage.ReadAlike u ∧ t = s.withStorage u := by
  have hcollect : ∀ rs : Reading, rs.storage.ReadAlike rs.collect.2.storage := fun rs =>
    Reading.collectFrom_readAlike _ _ rfl
  unfold Attempt.run recordsFrom at h
  cases start with
  | none =>
    simp only [Prod.mk.injEq] at h
    obtain ⟨-, rfl⟩ := h
    exact ⟨_, hcollect (s.reading s.newReader), rfl⟩
  | some position =>
    dsimp only at h
    generalize hseek : (Reading.seek s.index position).run (s.reading s.newReader) = sought at h
    obtain ⟨found, rs⟩ := sought
    have hsought : s.storage.ReadAlike rs.storage := Reading.seekFrom_readAlike _ _ _ hseek
    cases found with
    | error e =>
      simp only [Prod.mk.injEq] at h
      obtain ⟨-, rfl⟩ := h
      exact ⟨_, hsought, rfl⟩
    | ok found =>
      simp only [Prod.mk.injEq] at h
      obtain ⟨-, rfl⟩ := h
      exact ⟨_, hsought.trans (hcollect rs), rfl⟩

end LogStream

namespace CommandLine

variable {c d : Console}

theorem run_onStream {α : Type} (x : Attempt LogStream α) (c : Console) :
    (onStream x).run c = ((x.run c.stream).1, { c with stream := (x.run c.stream).2 }) := rfl

theorem run_say (line : String) (c : Console) :
    (say line).run c = (.ok (), { c with printed := c.printed ++ line ++ "\n" }) := rfl

/-- Lines that are said one after the other. -/
theorem run_forM_say {α : Type} (line : α → String) (xs : List α) (c : Console) :
    (xs.forM fun x => say (line x)).run c
      = (.ok (), { c with printed := xs.foldl (fun text x => text ++ line x ++ "\n") c.printed }) := by
  induction xs generalizing c with
  | nil => rfl
  | cons x rest ih =>
    show (do say (line x); rest.forM fun x => say (line x) : Attempt Console Unit).run c = _
    rw [Attempt.run_bind_ok (run_say (line x) c), ih]
    rfl

/-- After a dump the stream has been read, and it may be closed. -/
theorem dump_stream {start : Option Int} {preview : Nat} {r : Except LogError Unit}
    (h : (dump start preview).run c = (r, d)) :
    ∃ u, c.stream.storage.ReadAlike u ∧ (d.stream = c.stream.withStorage u ∨
      d.stream = (c.stream.withStorage u).closeStream.2) := by
  rw [dump, Attempt.run_bind, run_onStream] at h
  generalize hread : (LogStream.recordsFrom start).run c.stream = answer at h
  obtain ⟨outcome, t⟩ := answer
  obtain ⟨u, halike, rfl⟩ := LogStream.recordsFrom_reads hread
  refine ⟨u, halike, ?_⟩
  cases outcome with
  | error e =>
    simp only [Prod.mk.injEq] at h
    obtain ⟨-, rfl⟩ := h
    exact .inl rfl
  | ok found =>
    obtain ⟨records, stop⟩ := found
    dsimp only at h
    rw [Attempt.run_bind_ok (run_say _ _), Attempt.run_bind_ok (run_forM_say _ _ _)] at h
    cases stop with
    | some e =>
      simp only [Attempt.run_fail, Prod.mk.injEq] at h
      obtain ⟨-, rfl⟩ := h
      exact .inl rfl
    | none =>
      dsimp only at h
      rw [Attempt.run_bind_ok (run_say _ _)] at h
      exact .inr (congrArg (·.2.stream) h).symm

end CommandLine

end PartitionLog
