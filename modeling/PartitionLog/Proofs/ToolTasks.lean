import PartitionLog.Proofs.Seeking
import PartitionLog.Proofs.ToolWrites

/-!
# What a task does to the log

A task that appends adds its payloads one after the other, and says so if nothing failed
(`appendAt_ok`). One that truncates keeps payloads from the front (`cut_over`), and one that dumps
keeps them all and lists their records (`run_dump_over`). Whatever it is, however it ends and at
whatever pace the appender works, the stream is closed with payloads that the log holds
(`perform_over`).
-/

namespace PartitionLog

namespace CommandLine

variable {c d : Console} {base : Storage} {path : String} {number : Nat} {target : Option String}
  {payloads total new : List Bytes} {r : Except LogError Unit} {paces : Nat → LogStream.WritePace}

/-! ## Writing and truncating -/

/-- Whether or not they can all be written, records are written one after the other. -/
theorem run_writesAt {n : Nat} (h : c.stream.appender.Over base target payloads)
    (hbase : base.OpenAt path number)
    (hw : ((new.zipIdx n).forM fun record =>
      onStream (LogStream.writeAt (paces record.2) record.1)).run c = (r, d)) :
    ∃ b after, d = { c with stream := { c.stream with appender := b } } ∧
      b.Over base target after := by
  induction new generalizing c payloads n with
  | nil =>
    obtain ⟨rfl, rfl⟩ : .ok () = r ∧ c = d := Prod.mk.injEq .. ▸ hw
    exact ⟨c.stream.appender, payloads, rfl, h⟩
  | cons x rest ih =>
    have hw : (do onStream (LogStream.writeAt (paces n) x)
                  (rest.zipIdx (n + 1)).forM fun record =>
                    onStream (LogStream.writeAt (paces record.2) record.1)
                  : Attempt Console Unit).run c = (r, d) := hw
    rw [Attempt.run_bind, run_onStream] at hw
    generalize hwrite : (LogStream.writeAt (paces n) x).run c.stream = written at hw
    obtain ⟨outcome, t⟩ := written
    obtain ⟨b, after, rfl, hover⟩ := LogStream.writeAt_over h hbase hwrite
    cases outcome with
    | error e =>
      simp only [Prod.mk.injEq] at hw
      obtain ⟨rfl, rfl⟩ := hw
      exact ⟨b, after, rfl, hover⟩
    | ok done => exact ih (c := { c with stream := { c.stream with appender := b } }) hover hw

/-- Records that are all written are the last of those to come. -/
theorem run_writesAt_ok {n : Nat} (h : c.stream.appender.Laden base target none payloads total)
    (hbase : base.OpenAt path number)
    (hw : ((new.zipIdx n).forM fun record =>
      onStream (LogStream.writeAt (paces record.2) record.1)).run c = (.ok (), d)) :
    ∃ b after, d = { c with stream := { c.stream with appender := b } } ∧
      b.Laden base target none after (total ++ new) := by
  induction new generalizing c payloads total n with
  | nil =>
    obtain rfl : c = d := congrArg Prod.snd hw
    exact ⟨c.stream.appender, payloads, rfl, by simpa using h⟩
  | cons x rest ih =>
    have hw : (do onStream (LogStream.writeAt (paces n) x)
                  (rest.zipIdx (n + 1)).forM fun record =>
                    onStream (LogStream.writeAt (paces record.2) record.1)
                  : Attempt Console Unit).run c = (.ok (), d) := hw
    rw [Attempt.run_bind, run_onStream] at hw
    generalize hwrite : (LogStream.writeAt (paces n) x).run c.stream = written at hw
    obtain ⟨outcome, t⟩ := written
    cases outcome with
    | error e => simp at hw
    | ok done =>
      obtain ⟨b, after, rfl, hladen⟩ := LogStream.writeAt_laden h hbase hwrite
      obtain ⟨b', later, rfl, hlater⟩ :=
        ih (c := { c with stream := { c.stream with appender := b } }) hladen hw
      refine ⟨b', later, rfl, ?_⟩
      rwa [List.append_assoc] at hlater

theorem run_close (c : Console) : (onStream LogStream.closeStream).run c
    = (c.stream.closeStream.1, { c with stream := c.stream.closeStream.2 }) := rfl

/-- Closing the stream and saying a line is the end of a task. -/
theorem run_close_say {line : String} (hclosed : c.stream.closeStream.2.state = .closed)
    (h : (do onStream LogStream.closeStream; say line : Attempt Console Unit).run c = (r, d)) :
    d.stream.closeStream.2 = c.stream.closeStream.2 ∧
      (r = .ok () → c.stream.closeStream.1 = .ok () ∧ d.printed = c.printed ++ line ++ "\n") := by
  rw [Attempt.run_bind, run_close] at h
  generalize c.stream.closeStream = closing at h hclosed ⊢
  obtain ⟨outcome, t⟩ := closing
  -- a stream that is closed is not closed again
  have hagain : t.closeStream.2 = t := by rw [LogStream.closeStream_of_closed hclosed]
  cases outcome with
  | error e =>
    simp only [Prod.mk.injEq] at h
    obtain ⟨rfl, rfl⟩ := h
    exact ⟨hagain, by simp⟩
  | ok done =>
    dsimp only at h
    rw [run_say, Prod.mk.injEq] at h
    obtain ⟨rfl, rfl⟩ := h
    exact ⟨hagain, fun _ => ⟨rfl, rfl⟩⟩

/-- What an appending task says. -/
def appended (count : Nat) (first next : Int) : String :=
  s!"appended {count} records at positions [{first}, {next})"

/-- An appending task closes the stream in any case. -/
theorem appendAt_over (h : c.stream.appender.Over base target payloads)
    (hstate : c.stream.state ≠ .closed) (hbase : base.OpenAt path number)
    (ha : (appendAt paces new).run c = (r, d)) :
    ∃ b after, b.Over base target after ∧
      d.stream.closeStream.2 = (LogStream.closeStream { c.stream with appender := b }).2 := by
  rw [appendAt, Attempt.run_bind_ok (Attempt.run_get c)] at ha
  dsimp only at ha
  rw [Attempt.run_bind] at ha
  generalize hwrites : (new.zipIdx.forM fun record =>
    onStream (LogStream.writeAt (paces record.2) record.1)).run c = written at ha
  obtain ⟨outcome, e⟩ := written
  obtain ⟨b, after, rfl, hover⟩ := run_writesAt h hbase hwrites
  refine ⟨b, after, hover, ?_⟩
  cases outcome with
  | error e =>
    simp only [Prod.mk.injEq] at ha
    obtain ⟨-, rfl⟩ := ha
    rfl
  | ok done =>
    obtain ⟨-, -, -, hclosed, -⟩ :=
      LogStream.closeStream_over (s := { c.stream with appender := b }) hstate hover hbase
    exact (run_close_say hclosed ha).1

/-- An appending task that succeeds puts its records behind those of the log, saves the index of that
log and tells the positions. -/
theorem appendAt_ok (h : c.stream.appender.Laden base target none payloads payloads)
    (hstate : c.stream.state ≠ .closed) (hbase : base.OpenAt path number)
    (ha : (appendAt paces new).run c = (.ok (), d)) :
    ∃ log : IndexedLog, log.Holds base target (payloads ++ new) ∧
      (IndexedLog.persist.run log).1 = .ok () ∧
      d.stream.closeStream.2.storage.files = (IndexedLog.persist.run log).2.storage.files ∧
      d.printed = c.printed ++ appended new.length c.stream.appender.nextPosition
        (c.stream.appender.nextPosition + Frame.span new) ++ "\n" := by
  rw [appendAt, Attempt.run_bind_ok (Attempt.run_get c)] at ha
  dsimp only at ha
  rw [Attempt.run_bind] at ha
  generalize hwrites : (new.zipIdx.forM fun record =>
    onStream (LogStream.writeAt (paces record.2) record.1)).run c = written at ha
  obtain ⟨outcome, e⟩ := written
  cases outcome with
  | error e => simp at ha
  | ok done =>
    obtain ⟨b, after, rfl, hladen⟩ := run_writesAt_ok h hbase hwrites
    have hshut : ({ b with buffer := b.buffer.shut } : Appender).Laden base target none after
      (payloads ++ new) := { hladen with }
    obtain ⟨log, hlog, hclosed, hfiles, houtcome⟩ := LogStream.closeStream_stop
      (s := { c.stream with appender := b }) hstate hbase (hshut.stop hbase)
    obtain ⟨hclosing, hends⟩ := run_close_say hclosed ha
    obtain ⟨hok, hprinted⟩ := hends rfl
    refine ⟨log, hlog, ?_, by rw [hclosing, hfiles], hprinted⟩
    rw [hok] at houtcome
    exact (LogStream.both_eq_ok.1 (LogStream.both_eq_ok.1 houtcome.symm).1).2

/-- A truncating task closes the stream in any case. -/
theorem cut_over {position : Int} {commit : Option Int}
    (h : c.stream.appender.Over base target payloads) (hstate : c.stream.state ≠ .closed)
    (hbase : base.OpenAt path number) (hrests : c.stream.appender.isRunning = false)
    (hr : Frame.Readable 0 payloads) (ht : (truncate position commit).run c = (r, d)) :
    ∃ (t : LogStream) (after : List Bytes), t.appender.Over base target after ∧ t.state ≠ .closed ∧
      d.stream.closeStream.2 = t.closeStream.2 := by
  rw [truncate, Attempt.run_bind, run_onStream, Attempt.run_modify] at ht
  dsimp only at ht
  have hraised : ((commit.map (c.stream.raiseCommit ·)).getD c.stream).appender = c.stream.appender ∧
      ((commit.map (c.stream.raiseCommit ·)).getD c.stream).state = c.stream.state := by
    cases commit with
    | none => exact ⟨rfl, rfl⟩
    | some position => exact ⟨rfl, rfl⟩
  generalize (commit.map (c.stream.raiseCommit ·)).getD c.stream = raised at ht hraised
  obtain ⟨happender, hsame⟩ := hraised
  rw [Attempt.run_bind_ok (Attempt.run_outcome _ _), run_onStream] at ht
  generalize hcut : (LogStream.truncate position).run raised = cut at ht
  obtain ⟨outcome, t⟩ := cut
  obtain ⟨b, after, rfl, hover⟩ :=
    LogStream.truncate_over (happender ▸ h) (happender ▸ hrests) hr hcut
  have hopen : ({ raised with appender := b } : LogStream).state ≠ .closed := hsame ▸ hstate
  refine ⟨{ raised with appender := b }, after, hover, hopen, ?_⟩
  obtain ⟨-, -, -, hclosed, -⟩ := LogStream.closeStream_over hopen hover hbase
  dsimp only at ht
  rw [Attempt.run_bind, run_close] at ht
  dsimp only at ht
  generalize LogStream.closeStream { raised with appender := b } = closing at ht hclosed ⊢
  obtain ⟨closing, t⟩ := closing
  have hagain : t.closeStream.2 = t := by rw [LogStream.closeStream_of_closed hclosed]
  cases closing with
  | error e =>
    simp only [Prod.mk.injEq] at ht
    obtain ⟨rfl, rfl⟩ := ht
    exact hagain
  | ok done =>
    dsimp only at ht
    rw [Attempt.run_bind, Reading.run_ofExcept] at ht
    cases outcome with
    | error e =>
      simp only [Prod.mk.injEq] at ht
      obtain ⟨rfl, rfl⟩ := ht
      exact hagain
    | ok done =>
      dsimp only at ht
      rw [run_say, Prod.mk.injEq] at ht
      obtain ⟨rfl, rfl⟩ := ht
      exact hagain

/-- Whatever a task is to do, the log is closed with payloads that it holds. -/
theorem perform_over {order : Order} (h : c.stream.appender.Over base target payloads)
    (hstate : c.stream.state ≠ .closed) (hbase : base.OpenAt path number)
    (hrests : order.writes = false → c.stream.appender.isRunning = false)
    (hr : Frame.Readable 0 payloads) (hp : (order.performAt paces).run c = (r, d)) :
    ∃ (t : LogStream) (after : List Bytes), t.appender.Over base target after ∧ t.state ≠ .closed ∧
      d.stream.closeStream.2 = t.closeStream.2 := by
  cases order with
  | append words timeout =>
    obtain ⟨b, after, hover, hclosing⟩ := appendAt_over h hstate hbase hp
    exact ⟨{ c.stream with appender := b }, after, hover, hstate, hclosing⟩
  | dump start preview =>
    obtain ⟨u, halike, hd⟩ := dump_stream hp
    have hover : (c.stream.withStorage u).appender.Over base target payloads :=
      ⟨h.holds.storage halike.confined (halike.alike.keeps h.holds.sound), h.room, h.fragments, h.next⟩
    refine ⟨c.stream.withStorage u, payloads, hover, hstate, ?_⟩
    rcases hd with hd | hd
    · rw [hd]
    · obtain ⟨-, -, -, hclosed, -⟩ := LogStream.closeStream_over
        (s := c.stream.withStorage u) hstate hover hbase
      rw [hd, LogStream.closeStream_of_closed hclosed]
  | truncate position commit => exact cut_over h hstate hbase (hrests rfl) hr hp

/-! ## What a dump shows -/

/-- The lines of a dump. -/
def listing (preview : Nat) (records : List Record) : List String :=
  row "position" "address" "length" "payload" :: records.map (recordRow preview)
    ++ [s!"{records.length} records"]

/-- Lines as they are printed. -/
def printout (lines : List String) : String :=
  lines.foldl (fun text line => text ++ line ++ "\n") ""

/-- Over a log that holds payloads, a dump lists their records. -/
theorem run_dump_over (preview : Nat) (h : c.stream.appender.Over base target payloads)
    (hbase : base.OpenAt path number) (hr : Frame.Readable 0 payloads) (hprinted : c.printed = "") :
    ∃ u, c.stream.storage.ReadAlike u ∧ (dump none preview).run c
      = ((c.stream.withStorage u).closeStream.1, ⟨(c.stream.withStorage u).closeStream.2,
        printout (listing preview (Frame.recordsOf 0 0 payloads))⟩) := by
  have hserves : c.stream.storage.Serves :=
    let hat := hbase.confined h.holds.confined h.holds.sound
    ⟨hat.works.isOpen, hat.works.passes .read⟩
  let rs := c.stream.reading c.stream.newReader
  have hall : rs.collect.1 = (Frame.recordsOf 0 0 payloads, none) :=
    Reading.collectFrom_serves 0 rs (Reading.Sees.ofWindow h.holds.sound _) hserves
      h.holds.stored hr
  have halike : c.stream.storage.ReadAlike rs.collect.2.storage :=
    Reading.collectFrom_readAlike _ rs rfl
  have hread : (LogStream.recordsFrom none).run c.stream
      = (.ok (Frame.recordsOf 0 0 payloads, none), c.stream.withStorage rs.collect.2.storage) := by
    rw [← hall]
    rfl
  refine ⟨rs.collect.2.storage, halike, ?_⟩
  rw [dump, Attempt.run_bind, run_onStream, hread]
  dsimp only
  rw [Attempt.run_bind_ok (run_say _ _), Attempt.run_bind_ok (run_forM_say _ _ _)]
  dsimp only
  rw [Attempt.run_bind_ok (run_say _ _), run_close]
  simp only [printout, listing, List.foldl_append, List.foldl_cons, List.foldl_nil, List.foldl_map,
    hprinted]

end CommandLine

end PartitionLog
