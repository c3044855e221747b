import PartitionLog.Proofs.AppenderRuns
import PartitionLog.Proofs.FreeSpace
import PartitionLog.Proofs.MemoryLogs
import PartitionLog.Proofs.ToolStreams

/-!
# Streams in memory

What a stream over a memory does where no call fails, as far as one record after another goes: its ring
holds at most the slot of that record (`WriteBuffer.Holding`). A stream that is `Asleep` is opened, and
then cut or refused as its log is (`Asleep.openUp_severed`); one that is `Awake` stores the record or
has it refused by the index (`Awake.drain`, `Awake.refused`), and is closed again with the same log
(`Awake.closeStream`).
-/

namespace PartitionLog

namespace WriteBuffer

variable {b : WriteBuffer} {longest length id reserved : Nat} {payload : Bytes} {slots : List Slot}

/-- The ring has these slots and no others, and room for a record of `longest` bytes. -/
structure Holding (b : WriteBuffer) (longest : Nat) (slots : List Slot) : Prop where
  queue : b.slots = slots
  spans : b.tail = b.head + reservedBy slots
  limit : b.maxFragment = longest
  room : Frame.lengthFor longest ≤ b.capacity

/-- A ring that holds nothing takes every record it is made for, without padding. -/
theorem Holding.claim (h : b.Holding longest []) (hopen : b.closed = false) (hpos : 0 < length)
    (hle : length ≤ longest) :
    ∃ claim after, (tryClaim length).run b = (.ok claim, after) ∧ claim.payload.length = length ∧
      after.Holding longest [⟨claim.slot, Frame.lengthFor length, .claimed⟩] ∧
      after.closed = false := by
  have hspans : b.tail = b.head := h.spans
  have hroom := h.room
  have hfits : Frame.lengthFor length ≤ b.capacity ∧ 0 < b.capacity := by
    unfold Frame.lengthFor Frame.headerLength at *
    omega
  have hused : b.used = 0 := by
    rw [used, hspans, Nat.sub_self]
  have hcheck : b.checkLength length = .ok () := by
    unfold checkLength
    rw [if_neg (by omega), if_neg (by rw [h.limit]; omega)]
  have hterms := restart_terms b (Frame.lengthFor length)
  have hpadding := paddingFor_restart hfits.2 hfits.1 hused
  have hlevel : (b.restart (Frame.lengthFor length)).tail
      = (b.restart (Frame.lengthFor length)).head := by
    unfold restart
    rw [if_pos hused, hspans]
  have hslots : (b.restart (Frame.lengthFor length)).slots = [] :=
    (restart_slots b _).1.trans h.queue
  have hspace : ¬ (b.restart (Frame.lengthFor length)).capacity
      < (b.restart (Frame.lengthFor length)).used + 0 + Frame.lengthFor length := by
    rw [used_restart hused, hterms.capacity]
    omega
  unfold Attempt.run tryClaim
  rw [hcheck, hopen, Attempt.run, reserve]
  generalize b.restart (Frame.lengthFor length) = restarted at *
  simp only [hpadding, if_neg hspace, Nat.lt_irrefl, if_false, Bool.false_eq_true]
  refine ⟨_, _, rfl, List.length_replicate, ⟨?_, ?_, hterms.maxFragment.trans h.limit, ?_⟩,
    hterms.closed.trans hopen⟩
  · simp [push, hslots]
  · simp [push, hlevel]
  · simp [push, hterms.capacity, hroom]

theorem Holding.commit (claim : Claim) (h : b.Holding longest [⟨claim.slot, reserved, .claimed⟩]) :
    (b.commit claim).Holding longest [⟨claim.slot, reserved, .committed claim.payload⟩] ∧
      (b.commit claim).closed = b.closed := by
  obtain ⟨hqueue, hspans, hlimit, hroom⟩ := h
  unfold WriteBuffer.commit finish setState
  rw [hqueue]
  simp only [Nat.lt_irrefl, if_false, Nat.sub_self]
  exact ⟨⟨rfl, hspans, hlimit, hroom⟩, trivial⟩

/-- What is committed in the only slot is polled. -/
theorem Holding.poll (h : b.Holding longest [⟨id, reserved, .committed payload⟩]) (max : Nat) :
    b.pollBlock max = some ⟨[payload], 1, Frame.lengthFor payload.length⟩ := by
  unfold pollBlock
  rw [h.queue]
  simp [gather, DrainBlock.Fits, DrainBlock.add]

theorem Holding.poll_nil (h : b.Holding longest []) (max : Nat) : b.pollBlock max = none := by
  unfold pollBlock
  rw [h.queue]
  rfl

theorem Holding.release {slot : Slot} (h : b.Holding longest [slot]) :
    (b.release 1).Holding longest [] := by
  have hspans := h.spans
  refine ⟨?_, ?_, h.limit, h.room⟩
  · simp [WriteBuffer.release, h.queue]
  · simp [WriteBuffer.release, h.queue, hspans]

end WriteBuffer

namespace Appender

variable {a : Appender} {bytes : Bytes}

/-- An appender in memory that has nothing to drain is stopped after a flush. -/
theorem stop_memory (hlive : a.isLive = true) (hnone : a.buffer.pollBlock a.maxBlock = none)
    (h : a.log.storage.Memory true bytes) :
    ∃ t, t.Memory true bytes ∧
      a.stop = { a.withStorage t with isRunning := false, phase := .closed } := by
  obtain ⟨t, hflush, ht⟩ := h.flush
  have hdrain : drain a = (true, a) := by
    have hidle : drainOnce.run a = (.ok false, a) := by
      unfold Attempt.run drainOnce
      rw [hnone]
    rw [drain]
    split
    · next hrun => simp [hidle] at hrun
    · next hrun => rw [eq_of_drainOnce_false hrun]
    · next hrun => simp [hidle] at hrun
  have hfinished : a.finishUp = a.withStorage t := by
    unfold finishUp
    rw [hdrain]
    dsimp only
    rw [run_onStorage hflush]
  have hphase : (a.withStorage t).phase = .draining := by
    simp only [isLive, Bool.and_eq_true, decide_eq_true_eq] at hlive
    exact hlive.2
  refine ⟨t, ht, ?_⟩
  unfold stop
  rw [if_pos hlive, hfinished]
  dsimp only
  rw [if_pos hphase]

end Appender

namespace LogStream

variable {s : LogStream} {longest : Nat} {slots : List Slot} {bytes tail : Bytes}
  {payloads : List Bytes} {index after : BlockIndex} {since : Option Nat}
  {commit position : Int}

/-- A stream without a snapshot that takes records of up to `longest` bytes and gives an entry to
every block. It did not fail before, `commit` is its commit position, and its buffer has these slots. -/
structure Fitted (s : LogStream) (longest : Nat) (commit : Int) (slots : List Slot) : Prop where
  enabled : s.config.appenderDisabled = false
  unsaved : s.appender.log.sampling.snapshotPath = none
  dense : s.appender.log.sampling.threshold = 1
  whole : s.appender.staleBlock = none
  unfailed : s.appender.failedBefore = false
  commit : s.commit = commit
  holding : s.buffer.Holding longest slots

/-- It is closed, over a memory of these bytes. -/
structure Asleep (s : LogStream) (longest : Nat) (commit : Int) (bytes : Bytes)
    (index : BlockIndex) : Prop extends Fitted s longest commit [] where
  state : s.state = .closed
  isRunning : s.appender.isRunning = false
  phase : s.appender.phase = .closed
  memory : s.storage.Memory false bytes
  indexed : s.index = index

/-- It is open, over a memory of these bytes, and the next record gets `position`. -/
structure Awake (s : LogStream) (longest : Nat) (commit : Int) (slots : List Slot) (bytes : Bytes)
    (index : BlockIndex) (position : Int) : Prop extends Fitted s longest commit slots where
  state : s.state = .opened
  isRunning : s.appender.isRunning = true
  phase : s.appender.phase = .draining
  unshut : s.buffer.closed = false
  memory : s.storage.Memory true bytes
  indexed : s.index = index
  indexing : s.appender.log.sampling.isOpen = true
  due : needsEntry 1 s.appender.log.sampling.sinceEntry = true
  next : s.appender.nextPosition = position

/-! ## Opening -/

theorem Asleep.unused (h : s.Asleep longest commit bytes index) : s.Unused :=
  ⟨h.state, h.isRunning, h.phase, h.whole, h.unfailed⟩

/-- Opening goes as recovering the log goes. -/
theorem Asleep.openStream (h : s.Asleep longest commit bytes index) :
    ∃ u, u.Memory true bytes ∧
      (∀ e log, (IndexedLog.recover commit).run { s.appender.log with storage := u }
          = (.error e, log) →
        (openStream.run s).2.storage = (Storage.close.run log.storage).2 ∧
          (openStream.run s).2.index = log.index) ∧
      ∀ found log, (IndexedLog.recover commit).run { s.appender.log with storage := u }
          = (.ok found, log) →
        (openStream.run s).2 = s.launched log found.nextPosition := by
  obtain ⟨u, hopen, hu⟩ := h.memory.openUp
  obtain rfl := h.commit
  refine ⟨u, hu, ?_⟩
  obtain ⟨e, v, hbad, -⟩ | ⟨v, hopened, hends⟩ :=
    openStream_cases h.unused h.memory.closed (Prod.eta (LogStream.openStream.run s)).symm
  · rw [hopen] at hbad
    simp at hbad
  · obtain rfl : u = v := congrArg Prod.snd (hopen.symm.trans hopened)
    obtain ⟨e, log, hrecover, -, -, hleft⟩ | ⟨found, log, hrecover, -, hlaunched⟩ := hends
    · refine ⟨fun e' log' hrun => ?_, fun found log' hrun => ?_⟩
      · obtain rfl : log = log' := congrArg Prod.snd (hrecover.symm.trans hrun)
        exact hleft
      · rw [hrecover] at hrun
        simp at hrun
    · refine ⟨fun e' log' hrun => ?_, fun found' log' hrun => ?_⟩
      · rw [hrecover] at hrun
        simp at hrun
      · rw [hrecover, Prod.mk.injEq, Except.ok.injEq] at hrun
        obtain ⟨rfl, rfl⟩ := hrun
        exact hlaunched

/-- A stream that is launched over a memory is awake. -/
theorem Asleep.launched (h : s.Asleep longest commit bytes index) {u : Storage} {left : Bytes}
    (hu : u.Memory true left) (hdue : needsEntry 1 since = true) (position : Int) :
    (s.launched ⟨u, after, { s.appender.log.sampling with isOpen := true, sinceEntry := since }⟩
      position).Awake longest commit [] left after position where
  enabled := h.enabled
  unsaved := h.unsaved
  dense := h.dense
  whole := h.whole
  unfailed := h.unfailed
  commit := h.commit
  holding := ⟨h.holding.queue, h.holding.spans, h.holding.limit, h.holding.room⟩
  state := rfl
  isRunning := by simp [LogStream.launched, h.enabled]
  phase := by simp [LogStream.launched, h.enabled]
  unshut := rfl
  memory := hu
  indexed := rfl
  indexing := rfl
  due := hdue
  next := rfl

/-- An empty log is opened as it is. -/
theorem Asleep.openUp_empty (h : s.Asleep longest commit [] .empty) :
    (LogStream.openStream.run s).2.Awake longest commit [] [] .empty 0 := by
  obtain ⟨u, hu, -, hok⟩ := h.openStream
  have hlists : s.index.Lists [] := by
    intro e he
    rw [h.indexed] at he
    exact absurd he List.not_mem_nil
  have hlog : ({ s.appender.log with storage := u } : IndexedLog).storage.Memory true
      (Frame.encodeRun 0 []) := hu
  obtain ⟨found, t, index, since, hrun, hnext, ht, hsampled⟩ :=
    IndexedLog.recover_whole_memory hlog trivial h.unsaved hlists commit
  obtain ⟨rfl, rfl⟩ : s.index = index ∧ none = since := by
    dsimp only at hsampled
    rw [hu.stored, List.drop_nil, Frame.walk_nil] at hsampled
    simp only [Scan.sampleAll, Except.ok.injEq, Prod.mk.injEq] at hsampled
    exact hsampled
  rw [hok found _ hrun, hnext]
  rw [h.indexed]
  exact h.launched ht rfl 0

/-- A log that ends in a severed frame is cut there, or not opened if a committed record belongs
there. -/
theorem Asleep.openUp_severed
    (h : s.Asleep longest commit (Frame.encodeRun 0 payloads ++ tail) index)
    (htail : Frame.Severed tail) (hr : Frame.Readable 0 payloads) (hlists : index.Lists payloads)
    (hstart : index.lastStart Storage.firstAddress = 0) :
    ∃ after since,
      Scan.sampleAll 1 (Frame.recordsOf 0 0 payloads) index none = .ok (after, since) ∧
      (commit < Frame.span payloads → (LogStream.openStream.run s).2.Awake longest commit []
        (Frame.encodeRun 0 payloads) after (Frame.span payloads)) ∧
      (Frame.span payloads ≤ commit →
        (LogStream.openStream.run s).2.storage.Memory false (Frame.encodeRun 0 payloads ++ tail) ∧
          (LogStream.openStream.run s).2.index = after) := by
  obtain ⟨u, hu, hfailed, hok⟩ := h.openStream
  obtain rfl := h.indexed
  have hlog : ({ s.appender.log with storage := u } : IndexedLog).storage.Memory true
      (Frame.encodeRun 0 payloads ++ tail) := hu
  obtain ⟨after, since, hsampled, hcut, hleft⟩ :=
    IndexedLog.recover_severed hlog htail hr h.unsaved hlists commit
  have hsampled : Scan.sampleAll 1 (Frame.recordsOf 0 0 payloads) s.index none
      = .ok (after, since) := by
    rw [← htail.walk hu.stored hr, ← h.dense, ← hstart]
    exact hsampled
  refine ⟨after, since, hsampled, fun hcommit => ?_, fun hcommit => ?_⟩
  · obtain ⟨found, t, hrun, hnext, ht⟩ := hcut hcommit
    rw [hok found _ hrun, hnext]
    exact h.launched ht (Scan.sampleAll_due rfl hsampled) _
  · obtain ⟨e, t, hrun, ht⟩ := hleft hcommit
    obtain ⟨hstorage, hindex⟩ := hfailed e _ hrun
    obtain ⟨v, hclose, hv⟩ := ht.close
    refine ⟨?_, hindex⟩
    rw [hstorage, show (Storage.close.run t).2 = v from congrArg Prod.snd hclose]
    exact hv

/-! ## Writing -/

theorem Awake.withBuffer {b : WriteBuffer} {left : List Slot}
    (h : s.Awake longest commit slots bytes index position) (hholding : b.Holding longest left)
    (hopen : b.closed = false) :
    (s.withBuffer fun _ => b).Awake longest commit left bytes index position :=
  ⟨⟨h.enabled, h.unsaved, h.dense, h.whole, h.unfailed, h.commit, hholding⟩, h.state, h.isRunning,
    h.phase, hopen, h.memory, h.indexed, h.indexing, h.due, h.next⟩

theorem Awake.isLive (h : s.Awake longest commit slots bytes index position) :
    s.appender.isLive = true := by
  simp [Appender.isLive, h.isRunning, h.phase]

/-- The appender drains a record and notes it. -/
theorem Awake.drain {id reserved : Nat} {payload : Bytes}
    (h : s.Awake longest commit [⟨id, reserved, .committed payload⟩] bytes index position)
    (htakes : index.append position bytes.length = .ok after) :
    (s.withAppender Appender.cycle).Awake longest commit [] (bytes ++ Frame.encode position payload)
      after (position + payload.length) := by
  have hpolled : s.appender.buffer.pollBlock s.appender.maxBlock
      = some ⟨[payload], 1, Frame.lengthFor payload.length⟩ := h.holding.poll _
  have hnext := h.next
  obtain rfl := h.indexed
  obtain ⟨t, n, ht, hrun⟩ := Appender.drainOnce_memory h.memory hpolled (by simp)
    (by rw [h.dense]; exact h.due) (by rw [hnext]; exact htakes)
  have hblock : Frame.encodeRun s.appender.nextPosition [payload] = Frame.encode position payload := by
    rw [hnext, Frame.encodeRun, Frame.encodeRun, List.append_nil]
  rw [hblock] at ht hrun
  unfold withAppender
  rw [Appender.cycle_of_ok h.isLive hrun]
  exact {
    enabled := h.enabled
    unsaved := h.unsaved
    dense := h.dense
    whole := h.whole
    unfailed := h.unfailed
    commit := h.commit
    holding := h.holding.release
    state := h.state
    isRunning := h.isRunning
    phase := h.phase
    unshut := h.unshut
    memory := ht
    indexed := rfl
    indexing := h.indexing
    due := by
      show decide (1 ≤ (Frame.encode position payload).length) = true
      rw [Frame.length_encode, Frame.lengthFor, Frame.headerLength]
      exact decide_eq_true (by omega)
    next := by
      show s.appender.nextPosition + _ = _
      rw [hnext, List.flatten_singleton] }

/-- The cycle fails if the index refuses the block of the record. -/
theorem Awake.refused {id reserved : Nat} {payload : Bytes} {e : LogError}
    (h : s.Awake longest commit [⟨id, reserved, .committed payload⟩] bytes index position)
    (hrefuses : index.append position bytes.length = .error e) :
    (Appender.drainOnce.run s.appender).1 = .error e := by
  have hnext := h.next
  obtain rfl := h.indexed
  exact Appender.drainOnce_refused h.memory (h.holding.poll _) (by simp)
    (by rw [h.dense]; exact h.due) (by rw [hnext]; exact hrefuses)

/-! ## Closing -/

/-- What the buffer holds is written, the appender rests, and the storage is closed. -/
theorem Awake.closeStream (h : s.Awake longest commit [] bytes index position) :
    s.closeStream.2.Asleep longest commit bytes index := by
  obtain ⟨t, ht, hstop⟩ := Appender.stop_memory
    (a := { s.appender with buffer := s.appender.buffer.shut }) h.isLive (h.holding.poll_nil _)
    h.memory
  have hsettled : ({ s with state := .closing }.withBuffer WriteBuffer.shut).settleClaims.2
      = { s with
        state := .closing
        appender := { s.appender with
          buffer := s.appender.buffer.shut
          log := { s.appender.log with storage := t }
          isRunning := false
          phase := .closed } } :=
    congrArg (fun a => { s with state := StreamState.closing, appender := a }) hstop
  obtain ⟨isOpen, hwound⟩ := windDown_unsaved (by rw [hsettled]; exact h.unsaved)
  rw [hsettled] at hwound
  obtain ⟨u, hclose, hu⟩ := ht.close
  unfold LogStream.closeStream
  rw [if_neg (by rw [h.state]; simp)]
  dsimp only
  rw [closeStorage_eq, hwound]
  exact {
    enabled := h.enabled
    unsaved := h.unsaved
    dense := h.dense
    whole := h.whole
    unfailed := h.unfailed
    commit := h.commit
    holding := ⟨h.holding.queue, h.holding.spans, h.holding.limit, h.holding.room⟩
    state := rfl
    isRunning := rfl
    phase := rfl
    memory := by
      show (Storage.close.run t).2.Memory false bytes
      rw [hclose]
      exact hu
    indexed := h.indexed }

end LogStream

end PartitionLog
