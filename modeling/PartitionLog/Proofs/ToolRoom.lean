import PartitionLog.Proofs.Refusals
import PartitionLog.Proofs.SuccessiveRuns

/-!
# Appends that succeed

A buffer is `Roomy` if the frames to come fit between its tail and the end of the ring. It stays so
whatever turns the appender takes, so records that fit into a new buffer all together are written at
every pace, and appending them to a saved log succeeds (`Saved.append_succeeds`).
-/

namespace PartitionLog

namespace WriteBuffer

variable {b : WriteBuffer} {longest held rest length : Nat}

/-- An open buffer with `held` outstanding claims, and with room for frames of `rest` bytes before the
ring begins again. -/
structure Roomy (b : WriteBuffer) (longest held rest : Nat) : Prop where
  isOpen : b.closed = false
  longest : b.maxFragment = longest
  outstanding : b.outstanding = held
  room : b.tail + rest ≤ b.capacity

/-- There is no padding where frames fit behind the tail. -/
theorem Roomy.reserve (h : b.Roomy longest held (length + rest)) (hpos : 0 < length) :
    ∃ place, (WriteBuffer.reserve length).run b
      = (.ok place, { b.push length .claimed with outstanding := b.outstanding + 1 }) := by
  have hroom := h.room
  have hphysical : b.physical b.tail = b.tail := Nat.mod_eq_of_lt (by omega)
  have hpadding : b.paddingFor length = 0 := by
    unfold paddingFor
    rw [hphysical, if_neg (by omega)]
  have hrestart : b.restart length = b := by
    unfold restart
    rw [hpadding]
    split <;> rfl
  have hfits : ¬ b.capacity < b.used + 0 + length := by
    unfold used
    omega
  unfold Attempt.run WriteBuffer.reserve
  simp only [hrestart, hpadding, if_neg hfits, Nat.lt_irrefl, if_false]
  exact ⟨_, rfl⟩

theorem Roomy.claim (h : b.Roomy longest held (Frame.lengthFor length + rest)) (hpos : 0 < length)
    (hmax : length ≤ longest) : ∃ claim after,
      (tryClaim length).run b = (.ok claim, after) ∧ after.Roomy longest (held + 1) rest := by
  obtain ⟨⟨slot, offset⟩, hreserve⟩ := h.reserve (Nat.lt_of_lt_of_le hpos (Nat.le_add_left ..))
  have hlength := checkLength_eq_ok_iff.2 ⟨hpos, h.longest.symm ▸ hmax⟩
  have hclaim := tryClaim_run h.isOpen hlength
  rw [hreserve] at hclaim
  refine ⟨_, _, hclaim, h.isOpen, h.longest, congrArg (· + 1) h.outstanding, ?_⟩
  have hroom := h.room
  show b.tail + Frame.lengthFor length + rest ≤ b.capacity
  omega

/-- With the same claims outstanding, the same tail and the same terms. -/
structure SameRoom (b after : WriteBuffer) : Prop extends b.SameTerms after where
  tail : after.tail = b.tail
  outstanding : after.outstanding = b.outstanding

theorem SameRoom.refl (b : WriteBuffer) : b.SameRoom b := ⟨.refl b, rfl, rfl⟩

theorem SameRoom.trans {b c d : WriteBuffer} (h : b.SameRoom c) (h' : c.SameRoom d) :
    b.SameRoom d :=
  ⟨h.toSameTerms.trans h'.toSameTerms, h'.tail.trans h.tail, h'.outstanding.trans h.outstanding⟩

theorem Roomy.same {after : WriteBuffer} (h : b.Roomy longest held rest) (hsame : b.SameRoom after) :
    after.Roomy longest held rest := by
  refine ⟨hsame.closed.trans h.isOpen, hsame.maxFragment.trans h.longest,
    hsame.outstanding.trans h.outstanding, ?_⟩
  rw [hsame.tail, hsame.capacity]
  exact h.room

theorem setState_room (b : WriteBuffer) (slot : Nat) (state : SlotState) :
    b.SameRoom (b.setState slot state) := by
  unfold setState
  split
  · exact .refl b
  · split
    · exact .refl b
    · exact ⟨⟨rfl, rfl, rfl⟩, rfl, rfl⟩

theorem Roomy.commit (h : b.Roomy longest (held + 1) rest) (claim : Claim) :
    (b.commit claim).Roomy longest held rest := by
  have hset := h.same (b.setState_room claim.slot (.committed claim.payload))
  exact ⟨hset.isOpen, hset.longest, congrArg (· - 1) hset.outstanding, hset.room⟩

end WriteBuffer

namespace Appender

/-- The appender only frees slots of its buffer. -/
def KeepsRoom (a b : Appender) : Prop := a.buffer.SameRoom b.buffer

instance : IsPreorder Appender KeepsRoom where
  refl a := .refl a.buffer
  trans _ _ _ := .trans

theorem atCycle_keepsRoom : AtCycle KeepsRoom where
  append _ a := .refl a.buffer
  flush a := .refl a.buffer
  truncate _ a := .refl a.buffer
  note _ _ _ a := .refl a.buffer
  count a _ := .refl a.buffer
  mark a _ := .refl a.buffer
  move a _ := .refl a.buffer
  free _ _ := ⟨⟨rfl, rfl, rfl⟩, rfl, rfl⟩

theorem atWork_keepsRoom : AtWork KeepsRoom where
  once := atCycle_keepsRoom.drainOnce
  flush a := .refl a.buffer
  halt a _ := .refl a.buffer
  look a := .refl a.buffer
  answer _ := ⟨⟨rfl, rfl, rfl⟩, rfl, rfl⟩
  rest a _ := .refl a.buffer

theorem takeTurns_keepsRoom (a : Appender) (turns : List Turn) : KeepsRoom a (a.takeTurns turns) := by
  unfold takeTurns
  induction turns generalizing a with
  | nil => exact .refl a.buffer
  | cons turn rest ih =>
    refine .trans ?_ (ih (turn.act a))
    cases turn with
    | cycle => exact atWork_keepsRoom.cycle a
    | wake => exact atWork_keepsRoom.wake a

end Appender

namespace LogStream

variable {s : LogStream} {longest rest : Nat} {payload : Bytes}

/-- A claim that is granted at once does not wait. -/
theorem claimWaiting_granted {length : Nat} {claim : Claim} {b : WriteBuffer}
    (turns : List (LogStream → LogStream))
    (h : (WriteBuffer.tryClaim length).run s.buffer = (.ok claim, b)) :
    (WriteBuffer.claimWaiting buffer (fun b s => s.withBuffer fun _ => b) length turns).run s
      = (.ok claim, s.withBuffer fun _ => b) := by
  have hfirst : ((WriteBuffer.tryClaim length).within buffer
      fun b s => s.withBuffer fun _ => b).run s = (.ok claim, s.withBuffer fun _ => b) := by
    unfold Attempt.run at h
    unfold Attempt.run Attempt.within
    rw [h]
  cases turns with
  | nil => exact hfirst
  | cons turn turns =>
    unfold Attempt.run WriteBuffer.claimWaiting
    rw [hfirst]

/-- A record that fits is written, at every pace. -/
theorem writeAt_roomy (pace : WritePace) (hopened : s.state = .opened)
    (h : s.buffer.Roomy longest 0 (Frame.lengthFor payload.length + rest)) (hne : payload ≠ [])
    (hmax : payload.length ≤ longest) :
    ∃ b : Appender, (writeAt pace payload).run s = (.ok (), { s with appender := b }) ∧
      b.buffer.Roomy longest 0 rest := by
  obtain ⟨claim, after, hclaim, hroomy⟩ := h.claim (List.length_pos_iff.2 hne) hmax
  let filled := Appender.takeTurns pace.filling { s.appender with buffer := after }
  let written : Appender :=
    { filled with buffer := filled.buffer.commit { claim with payload := payload } }
  have hfilled : filled.buffer.Roomy longest 1 rest :=
    hroomy.same (Appender.takeTurns_keepsRoom { s.appender with buffer := after } pace.filling)
  have hwritten : written.buffer.Roomy longest 0 rest := hfilled.commit _
  refine ⟨written.takeTurns pace.after, ?_,
    hwritten.same (written.takeTurns_keepsRoom pace.after)⟩
  unfold Attempt.run writeAt
  rw [ensureOpen_of_opened hopened]
  dsimp only
  rw [claimWaiting_granted _ hclaim]
  rfl

end LogStream

namespace CommandLine

variable {c : Console} {longest : Nat} {base : Storage} {path : String} {number : Nat}
  {target : Option String} {payloads new : List Bytes} {paces : Nat → LogStream.WritePace}

/-- Records that fit are all written. -/
theorem run_writesAt_roomy (paces : Nat → LogStream.WritePace) (hopened : c.stream.state = .opened)
    (n : Nat) (h : c.stream.buffer.Roomy longest 0 (Frame.encodeRun 0 new).length)
    (hnew : ∀ x ∈ new, x ≠ [] ∧ x.length ≤ longest) :
    ∃ b : Appender, ((new.zipIdx n).forM fun record =>
        onStream (LogStream.writeAt (paces record.2) record.1)).run c
          = (.ok (), { c with stream := { c.stream with appender := b } }) ∧
      b.buffer.Roomy longest 0 0 := by
  induction new generalizing c n with
  | nil => exact ⟨c.stream.appender, rfl, h⟩
  | cons x rest ih =>
    obtain ⟨⟨hne, hmax⟩, hrest⟩ := List.forall_mem_cons.1 hnew
    have hlength : (Frame.encodeRun 0 (x :: rest)).length
        = Frame.lengthFor x.length + (Frame.encodeRun 0 rest).length := by
      simp only [Frame.length_encodeRun, Frame.span_cons, Frame.lengthFor, List.length_cons,
        Nat.mul_succ]
      omega
    rw [hlength] at h
    obtain ⟨b, hwrite, hroomy⟩ := LogStream.writeAt_roomy (paces n) hopened h hne hmax
    obtain ⟨last, hlast, hdone⟩ := ih (c := { c with stream := { c.stream with appender := b } })
      hopened (n + 1) hroomy hrest
    refine ⟨last, ?_, hdone⟩
    show (do onStream (LogStream.writeAt (paces n) x)
             (rest.zipIdx (n + 1)).forM fun record =>
               onStream (LogStream.writeAt (paces record.2) record.1)
             : Attempt Console Unit).run c = _
    rw [Attempt.run_bind, run_onStream, hwrite]
    exact hlast

/-- An appending task whose records fit succeeds where the index can be saved. -/
theorem appendAt_succeeds (h : c.stream.appender.Laden base target none payloads payloads)
    (hopened : c.stream.state = .opened) (hbase : base.OpenAt path number)
    (hroomy : c.stream.buffer.Roomy longest 0 (Frame.encodeRun 0 new).length)
    (hnew : ∀ x ∈ new, x ≠ [] ∧ x.length ≤ longest)
    (hsaving : ∀ log : IndexedLog, log.Holds base target (payloads ++ new) →
      (IndexedLog.persist.run log).1 = .ok ()) : ((appendAt paces new).run c).1 = .ok () := by
  obtain ⟨b, hwrites, hends⟩ := run_writesAt_roomy paces hopened 0 hroomy hnew
  obtain ⟨b', after, hsame, hladen⟩ := run_writesAt_ok h hbase hwrites
  obtain rfl : b = b' := congrArg (·.stream.appender) hsame
  have hshut : ({ b with buffer := b.buffer.shut } : Appender).Laden base target none after
    (payloads ++ new) := { hladen with }
  obtain ⟨log, hlog, -, -, houtcome⟩ := LogStream.closeStream_stop
    (s := { c.stream with appender := b }) (by simp [hopened]) hbase (hshut.stop hbase)
  have hwaited : b.buffer.waited c.stream.config.graceSpan = .ok () := by
    rw [WriteBuffer.waited, hends.outstanding]
    rfl
  have hclosing : (LogStream.closeStream { c.stream with appender := b }).1 = .ok () := by
    rw [houtcome, hsaving log hlog]
    exact LogStream.both_eq_ok.2 ⟨LogStream.both_eq_ok.2 ⟨hwaited, rfl⟩, rfl⟩
  rw [appendAt, Attempt.run_bind_ok (Attempt.run_get c)]
  dsimp only
  rw [Attempt.run_bind_ok hwrites, Attempt.run_bind, run_close]
  generalize LogStream.closeStream { c.stream with appender := b } = closed at hclosing
  obtain ⟨closing, t⟩ := closed
  obtain rfl : closing = .ok () := hclosing
  rfl

namespace Invocation

variable {i : Invocation} {fs : FileSystem} {old : List Bytes} {s : LogStream}

/-- Appending to a saved log succeeds, at whatever pace the appender works, if the stream can be
created and the records fit into its buffer all together. -/
theorem Saved.append_succeeds (h : i.Saved fs old) (hapart : i.Apart)
    (paces : Nat → LogStream.WritePace) {words : List String} {timeout : Nat}
    (happend : i.order = .append words timeout) (hold : ∀ x ∈ old, x ≠ []) {name : String}
    (hname : Path.fileStem? i.file = some name)
    (hcreate : LogStream.create (i.config name) { medium := .file i.file none, files := fs } = .ok s)
    (hwords : ∀ x ∈ words.map Bytes.ofText, x ≠ [] ∧ x.length ≤ (i.config name).maxFragment)
    (hroom : (Frame.encodeRun 0 (words.map Bytes.ofText)).length ≤ (i.config name).writeBufferSize)
    (hsize : (Frame.encodeRun 0 (old ++ words.map Bytes.ofText)).length < 2 ^ 63) :
    (i.runAt paces fs).1.failure = none := by
  obtain ⟨s, u, number, found, log, outcome, console, hcreated, hopened, hsame, hholds, hnext,
    hperform, hrun⟩ := h.performs hapart hname hcreate (i.order.performAt paces)
  have hlive : (s.launched log found.nextPosition).appender.isLive = true := by
    have henabled : s.config.appenderDisabled = false := by
      rw [hcreated.disabled, happend]
      rfl
    simp [LogStream.launched, Appender.isLive, henabled]
  have hladen := Appender.Laden.of_over (over_launched hcreated hholds hnext) hlive hold
    hcreated.buffer.1
  obtain ⟨other, hother, hs⟩ := hcreated.created
  obtain rfl : name = other := by rwa [hname, Option.some.injEq] at hother
  obtain ⟨-, -, -, -, -, -, hbuffer⟩ := LogStream.create_ok hs
  have hroomy : (s.launched log found.nextPosition).buffer.Roomy (i.config name).maxFragment 0
      (Frame.encodeRun 0 (words.map Bytes.ofText)).length := by
    have hreopened : (s.launched log found.nextPosition).buffer = s.buffer.reopen := rfl
    rw [hreopened, hbuffer]
    exact ⟨rfl, rfl, rfl, by simpa [WriteBuffer.reopen] using hroom⟩
  have hperformed : ((appendAt paces (words.map Bytes.ofText)).run
      { stream := s.launched log found.nextPosition }).1 = .ok () :=
    appendAt_succeeds hladen rfl hopened.openAt hroomy hwords
      fun log hlog => (h.persist hapart hopened hsame hlog hsize rfl).1
  rw [happend] at hperform
  have hrun : i.runAt paces fs = _ := hrun
  rw [hrun]
  show reason? outcome = none
  rw [show outcome = .ok () from (congrArg Prod.fst hperform).symm.trans hperformed]
  rfl

end Invocation

end CommandLine

end PartitionLog
