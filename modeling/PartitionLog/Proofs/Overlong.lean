import PartitionLog.Proofs.HaltCauses
import PartitionLog.Proofs.MemoryStreams
import PartitionLog.Proofs.PayloadLimits
import PartitionLog.Proofs.Unhindered

/-!
# Runs with overlong payloads

A client who is alone stores one record in an empty log, and reopens the log (`Run.filled`,
`Run.reopened`). If the record is misread (`Frame.Misread`), then it is not accounted for any more
(`Run.not_accounted`), and its bytes are destroyed even if it was committed (`Run.not_intact`). There
are such records of 2^32 + 1 bytes, so the bound of `Run.Within` on the payloads is needed: without
it a record is lost, one is destroyed, the index lists what is not in the log, and it refuses a block
that was stored.
-/

namespace PartitionLog

namespace Run

variable {u : Run} {longest : Nat} {commit position : Int} {bytes p : Bytes} {index : BlockIndex}
  {held : List Claim} {claims : List ClaimEntry} {claim : Claim} {b : WriteBuffer}

/-! ## A client who is alone -/

/-- Nothing is going on and nothing was cut. These are the claims, and those that are held. -/
structure Quiet (u : Run) (held : List Claim) (claims : List ClaimEntry) : Prop where
  idle : u.lifecycle.Idle
  ungated : u.stream.storage.isGated = false
  held : u.held = held
  settled : u.settled = []
  claims : u.claims = claims

/-- A command of a client who is alone. -/
theorem Quiet.after_alone (h : u.Quiet held claims) (command : Command)
    (hcut : ∀ position, command ≠ .truncate position) :
    (u.after (alone command)).Quiet held claims ∧
      (u.after (alone command)).stream = ((LogStream.perform command).run u.stream).2 := by
  obtain ⟨hidle, hstream, hunder⟩ := Run.after_alone h.idle h.ungated hcut
  exact ⟨⟨hidle, hunder.heading.ungated, hunder.held.trans h.held, hunder.settled.trans h.settled,
    hunder.claims.trans h.claims⟩, hstream⟩

theorem Quiet.claimed {length : Nat} (h : u.Quiet held claims)
    (hclaim : (WriteBuffer.tryClaim length).run u.buffer = (.ok claim, b)) :
    (u.step (.claim length)).Quiet (held ++ [claim]) (claims ++ [⟨claim.slot, .held⟩]) ∧
      (u.step (.claim length)).stream = u.stream.withBuffer fun _ => b := by
  have hact : u.act (.claim length) = { u.withBuffer b with
      held := u.held ++ [claim]
      claims := u.claims ++ [⟨claim.slot, .held⟩] } := by
    unfold act
    dsimp only
    rw [hclaim]
  unfold step
  rw [hact]
  exact ⟨⟨⟨h.idle.current, h.idle.queue, h.idle.pendingOpen⟩, h.ungated, by rw [h.held], h.settled,
    by rw [h.claims]⟩, rfl⟩

theorem Quiet.committed (h : u.Quiet (claim :: held) claims)
    (hlength : p.length = claim.payload.length) :
    (u.step (.commit 0 p)).Quiet held (claims.map (ClaimEntry.finish claim.slot (.committed p))) ∧
      (u.step (.commit 0 p)).stream
        = u.stream.withBuffer fun b => b.commit { claim with payload := p } := by
  have hact : u.act (.commit 0 p)
      = u.endClaim 0 claim (.committed p) (u.buffer.commit { claim with payload := p }) := by
    unfold act
    dsimp only
    rw [h.held, List.getElem?_cons_zero]
    dsimp only
    rw [if_pos hlength]
  unfold step
  rw [hact]
  exact ⟨⟨⟨h.idle.current, h.idle.queue, h.idle.pendingOpen⟩, h.ungated,
    by rw [endClaim, h.held]; rfl, h.settled, by rw [endClaim, h.claims]⟩, rfl⟩

/-- A record is put into the buffer. -/
theorem Quiet.put (h : u.Quiet [] claims)
    (hs : u.stream.Awake longest commit [] bytes index position) (hne : p ≠ [])
    (hle : p.length ≤ longest) :
    ∃ slot, (u.after [.claim p.length, .commit 0 p]).Quiet []
        (claims.map (ClaimEntry.finish slot (.committed p)) ++ [⟨slot, .committed p⟩]) ∧
      (u.after [.claim p.length, .commit 0 p]).stream.Awake longest commit
        [⟨slot, Frame.lengthFor p.length, .committed p⟩] bytes index position := by
  obtain ⟨claim, b, hclaim, hlength, hholding, hopen⟩ := hs.holding.claim hs.unshut
    (List.length_pos_iff.2 hne) hle
  obtain ⟨hclaimed, hstream⟩ := h.claimed hclaim
  obtain ⟨hquiet, hstream'⟩ := hclaimed.committed hlength.symm
  obtain ⟨hfilled, hstill⟩ := WriteBuffer.Holding.commit { claim with payload := p } hholding
  refine ⟨claim.slot, ?_, ?_⟩
  · rw [List.map_append, List.map_singleton, ClaimEntry.finish, if_pos ⟨rfl, rfl⟩] at hquiet
    exact hquiet
  · show ((u.step _).step _).stream.Awake ..
    rw [hstream', hstream]
    exact hs.withBuffer hfilled (hstill.trans hopen)

/-- A cycle stores the record that is in the buffer. -/
theorem Quiet.drained {id reserved : Nat} {after : BlockIndex} (h : u.Quiet held claims)
    (hs : u.stream.Awake longest commit [⟨id, reserved, .committed p⟩] bytes index position)
    (htakes : index.append position bytes.length = .ok after) :
    (u.step .drain).Quiet held claims ∧
      (u.step .drain).stream.Awake longest commit [] (bytes ++ Frame.encode position p) after
        (position + p.length) ∧
      ⟨position, bytes.length, p⟩ ∈ (u.step .drain).released := by
  have hawake := hs.drain htakes
  have hgate : u.appender.SameGate u.appender.cycle := Appender.atWork_sameGate.cycle u.appender
  have hreleased : u.releasedBefore (u.act .drain) = [⟨position, bytes.length, p⟩] := by
    unfold releasedBefore
    rw [show u.buffer.slots = [⟨id, reserved, .committed p⟩] from hs.holding.queue,
      show (u.act .drain).buffer.slots = [] from hawake.holding.queue,
      show u.appender.nextPosition = position from hs.next,
      show u.stored = bytes from hs.memory.stored]
    rfl
  refine ⟨⟨⟨h.idle.current, h.idle.queue, h.idle.pendingOpen⟩, hgate.trans h.ungated, h.held,
    h.settled, h.claims⟩, hawake, ?_⟩
  show _ ∈ (u.released ++ u.releasedBefore (u.act .drain)).filter _
  rw [hreleased, List.mem_filter, List.mem_append, List.mem_singleton]
  refine ⟨.inr rfl, decide_eq_true ?_⟩
  rw [show (u.act .drain).stored = bytes ++ Frame.encode position p from hawake.memory.stored,
    List.length_append, Frame.length_encode]
  exact Nat.le_refl _

/-- The commit position is raised, and what was released still is. -/
theorem Quiet.raised {slots : List Slot} (h : u.Quiet held claims)
    (hs : u.stream.Awake longest commit slots bytes index position) (target : Int) :
    (u.step (.raiseCommit target)).Quiet held claims ∧
      (u.step (.raiseCommit target)).stream.Awake longest (max commit target) slots bytes index
        position ∧
      ∀ r ∈ u.released, r.nextAddress ≤ bytes.length →
        r ∈ (u.step (.raiseCommit target)).released := by
  refine ⟨⟨⟨h.idle.current, h.idle.queue, h.idle.pendingOpen⟩, h.ungated, h.held, h.settled,
    h.claims⟩, ⟨⟨hs.enabled, hs.unsaved, hs.dense, hs.whole, hs.unfailed, ?_, hs.holding⟩, hs.state,
    hs.isRunning, hs.phase, hs.unshut, hs.memory, hs.indexed, hs.indexing, hs.due, hs.next⟩,
    fun r hr hbelow => ?_⟩
  · obtain rfl := hs.commit
    rfl
  · refine List.mem_filter.2 ⟨List.mem_append_left _ hr, decide_eq_true ?_⟩
    rw [show (u.act (.raiseCommit target)).stored = bytes from hs.memory.stored]
    exact hbelow

/-- The cycle that is to store a record fails where the index refuses its block. -/
theorem Quiet.refused {e : LogError} (h : u.Quiet [] claims)
    (hs : u.stream.Awake longest commit [] bytes index position) (hne : p ≠ [])
    (hle : p.length ≤ longest) (hrefuses : index.append position bytes.length = .error e) :
    ∃ a ∈ u.cycles [.claim p.length, .commit 0 p, .drain],
      (Appender.drainOnce.run a).1 = .error e := by
  obtain ⟨slot, -, hawake⟩ := h.put hs hne hle
  have hlive : (u.after [.claim p.length, .commit 0 p]).appender.isLive = true := hawake.isLive
  refine ⟨_, ?_, hawake.refused hrefuses⟩
  show _ ∈ u.cycles ([.claim p.length, .commit 0 p] ++ [.drain])
  rw [cycles_append]
  refine List.mem_append_right _ (List.mem_append_left _ ?_)
  rw [cyclesOf, if_pos hlive]
  exact List.mem_singleton_self _

/-! ## A record that is misread -/

/-- A stream over an empty log in memory that takes records of up to `longest` bytes and gives an
entry to every block. -/
def roomy (longest : Nat) : LogStream where
  config := {
    writeBufferSize := Frame.lengthFor longest
    maxAppendBlock := Frame.lengthFor longest
    indexBlockSize := 1 }
  appender := {
    log := { storage := .newMemory, sampling := { threshold := 1, windowSize := 1024 } }
    buffer := { capacity := Frame.lengthFor longest, maxFragment := longest }
    maxBlock := Frame.lengthFor longest }

/-- It is what is created, if index blocks of one byte come to a threshold of one byte. -/
theorem create_roomy (hpos : 0 < longest)
    (hthreshold : (roomy longest).config.samplingThreshold = 1) :
    LogStream.create (roomy longest).config .newMemory = .ok (roomy longest) := by
  have hmax : (roomy longest).config.maxFragment = longest := by
    show min (Frame.lengthFor longest) (Frame.lengthFor longest) - Frame.headerLength = longest
    rw [Nat.min_self, Frame.lengthFor]
    omega
  have hdeviation : (0 : Float32) < 0.1 ∧ (0.1 : Float32) ≤ 1 := by decide
  have hvalid : (roomy longest).config.validate = .ok () := by
    unfold LogConfig.validate
    rw [hmax]
    simp [roomy, hdeviation, Frame.lengthFor, Frame.headerLength, hpos.ne']
  unfold LogStream.create
  rw [hvalid, LogConfig.create_of_validate hvalid, hmax, hthreshold]
  rfl

theorem begins_roomy (longest : Nat) : Begins (roomy longest) [] :=
  ⟨⟨rfl, rfl, rfl, rfl, rfl, rfl⟩, trivial, rfl, fun _ hx => absurd hx List.not_mem_nil⟩

theorem quiet_roomy (longest : Nat) : (start (roomy longest) []).Quiet [] [] :=
  ⟨⟨rfl, rfl, rfl⟩, rfl, rfl, rfl, rfl⟩

theorem asleep_roomy (longest : Nat) : (roomy longest).Asleep longest (-1) [] .empty :=
  ⟨⟨rfl, rfl, rfl, rfl, rfl, rfl, ⟨rfl, rfl, rfl, Nat.le_refl _⟩⟩, rfl, rfl, rfl,
    ⟨⟨0, rfl⟩, fun _ _ => rfl⟩, rfl⟩

/-- A record is stored, and the commit position raised. -/
def store (p : Bytes) (commit : Int) : List Action :=
  alone .openUp ++ [.claim p.length, .commit 0 p, .drain, .raiseCommit commit]

def reopen : List Action := alone .close ++ alone .openUp

theorem whole_store_reopen (p : Bytes) (commit : Int) :
    ∀ action ∈ store p commit ++ reopen, ¬ action.Tears := by
  simp [store, reopen, alone, Action.Tears]

/-- The only record of the log is `p`. -/
def filled (p : Bytes) (commit : Int) : Run := (start (roomy p.length) []).after (store p commit)

/-- And then the log was closed and opened again. -/
def reopened (p : Bytes) (commit : Int) : Run :=
  (start (roomy p.length) []).after (store p commit ++ reopen)

/-- The index of a log whose only block has an entry. -/
def single : BlockIndex := ⟨[⟨0, 0⟩], List.pairwise_singleton ..⟩

variable {x : Bytes} {rest : List Bytes} (hne : p ≠ [])
include hne

theorem filled_spec (commit : Int) :
    ∃ slot, (filled p commit).Quiet [] [⟨slot, .committed p⟩] ∧
      (filled p commit).stream.Awake p.length (max (-1) commit) [] (Frame.encode 0 p) single
        p.length ∧
      ⟨0, 0, p⟩ ∈ (filled p commit).released := by
  obtain ⟨hopen, hstream⟩ := (quiet_roomy p.length).after_alone .openUp (by simp)
  have hawake : ((start (roomy p.length) []).after (alone .openUp)).stream.Awake p.length (-1) [] []
      .empty 0 := by
    rw [hstream]
    exact (asleep_roomy p.length).openUp_empty
  obtain ⟨slot, hput, hfull⟩ := hopen.put hawake hne (Nat.le_refl _)
  have htakes : BlockIndex.empty.append 0 ([] : Bytes).length = .ok single := rfl
  obtain ⟨hdrained, hstored, hreleased⟩ := hput.drained hfull htakes
  obtain ⟨hquiet, hraised, hkept⟩ := hdrained.raised hstored commit
  have hfilled : filled p commit = ((((start (roomy p.length) []).after (alone .openUp)).after
      [.claim p.length, .commit 0 p]).step .drain).step (.raiseCommit commit) := by
    rw [filled, store, after_append]
    rfl
  rw [Int.zero_add] at hraised
  rw [hfilled]
  refine ⟨slot, hquiet, hraised, hkept _ hreleased ?_⟩
  rw [List.nil_append, Frame.length_encode]
  exact Nat.le_of_eq (Nat.zero_add _)

variable (hp : Frame.Misread p (x :: rest)) (hr : Frame.Readable 0 (x :: rest))
include hp hr

/-- Reopened, a log whose only record is misread ends before what looks severed, unless a committed
record belongs there. Its index lists what was read instead of the record. -/
theorem reopened_spec (commit : Int) :
    ∃ slot index since,
      Scan.sampleAll 1 (Frame.recordsOf 0 0 (x :: rest)) single none = .ok (index, since) ∧
      (reopened p commit).Quiet [] [⟨slot, .committed p⟩] ∧
      (max (-1) commit < Frame.span (x :: rest) →
        (reopened p commit).stream.Awake p.length (max (-1) commit) []
          (Frame.encodeRun 0 (x :: rest)) index (Frame.span (x :: rest))) ∧
      (Frame.span (x :: rest) ≤ max (-1) commit →
        (reopened p commit).stored = Frame.encode 0 p ∧
          (reopened p commit).stream.index = index) := by
  obtain ⟨slot, hquiet, hawake, -⟩ := filled_spec hne commit
  obtain ⟨tail, hencode, htail⟩ := hp
  have hreopened : reopened p commit
      = ((filled p commit).after (alone .close)).after (alone .openUp) := by
    rw [reopened, after_append, reopen, after_append]
    rfl
  obtain ⟨hclosed, hstream⟩ := hquiet.after_alone .close (by simp)
  obtain ⟨hopened, hstream'⟩ := hclosed.after_alone .openUp (by simp)
  have hasleep : ((filled p commit).after (alone .close)).stream.Asleep p.length (max (-1) commit)
      (Frame.encodeRun 0 (x :: rest) ++ tail) single := by
    rw [hstream, ← hencode]
    exact hawake.closeStream
  have hlists : single.Lists (x :: rest) := by
    intro e he
    obtain rfl := List.mem_singleton.1 he
    exact ⟨⟨0, 0, x⟩, List.mem_cons_self, rfl, rfl⟩
  obtain ⟨index, since, hsampled, hcut, hleft⟩ := hasleep.openUp_severed htail hr hlists rfl
  rw [hreopened]
  refine ⟨slot, index, since, hsampled, hopened, fun hcommit => ?_, fun hcommit => ?_⟩
  · rw [hstream']
    exact hcut hcommit
  · obtain ⟨hmemory, hindex⟩ := hleft hcommit
    rw [stored, hstream', hencode]
    exact ⟨hmemory.stored, hindex⟩

/-- Once the log is reopened, a record that is misread is not accounted for. -/
theorem not_accounted (hcommit : max (-1) commit < Frame.span (x :: rest))
    (drained : List ClaimEntry) : ¬ (reopened p commit).Accounted drained := by
  intro haccounted
  obtain ⟨slot, index, since, -, hquiet, hcut, -⟩ := reopened_spec hne hp hr commit
  have hawake := hcut hcommit
  have hbuffer : (reopened p commit).buffer.slots = [] := hawake.holding.queue
  have hdrained : [⟨slot, .committed p⟩] = drained := by
    have hclaims := haccounted.claims
    rw [hquiet.claims, WriteBuffer.entries, hbuffer] at hclaims
    exact hclaims.trans (List.append_nil drained)
  have hvisible : (reopened p commit).appender.visible = Frame.encodeRun 0 (x :: rest) :=
    (Appender.visible_of_none hawake.whole).trans hawake.memory.stored
  have hlog := haccounted.log
  rw [hvisible, ← hdrained, hquiet.settled] at hlog
  -- what is left is shorter than the frame of the record
  have hshort := hp.length_lt
  rw [hlog] at hshort
  simp [payloadsOf, ClaimEntry.payload?, Frame.encodeRun] at hshort

/-- Reopening the log destroys the frame of a record that is misread, also if it is committed. -/
theorem not_intact (hcommit : max (-1) commit < Frame.span (x :: rest)) :
    ⟨0, 0, p⟩ ∈ (filled p commit).released ∧
      Record.Intact ⟨0, 0, p⟩ (filled p commit).stored ∧
      (filled p commit).stream.commit = max (-1) commit ∧
      ¬ Record.Intact ⟨0, 0, p⟩ (reopened p commit).stored := by
  obtain ⟨-, -, hawake, hreleased⟩ := filled_spec hne commit
  obtain ⟨slot, index, since, -, -, hcut, -⟩ := reopened_spec hne hp hr commit
  have hfilled : (filled p commit).stored = Frame.encode 0 p := hawake.memory.stored
  have hreopened : (reopened p commit).stored = Frame.encodeRun 0 (x :: rest) :=
    (hcut hcommit).memory.stored
  refine ⟨hreleased, ?_, hawake.commit, fun hintact => ?_⟩
  · rw [hfilled]
    exact List.take_of_length_le (Nat.le_of_eq (Frame.length_encode ..))
  · have hshort := hp.length_lt
    have hsame := congrArg List.length hintact
    rw [hreopened, Bytes.length_slice] at hsame
    dsimp only at hsame
    omega

omit hne hp hr

/-! ## Payloads of 2^32 + 1 bytes -/

/-- A payload of 2^32 + 1 bytes is misread as one of a single byte and an empty one. -/
theorem exists_overlong :
    ∃ p : Bytes, p ≠ [] ∧ p.length = 2 ^ 32 + 1 ∧ Frame.Misread p [[0], []] := by
  have hroom : (Frame.encodeRun ([0] : Bytes).length [[]]).length + Frame.headerLength ≤ 2 ^ 32 := by
    rw [Frame.encodeRun, Frame.encodeRun, List.append_nil, Frame.length_encode]
    decide
  obtain ⟨p, hlength, hmisread⟩ := Frame.exists_misread [0] [[]] hroom
  exact ⟨p, List.ne_nil_of_length_eq_add_one hlength, hlength, hmisread⟩

theorem readable_overlong : Frame.Readable 0 [[0], []] := by
  simp [Frame.Readable, Frame.Framable]

theorem sampleAll_overlong : Scan.sampleAll 1 (Frame.recordsOf 0 0 [[0], []]) single none
    = .ok (⟨[⟨0, 0⟩, ⟨1, 17⟩], by decide⟩, some 16) := rfl

/-- A committed payload is neither in the log nor in the buffer. -/
theorem overlong_unaccounted : ∃ p : Bytes, p.length = 2 ^ 32 + 1 ∧ Begins (roomy p.length) [] ∧
    (∀ action ∈ store p (-1) ++ reopen, ¬ action.Tears) ∧
    ∀ drained, ¬ Accounted ((start (roomy p.length) []).after (store p (-1) ++ reopen)) drained := by
  obtain ⟨p, hne, hlength, hmisread⟩ := exists_overlong
  exact ⟨p, hlength, begins_roomy _, whole_store_reopen p (-1),
    not_accounted hne hmisread readable_overlong (by decide)⟩

/-- A released record up to the commit position is destroyed. -/
theorem overlong_destroyed : ∃ (p : Bytes) (r : Record), p.length = 2 ^ 32 + 1 ∧
    Begins (roomy p.length) [] ∧ (∀ action ∈ store p 0 ++ reopen, ¬ action.Tears) ∧
    r ∈ ((start (roomy p.length) []).after (store p 0)).released ∧
    r.Intact ((start (roomy p.length) []).after (store p 0)).stored ∧
    r.position ≤ ((start (roomy p.length) []).after (store p 0)).stream.commit ∧
    ¬ r.Intact ((start (roomy p.length) []).after (store p 0 ++ reopen)).stored := by
  obtain ⟨p, hne, hlength, hmisread⟩ := exists_overlong
  have hpast : max (-1) 0 < (Frame.span [[0], []] : Int) := by decide
  obtain ⟨hreleased, hintact, hcommit, hdestroyed⟩ :=
    not_intact hne hmisread readable_overlong hpast
  have hbelow : 0 ≤ (filled p 0).stream.commit := by
    rw [hcommit]
    decide
  exact ⟨p, ⟨0, 0, p⟩, hlength, begins_roomy _, whole_store_reopen p 0, hreleased, hintact, hbelow,
    hdestroyed⟩

/-- The log has one record, and the index an entry that is not its place. -/
theorem overlong_misindexed : ∃ p : Bytes, p.length = 2 ^ 32 + 1 ∧ Begins (roomy p.length) [] ∧
    (∀ action ∈ store p 1 ++ reopen, ¬ action.Tears) ∧
    ((start (roomy p.length) []).after (store p 1 ++ reopen)).stored = Frame.encodeRun 0 [p] ∧
    ∃ e ∈ ((start (roomy p.length) []).after (store p 1 ++ reopen)).stream.index.entries,
      ∀ r ∈ Frame.recordsOf 0 0 [p], r.position ≠ e.position ∧ r.address ≠ e.address := by
  obtain ⟨p, hne, hlength, hmisread⟩ := exists_overlong
  obtain ⟨slot, index, since, hsampled, -, -, hleft⟩ :=
    reopened_spec hne hmisread readable_overlong 1
  obtain ⟨hstored, hindex⟩ := hleft (by decide)
  rw [sampleAll_overlong, Except.ok.injEq, Prod.mk.injEq] at hsampled
  obtain ⟨rfl, rfl⟩ := hsampled
  refine ⟨p, hlength, begins_roomy _, whole_store_reopen p 1, ?_, ⟨1, 17⟩, ?_, fun r hr => ?_⟩
  · rw [Frame.encodeRun, Frame.encodeRun, List.append_nil]
    exact hstored
  · have hentries := congrArg BlockIndex.entries hindex
    exact hentries ▸ List.mem_cons_of_mem _ List.mem_cons_self
  · obtain rfl := List.mem_singleton.1 hr
    simp

/-- The next block is stored, and not noted. -/
theorem overlong_unnoted : ∃ p : Bytes, p.length = 2 ^ 32 + 1 ∧ Begins (roomy p.length) [] ∧
    (∀ action ∈ store p (-1) ++ reopen ++ [.claim 1, .commit 0 [7], .drain], ¬ action.Tears) ∧
    ∃ a ∈ (start (roomy p.length) []).cycles
      (store p (-1) ++ reopen ++ [.claim 1, .commit 0 [7], .drain]), ¬ a.Notes := by
  obtain ⟨p, hne, hlength, hmisread⟩ := exists_overlong
  obtain ⟨slot, index, since, hsampled, hquiet, hcut, -⟩ :=
    reopened_spec hne hmisread readable_overlong (-1)
  rw [sampleAll_overlong, Except.ok.injEq, Prod.mk.injEq] at hsampled
  obtain ⟨rfl, rfl⟩ := hsampled
  obtain ⟨a, ha, hfailed⟩ :=
    hquiet.refused (p := [7]) (hcut (by decide)) (by simp) (by simp [hlength]) rfl
  refine ⟨p, hlength, begins_roomy _, ?_, a, ?_, fun hnotes => ?_⟩
  · exact List.forall_mem_append.2 ⟨whole_store_reopen p (-1), by decide⟩
  · rw [cycles_append]
    exact List.mem_append_right _ ha
  · have hkind := hnotes.fails _ _ (Prod.ext hfailed rfl)
    simp [LogError.kind] at hkind

end Run

end PartitionLog
