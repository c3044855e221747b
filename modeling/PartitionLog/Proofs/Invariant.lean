import PartitionLog.Proofs.Advance
import PartitionLog.Proofs.Booking

/-!
# The invariant of a run

`u.Holds strict payloads` is what every step of a run keeps: the appender keeps the log with
`payloads`, the stream is in the stage of its lifecycle, the claims that are held have their slots,
and, if `strict` holds, the ledger accounts for `payloads`. `Goes u v payloads after` says what a
step does to the records of the log. `Holds.act` puts both together, one lemma for each action.
-/

namespace PartitionLog

namespace Run

structure Holds (strict : Prop) (u : Run) (payloads : List Bytes) : Prop where
  kept : u.appender.Kept strict payloads
  stage : u.stream.In payloads u.lifecycle.stage
  booked : Booked u.buffer u.held u.claims
  /-- The payloads in the log are those of the ledger whose claims are not in the buffer. -/
  ledger : strict → ∃ drained, u.claims = drained ++ u.buffer.entries ∧
    (∀ e ∈ drained, e.fate ≠ .held) ∧ payloads = u.settled ++ payloadsOf drained

/-- What a step does to the records of a log. -/
structure Goes (torn : Prop) (u v : Run) (payloads after : List Bytes) : Prop where
  stays : ∀ r ∈ Frame.recordsOf 0 0 payloads, r.nextAddress ≤ v.stored.length →
    r ∈ Frame.recordsOf 0 0 after
  released : ∀ r ∈ u.releasedBefore v, r ∈ Frame.recordsOf 0 0 after
  committed : ¬ torn → ∀ r ∈ Frame.recordsOf 0 0 payloads, r.position ≤ u.stream.commit →
    r ∈ Frame.recordsOf 0 0 after

variable {strict torn : Prop} {u v : Run} {payloads after : List Bytes}

theorem mem_of_isPrefix (h : payloads <+: after) {r : Record}
    (hr : r ∈ Frame.recordsOf 0 0 payloads) : r ∈ Frame.recordsOf 0 0 after := by
  obtain ⟨more, rfl⟩ := h
  exact Frame.mem_recordsOf_append hr more

theorem releasedBefore_of_le (h : u.buffer.slots.length ≤ v.buffer.slots.length) :
    u.releasedBefore v = [] := by
  unfold releasedBefore
  rw [Nat.sub_eq_zero_of_le h]
  rfl

/-- Where no slot is freed and nothing is cut off, the log goes on. -/
theorem Goes.of_isPrefix (h : payloads <+: after)
    (hslots : u.buffer.slots.length ≤ v.buffer.slots.length) : Goes torn u v payloads after where
  stays := fun _ hr _ => mem_of_isPrefix h hr
  released := by simp [releasedBefore_of_le hslots]
  committed := fun _ _ hr _ => mem_of_isPrefix h hr

/-- The records of freed slots are put where the log ended. -/
theorem Goes.of_drained {middle : List Bytes}
    (h : Appender.Drained u.appender v.appender payloads middle) (hmore : middle <+: after) :
    Goes torn u v payloads after := by
  obtain ⟨count, hle, hslots, -, -, rfl, hsettled⟩ := h
  have hon : payloads <+: after := (List.prefix_append ..).trans hmore
  refine ⟨fun _ hr _ => mem_of_isPrefix hon hr, fun r hr => mem_of_isPrefix hmore ?_,
    fun _ _ hr _ => mem_of_isPrefix hon hr⟩
  have hcount : u.buffer.slots.length - v.buffer.slots.length = count := by
    rw [show v.buffer.slots = u.buffer.slots.drop count from hslots, List.length_drop]
    have : count ≤ u.buffer.slots.length := hle
    omega
  rw [releasedBefore, hcount] at hr
  rcases Nat.eq_zero_or_pos count with rfl | hpos
  · simp [entriesOf, payloadsOf, Frame.recordsOf] at hr
  · obtain ⟨hset, hnone⟩ := hsettled hpos
    have hstored : u.stored = Frame.encodeRun 0 payloads :=
      (Appender.visible_of_none hnone).symm.trans hset.whole
    rw [Frame.recordsOf_append, Int.zero_add, Nat.zero_add, ← hset.next, ← hstored]
    exact List.mem_append_right _ hr

/-- A cut beyond the commit position leaves the committed records. -/
theorem Goes.of_cut {gone : List Bytes} (hcommit : u.stream.commit < Frame.span after)
    (hslots : u.buffer.slots.length ≤ v.buffer.slots.length)
    (hstored : v.stored = Frame.encodeRun 0 after) (h : payloads = after ++ gone) :
    Goes torn u v payloads after := by
  subst h
  refine ⟨fun r hr hle => ?_, by simp [releasedBefore_of_le hslots], fun _ r hr hle => ?_⟩
  · refine Frame.mem_recordsOf_of_lt hr ?_
    have := r.lt_nextAddress
    rw [← hstored]
    omega
  · rw [Frame.recordsOf_append] at hr
    rcases List.mem_append.1 hr with hr | hr
    · exact hr
    · have := Frame.position_le_of_mem hr
      omega

/-! ## Steps of the stream -/

/-- The ledger after slots were freed. -/
theorem ledger_of_drained {settled : List Bytes} {claims : List ClaimEntry} {a b : Appender}
    (h : ∃ drained, claims = drained ++ a.buffer.entries ∧ (∀ e ∈ drained, e.fate ≠ .held) ∧
      payloads = settled ++ payloadsOf drained)
    (hd : Appender.Drained a b payloads after) :
    ∃ drained, claims = drained ++ b.buffer.entries ∧ (∀ e ∈ drained, e.fate ≠ .held) ∧
      after = settled ++ payloadsOf drained := by
  obtain ⟨drained, rfl, hheld, rfl⟩ := h
  obtain ⟨count, -, hslots, -, hended, rfl, -⟩ := hd
  refine ⟨drained ++ entriesOf (a.buffer.slots.take count), ?_, ?_, ?_⟩
  · rw [a.buffer.entries_split count, ← hslots, List.append_assoc]
    rfl
  · exact List.forall_mem_append.2 ⟨hheld, not_held_of_ended hended⟩
  · rw [payloadsOf_append, List.append_assoc]

theorem booked_of_drained {a b : Appender} {held : List Claim} {claims : List ClaimEntry}
    (h : Booked a.buffer held claims) (hd : Appender.Drained a b payloads after) :
    Booked b.buffer held claims := by
  obtain ⟨count, -, hslots, hnext, hended, -, -⟩ := hd
  exact h.drop hended hslots hnext

/-- The appender drained some blocks. -/
theorem Holds.drained (h : Holds strict u payloads) {f : Appender → Appender}
    (hkept : (f u.appender).Kept strict after)
    (hready : u.appender.Ready payloads → (f u.appender).Ready after)
    (hdrained : Appender.Drained u.appender (f u.appender) payloads after)
    (hrests : u.appender.isRunning = false → (f u.appender).isRunning = false) :
    Holds strict (u.onStream (·.withAppender f)) after ∧
      Goes torn u (u.onStream (·.withAppender f)) payloads after :=
  ⟨⟨hkept, h.stage.map rfl hready hrests, booked_of_drained h.booked hdrained,
    fun hstrict => ledger_of_drained (h.ledger hstrict) hdrained⟩,
    .of_drained hdrained List.prefix_rfl⟩

theorem Holds.drain (h : Holds strict u payloads) (hsize : u.stored.length < 2 ^ 63) :
    ∃ after, Holds strict (u.act .drain) after ∧ Goes torn u (u.act .drain) payloads after := by
  obtain ⟨after, hkept, hready, hdrained, hrests⟩ :=
    Appender.cycle_spec h.kept h.stage.ready_of_live hsize
  exact ⟨after, h.drained hkept hready hdrained hrests⟩

theorem Holds.wake (h : Holds strict u payloads)
    (hafter : (u.act .wake).stored.length < 2 ^ 63) :
    ∃ after, Holds strict (u.act .wake) after ∧ Goes torn u (u.act .wake) payloads after := by
  obtain ⟨after, hkept, hready, hdrained, hrests⟩ :=
    Appender.wake_spec h.kept h.stage.ready_of_live hafter
  exact ⟨after, h.drained hkept hready hdrained hrests⟩

theorem Holds.refl (h : Holds strict u payloads) :
    ∃ after, Holds strict u after ∧ Goes torn u u payloads after :=
  ⟨payloads, h, .of_isPrefix List.prefix_rfl (Nat.le_refl _)⟩

theorem Holds.request (h : Holds strict u payloads) (command : Command) :
    ∃ after, Holds strict (u.act (.request command)) after ∧
      Goes torn u (u.act (.request command)) payloads after := by
  have hsame : (u.lifecycle.request command).2.stream = u.lifecycle.stream ∧
      (u.lifecycle.request command).2.current = u.lifecycle.current := by
    unfold Lifecycle.request Lifecycle.requestOpen Lifecycle.requestClose
    split
    · split <;> exact ⟨rfl, rfl⟩
    · split
      · exact ⟨rfl, rfl⟩
      · split <;> exact ⟨rfl, rfl⟩
    · exact ⟨rfl, rfl⟩
  have hstream : (u.act (.request command)).stream = u.stream := hsame.1
  have hstage : (u.act (.request command)).lifecycle.stage = u.lifecycle.stage := by
    unfold Lifecycle.stage
    rw [show (u.act (.request command)).lifecycle.current = u.lifecycle.current from hsame.2]
  refine ⟨payloads, ⟨?_, ?_, ?_, ?_⟩, .of_isPrefix List.prefix_rfl ?_⟩
  · unfold appender
    rw [hstream]
    exact h.kept
  · rw [hstream, hstage]
    exact h.stage
  · unfold buffer
    rw [hstream]
    exact h.booked
  · unfold buffer
    rw [hstream]
    exact h.ledger
  · unfold buffer
    exact Nat.le_of_eq (by rw [hstream])

theorem Holds.raiseCommit (h : Holds strict u payloads) (position : Int) :
    ∃ after, Holds strict (u.act (.raiseCommit position)) after ∧
      Goes torn u (u.act (.raiseCommit position)) payloads after :=
  ⟨payloads, ⟨h.kept, h.stage.map rfl id id, h.booked, h.ledger⟩,
    .of_isPrefix List.prefix_rfl (Nat.le_refl _)⟩

/-- The records before the place of a cut. -/
theorem filter_recordsOf {gone : List Bytes} {position : Int} (hne : ∀ x ∈ after, x ≠ [])
    (hspan : Frame.span after = position) :
    ((Frame.recordsOf 0 0 (after ++ gone)).filter (·.position < position)).map Record.payload
      = after := by
  have hfilled : ∀ r ∈ Frame.recordsOf 0 0 after, r.position = position → r.payload ≠ [] := by
    intro r hr hposition
    have := Frame.position_lt_of_mem hne hr
    omega
  rw [Frame.filter_recordsOf_kept hspan hfilled, Frame.map_payload_recordsOf]

/-- What the ledger says once the log was cut at a position, with nothing in the buffer. -/
theorem Holds.ledger_cut {gone : List Bytes} (h : Holds strict u (after ++ gone)) (hstrict : strict)
    (hempty : u.buffer.slots = []) {position : Int} (hspan : Frame.span after = position) :
    (u.cut position).claims = [] ∧ (u.cut position).settled = after := by
  obtain ⟨drained, hclaims, hheld, hpayloads⟩ := h.ledger hstrict
  have hnone : u.claims = drained := by
    rw [hclaims, WriteBuffer.entries, hempty]
    exact List.append_nil _
  have hfilled : ∀ x ∈ after, x ≠ [] :=
    fun x hx => h.kept.filled hstrict x (List.mem_append_left _ hx)
  constructor
  · refine List.filter_eq_nil_iff.2 fun e he => ?_
    simpa using hheld e (hnone ▸ he)
  · show ((Frame.recordsOf 0 0 (u.settled ++ payloadsOf u.claims)).filter _).map _ = after
    rw [hnone, ← hpayloads]
    exact filter_recordsOf hfilled hspan

theorem Holds.advance (h : Holds strict u payloads) (hsize : u.stored.length < 2 ^ 63)
    {patient : Bool} (hafter : (u.act (.advance patient)).stored.length < 2 ^ 63) :
    ∃ after, Holds strict (u.act (.advance patient)) after ∧
      Goes torn u (u.act (.advance patient)) payloads after := by
  unfold act at hafter ⊢
  cases hnext : u.lifecycle.advance patient with
  | none =>
    simp only [hnext]
    exact h.refl
  | some next =>
    simp only [hnext] at hafter ⊢
    have hsmall : next.stream.storage.stored.length < 2 ^ 63 := by
      cases hcut : u.lifecycle.cutAt next with
      | none =>
        simp only [hcut] at hafter
        exact hafter
      | some position =>
        simp only [hcut] at hafter
        exact hafter
    obtain ⟨after, hkept, hstage, -, hmoved⟩ :=
      Lifecycle.advance_spec h.kept h.stage hsize hsmall hnext
    refine ⟨after, ?_⟩
    cases hcut : u.lifecycle.cutAt next with
    | none =>
      rw [hcut] at hmoved
      obtain ⟨middle, hdrained, hmore, hsame⟩ := hmoved
      refine ⟨⟨hkept, hstage, booked_of_drained h.booked hdrained, fun hstrict => ?_⟩,
        .of_drained hdrained hmore⟩
      rw [hsame hstrict]
      exact ledger_of_drained (h.ledger hstrict) hdrained
    | some position =>
      rw [hcut] at hmoved
      obtain ⟨hcommit, hempty, hbuffer, hstored, gone, rfl, hspan⟩ := hmoved
      have hslots : next.stream.buffer.slots = [] := by rw [hbuffer, hempty]
      refine ⟨⟨hkept, hstage, ?_, fun hstrict => ?_⟩, .of_cut (hspan ▸ hcommit) ?_ hstored rfl⟩
      · have hbooked : Booked next.stream.buffer u.held u.claims :=
          h.booked.of_slots (by rw [hbuffer]; rfl) (by rw [hbuffer]; rfl)
        exact { hbooked with
          rising := hbooked.rising.sublist List.filter_sublist
          below := fun e he => hbooked.below e (List.mem_filter.1 he).1 }
      · obtain ⟨hclaims, hsettled⟩ := h.ledger_cut hstrict hempty hspan
        refine ⟨[], ?_, by simp, ?_⟩
        · show (u.cut position).claims = [] ++ entriesOf next.stream.buffer.slots
          rw [hclaims, hslots]
          rfl
        · show after = (u.cut position).settled ++ payloadsOf []
          rw [hsettled]
          exact (List.append_nil _).symm
      · show u.buffer.slots.length ≤ next.stream.buffer.slots.length
        rw [hslots]
        exact Nat.le_of_eq (congrArg List.length hempty)

/-! ## Steps of the producers -/

/-- A buffer that keeps the front of the old one serves the appender as well. -/
theorem Holds.withBuffer (h : Holds strict u payloads) {b : WriteBuffer}
    (hfragments : ∀ x ∈ payloadsOf b.entries, x ≠ [] ∧ x.length < 2 ^ 32)
    (hbuffered : ∀ bytes, Buffered u.buffer.slots bytes → Buffered b.slots bytes)
    (hdrainable : Drainable u.buffer.slots → Drainable b.slots) :
    (u.withBuffer b).appender.Kept strict payloads ∧
      (u.withBuffer b).stream.In payloads u.lifecycle.stage := by
  refine ⟨{ h.kept with
    fragments := hfragments
    stale := ?_ }, h.stage.map rfl (fun hr => ?_) id⟩
  · intro address hstale
    obtain ⟨hrests, hb⟩ := h.kept.stale address hstale
    exact ⟨hrests, hbuffered _ hb⟩
  · rcases hr with hr | hr
    · exact .inl { hr with }
    · exact .inr { hr with drainable := hdrainable hr.drainable }

theorem Holds.claim (h : Holds strict u payloads) (length : Nat) :
    ∃ after, Holds strict (u.act (.claim length)) after ∧
      Goes torn u (u.act (.claim length)) payloads after := by
  cases hrun : (WriteBuffer.tryClaim length).run u.buffer with
  | mk r b =>
    cases r with
    | error e =>
      have hact : u.act (.claim length) = u.withBuffer b := by simp only [act, hrun]
      rw [hact]
      obtain ⟨hslots, hnext⟩ := WriteBuffer.tryClaim_error hrun
      have hentries : b.entries = u.buffer.entries := by unfold WriteBuffer.entries; rw [hslots]
      obtain ⟨hkept, hstage⟩ := h.withBuffer (b := b) (hentries ▸ h.kept.fragments)
        (fun _ => (hslots ▸ ·)) (hslots ▸ ·)
      refine ⟨payloads, ⟨hkept, hstage, h.booked.of_slots hslots hnext, ?_⟩,
        .of_isPrefix List.prefix_rfl (Nat.le_of_eq (congrArg _ hslots.symm))⟩
      show strict → ∃ drained, u.claims = drained ++ b.entries ∧ _
      rw [hentries]
      exact h.ledger
    | ok claim =>
      have hact : u.act (.claim length) = { u.withBuffer b with
          held := u.held ++ [claim]
          claims := u.claims ++ [⟨claim.slot, .held⟩] } := by simp only [act, hrun]
      rw [hact]
      obtain ⟨⟨reserved, new, hclaimed⟩, hlength, hpos, -⟩ := WriteBuffer.tryClaim_ok hrun
      have hentries : b.entries = u.buffer.entries ++ [⟨claim.slot, .held⟩] := by
        unfold WriteBuffer.entries
        rw [hclaimed.slots, entriesOf_append, hclaimed.entries]
      have hpayloads : payloadsOf b.entries = payloadsOf u.buffer.entries := by
        rw [hentries, payloadsOf_append]
        exact List.append_nil _
      obtain ⟨hkept, hstage⟩ := h.withBuffer (b := b) (hpayloads ▸ h.kept.fragments)
        (fun _ hb => hclaimed.slots ▸ hb.append new) (hclaimed.slots ▸ ·.append new)
      have hne : claim.payload ≠ [] := by
        intro hnil
        rw [hnil] at hlength
        simp only [List.length_nil] at hlength
        omega
      refine ⟨payloads, ⟨hkept, hstage, h.booked.claim hclaimed hne, fun hstrict => ?_⟩,
        .of_isPrefix List.prefix_rfl ?_⟩
      · obtain ⟨drained, hclaims, hheld, hall⟩ := h.ledger hstrict
        refine ⟨drained, ?_, hheld, hall⟩
        show u.claims ++ [⟨claim.slot, .held⟩] = drained ++ b.entries
        rw [hclaims, hentries, List.append_assoc]
      · show u.buffer.slots.length ≤ b.slots.length
        rw [hclaimed.slots, List.length_append]
        omega

/-- Ending a claim changes what became of it, and nothing else. -/
theorem Holds.endClaim (h : Holds strict u payloads) {index : Nat} {claim : Claim}
    (hclaim : u.held[index]? = some claim) {outcome : SlotState} {fate : Fate}
    (hfate : Slot.entry? ⟨claim.slot, 0, outcome⟩ = some ⟨claim.slot, fate⟩)
    (hpayload : ∀ x, fate = .committed x → x ≠ [] ∧ x.length < 2 ^ 32) :
    ∃ after, Holds strict (u.endClaim index claim fate (u.buffer.finish claim.slot outcome)) after ∧
      Goes torn u (u.endClaim index claim fate (u.buffer.finish claim.slot outcome)) payloads
        after := by
  obtain ⟨hslot, -⟩ := h.booked.claimed claim (List.mem_of_getElem? hclaim)
  have hslots := WriteBuffer.slots_finish h.booked.numbered hslot outcome
  have hentries : (u.buffer.finish claim.slot outcome).entries
      = u.buffer.entries.map (ClaimEntry.finish claim.slot fate) := by
    unfold WriteBuffer.entries
    rw [hslots, WriteBuffer.entriesOf_finish hfate]
  have hfragments : ∀ x ∈ payloadsOf (u.buffer.finish claim.slot outcome).entries,
      x ≠ [] ∧ x.length < 2 ^ 32 := by
    intro x hx
    rw [hentries] at hx
    rcases mem_payloadsOf_finish hx with hold | hnew
    · exact h.kept.fragments x hold
    · exact hpayload x hnew
  obtain ⟨hkept, hstage⟩ := h.withBuffer hfragments
    (fun _ hb => hslots ▸ hb.finish claim.slot outcome)
    (fun hd => hslots ▸ hd.finish claim.slot outcome)
  refine ⟨payloads, ⟨hkept, hstage, h.booked.finish hclaim, fun hstrict => ?_⟩,
    .of_isPrefix List.prefix_rfl ?_⟩
  · obtain ⟨drained, hclaims, hheld, hall⟩ := h.ledger hstrict
    refine ⟨drained, ?_, hheld, hall⟩
    show u.claims.map (ClaimEntry.finish claim.slot fate)
      = drained ++ (u.buffer.finish claim.slot outcome).entries
    have hsame : drained.map (ClaimEntry.finish claim.slot fate) = drained := by
      rw [List.map_congr_left fun e he => ClaimEntry.finish_of_not_held (hheld e he), List.map_id']
    rw [hclaims, List.map_append, hsame, hentries]
  · show u.buffer.slots.length ≤ (u.buffer.finish claim.slot outcome).slots.length
    exact Nat.le_of_eq (by rw [hslots, List.length_map])

theorem Holds.commit (h : Holds strict u payloads) (index : Nat) {payload : Bytes}
    (hfits : payload.length < 2 ^ 32) :
    ∃ after, Holds strict (u.act (.commit index payload)) after ∧
      Goes torn u (u.act (.commit index payload)) payloads after := by
  cases hclaim : u.held[index]? with
  | none =>
    have hact : u.act (.commit index payload) = u := by simp only [act, hclaim]
    rw [hact]
    exact h.refl
  | some claim =>
    by_cases hlength : payload.length = claim.payload.length
    · have hact : u.act (.commit index payload) = u.endClaim index claim (.committed payload)
          (u.buffer.finish claim.slot (.committed payload)) := by
        simp only [act, hclaim, if_pos hlength]
        rfl
      have hne : payload ≠ [] := by
        rintro rfl
        exact (h.booked.claimed claim (List.mem_of_getElem? hclaim)).2
          (List.length_eq_zero_iff.1 hlength.symm)
      rw [hact]
      refine h.endClaim hclaim rfl fun x hx => ?_
      cases hx
      exact ⟨hne, hfits⟩
    · have hact : u.act (.commit index payload) = u := by
        simp only [act, hclaim, if_neg hlength]
      rw [hact]
      exact h.refl

theorem Holds.abort (h : Holds strict u payloads) (index : Nat) :
    ∃ after, Holds strict (u.act (.abort index)) after ∧
      Goes torn u (u.act (.abort index)) payloads after := by
  cases hclaim : u.held[index]? with
  | none =>
    have hact : u.act (.abort index) = u := by simp only [act, hclaim]
    rw [hact]
    exact h.refl
  | some claim =>
    have hact : u.act (.abort index) = u.endClaim index claim .aborted
        (u.buffer.finish claim.slot .aborted) := by
      simp only [act, hclaim]
      rfl
    rw [hact]
    exact h.endClaim hclaim rfl (by simp)

/-! ## A torn storage -/

/-- The frames that fit into the first bytes of a log. -/
theorem exists_fitting (payloads : List Bytes) (position : Int) (address n : Nat) :
    ∃ kept gone, payloads = kept ++ gone ∧
      (Frame.encodeRun position kept).length ≤ n - address ∧
      ∀ r ∈ Frame.recordsOf position address payloads, r.nextAddress ≤ n →
        r ∈ Frame.recordsOf position address kept := by
  induction payloads generalizing position address with
  | nil => exact ⟨[], [], rfl, by simp [Frame.encodeRun], by simp [Frame.recordsOf]⟩
  | cons x rest ih =>
    by_cases hfits : address + Frame.lengthFor x.length ≤ n
    · obtain ⟨kept, gone, rfl, hlen, hmem⟩ :=
        ih (position + x.length) (address + Frame.lengthFor x.length)
      refine ⟨x :: kept, gone, rfl, ?_, fun r hr hle => ?_⟩
      · rw [Frame.encodeRun, List.length_append, Frame.length_encode]
        omega
      · rcases List.mem_cons.1 hr with rfl | hr
        · exact List.mem_cons_self
        · exact List.mem_cons_of_mem _ (hmem r hr hle)
    · refine ⟨[], x :: rest, rfl, by simp [Frame.encodeRun], fun r hr hle => ?_⟩
      rcases List.mem_cons.1 hr with rfl | hr
      · exact absurd hle hfits
      · have := Frame.address_le_of_mem hr
        have := r.lt_nextAddress
        omega

theorem Holds.tear (h : Holds strict u payloads) (hstrict : ¬ strict)
    (rest : { t : Storage // t.Sound }) :
    ∃ after, Holds strict (u.act (.tear rest)) after ∧
      Goes True u (u.act (.tear rest)) payloads after := by
  by_cases hc : u.stream.state = .closed ∧ rest.val.stored <+: u.stored
  · have hact : u.act (.tear rest) = u.onStream (·.withStorage rest.val) := by
      simp only [act, if_pos hc]
    rw [hact]
    obtain ⟨hclosed, hcut⟩ := hc
    obtain ⟨kept, gone, rfl, hlen, hmem⟩ := exists_fitting payloads 0 0 rest.val.stored.length
    have hkept := h.kept.tear hstrict rest.property hcut hlen
    refine ⟨kept, ⟨hkept, h.stage.of_closed hclosed rfl (h.stage.rests_of_closed hclosed),
      h.booked, fun hs => absurd hs hstrict⟩, hmem, ?_, fun hno => absurd trivial hno⟩
    have hnone : u.releasedBefore (u.onStream (·.withStorage rest.val)) = [] :=
      releasedBefore_of_le (Nat.le_refl _)
    simp [hnone]
  · have hact : u.act (.tear rest) = u := by simp only [act, if_neg hc]
    rw [hact]
    exact h.refl

/-! ## Whole runs -/

theorem Holds.act (h : Holds strict u payloads) {action : Action} (hfits : action.Fits)
    (htears : strict → ¬ action.Tears) (hsize : u.stored.length < 2 ^ 63)
    (hafter : (u.act action).stored.length < 2 ^ 63) :
    ∃ after, Holds strict (u.act action) after ∧
      Goes action.Tears u (u.act action) payloads after := by
  cases action with
  | request command => exact h.request command
  | advance patient => exact h.advance hsize hafter
  | claim length => exact h.claim length
  | commit index payload => exact h.commit index hfits
  | abort index => exact h.abort index
  | drain => exact h.drain hsize
  | wake => exact h.wake hafter
  | raiseCommit position => exact h.raiseCommit position
  | tear rest => exact h.tear (fun hstrict => htears hstrict trivial) rest

/-- `Holds`, and every record that was released is still in the log. -/
structure Good (strict : Prop) (u : Run) (payloads : List Bytes) : Prop extends
    Holds strict u payloads where
  listed : ∀ r ∈ u.released, r ∈ Frame.recordsOf 0 0 payloads

theorem Good.step (h : Good strict u payloads) {action : Action} (hfits : action.Fits)
    (htears : strict → ¬ action.Tears) (hsize : u.stored.length < 2 ^ 63)
    (hafter : (u.step action).stored.length < 2 ^ 63) :
    ∃ after, Good strict (u.step action) after ∧
      Goes action.Tears u (u.step action) payloads after := by
  obtain ⟨after, hholds, hgoes⟩ := h.toHolds.act hfits htears hsize hafter
  refine ⟨after, ⟨⟨hholds.kept, hholds.stage, hholds.booked, hholds.ledger⟩, fun r hr => ?_⟩,
    ⟨hgoes.stays, hgoes.released, hgoes.committed⟩⟩
  obtain ⟨hmem, hle⟩ := List.mem_filter.1 hr
  rcases List.mem_append.1 hmem with hold | hnew
  · exact hgoes.stays r (h.listed r hold) (of_decide_eq_true hle)
  · exact hgoes.released r hnew

/-- Whether every payload fits the length field of a frame, and the log is never so long that a
position in it does not fit the position field. -/
def Within (u : Run) : List Action → Prop
  | [] => u.stored.length < 2 ^ 63
  | action :: rest => u.stored.length < 2 ^ 63 ∧ action.Fits ∧ (u.step action).Within rest

instance decidableWithin (u : Run) : (actions : List Action) → Decidable (u.Within actions)
  | [] => inferInstanceAs (Decidable (_ < _))
  | action :: rest =>
    have := decidableWithin (u.step action) rest
    inferInstanceAs (Decidable (_ ∧ _ ∧ _))

theorem Within.stored_lt {actions : List Action} (h : u.Within actions) :
    u.stored.length < 2 ^ 63 := by
  cases actions with
  | nil => exact h
  | cons action rest => exact h.1

theorem Within.after_lt {actions : List Action} (h : u.Within actions) :
    (u.after actions).stored.length < 2 ^ 63 := by
  induction actions generalizing u with
  | nil => exact h
  | cons action rest ih => exact ih h.2.2

/-- Induction on the actions; `Good.step` carries it. -/
theorem Good.run {actions : List Action} (h : Good strict u payloads) (hw : u.Within actions)
    (htears : strict → ∀ action ∈ actions, ¬ action.Tears) :
    ∃ after, Good strict (u.after actions) after := by
  induction actions generalizing u payloads with
  | nil => exact ⟨payloads, h⟩
  | cons action rest ih =>
    obtain ⟨hsize, hfits, hrest⟩ := hw
    obtain ⟨middle, hgood, -⟩ := h.step hfits
      (fun hstrict => htears hstrict action List.mem_cons_self) hsize hrest.stored_lt
    exact ih hgood hrest fun hstrict a ha => htears hstrict a (List.mem_cons_of_mem _ ha)

/-- A fresh stream on a storage with the frames of these payloads. -/
structure Begins (s : LogStream) (initial : List Bytes) : Prop where
  fresh : s.Fresh
  sound : s.storage.Sound
  stored : s.storage.stored = Frame.encodeRun 0 initial
  short : ∀ x ∈ initial, x.length < 2 ^ 32

theorem Begins.of_create {config : LogConfig} {storage : Storage} {s : LogStream}
    {initial : List Bytes} (h : LogStream.create config storage = .ok s)
    (hdir : config.dataDir = none) (hs : storage.Sound)
    (hstored : storage.stored = Frame.encodeRun 0 initial)
    (hshort : ∀ x ∈ initial, x.length < 2 ^ 32) : Begins s initial := by
  unfold LogStream.create at h
  cases hv : config.validate with
  | error e => simp [hv, bind, Except.bind] at h
  | ok =>
    cases hb : WriteBuffer.create config.writeBufferSize config.maxFragment with
    | error e => simp [hv, hb, bind, Except.bind] at h
    | ok buffer =>
      have hslots : buffer.slots = [] := by
        unfold WriteBuffer.create at hb
        split at hb
        · simp at hb
        · simp only [Except.ok.injEq] at hb
          subst hb
          rfl
      simp only [hv, hb, bind, Except.bind, pure, Except.pure, Except.ok.injEq] at h
      subst h
      exact ⟨⟨rfl, rfl, rfl, rfl, by simp [LogConfig.snapshotPath, hdir], hslots⟩, hs, hstored,
        hshort⟩

theorem Begins.kept {s : LogStream} {initial : List Bytes} (h : Begins s initial)
    (hfilled : strict → ∀ x ∈ initial, x ≠ []) : s.appender.Kept strict initial := by
  have hvisible : s.appender.visible = Frame.encodeRun 0 initial :=
    (Appender.visible_of_none h.fresh.whole).trans h.stored
  have hindex : s.appender.log.index.entries = [] := h.fresh.unindexed
  have hslots : s.appender.buffer.slots = [] := h.fresh.empty
  exact {
    sound := h.sound
    unsaved := h.fresh.unsaved
    short := h.short
    frames := hvisible ▸ List.prefix_rfl
    first := by
      intro r hd
      rw [hvisible] at hd
      by_cases hne : initial = []
      · rw [hne] at hd
        simp [Frame.encodeRun] at hd
      · exact Frame.first_of_run hne h.short List.prefix_rfl hd
    describes := ⟨by simp [hindex], by simp [hindex]⟩
    stale := by simp [h.fresh.whole]
    fragments := by simp [WriteBuffer.entries, hslots, entriesOf, payloadsOf]
    whole := fun _ => hvisible
    filled := hfilled
    lists := by simp [BlockIndex.Lists, hindex] }

theorem Begins.good {s : LogStream} {initial : List Bytes} (h : Begins s initial)
    (hfilled : strict → ∀ x ∈ initial, x ≠ []) : Good strict (start s initial) initial := by
  have hslots : (start s initial).buffer.slots = [] := h.fresh.empty
  refine ⟨⟨h.kept hfilled, .inr ⟨h.fresh.closed, h.fresh.rests⟩, ?_,
    fun _ => ⟨[], ?_, by simp, ?_⟩⟩, fun _ hr => hr⟩
  · exact ⟨by simp [WriteBuffer.Numbered, hslots], by simp [start], .nil, .nil, by simp [start]⟩
  · rw [WriteBuffer.entries, hslots]
    rfl
  · exact (List.append_nil _).symm

end Run

end PartitionLog
