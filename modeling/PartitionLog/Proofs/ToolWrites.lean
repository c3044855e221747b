import PartitionLog.Proofs.HeldLogs
import PartitionLog.Proofs.ToolPacing

/-!
# Streams over a log that is held

The appender of an invocation works `Over` a log that holds some payloads, and what is committed in its
buffer can be put behind them. Whatever turns it takes, and whether or not records can be written
(`writeAt_over`) and the log truncated (`truncate_over`), it goes on so, and closing the stream saves
the index of a log that is held (`closeStream_over`). While nothing fails, an appender over a log
without empty payloads is `Laden`: it is settled what the log will hold when it is stopped
(`writeAt_laden`, `Laden.stop`).
-/

namespace PartitionLog

namespace WriteBuffer

variable {b after : WriteBuffer}

/-- A claim, made or not, brings no payload into the buffer. -/
theorem payloads_tryClaim {length : Nat} {r : Except LogError Claim}
    (h : (tryClaim length).run b = (r, after)) :
    payloadsOf after.entries = payloadsOf b.entries := by
  cases r with
  | error e => rw [entries, (tryClaim_error h).1]; rfl
  | ok claim =>
    obtain ⟨⟨reserved, new, hclaimed⟩, -⟩ := tryClaim_ok h
    rw [entries, hclaimed.slots, entriesOf_append, hclaimed.entries, payloadsOf_append]
    exact List.append_nil _

/-- Committing brings in the payload that is committed, at most. -/
theorem mem_payloads_commit {claim : Claim} {x : Bytes}
    (h : x ∈ payloadsOf (b.commit claim).entries) :
    x ∈ payloadsOf b.entries ∨ x = claim.payload := by
  obtain ⟨e, he, hx⟩ := mem_payloadsOf.1 h
  obtain ⟨s, hs, hentry⟩ := List.mem_filterMap.1 he
  have hslot : s ∈ b.slots ∨ s.state = .committed claim.payload := by
    dsimp only [commit, WriteBuffer.finish, setState] at hs
    split at hs
    · exact .inl hs
    · split at hs
      · exact .inl hs
      · obtain ⟨k, hk, rfl⟩ := List.getElem_of_mem hs
        rw [List.getElem_modify]
        split
        · exact .inr rfl
        · exact .inl (List.getElem_mem _)
  rcases hslot with hkept | hnew
  · exact .inl (mem_payloadsOf.2 ⟨e, List.mem_filterMap.2 ⟨s, hkept, hentry⟩, hx⟩)
  · rw [Slot.entry?, hnew, Option.some.injEq] at hentry
    subst hentry
    simp only [Fate.committed.injEq] at hx
    exact .inr hx.symm

end WriteBuffer

namespace Appender

variable {a b : Appender} {base : Storage} {path : String} {number : Nat} {target : Option String}
  {payloads fragments total : List Bytes} {held : Option Nat} {buffer : WriteBuffer}

/-! ## Writing a block -/

/-- Without faults a block is stored at the end of the log. -/
theorem storeBlock_open (h : a.log.storage.OpenAt path number) (block : Bytes) :
    ∃ t n, (storeBlock block).run a
        = (.ok a.stored.length, { a.withStorage t with unflushed := n }) ∧
      a.log.storage.Confined t ∧ t.Sound ∧ t.stored = a.stored ++ block := by
  obtain ⟨t, happend, hconfined, hat, hstored⟩ := h.append block
  obtain ⟨u, hflush, hflushed, hopen, hkept⟩ := hat.flush
  obtain ⟨v, n, hstore, rfl | rfl⟩ := storeBlock_flushed happend hflush
  · exact ⟨v, n, hstore, hconfined, hat.works.sound, hstored⟩
  · exact ⟨v, n, hstore, hconfined.trans hflushed, hopen.works.sound, hkept.trans hstored⟩

/-- Writing a block adds its payloads to the log. The index can refuse the block only where the log
holds an empty payload. -/
theorem writeBlock_holds (h : a.log.Holds base target payloads) (hbase : base.OpenAt path number)
    (hnext : a.nextPosition = Frame.span payloads) (hne : fragments ≠ [])
    (hshort : ∀ x ∈ fragments, x.length < 2 ^ 32) :
    ∃ log n, log.Holds base target (payloads ++ fragments) ∧
      ((writeBlock fragments).run a = (.ok (), { a with
          log := log
          unflushed := n
          nextPosition := a.nextPosition + fragments.flatten.length }) ∨
        ∃ e, (writeBlock fragments).run a = (.error e, { a with log := log, unflushed := n }) ∧
          ¬ ∀ x ∈ payloads, x ≠ []) := by
  have hat := hbase.confined h.confined h.sound
  obtain ⟨t, n, hstore, hconfined, hsound, hstored⟩ :=
    storeBlock_open hat (Frame.encodeRun a.nextPosition fragments)
  generalize hnote : (IndexedLog.noteBlock a.nextPosition a.stored.length
    (Frame.encodeRun a.nextPosition fragments).length).run { a.log with storage := t } = noted
  obtain ⟨r, log⟩ := noted
  have hlog : log.Holds base target (payloads ++ fragments) ∧ log.storage = t := by
    rw [hnext] at hnote hstored
    exact h.noteBlock hsound hconfined hstored hne hshort hnote
  have hwritten : (writeBlock fragments).run a = match r with
      | .ok () => (.ok (), { a with
          log := log
          unflushed := n
          nextPosition := a.nextPosition + fragments.flatten.length })
      | .error e => (.error e, { a with log := log, unflushed := n }) := by
    rw [writeBlock, Attempt.run_bind_ok (Attempt.run_get a), Attempt.run_bind_ok hstore,
      Attempt.run_bind, LogStream.run_onLog hnote]
    cases r with
    | ok => rfl
    | error e => rfl
  refine ⟨log, n, hlog.1, ?_⟩
  cases r with
  | ok => exact .inl hwritten
  | error e =>
    refine .inr ⟨e, hwritten, fun hall => ?_⟩
    obtain ⟨-, -, hrefused⟩ := IndexedLog.noteBlock_error hnote
    have hbelow : a.log.index.Below a.stored.length := by
      show a.log.index.Below a.log.storage.stored.length
      rw [h.stored]
      exact h.lists.below
    -- an entry that stands in the way is that of a record, which ends before the next position
    obtain ⟨entry, hentry, hle⟩ := ahead_of_refused hbelow hrefused
    obtain ⟨record, hrecord, hposition, -⟩ := h.lists entry hentry
    have hlt := Frame.position_lt_of_mem hall hrecord
    rw [hnext] at hle
    omega

/-! ## Draining -/

/-- The appender works on a log that holds the payloads, and as long as it is live it puts what is
committed in its buffer behind them. -/
structure Over (a : Appender) (base : Storage) (target : Option String) (payloads : List Bytes) :
    Prop where
  holds : a.log.Holds base target payloads
  room : a.buffer.maxFragment < 2 ^ 32
  fragments : ∀ x ∈ payloadsOf a.buffer.entries, x ≠ [] ∧ x.length < 2 ^ 32
  next : a.isLive = true → a.nextPosition = Frame.span payloads

/-- A cycle finds nothing to drain, or puts the payloads of some slots into the log. It fails only where
the index refuses their block, which takes empty payloads. -/
theorem Over.drainOnce_cases (h : a.Over base target payloads) (hbase : base.OpenAt path number)
    (hlive : a.isLive = true) {r : Except LogError Bool} (hrun : drainOnce.run a = (r, b)) :
    (r = .ok false ∧ b = a ∧ ∀ slot ∈ a.buffer.slots.head?, slot.state = .claimed) ∨
      ∃ count, Ended (a.buffer.slots.take count) ∧ b.isLive = true ∧
        b.log.Holds base target
          (payloads ++ payloadsOf (entriesOf (a.buffer.slots.take count))) ∧
        ((r = .ok true ∧ b.buffer = a.buffer.release count ∧ b.nextPosition
            = Frame.span (payloads ++ payloadsOf (entriesOf (a.buffer.slots.take count)))) ∨
          ∃ e, r = .error e ∧ b.buffer = a.buffer ∧ ¬ ∀ x ∈ payloads, x ≠ []) := by
  obtain ⟨hnone, rfl, rfl⟩ | ⟨block, hblock, hends⟩ := drainOnce_runs hrun
  · exact .inl ⟨rfl, rfl, WriteBuffer.pollBlock_eq_none hnone⟩
  · obtain ⟨hfragments, hended⟩ := WriteBuffer.pollBlock_spec hblock
    refine .inr ⟨block.slotCount, hended, ?_⟩
    rw [← hfragments]
    obtain ⟨hnil, rfl, rfl⟩ | ⟨hne, hwrites⟩ := hends
    · -- nothing but padding and aborted claims
      rw [hnil, List.append_nil]
      exact ⟨hlive, h.holds, .inl ⟨rfl, rfl, h.next hlive⟩⟩
    · have hshort : ∀ x ∈ block.fragments, x.length < 2 ^ 32 := by
        intro x hx
        refine (h.fragments x ?_).2
        rw [a.buffer.entries_split block.slotCount, payloadsOf_append, ← hfragments]
        exact List.mem_append_left _ hx
      obtain ⟨log, n, hlog, hwritten⟩ := writeBlock_holds h.holds hbase (h.next hlive) hne hshort
      obtain ⟨e, rfl, hw⟩ | ⟨c, rfl, hw, rfl⟩ := hwrites
      · obtain hok | ⟨e', hfailed, hempty⟩ := hwritten
        · rw [hok] at hw
          simp at hw
        · rw [hfailed, Prod.mk.injEq] at hw
          obtain ⟨-, rfl⟩ := hw
          exact ⟨hlive, hlog, .inr ⟨e, rfl, rfl, hempty⟩⟩
      · obtain hok | ⟨e', hfailed, -⟩ := hwritten
        · rw [hok, Prod.mk.injEq] at hw
          obtain ⟨-, rfl⟩ := hw
          refine ⟨hlive, hlog, .inl ⟨rfl, rfl, ?_⟩⟩
          show a.nextPosition + (block.fragments.flatten.length : Int) = _
          rw [h.next hlive, Frame.span_append]
          simp [Frame.span]
        · rw [hfailed] at hw
          simp at hw

/-- The payloads of slots that are freed leave the buffer, and the others stay. -/
theorem Over.mem_release (h : a.Over base target payloads) (count : Nat) :
    ∀ x ∈ payloadsOf (a.buffer.release count).entries, x ≠ [] ∧ x.length < 2 ^ 32 := by
  intro x hx
  refine h.fragments x ?_
  rw [a.buffer.entries_split count, payloadsOf_append]
  exact List.mem_append_right _ hx

/-- Whatever turns the appender takes, it works over a log that is held. -/
theorem over_atWork (target : Option String) (hbase : base.OpenAt path number) :
    KeepsAtWork fun a => ∃ payloads, a.Over base target payloads where
  moved := by
    rintro a b ⟨payloads, h⟩ hlive hrun
    obtain ⟨hbad, -⟩ | ⟨count, -, -, hlog, ⟨-, hbuffer, hnext⟩ | ⟨e, hbad, -⟩⟩ :=
      h.drainOnce_cases hbase hlive hrun
    · simp at hbad
    · exact ⟨_, hlog, hbuffer ▸ h.room, hbuffer ▸ h.mem_release count, fun _ => hnext⟩
    · simp at hbad
  halted := by
    rintro a b e ⟨payloads, h⟩ hlive hrun
    obtain ⟨hbad, -⟩ | ⟨count, -, -, hlog, ⟨hbad, -⟩ | ⟨e, -, hbuffer, -⟩⟩ :=
      h.drainOnce_cases hbase hlive hrun
    · simp at hbad
    · simp at hbad
    · refine ⟨_, hlog, hbuffer.symm ▸ h.room, hbuffer.symm ▸ h.fragments, fun hon => ?_⟩
      simp [isLive_halt] at hon
  look := fun ⟨payloads, h⟩ => ⟨payloads, h.holds, h.room, h.fragments, h.next⟩
  answer := fun ⟨payloads, h⟩ => ⟨payloads, h.holds, h.room, h.fragments, h.next⟩

/-- A flush leaves what is held. -/
theorem holds_flushed (h : a.log.Holds base target payloads) (hbase : base.OpenAt path number) :
    ∃ t, (onStorage Storage.flush).run a = (.ok (), a.withStorage t) ∧
      (a.withStorage t).log.Holds base target payloads := by
  obtain ⟨t, hflush, hconfined, hat, hstored⟩ := (hbase.confined h.confined h.sound).flush
  exact ⟨t, run_onStorage hflush, h.storage hconfined ⟨hat.works.sound, hstored⟩⟩

/-- An appender that is stopped leaves a log that is held. -/
theorem Over.stop (h : a.Over base target payloads) (hbase : base.OpenAt path number) :
    ∃ after, a.stop.log.Holds base target after := by
  unfold Appender.stop
  dsimp only
  split
  · next hlive =>
    obtain ⟨after, hdrained⟩ := (over_atWork target hbase).drain ⟨payloads, h⟩ hlive
    obtain ⟨t, hflush, hflushed⟩ := holds_flushed hdrained.holds hbase
    refine ⟨after, ?_⟩
    unfold finishUp
    generalize Appender.drain a = drained at hdrained hflush hflushed ⊢
    obtain ⟨done, b⟩ := drained
    cases done with
    | true =>
      dsimp only at hflush ⊢
      rw [hflush]
      exact hflushed
    | false => exact hdrained.holds
  · exact ⟨payloads, h.holds⟩

/-- An appender that is stopped works over whatever its log holds. -/
theorem over_of_rests (h : a.log.Holds base target payloads) (hroom : a.buffer.maxFragment < 2 ^ 32)
    (hfragments : ∀ x ∈ payloadsOf a.buffer.entries, x ≠ [] ∧ x.length < 2 ^ 32)
    (hrests : a.isRunning = false) : a.Over base target payloads := by
  refine ⟨h, hroom, hfragments, fun hlive => ?_⟩
  simp [isLive, hrests] at hlive

/-! ## Writing -/

theorem Over.tryClaim {length : Nat} {r : Except LogError Claim} (h : a.Over base target payloads)
    (hc : (WriteBuffer.tryClaim length).run a.buffer = (r, buffer)) :
    ({ a with buffer := buffer } : Appender).Over base target payloads :=
  ⟨h.holds, (WriteBuffer.tryClaim_terms hc).maxFragment ▸ h.room,
    WriteBuffer.payloads_tryClaim hc ▸ h.fragments, h.next⟩

theorem Over.commit (claim : Claim) (h : a.Over base target payloads) (hne : claim.payload ≠ [])
    (hshort : claim.payload.length < 2 ^ 32) :
    ({ a with buffer := a.buffer.commit claim } : Appender).Over base target payloads := by
  refine ⟨h.holds, ?_, fun x hx => ?_, h.next⟩
  · exact Nat.lt_of_le_of_lt (Nat.le_of_eq (a.buffer.finish_terms claim.slot _).maxFragment) h.room
  · obtain hx | rfl := WriteBuffer.mem_payloads_commit hx
    · exact h.fragments x hx
    · exact ⟨hne, hshort⟩

/-! ## What the log will hold -/

/-- A live appender over a log without empty payloads. Once all that is committed in its buffer is
drained, the log holds `total`. No claim but that of the slot `held` is outstanding, and that one is
the newest. -/
structure Laden (a : Appender) (base : Storage) (target : Option String) (held : Option Nat)
    (payloads total : List Bytes) : Prop extends a.Over base target payloads where
  live : a.isLive = true
  filled : ∀ x ∈ payloads, x ≠ []
  numbered : a.buffer.Numbered
  newest : ∃ ended, a.buffer.entries = ended ++ held.toList.map (⟨·, .held⟩) ∧
    ∀ e ∈ ended, e.fate ≠ .held
  total : payloads ++ payloadsOf a.buffer.entries = total

namespace Laden

theorem of_over (h : a.Over base target payloads) (hlive : a.isLive = true)
    (hfilled : ∀ x ∈ payloads, x ≠ []) (hempty : a.buffer.slots = []) :
    a.Laden base target none payloads payloads := by
  have hnone : a.buffer.entries = [] := by rw [WriteBuffer.entries, hempty]; rfl
  refine ⟨h, hlive, hfilled, fun i hi => ?_, ⟨[], ?_, ?_⟩, ?_⟩
  · simp [hempty] at hi
  · simp [hnone]
  · simp
  · simp [hnone, payloadsOf]

/-- With no claim held, all slots can be drained. -/
theorem ended (h : a.Laden base target none payloads total) : Ended a.buffer.slots := by
  obtain ⟨ended, hentries, hnone⟩ := h.newest
  simp only [Option.toList_none, List.map_nil, List.append_nil] at hentries
  intro s hs hclaimed
  refine hnone ⟨s.id, .held⟩ ?_ rfl
  rw [← hentries]
  exact List.mem_filterMap.2 ⟨s, hs, by simp [Slot.entry?, hclaimed]⟩

/-- What is left in the buffer, when ended slots at the front were freed. -/
theorem newest_release {count : Nat} (h : a.Laden base target held payloads total)
    (hended : Ended (a.buffer.slots.take count)) :
    ∃ ended, (a.buffer.release count).entries = ended ++ held.toList.map (⟨·, .held⟩) ∧
      ∀ e ∈ ended, e.fate ≠ .held := by
  obtain ⟨ended, hentries, hnone⟩ := h.newest
  rw [a.buffer.entries_split count] at hentries
  obtain ⟨more, rfl, hdrop⟩ | ⟨more, htake, hdrop⟩ := List.append_eq_append_iff.1 hentries
  · exact ⟨more, hdrop, fun e he => hnone e (List.mem_append_right _ he)⟩
  · -- what was freed had ended, and so comes before the claim that is held
    have hmore : more = [] := by
      refine List.eq_nil_iff_forall_not_mem.2 fun e he => ?_
      have hheld : e ∈ held.toList.map (⟨·, Fate.held⟩) := hdrop ▸ List.mem_append_left _ he
      obtain ⟨slot, -, rfl⟩ := List.mem_map.1 hheld
      exact not_held_of_ended hended _ (htake ▸ List.mem_append_right _ he) rfl
    subst hmore
    exact ⟨[], hdrop.symm, by simp⟩

/-- A cycle moves payloads into the log, or there is nothing that can be drained. -/
theorem drainOnce (h : a.Laden base target held payloads total) (hbase : base.OpenAt path number) :
    (Appender.drainOnce.run a = (.ok false, a) ∧ (held = none → a.buffer.slots = [])) ∨
      ∃ b after, Appender.drainOnce.run a = (.ok true, b) ∧
        b.Laden base target held after total := by
  generalize hrun : Appender.drainOnce.run a = result
  obtain ⟨r, b⟩ := result
  obtain ⟨rfl, rfl, hclaimed⟩ | ⟨count, hended, hlive, hlog, hends⟩ :=
    h.toOver.drainOnce_cases hbase h.live hrun
  · refine .inl ⟨rfl, ?_⟩
    rintro rfl
    cases hslots : b.buffer.slots with
    | nil => rfl
    | cons slot rest =>
      exact absurd (hclaimed slot (by simp [hslots])) (h.ended slot (by simp [hslots]))
  · obtain ⟨rfl, hbuffer, hnext⟩ | ⟨e, -, -, hempty⟩ := hends
    · refine .inr ⟨b, _, rfl, ⟨hlog, hbuffer ▸ h.room, hbuffer ▸ h.mem_release count,
        fun _ => hnext⟩, hlive, ?_, ?_, ?_, ?_⟩
      · intro x hx
        rcases List.mem_append.1 hx with hx | hx
        · exact h.filled x hx
        · refine (h.fragments x ?_).1
          rw [a.buffer.entries_split count, payloadsOf_append]
          exact List.mem_append_left _ hx
      · rw [hbuffer]
        exact h.numbered.drop rfl rfl
      · rw [hbuffer]
        exact h.newest_release hended
      · rw [List.append_assoc, hbuffer]
        show payloads ++ (_ ++ payloadsOf (entriesOf (a.buffer.slots.drop count))) = total
        rw [← payloadsOf_append, ← a.buffer.entries_split]
        exact h.total
    · exact absurd h.filled hempty

/-- Draining goes on until all is in the log, but for what comes after a claim that is held. -/
theorem drain (h : a.Laden base target held payloads total) (hbase : base.OpenAt path number) :
    (drain a).1 = true ∧ (∃ after, (drain a).2.Laden base target held after total) ∧
      (held = none → (drain a).2.buffer.slots = []) := by
  fun_induction Appender.drain a generalizing payloads with
  | case1 a b hrun ih =>
    obtain ⟨hbad, -⟩ | ⟨c, after, hc, hladen⟩ := h.drainOnce hbase
    · rw [hbad] at hrun
      simp at hrun
    · rw [hc, Prod.mk.injEq] at hrun
      obtain ⟨-, rfl⟩ := hrun
      exact ih hladen
  | case2 a b hrun =>
    obtain ⟨hnone, hempty⟩ | ⟨c, after, hc, -⟩ := h.drainOnce hbase
    · rw [hnone, Prod.mk.injEq] at hrun
      obtain ⟨-, rfl⟩ := hrun
      exact ⟨rfl, ⟨payloads, h⟩, hempty⟩
    · rw [hc] at hrun
      simp at hrun
  | case3 a e b hrun =>
    obtain ⟨hnone, -⟩ | ⟨c, after, hc, -⟩ := h.drainOnce hbase
    · rw [hnone] at hrun
      simp at hrun
    · rw [hc] at hrun
      simp at hrun

/-- Whatever turns the appender takes, the log comes to the same. -/
theorem atWork (hbase : base.OpenAt path number) :
    KeepsAtWork fun a => ∃ payloads, a.Laden base target held payloads total where
  moved := by
    rintro a b ⟨payloads, h⟩ - hrun
    obtain ⟨hbad, -⟩ | ⟨c, after, hc, hladen⟩ := h.drainOnce hbase
    · rw [hbad] at hrun
      simp at hrun
    · rw [hc, Prod.mk.injEq] at hrun
      exact ⟨after, hrun.2 ▸ hladen⟩
  halted := by
    rintro a b e ⟨payloads, h⟩ - hrun
    obtain ⟨hbad, -⟩ | ⟨c, after, hc, -⟩ := h.drainOnce hbase
    · rw [hbad] at hrun
      simp at hrun
    · rw [hc] at hrun
      simp at hrun
  look := fun ⟨payloads, h⟩ => ⟨payloads, { h with }⟩
  answer := fun ⟨payloads, h⟩ => ⟨payloads, { h with }⟩

/-- When the appender is stopped, with no claim held, all is in the log. -/
theorem stop (h : a.Laden base target none payloads total) (hbase : base.OpenAt path number) :
    a.stop.log.Holds base target total := by
  obtain ⟨hdone, ⟨after, hladen⟩, hempty⟩ := h.drain hbase
  obtain rfl : after = total := by
    have htotal := hladen.total
    rw [WriteBuffer.entries, hempty rfl] at htotal
    exact (List.append_nil _).symm.trans htotal
  obtain ⟨t, hflush, hflushed⟩ := holds_flushed hladen.holds hbase
  unfold Appender.stop finishUp
  rw [if_pos h.live]
  generalize Appender.drain a = drained at hdone hflush hflushed ⊢
  obtain ⟨done, b⟩ := drained
  obtain rfl : done = true := hdone
  dsimp only at hflush ⊢
  rw [hflush]
  exact hflushed

/-- A claim that is made is the newest. -/
theorem claim {claim : Claim} {length : Nat} (h : a.Laden base target none payloads total)
    (hc : (WriteBuffer.tryClaim length).run a.buffer = (.ok claim, buffer)) :
    ({ a with buffer := buffer } : Appender).Laden base target (some claim.slot) payloads total := by
  obtain ⟨⟨reserved, new, hclaimed⟩, -⟩ := WriteBuffer.tryClaim_ok hc
  have hentries : buffer.entries = a.buffer.entries ++ [⟨claim.slot, .held⟩] := by
    rw [WriteBuffer.entries, hclaimed.slots, entriesOf_append, hclaimed.entries]
    rfl
  obtain ⟨ended, hnewest, hnone⟩ := h.newest
  exact { h.toOver.tryClaim hc with
    live := h.live
    filled := h.filled
    numbered := hclaimed.numbered h.numbered
    newest := ⟨ended, by simpa [hentries] using hnewest, hnone⟩
    total := by
      rw [WriteBuffer.payloads_tryClaim hc]
      exact h.total }

theorem refused {e : LogError} {length : Nat} (h : a.Laden base target held payloads total)
    (hc : (WriteBuffer.tryClaim length).run a.buffer = (.error e, buffer)) :
    ({ a with buffer := buffer } : Appender).Laden base target held payloads total := by
  obtain ⟨hslots, hnext⟩ := WriteBuffer.tryClaim_error hc
  have hsame : buffer.entries = a.buffer.entries := by rw [WriteBuffer.entries, hslots]; rfl
  exact { h.toOver.tryClaim hc with
    live := h.live
    filled := h.filled
    numbered := by
      intro i hi
      simp only [hslots, hnext] at hi ⊢
      exact h.numbered i hi
    newest := by
      rw [hsame]
      exact h.newest
    total := by
      rw [hsame]
      exact h.total }

/-- A payload that is committed is the last of those to come. -/
theorem commit (claim : Claim) (h : a.Laden base target (some claim.slot) payloads total)
    (hne : claim.payload ≠ []) (hshort : claim.payload.length < 2 ^ 32) :
    ({ a with buffer := a.buffer.commit claim } : Appender).Laden base target none payloads
      (total ++ [claim.payload]) := by
  obtain ⟨ended, hentries, hnone⟩ := h.newest
  have hslot : ∃ s ∈ a.buffer.slots, s.id = claim.slot ∧ s.state = .claimed := by
    have hmem : ⟨claim.slot, .held⟩ ∈ a.buffer.entries := by simp [hentries]
    obtain ⟨s, hs, hentry⟩ := List.mem_filterMap.1 hmem
    refine ⟨s, hs, ?_, (Slot.held_iff hentry).1 rfl⟩
    simpa [Slot.entry?, (Slot.held_iff hentry).1 rfl] using hentry
  have hafter : (a.buffer.commit claim).entries
      = ended ++ [⟨claim.slot, .committed claim.payload⟩] := by
    have hsame : ended.map (ClaimEntry.finish claim.slot (.committed claim.payload)) = ended := by
      rw [List.map_congr_left fun e he => ClaimEntry.finish_of_not_held (hnone e he), List.map_id']
    have hfate : Slot.entry? ⟨claim.slot, 0, .committed claim.payload⟩
        = some ⟨claim.slot, .committed claim.payload⟩ := rfl
    rw [WriteBuffer.commit, WriteBuffer.entries,
      WriteBuffer.slots_finish h.numbered hslot (.committed claim.payload),
      WriteBuffer.entriesOf_finish hfate, show entriesOf a.buffer.slots = _ from hentries,
      List.map_append, hsame]
    simp [ClaimEntry.finish]
  have hpayloads : payloadsOf (a.buffer.commit claim).entries
      = payloadsOf a.buffer.entries ++ [claim.payload] := by
    rw [hafter, hentries]
    simp [payloadsOf, ClaimEntry.payload?]
  exact { h.toOver.commit claim hne hshort with
    live := h.live
    filled := h.filled
    numbered := h.numbered.finish hslot
    newest := by
      refine ⟨_, (hafter.trans (List.append_nil _).symm), fun e he => ?_⟩
      rcases List.mem_append.1 he with he | he
      · exact hnone e he
      · simp [List.mem_singleton.1 he]
    total := by rw [hpayloads, ← List.append_assoc, h.total] }

end Laden

end Appender

namespace LogStream

open Appender (Turn)

variable {s t : LogStream} {base : Storage} {path : String} {number : Nat} {target : Option String}
  {payloads total : List Bytes} {payload : Bytes} {pace : WritePace}

/-! ## Writing a record -/

/-- What an appender keeps at work, its stream keeps while a record waits for space. -/
theorem claimWaiting_keeps {P : Appender → Prop} (hP : Appender.KeepsAtWork P)
    (hrefused : ∀ {a : Appender} {length e b}, P a →
      (WriteBuffer.tryClaim length).run a.buffer = (.error e, b) → P { a with buffer := b })
    {turns : List Turn} {length : Nat} {r : Except LogError Claim} (h : P s.appender)
    (hc : (WriteBuffer.claimWaiting buffer (fun b s => s.withBuffer fun _ => b) length
      (turns.map fun turn s => s.withAppender turn.act)).run s = (r, t)) :
    (∃ e a, r = .error e ∧ t = { s with appender := a } ∧ P a) ∨
      ∃ claim a b, r = .ok claim ∧ P a ∧ (WriteBuffer.tryClaim length).run a.buffer = (.ok claim, b) ∧
        t = { s with appender := { a with buffer := b } } := by
  have hrefused' : ∀ (u : LogStream) (e : LogError) (b : WriteBuffer),
      (∃ a, u = { s with appender := a } ∧ P a) →
      (WriteBuffer.tryClaim length).run u.buffer = (.error e, b) →
      ∃ a, u.withBuffer (fun _ => b) = { s with appender := a } ∧ P a := by
    rintro u e b ⟨a, rfl, ha⟩ hclaim
    exact ⟨_, rfl, hrefused ha hclaim⟩
  have hturns : ∀ move ∈ turns.map fun turn (u : LogStream) => u.withAppender turn.act,
      ∀ u, (∃ a, u = { s with appender := a } ∧ P a) →
        ∃ a, move u = { s with appender := a } ∧ P a := by
    rintro move hmove u ⟨a, rfl, ha⟩
    obtain ⟨turn, -, rfl⟩ := List.mem_map.1 hmove
    exact ⟨_, rfl, hP.takeTurns ha [turn]⟩
  obtain ⟨e, rfl, a, rfl, ha⟩ | ⟨claim, u, b, rfl, ⟨a, rfl, ha⟩, hclaim, rfl⟩ :=
    WriteBuffer.claimWaiting_cases hrefused' hturns ⟨s.appender, rfl, h⟩ hc
  · exact .inl ⟨e, a, rfl, rfl, ha⟩
  · exact .inr ⟨claim, a, b, rfl, ha, hclaim, rfl⟩

/-- A record is refused after some waiting, or claimed, filled in and committed. -/
theorem writeAt_cases {P : Appender → Prop} (hP : Appender.KeepsAtWork P)
    (hrefused : ∀ {a : Appender} {length e b}, P a →
      (WriteBuffer.tryClaim length).run a.buffer = (.error e, b) → P { a with buffer := b })
    {r : Except LogError Unit} (h : P s.appender) (hw : (writeAt pace payload).run s = (r, t)) :
    (∃ e a, r = .error e ∧ t = { s with appender := a } ∧ P a) ∨
      ∃ claim a b, r = .ok () ∧ P a ∧
        (WriteBuffer.tryClaim payload.length).run a.buffer = (.ok claim, b) ∧
        ∃ filled : Appender, filled = Appender.takeTurns pace.filling { a with buffer := b } ∧
          t = { s with appender := (Appender.takeTurns pace.after
            { filled with buffer := filled.buffer.commit { claim with payload := payload } }) } := by
  unfold Attempt.run writeAt at hw
  split at hw
  · simp only [Prod.mk.injEq] at hw
    obtain ⟨rfl, rfl⟩ := hw
    exact .inl ⟨_, s.appender, rfl, rfl, h⟩
  · split at hw
    · next e u hclaim =>
      simp only [Prod.mk.injEq] at hw
      obtain ⟨rfl, rfl⟩ := hw
      obtain ⟨e, a, -, rfl, ha⟩ | ⟨claim, a, b, hbad, -⟩ := claimWaiting_keeps hP hrefused h hclaim
      · exact .inl ⟨_, a, rfl, rfl, ha⟩
      · simp at hbad
    · next claim u hclaim =>
      simp only [Prod.mk.injEq] at hw
      obtain ⟨rfl, rfl⟩ := hw
      obtain ⟨e, a, hbad, -⟩ | ⟨claim', a, b, heq, ha, hclaimed, rfl⟩ :=
        claimWaiting_keeps hP hrefused h hclaim
      · simp at hbad
      · obtain rfl := Except.ok.inj heq
        exact .inr ⟨claim, a, b, rfl, ha, hclaimed, _, rfl, rfl⟩

/-- Whether or not a record can be written, the appender works over a log that is held. -/
theorem writeAt_over {r : Except LogError Unit} (h : s.appender.Over base target payloads)
    (hbase : base.OpenAt path number) (hw : (writeAt pace payload).run s = (r, t)) :
    ∃ b after, t = { s with appender := b } ∧ b.Over base target after := by
  have hwork := Appender.over_atWork target hbase
  obtain ⟨e, a, -, rfl, after, hover⟩ |
      ⟨claim, a, b, -, ⟨after, hover⟩, hclaim, filled, hfilled, rfl⟩ :=
    writeAt_cases hwork (fun ⟨after, hover⟩ hc => ⟨after, hover.tryClaim hc⟩) ⟨payloads, h⟩ hw
  · exact ⟨a, after, rfl, hover⟩
  · obtain ⟨-, -, hpos, hmax⟩ := WriteBuffer.tryClaim_ok hclaim
    obtain ⟨later, hlater⟩ := hwork.takeTurns ⟨after, hover.tryClaim hclaim⟩ pace.filling
    rw [← hfilled] at hlater
    have hcommitted := hlater.commit { claim with payload := payload }
      (List.ne_nil_of_length_pos hpos) (Nat.lt_of_le_of_lt hmax hover.room)
    obtain ⟨last, hlast⟩ := hwork.takeTurns ⟨later, hcommitted⟩ pace.after
    exact ⟨_, last, rfl, hlast⟩

/-- A record that is written is the last of those to come, at every pace. -/
theorem writeAt_laden (h : s.appender.Laden base target none payloads total)
    (hbase : base.OpenAt path number) (hw : (writeAt pace payload).run s = (.ok (), t)) :
    ∃ b after, t = { s with appender := b } ∧
      b.Laden base target none after (total ++ [payload]) := by
  obtain ⟨e, a, hbad, -⟩ | ⟨claim, a, b, -, ⟨after, hladen⟩, hclaim, filled, hfilled, rfl⟩ :=
    writeAt_cases (Appender.Laden.atWork hbase)
      (fun ⟨after, hladen⟩ hc => ⟨after, hladen.refused hc⟩) ⟨payloads, h⟩ hw
  · simp at hbad
  · obtain ⟨-, -, hpos, hmax⟩ := WriteBuffer.tryClaim_ok hclaim
    obtain ⟨later, hlater⟩ :=
      (Appender.Laden.atWork hbase).takeTurns ⟨after, hladen.claim hclaim⟩ pace.filling
    rw [← hfilled] at hlater
    have hcommitted := hlater.commit { claim with payload := payload }
      (List.ne_nil_of_length_pos hpos) (Nat.lt_of_le_of_lt hmax hladen.room)
    obtain ⟨last, hlast⟩ :=
      (Appender.Laden.atWork hbase).takeTurns ⟨later, hcommitted⟩ pace.after
    exact ⟨_, last, rfl, hlast⟩

/-! ## Cutting the log -/

theorem addressOf_over {position : Int} {r : Except LogError Nat}
    (h : s.appender.Over base target payloads) (hr : Frame.Readable 0 payloads)
    (ha : (addressOf position).run s = (r, t)) :
    ∃ u, s.storage.ReadAlike u ∧ t = s.withStorage u ∧ ∀ address, r = .ok address →
      ∃ kept gone, payloads = kept ++ gone ∧ address = (Frame.encodeRun 0 kept).length := by
  obtain ⟨before, rest, hsplit, hstart⟩ := h.holds.lists.startFor position
  have hrest : Frame.Readable (Frame.span before) rest := by
    rw [hsplit, Frame.readable_append, Int.zero_add] at hr
    exact hr.2
  have hdrop : s.storage.stored.drop (s.index.startFor position Storage.firstAddress)
      = Frame.encodeRun (Frame.span before) rest := by
    rw [show s.storage.stored = _ from h.holds.stored, show s.index.startFor _ _ = _ from hstart,
      hsplit, Frame.encodeRun_append, List.drop_left, Int.zero_add]
  obtain ⟨answer, rs, hfind, rfl, hplace⟩ := addressOf_cases ha
  have halike : s.storage.ReadAlike rs.storage := Reading.findAddress_readAlike hfind
  obtain ⟨-, hfound⟩ := Reading.findAddress_spec
    (Reading.Sees.ofWindow (s := s.storage) h.holds.sound _) hdrop hrest hfind
  refine ⟨rs.storage, halike, rfl, fun place hr => ?_⟩
  obtain ⟨ys, z, zs, rfl, -, haddress⟩ := hfound place ((hplace place).1 hr)
  refine ⟨before ++ ys, z :: zs, by rw [hsplit, List.append_assoc], ?_⟩
  rw [haddress, Frame.encodeRun_append, List.length_append, Int.zero_add]
  rw [show s.index.startFor _ _ = _ from hstart]

/-- A truncation keeps payloads from the front. -/
theorem truncate_over {position : Int} {r : Except LogError Unit}
    (h : s.appender.Over base target payloads) (hrests : s.appender.isRunning = false)
    (hr : Frame.Readable 0 payloads) (ht : (truncate position).run s = (r, t)) :
    ∃ b after, t = { s with appender := b } ∧ b.Over base target after := by
  cases truncate_cases ht with
  | refused => exact ⟨s.appender, payloads, rfl, h⟩
  | missed hallow hfind =>
    obtain ⟨u, halike, rfl, -⟩ := addressOf_over h hr hfind
    have hholds := h.holds.storage halike.confined (halike.alike.keeps h.holds.sound)
    exact ⟨(s.withStorage u).appender, payloads, rfl,
      Appender.over_of_rests hholds h.room h.fragments hrests⟩
  | uncut hallow hfind hcut =>
    obtain ⟨u, halike, rfl, -⟩ := addressOf_over h hr hfind
    have hholds := h.holds.storage halike.confined (halike.alike.keeps h.holds.sound)
    have hconfined : u.Confined _ := (Storage.Confines.truncate _).run hcut
    have hkept := hholds.storage hconfined (Storage.truncate_error hholds.sound hcut)
    exact ⟨_, payloads, rfl, Appender.over_of_rests hkept h.room h.fragments hrests⟩
  | @cut t address after hallow hfind hcut =>
    obtain ⟨u, halike, rfl, hfound⟩ := addressOf_over h hr hfind
    obtain ⟨kept, gone, rfl, rfl⟩ := hfound address rfl
    have hholds := h.holds.storage halike.confined (halike.alike.keeps h.holds.sound)
    have hconfined : u.Confined after := (Storage.Confines.truncate _).run hcut
    obtain ⟨hsound, -, hstored⟩ := Storage.truncate_ok hholds.sound hcut
    have hforgotten := hholds.forget hsound hconfined position hstored
    exact ⟨_, kept, rfl, Appender.over_of_rests hforgotten h.room h.fragments hrests⟩

/-! ## Closing -/

theorem both_eq_ok {first second : Except LogError Unit} :
    both first second = .ok () ↔ first = .ok () ∧ second = .ok () := by
  cases first with
  | ok done => simp [both]
  | error e => simp [both]

/-- Where the appender leaves a log that is held, closing the stream saves the index of that log, and
fails only if saving does or if claims are outstanding. -/
theorem closeStream_stop (hstate : s.state ≠ .closed) (hbase : base.OpenAt path number)
    (hlog : (Appender.stop { s.appender with buffer := s.appender.buffer.shut }).log.Holds base target
      payloads) :
    ∃ log : IndexedLog, log.Holds base target payloads ∧ s.closeStream.2.state = .closed ∧
      s.closeStream.2.storage.files = (IndexedLog.persist.run log).2.storage.files ∧
      s.closeStream.1
        = both (both (s.buffer.waited s.config.graceSpan) (IndexedLog.persist.run log).1) (.ok ()) := by
  refine ⟨_, hlog, ?_⟩
  have hclose : ∀ u : Storage, u.Faultless → (Storage.close.run u).1 = .ok () := by
    intro u hu
    obtain ⟨v, -, -, hrun⟩ : ∃ v, u.Confined v ∧ u.Alike v ∧
        Storage.close.run u = Storage.closeMedium.run v := hu.run_call
    rw [hrun]
    unfold Attempt.run Storage.closeMedium
    split <;> rfl
  generalize hpersist : IndexedLog.persist.run
    (Appender.stop { s.appender with buffer := s.appender.buffer.shut }).log = saved
  obtain ⟨outcome, log⟩ := saved
  have hfaultless : log.storage.Faultless := by
    have hplan := (hlog.confined.faultless hbase.works.passes)
    obtain ⟨-, hsame, -⟩ | ⟨_, files, -, -, -, hafter⟩ := IndexedLog.persist_cases hpersist
    · rw [hsame]
      exact hplan
    · rw [hafter]
      exact hplan
  have hwound : ({ s with state := .closing }.withBuffer WriteBuffer.shut).windDown
      = (both (s.buffer.waited s.config.graceSpan) outcome,
        { s with
          state := .closing
          appender := { Appender.stop { s.appender with buffer := s.appender.buffer.shut } with
            log := log } }) := by
    unfold windDown settleClaims
    dsimp only
    rw [run_onAppender (run_onLog hpersist)]
    rfl
  unfold closeStream
  rw [if_neg hstate, hwound]
  refine ⟨rfl, Storage.close_files _, ?_⟩
  show both _ (Storage.close.run log.storage).1 = _
  rw [hclose _ hfaultless]

theorem closeStream_over (hstate : s.state ≠ .closed) (h : s.appender.Over base target payloads)
    (hbase : base.OpenAt path number) :
    ∃ (log : IndexedLog) (after : List Bytes), log.Holds base target after ∧
      s.closeStream.2.state = .closed ∧
      s.closeStream.2.storage.files = (IndexedLog.persist.run log).2.storage.files := by
  have hshut : ({ s.appender with buffer := s.appender.buffer.shut } : Appender).Over base target
      payloads := ⟨h.holds, h.room, h.fragments, h.next⟩
  obtain ⟨after, hlog⟩ := hshut.stop hbase
  obtain ⟨log, hlog, hclosed, hfiles, -⟩ := closeStream_stop hstate hbase hlog
  exact ⟨log, after, hlog, hclosed, hfiles⟩

end LogStream

end PartitionLog
