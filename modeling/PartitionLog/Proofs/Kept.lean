import PartitionLog.Proofs.Blocks
import PartitionLog.Proofs.Claims
import PartitionLog.Proofs.Index

/-!
# What an appender keeps

`a.Kept strict payloads`: the frames of `payloads`, from position 0 on, are at the beginning of the
log. If `strict` holds, they are all of it but for a stale block, none is empty, and every index
entry is the place of one of them; without it a torn or doubled tail may follow. An appender is
`Ready` to drain if the log ends with `payloads` and the next position follows them (`Settled`), or
if the index refuses the next block and nothing can be drained (`Jammed`), which needs empty payloads
in the log. Nothing of this depends on the flags of the appender (`Kept.same_flags`), and discarding
a stale block or starting leaves it as it is.
-/

namespace PartitionLog

/-- Whether every entry is the place of one of the records. -/
def BlockIndex.Lists (ix : BlockIndex) (payloads : List Bytes) : Prop :=
  ∀ e ∈ ix.entries, ∃ r ∈ Frame.recordsOf 0 0 payloads,
    r.position = e.position ∧ r.address = e.address

namespace Frame

theorem position_lt_of_mem {position : Int} {address : Nat} {payloads : List Bytes} {r : Record}
    (hne : ∀ x ∈ payloads, x ≠ []) (h : r ∈ recordsOf position address payloads) :
    r.position < position + span payloads := by
  induction payloads generalizing position address with
  | nil => simp [recordsOf] at h
  | cons x rest ih =>
    have hx : x.length ≠ 0 := fun h0 => hne x List.mem_cons_self (List.length_eq_zero_iff.1 h0)
    rw [span_cons]
    rcases List.mem_cons.1 h with rfl | h
    · dsimp only
      omega
    · have := ih (fun y hy => hne y (List.mem_cons_of_mem _ hy)) h
      omega

/-- Where a log begins with a run from position 0 on, its first record has position 0. -/
theorem first_of_run {payloads : List Bytes} {log : Bytes} (hne : payloads ≠ [])
    (hshort : ∀ x ∈ payloads, x.length < 2 ^ 32) (h : encodeRun 0 payloads <+: log) {r : Record}
    (hd : decode log 0 = .ok (some r)) : r.position = 0 := by
  cases payloads with
  | nil => exact absurd rfl hne
  | cons x rest =>
    obtain ⟨more, rfl⟩ := h
    have hframable : Framable 0 x := ⟨by decide, by decide, hshort x List.mem_cons_self⟩
    rw [encodeRun, List.append_assoc, decode_encode hframable] at hd
    simp only [Except.ok.injEq, Option.some.injEq] at hd
    exact hd ▸ rfl

theorem mem_recordsOf_append {position : Int} {address : Nat} {xs : List Bytes} {r : Record}
    (h : r ∈ recordsOf position address xs) (ys : List Bytes) :
    r ∈ recordsOf position address (xs ++ ys) := by
  rw [recordsOf_append]
  exact List.mem_append_left _ h

end Frame

namespace Appender

/-- The stored bytes without a stale block. -/
def visible (a : Appender) : Bytes :=
  match a.staleBlock with
  | none => a.stored
  | some address => a.stored.take address

structure Kept (strict : Prop) (a : Appender) (payloads : List Bytes) : Prop where
  sound : a.log.storage.Sound
  unsaved : a.log.sampling.snapshotPath = none
  short : ∀ x ∈ payloads, x.length < 2 ^ 32
  frames : Frame.encodeRun 0 payloads <+: a.visible
  first : ∀ r, Frame.decode a.visible 0 = .ok (some r) → r.position = 0
  describes : a.log.index.Describes a.visible
  /-- The records of a stale block are still in the buffer, and nothing is drained. -/
  stale : ∀ address, a.staleBlock = some address →
    a.isLive = false ∧ Buffered a.buffer.slots (a.stored.drop address)
  fragments : ∀ x ∈ payloadsOf a.buffer.entries, x ≠ [] ∧ x.length < 2 ^ 32
  whole : strict → a.visible = Frame.encodeRun 0 payloads
  filled : strict → ∀ x ∈ payloads, x ≠ []
  lists : strict → a.log.index.Lists payloads

structure Settled (a : Appender) (payloads : List Bytes) : Prop where
  whole : a.visible = Frame.encodeRun 0 payloads
  next : a.nextPosition = Frame.span payloads
  below : a.log.index.Below a.visible.length

/-- The index has an entry that the next block does not follow. -/
structure Jammed (a : Appender) (payloads : List Bytes) : Prop where
  nonempty : payloads ≠ []
  next : a.nextPosition = Frame.span payloads
  below : a.log.index.Below a.visible.length
  drainable : Drainable a.buffer.slots
  due : needsEntry a.log.sampling.threshold a.log.sampling.sinceEntry = true
  ahead : ∃ e ∈ a.log.index.entries, a.nextPosition ≤ e.position

def Ready (a : Appender) (payloads : List Bytes) : Prop := a.Settled payloads ∨ a.Jammed payloads

variable {strict : Prop} {a b c : Appender} {payloads after : List Bytes}

theorem visible_of_none (h : a.staleBlock = none) : a.visible = a.stored := by
  unfold visible; rw [h]

theorem visible_of_some {address : Nat} (h : a.staleBlock = some address) :
    a.visible = a.stored.take address := by
  unfold visible; rw [h]

theorem visible_isPrefix (a : Appender) : a.visible <+: a.stored := by
  unfold visible
  split
  · exact List.prefix_rfl
  · exact List.take_prefix ..

theorem Kept.readable (h : a.Kept strict payloads) (hsize : a.stored.length < 2 ^ 63) :
    Frame.Readable 0 payloads := by
  have hlen := (h.frames.trans a.visible_isPrefix).length_le
  rw [Frame.length_encodeRun] at hlen
  exact Frame.readable_of_lt (by decide) (by omega) h.short

/-- What is cut from the log starts at the same position. -/
theorem Kept.first_of_isPrefix (h : a.Kept strict payloads) {log : Bytes} (hcut : log <+: a.visible)
    {r : Record} (hd : Frame.decode log 0 = .ok (some r)) : r.position = 0 := by
  obtain ⟨haddress, hframable, hencoded⟩ := Frame.decode_eq_some_iff.1 hd
  exact h.first r (Frame.decode_eq_some_iff.2 ⟨haddress, hframable, hencoded.trans hcut⟩)

/-- With no empty payload every entry lies before the next position. -/
theorem Kept.settled (h : a.Kept strict payloads) (hstrict : strict) (hr : a.Ready payloads) :
    a.Settled payloads := by
  rcases hr with hr | ⟨-, hnext, -, -, -, e, he, hle⟩
  · exact hr
  · obtain ⟨r, hmem, hpos, -⟩ := h.lists hstrict e he
    have := Frame.position_lt_of_mem (h.filled hstrict) hmem
    omega

/-- `b` differs from `a` in nothing that draining depends on. -/
structure Same (a b : Appender) : Prop where
  sound : b.log.storage.Sound
  visible : b.visible = a.visible
  index : b.log.index = a.log.index
  sampling : b.log.sampling = a.log.sampling
  slots : b.buffer.slots = a.buffer.slots
  nextSlot : b.buffer.nextSlot = a.buffer.nextSlot
  next : b.nextPosition = a.nextPosition
  stale : ∀ address, b.staleBlock = some address →
    b.isLive = false ∧ Buffered b.buffer.slots (b.stored.drop address)

theorem Kept.same (hk : a.Kept strict payloads) (h : a.Same b) : b.Kept strict payloads where
  sound := h.sound
  unsaved := h.sampling ▸ hk.unsaved
  short := hk.short
  frames := h.visible ▸ hk.frames
  first := h.visible ▸ hk.first
  describes := by rw [h.visible, h.index]; exact hk.describes
  stale := h.stale
  fragments := by
    unfold WriteBuffer.entries
    rw [h.slots]
    exact hk.fragments
  whole := h.visible ▸ hk.whole
  filled := hk.filled
  lists := h.index ▸ hk.lists

theorem Settled.same (hr : a.Settled payloads) (h : a.Same b) : b.Settled payloads where
  whole := h.visible ▸ hr.whole
  next := h.next ▸ hr.next
  below := by rw [h.visible, h.index]; exact hr.below

theorem Jammed.same (hr : a.Jammed payloads) (h : a.Same b) : b.Jammed payloads where
  nonempty := hr.nonempty
  next := h.next ▸ hr.next
  below := by rw [h.visible, h.index]; exact hr.below
  drainable := h.slots ▸ hr.drainable
  due := h.sampling ▸ hr.due
  ahead := by rw [h.next, h.index]; exact hr.ahead

theorem Ready.same (hr : a.Ready payloads) (h : a.Same b) : b.Ready payloads :=
  hr.imp (·.same h) (·.same h)

theorem Same.trans (h1 : a.Same b) (h2 : b.Same c) : a.Same c where
  sound := h2.sound
  visible := h2.visible.trans h1.visible
  index := h2.index.trans h1.index
  sampling := h2.sampling.trans h1.sampling
  slots := h2.slots.trans h1.slots
  nextSlot := h2.nextSlot.trans h1.nextSlot
  next := h2.next.trans h1.next
  stale := h2.stale

/-- Nothing that matters is in the flags, as long as an appender with a stale block rests. -/
theorem Kept.same_flags (hk : a.Kept strict payloads) (hlog : b.log = a.log)
    (hslots : b.buffer.slots = a.buffer.slots) (hnextSlot : b.buffer.nextSlot = a.buffer.nextSlot)
    (hnext : b.nextPosition = a.nextPosition) (hstale : b.staleBlock = a.staleBlock)
    (hlive : a.staleBlock ≠ none → b.isLive = true → a.isLive = true) : a.Same b where
  sound := hlog ▸ hk.sound
  visible := by unfold visible stored; rw [hstale, hlog]
  index := by rw [hlog]
  sampling := by rw [hlog]
  slots := hslots
  nextSlot := hnextSlot
  next := hnext
  stale := by
    intro address h
    rw [hstale] at h
    obtain ⟨hrests, hbuffered⟩ := hk.stale address h
    refine ⟨?_, ?_⟩
    · rw [← Bool.not_eq_true] at hrests ⊢
      exact mt (hlive (by simp [h])) hrests
    · unfold stored
      rw [hslots, hlog]
      exact hbuffered

theorem isRunning_of_isLive (h : a.isLive = true) : a.isRunning ≠ false := by
  intro hno
  simp [isLive, hno] at h

theorem Kept.live (hk : a.Kept strict payloads) (h : a.isLive = true) : a.staleBlock = none := by
  cases hs : a.staleBlock with
  | none => rfl
  | some address =>
    have := (hk.stale address hs).1
    rw [h] at this
    simp at this

/-- Storage calls that keep the stored bytes change nothing that matters. -/
theorem Kept.same_storage (hk : a.Kept strict payloads) {t : Storage}
    (h : a.log.storage.Keeps t) : a.Same (a.withStorage t) where
  sound := h.1
  visible := by
    have hstored : (a.withStorage t).stored = a.stored := h.2
    unfold visible
    rw [hstored]
    rfl
  index := rfl
  sampling := rfl
  slots := rfl
  nextSlot := rfl
  next := rfl
  stale := by
    intro address hs
    have hstored : (a.withStorage t).stored = a.stored := h.2
    rw [hstored]
    exact hk.stale address hs

/-! ## Starting -/

/-- Discarding a stale block takes nothing that is seen. -/
theorem discardStale_spec (hk : a.Kept strict payloads) {r : Except LogError Unit}
    (h : discardStale.run a = (r, b)) :
    a.Same b ∧ (r = .ok () → b.staleBlock = none) ∧ b.isRunning = a.isRunning ∧
      (b.stored = a.stored ∨ b.stored = a.visible) := by
  obtain ⟨hnone, -, rfl⟩ | ⟨address, t, hstale, ⟨ht, rfl, rfl⟩ | ⟨e, ht, rfl, rfl⟩⟩ :=
    discardStale_cases h
  · exact ⟨hk.same_flags rfl rfl rfl rfl rfl (fun _ => id), fun _ => hnone, rfl, .inl rfl⟩
  · obtain ⟨hsound, -, hcut⟩ := Storage.truncate_ok hk.sound ht
    have hvisible : a.visible = t.stored := (visible_of_some hstale).trans hcut.symm
    refine ⟨?_, fun _ => rfl, rfl, .inr hvisible.symm⟩
    exact {
      sound := hsound
      visible := hvisible.symm
      index := rfl
      sampling := rfl
      slots := rfl
      nextSlot := rfl
      next := rfl
      stale := by simp }
  · have hkeeps := Storage.truncate_error hk.sound ht
    exact ⟨hk.same_storage hkeeps, by simp, rfl, .inl hkeeps.2⟩

theorem start_spec (hk : a.Kept strict payloads) {r : Except LogError Unit}
    (h : start.run a = (r, b)) : a.Same b := by
  have hrests : a.Same { a with isRunning := false } :=
    hk.same_flags rfl rfl rfl rfl rfl (by simp [isLive])
  obtain ⟨-, -, rfl⟩ | ⟨-, e, hc, -⟩ | ⟨-, c, hc, -, rfl⟩ := start_cases h
  · exact hk.same_flags rfl rfl rfl rfl rfl fun _ => id
  · exact hrests.trans (discardStale_spec (hk.same hrests) hc).1
  · obtain ⟨hsame, hnone, -, -⟩ := discardStale_spec (hk.same hrests) hc
    refine hrests.trans (hsame.trans ?_)
    have hlate := (hk.same hrests).same hsame
    unfold announceRecovery
    split
    · exact hlate.same_flags rfl rfl rfl rfl rfl fun h => absurd (hnone rfl) h
    · exact hlate.same_flags rfl rfl rfl rfl rfl fun h => absurd (hnone rfl) h

end Appender

end PartitionLog
