import PartitionLog.Proofs.Kept

/-!
# What draining does

A cycle keeps what an appender keeps, and the payloads of the slots that it frees are put behind the
others (`drainOnce_ok`); a cycle that fails frees none (`drainOnce_error`). `Drained a b payloads
after` says so of any number of cycles, and holds for draining (`drain_spec`) and stopping
(`stop_spec`).
-/

namespace PartitionLog

/-- A new entry at the end of the log is the place of the record that is put there. -/
theorem BlockIndex.Lists.extend {ix after : BlockIndex} {payloads fragments : List Bytes}
    {log : Bytes} (h : ix.Lists payloads) (hlog : log = Frame.encodeRun 0 payloads)
    (hne : fragments ≠ [])
    (hindex : after = ix ∨ ix.append (Frame.span payloads) log.length = .ok after) :
    after.Lists (payloads ++ fragments) := by
  have hold : ∀ e ∈ ix.entries, ∃ r ∈ Frame.recordsOf 0 0 (payloads ++ fragments),
      r.position = e.position ∧ r.address = e.address := by
    intro e he
    obtain ⟨r, hr, hplace⟩ := h e he
    exact ⟨r, Frame.mem_recordsOf_append hr _, hplace⟩
  rcases hindex with rfl | happ
  · exact hold
  · intro e he
    rw [(entries_append happ).1] at he
    rcases List.mem_append.1 he with he | he
    · exact hold e he
    · obtain rfl := List.mem_singleton.1 he
      obtain ⟨x, rest, rfl⟩ := List.exists_cons_of_ne_nil hne
      refine ⟨⟨Frame.span payloads, log.length, x⟩, ?_, rfl, rfl⟩
      rw [Frame.recordsOf_append, Int.zero_add, Nat.zero_add, ← hlog]
      exact List.mem_append_right _ List.mem_cons_self

namespace Appender

/-- `b` has some slots less than `a`, all of them ended, and their payloads behind those in the
log. -/
def Drained (a b : Appender) (payloads after : List Bytes) : Prop :=
  ∃ count, count ≤ a.buffer.slots.length ∧ b.buffer.slots = a.buffer.slots.drop count ∧
    b.buffer.nextSlot = a.buffer.nextSlot ∧ Ended (a.buffer.slots.take count) ∧
    after = payloads ++ payloadsOf (entriesOf (a.buffer.slots.take count)) ∧
    (0 < count → a.Settled payloads ∧ a.staleBlock = none)

variable {strict : Prop} {a b c : Appender} {payloads after : List Bytes}

theorem Drained.refl (a : Appender) (payloads : List Bytes) : Drained a a payloads payloads :=
  ⟨0, by simp [Ended, entriesOf, payloadsOf]⟩

theorem Drained.same (h : Drained a b payloads after) (hs : b.Same c) :
    Drained a c payloads after := by
  obtain ⟨count, hle, hslots, hnext, h⟩ := h
  exact ⟨count, hle, hs.slots.trans hslots, hs.nextSlot.trans hnext, h⟩

theorem Drained.of_same (hs : a.Same b) (hwhole : b.staleBlock = none → a.staleBlock = none)
    (h : Drained b c payloads after) : Drained a c payloads after := by
  obtain ⟨count, hle, hslots, hnext, hended, hafter, hsettled⟩ := h
  rw [hs.slots] at hle hslots hended hafter
  refine ⟨count, hle, hslots, hnext.trans hs.nextSlot, hended, hafter, fun hpos => ?_⟩
  obtain ⟨hset, hnone⟩ := hsettled hpos
  exact ⟨⟨hs.visible ▸ hset.whole, hs.next ▸ hset.next, by
    rw [← hs.visible, ← hs.index]; exact hset.below⟩, hwhole hnone⟩

/-! ## One cycle -/

/-- The slots at the front are freed. -/
def freed (a : Appender) (count : Nat) : Appender :=
  { a with buffer := a.buffer.release count }

theorem drainOnce_runs {r : Except LogError Bool} (h : drainOnce.run a = (r, b)) :
    (a.buffer.pollBlock a.maxBlock = none ∧ r = .ok false ∧ b = a) ∨
      ∃ block, a.buffer.pollBlock a.maxBlock = some block ∧
        ((block.fragments = [] ∧ r = .ok true ∧ b = a.freed block.slotCount) ∨
          (block.fragments ≠ [] ∧
            ((∃ e, r = .error e ∧ (writeBlock block.fragments).run a = (.error e, b)) ∨
              ∃ c, r = .ok true ∧ (writeBlock block.fragments).run a = (.ok (), c) ∧
                b = c.freed block.slotCount))) := by
  unfold Attempt.run drainOnce at h
  split at h
  · next hblock =>
    simp only [Prod.mk.injEq] at h
    exact .inl ⟨hblock, h.1.symm, h.2.symm⟩
  · next block hblock =>
    refine .inr ⟨block, hblock, ?_⟩
    dsimp only at h
    split at h
    · next hempty =>
      simp only [Prod.mk.injEq] at h
      exact .inl ⟨List.isEmpty_iff.1 hempty, h.1.symm, h.2.symm⟩
    · next hne =>
      refine .inr ⟨fun hnil => hne (List.isEmpty_iff.2 hnil), ?_⟩
      split at h
      · next e c hc =>
        simp only [Prod.mk.injEq] at h
        obtain ⟨rfl, rfl⟩ := h
        exact .inl ⟨e, rfl, hc⟩
      · next c hc =>
        simp only [Prod.mk.injEq] at h
        exact .inr ⟨c, h.1.symm, hc, h.2.symm⟩

theorem drainOnce_cases {r : Except LogError Bool} (hs : a.log.storage.Sound)
    (h : drainOnce.run a = (r, b)) :
    (r = .ok false ∧ b = a) ∨
      ∃ block, a.buffer.pollBlock a.maxBlock = some block ∧
        ((block.fragments = [] ∧ r = .ok true ∧ b = a.freed block.slotCount) ∨
          (block.fragments ≠ [] ∧
            ((∃ e, r = .error e ∧ BlockWritten a block.fragments (.error e) b) ∨
              ∃ c, r = .ok true ∧ BlockWritten a block.fragments (.ok ()) c ∧
                b = c.freed block.slotCount))) := by
  obtain hnothing | ⟨block, hblock, hempty | ⟨hne, ⟨e, hr, hw⟩ | ⟨c, hr, hw, hb⟩⟩⟩ :=
    drainOnce_runs h
  · exact .inl hnothing.2
  · exact .inr ⟨block, hblock, .inl hempty⟩
  · exact .inr ⟨block, hblock, .inr ⟨hne, .inl ⟨e, hr, writeBlock_spec hs hw⟩⟩⟩
  · exact .inr ⟨block, hblock, .inr ⟨hne, .inr ⟨c, hr, writeBlock_spec hs hw, hb⟩⟩⟩

theorem same_undone {t : Storage} {n : Nat} {e : LogError} (hnone : a.staleBlock = none)
    (hs : a.log.storage.Keeps t) :
    a.Same (({ a.withStorage t with unflushed := n } : Appender).halt e) where
  sound := hs.1
  visible := by
    rw [visible_of_none hnone]
    exact Eq.trans (visible_of_none (by exact hnone)) hs.2
  index := rfl
  sampling := rfl
  slots := rfl
  nextSlot := rfl
  next := rfl
  stale := fun address hs => absurd hs (by simp [halt, withStorage, hnone])

/-- A block that is remembered as stale is not seen. -/
theorem same_stale {t : Storage} {n : Nat} {block : Bytes} {e : LogError}
    (hnone : a.staleBlock = none) (hb : Buffered a.buffer.slots block) (hs : t.Sound)
    (hstored : t.stored = a.stored ++ block) :
    a.Same (({ a.withStorage t with unflushed := n, staleBlock := some a.stored.length } :
      Appender).halt e) where
  sound := hs
  visible := by
    rw [visible_of_none hnone]
    exact (congrArg (·.take a.stored.length) hstored).trans List.take_left
  index := rfl
  sampling := rfl
  slots := rfl
  nextSlot := rfl
  next := rfl
  stale := by
    intro address hstale
    simp only [halt, Option.some.injEq] at hstale
    subst hstale
    refine ⟨by simp [isLive, halt], ?_⟩
    have hblock : t.stored.drop a.stored.length = block := by rw [hstored, List.drop_left]
    exact hblock ▸ hb

/-- An index that refuses the next block has an entry that is not below its position. -/
theorem ahead_of_refused {ix : BlockIndex} {position : Int} {address : Nat} {e : LogError}
    (hb : ix.Below address) (h : ix.append position address = .error e) :
    ∃ e ∈ ix.entries, position ≤ e.position := by
  obtain ⟨last, hlast, hnot⟩ := BlockIndex.last_of_refused h
  have hmem := List.mem_of_getLast? hlast
  have := hb last hmem
  exact ⟨last, hmem, by omega⟩

/-- An index with an entry that is not below a position takes no block there. -/
theorem not_ahead_of_append {ix after : BlockIndex} {position : Int} {address : Nat}
    (h : ix.append position address = .ok after) : ∀ e ∈ ix.entries, e.position < position := by
  intro e he
  obtain ⟨-, hf⟩ := BlockIndex.entries_append h
  have hlast := List.getLast?_eq_some_getLast (List.ne_nil_of_mem he)
  have hle := BlockIndex.position_le_last he hlast
  have := (hf _ hlast).1
  dsimp only at this
  omega

theorem Ready.next (h : a.Ready payloads) : a.nextPosition = Frame.span payloads :=
  h.elim (·.next) (·.next)

theorem Ready.below (h : a.Ready payloads) : a.log.index.Below a.visible.length :=
  h.elim (·.below) (·.below)

/-- A block that the index refuses stays in the log; from then on the appender is jammed. -/
theorem Kept.jam (hk : a.Kept strict payloads) (hr : a.Ready payloads) (hnone : a.staleBlock = none)
    (hd : Drainable a.buffer.slots) (cause : LogError) {t : Storage} {n : Nat} {block : Bytes}
    {e : LogError} (hs : t.Sound) (hstored : t.stored = a.stored ++ block)
    (hdue : needsEntry a.log.sampling.threshold a.log.sampling.sinceEntry = true)
    (hrefused : a.log.index.append a.nextPosition a.stored.length = .error e) :
    (({ a.withStorage t with unflushed := n } : Appender).halt cause).Kept strict payloads ∧
      (({ a.withStorage t with unflushed := n } : Appender).halt cause).Jammed payloads := by
  have hbelow := hr.below
  rw [visible_of_none hnone] at hbelow
  obtain ⟨entry, hmem, hahead⟩ := ahead_of_refused hbelow hrefused
  have hframes := hk.frames
  rw [visible_of_none hnone] at hframes
  have hstrict : ¬ strict := by
    intro h
    obtain ⟨r, hmem, hpos, -⟩ := hk.lists h entry hmem
    have := Frame.position_lt_of_mem (hk.filled h) hmem
    rw [hr.next] at hahead
    omega
  have hnonempty : payloads ≠ [] := by
    rcases hr with hr | hr
    · rintro rfl
      have hnil := hr.whole
      rw [visible_of_none hnone] at hnil
      have := hbelow entry hmem
      simp [hnil, Frame.encodeRun] at this
    · exact hr.nonempty
  have hvisible : (({ a.withStorage t with unflushed := n } : Appender).halt cause).visible
      = a.stored ++ block := Eq.trans (visible_of_none (by exact hnone)) hstored
  have hgrown : Frame.encodeRun 0 payloads <+: a.stored ++ block :=
    hframes.trans (List.prefix_append ..)
  constructor
  · exact {
      sound := hs
      unsaved := hk.unsaved
      short := hk.short
      frames := hvisible ▸ hgrown
      first := fun r hr => Frame.first_of_run hnonempty hk.short (hvisible ▸ hgrown) hr
      describes := by
        rw [hvisible]
        exact BlockIndex.Describes.append (visible_of_none hnone ▸ hk.describes) hbelow block
      stale := fun address h => absurd h (by simp [halt, withStorage, hnone])
      fragments := hk.fragments
      whole := fun h => absurd h hstrict
      filled := hk.filled
      lists := fun h => absurd h hstrict }
  · exact {
      nonempty := hnonempty
      next := hr.next
      below := by
        rw [hvisible]
        exact BlockIndex.Below.mono hbelow (by simp)
      drainable := hd
      due := hdue
      ahead := ⟨entry, hmem, hahead⟩ }

theorem drainOnce_error (hk : a.Kept strict payloads) (hr : a.Ready payloads)
    (hnone : a.staleBlock = none) {e : LogError} (h : drainOnce.run a = (.error e, b))
    (cause : LogError) :
    (b.halt cause).Kept strict payloads ∧ (b.halt cause).Ready payloads ∧
      b.buffer.slots = a.buffer.slots ∧ b.buffer.nextSlot = a.buffer.nextSlot := by
  obtain ⟨hr', -⟩ | ⟨block, hblock, ⟨-, hr', -⟩ | ⟨hne, ⟨_, -, hw⟩ | ⟨c, hr', -⟩⟩⟩ :=
    drainOnce_cases hk.sound h
  · simp at hr'
  · simp at hr'
  · cases hw with
    | unstored hstored =>
      cases hstored with
      | undone hkeeps =>
        exact ⟨hk.same (same_undone hnone hkeeps), hr.same (same_undone hnone hkeeps), rfl, rfl⟩
      | stale hsound hstored =>
        have hb := WriteBuffer.buffered_of_pollBlock hblock hne a.nextPosition
        exact ⟨hk.same (same_stale hnone hb hsound hstored),
          hr.same (same_stale hnone hb hsound hstored), rfl, rfl⟩
    | unnoted hsound hstored hdue hrefused =>
      have hd := (WriteBuffer.buffered_of_pollBlock hblock hne a.nextPosition).drainable
      obtain ⟨hkept, hjammed⟩ := hk.jam hr hnone hd cause hsound hstored hdue hrefused
      exact ⟨hkept, .inr hjammed, rfl, rfl⟩
  · simp at hr'

/-- A block that is written and noted goes on where the log ended. -/
theorem Kept.extend (hk : a.Kept strict payloads) (hr : a.Settled payloads)
    (hnone : a.staleBlock = none) (hsize : a.stored.length < 2 ^ 63) {fragments : List Bytes}
    (hne : fragments ≠ []) (hfragments : ∀ x ∈ fragments, x ≠ [] ∧ x.length < 2 ^ 32)
    {log : IndexedLog} {n : Nat} (hs : log.storage.Sound)
    (hstored : log.storage.stored = a.stored ++ Frame.encodeRun a.nextPosition fragments)
    (hpath : log.sampling.snapshotPath = a.log.sampling.snapshotPath)
    (hindex : log.index = a.log.index ∨
      a.log.index.append a.nextPosition a.stored.length = .ok log.index)
    (hc : c = { a with
      log := log
      unflushed := n
      nextPosition := a.nextPosition + fragments.flatten.length }) :
    c.Kept strict (payloads ++ fragments) ∧ c.Settled (payloads ++ fragments) := by
  have hwhole := hr.whole
  have hbelow := hr.below
  have hdescribes := hk.describes
  rw [visible_of_none hnone] at hwhole hbelow hdescribes
  rw [hr.next] at hstored hindex
  have hrun : Frame.encodeRun 0 (payloads ++ fragments)
      = a.stored ++ Frame.encodeRun (Frame.span payloads) fragments := by
    rw [Frame.encodeRun_append, hwhole, Int.zero_add]
  have hvisible : c.visible = Frame.encodeRun 0 (payloads ++ fragments) := by
    subst hc
    rw [hrun]
    exact Eq.trans (visible_of_none (by exact hnone)) hstored
  have hlonger : a.stored.length < (Frame.encodeRun 0 (payloads ++ fragments)).length := by
    have hsome : Frame.encodeRun (Frame.span payloads) fragments ≠ [] :=
      mt Frame.encodeRun_eq_nil.1 hne
    have := List.length_pos_iff.2 hsome
    rw [hrun, List.length_append]
    omega
  have hmarks : IndexEntry.Marks ⟨Frame.span payloads, a.stored.length⟩
      (Frame.encodeRun 0 (payloads ++ fragments)) := by
    refine fun _ => ⟨0, payloads, hk.readable hsize, ?_, by simp⟩
    rw [hrun, List.take_left, hwhole]
  have hgrown : a.log.index.Describes (Frame.encodeRun 0 (payloads ++ fragments)) := by
    rw [hrun]
    exact hdescribes.append hbelow _
  have hlonger' : a.log.index.Below (Frame.encodeRun 0 (payloads ++ fragments)).length :=
    hbelow.mono (Nat.le_of_lt hlonger)
  have hshort : ∀ x ∈ payloads ++ fragments, x.length < 2 ^ 32 :=
    List.forall_mem_append.2 ⟨hk.short, fun x hx => (hfragments x hx).2⟩
  subst hc
  constructor
  · exact {
      sound := hs
      unsaved := hpath.trans hk.unsaved
      short := hshort
      frames := hvisible ▸ List.prefix_rfl
      first := fun r hd => Frame.first_of_run (by simp [hne]) hshort List.prefix_rfl (hvisible ▸ hd)
      describes := by
        rw [hvisible]
        rcases hindex with h | h
        · exact h ▸ hgrown
        · exact BlockIndex.describes_append hgrown hmarks h
      stale := fun address h => absurd h (by simp [hnone])
      fragments := hk.fragments
      whole := fun _ => hvisible
      filled := fun h => List.forall_mem_append.2 ⟨hk.filled h, fun x hx => (hfragments x hx).1⟩
      lists := fun hstrict => (hk.lists hstrict).extend hwhole hne hindex }
  · exact {
      whole := hvisible
      next := by
        show a.nextPosition + _ = _
        rw [hr.next, Frame.span_append, Int.natCast_add]
        rfl
      below := by
        rw [hvisible]
        rcases hindex with h | h
        · exact h ▸ hlonger'
        · exact BlockIndex.below_append hlonger' hlonger h }

theorem Kept.freed (hk : a.Kept strict payloads) (hnone : a.staleBlock = none) (count : Nat) :
    (a.freed count).Kept strict payloads where
  sound := hk.sound
  unsaved := hk.unsaved
  short := hk.short
  frames := hk.frames
  first := hk.first
  describes := hk.describes
  stale := fun address h => absurd h (by simp [Appender.freed, hnone])
  fragments := by
    intro x hx
    refine hk.fragments x ?_
    rw [a.buffer.entries_split count, payloadsOf_append]
    exact List.mem_append_right _ hx
  whole := hk.whole
  filled := hk.filled
  lists := hk.lists

theorem Settled.freed (hr : a.Settled payloads) (count : Nat) : (a.freed count).Settled payloads :=
  ⟨hr.whole, hr.next, hr.below⟩

/-- A cycle that goes well; nothing is freed by a jammed appender. -/
theorem drainOnce_ok (hk : a.Kept strict payloads) (hr : a.Ready payloads)
    (hnone : a.staleBlock = none) (hsize : a.stored.length < 2 ^ 63) {moved : Bool}
    (h : drainOnce.run a = (.ok moved, b)) :
    ∃ after, b.Kept strict after ∧ b.Ready after ∧ b.staleBlock = none ∧
      Drained a b payloads after := by
  obtain ⟨-, rfl⟩ | ⟨block, hblock, hcase⟩ := drainOnce_cases hk.sound h
  · exact ⟨payloads, hk, hr, hnone, .refl b payloads⟩
  · obtain ⟨hfragments, hended⟩ := WriteBuffer.pollBlock_spec hblock
    have hcount := (WriteBuffer.slotCount_pollBlock hblock).2
    obtain ⟨hempty, -, rfl⟩ | ⟨hne, ⟨e, he, -⟩ | ⟨c, -, hw, rfl⟩⟩ := hcase
    · -- a jammed appender would have found a payload
      have hsettled : a.Settled payloads := by
        rcases hr with hr | hr
        · exact hr
        · obtain ⟨found, hfound, hsome⟩ :=
            WriteBuffer.pollBlock_of_drainable hr.drainable a.maxBlock
          rw [hblock, Option.some.injEq] at hfound
          exact absurd (hfound ▸ hempty) hsome
      refine ⟨payloads, hk.freed hnone _, .inl (hsettled.freed _), hnone, block.slotCount, hcount,
        rfl, rfl, hended, ?_, fun _ => ⟨hsettled, hnone⟩⟩
      rw [← hfragments, hempty, List.append_nil]
    · simp at he
    · cases hw with
      | noted hsound hstored hpath hindex =>
        have hsettled : a.Settled payloads := by
          rcases hr with hr | hr
          · exact hr
          · obtain ⟨entry, hmem, hahead⟩ := hr.ahead
            rcases hindex with ⟨hno, -⟩ | hok
            · rw [hr.due] at hno
              simp at hno
            · have := not_ahead_of_append hok entry hmem
              omega
        have hpayloads : ∀ x ∈ block.fragments, x ≠ [] ∧ x.length < 2 ^ 32 := by
          intro x hx
          refine hk.fragments x ?_
          rw [a.buffer.entries_split block.slotCount, payloadsOf_append, ← hfragments]
          exact List.mem_append_left _ hx
        obtain ⟨hkept, hafter⟩ := hk.extend hsettled hnone hsize hne hpayloads hsound hstored hpath
          (hindex.imp_left And.right) rfl
        refine ⟨payloads ++ block.fragments, hkept.freed hnone _, .inl (hafter.freed _), hnone,
          block.slotCount, hcount, rfl, rfl, hended, by rw [hfragments], fun _ => ⟨hsettled, hnone⟩⟩

/-! ## Draining, starting and stopping -/

/-- Nothing is taken from storage. -/
structure Grown (a b : Appender) : Prop where
  sound : b.log.storage.Sound
  stored : a.stored <+: b.stored
  path : b.log.sampling.snapshotPath = a.log.sampling.snapshotPath

theorem Grown.trans (h1 : a.Grown b) (h2 : b.Grown c) : a.Grown c :=
  ⟨h2.sound, h1.stored.trans h2.stored, h2.path.trans h1.path⟩

theorem Grown.of_keeps {t : Storage} (h : a.log.storage.Keeps t) : a.Grown (a.withStorage t) :=
  ⟨h.1, ⟨[], (List.append_nil _).trans h.2.symm⟩, rfl⟩

theorem drainOnce_grows (hs : a.log.storage.Sound) {r : Except LogError Bool}
    (h : drainOnce.run a = (r, b)) : a.Grown b := by
  obtain ⟨-, rfl⟩ | ⟨block, -, ⟨-, -, rfl⟩ | ⟨-, ⟨_, -, hw⟩ | ⟨c, -, hw, rfl⟩⟩⟩ :=
    drainOnce_cases hs h
  · exact ⟨hs, List.prefix_rfl, rfl⟩
  · exact ⟨hs, List.prefix_rfl, rfl⟩
  · cases hw with
    | unstored hstored =>
      cases hstored with
      | undone hkeeps => exact { Grown.of_keeps hkeeps with }
      | stale hsound hstored => exact ⟨hsound, ⟨_, hstored.symm⟩, rfl⟩
    | unnoted hsound hstored => exact ⟨hsound, ⟨_, hstored.symm⟩, rfl⟩
  · cases hw with
    | noted hsound hstored hpath => exact ⟨hsound, ⟨_, hstored.symm⟩, hpath⟩

theorem drain_grows (a : Appender) (hs : a.log.storage.Sound) : a.Grown (drain a).2 := by
  fun_induction drain a with
  | case1 a b h ih =>
    have hgrown := drainOnce_grows hs h
    exact hgrown.trans (ih hgrown.sound)
  | case2 a b h => exact drainOnce_grows hs h
  | case3 a e b h => exact { drainOnce_grows hs h with }

/-- The last flush, whether it fails or not, leaves the bytes that the last cycle left. -/
theorem stored_finishUp (hs : a.log.storage.Sound) : a.finishUp.stored = (drain a).2.stored := by
  have hsound := (drain_grows a hs).sound
  obtain hfailed | ⟨b, r, t, hdrained, ht, hends⟩ := finishUp_cases a
  · rw [hfailed]
  · rw [hdrained] at hsound ⊢
    have hkept : t.stored = b.stored := (Storage.flush_keeps hsound ht).2
    obtain ⟨-, hb⟩ | ⟨e, -, hb⟩ := hends
    · rw [hb]
      exact hkept
    · rw [hb]
      exact hkept

theorem finishUp_grows (hs : a.log.storage.Sound) : a.Grown a.finishUp := by
  have hgrown := drain_grows a hs
  obtain hfailed | ⟨b, r, t, hdrained, ht, hends⟩ := finishUp_cases a
  · rwa [hfailed] at hgrown
  · rw [hdrained] at hgrown
    have hkept : a.Grown (b.withStorage t) :=
      hgrown.trans (.of_keeps (Storage.flush_keeps hgrown.sound ht))
    obtain ⟨-, hb⟩ | ⟨e, -, hb⟩ := hends
    · rwa [hb]
    · rw [hb]
      exact { hkept with }

theorem stop_grows (hs : a.log.storage.Sound) : a.Grown a.stop := by
  unfold stop
  cases hlive : a.isLive with
  | false => exact ⟨hs, List.prefix_rfl, rfl⟩
  | true => exact { finishUp_grows hs with }

theorem Drained.trans {later : List Bytes} (h1 : Drained a b payloads after)
    (hfewer : b.buffer.slots.length < a.buffer.slots.length) (h2 : Drained b c after later) :
    Drained a c payloads later := by
  obtain ⟨m, hm, hslots, hnext, hended, rfl, hsettled⟩ := h1
  obtain ⟨n, hn, hslots', hnext', hended', rfl, -⟩ := h2
  rw [hslots, List.length_drop] at hn hfewer
  rw [hslots] at hslots' hended'
  refine ⟨m + n, by omega, by rw [hslots', List.drop_drop], hnext'.trans hnext, ?_, ?_,
    fun _ => hsettled (by omega)⟩
  · rw [List.take_add]
    exact List.forall_mem_append.2 ⟨hended, hended'⟩
  · rw [List.take_add, entriesOf_append, payloadsOf_append, hslots, List.append_assoc]

theorem drain_spec (a : Appender) {payloads : List Bytes} (hk : a.Kept strict payloads)
    (hr : a.Ready payloads) (hnone : a.staleBlock = none)
    (hsize : (drain a).2.stored.length < 2 ^ 63) :
    ∃ after, (drain a).2.Kept strict after ∧ (drain a).2.Ready after ∧
      ((drain a).1 = true → (drain a).2.staleBlock = none) ∧
      Drained a (drain a).2 payloads after := by
  have hstart : a.stored.length < 2 ^ 63 :=
    Nat.lt_of_le_of_lt (drain_grows a hk.sound).stored.length_le hsize
  fun_induction drain a generalizing payloads with
  | case1 a b h ih =>
    obtain ⟨after, hkept, hready, hnone', hdrained⟩ := drainOnce_ok hk hr hnone hstart h
    obtain ⟨later, hkept', hready', hstale, hdrained'⟩ := ih hkept hready hnone' hsize
      (Nat.lt_of_le_of_lt (drain_grows b hkept.sound).stored.length_le hsize)
    exact ⟨later, hkept', hready', hstale, hdrained.trans (length_drainOnce h) hdrained'⟩
  | case2 a b h =>
    obtain ⟨after, hkept, hready, hnone', hdrained⟩ := drainOnce_ok hk hr hnone hstart h
    exact ⟨after, hkept, hready, fun _ => hnone', hdrained⟩
  | case3 a e b h =>
    obtain ⟨hkept, hready, hslots, hnext⟩ := drainOnce_error hk hr hnone h e
    refine ⟨payloads, hkept, hready, by simp, 0, by simp, ?_⟩
    simpa [Ended, entriesOf, payloadsOf] using ⟨hslots, hnext⟩

theorem finishUp_spec (hk : a.Kept strict payloads) (hr : a.Ready payloads)
    (hnone : a.staleBlock = none) (hsize : a.finishUp.stored.length < 2 ^ 63) :
    ∃ after, a.finishUp.Kept strict after ∧ a.finishUp.Ready after ∧
      Drained a a.finishUp payloads after := by
  obtain ⟨after, hkept, hready, -, hdrained⟩ :=
    drain_spec a hk hr hnone (stored_finishUp hk.sound ▸ hsize)
  have hgrows := drain_grows a hk.sound
  obtain hfailed | ⟨b, r, t, hends, ht, hflushed⟩ := finishUp_cases a
  · rw [hfailed] at hkept hready hdrained
    exact ⟨after, hkept, hready, hdrained⟩
  · rw [hends] at hkept hready hdrained hgrows
    have hsame := hkept.same_storage (Storage.flush_keeps hgrows.sound ht)
    have hfinal : b.Same a.finishUp := by
      obtain ⟨-, hb⟩ | ⟨e, -, hb⟩ := hflushed
      · rwa [hb]
      · rw [hb]
        exact hsame.trans ((hkept.same hsame).same_flags rfl rfl rfl rfl rfl (by simp [isLive, halt]))
    exact ⟨after, hkept.same hfinal, hready.same hfinal, hdrained.same hfinal⟩

/-- Stopping drains what can be drained, if the appender drains at all. -/
theorem stop_spec (hk : a.Kept strict payloads) (hr : a.isLive = true → a.Ready payloads)
    (hsize : a.stop.stored.length < 2 ^ 63) :
    ∃ after, a.stop.Kept strict after ∧ (a.Ready payloads → a.stop.Ready after) ∧
      Drained a a.stop payloads after ∧ a.stop.isRunning = false := by
  have hrest : ∀ c : Appender, ∀ {after}, c.Kept strict after → c.Same { c with
      isRunning := false, phase := if c.phase = .draining then .closed else c.phase } := by
    intro c after hc
    exact hc.same_flags rfl rfl rfl rfl rfl (by simp [isLive])
  unfold stop at hsize ⊢
  cases hlive : a.isLive with
  | false =>
    have hsame := hrest a hk
    exact ⟨payloads, hk.same hsame, (·.same hsame), (Drained.refl a payloads).same hsame, rfl⟩
  | true =>
    rw [hlive] at hsize
    obtain ⟨after, hkept, hready, hdrained⟩ :=
      finishUp_spec hk (hr hlive) (hk.live hlive) hsize
    have hsame := hrest a.finishUp hkept
    exact ⟨after, hkept.same hsame, fun _ => hready.same hsame, hdrained.same hsame, rfl⟩

/-- An appender that is stopped has nothing to drain when it is stopped again. -/
theorem Kept.same_stop (hk : a.Kept strict payloads) (hrests : a.isRunning = false) :
    a.Same a.stop ∧ a.stop.log = a.log := by
  have hlive : a.isLive = false := by simp [isLive, hrests]
  unfold stop
  rw [hlive]
  exact ⟨hk.same_flags rfl rfl rfl rfl rfl fun _ => by simp [isLive], rfl⟩

end Appender

end PartitionLog
