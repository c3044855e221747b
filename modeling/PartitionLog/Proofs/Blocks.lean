import PartitionLog.Appender
import PartitionLog.Proofs.Storage

/-!
# Storing a block

What one drain cycle can do to storage. `BlockStored a block r b`: storing `block` from `a` answers `r`
and leaves `b`, which is one of three things: the bytes are what they were, or the block is there and
remembered as stale, or the block is there durably (`storeBlock_spec`). Noting a stored block in the
index is the other half of writing it (`writeBlock_spec`). Before an appender starts it discards a
stale block (`discardStale_cases`, `start_cases`).
-/

namespace PartitionLog

namespace IndexedLog

variable {log after : IndexedLog} {position : Int} {address length : Nat}

/-- A block that is due gets an entry, unless the index refuses it; any other is counted. -/
theorem noteBlock_cases {r : Except LogError Unit}
    (h : (noteBlock position address length).run log = (r, after)) :
    (needsEntry log.sampling.threshold log.sampling.sinceEntry = true ∧
      ((∃ e, log.index.append position address = .error e ∧ r = .error e ∧ after = log) ∨
        ∃ index, log.index.append position address = .ok index ∧ r = .ok () ∧
          after = { log with
            index := index, sampling := { log.sampling with sinceEntry := some length } })) ∨
    (needsEntry log.sampling.threshold log.sampling.sinceEntry = false ∧ r = .ok () ∧
      after = { log with sampling :=
        { log.sampling with sinceEntry := log.sampling.sinceEntry.map (· + length) } }) := by
  unfold Attempt.run noteBlock at h
  split at h
  · next hdue =>
    refine .inl ⟨hdue, ?_⟩
    split at h
    · next e he =>
      simp only [Prod.mk.injEq] at h
      exact .inl ⟨e, he, h.1.symm, h.2.symm⟩
    · next index hok =>
      simp only [Prod.mk.injEq] at h
      exact .inr ⟨index, hok, h.1.symm, h.2.symm⟩
  · next hdue =>
    simp only [Prod.mk.injEq] at h
    exact .inr ⟨by simpa using hdue, h.1.symm, h.2.symm⟩

/-- However a block is noted, only the index and the count change. -/
theorem noteBlock_leaves {r : Except LogError Unit}
    (h : (noteBlock position address length).run log = (r, after)) :
    after.storage = log.storage ∧
      after.sampling = { log.sampling with sinceEntry := after.sampling.sinceEntry } ∧
      (after.index = log.index ∨ log.index.append position address = .ok after.index) := by
  obtain ⟨-, ⟨e, -, -, rfl⟩ | ⟨index, hok, -, rfl⟩⟩ | ⟨-, -, rfl⟩ := noteBlock_cases h
  · exact ⟨rfl, rfl, .inl rfl⟩
  · exact ⟨rfl, rfl, .inr hok⟩
  · exact ⟨rfl, rfl, .inl rfl⟩

theorem noteBlock_ok (h : (noteBlock position address length).run log = (.ok (), after)) :
    after.storage = log.storage ∧ after.sampling.snapshotPath = log.sampling.snapshotPath ∧
      ((needsEntry log.sampling.threshold log.sampling.sinceEntry = false ∧
          after.index = log.index) ∨
        log.index.append position address = .ok after.index) := by
  obtain ⟨-, ⟨e, -, hbad, -⟩ | ⟨index, hok, -, rfl⟩⟩ | ⟨hdue, -, rfl⟩ := noteBlock_cases h
  · simp at hbad
  · exact ⟨rfl, rfl, .inr hok⟩
  · exact ⟨rfl, rfl, .inl ⟨hdue, rfl⟩⟩

theorem noteBlock_error {e : LogError}
    (h : (noteBlock position address length).run log = (.error e, after)) :
    after = log ∧ needsEntry log.sampling.threshold log.sampling.sinceEntry = true ∧
      log.index.append position address = .error e := by
  obtain ⟨hdue, ⟨e', he, hr, rfl⟩ | ⟨_, -, hbad, -⟩⟩ | ⟨-, hbad, -⟩ := noteBlock_cases h
  · simp only [Except.error.injEq] at hr
    exact ⟨rfl, hdue, hr ▸ he⟩
  · simp at hbad
  · simp at hbad

end IndexedLog

namespace Attempt

variable {σ α : Type} {x : Attempt σ α} {f : LogError → LogError} {s t : σ}

theorem of_mapError_ok {a : α} (h : (x.mapError f).run s = (.ok a, t)) : x.run s = (.ok a, t) := by
  unfold Attempt.run mapError at *
  split at h
  · next heq => rw [heq, h]
  · simp at h

theorem of_mapError_error {e : LogError} (h : (x.mapError f).run s = (.error e, t)) :
    ∃ cause, x.run s = (.error cause, t) := by
  unfold Attempt.run mapError at *
  split at h
  · simp at h
  · next cause u heq =>
    simp only [Prod.mk.injEq] at h
    exact ⟨cause, by rw [heq, h.2]⟩

theorem run_outcome (x : Attempt σ α) (s : σ) : x.outcome.run s = (.ok (x.run s).1, (x.run s).2) :=
  rfl

theorem run_of_toOption {a : α} (h : (x.run s).1.toOption = some a) :
    x.run s = (.ok a, (x.run s).2) := by
  refine Prod.ext ?_ rfl
  cases hr : (x.run s).1 with
  | ok b =>
    rw [hr] at h
    exact congrArg Except.ok (Option.some.inj h)
  | error e =>
    rw [hr] at h
    simp [Except.toOption] at h

end Attempt

namespace Appender

def stored (a : Appender) : Bytes := a.log.storage.stored

def withStorage (a : Appender) (t : Storage) : Appender :=
  { a with log := { a.log with storage := t } }

variable {a b : Appender} {α : Type}

theorem onStorage_cases {x : Attempt Storage α} {r : Except LogError α}
    (h : (onStorage x).run a = (r, b)) :
    ∃ t, x.run a.log.storage = (r, t) ∧ b = a.withStorage t := by
  unfold Attempt.run onStorage Attempt.within at h
  simp only [Prod.mk.injEq] at h
  obtain ⟨hr, rfl⟩ := h
  exact ⟨_, Prod.ext hr rfl, rfl⟩

theorem run_onStorage {x : Attempt Storage α} {r : Except LogError α} {t : Storage}
    (h : x.run a.log.storage = (r, t)) : (onStorage x).run a = (r, a.withStorage t) := by
  unfold Attempt.run at h
  simp only [Attempt.run, onStorage, Attempt.within, h]
  rfl

theorem drain_of_moved (h : drainOnce.run a = (.ok true, b)) : drain a = drain b := by
  rw [drain]
  split
  · next c hc =>
    rw [h] at hc
    simp only [Prod.mk.injEq, true_and] at hc
    rw [hc]
  · next hc =>
    rw [h] at hc
    simp at hc
  · next hc =>
    rw [h] at hc
    simp at hc

/-- The last drain fails, or a flush follows it, which halts the appender if it fails. -/
theorem finishUp_cases (a : Appender) :
    drain a = (false, a.finishUp) ∨
      ∃ b r t, drain a = (true, b) ∧ Storage.flush.run b.log.storage = (r, t) ∧
        ((r = .ok () ∧ a.finishUp = b.withStorage t) ∨
          ∃ e, r = .error e ∧ a.finishUp = (b.withStorage t).halt (.finalFlushFailed e)) := by
  unfold finishUp
  split
  · next b hdrain => exact .inl hdrain
  · next b hdrain =>
    refine .inr ⟨b, ?_⟩
    split
    · next hflush =>
      obtain ⟨t, ht, rfl⟩ := onStorage_cases hflush
      exact ⟨_, t, hdrain, ht, .inl ⟨rfl, rfl⟩⟩
    · next e c hflush =>
      obtain ⟨t, ht, rfl⟩ := onStorage_cases hflush
      exact ⟨_, t, hdrain, ht, .inr ⟨e, rfl, rfl⟩⟩

theorem onLog_cases {x : Attempt IndexedLog α} {r : Except LogError α}
    (h : (onLog x).run a = (r, b)) :
    ∃ log, x.run a.log = (r, log) ∧ b = { a with log := log } := by
  unfold Attempt.run onLog Attempt.within at h
  simp only [Prod.mk.injEq] at h
  obtain ⟨hr, rfl⟩ := h
  exact ⟨_, Prod.ext hr rfl, rfl⟩

/-! ## Storing -/

inductive BlockStored (a : Appender) (block : Bytes) : Except LogError Nat → Appender → Prop where
  /-- Nothing was written, or the block was taken back. -/
  | undone {e : LogError} {t : Storage} {n : Nat} (keeps : a.log.storage.Keeps t) :
      BlockStored a block (.error e) { a.withStorage t with unflushed := n }
  | stale {e : LogError} {t : Storage} {unflushed : Nat} (sound : t.Sound)
      (stored : t.stored = a.stored ++ block) :
      BlockStored a block (.error e)
        { a.withStorage t with unflushed := unflushed, staleBlock := some a.stored.length }
  | durable {t : Storage} {unflushed : Nat} (sound : t.Sound)
      (stored : t.stored = a.stored ++ block) :
      BlockStored a block (.ok a.stored.length) { a.withStorage t with unflushed := unflushed }

/-- The blocks since the last flush for one, another block among them if such blocks are counted. -/
def counted (a : Appender) : Nat := if a.sync = .everyBlock then a.unflushed else a.unflushed + 1

theorem settleBlock_cases {r : Except LogError Unit} (h : settleBlock.run a = (r, b)) :
    (flushDue a.sync a.counted = false ∧ r = .ok () ∧ b = { a with unflushed := a.counted }) ∨
      (flushDue a.sync a.counted = true ∧ ∃ t, Storage.flush.run a.log.storage = (r, t) ∧
        ((r = .ok () ∧ b = { a.withStorage t with unflushed := 0 }) ∨
          ∃ e, r = .error e ∧ b = { a.withStorage t with unflushed := a.counted })) := by
  have hcount : (if a.sync = .everyBlock then a else { a with unflushed := a.unflushed + 1 })
      = { a with unflushed := a.counted } := by
    unfold counted
    split <;> rfl
  rw [settleBlock, Attempt.run_bind_ok (Attempt.run_modify _ _),
    Attempt.run_bind_ok (Attempt.run_get _), hcount] at h
  split at h
  · next hdue =>
    refine .inr ⟨hdue, ?_⟩
    rw [Attempt.run_bind] at h
    split at h
    · next _ c hc =>
      obtain ⟨t, ht, rfl⟩ := onStorage_cases hc
      simp only [Attempt.run_modify, Prod.mk.injEq] at h
      obtain ⟨rfl, rfl⟩ := h
      exact ⟨t, ht, .inl ⟨rfl, rfl⟩⟩
    · next e c hc =>
      obtain ⟨t, ht, rfl⟩ := onStorage_cases hc
      simp only [Prod.mk.injEq] at h
      obtain ⟨rfl, rfl⟩ := h
      exact ⟨t, ht, .inr ⟨e, rfl, rfl⟩⟩
  · next hdue =>
    simp only [Attempt.run_pure, Prod.mk.injEq] at h
    exact .inl ⟨by simpa using hdue, h.1.symm, h.2.symm⟩

/-- A flush that passes settles the block, if it is due. -/
theorem settleBlock_flushed {t : Storage} (h : Storage.flush.run a.log.storage = (.ok (), t)) :
    ∃ u n, settleBlock.run a = (.ok (), { a.withStorage u with unflushed := n }) ∧
      (u = a.log.storage ∨ u = t) := by
  generalize hrun : settleBlock.run a = settled
  obtain ⟨r, b⟩ := settled
  obtain ⟨-, rfl, rfl⟩ | ⟨-, u, hu, hcases⟩ := settleBlock_cases hrun
  · exact ⟨a.log.storage, a.counted, rfl, .inl rfl⟩
  · rw [h] at hu
    simp only [Prod.mk.injEq] at hu
    obtain ⟨rfl, rfl⟩ := hu
    obtain ⟨-, rfl⟩ | ⟨e, he, -⟩ := hcases
    · exact ⟨t, 0, rfl, .inr rfl⟩
    · simp at he

theorem settleBlock_keeps {r : Except LogError Unit} (hs : a.log.storage.Sound)
    (h : settleBlock.run a = (r, b)) :
    ∃ t unflushed, b = { a.withStorage t with unflushed := unflushed } ∧
      a.log.storage.Keeps t := by
  obtain ⟨-, -, rfl⟩ | ⟨-, t, ht, ⟨-, rfl⟩ | ⟨e, -, rfl⟩⟩ := settleBlock_cases h
  · exact ⟨a.log.storage, _, rfl, hs, rfl⟩
  · exact ⟨t, _, rfl, Storage.flush_keeps hs ht⟩
  · exact ⟨t, _, rfl, Storage.flush_keeps hs ht⟩

theorem rollBack_spec {address : Nat} {cause : LogError} {r : Except LogError Unit}
    (h : (rollBack address cause).run a = (r, b)) :
    ∃ e t, r = .error e ∧
      (((Storage.truncate address).run a.log.storage = (.ok (), t) ∧ b = a.withStorage t) ∨
        ∃ e', (Storage.truncate address).run a.log.storage = (.error e', t) ∧
          b = { a.withStorage t with staleBlock := some address }) := by
  unfold Attempt.run rollBack at h
  split at h
  · next c hc =>
    obtain ⟨t, ht, rfl⟩ := onStorage_cases hc
    simp only [Prod.mk.injEq] at h
    obtain ⟨rfl, rfl⟩ := h
    exact ⟨_, t, rfl, .inl ⟨ht, rfl⟩⟩
  · next e c hc =>
    obtain ⟨t, ht, rfl⟩ := onStorage_cases hc
    simp only [Prod.mk.injEq] at h
    obtain ⟨rfl, rfl⟩ := h
    exact ⟨_, t, rfl, .inr ⟨e, ht, rfl⟩⟩

theorem storeBlock_cases {block : Bytes} {r : Except LogError Nat}
    (h : (storeBlock block).run a = (r, b)) :
    (∃ e cause t, (Storage.append block).run a.log.storage = (.error cause, t) ∧ r = .error e ∧
      b = a.withStorage t) ∨
    ∃ address t, (Storage.append block).run a.log.storage = (.ok address, t) ∧
      ((settleBlock.run (a.withStorage t) = (.ok (), b) ∧ r = .ok address) ∨
        ∃ cause c e, settleBlock.run (a.withStorage t) = (.error cause, c) ∧
          (rollBack address cause).run c = (.error e, b) ∧ r = .error e) := by
  rw [storeBlock, Attempt.run_bind] at h
  split at h
  · next address c hc =>
    obtain ⟨t, ht, rfl⟩ := onStorage_cases (Attempt.of_mapError_ok hc)
    refine .inr ⟨address, t, ht, ?_⟩
    rw [Attempt.run_bind, Attempt.run_outcome] at h
    dsimp only at h
    generalize settleBlock.run (a.withStorage t) = settled at h ⊢
    obtain ⟨outcome, c⟩ := settled
    cases outcome with
    | ok =>
      simp only [Attempt.run_pure, Prod.mk.injEq] at h
      obtain ⟨rfl, rfl⟩ := h
      exact .inl ⟨rfl, rfl⟩
    | error cause =>
      rw [Attempt.run_bind] at h
      generalize hroll : (rollBack address cause).run c = rolled at h
      obtain ⟨outcome, d⟩ := rolled
      obtain ⟨e, -, rfl, -⟩ := rollBack_spec hroll
      simp only [Prod.mk.injEq] at h
      obtain ⟨rfl, rfl⟩ := h
      exact .inr ⟨cause, c, e, rfl, hroll, rfl⟩
  · next e c hc =>
    obtain ⟨cause, hcause⟩ := Attempt.of_mapError_error hc
    obtain ⟨t, ht, rfl⟩ := onStorage_cases hcause
    simp only [Prod.mk.injEq] at h
    exact .inl ⟨e, cause, t, ht, h.1.symm, h.2.symm⟩

/-- An append and a flush that pass store the block. -/
theorem storeBlock_flushed {block : Bytes} {address : Nat} {t u : Storage}
    (happend : (Storage.append block).run a.log.storage = (.ok address, t))
    (hflush : Storage.flush.run t = (.ok (), u)) :
    ∃ v n, (storeBlock block).run a = (.ok address, { a.withStorage v with unflushed := n }) ∧
      (v = t ∨ v = u) := by
  have hput : ((onStorage (Storage.append block)).mapError (.appendFailed block.length)).run a
      = (.ok address, a.withStorage t) := by
    have hrun := run_onStorage happend
    unfold Attempt.run at hrun
    simp only [Attempt.run, Attempt.mapError, hrun]
  obtain ⟨v, n, hsettle, hv⟩ := settleBlock_flushed (a := a.withStorage t) hflush
  refine ⟨v, n, ?_, hv⟩
  rw [storeBlock, Attempt.run_bind_ok hput,
    Attempt.run_bind_ok (Attempt.run_outcome settleBlock (a.withStorage t)), hsettle]
  rfl

theorem storeBlock_spec {block : Bytes} {r : Except LogError Nat} (hs : a.log.storage.Sound)
    (h : (storeBlock block).run a = (r, b)) : BlockStored a block r b := by
  obtain ⟨e, cause, t, ht, rfl, rfl⟩ | ⟨address, t, ht, hsettled⟩ := storeBlock_cases h
  · exact .undone (n := a.unflushed) (Storage.append_error hs ht)
  obtain ⟨hsound, rfl, hstored⟩ := Storage.append_ok hs ht
  obtain ⟨hsettle, rfl⟩ | ⟨cause, c, e, hsettle, hroll, rfl⟩ := hsettled
  · obtain ⟨u, unflushed, rfl, hkeeps⟩ := settleBlock_keeps (a := a.withStorage t) hsound hsettle
    exact .durable hkeeps.1 (hkeeps.2.trans hstored)
  · obtain ⟨u, unflushed, rfl, hkeeps⟩ := settleBlock_keeps (a := a.withStorage t) hsound hsettle
    have hu : u.stored = a.stored ++ block := hkeeps.2.trans hstored
    obtain ⟨e, v, -, ⟨hv, rfl⟩ | ⟨e', hv, rfl⟩⟩ := rollBack_spec hroll
    · obtain ⟨hsound, -, hcut⟩ := Storage.truncate_ok hkeeps.1 hv
      refine .undone ⟨hsound, ?_⟩
      rw [hcut]
      exact (congrArg _ hu).trans List.take_left
    · obtain ⟨hsound, hsame⟩ := Storage.truncate_error hkeeps.1 hv
      exact .stale hsound (hsame.trans hu)

/-! ## Writing -/

/-- What writing some fragments at the next position can do. -/
inductive BlockWritten (a : Appender) (fragments : List Bytes) :
    Except LogError Unit → Appender → Prop where
  | unstored {e : LogError} {b : Appender}
      (stored : BlockStored a (Frame.encodeRun a.nextPosition fragments) (.error e) b) :
      BlockWritten a fragments (.error e) b
  /-- The block is there, but the index refuses it. -/
  | unnoted {e : LogError} {t : Storage} {unflushed : Nat} (sound : t.Sound)
      (stored : t.stored = a.stored ++ Frame.encodeRun a.nextPosition fragments)
      (due : needsEntry a.log.sampling.threshold a.log.sampling.sinceEntry = true)
      (refused : a.log.index.append a.nextPosition a.stored.length = .error e) :
      BlockWritten a fragments (.error e) { a.withStorage t with unflushed := unflushed }
  | noted {log : IndexedLog} {unflushed : Nat} (sound : log.storage.Sound)
      (stored : log.storage.stored = a.stored ++ Frame.encodeRun a.nextPosition fragments)
      (path : log.sampling.snapshotPath = a.log.sampling.snapshotPath)
      (index : (needsEntry a.log.sampling.threshold a.log.sampling.sinceEntry = false ∧
          log.index = a.log.index) ∨
        a.log.index.append a.nextPosition a.stored.length = .ok log.index) :
      BlockWritten a fragments (.ok ())
        { a with
          log := log
          unflushed := unflushed
          nextPosition := a.nextPosition + fragments.flatten.length }

theorem writeBlock_cases {fragments : List Bytes} {r : Except LogError Unit}
    (h : (writeBlock fragments).run a = (r, b)) :
    (∃ e, (storeBlock (Frame.encodeRun a.nextPosition fragments)).run a = (.error e, b) ∧
      r = .error e) ∨
    ∃ address c log, (storeBlock (Frame.encodeRun a.nextPosition fragments)).run a = (.ok address, c) ∧
      (IndexedLog.noteBlock a.nextPosition address
        (Frame.encodeRun a.nextPosition fragments).length).run c.log = (r, log) ∧
      ((∃ e, r = .error e ∧ b = { c with log := log }) ∨
        (r = .ok () ∧ b = { c with
          log := log, nextPosition := c.nextPosition + fragments.flatten.length })) := by
  rw [writeBlock, Attempt.run_bind, Attempt.run_get] at h
  dsimp only at h
  rw [Attempt.run_bind] at h
  split at h
  · next address c hc =>
    rw [Attempt.run_bind] at h
    split at h
    · next _ d hd =>
      obtain ⟨log, hlog, rfl⟩ := onLog_cases hd
      simp only [Attempt.run_modify, Prod.mk.injEq] at h
      obtain ⟨rfl, rfl⟩ := h
      exact .inr ⟨address, c, log, hc, hlog, .inr ⟨rfl, rfl⟩⟩
    · next e d hd =>
      obtain ⟨log, hlog, rfl⟩ := onLog_cases hd
      simp only [Prod.mk.injEq] at h
      obtain ⟨rfl, rfl⟩ := h
      exact .inr ⟨address, c, log, hc, hlog, .inl ⟨e, rfl, rfl⟩⟩
  · next e c hc =>
    simp only [Prod.mk.injEq] at h
    obtain ⟨rfl, rfl⟩ := h
    exact .inl ⟨e, hc, rfl⟩

theorem writeBlock_spec {fragments : List Bytes} {r : Except LogError Unit}
    (hs : a.log.storage.Sound) (h : (writeBlock fragments).run a = (r, b)) :
    BlockWritten a fragments r b := by
  obtain ⟨e, hc, rfl⟩ | ⟨address, c, log, hc, hlog, hnoted⟩ := writeBlock_cases h
  · exact .unstored (storeBlock_spec hs hc)
  · have hstored := storeBlock_spec hs hc
    cases hstored with
    | durable hsound hstored =>
      obtain ⟨e, rfl, rfl⟩ | ⟨rfl, rfl⟩ := hnoted
      · obtain ⟨rfl, hdue, hrefused⟩ := IndexedLog.noteBlock_error hlog
        exact .unnoted hsound hstored hdue hrefused
      · obtain ⟨hstorage, hpath, hindex⟩ := IndexedLog.noteBlock_ok hlog
        exact .noted (hstorage ▸ hsound) (hstorage ▸ hstored) hpath hindex

/-! ## Starting -/

theorem discardStale_cases {r : Except LogError Unit} (h : discardStale.run a = (r, b)) :
    (a.staleBlock = none ∧ r = .ok () ∧ b = a) ∨
      ∃ address t, a.staleBlock = some address ∧
        (((Storage.truncate address).run a.log.storage = (.ok (), t) ∧ r = .ok () ∧
            b = { a.withStorage t with staleBlock := none }) ∨
          ∃ e, (Storage.truncate address).run a.log.storage = (.error e, t) ∧ r = .error e ∧
            b = a.withStorage t) := by
  unfold Attempt.run discardStale at h
  split at h
  · next hnone =>
    simp only [Prod.mk.injEq] at h
    exact .inl ⟨hnone, h.1.symm, h.2.symm⟩
  · next address hstale =>
    split at h
    · next e c hc =>
      obtain ⟨t, ht, rfl⟩ := onStorage_cases hc
      simp only [Prod.mk.injEq] at h
      exact .inr ⟨address, t, hstale, .inr ⟨e, ht, h.1.symm, h.2.symm⟩⟩
    · next c hc =>
      obtain ⟨t, ht, rfl⟩ := onStorage_cases hc
      simp only [Prod.mk.injEq] at h
      exact .inr ⟨address, t, hstale, .inl ⟨ht, h.1.symm, h.2.symm⟩⟩

theorem start_cases {r : Except LogError Unit} (h : start.run a = (r, b)) :
    (a.isLive = true ∧ r = .ok () ∧ b = a) ∨
      (a.isLive = false ∧ ∃ e, discardStale.run { a with isRunning := false } = (.error e, b) ∧
        r = .error e) ∨
      (a.isLive = false ∧ ∃ c, discardStale.run { a with isRunning := false } = (.ok (), c) ∧
        r = .ok () ∧ b = ({ c with
          phase := .draining, isRunning := true, isFresh := true } : Appender).announceRecovery) := by
  unfold Attempt.run start at h
  split at h
  · next hlive =>
    simp only [Prod.mk.injEq] at h
    exact .inl ⟨hlive, h.1.symm, h.2.symm⟩
  · next hlive =>
    have hlive : a.isLive = false := by simpa using hlive
    split at h
    · next e c hc =>
      simp only [Prod.mk.injEq] at h
      obtain ⟨rfl, rfl⟩ := h
      exact .inr (.inl ⟨hlive, e, hc, rfl⟩)
    · next c hc =>
      simp only [Prod.mk.injEq] at h
      exact .inr (.inr ⟨hlive, c, hc, h.1.symm, h.2.symm⟩)

end Appender

end PartitionLog
