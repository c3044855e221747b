import PartitionLog.Proofs.Guarantees
import PartitionLog.Proofs.Orderly
import PartitionLog.Proofs.ToolStreams

/-!
# What the components of a stream agree on

Opening and closing pass through storage, index, buffer and appender, and every step of it may fail.
How far the command at hand has come is the stream's `Footing`, which every step of the lifecycle and
everything that is done meanwhile keeps. Between two commands the stream is open or closed, and its
components are `Consistent` with that: a worker and open components belong to an open stream, and a
stale block to a halted appender that still has its slots (`Run.components_agree`).
-/

namespace PartitionLog

/-- A recovery works inside the open file, and opens the index if it succeeds. -/
theorem IndexedLog.recover_exclusive {log after : IndexedLog} {commit : Int}
    {r : Except LogError Recovered} (hs : log.storage.Exclusive log.sampling.snapshotPath)
    (hopen : log.storage.isOpen = true) (h : (recover commit).run log = (r, after)) :
    after.storage.Exclusive after.sampling.snapshotPath ∧ after.storage.isOpen = true ∧
      ∀ found, r = .ok found → after.sampling.isOpen = true := by
  have hconfined := recover_confined h
  refine ⟨?_, hconfined.isOpen.trans hopen, fun found hr => ?_⟩
  · rw [recover_snapshotPath hs.sound h]
    exact hs.confined hopen hconfined (recover_leaves hs.sound h).1
  · subst hr
    obtain ⟨e, storage, -, hr, -, -⟩ | ⟨storage, index, reading, -, -, -, htail⟩ :=
      recover_cases hs.sound h
    · simp at hr
    · obtain ⟨e, -, hr, -⟩ | ⟨-, -, rfl⟩ | ⟨bad, damage, -, ⟨e, t, -, hr, -⟩ | ⟨t, -, -, rfl⟩⟩ :=
        recoverTail_cases rfl htail
      · simp at hr
      · rfl
      · simp at hr
      · rfl

namespace LogStream

variable {s t : LogStream} {b : Appender} {current : Option (Job × Progress)}

/-- The appender is orderly, and nobody else writes to the storage. -/
structure Tended (s : LogStream) : Prop where
  orderly : s.appender.Orderly
  exclusive : s.storage.Exclusive s.appender.log.sampling.snapshotPath

/-- Open with its components, or closed with the appender stopped. -/
def Rests (s : LogStream) : Prop :=
  (s.state = .opened ∧ s.storage.isOpen = true ∧ s.appender.log.sampling.isOpen = true) ∨
    (s.state = .closed ∧ s.appender.isRunning = false)

/-- How the components stand while the command at hand is this far. -/
def Footing (s : LogStream) : Option (Job × Progress) → Prop
  | some (_, .openingStorage) | some (_, .abandoning _) | some (_, .closingStorage _) =>
    s.appender.isRunning = false
  | some (_, .startingUp) => s.appender.isRunning = false ∧ s.storage.isOpen = true
  | some (job, .awaitingClaims) =>
    if job.command = .close then s.storage.isOpen = true else s.Rests
  | none | some (_, .taken) | some (_, .handled _) | some (_, .released _) => s.Rests

/-! ## Work of the appender -/

theorem Tended.works (h : s.Tended) (hopen : s.storage.isOpen = true) (ho : b.Orderly)
    (hw : s.appender.Works b) : Tended { s with appender := b } := by
  refine ⟨ho, ?_⟩
  show Storage.Exclusive _ b.log.sampling.snapshotPath
  rw [hw.path]
  exact h.exclusive.confined hopen hw.confined ho.sound

theorem Rests.works (h : s.Rests) (hw : s.appender.Works b)
    (hrests : s.appender.isRunning = false → b.isRunning = false) :
    Rests { s with appender := b } :=
  h.imp (fun ⟨hstate, hstorage, hindex⟩ =>
    ⟨hstate, hw.confined.isOpen.trans hstorage, hw.isOpen.trans hindex⟩) (.imp_right hrests)

/-- Only a stream with an open storage has a worker, and what that does moves nothing. -/
theorem Footing.works (h : s.Footing current) (hruns : s.appender.isRunning = true)
    (hw : s.appender.Works b) :
    s.storage.isOpen = true ∧ Footing { s with appender := b } current := by
  have hresting (hs : s.Rests) : s.storage.isOpen = true ∧ Rests { s with appender := b } :=
    ⟨hs.elim (·.2.1) fun hclosed => by simp [hruns] at hclosed,
      hs.works hw fun hstopped => by simp [hruns] at hstopped⟩
  unfold Footing at h ⊢
  split at h
  · simp [hruns] at h
  · simp [hruns] at h
  · simp [hruns] at h
  · simp [hruns] at h
  · split at h
    · next hclose =>
      rw [if_pos hclose]
      exact ⟨h, hw.confined.isOpen.trans h⟩
    · next hclose =>
      rw [if_neg hclose]
      exact hresting h
  all_goals exact hresting h

/-- The buffer is opened or shut. -/
theorem Tended.withBuffer (h : s.Tended) {f : WriteBuffer → WriteBuffer}
    (hslots : s.buffer.slots ≠ [] → (f s.buffer).slots ≠ []) : (s.withBuffer f).Tended :=
  ⟨h.orderly.grow h.orderly.sound (Nat.le_refl _) hslots rfl rfl rfl, h.exclusive⟩

/-- An appender that was not running leaves the log alone when it is stopped. -/
theorem Tended.stop (h : s.Tended) (hopen : s.appender.isRunning = true → s.storage.isOpen = true) :
    (s.withAppender Appender.stop).Tended := by
  cases hruns : s.appender.isRunning with
  | true => exact h.works (hopen hruns) h.orderly.stop (Appender.atWork_works.stop _)
  | false =>
    refine ⟨h.orderly.stop, ?_⟩
    have hlog : s.appender.stop.log = s.appender.log := by
      simp [Appender.stop, Appender.isLive, hruns]
    show Storage.Exclusive s.appender.stop.log.storage s.appender.stop.log.sampling.snapshotPath
    rw [hlog]
    exact h.exclusive

/-! ## Opening and closing the storage -/

theorem openStorage_tended (h : s.Tended) {r : Except LogError Unit}
    (ho : openStorage.run s = (r, t)) :
    t.Tended ∧ t.appender.isRunning = s.appender.isRunning ∧ (r = .ok () → t.storage.isOpen = true) := by
  unfold Attempt.run openStorage at ho
  split at ho
  · next hopen =>
    simp only [Prod.mk.injEq] at ho
    obtain ⟨rfl, rfl⟩ := ho
    exact ⟨h, rfl, fun _ => hopen⟩
  · obtain ⟨u, hu, rfl⟩ := onStorage_cases ho
    obtain ⟨hexclusive, hopen⟩ := Storage.openUp_exclusive h.exclusive hu
    obtain ⟨hsound, hstored⟩ := Storage.openUp_keeps h.orderly.sound hu
    exact ⟨⟨h.orderly.grow hsound (Nat.le_of_eq (congrArg List.length hstored.symm)) id rfl rfl rfl,
      hexclusive⟩, rfl, hopen⟩

/-- Whether or not the storage can be closed, the stream is. -/
theorem closeStorage_tended (h : s.Tended) (hrests : s.appender.isRunning = false) :
    s.closeStorage.2.Tended ∧ s.closeStorage.2.Rests := by
  unfold closeStorage
  generalize hclose : (onStorage Storage.close).run s = closed
  obtain ⟨r, c⟩ := closed
  obtain ⟨u, hu, rfl⟩ := onStorage_cases hclose
  obtain ⟨hsound, hstored⟩ := Storage.close_keeps h.orderly.sound hu
  exact ⟨⟨h.orderly.grow hsound (Nat.le_of_eq (congrArg List.length hstored.symm)) id rfl rfl rfl,
    Storage.close_exclusive h.exclusive hu⟩, .inr ⟨rfl, hrests⟩⟩

theorem windDown_tended (h : s.Tended) (hopen : s.storage.isOpen = true) :
    s.windDown.2.Tended ∧ s.windDown.2.appender.isRunning = false := by
  have hstopped := h.stop fun _ => hopen
  have hopen' : (s.withAppender Appender.stop).storage.isOpen = true :=
    (Appender.atWork_works.stop s.appender).confined.isOpen.trans hopen
  unfold windDown settleClaims
  dsimp only
  generalize hsave : (onAppender (Appender.onLog IndexedLog.persist)).run
    (s.withAppender Appender.stop) = saved
  obtain ⟨r, c⟩ := saved
  obtain ⟨a, ha, rfl⟩ := onAppender_cases hsave
  obtain ⟨log, hlog, rfl⟩ := Appender.onLog_cases ha
  obtain ⟨hexclusive, hstored⟩ := IndexedLog.persist_exclusive hstopped.exclusive hopen' hlog
  have hlength := Nat.le_of_eq (congrArg List.length hstored.symm)
  exact ⟨⟨hstopped.orderly.grow hexclusive.sound hlength id rfl rfl rfl, hexclusive⟩, rfl⟩

/-! ## Starting up -/

theorem start_tended (h : s.Tended) (hopen : s.storage.isOpen = true) {r : Except LogError Unit}
    (ht : (onAppender Appender.start).run s = (r, t)) :
    t.Tended ∧ s.appender.Works t.appender ∧ t.state = s.state := by
  obtain ⟨b, hb, rfl⟩ := onAppender_cases ht
  have hw := Appender.works_start s.appender
  rw [hb] at hw
  exact ⟨h.works hopen (h.orderly.start hb) hw, hw, rfl⟩

theorem takeOff_tended (h : s.Tended) (hnone : s.appender.staleBlock = none)
    (hrests : s.appender.isRunning = false) (hopen : s.storage.isOpen = true) {position : Int}
    {r : Except LogError Unit} (ht : (takeOff position).run s = (r, t)) :
    t.Tended ∧ s.appender.Works t.appender := by
  have hmoved : Appender.Orderly { s.appender with nextPosition := position } := { h.orderly with }
  have hreset := hmoved.resetFailure hnone
  have hw : s.appender.Works (Appender.resetFailure { s.appender with nextPosition := position }) :=
    (Appender.works_resetFailure { s.appender with nextPosition := position }).of_logs
      rfl rfl rfl rfl
  have htaken : Tended { s with
      appender := Appender.resetFailure { s.appender with nextPosition := position } } :=
    h.works hopen hreset hw
  rw [takeOff, Attempt.run_bind_ok (run_moveTo hrests position), Attempt.run_bind,
    Attempt.run_modify] at ht
  dsimp only at ht
  rw [Attempt.run_bind, Attempt.run_get] at ht
  dsimp only at ht
  have hbuffered := htaken.withBuffer (f := WriteBuffer.reopen) id
  split at ht
  · obtain ⟨hstarted, hw', -⟩ := start_tended hbuffered
      (by exact hw.confined.isOpen.trans hopen) ht
    exact ⟨hstarted, hw.trans (hw'.of_logs rfl rfl rfl rfl)⟩
  · simp only [Attempt.run_pure, Prod.mk.injEq] at ht
    obtain ⟨-, rfl⟩ := ht
    exact ⟨hbuffered, hw.of_logs rfl rfl rfl rfl⟩

theorem startUp_tended (h : s.Tended) (hrests : s.appender.isRunning = false)
    (hopen : s.storage.isOpen = true) {r : Except LogError Unit} (ht : startUp.run s = (r, t)) :
    t.Tended ∧ t.storage.isOpen = true ∧
      (r = .ok () → t.appender.log.sampling.isOpen = true) := by
  rw [startUp, Attempt.run_bind] at ht
  split at ht
  · next _ u hu =>
    obtain ⟨a, ha, rfl⟩ := onAppender_cases hu
    obtain ⟨horderly, hstill, -, hnone⟩ := h.orderly.discardStale ha
    have hworks := Appender.works_discardStale s.appender
    rw [ha] at hworks
    have hdiscarded := h.works hopen horderly hworks
    have hopen' : a.log.storage.isOpen = true := hworks.confined.isOpen.trans hopen
    rw [Attempt.run_bind, Attempt.run_get] at ht
    dsimp only at ht
    rw [Attempt.run_bind] at ht
    split at ht
    · next found v hv =>
      obtain ⟨c, hc, rfl⟩ := onAppender_cases hv
      obtain ⟨log, hlog, rfl⟩ := Appender.onLog_cases hc
      obtain ⟨hexclusive, hlogopen, hindex⟩ :=
        IndexedLog.recover_exclusive hdiscarded.exclusive hopen' hlog
      have hrecovered : Tended { s with appender := { a with log := log } } :=
        ⟨.of_none hexclusive.sound horderly.draining (hnone rfl), hexclusive⟩
      obtain ⟨htaken, hw⟩ := takeOff_tended hrecovered (hnone rfl) (hstill.trans hrests) hlogopen ht
      exact ⟨htaken, hw.confined.isOpen.trans hlogopen, fun _ => hw.isOpen.trans (hindex _ rfl)⟩
    · next e v hv =>
      obtain ⟨c, hc, rfl⟩ := onAppender_cases hv
      obtain ⟨log, hlog, rfl⟩ := Appender.onLog_cases hc
      simp only [Prod.mk.injEq] at ht
      obtain ⟨rfl, rfl⟩ := ht
      obtain ⟨hexclusive, hlogopen, -⟩ :=
        IndexedLog.recover_exclusive hdiscarded.exclusive hopen' hlog
      exact ⟨⟨.of_none hexclusive.sound horderly.draining (hnone rfl), hexclusive⟩, hlogopen, by simp⟩
  · next e u hu =>
    obtain ⟨a, ha, rfl⟩ := onAppender_cases hu
    simp only [Prod.mk.injEq] at ht
    obtain ⟨rfl, rfl⟩ := ht
    have hworks := Appender.works_discardStale s.appender
    rw [ha] at hworks
    exact ⟨h.works hopen (h.orderly.discardStale ha).1 hworks, hworks.confined.isOpen.trans hopen,
      by simp⟩

/-! ## Commands in one step -/

theorem ensureOpen_ok {request : StreamRequest} (h : s.ensureOpen request = .ok ()) :
    s.state = .opened := by
  unfold ensureOpen at h
  split at h
  · assumption
  · simp at h

theorem Rests.storage_open (h : s.Rests) (hopened : s.state = .opened) : s.storage.isOpen = true :=
  h.elim (·.2.1) fun hclosed => by simp [hopened] at hclosed

theorem Rests.of_works (h : s.Rests) (hopened : s.state = .opened) (hstate : t.state = s.state)
    (hw : s.appender.Works t.appender) : t.Rests := by
  obtain ⟨-, hstorage, hindex⟩ | ⟨hclosed, -⟩ := h
  · exact .inl ⟨hstate.trans hopened, hw.confined.isOpen.trans hstorage, hw.isOpen.trans hindex⟩
  · simp [hopened] at hclosed

theorem startAppender_tended (h : s.Tended) (hs : s.Rests) {r : Except LogError Unit}
    (ht : startAppender.run s = (r, t)) : t.Tended ∧ t.Rests := by
  unfold Attempt.run startAppender at ht
  split at ht
  · simp only [Prod.mk.injEq] at ht
    obtain ⟨-, rfl⟩ := ht
    exact ⟨h, hs⟩
  · next hensured =>
    have hopened := ensureOpen_ok hensured
    have hbuffered := h.withBuffer (f := WriteBuffer.reopen) id
    obtain ⟨htended, hw, hstate⟩ := start_tended hbuffered (by exact hs.storage_open hopened) ht
    exact ⟨htended, hs.of_works hopened hstate (hw.of_logs rfl rfl rfl rfl)⟩

/-- Looking for a record only reads. -/
theorem addressOf_tended (h : s.Tended) (hopen : s.storage.isOpen = true) {position : Int}
    {r : Except LogError Nat} (ht : (addressOf position).run s = (r, t)) :
    t.Tended ∧ ∃ u, t = s.withStorage u ∧ s.appender.Works t.appender := by
  obtain ⟨answer, rs, hfind, rfl, -⟩ := addressOf_cases ht
  have halike : s.storage.ReadAlike rs.storage := Reading.findAddress_readAlike hfind
  obtain ⟨hsound, hstored⟩ := halike.alike.keeps h.orderly.sound
  have hw : s.appender.Works (s.withStorage rs.storage).appender :=
    ⟨halike.confined, rfl, rfl, List.Subset.refl _⟩
  have hlength := Nat.le_of_eq (congrArg List.length hstored.symm)
  exact ⟨h.works hopen (h.orderly.grow hsound hlength id rfl rfl rfl) hw, _, rfl, hw⟩

/-- Without a stale block the storage may be cut anywhere. -/
theorem cut_tended (h : s.Tended) (hopen : s.storage.isOpen = true)
    (hnone : s.appender.staleBlock = none) {address : Nat} {r : Except LogError Unit} {u : Storage}
    (hu : (Storage.truncate address).run s.storage = (r, u)) :
    (s.withStorage u).Tended ∧ s.appender.Works (s.withStorage u).appender := by
  have hconfined := (Storage.Confines.truncate address).run hu
  have hw : s.appender.Works (s.withStorage u).appender :=
    ⟨hconfined, rfl, rfl, List.Subset.refl _⟩
  refine ⟨h.works hopen (.of_none ?_ h.orderly.draining hnone) hw, hw⟩
  cases r with
  | ok => exact (Storage.truncate_ok h.orderly.sound hu).1
  | error e => exact (Storage.truncate_error h.orderly.sound hu).1

theorem truncate_tended (h : s.Tended) (hs : s.Rests) {position : Int} {r : Except LogError Unit}
    (ht : (truncate position).run s = (r, t)) : t.Tended ∧ t.Rests := by
  cases truncate_cases ht with
  | refused => exact ⟨h, hs⟩
  | missed hallow hfind =>
    have hopened := (allowTruncate_ok hallow).2.1
    obtain ⟨hfound, found, rfl, hw⟩ := addressOf_tended h (hs.storage_open hopened) hfind
    exact ⟨hfound, hs.of_works hopened rfl hw⟩
  | uncut hallow hfind hcut =>
    obtain ⟨-, hopened, -, hempty⟩ := allowTruncate_ok hallow
    have hopen := hs.storage_open hopened
    obtain ⟨hfound, found, rfl, hw⟩ := addressOf_tended h hopen hfind
    obtain ⟨hafter, hw'⟩ := cut_tended hfound (hw.confined.isOpen.trans hopen)
      (h.orderly.none_of_empty hempty) hcut
    exact ⟨hafter, hs.of_works hopened rfl (hw.trans hw')⟩
  | cut hallow hfind hcut =>
    obtain ⟨-, hopened, -, hempty⟩ := allowTruncate_ok hallow
    have hopen := hs.storage_open hopened
    obtain ⟨hfound, found, rfl, hw⟩ := addressOf_tended h hopen hfind
    obtain ⟨hafter, hw'⟩ := cut_tended hfound (hw.confined.isOpen.trans hopen)
      (h.orderly.none_of_empty hempty) hcut
    refine ⟨⟨{ hafter.orderly with }, hafter.exclusive⟩, hs.of_works hopened rfl ?_⟩
    have hboth := hw.trans hw'
    exact ⟨hboth.confined, hboth.isOpen, hboth.path, hboth.listeners⟩

end LogStream

namespace Lifecycle

variable {l next : Lifecycle}

/-- The stream of a lifecycle stands as the command at hand says. -/
structure Kempt (l : Lifecycle) : Prop where
  tended : l.stream.Tended
  footing : l.stream.Footing l.current

theorem begin_kempt (h : l.stream.Tended) (hs : l.stream.Rests) (job : Job) :
    (l.begin job).Kempt := by
  obtain ⟨ticket, command⟩ := job
  unfold begin
  cases command with
  | openUp =>
    dsimp only
    split
    · exact ⟨h, hs⟩
    · next hnot =>
      have hstopped := hs.elim (fun hopened => absurd hopened.1 hnot) And.right
      split
      · next hopen => exact ⟨{ h with }, hstopped, hopen⟩
      · exact ⟨{ h with }, hstopped⟩
  | close =>
    dsimp only
    split
    · exact ⟨h, hs⟩
    · next hnot =>
      have hopen := hs.elim (·.2.1) fun hclosed => absurd hclosed.1 hnot
      have hclosing : LogStream.Tended { l.stream with state := .closing } := { h with }
      exact ⟨hclosing.withBuffer (f := WriteBuffer.shut) id, hopen⟩
  | startAppender =>
    generalize hrun : (LogStream.perform .startAppender).run l.stream = result
    obtain ⟨r, t⟩ := result
    obtain ⟨htended, hrests⟩ := LogStream.startAppender_tended h hs hrun
    exact ⟨htended, hrests⟩
  | stopAppender => exact ⟨h.withBuffer (f := WriteBuffer.shut) id, hs⟩
  | truncate position =>
    generalize hrun : (LogStream.perform (.truncate position)).run l.stream = result
    obtain ⟨r, t⟩ := result
    obtain ⟨htended, hrests⟩ := LogStream.truncate_tended h hs hrun
    exact ⟨htended, hrests⟩

theorem giveUp_kempt {s : LogStream} (h : s.Tended)
    (hopen : s.appender.isRunning = true → s.storage.isOpen = true) (job : Job) (cause : LogError) :
    (l.giveUp job cause s).Kempt := ⟨h.stop hopen, rfl⟩

theorem afterClaims_kempt (h : l.Kempt) {job : Job}
    (hcurrent : l.current = some (job, .awaitingClaims)) : (l.afterClaims job).Kempt := by
  have hfooting := h.footing
  rw [hcurrent] at hfooting
  unfold LogStream.Footing at hfooting
  dsimp only at hfooting
  unfold afterClaims
  split
  · next hclose =>
    rw [if_pos hclose] at hfooting
    obtain ⟨htended, hstopped⟩ := LogStream.windDown_tended h.tended hfooting
    exact ⟨htended, hstopped⟩
  · next hclose =>
    rw [if_neg hclose] at hfooting
    have hopen (hruns : l.stream.appender.isRunning = true) : l.stream.storage.isOpen = true :=
      hfooting.elim (·.2.1) fun hclosed => by simp [hruns] at hclosed
    exact ⟨h.tended.stop hopen, hfooting.works (Appender.atWork_works.stop _) fun _ => rfl⟩

theorem advance_kempt (h : l.Kempt) {patient : Bool} (hadvance : l.advance patient = some next) :
    next.Kempt := by
  obtain ⟨htended, hfooting⟩ := h
  unfold advance at hadvance
  cases hcurrent : l.current with
  | none =>
    rw [hcurrent] at hfooting
    simp only [hcurrent] at hadvance
    split at hadvance
    · simp at hadvance
    · simp only [Option.some.injEq] at hadvance
      subst hadvance
      exact ⟨htended, hfooting⟩
  | some current =>
    obtain ⟨job, progress⟩ := current
    rw [hcurrent] at hfooting
    simp only [hcurrent] at hadvance
    cases progress with
    | taken =>
      simp only [Option.some.injEq] at hadvance
      exact hadvance ▸ begin_kempt htended hfooting job
    | openingStorage =>
      dsimp only at hadvance
      split at hadvance
      · simp at hadvance
      · split at hadvance
        · next s hopen =>
          simp only [Option.some.injEq] at hadvance
          obtain ⟨ht, hstill, hopened⟩ := LogStream.openStorage_tended htended hopen
          exact hadvance ▸ ⟨ht, hstill.trans hfooting, hopened rfl⟩
        · next e s hopen =>
          simp only [Option.some.injEq] at hadvance
          obtain ⟨ht, hstill, -⟩ := LogStream.openStorage_tended htended hopen
          refine hadvance ▸ giveUp_kempt ht (fun hruns => ?_) job e
          rw [hstill, show l.stream.appender.isRunning = false from hfooting] at hruns
          simp at hruns
    | startingUp =>
      obtain ⟨hrests, hopen⟩ := hfooting
      dsimp only at hadvance
      split at hadvance
      · next s hup =>
        simp only [Option.some.injEq] at hadvance
        obtain ⟨ht, hopened, hindex⟩ := LogStream.startUp_tended htended hrests hopen hup
        exact hadvance ▸ ⟨{ ht with }, .inl ⟨rfl, hopened, hindex rfl⟩⟩
      · next e s hup =>
        simp only [Option.some.injEq] at hadvance
        obtain ⟨ht, hopened, -⟩ := LogStream.startUp_tended htended hrests hopen hup
        exact hadvance ▸ giveUp_kempt ht (fun _ => hopened) job e
    | abandoning cause =>
      dsimp only at hadvance
      split at hadvance
      · simp at hadvance
      · simp only [Option.some.injEq] at hadvance
        obtain ⟨ht, hclosed⟩ := LogStream.closeStorage_tended htended hfooting
        exact hadvance ▸ ⟨ht, hclosed⟩
    | awaitingClaims =>
      dsimp only at hadvance
      split at hadvance
      · simp at hadvance
      · simp only [Option.some.injEq] at hadvance
        exact hadvance ▸ afterClaims_kempt ⟨htended, hcurrent ▸ hfooting⟩ hcurrent
    | closingStorage outcome =>
      dsimp only at hadvance
      split at hadvance
      · simp at hadvance
      · simp only [Option.some.injEq] at hadvance
        obtain ⟨ht, hclosed⟩ := LogStream.closeStorage_tended htended hfooting
        exact hadvance ▸ ⟨ht, hclosed⟩
    | handled outcome =>
      dsimp only at hadvance
      split at hadvance <;>
      · simp only [Option.some.injEq] at hadvance
        subst hadvance
        exact ⟨htended, hfooting⟩
    | released outcome =>
      simp only [Option.some.injEq] at hadvance
      subst hadvance
      exact ⟨htended, hfooting⟩

theorem request_kempt (h : l.Kempt) (command : Command) : (l.request command).2.Kempt := by
  have hsubmit (command : Command) : (l.submit command).2.Kempt := ⟨h.tended, h.footing⟩
  cases command with
  | openUp =>
    unfold request requestOpen
    dsimp only
    split
    · exact h
    · exact ⟨h.tended, h.footing⟩
  | close =>
    unfold request requestClose
    dsimp only
    split
    · exact ⟨h.tended, h.footing⟩
    · split
      · exact ⟨h.tended, h.footing⟩
      · exact hsubmit .close
  | startAppender => exact hsubmit .startAppender
  | stopAppender => exact hsubmit .stopAppender
  | truncate position => exact hsubmit (.truncate position)

/-- The appender does some of its work; a stopped one does nothing. -/
theorem Kempt.work (h : l.Kempt) {f : Appender → Appender} (hw : ∀ a : Appender, a.Works (f a))
    (horderly : ∀ a : Appender, a.Orderly → (f a).Orderly)
    (hrests : ∀ a : Appender, a.isRunning = false → f a = a) :
    (l.onStream (·.withAppender f)).Kempt := by
  cases hruns : l.stream.appender.isRunning with
  | true =>
    obtain ⟨hopen, hfooting⟩ := h.footing.works hruns (hw l.stream.appender)
    exact ⟨h.tended.works hopen (horderly _ h.tended.orderly) (hw _), hfooting⟩
  | false =>
    have hsame : l.onStream (·.withAppender f) = l := by
      simp only [onStream, LogStream.withAppender, hrests _ hruns]
    rw [hsame]
    exact h

/-- Producers work on the buffer; they take no slot out of it. -/
theorem Kempt.withBuffer (h : l.Kempt) {b : WriteBuffer}
    (hslots : l.stream.buffer.slots ≠ [] → b.slots ≠ []) :
    (l.onStream (·.withBuffer fun _ => b)).Kempt :=
  ⟨h.tended.withBuffer (f := fun _ => b) hslots, h.footing⟩

end Lifecycle

/-! ## Producers -/

namespace WriteBuffer

variable {b after : WriteBuffer}

theorem isPrefix_reserve {length : Nat} {r : Except LogError (Nat × Nat)}
    (h : (reserve length).run b = (r, after)) : b.slots <+: after.slots := by
  obtain ⟨e, -, rfl⟩ | ⟨-, padded, hpadded, -, rfl⟩ := reserve_cases h
  · exact (restart_slots b length).1 ▸ List.prefix_rfl
  · have hrestarted : b.slots <+: padded.slots := by
      rw [hpadded]
      split
      · exact ⟨_, by rw [push, (restart_slots b length).1]⟩
      · exact (restart_slots b length).1 ▸ List.prefix_rfl
    exact hrestarted.trans ⟨_, rfl⟩

theorem isPrefix_tryClaim {length : Nat} {r : Except LogError Claim}
    (h : (tryClaim length).run b = (r, after)) : b.slots <+: after.slots := by
  obtain ⟨e, -, rfl⟩ | ⟨e, -, hreserve⟩ | ⟨-, -, slot, offset, -, hreserve⟩ := tryClaim_cases h
  · exact List.prefix_rfl
  · exact isPrefix_reserve hreserve
  · exact isPrefix_reserve hreserve

theorem length_finish (b : WriteBuffer) (slot : Nat) (outcome : SlotState) :
    (b.finish slot outcome).slots.length = b.slots.length := by
  unfold finish setState
  dsimp only
  split
  · rfl
  · split
    · rfl
    · exact List.length_modify ..

end WriteBuffer

/-! ## Runs -/

/-- A command is to be begun, or all of it was done. -/
def Progress.Idle : Progress → Prop
  | .taken | .handled _ | .released _ => True
  | _ => False

/-- Nothing of a command is being carried out. -/
def Lifecycle.Between (l : Lifecycle) : Prop :=
  ∀ job progress, l.current = some (job, progress) → progress.Idle

theorem Lifecycle.between_of_idle {l : Lifecycle} (h : l.current = none) : l.Between := by
  intro job progress hcurrent
  simp [h] at hcurrent

/-- What the components of a stream agree on. -/
structure LogStream.Consistent (s : LogStream) : Prop where
  settled : s.state = .closed ∨ s.state = .opened
  worker : s.appender.isRunning = true → s.state = .opened
  components : s.state = .opened →
    s.storage.isOpen = true ∧ s.appender.log.sampling.isOpen = true
  phase : s.appender.phase = .draining → s.appender.isRunning = true
  stale : ∀ address, s.appender.staleBlock = some address →
    s.appender.phase = .failed ∧ address ≤ s.storage.stored.length ∧ s.buffer.slots ≠ []

theorem Lifecycle.Kempt.consistent {l : Lifecycle} (h : l.Kempt) (hbetween : l.Between) :
    l.stream.Consistent := by
  have hrests : l.stream.Rests := by
    have hfooting := h.footing
    cases hcurrent : l.current with
    | none =>
      rw [hcurrent] at hfooting
      exact hfooting
    | some current =>
      obtain ⟨job, progress⟩ := current
      have hidle := hbetween job progress hcurrent
      rw [hcurrent] at hfooting
      cases progress with
      | taken => exact hfooting
      | handled => exact hfooting
      | released => exact hfooting
      | openingStorage => exact hidle.elim
      | startingUp => exact hidle.elim
      | abandoning => exact hidle.elim
      | awaitingClaims => exact hidle.elim
      | closingStorage => exact hidle.elim
  exact {
    settled := hrests.elim (fun hopened => .inr hopened.1) fun hclosed => .inl hclosed.1
    worker := fun hruns => hrests.elim And.left fun hclosed => by simp [hruns] at hclosed
    components := fun hopened => hrests.elim And.right fun hclosed => by simp [hopened] at hclosed
    phase := h.tended.orderly.draining
    stale := h.tended.orderly.stale }

namespace Run

variable {s : LogStream} {initial : List Bytes} {actions : List Action} {u : Run}

theorem act_kempt (h : u.lifecycle.Kempt) {action : Action} (hwhole : ¬ action.Tears) :
    (u.act action).lifecycle.Kempt := by
  cases action with
  | request command => exact Lifecycle.request_kempt h command
  | advance patient =>
    unfold act
    dsimp only
    split
    · exact h
    · next hadvance =>
      split
      · exact Lifecycle.advance_kempt h hadvance
      · exact Lifecycle.advance_kempt h hadvance
  | claim length =>
    unfold act
    dsimp only
    split
    all_goals
      next hclaim =>
        exact h.withBuffer fun hslots hnil =>
          hslots (List.prefix_nil.1 (hnil ▸ WriteBuffer.isPrefix_tryClaim hclaim))
  | commit index payload =>
    unfold act
    dsimp only
    split
    · exact h
    · next claim _ =>
      split
      · exact h.withBuffer fun hslots => by
          rwa [← List.length_pos_iff, WriteBuffer.commit, WriteBuffer.length_finish,
            List.length_pos_iff]
      · exact h
  | abort index =>
    unfold act
    dsimp only
    split
    · exact h
    · exact h.withBuffer fun hslots => by
        rwa [← List.length_pos_iff, WriteBuffer.abort, WriteBuffer.length_finish,
          List.length_pos_iff]
  | drain => exact h.work Appender.atWork_works.cycle (fun _ => .cycle) fun _ => Appender.cycle_of_rests
  | wake => exact h.work Appender.atWork_works.wake (fun _ => .wake) fun _ => Appender.wake_of_rests
  | raiseCommit position => exact ⟨{ h.tended with }, h.footing⟩
  | tear rest => exact absurd trivial hwhole

theorem after_kempt (h : u.lifecycle.Kempt) (hwhole : ∀ action ∈ actions, ¬ action.Tears) :
    (u.after actions).lifecycle.Kempt := by
  induction actions generalizing u with
  | nil => exact h
  | cons action rest ih =>
    refine ih (u := u.step action) ?_ fun other hother =>
      hwhole other (List.mem_cons_of_mem _ hother)
    exact act_kempt h (hwhole action List.mem_cons_self)

theorem start_kempt (hunused : s.Unused)
    (hown : s.storage.Exclusive s.appender.log.sampling.snapshotPath) :
    (start s initial).lifecycle.Kempt := by
  refine ⟨⟨.of_none hown.sound (fun hdraining => ?_) hunused.stale, hown⟩,
    .inr ⟨hunused.state, hunused.isRunning⟩⟩
  rw [show (start s initial).lifecycle.stream.appender.phase = .closed from hunused.phase]
    at hdraining
  simp at hdraining

/-- A flush fails, and so does taking its block back. -/
def halted : List Action := carryOut .openUp ++ [.claim 3, .commit 0 [7, 8, 9], .drain]

end Run

end PartitionLog
