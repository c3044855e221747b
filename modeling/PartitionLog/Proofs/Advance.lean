import PartitionLog.Proofs.Usage

/-!
# What a step of the lifecycle keeps

How far the command at hand has come tells in which `Stage` its stream is: between commands it is
open and ready to drain, or closed and stopped. Every step leaves the stream in the stage of the step
that follows, and its log either goes on with the payloads of the slots that were freed, or was cut
at the position that the command asked for (`advance_spec`).
-/

namespace PartitionLog

inductive Stage where
  | resting
  | opening
  | closing
  /-- Closing, with the appender stopped. -/
  | stopped
  deriving DecidableEq, Repr

namespace Lifecycle

def stage (l : Lifecycle) : Stage :=
  match l.current with
  | some (_, .openingStorage) | some (_, .startingUp) | some (_, .abandoning _) => .opening
  | some (job, .awaitingClaims) => if job.command = .close then .closing else .resting
  | some (_, .closingStorage _) => .stopped
  | _ => .resting

end Lifecycle

namespace LogStream

variable {strict : Prop} {s t : LogStream} {payloads after : List Bytes} {stage : Stage}

/-- What holds of a stream in a stage. -/
def In (s : LogStream) (payloads : List Bytes) : Stage → Prop
  | .resting => (s.state = .opened ∧ s.appender.Ready payloads) ∨
      (s.state = .closed ∧ s.appender.isRunning = false)
  | .opening => s.state = .opening ∧ s.appender.isRunning = false
  | .closing => s.state = .closing ∧ s.appender.Ready payloads
  | .stopped => s.state = .closing ∧ s.appender.isRunning = false

theorem In.ready_of_live (h : s.In payloads stage) (hlive : s.appender.isLive = true) :
    s.appender.Ready payloads := by
  have hruns := Appender.isRunning_of_isLive hlive
  cases stage with
  | resting => exact h.elim And.right fun h => absurd h.2 hruns
  | opening => exact absurd h.2 hruns
  | closing => exact h.2
  | stopped => exact absurd h.2 hruns

theorem In.ready_of_opened (h : s.In payloads stage) (hopen : s.state = .opened) :
    s.appender.Ready payloads := by
  cases stage with
  | resting => exact h.elim And.right fun h => by rw [hopen] at h; simp at h
  | opening => rw [In, hopen] at h; simp at h
  | closing => exact h.2
  | stopped => rw [In, hopen] at h; simp at h

theorem In.rests_of_closed (h : s.In payloads stage) (hclosed : s.state = .closed) :
    s.appender.isRunning = false := by
  cases stage with
  | resting => exact h.elim (fun h => by rw [hclosed] at h; simp at h) And.right
  | opening => exact h.2
  | closing => rw [In, hclosed] at h; simp at h
  | stopped => exact h.2

/-- The stage of a closed stream does not depend on its log. -/
theorem In.of_closed (h : s.In payloads stage) (hclosed : s.state = .closed)
    (hstate : t.state = s.state) (hrests : t.appender.isRunning = false) : t.In after stage := by
  cases stage with
  | resting => exact .inr ⟨hstate.trans hclosed, hrests⟩
  | opening => rw [In, hclosed] at h; simp at h
  | closing => rw [In, hclosed] at h; simp at h
  | stopped => rw [In, hclosed] at h; simp at h

/-- A change of the appender that keeps it ready or stopped keeps the stage. -/
theorem In.map (h : s.In payloads stage) (hstate : t.state = s.state)
    (hready : s.appender.Ready payloads → t.appender.Ready after)
    (hrests : s.appender.isRunning = false → t.appender.isRunning = false) :
    t.In after stage := by
  cases stage with
  | resting => exact h.imp (.imp hstate.trans hready) (.imp hstate.trans hrests)
  | opening => exact h.imp hstate.trans hrests
  | closing => exact h.imp hstate.trans hready
  | stopped => exact h.imp hstate.trans hrests

/-- The log of `t` goes on from that of `s` with the payloads of the slots that were freed, and a
doubled tail at most; or it was cut at a position. -/
def Moved (strict : Prop) (s t : LogStream) (payloads after : List Bytes) :
    Option Int → Prop
  | none => ∃ middle, Appender.Drained s.appender t.appender payloads middle ∧
      middle <+: after ∧ (strict → after = middle)
  | some position => s.commit < position ∧ s.buffer.slots = [] ∧ t.buffer = s.buffer ∧
      t.storage.stored = Frame.encodeRun 0 after ∧
      ∃ gone, payloads = after ++ gone ∧ Frame.span after = position

theorem Moved.drained (h : Appender.Drained s.appender t.appender payloads after) :
    Moved strict s t payloads after none := ⟨after, h, List.prefix_rfl, fun _ => rfl⟩

theorem Moved.same (h : s.appender.Same t.appender) : Moved strict s t payloads payloads none :=
  .drained ((Appender.Drained.refl _ _).same h)

end LogStream

namespace Lifecycle

variable {strict : Prop} {l next : Lifecycle} {payloads after : List Bytes}

/-- What a step leaves: the stream keeps its log and is in its stage. -/
structure Advanced (strict : Prop) (l next : Lifecycle) (payloads after : List Bytes) : Prop where
  kept : next.stream.appender.Kept strict after
  stage : next.stream.In after next.stage
  commit : next.stream.commit = l.stream.commit
  moved : LogStream.Moved strict l.stream next.stream payloads after (l.cutAt next)

theorem Advanced.of_same (hk : l.stream.appender.Kept strict payloads)
    (hsame : l.stream.appender.Same next.stream.appender)
    (hstage : next.stream.In payloads next.stage) (hcommit : next.stream.commit = l.stream.commit)
    (hcut : l.cutAt next = none) : l.Advanced strict next payloads payloads where
  kept := hk.same hsame
  stage := hstage
  commit := hcommit
  moved := hcut ▸ .same hsame

theorem same_refl {a : Appender} (hk : a.Kept strict payloads) : a.Same a :=
  hk.same_flags rfl rfl rfl rfl rfl fun _ => id

theorem same_shut {a : Appender} (hk : a.Kept strict payloads) :
    a.Same { a with buffer := a.buffer.shut } :=
  hk.same_flags rfl rfl rfl rfl rfl fun _ => id

theorem startAppender_spec {s t : LogStream} (hk : s.appender.Kept strict payloads)
    (hs : s.In payloads .resting) {r : Except LogError Unit}
    (h : LogStream.startAppender.run s = (r, t)) :
    s.appender.Same t.appender ∧ t.In payloads .resting ∧ t.commit = s.commit := by
  unfold Attempt.run LogStream.startAppender at h
  split at h
  · simp only [Prod.mk.injEq] at h
    obtain ⟨-, rfl⟩ := h
    exact ⟨same_refl hk, hs, rfl⟩
  · next hopen =>
    have hstate : s.state = .opened := by
      unfold LogStream.ensureOpen at hopen
      split at hopen
      · assumption
      · simp at hopen
    obtain ⟨b, hb, rfl⟩ := LogStream.onAppender_cases h
    have hreopened : s.appender.Same (s.withBuffer WriteBuffer.reopen).appender :=
      hk.same_flags rfl rfl rfl rfl rfl fun _ => id
    have hsame := hreopened.trans (Appender.start_spec (hk.same hreopened) hb)
    exact ⟨hsame, .inl ⟨hstate, (hs.ready_of_opened hstate).same hsame⟩, rfl⟩

theorem begin_spec (hk : l.stream.appender.Kept strict payloads)
    (hs : l.stream.In payloads .resting) (hsize : l.stream.storage.stored.length < 2 ^ 63)
    {job : Job} (hcurrent : l.current = some (job, .taken)) :
    ∃ after, l.Advanced strict (l.begin job) payloads after := by
  obtain ⟨ticket, command⟩ := job
  cases command with
  | openUp =>
    refine ⟨payloads, ?_⟩
    unfold begin
    dsimp only
    split
    · exact .of_same hk (same_refl hk) hs rfl (by simp [cutAt, hcurrent])
    · next hnot =>
      have hrests : l.stream.appender.isRunning = false :=
        hs.elim (fun h => absurd h.1 hnot) And.right
      split
      · exact .of_same hk (same_refl hk) ⟨rfl, hrests⟩ rfl (by simp [cutAt, hcurrent])
      · exact .of_same hk (same_refl hk) ⟨rfl, hrests⟩ rfl (by simp [cutAt, hcurrent])
  | close =>
    refine ⟨payloads, ?_⟩
    unfold begin
    dsimp only
    split
    · exact .of_same hk (same_refl hk) hs rfl (by simp [cutAt, hcurrent])
    · next hnot =>
      have hready : l.stream.appender.Ready payloads :=
        hs.elim And.right fun h => absurd h.1 hnot
      exact .of_same hk (same_shut hk) ⟨rfl, hready.same (same_shut hk)⟩ rfl
        (by simp [cutAt, hcurrent])
  | startAppender =>
    refine ⟨payloads, ?_⟩
    obtain ⟨hsame, hstage, hcommit⟩ := startAppender_spec hk hs (r := _) (t := _) rfl
    exact .of_same hk hsame hstage hcommit (by simp [cutAt, hcurrent])
  | stopAppender =>
    refine ⟨payloads, ?_⟩
    have hstage : (l.stream.withBuffer WriteBuffer.shut).In payloads .resting :=
      hs.map rfl (·.same (same_shut hk)) id
    exact .of_same hk (same_shut hk) hstage rfl (by simp [cutAt, hcurrent])
  | truncate position =>
    generalize hrun : (LogStream.truncate position).run l.stream = result
    obtain ⟨r, t⟩ := result
    have hnext : l.begin ⟨ticket, .truncate position⟩
        = l.reach ⟨ticket, .truncate position⟩ (.handled r) t := by
      simp only [begin, LogStream.perform, hrun]
    obtain ⟨b, rfl, htruncated⟩ := LogStream.truncate_spec hk hs.ready_of_opened hsize hrun
    rw [hnext]
    cases r with
    | error e =>
      obtain ⟨hsame, hrunning⟩ := htruncated
      have hstage : ({ l.stream with appender := b } : LogStream).In payloads .resting :=
        hs.map rfl (·.same hsame) hrunning.trans
      exact ⟨payloads, .of_same hk hsame hstage rfl (by simp [cutAt, hcurrent, reach])⟩
    | ok =>
      obtain ⟨hopen, hcommit, hempty, hbuffer, kept, gone, rfl, hposition, hkept, hsettled,
        hstored⟩ := htruncated
      refine ⟨kept, ?_⟩
      have hcut : l.cutAt (l.reach ⟨ticket, .truncate position⟩ (.handled (.ok ()))
          { l.stream with appender := b }) = some position := by
        simp [cutAt, hcurrent, reach]
      exact {
        kept := hkept
        stage := .inl ⟨hopen, .inl hsettled⟩
        commit := rfl
        moved := by
          rw [hcut]
          exact ⟨hcommit, hempty, hbuffer, hstored, gone, rfl, hposition⟩ }

/-! ## Stopping and closing -/

theorem settleClaims_spec {s : LogStream} {stage : Stage} (hk : s.appender.Kept strict payloads)
    (hs : s.In payloads stage) (hsize : s.settleClaims.2.storage.stored.length < 2 ^ 63) :
    ∃ after, s.settleClaims.2.appender.Kept strict after ∧
      (s.appender.Ready payloads → s.settleClaims.2.appender.Ready after) ∧
      Appender.Drained s.appender s.settleClaims.2.appender payloads after ∧
      s.settleClaims.2.appender.isRunning = false :=
  Appender.stop_spec hk hs.ready_of_live hsize

/-- Opening failed: the appender is stopped, and there is nothing for it to drain. -/
theorem giveUp_spec (l : Lifecycle) (job : Job) (cause : LogError) {s : LogStream}
    (hk : s.appender.Kept strict payloads) (hs : s.In payloads .opening) :
    (l.giveUp job cause s).stream.appender.Kept strict payloads ∧
      s.appender.Same (l.giveUp job cause s).stream.appender ∧
      (l.giveUp job cause s).stream.In payloads .opening := by
  have hsame := (hk.same_stop hs.2).1
  exact ⟨hk.same hsame, hsame, hs.1, rfl⟩

theorem windDown_spec {s : LogStream} {stage : Stage} (hk : s.appender.Kept strict payloads)
    (hs : s.In payloads stage) (hsize : s.windDown.2.storage.stored.length < 2 ^ 63) :
    ∃ after, s.windDown.2.appender.Kept strict after ∧
      Appender.Drained s.appender s.windDown.2.appender payloads after ∧
      s.windDown.2.appender.isRunning = false ∧ s.windDown.2.state = s.state ∧
      s.windDown.2.commit = s.commit := by
  have hgrown := Appender.stop_grows hk.sound
  obtain ⟨isOpen, hwound⟩ := LogStream.windDown_unsaved (hgrown.path.trans hk.unsaved)
  rw [hwound] at hsize ⊢
  obtain ⟨after, hkept, -, hdrained, hrests⟩ := settleClaims_spec hk hs hsize
  exact ⟨after, { hkept with }, hdrained, hrests, rfl, rfl⟩

/-- A storage that is closed, or cannot be, holds what it held. -/
theorem closed_spec {s : LogStream} (hk : s.appender.Kept strict payloads)
    (hrests : s.appender.isRunning = false) :
    s.appender.Same s.closeStorage.2.appender ∧ s.closeStorage.2.In payloads .resting ∧
      s.closeStorage.2.commit = s.commit := by
  obtain ⟨u, hkeeps, hclosed⟩ := LogStream.closeStorage_spec hk
  rw [hclosed]
  exact ⟨hk.same_storage hkeeps, .inr ⟨rfl, hrests⟩, rfl⟩

theorem afterClaims_spec (hk : l.stream.appender.Kept strict payloads)
    (hs : l.stream.In payloads l.stage) {job : Job} (hc : l.current = some (job, .awaitingClaims))
    (hsize : (l.afterClaims job).stream.storage.stored.length < 2 ^ 63) :
    ∃ after, l.Advanced strict (l.afterClaims job) payloads after := by
  have hcut : l.cutAt (l.afterClaims job) = none := by simp [cutAt, hc]
  unfold afterClaims at hsize hcut ⊢
  split at hsize
  · next hclose =>
    have hstage : l.stage = .closing := by simp [stage, hc, hclose]
    rw [hstage] at hs
    rw [if_pos hclose] at hcut ⊢
    obtain ⟨after, hkept, hdrained, hrests, hstate, hcommit⟩ := windDown_spec hk hs hsize
    exact ⟨after, hkept, ⟨hstate.trans hs.1, hrests⟩, hcommit, hcut ▸ .drained hdrained⟩
  · next hclose =>
    have hstage : l.stage = .resting := by simp [stage, hc, hclose]
    rw [hstage] at hs
    rw [if_neg hclose] at hcut ⊢
    obtain ⟨after, hkept, hready, hdrained, hrests⟩ := settleClaims_spec hk hs hsize
    exact ⟨after, hkept, hs.map (t := l.stream.settleClaims.2) rfl hready fun _ => hrests, rfl,
      hcut ▸ .drained hdrained⟩

/-! ## Opening -/

theorem moved_of_slots {s t : LogStream} (hslots : t.buffer.slots = s.buffer.slots)
    (hnextSlot : t.buffer.nextSlot = s.buffer.nextSlot) (hmore : payloads <+: after)
    (hsame : strict → after = payloads) : LogStream.Moved strict s t payloads after none := by
  refine ⟨payloads, ⟨0, by simp, hslots, hnextSlot, ?_⟩, hmore, hsame⟩
  simp [Ended, entriesOf, payloadsOf]

/-- Whether the storage opens or not, the stream is still opening after it. -/
theorem openingStorage_spec (hk : l.stream.appender.Kept strict payloads)
    (hs : l.stream.In payloads .opening) {job : Job} (hc : l.current = some (job, .openingStorage))
    {r : Except LogError Unit} {s : LogStream} (h : LogStream.openStorage.run l.stream = (r, s)) :
    l.Advanced strict (l.reach job .startingUp s) payloads payloads ∧
      ∀ e, l.Advanced strict (l.giveUp job e s) payloads payloads := by
  obtain ⟨u, hkeeps, rfl⟩ := LogStream.openStorage_spec hk h
  have hsame : l.stream.appender.Same (l.stream.withStorage u).appender := hk.same_storage hkeeps
  refine ⟨.of_same hk hsame hs rfl (by simp [cutAt, hc]), fun e => ?_⟩
  obtain ⟨-, hstopped, hin⟩ := giveUp_spec l job e (s := l.stream.withStorage u)
    (hk.same hsame) hs
  exact .of_same hk (hsame.trans hstopped) hin rfl (by simp [cutAt, hc])

theorem startingUp_ok (hk : l.stream.appender.Kept strict payloads)
    (hs : l.stream.In payloads .opening) (hsize : l.stream.storage.stored.length < 2 ^ 63)
    {job : Job} (hc : l.current = some (job, .startingUp)) {s : LogStream}
    (h : LogStream.startUp.run l.stream = (.ok (), s)) :
    ∃ after, l.Advanced strict (l.reach job (.handled (.ok ())) { s with state := .opened })
      payloads after := by
  obtain ⟨b, rfl, hslots, hnextSlot, after, hmore, hsame, hkept, hsettled, -⟩ :=
    LogStream.startUp_spec hk hs.2 hsize h
  refine ⟨after, hkept, .inl ⟨rfl, .inl hsettled⟩, rfl, ?_⟩
  have hcut : l.cutAt (l.reach job (.handled (.ok ()))
      { l.stream with appender := b, state := .opened }) = none := by simp [cutAt, hc]
  rw [hcut]
  exact moved_of_slots hslots hnextSlot hmore hsame

theorem startingUp_error (hk : l.stream.appender.Kept strict payloads)
    (hs : l.stream.In payloads .opening) (hsize : l.stream.storage.stored.length < 2 ^ 63)
    {job : Job} (hc : l.current = some (job, .startingUp)) {s : LogStream} {e : LogError}
    (h : LogStream.startUp.run l.stream = (.error e, s)) :
    l.Advanced strict (l.giveUp job e s) payloads payloads := by
  obtain ⟨b, rfl, hslots, hnextSlot, hkept, hrests, -⟩ := LogStream.startUp_spec hk hs.2 hsize h
  obtain ⟨hkept', hstopped, hin⟩ := giveUp_spec l job e
    (s := { l.stream with appender := b }) hkept ⟨hs.1, hrests⟩
  have hcut : l.cutAt (l.giveUp job e { l.stream with appender := b }) = none := by
    simp [cutAt, hc]
  refine ⟨hkept', hin, rfl, ?_⟩
  rw [hcut]
  exact moved_of_slots (hstopped.slots.trans hslots) (hstopped.nextSlot.trans hnextSlot)
    List.prefix_rfl fun _ => rfl

/-! ## Every step -/

theorem advance_spec (hk : l.stream.appender.Kept strict payloads)
    (hs : l.stream.In payloads l.stage) (hsize : l.stream.storage.stored.length < 2 ^ 63)
    (hafter : next.stream.storage.stored.length < 2 ^ 63) {patient : Bool}
    (h : l.advance patient = some next) : ∃ after, l.Advanced strict next payloads after := by
  unfold advance at h
  cases hcurrent : l.current with
  | none =>
    have hstage : l.stage = .resting := by simp [stage, hcurrent]
    rw [hstage] at hs
    simp only [hcurrent] at h
    split at h
    · simp at h
    · simp only [Option.some.injEq] at h
      subst h
      exact ⟨payloads, .of_same hk (same_refl hk) hs rfl (by simp [cutAt, hcurrent])⟩
  | some current =>
    obtain ⟨job, progress⟩ := current
    simp only [hcurrent] at h
    cases progress with
    | taken =>
      have hstage : l.stage = .resting := by simp [stage, hcurrent]
      simp only [Option.some.injEq] at h
      exact h ▸ begin_spec hk (hstage ▸ hs) hsize hcurrent
    | openingStorage =>
      have hstage : l.stage = .opening := by simp [stage, hcurrent]
      dsimp only at h
      split at h
      · simp at h
      · split at h
        · next s hopen =>
          simp only [Option.some.injEq] at h
          exact ⟨payloads, h ▸ (openingStorage_spec hk (hstage ▸ hs) hcurrent hopen).1⟩
        · next e s hopen =>
          simp only [Option.some.injEq] at h
          exact ⟨payloads, h ▸ (openingStorage_spec hk (hstage ▸ hs) hcurrent hopen).2 e⟩
    | startingUp =>
      have hstage : l.stage = .opening := by simp [stage, hcurrent]
      dsimp only at h
      split at h
      · next s hup =>
        simp only [Option.some.injEq] at h
        exact h ▸ startingUp_ok hk (hstage ▸ hs) hsize hcurrent hup
      · next e s hup =>
        simp only [Option.some.injEq] at h
        exact ⟨payloads, h ▸ startingUp_error hk (hstage ▸ hs) hsize hcurrent hup⟩
    | abandoning cause =>
      have hstage : l.stage = .opening := by simp [stage, hcurrent]
      rw [hstage] at hs
      dsimp only at h
      split at h
      · simp at h
      · simp only [Option.some.injEq] at h
        subst h
        obtain ⟨hsame, hin, hcommit⟩ := closed_spec hk hs.2
        exact ⟨payloads, .of_same hk hsame hin hcommit (by simp [cutAt, hcurrent])⟩
    | awaitingClaims =>
      dsimp only at h
      split at h
      · simp at h
      · simp only [Option.some.injEq] at h
        subst h
        exact afterClaims_spec hk hs hcurrent hafter
    | closingStorage outcome =>
      have hstage : l.stage = .stopped := by simp [stage, hcurrent]
      rw [hstage] at hs
      dsimp only at h
      split at h
      · simp at h
      · simp only [Option.some.injEq] at h
        subst h
        obtain ⟨hsame, hin, hcommit⟩ := closed_spec hk hs.2
        exact ⟨payloads, .of_same hk hsame hin hcommit (by simp [cutAt, hcurrent])⟩
    | handled outcome =>
      have hstage : l.stage = .resting := by simp [stage, hcurrent]
      rw [hstage] at hs
      dsimp only at h
      split at h <;>
      · simp only [Option.some.injEq] at h
        subst h
        exact ⟨payloads, .of_same hk (same_refl hk) hs rfl (by simp [cutAt, hcurrent])⟩
    | released outcome =>
      have hstage : l.stage = .resting := by simp [stage, hcurrent]
      rw [hstage] at hs
      simp only [Option.some.injEq] at h
      subst h
      exact ⟨payloads, .of_same hk (same_refl hk) hs rfl (by simp [cutAt, hcurrent])⟩

end Lifecycle

end PartitionLog
