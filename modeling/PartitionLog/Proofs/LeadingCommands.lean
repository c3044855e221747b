import PartitionLog.Proofs.Commands
import PartitionLog.Proofs.Orderly

/-!
# Commands along a relation

What the commands of a stream do to its appender, beside stopping it, is put together from a few
parts (`AtCommand`). If each of them leads along a preorder of appenders, then so does every step
of a lifecycle but for the stop that some steps come to (`Lifecycle.advance_stops`); if stopping
leads along it too, then a lifecycle does (`Lifecycle.runQueue_leads`).
-/

namespace PartitionLog

namespace IndexedLog

/-- The parts of what commands do to a storage, each of which leads along a relation. -/
structure AtStorage (S : Storage → Storage → Prop) : Prop extends AtRecovery S where
  openUp : Storage.openUp.Leads S
  close : Storage.close.Leads S
  save : ∀ (s : Storage) files, S s { s with files := files }

theorem AtStorage.persist {S : Storage → Storage → Prop} [Std.Refl S] (h : AtStorage S)
    (log : IndexedLog) : S log.storage (persist.run log).2.storage := by
  unfold Attempt.run IndexedLog.persist
  dsimp only
  split
  · exact refl_of S log.storage
  · split
    · exact refl_of S log.storage
    · split
      · exact h.save log.storage _
      · exact h.save log.storage _

end IndexedLog

namespace Appender

/-- The parts of what commands do to an appender, each of which leads along a relation. -/
structure AtCommand (R : Appender → Appender → Prop) : Prop where
  openUp : (onStorage Storage.openUp).Leads R
  close : (onStorage Storage.close).Leads R
  truncate : ∀ address, (onStorage (Storage.truncate address)).Leads R
  read : ∀ (a : Appender) {t : Storage}, a.log.storage.ReadAlike t → R a (a.withStorage t)
  recover : ∀ commit, (onLog (IndexedLog.recover commit)).Leads R
  persist : (onLog IndexedLog.persist).Leads R
  forget : ∀ (a : Appender) position address, R a { a with log := a.log.forget position address }
  discard : ∀ a : Appender, R a { a with staleBlock := none }
  move : ∀ (a : Appender) position, R a { a with nextPosition := position }
  terms : ∀ (a : Appender) closed, R a { a with buffer := { a.buffer with closed := closed } }
  stand : ∀ (a : Appender) phase isRunning isFresh,
    R a { a with phase := phase, isRunning := isRunning, isFresh := isFresh }
  announce : ∀ a, R a a.announceRecovery

namespace AtCommand

variable {R : Appender → Appender → Prop}

/-- Where the log does not matter, only what is done beside it does. -/
theorem of_log (log : ∀ (a : Appender) log, R a { a with log := log })
    (discard : ∀ a : Appender, R a { a with staleBlock := none })
    (move : ∀ (a : Appender) position, R a { a with nextPosition := position })
    (terms : ∀ (a : Appender) closed, R a { a with buffer := { a.buffer with closed := closed } })
    (stand : ∀ (a : Appender) phase isRunning isFresh,
      R a { a with phase := phase, isRunning := isRunning, isFresh := isFresh })
    (announce : ∀ a, R a a.announceRecovery) : AtCommand R where
  openUp a := log a _
  close a := log a _
  truncate _ a := log a _
  read a _ _ := log a _
  recover _ a := log a _
  persist a := log a _
  forget a _ _ := log a _
  discard := discard
  move := move
  terms := terms
  stand := stand
  announce := announce

/-- Where only the storage matters, so do only the calls on it. -/
theorem of_storage {S : Storage → Storage → Prop} [IsPreorder Storage S]
    (h : IndexedLog.AtStorage S) : AtCommand fun a b => S a.log.storage b.log.storage where
  openUp a := h.openUp a.log.storage
  close a := h.close a.log.storage
  truncate address a := h.truncate address a.log.storage
  read _ _ := h.read
  recover commit a := h.recover commit a.log
  persist a := h.persist a.log
  forget a _ _ := refl_of S a.log.storage
  discard a := refl_of S a.log.storage
  move a _ := refl_of S a.log.storage
  terms a _ := refl_of S a.log.storage
  stand a _ _ _ := refl_of S a.log.storage
  announce a := by
    unfold announceRecovery
    split
    · exact refl_of S a.log.storage
    · exact refl_of S a.log.storage

variable [IsPreorder Appender R]

theorem discardStale (h : AtCommand R) : discardStale.Leads R := by
  intro a
  unfold Attempt.run Appender.discardStale
  split
  · exact refl_of R a
  · next address _ =>
    have hcut := h.truncate address a
    split
    · next heq => rwa [heq] at hcut
    · next heq =>
      rw [heq] at hcut
      exact trans_of R hcut (h.discard _)

theorem start (h : AtCommand R) : start.Leads R := by
  intro a
  unfold Attempt.run Appender.start
  split
  · exact refl_of R a
  · have hrested : R a { a with isRunning := false } := h.stand a a.phase false a.isFresh
    have hdiscard := trans_of R hrested (h.discardStale { a with isRunning := false })
    split
    · next heq => rwa [heq] at hdiscard
    · next heq =>
      rw [heq] at hdiscard
      exact trans_of R hdiscard (trans_of R (h.stand _ .draining true true) (h.announce _))

theorem moveTo (h : AtCommand R) (position : Int) : (moveTo position).Leads R := by
  intro a
  unfold Attempt.run Appender.moveTo
  split
  · exact refl_of R a
  · exact h.move a position

theorem resetFailure (h : AtCommand R) (a : Appender) : R a a.resetFailure := by
  unfold Appender.resetFailure
  split
  · exact h.stand a .closed a.isRunning a.isFresh
  · exact refl_of R a

end AtCommand

end Appender

namespace LogStream

variable {R : Appender → Appender → Prop} {α : Type}

/-- The appender of `t` follows that of `s` along a relation. -/
def Along (R : Appender → Appender → Prop) (s t : LogStream) : Prop := R s.appender t.appender

instance [IsPreorder Appender R] : IsPreorder LogStream (Along R) where
  refl s := refl_of R s.appender
  trans _ _ _ := trans_of R

theorem along_onAppender {x : Attempt Appender α} (hx : x.Leads R) :
    (onAppender x).Leads (Along R) := fun s => hx s.appender

theorem along_closeStorage (h : Appender.AtCommand R) (s : LogStream) :
    Along R s s.closeStorage.2 := h.close s.appender

theorem along_addressOf (h : Appender.AtCommand R) (position : Int) :
    (addressOf position).Leads (Along R) := by
  intro s
  have hread {r : Except LogError (Option Nat)} {rs : Reading}
      (hfind : Reading.findAddress s.index position (s.reading s.newReader) = (r, rs)) :
      Along R s (s.withStorage rs.storage) :=
    h.read s.appender (Reading.findAddress_readAlike hfind)
  unfold Attempt.run addressOf
  split
  · next hfind => exact hread hfind
  · next hfind => exact hread hfind
  · next hfind => exact hread hfind

section

variable [IsPreorder Appender R] (h : Appender.AtCommand R)
include h

theorem along_openStorage : openStorage.Leads (Along R) := by
  intro s
  unfold Attempt.run openStorage
  split
  · exact refl_of (Along R) s
  · exact h.openUp s.appender

theorem along_startUp : startUp.Leads (Along R) := by
  refine .bind (along_onAppender h.discardStale) fun _ => .bind .get fun s =>
    .bind (along_onAppender (h.recover s.commit)) fun found =>
    .bind (along_onAppender (h.moveTo found.nextPosition)) fun _ => .bind (.modify fun t => ?_)
    fun _ => .bind .get fun t => ?_
  · exact trans_of R (h.resetFailure t.appender) (h.terms t.appender.resetFailure false)
  · split
    · exact along_onAppender h.start
    · exact .pure _

theorem along_startAppender : startAppender.Leads (Along R) := by
  intro s
  unfold Attempt.run startAppender
  split
  · exact refl_of (Along R) s
  · exact trans_of R (h.terms s.appender false)
      (along_onAppender h.start (s.withBuffer WriteBuffer.reopen))

theorem along_truncate (position : Int) : (truncate position).Leads (Along R) :=
  .bind .get fun _ => .bind (.ofExcept _) fun _ => .bind (along_addressOf h position) fun address =>
    .bind (along_onAppender (h.truncate address)) fun _ =>
    .bind (.modify fun s => h.forget s.appender position address) fun _ =>
    along_onAppender (h.moveTo position)

end

end LogStream

/-- The appender that the next step stops, if it comes to that, with the stream as it finds it. -/
def Progress.toStop (s : LogStream) : Progress → Option Appender
  | .openingStorage =>
    match LogStream.openStorage.run s with
    | (.ok (), _) => none
    | (.error _, t) => some t.appender
  | .startingUp =>
    match LogStream.startUp.run s with
    | (.ok (), _) => none
    | (.error _, t) => some t.appender
  | .awaitingClaims => some s.appender
  | _ => none

namespace Lifecycle

/-- The appender that a step stops. -/
def toStop (patient : Bool) (l : Lifecycle) : Option Appender :=
  match l.advance patient, l.current with
  | some _, some (_, progress) => progress.toStop l.stream
  | _, _ => none

variable {R : Appender → Appender → Prop} [IsPreorder Appender R] {l next : Lifecycle}
  {patient : Bool}

open LogStream

/-- A step leads along the relation, with a stop on the way if there is one. -/
theorem Worked.stops (h : Appender.AtCommand R) {job : Job} {s t : LogStream}
    {before after : Progress} (hw : Worked job s before after t) :
    (before.toStop s = none ∧ Along R s t) ∨
      ∃ a, before.toStop s = some a ∧ R s.appender a ∧ R a.stop t.appender := by
  cases hw with
  | openAlready => exact .inl ⟨rfl, refl_of (Along R) s⟩
  | entersStorage => exact .inl ⟨rfl, refl_of R s.appender⟩
  | findsStorage => exact .inl ⟨rfl, refl_of R s.appender⟩
  | closedAlready => exact .inl ⟨rfl, refl_of (Along R) s⟩
  | shuts => exact .inl ⟨rfl, h.terms s.appender true⟩
  | shutsAppender => exact .inl ⟨rfl, h.terms s.appender true⟩
  | atOnce hc hrun =>
    refine .inl ⟨rfl, ?_⟩
    rcases hc with hc | ⟨position, hc⟩
    · have hstart := along_startAppender h s
      rw [hc] at hrun
      rwa [show LogStream.startAppender.run s = _ from hrun] at hstart
    · have htruncate := along_truncate h position s
      rw [hc] at hrun
      rwa [show (LogStream.truncate position).run s = _ from hrun] at htruncate
  | storageOpened hrun =>
    have hopen := along_openStorage h s
    rw [hrun] at hopen
    exact .inl ⟨by simp only [Progress.toStop, hrun], hopen⟩
  | storageFailed hrun =>
    have hopen := along_openStorage h s
    rw [hrun] at hopen
    exact .inr ⟨_, by simp only [Progress.toStop, hrun], hopen, refl_of R _⟩
  | started hrun =>
    have hup := along_startUp h s
    rw [hrun] at hup
    exact .inl ⟨by simp only [Progress.toStop, hrun], hup⟩
  | startFailed hrun =>
    have hup := along_startUp h s
    rw [hrun] at hup
    exact .inr ⟨_, by simp only [Progress.toStop, hrun], hup, refl_of R _⟩
  | abandoned => exact .inl ⟨rfl, along_closeStorage h s⟩
  | woundDown => exact .inr ⟨s.appender, rfl, refl_of R _, h.persist s.appender.stop⟩
  | settled => exact .inr ⟨s.appender, rfl, refl_of R _, refl_of R _⟩
  | storageClosed => exact .inl ⟨rfl, along_closeStorage h s⟩

theorem advance_stops (h : Appender.AtCommand R) (hnext : l.advance patient = some next) :
    (l.toStop patient = none ∧ Along R l.stream next.stream) ∨
      ∃ a, l.toStop patient = some a ∧ R l.stream.appender a ∧
        R a.stop next.stream.appender := by
  unfold toStop
  rw [hnext]
  cases advance_cases hnext with
  | take hc => exact .inl ⟨by rw [hc], refl_of (Along R) l.stream⟩
  | work hc hworked =>
    rw [hc]
    exact hworked.stops h
  | release hc => exact .inl ⟨by rw [hc]; rfl, refl_of (Along R) l.stream⟩
  | finish hc =>
    refine .inl ⟨?_, refl_of (Along R) l.stream⟩
    rcases hc with ⟨hc, -⟩ | hc
    · rw [hc]
      rfl
    · rw [hc]
      rfl

theorem advance_leads (h : Appender.AtCommand R) (hstop : ∀ a : Appender, R a a.stop)
    (hnext : l.advance patient = some next) : Along R l.stream next.stream := by
  obtain ⟨-, halong⟩ | ⟨a, -, hbefore, hafter⟩ := advance_stops h hnext
  · exact halong
  · exact trans_of R hbefore (trans_of R (hstop a) hafter)

theorem runQueue_leads (h : Appender.AtCommand R) (hstop : ∀ a : Appender, R a a.stop)
    (patient : Bool) (l : Lifecycle) : Along R l.stream (l.runQueue patient).stream := by
  fun_induction runQueue patient l with
  | case1 l hnone => exact refl_of (Along R) l.stream
  | case2 l m hnext ih => exact trans_of (Along R) (advance_leads h hstop hnext) ih

end Lifecycle

end PartitionLog
