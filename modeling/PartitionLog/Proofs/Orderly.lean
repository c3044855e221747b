import PartitionLog.Proofs.Leading
import PartitionLog.Proofs.LogFiles
import PartitionLog.Proofs.Reports
import PartitionLog.Proofs.Usage

/-!
# Orderly appenders

An appender is `Orderly` if it drains only while it is running, and if a block that it could not take
back is still in the storage, with its slots in the buffer and the appender halted. Whatever an
appender holds and whichever storage calls fail, a cycle, a drain, a start and a stop leave it orderly,
and change nothing outside the file of an open storage (`Works`). A storage is the stream's own
(`Exclusive`) if it is sound and no index snapshot is saved over its file.
-/

namespace PartitionLog

namespace FileSystem

variable {fs : FileSystem} {path other : String} {key : List String}

/-- The key that a path leads to, if it leads anywhere. -/
def keyOf (path : String) : List String := (Path.parts path).foldl descend (origin path)

theorem eq_keyOf_of_resolve (h : fs.resolve path = .ok key) : key = keyOf path :=
  follow_ok (resolve_ok h).2

theorem misses_of_keyOf (h : keyOf path ≠ keyOf other) : Misses path (keyOf other) :=
  .inr fun _ hr => h (eq_keyOf_of_resolve hr).symm

end FileSystem

namespace Storage

open FileSystem (keyOf)

/-- The path of the file that holds the log. -/
def path? (s : Storage) : Option String :=
  match s.medium with
  | .memory _ _ _ => none
  | .file path _ => some path

/-- The storage is sound, and a snapshot that is saved at `snapshot`, by way of its draft, goes
elsewhere: of what a stream does, only calls of the storage reach its bytes. -/
structure Exclusive (s : Storage) (snapshot : Option String) : Prop where
  sound : s.Sound
  tidy : s.path?.isSome = true → s.files.Tidy
  apart : ∀ path ∈ s.path?, ∀ saved ∈ snapshot, keyOf saved ≠ keyOf path ∧
    keyOf (BlockIndex.Snapshot.draftPath saved) ≠ keyOf path

variable {s t : Storage} {snapshot : Option String}

/-- Nobody else gets at bytes in memory. -/
theorem exclusive_of_memory (h : s.path? = none) (snapshot : Option String) :
    s.Exclusive snapshot := by
  refine ⟨?_, by simp [h], by simp [h]⟩
  obtain ⟨medium, files, faults, isGated⟩ := s
  cases medium with
  | memory isOpen bytes flushes => trivial
  | file path handle => simp [path?] at h

theorem path?_of_isOpen (h : s.isOpen = true) : s.path? = s.site.map Prod.fst := by
  obtain ⟨medium, files, faults, isGated⟩ := s
  cases medium with
  | memory isOpen bytes flushes => rfl
  | file path handle =>
    cases handle with
    | none => simp [isOpen] at h
    | some handle => rfl

theorem Alike.path? (h : s.Alike t) : t.path? = s.path? := by
  simp only [Storage.path?, h.1]

theorem Alike.exclusive (h : s.Alike t) (hs : s.Exclusive snapshot) : t.Exclusive snapshot where
  sound := h.sound hs.sound
  tidy := by
    rw [h.path?, h.2]
    exact hs.tidy
  apart := by
    rw [h.path?]
    exact hs.apart

/-- Work inside an open file shares it with nobody. -/
theorem Exclusive.confined (hs : s.Exclusive snapshot) (hopen : s.isOpen = true)
    (hc : s.Confined t) (ht : t.Sound) : t.Exclusive snapshot := by
  have hpath : t.path? = s.path? := by
    rw [path?_of_isOpen hopen, path?_of_isOpen (hc.isOpen.trans hopen), hc.site]
  refine ⟨ht, ?_, ?_⟩
  · rw [hpath]
    exact fun hfile => hc.tidy (hs.tidy hfile)
  · rw [hpath]
    exact hs.apart

theorem openMedium_exclusive {r : Except LogError Unit} (hs : s.Exclusive snapshot)
    (h : openMedium.run s = (r, t)) : t.Exclusive snapshot ∧ (r = .ok () → t.isOpen = true) := by
  have hsound := (openMedium_keeps hs.sound h).1
  unfold Attempt.run openMedium at h
  split at h
  · next hm =>
    simp only [Prod.mk.injEq] at h
    obtain ⟨rfl, rfl⟩ := h
    exact ⟨exclusive_of_memory rfl _, fun _ => rfl⟩
  · next hm =>
    simp only [Prod.mk.injEq] at h
    obtain ⟨rfl, rfl⟩ := h
    exact ⟨hs, fun _ => by simp [isOpen, hm]⟩
  · next path hm =>
    have hpath : s.path? = some path := by simp [path?, hm]
    have htidy : s.files.Tidy := hs.tidy (by simp [hpath])
    have hapart := hs.apart
    rw [hpath] at hapart
    split at h
    · next hparent =>
      simp only [Prod.mk.injEq] at h
      obtain ⟨rfl, rfl⟩ := h
      have hmade := (FileSystem.makeParent_spares htidy [] hparent).1.tidy
      exact ⟨⟨hsound, fun _ => hmade, by simpa [path?, hm] using hapart⟩, by simp⟩
    · next hparent =>
      have hmade := (FileSystem.makeParent_spares htidy [] hparent).1.tidy
      split at h
      · next htouch =>
        simp only [Prod.mk.injEq] at h
        obtain ⟨rfl, rfl⟩ := h
        have htouched := (FileSystem.touch_spares hmade [] htouch).tidy
        exact ⟨⟨hsound, fun _ => htouched, by simpa [path?, hm] using hapart⟩, by simp⟩
      · next htouch =>
        simp only [Prod.mk.injEq] at h
        obtain ⟨rfl, rfl⟩ := h
        have htouched := (FileSystem.touch_spares hmade [] htouch).tidy
        exact ⟨⟨hsound, fun _ => htouched, by simpa [path?] using hapart⟩, fun _ => rfl⟩

theorem openUp_exclusive {r : Except LogError Unit} (hs : s.Exclusive snapshot)
    (h : openUp.run s = (r, t)) : t.Exclusive snapshot ∧ (r = .ok () → t.isOpen = true) := by
  obtain ⟨rfl, ha⟩ | ⟨u, ha, hu⟩ := run_call h
  · exact ⟨ha.exclusive hs, by simp⟩
  · exact openMedium_exclusive (ha.exclusive hs) hu

theorem close_exclusive {r : Except LogError Unit} (hs : s.Exclusive snapshot)
    (h : close.run s = (r, t)) : t.Exclusive snapshot := by
  obtain ⟨-, ha⟩ | ⟨u, ha, hu⟩ := run_call h
  · exact ha.exclusive hs
  · have hu' := ha.exclusive hs
    have hsound := (closeMedium_keeps hu'.sound hu).1
    unfold Attempt.run closeMedium at hu
    split at hu
    · next hm =>
      simp only [Prod.mk.injEq] at hu
      obtain ⟨-, rfl⟩ := hu
      exact exclusive_of_memory rfl _
    · next path handle hm =>
      simp only [Prod.mk.injEq] at hu
      obtain ⟨-, rfl⟩ := hu
      have hpath : u.path? = some path := by simp [path?, hm]
      have hapart := hu'.apart
      rw [hpath] at hapart
      exact ⟨hsound, fun _ => hu'.tidy (by simp [hpath]), hapart⟩

end Storage

namespace IndexedLog

variable {log after : IndexedLog} {r : Except LogError Unit}

theorem persist_path (h : persist.run log = (r, after)) :
    after.sampling.snapshotPath = log.sampling.snapshotPath := by
  unfold Attempt.run persist at h
  split at h
  · simp only [Prod.mk.injEq] at h
    rw [← h.2]
  · dsimp only at h
    split at h
    · simp only [Prod.mk.injEq] at h
      rw [← h.2]
    · split at h <;>
      · simp only [Prod.mk.injEq] at h
        rw [← h.2]

/-- Saving the snapshot leaves an open log as it is. -/
theorem persist_exclusive (hs : log.storage.Exclusive log.sampling.snapshotPath)
    (hopen : log.storage.isOpen = true) (h : persist.run log = (r, after)) :
    after.storage.Exclusive after.sampling.snapshotPath ∧
      after.storage.stored = log.storage.stored := by
  rw [persist_path h]
  obtain ⟨storage, index, sampling⟩ := log
  obtain ⟨medium, files, faults, isGated⟩ := storage
  cases medium with
  | memory isOpen bytes flushes =>
    obtain ⟨-, hsame, -⟩ | ⟨path, files, -, -, -, hafter⟩ := persist_cases h
    · rw [hsame]
      exact ⟨hs, rfl⟩
    · rw [hafter]
      exact ⟨Storage.exclusive_of_memory rfl _, rfl⟩
  | file path handle =>
    cases handle with
    | none => simp [Storage.isOpen] at hopen
    | some handle =>
      obtain ⟨hplaced, hend⟩ := hs.sound
      have htidy : files.Tidy := hs.tidy rfl
      obtain ⟨key, hkey, -⟩ := hplaced.resolved
      have hmiss (saved : String) (hsaved : sampling.snapshotPath = some saved) :
          FileSystem.Misses saved key ∧
            FileSystem.Misses (BlockIndex.Snapshot.draftPath saved) key := by
        obtain ⟨hapart, hdraft⟩ := hs.apart path rfl saved hsaved
        rw [FileSystem.eq_keyOf_of_resolve hkey]
        exact ⟨FileSystem.misses_of_keyOf hapart, FileSystem.misses_of_keyOf hdraft⟩
      obtain ⟨hspares, hafter⟩ := persist_spares htidy hmiss h
      obtain ⟨hagain, hcontent⟩ := hspares.placed htidy hkey hplaced
      rw [hafter]
      exact ⟨⟨⟨hagain, hend.trans (by rw [hcontent])⟩, fun _ => hspares.tidy, hs.apart⟩, hcontent⟩

end IndexedLog

namespace Appender

variable {a b c d : Appender} {α β : Type}

/-! ## At work -/

/-- The parts of a drain cycle, each of which leads along a relation. -/
structure AtCycle (R : Appender → Appender → Prop) : Prop where
  append : ∀ block, (onStorage (Storage.append block)).Leads R
  flush : (onStorage Storage.flush).Leads R
  truncate : ∀ address, (onStorage (Storage.truncate address)).Leads R
  note : ∀ position address length, (onLog (IndexedLog.noteBlock position address length)).Leads R
  count : ∀ (a : Appender) n, R a { a with unflushed := n }
  mark : ∀ (a : Appender) address, R a { a with staleBlock := some address }
  move : ∀ (a : Appender) position, R a { a with nextPosition := position }
  free : ∀ (a : Appender) count, R a (a.freed count)

namespace AtCycle

variable {R : Appender → Appender → Prop} [IsPreorder Appender R]

theorem settleBlock (h : AtCycle R) : settleBlock.Leads R := by
  refine .bind (.modify fun a => ?_) fun _ => .bind .get fun a => ?_
  · split
    · exact refl_of R a
    · exact h.count a _
  · split
    · exact .bind h.flush fun _ => .modify fun a => h.count a 0
    · exact .pure _

theorem rollBack (h : AtCycle R) (address : Nat) (cause : LogError) :
    (rollBack address cause).Leads R := by
  intro a
  have hcut := h.truncate address a
  unfold Attempt.run Appender.rollBack
  split
  · next heq => rwa [heq] at hcut
  · next heq =>
    rw [heq] at hcut
    exact trans_of R hcut (h.mark _ address)

theorem storeBlock (h : AtCycle R) (block : Bytes) : (storeBlock block).Leads R := by
  refine .bind (.mapError (h.append block) _) fun address => .bind (.outcome h.settleBlock) fun r => ?_
  cases r with
  | ok => exact .pure _
  | error e => exact .bind (h.rollBack _ _) fun _ => .pure _

theorem writeBlock (h : AtCycle R) (fragments : List Bytes) : (writeBlock fragments).Leads R :=
  .bind .get fun _ => .bind (h.storeBlock _) fun _ => .bind (h.note _ _ _) fun _ =>
    .modify fun a => h.move a _

theorem drainOnce (h : AtCycle R) : drainOnce.Leads R := by
  intro a
  unfold Attempt.run Appender.drainOnce
  split
  · exact refl_of R a
  · next block _ =>
    have hwritten := h.writeBlock block.fragments a
    dsimp only
    split
    · exact h.free a _
    · split
      · next heq => rwa [heq] at hwritten
      · next heq =>
        rw [heq] at hwritten
        exact trans_of R hwritten (h.free _ _)

end AtCycle

/-- The parts of what an appender does by itself, each of which leads along a relation. -/
structure AtWork (R : Appender → Appender → Prop) : Prop where
  once : drainOnce.Leads R
  flush : (onStorage Storage.flush).Leads R
  halt : ∀ a e, R a (a.halt e)
  look : ∀ a : Appender, R a { a with isFresh := false }
  answer : ∀ a, R a a.answerDoorbell
  rest : ∀ (a : Appender) phase, R a { a with isRunning := false, phase := phase }

namespace AtWork

variable {R : Appender → Appender → Prop} [IsPreorder Appender R]

theorem drain (h : AtWork R) (a : Appender) : R a (drain a).2 := by
  fun_induction Appender.drain a with
  | case1 a b hrun ih =>
    have hcycle := h.once a
    rw [hrun] at hcycle
    exact trans_of R hcycle ih
  | case2 a b hrun =>
    have hcycle := h.once a
    rwa [hrun] at hcycle
  | case3 a e b hrun =>
    have hcycle := h.once a
    rw [hrun] at hcycle
    exact trans_of R hcycle (h.halt b e)

theorem cycle (h : AtWork R) (a : Appender) : R a a.cycle := by
  have hcycle := h.once a
  unfold Appender.cycle
  split
  · split
    · next hrun => rwa [hrun] at hcycle
    · next hrun =>
      rw [hrun] at hcycle
      exact trans_of R hcycle (h.halt _ _)
  · exact refl_of R a

theorem wake (h : AtWork R) (a : Appender) : R a a.wake := by
  unfold Appender.wake
  split
  · exact refl_of R a
  · split
    · have hdrain := trans_of R (h.look a) (h.drain { a with isFresh := false })
      split
      · next hd =>
        rw [hd] at hdrain
        exact trans_of R hdrain (h.answer _)
      · next hd => rwa [hd] at hdrain
    · exact trans_of R (h.answer a) (h.drain _)

theorem finishUp (h : AtWork R) (a : Appender) : R a a.finishUp := by
  have hdrain := h.drain a
  obtain hfailed | ⟨b, r, t, hdrained, ht, hends⟩ := finishUp_cases a
  · rwa [hfailed] at hdrain
  · rw [hdrained] at hdrain
    have hflush := h.flush b
    rw [run_onStorage ht] at hflush
    have hflushed : R a (b.withStorage t) := trans_of R hdrain hflush
    obtain ⟨-, hb⟩ | ⟨e, -, hb⟩ := hends
    · rwa [hb]
    · rw [hb]
      exact trans_of R hflushed (h.halt _ _)

theorem stop (h : AtWork R) (a : Appender) : R a a.stop := by
  unfold Appender.stop
  cases a.isLive with
  | false => exact h.rest a _
  | true => exact trans_of R (h.finishUp a) (h.rest a.finishUp _)

end AtWork

/-! ## Work on the log -/

/-- From `a` to `b` the log was worked on: outside the open file nothing changed, the index is as open
as it was, and only listeners that were registered were told of it. -/
structure Works (a b : Appender) : Prop where
  confined : a.log.storage.Confined b.log.storage
  isOpen : b.log.sampling.isOpen = a.log.sampling.isOpen
  path : b.log.sampling.snapshotPath = a.log.sampling.snapshotPath
  listeners : b.listeners.known ⊆ a.listeners.known

/-- With the same log only the listeners matter. -/
theorem Works.of_known (h : b.log = a.log) (hl : b.listeners.known ⊆ a.listeners.known) :
    a.Works b := by
  refine ⟨?_, by rw [h], by rw [h], hl⟩
  rw [h]
  exact .refl _

theorem Works.of_log (h : b.log = a.log) (hl : b.listeners = a.listeners) : a.Works b :=
  .of_known h (by simp [hl])

theorem Works.refl (a : Appender) : a.Works a := .of_log rfl rfl

theorem Works.trans (h1 : a.Works b) (h2 : b.Works c) : a.Works c :=
  ⟨h1.confined.trans h2.confined, h2.isOpen.trans h1.isOpen, h2.path.trans h1.path,
    List.Subset.trans h2.listeners h1.listeners⟩

instance : IsPreorder Appender Works where
  refl := Works.refl
  trans _ _ _ := Works.trans

/-- Only the log and the listeners matter. -/
theorem Works.of_logs (h : a.Works b) (hc : c.log = a.log) (hcl : c.listeners = a.listeners)
    (hd : d.log = b.log) (hdl : d.listeners = b.listeners) : c.Works d :=
  (Works.of_log hc.symm hcl.symm).trans (h.trans (.of_log hd hdl))

theorem works_halt (a : Appender) (e : LogError) : a.Works (a.halt e) :=
  .of_known rfl (Listeners.known_notify a.listeners (.failure e))

theorem works_onStorage {x : Attempt Storage α} (hx : Storage.Confines x) :
    (onStorage x).Leads Works :=
  fun a => ⟨hx a.log.storage, rfl, rfl, List.Subset.refl _⟩

theorem works_noteBlock (position : Int) (address length : Nat) :
    (onLog (IndexedLog.noteBlock position address length)).Leads Works := by
  intro a
  unfold Attempt.run Appender.onLog Attempt.within IndexedLog.noteBlock
  dsimp only
  split
  · split
    · exact .refl a
    · exact ⟨.refl _, rfl, rfl, List.Subset.refl _⟩
  · exact ⟨.refl _, rfl, rfl, List.Subset.refl _⟩

theorem atCycle_works : AtCycle Works where
  append block := works_onStorage (.append block)
  flush := works_onStorage .flush
  truncate address := works_onStorage (.truncate address)
  note := works_noteBlock
  count _ _ := .of_log rfl rfl
  mark _ _ := .of_log rfl rfl
  move _ _ := .of_log rfl rfl
  free _ _ := .of_log rfl rfl

theorem works_discardStale : discardStale.Leads Works := by
  intro a
  unfold Attempt.run discardStale
  split
  · exact .refl a
  · next address _ =>
    have h := works_onStorage (Storage.Confines.truncate address) a
    split
    · next heq => rwa [heq] at h
    · next heq =>
      rw [heq] at h
      exact h.trans (.of_log rfl rfl)

theorem atWork_works : AtWork Works where
  once := atCycle_works.drainOnce
  flush := works_onStorage Storage.Confines.flush
  halt := works_halt
  look _ := .of_log rfl rfl
  answer _ := .of_log rfl rfl
  rest _ _ := .of_log rfl rfl

theorem works_announceRecovery (a : Appender) : a.Works a.announceRecovery := by
  unfold announceRecovery
  split
  · exact .of_known rfl (Listeners.known_notify a.listeners .recovered)
  · exact .refl a

theorem works_start : start.Leads Works := by
  intro a
  unfold Attempt.run start
  split
  · exact .refl a
  · have hdiscard := works_discardStale { a with isRunning := false }
    split
    · next h =>
      rw [h] at hdiscard
      exact hdiscard.of_logs rfl rfl rfl rfl
    · next b h =>
      rw [h] at hdiscard
      have hstarted : a.Works { b with phase := .draining, isRunning := true, isFresh := true } :=
        hdiscard.of_logs rfl rfl rfl rfl
      exact hstarted.trans (works_announceRecovery _)

theorem works_resetFailure (a : Appender) : a.Works a.resetFailure := by
  unfold resetFailure
  split
  · exact .of_log rfl rfl
  · exact .refl a

/-! ## Orderly states -/

/-- It drains only while it runs, and a block that it could not take back is still to be discarded:
the appender has halted, the block is in the storage and its slots are in the buffer. -/
structure Orderly (a : Appender) : Prop where
  sound : a.log.storage.Sound
  draining : a.phase = .draining → a.isRunning = true
  stale : ∀ address, a.staleBlock = some address →
    a.phase = .failed ∧ address ≤ a.stored.length ∧ a.buffer.slots ≠ []

theorem isLive_iff : a.isLive = true ↔ a.isRunning = true ∧ a.phase = .draining := by
  simp [isLive]

/-- Without a stale block only the storage and the phase matter. -/
theorem Orderly.of_none (hsound : a.log.storage.Sound)
    (hdraining : a.phase = .draining → a.isRunning = true) (hnone : a.staleBlock = none) :
    a.Orderly :=
  ⟨hsound, hdraining, fun address h => by simp [hnone] at h⟩

/-- The log may grow, and the buffer take more slots. -/
theorem Orderly.grow (h : a.Orderly) (hsound : b.log.storage.Sound)
    (hstored : a.stored.length ≤ b.stored.length) (hslots : a.buffer.slots ≠ [] → b.buffer.slots ≠ [])
    (hphase : b.phase = a.phase) (hrunning : b.isRunning = a.isRunning)
    (hstale : b.staleBlock = a.staleBlock) : b.Orderly := by
  refine ⟨hsound, ?_, fun address haddress => ?_⟩
  · rw [hphase, hrunning]
    exact h.draining
  · rw [hstale] at haddress
    obtain ⟨hfailed, hle, hne⟩ := h.stale address haddress
    exact ⟨hphase.trans hfailed, Nat.le_trans hle hstored, hslots hne⟩

theorem Orderly.none_of_live (h : a.Orderly) (hlive : a.isLive = true) : a.staleBlock = none := by
  cases hstale : a.staleBlock with
  | none => rfl
  | some address =>
    have hfailed := (h.stale address hstale).1
    rw [(isLive_iff.1 hlive).2] at hfailed
    simp at hfailed

theorem Orderly.none_of_empty (h : a.Orderly) (hempty : a.buffer.slots = []) :
    a.staleBlock = none := by
  cases hstale : a.staleBlock with
  | none => rfl
  | some address => exact absurd hempty (h.stale address hstale).2.2

/-- A cycle leaves the appender live, or it fails and the appender halts. -/
theorem Orderly.drainOnce (h : a.Orderly) (hlive : a.isLive = true) {r : Except LogError Bool}
    (hrun : drainOnce.run a = (r, b)) :
    match r with
    | .ok _ => b.Orderly ∧ b.isLive = true
    | .error e => (b.halt e).Orderly := by
  have hnone := h.none_of_live hlive
  obtain ⟨rfl, rfl⟩ | ⟨block, hpoll, hcases⟩ := drainOnce_cases h.sound hrun
  · exact ⟨h, hlive⟩
  · have hslots : a.buffer.slots ≠ [] := by
      have hcount := WriteBuffer.slotCount_pollBlock hpoll
      intro hnil
      rw [hnil, List.length_nil] at hcount
      omega
    obtain ⟨-, rfl, rfl⟩ | ⟨-, ⟨e, rfl, hw⟩ | ⟨c, rfl, hw, rfl⟩⟩ := hcases
    · exact ⟨.of_none h.sound h.draining hnone, hlive⟩
    · cases hw with
      | unstored hstored =>
        cases hstored with
        | undone hkeeps => exact .of_none hkeeps.1 (by simp [halt]) hnone
        | stale hsound hstored =>
          refine ⟨hsound, by simp [halt], fun address haddress => ⟨rfl, ?_, hslots⟩⟩
          obtain rfl : a.stored.length = address := by simpa [halt] using haddress
          refine Nat.le_trans ?_ (Nat.le_of_eq (congrArg List.length hstored.symm))
          rw [List.length_append]
          omega
      | unnoted hsound => exact .of_none hsound (by simp [halt]) hnone
    · cases hw with
      | noted hsound => exact ⟨.of_none hsound h.draining hnone, hlive⟩

theorem Orderly.drain (h : a.Orderly) (hlive : a.isLive = true) :
    (drain a).2.Orderly ∧ ((drain a).1 = true → (drain a).2.isLive = true) := by
  fun_induction Appender.drain a with
  | case1 a b hrun ih =>
    obtain ⟨hb, hblive⟩ := h.drainOnce hlive hrun
    exact ih hb hblive
  | case2 a b hrun =>
    obtain ⟨hb, hblive⟩ := h.drainOnce hlive hrun
    exact ⟨hb, fun _ => hblive⟩
  | case3 a e b hrun => exact ⟨h.drainOnce hlive hrun, by simp⟩

theorem Orderly.cycle (h : a.Orderly) : a.cycle.Orderly := by
  unfold Appender.cycle
  split
  · next hlive =>
    split
    · next hrun => exact (h.drainOnce hlive hrun).1
    · next hrun => exact h.drainOnce hlive hrun
  · exact h

theorem Orderly.wake (h : a.Orderly) : a.wake.Orderly := by
  unfold Appender.wake
  split
  · exact h
  · next hlive =>
    have hlive : a.isLive = true := by simpa using hlive
    split
    · have hdrain := Orderly.drain (a := { a with isFresh := false }) { h with } hlive
      split
      · next hd =>
        rw [hd] at hdrain
        exact { hdrain.1 with }
      · next hd =>
        rw [hd] at hdrain
        exact hdrain.1
    · exact (Orderly.drain (a := a.answerDoorbell) { h with } hlive).1

/-- A stopped appender is left as it is. -/
theorem cycle_of_rests (h : a.isRunning = false) : a.cycle = a := by
  simp [Appender.cycle, isLive, h]

theorem wake_of_rests (h : a.isRunning = false) : a.wake = a := by
  simp [Appender.wake, isLive, h]

theorem Orderly.finishUp (h : a.Orderly) (hlive : a.isLive = true) : a.finishUp.Orderly := by
  have hdrain := h.drain hlive
  obtain hfailed | ⟨b, r, t, hdrained, ht, hends⟩ := finishUp_cases a
  · rw [hfailed] at hdrain
    exact hdrain.1
  · rw [hdrained] at hdrain
    obtain ⟨hb, hblive⟩ := hdrain
    have hnone := hb.none_of_live (hblive rfl)
    have hsound := (Storage.flush_keeps hb.sound ht).1
    obtain ⟨-, hc⟩ | ⟨e, -, hc⟩ := hends
    · rw [hc]
      exact .of_none hsound hb.draining hnone
    · rw [hc]
      exact .of_none hsound (by simp [halt]) hnone

theorem Orderly.stop (h : a.Orderly) : a.stop.Orderly := by
  -- leaving the state of a stopped appender orderly is the same with and without a last drain
  have hrest : ∀ b : Appender, b.Orderly → Appender.Orderly { b with
      isRunning := false, phase := if b.phase = .draining then .closed else b.phase } := by
    intro b hb
    refine ⟨hb.sound, fun hdraining => ?_, fun address haddress => ?_⟩
    · dsimp only at hdraining
      split at hdraining
      · simp at hdraining
      · next hnot => exact absurd hdraining hnot
    · obtain ⟨hfailed, hle, hne⟩ := hb.stale address haddress
      exact ⟨by simp [hfailed], hle, hne⟩
  unfold Appender.stop
  cases hlive : a.isLive with
  | false => exact hrest a h
  | true => exact hrest a.finishUp (h.finishUp hlive)

theorem Orderly.discardStale (h : a.Orderly) {r : Except LogError Unit}
    (hrun : discardStale.run a = (r, b)) :
    b.Orderly ∧ b.isRunning = a.isRunning ∧ b.phase = a.phase ∧
      (r = .ok () → b.staleBlock = none) := by
  obtain ⟨hnone, -, rfl⟩ | ⟨address, t, -, ⟨ht, rfl, rfl⟩ | ⟨e, ht, rfl, rfl⟩⟩ :=
    discardStale_cases hrun
  · exact ⟨h, rfl, rfl, fun _ => hnone⟩
  · exact ⟨.of_none (Storage.truncate_ok h.sound ht).1 h.draining rfl, rfl, rfl, fun _ => rfl⟩
  · obtain ⟨hsound, hkept⟩ := Storage.truncate_error h.sound ht
    refine ⟨h.grow hsound ?_ id rfl rfl rfl, rfl, rfl, by simp⟩
    exact Nat.le_of_eq (congrArg List.length hkept.symm)

theorem Orderly.start (h : a.Orderly) {r : Except LogError Unit} (hrun : start.run a = (r, b)) :
    b.Orderly := by
  have hrested (hlive : a.isLive = false) : Appender.Orderly { a with isRunning := false } :=
    ⟨h.sound, fun hd => absurd (isLive_iff.2 ⟨h.draining hd, hd⟩) (by simp [hlive]), h.stale⟩
  obtain ⟨-, -, rfl⟩ | ⟨hlive, e, hdiscard, -⟩ | ⟨hlive, c, hdiscard, -, rfl⟩ := start_cases hrun
  · exact h
  · exact ((hrested hlive).discardStale hdiscard).1
  · obtain ⟨hc, -, -, hnone⟩ := (hrested hlive).discardStale hdiscard
    unfold announceRecovery
    split
    · exact .of_none hc.sound (fun _ => rfl) (hnone rfl)
    · exact .of_none hc.sound (fun _ => rfl) (hnone rfl)

/-- A halt is forgotten once there is no stale block. -/
theorem Orderly.resetFailure (h : a.Orderly) (hnone : a.staleBlock = none) :
    a.resetFailure.Orderly := by
  unfold Appender.resetFailure
  split
  · exact .of_none h.sound (by simp) hnone
  · exact h

end Appender

end PartitionLog
