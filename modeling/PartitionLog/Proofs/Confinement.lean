import PartitionLog.Proofs.Course
import PartitionLog.Proofs.Files
import PartitionLog.Proofs.Leading

/-!
# Calls on an open file stay inside it

What a log does to its storage between opening and closing changes the content of the open file and
nothing else in the file system: every call on a storage `Confines` its changes to that file, and so
do a scan, a recovery and the reads of a reader, however they end. The names, the other contents and
the faults that are planned stay (`Confined`).
-/

namespace PartitionLog

namespace Storage

/-- Path and number of the open file. -/
def site (s : Storage) : Option (String × Nat) :=
  match s.medium with
  | .file path (some handle) => some (path, handle.number)
  | _ => none

/-- `t` differs from `s` at most in the content of the open file, where that ends, and in how often
calls were made. -/
structure Confined (s t : Storage) : Prop where
  isOpen : t.isOpen = s.isOpen
  site : t.site = s.site
  entries : t.files.entries = s.files.entries
  count : t.files.contents.length = s.files.contents.length
  others : ∀ n, (∀ path, s.site ≠ some (path, n)) → t.files.content n = s.files.content n
  plan : ∀ call, (t.faults call).fails = (s.faults call).fails

variable {s t u : Storage} {α β : Type}

theorem Confined.refl (s : Storage) : s.Confined s :=
  ⟨rfl, rfl, rfl, rfl, fun _ _ => rfl, fun _ => rfl⟩

theorem Confined.trans (h : s.Confined t) (hu : t.Confined u) : s.Confined u :=
  ⟨hu.isOpen.trans h.isOpen, hu.site.trans h.site, hu.entries.trans h.entries,
    hu.count.trans h.count,
    fun n hn => (hu.others n fun path => h.site ▸ hn path).trans (h.others n hn),
    fun call => (hu.plan call).trans (h.plan call)⟩

instance : IsPreorder Storage Confined where
  refl := Confined.refl
  trans _ _ _ := Confined.trans

theorem ReadAlike.confined (h : s.ReadAlike t) : s.Confined t := by
  refine ⟨by simp only [Storage.isOpen, h.medium], by simp only [Storage.site, h.medium],
    by rw [h.files], by rw [h.files], fun _ _ => by rw [h.files], fun call => ?_⟩
  by_cases hc : call = .read
  · exact hc ▸ h.fails
  · rw [h.others call hc]

/-- However it ends, it changes nothing outside the open file. -/
def Confines (x : Attempt Storage α) : Prop := ∀ s : Storage, s.Confined (x.run s).2

namespace Confines

theorem bind {x : Attempt Storage α} {f : α → Attempt Storage β} (hx : Confines x)
    (hf : ∀ a, Confines (f a)) : Confines (x >>= f) := Attempt.Leads.bind hx hf

theorem allow (call : StorageCall) : Confines (allow call) := by
  have hplan (s : Storage) :
      s.Confined { s with faults := s.faults.set call (s.faults call).next } := by
    refine ⟨rfl, rfl, rfl, rfl, fun _ _ => rfl, fun other => ?_⟩
    by_cases hc : other = call
    · simp [FaultPlan.set, hc, Schedule.next]
    · simp [FaultPlan.set, hc]
  intro s
  unfold Attempt.run Storage.allow
  dsimp only
  split
  · exact hplan s
  · exact hplan s

/-- A change of the content that the open file has, and of its end. -/
theorem confined_rewrite {path : String} {number endAddress : Nat}
    (hm : s.medium = .file path (some ⟨number, endAddress⟩)) (after : Nat) (bytes : Bytes) :
    s.Confined { s with
      medium := .file path (some ⟨number, after⟩), files := s.files.setContent number bytes } := by
  have hsite : s.site = some (path, number) := by simp [site, hm]
  refine ⟨by simp [Storage.isOpen, hm], by simp [site, hm], rfl, List.length_set ..,
    fun n hn => ?_, fun _ => rfl⟩
  refine FileSystem.content_setContent_ne ?_ bytes
  rintro rfl
  exact hn path hsite

theorem appendMedium (block : Bytes) : Confines (appendMedium block) := by
  intro s
  unfold Attempt.run Storage.appendMedium
  split
  · next hm =>
    exact ⟨by simp [Storage.isOpen, hm], by simp [site, hm], rfl, rfl, fun _ _ => rfl, fun _ => rfl⟩
  · next hm => exact confined_rewrite hm _ _
  · exact .refl s

theorem truncateMedium (address : Nat) : Confines (truncateMedium address) := by
  intro s
  unfold Attempt.run Storage.truncateMedium
  split
  · next hm =>
    split
    · exact .refl s
    · exact ⟨by simp [Storage.isOpen, hm], by simp [site, hm], rfl, rfl, fun _ _ => rfl,
        fun _ => rfl⟩
  · next hm =>
    split
    · exact .refl s
    · exact confined_rewrite hm _ _
  · exact .refl s

theorem flushMedium : Confines flushMedium := by
  intro s
  unfold Attempt.run Storage.flushMedium
  split
  · next hm =>
    exact ⟨by simp [Storage.isOpen, hm], by simp [site, hm], rfl, rfl, fun _ _ => rfl, fun _ => rfl⟩
  · exact .refl s
  · exact .refl s

theorem endMedium : Confines endMedium := by
  intro s
  unfold Attempt.run Storage.endMedium
  split
  · exact .refl s
  · exact .refl s
  · exact .refl s

theorem append (block : Bytes) : Confines (append block) :=
  bind (allow .append) fun _ => appendMedium block

theorem truncate (address : Nat) : Confines (truncate address) :=
  bind (allow .truncate) fun _ => truncateMedium address

theorem flush : Confines flush := bind (allow .flush) fun _ => flushMedium

theorem endAddress : Confines endAddress? := bind (allow .endAddress) fun _ => endMedium

theorem read (address max : Nat) : Confines (read address max) :=
  fun _ => (read_readAlike rfl).confined

end Confines

theorem Confines.run {x : Attempt Storage α} (hx : Confines x) {r : Except LogError α}
    (h : x.run s = (r, t)) : s.Confined t := by
  have hconfined := hx s
  rwa [h] at hconfined

/-! ## What goes with it -/

theorem Confined.keepsDirectories (h : s.Confined t) : s.files.KeepsDirectories t.files := by
  intro k hk
  rw [FileSystem.entry?, h.entries]
  exact hk

theorem Confined.entry? (h : s.Confined t) (key : List String) :
    t.files.entry? key = s.files.entry? key := by
  rw [FileSystem.entry?, h.entries]
  rfl

theorem Confined.tidy (h : s.Confined t) (hs : s.files.Tidy) : t.files.Tidy where
  numbered key n hn := by
    rw [h.entry?] at hn
    rw [h.count]
    exact hs.numbered key n hn
  single key other n hk ho := by
    rw [h.entry?] at hk ho
    exact hs.single key other n hk ho

end Storage

/-! ## Scans and recoveries -/

theorem Scan.run_readAlike (threshold address : Nat) (scan : Scan) {after : Scan}
    {outcome : Except LogError (Option (Nat × Damage))}
    (h : run threshold address scan = (outcome, after)) :
    scan.reading.storage.ReadAlike after.reading.storage := by
  fun_induction run threshold address scan with
  | case1 address scan bad damage reading hread =>
    simp only [Prod.mk.injEq] at h
    obtain ⟨-, rfl⟩ := h
    exact Reading.readAt_readAlike hread
  | case2 address scan e reading hother hread =>
    simp only [Prod.mk.injEq] at h
    obtain ⟨-, rfl⟩ := h
    exact Reading.readAt_readAlike hread
  | case3 address scan reading hread =>
    simp only [Prod.mk.injEq] at h
    obtain ⟨-, rfl⟩ := h
    exact Reading.readAt_readAlike hread
  | case4 address scan r reading hread hbreaks =>
    simp only [Prod.mk.injEq] at h
    obtain ⟨-, rfl⟩ := h
    exact Reading.readAt_readAlike hread
  | case5 address scan r reading hread hseq e hs =>
    simp only [Prod.mk.injEq] at h
    obtain ⟨-, rfl⟩ := h
    exact Reading.readAt_readAlike hread
  | case6 address scan r reading hread hseq index since hs ih =>
    exact (Reading.readAt_readAlike hread).trans (ih h)

theorem Reading.seekFrom_readAlike (position : Int) (address : Nat) (rs : Reading) {ts : Reading}
    {r : Except LogError Bool} (h : seekFrom position address rs = (r, ts)) :
    rs.storage.ReadAlike ts.storage := by
  fun_induction seekFrom position address rs with
  | case1 address rs e us hread =>
    simp only [Prod.mk.injEq] at h
    obtain ⟨-, rfl⟩ := h
    exact ((readAt_readAlike hread :) : rs.storage.ReadAlike us.storage)
  | case2 address rs us hread =>
    simp only [Prod.mk.injEq] at h
    obtain ⟨-, rfl⟩ := h
    exact ((readAt_readAlike hread :) : rs.storage.ReadAlike us.storage)
  | case3 address rs found us hread _ ih => exact (readAt_readAlike hread).trans (ih h)
  | case4 address rs found us hread _ =>
    simp only [Prod.mk.injEq] at h
    obtain ⟨-, rfl⟩ := h
    exact ((readAt_readAlike hread :) : rs.storage.ReadAlike us.storage)

theorem Reading.findAddress_readAlike {ix : BlockIndex} {position : Int} {rs ts : Reading}
    {r : Except LogError (Option Nat)} (h : (findAddress ix position).run rs = (r, ts)) :
    rs.storage.ReadAlike ts.storage := by
  rw [findAddress, Attempt.run_bind] at h
  generalize hseek : (seek ix position).run rs = sought at h
  obtain ⟨outcome, us⟩ := sought
  have halike : rs.storage.ReadAlike us.storage := seekFrom_readAlike _ _ _ hseek
  cases outcome with
  | error e =>
    simp only [Prod.mk.injEq] at h
    obtain ⟨-, rfl⟩ := h
    exact halike
  | ok found =>
    cases found with
    | false =>
      obtain ⟨-, rfl⟩ : .ok none = r ∧ us = ts := by simpa using h
      exact halike
    | true =>
      obtain ⟨-, rfl⟩ : .ok (some us.reader.next) = r ∧ us = ts := by
        simpa [Attempt.run_bind] using h
      exact halike

theorem Reading.collectFrom_readAlike (address : Nat) (rs : Reading) {ts : Reading}
    {found : List Record × Option LogError} (h : collectFrom address rs = (found, ts)) :
    rs.storage.ReadAlike ts.storage := by
  fun_induction collectFrom address rs generalizing found with
  | case1 address rs e us hread =>
    simp only [Prod.mk.injEq] at h
    obtain ⟨-, rfl⟩ := h
    exact ((readAt_readAlike hread :) : rs.storage.ReadAlike us.storage)
  | case2 address rs us hread =>
    simp only [Prod.mk.injEq] at h
    obtain ⟨-, rfl⟩ := h
    exact ((readAt_readAlike hread :) : rs.storage.ReadAlike us.storage)
  | case3 address rs r us hread records stop vs hrest ih =>
    simp only [Prod.mk.injEq] at h
    obtain ⟨-, rfl⟩ := h
    exact (readAt_readAlike hread).trans (ih hrest)

/-- Damage that a scan comes to is what ends the frames from its start on. -/
theorem Scan.walk_of_run (threshold address : Nat) (scan : Scan) {after : Scan} {log : Bytes}
    {bad : Nat} {damage : Damage} (hsees : scan.reading.Sees log)
    (h : run threshold address scan = (.ok (some (bad, damage)), after)) :
    (Frame.walk (log.drop address) address).2 = some (.corruption bad damage) := by
  fun_induction run threshold address scan with
  | case1 address scan place why reading hread =>
    simp only [Prod.mk.injEq, Except.ok.injEq, Option.some.injEq] at h
    obtain ⟨⟨rfl, rfl⟩, -⟩ := h
    obtain ⟨rfl, hd⟩ := (Reading.readAt_spec hsees hread).2.corruption
    rw [Frame.walk_eq_nil hd]
  | case2 => simp at h
  | case3 => simp at h
  | case4 => simp at h
  | case5 => simp at h
  | case6 address scan r reading hread hseq index since hs ih =>
    obtain ⟨hreading, hreads⟩ := Reading.readAt_spec hsees hread
    rw [Frame.walk_of_decode hreads.some]
    exact ih hreading h

namespace IndexedLog

open Storage

theorem verifyLast_readAlike {index after : BlockIndex} {reading final : Reading}
    (h : verifyLast index reading = (after, final)) : reading.storage.ReadAlike final.storage := by
  unfold verifyLast at h
  split at h
  · simp only [Prod.mk.injEq] at h
    obtain ⟨-, rfl⟩ := h
    exact .refl _
  · split at h
    · next hread =>
      simp only [Prod.mk.injEq] at h
      obtain ⟨-, rfl⟩ := h
      exact Reading.readAt_readAlike hread
    · next hread =>
      simp only [Prod.mk.injEq] at h
      obtain ⟨-, rfl⟩ := h
      exact Reading.readAt_readAlike hread

/-- The parts of what recovering a log does to its storage, each of which leads along a relation. -/
structure AtRecovery (S : Storage → Storage → Prop) : Prop where
  endAddress : endAddress?.Leads S
  read : ∀ {s t : Storage}, s.ReadAlike t → S s t
  truncate : ∀ address, (truncate address).Leads S

namespace AtRecovery

variable {S : Storage → Storage → Prop} [IsPreorder Storage S]

theorem isTornTail (h : AtRecovery S) (address endAddress : Nat) :
    (isTornTail address endAddress).Leads S := by
  unfold IndexedLog.isTornTail
  split
  · exact .pure _
  · refine .bind (fun s => h.read (read_readAlike rfl)) fun header => ?_
    split
    · exact .pure _
    · exact .pure _

theorem cutTail (h : AtRecovery S) (bad : Nat) (damage : Damage) (endAddress : Nat)
    (next commit : Int) : (cutTail bad damage endAddress next commit).Leads S := by
  refine .bind (h.isTornTail _ _) fun torn => ?_
  split
  · exact .fail _
  · split
    · exact .fail _
    · exact h.truncate bad

theorem recoverTail (h : AtRecovery S) (commit : Int) (endAddress : Nat) (reading : Reading)
    (log : IndexedLog) :
    S reading.storage ((recoverTail commit endAddress reading).run log).2.storage := by
  generalize hrun : (IndexedLog.recoverTail commit endAddress reading).run log = recovered
  obtain ⟨r, after⟩ := recovered
  generalize hscan : Scan.run log.sampling.threshold (log.index.lastStart Storage.firstAddress)
    { reading := reading, index := log.index } = result
  obtain ⟨outcome, scan⟩ := result
  have hreads : S reading.storage scan.reading.storage := h.read (Scan.run_readAlike _ _ _ hscan)
  have hcut {bad : Nat} {damage : Damage} {answer : Except LogError Unit} {t : Storage}
      (ht : (IndexedLog.cutTail bad damage endAddress scan.recovered.nextPosition commit).run
        scan.reading.storage = (answer, t)) : S scan.reading.storage t := by
    have hstep := h.cutTail bad damage endAddress scan.recovered.nextPosition commit
      scan.reading.storage
    rwa [ht] at hstep
  obtain ⟨e, -, -, rfl⟩ | ⟨-, -, rfl⟩ | ⟨bad, damage, -, ⟨e, t, ht, -, rfl⟩ | ⟨t, ht, -, rfl⟩⟩ :=
    recoverTail_cases hscan hrun
  · exact hreads
  · exact hreads
  · exact trans_of S hreads (hcut ht)
  · exact trans_of S hreads (hcut ht)

theorem recover (h : AtRecovery S) (commit : Int) (log : IndexedLog) :
    S log.storage ((recover commit).run log).2.storage := by
  have hend := h.endAddress log.storage
  have hloaded : log.loadSnapshot.storage = log.storage := by rw [loadSnapshot_eq]
  unfold Attempt.run IndexedLog.recover
  dsimp only
  rw [hloaded]
  split
  · next heq => rwa [heq] at hend
  · next endAddress storage heq =>
    rw [heq] at hend
    generalize hverify : verifyLast (log.loadSnapshot.index.truncateFrom endAddress)
      ⟨.ofWindow log.loadSnapshot.sampling.windowSize, storage⟩ = verified
    obtain ⟨index, reading⟩ := verified
    exact trans_of S hend (trans_of S (h.read (verifyLast_readAlike hverify))
      (h.recoverTail commit endAddress reading _))

end AtRecovery

theorem atRecovery_confined : AtRecovery Confined where
  endAddress := Confines.endAddress
  read := ReadAlike.confined
  truncate := Confines.truncate

theorem recover_confined {log after : IndexedLog} {commit : Int} {r : Except LogError Recovered}
    (h : (recover commit).run log = (r, after)) : log.storage.Confined after.storage := by
  have hconfined := atRecovery_confined.recover commit log
  rwa [h] at hconfined

end IndexedLog

end PartitionLog
