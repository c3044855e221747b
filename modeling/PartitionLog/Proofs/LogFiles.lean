import PartitionLog.Proofs.Confinement
import PartitionLog.Proofs.Damage

/-!
# Logs in files

A log file is opened (`openUp_file`), recovered (`recover_leaves`), and left with a snapshot beside it
(`persist_spares`). What a recovery changes in the file is that it may cut it where frames stop being
read, at a torn one (`TornAt`); saving a snapshot changes nothing in it, unless the log's file is the
snapshot's as well.
-/

namespace PartitionLog

namespace Storage

/-- No call fails by the fault plan. -/
def Faultless (s : Storage) : Prop := ∀ call n, (s.faults call).fails n = false

/-- The storage of a file at `path` that is not open. -/
structure ClosedAt (s : Storage) (path : String) : Prop where
  medium : s.medium = .file path none
  tidy : s.files.Tidy
  faultless : s.Faultless

/-- The storage of the file at `path`, which is open and has this number. -/
structure OpenAt (s : Storage) (path : String) (number : Nat) : Prop where
  works : s.Works
  site : s.site = some (path, number)
  tidy : s.files.Tidy

variable {s t : Storage} {path : String} {number : Nat} {α : Type}

/-- Without faults a call reaches the medium. -/
theorem Faultless.run_call {call : StorageCall} {x : Attempt Storage α} (h : s.Faultless) :
    ∃ u, s.Confined u ∧ s.Alike u ∧ (do allow call; x : Attempt Storage α).run s = x.run u := by
  have hallow := allow_passes (h call)
  have hconfined := Confines.allow call s
  rw [hallow] at hconfined
  exact ⟨_, hconfined, ⟨rfl, rfl⟩, Attempt.run_bind_ok hallow⟩

theorem Confined.faultless (h : s.Confined t) (hs : s.Faultless) : t.Faultless := by
  intro call n
  rw [h.plan]
  exact hs call n

theorem medium_of_site (h : s.site = some (path, number)) :
    ∃ endAddress, s.medium = .file path (some ⟨number, endAddress⟩) := by
  unfold site at h
  split at h
  · next p handle hm =>
    simp only [Option.some.injEq, Prod.mk.injEq] at h
    obtain ⟨rfl, rfl⟩ := h
    exact ⟨handle.endAddress, hm⟩
  · simp at h

/-- What an open file holds is its content. -/
theorem OpenAt.placed (h : s.OpenAt path number) :
    s.files.Placed path number ∧ s.stored = s.files.content number := by
  obtain ⟨endAddress, hm⟩ := medium_of_site h.site
  have hsound := h.works.sound
  simp only [Sound, hm] at hsound
  exact ⟨hsound.1, by simp [stored, hm]⟩

/-- An open file stays open, whatever is done with it. -/
theorem OpenAt.confined (h : s.OpenAt path number) (hc : s.Confined t) (hsound : t.Sound) :
    t.OpenAt path number :=
  ⟨⟨hsound, hc.isOpen.trans h.works.isOpen, hc.faultless h.works.passes⟩, hc.site.trans h.site,
    hc.tidy h.tidy⟩

/-- Opening a file finds what its path names, once the directories above are made, or makes it. -/
theorem openUp_file {r : Except LogError Unit} (h : s.ClosedAt path)
    (ho : openUp.run s = (r, t)) :
    (∀ key, FileSystem.Spares key s.files t.files) ∧
      (∀ n, s.files.find path = .ok n → t.files = s.files) ∧
      match r with
      | .error _ => t.ClosedAt path ∧ t.files = (s.files.makeParent path).2
      | .ok () => ∃ number, t.OpenAt path number ∧
          (s.files.makeParent path).2.touch path = (.ok number, t.files) ∧
          t.stored = ((s.files.makeParent path).2.read? path).getD [] := by
  obtain ⟨u, hconfined, ⟨hmedium, hfiles⟩, hrun⟩ := h.faultless.run_call (x := openMedium)
  rw [show openUp.run s = openMedium.run u from hrun] at ho
  have hm : u.medium = .file path none := hmedium.trans h.medium
  have hplan : u.Faultless := hconfined.faultless h.faultless
  have htidy := h.tidy
  rw [← hfiles] at htidy ⊢
  unfold Attempt.run openMedium at ho
  rw [hm] at ho
  dsimp only at ho
  split at ho
  · next e files hparent =>
    simp only [Prod.mk.injEq] at ho
    obtain ⟨rfl, rfl⟩ := ho
    have hspares (key : List String) := (FileSystem.makeParent_spares htidy key hparent).1
    refine ⟨hspares, fun n hn => ?_, ⟨rfl, (hspares []).tidy, hplan⟩, by rw [hparent]⟩
    have hsame := FileSystem.makeParent_of_find hn
    rwa [hparent] at hsame
  · next files hparent =>
    have hspares (key : List String) := (FileSystem.makeParent_spares htidy key hparent).1
    have hagain := (FileSystem.makeParent_spares htidy [] hparent).2 rfl
    have hmade := (hspares []).tidy
    -- where the file is, neither its directory nor the file has to be made
    have hfound : ∀ n, u.files.find path = .ok n →
        files = u.files ∧ files.touch path = (.ok n, files) := by
      intro n hn
      have hsame := FileSystem.makeParent_of_find hn
      rw [hparent] at hsame
      dsimp only at hsame
      subst hsame
      exact ⟨rfl, FileSystem.touch_of_find hn⟩
    rw [hparent]
    split at ho
    · next e after htouch =>
      simp only [Prod.mk.injEq] at ho
      obtain ⟨rfl, rfl⟩ := ho
      obtain rfl : after = files := FileSystem.touch_error htouch
      refine ⟨hspares, fun n hn => (hfound n hn).1, ⟨rfl, hmade, hplan⟩, rfl⟩
    · next number after htouch =>
      simp only [Prod.mk.injEq] at ho
      obtain ⟨rfl, rfl⟩ := ho
      have htouched (key : List String) := FileSystem.touch_spares hmade key htouch
      obtain ⟨hfind, hcontent⟩ := FileSystem.find_of_touch hmade htouch
      have hplaced : after.Placed path number := FileSystem.placed_of_find (htouched []).tidy
        (hagain after (htouched []).directories) hfind
      refine ⟨fun key => (hspares key).trans (htouched key), fun n hn => ?_, number, ?_, htouch,
        hcontent⟩
      · obtain ⟨hsame, htwice⟩ := hfound n hn
        rw [htwice, Prod.mk.injEq] at htouch
        exact htouch.2.symm.trans hsame
      · exact ⟨⟨⟨hplaced, rfl⟩, rfl, hplan⟩, rfl, (htouched []).tidy⟩

/-- A file that can be found, or made, in its directory is opened. -/
theorem openUp_of_touch {files after : FileSystem} (h : s.ClosedAt path)
    (hparent : s.files.makeParent path = (.ok (), files))
    (htouch : files.touch path = (.ok number, after)) : ∃ t, openUp.run s = (.ok (), t) := by
  obtain ⟨u, -, ⟨hmedium, hfiles⟩, hrun⟩ : ∃ u, s.Confined u ∧ s.Alike u ∧
      openUp.run s = openMedium.run u := h.faultless.run_call
  rw [hrun]
  unfold Attempt.run openMedium
  rw [hmedium, h.medium, hfiles]
  simp only [hparent, htouch]
  exact ⟨_, rfl⟩

/-- Closing changes no file. -/
theorem close_files (s : Storage) : (close.run s).2.files = s.files := by
  generalize hrun : close.run s = result
  obtain ⟨r, t⟩ := result
  obtain ⟨-, ha⟩ | ⟨u, ha, hu⟩ := run_call hrun
  · exact ha.2
  · rw [← ha.2]
    unfold Attempt.run closeMedium at hu
    split at hu
    · simp only [Prod.mk.injEq] at hu
      rw [← hu.2]
    · simp only [Prod.mk.injEq] at hu
      rw [← hu.2]

end Storage

namespace IndexedLog

/-! ## Recovering -/

/-- Where a recovery starts to scan: at the beginning, or at an entry of the index or the snapshot that
leads to a record. -/
def ScansFrom (log : IndexedLog) (address : Nat) : Prop :=
  address = Storage.firstAddress ∨
    ∃ e ∈ log.loadSnapshot.index.entries, e.address = address ∧ e.Names log.storage.stored

/-- Frame after frame from an address on, a torn frame that cannot be read ends the reading. -/
def TornFrom (bytes : Bytes) (address cut : Nat) : Prop :=
  (∃ damage, (Frame.walk (bytes.drop address) address).2 = some (.corruption cut damage)) ∧
    Frame.Torn bytes cut

variable {log after : IndexedLog}

/-- A recovery leaves the stored bytes, or cuts them off at a torn frame. -/
theorem recover_leaves {commit : Int} {r : Except LogError Recovered} (hs : log.storage.Sound)
    (h : (recover commit).run log = (r, after)) :
    after.storage.Sound ∧ (after.storage.stored = log.storage.stored ∨
      ∃ address cut, log.ScansFrom address ∧ TornFrom log.storage.stored address cut ∧
        after.storage.stored = log.storage.stored.take cut) := by
  obtain ⟨e, storage, -, -, hk, rfl⟩ | ⟨storage, index, reading, -, hsees, hv, htail⟩ :=
    recover_cases hs h
  · exact ⟨hk.1, .inl hk.2⟩
  · obtain ⟨hreading, hcases⟩ := verifyLast_cases hsees hv
    have hstart : log.ScansFrom (index.lastStart Storage.firstAddress) := by
      obtain ⟨rfl, hnames⟩ | rfl := hcases
      · rw [BlockIndex.lastStart]
        cases hl : (log.loadSnapshot.index.truncateFrom log.storage.stored.length).last? with
        | none => exact .inl rfl
        | some e =>
          have hmem := List.mem_of_getLast? hl
          exact .inr ⟨e, (List.mem_filter.1 hmem).1, rfl, hnames e hl⟩
      · exact .inl rfl
    generalize hscan : Scan.run log.sampling.threshold (index.lastStart Storage.firstAddress)
      { reading := reading, index := index } = result
    obtain ⟨outcome, scan⟩ := result
    have halike := (Scan.run_readAlike _ _ _ hscan).alike
    have hk : reading.storage.Keeps scan.reading.storage := halike.keeps hreading.sound
    have hstored : scan.reading.storage.stored = log.storage.stored := hk.2.trans hreading.stored
    obtain ⟨e, -, -, rfl⟩ | ⟨-, -, rfl⟩ | ⟨bad, damage, rfl, ⟨e, t, hcut, -, rfl⟩ | ⟨t, hcut, -, rfl⟩⟩ :=
      recoverTail_cases hscan htail
    · exact ⟨hk.1, .inl hstored⟩
    · exact ⟨hk.1, .inl hstored⟩
    · rw [← hstored] at hcut
      have hcutting := cutTail_error hk.1 hcut
      exact ⟨hcutting.1, .inl (hcutting.2.trans hstored)⟩
    · rw [← hstored] at hcut
      obtain ⟨hsound, htaken, htorn, -⟩ := cutTail_ok hk.1 hcut
      rw [hstored] at htaken htorn
      exact ⟨hsound, .inr ⟨_, bad, hstart,
        ⟨⟨damage, Scan.walk_of_run _ _ _ hreading hscan⟩, htorn⟩, htaken⟩⟩

/-- A recovery saves the snapshot where it was to be saved before. -/
theorem recover_snapshotPath {commit : Int} {r : Except LogError Recovered} (hs : log.storage.Sound)
    (h : (recover commit).run log = (r, after)) :
    after.sampling.snapshotPath = log.sampling.snapshotPath := by
  obtain ⟨e, storage, -, -, -, rfl⟩ | ⟨storage, index, reading, -, -, -, htail⟩ := recover_cases hs h
  · rfl
  · obtain ⟨e, -, -, rfl⟩ | ⟨-, -, rfl⟩ | ⟨bad, damage, -, ⟨e, t, -, -, rfl⟩ | ⟨t, -, -, rfl⟩⟩ :=
      recoverTail_cases rfl htail
    all_goals rfl

/-! ## Saving the snapshot -/

theorem saveSnapshot_spares {index : BlockIndex} {path : String} {fs files : FileSystem}
    {r : Except LogError Unit} {key : List String} (h : fs.Tidy)
    (hsnapshot : FileSystem.Misses path key)
    (hdraft : FileSystem.Misses (BlockIndex.Snapshot.draftPath path) key)
    (hr : (saveSnapshot index path).run fs = (r, files)) : FileSystem.Spares key fs files := by
  unfold Attempt.run saveSnapshot at hr
  split at hr
  · next hparent =>
    simp only [Prod.mk.injEq] at hr
    obtain ⟨-, rfl⟩ := hr
    exact (FileSystem.makeParent_spares h key hparent).1
  · next hparent =>
    have hmade := (FileSystem.makeParent_spares h key hparent).1
    unfold Attempt.run BlockIndex.Snapshot.write at hr
    split at hr
    · next hwrite =>
      simp only [Prod.mk.injEq] at hr
      obtain ⟨-, rfl⟩ := hr
      exact hmade.trans (FileSystem.write_spares hmade.tidy hdraft hwrite)
    · next hwrite =>
      have hwritten := hmade.trans (FileSystem.write_spares hmade.tidy hdraft hwrite)
      split at hr
      · next hrename =>
        simp only [Prod.mk.injEq] at hr
        obtain ⟨-, rfl⟩ := hr
        exact hwritten.trans (FileSystem.rename_spares hwritten.tidy hdraft hsnapshot hrename)
      · next hrename =>
        simp only [Prod.mk.injEq] at hr
        obtain ⟨-, rfl⟩ := hr
        exact hwritten.trans (FileSystem.rename_spares hwritten.tidy hdraft hsnapshot hrename)

/-- Leaving an index saves its snapshot, where it is open and there is to be one. -/
theorem persist_cases {r : Except LogError Unit} (h : persist.run log = (r, after)) :
    (r = .ok () ∧ after.storage = log.storage ∧
        (log.sampling.isOpen = true → log.sampling.snapshotPath = none)) ∨
      ∃ path files, log.sampling.isOpen = true ∧ log.sampling.snapshotPath = some path ∧
        (saveSnapshot log.index path).run log.storage.files = (r, files) ∧
        after.storage = { log.storage with files := files } := by
  unfold Attempt.run persist at h
  split at h
  · next hclosed =>
    simp only [Prod.mk.injEq] at h
    exact .inl ⟨h.1.symm, by rw [← h.2], fun hopen => by simp [hopen] at hclosed⟩
  · next hopen =>
    dsimp only at h
    split at h
    · next hnone =>
      simp only [Prod.mk.injEq] at h
      exact .inl ⟨h.1.symm, by rw [← h.2], fun _ => hnone⟩
    · next path hpath =>
      have hopen : log.sampling.isOpen = true := by simpa using hopen
      split at h
      · next e files hsave =>
        simp only [Prod.mk.injEq] at h
        obtain ⟨rfl, rfl⟩ := h
        exact .inr ⟨path, files, hopen, hpath, hsave, rfl⟩
      · next files hsave =>
        simp only [Prod.mk.injEq] at h
        obtain ⟨rfl, rfl⟩ := h
        exact .inr ⟨path, files, hopen, hpath, hsave, rfl⟩

/-- Saving the snapshot elsewhere changes the files, and spares the log file. -/
theorem persist_spares {key : List String} {r : Except LogError Unit} (h : log.storage.files.Tidy)
    (hmiss : ∀ snapshot, log.sampling.snapshotPath = some snapshot →
      FileSystem.Misses snapshot key ∧
        FileSystem.Misses (BlockIndex.Snapshot.draftPath snapshot) key)
    (hp : persist.run log = (r, after)) :
    FileSystem.Spares key log.storage.files after.storage.files ∧
      after.storage = { log.storage with files := after.storage.files } := by
  obtain ⟨-, hsame, -⟩ | ⟨snapshot, files, -, hsnapshot, hsave, hafter⟩ := persist_cases hp
  · rw [hsame]
    exact ⟨.refl h key, rfl⟩
  · obtain ⟨hmisses, hdraft⟩ := hmiss snapshot hsnapshot
    rw [hafter]
    exact ⟨saveSnapshot_spares h hmisses hdraft hsave, rfl⟩

/-- Saving the snapshot elsewhere leaves the log file as it is. -/
theorem persist_keeps {path : String} {number : Nat} {key : List String} {r : Except LogError Unit}
    (h : log.storage.OpenAt path number) (hkey : log.storage.files.resolve path = .ok key)
    (hmiss : ∀ snapshot, log.sampling.snapshotPath = some snapshot →
      FileSystem.Misses snapshot key ∧
        FileSystem.Misses (BlockIndex.Snapshot.draftPath snapshot) key)
    (hp : persist.run log = (r, after)) :
    after.storage.OpenAt path number ∧ after.storage.stored = log.storage.stored := by
  obtain ⟨hspares, hafter⟩ := persist_spares h.tidy hmiss hp
  obtain ⟨hagain, hcontent⟩ := hspares.placed h.tidy hkey h.placed.1
  obtain ⟨endAddress, hm⟩ := Storage.medium_of_site h.site
  have hsound := h.works.sound
  simp only [Storage.Sound, hm] at hsound
  rw [hafter]
  refine ⟨⟨⟨?_, h.works.isOpen, h.works.passes⟩, h.site, hspares.tidy⟩, ?_⟩
  · simp only [Storage.Sound, hm]
    exact ⟨hagain, hsound.2.trans (by rw [hcontent])⟩
  · simp only [Storage.stored, hm, hcontent]

end IndexedLog

end PartitionLog
