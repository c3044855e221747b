import PartitionLog.Proofs.Leading
import PartitionLog.Storage

/-!
# What storage calls do to the stored bytes

A storage is `Sound` if its medium and its files agree: an open file ends where its content does,
and a closed one can be opened and then holds what the closed one shows. On a sound storage every
call has one lemma: a failing call keeps the stored bytes, `append` adds its block at their end,
`truncate` cuts them, `read` answers a slice of them, and the others keep them.
-/

namespace PartitionLog

namespace FileSystem

/-- The file at `path` exists under this number, and so does its directory. -/
structure Placed (files : FileSystem) (path : String) (number : Nat) : Prop where
  parent : files.makeParent path = (.ok (), files)
  touched : files.touch path = (.ok number, files)
  numbered : number < files.contents.length

/-- There is no file at `path`, and opening one creates it. -/
def Fresh (files : FileSystem) (path : String) : Prop :=
  files.read? path = none ∧ ∃ middle number after,
    files.makeParent path = (.ok (), middle) ∧ middle.touch path = (.ok number, after) ∧
      after.Placed path number ∧ after.content number = []

theorem follow_setContent (files : FileSystem) (n : Nat) (bytes : Bytes) (key parts : List String) :
    (files.setContent n bytes).follow key parts = files.follow key parts := by
  induction parts generalizing key with
  | nil => rfl
  | cons part rest ih =>
    have he : FileSystem.entry? (files.setContent n bytes) key = files.entry? key := rfl
    simp only [follow, he, ih]

theorem resolve_setContent (files : FileSystem) (n : Nat) (bytes : Bytes) (path : String) :
    (files.setContent n bytes).resolve path = files.resolve path := by
  simp only [resolve, follow_setContent]

theorem makeAlong_setContent (files : FileSystem) (n : Nat) (bytes : Bytes)
    (key parts : List String) :
    (files.setContent n bytes).makeAlong key parts
      = ((files.makeAlong key parts).1, (files.makeAlong key parts).2.setContent n bytes) := by
  induction parts generalizing files key with
  | nil => rfl
  | cons part rest ih =>
    have he : FileSystem.entry? (files.setContent n bytes) (descend key part)
        = files.entry? (descend key part) := rfl
    have hd : (files.setContent n bytes).setEntry (descend key part) .directory
        = (files.setEntry (descend key part) .directory).setContent n bytes := rfl
    simp only [makeAlong, he]
    split
    · rfl
    · split
      · rfl
      · exact ih ..
      · rw [hd]; exact ih ..

theorem makeParent_setContent {files : FileSystem} {path : String}
    (h : files.makeParent path = (.ok (), files)) (n : Nat) (bytes : Bytes) :
    (files.setContent n bytes).makeParent path = (.ok (), files.setContent n bytes) := by
  unfold makeParent at *
  split at h
  · rfl
  · unfold makeDirectories at *
    split at h
    · simp at h
    · rw [makeAlong_setContent, h]

/-- Touching a file that is there finds it by its name. -/
theorem Placed.resolved {files : FileSystem} {path : String} {number : Nat}
    (h : files.Placed path number) :
    ∃ key, files.resolve path = .ok key ∧ files.entry? key = some (.file number) ∧
      Path.namesDirectory path = false := by
  have ht := h.touched
  unfold touch at ht
  split at ht
  · simp at ht
  · next key hk =>
    refine ⟨key, hk, ?_⟩
    split at ht
    · simp at ht
    · next he =>
      split at ht
      · simp at ht
      · next hd =>
        simp only [Prod.mk.injEq, Except.ok.injEq] at ht
        exact ⟨by rw [he, ht.1], by simpa using hd⟩
    · split at ht
      · simp at ht
      · -- a new file would have made the contents longer
        simp only [Prod.mk.injEq] at ht
        have := congrArg (fun fs => fs.contents.length) ht.2
        simp at this

theorem Placed.find {files : FileSystem} {path : String} {number : Nat}
    (h : files.Placed path number) : files.find path = .ok number := by
  obtain ⟨key, hk, he, hd⟩ := h.resolved
  simp [FileSystem.find, hk, he, hd]

theorem Placed.read? {files : FileSystem} {path : String} {number : Nat}
    (h : files.Placed path number) : files.read? path = some (files.content number) := by
  simp [FileSystem.read?, FileSystem.read, h.find, Except.map, Except.toOption]

theorem Placed.setContent {files : FileSystem} {path : String} {number : Nat}
    (h : files.Placed path number) (n : Nat) (bytes : Bytes) :
    (files.setContent n bytes).Placed path number := by
  obtain ⟨key, hk, he, hd⟩ := h.resolved
  have he' : FileSystem.entry? (files.setContent n bytes) key = some (.file number) := he
  refine ⟨makeParent_setContent h.parent n bytes, ?_, ?_⟩
  · simp [touch, resolve_setContent, hk, he', hd]
  · simpa [FileSystem.setContent] using h.numbered

theorem content_setContent {files : FileSystem} {number : Nat}
    (h : number < files.contents.length) (bytes : Bytes) :
    (files.setContent number bytes).content number = bytes := by
  simp [content, setContent, List.getD_eq_getElem?_getD, h]

end FileSystem

namespace Storage

/-- The medium and the files agree. -/
def Sound (s : Storage) : Prop :=
  match s.medium with
  | .memory _ _ _ => True
  | .file path (some handle) =>
    s.files.Placed path handle.number ∧
      handle.endAddress = (s.files.content handle.number).length
  | .file path none => (∃ number, s.files.Placed path number) ∨ s.files.Fresh path

/-- `t` is sound and holds what `s` holds. -/
def Keeps (s t : Storage) : Prop := t.Sound ∧ t.stored = s.stored

/-- `t` differs from `s` at most in the fault plan and the gate. -/
def Alike (s t : Storage) : Prop := t.medium = s.medium ∧ t.files = s.files

variable {s t u : Storage} {α : Type}

theorem Alike.stored (h : s.Alike t) : t.stored = s.stored := by
  simp only [Storage.stored, h.1, h.2]

theorem Alike.sound (h : s.Alike t) (hs : s.Sound) : t.Sound := by
  simpa only [Sound, h.1, h.2] using hs

theorem Alike.keeps (h : s.Alike t) (hs : s.Sound) : s.Keeps t := ⟨h.sound hs, h.stored⟩

theorem Keeps.trans (h1 : s.Keeps t) (h2 : t.Keeps u) : s.Keeps u := ⟨h2.1, h2.2.trans h1.2⟩

theorem Keeps.of_alike (h : s.Alike t) (hk : t.Keeps u) : s.Keeps u := ⟨hk.1, hk.2.trans h.stored⟩

/-- The plan counts a call and decides about it. -/
theorem allow_cases {call : StorageCall} {r : Except LogError Unit}
    (h : (allow call).run s = (r, t)) :
    t = { s with faults := s.faults.set call (s.faults call).next } ∧
      ((r = .ok () ∧ (s.faults call).failsNow = false) ∨
        (r = .error (.io .unavailable) ∧ (s.faults call).failsNow = true)) := by
  unfold Attempt.run allow at h
  dsimp only at h
  split at h
  · next hfails =>
    simp only [Prod.mk.injEq] at h
    exact ⟨h.2.symm, .inr ⟨h.1.symm, hfails⟩⟩
  · next hpasses =>
    simp only [Prod.mk.injEq] at h
    exact ⟨h.2.symm, .inl ⟨h.1.symm, by simpa using hpasses⟩⟩

theorem allow_passes {call : StorageCall} (h : ∀ n, (s.faults call).fails n = false) :
    (allow call).run s = (.ok (), { s with faults := s.faults.set call (s.faults call).next }) := by
  unfold Attempt.run allow
  rw [Schedule.failsNow, h, if_neg Bool.false_ne_true]

/-- A call either fails by the plan or reaches the medium. -/
theorem run_call {call : StorageCall} {x : Attempt Storage α} {r : Except LogError α}
    (h : (do allow call; x : Attempt Storage α).run s = (r, t)) :
    (r = .error (.io .unavailable) ∧ s.Alike t) ∨ ∃ u, s.Alike u ∧ x.run u = (r, t) := by
  rw [Attempt.run_bind] at h
  split at h
  · next u hu =>
    have halike : s.Alike u := by
      obtain ⟨rfl, -⟩ := allow_cases hu
      exact ⟨rfl, rfl⟩
    exact .inr ⟨u, halike, h⟩
  · next e u hu =>
    simp only [Prod.mk.injEq] at h
    obtain ⟨rfl, rfl⟩ := h
    obtain ⟨rfl, ⟨hr, -⟩ | ⟨hr, -⟩⟩ := allow_cases hu
    · simp at hr
    · simp only [Except.error.injEq] at hr
      exact .inl ⟨by rw [hr], rfl, rfl⟩

/-! ## Opening and closing -/

theorem openMedium_keeps {r : Except LogError Unit} (hs : s.Sound)
    (h : openMedium.run s = (r, t)) : s.Keeps t := by
  unfold Attempt.run openMedium at h
  split at h
  · next hm =>
    simp only [Prod.mk.injEq] at h
    obtain ⟨-, rfl⟩ := h
    simp [Keeps, Sound, stored, hm]
  · simp only [Prod.mk.injEq] at h
    obtain ⟨-, rfl⟩ := h
    exact ⟨hs, rfl⟩
  · next path hm =>
    simp only [Sound, hm] at hs
    rcases hs with ⟨number, hp⟩ | ⟨hnone, middle, number, after, hparent, htouch, hp, hempty⟩
    · rw [hp.parent] at h
      dsimp only at h
      rw [hp.touched] at h
      simp only [Prod.mk.injEq] at h
      obtain ⟨-, rfl⟩ := h
      exact ⟨⟨hp, rfl⟩, by simp [stored, hm, hp.read?]⟩
    · rw [hparent] at h
      dsimp only at h
      rw [htouch] at h
      simp only [Prod.mk.injEq] at h
      obtain ⟨-, rfl⟩ := h
      exact ⟨⟨hp, rfl⟩, by simp [stored, hm, hempty, hnone]⟩

theorem closeMedium_keeps {r : Except LogError Unit} (hs : s.Sound)
    (h : closeMedium.run s = (r, t)) : s.Keeps t := by
  unfold Attempt.run closeMedium at h
  split at h
  · next hm =>
    simp only [Prod.mk.injEq] at h
    obtain ⟨-, rfl⟩ := h
    simp [Keeps, Sound, stored, hm]
  · next path handle hm =>
    simp only [Prod.mk.injEq] at h
    obtain ⟨-, rfl⟩ := h
    cases handle with
    | none =>
      simp only [Sound, hm] at hs
      exact ⟨hs, by simp [stored, hm]⟩
    | some handle =>
      simp only [Sound, hm] at hs
      exact ⟨.inl ⟨handle.number, hs.1⟩, by simp [stored, hm, hs.1.read?]⟩

theorem openUp_keeps {r : Except LogError Unit} (hs : s.Sound) (h : openUp.run s = (r, t)) :
    s.Keeps t := by
  obtain ⟨-, ha⟩ | ⟨u, ha, hu⟩ := run_call h
  · exact ha.keeps hs
  · exact .of_alike ha (openMedium_keeps (ha.sound hs) hu)

theorem close_keeps {r : Except LogError Unit} (hs : s.Sound) (h : close.run s = (r, t)) :
    s.Keeps t := by
  obtain ⟨-, ha⟩ | ⟨u, ha, hu⟩ := run_call h
  · exact ha.keeps hs
  · exact .of_alike ha (closeMedium_keeps (ha.sound hs) hu)

/-! ## Writing -/

theorem overwrite_end (content block : Bytes) :
    overwrite content content.length block = content ++ block := by
  unfold overwrite
  split
  · simp_all
  · simp

theorem resize_take {content : Bytes} {address : Nat} (h : address ≤ content.length) :
    resize content address = content.take address := by
  simp [resize, Nat.sub_eq_zero_of_le h]

theorem appendMedium_spec {block : Bytes} {r : Except LogError Nat} (hs : s.Sound)
    (h : (appendMedium block).run s = (r, t)) :
    t.Sound ∧ match r with
      | .ok address => address = s.stored.length ∧ t.stored = s.stored ++ block
      | .error _ => t.stored = s.stored := by
  unfold Attempt.run appendMedium at h
  split at h
  · next hm =>
    simp only [Prod.mk.injEq] at h
    obtain ⟨rfl, rfl⟩ := h
    simp [Sound, stored, hm]
  · next path number endAddress hm =>
    simp only [Prod.mk.injEq] at h
    obtain ⟨rfl, rfl⟩ := h
    simp only [Sound, hm] at hs
    obtain ⟨hp, rfl⟩ := hs
    refine ⟨⟨hp.setContent _ _, ?_⟩, ?_, ?_⟩
    · simp [FileSystem.content_setContent hp.numbered, overwrite_end]
    · simp [stored, hm]
    · simp [stored, hm, FileSystem.content_setContent hp.numbered, overwrite_end]
  · simp only [Prod.mk.injEq] at h
    obtain ⟨rfl, rfl⟩ := h
    exact ⟨hs, rfl⟩

theorem append_ok {block : Bytes} {address : Nat} (hs : s.Sound)
    (h : (append block).run s = (.ok address, t)) :
    t.Sound ∧ address = s.stored.length ∧ t.stored = s.stored ++ block := by
  obtain ⟨he, -⟩ | ⟨u, ha, hu⟩ := run_call h
  · simp at he
  · rw [← ha.stored]
    exact appendMedium_spec (ha.sound hs) hu

theorem append_error {block : Bytes} {e : LogError} (hs : s.Sound)
    (h : (append block).run s = (.error e, t)) : s.Keeps t := by
  obtain ⟨-, ha⟩ | ⟨u, ha, hu⟩ := run_call h
  · exact ha.keeps hs
  · exact .of_alike ha (appendMedium_spec (ha.sound hs) hu)

theorem truncateMedium_spec {address : Nat} {r : Except LogError Unit} (hs : s.Sound)
    (h : (truncateMedium address).run s = (r, t)) :
    t.Sound ∧ match r with
      | .ok () => address ≤ s.stored.length ∧ t.stored = s.stored.take address
      | .error _ => t.stored = s.stored := by
  unfold Attempt.run truncateMedium at h
  split at h
  · next hm =>
    split at h
    · simp only [Prod.mk.injEq] at h
      obtain ⟨rfl, rfl⟩ := h
      exact ⟨hs, rfl⟩
    · simp only [Prod.mk.injEq] at h
      obtain ⟨rfl, rfl⟩ := h
      simp only [Sound, stored, hm, true_and]
      exact ⟨by omega, trivial⟩
  · next path number endAddress hm =>
    split at h
    · simp only [Prod.mk.injEq] at h
      obtain ⟨rfl, rfl⟩ := h
      exact ⟨hs, rfl⟩
    · next hle =>
      simp only [Prod.mk.injEq] at h
      obtain ⟨rfl, rfl⟩ := h
      simp only [Sound, hm] at hs
      obtain ⟨hp, rfl⟩ := hs
      have hcut := resize_take (Nat.le_of_not_lt hle)
      refine ⟨⟨hp.setContent _ _, ?_⟩, ?_, ?_⟩
      · rw [FileSystem.content_setContent hp.numbered, hcut, List.length_take,
          Nat.min_eq_left (Nat.le_of_not_lt hle)]
      · simp only [stored, hm]; omega
      · simp [stored, hm, FileSystem.content_setContent hp.numbered, hcut]
  · simp only [Prod.mk.injEq] at h
    obtain ⟨rfl, rfl⟩ := h
    exact ⟨hs, rfl⟩

theorem truncate_ok {address : Nat} (hs : s.Sound)
    (h : (truncate address).run s = (.ok (), t)) :
    t.Sound ∧ address ≤ s.stored.length ∧ t.stored = s.stored.take address := by
  obtain ⟨he, -⟩ | ⟨u, ha, hu⟩ := run_call h
  · simp at he
  · rw [← ha.stored]
    exact truncateMedium_spec (ha.sound hs) hu

theorem truncate_error {address : Nat} {e : LogError} (hs : s.Sound)
    (h : (truncate address).run s = (.error e, t)) : s.Keeps t := by
  obtain ⟨-, ha⟩ | ⟨u, ha, hu⟩ := run_call h
  · exact ha.keeps hs
  · exact .of_alike ha (truncateMedium_spec (ha.sound hs) hu)

theorem flush_keeps {r : Except LogError Unit} (hs : s.Sound) (h : flush.run s = (r, t)) :
    s.Keeps t := by
  obtain ⟨-, ha⟩ | ⟨u, ha, hu⟩ := run_call h
  · exact ha.keeps hs
  · refine .of_alike ha ?_
    have hus := ha.sound hs
    unfold Attempt.run flushMedium at hu
    split at hu
    · next hm =>
      simp only [Prod.mk.injEq] at hu
      obtain ⟨-, rfl⟩ := hu
      simp [Keeps, Sound, stored, hm]
    · simp only [Prod.mk.injEq] at hu
      obtain ⟨-, rfl⟩ := hu
      exact ⟨hus, rfl⟩
    · simp only [Prod.mk.injEq] at hu
      obtain ⟨-, rfl⟩ := hu
      exact ⟨hus, rfl⟩

/-! ## Counting -/

/-- The fault plan and the gate are those of whoever set them. -/
structure SameRules (s t : Storage) : Prop where
  faults : t.faults = s.faults
  gate : t.isGated = s.isGated

theorem appendMedium_rules (block : Bytes) : (appendMedium block).Leads SameRules := by
  intro s
  unfold Attempt.run appendMedium
  split <;> exact ⟨rfl, rfl⟩

theorem truncateMedium_rules (address : Nat) : (truncateMedium address).Leads SameRules := by
  intro s
  unfold Attempt.run truncateMedium
  split
  · split <;> exact ⟨rfl, rfl⟩
  · split <;> exact ⟨rfl, rfl⟩
  · exact ⟨rfl, rfl⟩

theorem flushMedium_rules : flushMedium.Leads SameRules := by
  intro s
  unfold Attempt.run flushMedium
  split <;> exact ⟨rfl, rfl⟩

theorem openMedium_rules : openMedium.Leads SameRules := by
  intro s
  unfold Attempt.run openMedium
  split
  · exact ⟨rfl, rfl⟩
  · exact ⟨rfl, rfl⟩
  · split
    · exact ⟨rfl, rfl⟩
    · split <;> exact ⟨rfl, rfl⟩

theorem closeMedium_rules : closeMedium.Leads SameRules := by
  intro s
  unfold Attempt.run closeMedium
  split <;> exact ⟨rfl, rfl⟩

theorem endMedium_rules : endMedium.Leads SameRules := by
  intro s
  unfold Attempt.run endMedium
  split <;> exact ⟨rfl, rfl⟩

/-- A call is counted, however it ends, and no other call is. -/
theorem faults_of_call {call : StorageCall} {x : Attempt Storage α} {r : Except LogError α}
    (hx : x.Leads SameRules) (h : (do allow call; x : Attempt Storage α).run s = (r, t)) :
    t.faults = s.faults.set call (s.faults call).next := by
  rw [Attempt.run_bind] at h
  split at h
  · next u hu =>
    have hrules := hx u
    rw [h] at hrules
    rw [hrules.faults, (allow_cases hu).1]
  · next e u hu =>
    simp only [Prod.mk.injEq] at h
    rw [← h.2, (allow_cases hu).1]

theorem append_faults {block : Bytes} {r : Except LogError Nat}
    (h : (append block).run s = (r, t)) :
    t.faults = s.faults.set .append (s.faults .append).next :=
  faults_of_call (appendMedium_rules block) h

theorem truncate_faults {address : Nat} {r : Except LogError Unit}
    (h : (truncate address).run s = (r, t)) :
    t.faults = s.faults.set .truncate (s.faults .truncate).next :=
  faults_of_call (truncateMedium_rules address) h

theorem flush_faults {r : Except LogError Unit} (h : flush.run s = (r, t)) :
    t.faults = s.faults.set .flush (s.faults .flush).next :=
  faults_of_call flushMedium_rules h

/-- A flush that succeeds was allowed to, and the storage is open. -/
theorem flush_ok (h : flush.run s = (.ok (), t)) :
    (s.faults .flush).failsNow = false ∧ s.isOpen = true := by
  rw [flush, Attempt.run_bind] at h
  split at h
  · next u hu =>
    obtain ⟨rfl, ⟨-, hpasses⟩ | ⟨hr, -⟩⟩ := allow_cases hu
    · refine ⟨hpasses, ?_⟩
      unfold Attempt.run flushMedium at h
      dsimp only at h
      split at h
      · next hm => simp [isOpen, hm]
      · next hm => simp [isOpen, hm]
      · simp at h
    · simp at hr
  · simp at h

/-! ## Reading -/

theorem read_spec {address max : Nat} {r : Except LogError Bytes} (hs : s.Sound)
    (h : (read address max).run s = (r, t)) :
    s.Keeps t ∧ match r with
      | .ok bytes => bytes = s.stored.slice address max
      | .error e => ∀ bad damage, e ≠ .corruption bad damage := by
  obtain ⟨rfl, ha⟩ | ⟨u, ha, hu⟩ := run_call h
  · exact ⟨ha.keeps hs, by simp⟩
  · have hus := ha.sound hs
    rw [← ha.stored]
    unfold Attempt.run readMedium at hu
    split at hu
    · next hm =>
      simp only [Prod.mk.injEq] at hu
      obtain ⟨rfl, rfl⟩ := hu
      exact ⟨ha.keeps hs, by simp [stored, hm]⟩
    · next path number endAddress hm =>
      simp only [Sound, hm] at hus
      obtain ⟨hp, rfl⟩ := hus
      have hslice : (u.files.content number).slice address
            (min max ((u.files.content number).length - address))
          = (u.files.content number).slice address max := by
        simp [Bytes.slice, List.take_eq_take_iff]
      simp only [hslice, Bytes.length_slice, if_true] at hu
      simp only [Prod.mk.injEq] at hu
      obtain ⟨rfl, rfl⟩ := hu
      exact ⟨ha.keeps hs, by simp [stored, hm]⟩
    · simp only [Prod.mk.injEq] at hu
      obtain ⟨rfl, rfl⟩ := hu
      refine ⟨ha.keeps hs, ?_⟩
      intro bad damage
      unfold closedError
      split <;> simp

theorem endAddress_spec {r : Except LogError Nat} (hs : s.Sound)
    (h : endAddress?.run s = (r, t)) :
    s.Keeps t ∧ ∀ n, r = .ok n → n = s.stored.length := by
  obtain ⟨rfl, ha⟩ | ⟨u, ha, hu⟩ := run_call h
  · exact ⟨ha.keeps hs, by simp⟩
  · have hus := ha.sound hs
    rw [← ha.stored]
    unfold Attempt.run endMedium at hu
    split at hu
    · next hm =>
      simp only [Prod.mk.injEq] at hu
      obtain ⟨rfl, rfl⟩ := hu
      exact ⟨ha.keeps hs, by simp [stored, hm]⟩
    · next handle hm =>
      simp only [Prod.mk.injEq] at hu
      obtain ⟨rfl, rfl⟩ := hu
      simp only [Sound, hm] at hus
      exact ⟨ha.keeps hs, by simp [stored, hm, hus.2]⟩
    · simp only [Prod.mk.injEq] at hu
      obtain ⟨rfl, rfl⟩ := hu
      exact ⟨ha.keeps hs, by simp⟩

end Storage

end PartitionLog
