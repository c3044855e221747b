import PartitionLog.Proofs.Lookup
import PartitionLog.Proofs.Paths
import PartitionLog.Proofs.Storage

/-!
# What file operations leave alone

A file system is `Tidy` if every name has a content and no two names share one. No operation here
removes a directory, so a path that was resolved once is resolved again (`resolve_mono`), and an
operation on one file spares every other: `Spares key` says that of the file at `key`.
-/

namespace PartitionLog.FileSystem

variable {fs after last : FileSystem} {key other : List String} {path : String} {n : Nat}

/-! ## Entries -/

theorem not_given_of_none (h : fs.entry? key = none) : isGiven key = false := by
  unfold entry? at h
  split at h
  · simp at h
  · simpa using ‹¬ isGiven key = true›

theorem not_given_of_file (h : fs.entry? key = some (.file n)) : isGiven key = false := by
  unfold entry? at h
  split at h
  · simp at h
  · simpa using ‹¬ isGiven key = true›

theorem entry?_setEntry_self (hgiven : isGiven key = false) (e : Entry) :
    FileSystem.entry? (fs.setEntry key e) key = some e := by
  simp [FileSystem.entry?, setEntry, hgiven]

theorem entry?_setEntry_ne (h : other ≠ key) (e : Entry) :
    FileSystem.entry? (fs.setEntry key e) other = fs.entry? other := by
  simp only [FileSystem.entry?, setEntry]
  split
  · rfl
  · rw [lookup_cons, lookup_filter, if_neg h, if_neg h]

theorem entry?_dropEntry_self (hgiven : isGiven key = false) :
    FileSystem.entry? (fs.dropEntry key) key = none := by
  simp [FileSystem.entry?, dropEntry, hgiven, lookup_filter]

theorem entry?_dropEntry_ne (h : other ≠ key) :
    FileSystem.entry? (fs.dropEntry key) other = fs.entry? other := by
  simp only [FileSystem.entry?, dropEntry, lookup_filter, if_neg h]

/-! ## Following paths -/

theorem follow_ok {parts : List String} (h : fs.follow key parts = .ok other) :
    other = parts.foldl descend key := by
  induction parts generalizing key with
  | nil =>
    simp only [follow, Except.ok.injEq] at h
    exact h.symm
  | cons part rest ih =>
    unfold follow at h
    split at h
    · simp at h
    · split at h
      · simp at h
      · simp at h
      · exact ih h

theorem resolve_ok (h : fs.resolve path = .ok key) :
    checkPath path = .ok () ∧ fs.follow (origin path) (Path.parts path) = .ok key := by
  unfold resolve at h
  split at h
  · simp at h
  · split at h
    · simp at h
    · next hcheck => exact ⟨hcheck, h⟩

/-- A key ends with the name of its path. -/
theorem getLast?_of_resolve {name : String} (h : fs.resolve path = .ok key)
    (hname : (Path.parts path).getLast? = some name) (habove : name ≠ "..") :
    key.getLast? = some name := by
  obtain ⟨front, hparts⟩ := List.getLast?_eq_some_iff.1 hname
  rw [follow_ok (resolve_ok h).2, hparts, List.foldl_append]
  simp [descend, habove]

/-- Every directory of `fs` is one of `after`. -/
def KeepsDirectories (fs after : FileSystem) : Prop :=
  ∀ k, fs.entry? k = some .directory → after.entry? k = some .directory

/-- The parts lead through directories. -/
def Reaches (fs : FileSystem) (key : List String) : List String → Prop
  | [] => True
  | part :: rest => part.utf8ByteSize ≤ 255 ∧ fs.entry? (descend key part) = some .directory ∧
      Reaches fs (descend key part) rest

theorem Reaches.mono {parts : List String} (h : fs.Reaches key parts)
    (hkeeps : fs.KeepsDirectories after) : after.Reaches key parts := by
  induction parts generalizing key with
  | nil => trivial
  | cons part rest ih => exact ⟨h.1, hkeeps _ h.2.1, ih h.2.2⟩

theorem Reaches.makeAlong {parts : List String} (h : fs.Reaches key parts) :
    fs.makeAlong key parts = (.ok (), fs) := by
  induction parts generalizing key with
  | nil => rfl
  | cons part rest ih =>
    obtain ⟨hshort, hdirectory, hrest⟩ := h
    simp only [FileSystem.makeAlong, if_neg (Nat.not_lt.2 hshort), hdirectory]
    exact ih hrest

/-- The last part of a path that can be followed has directories before it. -/
theorem reaches_of_follow {front : List String} {name : String}
    (h : fs.follow key (front ++ [name]) = .ok other) :
    fs.entry? key = some .directory ∧ fs.Reaches key front := by
  induction front generalizing key with
  | nil =>
    refine ⟨?_, trivial⟩
    rw [List.nil_append, follow] at h
    split at h
    · simp at h
    · split at h
      · simp at h
      · simp at h
      · assumption
  | cons part rest ih =>
    rw [List.cons_append, follow] at h
    split at h
    · simp at h
    · next hshort =>
      split at h
      · simp at h
      · simp at h
      · next hdirectory =>
        obtain ⟨hnext, hrest⟩ := ih h
        exact ⟨hdirectory, Nat.le_of_not_lt hshort, hnext, hrest⟩

theorem follow_mono {parts : List String} (h : fs.follow key parts = .ok other)
    (hkeeps : fs.KeepsDirectories after) : after.follow key parts = .ok other := by
  induction parts generalizing key with
  | nil => exact h
  | cons part rest ih =>
    rw [follow] at h ⊢
    split at h
    · simp at h
    · next hshort =>
      split at h
      · simp at h
      · simp at h
      · next hdirectory =>
        rw [if_neg hshort, hkeeps _ hdirectory]
        exact ih h

theorem resolve_mono (hkeeps : fs.KeepsDirectories after) (h : fs.resolve path = .ok key) :
    after.resolve path = .ok key := by
  obtain ⟨hcheck, hfollow⟩ := resolve_ok h
  have hsome : path.isEmpty = false := by
    cases hempty : path.isEmpty with
    | false => rfl
    | true => simp [resolve, hempty] at h
  rw [resolve, hsome, if_neg Bool.false_ne_true, hcheck]
  exact follow_mono hfollow hkeeps

theorem find_eq_ok_iff : fs.find path = .ok n ↔ ∃ key, fs.resolve path = .ok key ∧
    fs.entry? key = some (.file n) ∧ Path.namesDirectory path = false := by
  unfold find
  constructor
  · intro h
    split at h
    · simp at h
    · next key hkey =>
      split at h
      · simp at h
      · simp at h
      · next he =>
        split at h
        · simp at h
        · next hdirectory =>
          simp only [Except.ok.injEq] at h
          exact ⟨key, hkey, h ▸ he, by simpa using hdirectory⟩
  · rintro ⟨key, hkey, he, hdirectory⟩
    simp [hkey, he, hdirectory]

theorem read?_eq_some_iff {bytes : Bytes} :
    fs.read? path = some bytes ↔ ∃ n, fs.find path = .ok n ∧ fs.content n = bytes := by
  unfold read? read
  cases fs.find path with
  | error e => simp [Except.map, Except.toOption]
  | ok n => simp [Except.map, Except.toOption]

/-! ## Tidy file systems -/

/-- Every name has a content of its own. -/
structure Tidy (fs : FileSystem) : Prop where
  numbered : ∀ key n, fs.entry? key = some (.file n) → n < fs.contents.length
  single : ∀ key other n, fs.entry? key = some (.file n) → fs.entry? other = some (.file n) →
    key = other

/-- Where there are no files, every name has a content of its own. -/
theorem tidy_empty : Tidy {} := by
  have hnone : ∀ key n, entry? {} key ≠ some (.file n) := by
    intro key n he
    rw [FileSystem.entry?] at he
    split at he <;> simp at he
  exact ⟨fun key n h => absurd h (hnone key n), fun key _ n h => absurd h (hnone key n)⟩

/-- From `fs` to `after`, directories stay, and so does the file at `key`. -/
structure Spares (key : List String) (fs after : FileSystem) : Prop where
  tidy : after.Tidy
  directories : fs.KeepsDirectories after
  entry : ∀ n, fs.entry? key = some (.file n) → after.entry? key = some (.file n)
  content : ∀ n, fs.entry? key = some (.file n) → after.content n = fs.content n

theorem Spares.refl (h : fs.Tidy) (key : List String) : Spares key fs fs :=
  ⟨h, fun _ hk => hk, fun _ hn => hn, fun _ _ => rfl⟩

theorem Spares.trans (h : Spares key fs after) (hlast : Spares key after last) :
    Spares key fs last :=
  ⟨hlast.tidy, fun k hk => hlast.directories k (h.directories k hk),
    fun n hn => hlast.entry n (h.entry n hn),
    fun n hn => (hlast.content n (h.entry n hn)).trans (h.content n hn)⟩

/-- What a spared path names stays. -/
theorem Spares.find (h : Spares key fs after) (hr : fs.resolve path = .ok key)
    (hf : fs.find path = .ok n) : after.find path = .ok n ∧ after.content n = fs.content n := by
  obtain ⟨k, hk, he, hdirectory⟩ := find_eq_ok_iff.1 hf
  obtain rfl : key = k := by
    rw [hr] at hk
    simpa using hk
  exact ⟨find_eq_ok_iff.2 ⟨key, resolve_mono h.directories hr, h.entry n he, hdirectory⟩,
    h.content n he⟩

/-! ## Making directories -/

theorem entry?_setEntry_of_none (hnone : fs.entry? key = none) {e entry : Entry}
    (h : fs.entry? other = some entry) : FileSystem.entry? (fs.setEntry key e) other = some entry := by
  rw [entry?_setEntry_ne]
  · exact h
  · rintro rfl
    rw [hnone] at h
    simp at h

theorem Tidy.setEntry_directory (h : fs.Tidy) : (fs.setEntry key .directory).Tidy := by
  have hfile : ∀ k n, FileSystem.entry? (fs.setEntry key .directory) k = some (.file n) →
      fs.entry? k = some (.file n) := by
    intro k n hk
    by_cases heq : k = key
    · subst heq
      rw [entry?_setEntry_self (not_given_of_file hk)] at hk
      simp at hk
    · rwa [entry?_setEntry_ne heq] at hk
  exact ⟨fun k n hk => h.numbered k n (hfile k n hk),
    fun k other n hk ho => h.single k other n (hfile k n hk) (hfile other n ho)⟩

/-- A directory where nothing was spares every file. -/
theorem spares_setEntry_directory (h : fs.Tidy) (hnone : fs.entry? other = none)
    (key : List String) : Spares key fs (fs.setEntry other .directory) :=
  ⟨h.setEntry_directory, fun _ hk => entry?_setEntry_of_none hnone hk,
    fun _ hn => entry?_setEntry_of_none hnone hn, fun _ _ => rfl⟩

theorem makeAlong_spares {r : Except SystemFault Unit} {parts : List String} {start : List String}
    (h : fs.Tidy) (key : List String) (hm : fs.makeAlong start parts = (r, after)) :
    Spares key fs after ∧ (r = .ok () → after.Reaches start parts) := by
  induction parts generalizing fs start with
  | nil =>
    simp only [makeAlong, Prod.mk.injEq] at hm
    obtain ⟨-, rfl⟩ := hm
    exact ⟨.refl h key, fun _ => trivial⟩
  | cons part rest ih =>
    unfold makeAlong at hm
    dsimp only at hm
    split at hm
    · simp only [Prod.mk.injEq] at hm
      obtain ⟨rfl, rfl⟩ := hm
      exact ⟨.refl h key, by simp⟩
    · next hshort =>
      split at hm
      · simp only [Prod.mk.injEq] at hm
        obtain ⟨rfl, rfl⟩ := hm
        exact ⟨.refl h key, by simp⟩
      · next hdirectory =>
        obtain ⟨hspares, hreaches⟩ := ih h hm
        exact ⟨hspares, fun hr =>
          ⟨Nat.le_of_not_lt hshort, hspares.directories _ hdirectory, hreaches hr⟩⟩
      · next hnone =>
        have hset := spares_setEntry_directory h hnone key
        obtain ⟨hspares, hreaches⟩ := ih hset.tidy hm
        exact ⟨hset.trans hspares, fun hr => ⟨Nat.le_of_not_lt hshort,
          hspares.directories _ (entry?_setEntry_self (not_given_of_none hnone) _), hreaches hr⟩⟩

/-- Directories that were made are there when they are asked for again. -/
theorem makeDirectories_spares {r : Except SystemFault Unit} (h : fs.Tidy) (key : List String)
    (hm : fs.makeDirectories path = (r, after)) :
    Spares key fs after ∧ (r = .ok () → ∀ last, after.KeepsDirectories last →
      FileSystem.makeDirectories last path = (.ok (), last)) := by
  unfold makeDirectories at hm
  split at hm
  · simp only [Prod.mk.injEq] at hm
    obtain ⟨rfl, rfl⟩ := hm
    exact ⟨.refl h key, by simp⟩
  · next hcheck =>
    obtain ⟨hspares, hreaches⟩ := makeAlong_spares h key hm
    refine ⟨hspares, fun hr last hkeeps => ?_⟩
    rw [makeDirectories, hcheck]
    exact ((hreaches hr).mono hkeeps).makeAlong

theorem makeAlong_again {r : Except SystemFault Unit} {parts start : List String} (h : fs.Tidy)
    (hm : fs.makeAlong start parts = (r, after)) : after.makeAlong start parts = (r, after) := by
  induction parts generalizing fs start with
  | nil =>
    simp only [makeAlong, Prod.mk.injEq] at hm
    obtain ⟨rfl, rfl⟩ := hm
    rfl
  | cons part rest ih =>
    unfold makeAlong at hm
    dsimp only at hm
    split at hm
    · next hlong =>
      simp only [Prod.mk.injEq] at hm
      obtain ⟨rfl, rfl⟩ := hm
      simp only [makeAlong, if_pos hlong]
    · next hshort =>
      have hagain : ∀ {made : FileSystem}, made.Tidy →
          made.entry? (descend start part) = some .directory →
          made.makeAlong (descend start part) rest = (r, after) →
          after.makeAlong start (part :: rest) = (r, after) := by
        intro made hmade hdirectory hrest
        have hkept := (makeAlong_spares hmade [] hrest).1.directories _ hdirectory
        simp only [makeAlong, if_neg hshort, hkept]
        exact ih hmade hrest
      split at hm
      · next hfile =>
        simp only [Prod.mk.injEq] at hm
        obtain ⟨rfl, rfl⟩ := hm
        simp only [makeAlong, if_neg hshort, hfile]
      · next hdirectory => exact hagain h hdirectory hm
      · next hnone =>
        exact hagain h.setEntry_directory (entry?_setEntry_self (not_given_of_none hnone) _) hm

/-- Making directories again ends as it did before, and changes nothing. -/
theorem makeDirectories_again {r : Except SystemFault Unit} (h : fs.Tidy)
    (hm : fs.makeDirectories path = (r, after)) : after.makeDirectories path = (r, after) := by
  unfold makeDirectories at hm ⊢
  split at hm
  · simp only [Prod.mk.injEq] at hm
    obtain ⟨rfl, rfl⟩ := hm
    rfl
  · exact makeAlong_again h hm

theorem makeParent_spares {r : Except SystemFault Unit} (h : fs.Tidy) (key : List String)
    (hm : fs.makeParent path = (r, after)) :
    Spares key fs after ∧ (r = .ok () → ∀ last, after.KeepsDirectories last →
      FileSystem.makeParent last path = (.ok (), last)) := by
  unfold makeParent at hm
  split at hm
  · next hnone =>
    simp only [Prod.mk.injEq] at hm
    obtain ⟨rfl, rfl⟩ := hm
    exact ⟨.refl h key, fun _ last _ => by rw [makeParent, hnone]⟩
  · next directory hparent =>
    obtain ⟨hspares, hagain⟩ := makeDirectories_spares h key hm
    exact ⟨hspares, fun hr last hkeeps => by rw [makeParent, hparent]; exact hagain hr last hkeeps⟩

/-- Where a file is, there is nothing to make above it while directories stay. -/
theorem makeDirectories_of_find {directory : String} (hparent : Path.parent? path = some directory)
    (hfind : fs.find path = .ok n) (hkeeps : fs.KeepsDirectories after) :
    (after.makeDirectories directory).2 = after := by
  obtain ⟨key, hkey, -⟩ := find_eq_ok_iff.1 hfind
  obtain ⟨hparts, habsolute⟩ := Path.parts_parent hparent
  have hfollow := (resolve_ok hkey).2
  have hreaches : fs.Reaches (origin directory) (Path.parts directory) := by
    rw [hparts, origin, habsolute]
    by_cases hnil : Path.parts path = []
    · rw [hnil]
      trivial
    · rw [← List.dropLast_concat_getLast hnil] at hfollow
      exact (reaches_of_follow hfollow).2
  unfold makeDirectories
  split
  · rfl
  · rw [(hreaches.mono hkeeps).makeAlong]

theorem makeParent_of_find (hfind : fs.find path = .ok n) : (fs.makeParent path).2 = fs := by
  unfold makeParent
  split
  · rfl
  · next directory hparent => exact makeDirectories_of_find hparent hfind fun _ hk => hk

/-! ## Writing files -/

/-- A new empty file. -/
def withNew (fs : FileSystem) (key : List String) : FileSystem :=
  { fs.setEntry key (.file fs.contents.length) with contents := fs.contents ++ [[]] }

theorem entry?_withNew_self (hgiven : isGiven key = false) :
    FileSystem.entry? (fs.withNew key) key = some (.file fs.contents.length) :=
  entry?_setEntry_self hgiven _

theorem entry?_withNew_ne (h : other ≠ key) :
    FileSystem.entry? (fs.withNew key) other = fs.entry? other :=
  entry?_setEntry_ne h _

theorem content_withNew (h : n < fs.contents.length) (key : List String) :
    (fs.withNew key).content n = fs.content n := by
  simp [content, withNew, List.getD_eq_getElem?_getD, List.getElem?_append_left h]

theorem content_withNew_self (key : List String) :
    (fs.withNew key).content fs.contents.length = [] := by
  simp [content, withNew, List.getD_eq_getElem?_getD]

theorem spares_withNew (h : fs.Tidy) (hnone : fs.entry? other = none) (key : List String) :
    Spares key fs (fs.withNew other) := by
  have hgiven := not_given_of_none hnone
  have hkeeps : ∀ k e, fs.entry? k = some e → FileSystem.entry? (fs.withNew other) k = some e :=
    fun k e hk => entry?_setEntry_of_none hnone hk
  -- a number that has a name already is not the new one
  have hold : ∀ k n, FileSystem.entry? (fs.withNew other) k = some (.file n) →
      (k = other ∧ n = fs.contents.length) ∨
        (fs.entry? k = some (.file n) ∧ n < fs.contents.length) := by
    intro k n hk
    by_cases heq : k = other
    · subst heq
      rw [entry?_withNew_self hgiven] at hk
      simp only [Option.some.injEq, Entry.file.injEq] at hk
      exact .inl ⟨rfl, hk.symm⟩
    · rw [entry?_withNew_ne heq] at hk
      exact .inr ⟨hk, h.numbered k n hk⟩
  refine ⟨⟨fun k n hk => ?_, fun k m n hk hm => ?_⟩, fun k hk => hkeeps k _ hk,
    fun n hn => hkeeps key _ hn, fun n hn => content_withNew (h.numbered key n hn) other⟩
  · have hlength : (fs.withNew other).contents.length = fs.contents.length + 1 := by simp [withNew]
    rcases hold k n hk with ⟨-, rfl⟩ | ⟨-, hlt⟩
    · omega
    · omega
  · rcases hold k n hk with ⟨rfl, rfl⟩ | ⟨hk, hlt⟩
    · rcases hold m _ hm with ⟨rfl, -⟩ | ⟨-, hlt⟩
      · rfl
      · omega
    · rcases hold m n hm with ⟨-, rfl⟩ | ⟨hm, -⟩
      · omega
      · exact h.single k m n hk hm

/-- Touching fails, finds a file, or makes one. -/
theorem touch_cases {r : Except SystemFault Nat} (h : fs.touch path = (r, after)) :
    (∃ e, r = .error e ∧ after = fs) ∨ (∃ number, r = .ok number ∧ fs.find path = .ok number ∧
      after = fs) ∨
    ∃ key, fs.resolve path = .ok key ∧ fs.entry? key = none ∧ Path.namesDirectory path = false ∧
      r = .ok fs.contents.length ∧ after = fs.withNew key := by
  unfold touch at h
  split at h
  · simp only [Prod.mk.injEq] at h
    exact .inl ⟨_, h.1.symm, h.2.symm⟩
  · next key hkey =>
    split at h
    · simp only [Prod.mk.injEq] at h
      exact .inl ⟨_, h.1.symm, h.2.symm⟩
    · next number he =>
      split at h
      · simp only [Prod.mk.injEq] at h
        exact .inl ⟨_, h.1.symm, h.2.symm⟩
      · next hfile =>
        simp only [Prod.mk.injEq] at h
        exact .inr (.inl ⟨number, h.1.symm,
          find_eq_ok_iff.2 ⟨key, hkey, he, by simpa using hfile⟩, h.2.symm⟩)
    · next hnone =>
      split at h
      · simp only [Prod.mk.injEq] at h
        exact .inl ⟨_, h.1.symm, h.2.symm⟩
      · next hfile =>
        simp only [Prod.mk.injEq] at h
        exact .inr (.inr ⟨key, hkey, hnone, by simpa using hfile, h.1.symm, h.2.symm⟩)

theorem touch_error {e : SystemFault} (h : fs.touch path = (.error e, after)) : after = fs := by
  obtain ⟨_, -, rfl⟩ | ⟨_, hok, -⟩ | ⟨_, -, -, -, hok, -⟩ := touch_cases h
  · rfl
  · simp at hok
  · simp at hok

theorem touch_of_find (h : fs.find path = .ok n) : fs.touch path = (.ok n, fs) := by
  obtain ⟨key, hkey, he, hfile⟩ := find_eq_ok_iff.1 h
  simp [touch, hkey, he, hfile]

theorem touch_spares {r : Except SystemFault Nat} (h : fs.Tidy) (key : List String)
    (ht : fs.touch path = (r, after)) : Spares key fs after := by
  obtain ⟨e, -, rfl⟩ | ⟨number, -, -, rfl⟩ | ⟨k, -, hnone, -, -, rfl⟩ := touch_cases ht
  · exact .refl h key
  · exact .refl h key
  · exact spares_withNew h hnone key

/-- A file that was touched is there. -/
theorem find_of_touch (h : fs.Tidy) (ht : fs.touch path = (.ok n, after)) :
    after.find path = .ok n ∧ after.content n = (fs.read? path).getD [] := by
  obtain ⟨e, he, -⟩ | ⟨number, hn, hfind, rfl⟩ | ⟨k, hk, hnone, hfile, hn, rfl⟩ := touch_cases ht
  · simp at he
  · simp only [Except.ok.injEq] at hn
    subst hn
    rw [read?_eq_some_iff.2 ⟨n, hfind, rfl⟩]
    exact ⟨hfind, rfl⟩
  · simp only [Except.ok.injEq] at hn
    subst hn
    have hread : fs.read? path = none := by
      rw [Option.eq_none_iff_forall_not_mem]
      intro bytes hbytes
      obtain ⟨n, hn, -⟩ := read?_eq_some_iff.1 hbytes
      obtain ⟨other, hother, he, -⟩ := find_eq_ok_iff.1 hn
      rw [hk, Except.ok.injEq] at hother
      subst hother
      rw [hnone] at he
      simp at he
    refine ⟨find_eq_ok_iff.2 ⟨k, ?_, entry?_withNew_self (not_given_of_none hnone), hfile⟩, ?_⟩
    · exact resolve_mono (spares_withNew h hnone k).directories hk
    · rw [hread, content_withNew_self]
      rfl

theorem content_setContent_ne {m : Nat} (h : n ≠ m) (bytes : Bytes) :
    (fs.setContent m bytes).content n = fs.content n := by
  simp [content, setContent, List.getD_eq_getElem?_getD, List.getElem?_set_ne (Ne.symm h)]

theorem Tidy.setContent (h : fs.Tidy) (m : Nat) (bytes : Bytes) : (fs.setContent m bytes).Tidy :=
  ⟨fun key n hn => by
    rw [show (fs.setContent m bytes).contents.length = fs.contents.length from List.length_set ..]
    exact h.numbered key n hn, h.single⟩

theorem setContent_spares {m : Nat} (h : fs.Tidy) (hm : fs.entry? other = some (.file m))
    (hne : other ≠ key) (bytes : Bytes) : Spares key fs (fs.setContent m bytes) := by
  refine ⟨h.setContent m bytes, fun _ hk => hk, fun _ hn => hn, fun n hn => ?_⟩
  refine content_setContent_ne ?_ bytes
  rintro rfl
  exact hne (h.single other key n hm hn)

/-- No file at `key` can be written by way of `path`. -/
def Misses (path : String) (key : List String) : Prop :=
  Path.namesDirectory path = true ∨ ∀ fs : FileSystem, fs.resolve path ≠ .ok key

/-- A path whose last part is another name misses the key. -/
theorem misses_of_name {name part : String} (hkey : key.getLast? = some name)
    (hpart : (Path.parts path).getLast? = some part) (habove : part ≠ "..") (hne : name ≠ part) :
    Misses path key := by
  refine .inr fun fs h => ?_
  rw [getLast?_of_resolve h hpart habove, Option.some.injEq] at hkey
  exact hne hkey.symm

theorem Misses.ne (h : Misses path key) (hfind : fs.find path = .ok n)
    (hr : fs.resolve path = .ok other) : other ≠ key := by
  obtain ⟨-, -, -, hfile⟩ := find_eq_ok_iff.1 hfind
  rcases h with hdirectory | hmiss
  · rw [hdirectory] at hfile
    simp at hfile
  · rintro rfl
    exact hmiss fs hr

/-- Writing is to make sure of a file and to replace its content. -/
theorem write_cases {r : Except SystemFault Unit} {bytes : Bytes}
    (hw : fs.write path bytes = (r, after)) :
    (∃ e, fs.touch path = (.error e, after) ∧ r = .error e) ∨
      ∃ number middle, fs.touch path = (.ok number, middle) ∧ r = .ok () ∧
        after = middle.setContent number bytes := by
  unfold write at hw
  split at hw
  · next e middle ht =>
    simp only [Prod.mk.injEq] at hw
    exact .inl ⟨e, hw.2 ▸ ht, hw.1.symm⟩
  · next number middle ht =>
    simp only [Prod.mk.injEq] at hw
    exact .inr ⟨number, middle, ht, hw.1.symm, hw.2.symm⟩

/-- Writing to a file spares the others. -/
theorem write_spares {r : Except SystemFault Unit} {bytes : Bytes} (h : fs.Tidy)
    (hmiss : Misses path key) (hw : fs.write path bytes = (r, after)) : Spares key fs after := by
  obtain ⟨e, ht, -⟩ | ⟨number, middle, ht, -, rfl⟩ := write_cases hw
  · exact touch_spares h key ht
  · have hspares := touch_spares h key ht
    have hfind := (find_of_touch h ht).1
    obtain ⟨other, hother, he, -⟩ := find_eq_ok_iff.1 hfind
    exact hspares.trans (setContent_spares hspares.tidy he (hmiss.ne hfind hother) bytes)

/-- A file that was written holds what was written. -/
theorem find_of_write {bytes : Bytes} (h : fs.Tidy) (hw : fs.write path bytes = (.ok (), after)) :
    ∃ number, after.find path = .ok number ∧ after.content number = bytes := by
  obtain ⟨e, -, hbad⟩ | ⟨number, middle, ht, -, rfl⟩ := write_cases hw
  · simp at hbad
  · have hfind := (find_of_touch h ht).1
    obtain ⟨key, hkey, he, hfile⟩ := find_eq_ok_iff.1 hfind
    refine ⟨number, find_eq_ok_iff.2 ⟨key, (resolve_setContent middle number bytes path).trans hkey,
      he, hfile⟩, content_setContent ?_ bytes⟩
    exact (touch_spares h key ht).tidy.numbered key number he

/-- Wherever a file is written, the files stay tidy and no directory is lost. -/
theorem write_leaves {r : Except SystemFault Unit} {bytes : Bytes} (h : fs.Tidy)
    (hw : fs.write path bytes = (r, after)) : after.Tidy ∧ fs.KeepsDirectories after := by
  obtain ⟨e, ht, -⟩ | ⟨number, middle, ht, -, rfl⟩ := write_cases hw
  · have hspares := touch_spares h [] ht
    exact ⟨hspares.tidy, hspares.directories⟩
  · have hspares := touch_spares h [] ht
    exact ⟨hspares.tidy.setContent number bytes, hspares.directories⟩

/-- Renaming fails, or gives the file its new name. -/
theorem rename_cases {source target : String} {r : Except SystemFault Unit}
    (h : fs.rename source target = (r, after)) :
    (∃ e, r = .error e ∧ after = fs) ∨ ∃ number sourceKey targetKey,
      fs.find source = .ok number ∧ fs.resolve source = .ok sourceKey ∧
      fs.resolve target = .ok targetKey ∧ fs.entry? targetKey ≠ some .directory ∧
      Path.namesDirectory target = false ∧ r = .ok () ∧
      after = (fs.dropEntry sourceKey).setEntry targetKey (.file number) := by
  unfold rename at h
  split at h
  · next number sourceKey targetKey hfind hsource htarget =>
    split at h
    · simp only [Prod.mk.injEq] at h
      exact .inl ⟨_, h.1.symm, h.2.symm⟩
    · next hdirectory =>
      split at h
      · simp only [Prod.mk.injEq] at h
        exact .inl ⟨_, h.1.symm, h.2.symm⟩
      · next hfile =>
        simp only [Prod.mk.injEq] at h
        exact .inr ⟨number, sourceKey, targetKey, hfind, hsource, htarget, by simpa using hdirectory,
          by simpa using hfile, h.1.symm, h.2.symm⟩
  all_goals
    simp only [Prod.mk.injEq] at h
    exact .inl ⟨_, h.1.symm, h.2.symm⟩

/-- A file system in which a file has another name. -/
def moved (fs : FileSystem) (source target : List String) (number : Nat) : FileSystem :=
  (fs.dropEntry source).setEntry target (.file number)

theorem entry?_moved_target {source target : List String} (hgiven : isGiven target = false) :
    FileSystem.entry? (fs.moved source target n) target = some (.file n) :=
  entry?_setEntry_self hgiven _

theorem entry?_moved_ne {source target : List String} (hsource : other ≠ source)
    (htarget : other ≠ target) :
    FileSystem.entry? (fs.moved source target n) other = fs.entry? other := by
  rw [moved, entry?_setEntry_ne htarget, entry?_dropEntry_ne hsource]

/-- Giving a file another name spares the files under other names. -/
theorem spares_moved {source target : List String} (h : fs.Tidy)
    (hfile : fs.entry? source = some (.file n)) (htarget : fs.entry? target ≠ some .directory)
    (hne : source ≠ key) (hne' : target ≠ key) : Spares key fs (fs.moved source target n) := by
  have hgiven : isGiven target = false := by
    cases hg : isGiven target with
    | false => rfl
    | true => exact absurd (by simp [FileSystem.entry?, hg]) htarget
  -- but for the name that was given, entries are old ones, and none is the source's
  have hold : ∀ k e, FileSystem.entry? (fs.moved source target n) k = some e →
      (k = target ∧ e = .file n) ∨ (k ≠ source ∧ fs.entry? k = some e) := by
    intro k e hk
    by_cases ht : k = target
    · subst ht
      rw [entry?_moved_target hgiven, Option.some.injEq] at hk
      exact .inl ⟨rfl, hk.symm⟩
    · by_cases hs : k = source
      · subst hs
        rw [moved, entry?_setEntry_ne ht, entry?_dropEntry_self (not_given_of_file hfile)] at hk
        simp at hk
      · exact .inr ⟨hs, entry?_moved_ne hs ht ▸ hk⟩
  have hentry : ∀ m, fs.entry? key = some (.file m) →
      FileSystem.entry? (fs.moved source target n) key = some (.file m) := fun m hm => by
    rw [entry?_moved_ne (Ne.symm hne) (Ne.symm hne')]
    exact hm
  refine ⟨⟨fun k m hk => ?_, fun k other m hk ho => ?_⟩, fun k hk => ?_, hentry, fun _ _ => rfl⟩
  · have hlength : (fs.moved source target n).contents.length = fs.contents.length := rfl
    rw [hlength]
    rcases hold k _ hk with ⟨-, hm⟩ | ⟨-, hk⟩
    · simp only [Entry.file.injEq] at hm
      exact hm ▸ h.numbered source n hfile
    · exact h.numbered k m hk
  · rcases hold k _ hk with ⟨rfl, hm⟩ | ⟨hks, hfirst⟩
    · simp only [Entry.file.injEq] at hm
      subst hm
      rcases hold other _ ho with ⟨rfl, -⟩ | ⟨hos, ho⟩
      · rfl
      · exact absurd (h.single other source m ho hfile) hos
    · rcases hold other _ ho with ⟨rfl, hm⟩ | ⟨-, ho⟩
      · simp only [Entry.file.injEq] at hm
        subst hm
        exact absurd (h.single k source m hfirst hfile) hks
      · exact h.single k other m hfirst ho
  · have hs : k ≠ source := by
      rintro rfl
      rw [hfile] at hk
      simp at hk
    have ht : k ≠ target := by
      rintro rfl
      exact htarget hk
    rw [entry?_moved_ne hs ht]
    exact hk

theorem rename_spares {source target : String} {r : Except SystemFault Unit} (h : fs.Tidy)
    (hsource : Misses source key) (htarget : Misses target key)
    (hr : fs.rename source target = (r, after)) : Spares key fs after := by
  obtain ⟨e, -, rfl⟩ | ⟨number, s, t, hfind, hs, ht, hdirectory, hfile, -, rfl⟩ := rename_cases hr
  · exact .refl h key
  · obtain ⟨k, hk, he, -⟩ := find_eq_ok_iff.1 hfind
    obtain rfl : s = k := by
      rw [hs] at hk
      simpa using hk
    refine spares_moved h he hdirectory (hsource.ne hfind hs) ?_
    rintro rfl
    rcases htarget with hbad | hmiss
    · rw [hbad] at hfile
      simp at hfile
    · exact hmiss fs ht

/-! ## Removing -/

/-- Removing a file takes its name away, if there is a file. -/
theorem remove_cases (fs : FileSystem) (path : String) :
    ((fs.remove path).2 = fs ∧ ∀ n, fs.find path ≠ .ok n) ∨
      ∃ key n, fs.find path = .ok n ∧ fs.resolve path = .ok key ∧ fs.entry? key = some (.file n) ∧
        (fs.remove path).2 = fs.dropEntry key := by
  unfold remove
  cases hfind : fs.find path with
  | error e => exact .inl ⟨rfl, by simp⟩
  | ok n =>
    obtain ⟨key, hkey, he, -⟩ := find_eq_ok_iff.1 hfind
    simp only [hkey]
    exact .inr ⟨key, n, rfl, rfl, he, rfl⟩

/-- An entry that is still there was there before. -/
theorem entry?_of_dropEntry (hfile : fs.entry? key = some (.file n)) {e : Entry}
    (h : FileSystem.entry? (fs.dropEntry key) other = some e) :
    other ≠ key ∧ fs.entry? other = some e := by
  by_cases heq : other = key
  · rw [heq, entry?_dropEntry_self (not_given_of_file hfile)] at h
    simp at h
  · exact ⟨heq, entry?_dropEntry_ne heq ▸ h⟩

theorem dropEntry_keeps (hfile : fs.entry? key = some (.file n)) :
    fs.KeepsDirectories (fs.dropEntry key) := by
  intro k hk
  rw [entry?_dropEntry_ne]
  · exact hk
  · rintro rfl
    rw [hfile] at hk
    simp at hk

theorem Tidy.dropEntry (h : fs.Tidy) (hfile : fs.entry? key = some (.file n)) :
    (fs.dropEntry key).Tidy where
  numbered k m hk := h.numbered k m (entry?_of_dropEntry hfile hk).2
  single k l m hk hl :=
    h.single k l m (entry?_of_dropEntry hfile hk).2 (entry?_of_dropEntry hfile hl).2

theorem spares_dropEntry (h : fs.Tidy) (hfile : fs.entry? other = some (.file n))
    (hne : key ≠ other) : Spares key fs (fs.dropEntry other) where
  tidy := h.dropEntry hfile
  directories := dropEntry_keeps hfile
  entry m hm := by rwa [entry?_dropEntry_ne hne]
  content _ _ := rfl

theorem remove_tidy (h : fs.Tidy) (path : String) : (fs.remove path).2.Tidy := by
  obtain ⟨hsame, -⟩ | ⟨key, n, -, -, he, hdrop⟩ := remove_cases fs path
  · rwa [hsame]
  · rw [hdrop]
    exact h.dropEntry he

/-- A file that was removed is not found. -/
theorem find_remove (fs : FileSystem) (path : String) (n : Nat) :
    (fs.remove path).2.find path ≠ .ok n := by
  obtain ⟨hsame, hnone⟩ | ⟨key, m, -, hkey, he, hdrop⟩ := remove_cases fs path
  · rw [hsame]
    exact hnone n
  · intro hfind
    rw [hdrop] at hfind
    obtain ⟨k, hk, hfile, -⟩ := find_eq_ok_iff.1 hfind
    rw [resolve_mono (dropEntry_keeps he) hkey, Except.ok.injEq] at hk
    exact (entry?_of_dropEntry he hfile).1 hk.symm

/-! ## The file of a log -/

/-- A file that can be found in a directory that can be made again is in its place. -/
theorem placed_of_find (h : fs.Tidy) (hparent : fs.makeParent path = (.ok (), fs))
    (hfind : fs.find path = .ok n) : fs.Placed path n := by
  obtain ⟨key, -, he, -⟩ := find_eq_ok_iff.1 hfind
  exact ⟨hparent, touch_of_find hfind, h.numbered key n he⟩

/-- What is spared stays in its place. -/
theorem Spares.placed (h : Spares key fs after) (hs : fs.Tidy) (hr : fs.resolve path = .ok key)
    (hp : fs.Placed path n) : after.Placed path n ∧ after.content n = fs.content n := by
  obtain ⟨hfind, hcontent⟩ := h.find hr hp.find
  exact ⟨placed_of_find h.tidy ((makeParent_spares hs key hp.parent).2 rfl after h.directories) hfind,
    hcontent⟩

end PartitionLog.FileSystem
