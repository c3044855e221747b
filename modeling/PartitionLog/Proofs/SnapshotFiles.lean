import PartitionLog.Proofs.Course
import PartitionLog.Proofs.LogFiles

/-!
# Snapshots in files

Reading a stored index gives back the index (`decode_encode`). Saving one puts it into the file at its
path (`saveSnapshot_ok`), and where that was done once it can be done again (`SnapshotAt.save`); where
it could not be done there is no file (`saveSnapshot_missing`). What is done with an open log leaves a
snapshot beside it alone (`Confined.snapshotAt`).
-/

namespace PartitionLog

namespace BlockIndex

/-- Whether the stored form has room for the entries. -/
structure Storable (ix : BlockIndex) : Prop where
  size : ix.size < 2 ^ 64
  entries : ∀ e ∈ ix.entries, -2 ^ 63 ≤ e.position ∧ e.position < 2 ^ 63 ∧ e.address < 2 ^ 64

theorem place_last {entry : IndexEntry} {entries : List IndexEntry}
    (h : ∀ e ∈ entries, e.position < entry.position) : place entry entries = entries ++ [entry] := by
  induction entries with
  | nil => rfl
  | cons e rest ih =>
    have hlt := h e List.mem_cons_self
    rw [place, if_neg (by omega), if_neg (by omega), ih fun x hx => h x (List.mem_cons_of_mem _ hx)]
    rfl

theorem foldl_insert (ix : BlockIndex) (entries : List IndexEntry)
    (h : (ix.entries ++ entries).Pairwise (·.position < ·.position)) :
    (entries.foldl insert ix).entries = ix.entries ++ entries := by
  induction entries generalizing ix with
  | nil => simp
  | cons e rest ih =>
    have hlast : (ix.insert e).entries = ix.entries ++ [e] :=
      place_last fun x hx => (List.pairwise_append.1 h).2.2 x hx e List.mem_cons_self
    rw [List.foldl_cons, ih (ix.insert e), hlast]
    · simp
    · rw [hlast]
      simpa using h

/-- Entries in order make the index that they are of. -/
theorem ofList_entries (ix : BlockIndex) : ofList ix.entries = ix := by
  have h := foldl_insert empty ix.entries (by simpa [empty] using ix.sorted)
  obtain ⟨entries, sorted⟩ := ix
  rw [ofList]
  generalize entries.foldl insert empty = made at h
  obtain ⟨found, _⟩ := made
  simp only [empty, List.nil_append] at h
  subst h
  rfl

theorem length_le_of_sorted {entries : List IndexEntry} {low high : Int}
    (h : entries.Pairwise (·.position < ·.position))
    (hrange : ∀ e ∈ entries, low ≤ e.position ∧ e.position < high) (hle : low ≤ high) :
    low + entries.length ≤ high := by
  induction entries generalizing low with
  | nil => simpa using hle
  | cons e rest ih =>
    obtain ⟨hfirst, hrest⟩ := List.pairwise_cons.1 h
    obtain ⟨hlo, hhi⟩ := hrange e List.mem_cons_self
    have hbehind : e.position + 1 + rest.length ≤ high := ih hrest (fun x hx =>
      ⟨hfirst x hx, (hrange x (List.mem_cons_of_mem _ hx)).2⟩) (by omega)
    rw [List.length_cons]
    omega

/-- The places of records in a log of less than 2^63 bytes can be stored. -/
theorem Lists.storable {ix : BlockIndex} {payloads : List Bytes} (h : ix.Lists payloads)
    (hsize : (Frame.encodeRun 0 payloads).length < 2 ^ 63) : ix.Storable := by
  have hplace : ∀ e ∈ ix.entries, 0 ≤ e.position ∧ e.position < 2 ^ 63 ∧ e.address < 2 ^ 63 := by
    intro e he
    obtain ⟨before, x, rest, rfl, rfl⟩ := h.inside he
    have hspan := Frame.length_encodeRun 0 (before ++ x :: rest)
    rw [Frame.span_append] at hspan
    rw [Frame.encodeRun_append, List.length_append] at hsize hspan
    dsimp only
    omega
  refine ⟨?_, fun e he => ?_⟩
  · have hlen := length_le_of_sorted ix.sorted
      (fun e he => ⟨(hplace e he).1, (hplace e he).2.1⟩) (by decide)
    unfold size
    omega
  · have := hplace e he
    omega

namespace Snapshot

theorem length_encodeEntry (e : IndexEntry) : (encodeEntry e).length = 16 := by
  simp [encodeEntry]

theorem decodeEntries_encode {entries : List IndexEntry}
    (h : ∀ e ∈ entries, -2 ^ 63 ≤ e.position ∧ e.position < 2 ^ 63 ∧ e.address < 2 ^ 64)
    (rest : Bytes) :
    decodeEntries entries.length (entries.flatMap encodeEntry ++ rest) = some entries := by
  induction entries with
  | nil => rfl
  | cons e more ih =>
    obtain ⟨hlo, hhi, haddress⟩ := h e List.mem_cons_self
    have hlen := length_encodeEntry e
    have hlong : ¬ (encodeEntry e ++ (more.flatMap encodeEntry ++ rest)).length < 16 := by
      rw [List.length_append]
      omega
    have hposition : (encodeEntry e ++ (more.flatMap encodeEntry ++ rest)).slice 0 8
        = Bytes.signed64 e.position := by
      simp [Bytes.slice, encodeEntry]
    have hplace : (encodeEntry e ++ (more.flatMap encodeEntry ++ rest)).slice 8 8
        = Bytes.littleEndian 8 e.address := by
      simp [Bytes.slice, encodeEntry]
    rw [List.flatMap_cons, List.append_assoc, List.length_cons, decodeEntries, if_neg hlong,
      hposition, hplace, List.drop_left' hlen, ih fun x hx => h x (List.mem_cons_of_mem _ hx),
      Bytes.ofSigned64_signed64 hlo hhi, Bytes.ofLittleEndian_littleEndian,
      Nat.mod_eq_of_lt (by omega)]
    rfl

/-- A snapshot gives back the index that it was made of, whatever follows it. -/
theorem decode_encode_append {ix : BlockIndex} (h : ix.Storable) (rest : Bytes) :
    decode (encode ix ++ rest) = .ok ix := by
  have hcount : (encode ix ++ rest).take 8 = Bytes.littleEndian 8 ix.size := by
    simp [encode, List.take_left']
  have hentries : (encode ix ++ rest).drop 8 = ix.entries.flatMap encodeEntry ++ rest := by
    simp [encode, List.drop_left']
  have hlong : ¬ (encode ix ++ rest).length < 8 := by simp [encode]
  have hsize := h.size
  rw [decode, if_neg hlong, hcount, hentries, Bytes.ofLittleEndian_littleEndian,
    Nat.mod_eq_of_lt (by omega), size, decodeEntries_encode h.entries]
  dsimp only
  rw [ofList_entries]

theorem decode_encode {ix : BlockIndex} (h : ix.Storable) : decode (encode ix) = .ok ix := by
  simpa using decode_encode_append h []

/-- Where there is a file, its bytes are read. -/
theorem read_of_find {fs : FileSystem} {path : String} {n : Nat} (h : fs.find path = .ok n) :
    read fs path = (decode (fs.content n)).map some := by
  have hexists : fs.exists? path = true := by simp [FileSystem.exists?, h, Except.isOk, Except.toBool]
  rw [read, if_pos hexists, FileSystem.read, h]
  rfl

theorem read_of_missing {fs : FileSystem} {path : String} (h : ∀ n, fs.find path ≠ .ok n)
    (ix : BlockIndex) : read fs path ≠ .ok (some ix) := by
  unfold read FileSystem.read
  cases hfind : fs.find path with
  | ok n => exact absurd hfind (h n)
  | error e =>
    split
    · simp [Except.map]
    · simp

end Snapshot

end BlockIndex

namespace FileSystem

variable {fs after : FileSystem} {path other : String} {key : List String} {n : Nat}

/-! ## What was there before -/

/-- A file is found only where it was before, if neither directories nor files of its name are new. -/
theorem find_before (hdirectories : after.KeepsDirectories fs)
    (hfiles : ∀ k m, after.entry? k = some (.file m) → k = key ∨ fs.entry? k = some (.file m))
    (hmiss : Misses path key) (h : after.find path = .ok n) : fs.find path = .ok n := by
  obtain ⟨k, hk, he, hfile⟩ := find_eq_ok_iff.1 h
  have hne := hmiss.ne h hk
  exact find_eq_ok_iff.2 ⟨k, resolve_mono hdirectories hk, (hfiles k n he).resolve_left hne, hfile⟩

theorem find_before_touch {r : Except SystemFault Nat} (ht : fs.touch path = (r, after))
    (hmiss : ∀ key, fs.resolve path = .ok key → Path.namesDirectory path = false → Misses other key)
    (h : after.find other = .ok n) : fs.find other = .ok n := by
  obtain ⟨e, -, rfl⟩ | ⟨number, -, -, rfl⟩ | ⟨key, hkey, hnone, hfile, -, rfl⟩ := touch_cases ht
  · exact h
  · exact h
  · have hentry : ∀ k e, FileSystem.entry? (fs.withNew key) k = some e →
        k = key ∨ fs.entry? k = some e := by
      intro k e hk
      by_cases heq : k = key
      · exact .inl heq
      · rw [entry?_withNew_ne heq] at hk
        exact .inr hk
    refine find_before (fun k hk => ?_) (fun k m hk => hentry k _ hk) (hmiss key hkey hfile) h
    rcases hentry k _ hk with rfl | hold
    · rw [entry?_withNew_self (not_given_of_none hnone)] at hk
      simp at hk
    · exact hold

/-- Contents do not matter for finding a file. -/
theorem find_setContent (fs : FileSystem) (m : Nat) (bytes : Bytes) (path : String) :
    (fs.setContent m bytes).find path = .ok n ↔ fs.find path = .ok n := by
  rw [find_eq_ok_iff, find_eq_ok_iff, resolve_setContent]
  rfl

theorem find_before_write {r : Except SystemFault Unit} {bytes : Bytes}
    (hw : fs.write path bytes = (r, after))
    (hmiss : ∀ key, fs.resolve path = .ok key → Path.namesDirectory path = false → Misses other key)
    (h : after.find other = .ok n) : fs.find other = .ok n := by
  obtain ⟨e, ht, -⟩ | ⟨number, middle, ht, -, rfl⟩ := write_cases hw
  · exact find_before_touch ht hmiss h
  · exact find_before_touch ht hmiss ((find_setContent ..).1 h)

theorem find_before_remove (hmiss : ∀ key, fs.resolve path = .ok key → Misses other key)
    (h : (fs.remove path).2.find other = .ok n) : fs.find other = .ok n := by
  obtain ⟨hsame, -⟩ | ⟨key, m, -, hkey, he, hdrop⟩ := remove_cases fs path
  · rwa [hsame] at h
  · rw [hdrop] at h
    exact find_before (fun k hk => (entry?_of_dropEntry he hk).2)
      (fun k l hk => .inr (entry?_of_dropEntry he hk).2) (hmiss key hkey) h

/-! ## Files that can be written -/

/-- A path that leads to a file, or to where one can be made. -/
def Writable (fs : FileSystem) (path : String) : Prop :=
  ∃ key, fs.resolve path = .ok key ∧ fs.entry? key ≠ some .directory ∧
    Path.namesDirectory path = false

theorem writable_iff : fs.Writable path ↔ ∃ n after, fs.touch path = (.ok n, after) := by
  constructor
  · rintro ⟨key, hkey, he, hfile⟩
    unfold touch
    rw [hkey]
    dsimp only
    cases hentry : fs.entry? key with
    | none => simp [hfile]
    | some entry =>
      cases entry with
      | directory => exact absurd hentry he
      | file m => simp [hfile]
  · rintro ⟨n, after, ht⟩
    obtain ⟨e, hbad, -⟩ | ⟨number, -, hfind, -⟩ | ⟨key, hkey, hnone, hfile, -⟩ := touch_cases ht
    · simp at hbad
    · obtain ⟨key, hkey, he, hfile⟩ := find_eq_ok_iff.1 hfind
      exact ⟨key, hkey, by simp [he], hfile⟩
    · exact ⟨key, hkey, by simp [hnone], hfile⟩

theorem writable_of_find (h : fs.find path = .ok n) : fs.Writable path :=
  writable_iff.2 ⟨n, fs, touch_of_find h⟩

/-- A path stays writable while directories stay and none is made. -/
theorem Writable.mono (h : fs.Writable path) (hkeeps : fs.KeepsDirectories after)
    (hnone : after.KeepsDirectories fs) : after.Writable path := by
  obtain ⟨key, hkey, he, hfile⟩ := h
  exact ⟨key, resolve_mono hkeeps hkey, fun hd => he (hnone key hd), hfile⟩

/-- Looking for a file to write makes no directory. -/
theorem touch_keeps {r : Except SystemFault Nat} (ht : fs.touch path = (r, after)) :
    after.KeepsDirectories fs := by
  intro k hk
  obtain ⟨e, -, rfl⟩ | ⟨number, -, -, rfl⟩ | ⟨key, -, hnone, -, -, rfl⟩ := touch_cases ht
  · exact hk
  · exact hk
  · by_cases heq : k = key
    · rw [heq, entry?_withNew_self (not_given_of_none hnone)] at hk
      simp at hk
    · rwa [entry?_withNew_ne heq] at hk

/-- A writable file is written, and no directory is made. -/
theorem Writable.write (h : fs.Writable path) (bytes : Bytes) :
    ∃ after, fs.write path bytes = (.ok (), after) ∧ after.KeepsDirectories fs := by
  obtain ⟨n, middle, ht⟩ := writable_iff.1 h
  exact ⟨middle.setContent n bytes, by rw [FileSystem.write, ht], fun k hk => touch_keeps ht k hk⟩

theorem rename_writable {source target : String} (hfind : fs.find source = .ok n)
    (ht : fs.Writable target) : ∃ after, fs.rename source target = (.ok (), after) := by
  obtain ⟨sourceKey, hsource, -⟩ := find_eq_ok_iff.1 hfind
  obtain ⟨targetKey, htarget, he, hfile⟩ := ht
  have hentry : (fs.entry? targetKey == some .directory) = false := by simpa using he
  unfold rename
  simp only [hfind, hsource, htarget, hentry, hfile]
  exact ⟨_, rfl⟩

/-- Giving a file another name takes away no directory. -/
theorem moved_keeps {source target : List String} (hfile : fs.entry? source = some (.file n))
    (htarget : fs.entry? target ≠ some .directory) :
    fs.KeepsDirectories (fs.moved source target n) := by
  intro k hk
  rw [entry?_moved_ne]
  · exact hk
  · rintro rfl
    rw [hfile] at hk
    simp at hk
  · rintro rfl
    exact htarget hk

/-- A renamed file is found under its new name, and there is room under the old one. -/
theorem find_of_rename {source target : String} (h : fs.rename source target = (.ok (), after)) :
    ∃ n, fs.find source = .ok n ∧ after.find target = .ok n ∧ after.contents = fs.contents ∧
      fs.KeepsDirectories after ∧ after.Writable source := by
  obtain ⟨e, hbad, -⟩ | ⟨n, s, t, hfind, hs, ht, hdirectory, hfile, -, rfl⟩ := rename_cases h
  · simp at hbad
  · obtain ⟨k, hk, he, hsource⟩ := find_eq_ok_iff.1 hfind
    obtain rfl : s = k := by
      rw [hs] at hk
      simpa using hk
    have hgiven : isGiven t = false := by
      cases hg : isGiven t with
      | false => rfl
      | true => exact absurd (by simp [FileSystem.entry?, hg]) hdirectory
    have hkeeps := moved_keeps he hdirectory
    have htarget : FileSystem.entry? (fs.moved s t n) t = some (.file n) := entry?_moved_target hgiven
    refine ⟨n, hfind, find_eq_ok_iff.2 ⟨t, resolve_mono hkeeps ht, htarget, hfile⟩, rfl, hkeeps,
      s, resolve_mono hkeeps hs, ?_, hsource⟩
    by_cases heq : s = t
    · subst heq
      rw [show (fs.dropEntry s).setEntry s (.file n) = fs.moved s s n from rfl, htarget]
      simp
    · rw [entry?_setEntry_ne heq, entry?_dropEntry_self (not_given_of_file he)]
      simp

end FileSystem

namespace IndexedLog

open BlockIndex

variable {fs files : FileSystem} {path other : String} {ix index : BlockIndex}

/-! ## The snapshot of a log -/

/-- The snapshot of `ix` is at `path`, where another one can be saved. -/
structure SnapshotAt (fs : FileSystem) (path : String) (ix : BlockIndex) : Prop where
  parent : fs.makeParent path = (.ok (), fs)
  draft : fs.Writable (Snapshot.draftPath path)
  found : ∃ n, fs.find path = .ok n ∧ fs.content n = Snapshot.encode ix

theorem SnapshotAt.read (h : SnapshotAt fs path ix) (hix : ix.Storable) :
    Snapshot.read fs path = .ok (some ix) := by
  obtain ⟨n, hfind, hcontent⟩ := h.found
  rw [Snapshot.read_of_find hfind, hcontent, Snapshot.decode_encode hix]
  rfl

/-- A snapshot stays where its file is spared, while directories stay and none is made. -/
theorem SnapshotAt.spared (h : SnapshotAt fs path ix) (hfs : fs.Tidy)
    (hspares : ∀ key, fs.resolve path = .ok key → FileSystem.Spares key fs files)
    (hback : files.KeepsDirectories fs) : SnapshotAt files path ix := by
  obtain ⟨n, hfind, hcontent⟩ := h.found
  obtain ⟨key, hkey, -⟩ := FileSystem.find_eq_ok_iff.1 hfind
  have hspared := hspares key hkey
  obtain ⟨hstill, hsame⟩ := hspared.find hkey hfind
  exact ⟨(FileSystem.makeParent_spares hfs key h.parent).2 rfl _ hspared.directories,
    h.draft.mono hspared.directories hback, n, hstill, hsame.trans hcontent⟩

/-- Making sure of another file leaves the snapshot. -/
theorem SnapshotAt.touch {r : Except SystemFault Nat} (h : SnapshotAt fs path ix) (hfs : fs.Tidy)
    (ht : fs.touch other = (r, files)) : SnapshotAt files path ix :=
  h.spared hfs (fun key _ => FileSystem.touch_spares hfs key ht) (FileSystem.touch_keeps ht)

/-- Another file can be written. -/
theorem SnapshotAt.write {bytes : Bytes} {r : Except SystemFault Unit} (h : SnapshotAt fs path ix)
    (hfs : fs.Tidy)
    (hmiss : ∀ (fs : FileSystem) key, fs.resolve other = .ok key → FileSystem.Misses path key)
    (hw : fs.write other bytes = (r, files)) : SnapshotAt files path ix := by
  obtain ⟨e, ht, -⟩ | ⟨number, middle, ht, -, rfl⟩ := FileSystem.write_cases hw
  · exact h.touch hfs ht
  · have hmiddle := (FileSystem.touch_spares hfs [] ht).tidy
    obtain ⟨hfind, -⟩ := FileSystem.find_of_touch hfs ht
    obtain ⟨key, hkey, hentry, -⟩ := FileSystem.find_eq_ok_iff.1 hfind
    have hthere := h.touch hfs ht
    obtain ⟨n, hsnapshot, -⟩ := hthere.found
    have hmisses := hmiss middle key hkey
    exact hthere.spared hmiddle (fun k hk => FileSystem.setContent_spares hmiddle hentry
      (hmisses.ne hsnapshot hk).symm bytes) fun k hk => hk

/-- Another file can be removed. -/
theorem SnapshotAt.remove (h : SnapshotAt fs path ix) (hfs : fs.Tidy)
    (hmiss : ∀ key, fs.resolve other = .ok key → FileSystem.Misses path key) :
    SnapshotAt (fs.remove other).2 path ix := by
  obtain ⟨hsame, -⟩ | ⟨key, n, -, hkey, he, hdrop⟩ := FileSystem.remove_cases fs other
  · rwa [hsame]
  · rw [hdrop]
    obtain ⟨m, hsnapshot, -⟩ := h.found
    exact h.spared hfs (fun k hk => FileSystem.spares_dropEntry hfs he
      ((hmiss key hkey).ne hsnapshot hk)) fun k hk => (FileSystem.entry?_of_dropEntry he hk).2

/-- A snapshot that was written is there, and so is all that was a directory. -/
theorem find_of_writeSnapshot (h : fs.Tidy) (hr : (Snapshot.write index path).run fs = (.ok (), files)) :
    (∃ n, files.find path = .ok n ∧ files.content n = Snapshot.encode index) ∧
      fs.KeepsDirectories files ∧ files.Writable (Snapshot.draftPath path) := by
  unfold Attempt.run Snapshot.write at hr
  split at hr
  · simp at hr
  · next written hwrite =>
    have hkeeps := (FileSystem.write_leaves h hwrite).2
    obtain ⟨number, hdraft, hcontent⟩ := FileSystem.find_of_write h hwrite
    split at hr
    · simp at hr
    · next renamed hrename =>
      simp only [Prod.mk.injEq, true_and] at hr
      subst hr
      obtain ⟨n, hsource, hfind, hcontents, hmoved, hroom⟩ := FileSystem.find_of_rename hrename
      obtain rfl : number = n := by
        rw [hdraft] at hsource
        simpa using hsource
      refine ⟨⟨number, hfind, ?_⟩, fun k hk => hmoved k (hkeeps k hk), hroom⟩
      rw [FileSystem.content, hcontents]
      exact hcontent

/-- A snapshot that was saved is there. -/
theorem saveSnapshot_ok (h : fs.Tidy) (hr : (saveSnapshot index path).run fs = (.ok (), files)) :
    SnapshotAt files path index := by
  unfold Attempt.run saveSnapshot at hr
  split at hr
  · simp at hr
  · next made hparent =>
    obtain ⟨hmade, hagain⟩ := FileSystem.makeParent_spares h [] hparent
    obtain ⟨hfound, hkeeps, hroom⟩ := find_of_writeSnapshot hmade.tidy hr
    exact ⟨hagain rfl _ hkeeps, hroom, hfound⟩

/-- Where there is a snapshot, another one can take its place. -/
theorem SnapshotAt.save (h : SnapshotAt fs path ix) (hfs : fs.Tidy) (index : BlockIndex) :
    ∃ files, (saveSnapshot index path).run fs = (.ok (), files) := by
  obtain ⟨n, hfind, -⟩ := h.found
  obtain ⟨written, hwrite, hnone⟩ := h.draft.write (Snapshot.encode index)
  obtain ⟨number, hdraft, -⟩ := FileSystem.find_of_write hfs hwrite
  have htarget : written.Writable path :=
    (FileSystem.writable_of_find hfind).mono (FileSystem.write_leaves hfs hwrite).2 hnone
  obtain ⟨files, hrename⟩ := FileSystem.rename_writable hdraft htarget
  refine ⟨files, ?_⟩
  unfold Attempt.run saveSnapshot
  rw [h.parent]
  dsimp only
  unfold Attempt.run Snapshot.write
  rw [hwrite]
  dsimp only
  rw [hrename]

/-- Where saving the first snapshot fails, there is none. -/
theorem saveSnapshot_missing {e : LogError} (hparent : (fs.makeParent path).2 = fs)
    (hdraft : ∀ key, fs.resolve (Snapshot.draftPath path) = .ok key →
      Path.namesDirectory (Snapshot.draftPath path) = false → FileSystem.Misses path key)
    (hmissing : ∀ n, fs.find path ≠ .ok n)
    (hr : (saveSnapshot index path).run fs = (.error e, files)) : ∀ n, files.find path ≠ .ok n := by
  unfold Attempt.run saveSnapshot at hr
  split at hr
  · next hmake =>
    simp only [Prod.mk.injEq] at hr
    obtain ⟨-, rfl⟩ := hr
    rw [hmake] at hparent
    dsimp only at hparent
    subst hparent
    exact hmissing
  · next made hmake =>
    rw [hmake] at hparent
    dsimp only at hparent
    subst hparent
    unfold Attempt.run Snapshot.write at hr
    split at hr
    · next hwrite =>
      simp only [Prod.mk.injEq] at hr
      obtain ⟨-, rfl⟩ := hr
      exact fun n hn => hmissing n (FileSystem.find_before_write hwrite hdraft hn)
    · next written hwrite =>
      split at hr
      · next hrename =>
        simp only [Prod.mk.injEq] at hr
        obtain ⟨-, rfl⟩ := hr
        obtain ⟨_, -, rfl⟩ | ⟨_, _, _, -, -, -, -, -, hok, -⟩ := FileSystem.rename_cases hrename
        · exact fun n hn => hmissing n (FileSystem.find_before_write hwrite hdraft hn)
        · simp at hok
      · simp at hr

end IndexedLog

/-! ## While a log is open -/

namespace Storage

variable {s t : Storage} {path : String} {number n : Nat}

theorem Confined.find (h : s.Confined t) (path : String) :
    t.files.find path = .ok n ↔ s.files.find path = .ok n := by
  have hentry := h.entry?
  constructor
  · intro hfind
    obtain ⟨k, hk, he, hfile⟩ := FileSystem.find_eq_ok_iff.1 hfind
    refine FileSystem.find_eq_ok_iff.2 ⟨k, FileSystem.resolve_mono (fun d hd => ?_) hk, ?_, hfile⟩
    · rwa [hentry] at hd
    · rwa [hentry] at he
  · intro hfind
    obtain ⟨k, hk, he, hfile⟩ := FileSystem.find_eq_ok_iff.1 hfind
    exact FileSystem.find_eq_ok_iff.2 ⟨k, FileSystem.resolve_mono h.keepsDirectories hk,
      (hentry k).trans he, hfile⟩

/-- What is done with an open log leaves a snapshot beside it. -/
theorem Confined.snapshotAt {snapshot : String} {key : List String} {ix : BlockIndex}
    (h : s.Confined t) (hat : s.OpenAt path number) (hkey : s.files.resolve path = .ok key)
    (hmiss : FileSystem.Misses snapshot key) (hsnapshot : IndexedLog.SnapshotAt s.files snapshot ix) :
    IndexedLog.SnapshotAt t.files snapshot ix := by
  have hback : t.files.KeepsDirectories s.files := by
    intro k hk
    rwa [h.entry?] at hk
  obtain ⟨n, hfind, -⟩ := hsnapshot.found
  refine hsnapshot.spared hat.tidy (fun k hk => ?_) hback
  refine ⟨h.tidy hat.tidy, h.keepsDirectories, fun m hm => (h.entry? k).trans hm, fun m hm => ?_⟩
  refine h.others m fun place hsite => ?_
  -- the snapshot has a number of its own
  rw [hat.site, Option.some.injEq, Prod.mk.injEq] at hsite
  obtain ⟨-, rfl⟩ := hsite
  obtain ⟨l, hl, he, -⟩ := FileSystem.find_eq_ok_iff.1 hat.placed.1.find
  rw [hkey, Except.ok.injEq] at hl
  subst hl
  exact hmiss.ne hfind hk (hat.tidy.single k key number hm he)

end Storage

end PartitionLog
