import PartitionLog.Proofs.SnapshotFiles

/-!
# The stored form of an index

The number of entries comes first, so bytes give an index exactly if that many entries are there
(`decodeEntries_eq_none_iff`): a snapshot gives back its index whatever follows it, and no less than a
whole snapshot gives any (`decode_torn`). What is read is an index that can be stored
(`storable_of_decode`), also from bytes that no index was written as.
-/

namespace PartitionLog.BlockIndex

theorem length_place_le (entry : IndexEntry) (entries : List IndexEntry) :
    (place entry entries).length ≤ entries.length + 1 := by
  induction entries with
  | nil => simp [place]
  | cons e rest ih =>
    unfold place
    split
    · simp
    · split
      · simp
      · simpa using ih

/-- An index of some entries has no others, and no more than them. -/
theorem ofList_within (entries : List IndexEntry) :
    (ofList entries).size ≤ entries.length ∧ ∀ e ∈ (ofList entries).entries, e ∈ entries := by
  suffices h : ∀ ix : BlockIndex, (entries.foldl insert ix).size ≤ ix.size + entries.length ∧
      ∀ e ∈ (entries.foldl insert ix).entries, e ∈ ix.entries ∨ e ∈ entries by
    simpa [ofList, empty, size] using h empty
  induction entries with
  | nil => simp
  | cons e rest ih =>
    intro ix
    obtain ⟨hsize, hmem⟩ := ih (ix.insert e)
    have hone : (ix.insert e).size ≤ ix.size + 1 := length_place_le e ix.entries
    refine ⟨by simp only [List.foldl_cons, List.length_cons]; omega, fun x hx => ?_⟩
    rcases hmem x hx with hplaced | hrest
    · rcases mem_place hplaced with rfl | hold
      · exact .inr List.mem_cons_self
      · exact .inl hold
    · exact .inr (List.mem_cons_of_mem _ hrest)

namespace Snapshot

theorem length_encode (ix : BlockIndex) : (encode ix).length = 8 + 16 * ix.size := by
  have hentries : ∀ entries : List IndexEntry,
      (entries.flatMap encodeEntry).length = 16 * entries.length := by
    intro entries
    induction entries with
    | nil => rfl
    | cons e rest ih =>
      rw [List.flatMap_cons, List.length_append, ih, length_encodeEntry, List.length_cons]
      omega
  rw [encode, List.length_append, hentries, Bytes.length_littleEndian, size]

/-- Entries are missing exactly if there are too few bytes for them. -/
theorem decodeEntries_eq_none_iff {count : Nat} {bytes : Bytes} :
    decodeEntries count bytes = none ↔ bytes.length < 16 * count := by
  induction count generalizing bytes with
  | zero => simp [decodeEntries]
  | succ count ih =>
    rw [decodeEntries]
    split
    · simp only [true_iff]
      omega
    · rw [Option.map_eq_none_iff, ih, List.length_drop]
      omega

theorem length_of_decodeEntries {count : Nat} {bytes : Bytes} {entries : List IndexEntry}
    (h : decodeEntries count bytes = some entries) : entries.length = count := by
  induction count generalizing bytes entries with
  | zero =>
    obtain rfl : [] = entries := by simpa [decodeEntries] using h
    rfl
  | succ count ih =>
    rw [decodeEntries] at h
    split at h
    · simp at h
    · obtain ⟨rest, hrest, rfl⟩ := Option.map_eq_some_iff.1 h
      rw [List.length_cons, ih hrest]

/-- What is read has eight bytes for each number, so it fits into them. -/
theorem range_of_decodeEntries {count : Nat} {bytes : Bytes} {entries : List IndexEntry}
    (h : decodeEntries count bytes = some entries) :
    ∀ e ∈ entries, -2 ^ 63 ≤ e.position ∧ e.position < 2 ^ 63 ∧ e.address < 2 ^ 64 := by
  induction count generalizing bytes entries with
  | zero =>
    obtain rfl : [] = entries := by simpa [decodeEntries] using h
    simp
  | succ count ih =>
    rw [decodeEntries] at h
    split at h
    · simp at h
    · next hlong =>
      obtain ⟨rest, hrest, rfl⟩ := Option.map_eq_some_iff.1 h
      intro e he
      rcases List.mem_cons.1 he with rfl | he
      · have haddress := Bytes.ofLittleEndian_lt (bytes.slice 8 8)
        rw [Bytes.length_slice, Nat.min_eq_left (by omega)] at haddress
        have hposition := Bytes.ofSigned64_range (bytes.slice 0 8)
        dsimp only
        omega
      · exact ih hrest e he

/-- Whatever bytes are read, the index can be stored. -/
theorem storable_of_decode {bytes : Bytes} {ix : BlockIndex} (h : decode bytes = .ok ix) :
    ix.Storable := by
  unfold decode at h
  split at h
  · simp at h
  · next hlong =>
    split at h
    · simp at h
    · next entries hentries =>
      simp only [Except.ok.injEq] at h
      subst h
      obtain ⟨hsize, hmem⟩ := ofList_within entries
      have hcount := Bytes.ofLittleEndian_lt (bytes.take 8)
      rw [← length_of_decodeEntries hentries, List.length_take, Nat.min_eq_left (by omega)] at hcount
      exact ⟨by omega, fun e he => range_of_decodeEntries hentries e (hmem e he)⟩

/-- A snapshot of which the end is missing is refused. -/
theorem decode_torn {ix : BlockIndex} (h : ix.Storable) {torn : Bytes} (htorn : torn <+: encode ix)
    (hne : torn ≠ encode ix) : decode torn = .error .shortSnapshot := by
  have hshort : torn.length < (encode ix).length :=
    Nat.lt_of_le_of_ne htorn.length_le fun heq => hne (htorn.eq_of_length heq)
  rw [length_encode] at hshort
  unfold decode
  split
  · rfl
  · next hlong =>
    -- the number of entries is there in full, and it is that of the whole index
    have hcount : torn.take 8 = Bytes.littleEndian 8 ix.size := by
      obtain ⟨missing, hmissing⟩ := htorn
      have htake := congrArg (List.take 8) hmissing
      rw [List.take_append_of_le_length (by omega)] at htake
      simpa [encode, List.take_left'] using htake
    have hsize := h.size
    have hnone : decodeEntries (Bytes.ofLittleEndian (torn.take 8)) (torn.drop 8) = none := by
      rw [decodeEntries_eq_none_iff, hcount, Bytes.ofLittleEndian_littleEndian,
        Nat.mod_eq_of_lt (by omega), List.length_drop]
      omega
    rw [hnone]

/-! ## In files -/

/-- Reading a snapshot decodes what is in its file. -/
theorem read_eq_decode {fs : FileSystem} {path : String} {bytes : Bytes}
    (h : fs.read path = .ok bytes) : read fs path = (decode bytes).map some := by
  rw [FileSystem.read] at h
  cases hfind : fs.find path with
  | error e => simp [hfind, Except.map] at h
  | ok n =>
    obtain rfl : fs.content n = bytes := by simpa [hfind, Except.map] using h
    exact read_of_find hfind

/-- A written snapshot is in its file, and nothing else. -/
theorem read_of_write {fs files : FileSystem} {path : String} {ix : BlockIndex} (hfs : fs.Tidy)
    (h : (write ix path).run fs = (.ok (), files)) : files.read path = .ok (encode ix) := by
  obtain ⟨⟨n, hfind, hcontent⟩, -⟩ := IndexedLog.find_of_writeSnapshot hfs h
  rw [FileSystem.read, hfind, ← hcontent]
  rfl

/-- Bytes that begin with a snapshot give back its index, and a part of one gives none; what is read
from any bytes can be stored and read again. A file of a snapshot holds these bytes and is read as
they are. -/
theorem whole_or_refused {ix : BlockIndex} (h : ix.Storable) :
    (∀ rest, decode (encode ix ++ rest) = .ok ix) ∧
    (∀ torn, torn <+: encode ix → torn ≠ encode ix →
      ∃ e, decode torn = .error e ∧ e.kind = .serialization) ∧
    (∀ bytes found, decode bytes = .ok found → decode (encode found) = .ok found) ∧
    (∀ fs files path, fs.Tidy → (write ix path).run fs = (.ok (), files) →
      files.read path = .ok (encode ix)) ∧
    ∀ files path bytes, FileSystem.read files path = .ok bytes →
      read files path = (decode bytes).map some := by
  refine ⟨decode_encode_append h, fun torn htorn hne => ⟨_, decode_torn h htorn hne, rfl⟩,
    fun bytes found hdecode => decode_encode (storable_of_decode hdecode),
    fun fs files path hfs hwrite => read_of_write hfs hwrite,
    fun files path bytes hread => read_eq_decode hread⟩

/-- Two entries are read back from a file with more behind them, and without their last byte they are
refused. -/
theorem whole_or_refused_two :
    (ofList [⟨0, 0⟩, ⟨3, 38⟩]).Storable ∧
    (let files := ((write (ofList [⟨0, 0⟩, ⟨3, 38⟩]) "log.idx").run {}).2
     files.read "log.idx" = .ok (encode (ofList [⟨0, 0⟩, ⟨3, 38⟩]))) ∧
    decode (encode (ofList [⟨0, 0⟩, ⟨3, 38⟩]) ++ [7, 7]) = .ok (ofList [⟨0, 0⟩, ⟨3, 38⟩]) ∧
    ∃ e, decode ((encode (ofList [⟨0, 0⟩, ⟨3, 38⟩])).take 39) = .error e ∧ e.kind = .serialization := by
  have hstorable : (ofList [⟨0, 0⟩, ⟨3, 38⟩]).Storable := ⟨by decide, by decide⟩
  obtain ⟨hwhole, htorn, -, hwrite, -⟩ := whole_or_refused hstorable
  have hne : (encode (ofList [⟨0, 0⟩, ⟨3, 38⟩])).take 39 ≠ encode (ofList [⟨0, 0⟩, ⟨3, 38⟩]) := by
    intro heq
    have := congrArg List.length heq
    rw [List.length_take, length_encode] at this
    simp [ofList, size, empty, insert, place] at this
  exact ⟨hstorable, hwrite {} _ "log.idx" FileSystem.tidy_empty (by rfl), hwhole [7, 7],
    htorn _ (List.take_prefix ..) hne⟩

end Snapshot

end PartitionLog.BlockIndex
