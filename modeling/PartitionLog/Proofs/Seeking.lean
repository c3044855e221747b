import PartitionLog.Proofs.Parsing
import PartitionLog.Proofs.Reopening
import PartitionLog.Proofs.Windows

/-!
# Seeking

A reader works through the log record by record, as a walk does (`Frame.walk`). Whatever its window
holds, it comes to the same records, unless a read of the storage fails (`seekFrom_walk`,
`collectFrom_walk`); `rs.Answers` keeps the two cases apart. An index only moves the start of the scan
to one of the records, the last one in it that does not lie behind the position. At rising positions
no record before that one is what is looked for, so with every choice of entries a seek ends at the
same place (`seeks_exactly`).
-/

namespace PartitionLog

/-! ## The records of a log -/

namespace Frame

variable {log src : Bytes} {address last : Nat} {r : Record} {before rest records : List Record}

/-- What a walk to the end finds is what reading at its start answers first. -/
theorem decode_of_walk (h : walk src address = (records, none)) :
    decode src address = .ok records.head? := by
  rw [decode_of_walk_stop h]
  cases records with
  | nil => rfl
  | cons r rest => rfl

/-- Behind the first record of a walk lie the others. -/
theorem walk_tail (h : walk (log.drop address) address = (r :: rest, none)) :
    walk (log.drop r.nextAddress) r.nextAddress = (rest, none) := by
  have hd : decode (log.drop address) address = .ok (some r) := decode_of_walk h
  rw [walk_of_decode hd, Prod.mk.injEq, List.cons.injEq] at h
  exact Prod.ext h.1.2 h.2

/-- A walk can begin at every record that it finds. -/
theorem walk_behind (h : walk (log.drop address) address = (before ++ r :: rest, none)) :
    walk (log.drop r.address) r.address = (r :: rest, none) := by
  induction before generalizing address with
  | nil =>
    have hd : decode (log.drop address) address = .ok (some r) := decode_of_walk h
    rw [(length_of_decode hd).1]
    exact h
  | cons s before ih => exact ih (walk_tail h)

/-- A walk to the end finds the frames of all bytes. -/
theorem walk_end (h : walk (log.drop address) address = (records, none))
    (hle : address ≤ log.length) : address + (framesOf records).length = log.length := by
  have hwalked := walk_spec (log.drop address) address
  rw [h] at hwalked
  have hframes : framesOf records = log.drop address := hwalked.end_iff.1 rfl
  rw [hframes, List.length_drop]
  omega

/-- The rest of a walk comes to the same end. -/
theorem walk_tail_end (h : walk (log.drop address) address = (r :: rest, none)) :
    r.nextAddress + (framesOf rest).length = address + (framesOf (r :: rest)).length := by
  have haddress := (length_of_decode (decode_of_walk h)).1
  rw [framesOf_cons, List.length_append, length_encode, Record.nextAddress, haddress,
    ← Nat.add_assoc]
  rfl

/-- Frames laid end to end are walked through to their end. -/
theorem walk_of_tiles (hf : AllFramable records) (ht : Tiles address last records) :
    walk (framesOf records) address = (records, none) := by
  induction records generalizing address with
  | nil => exact walk_nil address
  | cons r rest ih =>
    obtain ⟨rfl, htiles⟩ := ht
    have hd := decode_encode hf.head (framesOf rest) r.address
    rw [← framesOf_cons] at hd
    have hdrop : (framesOf (r :: rest)).drop r.frameLength = framesOf rest := by
      rw [framesOf_cons]
      exact List.drop_left' (length_encode r.position r.payload)
    rw [walk_cons hd, hdrop, ih hf.tail htiles]

theorem walk_of_run {position : Int} {xs : List Bytes}
    (hlog : log.drop address = encodeRun position xs) (hx : Readable position xs) :
    walk (log.drop address) address = (recordsOf position address xs, none) := by
  have hwalk := walk_encodeRun hx [] address
  rw [walk_nil, List.append_nil, List.append_nil] at hwalk
  rw [hlog, hwalk]

end Frame

/-- The log is the frames of these records, laid end to end. -/
structure Frame.Laid (log : Bytes) (records : List Record) : Prop where
  framable : AllFramable records
  tiles : Tiles Storage.firstAddress log.length records
  frames : framesOf records = log

/-- So it is, and the positions rise. -/
structure Frame.Ordered (log : Bytes) (records : List Record) : Prop extends Laid log records where
  rising : records.Pairwise (·.position < ·.position)

/-- Every entry tells the position and the address of one of the records. -/
def BlockIndex.PicksFrom (ix : BlockIndex) (records : List Record) : Prop :=
  ∀ e ∈ ix.entries, ∃ r ∈ records, e = ⟨r.position, r.address⟩

/-- A run from position 0 on is a log of its records. -/
theorem Frame.laid_recordsOf {payloads : List Bytes} (h : Readable 0 payloads) :
    Laid (encodeRun 0 payloads) (recordsOf 0 0 payloads) := by
  have hrun : walk ((encodeRun 0 payloads).drop 0) 0 = (recordsOf 0 0 payloads, none) :=
    walk_of_run rfl h
  have hwalk := walk_spec ((encodeRun 0 payloads).drop 0) 0
  rw [hrun, List.drop_zero] at hwalk
  have hframes : framesOf (recordsOf 0 0 payloads) = encodeRun 0 payloads := hwalk.end_iff.1 rfl
  have htiles := hwalk.tiles
  rw [hframes, Nat.zero_add] at htiles
  exact ⟨hwalk.framable, htiles, hframes⟩

theorem BlockIndex.Lists.picksFrom {ix : BlockIndex} {payloads : List Bytes} (h : ix.Lists payloads) :
    ix.PicksFrom (Frame.recordsOf 0 0 payloads) := by
  intro e he
  obtain ⟨r, hr, hposition, haddress⟩ := h e he
  exact ⟨r, hr, by rw [hposition, haddress]⟩

section Picked

variable {ix : BlockIndex} {start : Int} {payloads : List Bytes}

/-- Entries that tell places of records lie inside the log. -/
theorem BlockIndex.PicksFrom.below (h : ix.PicksFrom (Frame.recordsOf start 0 payloads)) :
    ix.Below (Frame.encodeRun start payloads).length := by
  intro e he
  obtain ⟨r, hr, rfl⟩ := h e he
  have := Frame.address_lt_of_mem hr
  dsimp only
  omega

/-- Entries that tell places of records describe the log. -/
theorem BlockIndex.PicksFrom.describes (h : ix.PicksFrom (Frame.recordsOf start 0 payloads))
    (hr : Frame.Readable start payloads) : ix.Describes (Frame.encodeRun start payloads) := by
  refine ⟨fun e he _ => ?_, ?_⟩
  · obtain ⟨r, hmem, rfl⟩ := h e he
    obtain ⟨before, x, rest, rfl, rfl⟩ := Frame.exists_split_of_mem hmem
    refine ⟨start, before, (Frame.readable_append.1 hr).1, ?_, rfl⟩
    rw [Frame.encodeRun_append, Nat.zero_add, List.take_left]
  · refine List.Pairwise.imp_of_mem (fun {a b} ha hb hlt => ?_) ix.sorted
    obtain ⟨r, hmem, rfl⟩ := h a ha
    obtain ⟨s, hother, rfl⟩ := h b hb
    apply Classical.byContradiction
    intro hle
    have := Frame.position_le_of_address_le hother hmem (Nat.le_of_not_lt hle)
    dsimp only at hlt
    omega

end Picked

theorem Storage.Serves.not_faulted {s : Storage} (h : s.Serves) (t : Storage) : ¬ s.Faulted t := by
  rintro ⟨n, -, -, hfails | hclosed⟩
  · rw [h.passes] at hfails
    exact Bool.false_ne_true hfails
  · rw [h.isOpen] at hclosed
    exact Bool.false_ne_true hclosed.symm

namespace Reading

variable {rs us ts : Reading} {log : Bytes} {records : List Record} {α β : Type}

/-! ## Answers -/

/-- Unless a read of the storage failed on the way, this is what is answered; otherwise it is an error
that tells nothing about the log. -/
def Answers (rs ts : Reading) (answer : Except LogError α) (value : α) : Prop :=
  (¬ rs.storage.Faulted ts.storage → answer = .ok value) ∧
    (rs.storage.Faulted ts.storage → ∃ e, answer = .error e ∧ ∀ bad damage, e ≠ .corruption bad damage)

/-- How many reads of the storage were made. -/
def used (rs : Reading) : Nat := (rs.storage.faults .read).used

theorem Answers.of_ok {a value : α} (h : rs.Answers ts (.ok a) value) :
    ¬ rs.storage.Faulted ts.storage ∧ a = value := by
  have hpassed : ¬ rs.storage.Faulted ts.storage := by
    intro hfaulted
    obtain ⟨e, he, -⟩ := h.2 hfaulted
    simp at he
  exact ⟨hpassed, by simpa using h.1 hpassed⟩

theorem answers_ok (h : ¬ rs.storage.Faulted ts.storage) (value : α) :
    rs.Answers ts (.ok value) value :=
  ⟨fun _ => rfl, fun hfaulted => absurd hfaulted h⟩

/-- An error does not depend on what would have been answered. -/
theorem Answers.of_error {e : LogError} {value : α} (h : rs.Answers ts (.error e) value)
    (other : β) : rs.Answers ts (.error e) other := by
  constructor
  · intro hpassed
    have hbad := h.1 hpassed
    simp at hbad
  · intro hfaulted
    obtain ⟨e', he, hne⟩ := h.2 hfaulted
    simp only [Except.error.injEq] at he
    exact ⟨e, rfl, he ▸ hne⟩

theorem Answers.map {answer : Except LogError α} {value : α} (h : rs.Answers ts answer value)
    (f : α → β) : rs.Answers ts (answer.map f) (f value) := by
  constructor
  · intro hpassed
    rw [h.1 hpassed]
    rfl
  · intro hfaulted
    obtain ⟨e, rfl, hne⟩ := h.2 hfaulted
    exact ⟨e, rfl, hne⟩

/-- What comes after reads that passed decides alone. -/
theorem Answers.behind {answer : Except LogError α} {value : α} (h : us.Answers ts answer value)
    (hpassed : ¬ rs.storage.Faulted us.storage) (halike : rs.storage.ReadAlike us.storage)
    (hus : rs.used ≤ us.used) (hts : us.used ≤ ts.used) : rs.Answers ts answer value := by
  have hfaulted : rs.storage.Faulted ts.storage ↔ us.storage.Faulted ts.storage := by
    rw [Storage.faulted_trans halike hus hts]
    exact or_iff_right hpassed
  unfold Answers
  rw [hfaulted]
  exact h

/-! ## Scans -/

theorem readAt_used {address : Nat} {answer : Except LogError (Option Record)} (h : rs.Sees log)
    (hr : (readAt address).run rs = (answer, ts)) : rs.used ≤ ts.used := by
  rw [readAt, Attempt.run_bind] at hr
  split at hr
  · next header us hheader =>
    have hfirst := (fetch_faulted h hheader).1
    split at hr
    · rw [run_ofExcept, Prod.mk.injEq] at hr
      exact hr.2 ▸ hfirst
    · rw [Attempt.run_bind] at hr
      split at hr
      · next hframe =>
        rw [run_ofExcept, Prod.mk.injEq] at hr
        have hsecond := (fetch_faulted (fetch_spec h hheader).1 hframe).1
        exact hr.2 ▸ Nat.le_trans hfirst hsecond
      · next hframe =>
        simp only [Prod.mk.injEq] at hr
        have hsecond := (fetch_faulted (fetch_spec h hheader).1 hframe).1
        exact hr.2 ▸ Nat.le_trans hfirst hsecond
  · next hheader =>
    simp only [Prod.mk.injEq] at hr
    exact hr.2 ▸ (fetch_faulted h hheader).1

/-- Where a walk begins, a reader reads the first record of the walk. -/
theorem readAt_walk {address : Nat} {answer : Except LogError (Option Record)} (h : rs.Sees log)
    (hw : Frame.walk (log.drop address) address = (records, none))
    (hr : (readAt address).run rs = (answer, ts)) : rs.Answers ts answer records.head? := by
  have hfaulted := readAt_faulted h hr
  constructor
  · intro hpassed
    have hdecoded := (readAt_spec h hr).2.resolve_right fun hfails => hpassed (hfaulted.2 hfails)
    rw [hdecoded, Frame.decode_of_walk hw]
  · exact hfaulted.1

/-- The first record that does not lie before a position. -/
def firstFrom (position : Int) (records : List Record) : Option Record :=
  records.find? (position ≤ ·.position)

/-- Induction on the scan: every record that is passed is the first one of the walk that is left. -/
theorem seekFrom_walk (position : Int) (address : Nat) (rs : Reading) {ts : Reading} {log : Bytes}
    {records : List Record} {answer : Except LogError Bool} (h : rs.Sees log)
    (hw : Frame.walk (log.drop address) address = (records, none))
    (hr : seekFrom position address rs = (answer, ts)) :
    rs.used ≤ ts.used ∧
      rs.Answers ts answer ((firstFrom position records).any (·.position == position)) ∧
      ∀ found, answer = .ok found → ts.reader.next
        = ((firstFrom position records).map Record.address).getD
            (address + (Frame.framesOf records).length) := by
  fun_induction seekFrom position address rs generalizing records with
  | case1 address rs e us hread =>
    simp only [Prod.mk.injEq] at hr
    obtain ⟨rfl, rfl⟩ := hr
    have hfails := readAt_walk h hw hread
    exact ⟨readAt_used h hread, hfails.of_error _, by simp⟩
  | case2 address rs us hread =>
    obtain ⟨hpassed, hhead⟩ := (readAt_walk h hw hread).of_ok
    obtain rfl : records = [] := List.head?_eq_none_iff.1 hhead.symm
    simp only [Prod.mk.injEq] at hr
    obtain ⟨rfl, rfl⟩ := hr
    have hused := readAt_used h hread
    exact ⟨hused, answers_ok hpassed false, fun _ _ => rfl⟩
  | case3 address rs r us hread hlt ih =>
    obtain ⟨hpassed, hhead⟩ := (readAt_walk h hw hread).of_ok
    obtain ⟨rest, rfl⟩ := List.head?_eq_some_iff.1 hhead.symm
    obtain ⟨hused, hanswers, hnext⟩ := ih (readAt_spec h hread).1 (Frame.walk_tail hw) hr
    have hskip : firstFrom position (r :: rest) = firstFrom position rest := by
      rw [firstFrom, List.find?_cons_of_neg (by simpa using hlt)]
      rfl
    have hfirst := readAt_used h hread
    rw [hskip, ← Frame.walk_tail_end hw]
    exact ⟨Nat.le_trans hfirst hused, hanswers.behind hpassed (readAt_readAlike hread) hfirst hused, hnext⟩
  | case4 address rs r us hread hge =>
    obtain ⟨hpassed, hhead⟩ := (readAt_walk h hw hread).of_ok
    obtain ⟨rest, rfl⟩ := List.head?_eq_some_iff.1 hhead.symm
    simp only [Prod.mk.injEq] at hr
    obtain ⟨rfl, rfl⟩ := hr
    have hfirst : firstFrom position (r :: rest) = some r := by
      rw [firstFrom, List.find?_cons_of_pos (by simpa using hge)]
    have hused := readAt_used h hread
    rw [hfirst]
    exact ⟨hused, answers_ok hpassed _, fun _ _ => rfl⟩

/-- What was collected, if the end of the log was reached. -/
def whole (found : List Record × Option LogError) : Except LogError (List Record) :=
  match found.2 with
  | none => .ok found.1
  | some e => .error e

theorem whole_eq_ok_iff {found : List Record × Option LogError} :
    whole found = .ok records ↔ found = (records, none) := by
  obtain ⟨collected, _ | e⟩ := found
  · simp [whole]
  · simp [whole]

theorem collectFrom_walk (address : Nat) (rs : Reading) {ts : Reading} {log : Bytes}
    {records : List Record} {found : List Record × Option LogError} (h : rs.Sees log)
    (hw : Frame.walk (log.drop address) address = (records, none))
    (hr : collectFrom address rs = (found, ts)) :
    rs.used ≤ ts.used ∧ rs.Answers ts (whole found) records ∧
      (found.2 = none → ts.reader.next = address + (Frame.framesOf records).length) := by
  fun_induction collectFrom address rs generalizing records found with
  | case1 address rs e us hread =>
    simp only [Prod.mk.injEq] at hr
    obtain ⟨rfl, rfl⟩ := hr
    have hused := readAt_used h hread
    have hfails := (readAt_walk h hw hread).of_error records
    exact ⟨hused, hfails, by simp⟩
  | case2 address rs us hread =>
    obtain ⟨hpassed, hhead⟩ := (readAt_walk h hw hread).of_ok
    obtain rfl : records = [] := List.head?_eq_none_iff.1 hhead.symm
    simp only [Prod.mk.injEq] at hr
    obtain ⟨rfl, rfl⟩ := hr
    have hused := readAt_used h hread
    exact ⟨hused, answers_ok hpassed [], fun _ => rfl⟩
  | case3 address rs r us hread collected stop vs hrest ih =>
    obtain ⟨hpassed, hhead⟩ := (readAt_walk h hw hread).of_ok
    obtain ⟨rest, rfl⟩ := List.head?_eq_some_iff.1 hhead.symm
    simp only [Prod.mk.injEq] at hr
    obtain ⟨rfl, rfl⟩ := hr
    obtain ⟨hused, hanswers, hnext⟩ := ih (readAt_spec h hread).1 (Frame.walk_tail hw) hrest
    have hwhole : whole (r :: collected, stop) = (whole (collected, stop)).map (r :: ·) := by
      cases stop <;> rfl
    have hfirst := readAt_used h hread
    rw [hwhole, ← Frame.walk_tail_end hw]
    exact ⟨Nat.le_trans hfirst hused,
      (hanswers.map _).behind hpassed (readAt_readAlike hread) hfirst hused, hnext⟩

/-! ## Runs of frames -/

/-- From the start of a run that goes on to the end of the log, its records are collected. -/
theorem collectFrom_serves (address : Nat) (rs : Reading) {log : Bytes} {start : Int}
    {xs : List Bytes} (h : rs.Sees log) (hs : rs.storage.Serves)
    (hlog : log.drop address = Frame.encodeRun start xs) (hx : Frame.Readable start xs) :
    (collectFrom address rs).1 = (Frame.recordsOf start address xs, none) := by
  generalize hr : collectFrom address rs = result
  obtain ⟨found, ts⟩ := result
  obtain ⟨-, hanswers, -⟩ := collectFrom_walk address rs h (Frame.walk_of_run hlog hx) hr
  exact whole_eq_ok_iff.1 (hanswers.1 (hs.not_faulted _))

/-! ## Any index -/

/-- Where a scan of the log can start: there it finds the rest of the records. -/
structure StartsAt (log : Bytes) (start : Nat) (rest : List Record) : Prop where
  walk : Frame.walk (log.drop start) start = (rest, none)
  ends : start + (Frame.framesOf rest).length = log.length

theorem startsAt_first (h : Frame.Laid log records) :
    StartsAt log Storage.firstAddress records := by
  have hwalk := Frame.walk_of_tiles h.framable h.tiles
  rw [h.frames] at hwalk
  exact ⟨hwalk, Frame.walk_end hwalk (Nat.zero_le _)⟩

theorem startsAt_record {before rest : List Record} {r : Record}
    (h : Frame.Laid log (before ++ r :: rest)) : StartsAt log r.address (r :: rest) := by
  have hwalk := Frame.walk_behind (startsAt_first h).walk
  have hinside := (Frame.length_of_decode (Frame.decode_of_walk hwalk)).2
  have hframe := r.lt_nextAddress
  unfold Record.nextAddress at hframe
  rw [List.length_drop] at hinside
  exact ⟨hwalk, Frame.walk_end hwalk (by omega)⟩

/-- A seek starts at the first record, or at one that does not lie behind the position. -/
theorem startFor_spec {ix : BlockIndex} (position : Int) (hlog : Frame.Laid log records)
    (hix : ix.PicksFrom records) :
    ∃ before rest, records = before ++ rest ∧
      StartsAt log (ix.startFor position Storage.firstAddress) rest ∧
      (before = [] ∨ ∃ r more, rest = r :: more ∧ r.position ≤ position) := by
  cases hl : ix.lookup position with
  | none =>
    rw [BlockIndex.startFor, hl]
    exact ⟨[], records, rfl, startsAt_first hlog, .inl rfl⟩
  | some e =>
    obtain ⟨hmem, hle⟩ := List.mem_filter.1 (List.mem_of_getLast? hl)
    obtain ⟨r, hr, rfl⟩ := hix e hmem
    obtain ⟨before, rest, rfl⟩ := List.append_of_mem hr
    rw [BlockIndex.startFor, hl]
    exact ⟨before, r :: rest, rfl, startsAt_record hlog, .inr ⟨r, rest, rfl, by simpa using hle⟩⟩

/-- At rising positions, what a seek leaves out lies before the position. -/
theorem firstFrom_rest {before rest : List Record} {position : Int}
    (h : (before ++ rest).Pairwise (·.position < ·.position))
    (hstart : before = [] ∨ ∃ r more, rest = r :: more ∧ r.position ≤ position) :
    firstFrom position rest = firstFrom position (before ++ rest) := by
  rcases hstart with rfl | ⟨r, more, rfl, hle⟩
  · rfl
  · have hnone : before.find? (position ≤ ·.position) = none := by
      rw [List.find?_eq_none]
      intro s hs
      have hrises := (List.pairwise_append.1 h).2.2 s hs r List.mem_cons_self
      simp only [decide_eq_true_eq]
      omega
    rw [firstFrom, firstFrom, List.find?_append, hnone, Option.none_or]

/-- Positions that do not fall: if a record before the start of a seek has the position, so has the
one at the start. -/
theorem exists_mem_rest {before rest : List Record} {position : Int}
    (h : (before ++ rest).Pairwise (·.position ≤ ·.position))
    (hstart : before = [] ∨ ∃ r more, rest = r :: more ∧ r.position ≤ position) :
    (∃ r ∈ rest, r.position = position) ↔ ∃ r ∈ before ++ rest, r.position = position := by
  constructor
  · rintro ⟨r, hr, hposition⟩
    exact ⟨r, List.mem_append_right _ hr, hposition⟩
  · rintro ⟨s, hs, hposition⟩
    rcases hstart with rfl | ⟨r, more, rfl, hle⟩
    · exact ⟨s, hs, hposition⟩
    · rcases List.mem_append.1 hs with hbefore | hrest
      · have := (List.pairwise_append.1 h).2.2 s hbefore r List.mem_cons_self
        exact ⟨r, List.mem_cons_self, by omega⟩
      · exact ⟨s, hrest, hposition⟩

theorem lastStart_spec {ix : BlockIndex} (hlog : Frame.Laid log records)
    (hix : ix.PicksFrom records) :
    ∃ rest, StartsAt log (ix.lastStart Storage.firstAddress) rest ∧
      rest.getLast? = records.getLast? := by
  cases hl : ix.last? with
  | none =>
    rw [BlockIndex.lastStart, hl]
    exact ⟨records, startsAt_first hlog, rfl⟩
  | some e =>
    obtain ⟨r, hr, rfl⟩ := hix e (List.mem_of_getLast? hl)
    obtain ⟨before, rest, rfl⟩ := List.append_of_mem hr
    rw [BlockIndex.lastStart, hl]
    refine ⟨r :: rest, startsAt_record hlog, ?_⟩
    rw [List.getLast?_append, List.getLast?_eq_some_getLast (List.cons_ne_nil r rest),
      Option.some_or]

/-- At rising positions, the first record that does not lie before a position is the one that has the
position, if there is one. -/
theorem firstFrom_filter (position : Int) (h : records.Pairwise (·.position < ·.position)) :
    (firstFrom position records).filter (·.position == position)
      = records.find? (·.position == position) := by
  induction records with
  | nil => rfl
  | cons r rest ih =>
    obtain ⟨hfirst, hrest⟩ := List.pairwise_cons.1 h
    by_cases hlt : r.position < position
    · rw [firstFrom, List.find?_cons_of_neg (by simpa using hlt),
        List.find?_cons_of_neg (by simp only [beq_iff_eq]; omega)]
      exact ih hrest
    · rw [firstFrom, List.find?_cons_of_pos (by simpa using hlt)]
      by_cases heq : r.position = position
      · rw [List.find?_cons_of_pos (by simpa using heq), Option.filter_some, if_pos (by simpa using heq)]
      · have hnone : rest.find? (·.position == position) = none := by
          rw [List.find?_eq_none]
          intro s hs
          have := hfirst s hs
          simp only [beq_iff_eq]
          omega
        rw [List.find?_cons_of_neg (by simpa using heq), hnone, Option.filter_some,
          if_neg (by simpa using heq)]

/-- How a reader finds its way in the log of some records: the index does not show. -/
structure SeeksExactly (rs : Reading) (records : List Record) (ix : BlockIndex) (position : Int) :
    Prop where
  seek : ∀ answer ts, (seek ix position).run rs = (answer, ts) →
    rs.Answers ts answer (decide (∃ r ∈ records, r.position = position)) ∧
      ∀ found, answer = .ok found → ts.reader.next
        = ((firstFrom position records).map Record.address).getD rs.storage.stored.length
  findAddress : ∀ answer ts, (findAddress ix position).run rs = (answer, ts) →
    rs.Answers ts answer ((records.find? (·.position == position)).map Record.address)
  readLast : ∀ answer ts, (readLast ix).run rs = (answer, ts) →
    rs.Answers ts answer records.getLast? ∧
      ∀ found, answer = .ok found → ts.reader.next = rs.storage.stored.length

/-- Positions that do not fall: the first record that does not lie before a position has the position
if any record has it. -/
theorem any_firstFrom (position : Int) (h : records.Pairwise (·.position ≤ ·.position)) :
    (firstFrom position records).any (·.position == position)
      = decide (∃ r ∈ records, r.position = position) := by
  induction records with
  | nil => rfl
  | cons r rest ih =>
    obtain ⟨hfirst, hrest⟩ := List.pairwise_cons.1 h
    by_cases hlt : r.position < position
    · have hne : r.position ≠ position := by omega
      rw [firstFrom, List.find?_cons_of_neg (by simpa using hlt)]
      refine (ih hrest).trans ?_
      simp [hne]
    · rw [firstFrom, List.find?_cons_of_pos (by simpa using hlt), Option.any_some,
        Bool.eq_iff_iff, decide_eq_true_iff, beq_iff_eq]
      constructor
      · intro heq
        exact ⟨r, List.mem_cons_self, heq⟩
      · rintro ⟨s, hs, hposition⟩
        rcases List.mem_cons.1 hs with rfl | hs
        · exact hposition
        · have := hfirst s hs
          omega

theorem some_getD_of_any (found : Option α) (p : α → Bool) (f : α → β) (other : β) :
    (if found.any p then some ((found.map f).getD other) else none) = (found.filter p).map f := by
  cases found with
  | none => rfl
  | some a =>
    rw [Option.filter_some, Option.any_some]
    split <;> rfl

theorem findAddress_of_seek {ix : BlockIndex} {position : Int}
    {answer : Except LogError (Option Nat)} (hr : (findAddress ix position).run rs = (answer, ts)) :
    ∃ sought us, (seek ix position).run rs = (sought, us) ∧ ts = us ∧
      answer = sought.map fun found => if found then some us.reader.next else none := by
  rw [findAddress, Attempt.run_bind] at hr
  generalize (seek ix position).run rs = result at hr
  obtain ⟨sought, us⟩ := result
  cases sought with
  | error e =>
    simp only [Prod.mk.injEq] at hr
    exact ⟨_, us, rfl, hr.2.symm, hr.1.symm⟩
  | ok found =>
    cases found with
    | false =>
      obtain ⟨rfl, rfl⟩ : .ok none = answer ∧ us = ts := by simpa using hr
      exact ⟨_, us, rfl, rfl, rfl⟩
    | true =>
      obtain ⟨rfl, rfl⟩ : .ok (some us.reader.next) = answer ∧ us = ts := by
        simpa [Attempt.run_bind] using hr
      exact ⟨_, us, rfl, rfl, rfl⟩

/-- After a seek, the reader is where the record it found lies. -/
theorem Answers.place {position : Int} {sought : Except LogError Bool} {first : Option Record}
    {other : Nat} (h : rs.Answers ts sought (first.any (·.position == position)))
    (hnext : ∀ found, sought = .ok found →
      ts.reader.next = (first.map Record.address).getD other) :
    rs.Answers ts (sought.map fun found => if found then some ts.reader.next else none)
      ((first.filter (·.position == position)).map Record.address) := by
  cases sought with
  | error e => exact h.of_error _
  | ok found =>
    obtain ⟨hpassed, rfl⟩ := h.of_ok
    rw [Except.map, hnext _ rfl, some_getD_of_any]
    exact answers_ok hpassed _

/-- Where positions do not fall, a position is found if a record has it. -/
theorem Sees.seek {ix : BlockIndex} {position : Int} {answer : Except LogError Bool}
    (h : rs.Sees log) (hlog : Frame.Laid log records)
    (hsorted : records.Pairwise (·.position ≤ ·.position)) (hix : ix.PicksFrom records)
    (hr : (Reading.seek ix position).run rs = (answer, ts)) :
    rs.Answers ts answer (decide (∃ r ∈ records, r.position = position)) := by
  obtain ⟨before, rest, rfl, hstart, hfloor⟩ := startFor_spec position hlog hix
  obtain ⟨-, hanswers, -⟩ := seekFrom_walk position _ rs h hstart.walk hr
  rw [any_firstFrom position (List.pairwise_append.1 hsorted).2.1] at hanswers
  rw [← decide_eq_decide.2 (exists_mem_rest hsorted hfloor)]
  exact hanswers

/-- Where positions do not fall, a record is found for a position if there is one. -/
theorem Sees.findAddress {ix : BlockIndex} {position : Int} {answer : Except LogError (Option Nat)}
    (h : rs.Sees log) (hlog : Frame.Laid log records)
    (hsorted : records.Pairwise (·.position ≤ ·.position)) (hix : ix.PicksFrom records)
    (hr : (Reading.findAddress ix position).run rs = (answer, ts)) :
    ∃ place, rs.Answers ts answer place ∧
      (place.isSome = true ↔ ∃ r ∈ records, r.position = position) ∧
      ∀ address, place = some address → ∃ r ∈ records, r.position = position ∧ r.address = address := by
  obtain ⟨before, rest, rfl, hstart, hfloor⟩ := startFor_spec position hlog hix
  obtain ⟨sought, us, hsought, rfl, rfl⟩ := findAddress_of_seek hr
  obtain ⟨-, hanswers, hnext⟩ := seekFrom_walk position _ rs h hstart.walk hsought
  have hany := any_firstFrom position (List.pairwise_append.1 hsorted).2.1
  refine ⟨((firstFrom position rest).filter (·.position == position)).map Record.address,
    hanswers.place hnext, ?_, ?_⟩
  · rw [Option.isSome_map, Option.isSome_filter, hany, decide_eq_true_iff]
    exact exists_mem_rest hsorted hfloor
  · intro address hplace
    obtain ⟨r, hr, rfl⟩ := Option.map_eq_some_iff.1 hplace
    obtain ⟨hfirst, hposition⟩ := Option.filter_eq_some_iff.1 hr
    exact ⟨r, List.mem_append_right _ (List.mem_of_find?_eq_some hfirst), by simpa using hposition, rfl⟩

theorem Sees.seeksExactly {ix : BlockIndex} (h : rs.Sees log) (hlog : Frame.Ordered log records)
    (hix : ix.PicksFrom records) (position : Int) : rs.SeeksExactly records ix position := by
  obtain ⟨before, rest, hsplit, hstart, hfloor⟩ := startFor_spec position hlog.toLaid hix
  have hfirst : firstFrom position rest = firstFrom position records := by
    rw [hsplit]
    exact firstFrom_rest (hsplit ▸ hlog.rising) hfloor
  have hseek : ∀ answer ts, (Reading.seek ix position).run rs = (answer, ts) →
      rs.Answers ts answer ((firstFrom position records).any (·.position == position)) ∧
        ∀ found, answer = .ok found → ts.reader.next
          = ((firstFrom position records).map Record.address).getD rs.storage.stored.length := by
    intro answer ts hr
    obtain ⟨-, hanswers, hnext⟩ := seekFrom_walk position _ rs h hstart.walk hr
    rw [hfirst, hstart.ends] at hnext
    rw [h.stored, ← hfirst]
    exact ⟨hanswers, hfirst ▸ hnext⟩
  refine ⟨fun answer ts hr => ?_, fun answer ts hr => ?_, fun answer ts hr => ?_⟩
  · rw [← any_firstFrom position (hlog.rising.imp Int.le_of_lt)]
    exact hseek answer ts hr
  · obtain ⟨sought, us, hsought, rfl, rfl⟩ := findAddress_of_seek hr
    obtain ⟨hanswers, hnext⟩ := hseek sought ts hsought
    rw [← firstFrom_filter position hlog.rising]
    exact hanswers.place hnext
  · obtain ⟨rest, hlast, hsame⟩ := lastStart_spec hlog.toLaid hix
    unfold Attempt.run readLast at hr
    generalize hcollect : collectFrom (ix.lastStart Storage.firstAddress) rs = result at hr
    obtain ⟨⟨collected, stop⟩, us⟩ := result
    obtain ⟨-, hanswers, hnext⟩ := collectFrom_walk _ rs h hlast.walk hcollect
    rw [h.stored, ← hlast.ends, ← hsame]
    cases stop with
    | none =>
      simp only [Prod.mk.injEq] at hr
      obtain ⟨rfl, rfl⟩ := hr
      exact ⟨hanswers.map List.getLast?, fun _ _ => hnext rfl⟩
    | some e =>
      simp only [Prod.mk.injEq] at hr
      obtain ⟨rfl, rfl⟩ := hr
      exact ⟨hanswers.of_error _, by simp⟩

/-- Whatever a reader did before and whichever records its index picks, it finds every position. -/
theorem seeks_exactly (s : Storage) (size : Nat) (moves : List Move) (hs : s.Sound) {rs : Reading}
    (hrs : rs = after ⟨.ofWindow size, s⟩ moves) {records : List Record}
    (hlog : Frame.Ordered rs.storage.stored records) {ix : BlockIndex} (hix : ix.PicksFrom records)
    (position : Int) : rs.SeeksExactly records ix position := by
  obtain ⟨more, hsees⟩ := (Sees.ofWindow hs size).after moves
  rw [← hrs] at hsees
  rw [hsees.stored] at hlog
  exact hsees.seeksExactly hlog hix position

/-- An empty record between two others, with gaps between the positions. -/
def gappedRecords : List Record := [⟨-5, 0, [1]⟩, ⟨2, 17, []⟩, ⟨9, 33, [3, 4]⟩]

/-- The storage of these records. Its first read is told to fail. -/
def gappedLog : Storage where
  medium := .memory true (Frame.framesOf gappedRecords) 0
  faults := FaultPlan.none.set .read (.failFirst 1)

def gappedIndex : BlockIndex := ⟨[⟨2, 17⟩], by simp⟩

def gappedMoves : List Move := [.seek .empty 2, .readLast .empty, .moveTo 7]

theorem seeks_exactly_gapped :
    gappedLog.Sound ∧ ∃ rs, rs = after ⟨.ofWindow 16, gappedLog⟩ gappedMoves ∧
      Frame.Ordered rs.storage.stored gappedRecords ∧ gappedIndex.PicksFrom gappedRecords ∧
      ((seek gappedIndex 3).run rs).1.toOption = some false ∧
      ((seek gappedIndex 3).run rs).2.reader.next = 33 ∧
      rs.SeeksExactly gappedRecords gappedIndex 3 := by
  have hstored : (after ⟨.ofWindow 16, gappedLog⟩ gappedMoves).storage.stored
      = Frame.framesOf gappedRecords := by decide +kernel
  have hlog : Frame.Ordered (after ⟨.ofWindow 16, gappedLog⟩ gappedMoves).storage.stored
      gappedRecords := by
    have hlength : (Frame.framesOf gappedRecords).length = 51 := by decide +kernel
    rw [hstored]
    refine ⟨⟨?_, ?_, rfl⟩, by decide⟩
    · simp [Frame.AllFramable, Frame.Framable, gappedRecords]
    · rw [hlength]
      exact ⟨rfl, rfl, rfl, rfl⟩
  have hix : gappedIndex.PicksFrom gappedRecords := by
    unfold BlockIndex.PicksFrom
    decide
  exact ⟨trivial, _, rfl, hlog, hix, by decide +kernel, by decide +kernel,
    seeks_exactly gappedLog 16 gappedMoves trivial rfl hlog hix 3⟩

end Reading

end PartitionLog
