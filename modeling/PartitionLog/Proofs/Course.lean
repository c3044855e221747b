import PartitionLog.Proofs.Recovery
import PartitionLog.Proofs.Reopening
import PartitionLog.Proofs.Serving

/-!
# What a recovery comes to

`Scan.course` tells what a scan of some records comes to, without a reader, an index or an address. A
scan whose reads do not fail takes the course of the records that reading frame after frame gives
(`run_course`), as long as no entry of its index is ahead of it (`Trails`). Of what was found before,
the course depends on the last position only, so a scan that starts at a record inside the log comes
to the same as one from the beginning (`course_from_inside`), and so does one that starts at the last
of some entries that list records of the log (`run_from_entry`).
-/

namespace PartitionLog

/-- Equal but for the number of records that were read. -/
structure Recovered.Agrees (found other : Recovered) : Prop where
  next : found.nextPosition = other.nextPosition
  last : found.lastPosition = other.lastPosition
  truncated : found.truncatedTail = other.truncatedTail

theorem Recovered.Agrees.refl (found : Recovered) : found.Agrees found := ⟨rfl, rfl, rfl⟩

theorem Recovered.Agrees.symm {found other : Recovered} (h : found.Agrees other) :
    other.Agrees found := ⟨h.next.symm, h.last.symm, h.truncated.symm⟩

theorem Recovered.Agrees.trans {found middle other : Recovered} (h : found.Agrees middle)
    (hm : middle.Agrees other) : found.Agrees other :=
  ⟨h.next.trans hm.next, h.last.trans hm.last, h.truncated.trans hm.truncated⟩

theorem Recovered.Agrees.add {found other : Recovered}
    (h : found.truncatedTail = other.truncatedTail) (r : Record) :
    (found.add r).Agrees (other.add r) := ⟨rfl, rfl, h⟩

namespace Frame

variable {log : Bytes} {address : Nat} {r : Record}

/-- Damage that ends a walk is not in front of where it began. -/
theorem le_of_walk_stop {src : Bytes} {address bad : Nat} {damage : Damage}
    (h : (walk src address).2 = some (.corruption bad damage)) : address ≤ bad := by
  fun_induction walk src address with
  | case1 => simp at h
  | case2 src address e hd =>
    obtain ⟨other, rfl⟩ := decode_error hd
    simp only [Option.some.injEq, LogError.corruption.injEq] at h
    omega
  | case3 src address r hd records stop hwalk ih =>
    rw [hwalk] at ih
    have hle := ih h
    have hlt := r.lt_nextAddress
    have ha := (length_of_decode hd).1
    omega

/-- Behind a run that the log begins with, the walk goes on with what follows it. -/
theorem walk_past {payloads : List Bytes} {rest : Bytes} (hlog : log = encodeRun 0 payloads ++ rest)
    (h : Readable 0 payloads) :
    walk (log.drop 0) 0 = (recordsOf 0 0 payloads
        ++ (walk (log.drop (encodeRun 0 payloads).length) (encodeRun 0 payloads).length).1,
      (walk (log.drop (encodeRun 0 payloads).length) (encodeRun 0 payloads).length).2) := by
  rw [hlog, List.drop_left, List.drop_zero, walk_encodeRun h, Nat.zero_add]

/-- What lies behind the first frames of a run. -/
theorem drop_run (position : Int) (before after : List Bytes) (tail : Bytes) :
    (encodeRun position (before ++ after) ++ tail).drop (encodeRun position before).length
      = encodeRun (position + span before) after ++ tail := by
  rw [encodeRun_append, List.append_assoc, List.drop_left]

/-- The record that lies behind the first frames of a run. -/
theorem decode_inside {before rest : List Bytes} {x tail : Bytes}
    (hlog : log = encodeRun 0 (before ++ x :: rest) ++ tail)
    (hr : Readable 0 (before ++ x :: rest)) :
    decode (log.drop (encodeRun 0 before).length) (encodeRun 0 before).length
      = .ok (some ⟨span before, (encodeRun 0 before).length, x⟩) := by
  obtain ⟨-, hrest⟩ := readable_append.1 hr
  rw [hlog, drop_run, decode_run hrest (List.prefix_append ..), Int.zero_add]

end Frame

/-- A listed entry is the place of a record with records before it. -/
theorem BlockIndex.Lists.inside {ix : BlockIndex} {payloads : List Bytes} (h : ix.Lists payloads)
    {e : IndexEntry} (he : e ∈ ix.entries) :
    ∃ before x rest, payloads = before ++ x :: rest ∧
      e = ⟨Frame.span before, (Frame.encodeRun 0 before).length⟩ := by
  obtain ⟨r, hr, hposition, haddress⟩ := h e he
  obtain ⟨before, x, rest, rfl, rfl⟩ := Frame.exists_split_of_mem hr
  simp only [Int.zero_add, Nat.zero_add] at hposition haddress
  exact ⟨before, x, rest, rfl, by rw [hposition, haddress]⟩

/-! ## Courses of a scan -/

/-- The record can follow the last entry, or is its record. -/
def BlockIndex.Trails (ix : BlockIndex) (r : Record) : Prop :=
  ∀ last, ix.last? = some last → last = ⟨r.position, r.address⟩ ∨
    (last.position ≤ r.position ∧ last.address < r.address)

/-- The record at the last entry follows it. -/
theorem BlockIndex.trails_of_names {ix : BlockIndex} {log : Bytes} {r : Record}
    (h : ∀ last, ix.last? = some last → last.Names log)
    (hd : Frame.decode (log.drop (ix.lastStart Storage.firstAddress))
      (ix.lastStart Storage.firstAddress) = .ok (some r)) : ix.Trails r := by
  intro last hl
  have hstart : ix.lastStart Storage.firstAddress = last.address := by
    rw [lastStart, hl]
    rfl
  obtain ⟨s, hs, hposition⟩ := h last hl
  rw [hstart] at hd
  have haddress := (Frame.length_of_decode hd).1
  rw [hs] at hd
  simp only [Except.ok.injEq, Option.some.injEq] at hd
  subst hd
  exact .inl (by rw [hposition, haddress])

/-- A scan from the last of some listed entries starts at the beginning or at a record. -/
theorem BlockIndex.Lists.lastStart {ix : BlockIndex} {payloads : List Bytes}
    (h : ix.Lists payloads) : ix.lastStart Storage.firstAddress = 0 ∨
      ∃ before x rest, payloads = before ++ x :: rest ∧
        ix.lastStart Storage.firstAddress = (Frame.encodeRun 0 before).length := by
  unfold BlockIndex.lastStart
  cases hl : ix.last? with
  | none => exact .inl rfl
  | some last =>
    obtain ⟨before, x, rest, hsplit, rfl⟩ := h.inside (List.mem_of_getLast? hl)
    exact .inr ⟨before, x, rest, hsplit, rfl⟩

/-- The last of some entries that list records names one. -/
theorem BlockIndex.Lists.names {ix : BlockIndex} {payloads : List Bytes} {log tail : Bytes}
    (h : ix.Lists payloads) (hlog : log = Frame.encodeRun 0 payloads ++ tail)
    (hr : Frame.Readable 0 payloads) : ∀ last, ix.last? = some last → last.Names log := by
  intro last hl
  obtain ⟨before, x, rest, rfl, rfl⟩ := h.inside (List.mem_of_getLast? hl)
  exact ⟨_, Frame.decode_inside hlog hr, rfl⟩

namespace Scan

/-- What a scan of records comes to, if `stop` is what ends them. -/
def course (stop : Option LogError) : List Record → Recovered →
    Except LogError (Option (Nat × Damage)) × Recovered
  | [], found =>
    (match stop with
      | none => .ok none
      | some (.corruption bad damage) => .ok (some (bad, damage))
      | some e => .error e, found)
  | r :: rest, found =>
    if Breaks found r then
      (.error (.corruption r.address (.outOfSequence r.position found.nextPosition)), found)
    else course stop rest (found.add r)

/-- The course of a scan of `log` from `address` on. -/
def courseAt (log : Bytes) (address : Nat) (found : Recovered) :
    Except LogError (Option (Nat × Damage)) × Recovered :=
  course (Frame.walk (log.drop address) address).2 (Frame.walk (log.drop address) address).1 found

variable {log : Bytes} {address : Nat} {found other : Recovered} {r : Record}

theorem breaks_congr (h : found.Agrees other) : Breaks found r ↔ Breaks other r := by
  unfold Breaks
  rw [h.next, h.last]

theorem course_agrees (stop : Option LogError) (records : List Record) (h : found.Agrees other) :
    (course stop records found).1 = (course stop records other).1 ∧
      (course stop records found).2.Agrees (course stop records other).2 := by
  induction records generalizing found other with
  | nil => exact ⟨rfl, h⟩
  | cons r rest ih =>
    unfold course
    by_cases hb : Breaks found r
    · rw [if_pos hb, if_pos ((breaks_congr h).1 hb), h.next]
      exact ⟨rfl, h⟩
    · rw [if_neg hb, if_neg fun hc => hb ((breaks_congr h).2 hc)]
      exact ih (.add h.truncated r)

theorem course_append (stop : Option LogError) (records more : List Record) (found : Recovered) :
    course stop (records ++ more) found
      = match course none records found with
        | (.error e, f) => (.error e, f)
        | (.ok _, f) => course stop more f := by
  induction records generalizing found with
  | nil => rfl
  | cons r rest ih =>
    rw [List.cons_append, course, course]
    split
    · rfl
    · exact ih _

/-- Whether the scan can take a record at `position` next. -/
def Awaits (found : Recovered) (position : Int) : Prop :=
  found.lastPosition = none ∨ found.nextPosition = position

theorem awaits_start (position : Int) : Awaits {} position := .inl rfl

theorem Awaits.not_breaks (h : Awaits found r.position) : ¬ Breaks found r := by
  rintro ⟨hsome, hne⟩
  rcases h with hnone | hnext
  · rw [hnone] at hsome
    exact absurd hsome (by simp)
  · exact hne hnext.symm

/-- Over a run of frames the scan goes on to its end. -/
theorem course_run (address : Nat) {position : Int} (payloads : List Bytes)
    (h : Awaits found position) :
    (course none (Frame.recordsOf position address payloads) found).1 = .ok none ∧
      Awaits (course none (Frame.recordsOf position address payloads) found).2
        (position + Frame.span payloads) ∧
      (course none (Frame.recordsOf position address payloads) found).2.truncatedTail
        = found.truncatedTail := by
  induction payloads generalizing position address found with
  | nil => exact ⟨rfl, by simpa [course, Frame.recordsOf] using h, rfl⟩
  | cons x rest ih =>
    have hfirst : ¬ Breaks found ⟨position, address, x⟩ := Awaits.not_breaks h
    have hnext : Awaits (found.add ⟨position, address, x⟩) (position + x.length) := .inr rfl
    rw [Frame.recordsOf, course, if_neg hfirst]
    obtain ⟨hok, hawaits, htail⟩ := ih (address + Frame.lengthFor x.length) hnext
    refine ⟨hok, ?_, htail⟩
    rw [Frame.span_cons, Int.natCast_add, ← Int.add_assoc]
    exact hawaits

theorem courseAt_of_end (h : log.drop address = []) (found : Recovered) :
    courseAt log address found = (.ok none, found) := by
  rw [courseAt, h, Frame.walk_nil]
  rfl

theorem courseAt_of_damage {bad : Nat} {damage : Damage}
    (h : Frame.decode (log.drop address) address = .error (.corruption bad damage))
    (found : Recovered) : courseAt log address found = (.ok (some (bad, damage)), found) := by
  rw [courseAt, Frame.walk_eq_nil h]
  rfl

theorem courseAt_of_record (h : Frame.decode (log.drop address) address = .ok (some r))
    (found : Recovered) :
    courseAt log address found = if Breaks found r then
      (.error (.corruption r.address (.outOfSequence r.position found.nextPosition)), found)
    else courseAt log r.nextAddress (found.add r) := by
  rw [courseAt, Frame.walk_of_decode h]
  rfl

/-- Damage that a scan comes to is what ends the records. -/
theorem course_stop {stop : Option LogError} {records : List Record} {bad : Nat} {damage : Damage}
    (h : (course stop records found).1 = .ok (some (bad, damage))) :
    stop = some (.corruption bad damage) := by
  induction records generalizing found with
  | nil =>
    unfold course at h
    dsimp only at h
    split at h
    · simp at h
    · simp only [Except.ok.injEq, Option.some.injEq, Prod.mk.injEq] at h
      rw [h.1, h.2]
    · simp at h
  | cons r rest ih =>
    unfold course at h
    split at h
    · simp at h
    · exact ih h

/-- Damage lies behind a record that the scan starts at. -/
theorem lt_of_courseAt {bad : Nat} {damage : Damage}
    (hd : Frame.decode (log.drop address) address = .ok (some r))
    (h : (courseAt log address found).1 = .ok (some (bad, damage))) : address < bad := by
  have hstop := course_stop h
  rw [Frame.walk_of_decode hd] at hstop
  have hle := Frame.le_of_walk_stop hstop
  have hlt := r.lt_nextAddress
  have ha := (Frame.length_of_decode hd).1
  omega

/-- Behind a run that the log begins with, a scan goes on with what it found in the run. -/
theorem courseAt_behind {payloads : List Bytes} {rest : Bytes}
    (hlog : log = Frame.encodeRun 0 payloads ++ rest) (hr : Frame.Readable 0 payloads) :
    courseAt log 0 {} = courseAt log (Frame.encodeRun 0 payloads).length
      (course none (Frame.recordsOf 0 0 payloads) {}).2 := by
  obtain ⟨hok, -⟩ := course_run 0 payloads (awaits_start 0)
  rw [courseAt, Frame.walk_past hlog hr, course_append]
  generalize course none (Frame.recordsOf 0 0 payloads) {} = reached at hok
  obtain ⟨outcome, found⟩ := reached
  dsimp only at hok
  subst hok
  rfl

/-- Behind a run that the log begins with, a scan from the beginning can take what follows it. -/
theorem courseAt_past {payloads : List Bytes} {rest : Bytes}
    (hlog : log = Frame.encodeRun 0 payloads ++ rest) (hr : Frame.Readable 0 payloads) :
    ∃ found, courseAt log 0 {} = courseAt log (Frame.encodeRun 0 payloads).length found ∧
      Awaits found (Frame.span payloads) ∧ found.truncatedTail = false := by
  obtain ⟨-, hawaits, htail⟩ := course_run 0 payloads (awaits_start 0)
  rw [Int.zero_add] at hawaits
  exact ⟨_, courseAt_behind hlog hr, hawaits, htail⟩

/-- Over a log that is one run, a scan goes on to the end. -/
theorem courseAt_whole {payloads : List Bytes} (hlog : log = Frame.encodeRun 0 payloads)
    (hr : Frame.Readable 0 payloads) : (courseAt log 0 {}).1 = .ok none := by
  obtain ⟨found, hcourse, -⟩ := courseAt_past
    (show log = Frame.encodeRun 0 payloads ++ [] by rw [hlog, List.append_nil]) hr
  rw [hcourse, courseAt_of_end (by rw [hlog, List.drop_length])]

/-- A scan that starts at a record of the run comes to what one from the beginning comes to. -/
theorem course_from_inside {before rest : List Bytes} {x tail : Bytes}
    (hlog : log = Frame.encodeRun 0 (before ++ x :: rest) ++ tail)
    (hr : Frame.Readable 0 (before ++ x :: rest)) :
    (courseAt log (Frame.encodeRun 0 before).length {}).1 = (courseAt log 0 {}).1 ∧
      (courseAt log (Frame.encodeRun 0 before).length {}).2.Agrees (courseAt log 0 {}).2 := by
  obtain ⟨found, hcourse, hawaits, htail⟩ := courseAt_past
    (show log = Frame.encodeRun 0 before ++ (Frame.encodeRun (0 + Frame.span before) (x :: rest)
      ++ tail) by rw [hlog, Frame.encodeRun_append, List.append_assoc])
    (Frame.readable_append.1 hr).1
  have hd := Frame.decode_inside hlog hr
  -- behind the first record it reads, the scan knows no more than the one that came from the front
  rw [hcourse, courseAt_of_record hd, courseAt_of_record hd,
    if_neg (Awaits.not_breaks (awaits_start _)), if_neg (Awaits.not_breaks hawaits)]
  exact course_agrees _ _ (.add htail.symm _)

/-! ## Scans and their courses -/

/-- A record that the index trails gets its entry without a failure. -/
theorem sample_trails {ix : BlockIndex} (h : ix.Trails r) (threshold : Nat) (since : Option Nat) :
    ∃ after sinceAfter, sample threshold ix since r = .ok (after, sinceAfter) ∧
      ∀ last, after.last? = some last → last.position ≤ r.position ∧ last.address ≤ r.address := by
  have hlast : ∀ last, ix.last? = some last →
      last.position ≤ r.position ∧ last.address ≤ r.address := by
    intro last hl
    rcases h last hl with rfl | ⟨hp, ha⟩
    · exact ⟨Int.le_refl _, Nat.le_refl _⟩
    · exact ⟨hp, Nat.le_of_lt ha⟩
  unfold sample
  split
  · exact ⟨_, _, rfl, hlast⟩
  · next hother =>
    split
    · have hfollows : BlockIndex.Follows ix.entries ⟨r.position, r.address⟩ := by
        intro last hl
        have hne : last.position ≠ r.position := by
          intro heq
          exact hother (by rw [show ix.last? = some last from hl, Option.map_some, heq])
        rcases h last hl with rfl | ⟨hp, ha⟩
        · exact absurd rfl hne
        · exact ⟨by dsimp only; omega, ha⟩
      refine ⟨⟨ix.entries ++ [⟨r.position, r.address⟩], BlockIndex.sorted_append ix.sorted hfollows⟩,
        some r.frameLength, ?_, ?_⟩
      · rw [BlockIndex.append, dif_pos hfollows]
        rfl
      · intro last hl
        simp only [BlockIndex.last?, List.getLast?_append, List.getLast?_singleton,
          Option.some_or, Option.some.injEq] at hl
        subst hl
        exact ⟨Int.le_refl _, Nat.le_refl _⟩
    · exact ⟨_, _, rfl, hlast⟩

/-- What a scan leaves: its reads apart, only new entries, each the place of a record it read. -/
structure Passed (scan after : Scan) (log : Bytes) (address : Nat) : Prop where
  sees : after.reading.Sees log
  alike : scan.reading.storage.ReadAlike after.reading.storage
  longer : scan.index.entries <+: after.index.entries
  listed : ∀ e ∈ after.index.entries, e ∈ scan.index.entries ∨
    ∃ r ∈ (Frame.walk (log.drop address) address).1, r.position = e.position ∧ r.address = e.address

theorem Passed.of_read {scan : Scan} {reading : Reading} (hsees : reading.Sees log)
    (halike : scan.reading.storage.ReadAlike reading.storage) :
    scan.Passed { scan with reading := reading } log address :=
  ⟨hsees, halike, List.prefix_rfl, fun _ he => .inl he⟩

/-- A record was read and indexed before. -/
theorem Passed.of_step {scan after : Scan} {reading : Reading} {index : BlockIndex}
    {since : Option Nat} {threshold : Nat}
    (halike : scan.reading.storage.ReadAlike reading.storage)
    (hd : Frame.decode (log.drop address) address = .ok (some r))
    (hs : sample threshold scan.index scan.sinceEntry r = .ok (index, since))
    (h : Passed ⟨reading, index, since, scan.recovered.add r⟩ after log r.nextAddress) :
    scan.Passed after log address := by
  have hwalk := Frame.walk_of_decode hd
  refine ⟨h.sees, halike.trans h.alike, ?_, fun e he => ?_⟩
  · refine List.IsPrefix.trans ?_ h.longer
    rcases sample_ok hs with rfl | happ
    · exact List.prefix_rfl
    · rw [(BlockIndex.entries_append happ).1]
      exact List.prefix_append ..
  · rw [hwalk]
    rcases h.listed e he with hmem | ⟨s, hmem, hplace⟩
    · rcases sample_ok hs with rfl | happ
      · exact .inl hmem
      · rw [(BlockIndex.entries_append happ).1] at hmem
        rcases List.mem_append.1 hmem with hold | hnew
        · exact .inl hold
        · obtain rfl := List.mem_singleton.1 hnew
          exact .inr ⟨r, List.mem_cons_self, rfl, rfl⟩
    · exact .inr ⟨s, List.mem_cons_of_mem _ hmem, hplace⟩

/-- A scan takes its course, unless a read fails. -/
theorem run_course (threshold address : Nat) (scan : Scan) {after : Scan} {log : Bytes}
    {outcome : Except LogError (Option (Nat × Damage))} (h : scan.reading.Sees log)
    (htrails : ∀ r, Frame.decode (log.drop address) address = .ok (some r) →
      ¬ Breaks scan.recovered r → scan.index.Trails r)
    (hr : run threshold address scan = (outcome, after)) :
    scan.Passed after log address ∧ ((outcome, after.recovered) = courseAt log address scan.recovered ∨
      ((∃ e, outcome = .error e) ∧ ¬ scan.reading.storage.Serves)) := by
  fun_induction run threshold address scan with
  | case1 address scan bad damage reading hread =>
    simp only [Prod.mk.injEq] at hr
    obtain ⟨rfl, rfl⟩ := hr
    obtain ⟨hsees, hreads⟩ := Reading.readAt_spec h hread
    obtain ⟨rfl, hd⟩ := hreads.corruption
    exact ⟨.of_read hsees (Reading.readAt_readAlike hread), .inl (courseAt_of_damage hd _).symm⟩
  | case2 address scan e reading hother hread =>
    simp only [Prod.mk.injEq] at hr
    obtain ⟨rfl, rfl⟩ := hr
    refine ⟨.of_read (Reading.readAt_spec h hread).1 (Reading.readAt_readAlike hread),
      .inr ⟨⟨e, rfl⟩, fun hserves => ?_⟩⟩
    obtain ⟨damage, rfl⟩ := Frame.decode_error (Reading.readAt_serves h hserves hread).symm
    exact hother _ _ rfl
  | case3 address scan reading hread =>
    simp only [Prod.mk.injEq] at hr
    obtain ⟨rfl, rfl⟩ := hr
    obtain ⟨hsees, hreads⟩ := Reading.readAt_spec h hread
    exact ⟨.of_read hsees (Reading.readAt_readAlike hread),
      .inl (courseAt_of_end hreads.none _).symm⟩
  | case4 address scan r reading hread hbreaks =>
    simp only [Prod.mk.injEq] at hr
    obtain ⟨rfl, rfl⟩ := hr
    obtain ⟨hsees, hreads⟩ := Reading.readAt_spec h hread
    refine ⟨.of_read hsees (Reading.readAt_readAlike hread), .inl ?_⟩
    rw [courseAt_of_record hreads.some, if_pos hbreaks]
  | case5 address scan r reading hread hseq e hs =>
    obtain ⟨-, hreads⟩ := Reading.readAt_spec h hread
    obtain ⟨_, _, hok, -⟩ :=
      sample_trails (htrails r hreads.some hseq) threshold scan.sinceEntry
    rw [hok] at hs
    simp at hs
  | case6 address scan r reading hread hseq index since hs ih =>
    obtain ⟨hsees, hreads⟩ := Reading.readAt_spec h hread
    have hd := hreads.some
    have halike := Reading.readAt_readAlike hread
    obtain ⟨_, _, hok, hlast⟩ := sample_trails (htrails r hd hseq) threshold scan.sinceEntry
    rw [hs] at hok
    simp only [Except.ok.injEq, Prod.mk.injEq] at hok
    obtain ⟨rfl, rfl⟩ := hok
    -- the next record comes behind this one, and its position is not lower
    have hnext : ∀ s, Frame.decode (log.drop r.nextAddress) r.nextAddress = .ok (some s) →
        ¬ Breaks (scan.recovered.add r) s → index.Trails s := by
      intro s hsd hns last hl
      obtain ⟨hp, ha⟩ := hlast last hl
      have haddress := (Frame.length_of_decode hsd).1
      have hlt := r.lt_nextAddress
      simp only [Breaks, Recovered.add, Option.isSome_some, true_and, Decidable.not_not] at hns
      refine .inr ⟨?_, by omega⟩
      rw [hns, Record.nextPosition]
      omega
    obtain ⟨hpassed, hcourse⟩ := ih hsees hnext hr
    refine ⟨hpassed.of_step halike hd hs, hcourse.imp (fun heq => ?_) (And.imp_right fun hno hserves =>
      hno (halike.serves hserves))⟩
    rw [courseAt_of_record hd, if_neg hseq]
    exact heq

/-- What is read from a record of a run on is read from the beginning on as well. -/
theorem Passed.from_start {scan after : Scan} {before : List Bytes} {rest : Bytes}
    (hlog : log = Frame.encodeRun 0 before ++ rest) (hr : Frame.Readable 0 before)
    (h : scan.Passed after log (Frame.encodeRun 0 before).length) : scan.Passed after log 0 where
  sees := h.sees
  alike := h.alike
  longer := h.longer
  listed := by
    intro e he
    refine (h.listed e he).imp_right ?_
    rintro ⟨r, hmem, hplace⟩
    rw [Frame.walk_past hlog hr]
    exact ⟨r, List.mem_append_right _ hmem, hplace⟩

/-- A scan from the last entry comes to what one from the beginning comes to, if the entries list
records of the log. -/
theorem run_from_entry (threshold : Nat) (scan : Scan) {after : Scan} {payloads : List Bytes}
    {tail : Bytes} {outcome : Except LogError (Option (Nat × Damage))} (h : scan.reading.Sees log)
    (hfresh : scan.recovered = {}) (hlog : log = Frame.encodeRun 0 payloads ++ tail)
    (hreadable : Frame.Readable 0 payloads) (hlists : scan.index.Lists payloads)
    (hr : run threshold (scan.index.lastStart Storage.firstAddress) scan = (outcome, after)) :
    scan.Passed after log 0 ∧
      ((outcome = (courseAt log 0 {}).1 ∧ after.recovered.Agrees (courseAt log 0 {}).2) ∨
        ((∃ e, outcome = .error e) ∧ ¬ scan.reading.storage.Serves)) := by
  have hnames := hlists.names hlog hreadable
  obtain ⟨hpassed, hcourse⟩ := run_course _ _ _ h
    (fun r hd _ => BlockIndex.trails_of_names hnames hd) hr
  rw [hfresh] at hcourse
  obtain hstart | ⟨before, x, rest, rfl, hstart⟩ := hlists.lastStart
  · rw [hstart] at hpassed hcourse
    refine ⟨hpassed, hcourse.imp_left fun heq => ?_⟩
    rw [← heq]
    exact ⟨rfl, .refl _⟩
  · rw [hstart] at hpassed hcourse
    have hsplit : log = Frame.encodeRun 0 before
        ++ (Frame.encodeRun (0 + Frame.span before) (x :: rest) ++ tail) := by
      rw [hlog, Frame.encodeRun_append, List.append_assoc]
    refine ⟨hpassed.from_start hsplit (Frame.readable_append.1 hreadable).1,
      hcourse.imp_left fun heq => ?_⟩
    obtain ⟨hsame, hagree⟩ := course_from_inside hlog hreadable
    rw [← heq] at hsame hagree
    exact ⟨hsame, hagree⟩

end Scan

end PartitionLog
