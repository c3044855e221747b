import PartitionLog.Proofs.Seeking

/-!
# Reading a log that was cut

A cut through a frame leaves too few bytes for its header or its payload, and reading it tells so
(`decode_cut`). So a walk through what is left finds the records in front of the cut and stops where
the frame starts that was cut (`walk_cut`). A reader that is called for one record after the other
follows such a walk, however its window takes the log apart: it answers the records of the walk, and
from then on why the walk stops (`answers_walk`). A call for which the storage fails is made in vain,
and no more than that.
-/

namespace PartitionLog

namespace Frame

variable {position : Int} {payload : Bytes} {address last n : Nat} {r : Record}
  {records : List Record}

/-- What is wrong with the frame of a payload if only its first `n` bytes are there. -/
def damageOfCut (payload : Bytes) (n : Nat) : Damage :=
  if n < headerLength then .partialHeader n
  else .partialPayload payload.length (n - headerLength)

theorem decode_cut (position : Int) (hshort : payload.length < 2 ^ 32) (hpos : 0 < n)
    (hcut : n < lengthFor payload.length) (address : Nat) :
    decode ((encode position payload).take n) address
      = .error (.corruption address (damageOfCut payload n)) := by
  have hlength : ((encode position payload).take n).length = n := by
    rw [List.length_take, length_encode]
    omega
  have hsome : ((encode position payload).take n).isEmpty = false := by
    rw [List.isEmpty_eq_false_iff, ← List.length_pos_iff, hlength]
    exact hpos
  unfold decode damageOfCut
  rw [hsome, if_neg Bool.false_ne_true, hlength]
  split
  · rfl
  · next hheader =>
    have hfield : lengthField ((encode position payload).take n) = payload.length := by
      have hwhole := lengthField_encode position payload [] hshort
      rw [List.append_nil] at hwhole
      rw [lengthField, Bytes.slice_take (by unfold headerLength at hheader; omega)]
      exact hwhole
    rw [hfield, if_pos hcut]

/-! ## The records in front of a cut -/

/-- The records whose frames end at or before `n`. -/
def wholeBefore (n : Nat) (records : List Record) : List Record :=
  records.filter (·.nextAddress ≤ n)

/-- The record through whose frame a cut at `n` goes. -/
def cutThrough (n : Nat) (records : List Record) : Option Record :=
  records.find? fun r => r.address < n ∧ n < r.nextAddress

/-- What is read behind the whole records of a log that is cut at `n`: its end, if it is cut between
two frames, and else that the frame is damaged through which it is cut. -/
def endOfCut (n : Nat) (records : List Record) : Except LogError (Option Record) :=
  match cutThrough n records with
  | none => .ok none
  | some r => .error (.corruption r.address (damageOfCut r.payload (n - r.address)))

theorem Tiles.address_le (h : Tiles address last records) (hr : r ∈ records) :
    address ≤ r.address := by
  induction records generalizing address with
  | nil => simp at hr
  | cons s rest ih =>
    obtain ⟨rfl, hrest⟩ := h
    rcases List.mem_cons.1 hr with rfl | hr
    · exact Nat.le_refl _
    · have := s.lt_nextAddress
      have := ih hrest hr
      omega

/-- Nothing is left of records that lie behind a cut. -/
theorem wholeBefore_of_le (h : Tiles address last records) (hn : n ≤ address) :
    wholeBefore n records = [] ∧ cutThrough n records = none := by
  constructor
  · rw [wholeBefore, List.filter_eq_nil_iff]
    intro r hr
    have := h.address_le hr
    have := r.lt_nextAddress
    simp only [decide_eq_true_eq]
    omega
  · rw [cutThrough, List.find?_eq_none]
    intro r hr
    have := h.address_le hr
    simp only [decide_eq_true_eq]
    omega

/-- Induction on the records: the cut lies behind the first frame, in front of it, or in it. -/
theorem walk_cut (hf : AllFramable records) (ht : Tiles address last records) (n : Nat) :
    ∃ stop, walk ((framesOf records).take n) address = (wholeBefore (address + n) records, stop) ∧
      stopAnswer stop = endOfCut (address + n) records := by
  induction records generalizing address n with
  | nil => exact ⟨none, by simp [wholeBefore], rfl⟩
  | cons r rest ih =>
    have htiles := ht
    obtain ⟨rfl, hrest⟩ := ht
    have hlength : (encode r.position r.payload).length = r.frameLength := length_encode ..
    have hnext : r.nextAddress = r.address + r.frameLength := rfl
    rw [framesOf_cons]
    rcases Nat.lt_or_ge n r.frameLength with hshort | hwhole
    · rw [List.take_append_of_le_length (by omega)]
      rcases Nat.eq_zero_or_pos n with rfl | hpos
      · obtain ⟨hnone, hcut⟩ := wholeBefore_of_le htiles (Nat.le_refl r.address)
        refine ⟨none, ?_, ?_⟩
        · rw [List.take_zero, walk_nil, Nat.add_zero, hnone]
        · rw [Nat.add_zero, endOfCut, hcut]
          rfl
      · obtain ⟨hnone, -⟩ := wholeBefore_of_le hrest (n := r.address + n) (by omega)
        have hbehind : ¬ r.nextAddress ≤ r.address + n := by omega
        have hthrough : r.address < r.address + n ∧ r.address + n < r.nextAddress := by omega
        refine ⟨some (.corruption r.address (damageOfCut r.payload n)), ?_, ?_⟩
        · rw [walk_eq_nil (decode_cut r.position hf.head.2.2 hpos hshort r.address), wholeBefore,
            List.filter_cons_of_neg (by simpa using hbehind)]
          rw [← hnone, wholeBefore]
        · rw [endOfCut, cutThrough, List.find?_cons_of_pos (by simpa using hthrough)]
          dsimp only
          rw [Nat.add_sub_cancel_left]
          rfl
    · obtain ⟨stop, hwalk, hstop⟩ := ih hf.tail hrest (n - r.frameLength)
      have haddress : r.nextAddress + (n - r.frameLength) = r.address + n := by omega
      rw [haddress] at hwalk hstop
      have hfits : r.nextAddress ≤ r.address + n := by omega
      have hbehind : ¬ (r.address < r.address + n ∧ r.address + n < r.nextAddress) := by omega
      have htake : (encode r.position r.payload ++ framesOf rest).take n
          = encode r.position r.payload ++ (framesOf rest).take (n - r.frameLength) := by
        rw [List.take_append, hlength, List.take_of_length_le (by omega)]
      have hd := decode_encode hf.head ((framesOf rest).take (n - r.frameLength)) r.address
      refine ⟨stop, ?_, ?_⟩
      · rw [htake, walk_cons hd]
        have hdrop : (encode r.position r.payload ++ (framesOf rest).take (n - r.frameLength)).drop
            r.frameLength = (framesOf rest).take (n - r.frameLength) := List.drop_left' hlength
        rw [hdrop, hwalk, wholeBefore, wholeBefore, List.filter_cons_of_pos (by simpa using hfits)]
      · rw [hstop, endOfCut, endOfCut, cutThrough, cutThrough,
          List.find?_cons_of_neg (by simpa using hbehind)]

end Frame

namespace Reading

variable {rs ts : Reading} {log : Bytes} {records : List Record} {stop : Option LogError}

/-! ## One record after the other -/

theorem fetch_next {address length : Nat} {r : Except LogError Bytes}
    (h : (fetch address length).run rs = (r, ts)) : ts.reader.next = rs.reader.next := by
  unfold Attempt.run fetch at h
  split at h
  · simp only [Prod.mk.injEq] at h
    rw [← h.2]
  · split at h
    · simp only [Prod.mk.injEq] at h
      rw [← h.2]
    · simp only [Prod.mk.injEq] at h
      rw [← h.2]

theorem readAt_next {address : Nat} {r : Except LogError (Option Record)}
    (h : (readAt address).run rs = (r, ts)) : ts.reader.next = rs.reader.next := by
  rw [readAt, Attempt.run_bind] at h
  split at h
  · next hheader =>
    split at h
    · rw [run_ofExcept, Prod.mk.injEq] at h
      rw [← h.2, fetch_next hheader]
    · rw [Attempt.run_bind] at h
      split at h
      · next hframe =>
        rw [run_ofExcept, Prod.mk.injEq] at h
        rw [← h.2, fetch_next hframe, fetch_next hheader]
      · next hframe =>
        simp only [Prod.mk.injEq] at h
        rw [← h.2, fetch_next hframe, fetch_next hheader]
  · next hheader =>
    simp only [Prod.mk.injEq] at h
    rw [← h.2, fetch_next hheader]

/-- Whether an answer tells something of the log, and not only that the storage failed. -/
def tellsOfLog : Except LogError (Option Record) → Bool
  | .ok _ => true
  | .error (.corruption _ _) => true
  | .error _ => false

theorem tellsOfLog_of_fault {e : LogError} (h : ∀ bad damage, e ≠ .corruption bad damage) :
    tellsOfLog (.error e) = false := by
  unfold tellsOfLog
  split
  · next heq => simp at heq
  · next bad damage heq =>
    simp only [Except.error.injEq] at heq
    exact absurd heq (h bad damage)
  · rfl

theorem tellsOfLog_decode (bytes : Bytes) (address : Nat) :
    tellsOfLog (Frame.decode bytes address) = true := by
  cases hd : Frame.decode bytes address with
  | ok found => rfl
  | error e =>
    obtain ⟨damage, rfl⟩ := Frame.decode_error hd
    rfl

/-- The records of this walk are still to be read. -/
def Ahead (rs : Reading) (log : Bytes) (records : List Record) (stop : Option LogError) : Prop :=
  rs.Sees log ∧ Frame.walk (log.drop rs.reader.next) rs.reader.next = (records, stop)

/-- What a call for the next record comes to. -/
inductive Called (rs ts : Reading) (log : Bytes) (stop : Option LogError) :
    List Record → Except LogError (Option Record) → Prop where
  | failed {records : List Record} {answer : Except LogError (Option Record)}
      (silent : tellsOfLog answer = false) (unserved : ¬ rs.storage.Serves)
      (ahead : ts.Ahead log records stop) : Called rs ts log stop records answer
  | read {r : Record} {rest : List Record} (ahead : ts.Ahead log rest stop) :
      Called rs ts log stop (r :: rest) (.ok (some r))
  | stopped (ahead : ts.Ahead log [] stop) : Called rs ts log stop [] (Frame.stopAnswer stop)

/-- Only with a record the reader moves. -/
theorem nextRecord_cases {answer : Except LogError (Option Record)}
    (hr : nextRecord.run rs = (answer, ts)) :
    ∃ us, (readAt rs.reader.next).run rs = (answer, us) ∧
      ((∃ r, answer = .ok (some r) ∧ ts = us.moveTo r.nextAddress) ∨
        (∀ r, answer ≠ .ok (some r)) ∧ ts = us) := by
  unfold Attempt.run nextRecord at hr
  split at hr
  · next r us hread =>
    simp only [Prod.mk.injEq] at hr
    obtain ⟨rfl, rfl⟩ := hr
    exact ⟨us, hread, .inl ⟨r, rfl, rfl⟩⟩
  · next hnot => exact ⟨ts, hr, .inr ⟨fun r hanswer => hnot r ts (hanswer ▸ hr), rfl⟩⟩

theorem nextRecord_called (h : rs.Ahead log records stop) {answer : Except LogError (Option Record)}
    (hr : nextRecord.run rs = (answer, ts)) : Called rs ts log stop records answer := by
  obtain ⟨hsees, hwalk⟩ := h
  have hdecode := Frame.decode_of_walk_stop hwalk
  obtain ⟨us, hread, hmoved⟩ := nextRecord_cases hr
  obtain ⟨hus, hreads⟩ := readAt_spec hsees hread
  have hstays : us.Ahead log records stop := by
    refine ⟨hus, ?_⟩
    rw [readAt_next hread]
    exact hwalk
  rcases hreads with hanswer | ⟨e, rfl, hfails⟩
  · rw [hdecode] at hanswer
    cases records with
    | nil =>
      have hsame : ts = us := by
        rcases hmoved with ⟨r, hr, -⟩ | ⟨-, hsame⟩
        · rw [hanswer, Frame.firstAnswer] at hr
          cases stop with
          | none => simp [Frame.stopAnswer] at hr
          | some e => simp [Frame.stopAnswer] at hr
        · exact hsame
      rw [hanswer]
      exact .stopped (hsame ▸ hstays)
    | cons r rest =>
      obtain ⟨s, hs, rfl⟩ | ⟨hnot, -⟩ := hmoved
      · rw [hanswer, Frame.firstAnswer, Except.ok.injEq, Option.some.injEq] at hs
        subst hs
        have hrest := Frame.walk_of_decode hdecode
        rw [hwalk, Prod.mk.injEq, List.cons.injEq] at hrest
        rw [hanswer]
        exact .read ⟨hus.moveTo _, Prod.ext hrest.1.2.symm hrest.2.symm⟩
      · exact absurd hanswer (hnot r)
  · have hsame : ts = us := by
      rcases hmoved with ⟨r, hr, -⟩ | ⟨-, hsame⟩
      · simp at hr
      · exact hsame
    refine .failed (tellsOfLog_of_fault hfails) (fun hserves => ?_) (hsame ▸ hstays)
    have hserved := readAt_serves hsees hserves hread
    have htells := tellsOfLog_decode (log.drop rs.reader.next) rs.reader.next
    rw [← hserved, tellsOfLog_of_fault hfails] at htells
    exact Bool.false_ne_true htells

theorem nextRecord_readAlike {answer : Except LogError (Option Record)}
    (hr : nextRecord.run rs = (answer, ts)) : rs.storage.ReadAlike ts.storage := by
  obtain ⟨us, hread, hmoved⟩ := nextRecord_cases hr
  have hus := readAt_readAlike hread
  obtain ⟨r, -, rfl⟩ | ⟨-, rfl⟩ := hmoved
  · exact hus
  · exact hus

theorem Ahead.tells (h : rs.Ahead log records stop) :
    tellsOfLog (Frame.firstAnswer stop records) = true := by
  rw [← Frame.decode_of_walk_stop h.2]
  exact tellsOfLog_decode ..

/-- The answers of so many calls for the next record. -/
def answers : Nat → Reading → List (Except LogError (Option Record))
  | 0, _ => []
  | count + 1, rs => (nextRecord.run rs).1 :: answers count (nextRecord.run rs).2

/-- The records one after the other, and then `count` times the same answer. -/
def account (records : List Record) (ending : Except LogError (Option Record)) (count : Nat) :
    List (Except LogError (Option Record)) :=
  records.map (fun r => .ok (some r)) ++ List.replicate count ending

theorem length_answers (count : Nat) (rs : Reading) : (answers count rs).length = count := by
  induction count generalizing rs with
  | zero => rfl
  | succ count ih => exact congrArg (· + 1) (ih _)

theorem account_isPrefix (records : List Record) (ending : Except LogError (Option Record))
    (count : Nat) : account records ending count <+: account records ending (count + 1) := by
  rw [account, account, List.replicate_succ']
  exact ⟨[ending], List.append_assoc ..⟩

/-- Induction on the calls: one that is made in vain leaves ahead what was ahead. -/
theorem answers_walk (h : rs.Ahead log records stop) (count : Nat) :
    (answers count rs).filter tellsOfLog
      <+: account records (Frame.stopAnswer stop) count := by
  induction count generalizing rs records with
  | zero => exact List.nil_prefix
  | succ count ih =>
    unfold answers
    generalize hcall : nextRecord.run rs = result
    obtain ⟨answer, ts⟩ := result
    cases nextRecord_called h hcall with
    | failed hsilent _ hahead =>
      rw [List.filter_cons_of_neg (by simpa using hsilent)]
      exact (ih hahead).trans (account_isPrefix ..)
    | @read r rest hahead =>
      rw [List.filter_cons_of_pos (by rfl)]
      exact List.cons_prefix_cons.2 ⟨rfl, (ih hahead).trans (account_isPrefix ..)⟩
    | stopped hahead =>
      have htells : tellsOfLog (Frame.stopAnswer stop) = true := hahead.tells
      rw [List.filter_cons_of_pos htells]
      exact List.cons_prefix_cons.2 ⟨rfl, ih hahead⟩

theorem answers_serves (h : rs.Ahead log records stop) (hserves : rs.storage.Serves) (count : Nat) :
    ∀ answer ∈ answers count rs, tellsOfLog answer = true := by
  induction count generalizing rs records with
  | zero => simp [answers]
  | succ count ih =>
    unfold answers
    generalize hcall : nextRecord.run rs = result
    obtain ⟨answer, ts⟩ := result
    have hstill := (nextRecord_readAlike hcall).serves hserves
    intro other hother
    cases nextRecord_called h hcall with
    | failed _ hunserved => exact absurd hserves hunserved
    | read hahead =>
      rcases List.mem_cons.1 hother with rfl | hother
      · rfl
      · exact ih hahead hstill other hother
    | stopped hahead =>
      rcases List.mem_cons.1 hother with rfl | hother
      · exact hahead.tells
      · exact ih hahead hstill other hother

/-- A log that was cut is read up to the cut, record by record, and what was cut through is noticed
where it starts, whatever the window; a storage that fails now and then hides nothing of it. -/
theorem reads_up_to_cut (s : Storage) (size : Nat) {log : Bytes} {records : List Record} {n : Nat}
    (hs : s.Sound) (hlog : Frame.Laid log records) (hcut : s.stored = log.take n) (count : Nat) :
    (answers count ⟨.ofWindow size, s⟩).filter tellsOfLog
        <+: account (Frame.wholeBefore n records) (Frame.endOfCut n records) count ∧
      (s.Serves → answers count ⟨.ofWindow size, s⟩
        = (account (Frame.wholeBefore n records) (Frame.endOfCut n records) count).take count) := by
  obtain ⟨stop, hwalk, hstop⟩ := Frame.walk_cut hlog.framable hlog.tiles n
  rw [hlog.frames, show Storage.firstAddress + n = n from Nat.zero_add n] at hwalk
  rw [show Storage.firstAddress + n = n from Nat.zero_add n] at hstop
  have hahead : Ahead ⟨.ofWindow size, s⟩ (log.take n) (Frame.wholeBefore n records) stop := by
    refine ⟨?_, hwalk⟩
    have hsees := Sees.ofWindow hs size
    rwa [hcut] at hsees
  have htold := answers_walk hahead count
  rw [hstop] at htold
  refine ⟨htold, fun hserves => ?_⟩
  rw [List.filter_eq_self.2 (answers_serves hahead hserves count)] at htold
  have heq := List.prefix_iff_eq_take.1 htold
  rwa [length_answers] at heq

/-- An empty record between two others; the positions are in no order. -/
def unorderedRecords : List Record := [⟨3, 0, [7, 8]⟩, ⟨-1, 18, []⟩, ⟨-9, 34, [9]⟩]

/-- The storage of these records, cut through the header of the last one. -/
def cutLog : Storage := { medium := .memory true ((Frame.framesOf unorderedRecords).take 40) 0 }

theorem reads_up_to_cut_unordered :
    cutLog.Sound ∧ Frame.Laid (Frame.framesOf unorderedRecords) unorderedRecords ∧
      cutLog.stored = (Frame.framesOf unorderedRecords).take 40 ∧ cutLog.Serves ∧
      answers 4 ⟨.ofWindow 0, cutLog⟩ = [.ok (some ⟨3, 0, [7, 8]⟩), .ok (some ⟨-1, 18, []⟩),
        .error (.corruption 34 (.partialHeader 6)), .error (.corruption 34 (.partialHeader 6))] := by
  have hlog : Frame.Laid (Frame.framesOf unorderedRecords) unorderedRecords := by
    have hlength : (Frame.framesOf unorderedRecords).length = 51 := by decide +kernel
    refine ⟨?_, ?_, rfl⟩
    · simp [Frame.AllFramable, Frame.Framable, unorderedRecords]
    · rw [hlength]
      exact ⟨rfl, rfl, rfl, rfl⟩
  have hserves : cutLog.Serves := ⟨rfl, fun _ => rfl⟩
  refine ⟨trivial, hlog, rfl, hserves, ?_⟩
  rw [(reads_up_to_cut cutLog 0 trivial hlog rfl 4).2 hserves]
  decide +kernel

end Reading

end PartitionLog
