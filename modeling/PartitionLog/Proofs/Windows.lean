import PartitionLog.Proofs.Serving

/-!
# Reading through a window

A reader keeps a window of bytes that it fetched before, and meanwhile the storage may grow. What was
fetched stays part of the log (`Sees.append`), so no move of a reader and no append leaves a window
that tells of anything else (`Sees.after`). A read answers what decoding the stored bytes at its
address answers, unless one of the reads of the storage that it made failed (`readAt_after`).
-/

namespace PartitionLog

namespace Storage

/-- The read with number `n` fails if it is told to, or if the storage is closed. -/
def FailsRead (s : Storage) (n : Nat) : Prop :=
  (s.faults .read).fails n = true ∨ s.isOpen = false

/-- One of the reads that were made between `s` and `t` failed. -/
def Faulted (s t : Storage) : Prop :=
  ∃ n, (s.faults .read).used ≤ n ∧ n < (t.faults .read).used ∧ s.FailsRead n

variable {s t u : Storage}

theorem not_faulted_self (s : Storage) : ¬ s.Faulted s := by
  rintro ⟨n, hlo, hhi, -⟩
  omega

theorem ReadAlike.failsRead (h : s.ReadAlike t) (n : Nat) : t.FailsRead n ↔ s.FailsRead n := by
  unfold FailsRead isOpen
  rw [h.fails, h.medium]

/-- Reads that were made one after the other. -/
theorem faulted_trans (h : s.ReadAlike t) (hst : (s.faults .read).used ≤ (t.faults .read).used)
    (htu : (t.faults .read).used ≤ (u.faults .read).used) :
    s.Faulted u ↔ s.Faulted t ∨ t.Faulted u := by
  constructor
  · rintro ⟨n, hlo, hhi, hfails⟩
    by_cases hn : n < (t.faults .read).used
    · exact .inl ⟨n, hlo, hn, hfails⟩
    · exact .inr ⟨n, by omega, hhi, (h.failsRead n).2 hfails⟩
  · rintro (⟨n, hlo, hhi, hfails⟩ | ⟨n, hlo, hhi, hfails⟩)
    · exact ⟨n, hlo, by omega, hfails⟩
    · exact ⟨n, by omega, hhi, (h.failsRead n).1 hfails⟩

theorem readMedium_closed (h : s.isOpen = false) (address max : Nat) :
    ∃ e, (readMedium address max).run s = (.error e, s) := by
  unfold isOpen at h
  unfold Attempt.run readMedium
  split at h
  · next hm =>
    rw [hm, h]
    exact ⟨_, rfl⟩
  · next path handle hm =>
    rw [Option.isSome_eq_false_iff, Option.isNone_iff_eq_none] at h
    rw [hm, h]
    exact ⟨_, rfl⟩

theorem faulted_once (h : (t.faults .read).used = (s.faults .read).used + 1) :
    s.Faulted t ↔ s.FailsRead (s.faults .read).used := by
  constructor
  · rintro ⟨n, hlo, hhi, hfails⟩
    obtain rfl : n = (s.faults .read).used := by omega
    exact hfails
  · exact fun hfails => ⟨_, Nat.le_refl _, by omega, hfails⟩

/-- The storage after one more read. -/
def counted (s : Storage) : Storage :=
  { s with faults := s.faults.set .read (s.faults .read).next }

theorem used_counted (s : Storage) :
    (s.counted.faults .read).used = (s.faults .read).used + 1 := rfl

theorem isOpen_counted (s : Storage) : s.counted.isOpen = s.isOpen := rfl

theorem sound_counted (hs : s.Sound) : s.counted.Sound :=
  Alike.sound ⟨rfl, rfl⟩ hs

theorem run_read (address max : Nat) (s : Storage) :
    (read address max).run s = if (s.faults .read).fails (s.faults .read).used = true
      then (.error (.io .unavailable), s.counted) else (readMedium address max).run s.counted := by
  have hallow : (allow .read).run s = if (s.faults .read).fails (s.faults .read).used = true
      then (.error (.io .unavailable), s.counted) else (.ok (), s.counted) := rfl
  rw [read, Attempt.run_bind, hallow]
  split
  · next heq =>
    split at heq
    · simp at heq
    · next hpass =>
      simp only [Prod.mk.injEq, true_and] at heq
      rw [if_neg hpass, heq]
  · next heq =>
    split at heq
    · next hfails =>
      simp only [Prod.mk.injEq, Except.error.injEq] at heq
      rw [if_pos hfails, ← heq.1, heq.2]
    · simp at heq

/-- A read counts, and it fails if its number is one that fails. -/
theorem read_faulted {address max : Nat} {r : Except LogError Bytes} (hs : s.Sound)
    (h : (read address max).run s = (r, t)) :
    (t.faults .read).used = (s.faults .read).used + 1 ∧ ((∃ e, r = .error e) ↔ s.Faulted t) := by
  rw [run_read] at h
  by_cases hfails : (s.faults .read).fails (s.faults .read).used = true
  · rw [if_pos hfails, Prod.mk.injEq] at h
    obtain ⟨rfl, rfl⟩ := h
    refine ⟨used_counted s, fun _ => ?_, fun _ => ⟨_, rfl⟩⟩
    exact (faulted_once (used_counted s)).2 (.inl hfails)
  · rw [if_neg hfails] at h
    cases hopen : s.isOpen with
    | true =>
      obtain ⟨bytes, hbytes⟩ := readMedium_serves (sound_counted hs)
        ((isOpen_counted s).trans hopen) address max
      rw [hbytes, Prod.mk.injEq] at h
      obtain ⟨rfl, rfl⟩ := h
      refine ⟨used_counted s, fun ⟨e, he⟩ => by simp at he, fun hfaulted => ?_⟩
      rcases (faulted_once (used_counted s)).1 hfaulted with htold | hclosed
      · exact absurd htold hfails
      · rw [hopen] at hclosed
        simp at hclosed
    | false =>
      obtain ⟨e, he⟩ := readMedium_closed ((isOpen_counted s).trans hopen) address max
      rw [he, Prod.mk.injEq] at h
      obtain ⟨rfl, rfl⟩ := h
      refine ⟨used_counted s, fun _ => ?_, fun _ => ⟨_, rfl⟩⟩
      exact (faulted_once (used_counted s)).2 (.inr hopen)

end Storage

namespace Reading

variable {rs ts : Reading} {log : Bytes}

/-! ## Faults of a read -/

theorem fetch_faulted {address length : Nat} {r : Except LogError Bytes} (h : rs.Sees log)
    (hr : (fetch address length).run rs = (r, ts)) :
    (rs.storage.faults .read).used ≤ (ts.storage.faults .read).used ∧
      ((∃ e, r = .error e) ↔ rs.storage.Faulted ts.storage) := by
  unfold Attempt.run fetch at hr
  split at hr
  · simp only [Prod.mk.injEq] at hr
    obtain ⟨rfl, rfl⟩ := hr
    refine ⟨Nat.le_refl _, fun ⟨e, he⟩ => by simp at he, fun hfaulted => ?_⟩
    exact absurd hfaulted (Storage.not_faulted_self _)
  · split at hr
    · next e storage hread =>
      simp only [Prod.mk.injEq] at hr
      obtain ⟨rfl, rfl⟩ := hr
      obtain ⟨hcount, hfaulted⟩ := Storage.read_faulted h.sound hread
      exact ⟨by dsimp only; omega, fun _ => hfaulted.1 ⟨e, rfl⟩, fun _ => ⟨e, rfl⟩⟩
    · next bytes storage hread =>
      simp only [Prod.mk.injEq] at hr
      obtain ⟨rfl, rfl⟩ := hr
      obtain ⟨hcount, hfaulted⟩ := Storage.read_faulted h.sound hread
      refine ⟨by dsimp only; omega, fun ⟨e, he⟩ => by simp at he, fun hno => ?_⟩
      obtain ⟨e, he⟩ := hfaulted.2 hno
      simp at he

/-- What decoding answers is not an error of the storage. -/
theorem decode_ne_error {bytes : Bytes} {address : Nat} {e : LogError}
    (h : Frame.decode bytes address = .error e) : ¬ ∀ bad damage, e ≠ .corruption bad damage := by
  intro hne
  obtain ⟨damage, rfl⟩ := Frame.decode_error h
  exact hne address damage rfl

/-- A read fails without blaming the log just if a read of the storage failed. -/
theorem readAt_faulted {address : Nat} {r : Except LogError (Option Record)} (h : rs.Sees log)
    (hr : (readAt address).run rs = (r, ts)) :
    rs.storage.Faulted ts.storage ↔
      ∃ e, r = .error e ∧ ∀ bad damage, e ≠ .corruption bad damage := by
  rw [readAt, Attempt.run_bind] at hr
  split at hr
  · next header us hheader =>
    obtain ⟨hcount, hfirst⟩ := fetch_faulted h hheader
    have hus := (fetch_spec h hheader).1
    have hpassed : ¬ rs.storage.Faulted us.storage := fun hno => by simpa using hfirst.2 hno
    split at hr
    · rw [run_ofExcept, Prod.mk.injEq] at hr
      obtain ⟨rfl, rfl⟩ := hr
      refine ⟨fun hno => absurd hno hpassed, ?_⟩
      rintro ⟨e, he, hne⟩
      exact absurd hne (decode_ne_error he)
    · rw [Attempt.run_bind] at hr
      split at hr
      · next frame vs hframe =>
        rw [run_ofExcept, Prod.mk.injEq] at hr
        obtain ⟨rfl, rfl⟩ := hr
        obtain ⟨hmore, hsecond⟩ := fetch_faulted hus hframe
        rw [Storage.faulted_trans (fetch_readAlike hheader) hcount hmore]
        constructor
        · rintro (hno | hno)
          · exact absurd hno hpassed
          · simpa using hsecond.2 hno
        · rintro ⟨e, he, hne⟩
          exact absurd hne (decode_ne_error he)
      · next e vs hframe =>
        simp only [Prod.mk.injEq] at hr
        obtain ⟨rfl, rfl⟩ := hr
        obtain ⟨hmore, hsecond⟩ := fetch_faulted hus hframe
        rw [Storage.faulted_trans (fetch_readAlike hheader) hcount hmore]
        exact ⟨fun _ => ⟨e, rfl, (fetch_spec hus hframe).2⟩, fun _ => .inr (hsecond.1 ⟨e, rfl⟩)⟩
  · next e us hheader =>
    simp only [Prod.mk.injEq] at hr
    obtain ⟨rfl, rfl⟩ := hr
    obtain ⟨-, hfirst⟩ := fetch_faulted h hheader
    exact ⟨fun _ => ⟨e, rfl, (fetch_spec h hheader).2⟩, fun _ => hfirst.1 ⟨e, rfl⟩⟩

/-! ## What a window shows of a log that grows -/

/-- The window stays a part of the log when a block is appended. -/
theorem Sees.append (h : rs.Sees log) {storage : Storage} {block : Bytes} (hs : storage.Sound)
    (hstored : storage.stored = log ++ block) :
    (⟨rs.reader, storage⟩ : Reading).Sees (log ++ block) := by
  refine ⟨hs, hstored, ?_⟩
  have hlength := congrArg List.length h.window
  rw [Bytes.length_slice] at hlength
  show rs.reader.window = (log ++ block).slice rs.reader.windowAddress rs.reader.window.length
  by_cases hempty : rs.reader.window.length = 0
  · rw [hempty, Bytes.slice, List.take_zero]
    exact List.length_eq_zero_iff.1 hempty
  · have hin : rs.reader.windowAddress + rs.reader.window.length ≤ log.length := by omega
    rw [Bytes.slice, List.drop_append_of_le_length (by omega),
      List.take_append_of_le_length (by rw [List.length_drop]; omega)]
    exact h.window

/-- What a storage call that keeps the bytes leaves. -/
theorem Sees.keep (h : rs.Sees log) {storage : Storage} (hk : rs.storage.Keeps storage) :
    (⟨rs.reader, storage⟩ : Reading).Sees log :=
  ⟨hk.1, hk.2.trans h.stored, h.window⟩

theorem nextRecord_sees {r : Except LogError (Option Record)} (h : rs.Sees log)
    (hr : nextRecord.run rs = (r, ts)) : ts.Sees log := by
  unfold Attempt.run nextRecord at hr
  split at hr
  · next hread =>
    simp only [Prod.mk.injEq] at hr
    obtain ⟨-, rfl⟩ := hr
    exact (readAt_spec h hread).1.moveTo _
  · exact (readAt_spec h hr).1

theorem seekFrom_sees (position : Int) (address : Nat) (rs : Reading) {ts : Reading} {log : Bytes}
    {r : Except LogError Bool} (h : rs.Sees log) (hr : seekFrom position address rs = (r, ts)) :
    ts.Sees log := by
  fun_induction seekFrom position address rs with
  | case1 address rs e us hread =>
    simp only [Prod.mk.injEq] at hr
    obtain ⟨-, rfl⟩ := hr
    exact (readAt_spec h hread).1
  | case2 address rs us hread =>
    simp only [Prod.mk.injEq] at hr
    obtain ⟨-, rfl⟩ := hr
    exact (readAt_spec h hread).1.moveTo _
  | case3 address rs found us hread _ ih => exact ih (readAt_spec h hread).1 hr
  | case4 address rs found us hread _ =>
    simp only [Prod.mk.injEq] at hr
    obtain ⟨-, rfl⟩ := hr
    exact (readAt_spec h hread).1.moveTo _

theorem collectFrom_sees (address : Nat) (rs : Reading) {ts : Reading} {log : Bytes}
    {found : List Record × Option LogError} (h : rs.Sees log)
    (hr : collectFrom address rs = (found, ts)) : ts.Sees log := by
  fun_induction collectFrom address rs generalizing found with
  | case1 address rs e us hread =>
    simp only [Prod.mk.injEq] at hr
    obtain ⟨-, rfl⟩ := hr
    exact (readAt_spec h hread).1.moveTo _
  | case2 address rs us hread =>
    simp only [Prod.mk.injEq] at hr
    obtain ⟨-, rfl⟩ := hr
    exact (readAt_spec h hread).1.moveTo _
  | case3 address rs r us hread records stop vs hrest ih =>
    simp only [Prod.mk.injEq] at hr
    obtain ⟨-, rfl⟩ := hr
    exact ih (readAt_spec h hread).1 hrest

/-! ## Moves of a reader -/

/-- What a reader does, and what happens to its storage meanwhile. -/
inductive Move where
  | next
  | readAt (address : Nat)
  | seek (ix : BlockIndex) (position : Int)
  | readLast (ix : BlockIndex)
  | moveTo (address : Nat)
  | append (block : Bytes)
  | flush
  | close
  | openUp

/-- A move is made whether or not it succeeds. -/
def act (rs : Reading) : Move → Reading
  | .next => (nextRecord.run rs).2
  | .readAt address => ((Reading.readAt address).run rs).2
  | .seek ix position => ((Reading.seek ix position).run rs).2
  | .readLast ix => ((Reading.readLast ix).run rs).2
  | .moveTo address => rs.moveTo address
  | .append block => ⟨rs.reader, ((Storage.append block).run rs.storage).2⟩
  | .flush => ⟨rs.reader, (Storage.flush.run rs.storage).2⟩
  | .close => ⟨rs.reader, (Storage.close.run rs.storage).2⟩
  | .openUp => ⟨rs.reader, (Storage.openUp.run rs.storage).2⟩

def after (rs : Reading) (moves : List Move) : Reading := moves.foldl act rs

/-- After a move the reader sees the log, at whose end a block may have come. -/
theorem Sees.act (h : rs.Sees log) (move : Move) : ∃ more, (rs.act move).Sees (log ++ more) := by
  have hsame : (rs.act move).Sees log → ∃ more, (rs.act move).Sees (log ++ more) :=
    fun hsees => ⟨[], by rw [List.append_nil]; exact hsees⟩
  cases move with
  | next => exact hsame (nextRecord_sees h (Prod.eta (nextRecord.run rs)).symm)
  | readAt address => exact hsame (readAt_spec h (Prod.eta ((Reading.readAt address).run rs)).symm).1
  | seek ix position =>
    exact hsame (seekFrom_sees _ _ rs h (Prod.eta ((Reading.seek ix position).run rs)).symm)
  | readLast ix =>
    apply hsame
    unfold Reading.act Reading.readLast Attempt.run
    dsimp only
    split
    · next hfound => exact collectFrom_sees _ rs h hfound
    · next hfound => exact collectFrom_sees _ rs h hfound
  | moveTo address => exact hsame (h.moveTo address)
  | append block =>
    show ∃ more, (⟨rs.reader, ((Storage.append block).run rs.storage).2⟩ : Reading).Sees (log ++ more)
    generalize happend : (Storage.append block).run rs.storage = result
    obtain ⟨answer, storage⟩ := result
    cases answer with
    | ok address =>
      obtain ⟨hsound, -, hstored⟩ := Storage.append_ok h.sound happend
      exact ⟨block, h.append hsound (by rw [hstored, h.stored])⟩
    | error e =>
      refine ⟨[], ?_⟩
      rw [List.append_nil]
      exact h.keep (Storage.append_error h.sound happend)
  | flush =>
    exact hsame (h.keep (Storage.flush_keeps h.sound (Prod.eta (Storage.flush.run rs.storage)).symm))
  | close =>
    exact hsame (h.keep (Storage.close_keeps h.sound (Prod.eta (Storage.close.run rs.storage)).symm))
  | openUp =>
    exact hsame (h.keep
      (Storage.openUp_keeps h.sound (Prod.eta (Storage.openUp.run rs.storage)).symm))

theorem Sees.after (h : rs.Sees log) (moves : List Move) :
    ∃ more, (rs.after moves).Sees (log ++ more) := by
  induction moves generalizing rs log with
  | nil => exact ⟨[], by rw [List.append_nil]; exact h⟩
  | cons move rest ih =>
    obtain ⟨first, hfirst⟩ := h.act move
    obtain ⟨more, hmore⟩ := ih hfirst
    refine ⟨first ++ more, ?_⟩
    rw [← List.append_assoc]
    exact hmore

/-- After any moves, a read answers what the stored bytes say from its address on, whatever the window
held before, and if a read of the storage fails it tells nothing about the log. -/
theorem readAt_after (s : Storage) (size : Nat) (moves : List Move) (address : Nat) (hs : s.Sound)
    {rs ts : Reading} {answer : Except LogError (Option Record)}
    (hrs : rs = after ⟨.ofWindow size, s⟩ moves) (hread : (readAt address).run rs = (answer, ts)) :
    s.stored <+: rs.storage.stored ∧ ts.storage.stored = rs.storage.stored ∧
      (¬ rs.storage.Faulted ts.storage →
        answer = Frame.decode (rs.storage.stored.drop address) address) ∧
      (rs.storage.Faulted ts.storage →
        ∃ e, answer = .error e ∧ ∀ bad damage, e ≠ .corruption bad damage) := by
  obtain ⟨more, hsees⟩ := (Sees.ofWindow hs size).after moves
  rw [← hrs] at hsees
  obtain ⟨hafter, hreads⟩ := readAt_spec hsees hread
  have hfaulted := readAt_faulted hsees hread
  rw [← hsees.stored] at hafter hreads
  refine ⟨?_, hafter.stored, fun hpassed => ?_, hfaulted.1⟩
  · rw [hsees.stored]
    exact List.prefix_append ..
  · exact hreads.resolve_right fun hfails => hpassed (hfaulted.2 hfails)

/-- A record and the header of another one. The third read of the storage is told to fail. -/
def growingLog : Storage where
  medium := .memory true (Frame.encode 0 [1, 2, 3] ++ (Frame.encode 3 [4]).take 16) 0
  faults := FaultPlan.none.set .read ⟨fun n => n == 2, 0⟩

/-- The header is in the window before its payload is written. -/
def growingMoves : List Move := [.readAt 0, .readAt 19, .append [4], .readAt 19]

theorem readAt_growingLog :
    growingLog.Sound ∧
      ((after ⟨.ofWindow 64, growingLog⟩ growingMoves).storage.faults .read).used = 3 ∧
      (after ⟨.ofWindow 64, growingLog⟩ growingMoves).reader.window.length = 16 ∧
      ∃ rs answer ts, rs = after ⟨.ofWindow 64, growingLog⟩ growingMoves ∧
        (readAt 19).run rs = (answer, ts) ∧ ¬ rs.storage.Faulted ts.storage ∧
        answer = Frame.decode (rs.storage.stored.drop 19) 19 ∧ answer = .ok (some ⟨3, 19, [4]⟩) := by
  have hbefore : ((after ⟨.ofWindow 64, growingLog⟩ growingMoves).storage.faults .read).used = 3 := by
    decide +kernel
  have hpassed : ¬ (after ⟨.ofWindow 64, growingLog⟩ growingMoves).storage.FailsRead 3 := by
    unfold Storage.FailsRead
    decide +kernel
  have hused : (((readAt 19).run (after ⟨.ofWindow 64, growingLog⟩ growingMoves)).2.storage.faults
      .read).used = 4 := by decide +kernel
  have hanswer : ((readAt 19).run (after ⟨.ofWindow 64, growingLog⟩ growingMoves)).1
      = .ok (some ⟨3, 19, [4]⟩) := by decide +kernel
  refine ⟨trivial, hbefore, by decide +kernel, ?_⟩
  generalize hrs : after ⟨.ofWindow 64, growingLog⟩ growingMoves = rs at hbefore hpassed hused hanswer
  generalize hread : (readAt 19).run rs = result at hused hanswer
  obtain ⟨answer, ts⟩ := result
  dsimp only at hused hanswer
  have hserved : ¬ rs.storage.Faulted ts.storage := by
    rintro ⟨n, hlo, hhi, hfails⟩
    obtain rfl : n = 3 := by omega
    exact hpassed hfails
  have h := readAt_after growingLog 64 growingMoves 19 trivial hrs.symm hread
  exact ⟨rs, answer, ts, rfl, hread, hserved, h.2.2.1 hserved, hanswer⟩

end Reading

end PartitionLog
