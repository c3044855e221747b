import PartitionLog.Proofs.Components
import PartitionLog.Proofs.Seeking

/-!
# Truncating exactly

A truncation looks for the record at its position and cuts storage, index and next position there. It
is refused by one of four guards, or fails because there is no such record or because the storage
does (`LogStream.Truncation`); then nothing is cut. `TruncatesExactly` says when it succeeds and what
is left then. A stream writes no empty records, but it reads them, and an empty record shares its
position with the next one. Where the index names the second of the two, the search finds that one,
and the cut leaves the first (`truncates_exactly_doubled`).
-/

namespace PartitionLog

namespace Frame

/-- What lies before the position of a cut is kept. -/
theorem mem_kept_of_lt {kept gone : List Bytes} {position : Int} {r : Record}
    (hspan : span kept = position) (h : r ∈ recordsOf 0 0 (kept ++ gone))
    (hlt : r.position < position) : r ∈ recordsOf 0 0 kept := by
  rw [recordsOf_append] at h
  rcases List.mem_append.1 h with hkept | hgone
  · exact hkept
  · have := position_le_of_mem hgone
    omega

end Frame

namespace BlockIndex

variable {ix : BlockIndex} {payloads kept gone : List Bytes} {position : Int}

/-- Entries before the position of a cut have addresses before its place. -/
theorem entries_forget (h : ix.Lists (kept ++ gone)) (hspan : Frame.span kept = position) :
    ((ix.truncateAfter (position - 1)).truncateFrom (Frame.encodeRun 0 kept).length).entries
      = ix.entries.filter (·.position < position) := by
  rw [truncateFrom, truncateAfter, entries_restrict, entries_restrict, List.filter_filter]
  refine List.filter_congr fun e he => ?_
  obtain ⟨r, hr, hposition, haddress⟩ := h e he
  rw [Bool.eq_iff_iff, Bool.and_eq_true, decide_eq_true_iff, decide_eq_true_iff, decide_eq_true_iff]
  constructor
  · rintro ⟨-, hle⟩
    omega
  · intro hlt
    have hkept := Frame.mem_kept_of_lt hspan hr (by omega)
    have := Frame.address_lt_of_mem hkept
    omega

end BlockIndex

namespace Storage

variable {s t : Storage} {address : Nat} {r : Except LogError Unit}

theorem truncateMedium_passes (hs : s.Sound) (hopen : s.isOpen = true)
    (hle : address ≤ s.stored.length) (h : (truncateMedium address).run s = (r, t)) : r = .ok () := by
  unfold Attempt.run truncateMedium at h
  obtain ⟨bytes, flushes, hm⟩ | ⟨path, handle, hm⟩ := isOpen_cases hopen
  · simp only [stored, hm] at h hle
    rw [if_neg (by omega)] at h
    simp only [Prod.mk.injEq] at h
    exact h.1.symm
  · simp only [Sound, hm] at hs
    simp only [stored, hm] at h hle
    rw [if_neg (by omega)] at h
    simp only [Prod.mk.injEq] at h
    exact h.1.symm

/-- A truncation of an open storage fails just if it is told to, and no read is counted. -/
theorem truncate_passes (hs : s.Sound) (hopen : s.isOpen = true) (hle : address ≤ s.stored.length)
    (h : (truncate address).run s = (r, t)) :
    (t.faults .read).used = (s.faults .read).used ∧
      ((s.faults .truncate).failsNow = false → r = .ok ()) := by
  refine ⟨by rw [truncate_faults h]; rfl, fun hpasses => ?_⟩
  rw [truncate, Attempt.run_bind] at h
  split at h
  · next u hu =>
    obtain ⟨rfl, -⟩ := allow_cases hu
    have halike : s.Alike { s with faults := s.faults.set .truncate (s.faults .truncate).next } :=
      ⟨rfl, rfl⟩
    exact truncateMedium_passes (halike.sound hs) hopen hle h
  · next e u hu =>
    obtain ⟨-, ⟨hr, -⟩ | ⟨-, hfails⟩⟩ := allow_cases hu
    · simp at hr
    · simp [hpasses] at hfails

end Storage

namespace LogStream

variable {s t : LogStream} {payloads : List Bytes} {position : Int}

/-- The four guards, all of them passed. -/
def Truncatable (s : LogStream) (position : Int) : Prop :=
  s.state = .opened ∧ s.appender.isRunning = false ∧ s.commit < position ∧ s.buffer.slots = []

theorem allowTruncate_eq_ok_iff : s.allowTruncate position = .ok () ↔ s.Truncatable position := by
  constructor
  · intro h
    obtain ⟨hrests, hopened, hcommit, hempty⟩ := allowTruncate_ok h
    exact ⟨hopened, hrests, hcommit, hempty⟩
  · rintro ⟨hopened, hrests, hcommit, hempty⟩
    unfold allowTruncate ensureOpen WriteBuffer.isEmpty
    simp [hrests, hopened, hempty, Int.not_le.2 hcommit]

/-- What truncating at a position does where the log holds the frames of some payloads. -/
structure TruncatesExactly (s : LogStream) (payloads : List Bytes) (position : Int)
    (r : Except LogError Unit) (t : LogStream) : Prop where
  /-- If no read of the storage failed on the way and cutting it is not told to fail. -/
  succeeds : ¬ s.storage.Faulted t.storage → (s.storage.faults .truncate).failsNow = false →
    (r = .ok () ↔ s.Truncatable position ∧ ∃ x ∈ Frame.recordsOf 0 0 payloads, x.position = position)
  /-- The records before the position are left, and of those at the position some empty ones at most. -/
  cuts : r = .ok () → ∃ kept gone, payloads = kept ++ gone ∧
    t.storage.stored = Frame.encodeRun 0 kept ∧
    (∀ x ∈ Frame.recordsOf 0 0 payloads, x.position < position → x ∈ Frame.recordsOf 0 0 kept) ∧
    ∀ x ∈ Frame.recordsOf 0 0 kept, x.position < position ∨ x.position = position ∧ x.payload = []
  cutsExactly : r = .ok () →
    (∀ x ∈ Frame.recordsOf 0 0 payloads, x.position = position → x.payload ≠ []) →
    t.storage.stored
      = Frame.framesOf ((Frame.recordsOf 0 0 payloads).filter (·.position < position))
  forgets : r = .ok () → t.index.entries = s.index.entries.filter (·.position < position) ∧
    t.appender.nextPosition = position
  keeps : ∀ e, r = .error e → t.storage.stored = s.storage.stored ∧
    t.index.entries = s.index.entries ∧ t.appender.nextPosition = s.appender.nextPosition

/-- A truncation that fails leaves the stream as it is, up to the reads that it made. -/
theorem TruncatesExactly.of_error {e : LogError} {u : Storage}
    (hkeeps : u.stored = s.storage.stored)
    (hfails : ¬ s.storage.Faulted u → (s.storage.faults .truncate).failsNow = false →
      ¬ (s.Truncatable position ∧ ∃ x ∈ Frame.recordsOf 0 0 payloads, x.position = position)) :
    s.TruncatesExactly payloads position (.error e) (s.withStorage u) where
  succeeds hread hcut := by simpa using hfails hread hcut
  cuts h := by simp at h
  cutsExactly h := by simp at h
  forgets h := by simp at h
  keeps _ _ := ⟨hkeeps, rfl, rfl⟩

theorem addressOf_exactly (hsound : s.storage.Sound)
    (hlog : s.storage.stored = Frame.encodeRun 0 payloads) (hr : Frame.Readable 0 payloads)
    (hlists : s.index.Lists payloads) {r : Except LogError Nat}
    (h : (addressOf position).run s = (r, t)) :
    ∃ storage, t = s.withStorage storage ∧ s.storage.ReadAlike storage ∧
      (¬ s.storage.Faulted storage →
        ((∃ address, r = .ok address) ↔ ∃ x ∈ Frame.recordsOf 0 0 payloads, x.position = position)) ∧
      ∀ address, r = .ok address → ∃ kept gone, payloads = kept ++ gone ∧
        Frame.span kept = position ∧ address = (Frame.encodeRun 0 kept).length := by
  obtain ⟨answer, rs, hfind, rfl, hplace⟩ := addressOf_cases h
  have hsees : (s.reading s.newReader).Sees (Frame.encodeRun 0 payloads) :=
    hlog ▸ Reading.Sees.ofWindow hsound _
  obtain ⟨place, hanswers, hsome, hrecord⟩ := hsees.findAddress (Frame.laid_recordsOf hr)
    (Frame.sorted_recordsOf 0 0 payloads) hlists.picksFrom hfind
  refine ⟨rs.storage, rfl, Reading.findAddress_readAlike hfind, fun hpassed => ?_,
    fun address haddress => ?_⟩
  · have hanswer : answer = .ok place := hanswers.1 hpassed
    rw [← hsome, Option.isSome_iff_exists]
    refine exists_congr fun address => ?_
    rw [hplace, hanswer, Except.ok.injEq]
  · rw [(hplace address).1 haddress] at hanswers
    obtain ⟨-, hfound⟩ := hanswers.of_ok
    obtain ⟨x, hx, hposition, rfl⟩ := hrecord address hfound.symm
    obtain ⟨kept, payload, gone, rfl, rfl⟩ := Frame.exists_split_of_mem hx
    dsimp only at hposition ⊢
    exact ⟨kept, payload :: gone, rfl, by omega, Nat.zero_add _⟩

/-- Between two records the storage can be cut, once it was read. -/
theorem truncate_found {kept gone : List Bytes} (hsound : s.storage.Sound)
    (hopen : s.storage.isOpen = true) (hlog : s.storage.stored = Frame.encodeRun 0 (kept ++ gone))
    {found storage : Storage} (halike : s.storage.ReadAlike found) {r : Except LogError Unit}
    (hcut : (Storage.truncate (Frame.encodeRun 0 kept).length).run found = (r, storage)) :
    (storage.faults .read).used = (found.faults .read).used ∧
      ((s.storage.faults .truncate).failsNow = false → r = .ok ()) := by
  obtain ⟨hfoundSound, hfoundStored⟩ := halike.alike.keeps hsound
  rw [← halike.others .truncate (by decide)]
  refine Storage.truncate_passes hfoundSound (halike.confined.isOpen.trans hopen) ?_ hcut
  rw [hfoundStored, hlog, Frame.encodeRun_append, List.length_append]
  omega

theorem truncate_exactly (hsound : s.storage.Sound)
    (hopen : s.state = .opened → s.storage.isOpen = true)
    (hlog : s.buffer.slots = [] → s.storage.stored = Frame.encodeRun 0 payloads)
    (hr : Frame.Readable 0 payloads) (hlists : s.index.Lists payloads) {r : Except LogError Unit}
    (h : (truncate position).run s = (r, t)) : s.TruncatesExactly payloads position r t := by
  cases truncate_cases h with
  | refused hallow =>
    refine .of_error (u := s.storage) rfl fun _ _ hboth => ?_
    rw [allowTruncate_eq_ok_iff.2 hboth.1] at hallow
    simp at hallow
  | missed hallow hfind =>
    have hstored := hlog (allowTruncate_eq_ok_iff.1 hallow).2.2.2
    obtain ⟨storage, rfl, halike, hfound, -⟩ := addressOf_exactly hsound hstored hr hlists hfind
    refine .of_error (halike.alike.keeps hsound).2 fun hread _ hboth => ?_
    obtain ⟨address, hbad⟩ := (hfound hread).2 hboth.2
    simp at hbad
  | @uncut e u address storage hallow hfind hcut =>
    obtain ⟨hopened, -, -, hempty⟩ := allowTruncate_eq_ok_iff.1 hallow
    obtain ⟨found, rfl, halike, -, hplace⟩ :=
      addressOf_exactly hsound (hlog hempty) hr hlists hfind
    obtain ⟨kept, gone, rfl, -, rfl⟩ := hplace address rfl
    obtain ⟨hfoundSound, hfoundStored⟩ := halike.alike.keeps hsound
    obtain ⟨-, hpasses⟩ := truncate_found hsound (hopen hopened) (hlog hempty) halike hcut
    refine TruncatesExactly.of_error (s := s) (u := storage)
      ((Storage.truncate_error hfoundSound hcut).2.trans hfoundStored) fun _ hpass _ => ?_
    have hbad := hpasses hpass
    simp at hbad
  | @cut u address storage hallow hfind hcut =>
    have hguards := allowTruncate_eq_ok_iff.1 hallow
    have hopened := hguards.1
    have hempty := hguards.2.2.2
    obtain ⟨found, rfl, halike, hfound, hplace⟩ :=
      addressOf_exactly hsound (hlog hempty) hr hlists hfind
    obtain ⟨kept, gone, rfl, hspan, rfl⟩ := hplace address rfl
    obtain ⟨hreads, -⟩ := truncate_found hsound (hopen hopened) (hlog hempty) halike hcut
    have hstored : storage.stored = Frame.encodeRun 0 kept := by
      rw [(Storage.truncate_ok (halike.alike.sound hsound) hcut).2.2]
      refine (congrArg (List.take _) (halike.alike.stored.trans (hlog hempty))).trans ?_
      rw [Frame.encodeRun_append, List.take_left]
    refine ⟨fun hread _ => ⟨fun _ => ⟨hguards, ?_⟩, fun _ => rfl⟩, fun _ => ?_, fun _ hne => ?_,
      fun _ => ⟨BlockIndex.entries_forget hlists hspan, rfl⟩, by simp⟩
    · refine (hfound fun hfaulted => hread ?_).1 ⟨_, rfl⟩
      obtain ⟨n, hlo, hhi, hfails⟩ := hfaulted
      exact ⟨n, hlo, by rw [← hreads] at hhi; exact hhi, hfails⟩
    · exact ⟨kept, gone, rfl, hstored, fun x hx => Frame.mem_kept_of_lt hspan hx,
        fun x => Frame.lt_or_empty_of_mem ((Int.zero_add _).trans hspan)⟩
    · rw [Frame.filter_recordsOf_kept hspan fun x hx =>
        hne x (Frame.mem_recordsOf_append hx gone), Frame.framesOf_recordsOf]
      exact hstored

end LogStream

/-! ## Whatever was done before -/

namespace Run

variable {s : LogStream} {initial payloads : List Bytes} {actions : List Action}

/-- Whatever fails and whatever was done before: where the log holds contiguous records from position
0 on and the index lists some of them, a truncation at any position is exact, or changes nothing. -/
theorem truncates_exactly (hunused : s.Unused)
    (hown : s.storage.Exclusive s.appender.log.sampling.snapshotPath)
    (hwhole : ∀ action ∈ actions, ¬ action.Tears)
    (hbetween : ((start s initial).after actions).lifecycle.Between)
    (hlog : ((start s initial).after actions).appender.visible = Frame.encodeRun 0 payloads)
    (hr : Frame.Readable 0 payloads)
    (hlists : ((start s initial).after actions).stream.index.Lists payloads) (position : Int)
    {r : Except LogError Unit} {t : LogStream}
    (h : (LogStream.truncate position).run ((start s initial).after actions).stream = (r, t)) :
    ((start s initial).after actions).stream.TruncatesExactly payloads position r t := by
  have hkempt : ((start s initial).after actions).lifecycle.Kempt :=
    after_kempt (start_kempt hunused hown) hwhole
  have hconsistent := hkempt.consistent hbetween
  generalize (start s initial).after actions = u at *
  refine LogStream.truncate_exactly hkempt.tended.orderly.sound
    (fun hopened => (hconsistent.components hopened).1) (fun hempty => ?_) hr hlists h
  have hnone : u.appender.staleBlock = none := by
    cases hstale : u.appender.staleBlock with
    | none => rfl
    | some address => exact absurd hempty (hconsistent.stale address hstale).2.2
  rw [← hlog]
  exact (Appender.visible_of_none hnone).symm

/-- Three records, the second of which is empty. They are too small for all of them to be indexed. -/
def doubled : LogStream where
  config := {}
  appender := {
    log := {
      storage := { medium := .memory false (Frame.encodeRun 0 [[1], [], [2]]) 0 }
      sampling := { threshold := 20, windowSize := 64 } }
    buffer := { capacity := 128, maxFragment := 32 }
    maxBlock := 64 }

/-- The stream is opened, and its appender stopped. -/
def stopped : List Action := carryOut .openUp ++ carryOut .stopAppender

/-- The log is not changed by that, and the last record is in the index, but not the empty one. -/
theorem stopped_doubled :
    ((start doubled [[1], [], [2]]).after stopped).lifecycle.current.isNone = true ∧
      ((start doubled [[1], [], [2]]).after stopped).appender.visible
        = Frame.encodeRun 0 [[1], [], [2]] ∧
      ((start doubled [[1], [], [2]]).after stopped).stream.index.entries = [⟨0, 0⟩, ⟨1, 33⟩] := by
  decide +kernel

theorem between_doubled : ((start doubled [[1], [], [2]]).after stopped).lifecycle.Between :=
  Lifecycle.between_of_idle (Option.isNone_iff_eq_none.1 stopped_doubled.1)

theorem lists_doubled :
    ((start doubled [[1], [], [2]]).after stopped).stream.index.Lists [[1], [], [2]] := by
  intro e he
  rw [stopped_doubled.2.2] at he
  revert e
  decide

theorem truncate_doubled :
    ∃ t, (LogStream.truncate 1).run ((start doubled [[1], [], [2]]).after stopped).stream
        = (.ok (), t) ∧ t.storage.stored = Frame.encodeRun 0 [[1], []] := by
  have hok : ((LogStream.truncate 1).run
      ((start doubled [[1], [], [2]]).after stopped).stream).1.toOption = some () := by decide +kernel
  have hstored : ((LogStream.truncate 1).run
      ((start doubled [[1], [], [2]]).after stopped).stream).2.storage.stored
        = Frame.encodeRun 0 [[1], []] := by decide +kernel
  generalize (LogStream.truncate 1).run ((start doubled [[1], [], [2]]).after stopped).stream = result
    at hok hstored
  obtain ⟨outcome, t⟩ := result
  cases outcome with
  | error e => simp [Except.toOption] at hok
  | ok done => exact ⟨t, rfl, hstored⟩

theorem truncates_exactly_doubled :
    doubled.Unused ∧ doubled.storage.Exclusive none ∧ (∀ action ∈ stopped, ¬ action.Tears) ∧
      ∃ t, t.storage.stored = Frame.encodeRun 0 [[1], []] ∧
        ((start doubled [[1], [], [2]]).after stopped).stream.TruncatesExactly [[1], [], [2]] 1
          (.ok ()) t := by
  have hunused : doubled.Unused := ⟨rfl, rfl, rfl, rfl, rfl⟩
  have hown : doubled.storage.Exclusive none := Storage.exclusive_of_memory rfl none
  have hwhole : ∀ action ∈ stopped, ¬ action.Tears := by decide
  have hr : Frame.Readable 0 [[1], [], [2]] := by simp [Frame.Readable, Frame.Framable]
  obtain ⟨t, hrun, hstored⟩ := truncate_doubled
  exact ⟨hunused, hown, hwhole, t, hstored, truncates_exactly hunused hown hwhole between_doubled
    stopped_doubled.2.1 hr lists_doubled 1 hrun⟩

/-- The record at the position is not gone: the index leads to the one behind it. -/
theorem truncate_leaves_empty_record :
    doubled.Unused ∧ doubled.storage.Exclusive none ∧ (∀ action ∈ stopped, ¬ action.Tears) ∧
      ((start doubled [[1], [], [2]]).after stopped).lifecycle.Between ∧
      ((start doubled [[1], [], [2]]).after stopped).appender.visible
        = Frame.encodeRun 0 [[1], [], [2]] ∧
      Frame.Readable 0 [[1], [], [2]] ∧
      ((start doubled [[1], [], [2]]).after stopped).stream.index.Lists [[1], [], [2]] ∧
      ∃ t, (LogStream.truncate 1).run ((start doubled [[1], [], [2]]).after stopped).stream
          = (.ok (), t) ∧
        t.storage.stored ≠ Frame.framesOf
          ((Frame.recordsOf 0 0 [[1], [], [2]]).filter (·.position < 1)) := by
  obtain ⟨t, hrun, hstored⟩ := truncate_doubled
  refine ⟨⟨rfl, rfl, rfl, rfl, rfl⟩, Storage.exclusive_of_memory rfl none, by decide,
    between_doubled, stopped_doubled.2.1, by simp [Frame.Readable, Frame.Framable], lists_doubled, t,
    hrun, ?_⟩
  rw [hstored]
  decide +kernel

end Run

end PartitionLog
