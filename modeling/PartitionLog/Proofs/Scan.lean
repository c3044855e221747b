import PartitionLog.IndexedLog
import PartitionLog.Proofs.Index
import PartitionLog.Proofs.Reading

/-!
# The recovery scan

`scan.At log address start before`: the scan has the run `before` from position `start` behind it and
is at `address`. Every record it reads is put behind the run, so a scan that ends well has the whole
log or its part before a damaged frame behind it (`run_spec`). Its index describes the log all
along, also where the scan fails.
-/

namespace PartitionLog

namespace Scan

structure At (scan : Scan) (log : Bytes) (address : Nat) (start : Int) (before : List Bytes) :
    Prop where
  sees : scan.reading.Sees log
  describes : scan.index.Describes log
  readable : Frame.Readable start before
  bytes : Frame.encodeRun start before = log.take address
  within : address ≤ log.length
  /-- A record that is taken next continues the run. -/
  next : ∀ r, Frame.decode (log.drop address) address = .ok (some r) →
    ¬ Breaks scan.recovered r → r.position = start + Frame.span before
  /-- Entries lie behind the scan; a scan that starts at an entry has its record ahead. -/
  below : scan.index.Below address ∨
    (scan.index.Below (address + 1) ∧
      ∃ r, Frame.decode (log.drop address) address = .ok (some r))

/-- What lies behind a scan that ended without a failure. -/
structure Ended (scan : Scan) (log : Bytes) (start : Int) (payloads : List Bytes)
    (stop : Option (Nat × Damage)) : Prop where
  readable : Frame.Readable start payloads
  bytes : Frame.encodeRun start payloads <+: log
  below : scan.index.Below (Frame.encodeRun start payloads).length
  stopped : match stop with
    | none => Frame.encodeRun start payloads = log
    | some (bad, damage) => bad = (Frame.encodeRun start payloads).length ∧
        Frame.decode (log.drop bad) bad = .error (.corruption bad damage)

variable {scan : Scan} {log : Bytes} {address : Nat} {start : Int} {before : List Bytes}

theorem At.length (h : scan.At log address start before) :
    (Frame.encodeRun start before).length = address := by
  rw [h.bytes, List.length_take, Nat.min_eq_left h.within]

/-- Behind a record that is read, the run is longer by its payload. -/
theorem At.bytes_append (h : scan.At log address start before) {r : Record}
    (hd : Frame.decode (log.drop address) address = .ok (some r))
    (hpos : r.position = start + Frame.span before) :
    Frame.Readable start (before ++ [r.payload]) ∧
      Frame.encodeRun start (before ++ [r.payload]) = log.take r.nextAddress ∧
      r.nextAddress ≤ log.length := by
  obtain ⟨ha, hf, he⟩ := Frame.encode_of_decode hd
  have hlen := (Frame.length_of_decode hd).2
  rw [List.length_drop] at hlen
  refine ⟨Frame.readable_append.2 ⟨h.readable, hpos ▸ hf, trivial⟩, ?_, ?_⟩
  · rw [Frame.encodeRun_append, h.bytes, ← hpos, Frame.encodeRun, Frame.encodeRun,
      List.append_nil, he, Record.nextAddress, ha, List.take_add]
  · have := h.within
    rw [Record.nextAddress, ha]
    omega

/-- A record at the position of the last entry begins the count again, one that is due gets an entry
and begins it too, and any other is counted. -/
theorem sample_cases {threshold : Nat} {index after : BlockIndex} {since sinceAfter : Option Nat}
    {r : Record} (h : sample threshold index since r = .ok (after, sinceAfter)) :
    (index.last?.map (·.position) = some r.position ∧ after = index ∧
      sinceAfter = some r.frameLength) ∨
    (index.last?.map (·.position) ≠ some r.position ∧
      ((needsEntry threshold since = true ∧ index.append r.position r.address = .ok after ∧
          sinceAfter = some r.frameLength) ∨
        (needsEntry threshold since = false ∧ after = index ∧
          sinceAfter = since.map (· + r.frameLength)))) := by
  unfold sample at h
  split at h
  · next hsame =>
    simp only [Except.ok.injEq, Prod.mk.injEq] at h
    exact .inl ⟨hsame, h.1.symm, h.2.symm⟩
  · next hother =>
    refine .inr ⟨hother, ?_⟩
    split at h
    · next hdue =>
      cases ha : index.append r.position r.address with
      | error e => simp [ha, Except.map] at h
      | ok ix =>
        simp only [ha, Except.map, Except.ok.injEq, Prod.mk.injEq] at h
        exact .inl ⟨hdue, by rw [h.1], h.2.symm⟩
    · next hnot =>
      simp only [Except.ok.injEq, Prod.mk.injEq] at h
      exact .inr ⟨by simpa using hnot, h.1.symm, h.2.symm⟩

theorem sample_ok {threshold : Nat} {index after : BlockIndex} {since sinceAfter : Option Nat}
    {r : Record} (h : sample threshold index since r = .ok (after, sinceAfter)) :
    after = index ∨ index.append r.position r.address = .ok after := by
  obtain ⟨-, hsame, -⟩ | ⟨-, ⟨-, happ, -⟩ | ⟨-, hsame, -⟩⟩ := sample_cases h
  · exact .inl hsame
  · exact .inr happ
  · exact .inl hsame

/-- One step of the scan: a record that is taken moves behind it. -/
theorem At.step (h : scan.At log address start before) {threshold : Nat} {r : Record}
    {reading : Reading} {index : BlockIndex} {since : Option Nat}
    (hread : (Reading.readAt address).run scan.reading = (.ok (some r), reading))
    (hseq : ¬ Breaks scan.recovered r)
    (hs : sample threshold scan.index scan.sinceEntry r = .ok (index, since)) :
    At ⟨reading, index, since, scan.recovered.add r⟩ log r.nextAddress start
        (before ++ [r.payload]) ∧
      r = ⟨start + Frame.span before, address, r.payload⟩ := by
  obtain ⟨hsees, hreads⟩ := Reading.readAt_spec h.sees hread
  have hd := hreads.some
  have ha := (Frame.length_of_decode hd).1
  have hpos := h.next r hd hseq
  obtain ⟨hreadable, hbytes, hle⟩ := h.bytes_append hd hpos
  have hlt := r.lt_nextAddress
  have hmarks : IndexEntry.Marks ⟨r.position, r.address⟩ log :=
    fun _ => ⟨start, before, h.readable, by rw [h.bytes, ha], hpos.symm⟩
  have hbelow : scan.index.Below r.nextAddress := by
    rcases h.below with hb | ⟨hb, -⟩
    · exact hb.mono (by omega)
    · exact hb.mono (by omega)
  refine ⟨⟨hsees, ?_, hreadable, hbytes, hle, ?_, ?_⟩, ?_⟩
  · rcases sample_ok hs with rfl | happ
    · exact h.describes
    · exact BlockIndex.describes_append h.describes hmarks happ
  · intro s _ hns
    simp only [Breaks, Recovered.add, Option.isSome_some, true_and, Decidable.not_not] at hns
    rw [hns, Record.nextPosition, hpos, Frame.span_append, Frame.span_cons, Frame.span_nil]
    omega
  · refine .inl ?_
    rcases sample_ok hs with rfl | happ
    · exact hbelow
    · exact BlockIndex.below_append hbelow (by omega) happ
  · rw [← hpos, ← ha]

theorem run_spec (threshold address : Nat) (scan : Scan) {after : Scan} {log : Bytes} {start : Int}
    {before : List Bytes} {outcome : Except LogError (Option (Nat × Damage))}
    (h : scan.At log address start before)
    (hr : run threshold address scan = (outcome, after)) :
    after.reading.Sees log ∧ after.index.Describes log ∧
      ∀ stop, outcome = .ok stop → ∃ scanned,
        after.Ended log start (before ++ scanned) stop ∧
        after.recovered = (Frame.recordsOf (start + Frame.span before) address scanned).foldl
          Recovered.add scan.recovered := by
  fun_induction run threshold address scan generalizing before with
  | case1 address scan bad damage reading hread =>
    simp only [Prod.mk.injEq] at hr
    obtain ⟨rfl, rfl⟩ := hr
    obtain ⟨hsees, hreads⟩ := Reading.readAt_spec h.sees hread
    obtain ⟨rfl, hd⟩ := hreads.corruption
    refine ⟨hsees, h.describes, fun stop hstop => ⟨[], ⟨?_, ?_, ?_, ?_⟩, rfl⟩⟩
    · simpa using h.readable
    · rw [List.append_nil, h.bytes]
      exact List.take_prefix ..
    · rw [List.append_nil, h.length]
      rcases h.below with hb | ⟨-, r, hr⟩
      · exact hb
      · rw [hr] at hd; simp at hd
    · cases hstop
      exact ⟨by rw [List.append_nil, h.length], hd⟩
  | case2 address scan e reading _ hread =>
    simp only [Prod.mk.injEq] at hr
    obtain ⟨rfl, rfl⟩ := hr
    exact ⟨(Reading.readAt_spec h.sees hread).1, h.describes, by simp⟩
  | case3 address scan reading hread =>
    simp only [Prod.mk.injEq] at hr
    obtain ⟨rfl, rfl⟩ := hr
    obtain ⟨hsees, hreads⟩ := Reading.readAt_spec h.sees hread
    have hend := hreads.none
    refine ⟨hsees, h.describes, fun stop hstop => ⟨[], ⟨?_, ?_, ?_, ?_⟩, rfl⟩⟩
    · simpa using h.readable
    · rw [List.append_nil, h.bytes]
      exact List.take_prefix ..
    · rw [List.append_nil, h.length]
      rcases h.below with hb | ⟨-, r, hr⟩
      · exact hb
      · rw [hend] at hr; simp at hr
    · cases hstop
      rw [List.append_nil, h.bytes]
      exact List.take_of_length_le (List.drop_eq_nil_iff.1 hend)
  | case4 address scan r reading hread _ =>
    simp only [Prod.mk.injEq] at hr
    obtain ⟨rfl, rfl⟩ := hr
    exact ⟨(Reading.readAt_spec h.sees hread).1, h.describes, by simp⟩
  | case5 address scan r reading hread _ e _ =>
    simp only [Prod.mk.injEq] at hr
    obtain ⟨rfl, rfl⟩ := hr
    exact ⟨(Reading.readAt_spec h.sees hread).1, h.describes, by simp⟩
  | case6 address scan r reading hread hseq index since hs ih =>
    obtain ⟨hat, hrec⟩ := h.step hread hseq hs
    obtain ⟨hsees, hdescribes, hok⟩ := ih hat hr
    refine ⟨hsees, hdescribes, fun stop hstop => ?_⟩
    obtain ⟨scanned, hended, hfold⟩ := hok stop hstop
    refine ⟨r.payload :: scanned, ?_, ?_⟩
    · simpa using hended
    · have hpos : start + (Frame.span (before ++ [r.payload]) : Nat)
          = start + Frame.span before + r.payload.length := by
        rw [Frame.span_append, Frame.span_cons, Frame.span_nil]
        omega
      have haddr : r.nextAddress = address + Frame.lengthFor r.payload.length := by
        conv => lhs; rw [hrec]
        rfl
      rw [hfold, hpos, haddr, Frame.recordsOf, List.foldl_cons, ← hrec]

/-- The entries that a scan adds name records that it read. -/
theorem run_names (threshold address : Nat) (scan : Scan) {after : Scan} {log : Bytes}
    {outcome : Except LogError (Option (Nat × Damage))} (h : scan.reading.Sees log)
    (hr : run threshold address scan = (outcome, after)) :
    ∀ e ∈ after.index.entries, e ∈ scan.index.entries ∨ e.Names log := by
  fun_induction run threshold address scan with
  | case6 address scan r reading hread _ index since hs ih =>
    obtain ⟨hsees, hreads⟩ := Reading.readAt_spec h hread
    have hd := hreads.some
    intro e he
    refine (ih hsees hr e he).elim (fun hmem => ?_) .inr
    rcases sample_ok hs with rfl | happ
    · exact .inl hmem
    · rw [(BlockIndex.entries_append happ).1] at hmem
      rcases List.mem_append.1 hmem with hold | hnew
      · exact .inl hold
      · obtain rfl := List.mem_singleton.1 hnew
        obtain ha := (Frame.length_of_decode hd).1
        exact .inr ⟨r, by rw [ha]; exact hd, rfl⟩
  | _ =>
    simp only [Prod.mk.injEq] at hr
    obtain ⟨-, rfl⟩ := hr
    exact fun e he => .inl he

end Scan

end PartitionLog
