import PartitionLog.Proofs.Reading

/-!
# Reads that do not fail

Reading changes nothing in a storage but the count of its reads (`ReadAlike`). A storage that is open
and whose fault plan lets reads pass `Serves` every read: a reader over it answers at every address
what decoding the log there answers (`readAt_serves`).
-/

namespace PartitionLog

namespace Storage

/-- Whether the fault plan lets every read pass. -/
def ReadsPass (s : Storage) : Prop := ∀ n, (s.faults .read).fails n = false

/-- Nothing differs but the number of reads that were made. -/
structure ReadAlike (s t : Storage) : Prop where
  medium : t.medium = s.medium
  files : t.files = s.files
  others : ∀ call, call ≠ .read → t.faults call = s.faults call
  fails : (t.faults .read).fails = (s.faults .read).fails
  gate : t.isGated = s.isGated

/-- An open storage whose reads do not fail. -/
structure Serves (s : Storage) : Prop where
  isOpen : s.isOpen = true
  passes : s.ReadsPass

variable {s t u : Storage}

theorem ReadAlike.refl (s : Storage) : s.ReadAlike s := ⟨rfl, rfl, fun _ _ => rfl, rfl, rfl⟩

theorem ReadAlike.symm (h : s.ReadAlike t) : t.ReadAlike s :=
  ⟨h.medium.symm, h.files.symm, fun call hc => (h.others call hc).symm, h.fails.symm,
    h.gate.symm⟩

theorem ReadAlike.trans (h : s.ReadAlike t) (hu : t.ReadAlike u) : s.ReadAlike u :=
  ⟨hu.medium.trans h.medium, hu.files.trans h.files,
    fun call hc => (hu.others call hc).trans (h.others call hc), hu.fails.trans h.fails,
    hu.gate.trans h.gate⟩

theorem ReadAlike.alike (h : s.ReadAlike t) : s.Alike t := ⟨h.medium, h.files⟩

theorem ReadAlike.serves (h : s.ReadAlike t) (hs : s.Serves) : t.Serves := by
  refine ⟨?_, fun n => ?_⟩
  · have := hs.isOpen
    unfold isOpen at this ⊢
    rw [h.medium]
    exact this
  · rw [h.fails]
    exact hs.passes n

theorem allow_readAlike {r : Except LogError Unit} (h : (allow .read).run s = (r, t)) :
    s.ReadAlike t := by
  obtain ⟨rfl, -⟩ := allow_cases h
  exact ⟨rfl, rfl, fun call hc => if_neg hc, by simp [FaultPlan.set, Schedule.next], rfl⟩

theorem readMedium_state {address max : Nat} {r : Except LogError Bytes}
    (h : (readMedium address max).run s = (r, t)) : t = s := by
  unfold Attempt.run readMedium at h
  split at h
  · simp only [Prod.mk.injEq] at h
    exact h.2.symm
  · dsimp only at h
    split at h
    · simp only [Prod.mk.injEq] at h
      exact h.2.symm
    · simp only [Prod.mk.injEq] at h
      exact h.2.symm
  · simp only [Prod.mk.injEq] at h
    exact h.2.symm

theorem read_readAlike {address max : Nat} {r : Except LogError Bytes}
    (h : (read address max).run s = (r, t)) : s.ReadAlike t := by
  rw [read, Attempt.run_bind] at h
  split at h
  · next hallow =>
    rw [readMedium_state h]
    exact allow_readAlike hallow
  · next hallow =>
    simp only [Prod.mk.injEq] at h
    exact h.2 ▸ allow_readAlike hallow

theorem isOpen_cases (h : s.isOpen = true) :
    (∃ bytes flushes, s.medium = .memory true bytes flushes) ∨
      ∃ path handle, s.medium = .file path (some handle) := by
  unfold isOpen at h
  split at h
  · next bytes flushes hm => exact .inl ⟨bytes, flushes, by rw [hm, h]⟩
  · next path handle hm =>
    obtain ⟨opened, rfl⟩ := Option.isSome_iff_exists.1 h
    exact .inr ⟨path, opened, hm⟩

theorem readMedium_serves (hs : s.Sound) (hopen : s.isOpen = true) (address max : Nat) :
    ∃ bytes, (readMedium address max).run s = (.ok bytes, s) := by
  unfold Attempt.run readMedium
  obtain ⟨bytes, flushes, hm⟩ | ⟨path, handle, hm⟩ := isOpen_cases hopen
  · rw [hm]
    exact ⟨_, rfl⟩
  · simp only [Sound, hm] at hs
    rw [hm]
    dsimp only
    rw [Bytes.length_slice, hs.2, if_pos (by omega)]
    exact ⟨_, rfl⟩

theorem read_serves (hs : s.Sound) (h : s.Serves) (address max : Nat) :
    ∃ bytes t, (read address max).run s = (.ok bytes, t) := by
  have hallow := allow_passes h.passes
  obtain ⟨bytes, hbytes⟩ := readMedium_serves (allow_readAlike hallow |>.alike.sound hs)
    ((allow_readAlike hallow).serves h).isOpen address max
  exact ⟨bytes, _, by rw [read, Attempt.run_bind_ok hallow, hbytes]⟩

end Storage

namespace Reading

variable {rs ts : Reading} {log : Bytes}

theorem fetch_readAlike {address length : Nat} {r : Except LogError Bytes}
    (h : (fetch address length).run rs = (r, ts)) : rs.storage.ReadAlike ts.storage := by
  unfold Attempt.run fetch at h
  split at h
  · simp only [Prod.mk.injEq] at h
    exact h.2 ▸ .refl _
  · split at h
    · next hread =>
      simp only [Prod.mk.injEq] at h
      exact h.2 ▸ Storage.read_readAlike hread
    · next hread =>
      simp only [Prod.mk.injEq] at h
      exact h.2 ▸ Storage.read_readAlike hread

theorem readAt_readAlike {address : Nat} {r : Except LogError (Option Record)}
    (h : (readAt address).run rs = (r, ts)) : rs.storage.ReadAlike ts.storage := by
  rw [readAt, Attempt.run_bind] at h
  split at h
  · next hheader =>
    have hfirst := fetch_readAlike hheader
    split at h
    · rw [run_ofExcept, Prod.mk.injEq] at h
      exact h.2 ▸ hfirst
    · rw [Attempt.run_bind] at h
      split at h
      · next hframe =>
        rw [run_ofExcept, Prod.mk.injEq] at h
        exact h.2 ▸ hfirst.trans (fetch_readAlike hframe)
      · next hframe =>
        simp only [Prod.mk.injEq] at h
        exact h.2 ▸ hfirst.trans (fetch_readAlike hframe)
  · next hheader =>
    simp only [Prod.mk.injEq] at h
    exact h.2 ▸ fetch_readAlike hheader

theorem fetch_serves (h : rs.Sees log) (hs : rs.storage.Serves) (address length : Nat) :
    ∃ bytes ts, (fetch address length).run rs = (.ok bytes, ts) := by
  unfold Attempt.run fetch
  split
  · exact ⟨_, _, rfl⟩
  · obtain ⟨bytes, t, hread⟩ :=
      Storage.read_serves h.sound hs address (max length rs.reader.blockSize)
    rw [hread]
    exact ⟨_, _, rfl⟩

/-- A reader answers what is in the log. -/
theorem readAt_serves {address : Nat} {r : Except LogError (Option Record)} (h : rs.Sees log)
    (hs : rs.storage.Serves) (hr : (readAt address).run rs = (r, ts)) :
    r = Frame.decode (log.drop address) address := by
  obtain ⟨-, hreads⟩ := readAt_spec h hr
  refine hreads.resolve_right ?_
  rintro ⟨e, rfl, hne⟩
  -- with both fetches answered, what fails is the decoding, and it reports damage
  have hdamage : ∀ {bytes : Bytes} {us : Reading},
      (Attempt.ofExcept (Frame.decode bytes address)).run us ≠ (.error e, ts) := by
    intro bytes us heq
    rw [run_ofExcept, Prod.mk.injEq] at heq
    obtain ⟨damage, rfl⟩ := Frame.decode_error heq.1
    exact hne address damage rfl
  obtain ⟨header, us, hheader⟩ := fetch_serves h hs address Frame.headerLength
  rw [readAt, Attempt.run_bind_ok hheader] at hr
  split at hr
  · exact hdamage hr
  · obtain ⟨frame, vs, hframe⟩ := fetch_serves (fetch_spec h hheader).1
      ((fetch_readAlike hheader).serves hs) address (Frame.lengthFor (Frame.lengthField header))
    rw [Attempt.run_bind_ok hframe] at hr
    exact hdamage hr

end Reading

end PartitionLog
