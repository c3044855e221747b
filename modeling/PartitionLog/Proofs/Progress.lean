import Mathlib.Logic.Relation
import PartitionLog.Proofs.FullScan
import PartitionLog.Proofs.TornReads

/-!
# Scans end

A scan reads at an address, and what it reads there tells it where to read next. Nothing vouches for
the bytes, or for the place where an index makes it start. Still a record that is read is no shorter
than a header and lies where there are bytes (`readAt_moves`), so a scan has only so many records in
front of it. `Loop` is a loop taken turn by turn, and `Loop.Ends` says that its turns move it on in
this way and that it answers within the number of turns that follows from that. All scans are such
loops (`scans_end`): seeking, reading record by record, reading the last record, and recovering.
-/

namespace PartitionLog

/-! ## Loops -/

/-- What one turn of a loop comes to: a state to go on from, or the answer. -/
inductive Loop.Turn (σ ρ : Type) where
  | again (s : σ)
  | ended (answer : ρ)

/-- A loop, by what one turn of it does. -/
def Loop (σ ρ : Type) : Type := σ → Loop.Turn σ ρ

namespace Loop

variable {σ ρ : Type} {loop : Loop σ ρ} {s t u : σ} {answer : ρ} {f : σ → ρ} {place : σ → Nat}
  {last : Nat}

/-- One turn takes `s` to `t`, and the loop goes on. -/
def GoesOn (loop : Loop σ ρ) (s t : σ) : Prop := loop s = .again t

/-- Some turns take `s` to `t`. -/
def Reaches (loop : Loop σ ρ) : σ → σ → Prop := Relation.ReflTransGen loop.GoesOn

/-- The answer of the loop if it has one after at most so many turns. -/
def answerWithin (loop : Loop σ ρ) : Nat → σ → Option ρ
  | 0, _ => none
  | turns + 1, s =>
    match loop s with
    | .again t => loop.answerWithin turns t
    | .ended answer => some answer

/-- `f` tells the answer of the loop: that of its last turn. -/
def Computes (loop : Loop σ ρ) (f : σ → ρ) : Prop :=
  ∀ s, f s = match loop s with
    | .again t => f t
    | .ended answer => answer

/-- A loop that works its way up to `last`: each turn that goes on moves it by a frame header at
least, and not past `last`. There is room for only so many of these turns; one more ends it. -/
structure Ends (loop : Loop σ ρ) (place : σ → Nat) (last : Nat) (s : σ) (answer : ρ) : Prop where
  moves : ∀ t u, loop.Reaches s t → loop.GoesOn t u → place t + 16 ≤ place u ∧ place u ≤ last
  answers : loop.answerWithin ((last - place s) / 16 + 1) s = some answer

theorem Computes.eq_of_answerWithin (hf : loop.Computes f) {turns : Nat}
    (h : loop.answerWithin turns s = some answer) : f s = answer := by
  induction turns generalizing s with
  | zero => simp [answerWithin] at h
  | succ turns ih =>
    rw [answerWithin] at h
    rw [hf s]
    split at h
    · exact ih h
    · simpa using h

/-- Induction on the turns: each of them takes 16 of the bytes that are left. -/
theorem exists_answerWithin {Inv : σ → Prop}
    (hstep : ∀ t u, Inv t → loop.GoesOn t u → Inv u ∧ place t + 16 ≤ place u ∧ place u ≤ last)
    (h : Inv s) {turns : Nat} (hturns : (last - place s) / 16 < turns) :
    ∃ answer, loop.answerWithin turns s = some answer := by
  induction turns generalizing s with
  | zero => omega
  | succ turns ih =>
    rw [answerWithin]
    split
    · next t ht =>
      obtain ⟨hinv, hmoves, hlast⟩ := hstep s t h ht
      exact ih hinv (by omega)
    · next answer _ => exact ⟨answer, rfl⟩

/-- What every turn keeps holds in every state that a loop reaches. -/
theorem Reaches.keeps {Inv : σ → Prop} (hstep : ∀ t u, Inv t → loop.GoesOn t u → Inv u) (h : Inv s)
    (ht : loop.Reaches s t) : Inv t := by
  induction ht with
  | refl => exact h
  | tail _ hturn ih => exact hstep _ _ ih hturn

theorem ends_of_step (Inv : σ → Prop) (hf : loop.Computes f)
    (hstep : ∀ t u, Inv t → loop.GoesOn t u → Inv u ∧ place t + 16 ≤ place u ∧ place u ≤ last)
    (h : Inv s) : loop.Ends place last s (f s) := by
  refine ⟨fun t u ht hturn => ?_, ?_⟩
  · exact (hstep t u (ht.keeps (fun t u ht hturn => (hstep t u ht hturn).1) h) hturn).2
  · obtain ⟨answer, hanswer⟩ := exists_answerWithin hstep h (Nat.lt_succ_self _)
    rw [hf.eq_of_answerWithin hanswer]
    exact hanswer

end Loop

namespace Reading

variable {rs ts : Reading} {α ρ : Type}

/-! ## How far a reader can get -/

/-- The window holds bytes of the storage as they are now. -/
def Current (rs : Reading) : Prop :=
  rs.reader.window = rs.storage.stored.slice rs.reader.windowAddress rs.reader.window.length

/-- Where the bytes end that a reader can come across: those that are stored, and those in its
window, which may have been cut off the storage since. -/
def reach (rs : Reading) : Nat :=
  max rs.storage.stored.length (if rs.reader.window = [] then 0 else rs.reader.windowEnd)

/-- An empty window shows nothing, also if it was filled from behind the end. -/
theorem reach_of_fits
    (h : rs.reader.window.length ≤ rs.storage.stored.length - rs.reader.windowAddress) :
    rs.reach = rs.storage.stored.length := by
  unfold reach Reader.windowEnd
  split
  · exact Nat.max_eq_left (Nat.zero_le _)
  · next hsome =>
    have hpos := List.length_pos_iff.2 hsome
    omega

theorem reach_ofWindow (size : Nat) (s : Storage) :
    (⟨.ofWindow size, s⟩ : Reading).reach = s.stored.length := reach_of_fits (Nat.zero_le _)

theorem Current.reach_eq (h : rs.Current) : rs.reach = rs.storage.stored.length := by
  apply reach_of_fits
  have hlength := congrArg List.length h
  rw [Bytes.length_slice] at hlength
  omega

theorem Sees.current {log : Bytes} (h : rs.Sees log) : rs.Current := by
  unfold Current
  rw [h.stored]
  exact h.window

/-- However a reader is used, its window stays current until the storage is cut. -/
theorem current_after {s : Storage} (hs : s.Sound) (size : Nat) (moves : List Move) :
    (after ⟨.ofWindow size, s⟩ moves).Current := by
  obtain ⟨more, hsees⟩ := (Sees.ofWindow hs size).after moves
  exact hsees.current

theorem fetch_reach {address length : Nat} {r : Except LogError Bytes}
    (h : (fetch address length).run rs = (r, ts)) :
    ts.reach ≤ rs.reach ∧
      ∀ bytes, r = .ok bytes → bytes ≠ [] → address + bytes.length ≤ rs.reach := by
  unfold Attempt.run fetch at h
  split at h
  · next hcovers =>
    simp only [Prod.mk.injEq] at h
    obtain ⟨rfl, rfl⟩ := h
    refine ⟨Nat.le_refl _, fun bytes hbytes hsome => ?_⟩
    obtain rfl := Except.ok.inj hbytes
    -- an empty window may lie anywhere, but no bytes come from it
    have hwindow : rs.reader.window ≠ [] := by
      intro hnone
      simp [hnone, Bytes.slice] at hsome
    obtain ⟨hlo, hhi⟩ := hcovers
    rw [Bytes.length_slice, reach, if_neg hwindow]
    omega
  · split at h
    · next e storage hread =>
      simp only [Prod.mk.injEq] at h
      obtain ⟨rfl, rfl⟩ := h
      have hstored : storage.stored = rs.storage.stored :=
        (Storage.read_readAlike hread).alike.stored
      refine ⟨?_, by simp⟩
      unfold reach
      rw [hstored]
    · next bytes storage hread =>
      simp only [Prod.mk.injEq] at h
      obtain ⟨rfl, rfl⟩ := h
      obtain ⟨hstored, hlength⟩ := Storage.read_ok hread
      have hstays : rs.storage.stored.length ≤ rs.reach := Nat.le_max_left ..
      refine ⟨?_, fun taken htaken hsome => ?_⟩
      · rw [reach_of_fits (hstored ▸ hlength), hstored]
        exact hstays
      · obtain rfl := Except.ok.inj htaken
        have hpos := List.length_pos_iff.2 hsome
        rw [List.length_take] at hpos ⊢
        omega

/-- A record that is read was decoded from bytes that the reader can come across. -/
theorem readAt_reach {address : Nat} {r : Except LogError (Option Record)}
    (h : (readAt address).run rs = (r, ts)) :
    ts.reach ≤ rs.reach ∧ ∀ found, r = .ok (some found) → ∃ bytes,
      Frame.decode bytes address = .ok (some found) ∧ address + bytes.length ≤ rs.reach := by
  have hsome : ∀ {bytes : Bytes} {found : Record},
      Frame.decode bytes address = .ok (some found) → bytes ≠ [] := by
    rintro bytes found hd rfl
    rw [Frame.decode_nil] at hd
    simp at hd
  rw [readAt, Attempt.run_bind] at h
  split at h
  · next header us hheader =>
    obtain ⟨hus, hbytes⟩ := fetch_reach hheader
    split at h
    · rw [run_ofExcept, Prod.mk.injEq] at h
      obtain ⟨rfl, rfl⟩ := h
      exact ⟨hus, fun found hd => ⟨header, hd, hbytes _ rfl (hsome hd)⟩⟩
    · rw [Attempt.run_bind] at h
      split at h
      · next frame vs hframe =>
        obtain ⟨hvs, hbytes⟩ := fetch_reach hframe
        rw [run_ofExcept, Prod.mk.injEq] at h
        obtain ⟨rfl, rfl⟩ := h
        exact ⟨Nat.le_trans hvs hus, fun found hd =>
          ⟨frame, hd, Nat.le_trans (hbytes _ rfl (hsome hd)) hus⟩⟩
      · next e vs hframe =>
        simp only [Prod.mk.injEq] at h
        obtain ⟨rfl, rfl⟩ := h
        exact ⟨Nat.le_trans (fetch_reach hframe).1 hus, by simp⟩
  · next e us hheader =>
    simp only [Prod.mk.injEq] at h
    obtain ⟨rfl, rfl⟩ := h
    exact ⟨(fetch_reach hheader).1, by simp⟩

/-- Behind a record that is read, a scan is further on, and not too far. -/
theorem readAt_moves {address : Nat} {r : Record}
    (h : (readAt address).run rs = (.ok (some r), ts)) :
    ts.reach ≤ rs.reach ∧ address + 16 ≤ r.nextAddress ∧ r.nextAddress ≤ rs.reach := by
  obtain ⟨hts, hdecodes⟩ := readAt_reach h
  obtain ⟨bytes, hd, hbytes⟩ := hdecodes r rfl
  obtain ⟨rfl, hlength⟩ := Frame.length_of_decode hd
  refine ⟨hts, r.lt_nextAddress, ?_⟩
  rw [Record.nextAddress]
  omega

/-! ## The loops of a reader -/

/-- The turns of a seek: a record below the position is passed. -/
def seekLoop (position : Int) : Loop (Nat × Reading) (Except LogError Bool × Reading) :=
  fun (address, rs) =>
    match (readAt address).run rs with
    | (.error e, ts) => .ended (.error e, ts)
    | (.ok none, ts) => .ended (.ok false, ts.moveTo address)
    | (.ok (some r), ts) =>
      if r.position < position then .again (r.nextAddress, ts)
      else .ended (.ok (r.position == position), ts.moveTo r.address)

/-- A loop that asks for the next record until there is none or the call fails. It takes up each
record, and makes its answer of what it has taken up and of the failure. -/
def recordLoop (take : α → Record → α) (answer : α → Option LogError → ρ) :
    Loop (α × Reading) (ρ × Reading) :=
  fun (taken, rs) =>
    match nextRecord.run rs with
    | (.error e, ts) => .ended (answer taken (some e), ts)
    | (.ok none, ts) => .ended (answer taken none, ts)
    | (.ok (some r), ts) => .again (take taken r, ts)

/-- Reading record by record, all of them kept. -/
def collectLoop : Loop (List Record × Reading) ((List Record × Option LogError) × Reading) :=
  recordLoop (fun taken r => taken ++ [r]) Prod.mk

/-- What was taken up, unless a call failed. -/
def unlessFailed (taken : α) : Option LogError → Except LogError α
  | none => .ok taken
  | some e => .error e

/-- Reading record by record, the last of them kept. -/
def lastLoop : Loop (Option Record × Reading) (Except LogError (Option Record) × Reading) :=
  recordLoop (fun _ r => some r) unlessFailed

theorem seekLoop_computes (position : Int) :
    (seekLoop position).Computes fun (address, rs) => seekFrom position address rs := by
  rintro ⟨address, rs⟩
  unfold seekLoop
  dsimp only
  rw [seekFrom]
  split
  · next e ts hread => simp only [hread]
  · next ts hread => simp only [hread]
  · next r ts hread =>
    simp only [hread]
    split
    · rfl
    · rfl

theorem seekLoop_step {position : Int} {last address next : Nat} (h : rs.reach ≤ last)
    (hturn : (seekLoop position).GoesOn (address, rs) (next, ts)) :
    ts.reach ≤ last ∧ address + 16 ≤ next ∧ next ≤ last := by
  unfold Loop.GoesOn seekLoop at hturn
  dsimp only at hturn
  split at hturn
  · simp at hturn
  · simp at hturn
  · next r us hread =>
    obtain ⟨hus, hmoves, hlast⟩ := readAt_moves hread
    split at hturn
    · simp only [Loop.Turn.again.injEq, Prod.mk.injEq] at hturn
      obtain ⟨rfl, rfl⟩ := hturn
      omega
    · simp at hturn

theorem seekFrom_ends {last : Nat} (h : rs.reach ≤ last) (position : Int) (address : Nat) :
    (seekLoop position).Ends Prod.fst last (address, rs) (seekFrom position address rs) :=
  Loop.ends_of_step (fun s => s.2.reach ≤ last) (seekLoop_computes position)
    (fun _ _ hs hturn => seekLoop_step hs hturn) h

/-! Which record is next plays no part in reading at an address. -/

theorem fetch_moveTo {address length : Nat} {r : Except LogError Bytes}
    (h : (fetch address length).run rs = (r, ts)) (next : Nat) :
    (fetch address length).run (rs.moveTo next) = (r, ts.moveTo next) := by
  unfold Attempt.run fetch at h ⊢
  split at h
  · next hcovers =>
    rw [if_pos (show (rs.moveTo next).reader.Covers address length from hcovers)]
    simp only [Prod.mk.injEq] at h
    obtain ⟨rfl, rfl⟩ := h
    rfl
  · next huncovered =>
    rw [if_neg (show ¬ (rs.moveTo next).reader.Covers address length from huncovered)]
    have hstorage : (rs.moveTo next).storage = rs.storage := rfl
    have hsize : (rs.moveTo next).reader.blockSize = rs.reader.blockSize := rfl
    rw [hstorage, hsize]
    split at h
    · next e storage hread =>
      simp only [Prod.mk.injEq] at h
      obtain ⟨rfl, rfl⟩ := h
      rfl
    · next bytes storage hread =>
      simp only [Prod.mk.injEq] at h
      obtain ⟨rfl, rfl⟩ := h
      rfl

theorem readAt_moveTo {address : Nat} {r : Except LogError (Option Record)}
    (h : (readAt address).run rs = (r, ts)) (next : Nat) :
    (readAt address).run (rs.moveTo next) = (r, ts.moveTo next) := by
  rw [readAt, Attempt.run_bind] at h ⊢
  split at h
  · next header us hheader =>
    rw [fetch_moveTo hheader]
    dsimp only
    split at h
    · next hshort =>
      rw [run_ofExcept, Prod.mk.injEq] at h
      obtain ⟨rfl, rfl⟩ := h
      rw [if_pos hshort, run_ofExcept]
    · next hwhole =>
      rw [if_neg hwhole]
      rw [Attempt.run_bind] at h ⊢
      split at h
      · next frame vs hframe =>
        rw [run_ofExcept, Prod.mk.injEq] at h
        obtain ⟨rfl, rfl⟩ := h
        rw [fetch_moveTo hframe]
        dsimp only
        rw [run_ofExcept]
      · next e vs hframe =>
        simp only [Prod.mk.injEq] at h
        obtain ⟨rfl, rfl⟩ := h
        rw [fetch_moveTo hframe]
  · next e us hheader =>
    simp only [Prod.mk.injEq] at h
    obtain ⟨rfl, rfl⟩ := h
    rw [fetch_moveTo hheader]

theorem collectFrom_eq (address : Nat) (rs : Reading) : collectFrom address rs =
    match (readAt address).run rs with
    | (.error e, ts) => (([], some e), ts.moveTo address)
    | (.ok none, ts) => (([], none), ts.moveTo address)
    | (.ok (some r), ts) =>
      ((r :: (collectFrom r.nextAddress ts).1.1, (collectFrom r.nextAddress ts).1.2),
        (collectFrom r.nextAddress ts).2) := by
  rw [collectFrom]
  split
  · next e ts hread => simp only [hread]
  · next ts hread => simp only [hread]
  · next r ts hread => simp only [hread]

theorem collectFrom_moveTo (address next : Nat) (rs : Reading) :
    collectFrom address (rs.moveTo next) = collectFrom address rs := by
  fun_induction collectFrom address rs with
  | case1 address rs e us hread =>
    rw [collectFrom_eq, readAt_moveTo hread]
    rfl
  | case2 address rs us hread =>
    rw [collectFrom_eq, readAt_moveTo hread]
    rfl
  | case3 address rs r us hread records stop vs hrest ih =>
    rw [collectFrom_eq, readAt_moveTo hread]
    dsimp only
    rw [ih, hrest]

/-- Collecting, call by call. -/
theorem collect_eq (rs : Reading) : rs.collect =
    match nextRecord.run rs with
    | (.error e, ts) => (([], some e), ts)
    | (.ok none, ts) => (([], none), ts)
    | (.ok (some r), ts) => ((r :: ts.collect.1.1, ts.collect.1.2), ts.collect.2) := by
  generalize hcall : nextRecord.run rs = result
  obtain ⟨answer, ts⟩ := result
  obtain ⟨us, hread, ⟨r, rfl, rfl⟩ | ⟨hnot, rfl⟩⟩ := nextRecord_cases hcall
  · rw [collect, collectFrom_eq, hread]
    dsimp only
    rw [collect, collectFrom_moveTo]
    rfl
  · -- without a record the reader stays where it is
    have hstays : ts.moveTo rs.reader.next = ts := by
      rw [← readAt_next hread]
      rfl
    rw [collect, collectFrom_eq, hread]
    match answer with
    | .error e => exact congrArg (Prod.mk ([], some e)) hstays
    | .ok none => exact congrArg (Prod.mk ([], none)) hstays
    | .ok (some r) => exact absurd rfl (hnot r)

theorem recordLoop_computes (take : α → Record → α) (answer : α → Option LogError → ρ) :
    (recordLoop take answer).Computes fun (taken, rs) =>
      (answer (rs.collect.1.1.foldl take taken) rs.collect.1.2, rs.collect.2) := by
  rintro ⟨taken, rs⟩
  unfold recordLoop
  dsimp only
  rw [collect_eq]
  generalize nextRecord.run rs = result
  match result with
  | (.error e, ts) => rfl
  | (.ok none, ts) => rfl
  | (.ok (some r), ts) => rfl

theorem recordLoop_step {take : α → Record → α} {answer : α → Option LogError → ρ} {last : Nat}
    {taken more : α} (h : rs.reach ≤ last)
    (hturn : (recordLoop take answer).GoesOn (taken, rs) (more, ts)) :
    ts.reach ≤ last ∧ rs.reader.next + 16 ≤ ts.reader.next ∧ ts.reader.next ≤ last := by
  unfold Loop.GoesOn recordLoop at hturn
  dsimp only at hturn
  split at hturn
  · simp at hturn
  · simp at hturn
  · next r vs hcall =>
    simp only [Loop.Turn.again.injEq, Prod.mk.injEq] at hturn
    obtain ⟨-, rfl⟩ := hturn
    obtain ⟨us, hread, ⟨r, hr, rfl⟩ | ⟨hnot, -⟩⟩ := nextRecord_cases hcall
    · obtain rfl : _ = r := Option.some.inj (Except.ok.inj hr)
      obtain ⟨hus, hmoves, hlast⟩ := readAt_moves hread
      exact ⟨Nat.le_trans hus h, hmoves, Nat.le_trans hlast h⟩
    · exact absurd rfl (hnot r)

theorem recordLoop_ends {last : Nat} (h : rs.reach ≤ last) (take : α → Record → α)
    (answer : α → Option LogError → ρ) (taken : α) :
    (recordLoop take answer).Ends (·.2.reader.next) last (taken, rs)
      (answer (rs.collect.1.1.foldl take taken) rs.collect.1.2, rs.collect.2) :=
  Loop.ends_of_step (fun s => s.2.reach ≤ last) (recordLoop_computes take answer)
    (fun _ _ hs hturn => recordLoop_step hs hturn) h

theorem collect_ends {last : Nat} (h : rs.reach ≤ last) :
    collectLoop.Ends (·.2.reader.next) last ([], rs) rs.collect := by
  have hends := recordLoop_ends h (fun taken r => taken ++ [r]) Prod.mk []
  rw [List.foldl_append_eq_append, ← List.flatMap_def, List.flatMap_singleton'] at hends
  exact hends

theorem foldl_last (records : List Record) (taken : Option Record) :
    records.foldl (fun _ r => some r) taken = records.getLast?.or taken := by
  induction records generalizing taken with
  | nil => rfl
  | cons r rest ih =>
    rw [List.foldl_cons, ih, List.getLast?_cons]
    cases rest.getLast? with
    | none => rfl
    | some last => rfl

theorem readLast_eq (ix : BlockIndex) (rs : Reading) : (readLast ix).run rs =
    let found := (rs.moveTo (ix.lastStart Storage.firstAddress)).collect
    (unlessFailed found.1.1.getLast? found.1.2, found.2) := by
  have hsame : (rs.moveTo (ix.lastStart Storage.firstAddress)).collect
      = collectFrom (ix.lastStart Storage.firstAddress) rs := collectFrom_moveTo ..
  rw [hsame]
  unfold Attempt.run readLast
  generalize collectFrom (ix.lastStart Storage.firstAddress) rs = found
  match found with
  | ((records, none), ts) => rfl
  | ((records, some e), ts) => rfl

theorem readLast_ends {last : Nat} (h : rs.reach ≤ last) (ix : BlockIndex) :
    lastLoop.Ends (·.2.reader.next) last (none, rs.moveTo (ix.lastStart Storage.firstAddress))
      ((readLast ix).run rs) := by
  have hreach : (rs.moveTo (ix.lastStart Storage.firstAddress)).reach ≤ last := h
  have hends := recordLoop_ends hreach (fun _ r => some r) unlessFailed none
  rw [foldl_last, Option.or_none] at hends
  rw [readLast_eq]
  exact hends

end Reading

/-! ## The scan of a recovery -/

theorem Storage.alike_of_endAddress {s t : Storage} {n : Nat}
    (h : endAddress?.run s = (.ok n, t)) : s.Alike t := by
  obtain ⟨hfailed, -⟩ | ⟨u, halike, hu⟩ := run_call h
  · simp at hfailed
  · obtain ⟨rfl, -⟩ := endMedium_ok hu
    exact halike

namespace Scan

/-- The turns of a recovery scan: a record that continues the ones before it is sampled and
counted. -/
def loop (threshold : Nat) :
    Loop (Nat × Scan) (Except LogError (Option (Nat × Damage)) × Scan) :=
  fun (address, scan) =>
    match (Reading.readAt address).run scan.reading with
    | (.error (.corruption bad damage), reading) =>
      .ended (.ok (some (bad, damage)), { scan with reading := reading })
    | (.error e, reading) => .ended (.error e, { scan with reading := reading })
    | (.ok none, reading) => .ended (.ok none, { scan with reading := reading })
    | (.ok (some r), reading) =>
      if Breaks scan.recovered r then
        .ended (.error
          (.corruption r.address (.outOfSequence r.position scan.recovered.nextPosition)),
          { scan with reading := reading })
      else
        match sample threshold scan.index scan.sinceEntry r with
        | .error e => .ended (.error e, { scan with reading := reading })
        | .ok (index, sinceEntry) =>
          .again (r.nextAddress, ⟨reading, index, sinceEntry, scan.recovered.add r⟩)

variable {threshold last address next : Nat} {scan after : Scan}

theorem loop_computes (threshold : Nat) :
    (loop threshold).Computes fun (address, scan) => run threshold address scan := by
  rintro ⟨address, scan⟩
  unfold loop
  dsimp only
  rw [run]
  split
  · next bad damage reading hread => simp only [hread]
  · next e reading _ hread => simp only [hread]
  · next reading hread => simp only [hread]
  · next r reading hread =>
    simp only [hread]
    split
    · rfl
    · generalize sample threshold scan.index scan.sinceEntry r = sampled
      obtain e | ⟨index, since⟩ := sampled
      · rfl
      · rfl

theorem loop_step (h : scan.reading.reach ≤ last)
    (hturn : (loop threshold).GoesOn (address, scan) (next, after)) :
    after.reading.reach ≤ last ∧ address + 16 ≤ next ∧ next ≤ last := by
  unfold Loop.GoesOn loop at hturn
  dsimp only at hturn
  split at hturn
  · simp at hturn
  · simp at hturn
  · simp at hturn
  · next r reading hread =>
    obtain ⟨hreading, hmoves, hlast⟩ := Reading.readAt_moves hread
    split at hturn
    · simp at hturn
    · split at hturn
      · simp at hturn
      · simp only [Loop.Turn.again.injEq, Prod.mk.injEq] at hturn
        obtain ⟨rfl, rfl⟩ := hturn
        dsimp only
        omega

theorem run_ends (h : scan.reading.reach ≤ last) (threshold address : Nat) :
    (loop threshold).Ends Prod.fst last (address, scan) (run threshold address scan) :=
  Loop.ends_of_step (fun s => s.2.reading.reach ≤ last) (loop_computes threshold)
    (fun _ _ hs hturn => loop_step hs hturn) h

end Scan

namespace IndexedLog

variable {log : IndexedLog} {commit : Int}

/-- A recovery fails if it is not told where the storage ends. Else it checks the last entry, comes
to a scan of the tail, and that scan ends. -/
structure RecoveryEnds (log : IndexedLog) (commit : Int) : Prop where
  untold : ∀ {e storage}, Storage.endAddress?.run log.storage = (.error e, storage) →
    ((recover commit).run log).1 = .error e
  scans : ∀ {endAddress storage index reading},
    Storage.endAddress?.run log.storage = (.ok endAddress, storage) →
    verifyLast (log.loadSnapshot.index.truncateFrom endAddress)
      ⟨.ofWindow log.sampling.windowSize, storage⟩ = (index, reading) →
    (recover commit).run log = (recoverTail commit endAddress reading).run
        { log with storage := reading.storage, index := index } ∧
      (Scan.loop log.sampling.threshold).Ends Prod.fst log.storage.stored.length
        (index.lastStart Storage.firstAddress, { reading := reading, index := index })
        (Scan.run log.sampling.threshold (index.lastStart Storage.firstAddress)
          { reading := reading, index := index })

/-- Recovering is to be told the end, to check the last entry, and to scan the tail. -/
theorem recover_eq (log : IndexedLog) (commit : Int) : (recover commit).run log =
    match Storage.endAddress?.run log.storage with
    | (.error e, storage) =>
      (.error e, { log with storage := storage, index := log.loadSnapshot.index })
    | (.ok endAddress, storage) =>
      let (index, reading) := verifyLast (log.loadSnapshot.index.truncateFrom endAddress)
        ⟨.ofWindow log.sampling.windowSize, storage⟩
      (recoverTail commit endAddress reading).run
        { log with storage := reading.storage, index := index } := by
  conv => lhs; unfold Attempt.run recover
  rewrite [loadSnapshot_eq]
  rfl

theorem verifyLast_reach {index after : BlockIndex} {reading final : Reading}
    (h : verifyLast index reading = (after, final)) : final.reach ≤ reading.reach := by
  unfold verifyLast at h
  split at h
  · simp only [Prod.mk.injEq] at h
    obtain ⟨-, rfl⟩ := h
    exact Nat.le_refl _
  · split at h
    · next hread =>
      simp only [Prod.mk.injEq] at h
      obtain ⟨-, rfl⟩ := h
      exact (Reading.readAt_reach hread).1
    · next hread =>
      simp only [Prod.mk.injEq] at h
      obtain ⟨-, rfl⟩ := h
      exact (Reading.readAt_reach hread).1

end IndexedLog

/-! ## All scans -/

namespace Reading

/-- Whatever a scan starts from, it works its way up to `last` and ends. -/
structure ScansEnd (rs : Reading) (last : Nat) : Prop where
  seek : ∀ ix position, (seekLoop position).Ends Prod.fst last
    (ix.startFor position Storage.firstAddress, rs) ((Reading.seek ix position).run rs)
  collect : collectLoop.Ends (·.2.reader.next) last ([], rs) rs.collect
  readLast : ∀ ix, lastLoop.Ends (·.2.reader.next) last
    (none, rs.moveTo (ix.lastStart Storage.firstAddress)) ((Reading.readLast ix).run rs)
  scan : ∀ threshold start scan, scan.reading = rs →
    (Scan.loop threshold).Ends Prod.fst last (start, scan) (Scan.run threshold start scan)

theorem scansEnd_of_reach {rs : Reading} {last : Nat} (h : rs.reach ≤ last) : rs.ScansEnd last where
  seek ix position := seekFrom_ends h position (ix.startFor position Storage.firstAddress)
  collect := collect_ends h
  readLast ix := readLast_ends h ix
  scan threshold start scan hscan := Scan.run_ends (by rw [hscan]; exact h) threshold start

end Reading

namespace IndexedLog

theorem recover_ends (log : IndexedLog) (commit : Int) : log.RecoveryEnds commit where
  untold := by
    intro e storage hend
    rw [recover_eq, hend]
  scans := by
    intro endAddress storage index reading hend hverify
    have hstored : storage.stored = log.storage.stored := (Storage.alike_of_endAddress hend).stored
    refine ⟨?_, Scan.run_ends ?_ _ _⟩
    · rw [recover_eq, hend]
      dsimp only
      rw [hverify]
    · calc reading.reach ≤ (⟨.ofWindow log.sampling.windowSize, storage⟩ : Reading).reach :=
            verifyLast_reach hverify
        _ = storage.stored.length := Reading.reach_ofWindow ..
        _ = log.storage.stored.length := congrArg List.length hstored

end IndexedLog

namespace Reading

/-- Whatever the storage holds and an index says, and whatever state the reader is in, every scan
works its way up to where the bytes end, and ends. A reader whose window is current does not get
past the end of the storage, and neither does a recovery. -/
theorem scans_end (rs : Reading) (log : IndexedLog) (commit : Int) :
    rs.ScansEnd rs.reach ∧ (rs.Current → rs.ScansEnd rs.storage.stored.length) ∧
      log.RecoveryEnds commit := by
  refine ⟨scansEnd_of_reach (Nat.le_refl _), fun hcurrent => ?_, log.recover_ends commit⟩
  exact scansEnd_of_reach (Nat.le_of_eq hcurrent.reach_eq)

/-- Three empty records, at positions in no order. -/
def jumbledLog : Storage :=
  { medium := .memory true (Frame.encode 0 [] ++ Frame.encode 9 [] ++ Frame.encode (-4) []) 0 }

/-- A reader that was made to read in the middle of a record. -/
def jumbledReader : Reading := after ⟨.ofWindow 20, jumbledLog⟩ [.readAt 7]

/-- The log with an entry that leads into a record and one that leads past the end. -/
def jumbledIndexed : IndexedLog where
  storage := jumbledLog
  index := ⟨[⟨-7, 3⟩, ⟨2, 90⟩], by decide⟩
  sampling := { threshold := 1, windowSize := 16 }

/-- Three records of no payload take all the turns that there is room for. -/
theorem scans_end_jumbled :
    jumbledReader.Current ∧ jumbledReader.storage.stored.length = 48 ∧
      jumbledReader.reader.windowAddress = 7 ∧
      (collectLoop.answerWithin 3 ([], jumbledReader)).isNone = true ∧
      jumbledReader.ScansEnd 48 ∧ jumbledIndexed.RecoveryEnds (-1) := by
  have hsound : jumbledLog.Sound := trivial
  have hcurrent : jumbledReader.Current := current_after hsound 20 [.readAt 7]
  have hlength : jumbledReader.storage.stored.length = 48 := by decide +kernel
  obtain ⟨-, hends, hrecovery⟩ := scans_end jumbledReader jumbledIndexed (-1)
  have hscans := hends hcurrent
  rw [hlength] at hscans
  exact ⟨hcurrent, hlength, by decide +kernel, by decide +kernel, hscans, hrecovery⟩

end Reading

end PartitionLog
