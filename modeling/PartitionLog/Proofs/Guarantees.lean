import PartitionLog.Proofs.Invariant

/-!
# What a stream guarantees

A fresh stream begins on a storage with the frames of some payloads (`Begins`), and is used in any
order and with any storage calls failing, as long as payloads and log stay within the fields of a
frame (`Within`). Whatever happened until then, every payload is accounted for (`accounted`), the
records up to the commit position are safe from the next step (`guarded`), and the index describes
the log (`indexed`). The first and the last need that the storage loses nothing behind the stream's
back and that no record is empty; for the second it may.
-/

namespace PartitionLog

/-- Whether the frame of the record is at its address. -/
def Record.Intact (r : Record) (log : Bytes) : Prop :=
  log.slice r.address r.frameLength = Frame.encode r.position r.payload

namespace Frame

variable {position : Int} {address : Nat} {payloads : List Bytes} {log : Bytes} {r t : Record}

theorem intact_of_mem (h : encodeRun position payloads <+: log.drop address)
    (hr : r ∈ recordsOf position address payloads) : r.Intact log := by
  induction payloads generalizing position address with
  | nil => simp [recordsOf] at hr
  | cons x rest ih =>
    obtain ⟨more, hmore⟩ := h
    rw [encodeRun, List.append_assoc] at hmore
    rcases List.mem_cons.1 hr with rfl | hr
    · unfold Record.Intact Bytes.slice
      rw [← hmore]
      exact List.take_left' (length_encode ..)
    · refine ih ⟨more, ?_⟩ hr
      rw [← List.drop_drop, ← hmore, List.drop_left' (length_encode ..)]

/-- Where no payload is empty, the positions rise with the addresses. -/
theorem position_lt_of_address_lt (hne : ∀ x ∈ payloads, x ≠ [])
    (hr : r ∈ recordsOf position address payloads) (ht : t ∈ recordsOf position address payloads)
    (hlt : r.address < t.address) : r.position < t.position := by
  induction payloads generalizing position address with
  | nil => simp [recordsOf] at hr
  | cons x rest ih =>
    have hx : x.length ≠ 0 := fun h0 => hne x List.mem_cons_self (List.length_eq_zero_iff.1 h0)
    rcases List.mem_cons.1 hr with rfl | hr <;> rcases List.mem_cons.1 ht with rfl | ht
    · omega
    · have := position_le_of_mem ht
      dsimp only
      omega
    · have := address_le_of_mem hr
      dsimp only at hlt
      omega
    · exact ih (fun y hy => hne y (List.mem_cons_of_mem _ hy)) hr ht

end Frame

theorem Appender.Kept.intact {strict : Prop} {a : Appender} {payloads : List Bytes} {r : Record}
    (hk : a.Kept strict payloads) (hr : r ∈ Frame.recordsOf 0 0 payloads) : r.Intact a.stored := by
  have hbegins : Frame.encodeRun 0 payloads <+: a.stored.drop 0 :=
    hk.frames.trans a.visible_isPrefix
  exact Frame.intact_of_mem hbegins hr

namespace Run

variable {s : LogStream} {initial : List Bytes} {actions : List Action} {u : Run}

/-- A stream over a log in memory. Its first flush fails, and the block is not taken back either. -/
def inMemory (payloads : List Bytes) : LogStream where
  config := {}
  appender := {
    log := {
      storage := {
        medium := .memory false (Frame.encodeRun 0 payloads) 0
        faults := (FaultPlan.none.set .flush (.failFirst 1)).set .truncate (.failFirst 1) }
      sampling := { threshold := 8, windowSize := 64 } }
    buffer := { capacity := 128, maxFragment := 32 }
    maxBlock := 64 }

theorem begins_inMemory {payloads : List Bytes} (h : ∀ x ∈ payloads, x.length < 2 ^ 32) :
    Begins (inMemory payloads) payloads :=
  ⟨⟨rfl, rfl, rfl, rfl, rfl, rfl⟩, trivial, rfl, h⟩

/-- A command with the steps that carry it out. -/
def carryOut (command : Command) : List Action :=
  .request command :: List.replicate 6 (.advance true)

def begun (payloads : List Bytes) : Run := start (inMemory payloads) payloads

/-- A block goes stale, and is discarded and written again once the appender is restarted. -/
def restarted : List Action :=
  carryOut .openUp ++ [.claim 3, .commit 0 [7, 8, 9], .drain] ++ carryOut .startAppender
    ++ [.drain, .claim 1]

theorem within_restarted : (begun [[1, 2]]).Within restarted := by decide +kernel

theorem whole_restarted : ∀ action ∈ restarted, ¬ action.Tears := by decide

/-- A closed log loses the end of its last record, and is opened again. -/
def shortened : List Action :=
  carryOut .openUp ++ [.raiseCommit 0] ++ carryOut .close
    ++ [.tear ⟨{ medium := .memory false (Frame.encode 0 [1, 2] ++ [1, 0, 0]) 0 }, trivial⟩]
    ++ carryOut .openUp

/-! ## Every payload once -/

/-- `drained` are the claims whose payloads are in the log, and the buffer has the others. -/
structure Accounted (u : Run) (drained : List ClaimEntry) : Prop where
  claims : u.claims = drained ++ u.buffer.entries
  ended : ∀ e ∈ drained, e.fate ≠ .held
  /-- No slot is in both, and the order is that of the claims. -/
  once : u.claims.Pairwise (·.slot < ·.slot)
  log : u.appender.visible = Frame.encodeRun 0 (u.settled ++ payloadsOf drained)
  next : u.stream.state = .opened →
    u.appender.nextPosition = Frame.span (u.settled ++ payloadsOf drained)

/-- Whatever fails and in whichever order, no committed payload is lost or stored twice. -/
theorem accounted (h : Begins s initial) (hfilled : ∀ x ∈ initial, x ≠ [])
    (hw : (start s initial).Within actions) (hwhole : ∀ action ∈ actions, ¬ action.Tears) :
    ∃ drained, Accounted ((start s initial).after actions) drained := by
  have hstart : Good True (start s initial) initial := h.good fun _ => hfilled
  obtain ⟨payloads, hgood⟩ := hstart.run hw fun _ => hwhole
  obtain ⟨drained, hclaims, hended, rfl⟩ := hgood.ledger trivial
  exact ⟨drained, hclaims, hended, hgood.booked.rising, hgood.kept.whole trivial,
    fun hopen => (hgood.kept.settled trivial (hgood.stage.ready_of_opened hopen)).next⟩

theorem accounted_restarted :
    Begins (inMemory [[1, 2]]) [[1, 2]] ∧ (∀ x ∈ [[1, 2]], x ≠ ([] : Bytes)) ∧
      (begun [[1, 2]]).Within restarted ∧ (∀ action ∈ restarted, ¬ action.Tears) ∧
      ((begun [[1, 2]]).after restarted).stored = Frame.encodeRun 0 [[1, 2], [7, 8, 9]] ∧
      ∃ drained, Accounted ((begun [[1, 2]]).after restarted) drained := by
  have hbegins : Begins (inMemory [[1, 2]]) [[1, 2]] := begins_inMemory (by decide)
  exact ⟨hbegins, by decide, within_restarted, whole_restarted, by decide +kernel,
    accounted hbegins (by decide) within_restarted whole_restarted⟩

/-! ## Committed records stay -/

/-- What the commit position protects. -/
structure Guarded (u : Run) : Prop where
  intact : ∀ r ∈ u.released, r.Intact u.stored
  /-- No step changes a released record up to the commit position. -/
  keeps : ∀ action : Action, action.Fits → ¬ action.Tears →
    (u.step action).stored.length < 2 ^ 63 →
    ∀ r ∈ u.released, r.position ≤ u.stream.commit → r.Intact (u.step action).stored
  refuses : ∀ position ≤ u.stream.commit,
    ∃ e, (LogStream.truncate position).run u.stream = (.error e, u.stream)
  /-- Damage where a record up to the commit position is expected is left as it is; only a stale
  block, whose records are in the buffer, is discarded. -/
  opens : u.stream.state = .closed → (Frame.walk u.appender.visible 0).2 ≠ none →
    ((Frame.walk u.appender.visible 0).1.getLast?.map Record.nextPosition).getD 0
      ≤ u.stream.commit →
    ∃ e t, LogStream.openStream.run u.stream = (.error e, t) ∧
      (t.storage.stored = u.stored ∨ ∃ address, u.appender.staleBlock = some address ∧
        Buffered u.buffer.slots (u.stored.drop address) ∧
        t.storage.stored = u.stored.take address)

/-- Committed records stay, even where the storage was torn before. -/
theorem guarded (h : Begins s initial) (hw : (start s initial).Within actions) :
    Guarded ((start s initial).after actions) := by
  have hstart : Good False (start s initial) initial := h.good False.elim
  obtain ⟨payloads, hgood⟩ := hstart.run hw fun hf => hf.elim
  have hsize := hw.after_lt
  generalize (start s initial).after actions = u at hgood hsize
  refine ⟨fun r hr => ?_, fun action hfits htears hafter r hr hcommit => ?_,
    fun position => LogStream.truncate_committed, fun hclosed hdamaged hexpected => ?_⟩
  · exact hgood.kept.intact (hgood.listed r hr)
  · obtain ⟨after, hnext, hgoes⟩ := hgood.step hfits False.elim hsize hafter
    exact hnext.kept.intact (hgoes.committed htears r (hgood.listed r hr) hcommit)
  · obtain ⟨e, t, hrun, hleft⟩ := LogStream.openStream_damaged hgood.kept
      (hgood.stage.rests_of_closed hclosed) hsize (by rw [hclosed]; simp) hdamaged hexpected
    refine ⟨e, t, hrun, ?_⟩
    rcases hleft with hleft | hleft
    · exact .inl hleft
    · cases hstale : u.appender.staleBlock with
      | none => exact .inl (hleft.trans (Appender.visible_of_none hstale))
      | some address =>
        refine .inr ⟨address, rfl, (hgood.kept.stale address hstale).2, hleft.trans ?_⟩
        exact Appender.visible_of_some hstale

theorem guarded_shortened :
    Begins (inMemory [[1, 2], [3]]) [[1, 2], [3]] ∧ (begun [[1, 2], [3]]).Within shortened ∧
      ((begun [[1, 2], [3]]).after shortened).released = [⟨0, 0, [1, 2]⟩] ∧
      Guarded ((begun [[1, 2], [3]]).after shortened) := by
  have hbegins : Begins (inMemory [[1, 2], [3]]) [[1, 2], [3]] := begins_inMemory (by decide)
  have hwithin : (begun [[1, 2], [3]]).Within shortened := by decide +kernel
  exact ⟨hbegins, hwithin, by decide +kernel, guarded hbegins hwithin⟩

/-! ## The index describes the log -/

/-- Every entry is the place of a record that can be read, and they rise. -/
structure Indexed (u : Run) : Prop where
  positions : u.stream.index.entries.Pairwise (·.position < ·.position)
  addresses : u.stream.index.entries.Pairwise (·.address < ·.address)
  listed : ∀ e ∈ u.stream.index.entries, ∃ r ∈ (Frame.walk u.appender.visible 0).1,
    r.position = e.position ∧ r.address = e.address

/-- Recovery, draining, cutting and every failure on the way keep the index right. -/
theorem indexed (h : Begins s initial) (hfilled : ∀ x ∈ initial, x ≠ [])
    (hw : (start s initial).Within actions) (hwhole : ∀ action ∈ actions, ¬ action.Tears) :
    Indexed ((start s initial).after actions) := by
  have hstart : Good True (start s initial) initial := h.good fun _ => hfilled
  obtain ⟨payloads, hgood⟩ := hstart.run hw fun _ => hwhole
  have hsize := hw.after_lt
  generalize (start s initial).after actions = u at hgood hsize
  have hlists := hgood.kept.lists trivial
  have hrising := hgood.kept.describes.rising
  refine ⟨hrising.imp_of_mem fun he hf hlt => ?_, hrising, ?_⟩
  · obtain ⟨r, hr, hpr, har⟩ := hlists _ he
    obtain ⟨t, ht, hpt, hat⟩ := hlists _ hf
    rw [← hpr, ← hpt]
    exact Frame.position_lt_of_address_lt (hgood.kept.filled trivial) hr ht (by omega)
  · have hwalk := Frame.walk_encodeRun (hgood.kept.readable hsize) [] 0
    rw [List.append_nil, ← hgood.kept.whole trivial, Frame.walk_nil, List.append_nil] at hwalk
    rw [hwalk]
    exact hlists

theorem indexed_restarted :
    Begins (inMemory [[1, 2]]) [[1, 2]] ∧ (∀ x ∈ [[1, 2]], x ≠ ([] : Bytes)) ∧
      (begun [[1, 2]]).Within restarted ∧ (∀ action ∈ restarted, ¬ action.Tears) ∧
      ((begun [[1, 2]]).after restarted).stream.index.entries = [⟨0, 0⟩, ⟨2, 18⟩] ∧
      Indexed ((begun [[1, 2]]).after restarted) := by
  have hbegins : Begins (inMemory [[1, 2]]) [[1, 2]] := begins_inMemory (by decide)
  exact ⟨hbegins, by decide, within_restarted, whole_restarted, by decide +kernel,
    indexed hbegins (by decide) within_restarted whole_restarted⟩

end Run

end PartitionLog
