import PartitionLog.Proofs.Codec

/-!
# The language of frames

Reading accepts what `encode` writes and nothing else: bytes that start with a frame, whatever
follows it. So a walk takes bytes apart into the frames of the records that it finds, laid end to end
(`Tiles`), and a rest that starts with no frame (`walk_spec`); and records are determined by their
frames (`contents_of_framesOf`). `parses_what_is_encoded` puts this together for all bytes.
-/

namespace PartitionLog.Frame

/-- What a record says, wherever it is stored. -/
def content (r : Record) : Int × Bytes := (r.position, r.payload)

def AllFramable (records : List Record) : Prop :=
  ∀ r ∈ records, Framable r.position r.payload

/-- The records lie one after the other, from the address `first` up to `last`. -/
def Tiles (first last : Nat) : List Record → Prop
  | [] => first = last
  | r :: rest => r.address = first ∧ Tiles r.nextAddress last rest

variable {src : Bytes} {address : Nat} {r : Record} {xs ys : List Record}

@[simp] theorem framesOf_nil : framesOf [] = [] := rfl

theorem framesOf_cons (r : Record) (rest : List Record) :
    framesOf (r :: rest) = encode r.position r.payload ++ framesOf rest := rfl

theorem AllFramable.head (h : AllFramable (r :: xs)) : Framable r.position r.payload :=
  h r List.mem_cons_self

theorem AllFramable.tail (h : AllFramable (r :: xs)) : AllFramable xs :=
  fun s hs => h s (List.mem_cons_of_mem _ hs)

/-! ## One frame -/

theorem decode_eq_some_iff_exists : decode src address = .ok (some r) ↔
    ∃ position payload, Framable position payload ∧ encode position payload <+: src ∧
      r = ⟨position, address, payload⟩ := by
  rw [decode_eq_some_iff]
  constructor
  · rintro ⟨rfl, hframable, hencoded⟩
    exact ⟨r.position, r.payload, hframable, hencoded, rfl⟩
  · rintro ⟨position, payload, hframable, hencoded, rfl⟩
    exact ⟨rfl, hframable, hencoded⟩

/-- Bytes that are neither at their end nor start with a frame are damaged. -/
theorem decode_damaged (hne : src ≠ [])
    (hno : ∀ position payload, Framable position payload → ¬ encode position payload <+: src) :
    ∃ damage, decode src address = .error (.corruption address damage) := by
  cases hd : decode src address with
  | error e =>
    obtain ⟨damage, rfl⟩ := decode_error hd
    exact ⟨damage, rfl⟩
  | ok found =>
    cases found with
    | none => exact absurd (decode_eq_none_iff.1 hd) hne
    | some r =>
      obtain ⟨-, hframable, hencoded⟩ := decode_eq_some_iff.1 hd
      exact absurd hencoded (hno _ _ hframable)

/-! ## Frame after frame -/

/-- Why there are no more records, as reading the rest tells it. -/
def stopAnswer : Option LogError → Except LogError (Option Record)
  | none => .ok none
  | some e => .error e

/-- What is read first where a walk finds these records. -/
def firstAnswer (stop : Option LogError) : List Record → Except LogError (Option Record)
  | [] => stopAnswer stop
  | r :: _ => .ok (some r)

theorem decode_of_walk_stop {records : List Record} {stop : Option LogError}
    (h : walk src address = (records, stop)) : decode src address = firstAnswer stop records := by
  cases hd : decode src address with
  | error e =>
    rw [walk_eq_nil hd, Prod.mk.injEq] at h
    obtain ⟨rfl, rfl⟩ := h
    rfl
  | ok found =>
    cases found with
    | none =>
      rw [decode_eq_none_iff.1 hd, walk_nil, Prod.mk.injEq] at h
      obtain ⟨rfl, rfl⟩ := h
      rfl
    | some r =>
      rw [walk_cons hd, Prod.mk.injEq] at h
      obtain ⟨rfl, rfl⟩ := h
      rfl

/-- `records` are what a walk through `src` from `address` on finds before it stops with `stop`. -/
structure Walked (src : Bytes) (address : Nat) (records : List Record) (stop : Option LogError) :
    Prop where
  framable : AllFramable records
  tiles : Tiles address (address + (framesOf records).length) records
  frames : framesOf records <+: src
  stops : decode (src.drop (framesOf records).length) (address + (framesOf records).length)
    = stopAnswer stop

/-- Induction on the walk: a record that is read is laid in front of those behind it. -/
theorem walk_spec (src : Bytes) (address : Nat) :
    Walked src address (walk src address).1 (walk src address).2 := by
  fun_induction walk src address with
  | case1 src address hd =>
    exact ⟨by simp [AllFramable], rfl, List.nil_prefix, by simpa [stopAnswer] using hd⟩
  | case2 src address e hd =>
    exact ⟨by simp [AllFramable], rfl, List.nil_prefix, by simpa [stopAnswer] using hd⟩
  | case3 src address r hd records stop hrest ih =>
    rw [hrest] at ih
    obtain ⟨haddress, hframable, more, rfl⟩ := decode_eq_some_iff.1 hd
    have hlength : (encode r.position r.payload).length = r.frameLength :=
      length_encode r.position r.payload
    rw [List.drop_left' hlength] at ih
    have hnext : r.nextAddress = address + r.frameLength := by rw [← haddress]; rfl
    have hend : address + (framesOf (r :: records)).length
        = r.nextAddress + (framesOf records).length := by
      rw [framesOf_cons, List.length_append, hlength, hnext]
      omega
    refine ⟨?_, ?_, ?_, ?_⟩
    · intro s hs
      rcases List.mem_cons.1 hs with rfl | hs
      · exact hframable
      · exact ih.framable s hs
    · rw [hend]
      exact ⟨haddress, ih.tiles⟩
    · rw [framesOf_cons]
      exact (List.prefix_append_right_inj _).2 ih.frames
    · rw [hend, framesOf_cons, List.length_append, ← List.drop_drop, List.drop_left]
      exact ih.stops

theorem Walked.end_iff {records : List Record} {stop : Option LogError}
    (h : Walked src address records stop) : stop = none ↔ framesOf records = src := by
  have hstops := h.stops
  obtain ⟨rest, rfl⟩ := h.frames
  rw [List.drop_left] at hstops
  cases stop with
  | none =>
    have hnil : rest = [] := decode_eq_none_iff.1 hstops
    simp [hnil]
  | some e =>
    have hne : rest ≠ [] := by
      rintro rfl
      simp [stopAnswer] at hstops
    simpa using hne

theorem Walked.damage {records : List Record} {e : LogError}
    (h : Walked src address records (some e)) :
    ∃ damage, e = .corruption (address + (framesOf records).length) damage :=
  decode_error h.stops

/-! ## Records from their frames -/

/-- Induction on one list: the first frames are read as the same record. -/
theorem contents_of_framesOf (hx : AllFramable xs) (hy : AllFramable ys)
    (h : framesOf xs = framesOf ys) : xs.map content = ys.map content := by
  induction xs generalizing ys with
  | nil =>
    cases ys with
    | nil => rfl
    | cons s ys =>
      have hread := decode_encode hy.head (framesOf ys) 0
      rw [← framesOf_cons, ← h, framesOf_nil, decode_nil] at hread
      cases hread
  | cons r xs ih =>
    have hread := decode_encode hx.head (framesOf xs) 0
    rw [← framesOf_cons, h] at hread
    cases ys with
    | nil =>
      rw [framesOf_nil, decode_nil] at hread
      cases hread
    | cons s ys =>
      rw [framesOf_cons, decode_encode hy.head] at hread
      simp only [Except.ok.injEq, Option.some.injEq, Record.mk.injEq, true_and] at hread
      obtain ⟨hposition, hpayload⟩ := hread
      rw [framesOf_cons, framesOf_cons, hposition, hpayload] at h
      have hrest := ih hx.tail hy.tail (List.append_cancel_left h)
      rw [List.map_cons, List.map_cons, hrest, content, content, hposition, hpayload]

/-! ## All bytes -/

/-- What can be read in `src`, which is stored from `address` on. -/
structure Parses (src : Bytes) (address : Nat) : Prop where
  record : ∀ r, decode src address = .ok (some r) ↔
    ∃ position payload, Framable position payload ∧ encode position payload <+: src ∧
      r = ⟨position, address, payload⟩
  ends : decode src address = .ok none ↔ src = []
  damaged : src ≠ [] →
    (∀ position payload, Framable position payload → ¬ encode position payload <+: src) →
    ∃ damage, decode src address = .error (.corruption address damage)
  /-- The records of a walk tile the beginning of the bytes, and their frames are that beginning. -/
  walked : Walked src address (walk src address).1 (walk src address).2
  /-- Only where the frames are all of the bytes, the walk comes to the end. -/
  whole : (walk src address).2 = none ↔ framesOf (walk src address).1 = src
  stops : ∀ e, (walk src address).2 = some e →
    ∃ damage, e = .corruption (address + (framesOf (walk src address).1).length) damage
  /-- No other records have these frames. -/
  unique : ∀ xs ys, AllFramable xs → AllFramable ys → framesOf xs = src → framesOf ys = src →
    xs.map content = ys.map content

/-- Reading accepts exactly what is written, frame by frame and for whole logs. -/
theorem parses_what_is_encoded (src : Bytes) (address : Nat) : Parses src address where
  record _ := decode_eq_some_iff_exists
  ends := decode_eq_none_iff
  damaged := decode_damaged
  walked := walk_spec src address
  whole := (walk_spec src address).end_iff
  stops e h := by
    have hwalked := walk_spec src address
    rw [h] at hwalked
    exact hwalked.damage
  unique xs ys hx hy hxs hys := contents_of_framesOf hx hy (hxs.trans hys.symm)

/-- The walk stops where a frame is cut off. -/
example : walk (encode 5 [1, 2] ++ [3, 0, 0]) 10 =
    ([⟨5, 10, [1, 2]⟩], some (.corruption 28 (.partialHeader 3))) := by decide +kernel

end PartitionLog.Frame
