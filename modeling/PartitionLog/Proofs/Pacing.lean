import Mathlib.Data.List.Chain
import PartitionLog.Proofs.Sampling

/-!
# How far apart entries are put

What is counted since the last entry are the bytes up to the place that was reached (`Counts`), so the
next entry is at least the threshold away and no place that was offered before it is further
(`Sampled`), be it that of a scanned record (`Scan.Pace.sampleAll`) or that of a noted block
(`noteBlock_sampled`). Behind the entry of an empty record the count can fall short: the next record has
the same position, so it is taken for the record of the entry. That makes the next entry late, but not
early.
-/

namespace PartitionLog

namespace BlockIndex

/-- The last entry at or before an address. -/
structure Nearest (ix : BlockIndex) (address : Nat) (e : IndexEntry) : Prop where
  mem : e ∈ ix.entries
  le : e.address ≤ address
  last : ∀ f ∈ ix.entries, f.address ≤ address → f.address ≤ e.address

/-- The address has an entry of its own, or lies fewer than `threshold` bytes behind the nearest one,
or that one is `hollow`. -/
def Covers (ix : BlockIndex) (threshold : Nat) (hollow : IndexEntry → Prop) (address : Nat) : Prop :=
  ∃ e, ix.Nearest address e ∧
    (e.address = address ∨ address < e.address + threshold ∨ hollow e)

variable {ix after : BlockIndex} {threshold address : Nat} {hollow other : IndexEntry → Prop}

theorem covers_of_last {last : IndexEntry} (h : ix.entries.Pairwise (·.address < ·.address))
    (hl : ix.last? = some last) (hle : last.address ≤ address)
    (hnear : last.address = address ∨ address < last.address + threshold ∨ hollow last) :
    ix.Covers threshold hollow address := by
  refine ⟨last, ⟨List.mem_of_getLast? hl, hle, fun f hf _ => ?_⟩, hnear⟩
  rcases rel_last h hf hl with hlt | rfl
  · exact Nat.le_of_lt hlt
  · exact Nat.le_refl _

/-- Only the entries at or before the address matter. -/
theorem Covers.congr (h : ix.Covers threshold hollow address)
    (hsame : ∀ e, e.address ≤ address → (e ∈ after.entries ↔ e ∈ ix.entries))
    (hhollow : ∀ e, e.address ≤ address → hollow e → other e) :
    after.Covers threshold other address := by
  obtain ⟨e, ⟨hmem, hle, hlast⟩, hnear⟩ := h
  exact ⟨e, ⟨(hsame e hle).2 hmem, hle, fun f hf hfle => hlast f ((hsame f hfle).1 hf) hfle⟩,
    hnear.imp_right (Or.imp_right (hhollow e hle))⟩

/-- Entries that are added behind the address leave it covered. -/
theorem Covers.grow {more : List IndexEntry} (h : ix.Covers threshold hollow address)
    (hentries : after.entries = ix.entries ++ more) (hbeyond : ∀ e ∈ more, address < e.address)
    (hhollow : ∀ e, hollow e → other e) : after.Covers threshold other address := by
  refine h.congr (fun e hle => ?_) fun e _ => hhollow e
  rw [hentries, List.mem_append]
  exact or_iff_left fun hmem => by have := hbeyond e hmem; omega

/-- An only entry does not cover what lies the threshold behind it. -/
theorem not_covers {e : IndexEntry} (h : ix.entries = [e]) (hfar : e.address + threshold ≤ address)
    (hne : e.address ≠ address) (hhollow : ¬ hollow e) : ¬ ix.Covers threshold hollow address := by
  rintro ⟨f, ⟨hmem, -, -⟩, hnear⟩
  obtain rfl : f = e := by simpa [h] using hmem
  obtain heq | hlt | hf := hnear
  · exact hne heq
  · omega
  · exact hhollow hf

end BlockIndex

namespace Sampling

/-- Two entries keep the threshold. -/
def Gap (threshold : Nat) (e f : IndexEntry) : Prop := e.address + threshold ≤ f.address

/-- So many `bytes` were counted since the entry `last` when `address` and `position` were reached: all
that lie between them, or fewer, if the entry is hollow. -/
structure Counts (hollow : IndexEntry → Prop) (last : IndexEntry) (bytes address : Nat)
    (position : Int) : Prop where
  behind : last.address < address
  rising : last.position ≤ position
  atMost : last.address + bytes ≤ address
  exact : hollow last ∨ (last.position < position ∧ last.address + bytes = address)

variable {R : IndexEntry → IndexEntry → Prop} {Q P hollow other : IndexEntry → Prop}
  {ix after : BlockIndex} {last place : IndexEntry} {threshold bytes address length span : Nat}
  {position : Int} {since : Option Nat}

/-- What begins at the place of an entry is counted. -/
theorem counts_own (hlength : 0 < length) (h : span = 0 → hollow place) :
    Counts hollow place length (place.address + length) (place.position + span) := by
  refine ⟨by omega, by omega, Nat.le_refl _, ?_⟩
  by_cases hempty : span = 0
  · exact .inl (h hempty)
  · exact .inr ⟨by omega, rfl⟩

theorem Counts.grow (h : Counts hollow last bytes address position) (length span : Nat) :
    Counts hollow last (bytes + length) (address + length) (position + span) := by
  obtain ⟨hbehind, hrising, hatMost, hexact⟩ := h
  exact ⟨by omega, by omega, by omega, hexact.imp_right fun ⟨hlt, heq⟩ => ⟨by omega, by omega⟩⟩

/-- Only behind an empty record is the position of an entry met again. -/
theorem Counts.hollow_of_eq (h : Counts hollow last bytes address position)
    (hposition : last.position = position) : hollow last :=
  h.exact.resolve_right fun ⟨hlt, _⟩ => by omega

/-- What sampling a place does: it gets an entry that keeps its distance `R` from the one before it, or
one is near. What begins there and ends at `address` and `position` is counted. -/
structure Sampled (R : IndexEntry → IndexEntry → Prop) (threshold : Nat) (hollow : IndexEntry → Prop)
    (ix after : BlockIndex) (since : Option Nat) (place : IndexEntry) (address : Nat)
    (position : Int) : Prop where
  counted : ∃ last bytes, after.last? = some last ∧ since = some bytes ∧
    Counts hollow last bytes address position
  grown : after = ix ∨ (after.entries = ix.entries ++ [place] ∧
    ∀ last, ix.last? = some last → R last place)
  near : ∃ last, after.last? = some last ∧ last.address ≤ place.address ∧
    (last.address = place.address ∨ place.address < last.address + threshold ∨ hollow last)

/-- A place gets an entry. -/
theorem Sampled.noted (happ : ix.append place.position place.address = .ok after)
    (hlength : 0 < length) (h : span = 0 → hollow place)
    (hR : ∀ last, ix.last? = some last → R last place) :
    Sampled R threshold hollow ix after (some length) place (place.address + length)
      (place.position + span) := by
  have hl := BlockIndex.last?_of_append happ
  exact ⟨⟨_, _, hl, rfl, counts_own hlength h⟩, .inr ⟨(BlockIndex.entries_append happ).1, hR⟩, _, hl,
    Nat.le_refl _, .inl rfl⟩

/-- A place near the last entry is passed. -/
theorem Sampled.passed (hl : ix.last? = some last)
    (hc : Counts hollow last bytes place.address place.position) (hfew : bytes < threshold) :
    Sampled R threshold hollow ix ix (some (bytes + length)) place (place.address + length)
      (place.position + span) := by
  have hbehind := hc.behind
  refine ⟨⟨_, _, hl, rfl, hc.grow length span⟩, .inl rfl, _, hl, by omega, ?_⟩
  obtain hhollow | ⟨-, heq⟩ := hc.exact
  · exact .inr (.inr hhollow)
  · exact .inr (.inl (by omega))

/-- A place with the position of the last entry is passed, and what is counted may fall short. -/
theorem Sampled.hidden (hl : ix.last? = some last)
    (hc : Counts hollow last bytes place.address place.position)
    (hposition : last.position = place.position) {count : Nat}
    (hcount : last.address + count ≤ place.address + length) :
    Sampled R threshold hollow ix ix (some count) place (place.address + length)
      (place.position + span) := by
  have hhollow := hc.hollow_of_eq hposition
  have hbehind := hc.behind
  exact ⟨⟨_, _, hl, rfl, by omega, by omega, hcount, .inl hhollow⟩, .inl rfl, _, hl, by omega,
    .inr (.inr hhollow)⟩

theorem Sampled.chain (h : Sampled R threshold hollow ix after since place address position)
    (hchain : ix.entries.IsChain R) : after.entries.IsChain R := by
  obtain rfl | ⟨hentries, hR⟩ := h.grown
  · exact hchain
  · rw [hentries]
    refine List.isChain_append.2 ⟨hchain, List.isChain_singleton _, fun e he f hf => ?_⟩
    obtain rfl : place = f := by simpa using hf
    exact hR e he

theorem Sampled.mono {S : IndexEntry → IndexEntry → Prop}
    (h : Sampled R threshold hollow ix after since place address position)
    (hRS : ∀ e f, R e f → S e f) : Sampled S threshold hollow ix after since place address position :=
  { h with grown := h.grown.imp_right fun ⟨hentries, hR⟩ =>
      ⟨hentries, fun last hl => hRS last place (hR last hl)⟩ }

/-- What a place adds is an entry for it, if anything. -/
theorem Sampled.more (h : Sampled R threshold hollow ix after since place address position) :
    ∃ more, after.entries = ix.entries ++ more ∧ ∀ e ∈ more, e = place := by
  obtain rfl | ⟨hentries, -⟩ := h.grown
  · exact ⟨[], by simp, by simp⟩
  · exact ⟨[place], hentries, by simp⟩

theorem Sampled.covers (h : Sampled R threshold hollow ix after since place address position)
    (hrising : after.entries.Pairwise (·.address < ·.address)) :
    after.Covers threshold hollow place.address := by
  obtain ⟨last, hl, hle, hnear⟩ := h.near
  exact BlockIndex.covers_of_last hrising hl hle hnear

/-! ## Noting a block -/

/-- At this place the next entry is due, and all that are there satisfy `Q` and lie before it; or the
bytes since the last entry are counted. -/
def Ready (Q : IndexEntry → Prop) (hollow : IndexEntry → Prop) (ix : BlockIndex) (since : Option Nat)
    (address : Nat) (position : Int) : Prop :=
  (since = none ∧ ∀ e ∈ ix.entries, Q e ∧ e.position < position ∧ e.address < address) ∨
    ∃ last bytes, ix.last? = some last ∧ since = some bytes ∧ Counts hollow last bytes address position

theorem Ready.mono (h : Ready Q hollow ix since address position) (hQ : ∀ e ∈ ix.entries, Q e → P e)
    (hhollow : ∀ e, hollow e → other e) : Ready P other ix since address position := by
  obtain ⟨hnone, hall⟩ | ⟨last, bytes, hl, hsome, hc⟩ := h
  · exact .inl ⟨hnone, fun e he => (hall e he).imp_left (hQ e he)⟩
  · exact .inr ⟨last, bytes, hl, hsome, { hc with exact := hc.exact.imp_left (hhollow last) }⟩

/-- A block is noted where the log is ready for it. -/
theorem noteBlock_sampled {log noted : IndexedLog} {r : Except LogError Unit}
    (hr : (IndexedLog.noteBlock position address length).run log = (r, noted))
    (hgap : ∀ e f, Gap log.sampling.threshold e f → R e f)
    (hready : Ready (R · ⟨position, address⟩) hollow log.index log.sampling.sinceEntry address position)
    (hlength : 0 < length) (h : span = 0 → hollow ⟨position, address⟩) :
    Sampled R log.sampling.threshold hollow log.index noted.index noted.sampling.sinceEntry
      ⟨position, address⟩ (address + length) (position + span) := by
  obtain ⟨hnone, hall⟩ | ⟨last, bytes, hl, hsome, hc⟩ := hready
  · obtain ⟨-, ⟨e, hrefused, -⟩ | ⟨index, happ, -, rfl⟩⟩ | ⟨hnot, -⟩ := IndexedLog.noteBlock_cases hr
    · -- all entries lie before the place, so it is not refused
      obtain ⟨last, hlast, hnot⟩ := BlockIndex.last_of_refused hrefused
      exact absurd (hall last (List.mem_of_getLast? hlast)).2 hnot
    · exact .noted happ hlength h fun last hlast => (hall last (List.mem_of_getLast? hlast)).1
    · simp [hnone, needsEntry] at hnot
  · have hbehind := hc.behind
    have hrising := hc.rising
    have hatMost := hc.atMost
    obtain ⟨hdue, ⟨e, hrefused, -, rfl⟩ | ⟨index, happ, -, rfl⟩⟩ | ⟨hnot, -, rfl⟩ :=
      IndexedLog.noteBlock_cases hr
    · -- it is refused because of its position
      obtain ⟨other, hother, hnot⟩ := BlockIndex.last_of_refused hrefused
      rw [hl, Option.some.injEq] at hother
      subst hother
      have hposition : last.position = position := by omega
      have hcount : last.address + bytes ≤ address + length := by omega
      rw [hsome]
      exact .hidden hl hc hposition hcount
    · refine .noted happ hlength h fun other hother => hgap _ _ ?_
      rw [hl, Option.some.injEq] at hother
      subst hother
      simp only [hsome, needsEntry, decide_eq_true_eq] at hdue
      exact Nat.le_trans (Nat.add_le_add_left hdue _) hatMost
    · simp only [hsome, needsEntry, decide_eq_false_iff_not, Nat.not_le] at hnot
      dsimp only
      rw [hsome]
      exact .passed hl hc hnot

end Sampling

namespace Scan

open Sampling

/-- How far a scan has counted when it comes to a place: there is no entry yet, the place is that of
the last entry, or the bytes since the last entry are counted. -/
inductive Pace (hollow : IndexEntry → Prop) (ix : BlockIndex) : Option Nat → Nat → Int → Prop
  | unindexed {address : Nat} {position : Int} (hnone : ix.last? = none) :
    Pace hollow ix none address position
  | own {address : Nat} {position : Int} (hlast : ix.last? = some ⟨position, address⟩) :
    Pace hollow ix none address position
  | counted {last : IndexEntry} {bytes address : Nat} {position : Int} (hlast : ix.last? = some last)
    (hcounts : Counts hollow last bytes address position) :
    Pace hollow ix (some bytes) address position

variable {threshold : Nat} {Q hollow : IndexEntry → Prop} {ix after : BlockIndex}
  {since sinceAfter : Option Nat}

/-- At the end of the log the next block can be noted. -/
theorem Pace.ready {address : Nat} {position : Int} (h : Pace hollow ix since address position)
    (hbelow : ix.Below address) : Ready Q hollow ix since address position := by
  cases h with
  | unindexed hnone =>
    rw [BlockIndex.last?_eq_none_iff] at hnone
    exact .inl ⟨rfl, by simp [hnone]⟩
  | own hlast => exact absurd (hbelow _ (List.mem_of_getLast? hlast)) (Nat.lt_irrefl _)
  | counted hlast hcounts => exact .inr ⟨_, _, hlast, rfl, hcounts⟩

/-- A record is sampled at a pace. -/
theorem Pace.sample {r : Record} (h : Pace hollow ix since r.address r.position)
    (hhollow : r.payload = [] → hollow ⟨r.position, r.address⟩)
    (hs : sample threshold ix since r = .ok (after, sinceAfter)) :
    Sampled (Gap threshold) threshold hollow ix after sinceAfter ⟨r.position, r.address⟩
      r.nextAddress r.nextPosition := by
  have hlength : 0 < r.frameLength := by
    have hnext : r.address + r.frameLength = r.nextAddress := rfl
    have := r.lt_nextAddress
    omega
  have hspan : r.payload.length = 0 → hollow ⟨r.position, r.address⟩ := fun hnil =>
    hhollow (List.eq_nil_of_length_eq_zero hnil)
  obtain ⟨hsame, rfl, rfl⟩ | ⟨hother, ⟨hdue, happ, rfl⟩ | ⟨hnot, rfl, rfl⟩⟩ := sample_cases hs
  · cases h with
    | unindexed hnone => simp [hnone] at hsame
    | own hl =>
      exact ⟨⟨_, _, hl, rfl, counts_own hlength hspan⟩, .inl rfl, _, hl, Nat.le_refl _, .inl rfl⟩
    | counted hl hcounts =>
      -- another record at the position of the entry: the one of the entry is empty
      have hbehind := hcounts.behind
      exact .hidden hl hcounts (by simpa [hl] using hsame)
        (Nat.add_le_add_right (Nat.le_of_lt hbehind) _)
  · refine .noted happ hlength hspan fun last hlast => ?_
    cases h with
    | unindexed hnone => simp [hnone] at hlast
    | own hown => simp [hown] at hother
    | counted hl hcounts =>
      rw [hl, Option.some.injEq] at hlast
      subst hlast
      simp only [needsEntry, decide_eq_true_eq] at hdue
      exact Nat.le_trans (Nat.add_le_add_left hdue _) hcounts.atMost
  · cases h with
    | unindexed hnone => simp [needsEntry] at hnot
    | own hown => simp [needsEntry] at hnot
    | counted hl hcounts =>
      simp only [needsEntry, decide_eq_false_iff_not, Nat.not_le] at hnot
      exact .passed hl hcounts hnot

/-- What sampling some records does: new entries are places of them, they keep their distance, and
every record is covered. -/
structure Swept (threshold : Nat) (hollow : IndexEntry → Prop) (ix after : BlockIndex)
    (records : List Record) : Prop where
  grown : ∃ more, after.entries = ix.entries ++ more ∧
    ∀ e ∈ more, ∃ r ∈ records, e = ⟨r.position, r.address⟩
  spaced : ∀ R : IndexEntry → IndexEntry → Prop, (∀ e f, Gap threshold e f → R e f) →
    ix.entries.IsChain R → after.entries.IsChain R
  covers : ∀ r ∈ records, after.Covers threshold hollow r.address

theorem sample_rising {r : Record} (h : ix.entries.Pairwise (·.address < ·.address))
    (hs : sample threshold ix since r = .ok (after, sinceAfter)) :
    after.entries.Pairwise (·.address < ·.address) := by
  rcases sample_ok hs with rfl | happ
  · exact h
  · obtain ⟨hentries, hfollows⟩ := BlockIndex.entries_append happ
    rw [hentries]
    exact BlockIndex.rising_append h hfollows

/-- Records are sampled at a pace, one after the other. -/
theorem Pace.sampleAll {position : Int} {address : Nat} {payloads : List Bytes}
    (h : Pace hollow ix since address position)
    (hrising : ix.entries.Pairwise (·.address < ·.address))
    (hhollow : ∀ r ∈ Frame.recordsOf position address payloads, r.payload = [] →
      hollow ⟨r.position, r.address⟩)
    (hs : Scan.sampleAll threshold (Frame.recordsOf position address payloads) ix since
      = .ok (after, sinceAfter)) :
    Swept threshold hollow ix after (Frame.recordsOf position address payloads) ∧
      Pace hollow after sinceAfter (address + (Frame.encodeRun position payloads).length)
        (position + Frame.span payloads) := by
  induction payloads generalizing position address ix since with
  | nil =>
    simp only [Frame.recordsOf, Scan.sampleAll, Except.ok.injEq, Prod.mk.injEq] at hs
    obtain ⟨rfl, rfl⟩ := hs
    refine ⟨⟨⟨[], by simp, by simp⟩, fun _ _ hchain => hchain, by simp [Frame.recordsOf]⟩, ?_⟩
    rw [Frame.encodeRun, Frame.span_nil, List.length_nil, Nat.add_zero, Int.natCast_zero, Int.add_zero]
    exact h
  | cons x rest ih =>
    obtain ⟨middle, sinceMiddle, hfirst, hrest⟩ := sampleAll_cons_ok hs
    have hsampled := Pace.sample h (hhollow _ List.mem_cons_self) hfirst
    obtain ⟨_, bytes, hlast, rfl, hcounts⟩ := hsampled.counted
    have hmiddle := sample_rising hrising hfirst
    obtain ⟨⟨⟨more, hmore, hplaces⟩, hspaced, hcovers⟩, hpace⟩ :=
      ih (.counted hlast hcounts) hmiddle (fun r hr => hhollow r (List.mem_cons_of_mem _ hr)) hrest
    have hbeyond : ∀ e ∈ more, address < e.address := by
      intro e he
      obtain ⟨r, hr, rfl⟩ := hplaces e he
      have hbehind := Frame.address_le_of_mem hr
      have hnext := Record.lt_nextAddress ⟨position, address, x⟩
      dsimp only at hnext ⊢
      omega
    refine ⟨⟨?_, fun R hR hchain => hspaced R hR ?_, fun r hr => ?_⟩, ?_⟩
    · obtain ⟨own, hentries, hown⟩ := hsampled.more
      refine ⟨own ++ more, by rw [hmore, hentries, List.append_assoc], fun e he => ?_⟩
      rcases List.mem_append.1 he with he | he
      · exact ⟨_, List.mem_cons_self, hown e he⟩
      · exact (hplaces e he).imp fun r hr => hr.imp_left (List.mem_cons_of_mem _)
    · exact (hsampled.mono hR).chain hchain
    · rcases List.mem_cons.1 hr with rfl | hr
      · exact (hsampled.covers hmiddle).grow hmore hbeyond fun _ he => he
      · exact hcovers r hr
    · rw [Frame.encodeRun, List.length_append, Frame.length_encode, Frame.span_cons, Int.natCast_add,
        ← Nat.add_assoc, ← Int.add_assoc]
      exact hpace

end Scan

end PartitionLog
