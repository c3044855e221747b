import PartitionLog.Proofs.RoleChanges

/-!
# No processor is lost

Every processor that was built is opened once. It is closed once as well, unless somebody still has
it in hand: the partition that holds it, or the change that waits for its open. Each turn of the
custody keeps the count (`Turn.tracked`), so it is right after any moves (`processors_tracked`), and
there is never more than one processor that is not closed.
-/

namespace PartitionLog

namespace PartitionEvent

def opens (n : Nat) : PartitionEvent → Bool
  | .processorOpened number _ => number == n
  | _ => false

def closes (n : Nat) : PartitionEvent → Bool
  | .processorClosed number => number == n
  | _ => false

def timesOpened (n : Nat) (events : List PartitionEvent) : Nat := events.countP (·.opens n)

def timesClosed (n : Nat) (events : List PartitionEvent) : Nat := events.countP (·.closes n)

theorem IsAside.not_opens {event : PartitionEvent} (h : event.IsAside) (n : Nat) :
    event.opens n = false := by
  cases event with
  | processorOpened => exact absurd h id
  | _ => rfl

theorem IsAside.not_closes {event : PartitionEvent} (h : event.IsAside) (n : Nat) :
    event.closes n = false := by
  cases event with
  | processorClosed => exact absurd h id
  | _ => rfl

end PartitionEvent

open PartitionEvent (timesOpened timesClosed)

namespace Custody

/-- The processor that is neither closed nor lost. -/
def inHand (c : Custody) : Option Processor := c.processor.or c.opening

/-- The opens and closes that happened are those of the processors that were built. -/
structure Tracked (c : Custody) : Prop where
  apart : c.Apart
  below : ∀ pr, c.inHand = some pr → pr.number < c.built
  opened : ∀ n, timesOpened n c.events = if n < c.built then 1 else 0
  closed : ∀ n, timesClosed n c.events
    = if n < c.built ∧ c.inHand.map Processor.number ≠ some n then 1 else 0

variable {target : Role} {c d : Custody}

theorem Apart.opening_eq_none (h : c.Apart) {pr : Processor} (hp : c.processor = some pr) :
    c.opening = none := by
  cases ho : c.opening with
  | none => rfl
  | some other =>
    have := h (by rw [ho]; rfl)
    rw [hp] at this
    simp at this

theorem Turn.tracked (h : c.Turn target d) (hc : c.Tracked) : d.Tracked := by
  have hapart := h.apart hc.apart
  cases h with
  | aside event hevent =>
    refine ⟨hapart, hc.below, fun n => ?_, fun n => ?_⟩
    · rw [timesOpened, List.countP_append, List.countP_singleton, hevent.not_opens n]
      exact hc.opened n
    · rw [timesClosed, List.countP_append, List.countP_singleton, hevent.not_closes n]
      exact hc.closed n
  | dismiss pr hp =>
    have hopening := hc.apart.opening_eq_none hp
    have hbelow := hc.below pr (by simp [inHand, hp])
    refine ⟨hapart, by simp [inHand, hopening], fun n => ?_, fun n => ?_⟩
    · rw [← hc.opened n]
      simp [timesOpened, List.countP_append, PartitionEvent.opens]
    · have hclosed := hc.closed n
      simp only [timesClosed, inHand, hp, hopening, List.countP_append, List.countP_singleton,
        PartitionEvent.closes] at hclosed ⊢
      by_cases hn : pr.number = n
      · subst hn
        simp [hclosed, hbelow]
      · simp [hclosed, hn]
  | engage traits partition term stream paused hp ho =>
    refine ⟨hapart, ?_, fun n => ?_, fun n => ?_⟩
    · intro pr hpr
      simp only [inHand, Option.none_or, Option.some.injEq] at hpr
      subst hpr
      exact Nat.lt_succ_self _
    · have hopened := hc.opened n
      simp only [timesOpened, List.countP_append, List.countP_cons, List.countP_nil,
        PartitionEvent.opens] at hopened ⊢
      by_cases hn : c.built = n
      · subst hn
        simp [hopened]
      · have hiff : n < c.built + 1 ↔ n < c.built := by omega
        simp [hopened, hn, hiff]
    · have hclosed := hc.closed n
      simp only [timesClosed, inHand, hp, ho, List.countP_append, List.countP_cons, List.countP_nil,
        PartitionEvent.closes] at hclosed ⊢
      by_cases hn : c.built = n
      · subst hn
        simp [hclosed]
      · have hiff : n < c.built + 1 ↔ n < c.built := by omega
        simp [hclosed, hn, hiff]
  | install pr hp ho =>
    have hsame : inHand { c with processor := some pr, opening := none } = c.inHand := by
      simp [inHand, hp, ho]
    refine ⟨hapart, fun other hother => hc.below other (hsame ▸ hother), hc.opened, fun n => ?_⟩
    rw [hsame]
    exact hc.closed n
  | giveUp pr ho =>
    have hp := hc.apart (by rw [ho]; rfl)
    have hbelow := hc.below pr (by simp [inHand, hp, ho])
    refine ⟨hapart, by simp [inHand, hp], fun n => ?_, fun n => ?_⟩
    · rw [← hc.opened n]
      simp [timesOpened, List.countP_append, PartitionEvent.opens]
    · have hclosed := hc.closed n
      simp only [timesClosed, inHand, hp, ho, List.countP_append, List.countP_singleton,
        PartitionEvent.closes] at hclosed ⊢
      by_cases hn : pr.number = n
      · subst hn
        simp [hclosed, hbelow]
      · simp [hclosed, hn]

end Custody

namespace Partition

/-- A partition before its first change. -/
structure Fresh (p : Partition) : Prop where
  processor : p.processor = none
  held : p.held = none
  built : p.factory.built = 0
  events : p.events = []

variable {p : Partition}

theorem Fresh.opening (h : p.Fresh) : p.opening = none := by
  unfold Partition.opening
  rw [h.held]
  rfl

theorem Fresh.tracked (h : p.Fresh) : (p.custody p.opening).Tracked := by
  rw [h.opening]
  refine ⟨fun ho => by simp [custody] at ho, ?_, fun n => ?_, fun n => ?_⟩
  · simp [custody, Custody.inHand, h.processor]
  · simp [custody, timesOpened, h.events, h.built]
  · simp [custody, timesClosed, h.events, h.built]

/-- The number of the processor that is held, or that a change waits for. -/
def inHand (p : Partition) : Option Nat := (p.custody p.opening).inHand.map Processor.number

/-- Of the processors that were built, each was opened once, and each but the one in hand was closed
once. That one is held, unless a change still waits for its open. -/
theorem processors_tracked (p : Partition) (moves : List Move) (h : p.Fresh) {q : Partition}
    (hq : q = p.after moves) :
    (∀ n < q.factory.built, timesOpened n q.events = 1 ∧
      timesClosed n q.events = if q.inHand = some n then 0 else 1) ∧
    (∀ n, q.factory.built ≤ n → timesOpened n q.events = 0 ∧ timesClosed n q.events = 0) ∧
    (∀ n < q.factory.built, ∀ m < q.factory.built,
      timesClosed n q.events = 0 → timesClosed m q.events = 0 → n = m) ∧
    (∀ n, q.inHand = some n → n < q.factory.built ∧
      ((q.opening = none ∧ ∃ pr, q.processor = some pr ∧ pr.number = n) ∨
        (q.processor = none ∧ ∃ pr, q.opening = some pr ∧ pr.number = n))) := by
  have ht : (q.custody q.opening).Tracked := by
    rw [hq]
    exact kept_after (fun hc => hc.apart) (fun hturn hc => hturn.tracked hc) h.tracked moves
  have hopened : ∀ n, timesOpened n q.events = if n < q.factory.built then 1 else 0 := ht.opened
  have hclosed : ∀ n, timesClosed n q.events
      = if n < q.factory.built ∧ q.inHand ≠ some n then 1 else 0 := ht.closed
  have hkept : ∀ n < q.factory.built, timesClosed n q.events = 0 → q.inHand = some n := by
    intro n hn hzero
    by_cases hhand : q.inHand = some n
    · exact hhand
    · rw [hclosed, if_pos ⟨hn, hhand⟩] at hzero
      simp at hzero
  refine ⟨fun n hn => ⟨?_, ?_⟩, fun n hn => ⟨?_, ?_⟩, fun n hn m hm hzn hzm => ?_, fun n hn => ?_⟩
  · rw [hopened, if_pos hn]
  · rw [hclosed]
    by_cases hhand : q.inHand = some n
    · rw [if_pos hhand, if_neg fun hno => hno.2 hhand]
    · rw [if_neg hhand, if_pos ⟨hn, hhand⟩]
  · rw [hopened, if_neg (Nat.not_lt.2 hn)]
  · rw [hclosed, if_neg fun hlt => Nat.not_lt.2 hn hlt.1]
  · have hsame := (hkept n hn hzn).symm.trans (hkept m hm hzm)
    exact Option.some.inj hsame
  · obtain ⟨pr, hpr, rfl⟩ := Option.map_eq_some_iff.1 hn
    refine ⟨ht.below pr hpr, ?_⟩
    replace hpr : q.processor.or q.opening = some pr := hpr
    cases hp : q.processor with
    | some held =>
      rw [hp, Option.some_or, Option.some.injEq] at hpr
      exact .inl ⟨ht.apart.opening_eq_none hp, held, rfl, by rw [hpr]⟩
    | none =>
      rw [hp, Option.none_or] at hpr
      exact .inr ⟨rfl, pr, hpr, rfl⟩

/-- Processors whose open fails, or does not end at once, or whose close fails, and one build that
is refused. -/
def unreliable : Partition where
  id := 1
  steps := [.streamProcessor, .recorder "late" false false]
  factory :=
    { plan := fun n => match n with
        | 0 => some { openFails := true }
        | 1 => some { isHeld := true }
        | 2 => none
        | _ => some { closeFails := true } }

def unreliableMoves : List Move :=
  [.request 1 .follower, .request 2 .leader, .letGo (.ok ()), .request 3 .follower,
    .request 4 .leader, .request 5 .follower, .request 6 .candidate]

theorem processors_tracked_unreliable :
    unreliable.Fresh ∧ ∃ q, q = unreliable.after unreliableMoves ∧ q.factory.built = 4 ∧
      q.inHand = some 3 ∧ (∀ n < 4, timesOpened n q.events = 1) ∧
      (∀ n < 3, timesClosed n q.events = 1) ∧ timesClosed 3 q.events = 0 := by
  have hfresh : unreliable.Fresh := ⟨rfl, rfl, rfl, rfl⟩
  have hbuilt : (unreliable.after unreliableMoves).factory.built = 4 := by decide +kernel
  have hhand : (unreliable.after unreliableMoves).inHand = some 3 := by decide +kernel
  obtain ⟨hcounts, -⟩ := processors_tracked unreliable unreliableMoves hfresh rfl
  rw [hbuilt, hhand] at hcounts
  refine ⟨hfresh, _, rfl, hbuilt, hhand, fun n hn => (hcounts n hn).1, fun n hn => ?_, ?_⟩
  · rw [(hcounts n (by omega)).2, if_neg (by simp; omega)]
  · rw [(hcounts 3 (by omega)).2, if_pos rfl]

end Partition

end PartitionLog
