import PartitionLog.Partition

/-!
# Changing the role

A change of role prepares all steps, the last one first, and then installs all, the first one
first; it ends at the first call that fails. Only when every call succeeded are the new role and
term recorded. One change runs at a time: a request while another waits is rejected.
-/

namespace PartitionLog.Partition

/-- The calls of a change through `count` steps, in order. -/
def plannedCalls (count : Nat) : List StepCall :=
  (List.range count).reverse.map (⟨.prepare, ·⟩) ++ (List.range count).map (⟨.install, ·⟩)

/-- What became of a change: over, or waiting in a call with others left. -/
inductive ChangeOutcome where
  | done (outcome : Except LogError Unit)
  | held (call : StepCall) (awaited : Awaited) (rest : List StepCall)

/-- Make the calls one after the other, up to the first that fails or waits. -/
def makeCalls (term : Nat) (target : Role) : List StepCall → Partition → ChangeOutcome × Partition
  | [], p => (.done (.ok ()), { p with role := some target, term := term })
  | call :: rest, p =>
    match callStep term target call p with
    | (.done (.ok ()), p) => makeCalls term target rest p
    | (.done (.error e), p) => (.done (.error e), p)
    | (.held awaited, p) => (.held call awaited rest, p)

def issue (p : Partition) (completion : Completion Unit) : Nat × Partition :=
  (p.tickets.length, { p with tickets := p.tickets ++ [completion] })

def ticket (p : Partition) (n : Nat) : Completion Unit := p.tickets.getD n .pending

/-- Record what became of the change with this ticket. -/
def conclude (ticket term : Nat) (target : Role) (result : ChangeOutcome × Partition) : Partition :=
  match result with
  | (.done outcome, p) =>
    { p with
      held := none
      tickets := p.tickets.modify ticket fun c => (c.finish outcome).2 }
  | (.held call awaited rest, p) =>
    { p with held := some ⟨ticket, term, target, call, awaited, rest⟩ }

/-- Ask for a change of role; the answer is the ticket for its outcome. -/
def requestRole (term : Nat) (target : Role) (p : Partition) : Nat × Partition :=
  if p.held.isSome then p.issue (.finished (.error (.transitionInProgress p.id target.text)))
  else
    let (ticket, p) := p.issue .pending
    (ticket, conclude ticket term target (makeCalls term target (plannedCalls p.steps.length) p))

/-- The call in which a change waits ended; go on with the change. -/
def goOn (change : HeldChange) (result : Except LogError Unit × Partition) : Partition :=
  conclude change.ticket change.term change.role <|
    match result with
    | (.ok (), p) => makeCalls change.term change.role change.rest p
    | (.error e, p) => (.done (.error e), p)

/-- The open of a processor ended; go on with the change that waits for it. -/
def letGo (opened : Except LogError Unit) (p : Partition) : Partition :=
  match p.held with
  | none => p
  | some change =>
    match change.awaited with
    | .processor processor =>
      goOn change ((endInstall change.term change.role processor opened).run p)
    | .stream _ => p

/-- Go on with a change that waits for the stream, if what it waits for is carried out. -/
def resume (p : Partition) : Partition :=
  match p.held, p.stream with
  | some change, some l =>
    match change.awaited with
    | .processor _ => p
    | .stream ticket =>
      match (l.ticket ticket).outcome with
      | none => p
      | some outcome => goOn change ((endStream change.call change.term outcome).run p)
  | _, _ => p

end PartitionLog.Partition
