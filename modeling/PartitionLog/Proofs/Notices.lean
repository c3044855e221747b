import PartitionLog.Proofs.LeadingCommands

/-!
# Whom the notices of a stream reach

A stream tells of halts and recoveries in the course of its lifecycle commands, and only to listeners
that are registered: nothing that the lifecycle does on its own makes another listener known
(`Lifecycle.runQueue_knows`).
-/

namespace PartitionLog

namespace LogStream

variable {s t : LogStream}

/-- No listener is known in `t` that is not in `s`. -/
def Knows (s t : LogStream) : Prop := t.appender.listeners.known ⊆ s.appender.listeners.known

end LogStream

namespace Appender

/-- No listener is known in `b` that is not in `a`. -/
def Knows (a b : Appender) : Prop := b.listeners.known ⊆ a.listeners.known

instance : IsPreorder Appender Knows where
  refl _ := List.Subset.refl _
  trans _ _ _ h h' := List.Subset.trans h' h

theorem atCommand_knows : AtCommand Knows :=
  .of_log (fun _ _ => List.Subset.refl _) (fun _ => List.Subset.refl _)
    (fun _ _ => List.Subset.refl _) (fun _ _ => List.Subset.refl _)
    (fun _ _ _ _ => List.Subset.refl _) fun a => (works_announceRecovery a).listeners

end Appender

theorem Lifecycle.runQueue_knows (patient : Bool) (l : Lifecycle) :
    l.stream.Knows (l.runQueue patient).stream :=
  runQueue_leads Appender.atCommand_knows (fun a => (Appender.atWork_works.stop a).listeners)
    patient l

end PartitionLog
