import PartitionLog.Session.Roles
import PartitionLog.Session.Store

/-!
# Sessions

A session is a list of steps on one workspace. Each step is carried out and the workspace settles;
what that did not wait for is done before the next step. The events of a step whose outcome is not
waited for are shown with a later one.
-/

namespace PartitionLog.Session

inductive Step where
  | store (step : StoreStep)
  | index (step : IndexStep)
  | file (step : FileStep)
  | buffer (step : BufferStep)
  | reader (step : ReaderStep)
  | indexed (step : IndexedStep)
  | appender (step : AppenderStep)
  | listener (step : ListenerStep)
  | stream (step : StreamStep)
  | health (step : HealthStep)
  | completion (step : CompletionStep)
  | partition (step : PartitionStep)

namespace Step

/-- Whether the outcome of a step is not waited for. -/
def isStarted : Step → Bool
  | stream (.command _ (some _)) => true
  | partition (.change _ _ (some _)) => true
  | _ => false

end Step

namespace Workspace

def carryOut (w : Workspace) : Step → Answer × Workspace
  | .store step => w.store step
  | .index step => w.indexStep step
  | .file step => w.fileStep step
  | .buffer step => w.bufferStep step
  | .reader step => w.readerStep step
  | .indexed step => w.indexedStep step
  | .appender step => w.appenderStep step
  | .listener step => w.listenerStep step
  | .stream step => w.streamStep step
  | .health step => w.healthStep step
  | .completion step => w.completionStep step
  | .partition step => w.partitionStep step

/-- Carry out a step and settle; the events are those to be shown with it. -/
def take (w : Workspace) (step : Step) : (Answer × List PartitionEvent) × Workspace :=
  let (answer, w) := w.wakeAppender.carryOut step
  if step.isStarted then ((answer, []), w.settlePatiently)
  else
    let w := w.settle
    ((answer, w.events), { w with events := [] })

/-- The size of a stored file, if there is one. -/
def fileSize (w : Workspace) (path : String) : Option Nat :=
  (w.files.read? path).map List.length

end Workspace

end PartitionLog.Session
