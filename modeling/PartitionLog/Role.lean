/-!
# Roles of a partition and states of its log

The role that replication gives this node, and the lifecycle state of a log stream: both are named
in error texts, so they stand before the errors.
-/

namespace PartitionLog

inductive Role where
  | inactive
  | follower
  | candidate
  | leader
  deriving DecidableEq, Repr

namespace Role

def text : Role → String
  | inactive => "INACTIVE"
  | follower => "FOLLOWER"
  | candidate => "CANDIDATE"
  | leader => "LEADER"

/-- The name of the role in listings of a partition's state. -/
def name : Role → String
  | inactive => "Inactive"
  | follower => "Follower"
  | candidate => "Candidate"
  | leader => "Leader"

/-- Whether the partition's components run in this role. -/
def isActive (role : Role) : Bool := role != inactive

end Role

/-- Whether a processor writes follow-up records or only rebuilds its state. -/
inductive ProcessingMode where
  | processing
  | replay
  deriving DecidableEq, Repr

namespace ProcessingMode

/-- Only a leader processes. -/
def ofRole : Role → ProcessingMode
  | .leader => processing
  | _ => replay

def name : ProcessingMode → String
  | processing => "Processing"
  | replay => "Replay"

end ProcessingMode

inductive StreamState where
  | closed
  | opening
  | opened
  | closing
  deriving DecidableEq, Repr

namespace StreamState

def name : StreamState → String
  | closed => "Closed"
  | opening => "Opening"
  | opened => "Open"
  | closing => "Closing"

end StreamState

end PartitionLog
