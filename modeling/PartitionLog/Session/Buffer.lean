import PartitionLog.Session.Workspace

/-!
# Write buffer and reader steps

Claims are kept under names. A step that may wait can have somebody else act meanwhile: if it has
to wait, the other acts and the step is tried once more, and if it still has to wait its time is
over; if it did not have to wait, or waits less long than the other takes, the other acts
afterwards. While there is a log stream the steps work on its buffer, whatever buffers are made.
-/

namespace PartitionLog.Session

/-- What somebody else does while a step waits. -/
inductive Meanwhile where
  | commit (id : String)
  | abort (id : String)
  | release (count : Nat)
  | close
  deriving DecidableEq, Repr

inductive BufferStep where
  | create (capacity maxFragment : Nat)
  | tryClaim (id : String) (length : Nat)
  /-- Limits are in nanoseconds. -/
  | claim (id : String) (length limit : Nat) (other : Option Meanwhile)
  | fill (id : String) (offset : Nat) (data : Bytes)
  | commit (id : String)
  | abort (id : String)
  | put (data : Bytes)
  | poll (max : Nat)
  | release (count : Nat)
  | doorbell
  | close (grace : Nat) (other : Option Meanwhile)
  | reopen
  | waitDrained (limit : Nat) (other : Option Meanwhile)

inductive ReaderStep where
  | create (id : String) (window : Nat)
  | next (id : String)
  | readAt (id : String) (address : Nat)
  | readLast (id : String)
  | seek (id : String) (position : Int)
  | find (id : String) (position : Int)
  | first (id : String)
  | seekAddress (id : String) (address : Nat)
  | collect (id : String)

namespace Workspace

/-- End a claim in the buffer where it was made. -/
def endClaim (w : Workspace) (claim : Claim × Nat) (f : WriteBuffer → Claim → WriteBuffer) :
    Workspace :=
  match w.bufferAt? claim.2 with
  | some buffer => w.setBufferAt claim.2 (f buffer claim.1)
  | none => w

def changeBuffer (w : Workspace) (f : WriteBuffer → WriteBuffer) : Workspace :=
  match w.buffer? with
  | some buffer => w.setBuffer (f buffer)
  | none => w

/-- Drop all claims. -/
def dropClaims (w : Workspace) : Workspace :=
  { w.claims.foldl (fun w (_, claim) => w.endClaim claim WriteBuffer.abort) w with claims := [] }

/-- Keep a claim under a name; the one that was there is dropped. -/
def keepClaim (w : Workspace) (id : String) (claim : Claim) : Workspace :=
  let kept := { w with claims := w.claims.put id (claim, w.bufferNumber) }
  match w.claims.find? id with
  | some old => kept.endClaim old WriteBuffer.abort
  | none => kept

/-- Take a claim out of the workspace and end it. -/
def takeClaim (w : Workspace) (id : String) (f : WriteBuffer → Claim → WriteBuffer) :
    Answer × Workspace :=
  match w.claims.find? id with
  | none => (.label "no claim", w)
  | some claim => (.done, { w with claims := w.claims.drop id }.endClaim claim f)

/-! ## Somebody else -/

/-- How long somebody else takes to act, in nanoseconds. -/
def otherDelay : Nat := 5000000

/-- What the other is going to do, the claim already in the other's hands. -/
def handOver (w : Workspace) : Option Meanwhile → Workspace × (Workspace → Workspace)
  | none => (w, id)
  | some (.release count) => (w, fun w => (w.changeBuffer (·.release count)).settle)
  | some .close => (w, fun w => (w.changeBuffer WriteBuffer.shut).settle)
  | some (.commit id) => giveAway w id WriteBuffer.commit
  | some (.abort id) => giveAway w id WriteBuffer.abort
where
  giveAway (w : Workspace) (name : String) (f : WriteBuffer → Claim → WriteBuffer) :
      Workspace × (Workspace → Workspace) :=
    match w.claims.find? name with
    | none => (w, id)
    | some claim =>
      ({ w with claims := w.claims.drop name }, fun w => (w.endClaim claim f).settle)

/-! ## Buffer steps -/

def claimAnswer (buffer : WriteBuffer) (claim : Claim) : Answer :=
  .claimed claim.slot (buffer.physical claim.offset) claim.payload.length

def tryClaim (w : Workspace) (id : String) (length : Nat) : Answer × Workspace :=
  match w.buffer? with
  | none => (.refused, w)
  | some buffer =>
    match (WriteBuffer.tryClaim length).run buffer with
    | (.error e, buffer) => (.failed e, w.setBuffer buffer)
    | (.ok claim, buffer) => (claimAnswer buffer claim, (w.setBuffer buffer).keepClaim id claim)

def claim (w : Workspace) (id : String) (length limit : Nat) (other : Option Meanwhile) :
    Answer × Workspace :=
  let (w, act) := w.handOver other
  match w.tryClaim id length with
  | (.failed (.backpressure requested available), w) =>
    if limit < otherDelay then (.failed (.backpressure requested available), act w)
    else (act w).tryClaim id length
  | (answer, w) => (answer, act w)

def fill (w : Workspace) (id : String) (offset : Nat) (data : Bytes) : Answer × Workspace :=
  match w.claims.find? id with
  | none => (.label "no claim", w)
  | some (claim, number) =>
    if claim.payload.length < offset + data.length then (.label "out of range", w)
    else
      let payload := claim.payload.take offset ++ data ++ claim.payload.drop (offset + data.length)
      (.done, { w with claims := w.claims.put id ({ claim with payload := payload }, number) })

def put (w : Workspace) (data : Bytes) : Answer × Workspace :=
  match w.buffer? with
  | none => (.refused, w)
  | some buffer =>
    match (WriteBuffer.put data).run buffer with
    | (.error e, buffer) => (.failed e, w.setBuffer buffer)
    | (.ok claim, buffer) =>
      (.placed claim.slot (buffer.physical claim.offset), w.setBuffer buffer)

/-- Shut the buffer and wait for its claims. -/
def closeBuffer (w : Workspace) (grace : Nat) (other : Option Meanwhile) : Answer × Workspace :=
  let (w, act) := w.handOver other
  let shut := w.changeBuffer WriteBuffer.shut
  let after := act shut
  match (if grace < otherDelay then shut else after).buffer? with
  | none => (.refused, after)
  | some buffer => (.ofOutcome (buffer.waited grace), after)

def isDrained (w : Workspace) : Bool := (w.buffer?.map WriteBuffer.isEmpty).getD true

def waitDrained (w : Workspace) (limit : Nat) (other : Option Meanwhile) : Answer × Workspace :=
  let (w, act) := w.handOver other
  let after := act w
  (.flag (w.isDrained || (otherDelay ≤ limit && after.isDrained)), after)

def bufferStep (w : Workspace) : BufferStep → Answer × Workspace
  | .create capacity maxFragment =>
    match WriteBuffer.create capacity maxFragment with
    | .error e => (.failed e, w)
    | .ok buffer =>
      let w := { w with buffers := w.buffers ++ [buffer] }
      (.ofOption (fun b => .capacities b.capacity b.maxFragment) w.buffer?, w)
  | .tryClaim id length => w.tryClaim id length
  | .claim id length limit other => w.claim id length limit other
  | .fill id offset data => w.fill id offset data
  | .commit id => w.takeClaim id WriteBuffer.commit
  | .abort id => w.takeClaim id WriteBuffer.abort
  | .put data => w.put data
  | .poll max =>
    match w.buffer? with
    | none => (.refused, w)
    | some buffer => (.ofOption .block (buffer.pollBlock max), w)
  | .release count => (.done, w.changeBuffer (·.release count))
  | .doorbell =>
    (.flag ((w.buffer?.map (·.doorbell)).getD false),
      w.changeBuffer fun buffer => { buffer with doorbell := false })
  | .close grace other => w.closeBuffer grace other
  | .reopen => (.done, w.changeBuffer WriteBuffer.reopen)
  | .waitDrained limit other => w.waitDrained limit other

/-! ## Reader steps -/

/-- Use a reader; the answer comes with the address that it reads next. -/
def useReader (w : Workspace) (id : String) (f : Reading → Answer × Reading) : Answer × Workspace :=
  match w.readers.find? id with
  | none => (.refused, w)
  | some own =>
    let (answer, rs) := f ⟨own.reader, w.storageAt own.storage⟩
    (.read answer rs.reader.next,
      { w with readers := w.readers.put id { own with reader := rs.reader } }.setStorageAt
        own.storage rs.storage)

/-- Use a reader for something that may fail. -/
def tryReader {α : Type} (w : Workspace) (id : String) (x : Attempt Reading α) (f : α → Answer) :
    Answer × Workspace :=
  w.useReader id fun rs =>
    let (outcome, rs) := x.run rs
    (.ofExcept f outcome, rs)

def collectAll (rs : Reading) : Answer × Reading :=
  let ((records, stop), rs) := rs.collect
  (.collected records stop, rs)

def readerStep (w : Workspace) : ReaderStep → Answer × Workspace
  | .create id window =>
    let own : OwnReader := match w.stream with
      | some s => ⟨s.lifecycle.stream.newReader, s.storage⟩
      | none => ⟨.ofWindow window, w.storageNumber⟩
    (.made own.reader.next, { w with readers := w.readers.put id own })
  | .next id => w.tryReader id Reading.nextRecord (.ofOption .record)
  | .readAt id address => w.tryReader id (Reading.readAt address) (.ofOption .record)
  | .readLast id => w.tryReader id (Reading.readLast w.currentIndex) (.ofOption .record)
  | .seek id position => w.tryReader id (Reading.seek w.currentIndex position) .flag
  | .find id position =>
    w.tryReader id (Reading.findAddress w.currentIndex position)
      (.ofOption fun address => .number address)
  | .first id => w.useReader id fun rs => (.done, rs.moveTo Storage.firstAddress)
  | .seekAddress id address => w.useReader id fun rs => (.done, rs.moveTo address)
  | .collect id => w.useReader id collectAll

end Workspace

end PartitionLog.Session
