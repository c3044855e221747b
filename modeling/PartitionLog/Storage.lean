import PartitionLog.FileSystem

/-!
# Storage

The append-only byte storage under a log: in memory, or one file. Both answer the same calls
(`openUp`, `close`, `append`, `read`, `truncate`, `flush`, `endAddress?`), and `stored` is the view
on both: the bytes that the log holds. A `FaultPlan` says which calls fail; a call that fails does
nothing else.
-/

namespace PartitionLog

inductive StorageCall where
  | openUp
  | close
  | append
  | read
  | truncate
  | flush
  | endAddress
  deriving DecidableEq, Repr

/-- Which calls fail, counted from when the schedule was set: the call with number `n` fails if
`fails n`, and `used` calls were made. -/
structure Schedule where
  fails : Nat → Bool
  used : Nat := 0

namespace Schedule

def never : Schedule := ⟨fun _ => false, 0⟩

/-- The next `n` calls pass, every later one fails. -/
def failAfter (n : Nat) : Schedule := ⟨fun k => decide (n ≤ k), 0⟩

/-- The next `n` calls fail, every later one passes. -/
def failFirst (n : Nat) : Schedule := ⟨fun k => decide (k < n), 0⟩

def failsNow (s : Schedule) : Bool := s.fails s.used

def next (s : Schedule) : Schedule := { s with used := s.used + 1 }

end Schedule

abbrev FaultPlan := StorageCall → Schedule

namespace FaultPlan

def none : FaultPlan := fun _ => .never

def set (plan : FaultPlan) (call : StorageCall) (schedule : Schedule) : FaultPlan :=
  fun c => if c = call then schedule else plan c

end FaultPlan

/-- An open file and the offset where the next block goes. -/
structure Handle where
  number : Nat
  endAddress : Nat
  deriving DecidableEq, Repr

inductive Medium where
  | memory (isOpen : Bool) (bytes : Bytes) (flushes : Nat)
  | file (path : String) (handle : Option Handle)
  deriving DecidableEq, Repr

structure Storage where
  medium : Medium
  files : FileSystem := {}
  faults : FaultPlan := .none
  /-- Whoever opens or closes the storage has to wait. -/
  isGated : Bool := false

namespace Storage

def newMemory : Storage := { medium := .memory false [] 0 }

def isOpen (s : Storage) : Bool :=
  match s.medium with
  | .memory isOpen _ _ => isOpen
  | .file _ handle => handle.isSome

/-- The bytes of the log. -/
def stored (s : Storage) : Bytes :=
  match s.medium with
  | .memory _ bytes _ => bytes
  | .file _ (some handle) => s.files.content handle.number
  | .file path none => (s.files.read? path).getD []

/-- Bytes put at offset `address`, over what is there, zeros before them if the content is short. -/
def overwrite (content : Bytes) (address : Nat) (block : Bytes) : Bytes :=
  if block.isEmpty then content
  else (content ++ List.replicate (address - content.length) 0).take address ++ block
    ++ content.drop (address + block.length)

/-- Exactly `length` bytes: cut, or filled up with zeros. -/
def resize (content : Bytes) (length : Nat) : Bytes :=
  content.take length ++ List.replicate (length - content.length) 0

/-- Let the fault plan decide about a call. -/
def allow (call : StorageCall) : Attempt Storage Unit := fun s =>
  let t := { s with faults := s.faults.set call (s.faults call).next }
  if (s.faults call).failsNow then (.error (.io .unavailable), t) else (.ok (), t)

def closedError (s : Storage) : LogError :=
  match s.medium with
  | .memory _ _ _ => .invalidState .memoryClosed
  | .file path _ => .invalidState (.fileClosed path)

/-- Open the storage, creating its file; nothing happens if it is open. -/
def openMedium : Attempt Storage Unit := fun s =>
  match s.medium with
  | .memory _ bytes flushes => (.ok (), { s with medium := .memory true bytes flushes })
  | .file _ (some _) => (.ok (), s)
  | .file path none =>
    match s.files.makeParent path with
    | (.error e, files) => (.error (.io (.system e)), { s with files := files })
    | (.ok (), files) =>
      match files.touch path with
      | (.error e, files) => (.error (.io (.system e)), { s with files := files })
      | (.ok number, files) =>
        (.ok (), { s with
          medium := .file path (some ⟨number, (files.content number).length⟩), files := files })

def closeMedium : Attempt Storage Unit := fun s =>
  match s.medium with
  | .memory _ bytes flushes => (.ok (), { s with medium := .memory false bytes flushes })
  | .file path _ => (.ok (), { s with medium := .file path none })

/-- Append a block; the answer is its address. -/
def appendMedium (block : Bytes) : Attempt Storage Nat := fun s =>
  match s.medium with
  | .memory true bytes flushes =>
    (.ok bytes.length, { s with medium := .memory true (bytes ++ block) flushes })
  | .file path (some ⟨number, endAddress⟩) =>
    (.ok endAddress, { s with
      medium := .file path (some ⟨number, endAddress + block.length⟩),
      files := s.files.setContent number (overwrite (s.files.content number) endAddress block) })
  | _ => (.error s.closedError, s)

/-- At most `max` bytes from `address` on; none at or past the end. -/
def readMedium (address max : Nat) : Attempt Storage Bytes := fun s =>
  match s.medium with
  | .memory true bytes _ => (.ok (bytes.slice address max), s)
  | .file _ (some ⟨number, endAddress⟩) =>
    let length := min max (endAddress - address)
    let found := (s.files.content number).slice address length
    if found.length = length then (.ok found, s) else (.error (.io .shortFile), s)
  | _ => (.error s.closedError, s)

/-- Remove everything at and after `address`. -/
def truncateMedium (address : Nat) : Attempt Storage Unit := fun s =>
  match s.medium with
  | .memory true bytes flushes =>
    if bytes.length < address then
      (.error (.invalidArgument (.pastEnd address bytes.length)), s)
    else (.ok (), { s with medium := .memory true (bytes.take address) flushes })
  | .file path (some ⟨number, endAddress⟩) =>
    if endAddress < address then (.error (.invalidArgument (.pastEnd address endAddress)), s)
    else (.ok (), { s with
      medium := .file path (some ⟨number, address⟩),
      files := s.files.setContent number (resize (s.files.content number) address) })
  | _ => (.error s.closedError, s)

def flushMedium : Attempt Storage Unit := fun s =>
  match s.medium with
  | .memory true bytes flushes => (.ok (), { s with medium := .memory true bytes (flushes + 1) })
  | .file _ (some _) => (.ok (), s)
  | _ => (.error s.closedError, s)

def endMedium : Attempt Storage Nat := fun s =>
  match s.medium with
  | .memory true bytes _ => (.ok bytes.length, s)
  | .file _ (some handle) => (.ok handle.endAddress, s)
  | _ => (.error s.closedError, s)

/-! ## The calls, faults included -/

def openUp : Attempt Storage Unit := do allow .openUp; openMedium

def close : Attempt Storage Unit := do allow .close; closeMedium

def append (block : Bytes) : Attempt Storage Nat := do allow .append; appendMedium block

def read (address max : Nat) : Attempt Storage Bytes := do allow .read; readMedium address max

def truncate (address : Nat) : Attempt Storage Unit := do allow .truncate; truncateMedium address

def flush : Attempt Storage Unit := do allow .flush; flushMedium

/-- The address that the next block gets. -/
def endAddress? : Attempt Storage Nat := do allow .endAddress; endMedium

/-- Addresses start here. -/
def firstAddress : Nat := 0

end Storage

end PartitionLog
