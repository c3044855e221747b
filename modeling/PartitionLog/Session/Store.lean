import PartitionLog.Session.Workspace

/-!
# Storage, index and file steps

The steps that work on the storage of a workspace, on its block index, and on the files around them.
-/

namespace PartitionLog.Session

inductive StoreStep where
  | memory
  | file (path : String)
  | openPath (path : String)
  | openUp
  | close
  | flush
  | append (data : Bytes)
  | read (address max : Nat)
  | truncate (address : Nat)
  | endAddress
  | firstAddress
  | contents
  /-- Let calls fail: the next `n` pass and later ones fail, or with `n < 0` the next `-n` fail. -/
  | fault (changes : List (StorageCall × Option Int))
  | gate (closed : Bool)
  /-- Drop bytes at the end, change some in the middle, add some at the end. -/
  | tamper (cut : Nat) (at? : Nat) (mask : Bytes) (added : Bytes)

inductive IndexStep where
  | append (position : Int) (address : Nat)
  | lookup (position : Int) (first : Nat)
  | truncateAfter (position : Int)
  | truncateFrom (address : Nat)
  | clear
  | info
  | writeSnapshot (path : String)
  | readSnapshot (path : String) (use : Bool)

inductive FileStep where
  | write (path : String) (data : Bytes)
  | read (path : String)
  | list
  | remove (path : String)

def scheduleFor : Option Int → Schedule
  | none => .never
  | some (.ofNat n) => .failAfter n
  | some (.negSucc n) => .failFirst (n + 1)

/-- Xor a mask onto the bytes from `offset` on, as far as there are any. -/
def applyMask (bytes : Bytes) (offset : Nat) (mask : Bytes) : Bytes :=
  let changed := (bytes.drop offset).zipWith (· ^^^ ·) mask
  bytes.take offset ++ changed ++ bytes.drop (offset + changed.length)

def tampered (bytes : Bytes) (cut offset : Nat) (mask added : Bytes) : Bytes :=
  applyMask (bytes.take (bytes.length - cut)) offset mask ++ added

/-- Change the bytes of the log, past all faults; a closed storage is opened for it. What lies in a
file beyond the end of the log is lost. -/
def tamperWith (cut offset : Nat) (mask added : Bytes) : Attempt Storage Unit := do
  let wasOpen := (← .get).isOpen
  if !wasOpen then Storage.openMedium
  let stored ← Storage.readMedium Storage.firstAddress (← Storage.endMedium)
  Storage.truncateMedium Storage.firstAddress
  let _ ← Storage.appendMedium (tampered stored cut offset mask added)
  if !wasOpen then Storage.closeMedium

namespace Workspace

variable {α : Type}

def onStorage (w : Workspace) (x : Attempt Storage α) : Except LogError α × Workspace :=
  let (outcome, storage) := x.run w.storage
  (outcome, w.setStorage storage)

def onFiles (w : Workspace) (f : FileSystem → α × FileSystem) : α × Workspace :=
  let (answer, files) := f w.files
  (answer, { w with files := files })

/-- The stored bytes, open or not; `none` if the file is missing. -/
def contents (w : Workspace) : Option Bytes :=
  match w.storage.medium with
  | .memory _ bytes _ => some bytes
  | .file path _ => w.files.read? path

/-- Go on with a storage of this medium over the same files, without faults. -/
def addMedium (w : Workspace) (medium : Medium) : Workspace :=
  w.addStorage { medium := medium, files := w.files }

def openPath (w : Workspace) (path : String) : Answer × Workspace :=
  match Storage.openMedium.run { medium := .file path none, files := w.files } with
  | (.error e, storage) => (.failed e, { w with files := storage.files })
  | (.ok (), storage) => (.label path, w.addStorage storage)

def store (w : Workspace) : StoreStep → Answer × Workspace
  | .memory => (.done, w.addMedium (.memory false [] 0))
  | .file path => (.label path, w.addMedium (.file path none))
  | .openPath path => w.openPath path
  | .openUp => (w.onStorage Storage.openUp).map .ofOutcome id
  | .close => (w.onStorage Storage.close).map .ofOutcome id
  | .flush => (w.onStorage Storage.flush).map .ofOutcome id
  | .append data =>
    (w.onStorage (Storage.append data)).map (.ofExcept fun (n : Nat) => .number n) id
  | .read address max => (w.onStorage (Storage.read address max)).map (.ofExcept .bytes) id
  | .truncate address => (w.onStorage (Storage.truncate address)).map .ofOutcome id
  | .endAddress => (w.onStorage Storage.endAddress?).map (.ofExcept fun (n : Nat) => .number n) id
  | .firstAddress => (.number Storage.firstAddress, w)
  | .contents => (.ofOption .bytes w.contents, w)
  | .fault changes =>
    let storage := w.storage
    let faults := changes.foldl (fun faults (call, n) => faults.set call (scheduleFor n))
      storage.faults
    (.done, w.setStorage { storage with faults := faults })
  | .gate closed => (.done, w.setStorage { w.storage with isGated := closed })
  | .tamper cut offset mask added =>
    (w.onStorage (tamperWith cut offset mask added)).map .ofOutcome id

def readSnapshot (w : Workspace) (path : String) (use : Bool) : Answer × Workspace :=
  match BlockIndex.Snapshot.read w.files path with
  | .error e => (.failed e, w)
  | .ok none => (.null, w)
  | .ok (some index) =>
    (.snapshot index (decide (index = w.currentIndex)),
      if use then w.setCurrentIndex index else w)

def writeSnapshot (w : Workspace) (path : String) : Answer × Workspace :=
  let (outcome, w) := w.onFiles (BlockIndex.Snapshot.write w.currentIndex path).run
  (.ofOutcome outcome, w)

def changeIndex (w : Workspace) (f : BlockIndex → BlockIndex) : Answer × Workspace :=
  (.done, w.setCurrentIndex (f w.currentIndex))

def indexStep (w : Workspace) : IndexStep → Answer × Workspace
  | .append position address =>
    match w.currentIndex.append position address with
    | .ok index => (.done, w.setCurrentIndex index)
    | .error e => (.failed e, w)
  | .lookup position first =>
    (.looked (w.currentIndex.lookup position) (w.currentIndex.startFor position first), w)
  | .truncateAfter position => w.changeIndex (·.truncateAfter position)
  | .truncateFrom address => w.changeIndex (·.truncateFrom address)
  | .clear => w.changeIndex BlockIndex.clear
  | .info => (.indexInfo w.currentIndex.size w.currentIndex.last?, w)
  | .writeSnapshot path => w.writeSnapshot path
  | .readSnapshot path use => w.readSnapshot path use

/-- Write a file, with the directories above it. -/
def writeFile (path : String) (data : Bytes) (files : FileSystem) :
    Except SystemFault Unit × FileSystem :=
  match files.makeParent path with
  | (.error e, files) => (.error e, files)
  | (.ok (), files) => files.write path data

def fileStep (w : Workspace) : FileStep → Answer × Workspace
  | .write path data =>
    match w.onFiles (writeFile path data) with
    | (.ok (), w) => (.done, w)
    | (.error e, w) => (.failed (.io (.system e)), w)
  | .read path => (.ofOption .bytes (w.files.read? path), w)
  | .list => (.names w.files.list, w)
  | .remove path => (w.onFiles (·.remove path)).map .flag id

end Workspace

end PartitionLog.Session
