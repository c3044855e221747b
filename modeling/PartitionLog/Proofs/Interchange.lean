import PartitionLog.Proofs.LogFiles

/-!
# Memory and files are interchangeable

Callers of a storage can tell two things about it: whether it is open, and which bytes it holds
(`view`). What a request answers, and what it leaves, is a function of these two alone
(`View.perform`). A memory computes that function (`perform_memory`), and so does a file that nobody
else touches, as long as the operating system reports no error (`perform_file`). So a file at a path
where there is none and a new memory answer the same and hold the same bytes, request after request
(`file_observed_as_memory`).
-/

namespace PartitionLog.Storage

/-- A call of the interface with what it is given. -/
inductive Request where
  | openUp
  | close
  | append (block : Bytes)
  | read (address max : Nat)
  | truncate (address : Nat)
  | flush
  | endAddress
  | isOpen
  deriving DecidableEq, Repr

inductive Answer where
  | done
  | address (address : Nat)
  | bytes (bytes : Bytes)
  | flag (flag : Bool)
  deriving DecidableEq, Repr

def perform : Request → Attempt Storage Answer
  | .openUp => do openUp; return .done
  | .close => do close; return .done
  | .append block => do return .address (← append block)
  | .read address max => do return .bytes (← read address max)
  | .truncate address => do truncate address; return .done
  | .flush => do flush; return .done
  | .endAddress => do return .address (← endAddress?)
  | .isOpen => do return .flag (← Attempt.get).isOpen

/-- The bytes that anyone finds: those in memory, or those of the file at the path, none where there
is no file. -/
def contents (s : Storage) : Bytes :=
  match s.medium with
  | .memory _ bytes _ => bytes
  | .file path _ => (s.files.read? path).getD []

/-- How each request ended, and what was there to find after it. -/
def trace (s : Storage) : List Request → List (Except LogError Answer × Bytes)
  | [] => []
  | request :: rest =>
    let (r, t) := (perform request).run s
    (r, t.contents) :: t.trace rest

/-- The same with the kinds of the errors: their words name the storage. -/
def observe (s : Storage) (requests : List Request) : List (Except ErrorKind Answer × Bytes) :=
  (s.trace requests).map fun (r, bytes) => (r.mapError LogError.kind, bytes)

/-- The operating system reported an error. -/
def isSystemError : Except LogError Answer → Bool
  | .error (.io (.system _)) => true
  | _ => false

/-! ## What callers can tell -/

structure View where
  isOpen : Bool
  bytes : Bytes
  deriving DecidableEq, Repr

def view (s : Storage) : View := ⟨s.isOpen, s.contents⟩

namespace View

def perform : Request → View → Except ErrorKind Answer × View
  | .openUp, v => (.ok .done, { v with isOpen := true })
  | .close, v => (.ok .done, { v with isOpen := false })
  | .isOpen, v => (.ok (.flag v.isOpen), v)
  | .append block, ⟨true, bytes⟩ => (.ok (.address bytes.length), ⟨true, bytes ++ block⟩)
  | .read address max, ⟨true, bytes⟩ => (.ok (.bytes (bytes.slice address max)), ⟨true, bytes⟩)
  | .truncate address, ⟨true, bytes⟩ =>
    if bytes.length < address then (.error .invalidArgument, ⟨true, bytes⟩)
    else (.ok .done, ⟨true, bytes.take address⟩)
  | .flush, ⟨true, bytes⟩ => (.ok .done, ⟨true, bytes⟩)
  | .endAddress, ⟨true, bytes⟩ => (.ok (.address bytes.length), ⟨true, bytes⟩)
  | _, v => (.error .invalidState, v)

def observe (v : View) : List Request → List (Except ErrorKind Answer × Bytes)
  | [] => []
  | request :: rest =>
    ((v.perform request).1, (v.perform request).2.bytes) :: (v.perform request).2.observe rest

end View

/-! ## Requests without faults -/

/-- What a request does when no fault is planned. -/
def Request.onMedium : Request → Attempt Storage Answer
  | .openUp => do openMedium; return .done
  | .close => do closeMedium; return .done
  | .append block => do return .address (← appendMedium block)
  | .read address max => do return .bytes (← readMedium address max)
  | .truncate address => do truncateMedium address; return .done
  | .flush => do flushMedium; return .done
  | .endAddress => do return .address (← endMedium)
  | .isOpen => do return .flag (← Attempt.get).isOpen

variable {s t : Storage} {path : String} {number : Nat} {request : Request}
  {r : Except LogError Answer}

theorem Alike.view (h : s.Alike t) : t.view = s.view := by
  simp only [Storage.view, isOpen, contents, h.1, h.2]

theorem Faultless.run_answer {call : StorageCall} {α : Type} {x : Attempt Storage α}
    (h : s.Faultless) (g : α → Answer) : ∃ u, s.Alike u ∧ s.Confined u ∧
      (do return g (← (do allow call; x : Attempt Storage α)) : Attempt Storage Answer).run s
        = (do return g (← x) : Attempt Storage Answer).run u := by
  obtain ⟨u, hconfined, halike, hrun⟩ : ∃ u, s.Confined u ∧ s.Alike u ∧
    (do allow call; x : Attempt Storage α).run s = x.run u := h.run_call
  exact ⟨u, halike, hconfined, by rw [Attempt.run_bind, hrun, Attempt.run_bind]⟩

theorem Faultless.perform (h : s.Faultless) (request : Request) : ∃ u, s.Alike u ∧ s.Confined u ∧
    (Storage.perform request).run s = request.onMedium.run u := by
  cases request with
  | openUp => exact h.run_answer fun _ => .done
  | close => exact h.run_answer fun _ => .done
  | append block => exact h.run_answer .address
  | read address max => exact h.run_answer .bytes
  | truncate address => exact h.run_answer fun _ => .done
  | flush => exact h.run_answer fun _ => .done
  | endAddress => exact h.run_answer .address
  | isOpen => exact ⟨s, ⟨rfl, rfl⟩, .refl s, rfl⟩

/-! ## Memory -/

/-- A memory, with no fault planned. -/
structure InMemory (s : Storage) : Prop where
  medium : ∃ isOpen bytes flushes, s.medium = .memory isOpen bytes flushes
  faultless : s.Faultless

theorem onMedium_memory (h : s.InMemory) (hrun : request.onMedium.run s = (r, t)) :
    (r.mapError LogError.kind, t.view) = s.view.perform request ∧ t.InMemory := by
  obtain ⟨⟨isOpen, bytes, flushes, hm⟩, hplan⟩ := h
  obtain ⟨medium, files, faults, gated⟩ := s
  simp only at hm
  subst hm
  cases isOpen with
  | false =>
    cases request with
    | _ =>
      cases hrun
      exact ⟨rfl, ⟨_, _, _, rfl⟩, hplan⟩
  | true =>
    cases request with
    | truncate address =>
      rw [Request.onMedium, Attempt.run_bind] at hrun
      unfold Attempt.run truncateMedium at hrun
      by_cases hpast : bytes.length < address
      · simp only [if_pos hpast] at hrun
        cases hrun
        exact ⟨(if_pos hpast).symm, ⟨_, _, _, rfl⟩, hplan⟩
      · simp only [if_neg hpast] at hrun
        cases hrun
        exact ⟨(if_neg hpast).symm, ⟨_, _, _, rfl⟩, hplan⟩
    | _ =>
      cases hrun
      exact ⟨rfl, ⟨_, _, _, rfl⟩, hplan⟩

theorem perform_memory (h : s.InMemory) (hrun : (perform request).run s = (r, t)) :
    (r.mapError LogError.kind, t.view) = s.view.perform request ∧ t.InMemory := by
  obtain ⟨u, halike, hconfined, hu⟩ := h.faultless.perform request
  rw [← halike.view]
  exact onMedium_memory ⟨halike.1 ▸ h.medium, hconfined.faultless h.faultless⟩ (hu.symm.trans hrun)

/-! ## Files -/

/-- A file that nobody else touches: open, or closed with nothing to be found at its path once its
directory is made that is not found now; no fault is planned. -/
inductive Undisturbed (s : Storage) : Prop where
  | closed (path : String) (h : s.ClosedAt path)
      (hparent : (s.files.makeParent path).2.read? path = s.files.read? path)
  | opened (path : String) (number : Nat) (h : s.OpenAt path number)

theorem Undisturbed.faultless (h : s.Undisturbed) : s.Faultless := by
  cases h with
  | closed _ h _ => exact h.faultless
  | opened _ _ h => exact h.works.passes

/-- A closed file answers without being touched, unless it is opened. -/
theorem onMedium_closed (hm : s.medium = .file path none) (hne : request ≠ .openUp)
    (hrun : request.onMedium.run s = (r, t)) :
    (r.mapError LogError.kind, t.view) = s.view.perform request ∧ t = s := by
  obtain ⟨medium, files, faults, gated⟩ := s
  simp only at hm
  subst hm
  cases request with
  | openUp => exact absurd rfl hne
  | _ =>
    cases hrun
    exact ⟨rfl, rfl⟩

/-- An open file shows its content. -/
theorem OpenAt.view (h : s.OpenAt path number) : s.view = ⟨true, s.files.content number⟩ := by
  obtain ⟨endAddress, hm⟩ := medium_of_site h.site
  have hfound := h.placed.1.read?
  simp only [Storage.view, h.works.isOpen, contents, hm, hfound, Option.getD_some]

/-- An open file with another content, and the end of that. -/
def rewritten (s : Storage) (path : String) (number : Nat) (bytes : Bytes) : Storage :=
  { s with
    medium := .file path (some ⟨number, bytes.length⟩)
    files := s.files.setContent number bytes }

theorem OpenAt.rewritten (h : s.OpenAt path number) (bytes : Bytes) :
    (s.rewritten path number bytes).view = ⟨true, bytes⟩ ∧
      (s.rewritten path number bytes).OpenAt path number := by
  have hplaced := h.placed.1
  have hcontent := FileSystem.content_setContent hplaced.numbered bytes
  have hopen : (s.rewritten path number bytes).OpenAt path number := by
    refine ⟨⟨⟨hplaced.setContent number bytes, ?_⟩, rfl, h.works.passes⟩, rfl,
      h.tidy.setContent number bytes⟩
    rw [Storage.rewritten]
    dsimp only
    rw [hcontent]
  refine ⟨?_, hopen⟩
  rw [hopen.view, Storage.rewritten, hcontent]

theorem onMedium_opened (h : s.OpenAt path number) (hrun : request.onMedium.run s = (r, t)) :
    (r.mapError LogError.kind, t.view) = s.view.perform request ∧ t.Undisturbed := by
  have hview := h.view
  have hrewritten := h.rewritten
  obtain ⟨hplaced, -⟩ := h.placed
  obtain ⟨endAddress, hm⟩ := medium_of_site h.site
  obtain rfl : endAddress = (s.files.content number).length := by
    have hsound := h.works.sound
    simp only [Sound, hm] at hsound
    exact hsound.2
  obtain ⟨medium, files, faults, gated⟩ := s
  simp only at hm hview hplaced hrewritten
  subst hm
  rw [hview]
  generalize hcontent : files.content number = content at *
  cases request with
  | openUp =>
    cases hrun
    exact ⟨by rw [hview]; rfl, .opened path number h⟩
  | close =>
    cases hrun
    refine ⟨?_, .closed path ⟨rfl, h.tidy, h.works.passes⟩ ?_⟩
    · simp only [View.perform, view, Storage.isOpen, contents, hplaced.read?, hcontent,
        Option.getD_some, Option.isSome_none, Except.mapError]
    · rw [hplaced.parent]
  | append block =>
    rw [Request.onMedium, Attempt.run_bind] at hrun
    unfold Attempt.run appendMedium at hrun
    simp only [hcontent, overwrite_end, ← List.length_append] at hrun
    obtain ⟨hafter, hopen⟩ := hrewritten (content ++ block)
    rw [Storage.rewritten] at hafter hopen
    cases hrun
    exact ⟨by rw [hafter]; rfl, .opened path number hopen⟩
  | read address max =>
    have hslice : content.slice address (min max (content.length - address))
        = content.slice address max := by
      simp [Bytes.slice, List.take_eq_take_iff]
    rw [Request.onMedium, Attempt.run_bind] at hrun
    unfold Attempt.run readMedium at hrun
    simp only [hcontent, hslice, Bytes.length_slice, if_true] at hrun
    cases hrun
    exact ⟨by rw [hview]; rfl, .opened path number h⟩
  | truncate address =>
    rw [Request.onMedium, Attempt.run_bind] at hrun
    unfold Attempt.run truncateMedium at hrun
    by_cases hpast : content.length < address
    · simp only [if_pos hpast] at hrun
      cases hrun
      exact ⟨by rw [hview]; exact (if_pos hpast).symm, .opened path number h⟩
    · have hle := Nat.le_of_not_lt hpast
      obtain ⟨hafter, hopen⟩ := hrewritten (content.take address)
      rw [Storage.rewritten, List.length_take, Nat.min_eq_left hle] at hafter hopen
      simp only [if_neg hpast, hcontent, resize_take hle] at hrun
      cases hrun
      refine ⟨?_, .opened path number hopen⟩
      rw [hafter]
      exact (if_neg hpast).symm
  | flush =>
    cases hrun
    exact ⟨by rw [hview]; rfl, .opened path number h⟩
  | endAddress =>
    cases hrun
    exact ⟨by rw [hview]; rfl, .opened path number h⟩
  | isOpen =>
    cases hrun
    exact ⟨by rw [hview]; rfl, .opened path number h⟩

theorem openUp_error {e : LogError} (h : s.ClosedAt path) (ho : openUp.run s = (.error e, t)) :
    isSystemError (.error e) = true := by
  obtain ⟨u, -, ⟨hmedium, -⟩, hu⟩ :
      ∃ u, s.Confined u ∧ s.Alike u ∧ openUp.run s = openMedium.run u :=
    h.faultless.run_call
  rw [hu] at ho
  unfold Attempt.run openMedium at ho
  rw [hmedium, h.medium] at ho
  dsimp only at ho
  split at ho
  · cases ho
    rfl
  · split at ho
    · cases ho
      rfl
    · cases ho

/-- Opening a closed file fails with an error of the operating system, or shows the bytes that were
there to find. -/
theorem perform_openUp (h : s.ClosedAt path)
    (hparent : (s.files.makeParent path).2.read? path = s.files.read? path)
    (hrun : (perform .openUp).run s = (r, t)) (hsystem : isSystemError r = false) :
    (r.mapError LogError.kind, t.view) = s.view.perform .openUp ∧ t.Undisturbed := by
  generalize hopen : openUp.run s = result
  obtain ⟨outcome, after⟩ := result
  rw [perform, Attempt.run_bind, hopen] at hrun
  obtain ⟨-, -, hresult⟩ := openUp_file h hopen
  cases outcome with
  | error e =>
    cases hrun
    rw [openUp_error h hopen] at hsystem
    contradiction
  | ok =>
    cases hrun
    obtain ⟨number, hopened, -, hstored⟩ := hresult
    refine ⟨?_, .opened path number hopened⟩
    have hcontents : s.contents = t.files.content number := by
      rw [← hopened.placed.2, hstored, hparent, contents, h.medium]
    rw [hopened.view, ← hcontents]
    rfl

theorem perform_file (h : s.Undisturbed) (hrun : (perform request).run s = (r, t))
    (hsystem : isSystemError r = false) :
    (r.mapError LogError.kind, t.view) = s.view.perform request ∧ t.Undisturbed := by
  obtain ⟨u, halike, hconfined, hu⟩ := h.faultless.perform request
  have hplan : u.Faultless := hconfined.faultless h.faultless
  have hmedium := hu.symm.trans hrun
  cases h with
  | opened path number hopen =>
    rw [← halike.view]
    exact onMedium_opened (hopen.confined hconfined (halike.sound hopen.works.sound)) hmedium
  | closed path hclosed hparent =>
    obtain rfl | hrequest := eq_or_ne request .openUp
    · exact perform_openUp hclosed hparent hrun hsystem
    · have hclosedAt : u.ClosedAt path :=
        ⟨halike.1.trans hclosed.medium, halike.2 ▸ hclosed.tidy, hplan⟩
      obtain ⟨hstep, rfl⟩ := onMedium_closed hclosedAt.medium hrequest hmedium
      rw [← halike.view]
      exact ⟨hstep, .closed path hclosedAt (by rwa [halike.2])⟩

/-! ## Requests one after another -/

/-- Storages whose requests, one by one, compute what callers can tell do so for any sequence of
requests that end as allowed. -/
theorem observe_of_perform {Kept : Storage → Prop} (Allowed : Except LogError Answer → Prop)
    (hperform : ∀ {s t : Storage} {request : Request} {r : Except LogError Answer}, Kept s →
      (perform request).run s = (r, t) → Allowed r →
      (r.mapError LogError.kind, t.view) = s.view.perform request ∧ Kept t)
    {requests : List Request} (h : Kept s)
    (hallowed : ∀ step ∈ s.trace requests, Allowed step.1) :
    s.observe requests = s.view.observe requests := by
  induction requests generalizing s with
  | nil => rfl
  | cons request rest ih =>
    generalize hrun : (perform request).run s = result
    obtain ⟨r, t⟩ := result
    simp only [trace, hrun, List.forall_mem_cons] at hallowed
    obtain ⟨hstep, hafter⟩ := hperform h hrun hallowed.1
    simp only [observe, trace, hrun, List.map_cons, View.observe, ← hstep, ← ih hafter hallowed.2]
    rfl

theorem newMemory_observe (requests : List Request) :
    newMemory.observe requests = View.observe ⟨false, []⟩ requests :=
  observe_of_perform (fun _ => True) (fun h hrun _ => perform_memory h hrun)
    ⟨⟨_, _, _, rfl⟩, fun _ _ => rfl⟩ fun _ _ => trivial

/-- A file at a path where there is none, and a new memory: each request ends the same way on both,
and the same bytes are there after it, whatever the requests are. -/
theorem file_observed_as_memory {files : FileSystem} {path : String} {requests : List Request}
    (htidy : files.Tidy) (hfresh : (files.makeParent path).2.read? path = none)
    (hsystem : ∀ step ∈ trace { medium := .file path none, files := files } requests,
      isSystemError step.1 = false) :
    observe { medium := .file path none, files := files } requests
      = newMemory.observe requests := by
  have hnone : files.read? path = none := by
    rw [Option.eq_none_iff_forall_not_mem]
    intro bytes hbytes
    obtain ⟨n, hfind, -⟩ := FileSystem.read?_eq_some_iff.1 hbytes
    rw [FileSystem.makeParent_of_find hfind] at hfresh
    rw [hfresh] at hbytes
    simp at hbytes
  have hview : Storage.view { medium := .file path none, files := files } = ⟨false, []⟩ := by
    simp only [view, isOpen, contents, hnone, Option.isSome_none, Option.getD_none]
  have hclosed : Storage.Undisturbed { medium := .file path none, files := files } :=
    .closed path ⟨rfl, htidy, fun _ _ => rfl⟩ (hfresh.trans hnone.symm)
  have hfile := observe_of_perform (isSystemError · = false) perform_file hclosed hsystem
  rw [newMemory_observe, hfile, hview]

/-- A log file in a directory of its own that is written, left and opened again. -/
theorem file_observed_as_memory_reopened :
    observe { medium := .file "data/a.log" none } [.append [1], .openUp, .append [1, 2, 3],
        .truncate 2, .truncate 3, .close, .endAddress, .openUp, .append [], .append [4], .read 1 9,
        .read 7 1, .isOpen, .flush]
      = newMemory.observe [.append [1], .openUp, .append [1, 2, 3],
        .truncate 2, .truncate 3, .close, .endAddress, .openUp, .append [], .append [4], .read 1 9,
        .read 7 1, .isOpen, .flush] :=
  file_observed_as_memory FileSystem.tidy_empty (by decide +kernel) (by decide +kernel)

end PartitionLog.Storage
