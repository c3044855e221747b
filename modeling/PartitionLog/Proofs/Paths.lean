import PartitionLog.BlockIndex.Snapshot
import PartitionLog.Config

/-!
# Where a log's files lie

A path names a file by its last part (`fileName?_eq_some_iff`). The snapshot of a log and the draft of
it lie beside the log file (`getLast?_parts_snapshot`, `draft_cases`). No draft has the log file's own
name, and a snapshot has it only where the log file has the extension of snapshots already
(`draft_ne`, `snapshot_ne`).
-/

namespace PartitionLog.Path

/-! ## Pieces and parts -/

theorem pieces_ne_nil (cs : List Char) : pieces cs ≠ [] := by
  cases cs with
  | nil => simp [pieces]
  | cons c rest =>
    unfold pieces
    split
    · simp
    · split <;> simp

theorem pieces_append_separator (front back : List Char) :
    pieces (front ++ '/' :: back) = pieces front ++ pieces back := by
  induction front with
  | nil => simp [pieces]
  | cons c rest ih =>
    by_cases hc : c = '/'
    · simp [pieces, hc, ih]
    · obtain ⟨piece, more, hpieces⟩ := List.exists_cons_of_ne_nil (pieces_ne_nil rest)
      simp [pieces, hc, ih, hpieces]

theorem pieces_of_plain {cs : List Char} (h : '/' ∉ cs) : pieces cs = [cs] := by
  induction cs with
  | nil => rfl
  | cons c rest ih =>
    obtain ⟨hc, hrest⟩ := not_or.1 (mt List.mem_cons.2 h)
    simp [pieces, Ne.symm hc, ih hrest]

theorem plain_of_mem_pieces {cs piece : List Char} (h : piece ∈ pieces cs) : '/' ∉ piece := by
  induction cs generalizing piece with
  | nil =>
    obtain rfl : piece = [] := by simpa [pieces] using h
    simp
  | cons c rest ih =>
    obtain ⟨first, more, hpieces⟩ := List.exists_cons_of_ne_nil (pieces_ne_nil rest)
    by_cases hc : c = '/'
    · rcases List.mem_cons.1 (by simpa [pieces, hc] using h) with rfl | hm
      · simp
      · exact ih hm
    · have hmem : piece = c :: first ∨ piece ∈ more := by simpa [pieces, hc, hpieces] using h
      rcases hmem with rfl | hm
      · have hfirst : '/' ∉ first := ih (by rw [hpieces]; exact List.mem_cons_self)
        simp [Ne.symm hc, hfirst]
      · exact ih (by rw [hpieces]; exact List.mem_cons_of_mem _ hm)

/-- A single part that names something. -/
structure IsPart (part : String) : Prop where
  some : part ≠ ""
  proper : part ≠ "."
  plain : '/' ∉ part.toList

theorem parts_of_isPart {part : String} (h : IsPart part) : parts part = [part] := by
  simp [parts, split, pieces_of_plain h.plain, h.some, h.proper]

theorem parts_append_separator (front back : String) :
    parts (front ++ "/" ++ back) = parts front ++ parts back := by
  have hlist : (front ++ "/" ++ back).toList = front.toList ++ '/' :: back.toList := by simp
  simp [parts, split, hlist, pieces_append_separator]

theorem isPart_of_mem {path part : String} (h : part ∈ parts path) : IsPart part := by
  obtain ⟨hsplit, hkept⟩ := List.mem_filter.1 h
  obtain ⟨piece, hpiece, rfl⟩ := List.mem_map.1 hsplit
  obtain ⟨hsome, hproper⟩ : String.ofList piece ≠ "" ∧ String.ofList piece ≠ "." := by
    simpa using hkept
  exact ⟨hsome, hproper, by simpa using plain_of_mem_pieces hpiece⟩

theorem getLast?_components (path : String) (h : parts path ≠ []) :
    (components path).getLast? = (parts path).getLast? := by
  unfold components
  split
  · rw [List.getLast?_cons_of_ne_nil h]
  · rfl

/-- A path names a file by its last part. -/
theorem fileName?_eq_some_iff {path name : String} :
    fileName? path = some name ↔ (parts path).getLast? = some name ∧ name ≠ ".." := by
  by_cases hnil : parts path = []
  · have hcomponents : components path = ["."] ∨ components path = [] := by
      unfold components
      rw [hnil]
      split
      · exact .inl rfl
      · exact .inr rfl
    have hnone : fileName? path = none := by
      rcases hcomponents with h | h
      · simp [fileName?, h]
      · simp [fileName?, h]
    simp [hnone, hnil]
  · obtain ⟨last, hlast⟩ : ∃ last, (parts path).getLast? = some last :=
      Option.isSome_iff_exists.1 (by simpa using hnil)
    have hpart : IsPart last := isPart_of_mem (List.mem_of_getLast? hlast)
    unfold fileName?
    rw [getLast?_components path hnil, hlast]
    split
    · next h => exact absurd (Option.some.inj h) hpart.proper
    · next h => simp_all
    · simp_all
    · next found hdot hdots h =>
      simp only [Option.some.injEq] at h ⊢
      subst h
      constructor
      · rintro rfl
        exact ⟨rfl, fun h => hdots (by rw [h])⟩
      · exact fun h => h.1

/-! ## Names, stems and extensions -/

/-- The dot that a name is split at is its last one. -/
theorem splitAtLastDot_append (before : List Char) {after : List Char} (h : '.' ∉ after) :
    splitAtLastDot (before ++ '.' :: after) = some (before, after) := by
  have htake : ((before ++ '.' :: after).reverse.takeWhile (· != '.')).reverse = after := by
    have hplain : ∀ c ∈ after.reverse, (c != '.') = true := by
      intro c hc
      simp only [bne_iff_ne, ne_eq]
      rintro rfl
      exact h (List.mem_reverse.1 hc)
    rw [List.reverse_append, List.reverse_cons, List.append_assoc,
      List.takeWhile_append_of_pos hplain]
    simp
  have hlength : (before ++ '.' :: after).length - after.length - 1 = before.length := by
    simp only [List.length_append, List.length_cons]
    omega
  unfold splitAtLastDot
  simp only [htake, hlength]
  rw [if_neg (by simp only [List.length_append, List.length_cons]; omega), List.take_left]

theorem splitAtLastDot_of_plain {name : List Char} (h : '.' ∉ name) :
    splitAtLastDot name = none := by
  have hplain : ∀ c ∈ name.reverse, (c != '.') = true := by
    intro c hc
    simp only [bne_iff_ne, ne_eq]
    rintro rfl
    exact h (List.mem_reverse.1 hc)
  have htake : name.reverse.takeWhile (· != '.') = name.reverse := by
    have hall : (name.reverse ++ []).takeWhile (· != '.') = name.reverse ++ [] :=
      List.takeWhile_append_of_pos hplain
    simpa using hall
  unfold splitAtLastDot
  simp [htake]

theorem splitAtLastDot_cases (name : List Char) :
    (splitAtLastDot name = none ∧ '.' ∉ name) ∨
      ∃ before after, splitAtLastDot name = some (before, after) ∧ '.' ∉ after ∧
        name = before ++ '.' :: after := by
  by_cases hdot : '.' ∈ name
  · -- the last dot is the first one of the reversed name
    obtain ⟨front, back, hsplit, hplain⟩ := List.eq_append_cons_of_mem (List.mem_reverse.2 hdot)
    have hname : name = back.reverse ++ '.' :: front.reverse := by
      rw [← List.reverse_reverse name, hsplit]
      simp
    have hafter : '.' ∉ front.reverse := by simpa using hplain
    exact .inr ⟨_, _, hname ▸ splitAtLastDot_append _ hafter, hafter, hname⟩
  · exact .inl ⟨splitAtLastDot_of_plain hdot, hdot⟩

theorem stem_ne_empty {name : String} (h : name ≠ "") : stem name ≠ "" := by
  unfold stem
  split
  · next before after hsplit =>
    split
    · exact h
    · next hsome =>
      rw [Ne, String.ofList_eq_empty_iff]
      simpa using hsome
  · exact h

theorem plain_stem {name : String} (h : '/' ∉ name.toList) : '/' ∉ (stem name).toList := by
  unfold stem
  split
  · next before after hsplit =>
    split
    · exact h
    · obtain ⟨hnone, -⟩ | ⟨front, back, hfound, -, hname⟩ := splitAtLastDot_cases name.toList
      · simp [hnone] at hsplit
      · rw [hfound, Option.some.injEq, Prod.mk.injEq] at hsplit
        obtain ⟨rfl, rfl⟩ := hsplit
        rw [String.toList_ofList]
        exact fun hmem => h (by rw [hname]; exact List.mem_append_left _ hmem)
  · exact h

/-- A file has no extension and its name for a stem, or stem and extension make the name. -/
theorem stem_cases {path name : String} (h : fileName? path = some name) :
    (stem name = name ∧ extension? path = none) ∨
      ∃ extension, extension? path = some extension ∧ '.' ∉ extension.toList ∧
        name = stem name ++ "." ++ extension := by
  obtain ⟨hnone, -⟩ | ⟨before, after, hsplit, hplain, hname⟩ := splitAtLastDot_cases name.toList
  · exact .inl ⟨by simp [stem, hnone], by simp [extension?, h, hnone]⟩
  · by_cases hfront : before = []
    · exact .inl ⟨by simp [stem, hsplit, hfront], by simp [extension?, h, hsplit, hfront]⟩
    · refine .inr ⟨String.ofList after, by simp [extension?, h, hsplit, hfront],
        by simpa using hplain, ?_⟩
      have hstem : stem name = String.ofList before := by simp [stem, hsplit, hfront]
      rw [hstem, ← String.toList_inj]
      simpa using hname

/-! ## Beside a file -/

/-- The name of a snapshot is the log file's own only where that has the extension already. -/
theorem snapshot_ne {path name : String} (h : fileName? path = some name)
    (hextension : extension? path ≠ some "idx") : name ≠ stem name ++ ".idx" := by
  intro heq
  obtain ⟨hstem, -⟩ | ⟨extension, hfound, -, hname⟩ := stem_cases h
  · rw [hstem] at heq
    simpa using congrArg String.length heq
  · refine hextension (hfound.trans (congrArg some ?_))
    rw [← String.toList_inj] at heq hname ⊢
    rw [heq] at hname
    simpa using hname.symm

theorem draft_ne {path name : String} (h : fileName? path = some name) :
    name ≠ stem name ++ ".idx.tmp" := by
  intro heq
  obtain ⟨hstem, -⟩ | ⟨extension, hfound, hplain, hname⟩ := stem_cases h
  · rw [hstem] at heq
    simpa using congrArg String.length heq
  · rw [← String.toList_inj] at heq hname
    rw [heq] at hname
    have hextension : extension.toList = "idx.tmp".toList := by simpa using hname.symm
    rw [hextension] at hplain
    simp at hplain

theorem isAbsolute_append {front : String} (h : front ≠ "") (back : String) :
    isAbsolute (front ++ back) = isAbsolute front := by
  unfold isAbsolute
  rw [String.toList_append]
  cases hfront : front.toList with
  | nil => exact absurd (String.toList_eq_nil_iff.1 hfront) h
  | cons c rest => rfl

theorem isAbsolute_of_plain {name : String} (h : '/' ∉ name.toList) : isAbsolute name = false := by
  unfold isAbsolute
  cases hname : name.toList with
  | nil => rfl
  | cons c rest =>
    rw [hname] at h
    simpa using Ne.symm (List.ne_of_not_mem_cons h)

/-- A path behind a separator has the parts of the path before it, and its own. -/
theorem join_cases {directory : String} (name : String) (hdirectory : directory ≠ "")
    (hplain : '/' ∉ name.toList) :
    ∃ front, join directory name = front ++ "/" ++ name ∧ parts front = parts directory := by
  unfold join
  rw [isAbsolute_of_plain hplain, if_neg Bool.false_ne_true]
  split
  · next hends =>
    have hlast : directory.toList.getLast? = some '/' := by
      simpa [endsInSeparator, hdirectory] using hends
    obtain ⟨front, hfront⟩ := List.getLast?_eq_some_iff.1 hlast
    have hback : directory = String.ofList front ++ "/" := by
      rw [← String.toList_inj]
      simpa using hfront
    have hparts := parts_append_separator (String.ofList front) ""
    rw [String.append_empty, ← hback] at hparts
    exact ⟨String.ofList front, by rw [← hback], by simpa [parts, split, pieces] using hparts.symm⟩
  · exact ⟨directory, rfl, rfl⟩

theorem parts_join {directory name : String} (hdirectory : directory ≠ "") (h : IsPart name) :
    parts (join directory name) = parts directory ++ [name] := by
  obtain ⟨front, hjoin, hfront⟩ := join_cases name hdirectory h.plain
  rw [hjoin, parts_append_separator, hfront, parts_of_isPart h]

theorem isAbsolute_join {directory name : String} (hdirectory : directory ≠ "")
    (hplain : '/' ∉ name.toList) : isAbsolute (join directory name) = isAbsolute directory := by
  unfold join
  rw [isAbsolute_of_plain hplain, if_neg Bool.false_ne_true]
  split
  · exact isAbsolute_append hdirectory name
  · rw [String.append_assoc]
    exact isAbsolute_append hdirectory _

/-! ## The directory above -/

theorem parts_intercalate {components : List String} (h : ∀ c ∈ components, '/' ∉ c.toList) :
    parts ("/".intercalate components) = components.filter fun c => c != "" && c != "." := by
  have hone : ∀ c ∈ components, parts c = [c].filter fun c => c != "" && c != "." := by
    intro c hc
    simp [parts, split, pieces_of_plain (h c hc)]
  induction components with
  | nil => simp [parts, split, pieces]
  | cons c rest ih =>
    cases rest with
    | nil => simpa using hone c List.mem_cons_self
    | cons next more =>
      rw [String.intercalate_cons_cons, parts_append_separator, hone c List.mem_cons_self,
        ih (fun d hd => h d (List.mem_cons_of_mem _ hd))
          (fun d hd => hone d (List.mem_cons_of_mem _ hd)),
        ← List.filter_append, List.singleton_append]

theorem isAbsolute_intercalate {components : List String}
    (h : ∀ c ∈ components, c ≠ "" ∧ '/' ∉ c.toList) :
    isAbsolute ("/".intercalate components) = false := by
  match components, h with
  | [], _ => rfl
  | [c], h =>
    rw [String.intercalate_singleton]
    exact isAbsolute_of_plain (h c (by simp)).2
  | c :: next :: more, h =>
    rw [String.intercalate_cons_cons, String.append_assoc, isAbsolute_append (h c (by simp)).1]
    exact isAbsolute_of_plain (h c (by simp)).2

/-- The directory above has all parts but the last. -/
theorem parts_parent {path directory : String} (h : parent? path = some directory) :
    parts directory = (parts path).dropLast ∧ isAbsolute directory = isAbsolute path := by
  have hmem : ∀ c ∈ components path, c = "." ∨ IsPart c := by
    intro c hc
    unfold components at hc
    split at hc
    · exact (List.mem_cons.1 hc).imp_right isPart_of_mem
    · exact .inr (isPart_of_mem hc)
  have hproper : ∀ c ∈ (components path).dropLast, c ≠ "" ∧ '/' ∉ c.toList := by
    intro c hc
    rcases hmem c (List.dropLast_subset _ hc) with rfl | hpart
    · exact ⟨by decide, by simp⟩
    · exact ⟨hpart.some, hpart.plain⟩
  have hdrop : ((components path).dropLast.filter fun c => c != "" && c != ".")
      = (parts path).dropLast := by
    have hparts : ∀ c ∈ (parts path).dropLast, (c != "" && c != ".") = true := by
      intro c hc
      have hpart : IsPart c := isPart_of_mem (List.dropLast_subset _ hc)
      simp [hpart.some, hpart.proper]
    unfold components
    split
    · cases hnil : parts path with
      | nil => rfl
      | cons first rest =>
        rw [List.dropLast_cons_of_ne_nil (by simp), List.filter_cons_of_neg (by decide)]
        exact List.filter_eq_self.2 (hnil ▸ hparts)
    · exact List.filter_eq_self.2 hparts
  have hdirectory : directory = ofComponents (isAbsolute path) (components path).dropLast := by
    unfold parent? at h
    split at h
    · simp at h
    · next cs hcs => exact (Option.some.inj h).symm
  rw [hdirectory, ← hdrop, ← parts_intercalate fun c hc => (hproper c hc).2, ofComponents]
  cases isAbsolute path with
  | false =>
    refine ⟨by simp, ?_⟩
    simpa using isAbsolute_intercalate hproper
  | true =>
    have hslash : ∀ tail : String, "/" ++ tail = "" ++ "/" ++ tail := by simp
    have hnone : parts "" = [] := by decide +kernel
    refine ⟨?_, by simp [isAbsolute]⟩
    rw [if_pos rfl, hslash, parts_append_separator, hnone, List.nil_append]

/-! ## Snapshots and drafts -/

theorem intercalate_concat (front : List String) (name : String) :
    "/".intercalate (front ++ [name]) = name ∨
      ∃ before, "/".intercalate (front ++ [name]) = before ++ "/" ++ name := by
  induction front with
  | nil => exact .inl (by simp)
  | cons part rest ih =>
    right
    cases rest with
    | nil => exact ⟨part, by simp⟩
    | cons next more =>
      simp only [List.cons_append, String.intercalate_cons_cons] at ih ⊢
      rcases ih with h | ⟨before, h⟩
      · exact ⟨part, by rw [h]⟩
      · exact ⟨part ++ "/" ++ before, by rw [h]; simp [String.append_assoc]⟩

theorem parts_ofComponents (absolute : Bool) (front : List String) {name : String}
    (h : IsPart name) : (parts (ofComponents absolute (front ++ [name]))).getLast? = some name := by
  have hcases : ofComponents absolute (front ++ [name]) = name ∨
      ∃ before, ofComponents absolute (front ++ [name]) = before ++ "/" ++ name := by
    unfold ofComponents
    rcases intercalate_concat front name with hall | ⟨before, hall⟩
    · rw [hall]
      cases absolute with
      | false => exact .inl (by simp)
      | true => exact .inr ⟨"", by simp⟩
    · exact .inr ⟨(if absolute then "/" else "") ++ before, by
        rw [hall]
        simp [String.append_assoc]⟩
  rcases hcases with hall | ⟨before, hall⟩
  · rw [hall, parts_of_isPart h]
    rfl
  · rw [hall, parts_append_separator, parts_of_isPart h]
    simp

section Snapshot

variable {directory base : String}

theorem isPart_append {suffix : String} (hplain : '/' ∉ base.toList) (hsuffix : '/' ∉ suffix.toList)
    (hlong : 1 < suffix.length) : IsPart (base ++ suffix) := by
  refine ⟨fun h => ?_, fun h => ?_, by simp [hplain, hsuffix]⟩
  · have hlength := congrArg String.length h
    rw [String.length_append, String.length_empty] at hlength
    omega
  · have hlength := congrArg String.length h
    rw [String.length_append, show ".".length = 1 from rfl] at hlength
    omega

theorem append_ne_above {suffix : String} (hlong : 2 < suffix.length) : base ++ suffix ≠ ".." := by
  intro h
  have hlength := congrArg String.length h
  rw [String.length_append, show "..".length = 2 from rfl] at hlength
  omega

theorem getLast?_parts_snapshot (hdirectory : directory ≠ "") (hplain : '/' ∉ base.toList) :
    (parts (join directory (base ++ ".idx"))).getLast? = some (base ++ ".idx") := by
  rw [parts_join hdirectory (isPart_append hplain (by simp) (by decide))]
  simp

/-- A draft lies beside the snapshot, under a name of its own, or can be no file: of `..idx` without
its extension a directory is left. -/
theorem draft_cases (hdirectory : directory ≠ "") (hbase : base ≠ "") (hplain : '/' ∉ base.toList) :
    (parts (BlockIndex.Snapshot.draftPath (join directory (base ++ ".idx")))).getLast?
        = some (base ++ ".idx.tmp") ∨
      namesDirectory (BlockIndex.Snapshot.draftPath (join directory (base ++ ".idx"))) = true := by
  obtain ⟨front, hjoin, -⟩ := join_cases (base ++ ".idx") hdirectory (by simp [hplain])
  have hfile : fileName? (join directory (base ++ ".idx")) = some (base ++ ".idx") :=
    fileName?_eq_some_iff.2 ⟨getLast?_parts_snapshot hdirectory hplain, append_ne_above (by decide)⟩
  have hextension : extension? (join directory (base ++ ".idx")) = some "idx" := by
    have hsplit := splitAtLastDot_append base.toList (show '.' ∉ "idx".toList by simp)
    rw [show base.toList ++ '.' :: "idx".toList = (base ++ ".idx").toList by simp] at hsplit
    rw [extension?, hfile]
    simp only [Option.bind_eq_bind, Option.bind_some, hsplit]
    simp [hbase]
  -- the cut takes the extension and leaves the dot
  have hdraft : BlockIndex.Snapshot.draftPath (join directory (base ++ ".idx"))
      = setExtension (front ++ "/" ++ (base ++ ".")) "idx.tmp" := by
    rw [BlockIndex.Snapshot.draftPath, withExtension, hextension, hjoin]
    refine congrArg (setExtension · "idx.tmp") ?_
    have hsplit : (front ++ "/" ++ (base ++ ".idx")).toList
        = (front ++ "/" ++ (base ++ ".")).toList ++ "idx".toList := by simp
    have hlength : (front ++ "/" ++ (base ++ ".idx")).length - "idx".length
        = (front ++ "/" ++ (base ++ ".")).toList.length := by
      rw [← String.length_toList, hsplit, List.length_append, String.length_toList (s := "idx"),
        Nat.add_sub_cancel]
    rw [hlength, hsplit, List.take_left, String.ofList_toList]
  rw [hdraft]
  by_cases hdot : base = "."
  · -- what the cut leaves is the directory above, and it gets no extension
    right
    subst hdot
    have hpieces : pieces "..".toList = ["..".toList] := pieces_of_plain (by simp)
    have habove : parts ".." = [".."] := parts_of_isPart ⟨by decide, by decide, by simp⟩
    have hsplit : (split (front ++ "/" ++ "..")).getLast? = some ".." := by
      have hlist : (front ++ "/" ++ "..").toList = front.toList ++ '/' :: "..".toList := by simp
      rw [split, hlist, pieces_append_separator, hpieces]
      simp
    have hparts : (parts (front ++ "/" ++ "..")).getLast? = some ".." := by
      rw [parts_append_separator, habove]
      simp
    have hnone : fileName? (front ++ "/" ++ "..") = none := by
      rw [Option.eq_none_iff_forall_not_mem]
      intro name hname
      obtain ⟨hlast, hne⟩ := fileName?_eq_some_iff.1 hname
      rw [hparts, Option.some.injEq] at hlast
      exact hne hlast.symm
    rw [show "." ++ "." = ".." from rfl, setExtension, fileStem?, hnone]
    simp [namesDirectory, hsplit]
  · left
    have hpart : IsPart (base ++ ".") := by
      refine ⟨by simp, fun h => hbase ?_, by simp [hplain]⟩
      rw [← String.toList_inj] at h ⊢
      simpa using h
    have hname : fileName? (front ++ "/" ++ (base ++ ".")) = some (base ++ ".") := by
      refine fileName?_eq_some_iff.2 ⟨?_, fun h => hdot ?_⟩
      · rw [parts_append_separator, parts_of_isPart hpart]
        simp
      · rw [← String.toList_inj] at h ⊢
        simpa using congrArg List.dropLast h
    have hstem : stem (base ++ ".") = base := by
      have hlist : (base ++ ".").toList = base.toList ++ '.' :: [] := by simp
      rw [stem, hlist, splitAtLastDot_append _ (by simp)]
      simp [hbase]
    have hdraftName : base ++ "." ++ "idx.tmp" = base ++ ".idx.tmp" := by
      rw [String.append_assoc]
      rfl
    rw [setExtension, fileStem?, hname, Option.map_some, hstem]
    dsimp only
    rw [hdraftName]
    exact parts_ofComponents _ _ (isPart_append hplain (by simp) (by decide))

end Snapshot

end PartitionLog.Path
