import Ucg.ProgramResult

/-! Which files a run searches: those that the names below a start path lead to through directories
that are not excluded, each once. -/

namespace Ucg

variable {D : Type*} {t : DirTree}

/-- The names lead to a regular file below a node. -/
inductive FsNode.Leads : FsNode → List Bytes → Prop
  | reg : Leads .reg []
  | entry {n : Nat} {name : Fin n → Bytes} {child : Fin n → FsNode} (i : Fin n) {names : List Bytes}
      (h : Leads (child i) names) : Leads (.dir n name child) (name i :: names)

namespace DirTree

/-- The filters let the names pass: the last one is that of a file that is scanned, and the others
are those of directories that are searched. -/
def Admits (t : DirTree) : List Bytes → Prop
  | [] => False
  | [bname] => t.fileBasenameFilter bname = true
  | bname :: names => t.recurse = true ∧ t.dirBasenameFilter bname = false ∧ Admits t names

def pathOf (path : Bytes) (names : List Bytes) : Bytes := names.foldl resolvePath path

theorem mem_found_iff {node : FsNode} {atPath bname path : Bytes} :
    path ∈ t.found node atPath bname ↔
      ∃ names, node.Leads names ∧ t.Admits (bname :: names) ∧ path = pathOf atPath (bname :: names) := by
  induction node generalizing atPath bname with
  | reg =>
    constructor
    · intro h
      rw [found] at h
      split_ifs at h with hfilter
      · exact ⟨[], .reg, hfilter, Multiset.mem_singleton.mp h⟩
      · cases h
    · rintro ⟨names, hleads, hadmits, rfl⟩
      cases hleads
      have hfilter : t.fileBasenameFilter bname = true := hadmits
      rw [found, if_pos hfilter]
      exact Multiset.mem_singleton_self _
  | lnk =>
    refine iff_of_false (Multiset.notMem_zero _) ?_
    rintro ⟨names, hleads, -⟩
    cases hleads
  | other =>
    refine iff_of_false (Multiset.notMem_zero _) ?_
    rintro ⟨names, hleads, -⟩
    cases hleads
  | dir n name child ih =>
    constructor
    · intro h
      rw [found] at h
      split_ifs at h with hread
      · obtain ⟨i, -, hi⟩ := Multiset.mem_sum.mp h
        obtain ⟨names, hleads, hadmits, rfl⟩ := (ih i).mp hi
        have hflags : t.recurse = true ∧ t.dirBasenameFilter bname = false := by simpa using hread
        exact ⟨name i :: names, .entry i hleads, ⟨hflags.1, hflags.2, hadmits⟩, rfl⟩
      · cases h
    · rintro ⟨_, hleads, hadmits, rfl⟩
      cases hleads with
      | @entry _ _ _ i names hleads =>
        obtain ⟨hrecurse, hdir, hadmits⟩ := hadmits
        rw [found, if_pos (by simp [hrecurse, hdir])]
        exact Multiset.mem_sum.mpr ⟨i, Finset.mem_univ i, (ih i).mpr ⟨names, hleads, hadmits, rfl⟩⟩

/-- From a start path a file is found if it is the start path itself, or if admitted names lead
to it. -/
theorem mem_foundFrom_iff {node : FsNode} {start path : Bytes} : path ∈ t.foundFrom start node ↔
    ∃ names, node.Leads names ∧ (names = [] ∨ t.Admits names) ∧ path = pathOf start names := by
  cases node with
  | reg =>
    constructor
    · exact fun h => ⟨[], .reg, Or.inl rfl, Multiset.mem_singleton.mp h⟩
    · rintro ⟨names, hleads, -, rfl⟩
      cases hleads
      exact Multiset.mem_singleton_self _
  | lnk =>
    refine iff_of_false (Multiset.notMem_zero _) ?_
    rintro ⟨names, hleads, -⟩
    cases hleads
  | other =>
    refine iff_of_false (Multiset.notMem_zero _) ?_
    rintro ⟨names, hleads, -⟩
    cases hleads
  | dir n name child =>
    constructor
    · intro h
      have hsum : path ∈ ∑ i, t.found (child i) start (name i) := h
      obtain ⟨i, -, hi⟩ := Multiset.mem_sum.mp hsum
      obtain ⟨names, hleads, hadmits, rfl⟩ := mem_found_iff.mp hi
      exact ⟨name i :: names, .entry i hleads, Or.inr hadmits, rfl⟩
    · rintro ⟨_, hleads, hadmits, rfl⟩
      cases hleads with
      | @entry _ _ _ i names hleads =>
        have hadmits := hadmits.resolve_left (List.cons_ne_nil _ _)
        have hi : pathOf start (name i :: names) ∈ t.found (child i) start (name i) :=
          mem_found_iff.mpr ⟨names, hleads, hadmits, rfl⟩
        exact Multiset.mem_sum.mpr ⟨i, Finset.mem_univ i, hi⟩

end DirTree

section Once

/-- What `readdir` gives for a name that is neither `.` nor `..`. -/
structure IsEntryName (name : Bytes) : Prop where
  ne_nil : name ≠ []
  ne_dot : name ≠ [dot]
  slashFree : slash ∉ name

/-- The entries of each directory have names of their own. -/
inductive FsNode.WellNamed : FsNode → Prop
  | reg : WellNamed .reg
  | lnk : WellNamed .lnk
  | other : WellNamed .other
  | dir {n : Nat} {name : Fin n → Bytes} {child : Fin n → FsNode} (hname : ∀ i, IsEntryName (name i))
      (hinj : Function.Injective name) (hchild : ∀ i, WellNamed (child i)) :
      WellNamed (.dir n name child)

theorem FsNode.WellNamed.names {node : FsNode} (h : node.WellNamed) {names : List Bytes}
    (hleads : node.Leads names) : ∀ name ∈ names, IsEntryName name := by
  induction hleads with
  | reg => exact fun name hname => by cases hname
  | entry i _ ih =>
    cases h with
    | dir hname _ hchild =>
      intro name hmem
      rcases List.mem_cons.mp hmem with rfl | hmem
      · exact hname i
      · exact ih (hchild i) name hmem

theorem resolvePath_entry {path name : Bytes} (hname : IsEntryName name) :
    resolvePath path name = if path = [dot] then name else path ++ slash :: name := by
  have hrelative : isPathnameAbsolute name = false := by
    cases name with
    | nil => exact absurd rfl hname.ne_nil
    | cons c name =>
      have hc : c ≠ slash := fun h => hname.slashFree (h ▸ List.mem_cons_self)
      simpa [isPathnameAbsolute] using hc
  rw [resolvePath, if_neg (by simp [hrelative])]
  split_ifs
  · rfl
  · simp

/-- Below a directory with a path of its own the path is written with a slash for each name. -/
theorem pathOf_eq {path : Bytes} (hpath : path ≠ [dot]) {names : List Bytes}
    (hnames : ∀ name ∈ names, IsEntryName name) :
    DirTree.pathOf path names = path ++ names.flatMap (slash :: ·) := by
  induction names generalizing path with
  | nil => simp [DirTree.pathOf]
  | cons name names ih =>
    have hname := hnames name List.mem_cons_self
    have hne : path ++ slash :: name ≠ [dot] := by
      intro h
      have hmem : slash ∈ path ++ slash :: name := by simp
      rw [h] at hmem
      exact absurd (List.mem_singleton.mp hmem) (by decide)
    have hrest := ih hne fun name' hname' => hnames name' (List.mem_cons_of_mem _ hname')
    rw [DirTree.pathOf] at hrest ⊢
    rw [List.foldl_cons, resolvePath_entry hname, if_neg hpath, hrest]
    simp

theorem pathOf_dot {name : Bytes} (hname : IsEntryName name) {names : List Bytes}
    (hnames : ∀ name ∈ names, IsEntryName name) :
    slash :: DirTree.pathOf [dot] (name :: names) = (name :: names).flatMap (slash :: ·) := by
  have hrest := pathOf_eq hname.ne_dot hnames
  rw [DirTree.pathOf] at hrest ⊢
  rw [List.foldl_cons, resolvePath_entry hname, if_pos rfl, hrest]
  simp

/-- Different names give different paths. -/
theorem pathOf_injective {path : Bytes} {names names' : List Bytes}
    (hnames : ∀ name ∈ names, IsEntryName name) (hnames' : ∀ name ∈ names', IsEntryName name)
    (h : DirTree.pathOf path names = DirTree.pathOf path names') : names = names' := by
  have hsplit (hflat : names.flatMap (slash :: ·) = names'.flatMap (slash :: ·)) : names = names' :=
    Segments.eq_of_flatMap_sep (fun name hname => (hnames name hname).slashFree)
      (fun name hname => (hnames' name hname).slashFree) hflat
  have hne {name : Bytes} {names : List Bytes} (hnames : ∀ n ∈ name :: names, IsEntryName n) :
      DirTree.pathOf [dot] (name :: names) ≠ [dot] := by
    obtain ⟨hname, hnames⟩ := List.forall_mem_cons.mp hnames
    rw [DirTree.pathOf, List.foldl_cons, resolvePath_entry hname, if_pos rfl]
    intro hdot
    have heq : name ++ names.flatMap (slash :: ·) = [dot] := (pathOf_eq hname.ne_dot hnames).symm.trans hdot
    rcases List.append_eq_singleton_iff.mp heq with ⟨hnil, -⟩ | ⟨hsame, -⟩
    · exact hname.ne_nil hnil
    · exact hname.ne_dot hsame
  by_cases hpath : path = [dot]
  · subst hpath
    cases names with
    | nil =>
      cases names' with
      | nil => rfl
      | cons name' names' => exact absurd h.symm (hne hnames')
    | cons name names =>
      cases names' with
      | nil => exact absurd h (hne hnames)
      | cons name' names' =>
        refine hsplit ?_
        obtain ⟨hname, hrest⟩ := List.forall_mem_cons.mp hnames
        obtain ⟨hname', hrest'⟩ := List.forall_mem_cons.mp hnames'
        rw [← pathOf_dot hname hrest, ← pathOf_dot hname' hrest', h]
  · rw [pathOf_eq hpath hnames, pathOf_eq hpath hnames'] at h
    exact hsplit (List.append_cancel_left h)

theorem nodup_sum_found {n : Nat} {name : Fin n → Bytes} {child : Fin n → FsNode} {path : Bytes}
    (hname : ∀ i, IsEntryName (name i)) (hinj : Function.Injective name)
    (hchild : ∀ i, (child i).WellNamed)
    (hfound : ∀ i, (t.found (child i) path (name i)).Nodup) :
    (∑ i, t.found (child i) path (name i)).Nodup := by
  have hnames {i : Fin n} {names : List Bytes} (hleads : (child i).Leads names) :
      ∀ name' ∈ name i :: names, IsEntryName name' :=
    List.forall_mem_cons.mpr ⟨hname i, (hchild i).names hleads⟩
  have hbind : ∑ i, t.found (child i) path (name i) =
      Multiset.bind Finset.univ.val fun i => t.found (child i) path (name i) := rfl
  rw [hbind, Multiset.nodup_bind]
  refine ⟨fun i _ => hfound i, Multiset.Nodup.pairwise (fun i _ j _ hij => ?_) Finset.univ.nodup⟩
  refine Multiset.disjoint_left.mpr fun {a} hi hj => hij ?_
  obtain ⟨names, hleads, -, rfl⟩ := DirTree.mem_found_iff.mp hi
  obtain ⟨names', hleads', -, hsame⟩ := DirTree.mem_found_iff.mp hj
  have hcons := pathOf_injective (hnames hleads) (hnames hleads') hsame
  exact hinj (List.cons.inj hcons).1

theorem nodup_found {node : FsNode} (h : node.WellNamed) (atPath bname : Bytes) :
    (t.found node atPath bname).Nodup := by
  induction h generalizing atPath bname with
  | reg =>
    rw [DirTree.found]
    split_ifs
    · exact Multiset.nodup_singleton _
    · exact Multiset.nodup_zero
  | lnk => exact Multiset.nodup_zero
  | other => exact Multiset.nodup_zero
  | dir hname hinj hchild ih =>
    rw [DirTree.found]
    split_ifs
    · exact nodup_sum_found hname hinj hchild fun i => ih i _ _
    · exact Multiset.nodup_zero

/-- No file is found twice from one start path. -/
theorem nodup_foundFrom {node : FsNode} (h : node.WellNamed) (start : Bytes) :
    (t.foundFrom start node).Nodup := by
  cases h with
  | reg => exact Multiset.nodup_singleton _
  | lnk => exact Multiset.nodup_zero
  | other => exact Multiset.nodup_zero
  | dir hname hinj hchild => exact nodup_sum_found hname hinj hchild fun i => nodup_found (hchild i) _ _

end Once

section Searched

theorem mem_sum_map {f : Bytes → Multiset Bytes} {path : Bytes} {startPaths : List Bytes} :
    path ∈ (startPaths.map f).sum ↔ ∃ p ∈ startPaths, path ∈ f p := by
  induction startPaths with
  | nil => simp
  | cons p startPaths ih => simp [ih]

theorem count_sum_map {f : Bytes → Multiset Bytes} {startPaths : List Bytes}
    (h : ∀ p ∈ startPaths, (f p).Nodup) (path : Bytes) :
    (startPaths.map f).sum.count path = startPaths.countP fun p => decide (path ∈ f p) := by
  induction startPaths with
  | nil => simp
  | cons p startPaths ih =>
    obtain ⟨hp, hrest⟩ := List.forall_mem_cons.mp h
    rw [List.map_cons, List.sum_cons, Multiset.count_add, ih hrest, List.countP_cons, add_comm]
    by_cases hmem : path ∈ f p
    · rw [Multiset.count_eq_one_of_mem hp hmem]
      simp [hmem]
    · rw [Multiset.count_eq_zero_of_notMem hmem]
      simp [hmem]

variable {dirjobs jobs : Nat} {setup : ProgramSetup D} {s : ProgramState dirjobs jobs D}
  {node : D → FsNode} {root : Bytes → FsNode}

/-- When the traversal is over, the files that the scanner threads have been given are the start
paths that are files, and the files that admitted names below a start path lead to. -/
theorem program_searches_iff (hfollow : setup.dirTree.followSymlinks = false)
    (htree : IsTree setup.fileSystem node)
    (hstart : ∀ p ∈ setup.startPaths, StartIs setup.fileSystem node (cleanUpPath p) (root p))
    (h : ProgramReachable setup s) (hmain : ¬ s.main.Globbing) (path : Bytes) :
    path ∈ s.traversal.world.outQueue.map FileID.path ↔
      ∃ p ∈ setup.startPaths, ∃ names, (root p).Leads names ∧
        (names = [] ∨ setup.dirTree.Admits names) ∧ path = DirTree.pathOf (cleanUpPath p) names := by
  rw [← Multiset.mem_coe, putOut_eq hfollow htree hstart h hmain, mem_sum_map]
  simp only [DirTree.mem_foundFrom_iff]

theorem program_searches_iff_nested : ∃ s : ProgramState 1 1 Bool,
    str "d/b/c" ∈ s.traversal.world.outQueue.map FileID.path := by
  obtain ⟨s, hreturned, hmain, -⟩ := nestedSetup_returns
  have hglobbing : ¬ s.main.Globbing := by
    rw [hmain]
    exact fun h => h
  have hleads : (nestedTree false).Leads [[98], [99]] := .entry 0 (.entry 0 .reg)
  refine ⟨s, (program_searches_iff rfl nestedFileSystem_isTree nestedSetup_startIs hreturned hglobbing
    _).mpr ⟨[100], List.mem_singleton_self _, [[98], [99]], hleads, Or.inr ?_, ?_⟩⟩
  · exact ⟨rfl, rfl, rfl⟩
  · decide

/-- Each start path has each file that is found below it searched once. -/
theorem program_searches_once (hfollow : setup.dirTree.followSymlinks = false)
    (htree : IsTree setup.fileSystem node)
    (hstart : ∀ p ∈ setup.startPaths, StartIs setup.fileSystem node (cleanUpPath p) (root p))
    (hnamed : ∀ p ∈ setup.startPaths, (root p).WellNamed)
    (h : ProgramReachable setup s) (hmain : ¬ s.main.Globbing) (path : Bytes) :
    Multiset.count path (s.traversal.world.outQueue.map FileID.path) =
      setup.startPaths.countP fun p =>
        decide (path ∈ setup.dirTree.foundFrom (cleanUpPath p) (root p)) := by
  rw [putOut_eq hfollow htree hstart h hmain]
  exact count_sum_map (fun p hp => nodup_foundFrom (hnamed p hp) _) path

theorem program_searches_once_nested : ∃ s : ProgramState 1 1 Bool,
    Multiset.count (str "d/b/c") (s.traversal.world.outQueue.map FileID.path) = 1 := by
  obtain ⟨s, hreturned, hmain, -⟩ := nestedSetup_returns
  have hglobbing : ¬ s.main.Globbing := by
    rw [hmain]
    exact fun h => h
  have hentry (name : Bytes) (h : name = [98] ∨ name = [99]) : IsEntryName name := by
    rcases h with rfl | rfl
    · exact ⟨by decide, by decide, by decide⟩
    · exact ⟨by decide, by decide, by decide⟩
  have hinner : FsNode.WellNamed (.dir 1 (fun _ => [99]) fun _ => .reg) :=
    .dir (fun _ => hentry _ (Or.inr rfl)) (Function.injective_of_subsingleton _) fun _ => .reg
  have hnamed : FsNode.WellNamed (nestedTree false) :=
    .dir (fun _ => hentry _ (Or.inl rfl)) (Function.injective_of_subsingleton _) fun _ => hinner
  have hcount := program_searches_once rfl nestedFileSystem_isTree nestedSetup_startIs
    (fun _ _ => hnamed) hreturned hglobbing (str "d/b/c")
  exact ⟨s, hcount.trans (by decide)⟩

end Searched

end Ucg
