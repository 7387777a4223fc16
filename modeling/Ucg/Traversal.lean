import Mathlib.Algebra.BigOperators.Fin
import Ucg.Conservation
import Ucg.DirTree

/-! A physical traversal finds the files of the trees below the start paths, each once for
each start path and whatever the schedule. -/

namespace Ucg

open Transition

/-- A finite tree, with the entries of a directory in any order. -/
inductive FsNode
  | reg
  | lnk
  | other
  | dir (n : Nat) (name : Fin n → Bytes) (child : Fin n → FsNode)

def FsNode.mode : FsNode → FileMode
  | .reg => .reg
  | .lnk => .lnk
  | .other => .other
  | .dir _ _ _ => .dir

def FileMode.dType : FileMode → DType
  | .reg => .reg
  | .dir => .dir
  | .lnk => .lnk
  | .other => .other

namespace DirTree

/-- The files found in an entry of the directory with path `atPath`. -/
def found (t : DirTree) : FsNode → Bytes → Bytes → Multiset Bytes
  | .reg, atPath, bname => if t.fileBasenameFilter bname then {resolvePath atPath bname} else 0
  | .dir _ name child, atPath, bname =>
    if t.recurse && !t.dirBasenameFilter bname then
      ∑ i, t.found (child i) (resolvePath atPath bname) (name i)
    else 0
  | _, _, _ => 0

/-- The files found below a directory that is read. -/
def foundBelow (t : DirTree) (path : Bytes) : FsNode → Multiset Bytes
  | .dir _ name child => ∑ i, t.found (child i) path (name i)
  | _ => 0

/-- The files found from a start path, where neither the filters nor `recurse` apply. -/
def foundFrom (t : DirTree) (path : Bytes) : FsNode → Multiset Bytes
  | .reg => {path}
  | node => t.foundBelow path node

end DirTree

variable {D : Type*}

/-- The entry is listed as what it is or as unknown, and `fstatat` and `opendir` succeed. -/
structure EntryIs (fs : FileSystem D) (node : D → FsNode) (d : D) (e : Dirent) (name : Bytes)
    (child : FsNode) : Prop where
  dName : e.dName = name
  dType : e.dType = .unknown ∨ e.dType = child.mode.dType
  fstatat : ∃ st, fs.fstatat d name true = some st ∧ st.stMode = child.mode
  opendirat : child.mode = .dir → ∃ d', fs.opendirat d name = some d' ∧ node d' = child

/-- Every directory is the root of a finite tree, and `readdir` lists each entry once, in
some order and with `.` and `..` among them. -/
structure IsTree (fs : FileSystem D) (node : D → FsNode) : Prop where
  mode_eq (d : D) : (node d).mode = .dir
  readdir {d : D} {n : Nat} {name : Fin n → Bytes} {child : Fin n → FsNode} :
    node d = .dir n name child → ∃ entry : Fin n → Dirent,
      ((fs.readdir d).filter fun e => !isDotDir e.dName).Perm (List.ofFn entry) ∧
        ∀ i, EntryIs fs node d (entry i) (name i) (child i)

/-- The path leads to the tree, and `stat` and `opendir` succeed. -/
structure StartIs (fs : FileSystem D) (node : D → FsNode) (path : Bytes) (root : FsNode) : Prop where
  stat : ∃ st, fs.stat path = some st ∧ st.stMode = root.mode
  opendir : root.mode = .dir → ∃ d, fs.opendir path = some d ∧ node d = root

section Owed

variable {t : DirTree} {fs : FileSystem D} {node : D → FsNode} {dse : FileID D} {d : D} {e : Dirent}

def FileID.owed (t : DirTree) (node : D → FsNode) (f : FileID D) : Multiset Bytes :=
  match f.dir with
  | some d => t.foundBelow f.path (node d)
  | none => 0

def DirentAction.owed (t : DirTree) (node : D → FsNode) : DirentAction D → Multiset Bytes
  | .ignore => 0
  | .file f => {f.path}
  | .dir f => f.owed t node

/-- What an entry owes, read off a run of `processDirent` with some content of the buffer. -/
def entryOwed (t : DirTree) (fs : FileSystem D) (node : D → FsNode) (dse : FileID D) (d : D)
    (e : Dirent) : Multiset Bytes :=
  (t.processDirent fs dse d e ⟨.other, 0, 0⟩).owed t node

def ReaddirState.owed (t : DirTree) (fs : FileSystem D) (node : D → FsNode) :
    ReaddirState D → Multiset Bytes
  | .reading dse d entries localFileQueue | .pushing _ dse d entries localFileQueue =>
    (localFileQueue.map FileID.path : Multiset Bytes) +
      (entries.map (entryOwed t fs node dse d)).sum
  | .closing => 0

def ReaddirState.Good (fs : FileSystem D) : ReaddirState D → Prop
  | .reading _ d entries _ => entries ⊆ fs.readdir d
  | .pushing _ _ _ _ _ => False
  | .closing => True

def TraversalState.made (w : TraversalState D) : Multiset Bytes := w.outQueue.map FileID.path

theorem processDirent_of_isDotDir (h : isDotDir e.dName = true) (statbuf : Stat) :
    t.processDirent fs dse d e statbuf = .ignore := by
  simp only [DirTree.processDirent, h, if_true]
  split <;> rfl

theorem processDirent_eq (dse : FileID D) (hfollow : t.followSymlinks = false) {name : Bytes}
    {child : FsNode}
    (he : EntryIs fs node d e name child) (hdot : isDotDir e.dName = false) (statbuf : Stat) :
    ∃ statbuffPtr, t.processDirent fs dse d e statbuf =
      t.queueDirent fs dse d e (child.mode == .reg) (child.mode == .dir) (child.mode == .other)
        statbuffPtr ∨
      child.mode = .other ∧ t.processDirent fs dse d e statbuf = .ignore := by
  obtain ⟨st, hst, hmode⟩ := he.fstatat
  rw [← he.dName] at hst
  rcases he.dType with htype | htype
  · refine ⟨some st, Or.inl ?_⟩
    simp only [DirTree.processDirent, htype, hdot, hfollow, Bool.not_false, hst, Option.getD_some, hmode]
    cases child <;> rfl
  · refine ⟨none, ?_⟩
    unfold DirTree.processDirent
    simp only [htype, hdot, hfollow]
    cases child with
    | other => exact Or.inr ⟨rfl, rfl⟩
    | _ => exact Or.inl rfl

theorem owed_processDirent (hfollow : t.followSymlinks = false) {name : Bytes} {child : FsNode}
    (he : EntryIs fs node d e name child) (hdot : isDotDir e.dName = false) (statbuf : Stat) :
    (t.processDirent fs dse d e statbuf).owed t node = t.found child dse.path name := by
  obtain ⟨statbuffPtr, haction | ⟨hother, haction⟩⟩ := processDirent_eq dse hfollow he hdot statbuf
  · rw [haction, ← he.dName]
    cases child with
    | reg =>
      simp only [DirTree.queueDirent, DirTree.found]
      by_cases hf : t.fileBasenameFilter e.dName <;>
        simp [FsNode.mode, hf, DirentAction.owed, FileID.ofEntry_path]
    | dir n name' child' =>
      obtain ⟨d', hopen, hnode⟩ := he.opendirat rfl
      rw [← he.dName] at hopen
      simp only [DirTree.queueDirent, DirTree.found]
      cases t.recurse <;> cases t.dirBasenameFilter e.dName <;>
        simp [FsNode.mode, DirentAction.owed, FileID.owed, FileID.ofEntry_path, FileID.ofEntry_dir,
          hopen, hnode, DirTree.foundBelow]
    | _ => rfl
  · rw [haction]
    cases child <;> simp_all [FsNode.mode, DirentAction.owed, DirTree.found]

theorem IsTree.entryIs (htree : IsTree fs node) (he : e ∈ fs.readdir d)
    (hdot : isDotDir e.dName = false) : ∃ name child, EntryIs fs node d e name child := by
  have hmode := htree.mode_eq d
  cases hnode : node d with
  | dir n name child =>
    obtain ⟨entry, hperm, hentry⟩ := htree.readdir hnode
    have hmem : e ∈ List.ofFn entry :=
      hperm.subset (List.mem_filter.mpr ⟨he, by simp [hdot]⟩)
    obtain ⟨i, rfl⟩ := (List.mem_ofFn' _ _).mp hmem
    exact ⟨name i, child i, hentry i⟩
  | _ => simp [hnode, FsNode.mode] at hmode

theorem IsTree.owed_eq (htree : IsTree fs node) (hfollow : t.followSymlinks = false)
    (he : e ∈ fs.readdir d) (statbuf : Stat) :
    (t.processDirent fs dse d e statbuf).owed t node = entryOwed t fs node dse d e := by
  cases hdot : isDotDir e.dName with
  | true => rw [entryOwed, processDirent_of_isDotDir hdot, processDirent_of_isDotDir hdot]
  | false =>
    obtain ⟨name, child, hentry⟩ := htree.entryIs he hdot
    rw [entryOwed, owed_processDirent hfollow hentry hdot, owed_processDirent hfollow hentry hdot]

theorem sum_map_filter {ι M : Type*} [AddCommMonoid M] (p : ι → Bool) (f : ι → M) (l : List ι)
    (h : ∀ x ∈ l, p x = false → f x = 0) : ((l.filter p).map f).sum = (l.map f).sum := by
  induction l with
  | nil => rfl
  | cons x l ih =>
    have ih := ih fun y hy => h y (List.mem_cons_of_mem _ hy)
    cases hx : p x with
    | true => simp [hx, ih]
    | false => simp [hx, ih, h x List.mem_cons_self hx]

theorem IsTree.sum_entryOwed (htree : IsTree fs node) (hfollow : t.followSymlinks = false) :
    ((fs.readdir d).map (entryOwed t fs node dse d)).sum = t.foundBelow dse.path (node d) := by
  have hmode := htree.mode_eq d
  cases hnode : node d with
  | dir n name child =>
    obtain ⟨entry, hperm, hentry⟩ := htree.readdir hnode
    have hdots : ∀ e ∈ fs.readdir d, (!isDotDir e.dName) = false → entryOwed t fs node dse d e = 0 := by
      intro e _ hdot
      rw [entryOwed, processDirent_of_isDotDir (by simpa using hdot)]
      rfl
    have hfound (i : Fin n) :
        entryOwed t fs node dse d (entry i) = t.found (child i) dse.path (name i) := by
      have hmem := hperm.symm.subset ((List.mem_ofFn' _ _).mpr ⟨i, rfl⟩)
      exact owed_processDirent hfollow (hentry i) (by simpa using (List.mem_filter.mp hmem).2) _
    rw [← sum_map_filter (fun e => !isDotDir e.dName) _ _ hdots, (hperm.map _).sum_eq,
      List.map_ofFn, List.sum_ofFn]
    exact Finset.sum_congr rfl fun i _ => hfound i
  | _ => simp [hnode, FsNode.mode] at hmode

theorem readdirStep_cons (htree : IsTree fs node) (hfollow : t.followSymlinks = false)
    (he : e ∈ fs.readdir d) {entries : List Dirent} {localFileQueue : List (FileID D)}
    {w : TraversalState D} {a : WorkAct (FileID D) (ReaddirState D) (TraversalState D)}
    (h : t.readdirStep fs (.reading dse d (e :: entries) localFileQueue) w a) :
    (entryOwed t fs node dse d e = 0 ∧ a = .work (.reading dse d entries localFileQueue) w) ∨
    (∃ f, entryOwed t fs node dse d e = {f.path} ∧
      a = .work (.reading dse d entries (localFileQueue ++ [f])) w) ∨
    (∃ f, entryOwed t fs node dse d e = f.owed t node ∧
      a = .push (.value f) (.reading dse d entries localFileQueue)) := by
  obtain ⟨statbuf, ha⟩ := h
  rw [← htree.owed_eq hfollow he statbuf]
  cases haction : t.processDirent fs dse d e statbuf with
  | ignore => exact Or.inl ⟨rfl, by simpa [haction] using ha⟩
  | file f => exact Or.inr (Or.inl ⟨f, rfl, by simpa [haction] using ha⟩)
  | dir f => exact Or.inr (Or.inr ⟨f, rfl, by simpa [haction, hfollow] using ha⟩)

/-- `ReaddirLoop` hands on or puts out all that it owes. -/
theorem readdirLoop_conserves (htree : IsTree fs node) (hfollow : t.followSymlinks = false) :
    Conserves (t.readdirLoop fs) (ReaddirState.Good fs) (FileID.owed t node)
      (ReaddirState.owed t fs node) TraversalState.made where
  load dse := by
    cases hdir : dse.dir with
    | none => simp [DirTree.readdirLoop, FileID.owed, hdir, ReaddirState.Good, ReaddirState.owed]
    | some d =>
      simp [DirTree.readdirLoop, FileID.owed, hdir, ReaddirState.Good, ReaddirState.owed,
        htree.sum_entryOwed hfollow]
  push {b next arg world} hb ha := by
    cases b with
    | reading dse d entries localFileQueue =>
      cases entries with
      | nil => cases localFileQueue <;> simp [DirTree.readdirLoop, DirTree.readdirStep] at ha
      | cons e entries =>
        obtain ⟨he, hentries⟩ := List.cons_subset.mp hb
        rcases readdirStep_cons htree hfollow he ha with ⟨_, h⟩ | ⟨_, _, h⟩ | ⟨f, howed, h⟩ <;> cases h
        refine ⟨hentries, ?_⟩
        simp only [ReaddirState.owed, PushArg.values, List.map_cons, List.sum_cons, List.map_nil,
          List.sum_nil, howed]
        abel
    | pushing => exact hb.elim
    | closing => cases ha
  work {b next world world'} hb ha := by
    cases b with
    | reading dse d entries localFileQueue =>
      cases entries with
      | nil =>
        cases localFileQueue with
        | nil => cases ha
        | cons f files =>
          cases ha
          refine ⟨trivial, ?_⟩
          simp only [ReaddirState.owed, TraversalState.made, List.map_append, ← Multiset.coe_add,
            List.map_nil, List.sum_nil]
          abel
      | cons e entries =>
        obtain ⟨he, hentries⟩ := List.cons_subset.mp hb
        rcases readdirStep_cons htree hfollow he ha with ⟨howed, h⟩ | ⟨f, howed, h⟩ | ⟨_, _, h⟩ <;> cases h
        · refine ⟨hentries, ?_⟩
          simp [ReaddirState.owed, howed]
        · refine ⟨hentries, ?_⟩
          simp only [ReaddirState.owed, howed, List.map_append, ← Multiset.coe_add, List.map_cons,
            List.map_nil, Multiset.coe_singleton, List.sum_cons]
          abel
    | pushing => exact hb.elim
    | closing => cases ha
  finish {b world} hb ha := by
    cases b with
    | reading dse d entries localFileQueue =>
      cases entries with
      | nil =>
        cases localFileQueue with
        | nil => rfl
        | cons f files => cases ha
      | cons e entries =>
        have he := (List.cons_subset.mp hb).1
        rcases readdirStep_cons htree hfollow he ha with ⟨_, h⟩ | ⟨_, _, h⟩ | ⟨_, _, h⟩ <;> cases h
    | pushing => exact hb.elim
    | closing => rfl

theorem scandirPaths_owed {root : Bytes → FsNode} {startPaths : List Bytes}
    (hstart : ∀ p ∈ startPaths, StartIs fs node (cleanUpPath p) (root p)) :
    ((scandirPaths fs startPaths).2.map FileID.path : Multiset Bytes) +
        ((scandirPaths fs startPaths).1.map (FileID.owed t node)).sum =
      (startPaths.map fun p => t.foundFrom (cleanUpPath p) (root p)).sum := by
  induction startPaths with
  | nil => rfl
  | cons p startPaths ih =>
    obtain ⟨⟨st, hst, hmode⟩, hopendir⟩ := hstart p List.mem_cons_self
    have ih := ih fun q hq => hstart q (List.mem_cons_of_mem _ hq)
    have htype := FileID.ofPath_fileType hst
    rw [hmode] at htype
    rw [List.map_cons, List.sum_cons, ← ih]
    cases hroot : root p with
    | reg =>
      rw [hroot] at htype
      simp [scandirPaths, htype, FsNode.mode, FileMode.fileType, FileID.ofPath_path,
        DirTree.foundFrom, ← Multiset.singleton_add, ← Multiset.cons_coe, add_assoc]
    | dir n name child =>
      obtain ⟨d, hopen, hnode⟩ := hopendir (by rw [hroot]; rfl)
      rw [hroot] at htype hnode
      have howed : (FileID.ofPath fs (cleanUpPath p)).owed t node =
          t.foundFrom (cleanUpPath p) (.dir n name child) := by
        simp [FileID.owed, FileID.ofPath_dir, FileID.ofPath_path, hopen, hnode, DirTree.foundFrom]
      simp only [scandirPaths, htype, FsNode.mode, FileMode.fileType, List.map_cons, List.sum_cons,
        howed]
      abel
    | _ =>
      rw [hroot] at htype
      simp [scandirPaths, htype, FsNode.mode, FileMode.fileType, DirTree.foundFrom, DirTree.foundBelow]

end Owed

section Scandir

variable {t : DirTree} {fs : FileSystem D} {node : D → FsNode} {root : Bytes → FsNode}
  {startPaths : List Bytes} {dirjobs : Nat}
  {s : PoolState dirjobs (FileID D) (ReaddirState D) (TraversalState D)}

/-- When `Scandir` returns, the files pushed to the output queue are those of the trees below
the start paths, as a multiset. -/
theorem scandir_finds_exactly (hfollow : t.followSymlinks = false) (htree : IsTree fs node)
    (hstart : ∀ p ∈ startPaths, StartIs fs node (cleanUpPath p) (root p))
    (h : Reachable (ScandirInit fs startPaths dirjobs) (PoolStep (t.readdirLoop fs) False) s)
    (hm : s.master = .joined) :
    (s.world.outQueue.map FileID.path : Multiset Bytes) =
      (startPaths.map fun p => t.foundFrom (cleanUpPath p) (root p)).sum := by
  have hmade := (readdirLoop_conserves htree hfollow).made_eq h (by rw [hm]; trivial)
  rw [← scandirPaths_owed hstart]
  exact hmade

def nestedTree : Bool → FsNode
  | true => .dir 1 (fun _ => [99]) fun _ => .reg
  | false => .dir 1 (fun _ => [98]) fun _ => .dir 1 (fun _ => [99]) fun _ => .reg

/-- The directory `d` with a directory `b` of unlisted type, and the file `c` in it. -/
def nestedFileSystem : FileSystem Bool where
  stat _ := some ⟨.dir, 1, 1⟩
  opendir _ := some false
  readdir
    | true => [⟨[99], .reg, 3⟩]
    | false => [⟨[dot], .dir, 1⟩, ⟨[98], .unknown, 2⟩]
  fstatat
    | true, _, _ => some ⟨.reg, 1, 3⟩
    | false, _, _ => some ⟨.dir, 1, 2⟩
  opendirat _ _ := some true

def allFiles : DirTree := ⟨true, false, fun _ => true, fun _ => false⟩

theorem nestedFileSystem_isTree : IsTree nestedFileSystem nestedTree where
  mode_eq d := by cases d <;> rfl
  readdir {d n name child} h := by
    cases d with
    | true =>
      cases h
      exact ⟨fun _ => ⟨[99], .reg, 3⟩, .refl _, fun _ => ⟨rfl, .inr rfl, ⟨_, rfl, rfl⟩, nofun⟩⟩
    | false =>
      cases h
      exact ⟨fun _ => ⟨[98], .unknown, 2⟩, .refl _,
        fun _ => ⟨rfl, .inl rfl, ⟨_, rfl, rfl⟩, fun _ => ⟨true, rfl, rfl⟩⟩⟩

theorem scandir_finds_exactly_nested :
    ∃ s, Reachable (ScandirInit nestedFileSystem [[100]] 1)
        (PoolStep (allFiles.readdirLoop nestedFileSystem) False) s ∧ s.master = .joined ∧
      (s.world.outQueue.map FileID.path : Multiset Bytes) = {[100, 47, 98, 47, 99]} := by
  have hstart : Reachable (ScandirInit nestedFileSystem [[100]] 1)
      (PoolStep (allFiles.readdirLoop nestedFileSystem) False) _ := .start rfl
  have hreading := (hstart.tail (.pullFront 0 rfl)).tail (.work 0 rfl ⟨⟨.other, 0, 0⟩, rfl⟩)
  have hpushed := hreading.tail (.push 0 rfl ⟨⟨.other, 0, 0⟩, rfl⟩)
  have hnotified := hpushed.tail (.notify 0 rfl (.none fun i => by simp [Subsingleton.elim i 0]))
  have hsecond := (hnotified.tail (.finish 0 rfl rfl)).tail (.pullFront 0 rfl)
  have hfile := (hsecond.tail (.work 0 rfl ⟨⟨.other, 0, 0⟩, rfl⟩)).tail (.work 0 rfl rfl)
  have hasleep := (hfile.tail (.finish 0 rfl rfl)).tail (.pullFront 0 rfl)
  have hclosed := (hasleep.tail (.masterWait rfl)).tail (.close rfl)
  have hexited := (hclosed.tail (.closeNotify rfl)).tail (.reacquire 0 rfl)
  have hjoined := hexited.tail (.join rfl fun i => by rw [Subsingleton.elim i 0]; rfl)
  refine ⟨_, hjoined, rfl, ?_⟩
  have hroot (p : Bytes) : StartIs nestedFileSystem nestedTree (cleanUpPath p) (nestedTree false) :=
    ⟨⟨_, rfl, rfl⟩, fun _ => ⟨false, rfl, rfl⟩⟩
  rw [scandir_finds_exactly rfl nestedFileSystem_isTree (fun p _ => hroot p) hjoined rfl]
  decide
end Scandir

end Ucg
