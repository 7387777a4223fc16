import Ucg.PoolTermination
import Ucg.PushedDirs
import Ucg.Traversal

/-! What the work of `ReaddirLoop` costs: over a tree the entries below a directory, and with
symlinks followed the entries of the directories that are still unvisited. -/

namespace Ucg

open Transition Function

variable {D : Type*} {n : Nat} {t : DirTree} {fs : FileSystem D}

theorem readdirLoop_acts : (t.readdirLoop fs).Acts := by
  intro b world
  cases b with
  | reading dse d entries files =>
    cases entries with
    | nil => exact ⟨_, rfl⟩
    | cons e entries => exact ⟨_, ⟨.other, 0, 0⟩, rfl⟩
  | pushing f dse d entries files => exact ⟨_, rfl⟩
  | closing => exact ⟨_, rfl⟩

/-- The work left with a directory, when `entry` tells that for one entry and `cost` that of a
directory to be pushed. -/
def ReaddirState.left (entry : D → Dirent → Nat) (cost : FileID D → Nat) : ReaddirState D → Nat
  | .reading _ d entries _ => (entries.map (entry d)).sum + 2
  | .pushing f _ d entries _ => cost f + (entries.map (entry d)).sum + 3
  | .closing => 1

def FileID.cost (fs : FileSystem D) (entry : D → Dirent → Nat) (f : FileID D) : Nat :=
  match f.dir with
  | some d => ((fs.readdir d).map (entry d)).sum + 3
  | none => 2

theorem left_load_lt (entry : D → Dirent → Nat) (f : FileID D) :
    ReaddirState.left entry (FileID.cost fs entry) ((t.readdirLoop fs).load f) <
      f.cost fs entry := by
  cases hdir : f.dir with
  | none => simp [DirTree.readdirLoop, hdir, ReaddirState.left, FileID.cost]
  | some d => simp [DirTree.readdirLoop, hdir, ReaddirState.left, FileID.cost]

section Tree

variable {node : D → FsNode}

def FsNode.height : FsNode → Nat
  | .dir _ _ child => (Finset.univ.sup fun i => (child i).height) + 1
  | _ => 0

theorem FsNode.height_child {n : Nat} {name : Fin n → Bytes} {child : Fin n → FsNode} (i : Fin n) :
    (child i).height + 1 ≤ (FsNode.dir n name child).height :=
  Nat.succ_le_succ (Finset.le_sup (f := fun i => (child i).height) (Finset.mem_univ i))

/-- What it costs to read a directory and all below it, down to a depth. -/
def subtreeCost (fs : FileSystem D) : Nat → Option D → Nat
  | _, none => 2
  | 0, some _ => 2
  | depth + 1, some d =>
    ((fs.readdir d).map fun e => subtreeCost fs depth (fs.opendirat d e.dName) + 1).sum + 3

theorem subtreeCost_mono {depth depth' : Nat} (h : depth ≤ depth') (d : Option D) :
    subtreeCost fs depth d ≤ subtreeCost fs depth' d := by
  induction depth generalizing depth' d with
  | zero =>
    cases d with
    | none => cases depth' <;> exact le_rfl
    | some d =>
      cases depth' with
      | zero => exact le_rfl
      | succ depth' =>
        rw [subtreeCost, subtreeCost]
        omega
  | succ depth ih =>
    obtain ⟨depth', rfl⟩ : ∃ k, depth' = k + 1 := ⟨depth' - 1, by omega⟩
    cases d with
    | none => exact le_rfl
    | some d =>
      refine Nat.add_le_add_right (List.sum_le_sum fun e _ => ?_) 3
      exact Nat.add_le_add_right (ih (by omega) _) 1

/-- An entry costs what it leads to, below the height of its directory. -/
def treeEntryCost (fs : FileSystem D) (node : D → FsNode) (d : D) (e : Dirent) : Nat :=
  subtreeCost fs ((node d).height - 1) (fs.opendirat d e.dName) + 1

theorem queueDirent_isDir {dse f : FileID D} {d : D} {e : Dirent} {isFile isDir isUnknown : Bool}
    {statBuf : Option Stat} (h : t.queueDirent fs dse d e isFile isDir isUnknown statBuf = .dir f) :
    isDir = true := by
  unfold DirTree.queueDirent at h
  split_ifs at h
  assumption

theorem IsTree.cost_of_dir (htree : IsTree fs node) (hfollow : t.followSymlinks = false)
    {dse f : FileID D} {d : D} {e : Dirent} {statbuf : Stat} (he : e ∈ fs.readdir d)
    (h : t.processDirent fs dse d e statbuf = .dir f) :
    f.cost fs (treeEntryCost fs node) < treeEntryCost fs node d e := by
  have hmode := htree.mode_eq d
  cases hnode : node d with
  | dir n name child =>
    obtain ⟨entry, hperm, hentry⟩ := htree.readdir hnode
    have hdot : isDotDir e.dName = false := by
      by_contra hdot
      rw [processDirent_of_isDotDir (by simpa using hdot)] at h
      cases h
    have hmem : e ∈ List.ofFn entry := hperm.subset (List.mem_filter.mpr ⟨he, by simp [hdot]⟩)
    obtain ⟨i, rfl⟩ := (List.mem_ofFn' _ _).mp hmem
    obtain ⟨statbuffPtr, haction | ⟨-, haction⟩⟩ :=
      processDirent_eq dse hfollow (hentry i) hdot statbuf
    · rw [haction] at h
      obtain ⟨d', hopen, hchild⟩ := (hentry i).opendirat (by simpa using queueDirent_isDir h)
      rw [← (hentry i).dName] at hopen
      obtain rfl := queueDirent_eq_dir h
      have hheight : (node d').height + 1 ≤ (node d).height := by
        rw [hchild, hnode]
        exact FsNode.height_child i
      -- the root of the subtree is counted at its own height, which is below that of `d`
      have hcost : FileID.cost fs (treeEntryCost fs node)
          (.ofEntry fs dse d (entry i).dName statbuffPtr .dir (entry i).dIno) =
            subtreeCost fs (node d').height (some d') := by
        have hpos : (node d').height = (node d').height - 1 + 1 := by
          have hdir := htree.mode_eq d'
          cases hnode' : node d' with
          | dir n name child => rfl
          | _ => simp [hnode', FsNode.mode] at hdir
        rw [FileID.cost, FileID.ofEntry_dir, hopen, hpos]
        rfl
      rw [hcost, treeEntryCost, hopen]
      exact Nat.lt_succ_of_le (subtreeCost_mono (by omega) _)
    · rw [haction] at h
      cases h
  | _ => simp [hnode, FsNode.mode] at hmode

/-- Over a tree the loop uses up what its directories cost. -/
theorem readdirLoop_exhausts_tree (htree : IsTree fs node) (hfollow : t.followSymlinks = false) :
    Exhausts (t.readdirLoop fs) (fun _ => True) (ReaddirState.Good fs) (fun _ => 0)
      (FileID.cost fs (treeEntryCost fs node))
      (ReaddirState.left (treeEntryCost fs node) (FileID.cost fs (treeEntryCost fs node))) where
  load {x} _ := ⟨((readdirLoop_conserves (t := t) htree hfollow).load x).1, left_load_lt _ x⟩
  push {b next arg world} hb ha := by
    refine ⟨fun _ _ => trivial, ((readdirLoop_conserves htree hfollow).push hb ha).1, ?_⟩
    cases b with
    | reading dse d entries files =>
      cases entries with
      | nil => cases files <;> simp [DirTree.readdirLoop, DirTree.readdirStep] at ha
      | cons e entries =>
        obtain ⟨statbuf, ha⟩ := ha
        cases haction : t.processDirent fs dse d e statbuf with
        | dir f =>
          rw [haction] at ha
          simp only [hfollow, Bool.false_eq_true, if_false, WorkAct.push.injEq] at ha
          obtain ⟨rfl, rfl⟩ := ha
          have hcost := htree.cost_of_dir hfollow (hb List.mem_cons_self) haction
          simp only [ReaddirState.left, PushArg.values, List.map_cons, List.sum_cons, List.map_nil,
            List.sum_nil]
          omega
        | ignore | file f => simp [haction] at ha
    | pushing => exact hb.elim
    | closing => cases ha
  work {b next world world'} hb ha := by
    refine ⟨((readdirLoop_conserves htree hfollow).work hb ha).1, Or.inr ⟨rfl, ?_⟩⟩
    cases b with
    | reading dse d entries files =>
      cases entries with
      | nil =>
        cases files with
        | nil => cases ha
        | cons f files =>
          cases ha
          exact Nat.lt_of_lt_of_le (show 1 < 2 by omega) (Nat.le_add_left _ _)
      | cons e entries =>
        obtain ⟨statbuf, ha⟩ := ha
        have hpos : 0 < treeEntryCost fs node d e := Nat.succ_pos _
        cases haction : t.processDirent fs dse d e statbuf with
        | dir f => simp [haction, hfollow] at ha
        | ignore | file f =>
          rw [haction] at ha
          obtain ⟨rfl, rfl⟩ := WorkAct.work.inj ha
          simp only [ReaddirState.left, List.map_cons, List.sum_cons]
          omega
    | pushing => exact hb.elim
    | closing => cases ha

end Tree

section Graph

variable {startPaths : List Bytes}

/-- How many identifiers are still unvisited. -/
def unvisited (keys : Finset DevIno) (w : TraversalState D) : Nat :=
  (keys \ w.dirHasBeenVisited.toFinset).card

theorem unvisited_insert_lt {keys : Finset DevIno} {w : TraversalState D} {k : DevIno} (hk : k ∈ keys)
    (hnew : k ∉ w.dirHasBeenVisited) :
    unvisited keys { w with dirHasBeenVisited := w.dirHasBeenVisited.insert k } < unvisited keys w := by
  refine Finset.card_lt_card (Finset.ssubset_iff_of_subset ?_ |>.mpr ⟨k, ?_, ?_⟩)
  · refine Finset.sdiff_subset_sdiff le_rfl fun k' hk' => ?_
    simpa using List.mem_insert_of_mem (List.mem_toFinset.mp hk')
  · simpa using ⟨hk, hnew⟩
  · simp

/-- A directory costs its entries: what they lead to is paid for by its identifier. -/
def graphEntryCost : D → Dirent → Nat := fun _ _ => 1

/-- With symlinks followed the loop uses up the unvisited identifiers, whatever leads where. -/
theorem readdirLoop_exhausts_graph (hfollow : t.followSymlinks = true) {keys : Finset DevIno}
    (hkeys : ∀ k, IsKey t fs startPaths k → k ∈ keys) :
    Exhausts (t.readdirLoop fs) (MayBeQueued t fs startPaths) (ReaddirState.Sound t fs startPaths)
      (unvisited keys) (FileID.cost fs graphEntryCost)
      (ReaddirState.left graphEntryCost (FileID.cost fs graphEntryCost)) where
  load {x} hx := by
    refine ⟨?_, left_load_lt _ x⟩
    cases hdir : x.dir with
    | none => simp [DirTree.readdirLoop, hdir, ReaddirState.Sound]
    | some d => simpa [DirTree.readdirLoop, hdir, ReaddirState.Sound] using hx
  push {b next arg world} hb ha := by
    cases b with
    | reading dse d entries files =>
      cases entries with
      | nil => cases files <;> simp [DirTree.readdirLoop, DirTree.readdirStep] at ha
      | cons e entries =>
        obtain ⟨statbuf, ⟨-, ha⟩ | ⟨f, -, ha⟩ | ⟨f, -, -, ha⟩ | ⟨f, -, -, ha⟩⟩ :=
          readdirStep_entry hfollow ha <;> cases ha
    | pushing f dse d entries files =>
      obtain ⟨hf, hdse, hdir, hentries⟩ := hb
      cases ha
      refine ⟨by simpa [PushArg.values] using hf, ⟨hdse, hdir, hentries⟩, ?_⟩
      simp [ReaddirState.left, PushArg.values]
      omega
    | closing => cases ha
  work {b next world world'} hb ha := by
    cases b with
    | reading dse d entries files =>
      obtain ⟨hdse, hdir, hentries⟩ := hb
      cases entries with
      | nil =>
        cases files with
        | nil => cases ha
        | cons f files =>
          cases ha
          exact ⟨trivial, Or.inr ⟨rfl, Nat.lt_of_lt_of_le (show 1 < 2 by omega) (Nat.le_add_left _ _)⟩⟩
      | cons e entries =>
        have hrest : ∀ e ∈ entries, e ∈ fs.readdir d := fun e' he' =>
          hentries e' (List.mem_cons_of_mem _ he')
        have hless (files : List (FileID D)) : ReaddirState.left graphEntryCost
            (FileID.cost fs graphEntryCost) (.reading dse d entries files) <
              ReaddirState.left graphEntryCost (FileID.cost fs graphEntryCost)
                (.reading dse d (e :: entries) files) := by
          simp [ReaddirState.left, graphEntryCost]
        obtain ⟨statbuf, ⟨-, ha⟩ | ⟨f, -, ha⟩ | ⟨f, -, -, ha⟩ | ⟨f, haction, hnew, ha⟩⟩ :=
          readdirStep_entry hfollow ha <;> obtain ⟨rfl, rfl⟩ := WorkAct.work.inj ha
        · exact ⟨⟨hdse, hdir, hrest⟩, Or.inr ⟨rfl, hless files⟩⟩
        · exact ⟨⟨hdse, hdir, hrest⟩, Or.inr ⟨rfl, hless files⟩⟩
        · exact ⟨⟨hdse, hdir, hrest⟩, Or.inr ⟨rfl, hless files⟩⟩
        · have he := hentries e List.mem_cons_self
          refine ⟨⟨.entry hdse hdir he haction, hdse, hdir, hrest⟩, Or.inl ?_⟩
          exact unvisited_insert_lt (hkeys _ (.entry hdse hdir he haction)) hnew
    | pushing => cases ha
    | closing => cases ha

end Graph

end Ucg
