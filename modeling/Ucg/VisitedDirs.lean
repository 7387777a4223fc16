import Ucg.FollowedTraversal

/-! A traversal that follows symlinks reads a directory once where the entries list the inode
numbers of what they lead to, and again where a symlink lists its own. -/

namespace Ucg

open Transition Function

variable {D : Type*} {n : Nat} {t : DirTree} {fs : FileSystem D} {ident : D → DevIno} {root : D}
  {v v' : TraversalView n D} {l l' : List (TraversalEvent D)}

/-- Where an entry that is dealt with opens a directory, it lists the inode number of that
directory, on the device handed down, and the directory is not the start directory. -/
def ListsTarget (t : DirTree) (fs : FileSystem D) (ident : D → DevIno) (root : D)
    (v v' : TraversalView n D) : Prop :=
  ∀ dse d e, v.Handles v' dse d e → t.IsDirEntry fs dse d e → ∀ d', fs.opendirat d e.dName = some d' →
    entryKey fs dse d e = some (ident d') ∧ d' ≠ root

/-- No directory is queued twice, and those queued are in the set of visited directories. -/
structure QueuedOnce (fs : FileSystem D) (ident : D → DevIno) (root : D) (v : TraversalView n D)
    (l : List (TraversalEvent D)) : Prop where
  nodup : (root :: l.filterMap (TraversalEvent.queuedDir fs)).Nodup
  visited : ∀ d ∈ l.filterMap (TraversalEvent.queuedDir fs), ident d ∈ v.world.dirHasBeenVisited

theorem queuedDirs_eq_nil (h : ∀ d e, .queued d e ∉ l) :
    l.filterMap (TraversalEvent.queuedDir fs) = [] := by
  refine List.filterMap_eq_nil_iff.mpr fun event hevent => ?_
  cases event with
  | queued d e => exact absurd hevent (h d e)
  | _ => rfl

theorem QueuedOnce.step (hfollow : t.followSymlinks = true) (h : QueuedOnce fs ident root v l)
    (hmove : TraversalMove t fs v l' v') (hlists : ListsTarget t fs ident root v v') :
    QueuedOnce fs ident root v' (l ++ l') := by
  rcases hmove.queued_cases with ⟨hnone, hvisited⟩ |
    ⟨dse, d, e, statbuf, f, hhandles, haction, hnew, rfl, hvisited⟩
  · have hsame : (l ++ l').filterMap (TraversalEvent.queuedDir fs) =
        l.filterMap (TraversalEvent.queuedDir fs) := by
      rw [List.filterMap_append, queuedDirs_eq_nil hnone, List.append_nil]
    exact ⟨by rw [hsame]; exact h.nodup, by rw [hsame, hvisited]; exact h.visited⟩
  · have hmono : ∀ d ∈ l.filterMap (TraversalEvent.queuedDir fs),
        ident d ∈ v'.world.dirHasBeenVisited := by
      intro d hd
      rw [hvisited]
      exact List.mem_insert_of_mem (h.visited d hd)
    cases hopen : fs.opendirat d e.dName with
    | none =>
      have hsame : (l ++ [TraversalEvent.queued d e]).filterMap (TraversalEvent.queuedDir fs) =
          l.filterMap (TraversalEvent.queuedDir fs) := by
        simp [TraversalEvent.queuedDir, hopen]
      exact ⟨by rw [hsame]; exact h.nodup, by rw [hsame]; exact hmono⟩
    | some d' =>
      have hmore : (l ++ [TraversalEvent.queued d e]).filterMap (TraversalEvent.queuedDir fs) =
          l.filterMap (TraversalEvent.queuedDir fs) ++ [d'] := by
        simp [TraversalEvent.queuedDir, hopen]
      obtain ⟨hkey, hroot⟩ := hlists dse d e hhandles ⟨statbuf, f, haction⟩ d' hopen
      have hident := loaded_uniqueFileIdentifier hfollow haction hkey
      rw [hident] at hnew hvisited
      have hd' : d' ∉ l.filterMap (TraversalEvent.queuedDir fs) := fun hd' => hnew (h.visited d' hd')
      refine ⟨?_, fun c hc => ?_⟩
      · rw [hmore, ← List.cons_append]
        refine List.nodup_append.mpr ⟨h.nodup, List.nodup_singleton d', fun a ha b hb hab => ?_⟩
        rw [List.mem_singleton.mp hb] at hab
        subst hab
        exact (List.mem_cons.mp ha).elim hroot hd'
      · rw [hmore] at hc
        rcases List.mem_append.mp hc with hc | hc
        · exact hmono c hc
        · rw [List.mem_singleton.mp hc, hvisited]
          exact List.mem_insert_self

theorem scandirPaths_singleton (hgraph : IsGraph fs ident) {p : Bytes}
    (hroot : fs.opendir (cleanUpPath p) = some root) :
    (scandirPaths fs [p]).1.filterMap FileID.dir = [root] := by
  obtain ⟨st, hst, hident⟩ := hgraph.opendir.mp hroot
  have htype := FileID.ofPath_fileType hst
  rw [hgraph.stat_dir hst hident] at htype
  simp [scandirPaths, htype, FileMode.fileType, FileID.ofPath_dir, hroot]

theorem mem_readDirs {d : D} : d ∈ l.filterMap TraversalEvent.readDir ↔ .read d ∈ l := by
  rw [List.mem_filterMap]
  refine ⟨fun ⟨event, hevent, hd⟩ => ?_, fun h => ⟨.read d, h, rfl⟩⟩
  cases event with
  | read c => rwa [← Option.some.inj hd]
  | _ => cases hd

theorem mem_readEntries {d : D} {e : Dirent} :
    (d, e) ∈ l.flatMap (TraversalEvent.readEntries fs) ↔ .read d ∈ l ∧ e ∈ fs.readdir d := by
  rw [List.mem_flatMap]
  constructor
  · intro ⟨event, hevent, he⟩
    cases event with
    | read c =>
      obtain ⟨e', he', heq⟩ := List.mem_map.mp he
      cases heq
      exact ⟨hevent, he'⟩
    | _ => simp [TraversalEvent.readEntries] at he
  · intro ⟨hread, he⟩
    exact ⟨.read d, hread, List.mem_map.mpr ⟨e, he, rfl⟩⟩

theorem nodup_readEntries (hgraph : IsGraph fs ident)
    (hnodup : (l.filterMap TraversalEvent.readDir).Nodup) :
    ((l.flatMap (TraversalEvent.readEntries fs)).map fun (d, e) => (d, e.dName)).Nodup := by
  induction l with
  | nil => simp
  | cons event l ih =>
    cases event with
    | read d =>
      obtain ⟨hd, hnodup⟩ := List.nodup_cons.mp hnodup
      rw [List.flatMap_cons, List.map_append]
      refine List.nodup_append.mpr ⟨?_, ih hnodup, ?_⟩
      · have hnames := (hgraph.nodup_names d).map (Prod.mk_right_injective d)
        simpa [TraversalEvent.readEntries, comp_def] using hnames
      · intro a ha b hb hab
        subst hab
        obtain ⟨⟨c, e⟩, hentry, rfl⟩ := List.mem_map.mp hb
        obtain ⟨⟨c', e'⟩, hentry', heq⟩ := List.mem_map.mp ha
        obtain ⟨e'', _, heq'⟩ := List.mem_map.mp hentry'
        cases heq'
        cases (Prod.mk.inj heq).1
        exact hd (mem_readDirs.mpr (mem_readEntries.mp hentry).1)
    | queued d e => exact ih hnodup
    | file d e => exact ih hnodup

section Scandir

variable {p : Bytes} {C : TraversalView n D → TraversalView n D → Prop}
  {s s' : PoolState n (FileID D) (ReaddirState D) (TraversalState D)}

theorem TraversalRun.queuedOnce (hfollow : t.followSymlinks = true)
    (h : TraversalRun t fs [p] (ListsTarget t fs ident root) s l) :
    QueuedOnce fs ident root s.view l :=
  h.invariant hfollow ⟨by simp, by simp⟩ fun _ _ _ _ hv hmove hlists => hv.step hfollow hmove hlists

/-- From one start directory, as long as the entries list the inode numbers of what they lead
to: no directory is read twice, no file of one is queued twice, and the identifier of a
directory is its own. -/
theorem readsEachDirOnce (hfollow : t.followSymlinks = true) (hgraph : IsGraph fs ident)
    (hroot : fs.opendir (cleanUpPath p) = some root)
    (h : TraversalRun t fs [p] (ListsTarget t fs ident root) s l) :
    (l.filterMap TraversalEvent.readDir).Nodup ∧
      ((l.filterMap TraversalEvent.fileEntry).map fun (d, e) => (d, e.dName)).Nodup ∧
      ∀ event s', PoolStep (t.readdirLoop fs) False s event s' →
        ListsTarget t fs ident root s.view s'.view → ∀ dse d e, s.view.Handles s'.view dse d e →
        ∀ statbuf f d', t.processDirent fs dse d e statbuf = .dir f → f.dir = some d' →
          (f.loadUniqueFileIdentifier fs d e.dName).uniqueFileIdentifier = ident d' := by
  have hdirs := h.dirs_balance hfollow
  rw [scandirPaths_singleton hgraph hroot, Multiset.coe_add, List.singleton_append] at hdirs
  have hnodup : (l.filterMap TraversalEvent.readDir).Nodup := by
    rw [← Multiset.coe_nodup]
    refine Multiset.nodup_of_le (Multiset.le_add_right _ s.view.pendingDirs) ?_
    rw [hdirs]
    exact (h.queuedOnce hfollow).nodup
  refine ⟨hnodup, ?_, fun _ _ _ hlists dse d e hhandles statbuf f d' haction hdir => ?_⟩
  · have hle := (Multiset.le_add_right _ s.view.pendingEntries).trans (h.entries_balance hfollow)
    have hentries := nodup_readEntries hgraph hnodup
    rw [← Multiset.coe_nodup, ← Multiset.map_coe] at hentries ⊢
    exact Multiset.nodup_of_le (Multiset.map_le_map hle) hentries
  · have hopen : fs.opendirat d e.dName = some d' := by
      obtain ⟨_, rfl, _⟩ := processDirent_eq_dir hfollow haction
      rwa [FileID.ofEntry_dir] at hdir
    exact loaded_uniqueFileIdentifier hfollow haction
      (hlists dse d e hhandles ⟨statbuf, f, haction⟩ d' hopen).1

/-- A directory with the file `c` and an entry `l` for itself or for an empty directory. -/
def linkTo (target : Bool) (dType : DType) (dIno : Nat) : FileSystem Bool where
  stat _ := some ⟨.dir, 1, 1⟩
  opendir _ := some false
  readdir d := if d then [] else [⟨[99], .reg, 3⟩, ⟨[108], dType, dIno⟩]
  fstatat d name _ :=
    if d then none
    else if name = [99] then some ⟨.reg, 1, 3⟩
    else if name = [108] then some ⟨.dir, 1, if target then 2 else 1⟩
    else none
  opendirat d name := if !d ∧ name = [108] then some target else none

def linkToIdent (d : Bool) : DevIno := ⟨1, if d then 2 else 1⟩

theorem linkTo_isGraph (target : Bool) {dType : DType} (dIno : Nat)
    (htype : dType = .dir ∨ dType = .lnk ∨ dType = .unknown) :
    IsGraph (linkTo target dType dIno) linkToIdent where
  ident_injective := by decide
  opendir {path d} := by cases d <;> simp [linkTo, linkToIdent, Stat.devIno]
  stat_dir {path st d} hst _ := by cases hst; rfl
  opendirat {d d' name} := by
    cases d with
    | true => simp [linkTo]
    | false =>
      by_cases hc : name = [99]
      · cases d' <;> simp [linkTo, linkToIdent, Stat.devIno, hc]
      · by_cases hl : name = [108]
        · cases d' <;> cases target <;> simp [linkTo, linkToIdent, Stat.devIno, hl]
        · simp [linkTo, hc, hl]
  fstatat_dir {d d' name st} hst hident := by
    cases d with
    | true => simp [linkTo] at hst
    | false =>
      by_cases hc : name = [99]
      · simp only [linkTo, hc] at hst
        cases hst
        cases d' <;> simp [linkToIdent, Stat.devIno] at hident
      · by_cases hl : name = [108]
        · simp only [linkTo, hl] at hst
          cases hst
          rfl
        · simp [linkTo, hc, hl] at hst
  dType {d d' e} he hopen := by
    cases d with
    | true => simp [linkTo] at he
    | false =>
      rcases List.mem_pair.mp he with rfl | rfl
      · simp [linkTo] at hopen
      · exact htype
  nodup_names d := by cases d <;> simp [linkTo]

def followAll : DirTree := ⟨true, true, fun _ => true, fun _ => false⟩

theorem readsEachDirOnce_linkTo :
    ∃ l : List (TraversalEvent Bool), (l.filterMap TraversalEvent.readDir).Nodup ∧
      l = [.read false, .file false ⟨[99], .reg, 3⟩, .queued false ⟨[108], .dir, 2⟩] := by
  have hstart : TraversalRun (n := 1) followAll (linkTo true .dir 2) [[100]]
      (ListsTarget followAll (linkTo true .dir 2) linkToIdent false) _ [] := .start rfl
  have hread := hstart.next (.pullFront 0 rfl) (by
    rintro dse d e ⟨i, entries, files, hi, _⟩
    cases hi)
  have hfile := hread.next (.work 0 rfl ⟨⟨.other, 0, 0⟩, rfl⟩) (by
    rintro dse d e ⟨i, entries, files, hi, _⟩ _ d' hopen
    obtain rfl := Subsingleton.elim i 0
    cases hi
    cases hopen)
  have hqueued := hfile.next (.work 0 rfl ⟨⟨.other, 0, 0⟩, rfl⟩) (by
    rintro dse d e ⟨i, entries, files, hi, _⟩ _ d' hopen
    obtain rfl := Subsingleton.elim i 0
    cases hi
    cases hopen
    exact ⟨rfl, by decide⟩)
  have hgraph := linkTo_isGraph true 2 (.inl rfl : DType.dir = .dir ∨ _)
  exact ⟨_, (readsEachDirOnce rfl hgraph rfl hqueued).1, rfl⟩

/-- A symlink to the start directory lists its own inode number: the directory is read again,
and its file is queued again. -/
theorem not_readsEachDirOnce_linkTo :
    IsGraph (linkTo false .lnk 5) linkToIdent ∧
    ∃ (s : PoolState 1 _ _ _) (l : List (TraversalEvent Bool)),
      TraversalRun followAll (linkTo false .lnk 5) [[100]] (fun _ _ => True) s l ∧
      ¬ (l.filterMap TraversalEvent.readDir).Nodup ∧
      ¬ ((l.filterMap TraversalEvent.fileEntry).map fun (d, e) => (d, e.dName)).Nodup := by
  refine ⟨linkTo_isGraph false 5 (.inr (.inl rfl)), ?_⟩
  have hstart : TraversalRun (n := 1) followAll (linkTo false .lnk 5) [[100]] (fun _ _ => True) _ [] :=
    .start rfl
  have hread := hstart.next (.pullFront 0 rfl) trivial
  have hfile := hread.next (.work 0 rfl ⟨⟨.other, 0, 0⟩, rfl⟩) trivial
  have hqueued := hfile.next (.work 0 rfl ⟨⟨.other, 0, 0⟩, rfl⟩) trivial
  have hpushed := hqueued.next (.push 0 rfl rfl) trivial
  have hnotified := hpushed.next (.notify 0 rfl (.none fun i => by simp [Subsingleton.elim i 0])) trivial
  have hflushed := (hnotified.next (.work 0 rfl rfl) trivial).next (.finish 0 rfl rfl) trivial
  have hagain := hflushed.next (.pullFront 0 rfl) trivial
  have hfileAgain := hagain.next (.work 0 rfl ⟨⟨.other, 0, 0⟩, rfl⟩) trivial
  have hreads : [false, false].Nodup → False := by decide
  have hfiles : [(false, ([99] : Bytes)), (false, [99])].Nodup → False := by decide
  exact ⟨_, _, hfileAgain, hreads, hfiles⟩

end Scandir

end Ucg
