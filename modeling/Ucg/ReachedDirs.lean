import Mathlib.Tactic.FinCases
import Ucg.VisitedDirs

/-! A traversal that follows symlinks reads every directory it can reach where no two
directories share a key, and misses one behind a mount point that shares an inode number. -/

namespace Ucg

open Transition Function

variable {D : Type*} {n : Nat} {t : DirTree} {fs : FileSystem D} {ident : D → DevIno}
  {standsFor : DevIno → Option DevIno} {v v' : TraversalView n D} {l l' : List (TraversalEvent D)}

/-- An entry that is not excluded leads from a directory to another. -/
structure Leads (t : DirTree) (fs : FileSystem D) (d : D) (e : Dirent) (d' : D) : Prop where
  mem : e ∈ fs.readdir d
  notDot : isDotDir e.dName = false
  recurse : t.recurse = true
  notFiltered : t.dirBasenameFilter e.dName = false
  opendirat : fs.opendirat d e.dName = some d'

inductive ReachedDir (t : DirTree) (fs : FileSystem D) (startPaths : List Bytes) : D → Prop
  | start {p : Bytes} {d : D} (hp : p ∈ startPaths) (h : fs.opendir (cleanUpPath p) = some d) :
    ReachedDir t fs startPaths d
  | entry {d d' : D} {e : Dirent} (h : ReachedDir t fs startPaths d) (he : Leads t fs d e d') :
    ReachedDir t fs startPaths d'

/-- The key of an entry that is dealt with stands for what the entry leads to. -/
def KeyStandsFor (t : DirTree) (fs : FileSystem D) (standsFor : DevIno → Option DevIno)
    (v v' : TraversalView n D) : Prop :=
  ∀ dse d e, v.Handles v' dse d e → t.IsDirEntry fs dse d e →
    ∃ k, entryKey fs dse d e = some k ∧ standsFor k = fs.entryIdent d e

/-- Each key in the set was that of an entry whose directory was queued. -/
def VisitedQueued (fs : FileSystem D) (standsFor : DevIno → Option DevIno) (v : TraversalView n D)
    (l : List (TraversalEvent D)) : Prop :=
  ∀ k ∈ v.world.dirHasBeenVisited, ∃ d e, .queued d e ∈ l ∧ fs.entryIdent d e = standsFor k

theorem VisitedQueued.step (hfollow : t.followSymlinks = true) (h : VisitedQueued fs standsFor v l)
    (hmove : TraversalMove t fs v l' v') (hkeys : KeyStandsFor t fs standsFor v v') :
    VisitedQueued fs standsFor v' (l ++ l') := by
  intro k hk
  have hold : k ∈ v.world.dirHasBeenVisited →
      ∃ d e, .queued d e ∈ l ++ l' ∧ fs.entryIdent d e = standsFor k := by
    intro hk
    obtain ⟨d, e, hmem, hident⟩ := h k hk
    exact ⟨d, e, List.mem_append_left _ hmem, hident⟩
  rcases hmove.queued_cases with ⟨_, hvisited⟩ |
    ⟨dse, d, e, statbuf, f, hhandles, haction, _, rfl, hvisited⟩
  · rw [hvisited] at hk
    exact hold hk
  · obtain ⟨k', hkey, hstands⟩ := hkeys dse d e hhandles ⟨statbuf, f, haction⟩
    rw [hvisited, loaded_uniqueFileIdentifier hfollow haction hkey] at hk
    rcases List.mem_insert_iff.mp hk with rfl | hk
    · exact ⟨d, e, List.mem_append_right _ (List.mem_singleton_self _), hstands.symm⟩
    · exact hold hk

theorem VisitedQueued.of_rejected (hfollow : t.followSymlinks = true)
    (h : VisitedQueued fs standsFor v l) (hkeys : KeyStandsFor t fs standsFor v v') {dse f : FileID D}
    {d : D} {e : Dirent} {statbuf : Stat} (hhandles : v.Handles v' dse d e)
    (haction : t.processDirent fs dse d e statbuf = .dir f)
    (hvisited : (f.loadUniqueFileIdentifier fs d e.dName).uniqueFileIdentifier ∈
      v.world.dirHasBeenVisited) :
    ∃ d₀ e₀, .queued d₀ e₀ ∈ l ∧ fs.entryIdent d₀ e₀ = fs.entryIdent d e := by
  obtain ⟨k, hkey, hstands⟩ := hkeys dse d e hhandles ⟨statbuf, f, haction⟩
  rw [loaded_uniqueFileIdentifier hfollow haction hkey] at hvisited
  rw [← hstands]
  exact h k hvisited

theorem IsGraph.opendirat_iff (hgraph : IsGraph fs ident) {d d' : D} {e : Dirent} :
    fs.opendirat d e.dName = some d' ↔ fs.entryIdent d e = some (ident d') := by
  rw [hgraph.opendirat, FileSystem.entryIdent, Option.map_eq_some_iff]

theorem mem_queuedDirs {d : D} : d ∈ l.filterMap (TraversalEvent.queuedDir fs) ↔
    ∃ d₀ e₀, .queued d₀ e₀ ∈ l ∧ fs.opendirat d₀ e₀.dName = some d := by
  rw [List.mem_filterMap]
  constructor
  · intro ⟨event, hevent, hd⟩
    cases event with
    | queued d₀ e₀ => exact ⟨d₀, e₀, hevent, hd⟩
    | _ => cases hd
  · intro ⟨d₀, e₀, hevent, hd⟩
    exact ⟨.queued d₀ e₀, hevent, hd⟩

theorem Leads.isDirEntry (hgraph : IsGraph fs ident) (hfollow : t.followSymlinks = true) {d d' : D}
    {e : Dirent} (h : Leads t fs d e d') (dse : FileID D) (statbuf : Stat) :
    ∃ f, t.processDirent fs dse d e statbuf = .dir f := by
  obtain ⟨st, hst, hident⟩ := hgraph.opendirat.mp h.opendirat
  have hdir := hgraph.fstatat_dir hst hident
  rcases hgraph.dType h.mem h.opendirat with htype | htype | htype <;>
    simp [DirTree.processDirent, DirTree.queueDirent, htype, h.notDot, h.recurse, h.notFiltered, hfollow,
      hst, hdir]

/-- What a directory that was read lists waits to be dealt with, or was queued. -/
def Closed (t : DirTree) (fs : FileSystem D) (v : TraversalView n D) (l : List (TraversalEvent D)) :
    Prop :=
  ∀ d e d', .read d ∈ l → Leads t fs d e d' →
    (d, e) ∈ v.pendingEntries ∨ d' ∈ l.filterMap (TraversalEvent.queuedDir fs)

theorem Closed.step (hgraph : IsGraph fs ident) (hfollow : t.followSymlinks = true)
    (h : Closed t fs v l) (hvisited : VisitedQueued fs standsFor v l)
    (hmove : TraversalMove t fs v l' v') (hkeys : KeyStandsFor t fs standsFor v v') :
    Closed t fs v' (l ++ l') := by
  intro d e d' hread hleads
  have hqueued : d' ∈ l.filterMap (TraversalEvent.queuedDir fs) →
      d' ∈ (l ++ l').filterMap (TraversalEvent.queuedDir fs) := by
    intro hd'
    rw [List.filterMap_append]
    exact List.mem_append_left _ hd'
  have hbefore : (d, e) ∈ v.pendingEntries + ↑(l'.flatMap (TraversalEvent.readEntries fs)) ∨
      d' ∈ l.filterMap (TraversalEvent.queuedDir fs) := by
    rcases List.mem_append.mp hread with hread | hread
    · exact (h d e d' hread hleads).imp_left fun hmem => Multiset.mem_add.mpr (Or.inl hmem)
    · have hmem := mem_readEntries.mpr ⟨hread, hleads.mem⟩
      exact Or.inl (Multiset.mem_add.mpr (Or.inr hmem))
  rcases hbefore with hmem | hd'
  · rcases hmove.entries_cases with ⟨hpending, _⟩ | ⟨dse, d₀, e₀, statbuf, hhandles, hpending, hcases⟩
    · exact Or.inl (hpending ▸ hmem)
    · have hempty : l'.flatMap (TraversalEvent.readEntries fs) = [] := by
        rcases hcases with ⟨rfl, _⟩ | ⟨rfl, _⟩ | ⟨rfl, _⟩ | ⟨rfl, _⟩ <;> rfl
      rw [hempty, Multiset.coe_nil, add_zero, hpending] at hmem
      rcases Multiset.mem_cons.mp hmem with heq | hmem
      · cases heq
        right
        obtain ⟨f, haction⟩ := hleads.isDirEntry hgraph hfollow dse statbuf
        rw [haction] at hcases
        rcases hcases with ⟨_, hnot⟩ | ⟨rfl, f', hf', hin⟩ | ⟨_, _, hnot⟩ | ⟨rfl, _⟩
        · cases hnot
        · cases hf'
          obtain ⟨d₀, e₀, hmem, hident⟩ := hvisited.of_rejected hfollow hkeys hhandles haction hin
          rw [hgraph.opendirat_iff.mp hleads.opendirat] at hident
          exact hqueued (mem_queuedDirs.mpr ⟨d₀, e₀, hmem, hgraph.opendirat_iff.mpr hident⟩)
        · cases hnot
        · simp [TraversalEvent.queuedDir, hleads.opendirat]
      · exact Or.inl hmem
  · exact Or.inr (hqueued hd')

section Scandir

variable {startPaths : List Bytes}
  {s s' : PoolState n (FileID D) (ReaddirState D) (TraversalState D)}

theorem TraversalRun.visitedQueued (hfollow : t.followSymlinks = true)
    (h : TraversalRun t fs startPaths (KeyStandsFor t fs standsFor) s l) :
    VisitedQueued fs standsFor s.view l :=
  h.invariant hfollow (I := VisitedQueued fs standsFor) (fun _ hk => absurd hk List.not_mem_nil)
    fun _ _ _ _ hv hmove hkeys => hv.step hfollow hmove hkeys

theorem TraversalRun.closed (hgraph : IsGraph fs ident) (hfollow : t.followSymlinks = true)
    (h : TraversalRun t fs startPaths (KeyStandsFor t fs standsFor) s l) : Closed t fs s.view l := by
  have hboth : VisitedQueued fs standsFor s.view l ∧ Closed t fs s.view l :=
    h.invariant hfollow (I := fun v l => VisitedQueued fs standsFor v l ∧ Closed t fs v l)
      ⟨fun _ hk => absurd hk List.not_mem_nil, fun _ _ _ hread => absurd hread List.not_mem_nil⟩
      fun _ _ _ _ hv hmove hkeys =>
        ⟨hv.1.step hfollow hmove hkeys, hv.2.step hgraph hfollow hv.1 hmove hkeys⟩
  exact hboth.2

theorem mem_scandirPaths (hgraph : IsGraph fs ident) {p : Bytes} {d : D} (hp : p ∈ startPaths)
    (hopen : fs.opendir (cleanUpPath p) = some d) :
    d ∈ (scandirPaths fs startPaths).1.filterMap FileID.dir := by
  induction startPaths with
  | nil => cases hp
  | cons q startPaths ih =>
    rcases List.mem_cons.mp hp with rfl | hp
    · obtain ⟨st, hst, hident⟩ := hgraph.opendir.mp hopen
      have htype := FileID.ofPath_fileType hst
      rw [hgraph.stat_dir hst hident] at htype
      simp [scandirPaths, htype, FileMode.fileType, FileID.ofPath_dir, hopen]
    · have hd := ih hp
      cases htype : (FileID.ofPath fs (cleanUpPath q)).fileType with
      | dir =>
        simp only [scandirPaths, htype]
        exact ((List.sublist_cons_self ..).filterMap FileID.dir).subset hd
      | _ =>
        simp only [scandirPaths, htype]
        exact hd

theorem TraversalRun.read_of_queued {C : TraversalView n D → TraversalView n D → Prop}
    (hfollow : t.followSymlinks = true) (h : TraversalRun t fs startPaths C s l)
    (hm : s.master.HasWaited) {d : D}
    (hd : d ∈ (scandirPaths fs startPaths).1.filterMap FileID.dir ∨
      d ∈ l.filterMap (TraversalEvent.queuedDir fs)) : .read d ∈ l := by
  obtain ⟨hitems, hhands⟩ := h.quiet.view hm
  have hpending : s.view.pendingDirs = 0 := by
    simp [PoolView.pendingDirs, hitems, hhands, handDirs]
  have hbalance := h.dirs_balance hfollow
  rw [hpending, add_zero] at hbalance
  rw [← mem_readDirs, ← Multiset.mem_coe, hbalance]
  exact Multiset.mem_add.mpr hd

/-- As long as no two directories share a key: an entry is only rejected when one that leads to
the same was queued before, and when `Scandir` returns every directory that can be reached was
read. -/
theorem readsEveryDir (hfollow : t.followSymlinks = true) (hgraph : IsGraph fs ident)
    (h : TraversalRun t fs startPaths (KeyStandsFor t fs standsFor) s l) :
    (∀ event s', PoolStep (t.readdirLoop fs) False s event s' →
      KeyStandsFor t fs standsFor s.view s'.view → ∀ dse d e, s.view.Handles s'.view dse d e →
      ∀ statbuf f, t.processDirent fs dse d e statbuf = .dir f →
        (f.loadUniqueFileIdentifier fs d e.dName).uniqueFileIdentifier ∈ s.world.dirHasBeenVisited →
        ∃ d₀ e₀, .queued d₀ e₀ ∈ l ∧ fs.entryIdent d₀ e₀ = fs.entryIdent d e) ∧
      (s.master = .joined → ∀ d, ReachedDir t fs startPaths d → .read d ∈ l) := by
  refine ⟨fun _ _ _ hkeys dse d e hhandles statbuf f haction hvisited =>
    (h.visitedQueued hfollow).of_rejected hfollow hkeys hhandles haction hvisited, fun hm d hd => ?_⟩
  have hwaited : s.master.HasWaited := by
    rw [hm]
    trivial
  have hpending : s.view.pendingEntries = 0 := by
    simp [PoolView.pendingEntries, (h.quiet.view hwaited).2]
  induction hd with
  | start hp hopen =>
    exact h.read_of_queued hfollow hwaited (Or.inl (mem_scandirPaths hgraph hp hopen))
  | @entry d d' e _ hleads hread =>
    rcases h.closed hgraph hfollow d e d' hread hleads with hmem | hqueued
    · rw [hpending] at hmem
      simp at hmem
    · exact h.read_of_queued hfollow hwaited (Or.inr hqueued)

theorem keyStandsFor_of_hand {v v' : TraversalView 1 D} (h : handEntries (v.hands 0) = 0) :
    KeyStandsFor t fs standsFor v v' := by
  rintro dse d e ⟨i, entries, files, hi, _⟩
  rw [Subsingleton.elim 0 i, hi] at h
  simp [ReaddirState.remaining] at h

theorem readsEveryDir_linkTo :
    ∃ l : List (TraversalEvent Bool),
      ∀ d, ReachedDir followAll (linkTo true .dir 2) [[100]] d → .read d ∈ l := by
  have hgraph := linkTo_isGraph true 2 (.inl rfl : DType.dir = .dir ∨ _)
  have hstart : TraversalRun (n := 1) followAll (linkTo true .dir 2) [[100]]
      (KeyStandsFor followAll (linkTo true .dir 2) some) _ [] := .start rfl
  have hread := hstart.next (.pullFront 0 rfl) (keyStandsFor_of_hand rfl)
  have hfile := hread.next (.work 0 rfl ⟨⟨.other, 0, 0⟩, rfl⟩) (by
    rintro dse d e ⟨i, entries, files, hi, _⟩ _
    obtain rfl := Subsingleton.elim i 0
    cases hi
    exact ⟨_, rfl, rfl⟩)
  have hqueued := hfile.next (.work 0 rfl ⟨⟨.other, 0, 0⟩, rfl⟩) (by
    rintro dse d e ⟨i, entries, files, hi, _⟩ _
    obtain rfl := Subsingleton.elim i 0
    cases hi
    exact ⟨_, rfl, rfl⟩)
  have hpushed := hqueued.next (.push 0 rfl rfl) (keyStandsFor_of_hand rfl)
  have hnotified := hpushed.next (.notify 0 rfl (.none fun i => by simp [Subsingleton.elim i 0]))
    (keyStandsFor_of_hand rfl)
  have hflushed := hnotified.next (.work 0 rfl rfl) (keyStandsFor_of_hand rfl)
  have hsecond := (hflushed.next (.finish 0 rfl rfl) (keyStandsFor_of_hand rfl)).next
    (.pullFront 0 rfl) (keyStandsFor_of_hand rfl)
  have hasleep := (hsecond.next (.finish 0 rfl rfl) (keyStandsFor_of_hand rfl)).next
    (.pullFront 0 rfl) (keyStandsFor_of_hand rfl)
  have hclosed := (hasleep.next (.masterWait rfl) (keyStandsFor_of_hand rfl)).next
    (.close rfl) (keyStandsFor_of_hand rfl)
  have hexited := (hclosed.next (.closeNotify rfl) (keyStandsFor_of_hand rfl)).next
    (.reacquire 0 rfl) (keyStandsFor_of_hand rfl)
  have hjoined := hexited.next (.join rfl fun i => by rw [Subsingleton.elim i 0]; rfl)
    (keyStandsFor_of_hand rfl)
  exact ⟨_, (readsEveryDir rfl hgraph hjoined).2 rfl⟩

/-- A directory with the directory `a`, whose inode number is 7, and the mount point `m`. In
the file system there the directory `x` has the inode number 7 as well. -/
def mountedFileSystem : FileSystem (Fin 4) where
  stat _ := some ⟨.dir, 1, 1⟩
  opendir _ := some 0
  readdir
    | 0 => [⟨[97], .dir, 7⟩, ⟨[109], .dir, 8⟩]
    | 2 => [⟨[120], .dir, 7⟩]
    | _ => []
  fstatat d name _ :=
    if d = 0 ∧ name = [97] then some ⟨.dir, 1, 7⟩
    else if d = 0 ∧ name = [109] then some ⟨.dir, 2, 1⟩
    else if d = 2 ∧ name = [120] then some ⟨.dir, 2, 7⟩
    else none
  opendirat d name :=
    if d = 0 ∧ name = [97] then some 1
    else if d = 0 ∧ name = [109] then some 2
    else if d = 2 ∧ name = [120] then some 3
    else none

def mountedIdent : Fin 4 → DevIno
  | 0 => ⟨1, 1⟩
  | 1 => ⟨1, 7⟩
  | 2 => ⟨2, 1⟩
  | 3 => ⟨2, 7⟩

theorem mountedFileSystem_isGraph : IsGraph mountedFileSystem mountedIdent where
  ident_injective := by decide
  opendir {path d} := by fin_cases d <;> simp [mountedFileSystem, mountedIdent, Stat.devIno]
  stat_dir {path st d} hst _ := by cases hst; rfl
  opendirat {d d' name} := by
    simp only [mountedFileSystem]
    split_ifs <;> fin_cases d' <;> simp [mountedIdent, Stat.devIno]
  fstatat_dir {d d' name st} hst _ := by
    simp only [mountedFileSystem] at hst
    split_ifs at hst <;> cases hst <;> rfl
  dType {d d' e} he _ := by
    fin_cases d
    · rcases List.mem_pair.mp he with rfl | rfl <;> exact Or.inl rfl
    · cases he
    · cases List.mem_singleton.mp he
      exact Or.inl rfl
    · cases he
  nodup_names d := by fin_cases d <;> simp [mountedFileSystem]

/-- The directory `x` behind the mount point is taken for `a` and is never read. -/
theorem not_readsEveryDir_mounted :
    IsGraph mountedFileSystem mountedIdent ∧
    ∃ (s : PoolState 1 _ _ _) (l : List (TraversalEvent (Fin 4))),
      TraversalRun followAll mountedFileSystem [[100]] (fun _ _ => True) s l ∧
      s.master = .joined ∧ ReachedDir followAll mountedFileSystem [[100]] 3 ∧ .read 3 ∉ l := by
  refine ⟨mountedFileSystem_isGraph, ?_⟩
  have hreached : ReachedDir followAll mountedFileSystem [[100]] 3 := by
    have hroot : ReachedDir followAll mountedFileSystem [[100]] 0 := .start (p := [100]) (by simp) rfl
    have hmount : ReachedDir followAll mountedFileSystem [[100]] 2 :=
      hroot.entry (e := ⟨[109], .dir, 8⟩) ⟨by simp [mountedFileSystem], rfl, rfl, rfl, rfl⟩
    exact hmount.entry (e := ⟨[120], .dir, 7⟩) ⟨by simp [mountedFileSystem], rfl, rfl, rfl, rfl⟩
  have hstart : TraversalRun (n := 1) followAll mountedFileSystem [[100]] (fun _ _ => True) _ [] :=
    .start rfl
  have hread := hstart.next (.pullFront 0 rfl) trivial
  have hqueueA := hread.next (.work 0 rfl ⟨⟨.other, 0, 0⟩, rfl⟩) trivial
  have hpushA := (hqueueA.next (.push 0 rfl rfl) trivial).next
    (.notify 0 rfl (.none fun i => by simp [Subsingleton.elim i 0])) trivial
  have hqueueM := hpushA.next (.work 0 rfl ⟨⟨.other, 0, 0⟩, rfl⟩) trivial
  have hpushM := (hqueueM.next (.push 0 rfl rfl) trivial).next
    (.notify 0 rfl (.none fun i => by simp [Subsingleton.elim i 0])) trivial
  have hreadA := (hpushM.next (.finish 0 rfl rfl) trivial).next (.pullFront 0 rfl) trivial
  have hreadM := (hreadA.next (.finish 0 rfl rfl) trivial).next (.pullFront 0 rfl) trivial
  have hrejectX := hreadM.next (.work 0 rfl ⟨⟨.other, 0, 0⟩, rfl⟩) trivial
  have hasleep := (hrejectX.next (.finish 0 rfl rfl) trivial).next (.pullFront 0 rfl) trivial
  have hclosed := (hasleep.next (.masterWait rfl) trivial).next (.close rfl) trivial
  have hexited := (hclosed.next (.closeNotify rfl) trivial).next (.reacquire 0 rfl) trivial
  have hjoined := hexited.next (.join rfl fun i => by rw [Subsingleton.elim i 0]; rfl) trivial
  have hmissing : (TraversalEvent.read 3 : TraversalEvent (Fin 4)) ∉
      [.read 0, .queued 0 ⟨[97], .dir, 7⟩, .queued 0 ⟨[109], .dir, 8⟩, .read 1, .read 2] := by
    decide
  exact ⟨_, _, hjoined, rfl, hreached, hmissing⟩

end Scandir

end Ucg
