import Mathlib.Data.Finite.Prod
import Mathlib.Data.Set.Finite.Lattice
import Ucg.VisitedDirs

/-! A traversal that follows symlinks pushes finitely many directories: each takes a key of its
own, and there are finitely many keys. -/

namespace Ucg

open Transition Function

variable {D : Type*} {n : Nat} {t : DirTree} {fs : FileSystem D} {startPaths : List Bytes}
  {v v' : TraversalView n D}

/-- What may come to the queue of directories: the start paths that are directories, and the
entries of what is in the queue. -/
inductive MayBeQueued (t : DirTree) (fs : FileSystem D) (startPaths : List Bytes) : FileID D → Prop
  | start {f : FileID D} (h : f ∈ (scandirPaths fs startPaths).1) : MayBeQueued t fs startPaths f
  | entry {dse f : FileID D} {d : D} {e : Dirent} {statbuf : Stat}
    (hdse : MayBeQueued t fs startPaths dse) (hdir : dse.dir = some d) (he : e ∈ fs.readdir d)
    (h : t.processDirent fs dse d e statbuf = .dir f) :
    MayBeQueued t fs startPaths (f.loadUniqueFileIdentifier fs d e.dName)

/-- The identifiers that `ProcessDirent` can look up among the visited directories. -/
inductive IsKey (t : DirTree) (fs : FileSystem D) (startPaths : List Bytes) : DevIno → Prop
  | entry {dse f : FileID D} {d : D} {e : Dirent} {statbuf : Stat}
    (hdse : MayBeQueued t fs startPaths dse) (hdir : dse.dir = some d) (he : e ∈ fs.readdir d)
    (h : t.processDirent fs dse d e statbuf = .dir f) :
    IsKey t fs startPaths (f.loadUniqueFileIdentifier fs d e.dName).uniqueFileIdentifier

/-- What a step appends to the queue of directories. -/
def PoolView.pushed (v v' : TraversalView n D) : List (FileID D) := v'.items.drop v.items.length

def handKeys (h : Option (ReaddirState D)) : Multiset DevIno :=
  ((h.bind ReaddirState.inFlight).map FileID.uniqueFileIdentifier).toList

/-- A worker reads a directory from the queue, and may be about to push an entry of it. -/
def ReaddirState.Sound (t : DirTree) (fs : FileSystem D) (startPaths : List Bytes) :
    ReaddirState D → Prop
  | .reading dse d entries _ =>
    MayBeQueued t fs startPaths dse ∧ dse.dir = some d ∧ ∀ e ∈ entries, e ∈ fs.readdir d
  | .pushing f dse d entries _ =>
    MayBeQueued t fs startPaths f ∧ MayBeQueued t fs startPaths dse ∧ dse.dir = some d ∧
      ∀ e ∈ entries, e ∈ fs.readdir d
  | .closing => True

/-- The visited set holds the key of each directory pushed or about to be pushed, once. -/
structure PushAccount (t : DirTree) (fs : FileSystem D) (startPaths : List Bytes)
    (v : TraversalView n D) (l : List (FileID D)) : Prop where
  keys : (↑(l.map FileID.uniqueFileIdentifier) + ∑ i, handKeys (v.hands i) : Multiset DevIno) =
    ↑v.world.dirHasBeenVisited
  nodup : v.world.dirHasBeenVisited.Nodup
  isKey : ∀ k ∈ v.world.dirHasBeenVisited, IsKey t fs startPaths k
  items : ∀ f ∈ v.items, MayBeQueued t fs startPaths f
  hands : ∀ i, ∀ b ∈ v.hands i, b.Sound t fs startPaths

section Steps

variable {i : Fin n} {h : Option (ReaddirState D)} {l : List (FileID D)}

theorem handKeys_of_update (pushed taken : Multiset DevIno) (hhands : v'.hands = update v.hands i h)
    (hbalance : pushed + handKeys h = handKeys (v.hands i) + taken) :
    pushed + ∑ j, handKeys (v'.hands j) = ∑ j, handKeys (v.hands j) + taken := by
  have hsum := sum_update handKeys v.hands i h
  refine add_right_cancel (b := handKeys (v.hands i)) ?_
  calc pushed + ∑ j, handKeys (v'.hands j) + handKeys (v.hands i)
    _ = pushed + handKeys h + ∑ j, handKeys (v.hands j) := by
      rw [hhands, add_assoc, hsum]
      abel
    _ = ∑ j, handKeys (v.hands j) + taken + handKeys (v.hands i) := by
      rw [hbalance]
      abel

theorem hands_of_update (hhands : v'.hands = update v.hands i h)
    (hall : ∀ j, ∀ b ∈ v.hands j, b.Sound t fs startPaths) (hh : ∀ b ∈ h, b.Sound t fs startPaths) :
    ∀ j, ∀ b ∈ v'.hands j, b.Sound t fs startPaths := by
  intro j
  rw [hhands]
  by_cases hj : j = i
  · subst hj
    rwa [update_self]
  · rw [update_of_ne hj]
    exact hall j

theorem PushAccount.of_update (hv : PushAccount t fs startPaths v l)
    (hhands : v'.hands = update v.hands i h) (hh : ∀ b ∈ h, b.Sound t fs startPaths)
    (hworld : v'.world.dirHasBeenVisited = v.world.dirHasBeenVisited)
    (hbalance : (↑((v.pushed v').map FileID.uniqueFileIdentifier) + handKeys h : Multiset DevIno) =
      handKeys (v.hands i))
    (hitems : ∀ f ∈ v'.items, MayBeQueued t fs startPaths f) :
    PushAccount t fs startPaths v' (l ++ v.pushed v') := by
  have hsum := handKeys_of_update _ _ hhands (hbalance.trans (add_zero _).symm)
  refine ⟨?_, ?_, ?_, hitems, hands_of_update hhands hv.hands hh⟩
  · rw [List.map_append, ← Multiset.coe_add, add_assoc, hsum, add_zero, hworld]
    exact hv.keys
  · rw [hworld]
    exact hv.nodup
  · rw [hworld]
    exact hv.isKey

theorem pushed_of_items_eq (hitems : v'.items = v.items) : v.pushed v' = [] := by
  rw [PoolView.pushed, hitems, List.drop_length]

theorem PushAccount.of_dealt (hv : PushAccount t fs startPaths v l) {dse : FileID D} {d : D}
    {e : Dirent} {entries : List Dirent} {files files' : List (FileID D)}
    (hi : v.hands i = some (.reading dse d (e :: entries) files))
    (hhands : v'.hands = update v.hands i (some (.reading dse d entries files')))
    (hworld : v'.world = v.world) (hitems : v'.items = v.items) :
    PushAccount t fs startPaths v' (l ++ v.pushed v') := by
  obtain ⟨hdse, hdir, hentries⟩ := hv.hands i _ hi
  refine hv.of_update hhands ?_ (by rw [hworld]) ?_ (by rw [hitems]; exact hv.items)
  · simpa [ReaddirState.Sound] using ⟨hdse, hdir, (List.forall_mem_cons.mp hentries).2⟩
  · simp [pushed_of_items_eq hitems, hi, handKeys, ReaddirState.inFlight]

theorem PushAccount.accept (hv : PushAccount t fs startPaths v l) {dse f : FileID D} {d : D}
    {e : Dirent} {entries : List Dirent} {files : List (FileID D)} {statbuf : Stat}
    (hi : v.hands i = some (.reading dse d (e :: entries) files))
    (haction : t.processDirent fs dse d e statbuf = .dir f)
    (hnew : (f.loadUniqueFileIdentifier fs d e.dName).uniqueFileIdentifier ∉
      v.world.dirHasBeenVisited)
    (hhands : v'.hands = update v.hands i
      (some (.pushing (f.loadUniqueFileIdentifier fs d e.dName) dse d entries files)))
    (hvisited : v'.world.dirHasBeenVisited = v.world.dirHasBeenVisited.insert
      (f.loadUniqueFileIdentifier fs d e.dName).uniqueFileIdentifier)
    (hitems : v'.items = v.items) : PushAccount t fs startPaths v' (l ++ v.pushed v') := by
  obtain ⟨hdse, hdir, hentries⟩ := hv.hands i _ hi
  obtain ⟨he, hentries⟩ := List.forall_mem_cons.mp hentries
  have hqueued := MayBeQueued.entry hdse hdir he haction
  have hkey := IsKey.entry hdse hdir he haction
  rw [pushed_of_items_eq hitems, List.append_nil]
  rw [List.insert_of_not_mem hnew] at hvisited
  have hsum := handKeys_of_update 0 {(f.loadUniqueFileIdentifier fs d e.dName).uniqueFileIdentifier}
    hhands (by simp [hi, handKeys, ReaddirState.inFlight])
  refine ⟨?_, ?_, ?_, by rw [hitems]; exact hv.items, hands_of_update hhands hv.hands ?_⟩
  · rw [zero_add] at hsum
    rw [hsum, ← add_assoc, hv.keys, hvisited, add_comm, Multiset.singleton_add, Multiset.cons_coe]
  · rw [hvisited]
    exact List.nodup_cons.mpr ⟨hnew, hv.nodup⟩
  · rw [hvisited]
    exact List.forall_mem_cons.mpr ⟨hkey, hv.isKey⟩
  · simpa [ReaddirState.Sound] using ⟨hqueued, hdse, hdir, hentries⟩

theorem PushAccount.step {events : List (TraversalEvent D)} (hv : PushAccount t fs startPaths v l) (hmove : TraversalMove t fs v events v') :
    PushAccount t fs startPaths v' (l ++ v.pushed v') := by
  cases hmove with
  | idle =>
    rw [pushed_of_items_eq rfl, List.append_nil]
    exact hv
  | skip i x xs hi hitems hdir =>
    have hpushed : xs.drop v.items.length = [] := by simp [hitems]
    refine hv.of_update (i := i) rfl (by simp [ReaddirState.Sound]) rfl ?_ fun f hf => ?_
    · simp [PoolView.pushed, hpushed, hi, handKeys, ReaddirState.inFlight]
    · exact hv.items f (hitems ▸ List.mem_cons_of_mem _ hf)
  | read i x xs d hi hitems hdir =>
    have hpushed : xs.drop v.items.length = [] := by simp [hitems]
    have hx : MayBeQueued t fs startPaths x := hv.items x (hitems ▸ List.mem_cons_self)
    refine hv.of_update (i := i) rfl ?_ rfl ?_ fun f hf => ?_
    · simpa [ReaddirState.Sound] using ⟨hx, hdir⟩
    · simp [PoolView.pushed, hpushed, hi, handKeys, ReaddirState.inFlight]
    · exact hv.items f (hitems ▸ List.mem_cons_of_mem _ hf)
  | ignore i dse d e entries files statbuf hi _ => exact hv.of_dealt hi rfl rfl rfl
  | file i dse d e entries files statbuf f hi _ => exact hv.of_dealt hi rfl rfl rfl
  | reject i dse d e entries files statbuf f hi _ _ => exact hv.of_dealt hi rfl rfl rfl
  | accept i dse d e entries files statbuf f hi haction hnew =>
    exact hv.accept hi haction hnew rfl rfl rfl
  | push i f dse d entries files hi =>
    obtain ⟨hf, hsound⟩ := hv.hands i _ hi
    refine hv.of_update (i := i) rfl (by simpa [ReaddirState.Sound] using hsound) rfl ?_ ?_
    · simp [PoolView.pushed, hi, handKeys, ReaddirState.inFlight]
    · simpa [or_imp, forall_and] using ⟨hv.items, hf⟩
  | flush i dse d files hi =>
    refine hv.of_update (i := i) rfl (by simp [ReaddirState.Sound]) rfl ?_ hv.items
    simp [PoolView.pushed, hi, handKeys, ReaddirState.inFlight]
  | finish i b hi _ hflight =>
    refine hv.of_update (i := i) rfl (by simp) rfl ?_ hv.items
    simp [PoolView.pushed, hi, handKeys, hflight]

end Steps

/-- The runs of `Scandir` with the directories that the workers push. -/
def PushedRun (t : DirTree) (fs : FileSystem D) (startPaths : List Bytes) :
    PoolState n (FileID D) (ReaddirState D) (TraversalState D) → List (FileID D) → Prop :=
  Recorded (ScandirInit fs startPaths n) (PoolStep (t.readdirLoop fs) False)
    fun s s' => s.view.pushed s'.view

section Runs

variable {s : PoolState n (FileID D) (ReaddirState D) (TraversalState D)} {l : List (FileID D)}

theorem PushedRun.account (hfollow : t.followSymlinks = true) (h : PushedRun t fs startPaths s l) :
    PushAccount t fs startPaths s.view l := by
  refine Recorded.invariant (I := fun s l => PushAccount t fs startPaths s.view l) (fun s hs => ?_)
    (fun s l e s' hreach hs he => ?_) h
  · subst hs
    exact ⟨by simp [PoolState.view, WorkerPc.hand, handKeys], by simp [PoolState.view],
      by simp [PoolState.view], fun f hf => .start hf, by simp [PoolState.view, WorkerPc.hand]⟩
  · have hmove := he.move (Counted.reachable hreach) (Quiet.reachable hreach)
    exact hs.step (hmove.traversalMove hfollow)

theorem PushAccount.pushed_le {v : TraversalView n D} (h : PushAccount t fs startPaths v l) :
    (↑(l.map FileID.uniqueFileIdentifier) : Multiset DevIno) ≤ ↑v.world.dirHasBeenVisited := by
  rw [← h.keys]
  exact Multiset.le_add_right _ _

theorem PushAccount.nodup_pushed {v : TraversalView n D} (h : PushAccount t fs startPaths v l) :
    (l.map FileID.uniqueFileIdentifier).Nodup := by
  rw [← Multiset.coe_nodup]
  exact Multiset.nodup_of_le h.pushed_le (Multiset.coe_nodup.mpr h.nodup)

theorem length_scandirPaths (fs : FileSystem D) (startPaths : List Bytes) :
    (scandirPaths fs startPaths).1.length ≤ startPaths.length := by
  induction startPaths with
  | nil => simp [scandirPaths]
  | cons p startPaths ih =>
    simp only [scandirPaths]
    split <;> simp only [List.length_cons] <;> omega

end Runs

section Keys

theorem exists_dev_of_mem_scandirPaths {f : FileID D} (h : f ∈ (scandirPaths fs startPaths).1) :
    ∃ dev, f.dev = some dev := by
  induction startPaths with
  | nil => simp [scandirPaths] at h
  | cons p startPaths ih =>
    simp only [scandirPaths] at h
    split at h
    · exact ih h
    · rename_i htype
      rcases List.mem_cons.mp h with rfl | h
      · cases hstat : fs.stat (cleanUpPath p) with
        | none => simp [FileID.ofPath, hstat] at htype
        | some st => exact ⟨st.stDev, by simp [FileID.ofPath, hstat, FileID.setStatInfo]⟩
      · exact ih h
    · exact ih h

/-- The devices handed down from the start paths, and those of the entries. -/
def devices (fs : FileSystem D) (startPaths : List Bytes) : Set Nat :=
  {dev | ∃ f ∈ (scandirPaths fs startPaths).1, f.dev = some dev} ∪
    {dev | ∃ d, ∃ e ∈ fs.readdir d, ∃ k, fs.entryIdent d e = some k ∧ k.dev = dev}

/-- Every entry that lists no inode number can be asked for one. -/
def NamesInodes (fs : FileSystem D) : Prop :=
  ∀ d, ∀ e ∈ fs.readdir d, e.dIno = 0 → (fs.fstatat d e.dName false).isSome

theorem exists_entryKey (hnames : NamesInodes fs) {dse : FileID D} {d : D} {e : Dirent} {dev : Nat}
    (hdev : dse.dev = some dev) (he : e ∈ fs.readdir d) :
    ∃ k, entryKey fs dse d e = some k ∧
      (k = ⟨dev, e.dIno⟩ ∨ fs.entryIdent d e = some k) := by
  by_cases hino : e.dIno = 0
  · obtain ⟨st, hst⟩ := Option.isSome_iff_exists.mp (hnames d e he hino)
    have hident : fs.entryIdent d e = some st.devIno := by rw [FileSystem.entryIdent, hst]; rfl
    exact ⟨st.devIno, by simp [entryKey, hdev, hino, hident], Or.inr hident⟩
  · exact ⟨⟨dev, e.dIno⟩, by simp [entryKey, hdev, hino], Or.inl rfl⟩

theorem MayBeQueued.dev (hfollow : t.followSymlinks = true) (hnames : NamesInodes fs) {f : FileID D}
    (h : MayBeQueued t fs startPaths f) : ∃ dev ∈ devices fs startPaths, f.dev = some dev := by
  induction h with
  | @start f h =>
    obtain ⟨dev, hdev⟩ := exists_dev_of_mem_scandirPaths h
    exact ⟨dev, Or.inl ⟨f, h, hdev⟩, hdev⟩
  | @entry dse f d e statbuf _ hdir he haction ih =>
    obtain ⟨dev, hmem, hdev⟩ := ih
    obtain ⟨k, hk, hcases⟩ := exists_entryKey hnames hdev he
    refine ⟨k.dev, ?_, (loaded_entry hfollow haction hk).1⟩
    rcases hcases with rfl | hident
    · exact hmem
    · exact Or.inr ⟨d, e, he, k, hident, rfl⟩

theorem finite_entries [Finite D] (fs : FileSystem D) {α : Type*} (g : D → Dirent → Option α) :
    {a | ∃ d, ∃ e ∈ fs.readdir d, g d e = some a}.Finite := by
  have hunion : {a | ∃ d, ∃ e ∈ fs.readdir d, g d e = some a} =
      ⋃ d, {a | a ∈ (fs.readdir d).filterMap (g d)} := by
    ext a
    simp
  rw [hunion]
  exact Set.finite_iUnion fun d => List.finite_toSet _

theorem finite_devices [Finite D] (fs : FileSystem D) (startPaths : List Bytes) :
    (devices fs startPaths).Finite := by
  refine Set.Finite.union ?_ ?_
  · have hstart : {dev | ∃ f ∈ (scandirPaths fs startPaths).1, f.dev = some dev} =
        {dev | dev ∈ (scandirPaths fs startPaths).1.filterMap FileID.dev} := by
      ext dev
      simp
    rw [hstart]
    exact List.finite_toSet _
  · have hentries := finite_entries fs fun d e => (fs.entryIdent d e).map DevIno.dev
    simpa only [Option.map_eq_some_iff] using hentries

/-- A file system with finitely many directories has finitely many keys. -/
theorem finite_isKey [Finite D] (hfollow : t.followSymlinks = true) (hnames : NamesInodes fs) :
    {k | IsKey t fs startPaths k}.Finite := by
  have hinos := finite_entries fs fun _ e => some e.dIno
  have hlisted := ((finite_devices fs startPaths).prod hinos).image fun p => (⟨p.1, p.2⟩ : DevIno)
  refine (hlisted.union (finite_entries fs fs.entryIdent)).subset ?_
  rintro k ⟨hdse, hdir, he, haction⟩
  obtain ⟨dev, hmem, hdev⟩ := hdse.dev hfollow hnames
  obtain ⟨k, hk, hcases⟩ := exists_entryKey hnames hdev he
  rw [(loaded_entry hfollow haction hk).2]
  rcases hcases with rfl | hident
  · exact Or.inl ⟨(dev, _), ⟨hmem, _, _, he, rfl⟩, rfl⟩
  · exact Or.inr ⟨_, _, he, hident⟩

end Keys

/-- However the workers are scheduled, each directory that is pushed takes a key that no other
took, so that with the start paths there are at most as many as there are start paths and keys.
Where there are finitely many directories there are finitely many keys. -/
theorem pushedDirs_bounded (hfollow : t.followSymlinks = true)
    {s : PoolState n (FileID D) (ReaddirState D) (TraversalState D)} {l : List (FileID D)}
    (h : PushedRun t fs startPaths s l) :
    (l.map FileID.uniqueFileIdentifier).Nodup ∧
      (∀ f ∈ l, IsKey t fs startPaths f.uniqueFileIdentifier) ∧
      (∀ hkeys : {k | IsKey t fs startPaths k}.Finite,
        (scandirPaths fs startPaths).1.length + l.length ≤
          startPaths.length + hkeys.toFinset.card) ∧
      (Finite D → NamesInodes fs → {k | IsKey t fs startPaths k}.Finite) := by
  have haccount := h.account hfollow
  have hnodup := haccount.nodup_pushed
  have hkey : ∀ f ∈ l, IsKey t fs startPaths f.uniqueFileIdentifier := by
    intro f hf
    have hmem := Multiset.mem_of_le haccount.pushed_le (Multiset.mem_coe.mpr (List.mem_map_of_mem hf))
    exact haccount.isKey _ hmem
  refine ⟨hnodup, hkey, fun hkeys => ?_, fun _ hnames => finite_isKey hfollow hnames⟩
  have hcard : l.length ≤ hkeys.toFinset.card := by
    calc l.length = (l.map FileID.uniqueFileIdentifier).toFinset.card := by
          rw [List.toFinset_card_of_nodup hnodup, List.length_map]
      _ ≤ hkeys.toFinset.card := Finset.card_le_card fun k hk => by
          obtain ⟨f, hf, rfl⟩ := List.mem_map.mp (List.mem_toFinset.mp hk)
          exact hkeys.mem_toFinset.mpr (hkey f hf)
  exact Nat.add_le_add (length_scandirPaths fs startPaths) hcard

/-- A directory with a symlink to itself: the symlink is pushed once, under its own number. -/
theorem pushedDirs_bounded_linkTo :
    ∃ l : List (FileID Bool), l.map FileID.uniqueFileIdentifier = [⟨1, 5⟩] ∧
      (l.map FileID.uniqueFileIdentifier).Nodup ∧
      ∃ hkeys : {k | IsKey followAll (linkTo false .lnk 5) [[100]] k}.Finite,
        1 + l.length ≤ 1 + hkeys.toFinset.card := by
  have hstart : PushedRun (n := 1) followAll (linkTo false .lnk 5) [[100]] _ [] := .start rfl
  have hread := Recorded.tail hstart (.pullFront 0 rfl)
  have hfile := Recorded.tail hread (.work 0 rfl ⟨⟨.other, 0, 0⟩, rfl⟩)
  have hqueued := Recorded.tail hfile (.work 0 rfl ⟨⟨.other, 0, 0⟩, rfl⟩)
  have hpushed := Recorded.tail hqueued (.push 0 rfl rfl)
  obtain ⟨hnodup, -, hbound, hfinite⟩ := pushedDirs_bounded rfl hpushed
  have hnames : NamesInodes (linkTo false .lnk 5) := by
    intro d e he hino
    cases d with
    | true => simp [linkTo] at he
    | false =>
      rcases List.mem_pair.mp he with rfl | rfl <;> cases hino
  have hkeys := hfinite inferInstance hnames
  exact ⟨_, rfl, hnodup, hkeys, hbound hkeys⟩

end Ucg
