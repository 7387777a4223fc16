import Ucg.FileIDInvariant
import Ucg.Strings

/-! What the accessors of `FileID` give in any interleaving of their calls: the path that the
traversal has in mind, without data races, and a file that is opened once. -/

namespace Ucg

open Function Transition

variable {T F : Type*} {ids : FileIDs F} {t t' : T} {f d : F}

variable {D : Type*} {s s' : AccessState T F} {failed : Bool}

/-- What the model of the traversal takes for the path of a `FileID`. -/
structure FileIDs.Represents (ids : FileIDs F) (id : F → FileID D) : Prop where
  cwd : ∀ f, ids.atDir f = none → (id f).path = [dot]
  entry : ∀ f d, ids.atDir f = some d → (id f).path = resolvePath (id d).path (ids.basename f)

theorem FileIDs.Represents.path_eq {id : F → FileID D} (h : ids.Represents id) (f : F) :
    (id f).path = ids.fullPath f := by
  induction f using ids.acyclic.induction with
  | _ f ih =>
    cases hat : ids.atDir f with
    | none => rw [h.cwd f hat, ids.fullPath_of_none hat]
    | some d => rw [h.entry f d hat, ih d hat, ids.fullPath_of_some hat]

/-- The next step of a thread reads the path of a file: without its lock in a client of `GetPath` and
in `ResolvePath` for a file in the directory, or with it in the cache fillers. -/
def AccessState.ReadsPath (ids : FileIDs F) (s : AccessState T F) (t : T) (f : F) : Prop :=
  ∃ fr, (s.stack t).head? = some fr ∧ (fr = ⟨f, .getPath, .returned false⟩ ∨
    fr.pc = .appendingAtPath ∧ ids.atDir fr.file = some f ∨
    fr.file = f ∧ fr.pc ∈ [.resolving, .opening])

def AccessState.WritesPath (s : AccessState T F) (t : T) (f : F) : Prop :=
  ∃ fr, (s.stack t).head? = some fr ∧ fr.file = f ∧
    fr.pc ∈ [.appendingAtPath, .appendingSlash, .appendingBasename]

section Example

/-- The current directory, the directory `d` in it, and the file `x` in that. -/
inductive NestedFile
  | cwd
  | dir
  | file
  deriving DecidableEq, Repr

def NestedFile.depth : NestedFile → Nat
  | .cwd => 0
  | .dir => 1
  | .file => 2

def nestedIDs : FileIDs NestedFile where
  atDir
    | .cwd => none
    | .dir => some .cwd
    | .file => some .dir
  basename
    | .cwd => [dot]
    | .dir => [100]
    | .file => [120]
  openFlagsSet _ := true
  acyclic := by
    refine Subrelation.wf (fun {d f} h => ?_) (InvImage.wf NestedFile.depth Nat.lt_wfRel.wf)
    show d.depth < f.depth
    cases f <;> cases h <;> decide
  basename_ne f := by cases f <;> exact List.cons_ne_nil _ _
  cwd f h := by cases f <;> first | rfl | cases h

def nestedIDsStart : AccessState Bool NestedFile where
  caches
    | .cwd => .pathKnownCwd (some 3)
    | .dir => .pathKnownRelative [100]
    | .file => .pathKnownRelative [120]
  stack _ := []

theorem nestedIDsStart_init : AccessInit nestedIDs nestedIDsStart := by
  refine ⟨fun f => ?_, fun t => rfl⟩
  cases f with
  | cwd => exact .pathKnownCwd _ rfl
  | dir => exact .pathKnownRelative (d := .cwd) rfl
  | file => exact .pathKnownRelative (d := .dir) rfl

def nestedFileIDs : NestedFile → FileID Bool
  | .cwd => { path := str ".", fileType := .dir, dir := some false }
  | .dir => { path := str "d", fileType := .dir, dir := some true }
  | .file => { path := str "d/x", fileType := .reg, dir := none }

theorem nestedFileIDs_represented : nestedIDs.Represents nestedFileIDs where
  cwd f h := by cases f <;> first | rfl | cases h
  entry f d h := by cases f <;> cases h <;> decide

/-- One thread opens the file, and when it has the path of the directory but not yet that of the file,
it goes on to the end. Then another thread asks for the path. -/
theorem nestedIDs_runs : ∃ s s', AccessReachable nestedIDs s ∧ Steps (AccessStep nestedIDs) s s' ∧
    s.WritesPath false .file ∧ (s'.stack true).head? = some ⟨.file, .getPath, .returned false⟩ ∧
    (s'.stack false).head? = some ⟨.file, .getFileDescriptor, .returned false⟩ := by
  have hstart : AccessReachable nestedIDs _ := .start nestedIDsStart_init
  have hcall := hstart.tail (.call false .file .getFileDescriptor rfl)
  have hlocked := (hcall.tail (.run false none rfl)).tail (.run false none rfl)
  have hresolving := (hlocked.tail (.run false none rfl)).tail (.run false none rfl)
  have hdir := hresolving.tail (.run false none rfl)
  have hdirLocked := (hdir.tail (.run false none rfl)).tail (.run false none rfl)
  have hdirResolving := hdirLocked.tail (.run false none rfl)
  have hcwd := (hdirResolving.tail (.run false none rfl)).tail (.run false none rfl)
  have hdirResolved := (hcwd.tail (.run false none rfl)).tail (.run false none rfl)
  have hdirUnlocked := (hdirResolved.tail (.run false none rfl)).tail (.run false none rfl)
  have hatPath := (hdirUnlocked.tail (.run false none rfl)).tail (.run false none rfl)
  have hself {s : AccessState Bool NestedFile} (_ : AccessReachable nestedIDs s) :
      Steps (AccessStep nestedIDs) s s := .refl
  have hrest := ((hself hatPath).tail ⟨_, .run false none rfl⟩).tail ⟨_, .run false none rfl⟩
  have hopened := (hrest.tail ⟨_, .run false (some 7) rfl⟩).tail ⟨_, .run false none rfl⟩
  have hreturned := hopened.tail ⟨_, .run false none rfl⟩
  have hasked := (hreturned.tail ⟨_, .call true .file .getPath rfl⟩).tail ⟨_, .run true none rfl⟩
  exact ⟨_, _, hatPath, hasked, ⟨_, rfl, rfl, by decide⟩, rfl, rfl⟩

end Example

section Results

variable [DecidableEq T] [DecidableEq F]

/-- A bit of `m_valid_bits` that is set stays set. -/
theorem isValid_run {tempfd : Option Nat} (hrun : s.run t ids tempfd = some s') {a : Accessor}
    (h : (s.caches f).isValid a = true) : (s'.caches f).isValid a = true := by
  obtain ⟨fr, callers, -, hmoves⟩ := AccessState.run_moves hrun
  cases hmoves with
  | goesOn c pc _ _ hvalid =>
    rw [AccessState.advance_caches]
    by_cases hf : f = fr.file
    · subst hf
      rw [update_self]
      exact hvalid a h
    · rwa [update_of_ne hf]
  | getsAtPath d _ _ => rwa [AccessState.call_caches, AccessState.advance_caches, update_eq_self]
  | returnsToClient _ _ _ => exact h
  | returnsToCaller _ _ _ _ _ => exact h

/-- Whatever other calls run at the same time: what a call of `GetPath` has returned a reference to
is the path that the traversal has in mind for the file, then and at any later time. -/
theorem getPath_returns {id : F → FileID D} (hid : ids.Represents id) (h : AccessReachable ids s)
    (hreturned : (s.stack t).head? = some ⟨f, .getPath, .returned failed⟩)
    (hsteps : Steps (AccessStep ids) s s') : failed = false ∧ (s'.caches f).path = (id f).path := by
  have hknows := ((AccessReachable.invariant h).frame t _ (List.mem_of_head? hreturned)).knows
  obtain ⟨rfl, hvalid⟩ : failed = false ∧ (s.caches f).isValid .getPath = true := by
    cases failed with
    | true => cases hknows
    | false => exact ⟨rfl, hknows⟩
  have hlater : AccessReachable ids s' ∧ (s'.caches f).isValid .getPath = true := by
    refine Steps.invariant (I := fun s => AccessReachable ids s ∧ (s.caches f).isValid .getPath = true)
      (fun u e u' hu hstep => ⟨hu.1.tail hstep, ?_⟩) hsteps ⟨h, hvalid⟩
    cases hstep with
    | call t g accessor hidle => exact hu.2
    | run t tempfd hrun => exact isValid_run hrun hu.2
  refine ⟨rfl, ?_⟩
  rw [hid.path_eq]
  exact ((AccessReachable.invariant hlater.1).cache f).path hlater.2

theorem getPath_returns_nested : ∃ s : AccessState Bool NestedFile,
    (s.stack true).head? = some ⟨.file, .getPath, .returned false⟩ ∧
      (s.caches .file).path = str "d/x" := by
  obtain ⟨s, s', hs, hsteps, -, hreturned, -⟩ := nestedIDs_runs
  have hs' : AccessReachable nestedIDs s' := hs.trans hsteps
  exact ⟨s', hreturned, (getPath_returns nestedFileIDs_represented hs' hreturned .refl).2⟩

/-- While a thread writes the path of a file, no other thread reads or writes it. -/
theorem path_raceFree (h : AccessReachable ids s) (hwrites : s.WritesPath t f) (hne : t' ≠ t) :
    ¬ s.ReadsPath ids t' f ∧ ¬ s.WritesPath t' f := by
  have hinv := AccessReachable.invariant h
  have hwriter {t : T} (hw : s.WritesPath t f) :
      (s.caches f).mutex = some t ∧ (s.caches f).pathValid = false := by
    obtain ⟨fr, hfr, rfl, hpc⟩ := hw
    have hok := hinv.frame t fr (List.mem_of_head? hfr)
    have hknows := hok.knows
    rw [AccessorFrame.Knows] at hknows
    simp only [List.mem_cons, List.not_mem_nil, or_false] at hpc
    rcases hpc with hpc | hpc | hpc <;> simp only [hpc] at hknows <;>
      have hheld := hok.holds (by rw [hpc]; rfl)
    · exact ⟨hheld, hknows.2.1.1⟩
    · exact ⟨hheld, hknows.1.1⟩
    · exact ⟨hheld, hknows.1.1⟩
  obtain ⟨hheld, hinvalid⟩ := hwriter hwrites
  constructor
  · rintro ⟨fr, hfr, hreads⟩
    have hok := hinv.frame t' fr (List.mem_of_head? hfr)
    have hknows := hok.knows
    rcases hreads with rfl | ⟨hpc, hat⟩ | ⟨rfl, hpc⟩
    · exact absurd (hinvalid.symm.trans hknows) Bool.false_ne_true
    · simp only [AccessorFrame.Knows, hpc] at hknows
      obtain ⟨-, -, d, hd, hvalid⟩ := hknows
      obtain rfl := Option.some.inj (hd.symm.trans hat)
      exact absurd (hinvalid.symm.trans hvalid) Bool.false_ne_true
    · have hlocked : fr.pc.locked = true := by
        rcases List.mem_pair.mp hpc with hpc | hpc <;> rw [hpc] <;> rfl
      exact hne (Option.some.inj ((hok.holds hlocked).symm.trans hheld))
  · intro hw
    obtain ⟨hheld', -⟩ := hwriter hw
    exact hne (Option.some.inj (hheld'.symm.trans hheld))

theorem path_raceFree_nested : ∃ s : AccessState Bool NestedFile, s.WritesPath false .file ∧
    ¬ s.ReadsPath nestedIDs true .file ∧ ¬ s.WritesPath true .file := by
  obtain ⟨s, s', hs, -, hwrites, -⟩ := nestedIDs_runs
  exact ⟨s, hwrites, path_raceFree hs hwrites (by decide)⟩

/-- However many threads call `GetFileDescriptor`: `open` succeeds once at most for each file, with its
whole path, and what a call returns is the descriptor of that time. -/
theorem opened_once (h : AccessReachable ids s) :
    (∀ f, (s.caches f).opened = [] ∨ ∃ fd, (s.caches f).opened = [(ids.fullPath f, fd)]) ∧
      ∀ t f, (s.stack t).head? = some ⟨f, .getFileDescriptor, .returned false⟩ → ids.atDir f ≠ none →
        ∃ fd, (s.caches f).fileDescriptor = some fd ∧ (s.caches f).opened = [(ids.fullPath f, fd)] := by
  have hinv := AccessReachable.invariant h
  refine ⟨fun f => ?_, fun t f hreturned hat => ?_⟩
  · rw [(hinv.cache f).opened]
    cases (s.caches f).fileDescriptor with
    | none => exact Or.inl rfl
    | some fd => exact Or.inr ⟨fd, rfl⟩
  · have hvalid : (s.caches f).fileDescValid = true :=
      (hinv.frame t _ (List.mem_of_head? hreturned)).knows
    obtain ⟨fd, hfd⟩ := Option.ne_none_iff_exists'.mp ((hinv.cache f).fileDescriptor hvalid hat)
    refine ⟨fd, hfd, ?_⟩
    rw [(hinv.cache f).opened, hfd]
    rfl

theorem opened_once_nested : ∃ (s : AccessState Bool NestedFile) (fd : Nat),
    (s.caches .file).opened = [(nestedIDs.fullPath .file, fd)] := by
  obtain ⟨s, s', hs, hsteps, -, -, hreturned⟩ := nestedIDs_runs
  have hs' : AccessReachable nestedIDs s' := hs.trans hsteps
  have hat : nestedIDs.atDir .file ≠ none := by decide
  obtain ⟨fd, -, hopened⟩ := (opened_once hs').2 false .file hreturned hat
  exact ⟨s', fd, hopened⟩

end Results

end Ucg
