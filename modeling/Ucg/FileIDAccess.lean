import Ucg.DirTree
import Ucg.Lib.Transition

/-! The accessors of `FileID` that resolve its path and open it when they are first called, from any
number of threads: `DoubleCheckedMultiLock` around the cache fillers of `FileID::impl`. -/

namespace Ucg

open Function Transition

/-- The `FileID`s of a program with what their constructors leave constant. All but those for the
current directory have an at-directory. -/
structure FileIDs (F : Type*) where
  atDir : F → Option F
  basename : F → Bytes
  openFlagsSet : F → Bool
  acyclic : WellFounded fun d f => atDir f = some d
  basename_ne : ∀ f, basename f ≠ []
  cwd : ∀ f, atDir f = none → basename f = [dot]

inductive Accessor
  | getPath
  | getFileDescriptor
  deriving DecidableEq, Repr

/-- The members that the two accessors share. `pathValid` and `fileDescValid` are bits of
`m_valid_bits`, `mutex` is the thread that holds the lock, and `opened` has the paths and results of
the calls of `open` that have succeeded. -/
structure FileCache (T : Type*) where
  path : Bytes
  fileDescriptor : Option Nat := none
  pathValid : Bool := false
  fileDescValid : Bool := false
  mutex : Option T := none
  opened : List (Bytes × Nat) := []

namespace FileCache

variable {T F : Type*}

def isValid (c : FileCache T) : Accessor → Bool
  | .getPath => c.pathValid
  | .getFileDescriptor => c.fileDescValid

/-- The bits that the cache filler of an accessor returns are set. -/
def publish (c : FileCache T) : Accessor → FileCache T
  | .getPath => { c with pathValid := true }
  | .getFileDescriptor => { c with pathValid := true, fileDescValid := true }

/-- The constructor for the current directory, which opens it. -/
def pathKnownCwd (tempfd : Option Nat) : FileCache T where
  path := [dot]
  fileDescriptor := tempfd
  pathValid := true
  fileDescValid := true
  opened := (tempfd.map fun fd => ([dot], fd)).toList

def pathKnownRelative (bname : Bytes) : FileCache T where
  path := if isPathnameAbsolute bname then bname else []

def pathKnownAbsolute (pathname : Bytes) : FileCache T where
  path := pathname
  pathValid := isPathnameAbsolute pathname

/-- The constructor that gets a pathname and no tag. -/
def ofPathname (pathname : Bytes) : FileCache T where
  path := if isPathnameAbsolute pathname then pathname else []
  pathValid := isPathnameAbsolute pathname

/-- The move constructor, which leaves the bits behind. -/
def moved (c : FileCache T) : FileCache T := { c with pathValid := false, fileDescValid := false }

theorem isValid_publish (c : FileCache T) (accessor : Accessor) :
    (c.publish accessor).isValid accessor = true ∧
      ∀ a, c.isValid a = true → (c.publish accessor).isValid a = true := by
  cases accessor with
  | getPath => exact ⟨rfl, fun a ha => by cases a <;> first | rfl | exact ha⟩
  | getFileDescriptor => exact ⟨rfl, fun a _ => by cases a <;> rfl⟩

end FileCache

/-- Where a call of an accessor stands in `DoubleCheckedMultiLock`, and from `checkingDescriptor` to
`opening` in the cache filler that runs under the lock. -/
inductive AccessorPc
  | firstCheck
  | locking
  | secondCheck
  | checkingDescriptor
  | resolving
  | gettingAtPath
  | appendingAtPath
  | appendingSlash
  | appendingBasename
  | opening
  | publishing
  | unlocking (failed : Bool)
  | returned (failed : Bool)
  deriving DecidableEq, Repr

def AccessorPc.locked : AccessorPc → Bool
  | .firstCheck | .locking | .returned _ => false
  | _ => true

/-- How far a call is from its end. -/
def AccessorPc.rank : AccessorPc → Nat
  | .firstCheck => 13
  | .locking => 12
  | .secondCheck => 11
  | .checkingDescriptor => 10
  | .resolving => 9
  | .gettingAtPath => 8
  | .appendingAtPath => 7
  | .appendingSlash => 6
  | .appendingBasename => 5
  | .opening => 4
  | .publishing => 3
  | .unlocking _ => 2
  | .returned _ => 1

/-- Where the cache filler goes on behind `ResolvePath`. -/
def Accessor.resolved : Accessor → AccessorPc
  | .getPath => .publishing
  | .getFileDescriptor => .opening

structure AccessorFrame (F : Type*) where
  file : F
  accessor : Accessor
  pc : AccessorPc
  deriving DecidableEq, Repr

/-- The calls of a thread that have not returned to their callers are on its stack, the innermost in
front. -/
structure AccessState (T F : Type*) where
  caches : F → FileCache T
  stack : T → List (AccessorFrame F)

namespace AccessState

variable {T F : Type*} (s : AccessState T F)

def setCache [DecidableEq F] (f : F) (c : FileCache T) : AccessState T F :=
  { s with caches := update s.caches f c }

variable [DecidableEq T] (t : T)

def setStack (stack : List (AccessorFrame F)) : AccessState T F :=
  { s with stack := update s.stack t stack }

def call (f : F) (accessor : Accessor) : AccessState T F :=
  s.setStack t (⟨f, accessor, .firstCheck⟩ :: s.stack t)

section Fields

variable {s t} {stack : List (AccessorFrame F)} {f : F} {accessor : Accessor}

@[simp] theorem setStack_caches : (s.setStack t stack).caches = s.caches := rfl

@[simp] theorem setStack_stack : (s.setStack t stack).stack = update s.stack t stack := rfl

@[simp] theorem call_caches : (s.call t f accessor).caches = s.caches := rfl

@[simp] theorem call_stack : (s.call t f accessor).stack =
    update s.stack t (⟨f, accessor, .firstCheck⟩ :: s.stack t) := rfl

end Fields

variable [DecidableEq F] (ids : FileIDs F)

/-- The next step of a call, with the members of its file behind it. -/
def advance (fr : AccessorFrame F) (callers : List (AccessorFrame F)) (c : FileCache T)
    (pc : AccessorPc) : AccessState T F :=
  (s.setCache fr.file c).setStack t ({ fr with pc } :: callers)

section Fields

variable {s t} {fr : AccessorFrame F} {callers : List (AccessorFrame F)} {c : FileCache T}
  {pc : AccessorPc}

@[simp] theorem advance_caches : (s.advance t fr callers c pc).caches = update s.caches fr.file c := rfl

@[simp] theorem advance_stack : (s.advance t fr callers c pc).stack =
    update s.stack t ({ fr with pc } :: callers) := rfl

theorem getsAtPath_stack {d : F} : ((s.advance t fr callers c pc).call t d .getPath).stack =
    update s.stack t (⟨d, .getPath, .firstCheck⟩ :: { fr with pc } :: callers) := by
  rw [call_stack, advance_stack, update_self, update_idem]

end Fields

/-- The next step of a thread. `none` is no step: it has no call, or it waits for a lock. `tempfd` is
what `open` returns if this step calls it. -/
def run (tempfd : Option Nat) : Option (AccessState T F) :=
  match s.stack t with
  | [] => none
  | fr :: callers =>
    let c := s.caches fr.file
    let advance := s.advance t fr callers
    match fr.pc with
    | .firstCheck => some (advance c (if c.isValid fr.accessor then .returned false else .locking))
    | .locking =>
      if c.mutex.isNone then some (advance { c with mutex := some t } .secondCheck) else none
    | .secondCheck =>
      if c.isValid fr.accessor then some (advance c (.unlocking false))
      else
        match fr.accessor with
        | .getPath => some (advance c .resolving)
        | .getFileDescriptor => some (advance c .checkingDescriptor)
    | .checkingDescriptor =>
      if c.fileDescriptor.isSome then some (advance c .publishing)
      else if !ids.openFlagsSet fr.file then some (advance c (.unlocking true))
      else if (ids.atDir fr.file).isNone then some (advance c .publishing)
      else some (advance c .resolving)
    | .resolving =>
      if c.path ≠ [] then some (advance c fr.accessor.resolved)
      else (ids.atDir fr.file).map fun d => (advance c .gettingAtPath).call t d .getPath
    | .gettingAtPath => none
    | .appendingAtPath =>
      (ids.atDir fr.file).map fun d =>
        let atPath := (s.caches d).path
        if atPath = [dot] then advance { c with path := ids.basename fr.file } fr.accessor.resolved
        else advance { c with path := c.path ++ atPath } .appendingSlash
    | .appendingSlash => some (advance { c with path := c.path ++ [slash] } .appendingBasename)
    | .appendingBasename =>
      some (advance { c with path := c.path ++ ids.basename fr.file } fr.accessor.resolved)
    | .opening =>
      match tempfd with
      | some fd =>
        some (advance { c with fileDescriptor := some fd, opened := c.opened ++ [(c.path, fd)] }
          .publishing)
      | none => some (advance c (.unlocking true))
    | .publishing => some (advance (c.publish fr.accessor) (.unlocking false))
    | .unlocking failed => some (advance { c with mutex := none } (.returned failed))
    | .returned _ =>
      match callers with
      | [] => some (s.setStack t [])
      | caller :: callers => some (s.setStack t ({ caller with pc := .appendingAtPath } :: callers))

/-- The kinds of steps of a thread whose innermost call is `fr`: this call goes on, it calls `GetPath`
of the at-directory, or it returns to a client or to the caller of `GetPath`. -/
inductive Moves (fr : AccessorFrame F) (callers : List (AccessorFrame F)) : AccessState T F → Prop
  | goesOn (c : FileCache T) (pc : AccessorPc) (hrank : pc.rank < fr.pc.rank)
      (hpc : pc ≠ .gettingAtPath)
      (hvalid : ∀ a, (s.caches fr.file).isValid a = true → c.isValid a = true) :
      Moves fr callers (s.advance t fr callers c pc)
  | getsAtPath (d : F) (hpc : fr.pc = .resolving) (hat : ids.atDir fr.file = some d) :
      Moves fr callers ((s.advance t fr callers (s.caches fr.file) .gettingAtPath).call t d .getPath)
  | returnsToClient (failed : Bool) (hpc : fr.pc = .returned failed) (hcallers : callers = []) :
      Moves fr callers (s.setStack t [])
  | returnsToCaller (caller : AccessorFrame F) (rest : List (AccessorFrame F)) (failed : Bool)
      (hpc : fr.pc = .returned failed) (hcallers : callers = caller :: rest) :
      Moves fr callers (s.setStack t ({ caller with pc := .appendingAtPath } :: rest))

variable {s t ids} {s' : AccessState T F} {tempfd : Option Nat}

theorem run_moves (hrun : s.run t ids tempfd = some s') :
    ∃ fr callers, s.stack t = fr :: callers ∧ s.Moves t ids fr callers s' := by
  rw [run] at hrun
  cases hstack : s.stack t with
  | nil => simp [hstack] at hrun
  | cons fr callers =>
    refine ⟨fr, callers, rfl, ?_⟩
    have hresolved : fr.accessor.resolved.rank < 5 ∧ fr.accessor.resolved ≠ .gettingAtPath := by
      cases fr.accessor <;> decide
    cases hpc : fr.pc
    all_goals simp only [hstack, hpc] at hrun
    case firstCheck =>
      obtain rfl := Option.some.inj hrun
      split_ifs
      · exact .goesOn _ _ (by rw [hpc]; decide) (by decide) fun _ => id
      · exact .goesOn _ _ (by rw [hpc]; decide) (by decide) fun _ => id
    case locking =>
      split_ifs at hrun
      obtain rfl := Option.some.inj hrun
      exact .goesOn _ _ (by rw [hpc]; decide) (by decide) fun a ha => by cases a <;> exact ha
    case secondCheck =>
      split_ifs at hrun
      · obtain rfl := Option.some.inj hrun
        exact .goesOn _ _ (by rw [hpc]; decide) (by decide) fun _ => id
      · split at hrun <;> obtain rfl := Option.some.inj hrun <;>
          exact .goesOn _ _ (by rw [hpc]; decide) (by decide) fun _ => id
    case checkingDescriptor =>
      split_ifs at hrun <;> obtain rfl := Option.some.inj hrun <;>
        exact .goesOn _ _ (by rw [hpc]; decide) (by decide) fun _ => id
    case resolving =>
      split_ifs at hrun
      · obtain rfl := Option.some.inj hrun
        exact .goesOn _ _ (by rw [hpc]; exact hresolved.1.trans (by decide)) hresolved.2 fun _ => id
      · obtain ⟨d, hat, rfl⟩ := Option.map_eq_some_iff.mp hrun
        exact .getsAtPath d hpc hat
    case gettingAtPath => cases hrun
    case appendingAtPath =>
      obtain ⟨d, -, rfl⟩ := Option.map_eq_some_iff.mp hrun
      split_ifs
      · exact .goesOn _ _ (by rw [hpc]; exact hresolved.1.trans (by decide)) hresolved.2
          fun a ha => by cases a <;> exact ha
      · exact .goesOn _ _ (by rw [hpc]; decide) (by decide) fun a ha => by cases a <;> exact ha
    case appendingSlash =>
      obtain rfl := Option.some.inj hrun
      exact .goesOn _ _ (by rw [hpc]; decide) (by decide) fun a ha => by cases a <;> exact ha
    case appendingBasename =>
      obtain rfl := Option.some.inj hrun
      exact .goesOn _ _ (by rw [hpc]; exact hresolved.1) hresolved.2 fun a ha => by cases a <;> exact ha
    case opening =>
      split at hrun <;> obtain rfl := Option.some.inj hrun
      · exact .goesOn _ _ (by rw [hpc]; decide) (by decide) fun a ha => by cases a <;> exact ha
      · exact .goesOn _ _ (by rw [hpc]; decide) (by decide) fun _ => id
    case publishing =>
      obtain rfl := Option.some.inj hrun
      exact .goesOn _ _ (by rw [hpc]; decide) (by decide) (FileCache.isValid_publish _ _).2
    case unlocking failed =>
      obtain rfl := Option.some.inj hrun
      exact .goesOn _ _ (by rw [hpc]; exact Nat.lt_succ_self 1) (by simp)
        fun a ha => by cases a <;> exact ha
    case returned failed =>
      split at hrun <;> obtain rfl := Option.some.inj hrun
      · exact .returnsToClient failed hpc rfl
      · exact .returnsToCaller _ _ failed hpc rfl

end AccessState

/-- A thread calls an accessor, or goes on with its calls. -/
inductive AccessEvent (T F : Type*)
  | call (t : T) (f : F) (accessor : Accessor)
  | run (t : T) (tempfd : Option Nat)
  deriving DecidableEq, Repr

section Steps

variable {T F : Type*} [DecidableEq T] [DecidableEq F]

inductive AccessStep (ids : FileIDs F) :
    AccessState T F → AccessEvent T F → AccessState T F → Prop
  | call {s} (t : T) (f : F) (accessor : Accessor) (h : s.stack t = []) :
      AccessStep ids s (.call t f accessor) (s.call t f accessor)
  | run {s s'} (t : T) (tempfd : Option Nat) (h : s.run t ids tempfd = some s') :
      AccessStep ids s (.run t tempfd) s'

end Steps

namespace FileIDs

variable {F : Type*} (ids : FileIDs F)

/-- The path of a file, from the paths of the directories that it is in. -/
def fullPath (f : F) : Bytes :=
  match _h : ids.atDir f with
  | none => ids.basename f
  | some d => resolvePath (fullPath d) (ids.basename f)
termination_by ids.acyclic.wrap f

theorem fullPath_of_none {f : F} (h : ids.atDir f = none) : ids.fullPath f = [dot] := by
  rw [fullPath]
  split
  · exact ids.cwd f h
  · rename_i hsome
    rw [h] at hsome
    cases hsome

theorem fullPath_of_some {f d : F} (h : ids.atDir f = some d) :
    ids.fullPath f = resolvePath (ids.fullPath d) (ids.basename f) := by
  rw [fullPath]
  split
  · rename_i hnone
    rw [h] at hnone
    cases hnone
  · rename_i d' hsome
    obtain rfl := Option.some.inj (h.symm.trans hsome)
    rfl

theorem fullPath_ne_nil (f : F) : ids.fullPath f ≠ [] := by
  have hne := ids.basename_ne f
  cases h : ids.atDir f with
  | none =>
    rw [ids.fullPath_of_none h]
    exact List.cons_ne_nil _ _
  | some d =>
    rw [ids.fullPath_of_some h]
    unfold resolvePath
    split_ifs
    · exact hne
    · exact hne
    · simp

/-- What the constructors leave in a `FileID`, and `OpenDir` in a directory that only its thread
has. -/
inductive Fresh {T : Type*} (f : F) : FileCache T → Prop
  | pathKnownCwd (tempfd : Option Nat) (h : ids.atDir f = none) : Fresh f (.pathKnownCwd tempfd)
  | pathKnownRelative {d : F} (h : ids.atDir f = some d) :
      Fresh f (.pathKnownRelative (ids.basename f))
  | pathKnownAbsolute {d : F} (h : ids.atDir f = some d)
      (habsolute : isPathnameAbsolute (ids.basename f) = true) :
      Fresh f (.pathKnownAbsolute (ids.basename f))
  | ofPathname {d : F} (h : ids.atDir f = some d) : Fresh f (.ofPathname (ids.basename f))
  | moved {c : FileCache T} (h : Fresh f c) : Fresh f c.moved
  | openedDir {c : FileCache T} (h : Fresh f c) : Fresh f { c with path := ids.fullPath f }

end FileIDs

section Runs

variable {T F : Type*} [DecidableEq T] [DecidableEq F]

def AccessInit (ids : FileIDs F) (s : AccessState T F) : Prop :=
  (∀ f, ids.Fresh f (s.caches f)) ∧ ∀ t, s.stack t = []

def AccessReachable (ids : FileIDs F) : AccessState T F → Prop :=
  Reachable (AccessInit ids) (AccessStep ids)

end Runs

end Ucg
