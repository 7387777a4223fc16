import Ucg.FileIDAccess

/-! What holds of the `FileID`s and of the calls of their accessors in any interleaving. -/

namespace Ucg

open Function Transition

variable {T F : Type*} {ids : FileIDs F} {caches : F → FileCache T} {t t' : T} {f d : F}
  {fr : AccessorFrame F} {c : FileCache T}

/-- What holds of the members of a `FileID` at any time. -/
structure FileIDs.CacheOk (ids : FileIDs F) (f : F) (c : FileCache T) : Prop where
  path : c.pathValid = true → c.path = ids.fullPath f
  settled : c.mutex = none → c.path = [] ∨ c.path = ids.fullPath f
  relative : c.path ≠ ids.fullPath f →
    ∃ d, ids.atDir f = some d ∧ isPathnameAbsolute (ids.basename f) = false
  resolved : c.fileDescriptor ≠ none → c.path = ids.fullPath f
  fileDescriptor : c.fileDescValid = true → ids.atDir f ≠ none → c.fileDescriptor ≠ none
  opened : c.opened = (c.fileDescriptor.map fun fd => (ids.fullPath f, fd)).toList

def FileCache.Unresolved (c : FileCache T) : Prop := c.pathValid = false ∧ c.fileDescriptor = none

def FileIDs.PartlyResolved (ids : FileIDs F) (f : F) (c : FileCache T) (front : Bytes → Bytes) : Prop :=
  c.Unresolved ∧ ∃ d, ids.atDir f = some d ∧ isPathnameAbsolute (ids.basename f) = false ∧
    ids.fullPath d ≠ [dot] ∧ c.path = front (ids.fullPath d)

/-- What a call knows at each point of it. -/
def AccessorFrame.Knows (ids : FileIDs F) (caches : F → FileCache T) (fr : AccessorFrame F) : Prop :=
  let c := caches fr.file
  let settled := c.path = [] ∨ c.path = ids.fullPath fr.file
  match fr.pc with
  | .firstCheck | .locking => True
  | .secondCheck => settled
  | .checkingDescriptor => settled ∧ fr.accessor = .getFileDescriptor
  | .resolving => settled ∧ (fr.accessor = .getFileDescriptor → c.fileDescriptor = none)
  | .gettingAtPath => c.path = [] ∧ c.Unresolved
  | .appendingAtPath => c.path = [] ∧ c.Unresolved ∧
      ∃ d, ids.atDir fr.file = some d ∧ (caches d).pathValid = true
  | .appendingSlash => ids.PartlyResolved fr.file c id
  | .appendingBasename => ids.PartlyResolved fr.file c (· ++ [slash])
  | .opening => c.path = ids.fullPath fr.file ∧ fr.accessor = .getFileDescriptor ∧
      c.fileDescriptor = none
  | .publishing => c.path = ids.fullPath fr.file ∧ (fr.accessor = .getFileDescriptor →
      ids.atDir fr.file ≠ none → c.fileDescriptor ≠ none)
  | .unlocking failed =>
      settled ∧ if failed then fr.accessor = .getFileDescriptor else c.isValid fr.accessor = true
  | .returned failed => if failed then fr.accessor = .getFileDescriptor else c.isValid fr.accessor = true

structure AccessorFrame.Ok (ids : FileIDs F) (caches : F → FileCache T) (t : T)
    (fr : AccessorFrame F) : Prop where
  holds : fr.pc.locked = true → (caches fr.file).mutex = some t
  knows : fr.Knows ids caches

/-- The caller waits for the path of its at-directory. -/
def FileIDs.Calls (ids : FileIDs F) (fr caller : AccessorFrame F) : Prop :=
  caller.pc = .gettingAtPath ∧ ids.atDir caller.file = some fr.file ∧ fr.accessor = .getPath

structure AccessInvariant (ids : FileIDs F) (s : AccessState T F) : Prop where
  cache : ∀ f, ids.CacheOk f (s.caches f)
  frame : ∀ t, ∀ fr ∈ s.stack t, fr.Ok ids s.caches t
  chain : ∀ t, (s.stack t).IsChain ids.Calls
  holder : ∀ f t, (s.caches f).mutex = some t → ∃ fr ∈ s.stack t, fr.file = f ∧ fr.pc.locked = true

section Start

theorem fullPath_of_absolute (h : ids.atDir f = some d)
    (habsolute : isPathnameAbsolute (ids.basename f) = true) : ids.fullPath f = ids.basename f := by
  rw [ids.fullPath_of_some h, resolvePath, if_pos habsolute]

/-- The path of a constructor that knows it if it is absolute. -/
theorem cacheOk_of_basename {valid : Bool} (h : ids.atDir f = some d)
    (hvalid : valid = true → isPathnameAbsolute (ids.basename f) = true) :
    ids.CacheOk f (T := T) { path := if isPathnameAbsolute (ids.basename f) then ids.basename f else []
                             pathValid := valid } := by
  have hpath (habsolute : isPathnameAbsolute (ids.basename f) = true) :
      (if isPathnameAbsolute (ids.basename f) then ids.basename f else []) = ids.fullPath f := by
    rw [if_pos habsolute, fullPath_of_absolute h habsolute]
  constructor
  · exact fun hv => hpath (hvalid hv)
  · intro _
    cases habsolute : isPathnameAbsolute (ids.basename f) with
    | true => exact Or.inr (by simpa [habsolute] using hpath habsolute)
    | false => exact Or.inl (by simp)
  · intro hne
    refine ⟨d, h, ?_⟩
    by_contra habsolute
    exact hne (hpath (by simpa using habsolute))
  · exact fun hfd => absurd rfl hfd
  · exact fun hv => by cases hv
  · rfl

theorem FileIDs.Fresh.cacheOk (h : ids.Fresh f c) : ids.CacheOk f c ∧ c.mutex = none := by
  induction h with
  | pathKnownCwd tempfd h =>
    have hfull := ids.fullPath_of_none h
    refine ⟨⟨fun _ => hfull.symm, fun _ => Or.inr hfull.symm, fun hne => absurd hfull.symm hne,
      fun _ => hfull.symm, fun _ hne => absurd h hne, ?_⟩, rfl⟩
    rw [hfull]
    rfl
  | pathKnownRelative h => exact ⟨cacheOk_of_basename h fun hv => absurd hv Bool.false_ne_true, rfl⟩
  | pathKnownAbsolute h habsolute =>
    have hok := cacheOk_of_basename (T := T) h fun hv : isPathnameAbsolute (ids.basename f) = true => hv
    rw [if_pos habsolute] at hok
    exact ⟨hok, rfl⟩
  | ofPathname h => exact ⟨cacheOk_of_basename h id, rfl⟩
  | moved _ ih =>
    obtain ⟨⟨-, hsettled, hrelative, hresolved, -, hopened⟩, hmutex⟩ := ih
    exact ⟨⟨fun hv => absurd hv Bool.false_ne_true, hsettled, hrelative, hresolved,
      fun hv => absurd hv Bool.false_ne_true, hopened⟩, hmutex⟩
  | openedDir _ ih =>
    obtain ⟨⟨-, -, -, -, hfd, hopened⟩, hmutex⟩ := ih
    exact ⟨⟨fun _ => rfl, fun _ => Or.inr rfl, fun hne => absurd rfl hne, fun _ => rfl, hfd, hopened⟩,
      hmutex⟩

theorem accessInvariant_init {s : AccessState T F}
    (h : (∀ f, ids.Fresh f (s.caches f)) ∧ ∀ t, s.stack t = []) : AccessInvariant ids s := by
  obtain ⟨hfresh, hstack⟩ := h
  refine ⟨fun f => (hfresh f).cacheOk.1, fun t fr hfr => ?_, fun t => ?_, fun f t hf => ?_⟩
  · rw [hstack t] at hfr
    cases hfr
  · rw [hstack t]
    exact List.isChain_nil
  · rw [(hfresh f).cacheOk.2] at hf
    cases hf

end Start

section Members

theorem FileIDs.CacheOk.setMutex (h : ids.CacheOk f c) {m : Option T}
    (hm : m = none → c.path = [] ∨ c.path = ids.fullPath f) : ids.CacheOk f { c with mutex := m } :=
  ⟨h.path, hm, h.relative, h.resolved, h.fileDescriptor, h.opened⟩

theorem FileIDs.CacheOk.setPath (h : ids.CacheOk f c) {path : Bytes} (hpath : path = ids.fullPath f) :
    ids.CacheOk f { c with path } :=
  ⟨fun _ => hpath, fun _ => Or.inr hpath, fun hne => absurd hpath hne, fun _ => hpath,
    h.fileDescriptor, h.opened⟩

theorem FileIDs.CacheOk.setPartly (h : ids.CacheOk f c) (hunresolved : c.Unresolved)
    (hmutex : c.mutex ≠ none) (hat : ids.atDir f = some d)
    (hrelative : isPathnameAbsolute (ids.basename f) = false) (path : Bytes) :
    ids.CacheOk f { c with path } :=
  ⟨fun hvalid => absurd (hunresolved.1.symm.trans hvalid) Bool.false_ne_true,
    fun hm => absurd hm hmutex, fun _ => ⟨d, hat, hrelative⟩, fun hfd => absurd hunresolved.2 hfd,
    h.fileDescriptor, h.opened⟩

theorem FileIDs.CacheOk.setFileDescriptor (h : ids.CacheOk f c) (hpath : c.path = ids.fullPath f)
    (hclosed : c.fileDescriptor = none) (fd : Nat) :
    ids.CacheOk f { c with fileDescriptor := some fd, opened := c.opened ++ [(c.path, fd)] } := by
  refine ⟨h.path, h.settled, h.relative, fun _ => hpath, fun _ _ => Option.some_ne_none fd, ?_⟩
  rw [h.opened, hclosed, hpath]
  rfl

theorem FileIDs.CacheOk.publish (h : ids.CacheOk f c) {accessor : Accessor}
    (hpath : c.path = ids.fullPath f)
    (hopen : accessor = .getFileDescriptor → ids.atDir f ≠ none → c.fileDescriptor ≠ none) :
    ids.CacheOk f (c.publish accessor) := by
  cases accessor with
  | getPath => exact ⟨fun _ => hpath, h.settled, h.relative, h.resolved, h.fileDescriptor, h.opened⟩
  | getFileDescriptor =>
    exact ⟨fun _ => hpath, h.settled, h.relative, h.resolved, fun _ => hopen rfl, h.opened⟩

theorem FileIDs.CacheOk.unresolved (h : ids.CacheOk f c) (hpath : c.path = []) : c.Unresolved := by
  have hne : c.path ≠ ids.fullPath f := by
    rw [hpath]
    exact (ids.fullPath_ne_nil f).symm
  constructor
  · by_contra hvalid
    exact hne (h.path (by simpa using hvalid))
  · by_contra hfd
    exact hne (h.resolved hfd)

theorem fullPath_of_relative (h : ids.atDir f = some d)
    (hrelative : isPathnameAbsolute (ids.basename f) = false) :
    ids.fullPath f = if ids.fullPath d = [dot] then ids.basename f
      else ids.fullPath d ++ [slash] ++ ids.basename f := by
  rw [ids.fullPath_of_some h, resolvePath, if_neg (by simp [hrelative])]

/-- What a call knows when the path is there. -/
theorem knows_resolved {pc : AccessorPc} (hpc : pc = fr.accessor.resolved)
    (hpath : (caches fr.file).path = ids.fullPath fr.file)
    (hopen : fr.accessor = .getFileDescriptor → (caches fr.file).fileDescriptor = none) :
    { fr with pc }.Knows ids caches := by
  subst hpc
  cases haccessor : fr.accessor with
  | getPath => exact ⟨hpath, fun h => by cases h⟩
  | getFileDescriptor => exact ⟨hpath, rfl, hopen haccessor⟩

theorem locked_resolved (accessor : Accessor) : accessor.resolved.locked = true := by
  cases accessor <;> rfl

end Members

section Frames

/-- A call knows what it knew when another call, under the lock of its own file, has changed it. -/
theorem AccessorFrame.Ok.of_update [DecidableEq F] (h : fr.Ok ids caches t)
    (hother : fr.file = f → fr.pc.locked = false)
    (hvalid : ∀ a, (caches f).isValid a = true → c.isValid a = true) :
    fr.Ok ids (update caches f c) t := by
  by_cases hf : fr.file = f
  · have hpc := hother hf
    have hknows := h.knows
    refine ⟨fun hlocked => absurd (hpc.symm.trans hlocked) Bool.false_ne_true, ?_⟩
    rw [AccessorFrame.Knows, hf] at hknows ⊢
    rw [update_self]
    cases hat : fr.pc with
    | firstCheck => trivial
    | locking => trivial
    | returned failed =>
      simp only [hat] at hknows ⊢
      split_ifs at hknows ⊢
      · exact hknows
      · exact hvalid _ hknows
    | _ => simp [hat, AccessorPc.locked] at hpc
  · have hsame : update caches f c fr.file = caches fr.file := update_of_ne hf _ _
    refine ⟨fun hlocked => by rw [hsame]; exact h.holds hlocked, ?_⟩
    have hknows := h.knows
    rw [AccessorFrame.Knows] at hknows ⊢
    rw [hsame]
    cases hat : fr.pc with
    | appendingAtPath =>
      simp only [hat] at hknows ⊢
      obtain ⟨hpath, hunresolved, d, hd, hvalid'⟩ := hknows
      refine ⟨hpath, hunresolved, d, hd, ?_⟩
      by_cases hdf : d = f
      · subst hdf
        rw [update_self]
        exact hvalid .getPath hvalid'
      · rwa [update_of_ne hdf]
    | firstCheck => trivial
    | locking => trivial
    | _ => simpa only [hat] using hknows

/-- The callers are calls for files that lie below, one in the other. -/
theorem below_of_isChain {callers : List (AccessorFrame F)} (h : (fr :: callers).IsChain ids.Calls) :
    ∀ caller ∈ callers, Relation.TransGen (fun d f => ids.atDir f = some d) fr.file caller.file ∧
      caller.pc = .gettingAtPath := by
  induction callers generalizing fr with
  | nil => exact fun caller hcaller => by cases hcaller
  | cons caller callers ih =>
    obtain ⟨hcalls, hrest⟩ := List.isChain_cons_cons.mp h
    intro caller' hcaller'
    rcases List.mem_cons.mp hcaller' with rfl | hmem
    · exact ⟨.single hcalls.2.1, hcalls.1⟩
    · obtain ⟨hbelow, hpc⟩ := ih hrest caller' hmem
      exact ⟨.head hcalls.2.1 hbelow, hpc⟩

theorem ne_of_isChain {callers : List (AccessorFrame F)} (h : (fr :: callers).IsChain ids.Calls) :
    ∀ caller ∈ callers, caller.file ≠ fr.file := by
  intro caller hcaller heq
  have hbelow := (below_of_isChain h caller hcaller).1
  rw [heq] at hbelow
  exact ids.acyclic.transGen.irrefl.irrefl _ hbelow

theorem FileIDs.cacheOk_update [DecidableEq F] (h : ∀ f, ids.CacheOk f (caches f))
    (hcache : ids.CacheOk f c) : ∀ g, ids.CacheOk g (update caches f c g) := by
  intro g
  by_cases hg : g = f
  · subst hg
    rwa [update_self]
  · rw [update_of_ne hg]
    exact h g

end Frames

section Steps

variable [DecidableEq T] {s s' : AccessState T F} {callers : List (AccessorFrame F)} {pc : AccessorPc}

/-- Calls begin and return, and no call that holds a lock is lost. -/
theorem AccessInvariant.setStack (h : AccessInvariant ids s) {stack : List (AccessorFrame F)}
    (hframe : ∀ fr ∈ stack, fr.Ok ids s.caches t) (hchain : stack.IsChain ids.Calls)
    (hholder : ∀ fr ∈ s.stack t, fr.pc.locked = true →
      ∃ fr' ∈ stack, fr'.file = fr.file ∧ fr'.pc.locked = true) :
    AccessInvariant ids (s.setStack t stack) := by
  refine ⟨h.cache, fun t' => ?_, fun t' => ?_, fun f t' hmutex => ?_⟩
  all_goals
    rw [AccessState.setStack_stack]
    by_cases ht : t' = t
  · subst ht
    rwa [update_self]
  · rw [update_of_ne ht]
    exact h.frame t'
  · subst ht
    rwa [update_self]
  · rw [update_of_ne ht]
    exact h.chain t'
  · subst ht
    obtain ⟨fr, hmem, rfl, hlocked⟩ := h.holder f t' hmutex
    rw [update_self]
    exact hholder fr hmem hlocked
  · rw [update_of_ne ht]
    exact h.holder f t' hmutex

/-- An accessor is called by a client, or for the at-directory of a file. -/
theorem AccessInvariant.call {accessor : Accessor} (h : AccessInvariant ids s)
    (hcalls : ∀ caller ∈ (s.stack t).head?, ids.Calls ⟨f, accessor, .firstCheck⟩ caller) :
    AccessInvariant ids (s.call t f accessor) := by
  refine h.setStack (fun fr hfr => ?_) ?_ fun fr hfr hlocked => ?_
  · rcases List.mem_cons.mp hfr with rfl | hfr
    · exact ⟨fun hlocked => absurd hlocked Bool.false_ne_true, trivial⟩
    · exact h.frame t fr hfr
  · have hchain := h.chain t
    cases hstack : s.stack t with
    | nil => exact List.isChain_singleton _
    | cons caller callers =>
      rw [hstack] at hchain hcalls
      exact List.isChain_cons_cons.mpr ⟨hcalls caller rfl, hchain⟩
  · exact ⟨fr, List.mem_cons_of_mem _ hfr, rfl, hlocked⟩

theorem AccessInvariant.returnToClient (h : AccessInvariant ids s) (hstack : s.stack t = [fr])
    (hpc : fr.pc.locked = false) : AccessInvariant ids (s.setStack t []) := by
  refine h.setStack (fun fr hfr => by cases hfr) List.isChain_nil fun fr' hfr' hlocked => ?_
  rw [hstack] at hfr'
  obtain rfl := List.mem_singleton.mp hfr'
  rw [hpc] at hlocked
  cases hlocked

/-- The caller of `GetPath` goes on when the path of its at-directory is there. -/
theorem AccessInvariant.returnToCaller {caller : AccessorFrame F} {failed : Bool}
    (h : AccessInvariant ids s) (hstack : s.stack t = fr :: caller :: callers)
    (hpc : fr.pc = .returned failed) :
    AccessInvariant ids (s.setStack t ({ caller with pc := .appendingAtPath } :: callers)) := by
  have hchain := hstack ▸ h.chain t
  obtain ⟨⟨hcaller, hat, haccessor⟩, hrest⟩ := List.isChain_cons_cons.mp hchain
  have hframe := hstack ▸ h.frame t
  have hfr := (hframe fr List.mem_cons_self).knows
  have hok := hframe caller (List.mem_cons_of_mem _ List.mem_cons_self)
  have hknows := hok.knows
  simp only [AccessorFrame.Knows, hpc, haccessor] at hfr
  simp only [AccessorFrame.Knows, hcaller] at hknows
  have hvalid : (s.caches fr.file).pathValid = true := by
    cases failed with
    | true => cases hfr
    | false => simpa [FileCache.isValid] using hfr
  refine h.setStack (fun fr' hfr' => ?_) ?_ fun fr' hfr' hlocked => ?_
  · rcases List.mem_cons.mp hfr' with rfl | hfr'
    · exact ⟨fun _ => hok.holds (by rw [hcaller]; rfl), hknows.1, hknows.2, _, hat, hvalid⟩
    · exact hframe fr' (List.mem_cons_of_mem _ (List.mem_cons_of_mem _ hfr'))
  · cases callers with
    | nil => exact List.isChain_singleton _
    | cons caller' callers =>
      obtain ⟨hcalls, hrest⟩ := List.isChain_cons_cons.mp hrest
      exact List.isChain_cons_cons.mpr ⟨hcalls, hrest⟩
  · rw [hstack] at hfr'
    rcases List.mem_cons.mp hfr' with rfl | hfr'
    · rw [hpc] at hlocked
      cases hlocked
    · rcases List.mem_cons.mp hfr' with rfl | hfr'
      · exact ⟨_, List.mem_cons_self, rfl, rfl⟩
      · exact ⟨fr', List.mem_cons_of_mem _ hfr', rfl, hlocked⟩

variable [DecidableEq F]

/-- A step of the innermost call of a thread that changes the members of its file under the lock, or
not at all. -/
theorem AccessInvariant.advance (h : AccessInvariant ids s) (hstack : s.stack t = fr :: callers)
    (hcache : ids.CacheOk fr.file c)
    (hvalid : ∀ a, (s.caches fr.file).isValid a = true → c.isValid a = true)
    (hown : c = s.caches fr.file ∨ ∀ t', (s.caches fr.file).mutex = some t' → t' = t)
    (hholder : ∀ t', c.mutex = some t' → (t' = t ∧ pc.locked = true) ∨
      ((s.caches fr.file).mutex = some t' ∧ (t' = t → fr.pc.locked = false)))
    (hholds : pc.locked = true → c.mutex = some t)
    (hknows : { fr with pc }.Knows ids (update s.caches fr.file c)) :
    AccessInvariant ids (s.advance t fr callers c pc) := by
  have hchain := hstack ▸ h.chain t
  refine ⟨FileIDs.cacheOk_update h.cache hcache, fun t' fr' hfr' => ?_, fun t' => ?_,
    fun f t' hmutex => ?_⟩
  · -- another call at the same file does not hold its lock
    have hother (hmem : fr' ∈ s.stack t') (hne : t' ≠ t ∨ fr' ∈ callers) :
        fr'.Ok ids (update s.caches fr.file c) t' := by
      have hok := h.frame t' fr' hmem
      rcases hown with rfl | hown
      · rwa [update_eq_self]
      · refine hok.of_update (fun hfile => ?_) hvalid
        by_contra hlocked
        have hheld := hok.holds (by simpa using hlocked)
        rw [hfile] at hheld
        rcases hne with hne | hcaller
        · exact hne (hown t' hheld)
        · exact ne_of_isChain hchain fr' hcaller hfile
    rw [AccessState.advance_stack] at hfr'
    by_cases ht : t' = t
    · subst ht
      rw [update_self] at hfr'
      rcases List.mem_cons.mp hfr' with rfl | hcaller
      · exact ⟨fun hlocked => by simpa using hholds hlocked, hknows⟩
      · exact hother (hstack ▸ List.mem_cons_of_mem _ hcaller) (Or.inr hcaller)
    · rw [update_of_ne ht] at hfr'
      exact hother hfr' (Or.inl ht)
  · rw [AccessState.advance_stack]
    by_cases ht : t' = t
    · subst ht
      rw [update_self]
      cases callers with
      | nil => exact List.isChain_singleton _
      | cons caller callers =>
        obtain ⟨hcalls, hrest⟩ := List.isChain_cons_cons.mp hchain
        exact List.isChain_cons_cons.mpr ⟨hcalls, hrest⟩
    · rw [update_of_ne ht]
      exact h.chain t'
  · rw [AccessState.advance_stack]
    rw [AccessState.advance_caches] at hmutex
    have hstays {fr' : AccessorFrame F} (hmem : fr' ∈ s.stack t') (hne : t' = t → fr' ≠ fr) :
        fr' ∈ update s.stack t ({ fr with pc } :: callers) t' := by
      by_cases ht : t' = t
      · subst ht
        rw [hstack] at hmem
        rw [update_self]
        exact List.mem_cons_of_mem _ ((List.mem_cons.mp hmem).resolve_left (hne rfl))
      · rwa [update_of_ne ht]
    by_cases hf : f = fr.file
    · subst hf
      rw [update_self] at hmutex
      rcases hholder t' hmutex with ⟨rfl, hlocked⟩ | ⟨hheld, hunlocked⟩
      · exact ⟨{ fr with pc }, by rw [update_self]; exact List.mem_cons_self, rfl, hlocked⟩
      · obtain ⟨fr', hmem, hfile, hlocked⟩ := h.holder _ t' hheld
        refine ⟨fr', hstays hmem fun ht => ?_, hfile, hlocked⟩
        rintro rfl
        rw [hunlocked ht] at hlocked
        cases hlocked
    · rw [update_of_ne hf] at hmutex
      obtain ⟨fr', hmem, hfile, hlocked⟩ := h.holder f t' hmutex
      refine ⟨fr', hstays hmem fun _ => ?_, hfile, hlocked⟩
      rintro rfl
      exact hf hfile.symm

/-- A step that changes no member, and neither takes nor gives up a lock. -/
theorem AccessInvariant.goOn (h : AccessInvariant ids s) (hstack : s.stack t = fr :: callers)
    (hlocked : pc.locked = fr.pc.locked) (hknows : { fr with pc }.Knows ids s.caches) :
    AccessInvariant ids (s.advance t fr callers (s.caches fr.file) pc) := by
  have hok := h.frame t fr (hstack ▸ List.mem_cons_self)
  refine h.advance hstack (h.cache _) (fun _ => id) (Or.inl rfl) (fun t' hmutex => ?_) (fun hpc => ?_) ?_
  · cases hpc : fr.pc.locked with
    | true =>
      have hheld := hok.holds hpc
      exact Or.inl ⟨Option.some.inj (hmutex.symm.trans hheld), hlocked.trans hpc⟩
    | false => exact Or.inr ⟨hmutex, fun _ => rfl⟩
  · exact hok.holds (hlocked ▸ hpc)
  · rwa [update_eq_self]

/-- A step that changes members under the lock. -/
theorem AccessInvariant.write (h : AccessInvariant ids s) (hstack : s.stack t = fr :: callers)
    (hfr : fr.pc.locked = true) (hpc : pc.locked = true) (hmutex : c.mutex = (s.caches fr.file).mutex)
    (hcache : ids.CacheOk fr.file c)
    (hvalid : ∀ a, (s.caches fr.file).isValid a = true → c.isValid a = true)
    (hknows : { fr with pc }.Knows ids (update s.caches fr.file c)) :
    AccessInvariant ids (s.advance t fr callers c pc) := by
  have hheld := (h.frame t fr (hstack ▸ List.mem_cons_self)).holds hfr
  have honly (t' : T) (ht' : (s.caches fr.file).mutex = some t') : t' = t :=
    Option.some.inj (ht'.symm.trans hheld)
  exact h.advance hstack hcache hvalid (Or.inr honly)
    (fun t' ht' => Or.inl ⟨honly t' (hmutex ▸ ht'), hpc⟩) (fun _ => hmutex.trans hheld) hknows

/-- The steps around the cache filler. -/
theorem AccessInvariant.lockStep (h : AccessInvariant ids s) (hstack : s.stack t = fr :: callers) :
    (fr.pc = .locking → (s.caches fr.file).mutex = none → AccessInvariant ids
      (s.advance t fr callers { s.caches fr.file with mutex := some t } .secondCheck)) ∧
    (∀ failed, fr.pc = .unlocking failed → AccessInvariant ids
      (s.advance t fr callers { s.caches fr.file with mutex := none } (.returned failed))) := by
  have hcache := h.cache fr.file
  have hok := h.frame t fr (hstack ▸ List.mem_cons_self)
  constructor
  · intro hpc hfree
    have hsettled := hcache.settled hfree
    refine h.advance hstack (hcache.setMutex fun hm => by cases hm) (fun _ => id)
      (Or.inr fun t' ht' => ?_) (fun t' ht' => Or.inl ⟨(Option.some.inj ht').symm, rfl⟩)
      (fun _ => rfl) ?_
    · rw [hfree] at ht'
      cases ht'
    · simpa [AccessorFrame.Knows] using hsettled
  · intro failed hpc
    have hheld := hok.holds (by rw [hpc]; rfl)
    have hknows := hok.knows
    simp only [AccessorFrame.Knows, hpc] at hknows
    refine h.advance hstack (hcache.setMutex fun _ => hknows.1) (fun _ => id)
      (Or.inr fun t' ht' => Option.some.inj (ht'.symm.trans hheld)) (fun t' ht' => by cases ht')
      (fun hlocked => absurd hlocked Bool.false_ne_true) ?_
    have houtcome := hknows.2
    simp only [AccessorFrame.Knows, update_self]
    exact houtcome

/-- The steps of `ResolvePath` that write the path. -/
theorem AccessInvariant.resolveStep (h : AccessInvariant ids s) (hstack : s.stack t = fr :: callers) :
    (∀ d, fr.pc = .appendingAtPath → ids.atDir fr.file = some d →
      AccessInvariant ids (if (s.caches d).path = [dot] then
        s.advance t fr callers { s.caches fr.file with path := ids.basename fr.file } fr.accessor.resolved
      else s.advance t fr callers
        { s.caches fr.file with path := (s.caches fr.file).path ++ (s.caches d).path }
        .appendingSlash)) ∧
    (fr.pc = .appendingSlash → AccessInvariant ids (s.advance t fr callers
      { s.caches fr.file with path := (s.caches fr.file).path ++ [slash] } .appendingBasename)) ∧
    (fr.pc = .appendingBasename → AccessInvariant ids (s.advance t fr callers
      { s.caches fr.file with path := (s.caches fr.file).path ++ ids.basename fr.file }
      fr.accessor.resolved)) := by
  have hcache := h.cache fr.file
  have hok := h.frame t fr (hstack ▸ List.mem_cons_self)
  have hknows := hok.knows
  refine ⟨fun d hpc hat => ?_, fun hpc => ?_, fun hpc => ?_⟩
  all_goals
    simp only [AccessorFrame.Knows, hpc] at hknows
    have hlocked : fr.pc.locked = true := by rw [hpc]; rfl
    have hmutex : (s.caches fr.file).mutex ≠ none := by simp [hok.holds hlocked]
  · obtain ⟨hpath, hunresolved, d', hat', hvalid⟩ := hknows
    obtain rfl := Option.some.inj (hat'.symm.trans hat)
    have hatPath := (h.cache d').path hvalid
    obtain ⟨_, -, hrelative⟩ := hcache.relative (by rw [hpath]; exact (ids.fullPath_ne_nil _).symm)
    have hfull := fullPath_of_relative hat hrelative
    rw [hatPath]
    by_cases hdot : ids.fullPath d' = [dot]
    · rw [if_pos hdot] at hfull ⊢
      refine h.write hstack hlocked (locked_resolved _) rfl (hcache.setPath hfull.symm) (fun _ => id) ?_
      exact knows_resolved rfl (by simpa using hfull.symm) fun _ => by simpa using hunresolved.2
    · rw [if_neg hdot]
      refine h.write hstack hlocked rfl rfl (hcache.setPartly hunresolved hmutex hat hrelative _)
        (fun _ => id) ?_
      simp only [AccessorFrame.Knows, update_self, hpath, List.nil_append]
      exact ⟨hunresolved, d', hat, hrelative, hdot, rfl⟩
  · obtain ⟨hunresolved, d, hat, hrelative, hdot, hpath⟩ := hknows
    refine h.write hstack hlocked rfl rfl (hcache.setPartly hunresolved hmutex hat hrelative _)
      (fun _ => id) ?_
    simp only [AccessorFrame.Knows, update_self, hpath]
    exact ⟨hunresolved, d, hat, hrelative, hdot, rfl⟩
  · obtain ⟨hunresolved, d, hat, hrelative, hdot, hpath⟩ := hknows
    have hfull := fullPath_of_relative hat hrelative
    rw [if_neg hdot] at hfull
    rw [hpath]
    refine h.write hstack hlocked (locked_resolved _) rfl (hcache.setPath hfull.symm) (fun _ => id) ?_
    exact knows_resolved rfl (by simpa using hfull.symm) fun _ => by simpa using hunresolved.2

/-- The steps of the cache fillers that leave the path as it is. -/
theorem AccessInvariant.fillStep (h : AccessInvariant ids s) (hstack : s.stack t = fr :: callers) :
    (∀ fd, fr.pc = .opening → AccessInvariant ids (s.advance t fr callers
      { s.caches fr.file with
        fileDescriptor := some fd
        opened := (s.caches fr.file).opened ++ [((s.caches fr.file).path, fd)] } .publishing)) ∧
    (fr.pc = .publishing → AccessInvariant ids (s.advance t fr callers
      ((s.caches fr.file).publish fr.accessor) (.unlocking false))) := by
  have hcache := h.cache fr.file
  have hknows := (h.frame t fr (hstack ▸ List.mem_cons_self)).knows
  refine ⟨fun fd hpc => ?_, fun hpc => ?_⟩
  all_goals
    simp only [AccessorFrame.Knows, hpc] at hknows
    have hlocked : fr.pc.locked = true := by rw [hpc]; rfl
  · obtain ⟨hpath, -, hclosed⟩ := hknows
    refine h.write hstack hlocked rfl rfl (hcache.setFileDescriptor hpath hclosed fd) (fun a ha => ?_) ?_
    · cases a <;> exact ha
    · simp only [AccessorFrame.Knows, update_self]
      exact ⟨hpath, fun _ _ => Option.some_ne_none fd⟩
  · obtain ⟨hpath, hopen⟩ := hknows
    obtain ⟨hvalid, hmono⟩ := FileCache.isValid_publish (s.caches fr.file) fr.accessor
    have hsame : ((s.caches fr.file).publish fr.accessor).mutex = (s.caches fr.file).mutex ∧
        ((s.caches fr.file).publish fr.accessor).path = (s.caches fr.file).path := by
      cases fr.accessor <;> exact ⟨rfl, rfl⟩
    refine h.write hstack hlocked rfl hsame.1 (hcache.publish hpath hopen) hmono ?_
    simp only [AccessorFrame.Knows, update_self]
    exact ⟨Or.inr (hsame.2.trans hpath), by simpa using hvalid⟩

theorem AccessInvariant.run {tempfd : Option Nat} (h : AccessInvariant ids s)
    (hrun : s.run t ids tempfd = some s') : AccessInvariant ids s' := by
  rw [AccessState.run] at hrun
  cases hstack : s.stack t with
  | nil => simp [hstack] at hrun
  | cons fr callers =>
    have hcache := h.cache fr.file
    have hknows := (h.frame t fr (hstack ▸ List.mem_cons_self)).knows
    cases hpc : fr.pc
    all_goals
      simp only [hstack, hpc] at hrun
      simp only [AccessorFrame.Knows, hpc] at hknows
    case firstCheck =>
      obtain rfl := Option.some.inj hrun
      split_ifs with hvalid
      · exact h.goOn hstack (by rw [hpc]; rfl) (by simpa [AccessorFrame.Knows] using hvalid)
      · exact h.goOn hstack (by rw [hpc]; rfl) trivial
    case locking =>
      split_ifs at hrun with hfree
      obtain rfl := Option.some.inj hrun
      exact (h.lockStep hstack).1 hpc (Option.isNone_iff_eq_none.mp hfree)
    case secondCheck =>
      split_ifs at hrun with hvalid
      · obtain rfl := Option.some.inj hrun
        exact h.goOn hstack (by rw [hpc]; rfl) ⟨hknows, by simpa using hvalid⟩
      · cases haccessor : fr.accessor with
        | getPath =>
          rw [haccessor] at hrun
          obtain rfl := Option.some.inj hrun
          exact h.goOn hstack (by rw [hpc]; rfl) ⟨hknows, fun hne => by simp [haccessor] at hne⟩
        | getFileDescriptor =>
          rw [haccessor] at hrun
          obtain rfl := Option.some.inj hrun
          exact h.goOn hstack (by rw [hpc]; rfl) ⟨hknows, haccessor⟩
    case checkingDescriptor =>
      have hpublishing (hpath : (s.caches fr.file).path = ids.fullPath fr.file)
          (hopen : ids.atDir fr.file ≠ none → (s.caches fr.file).fileDescriptor ≠ none) :
          AccessInvariant ids (s.advance t fr callers (s.caches fr.file) .publishing) :=
        h.goOn hstack (by rw [hpc]; rfl) ⟨hpath, fun _ => hopen⟩
      split_ifs at hrun with hfd hflags hat <;> obtain rfl := Option.some.inj hrun
      · have hne : (s.caches fr.file).fileDescriptor ≠ none := Option.isSome_iff_ne_none.mp hfd
        exact hpublishing (hcache.resolved hne) fun _ => hne
      · exact h.goOn hstack (by rw [hpc]; rfl) ⟨hknows.1, hknows.2⟩
      · have hnone := Option.isNone_iff_eq_none.mp hat
        refine hpublishing ?_ fun hne => absurd hnone hne
        by_contra hne
        obtain ⟨d, hd, -⟩ := hcache.relative hne
        rw [hnone] at hd
        cases hd
      · exact h.goOn hstack (by rw [hpc]; rfl) ⟨hknows.1, fun _ => by simpa using hfd⟩
    case resolving =>
      split_ifs at hrun with hpath
      · obtain rfl := Option.some.inj hrun
        exact h.goOn hstack ((locked_resolved _).trans (by rw [hpc]; rfl))
          (knows_resolved rfl (hknows.1.resolve_left hpath) hknows.2)
      · obtain ⟨d, hat, rfl⟩ := Option.map_eq_some_iff.mp hrun
        have hnil : (s.caches fr.file).path = [] := by simpa using hpath
        have hgetting : AccessInvariant ids
            (s.advance t fr callers (s.caches fr.file) .gettingAtPath) :=
          h.goOn hstack (by rw [hpc]; rfl) ⟨hnil, hcache.unresolved hnil⟩
        refine hgetting.call fun caller hcaller => ?_
        rw [AccessState.advance_stack, update_self] at hcaller
        obtain rfl := Option.some.inj hcaller
        exact ⟨rfl, hat, rfl⟩
    case gettingAtPath => cases hrun
    case appendingAtPath =>
      obtain ⟨d, hat, rfl⟩ := Option.map_eq_some_iff.mp hrun
      exact (h.resolveStep hstack).1 d hpc hat
    case appendingSlash =>
      obtain rfl := Option.some.inj hrun
      exact (h.resolveStep hstack).2.1 hpc
    case appendingBasename =>
      obtain rfl := Option.some.inj hrun
      exact (h.resolveStep hstack).2.2 hpc
    case opening =>
      cases tempfd with
      | some fd =>
        obtain rfl := Option.some.inj hrun
        exact (h.fillStep hstack).1 fd hpc
      | none =>
        obtain rfl := Option.some.inj hrun
        exact h.goOn hstack (by rw [hpc]; rfl) ⟨Or.inr hknows.1, hknows.2.1⟩
    case publishing =>
      obtain rfl := Option.some.inj hrun
      exact (h.fillStep hstack).2 hpc
    case unlocking failed =>
      obtain rfl := Option.some.inj hrun
      exact (h.lockStep hstack).2 failed hpc
    case returned failed =>
      cases callers with
      | nil =>
        obtain rfl := Option.some.inj hrun
        exact h.returnToClient hstack (by rw [hpc]; rfl)
      | cons caller callers =>
        obtain rfl := Option.some.inj hrun
        exact h.returnToCaller hstack hpc

theorem AccessReachable.invariant (h : AccessReachable ids s) : AccessInvariant ids s := by
  refine Reachable.invariant (I := AccessInvariant ids) (fun _ => accessInvariant_init)
    (fun s e s' _ hs hstep => ?_) h
  cases hstep with
  | call t f accessor hidle => exact hs.call fun caller hcaller => by simp [hidle] at hcaller
  | run t tempfd hrun => exact hs.run hrun

end Steps

end Ucg
