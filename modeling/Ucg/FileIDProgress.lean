import Ucg.FileIDSafety
import Ucg.Lib.LockOrder

/-! Every call of an accessor of `FileID` comes to its end: no thread waits for another that waits for
it, and the number of steps of a call is bounded by how deep its file is. -/

namespace Ucg

open Function Transition LockOrder

variable {T F : Type*} {ids : FileIDs F} {s s' : AccessState T F} {t : T} {f d : F}
  {fr : AccessorFrame F} {callers : List (AccessorFrame F)}

section Progress

variable [DecidableEq T]

/-- No innermost call waits for another call of its thread. -/
def AccessState.Innermost (s : AccessState T F) : Prop :=
  ∀ t fr callers, s.stack t = fr :: callers → fr.pc ≠ .gettingAtPath

theorem AccessState.Innermost.of_update (h : s.Innermost) {stack : List (AccessorFrame F)}
    (hstack : s'.stack = update s.stack t stack)
    (hpc : ∀ fr callers, stack = fr :: callers → fr.pc ≠ .gettingAtPath) : s'.Innermost := by
  intro t' fr callers htop
  rw [hstack] at htop
  by_cases ht : t' = t
  · subst ht
    rw [update_self] at htop
    exact hpc fr callers htop
  · rw [update_of_ne ht] at htop
    exact h t' fr callers htop

variable [DecidableEq F]

theorem AccessReachable.innermost (h : AccessReachable ids s) : s.Innermost := by
  refine Reachable.invariant (I := AccessState.Innermost) (fun s hs t fr callers htop => ?_)
    (fun s e s' _ hs hstep => ?_) h
  · rw [hs.2 t] at htop
    cases htop
  · cases hstep with
    | call t f accessor hidle =>
      refine hs.of_update rfl fun fr callers hfr => ?_
      obtain ⟨rfl, -⟩ := List.cons.inj hfr
      simp
    | run t tempfd hrun =>
      obtain ⟨fr, callers, hstack, hmoves⟩ := AccessState.run_moves hrun
      cases hmoves with
      | goesOn c pc _ hpc _ =>
        refine hs.of_update AccessState.advance_stack fun fr' callers' hfr => ?_
        obtain ⟨rfl, -⟩ := List.cons.inj hfr
        exact hpc
      | getsAtPath d _ _ =>
        refine hs.of_update AccessState.getsAtPath_stack fun fr' callers' hfr => ?_
        obtain ⟨rfl, -⟩ := List.cons.inj hfr
        simp
      | returnsToClient _ _ _ =>
        exact hs.of_update AccessState.setStack_stack fun fr' callers' hfr => by cases hfr
      | returnsToCaller caller rest _ _ _ =>
        refine hs.of_update AccessState.setStack_stack fun fr' callers' hfr => ?_
        obtain ⟨rfl, -⟩ := List.cons.inj hfr
        simp

def AccessState.holder (s : AccessState T F) (f : F) : Option T := (s.caches f).mutex

/-- The lock that the next step of a thread takes. -/
def AccessState.waitsFor (s : AccessState T F) (t : T) : Option F :=
  match s.stack t with
  | [] => none
  | fr :: _ => if fr.pc = .locking then some fr.file else none

/-- A call that does not wait for a lock can go on. -/
theorem exists_run (hinv : AccessInvariant ids s) (hinner : s.Innermost) (hbusy : s.stack t ≠ [])
    (hgo : CanGoOn s.holder s.waitsFor t) (tempfd : Option Nat) :
    ∃ s', s.run t ids tempfd = some s' := by
  obtain ⟨fr, callers, hstack⟩ := List.exists_cons_of_ne_nil hbusy
  have hknows := (hinv.frame t fr (hstack ▸ List.mem_cons_self)).knows
  have hinnermost := hinner t fr callers hstack
  rw [← Option.isSome_iff_exists, AccessState.run]
  cases hpc : fr.pc
  all_goals simp only [hstack, hpc]
  case locking =>
    have hfree : (s.caches fr.file).mutex = none :=
      hgo fr.file (by simp [AccessState.waitsFor, hstack, hpc])
    simp [hfree]
  case secondCheck =>
    split_ifs
    · rfl
    · cases fr.accessor <;> rfl
  case checkingDescriptor => split_ifs <;> rfl
  case resolving =>
    split_ifs with hpath
    · rfl
    · have hne : (s.caches fr.file).path ≠ ids.fullPath fr.file := by
        rw [not_not.mp hpath]
        exact (ids.fullPath_ne_nil fr.file).symm
      obtain ⟨d, hat, -⟩ := (hinv.cache fr.file).relative hne
      rw [hat]
      rfl
  case gettingAtPath => exact absurd hpc hinnermost
  case appendingAtPath =>
    simp only [AccessorFrame.Knows, hpc] at hknows
    obtain ⟨-, -, d, hat, -⟩ := hknows
    rw [hat]
    rfl
  case opening => cases tempfd <;> rfl
  case returned => cases callers <;> rfl
  all_goals rfl

/-- No deadlock: while some call has not returned, some thread can go on, whatever `open` returns. -/
theorem accessors_progress (h : AccessReachable ids s) (hbusy : s.stack t ≠ []) :
    ∃ t', ∀ tempfd, ∃ s', s.run t' ids tempfd = some s' := by
  have hinv := AccessReachable.invariant h
  have hinner := AccessReachable.innermost h
  by_cases hgo : CanGoOn s.holder s.waitsFor t
  · exact ⟨t, exists_run hinv hinner hbusy hgo⟩
  · have horder : ∀ k t k', s.holder k = some t → s.waitsFor t = some k' →
        Relation.TransGen (fun d f => ids.atDir f = some d) k' k := by
      intro k t k' hheld hwaits
      obtain ⟨fr, hmem, rfl, hlocked⟩ := hinv.holder k t hheld
      have hchain := hinv.chain t
      rw [AccessState.waitsFor] at hwaits
      cases hstack : s.stack t with
      | nil => simp [hstack] at hwaits
      | cons top callers =>
        simp only [hstack] at hwaits hmem hchain
        split_ifs at hwaits with hlocking
        obtain rfl := Option.some.inj hwaits
        rcases List.mem_cons.mp hmem with rfl | hcaller
        · rw [hlocking] at hlocked
          cases hlocked
        · exact (below_of_isChain hchain fr hcaller).1
    obtain ⟨k, t', hheld, hgo'⟩ := exists_holder_canGoOn ids.acyclic.transGen horder hgo
    obtain ⟨fr, hmem, -⟩ := hinv.holder k t' hheld
    exact ⟨t', exists_run hinv hinner (List.ne_nil_of_mem hmem) hgo'⟩

theorem accessors_progress_nested : ∃ (s : AccessState Bool NestedFile) (t' : Bool),
    s.WritesPath false .file ∧ ∀ tempfd, ∃ s', s.run t' nestedIDs tempfd = some s' := by
  obtain ⟨s, s', hs, -, hwrites, -⟩ := nestedIDs_runs
  have hbusy : s.stack false ≠ [] := by
    obtain ⟨fr, hfr, -⟩ := hwrites
    exact List.ne_nil_of_mem (List.mem_of_head? hfr)
  obtain ⟨t', hrun⟩ := accessors_progress hs hbusy
  exact ⟨s, t', hwrites, hrun⟩

end Progress

section Bound

/-- How many directories a file is in. -/
def FileIDs.depth (ids : FileIDs F) (f : F) : Nat :=
  match _h : ids.atDir f with
  | none => 0
  | some d => depth ids d + 1
termination_by ids.acyclic.wrap f

theorem FileIDs.depth_of_some (h : ids.atDir f = some d) : ids.depth f = ids.depth d + 1 := by
  rw [depth]
  split
  · rename_i hnone
    rw [h] at hnone
    cases hnone
  · rename_i d' hsome
    obtain rfl := Option.some.inj (h.symm.trans hsome)
    rfl

/-- How many steps a call has left at most. The calls of `GetPath` that may be necessary count until
the one for the at-directory has begun. -/
def AccessorFrame.cost (ids : FileIDs F) (fr : AccessorFrame F) : Nat :=
  fr.pc.rank + if 9 ≤ fr.pc.rank then 13 * ids.depth fr.file else 0

def stackCost (ids : FileIDs F) (stack : List (AccessorFrame F)) : Nat :=
  (stack.map (·.cost ids)).sum

@[simp] theorem stackCost_cons (fr : AccessorFrame F) (callers : List (AccessorFrame F)) :
    stackCost ids (fr :: callers) = fr.cost ids + stackCost ids callers := by
  simp [stackCost]

theorem cost_firstCheck (accessor : Accessor) :
    AccessorFrame.cost ids ⟨f, accessor, .firstCheck⟩ = 13 * (ids.depth f + 1) := by
  simp only [AccessorFrame.cost, AccessorPc.rank, Nat.reduceLeDiff, if_true]
  omega

variable [DecidableEq T] [DecidableEq F]

/-- A step of a thread makes less of what its calls have left. -/
theorem stackCost_lt (hmoves : s.Moves t ids fr callers s') (hstack : s.stack t = fr :: callers)
    (hchain : (fr :: callers).IsChain ids.Calls) :
    stackCost ids (s'.stack t) < stackCost ids (s.stack t) ∧ ∀ t' ≠ t, s'.stack t' = s.stack t' := by
  have hcost {stack : List (AccessorFrame F)} (hupdate : s'.stack = update s.stack t stack)
      (hlt : stackCost ids stack < stackCost ids (fr :: callers)) :
      stackCost ids (s'.stack t) < stackCost ids (s.stack t) ∧ ∀ t' ≠ t, s'.stack t' = s.stack t' := by
    rw [hupdate, update_self, hstack]
    exact ⟨hlt, fun t' ht => update_of_ne ht _ _⟩
  cases hmoves with
  | goesOn c pc hrank _ _ =>
    refine hcost AccessState.advance_stack ?_
    rw [stackCost_cons, stackCost_cons]
    refine Nat.add_lt_add_right ?_ _
    simp only [AccessorFrame.cost]
    split_ifs <;> omega
  | getsAtPath d hpc hat =>
    refine hcost AccessState.getsAtPath_stack ?_
    have hdepth := ids.depth_of_some hat
    rw [stackCost_cons, stackCost_cons, stackCost_cons, cost_firstCheck]
    simp only [AccessorFrame.cost, hpc, AccessorPc.rank, hdepth, Nat.reduceLeDiff, if_true, if_false]
    omega
  | returnsToClient failed hpc hcallers =>
    refine hcost AccessState.setStack_stack ?_
    rw [stackCost_cons, hcallers]
    simp [AccessorFrame.cost, hpc, AccessorPc.rank, stackCost]
  | returnsToCaller caller rest failed hpc hcallers =>
    refine hcost AccessState.setStack_stack ?_
    subst hcallers
    have hcaller := (List.isChain_cons_cons.mp hchain).1.1
    rw [stackCost_cons, stackCost_cons, stackCost_cons]
    simp only [AccessorFrame.cost, hpc, hcaller, AccessorPc.rank, Nat.reduceLeDiff, if_false]
    omega

def AccessEvent.runs (t : T) : AccessEvent T F → Bool
  | .call _ _ _ => false
  | .run t' _ => t' == t

/-- The steps of a thread between two of its calls, and what its calls have left behind them. -/
theorem countP_runs_le {s₀ : AccessState T F} {es : List (AccessEvent T F)}
    (h₀ : AccessReachable ids s₀) (h : Traced (· = s₀) (AccessStep ids) es s)
    (hno : ∀ f accessor, AccessEvent.call t f accessor ∉ es) :
    es.countP (·.runs t) + stackCost ids (s.stack t) ≤ stackCost ids (s₀.stack t) := by
  have hrun : AccessReachable ids s ∧ ((∀ f accessor, AccessEvent.call t f accessor ∉ es) →
      es.countP (·.runs t) + stackCost ids (s.stack t) ≤ stackCost ids (s₀.stack t)) := by
    refine Traced.invariant (I := fun es s => AccessReachable ids s ∧
      ((∀ f accessor, AccessEvent.call t f accessor ∉ es) →
        es.countP (·.runs t) + stackCost ids (s.stack t) ≤ stackCost ids (s₀.stack t)))
      (fun s hs => ?_) (fun es s e s' _ hs hstep => ⟨hs.1.tail hstep, fun hno => ?_⟩) h
    · rw [hs]
      exact ⟨h₀, fun _ => by simp⟩
    · have hbefore := hs.2 fun f accessor hmem => hno f accessor (List.mem_append_left _ hmem)
      rw [List.countP_append]
      cases hstep with
      | call t' f accessor hidle =>
        have ht : t ≠ t' := by
          rintro rfl
          exact hno f accessor (List.mem_append_right _ List.mem_cons_self)
        rw [AccessState.call_stack, update_of_ne ht]
        simpa [AccessEvent.runs] using hbefore
      | run t' tempfd hrun =>
        obtain ⟨fr, callers, hstack, hmoves⟩ := AccessState.run_moves hrun
        have hchain := hstack ▸ (AccessReachable.invariant hs.1).chain t'
        obtain ⟨hlt, hothers⟩ := stackCost_lt hmoves hstack hchain
        by_cases ht : t' = t
        · subst ht
          have hruns : AccessEvent.runs t' (.run t' tempfd : AccessEvent T F) = true := by
            simp [AccessEvent.runs]
          rw [List.countP_singleton, if_pos hruns]
          omega
        · rw [hothers t fun h => ht h.symm]
          simpa [AccessEvent.runs, ht] using hbefore
  exact hrun.2 hno

/-- Whatever the other threads do meanwhile, a call takes at most thirteen steps of its thread for its
file and for each directory that this is in. -/
theorem accessor_steps_le {s₀ : AccessState T F} {es : List (AccessEvent T F)} {accessor : Accessor}
    (h₀ : AccessReachable ids s₀) (hcall : s₀.stack t = [⟨f, accessor, .firstCheck⟩])
    (h : Traced (· = s₀) (AccessStep ids) es s) (hno : ∀ f a, AccessEvent.call t f a ∉ es) :
    es.countP (·.runs t) ≤ 13 * (ids.depth f + 1) := by
  have hle := countP_runs_le h₀ h hno
  rw [hcall, stackCost_cons, cost_firstCheck] at hle
  have hnil : stackCost ids [] = 0 := rfl
  omega

theorem accessor_steps_le_nested : ∃ (s : AccessState Bool NestedFile)
    (es : List (AccessEvent Bool NestedFile)),
    Traced (· = nestedIDsStart.call false NestedFile.file .getFileDescriptor) (AccessStep nestedIDs) es s ∧
      es.countP (·.runs false) = 3 ∧ es.countP (·.runs false) ≤ 13 * (nestedIDs.depth .file + 1) := by
  have hstart : AccessReachable nestedIDs nestedIDsStart := .start nestedIDsStart_init
  have h₀ := hstart.tail (.call false .file .getFileDescriptor rfl)
  have hcall : Traced (· = nestedIDsStart.call false NestedFile.file .getFileDescriptor)
      (AccessStep nestedIDs) [] (nestedIDsStart.call false .file .getFileDescriptor) := .start rfl
  have hlocking := (hcall.tail (.run false none rfl)).tail (.call true .dir .getPath rfl)
  have hlocked := hlocking.tail (.run false none rfl)
  have hchecked := hlocked.tail (.run false none rfl)
  have hstack : (nestedIDsStart.call false .file .getFileDescriptor).stack false =
      [⟨.file, .getFileDescriptor, .firstCheck⟩] := rfl
  refine ⟨_, _, hchecked, rfl, accessor_steps_le h₀ hstack hchecked fun f a hmem => ?_⟩
  simp at hmem

end Bound

end Ucg
