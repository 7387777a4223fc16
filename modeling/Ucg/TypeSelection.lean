import Ucg.Lib.LastSuch
import Ucg.TypeTables

/-! A sequence of calls of `type` and `notype`: which types it leaves active, with which
filters, and which filters it leaves removed. -/

namespace Ucg

open ByteOrder

inductive TypeCall
  | type (typeName : Bytes)
  | notype (typeName : Bytes)
  deriving DecidableEq, Repr

namespace TypeCall

def typeName : TypeCall → Bytes
  | type t => t
  | notype t => t

@[simp] theorem typeName_type (t : Bytes) : (type t).typeName = t := rfl

@[simp] theorem typeName_notype (t : Bytes) : (notype t).typeName = t := rfl

def isType : TypeCall → Bool
  | type _ => true
  | notype _ => false

@[simp] theorem isType_type (t : Bytes) : (type t).isType = true := rfl

@[simp] theorem isType_notype (t : Bytes) : (notype t).isType = false := rfl

end TypeCall

namespace TypeManager

variable {tm : TypeManager} {cs : List TypeCall} {c : TypeCall} {t f : Bytes}

def IsDefined (tm : TypeManager) (t : Bytes) : Prop :=
  ∃ filters, tm.builtinAndUserTypeMap.find? t = some filters

theorem isDefined_new {t : Bytes} (h : ∃ e ∈ builtinTypeArray, str e.1 = t) :
    TypeManager.new.IsDefined t := by
  obtain ⟨e, he, rfl⟩ := h
  have hlast : lastSuch (fun e' => decide (str e'.1 = str e.1)) builtinTypeArray ≠ none := by
    intro hnone
    simpa using lastSuch_eq_none_iff.mp hnone e he
  obtain ⟨e', he'⟩ := Option.ne_none_iff_exists'.mp hlast
  exact ⟨_, (find?_builtinTypeMap _).trans (congrArg (Option.map _) he')⟩

def call (tm : TypeManager) : TypeCall → TypeManager
  | .type t => (tm.type t).2
  | .notype t => (tm.notype t).2

def calls (tm : TypeManager) (cs : List TypeCall) : TypeManager := cs.foldl call tm

/-- The type that `c` names contains `f`. -/
def concerns (tm : TypeManager) (f : Bytes) (c : TypeCall) : Bool :=
  ((tm.builtinAndUserTypeMap.find? c.typeName).getD []).contains f

theorem call_type {filters : List Bytes} (h : tm.builtinAndUserTypeMap.find? t = some filters) :
    tm.call (.type t) = { tm.clearActive with
      removedTypeFilters := tm.removedTypeFilters.filter (·.1 ∉ filters)
      activeTypeMap := tm.clearActive.activeTypeMap.insert t filters } := by
  simp only [call, type, h]

theorem call_notype {filters : List Bytes}
    (h : tm.builtinAndUserTypeMap.find? t = some filters) :
    tm.call (.notype t) = { tm with
      removedTypeFilters := tm.removedTypeFilters ++ filters.map (·, t)
      activeTypeMap := tm.activeTypeMap.erase t } := by
  simp only [call, notype, h]

theorem type_of_not_defined (h : ¬ tm.IsDefined t) : tm.type t = (false, tm) := by
  have hnone : tm.builtinAndUserTypeMap.find? t = none :=
    Option.eq_none_iff_forall_ne_some.mpr fun filters hf => h ⟨filters, hf⟩
  simp only [type, hnone]

theorem notype_of_not_defined (h : ¬ tm.IsDefined t) : tm.notype t = (false, tm) := by
  have hnone : tm.builtinAndUserTypeMap.find? t = none :=
    Option.eq_none_iff_forall_ne_some.mpr fun filters hf => h ⟨filters, hf⟩
  simp only [notype, hnone]

theorem call_of_not_defined (h : ¬ tm.IsDefined c.typeName) : tm.call c = tm := by
  cases c with
  | type t => rw [call, type_of_not_defined (t := t) h]
  | notype t => rw [call, notype_of_not_defined (t := t) h]

/-- The fields that no call of `type` or `notype` writes. -/
structure SameDefinitions (tm tm' : TypeManager) : Prop where
  builtinAndUserTypeMap : tm'.builtinAndUserTypeMap = tm.builtinAndUserTypeMap
  excludeGlobs : tm'.excludeGlobs = tm.excludeGlobs
  includeExcludeGlobs : tm'.includeExcludeGlobs = tm.includeExcludeGlobs
  includeExtensions : tm'.includeExtensions = tm.includeExtensions
  includedLiteralFilenames : tm'.includedLiteralFilenames = tm.includedLiteralFilenames
  includedFirstLineRegexes : tm'.includedFirstLineRegexes = tm.includedFirstLineRegexes

theorem SameDefinitions.refl (tm : TypeManager) : tm.SameDefinitions tm :=
  ⟨rfl, rfl, rfl, rfl, rfl, rfl⟩

theorem SameDefinitions.trans {tm' tm'' : TypeManager} (h : tm.SameDefinitions tm')
    (h' : tm'.SameDefinitions tm'') : tm.SameDefinitions tm'' where
  builtinAndUserTypeMap := h'.builtinAndUserTypeMap.trans h.builtinAndUserTypeMap
  excludeGlobs := h'.excludeGlobs.trans h.excludeGlobs
  includeExcludeGlobs := h'.includeExcludeGlobs.trans h.includeExcludeGlobs
  includeExtensions := h'.includeExtensions.trans h.includeExtensions
  includedLiteralFilenames := h'.includedLiteralFilenames.trans h.includedLiteralFilenames
  includedFirstLineRegexes := h'.includedFirstLineRegexes.trans h.includedFirstLineRegexes

theorem sameDefinitions_clearActive (tm : TypeManager) : tm.SameDefinitions tm.clearActive := by
  by_cases hseen : tm.firstTypeHasBeenSeen = true
  · rw [clearActive, if_pos hseen]
    exact SameDefinitions.refl tm
  · rw [clearActive, if_neg hseen]
    exact ⟨rfl, rfl, rfl, rfl, rfl, rfl⟩

theorem sameDefinitions_call (tm : TypeManager) (c : TypeCall) : tm.SameDefinitions (tm.call c) := by
  by_cases hdef : tm.IsDefined c.typeName
  · obtain ⟨filters, hf⟩ := hdef
    cases c with
    | type t =>
      have hclear := sameDefinitions_clearActive tm
      rw [call_type (t := t) hf]
      exact ⟨hclear.1, hclear.2, hclear.3, hclear.4, hclear.5, hclear.6⟩
    | notype t =>
      rw [call_notype (t := t) hf]
      exact ⟨rfl, rfl, rfl, rfl, rfl, rfl⟩
  · rw [call_of_not_defined hdef]
    exact SameDefinitions.refl tm

@[simp] theorem builtinAndUserTypeMap_type (tm : TypeManager) (t : Bytes) :
    (tm.type t).2.builtinAndUserTypeMap = tm.builtinAndUserTypeMap :=
  (sameDefinitions_call tm (.type t)).builtinAndUserTypeMap

@[simp] theorem builtinAndUserTypeMap_notype (tm : TypeManager) (t : Bytes) :
    (tm.notype t).2.builtinAndUserTypeMap = tm.builtinAndUserTypeMap :=
  (sameDefinitions_call tm (.notype t)).builtinAndUserTypeMap

theorem calls_concat (tm : TypeManager) (cs : List TypeCall) (c : TypeCall) :
    tm.calls (cs ++ [c]) = (tm.calls cs).call c := by
  rw [calls, calls, List.foldl_append, List.foldl_cons, List.foldl_nil]

theorem sameDefinitions_calls (tm : TypeManager) (cs : List TypeCall) :
    tm.SameDefinitions (tm.calls cs) := by
  induction cs using List.reverseRecOn with
  | nil => exact SameDefinitions.refl tm
  | append_singleton cs c ih =>
    rw [calls_concat]
    exact ih.trans (sameDefinitions_call _ c)

theorem Uncompiled.call (h : tm.Uncompiled) (c : TypeCall) : (tm.call c).Uncompiled := by
  have hsame := sameDefinitions_call tm c
  refine ⟨hsame.includeExtensions.trans h.1, hsame.includedLiteralFilenames.trans h.2,
    hsame.includedFirstLineRegexes.trans h.3, hsame.builtinAndUserTypeMap ▸ h.definedNulFree, ?_⟩
  by_cases hdef : tm.IsDefined c.typeName
  · obtain ⟨filters, hf⟩ := hdef
    cases c with
    | type t =>
      have hclear : tm.clearActive.activeTypeMap.AllFilters (nul ∉ ·) := by
        by_cases hseen : tm.firstTypeHasBeenSeen = true
        · rw [clearActive, if_pos hseen]
          exact h.activeNulFree
        · rw [clearActive, if_neg hseen]
          intro t filters hfind
          simp at hfind
      rw [call_type (t := t) hf]
      exact hclear.insert t (h.definedNulFree t filters hf)
    | notype t =>
      rw [call_notype (t := t) hf]
      exact h.activeNulFree.erase t
  · rw [call_of_not_defined hdef]
    exact h.activeNulFree

theorem Uncompiled.calls (h : tm.Uncompiled) (cs : List TypeCall) : (tm.calls cs).Uncompiled := by
  induction cs using List.reverseRecOn with
  | nil => exact h
  | append_singleton cs c ih =>
    rw [calls_concat]
    exact ih.call c

section Removed

theorem isRemovedFilter_call_of_concerns (h : tm.concerns f c = true) :
    (tm.call c).IsRemovedFilter f ↔ c.isType = false := by
  simp only [concerns, List.contains_eq_mem, decide_eq_true_eq] at h
  cases hf : tm.builtinAndUserTypeMap.find? c.typeName with
  | none => simp [hf] at h
  | some filters =>
    rw [hf, Option.getD_some] at h
    cases c with
    | type t =>
      rw [call_type (t := t) hf]
      simp [IsRemovedFilter, h]
    | notype t =>
      rw [call_notype (t := t) hf]
      simp [IsRemovedFilter, h]

theorem isRemovedFilter_call_of_not_concerns (h : tm.concerns f c = false) :
    (tm.call c).IsRemovedFilter f ↔ tm.IsRemovedFilter f := by
  simp only [concerns, List.contains_eq_mem, decide_eq_false_iff_not] at h
  cases hf : tm.builtinAndUserTypeMap.find? c.typeName with
  | none => rw [call_of_not_defined (by simp [IsDefined, hf])]
  | some filters =>
    rw [hf, Option.getD_some] at h
    cases c with
    | type t =>
      rw [call_type (t := t) hf]
      simp [IsRemovedFilter, h]
    | notype t =>
      rw [call_notype (t := t) hf]
      simp [IsRemovedFilter, h]

theorem isRemovedFilter_calls (tm : TypeManager) (cs : List TypeCall) (f : Bytes) :
    (tm.calls cs).IsRemovedFilter f ↔ match lastSuch (tm.concerns f) cs with
      | some c => c.isType = false
      | none => tm.IsRemovedFilter f := by
  have hfold := foldl_eq_of_lastSuch (tm.concerns f) call
    (fun tm' => tm'.builtinAndUserTypeMap = tm.builtinAndUserTypeMap)
    (fun tm' => tm'.IsRemovedFilter f) (fun c => c.isType = false)
    (fun tm' c h => (sameDefinitions_call tm' c).builtinAndUserTypeMap.trans h)
    (fun tm' c h hc => propext (isRemovedFilter_call_of_concerns (by rwa [concerns, h])))
    (fun tm' c h hc => propext (isRemovedFilter_call_of_not_concerns (by rwa [concerns, h])))
    cs rfl
  rw [calls, hfold.1]
  cases lastSuch (tm.concerns f) cs <;> rfl

end Removed

section Active

/-- What the first call of `type` leaves of the entry that `t` had. -/
def keptFilters (tm : TypeManager) (cs : List TypeCall) (t : Bytes) : Option (List Bytes) :=
  if tm.firstTypeHasBeenSeen = false ∧ cs.any TypeCall.isType = true then none
  else tm.activeTypeMap.find? t

/-- The filters with which `cs` leaves `t` active. `type` does not renew an active entry. -/
def activeFilters (tm : TypeManager) (cs : List TypeCall) (t : Bytes) : Option (List Bytes) :=
  match lastSuch (·.typeName = t) cs with
  | none => tm.keptFilters cs t
  | some (.notype _) => none
  | some (.type _) =>
    if .notype t ∈ cs then tm.builtinAndUserTypeMap.find? t
    else (tm.keptFilters cs t).or (tm.builtinAndUserTypeMap.find? t)

theorem firstTypeHasBeenSeen_calls (hdef : ∀ c ∈ cs, tm.IsDefined c.typeName) :
    (tm.calls cs).firstTypeHasBeenSeen =
      (tm.firstTypeHasBeenSeen || cs.any TypeCall.isType) := by
  induction cs using List.reverseRecOn with
  | nil => simp [calls]
  | append_singleton cs c ih =>
    have ih := ih fun c hc => hdef c (List.mem_append_left _ hc)
    obtain ⟨filters, hf⟩ := hdef c (by simp)
    rw [← (sameDefinitions_calls tm cs).builtinAndUserTypeMap] at hf
    rw [calls_concat]
    cases c with
    | type t =>
      rw [call_type (t := t) hf]
      by_cases hseen : (tm.calls cs).firstTypeHasBeenSeen = true
      · simp [clearActive, hseen]
      · simp [clearActive, hseen]
    | notype t =>
      rw [call_notype (t := t) hf]
      simp [ih]

theorem clearActive_of_seen (h : tm.firstTypeHasBeenSeen = true) : tm.clearActive = tm := by
  rw [clearActive, if_pos h]

theorem find?_clearActive (h : tm.firstTypeHasBeenSeen = false) :
    tm.clearActive.activeTypeMap.find? t = none := by
  rw [clearActive, if_neg (by simp [h])]
  exact SortedMap.find?_empty t

theorem keptFilters_concat_notype (t u : Bytes) :
    tm.keptFilters (cs ++ [.notype u]) t = tm.keptFilters cs t := by
  simp [keptFilters]

theorem keptFilters_concat_type (t u : Bytes)
    (h : (tm.firstTypeHasBeenSeen || cs.any TypeCall.isType) = true) :
    tm.keptFilters (cs ++ [.type u]) t = tm.keptFilters cs t := by
  cases hseen : tm.firstTypeHasBeenSeen with
  | true => simp [keptFilters, hseen]
  | false =>
    rw [hseen, Bool.false_or] at h
    simp [keptFilters, hseen, h]

theorem keptFilters_concat_first_type (t u : Bytes)
    (h : (tm.firstTypeHasBeenSeen || cs.any TypeCall.isType) = false) :
    tm.keptFilters (cs ++ [.type u]) t = none := by
  rw [Bool.or_eq_false_iff] at h
  simp [keptFilters, h.1]

theorem activeFilters_concat_notype (t u : Bytes) :
    tm.activeFilters (cs ++ [.notype u]) t = if t = u then none else tm.activeFilters cs t := by
  rw [activeFilters, lastSuch_concat]
  by_cases htu : t = u
  · simp [htu]
  · have hut : u ≠ t := Ne.symm htu
    simp only [TypeCall.typeName_notype, hut, htu, decide_false, Bool.false_eq_true, if_false,
      activeFilters, keptFilters_concat_notype, List.mem_append, List.mem_singleton,
      TypeCall.notype.injEq, or_false]

theorem notype_not_mem_of_lastSuch (h : lastSuch (·.typeName = t) cs = none) :
    TypeCall.notype t ∉ cs := fun hmem => by
  simpa using lastSuch_eq_none_iff.mp h _ hmem

theorem notype_mem_of_lastSuch {u : Bytes}
    (h : lastSuch (·.typeName = t) cs = some (.notype u)) : TypeCall.notype t ∈ cs := by
  obtain ⟨hmem, hu⟩ := lastSuch_mem h
  obtain rfl : u = t := of_decide_eq_true hu
  exact hmem

theorem activeFilters_concat_type (hdef : tm.IsDefined t)
    (h : (tm.firstTypeHasBeenSeen || cs.any TypeCall.isType) = true) :
    tm.activeFilters (cs ++ [.type t]) t =
      (tm.activeFilters cs t).or (tm.builtinAndUserTypeMap.find? t) := by
  obtain ⟨filters, hf⟩ := hdef
  simp only [activeFilters, lastSuch_concat, TypeCall.typeName_type, decide_true, if_true,
    keptFilters_concat_type t t h, List.mem_append, List.mem_singleton, reduceCtorEq, or_false, hf]
  cases hlast : lastSuch (·.typeName = t) cs with
  | none => rw [if_neg (notype_not_mem_of_lastSuch hlast)]
  | some c =>
    cases c with
    | type u => by_cases hmem : TypeCall.notype t ∈ cs <;> simp [hmem]
    | notype u => simp [notype_mem_of_lastSuch hlast]

theorem activeFilters_concat_type_of_ne {u : Bytes} (htu : t ≠ u)
    (h : (tm.firstTypeHasBeenSeen || cs.any TypeCall.isType) = true) :
    tm.activeFilters (cs ++ [.type u]) t = tm.activeFilters cs t := by
  simp only [activeFilters, lastSuch_concat, TypeCall.typeName_type, Ne.symm htu, decide_false,
    Bool.false_eq_true, if_false, keptFilters_concat_type t u h, List.mem_append,
    List.mem_singleton, reduceCtorEq, or_false]

theorem activeFilters_concat_first_type (t u : Bytes)
    (h : (tm.firstTypeHasBeenSeen || cs.any TypeCall.isType) = false) :
    tm.activeFilters (cs ++ [.type u]) t =
      if t = u then tm.builtinAndUserTypeMap.find? u else none := by
  have hkept := keptFilters_concat_first_type t u h
  rw [activeFilters, lastSuch_concat]
  by_cases htu : t = u
  · simp [htu, htu ▸ hkept]
  · simp only [TypeCall.typeName_type, Ne.symm htu, htu, decide_false, Bool.false_eq_true, if_false,
      hkept]
    cases hlast : lastSuch (·.typeName = t) cs with
    | none => rfl
    | some c =>
      have hnotype := List.any_eq_false.mp (Bool.or_eq_false_iff.mp h).2 c (lastSuch_mem hlast).1
      cases c with
      | type v => simp at hnotype
      | notype v => rfl

/-- Which types the calls leave active, and with which filters. -/
theorem find?_activeTypeMap_calls (hdef : ∀ c ∈ cs, tm.IsDefined c.typeName) (t : Bytes) :
    (tm.calls cs).activeTypeMap.find? t = tm.activeFilters cs t := by
  induction cs using List.reverseRecOn generalizing t with
  | nil => simp [calls, activeFilters, keptFilters]
  | append_singleton cs c ih =>
    have hdef' : ∀ c ∈ cs, tm.IsDefined c.typeName := fun c hc => hdef c (List.mem_append_left _ hc)
    have ih := ih hdef'
    have hseen := firstTypeHasBeenSeen_calls hdef'
    have hc := hdef c (by simp)
    obtain ⟨filters, hf⟩ := hc
    have hf' := hf
    rw [← (sameDefinitions_calls tm cs).builtinAndUserTypeMap] at hf'
    rw [calls_concat]
    cases c with
    | notype u =>
      rw [call_notype (t := u) hf', activeFilters_concat_notype, ← ih t]
      exact SortedMap.find?_erase _ u t
    | type u =>
      rw [call_type (t := u) hf']
      change ((tm.calls cs).clearActive.activeTypeMap.insert u filters).find? t = _
      rw [SortedMap.find?_insert]
      cases hfirst : (tm.firstTypeHasBeenSeen || cs.any TypeCall.isType) with
      | false =>
        rw [hfirst] at hseen
        rw [activeFilters_concat_first_type t u hfirst, find?_clearActive hseen,
          find?_clearActive hseen]
        exact if_congr Iff.rfl hf.symm rfl
      | true =>
        rw [hfirst] at hseen
        rw [clearActive_of_seen hseen, ih u, ih t]
        by_cases htu : t = u
        · subst htu
          rw [if_pos rfl, activeFilters_concat_type (t := t) ⟨filters, hf⟩ hfirst]
          cases tm.activeFilters cs t with
          | none => exact hf.symm
          | some old => rfl
        · rw [if_neg htu, activeFilters_concat_type_of_ne htu hfirst]

end Active

end TypeManager

end Ucg
