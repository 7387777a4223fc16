import Ucg.TypeRuns

/-! What a deleted, replaced or deselected type leaves behind: the globs that were given for it. -/

namespace Ucg

open ByteOrder Transition TypeManager

/-- The filter matches a name: as its extension, as the whole name where the filter is none for
extensions, or as a glob. -/
def GivenFilter.Matches (fnmatch : Bytes → Bytes → Bool) (name : Bytes) : GivenFilter → Prop
  | .lookup f => nameExtension name = some f ∨ filterKind f = .literal ∧ name = f
  | .glob g => fnmatch g name = true

/-- The operation deletes, replaces or deselects the type `T`. -/
def TypeOp.Removes (T : Bytes) : TypeOp → Prop
  | .add true spec => ∃ filterType filterArgs, split spec.bytes colon = [T, filterType, filterArgs]
  | .del typeName => typeName = T
  | .notype typeName => typeName = T
  | _ => False

/-- The glob that the last two parts of a specification give, and whether it includes. -/
def newGlobs (filterType filterArgs : Bytes) : List (Bytes × Bool) :=
  if filterType = str "glob" then [(filterArgs, true)]
  else if filterType = str "globx" then [(filterArgs, false)]
  else []

theorem newGlobs_glob (filterArgs : Bytes) : newGlobs (str "glob") filterArgs = [(filterArgs, true)] :=
  if_pos rfl

theorem newGlobs_globx (filterArgs : Bytes) : newGlobs (str "globx") filterArgs = [(filterArgs, false)] := by
  rw [newGlobs, if_neg (by decide), if_pos rfl]

theorem newGlobs_eq_nil {filterType filterArgs : Bytes} (h : filterType = str "is" ∨ filterType = str "ext") :
    newGlobs filterType filterArgs = [] := by
  rcases h with rfl | rfl <;> rw [newGlobs, if_neg (by decide), if_neg (by decide)]

def specGlobs (spec : Bytes) : List (Bytes × Bool) :=
  match split spec colon with
  | [_, filterType, filterArgs] => newGlobs filterType filterArgs
  | _ => []

theorem specGlobs_eq {spec fileType filterType filterArgs : Bytes}
    (hsplit : split spec colon = [fileType, filterType, filterArgs]) :
    specGlobs spec = newGlobs filterType filterArgs := by
  simp only [specGlobs, hsplit]

def TypeOp.globs : TypeOp → List (Bytes × Bool)
  | .add _ spec => specGlobs spec.bytes
  | .ignoreFile spec => specGlobs (ignoreFileTypeName ++ str ":" ++ spec.bytes)
  | .includeGlob spec => specGlobs (includeGlobFileTypeName ++ spec.bytes)
  | _ => []

theorem TypeOp.Removes.gives {op : TypeOp} {T U : Bytes} {f : GivenFilter} (h : op.Removes T)
    (hgives : (U, f) ∈ op.gives) : U = T := by
  cases op with
  | add deleteTypeFirst spec =>
    cases deleteTypeFirst with
    | false => exact absurd h id
    | true =>
      obtain ⟨filterType, filterArgs, hsplit⟩ := h
      simp only [TypeOp.gives, specGives, hsplit, List.mem_map, Prod.mk.injEq] at hgives
      obtain ⟨_, _, rfl, _⟩ := hgives
      rfl
  | ignoreFile spec => exact absurd h id
  | includeGlob spec => exact absurd h id
  | _ => cases hgives

namespace TypeManager

variable {tm tm' : TypeManager} {T : Bytes} {op : TypeOp} {G : Bytes → Bytes → Prop}

theorem includeExcludeGlobs_spec {deleteTypeFirst : Bool} {spec : Bytes}
    (hadd : tm.typeAddFromFilterSpecString deleteTypeFirst spec = .ok tm') :
    tm'.includeExcludeGlobs = tm.includeExcludeGlobs ++ specGlobs spec := by
  obtain ⟨fileType, filterType, filterArgs, hsplit, -⟩ := typeAddFromFilterSpecString_cases hadd
  have hbase : (tm.specBase deleteTypeFirst fileType).includeExcludeGlobs = tm.includeExcludeGlobs := by
    cases deleteTypeFirst <;> rfl
  rw [specGlobs_eq hsplit, ← hbase]
  rcases typeAddFromFilterSpecString_eq hsplit hadd with ⟨hfilter, rfl⟩ | ⟨rfl, rfl⟩ | ⟨rfl, rfl⟩
  · rw [newGlobs_eq_nil hfilter, List.append_nil]
    rfl
  · rw [newGlobs_globx]
    rfl
  · rw [newGlobs_glob]
    exact (sameDefinitions_call _ (.type fileType)).includeExcludeGlobs

theorem includeExcludeGlobs_step (hop : TypeStep tm op tm') :
    tm'.includeExcludeGlobs = tm.includeExcludeGlobs ++ op.globs := by
  cases op with
  | add deleteTypeFirst spec => exact includeExcludeGlobs_spec hop
  | ignoreFile spec =>
    obtain ⟨tm₁, hadd, rfl⟩ := typeAddIgnoreFile_inversion hop
    exact (sameDefinitions_call tm₁ (.notype _)).includeExcludeGlobs.trans (includeExcludeGlobs_spec hadd)
  | includeGlob spec =>
    obtain ⟨tm₁, hadd, rfl⟩ := typeAddIncludeGlob_inversion hop
    exact (sameDefinitions_call tm₁ (.type _)).includeExcludeGlobs.trans (includeExcludeGlobs_spec hadd)
  | del typeName =>
    obtain rfl := Except.ok.inj hop
    exact (List.append_nil _).symm
  | type typeName =>
    obtain rfl := Except.ok.inj hop
    exact (sameDefinitions_call tm (.type typeName)).includeExcludeGlobs.trans (List.append_nil _).symm
  | notype typeName =>
    obtain rfl := Except.ok.inj hop
    exact (sameDefinitions_call tm (.notype typeName)).includeExcludeGlobs.trans (List.append_nil _).symm

theorem filterKind_glob (glob : Bytes) : filterKind (str "?" ++ glob) = .glob := by
  have hhead : (str "?" ++ glob).head? = some 63 := rfl
  rw [filterKind, hhead, if_neg (by decide), if_neg (by decide), if_pos (List.prefix_append _ _)]

theorem stored_ne_of_lookup {name f g : Bytes} (hf : f ∈ lookupFilters name) : f ≠ str "?" ++ g := by
  rintro rfl
  exact filterKind_lookup hf (filterKind_glob g)

end TypeManager

theorem Given.of_append {ops : List TypeOp} {op : TypeOp} {U : Bytes} {f : GivenFilter}
    (h : Given (ops ++ [op]) U f) : Given ops U f ∨ (U, f) ∈ op.gives := by
  rcases h with hbuiltin | ⟨op', hop', hgives⟩
  · exact Or.inl (Or.inl hbuiltin)
  · rcases List.mem_append.mp hop' with hop' | hop'
    · exact Or.inl (Or.inr ⟨op', hop', hgives⟩)
    · rw [List.mem_singleton.mp hop'] at hgives
      exact Or.inr hgives

variable {ops : List TypeOp} {tm tm' : TypeManager} {op : TypeOp} {T : Bytes}

end Ucg
