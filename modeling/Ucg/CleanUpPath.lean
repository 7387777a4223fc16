import Ucg.Paths

/-! What `clean_up_path` keeps of a path and what it takes away. -/

namespace Ucg

/-- The resolution of path names, as POSIX has it. What two leading slashes name is left to the
implementation. -/
structure PathResolution (F : Type) where
  root : F
  doubleRoot : F
  isDirectory : F → Prop
  /-- A symbolic link gives the file that it leads to. -/
  lookup : F → Bytes → Option F
  lookup_dot : ∀ f g, lookup f [dot] = some g → g = f

variable {F : Type} {R : PathResolution F} {cwd f : F} {p path x y d s b t r : Bytes}

def PathResolution.start (R : PathResolution F) (cwd : F) (slashes : Bytes) : F :=
  if slashes = [] then cwd else if slashes.length = 2 then R.doubleRoot else R.root

/-- The file that a path names, in a process with the given working directory. -/
def PathResolution.Names (R : PathResolution F) (cwd : F) (path : Bytes) (f : F) : Prop :=
  (split path slash).foldlM R.lookup (R.start cwd (leadingSlashes path)) = some f ∧
    (path.getLast? = some slash → R.isDirectory f)

/-- No two slashes stand side by side behind the leading ones. -/
def NoDoubledSlash (path : Bytes) : Prop :=
  ∀ front rest, path = front ++ slash :: slash :: rest → IsSlashes front

/-- What `clean_up_path` is to do with a path. -/
structure Normalises (path : Bytes) : Prop where
  names : ∀ {F : Type} (R : PathResolution F) (cwd f : F),
    R.Names cwd path f → R.Names cwd (cleanUpPath path) f
  idempotent : cleanUpPath (cleanUpPath path) = cleanUpPath path
  trailing : (cleanUpPath path).getLast? = some slash → IsSlashes (cleanUpPath path)
  doubled : NoDoubledSlash (cleanUpPath path)
  leading : leadingSlashes (cleanUpPath path) =
    if (leadingSlashes path).length ≤ 2 then leadingSlashes path else [slash]

/-- At most two slashes in front, and two names at least if there are any; and behind the leading
slashes two slashes side by side only where one name at most follows. -/
structure IsHandled (path : Bytes) : Prop where
  leading : (leadingSlashes path).length ≤ 2
  names : leadingSlashes path ≠ [] → 2 ≤ (split path slash).length
  doubled : ∀ front rest, path = front ++ slash :: slash :: rest →
    IsSlashes front ∨ (split rest slash).length ≤ 1

section Result

theorem cleanUpPath_name (hb : IsField slash b) (ht : IsSlashes t) : cleanUpPath (b ++ t) = b := by
  have hbase := @basename_name b t [] (absurd rfl) hb ht
  rw [List.nil_append] at hbase
  rw [cleanUpPath, dirname_name hb ht, hbase]
  exact if_pos (Or.inr rfl)

theorem cleanUpPath_rooted (hdir : dirname path = rootForm s) :
    cleanUpPath path = rootForm s ++ [slash] ++ basename path := by
  have hkept : ¬ (rootForm s = [] ∨ rootForm s = [dot]) := by
    rw [rootForm]
    split_ifs with hlength
    · rintro (h | h) <;> simp [h] at hlength
    · decide
  rw [cleanUpPath, hdir]
  exact if_neg hkept

theorem cleanUpPath_below (hd : IsDirPath d) (hs : IsSlashes s) (hne : s ≠ []) (hb : IsField slash b)
    (ht : IsSlashes t) :
    cleanUpPath (d ++ s ++ b ++ t) = if d = [dot] then b else d ++ [slash] ++ b := by
  have hlast : (d ++ s).getLast? = some slash := by
    rw [List.getLast?_append_of_ne_nil _ hne, hs.getLast? hne]
  rw [cleanUpPath, dirname_below hd hs hne hb ht, basename_name (fun _ => hlast) hb ht]
  simp only [hd.ne_nil, false_or]

end Result

section Rooted

theorem not_normalises_rooted (hs : IsSlashes s) (hne : s ≠ []) (hleading : leadingSlashes path = s)
    (hdir : dirname path = rootForm s) : ¬ Normalises path := by
  intro h
  have hform := h.leading
  have hroot : IsSlashes (rootForm s ++ [slash]) := fun c hc =>
    (List.mem_append.mp hc).elim (isSlashes_rootForm hs c) List.mem_singleton.mp
  rw [hleading, ← rootForm_eq hs hne, cleanUpPath_rooted hdir, hroot.leadingSlashes_append,
    List.append_assoc] at hform
  exact List.cons_ne_nil _ _ (List.append_right_eq_self.mp hform)

theorem not_isHandled_rooted (hleading : leadingSlashes path ≠ [])
    (hnames : (split path slash).length ≤ 1) : ¬ IsHandled path := fun h => by
  have := h.names hleading
  omega

end Rooted

section Below

theorem NoDoubledSlash.of_append (h : NoDoubledSlash (d ++ y)) : NoDoubledSlash d :=
  fun front rest hd => h front (rest ++ y) (by rw [hd]; simp)

theorem doubled_append (hd : IsDirPath d) (h : d ++ y = x ++ slash :: slash :: r) :
    (∃ rest, d = x ++ slash :: slash :: rest ∧ r = rest ++ y) ∨ slash :: slash :: r <:+ y := by
  rcases List.append_eq_append_iff.mp h with ⟨z, hx, hy⟩ | ⟨z, hx, hy⟩
  · exact Or.inr ⟨z, hy.symm⟩
  · cases z with
    | nil => exact Or.inr ⟨[], by simpa using hy⟩
    | cons c z =>
      obtain ⟨rfl, hrest⟩ := List.cons.inj hy
      cases z with
      | nil =>
        -- The two slashes do not stand on both sides of the end of the directory.
        rw [hx] at hd
        exact absurd (by simp) hd.last
      | cons c z =>
        obtain ⟨rfl, hsame⟩ := List.cons.inj hrest
        exact Or.inl ⟨z, hx, hsame⟩

theorem length_split_le_of_isSuffix (h : slash :: r <:+ x) :
    (split r slash).length ≤ (split x slash).length := by
  obtain ⟨front, rfl⟩ := h
  rw [split_append_cons_self, List.length_append]
  omega

theorem NoDoubledSlash.append_name (h : NoDoubledSlash d) (hd : IsDirPath d)
    (hb : IsField slash b) : NoDoubledSlash (d ++ [slash] ++ b) := by
  intro front rest hpath
  rw [List.append_assoc] at hpath
  rcases doubled_append hd hpath with ⟨rest', hfront, _⟩ | hsuffix
  · exact h front rest' hfront
  · rcases List.suffix_cons_iff.mp hsuffix with heq | hsuffix
    · have hname : slash :: rest = b := (List.cons.inj heq).2
      exact absurd (hname ▸ List.mem_cons_self) hb.delimiterFree
    · exact absurd (hsuffix.subset List.mem_cons_self) hb.delimiterFree

theorem isHandled_below (hd : IsDirPath d) (hs : IsSlashes s) (hne : s ≠ []) (hb : IsField slash b)
    (ht : IsSlashes t) : IsHandled (d ++ s ++ b ++ t) ↔
      (leadingSlashes d).length ≤ 2 ∧ NoDoubledSlash d := by
  have hleading : leadingSlashes (d ++ s ++ b ++ t) = leadingSlashes d := by
    rw [List.append_assoc, List.append_assoc, hd.leadingSlashes_append]
  constructor
  · intro h
    refine ⟨hleading ▸ h.leading, fun front rest hdir => ?_⟩
    have hrest : IsDirPath rest := by
      rw [hdir, List.append_cons] at hd
      exact hd.of_append_cons
    refine (h.doubled front (rest ++ s ++ b ++ t) (by simp [hdir])).resolve_right fun hone => ?_
    rw [split_below rest hs hne hb ht, List.length_append, List.length_singleton] at hone
    exact hrest.split_ne_nil (List.length_eq_zero_iff.mp (by omega))
  · rintro ⟨hlength, hdoubled⟩
    refine ⟨hleading.symm ▸ hlength, fun _ => ?_, fun front rest hpath => ?_⟩
    · have hpos := List.length_pos_of_ne_nil hd.split_ne_nil
      rw [split_below d hs hne hb ht, List.length_append, List.length_singleton]
      omega
    · rw [List.append_assoc, List.append_assoc] at hpath
      refine (doubled_append hd hpath).imp ?_ fun hsuffix => ?_
      · rintro ⟨rest', hdir, _⟩
        exact hdoubled front rest' hdir
      · have hle := length_split_le_of_isSuffix hsuffix
        rw [split_delimiter_cons] at hle
        rw [hs.split_append, hb.split_append ht] at hle
        exact hle

end Below

section Names

theorem PathResolution.Names.of_split_eq (h : R.Names cwd path f)
    (hsplit : split x slash = split path slash) (hleading : leadingSlashes x = leadingSlashes path)
    (hlast : x.getLast? ≠ some slash) : R.Names cwd x f :=
  ⟨by rw [hsplit, hleading, h.1], fun hslash => absurd hslash hlast⟩

theorem PathResolution.Names.of_dot (h : R.Names cwd path f)
    (hsplit : split path slash = [dot] :: split x slash)
    (hleading : leadingSlashes x = leadingSlashes path) (hlast : x.getLast? ≠ some slash) :
    R.Names cwd x f := by
  refine ⟨?_, fun hslash => absurd hslash hlast⟩
  have hfold := h.1
  rw [hsplit, List.foldlM_cons] at hfold
  obtain ⟨g, hdot, hrest⟩ := Option.bind_eq_some_iff.mp hfold
  rw [hleading, ← R.lookup_dot _ _ hdot]
  exact hrest

end Names

section Normalises

theorem noDoubledSlash_name (hb : IsField slash b) : NoDoubledSlash b := fun front rest h =>
  absurd (h ▸ by simp) hb.delimiterFree

theorem normalises_name (hb : IsField slash b) (hclean : cleanUpPath path = b)
    (hleading : leadingSlashes path = [])
    (hnames : ∀ {F : Type} (R : PathResolution F) (cwd f : F), R.Names cwd path f → R.Names cwd b f) :
    Normalises path := by
  have hself := @cleanUpPath_name b [] hb (fun c hc => absurd hc List.not_mem_nil)
  have hslashes := hb.leadingSlashes_append []
  rw [List.append_nil] at hself hslashes
  constructor
  · rw [hclean]
    exact hnames
  · rw [hclean, hself]
  · rw [hclean]
    exact fun hlast => absurd hlast hb.getLast?_ne
  · rw [hclean]
    exact noDoubledSlash_name hb
  · rw [hclean, hslashes, hleading]
    rfl

theorem normalises_below (hd : IsDirPath d) (hdot : d ≠ [dot]) (hs : IsSlashes s) (hne : s ≠ [])
    (hb : IsField slash b) (ht : IsSlashes t) : Normalises (d ++ s ++ b ++ t) ↔
      (leadingSlashes d).length ≤ 2 ∧ NoDoubledSlash d := by
  have hslash : IsSlashes [slash] := fun c hc => List.mem_singleton.mp hc
  have hnone : IsSlashes [] := fun c hc => absurd hc List.not_mem_nil
  have hclean : cleanUpPath (d ++ s ++ b ++ t) = d ++ [slash] ++ b := by
    rw [cleanUpPath_below hd hs hne hb ht, if_neg hdot]
  have hself : cleanUpPath (d ++ [slash] ++ b) = d ++ [slash] ++ b := by
    have hbelow := cleanUpPath_below hd hslash (List.cons_ne_nil slash []) hb hnone
    rwa [List.append_nil, if_neg hdot] at hbelow
  have hsplit := split_below d hslash (List.cons_ne_nil slash []) hb hnone
  rw [List.append_nil, ← split_below d hs hne hb ht] at hsplit
  have hlast := getLast?_append_ne (d ++ [slash]) hb.isDirPath
  have hpath : leadingSlashes (d ++ s ++ b ++ t) = leadingSlashes d := by
    rw [List.append_assoc, List.append_assoc, hd.leadingSlashes_append]
  have hresult : leadingSlashes (d ++ [slash] ++ b) = leadingSlashes d := by
    rw [List.append_assoc, hd.leadingSlashes_append]
  constructor
  · intro h
    refine ⟨?_, ?_⟩
    · have hleading := h.leading
      rw [hclean, hresult, hpath] at hleading
      by_contra hmany
      rw [if_neg hmany] at hleading
      simp [hleading] at hmany
    · have hdoubled := h.doubled
      rw [hclean, List.append_assoc] at hdoubled
      exact hdoubled.of_append
  · rintro ⟨hlength, hdoubled⟩
    constructor
    · intro F R cwd f h
      rw [hclean]
      exact h.of_split_eq hsplit (hresult.trans hpath.symm) hlast
    · rw [hclean, hself]
    · rw [hclean]
      exact fun h => absurd h hlast
    · rw [hclean]
      exact hdoubled.append_name hd hb
    · rw [hclean, hresult, hpath, if_pos hlength]

theorem normalises_top (hb : IsField slash b) (ht : IsSlashes t) : Normalises (b ++ t) := by
  have hname : split b slash = [b] := split_of_not_mem hb.ne_nil hb.delimiterFree
  have hleading := hb.leadingSlashes_append []
  rw [List.append_nil] at hleading
  refine normalises_name hb (cleanUpPath_name hb ht) (hb.leadingSlashes_append t)
    fun R cwd f h => h.of_split_eq ?_ ?_ hb.getLast?_ne
  · rw [hname, hb.split_append ht]
  · rw [hleading, hb.leadingSlashes_append]

theorem isHandled_top (hb : IsField slash b) (ht : IsSlashes t) : IsHandled (b ++ t) := by
  have hleading := hb.leadingSlashes_append t
  refine ⟨by simp [hleading], fun h => absurd hleading h, fun front rest h => Or.inr ?_⟩
  have hsuffix : slash :: rest <:+ b ++ t := ⟨front ++ [slash], by simp [h]⟩
  have hle := length_split_le_of_isSuffix hsuffix
  rwa [hb.split_append ht] at hle

theorem normalises_dot (hs : IsSlashes s) (hne : s ≠ []) (hb : IsField slash b) (ht : IsSlashes t) :
    Normalises ([dot] ++ s ++ b ++ t) := by
  have hdot : IsField slash [dot] := ⟨List.cons_ne_nil dot [], by decide⟩
  have hclean := cleanUpPath_below hdot.isDirPath hs hne hb ht
  have hpath : leadingSlashes ([dot] ++ s ++ b ++ t) = [] := by
    rw [List.append_assoc, List.append_assoc, hdot.leadingSlashes_append]
  have hleading := hb.leadingSlashes_append []
  rw [List.append_nil] at hleading
  rw [if_pos rfl] at hclean
  refine normalises_name hb hclean hpath fun R cwd f h => h.of_dot ?_ ?_ hb.getLast?_ne
  · rw [split_below [dot] hs hne hb ht, split_of_not_mem hdot.ne_nil hdot.delimiterFree,
      split_of_not_mem hb.ne_nil hb.delimiterFree]
    rfl
  · rw [hleading, hpath]

/-- `clean_up_path` does what it is to do with the paths that it handles, and with no other. -/
theorem normalises_iff_isHandled (hpath : path ≠ []) : Normalises path ↔ IsHandled path := by
  cases pathShape path with
  | slashes hs =>
    have hleading := hs.leadingSlashes_eq
    refine iff_of_false (not_normalises_rooted hs hpath hleading (dirname_slashes hs hpath))
      (not_isHandled_rooted (hleading.symm ▸ hpath) ?_)
    simp [hs.split_eq_nil]
  | @top s b t hs hb ht =>
    rcases eq_or_ne s [] with rfl | hne
    · exact iff_of_true (normalises_top hb ht) (isHandled_top hb ht)
    have hleading : leadingSlashes (s ++ b ++ t) = s := by
      rw [List.append_assoc, hs.leadingSlashes_append, hb.leadingSlashes_append, List.append_nil]
    refine iff_of_false (not_normalises_rooted hs hne hleading (dirname_topLevel hs hne hb ht))
      (not_isHandled_rooted (hleading.symm ▸ hne) ?_)
    rw [List.append_assoc, hs.split_append, hb.split_append ht, List.length_singleton]
  | @below d s b t hd hs hne hb ht =>
    rw [isHandled_below hd hs hne hb ht]
    rcases eq_or_ne d [dot] with rfl | hdot
    · have hfield : IsField slash [dot] := ⟨List.cons_ne_nil dot [], by decide⟩
      exact iff_of_true (normalises_dot hs hne hb ht) ⟨by decide, noDoubledSlash_name hfield⟩
    · exact normalises_below hd hdot hs hne hb ht

theorem normalises_iff_isHandled_doubled :
    str "a//b/" ≠ [] ∧ (Normalises (str "a//b/") ↔ IsHandled (str "a//b/")) :=
  ⟨by decide, normalises_iff_isHandled (by decide)⟩

/-- A name at the root gets a second slash. -/
theorem not_normalises_topLevel : ¬ Normalises (str "/x") := fun h => by
  have hleading := h.leading
  revert hleading
  decide

end Normalises

end Ucg
