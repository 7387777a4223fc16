import Ucg.Paths

/-! The directories that lie on an absolute path, and what `dirname` makes of them. -/

namespace Ucg

/-- The directories on the way from an absolute path up to its root. -/
inductive IsAncestor (cwd : Bytes) : Bytes → Prop
  | self : IsAncestor cwd cwd
  | above {dir rest : Bytes} (h : cwd = dir ++ slash :: rest) (hdir : IsDirPath dir)
      (hrest : split rest slash ≠ []) : IsAncestor cwd dir
  | root : IsAncestor cwd (rootForm (leadingSlashes cwd))

variable {cwd dir d s b t x y : Bytes}

section Absolute

theorem absolute_cons (h : isPathnameAbsolute cwd = true) : ∃ rest, cwd = slash :: rest := by
  cases cwd with
  | nil => simp [isPathnameAbsolute] at h
  | cons c rest => exact ⟨rest, by simpa [isPathnameAbsolute] using h⟩

theorem absolute_of_isPrefix (h : isPathnameAbsolute cwd = true) (hdir : dir <+: cwd)
    (hne : dir ≠ []) : isPathnameAbsolute dir = true := by
  obtain ⟨rest, rfl⟩ := hdir
  cases dir with
  | nil => exact absurd rfl hne
  | cons c dir => exact h

theorem slashes_ne_nil_of_absolute (h : isPathnameAbsolute (s ++ b ++ t) = true)
    (hb : IsField slash b) : s ≠ [] := by
  rintro rfl
  obtain ⟨rest, hrest⟩ := absolute_cons h
  have hhead : (b ++ t).head? = some slash := by rw [← List.nil_append b, hrest, List.head?_cons]
  rw [List.head?_append_of_ne_nil _ hb.ne_nil] at hhead
  exact hb.delimiterFree (List.mem_of_head? hhead)

theorem rootForm_isPrefix (h : isPathnameAbsolute cwd = true) :
    rootForm (leadingSlashes cwd) <+: cwd := by
  rw [rootForm]
  split_ifs
  · exact List.takeWhile_prefix _
  · obtain ⟨rest, rfl⟩ := absolute_cons h
    exact ⟨rest, rfl⟩

theorem IsAncestor.isPrefix (h : isPathnameAbsolute cwd = true) (hdir : IsAncestor cwd dir) :
    dir <+: cwd := by
  cases hdir with
  | self => exact List.prefix_refl cwd
  | above h _ _ => exact ⟨_, h.symm⟩
  | root => exact rootForm_isPrefix h

theorem split_append_cons_ne_nil (h : split b slash ≠ []) : split (x ++ slash :: b) slash ≠ [] := by
  rw [split_append_cons_self]
  exact List.append_ne_nil_of_right_ne_nil _ h

theorem IsAncestor.eq_of_root (h : IsAncestor cwd dir) (hroot : rootForm (leadingSlashes cwd) = cwd) :
    dir = cwd := by
  cases h with
  | self => rfl
  | root => exact hroot
  | above hcwd hdir hrest =>
    have hslashes := isSlashes_rootForm (isSlashes_leadingSlashes cwd)
    rw [hroot] at hslashes
    exact absurd (hcwd ▸ hslashes.split_eq_nil) (split_append_cons_ne_nil hrest)

end Absolute

section Dirname

/-- An absolute path and what `dirname` makes of it. -/
inductive IsParent : Bytes → Bytes → Prop
  | root {s : Bytes} (hs : IsSlashes s) (hne : s ≠ []) : IsParent s (rootForm s)
  | top {s b t : Bytes} (hs : IsSlashes s) (hne : s ≠ []) (hb : IsField slash b)
      (ht : IsSlashes t) : IsParent (s ++ b ++ t) (rootForm s)
  | below {d s b t : Bytes} (hd : IsDirPath d) (hs : IsSlashes s) (hne : s ≠ [])
      (hb : IsField slash b) (ht : IsSlashes t) : IsParent (d ++ s ++ b ++ t) d

theorem isParent_dirname (h : isPathnameAbsolute cwd = true) : IsParent cwd (dirname cwd) := by
  cases pathShape cwd with
  | slashes hs =>
    have hne : cwd ≠ [] := by
      rintro rfl
      simp [isPathnameAbsolute] at h
    rw [dirname_slashes hs hne]
    exact IsParent.root hs hne
  | top hs hb ht =>
    have hne := slashes_ne_nil_of_absolute h hb
    rw [dirname_topLevel hs hne hb ht]
    exact IsParent.top hs hne hb ht
  | below hd hs hne hb ht =>
    rw [dirname_below hd hs hne hb ht]
    exact IsParent.below hd hs hne hb ht

theorem IsParent.ne_nil (h : IsParent cwd dir) : dir ≠ [] := by
  cases h with
  | root hs hne => exact rootForm_ne_nil hne
  | top hs hne hb ht => exact rootForm_ne_nil hne
  | below hd hs hne hb ht => exact hd.ne_nil

theorem IsParent.rootForm_leadingSlashes (h : IsParent cwd dir) :
    rootForm (leadingSlashes dir) = rootForm (leadingSlashes cwd) := by
  cases h with
  | root hs hne =>
    rw [(isSlashes_rootForm hs).leadingSlashes_eq, hs.leadingSlashes_eq, rootForm_rootForm]
  | top hs hne hb ht =>
    rw [(isSlashes_rootForm hs).leadingSlashes_eq, rootForm_rootForm, List.append_assoc,
      hs.leadingSlashes_append, hb.leadingSlashes_append, List.append_nil]
  | below hd hs hne hb ht =>
    rw [List.append_assoc, List.append_assoc, hd.leadingSlashes_append]

theorem IsParent.length_lt (h : IsParent cwd dir) (hroot : rootForm (leadingSlashes cwd) ≠ cwd) :
    dir.length < cwd.length := by
  cases h with
  | root hs hne =>
    rw [hs.leadingSlashes_eq] at hroot
    rw [rootForm_eq hs hne] at hroot ⊢
    split_ifs at hroot ⊢ with hlength
    · exact absurd rfl hroot
    · rw [List.length_singleton]
      omega
  | @top s b t hs hne hb ht =>
    have hpos := List.length_pos_of_ne_nil hb.ne_nil
    have hle := length_rootForm_le hne
    simp only [List.length_append]
    omega
  | below hd hs hne hb ht =>
    have hpos := List.length_pos_of_ne_nil hne
    simp only [List.length_append]
    omega

theorem IsParent.isAncestor (h : IsParent cwd dir) : IsAncestor cwd dir := by
  cases h with
  | root hs hne =>
    have hroot := @IsAncestor.root cwd
    rwa [hs.leadingSlashes_eq] at hroot
  | @top s b t hs hne hb ht =>
    have hleading : leadingSlashes (s ++ b ++ t) = s := by
      rw [List.append_assoc, hs.leadingSlashes_append, hb.leadingSlashes_append, List.append_nil]
    have hroot := @IsAncestor.root (s ++ b ++ t)
    rwa [hleading] at hroot
  | @below d s b t hd hs hne hb ht =>
    obtain ⟨c, s', rfl⟩ := List.exists_cons_of_ne_nil hne
    obtain ⟨rfl, htail⟩ := List.forall_mem_cons.mp hs
    refine @IsAncestor.above _ _ (s' ++ b ++ t) (by simp) hd ?_
    rw [List.append_assoc, IsSlashes.split_append htail, hb.split_append ht]
    exact List.cons_ne_nil b []

theorem IsParent.isAncestor_above (h : IsParent cwd dir) (hx : IsAncestor dir x) :
    IsAncestor cwd x := by
  cases hx with
  | self => exact h.isAncestor
  | root => exact h.rootForm_leadingSlashes ▸ IsAncestor.root
  | @above x rest hdir hx hrest =>
    have hnames := split_append_cons_ne_nil (x := x) hrest
    rw [← hdir] at hnames
    cases h with
    | root hs hne => exact absurd (isSlashes_rootForm hs).split_eq_nil hnames
    | top hs hne hb ht => exact absurd (isSlashes_rootForm hs).split_eq_nil hnames
    | @below d s b t hd hs hne hb ht =>
      refine @IsAncestor.above _ _ (rest ++ s ++ b ++ t) (by simp [hdir]) hx ?_
      rw [split_below rest hs hne hb ht]
      exact List.append_ne_nil_of_right_ne_nil _ (List.cons_ne_nil b [])

theorem isAncestor_of_above (hd : IsDirPath d) (hy : (split y slash).length = 1)
    (hcwd : d ++ y = x ++ slash :: b) (hx : IsDirPath x) (hb : split b slash ≠ []) :
    IsAncestor d x := by
  rcases List.append_eq_append_iff.mp hcwd with ⟨z, hxz, hyz⟩ | ⟨z, hdz, hbz⟩
  · cases z with
    | nil =>
      rw [hxz, List.append_nil]
      exact IsAncestor.self
    | cons c z =>
      -- A longer directory would leave no name of `y` for what lies below it.
      have hz := (hxz ▸ hx : IsDirPath (d ++ c :: z)).of_append (List.cons_ne_nil c z)
      have hpos := List.length_pos_of_ne_nil hz.split_ne_nil
      have hpos' := List.length_pos_of_ne_nil hb
      rw [hyz, split_append_cons_self, List.length_append] at hy
      omega
  · cases z with
    | nil =>
      rw [hdz, List.append_nil]
      exact IsAncestor.self
    | cons c z =>
      obtain ⟨rfl, _⟩ := List.cons.inj hbz
      exact IsAncestor.above hdz hx (hdz ▸ hd : IsDirPath (x ++ slash :: z)).of_append_cons.split_ne_nil

/-- The ancestors of a path are the path itself and those of its parent. -/
theorem IsParent.isAncestor_iff (h : IsParent cwd dir) :
    IsAncestor cwd x ↔ x = cwd ∨ IsAncestor dir x := by
  constructor
  · intro hx
    cases hx with
    | self => exact Or.inl rfl
    | root => exact Or.inr (h.rootForm_leadingSlashes ▸ IsAncestor.root)
    | @above x rest hcwd hx hrest =>
      have hnames := congrArg (fun path => (split path slash).length) hcwd
      have hpos := List.length_pos_of_ne_nil hx.split_ne_nil
      have hpos' := List.length_pos_of_ne_nil hrest
      simp only [split_append_cons_self, List.length_append] at hnames
      cases h with
      | root hs hne =>
        rw [hs.split_eq_nil, List.length_nil] at hnames
        omega
      | top hs hne hb ht =>
        rw [List.append_assoc, hs.split_append, hb.split_append ht, List.length_singleton] at hnames
        omega
      | @below d s b t hd hs hne hb ht =>
        rw [List.append_assoc, List.append_assoc, ← List.append_assoc s] at hcwd
        refine Or.inr (isAncestor_of_above hd ?_ hcwd hx hrest)
        rw [List.append_assoc, hs.split_append, hb.split_append ht, List.length_singleton]
  · rintro (rfl | hx)
    · exact IsAncestor.self
    · exact h.isAncestor_above hx

end Dirname

end Ucg
