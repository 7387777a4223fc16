import Ucg.DirTree
import Ucg.Strings

/-! What `dirname` and `basename` make of a path, by the name that it ends with and the slashes
around that name. -/

namespace Ucg

def IsSlashes (s : Bytes) : Prop := ∀ c ∈ s, c = slash

def leadingSlashes (path : Bytes) : Bytes := path.takeWhile (· = slash)

/-- The slashes that the path of a root keeps. -/
def rootForm (slashes : Bytes) : Bytes := if slashes.length = 2 then slashes else [slash]

/-- The path of a directory, as far as it does not end with a slash. -/
structure IsDirPath (d : Bytes) : Prop where
  ne_nil : d ≠ []
  last : d.getLast? ≠ some slash

/-- What a path can look like: slashes only, a name at the top or alone, or a name below a
directory. -/
inductive PathShape : Bytes → Prop
  | slashes {s : Bytes} (hs : IsSlashes s) : PathShape s
  | top {s b t : Bytes} (hs : IsSlashes s) (hb : IsField slash b) (ht : IsSlashes t) :
      PathShape (s ++ b ++ t)
  | below {d s b t : Bytes} (hd : IsDirPath d) (hs : IsSlashes s) (hne : s ≠ [])
      (hb : IsField slash b) (ht : IsSlashes t) : PathShape (d ++ s ++ b ++ t)

section

variable {path d s b t x : Bytes} {p : UInt8 → Bool}

theorem rdropWhile_append_of_pos (h : ∀ c ∈ t, p c = true) :
    (x ++ t).rdropWhile p = x.rdropWhile p := by
  have hreverse : ∀ c ∈ t.reverse, p c = true := fun c hc => h c (List.mem_reverse.mp hc)
  rw [List.rdropWhile, List.reverse_append, List.dropWhile_append_of_pos hreverse, List.rdropWhile]

theorem rdropWhile_append_of_last (h : ∀ c, x.getLast? = some c → p c = false) (ht : ∀ c ∈ t, p c = true) :
    (x ++ t).rdropWhile p = x := by
  rw [rdropWhile_append_of_pos ht, List.rdropWhile_eq_self_iff]
  intro hx hlast
  exact absurd hlast (by simpa using h _ (List.getLast?_eq_some_getLast hx))

theorem IsField.getLast?_ne (hb : IsField slash b) : b.getLast? ≠ some slash := fun hlast =>
  hb.delimiterFree (List.mem_of_getLast? hlast)

theorem IsField.isDirPath (hb : IsField slash b) : IsDirPath b := ⟨hb.ne_nil, hb.getLast?_ne⟩

theorem IsDirPath.of_append (h : IsDirPath (x ++ d)) (hne : d ≠ []) : IsDirPath d :=
  ⟨hne, by rw [← List.getLast?_append_of_ne_nil x hne]; exact h.last⟩

/-- Behind a slash the path of a directory goes on. -/
theorem IsDirPath.of_append_cons (h : IsDirPath (x ++ slash :: d)) : IsDirPath d := by
  rw [List.append_cons] at h
  refine h.of_append ?_
  rintro rfl
  exact h.last (by simp)

theorem getLast?_append_ne (x : Bytes) (hb : IsDirPath b) : (x ++ b).getLast? ≠ some slash := by
  rw [List.getLast?_append_of_ne_nil _ hb.ne_nil]
  exact hb.last

/-- Behind the trailing slashes stands a name, unless there are slashes only. -/
theorem rdropWhile_slash (hb : IsDirPath b) (ht : IsSlashes t) :
    (x ++ b ++ t).rdropWhile (· = slash) = x ++ b :=
  rdropWhile_append_of_last (fun _ hc => decide_eq_false fun h =>
    getLast?_append_ne x hb (h ▸ hc)) fun c hc => decide_eq_true (ht c hc)

theorem rdropWhile_slash_of_isSlashes (ht : IsSlashes t) : t.rdropWhile (· = slash) = [] :=
  List.rdropWhile_eq_nil_iff.mpr fun c hc => decide_eq_true (ht c hc)

theorem rdropWhile_name (hx : x ≠ [] → x.getLast? = some slash) (hb : IsField slash b) :
    (x ++ b).rdropWhile (· ≠ slash) = x := by
  refine rdropWhile_append_of_last (fun c hc => ?_) fun c hc => decide_eq_true fun h =>
    hb.delimiterFree (h ▸ hc)
  have hne : x ≠ [] := by
    rintro rfl
    simp at hc
  rw [hx hne] at hc
  exact decide_eq_false (not_not_intro (Option.some.inj hc).symm)

theorem IsSlashes.getLast? (hs : IsSlashes s) (hne : s ≠ []) : s.getLast? = some slash := by
  rw [List.getLast?_eq_some_getLast hne, hs _ (List.getLast_mem hne)]

theorem dirname_eq (path : Bytes) : dirname path =
    let stripped := path.rdropWhile (· = slash)
    let parent := stripped.rdropWhile (· ≠ slash)
    let dir := parent.rdropWhile (· = slash)
    if stripped = [] then if path = [] then [dot] else rootForm path
    else if parent = [] then [dot]
    else if dir = [] then rootForm parent else dir := by
  rw [dirname]
  cases hstripped : path.rdropWhile (· = slash) with
  | nil => rfl
  | cons c stripped =>
    cases hparent : (c :: stripped).rdropWhile (· ≠ slash) with
    | nil =>
      dsimp only
      rw [hparent, if_neg (List.cons_ne_nil c stripped), if_pos rfl]
    | cons c' parent =>
      dsimp only
      rw [hparent, if_neg (List.cons_ne_nil c stripped), if_neg (List.cons_ne_nil c' parent)]
      cases hdir : (c' :: parent).rdropWhile (· = slash) with
      | nil => simp [hdir, rootForm]
      | cons c'' dir => simp [hdir]

theorem basename_eq (path : Bytes) : basename path =
    let stripped := path.rdropWhile (· = slash)
    if stripped = [] then if path = [] then [dot] else [slash]
    else stripped.rtakeWhile (· ≠ slash) := by
  rw [basename]
  cases hstripped : path.rdropWhile (· = slash) with
  | nil => rfl
  | cons c stripped => simp

theorem dirname_slashes (hs : IsSlashes s) (hne : s ≠ []) : dirname s = rootForm s := by
  simp [dirname_eq, rdropWhile_slash_of_isSlashes hs, hne]

theorem basename_name (hx : x ≠ [] → x.getLast? = some slash) (hb : IsField slash b)
    (ht : IsSlashes t) : basename (x ++ b ++ t) = b := by
  have hname : (x ++ b).rtakeWhile (· ≠ slash) = b := by
    have hsplit := @List.rdropWhile_append_rtakeWhile _ (fun c => decide (c ≠ slash)) (x ++ b)
    rw [rdropWhile_name hx hb] at hsplit
    exact List.append_cancel_left hsplit
  have hne : x ++ b ≠ [] := fun h => hb.ne_nil (List.append_eq_nil_iff.mp h).2
  rw [basename_eq, rdropWhile_slash hb.isDirPath ht]
  dsimp only
  rw [if_neg hne, hname]

theorem dirname_name (hb : IsField slash b) (ht : IsSlashes t) : dirname (b ++ t) = [dot] := by
  have hstripped := @rdropWhile_slash b t [] hb.isDirPath ht
  have hparent := @rdropWhile_name b [] (absurd rfl) hb
  rw [List.nil_append] at hstripped hparent
  rw [dirname_eq, hstripped]
  dsimp only
  rw [if_neg hb.ne_nil, if_pos hparent]

theorem dirname_topLevel (hs : IsSlashes s) (hne : s ≠ []) (hb : IsField slash b)
    (ht : IsSlashes t) : dirname (s ++ b ++ t) = rootForm s := by
  have hparent := rdropWhile_name (fun _ => hs.getLast? hne) hb
  rw [dirname_eq, rdropWhile_slash hb.isDirPath ht]
  dsimp only
  rw [hparent, rdropWhile_slash_of_isSlashes hs, if_neg (by simp [hne]), if_neg hne, if_pos rfl]

theorem dirname_below (hd : IsDirPath d) (hs : IsSlashes s) (hne : s ≠ []) (hb : IsField slash b)
    (ht : IsSlashes t) : dirname (d ++ s ++ b ++ t) = d := by
  have hlast : (d ++ s).getLast? = some slash := by
    rw [List.getLast?_append_of_ne_nil _ hne, hs.getLast? hne]
  have hparent := rdropWhile_name (fun _ => hlast) hb
  have hdir := @rdropWhile_slash d s [] hd hs
  rw [List.nil_append] at hdir
  rw [dirname_eq, rdropWhile_slash hb.isDirPath ht]
  dsimp only
  rw [hparent, hdir, if_neg (by simp [hne]), if_neg (by simp [hne]), if_neg hd.ne_nil]

theorem getLast?_rdropWhile_slash (x : Bytes) : (x.rdropWhile (· = slash)).getLast? ≠ some slash := by
  intro hlast
  have hne : x.rdropWhile (· = slash) ≠ [] := fun hnil => by simp [hnil] at hlast
  have hnot := List.rdropWhile_last_not (· = slash) x hne
  rw [List.getLast?_eq_some_getLast hne, Option.some.injEq] at hlast
  exact hnot (decide_eq_true hlast)

theorem getLast?_rdropWhile_name (hne : x.rdropWhile (· ≠ slash) ≠ []) :
    (x.rdropWhile (· ≠ slash)).getLast? = some slash := by
  have hnot := List.rdropWhile_last_not (· ≠ slash) x hne
  rw [List.getLast?_eq_some_getLast hne]
  simpa using hnot

theorem isSlashes_rtakeWhile (x : Bytes) : IsSlashes (x.rtakeWhile (· = slash)) := fun c hc => by
  simpa using List.mem_rtakeWhile_imp hc

theorem pathShape (path : Bytes) : PathShape path := by
  have hpath := @List.rdropWhile_append_rtakeWhile _ (fun c => decide (c = slash)) path
  have htail := isSlashes_rtakeWhile path
  rw [← hpath]
  by_cases hstripped : path.rdropWhile (· = slash) = []
  · rw [hstripped, List.nil_append]
    exact PathShape.slashes htail
  have hlast := getLast?_rdropWhile_slash path
  generalize path.rdropWhile (· = slash) = stripped at hstripped hlast
  have hsplit := @List.rdropWhile_append_rtakeWhile _ (fun c => decide (c ≠ slash)) stripped
  have hb : IsField slash (stripped.rtakeWhile (· ≠ slash)) := by
    refine ⟨fun hnil => ?_, fun hmem => by simpa using List.mem_rtakeWhile_imp hmem⟩
    rw [hnil, List.append_nil] at hsplit
    exact hlast (hsplit ▸ getLast?_rdropWhile_name (hsplit.symm ▸ hstripped))
  rw [← hsplit]
  by_cases hparent : stripped.rdropWhile (· ≠ slash) = []
  · rw [hparent]
    exact PathShape.top (fun c hc => by simp at hc) hb htail
  have hslash := getLast?_rdropWhile_name hparent
  generalize stripped.rdropWhile (· ≠ slash) = parent at hparent hslash
  have hdir := @List.rdropWhile_append_rtakeWhile _ (fun c => decide (c = slash)) parent
  have hs := isSlashes_rtakeWhile parent
  have hend := getLast?_rdropWhile_slash parent
  rw [← hdir]
  by_cases hd : parent.rdropWhile (· = slash) = []
  · rw [hd, List.nil_append]
    exact PathShape.top hs hb htail
  · refine PathShape.below ⟨hd, hend⟩ hs (fun hnil => ?_) hb htail
    rw [hnil, List.append_nil] at hdir
    exact hend (hdir.symm ▸ hslash)

section LeadingSlashes

theorem isSlashes_leadingSlashes (path : Bytes) : IsSlashes (leadingSlashes path) := fun c hc => by
  simpa using List.mem_takeWhile_imp hc

theorem IsSlashes.leadingSlashes_eq (hs : IsSlashes s) : leadingSlashes s = s :=
  List.takeWhile_eq_self_iff.mpr fun c hc => decide_eq_true (hs c hc)

theorem IsSlashes.leadingSlashes_append (hs : IsSlashes s) (y : Bytes) :
    leadingSlashes (s ++ y) = s ++ leadingSlashes y :=
  List.takeWhile_append_of_pos fun c hc => decide_eq_true (hs c hc)

theorem IsDirPath.leadingSlashes_append (hd : IsDirPath d) (y : Bytes) :
    leadingSlashes (d ++ y) = leadingSlashes d := by
  have hproper : (d.takeWhile (· = slash)).length ≠ d.length := fun hlength => by
    have hall : leadingSlashes d = d := (List.takeWhile_prefix _).eq_of_length hlength
    exact hd.last ((hall ▸ isSlashes_leadingSlashes d : IsSlashes d).getLast? hd.ne_nil)
  rw [leadingSlashes, List.takeWhile_append, if_neg hproper, leadingSlashes]

theorem IsField.leadingSlashes_append (hb : IsField slash b) (y : Bytes) :
    leadingSlashes (b ++ y) = [] := by
  rw [hb.isDirPath.leadingSlashes_append, leadingSlashes, List.takeWhile_eq_nil_iff]
  intro hlength hhead
  exact hb.delimiterFree (by simpa using (of_decide_eq_true hhead) ▸ List.getElem_mem hlength)

theorem rootForm_eq (hs : IsSlashes s) (hne : s ≠ []) :
    rootForm s = if s.length ≤ 2 then s else [slash] := by
  have hpos := List.length_pos_of_ne_nil hne
  rw [rootForm]
  split_ifs with h2 hle hle
  · rfl
  · omega
  · obtain ⟨c, hc⟩ := List.length_eq_one_iff.mp (by omega : s.length = 1)
    rw [hc, hs c (hc ▸ List.mem_singleton_self c)]
  · rfl

theorem isSlashes_rootForm (hs : IsSlashes s) : IsSlashes (rootForm s) := by
  rw [rootForm]
  split_ifs
  · exact hs
  · exact fun c hc => List.mem_singleton.mp hc

theorem rootForm_rootForm (s : Bytes) : rootForm (rootForm s) = rootForm s := by
  by_cases h : s.length = 2
  · simp [rootForm, h]
  · simp [rootForm, if_neg h]

theorem length_rootForm (s : Bytes) : (rootForm s).length = 2 ↔ s.length = 2 := by
  rw [rootForm]
  split_ifs with h
  · rfl
  · simp [h]

theorem rootForm_ne_nil (hne : s ≠ []) : rootForm s ≠ [] := by
  rw [rootForm]
  split_ifs
  · exact hne
  · exact List.cons_ne_nil slash []

theorem length_rootForm_le (hne : s ≠ []) : (rootForm s).length ≤ s.length := by
  have hpos := List.length_pos_of_ne_nil hne
  rw [rootForm]
  split_ifs
  · rfl
  · exact hpos

end LeadingSlashes

section Names

theorem IsSlashes.split_append (hs : IsSlashes s) (y : Bytes) : split (s ++ y) slash = split y slash := by
  induction s with
  | nil => rfl
  | cons c s ih =>
    obtain ⟨rfl, htail⟩ := List.forall_mem_cons.mp hs
    rw [List.cons_append, split_delimiter_cons, ih htail]

theorem IsSlashes.split_eq_nil (hs : IsSlashes s) : split s slash = [] := by
  rw [← List.append_nil s, hs.split_append, split_nil]

theorem split_append_isSlashes (x : Bytes) (hs : IsSlashes s) :
    split (x ++ s) slash = split x slash := by
  cases s with
  | nil => rw [List.append_nil]
  | cons c s =>
    obtain ⟨rfl, htail⟩ := List.forall_mem_cons.mp hs
    rw [split_append_cons_self, IsSlashes.split_eq_nil htail, List.append_nil]

theorem IsField.split_append (hb : IsField slash b) (ht : IsSlashes t) :
    split (b ++ t) slash = [b] := by
  rw [split_append_isSlashes b ht, split_of_not_mem hb.ne_nil hb.delimiterFree]

theorem split_below (x : Bytes) (hs : IsSlashes s) (hne : s ≠ []) (hb : IsField slash b)
    (ht : IsSlashes t) : split (x ++ s ++ b ++ t) slash = split x slash ++ [b] := by
  obtain ⟨c, s', rfl⟩ := List.exists_cons_of_ne_nil hne
  obtain ⟨rfl, htail⟩ := List.forall_mem_cons.mp hs
  rw [List.append_assoc, List.append_assoc, List.cons_append, split_append_cons_self,
    IsSlashes.split_append htail, hb.split_append ht]

theorem IsDirPath.split_ne_nil (hd : IsDirPath d) : split d slash ≠ [] := by
  intro hnil
  cases pathShape d with
  | slashes hs => exact hd.last (hs.getLast? hd.ne_nil)
  | top hs hb ht =>
    rw [List.append_assoc, hs.split_append, hb.split_append ht] at hnil
    exact List.cons_ne_nil _ _ hnil
  | below _ hs hne hb ht =>
    rw [split_below _ hs hne hb ht] at hnil
    exact List.append_ne_nil_of_right_ne_nil _ (List.cons_ne_nil _ _) hnil

end Names

end

end Ucg
