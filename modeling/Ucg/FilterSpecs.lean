import Ucg.TypeRuns

/-! Which texts `TypeAddFromFilterSpecString` takes for a filter specification. The fields are cut
out by `split`, which drops the empty ones. -/

namespace Ucg

section Split

variable {s x y z : Bytes} {xs : List Bytes} {d : UInt8}

/-- The loop of `split`: `std::getline` takes a line and its delimiter, and fails at the end. -/
def splitLoop (delimiter : UInt8) (rest : Bytes) (retval : List Bytes) : List Bytes :=
  if rest = [] then retval
  else
    let element := rest.takeWhile (· ≠ delimiter)
    splitLoop delimiter (rest.dropWhile (· ≠ delimiter)).tail
      (if element ≠ [] then retval ++ [element] else retval)
termination_by rest.length
decreasing_by
  rename_i hrest
  have hpos := List.length_pos_iff.mpr hrest
  have hle := (List.dropWhile_suffix (l := rest) (· ≠ delimiter)).length_le
  rw [List.length_tail]
  omega

theorem split_replicate_append (k : Nat) : split (List.replicate k d ++ s) d = split s d := by
  induction k with
  | zero => rfl
  | succ k ih => rw [List.replicate_succ, List.cons_append, split_delimiter_cons, ih]

theorem split_append_delimiter (h : d ∉ x) :
    split (x ++ d :: s) d = (if x ≠ [] then [x] else []) ++ split s d := by
  by_cases hx : x = []
  · rw [hx, if_neg (not_not_intro rfl), List.nil_append, split_delimiter_cons, List.nil_append]
  · rw [if_pos hx, split_append_cons hx h, List.singleton_append]

theorem splitLoop_eq (rest : Bytes) (retval : List Bytes) :
    splitLoop d rest retval = retval ++ split rest d := by
  induction rest, retval using splitLoop.induct d with
  | case1 retval => rw [splitLoop, if_pos rfl, split_nil, List.append_nil]
  | case2 rest retval hrest element ih =>
    have hfree : d ∉ element := delimiter_not_mem_takeWhile
    have hretval : (if element ≠ [] then retval ++ [element] else retval) =
        retval ++ if element ≠ [] then [element] else [] := by
      split_ifs <;> simp
    rw [splitLoop, if_neg hrest]
    refine ih.trans ?_
    rw [dite_eq_ite, hretval, List.append_assoc]
    refine congrArg (retval ++ ·) ?_
    rcases dropWhile_cases rest d with ⟨hdrop, hwhole⟩ | ⟨rest', hdrop, hwhole⟩
    · have helement : element = rest := hwhole.symm
      rw [hdrop, List.tail_nil, split_nil, List.append_nil, helement, if_pos hrest,
        split_of_not_mem hrest (helement ▸ hfree)]
    · have hsplit : rest = element ++ d :: rest' := hwhole
      rw [hdrop, List.tail_cons, hsplit, split_append_delimiter hfree]

theorem exists_of_split_eq_cons (h : split s d = x :: xs) :
    ∃ k rest, s = List.replicate k d ++ (x ++ rest) ∧
      ((rest = [] ∧ xs = []) ∨ ∃ rest', rest = d :: rest' ∧ split rest' d = xs) := by
  induction s with
  | nil => simp [split_nil] at h
  | cons c s ih =>
    by_cases hc : c = d
    · rw [hc, split_delimiter_cons] at h
      obtain ⟨k, rest, heq, hrest⟩ := ih h
      exact ⟨k + 1, rest, by rw [hc, heq, List.replicate_succ, List.cons_append], hrest⟩
    · have hne : (c :: s).takeWhile (· ≠ d) ≠ [] := by simp [hc]
      rcases dropWhile_cases (c :: s) d with ⟨-, hwhole⟩ | ⟨rest, -, hwhole⟩
      · rw [split_of_not_mem (List.cons_ne_nil c s) (hwhole ▸ delimiter_not_mem_takeWhile)] at h
        obtain ⟨rfl, rfl⟩ := List.cons.inj h
        exact ⟨0, [], (List.append_nil _).symm, Or.inl ⟨rfl, rfl⟩⟩
      · rw [hwhole, split_append_cons hne delimiter_not_mem_takeWhile] at h
        obtain ⟨rfl, hxs⟩ := List.cons.inj h
        exact ⟨0, d :: rest, hwhole, Or.inr ⟨rest, rfl, hxs⟩⟩

theorem eq_replicate_of_split_eq_nil (h : split s d = []) : s = List.replicate s.length d := by
  induction s with
  | nil => rfl
  | cons c s ih =>
    by_cases hc : c = d
    · rw [hc, split_delimiter_cons] at h
      rw [hc, List.length_cons, List.replicate_succ, ← ih h]
    · have hne : (c :: s).takeWhile (· ≠ d) ≠ [] := by simp [hc]
      rcases dropWhile_cases (c :: s) d with ⟨-, hwhole⟩ | ⟨rest, -, hwhole⟩
      · rw [split_of_not_mem (List.cons_ne_nil c s) (hwhole ▸ delimiter_not_mem_takeWhile)] at h
        cases h
      · rw [hwhole, split_append_cons hne delimiter_not_mem_takeWhile] at h
        cases h

/-- Three fields with delimiters in front, between and behind. -/
def spaced (d : UInt8) (k l m n : Nat) (x y z : Bytes) : Bytes :=
  List.replicate k d ++ (x ++ d :: (List.replicate l d ++ (y ++ d :: (List.replicate m d ++
    (z ++ List.replicate n d)))))

theorem split_eq_three_iff : split s d = [x, y, z] ↔ IsField d x ∧ IsField d y ∧ IsField d z ∧
    ∃ k l m n, s = spaced d k l m n x y z := by
  constructor
  · intro h
    refine ⟨isField_of_mem_split (s := s) (by simp [h]), isField_of_mem_split (s := s) (by simp [h]),
      isField_of_mem_split (s := s) (by simp [h]), ?_⟩
    obtain ⟨k, _, rfl, ⟨-, hnil⟩ | ⟨r, rfl, hr⟩⟩ := exists_of_split_eq_cons h
    · cases hnil
    obtain ⟨l, _, rfl, ⟨-, hnil⟩ | ⟨r', rfl, hr'⟩⟩ := exists_of_split_eq_cons hr
    · cases hnil
    obtain ⟨m, rest, rfl, ⟨rfl, -⟩ | ⟨r'', rfl, hr''⟩⟩ := exists_of_split_eq_cons hr'
    · exact ⟨k, l, m, 0, rfl⟩
    · refine ⟨k, l, m, r''.length + 1, ?_⟩
      rw [spaced, List.replicate_succ, ← eq_replicate_of_split_eq_nil hr'']
  · rintro ⟨hx, hy, hz, k, l, m, n, rfl⟩
    have hlast : split (z ++ List.replicate n d) d = [z] := by
      cases n with
      | zero => rw [List.replicate_zero, List.append_nil, split_of_not_mem hz.ne_nil hz.delimiterFree]
      | succ n =>
        have hnone := split_replicate_append (s := []) (d := d) n
        rw [List.append_nil, split_nil] at hnone
        rw [List.replicate_succ, split_append_cons hz.ne_nil hz.delimiterFree, hnone]
    rw [spaced, split_replicate_append, split_append_cons hx.ne_nil hx.delimiterFree,
      split_replicate_append, split_append_cons hy.ne_nil hy.delimiterFree, split_replicate_append,
      hlast]

theorem split_fields (hx : IsField d x) (hy : IsField d y) (hz : IsField d z) :
    split (x ++ d :: (y ++ d :: z)) d = [x, y, z] :=
  split_eq_three_iff.mpr ⟨hx, hy, hz, 0, 0, 0, 0, by simp [spaced]⟩

end Split

def filterTypes : List Bytes := [str "is", str "ext", str "glob", str "globx"]

/-- `TYPE:FILTER:FILTERARGS`. -/
structure IsFilterSpec (s fileType filterType filterArgs : Bytes) : Prop where
  eq : s = fileType ++ colon :: (filterType ++ colon :: filterArgs)
  typeField : IsField colon fileType
  filterField : IsField colon filterType
  argsField : IsField colon filterArgs
  known : filterType ∈ filterTypes

/-- Three fields with a known filter type between them, and more colons than the two that part
them. -/
def HasSpareColons (s : Bytes) : Prop :=
  ∃ fileType filterType filterArgs, IsField colon fileType ∧ IsField colon filterType ∧
    IsField colon filterArgs ∧ filterType ∈ filterTypes ∧
    ∃ k l m n, 0 < k + l + m + n ∧ s = spaced colon k l m n fileType filterType filterArgs

theorem IsFilterSpec.split {s fileType filterType filterArgs : Bytes}
    (h : IsFilterSpec s fileType filterType filterArgs) :
    split s colon = [fileType, filterType, filterArgs] :=
  h.eq ▸ split_fields h.typeField h.filterField h.argsField

theorem not_isFilterSpec_of_hasSpareColons {s : Bytes} (h : HasSpareColons s) :
    ¬ ∃ fileType filterType filterArgs, IsFilterSpec s fileType filterType filterArgs := by
  obtain ⟨x, y, z, hx, hy, hz, -, k, l, m, n, hpos, hs⟩ := h
  rintro ⟨x', y', z', hspec⟩
  have hsplit := split_eq_three_iff.mpr ⟨hx, hy, hz, k, l, m, n, hs⟩
  rw [hspec.split] at hsplit
  obtain ⟨rfl, rfl, rfl⟩ : x' = x ∧ y' = y ∧ z' = z := by simpa using hsplit
  have hlength := congrArg List.length (hspec.eq.symm.trans hs)
  simp only [spaced, List.length_append, List.length_cons, List.length_replicate] at hlength
  omega

theorem isFilterSpec_or_hasSpareColons {s fileType filterType filterArgs : Bytes}
    (hsplit : split s colon = [fileType, filterType, filterArgs]) (h : filterType ∈ filterTypes) :
    IsFilterSpec s fileType filterType filterArgs ∨ HasSpareColons s := by
  obtain ⟨hx, hy, hz, k, l, m, n, hs⟩ := split_eq_three_iff.mp hsplit
  rcases Nat.eq_zero_or_pos (k + l + m + n) with hzero | hpos
  · obtain ⟨rfl, rfl, rfl, rfl⟩ : k = 0 ∧ l = 0 ∧ m = 0 ∧ n = 0 := by omega
    exact Or.inl ⟨by simpa [spaced] using hs, hx, hy, hz, h⟩
  · exact Or.inr ⟨_, _, _, hx, hy, hz, h, k, l, m, n, hpos, hs⟩

namespace TypeManager

variable {tm tm' : TypeManager} {deleteTypeFirst : Bool} {s fileType filterType filterArgs : Bytes}

/-- The documented grammar is what is accepted, with what its fields say, and all else throws. -/
def ParsedByGrammar (tm : TypeManager) (deleteTypeFirst : Bool) (s : Bytes) : Prop :=
  (∀ fileType filterType filterArgs, IsFilterSpec s fileType filterType filterArgs →
    ∃ tm', tm.typeAddFromFilterSpecString deleteTypeFirst s = .ok tm' ∧
      tm.AddsFilters deleteTypeFirst fileType filterType filterArgs tm') ∧
  ((¬ ∃ fileType filterType filterArgs, IsFilterSpec s fileType filterType filterArgs) →
    ∃ e, tm.typeAddFromFilterSpecString deleteTypeFirst s = .error e)

theorem addsFilters_of_split (hsplit : split s colon = [fileType, filterType, filterArgs])
    (h : filterType ∈ filterTypes) :
    ∃ tm', tm.typeAddFromFilterSpecString deleteTypeFirst s = .ok tm' ∧
      tm.AddsFilters deleteTypeFirst fileType filterType filterArgs tm' := by
  cases hresult : tm.typeAddFromFilterSpecString deleteTypeFirst s with
  | ok tm' => exact ⟨tm', rfl, typeAddFromFilterSpecString_of_split hsplit hresult⟩
  | error e =>
    exfalso
    simp only [filterTypes, List.mem_cons, List.not_mem_nil, or_false] at h
    rw [typeAddFromFilterSpecString, hsplit] at hresult
    dsimp only at hresult
    split_ifs at hresult with his hext hglobx hglob
    tauto

theorem split_of_ok (h : tm.typeAddFromFilterSpecString deleteTypeFirst s = .ok tm') :
    ∃ fileType filterType filterArgs, split s colon = [fileType, filterType, filterArgs] ∧
      filterType ∈ filterTypes := by
  obtain ⟨fileType, filterType, filterArgs, hsplit, hcases⟩ := typeAddFromFilterSpecString_cases h
  refine ⟨fileType, filterType, filterArgs, hsplit, ?_⟩
  rcases hcases with ⟨rfl, -⟩ | ⟨rfl, -⟩ | ⟨rfl, -⟩ | ⟨rfl, -⟩ <;> simp [filterTypes]

theorem not_parsedByGrammar_of_hasSpareColons (h : HasSpareColons s) :
    ¬ tm.ParsedByGrammar deleteTypeFirst s := by
  rintro ⟨-, hrefused⟩
  obtain ⟨e, herror⟩ := hrefused (not_isFilterSpec_of_hasSpareColons h)
  obtain ⟨x, y, z, hx, hy, hz, hknown, k, l, m, n, -, hs⟩ := h
  have hsplit := split_eq_three_iff.mpr ⟨hx, hy, hz, k, l, m, n, hs⟩
  obtain ⟨tm', hok, -⟩ : ∃ tm', tm.typeAddFromFilterSpecString deleteTypeFirst s = .ok tm' ∧
      tm.AddsFilters deleteTypeFirst x y z tm' := addsFilters_of_split hsplit hknown
  rw [hok] at herror
  cases herror

/-- A text is taken as the grammar says unless three fields with a known filter type have spare
colons around them. -/
theorem parsedByGrammar_iff (tm : TypeManager) (deleteTypeFirst : Bool) (s : Bytes) :
    tm.ParsedByGrammar deleteTypeFirst s ↔ ¬ HasSpareColons s := by
  refine ⟨fun hparsed hspare => not_parsedByGrammar_of_hasSpareColons hspare hparsed, fun hspare => ?_⟩
  refine ⟨fun x y z hspec => addsFilters_of_split hspec.split hspec.known, fun hnone => ?_⟩
  cases hresult : tm.typeAddFromFilterSpecString deleteTypeFirst s with
  | error e => exact ⟨e, rfl⟩
  | ok tm' =>
    obtain ⟨x, y, z, hsplit, hknown⟩ := split_of_ok hresult
    rcases isFilterSpec_or_hasSpareColons hsplit hknown with hspec | hcolons
    · exact absurd ⟨x, y, z, hspec⟩ hnone
    · exact absurd hcolons hspare

/-- The file name `:a` is taken for `a`. -/
theorem not_parsedByGrammar_colonName :
    ¬ TypeManager.new.ParsedByGrammar false (str "q:is::a") :=
  not_parsedByGrammar_of_hasSpareColons ⟨str "q", str "is", str "a", ⟨by decide, by decide⟩,
    ⟨by decide, by decide⟩, ⟨by decide, by decide⟩, by decide, 0, 0, 1, 0, by decide, by decide⟩

end TypeManager

end Ucg
