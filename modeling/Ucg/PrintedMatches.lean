import Ucg.GrepLines
import Ucg.PrintedOutput
import Ucg.ProgramResult

/-! What a run of the program prints: the lines with a match of the files below the start paths. -/

namespace Ucg

open Segments

variable {D : Type*} {dirjobs jobs : Nat} {setup : ProgramSetup D} {s : ProgramState dirjobs jobs D}

/-- How the body of the loop of `FileScanner::Run` ends for the bytes of a file. -/
inductive ScanEnds (fs : FileScannerPCRE2) (pcre2Match : Pcre2Match) (file : Bytes) : FileOutcome → Prop
  | empty (hfile : file = []) : ScanEnds fs pcre2Match file .empty
  | scanned (hfile : file ≠ []) {n : Nat} {res : ScanResult}
      (hdone : fs.scanFile pcre2Match file n = .done res) :
      ScanEnds fs pcre2Match file (.scanned res.ml)

/-- The lines with a match of the file at a path, as they are printed. An empty file has no line. -/
def Regex.printedLines {file : Bytes} (r : Regex file) (ctx : OutputContext) (path : Bytes) :
    List PrintedLine :=
  if file = [] then [] else MatchList.printedLines ⟨path, r.grepLines⟩ ctx

def ProgramSetup.foundPaths (setup : ProgramSetup D) (root : Bytes → FsNode) : Multiset Bytes :=
  (setup.startPaths.map fun p => setup.dirTree.foundFrom (cleanUpPath p) (root p)).sum

/-- The scanner threads search the files with the contents given for a regex. -/
structure ProgramSetup.Greps (setup : ProgramSetup D) (root : Bytes → FsNode) (fs : FileScannerPCRE2)
    (contents : Bytes → Bytes) (pcre2Match : Bytes → Pcre2Match) (regex : (file : Bytes) → Regex file) :
    Prop where
  scanEnds : ∀ path ∈ setup.foundPaths root,
    ScanEnds fs (pcre2Match (contents path)) (contents path) (setup.outcome path)
  searchesFor : ∀ path ∈ setup.foundPaths root,
    SearchesFor fs (pcre2Match (contents path)) (regex (contents path))
  filename : ∀ path ∈ setup.foundPaths root, setup.outputContext.fileSeparator ∉ noDotslash path

theorem Match.IsAt.newline_notMem_line {file : Bytes} {m : Match} {q e : Nat} (hqe : q ≤ e)
    (h : m.IsAt file q e) : newline ∉ m.line := by
  obtain ⟨a, b, hseg, -, -, hjoin, -⟩ := h.line_eq hqe
  rw [Match.line, hjoin]
  exact sepFree_iff_not_mem.mp hseg.free

theorem newline_notMem_of_mem_grepLines {file : Bytes} {r : Regex file} {m : Match}
    (hm : m ∈ r.grepLines) : newline ∉ m.line := by
  obtain ⟨q, e, -, hleft, hat⟩ := Regex.mem_grepLines.mp hm
  exact hat.newline_notMem_line (Regex.matchAt_bounds hleft.isMatch).1

/-- What is printed for a file whose scan ends so. -/
theorem ScanEnds.matchLists {fs : FileScannerPCRE2} {pcre2Match : Pcre2Match} {file : Bytes}
    {r : Regex file} {out : FileOutcome} (h : ScanEnds fs pcre2Match file out)
    (hsearch : SearchesFor fs pcre2Match r) (ctx : OutputContext) (path : Bytes) :
    (FoundFile.matchLists ⟨path, out⟩).flatMap (·.printedLines ctx) = r.printedLines ctx path ∧
      ∀ ml ∈ FoundFile.matchLists ⟨path, out⟩, ml = ⟨path, r.grepLines⟩ := by
  cases h with
  | empty hfile => exact ⟨by rw [Regex.printedLines, if_pos hfile]; rfl, fun ml hml => by cases hml⟩
  | scanned hfile hdone =>
    obtain ⟨n, hgrep⟩ := scanFile_grepLines hsearch hfile
    obtain rfl := Iteration.run_done_unique hgrep hdone
    rw [Regex.printedLines, if_neg hfile]
    dsimp only
    cases r.grepLines with
    | nil => exact ⟨rfl, fun ml hml => by cases hml⟩
    | cons m found =>
      exact ⟨by simp [FoundFile.matchLists], fun ml hml => List.mem_singleton.mp hml⟩

/-- Lists of at most one element each, in any order: so are the things that they are lists for. -/
theorem exists_perm_flatMap {α β : Type*} {f : α → List β} (hf : ∀ x, (f x).length ≤ 1) {l : List β}
    {xs : List α} (h : l.Perm (xs.flatMap f)) : ∃ ys : List α, ys.Perm xs ∧ l = ys.flatMap f := by
  induction l generalizing xs with
  | nil => exact ⟨xs, .refl xs, h.nil_eq⟩
  | cons b l ih =>
    obtain ⟨x, hx, hb⟩ := List.mem_flatMap.mp (h.subset List.mem_cons_self)
    obtain ⟨front, back, rfl⟩ := List.append_of_mem hx
    have hfx : f x = [b] := by
      have hle := hf x
      rcases hfx : f x with _ | ⟨c, rest⟩
      · rw [hfx] at hb
        cases hb
      · rw [hfx] at hb hle
        obtain rfl := List.length_eq_zero_iff.mp (show rest.length = 0 by simpa using hle)
        rw [List.mem_singleton.mp hb]
    have hmid : (front ++ x :: back).flatMap f = front.flatMap f ++ b :: back.flatMap f := by
      rw [List.flatMap_append, List.flatMap_cons, hfx]
      rfl
    rw [hmid] at h
    have hrest : l.Perm ((front ++ back).flatMap f) := by
      rw [List.flatMap_append]
      exact (h.trans List.perm_middle).cons_inv
    obtain ⟨ys, hys, rfl⟩ := ih hrest
    refine ⟨x :: ys, (hys.cons x).trans List.perm_middle.symm, ?_⟩
    rw [List.flatMap_cons, hfx]
    rfl

theorem length_matchLists_le (f : FoundFile) : f.matchLists.length ≤ 1 := by
  unfold FoundFile.matchLists
  split <;> simp

/-- Over trees, with any number of threads and in any order of their steps: the printed lines are
the lines with a match of the files that are found, those of a file together and in order, each with
its number, its column and its text. The exit status is 1 if there are none, and else 0. -/
theorem program_prints_grepLines {node : D → FsNode} {root : Bytes → FsNode} {fs : FileScannerPCRE2}
    {contents : Bytes → Bytes} {pcre2Match : Bytes → Pcre2Match} {regex : (file : Bytes) → Regex file}
    (hjobs : 0 < jobs) (hfollow : setup.dirTree.followSymlinks = false)
    (htree : IsTree setup.fileSystem node)
    (hstart : ∀ p ∈ setup.startPaths, StartIs setup.fileSystem node (cleanUpPath p) (root p))
    (hgreps : setup.Greps root fs contents pcre2Match regex)
    (hcolor : setup.outputContext.enableColor = false)
    (hmode : setup.outputContext.prefixFile = true ∨ setup.outputContext.printLineNumber = true)
    (h : ProgramReachable setup s) {status : Nat} (hmain : s.main = .returned status) :
    ∃ paths : List Bytes, ↑paths = setup.foundPaths root ∧
      readOutput setup.outputContext s.cout =
        (paths.flatMap fun path => (regex (contents path)).printedLines setup.outputContext path) ∧
      status = if readOutput setup.outputContext s.cout = [] then 1 else 0 := by
  have hglobbing : ¬ s.main.Globbing := by rw [hmain]; exact id
  obtain ⟨hperm, hstatus⟩ := ProgramReachable.returned hjobs h hmain
  have hfound := putOut_eq hfollow htree hstart h hglobbing
  set lists : Bytes → List MatchList := fun path => FoundFile.matchLists ⟨path, setup.outcome path⟩
  have hputOut : (s.putOut setup).flatMap (·.matchLists) =
      (s.traversal.world.outQueue.map FileID.path).flatMap lists := by
    simp [ProgramState.putOut, ProgramSetup.found, lists, List.flatMap_map]
  rw [hputOut] at hperm
  obtain ⟨paths, hpaths, hprinted⟩ := exists_perm_flatMap (fun path => length_matchLists_le _) hperm
  have hpathsFound : (↑paths : Multiset Bytes) = setup.foundPaths root :=
    (Multiset.coe_eq_coe.mpr hpaths).trans hfound
  have hmem {path : Bytes} (hpath : path ∈ paths) : path ∈ setup.foundPaths root :=
    hpathsFound ▸ Multiset.mem_coe.mpr hpath
  have hlists {path : Bytes} (hpath : path ∈ paths) := (hgreps.scanEnds path (hmem hpath)).matchLists
    (hgreps.searchesFor path (hmem hpath)) setup.outputContext path
  have hreadable : ∀ ml ∈ s.outputTask.printed, ml.Readable setup.outputContext := by
    intro ml hml
    rw [hprinted] at hml
    obtain ⟨path, hpath, hml⟩ := List.mem_flatMap.mp hml
    obtain rfl := (hlists hpath).2 ml hml
    exact ⟨hgreps.filename path (hmem hpath), fun m hm => newline_notMem_of_mem_grepLines hm⟩
  have hread : readOutput setup.outputContext s.cout =
      s.outputTask.printed.flatMap (·.printedLines setup.outputContext) := by
    rw [(ProgramReachable.written h).cout]
    exact readOutput_writeAll hcolor hmode hreadable
  refine ⟨paths, hpathsFound, ?_, ?_⟩
  · rw [hread, hprinted, List.flatMap_assoc]
    exact List.flatMap_congr fun path hpath => (hlists hpath).1
  · have hempty : s.outputTask.printed = [] ↔ readOutput setup.outputContext s.cout = [] := by
      rw [hread, List.flatMap_eq_nil_iff]
      constructor
      · rintro hnil ml hml
        rw [hnil] at hml
        cases hml
      · intro hnone
        refine List.eq_nil_iff_forall_not_mem.mpr fun ml hml => ?_
        obtain ⟨f, -, hf⟩ := List.mem_flatMap.mp (hputOut ▸ hperm.subset hml)
        exact ne_nil_of_mem_matchLists hf (List.map_eq_nil_iff.mp (hnone ml hml))
    rw [hstatus]
    exact if_congr hempty rfl rfl

/-- A scanner for the literal `x`. -/
def scannerX : FileScannerPCRE2 := .analyzed true false false true ⟨none, 0, 0⟩ ⟨[120], by decide⟩

theorem nestedSetup_greps : nestedSetup.Greps (fun _ => nestedTree false) scannerX (fun _ => [97, 120])
    (fun _ _ _ => .noMatch) (literalRegex [120]) where
  scanEnds path _ :=
    have hscan : scannerX.scanFile (fun _ _ => .noMatch) [97, 120] 3 =
        .done ⟨[⟨1, [97], [120], []⟩], .finished⟩ := by decide
    .scanned (by decide) hscan
  searchesFor path _ :=
    have huse : scannerX.mUseLiteral = true := by decide
    .literal _ huse (by decide) (by decide)
  filename := by decide

theorem program_prints_grepLines_nested : ∃ (s : ProgramState 1 1 Bool) (paths : List Bytes),
    s.cout = str "d/b/c:1:2:ax\n" ∧
      (↑paths : Multiset Bytes) = nestedSetup.foundPaths (fun _ => nestedTree false) ∧
      readOutput nestedSetup.outputContext s.cout =
        (paths.flatMap fun path =>
          (literalRegex [120] [97, 120]).printedLines nestedSetup.outputContext path) ∧
      0 = if readOutput nestedSetup.outputContext s.cout = [] then 1 else 0 := by
  obtain ⟨s, hreturned, hmain, hcout⟩ := nestedSetup_returns
  obtain ⟨paths, hpaths, hlines, hstatus⟩ := program_prints_grepLines Nat.one_pos rfl
    nestedFileSystem_isTree nestedSetup_startIs nestedSetup_greps rfl (Or.inl rfl) hreturned hmain
  exact ⟨s, paths, hcout, hpaths, hlines, hstatus⟩

end Ucg
