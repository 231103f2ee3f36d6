import TerseMarkup.Proofs.CommandOutcome
import TerseMarkup.Proofs.FileNames

/-!
# A build without an output keeps its input

In a tree without links every entry stands in a directory, so a path that leads to a file ends with
the name of that file. The default output of this path has another name in the same directory, or it
is a step up, where a directory stands and nothing can be written. The main statement,
`Workspace.read_of_default_build`, adds what `Path.defaultOutput_of_fileName` says of names.
-/

namespace TerseMarkup

namespace FileTree

variable {tree : FileTree} {place start parent : List String} {segments : List String}
  {segment : String}

/-- Every entry stands in a directory. -/
def IsTree (tree : FileTree) : Prop :=
  ∀ place name, (tree.find? (place ++ [name])).isSome = true → tree.find? place = some .directory

private theorem isTree_of_forall_mem
    (h : ∀ entry ∈ tree.entries, tree.find? entry.1.dropLast = some .directory) : tree.IsTree := by
  intro place name hs
  obtain ⟨entry, he⟩ := Option.isSome_iff_exists.mp hs
  rw [find?, if_neg (by simp)] at he
  obtain ⟨before, after, hentries, -⟩ := List.lookup_eq_some_iff.mp he
  simpa using h (place ++ [name], entry) (by rw [hentries]; simp)

/-- A directory stands in a directory, the root in itself. -/
private theorem IsTree.find?_dropLast (h : tree.IsTree) (hd : tree.find? place = some .directory) :
    tree.find? place.dropLast = some .directory := by
  rcases List.eq_nil_or_concat place with rfl | ⟨front, name, rfl⟩
  · exact hd
  · rw [List.concat_eq_append] at hd ⊢
    rw [List.dropLast_concat]
    exact h front name (by rw [hd]; rfl)

private theorem walk_concat (h : tree.walk start segments = .ok parent) (segment : String) :
    tree.walk start (segments ++ [segment]) = tree.step parent segment := by
  rw [walk, List.foldlM_append, show segments.foldlM tree.step start = .ok parent from h]
  exact bind_pure (tree.step parent segment)

private theorem step_stepUp (h : tree.find? place = some .directory) :
    tree.step place ".." = .ok place.dropLast := by
  rw [step, h]
  rfl

/-- A name leads from a directory to the entry with this name, unless it is too long. -/
private theorem eq_of_step {next : List String} (hn : Path.IsName segment)
    (h : tree.step place segment = .ok next) : next = place ++ [segment] := by
  rw [step, directory_of_step h] at h
  simp only [hn.stays_eq, hn.ne_stepUp, Bool.false_eq_true, if_false] at h
  split at h
  · cases h
  · exact (Except.ok.inj h).symm

private theorem eq_of_step_of_stays {next : List String} (hs : Path.stays segment = true)
    (h : tree.step place segment = .ok next) : next = place := by
  rw [step, directory_of_step h] at h
  simp only [hs, if_true] at h
  exact (Except.ok.inj h).symm

/-- Where no directory stands, a way ends with a name. -/
private theorem IsTree.exists_of_walk (htree : tree.IsTree) (hne : segments ≠ [])
    (h : tree.walk start segments = .ok place) (hd : tree.find? place ≠ some .directory) :
    ∃ front name parent, segments = front ++ [name] ∧ Path.IsName name ∧
      tree.walk start front = .ok parent ∧ tree.find? parent = some .directory ∧
        place = parent ++ [name] := by
  rcases List.eq_nil_or_concat segments with rfl | ⟨front, name, rfl⟩
  · exact absurd rfl hne
  rw [List.concat_eq_append] at h ⊢
  obtain ⟨parent, hparent, -⟩ := exists_of_bind_eq_ok (List.foldlM_append.symm.trans h)
  rw [walk_concat hparent] at h
  have hdirectory := directory_of_step h
  have hname : Path.IsName name := by
    constructor
    · cases hs : Path.stays name with
      | false => rfl
      | true => exact absurd (eq_of_step_of_stays hs h ▸ hdirectory) hd
    · rintro rfl
      rw [step_stepUp hdirectory] at h
      exact hd (Except.ok.inj h ▸ htree.find?_dropLast hdirectory)
  exact ⟨front, name, parent, rfl, hname, hparent, hdirectory, eq_of_step hname h⟩

end FileTree

private theorem Path.isAbsolute_cons_cons (first second : String) (rest : List String) :
    isAbsolute ⟨first :: second :: rest⟩ = decide (first = "") := by
  by_cases h : first = ""
  · subst h
    rfl
  · rw [decide_eq_false h, isAbsolute]
    split
    · next heq => exact absurd (List.cons.inj heq).1 h
    · rfl

namespace Workspace

variable {w later : Workspace} {path : Path} {contents bytes : ByteArray} {place : List String}

private theorem walk_of_follow {segments : List String} (h : w.follow path segments = .ok place) :
    w.tree.walk (w.origin path) segments = .ok place := by
  unfold follow at h
  split at h
  · cases h
  · exact h

/-- A file is read where its path leads. -/
private theorem exists_place_of_read (h : w.read path = .ok bytes) :
    ∃ place, w.follow path path.segments = .ok place ∧
      w.tree.find? place = some (.file bytes) := by
  obtain ⟨place, hf, hr⟩ := exists_of_bind_eq_ok h
  refine ⟨place, hf, ?_⟩
  cases he : w.tree.find? place with
  | none =>
    rw [he] at hr
    cases hr
  | some entry =>
    rw [he] at hr
    cases entry with
    | directory => cases hr
    | file found => rw [Except.ok.inj hr]

private theorem read_of_find? (hf : w.follow path path.segments = .ok place)
    (he : w.tree.find? place = some (.file bytes)) : w.read path = .ok bytes := by
  simp only [read, hf, bind, Except.bind, he]

/-- Paths that differ in their last segments start in the same place. -/
private theorem origin_concat (w : Workspace) (front : List String) (segment other : String) :
    w.origin ⟨front ++ [segment]⟩ = w.origin ⟨front ++ [other]⟩ := by
  have habsolute : Path.isAbsolute ⟨front ++ [segment]⟩ = Path.isAbsolute ⟨front ++ [other]⟩ := by
    rcases front with _ | ⟨first, _ | ⟨second, front⟩⟩
    · simp [Path.isAbsolute]
    · exact (Path.isAbsolute_cons_cons ..).trans (Path.isAbsolute_cons_cons ..).symm
    · exact (Path.isAbsolute_cons_cons ..).trans (Path.isAbsolute_cons_cons ..).symm
  rw [origin, habsolute, origin]

private theorem read_put {other : List String} (h : w.read path = .ok bytes)
    (hf : w.follow path path.segments = .ok place) (hne : place ≠ other)
    (hd : w.tree.find? other ≠ some .directory) (contents : ByteArray) :
    read { w with tree := w.tree.put other (.file contents) } path = .ok bytes := by
  obtain ⟨found, hfound, he⟩ := exists_place_of_read h
  obtain rfl : place = found := Except.ok.inj (hf.symm.trans hfound)
  exact read_of_find? (follow_put hf hd contents) ((FileTree.find?_put_of_ne hne _).trans he)

/-- The default output of a file is not the file. -/
private theorem read_of_write_default {input : String} (htree : w.tree.IsTree)
    (h : w.read (.ofText input) = .ok bytes)
    (hw : w.write (Command.outputPath input none) contents = .ok later) :
    later.read (.ofText input) = .ok bytes := by
  obtain ⟨place, hf, he⟩ := exists_place_of_read h
  have hnd : w.tree.find? place ≠ some .directory := by simp [he]
  have hne : (Path.ofText input).segments ≠ [] := by
    rw [Path.segments_ofText]
    exact Text.parts_ne_nil _ _
  obtain ⟨front, name, parent, hs, hname, hparent, hdirectory, rfl⟩ :=
    htree.exists_of_walk hne (walk_of_follow hf) hnd
  have hsplit : (Path.ofText input).splitFileName? = some (front, name) :=
    Path.splitFileName?_eq_some_iff.mpr ⟨[], hs, hname, nofun⟩
  obtain ⟨target, ht, htd, rfl⟩ := exists_place_of_write hw
  have houtput : Command.outputPath input none = (Path.ofText input).defaultOutput := by
    rw [Command.outputPath, Option.getD_none, Path.ofText_toText_defaultOutput hsplit]
  have hinput : Path.ofText input = ⟨front ++ [name]⟩ := congrArg Path.mk hs
  -- The way to the output is the way to the input up to the last segment.
  have hstep {segment : String} (ho : (Path.ofText input).defaultOutput = ⟨front ++ [segment]⟩) :
      w.tree.step parent segment = .ok target := by
    rw [houtput, ho] at ht
    rw [hinput] at hparent
    rw [← FileTree.walk_concat hparent, origin_concat w front name segment]
    exact walk_of_follow ht
  rcases Path.defaultOutput_of_fileName hsplit with ⟨-, -, ho⟩ | ⟨-, output, ho, hout, hdiffers, -⟩
  · have hup := hstep ho
    rw [FileTree.step_stepUp hdirectory] at hup
    exact absurd (Except.ok.inj hup ▸ htree.find?_dropLast hdirectory) htd
  · obtain rfl := FileTree.eq_of_step hout (hstep ho)
    refine read_put h hf ?_ htd contents
    intro heq
    simp only [List.append_cancel_left_eq, List.cons.injEq, and_true] at heq
    exact hdiffers heq.symm

/-- Writing a file leaves every entry in a directory. -/
private theorem isTree_of_write (htree : w.tree.IsTree) (hne : path.segments ≠ [])
    (h : w.write path contents = .ok later) : later.tree.IsTree := by
  obtain ⟨target, ht, htd, rfl⟩ := exists_place_of_write h
  intro place name hs
  have hold : w.tree.find? place = some .directory := by
    by_cases htarget : place ++ [name] = target
    · obtain ⟨-, _, parent, -, -, -, hdirectory, heq⟩ :=
        htree.exists_of_walk hne (walk_of_follow ht) htd
      rw [← htarget] at heq
      rw [List.append_inj_left' heq rfl]
      exact hdirectory
    · rw [FileTree.find?_put_of_ne htarget] at hs
      exact htree place name hs
  have hplace : place ≠ target := by
    rintro rfl
    exact htd hold
  rw [FileTree.find?_put_of_ne hplace, hold]

/-- A build without an output leaves its input as it was. -/
private theorem read_run_default (htree : w.tree.IsTree) (input : String) :
    (w.run (.build input none)).2.read (.ofText input) = w.read (.ofText input) ∧
      (w.run (.build input none)).2.tree.IsTree := by
  have houtcome := outcome_run w (.build input none)
  by_cases hstatus : (w.run (.build input none)).1.status = 0
  · obtain ⟨source, -, hsource, -, -⟩ := houtcome.wrote_of_build input none rfl hstatus
    obtain ⟨compiled, -, hw⟩ :=
      (houtcome.build_iff input none source rfl hsource).mp hstatus
    obtain ⟨bytes, hread, -⟩ := exists_of_bind_eq_ok hsource
    have hne : (Command.outputPath input none).segments ≠ [] := by
      rw [Command.outputPath, Path.segments_ofText]
      exact Text.parts_ne_nil _ _
    have hlater := read_of_write_default htree hread hw
    exact ⟨hlater.trans hread.symm, isTree_of_write htree hne hw⟩
  · rw [houtcome.unchanged_of_failed hstatus]
    exact ⟨rfl, htree⟩

private theorem workspace_execute {arguments : List String} {command : Command}
    (h : Invocation.ofArguments? arguments = some (.command command)) (w : Workspace)
    (level : LogLevel) : (w.execute level arguments).workspace = (w.run command).2 := by
  simp only [execute, h]

/-- A build without an output leaves its input as it was, in every tree of files without links. The
default output of a path with a file name stands in the same directory under another name, which has
the extension `html`, or `out.html` if the first would be the input itself. Only a path that ends
with two dots and an extension has a default output that names no file, the step up. -/
theorem read_of_default_build (path : String) :
    (∀ (w : Workspace) (level : LogLevel) (arguments : List String), w.tree.IsTree →
      Invocation.ofArguments? arguments = some (.command (.build path none)) →
      (w.execute level arguments).workspace.read (.ofText path) = w.read (.ofText path) ∧
        (w.execute level arguments).workspace.tree.IsTree) ∧
    ∀ directory name, (Path.ofText path).splitFileName? = some (directory, name) →
      ((Path.ofText path).segments = directory ++ [name] ∧ Path.StepUpWithExtension name ∧
        (Path.ofText path).defaultOutput = ⟨directory ++ [".."]⟩) ∨
      (¬((Path.ofText path).segments = directory ++ [name] ∧ Path.StepUpWithExtension name) ∧
        ∃ output, (Path.ofText path).defaultOutput = ⟨directory ++ [output]⟩ ∧
          (Path.ofText path).defaultOutput.splitFileName? = some (directory, output) ∧
          output ≠ name ∧ Path.DefaultName name output) := by
  constructor
  · intro w level arguments htree harguments
    rw [workspace_execute harguments]
    exact read_run_default htree path
  · intro directory name h
    rcases Path.defaultOutput_of_fileName h with hup | ⟨hs, output, ho, hname, hne, hdefault⟩
    · exact .inl hup
    · exact .inr ⟨hs, output, ho, ho ▸ Path.splitFileName?_concat hname directory, hne, hdefault⟩

/-- A file beside its HTML, which is the input: the HTML goes to a third file. -/
theorem read_of_default_build_html :
    let w : Workspace := ⟨⟨[(["page.html"], .file "p: \"x\"".toUTF8)]⟩, []⟩
    w.tree.IsTree ∧
      Invocation.ofArguments? ["build", "page.html"] = some (.command (.build "page.html" none)) ∧
      (w.execute .warn ["build", "page.html"]).workspace.read (.ofText "page.html") =
        w.read (.ofText "page.html") ∧
      (Path.ofText "page.html").splitFileName? = some ([], "page.html") ∧
      ∃ output, (Path.ofText "page.html").defaultOutput = ⟨[output]⟩ ∧ output ≠ "page.html" ∧
        Path.DefaultName "page.html" output := by
  intro w
  have htree : w.tree.IsTree :=
    FileTree.isTree_of_forall_mem (List.forall_mem_singleton.mpr rfl)
  have harguments : Invocation.ofArguments? ["build", "page.html"] =
      some (.command (.build "page.html" none)) := by decide +kernel
  have hsplit : (Path.ofText "page.html").splitFileName? = some ([], "page.html") := by
    decide +kernel
  obtain ⟨hread, hnames⟩ := read_of_default_build "page.html"
  have hsame := (hread w .warn _ htree harguments).1
  refine ⟨htree, harguments, hsame, hsplit, ?_⟩
  rcases hnames [] "page.html" hsplit with
    ⟨-, ⟨extension, -, -, hname⟩, -⟩ | ⟨-, output, ho, -, hne, hd⟩
  · have hfirst := congrArg (fun text : String ↦ text.toList.head?) hname
    simp at hfirst
  · exact ⟨output, ho, hne, hd⟩

/-- Two dots and an extension: what clearing the extension leaves is a step up, which names no file,
and the build fails. -/
theorem defaultOutput_of_stepUp_name :
    let w : Workspace := ⟨⟨[(["..elk"], .file "p: \"x\"".toUTF8)]⟩, []⟩
    (Path.ofText "..elk").splitFileName? = some ([], "..elk") ∧
      (¬∃ output, (Path.ofText "..elk").defaultOutput.splitFileName? = some ([], output)) ∧
      (w.execute .warn ["build", "..elk"]).status = 1 := by
  intro w
  have hsplit : (Path.ofText "..elk").splitFileName? = some ([], "..elk") := by decide +kernel
  have hnone : (Path.ofText "..elk").defaultOutput.splitFileName? = none := by decide +kernel
  have hstatus : (w.execute .warn ["build", "..elk"]).status = 1 := by decide +kernel
  refine ⟨hsplit, ?_, hstatus⟩
  rw [hnone]
  nofun

end Workspace
end TerseMarkup
