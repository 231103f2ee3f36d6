import TerseMarkup.Command.Run
import TerseMarkup.Proofs.ExpectedParts

/-!
# What a command leaves behind

A command reads one file and writes at most one. Its plan is settled by what reading gave, and only
a plan that ends with status 0 can have written. So a command that fails leaves all files as they
were, and one that succeeds has changed the file it was asked for and no other. The main statement,
`Workspace.outcome_of_execute`, holds of every tree of files and all arguments.
-/

namespace TerseMarkup

/-! ### The message of a syntax error is one line -/

private theorem Production.newline_notMem_label (p : Production) : '\n' ∉ p.label.toList := by
  cases p <;> decide

namespace Document

private theorem newline_notMem_expected {source : String} {error : SyntaxError}
    (h : parse source = .error error) : ∀ label ∈ error.expected, '\n' ∉ label.toList := by
  rcases exists_of_parseWithin_eq_error h with
    ⟨mark, furthest, -, rfl⟩ | ⟨values, last, furthest, hattempt, -, rfl⟩
  · exact List.forall_mem_singleton.mpr (by decide)
  rw [report]
  rcases miss_of_found hattempt with hm | ⟨p, -, place, hm, -⟩
  · rw [hm, List.map_append, List.map_map, List.forall_mem_append, List.forall_mem_map]
    exact ⟨fun p _ ↦ p.newline_notMem_label, by decide⟩
  · rw [hm]
    exact List.forall_mem_singleton.mpr p.newline_notMem_label

end Document

private theorem newline_notMem_toString (n : Nat) : '\n' ∉ (toString n).toList := by
  intro h
  have hd := Nat.isDigit_of_mem_toDigits (by decide) (by decide) (Nat.toList_repr ▸ h)
  cases hd

private theorem newline_notMem_append {text more : String} (h : '\n' ∉ text.toList)
    (hm : '\n' ∉ more.toList) : '\n' ∉ (text ++ more).toList := by
  rw [String.toList_append, List.mem_append, not_or]
  exact ⟨h, hm⟩

private theorem newline_notMem_intercalate {labels : List String}
    (h : ∀ label ∈ labels, '\n' ∉ label.toList) : '\n' ∉ (", ".intercalate labels).toList := by
  induction labels with
  | nil => decide
  | cons label labels ih =>
    obtain ⟨hlabel, hmore⟩ := List.forall_mem_cons.mp h
    cases labels with
    | nil => rwa [String.intercalate_singleton]
    | cons next labels =>
      rw [String.intercalate_cons_cons]
      exact newline_notMem_append (newline_notMem_append hlabel (by decide)) (ih hmore)

private theorem SyntaxError.newline_notMem_message {error : SyntaxError}
    (h : ∀ label ∈ error.expected, '\n' ∉ label.toList) : '\n' ∉ error.message.toList := by
  have hline : '\n' ∉ ("Syntax error@" ++ toString error.position.line).toList :=
    newline_notMem_append (by decide) (newline_notMem_toString _)
  have hcolumn : '\n' ∉ ("Syntax error@" ++ toString error.position.line ++ ":" ++
      toString error.position.column).toList :=
    newline_notMem_append (newline_notMem_append hline (by decide)) (newline_notMem_toString _)
  exact newline_notMem_append (newline_notMem_append hcolumn (by decide))
    (newline_notMem_intercalate h)

/-! ### File trees -/

/-- Two steps succeed only if both do. -/
theorem exists_of_bind_eq_ok {α β : Type} {x : Except Fault α} {f : α → Except Fault β}
    {b : β} (h : x >>= f = .ok b) : ∃ a, x = .ok a ∧ f a = .ok b := by
  cases x with
  | error fault => cases h
  | ok a => exact ⟨a, rfl, h⟩

namespace FileTree

variable {tree : FileTree} {place other : List String} {contents : ByteArray}

private theorem find?_put_self (h : place ≠ []) (entry : Entry) :
    (tree.put place entry).find? place = some entry := by
  have hnone : (tree.entries.filter (·.1 != place)).lookup place = none := by
    rw [List.lookup_eq_none_iff]
    intro p hp
    simpa [bne_comm] using (List.mem_filter.mp hp).2
  rw [find?, if_neg h, put, List.lookup_append, hnone, Option.none_or, List.lookup_cons_self]

/-- To put an entry at a place changes no other place. -/
theorem find?_put_of_ne (h : other ≠ place) (entry : Entry) :
    (tree.put place entry).find? other = tree.find? other := by
  have hb : (other == place) = false := beq_eq_false_iff_ne.mpr h
  have hnew : [(place, entry)].lookup other = none := by rw [List.lookup_cons, hb, List.lookup_nil]
  have hold : (tree.entries.filter (·.1 != place)).lookup other = tree.entries.lookup other := by
    induction tree.entries with
    | nil => rfl
    | cons first entries ih =>
      by_cases hf : first.1 = place
      · rw [List.filter_cons_of_neg (by simp [hf]), ih, List.lookup_cons, hf, hb]
      · rw [List.filter_cons_of_pos (by simp [hf]), List.lookup_cons, ih, List.lookup_cons]
  rw [find?, find?, put, List.lookup_append, hold, hnew, Option.or_none]

/-- A step from a place depends only on what stands there. -/
private theorem step_congr {later : FileTree} (h : later.find? place = tree.find? place)
    (segment : String) : later.step place segment = tree.step place segment := by
  rw [step, h, step]

/-- No step leads on from a place that is not a directory. -/
theorem directory_of_step {segment : String} {next : List String}
    (h : tree.step place segment = .ok next) : tree.find? place = some .directory := by
  unfold step at h
  split at h
  · cases h
  · cases h
  · assumption

private theorem walk_cons (tree : FileTree) (place : List String) (segment : String)
    (segments : List String) : tree.walk place (segment :: segments) =
      tree.step place segment >>= fun next ↦ tree.walk next segments := rfl

/-- Every way is the same once a file is written, since no way leads through a file. -/
private theorem walk_put {segments start : List String} (h : tree.walk start segments = .ok place)
    (hp : tree.find? other ≠ some .directory) :
    (tree.put other (.file contents)).walk start segments = .ok place := by
  induction segments generalizing start with
  | nil => exact h
  | cons segment segments ih =>
    rw [walk_cons] at h ⊢
    obtain ⟨next, hs, hn⟩ := exists_of_bind_eq_ok h
    have hne : start ≠ other := by
      rintro rfl
      exact hp (directory_of_step hs)
    rw [step_congr (find?_put_of_ne hne _), hs]
    exact ih hn

end FileTree

/-! ### Workspaces -/

private theorem fromUTF8?_eq_some_iff {contents : ByteArray} {text : String} :
    String.fromUTF8? contents = some text ↔ contents = text.toUTF8 := by
  constructor
  · intro h
    unfold String.fromUTF8? at h
    split at h
    · obtain rfl := Option.some.inj h
      rfl
    · cases h
  · rintro rfl
    exact dif_pos text.isValidUTF8

namespace Workspace

variable {w later : Workspace} {path : Path} {contents : ByteArray}

/-- What can be read are the files to which paths lead. -/
theorem read_eq_ok_iff : w.read path = .ok contents ↔
    ∃ place, w.follow path path.segments = .ok place ∧
      w.tree.find? place = some (.file contents) := by
  constructor
  · intro h
    obtain ⟨place, hf, hr⟩ := exists_of_bind_eq_ok h
    refine ⟨place, hf, ?_⟩
    split at hr
    · cases hr
    · cases hr
    · next found hfile => rw [hfile, Except.ok.inj hr]
  · rintro ⟨place, hf, hfile⟩
    simp only [read, hf, bind, Except.bind, hfile]

/-- A text is read where a file holds its bytes, and nowhere else. -/
theorem readText_eq_ok_iff {text : String} :
    w.readText path = .ok text ↔ w.read path = .ok text.toUTF8 := by
  constructor
  · intro h
    obtain ⟨contents, hr, ht⟩ := exists_of_bind_eq_ok h
    split at ht
    · next found hu =>
      obtain rfl := Except.ok.inj ht
      rw [hr, fromUTF8?_eq_some_iff.mp hu]
    · cases ht
  · intro h
    simp only [readText, h, bind, Except.bind, fromUTF8?_eq_some_iff.mpr rfl]

/-- The file that a path names has got its contents, and nothing else has changed. -/
structure Wrote (w : Workspace) (path : Path) (contents : ByteArray) (later : Workspace) :
    Prop where
  current_eq : later.current = w.current
  read_eq : later.read path = .ok contents
  /-- The path leads to the same place before and after, and all other places are as they were. -/
  find?_eq : ∃ place, w.follow path path.segments = .ok place ∧
    later.follow path path.segments = .ok place ∧
    ∀ other, other ≠ place → later.tree.find? other = w.tree.find? other

/-- Writing puts a file where its path leads, unless a directory stands there. -/
theorem exists_place_of_write (h : w.write path contents = .ok later) :
    ∃ place, w.follow path path.segments = .ok place ∧ w.tree.find? place ≠ some .directory ∧
      later = { w with tree := w.tree.put place (.file contents) } := by
  unfold write at h
  split at h
  · obtain ⟨place, hf, hw⟩ := exists_of_bind_eq_ok h
    split at hw
    · cases hw
    · next hd => exact ⟨place, hf, hd, (Except.ok.inj hw).symm⟩
  · obtain ⟨place, -, hw⟩ := exists_of_bind_eq_ok h
    cases hw

/-- A path leads to the same place once a file is written where no directory stands. -/
theorem follow_put {segments place other : List String} (h : w.follow path segments = .ok place)
    (hd : w.tree.find? other ≠ some .directory) (contents : ByteArray) :
    follow { w with tree := w.tree.put other (.file contents) } path segments = .ok place := by
  unfold follow at h ⊢
  split at h
  · cases h
  · next hl =>
    rw [if_neg hl]
    exact FileTree.walk_put h hd

private theorem wrote_of_write (h : w.write path contents = .ok later) :
    w.Wrote path contents later := by
  obtain ⟨place, hf, hd, rfl⟩ := exists_place_of_write h
  have hne : place ≠ [] := by
    rintro rfl
    exact hd rfl
  have hfollow := follow_put hf hd contents
  refine ⟨rfl, ?_, place, hf, hfollow, fun other ho ↦ FileTree.find?_put_of_ne ho _⟩
  exact read_eq_ok_iff.mpr ⟨place, hfollow, FileTree.find?_put_self hne _⟩

end Workspace

/-! ### Commands -/

namespace Command

/-- A command that looks at its input and writes nothing. -/
def onlyReads : Command → Bool
  | build _ _ => false
  | check _ | tree _ => true

/-- The path that a build writes to. -/
def outputPath (input : String) (output : Option String) : Path :=
  .ofText (output.getD (Path.ofText input).defaultOutput.toText)

/-- What may be seen of a command that ends with a status and an output, and what it leaves. -/
structure Outcome (command : Command) (w : Workspace) (status : Nat) (stdout : String)
    (later : Workspace) : Prop where
  unchanged_of_failed : status ≠ 0 → later = w
  unchanged_of_onlyReads : command.onlyReads = true → later = w
  /-- A build that succeeds has written the HTML of its input, and nothing else. -/
  wrote_of_build : ∀ input output, command = .build input output → status = 0 →
    ∃ source compiled, w.readText (.ofText input) = .ok source ∧ compile source = .ok compiled ∧
      w.Wrote (outputPath input output) compiled.html.toUTF8 later
  /-- A build succeeds if its input compiles and the output can be written. -/
  build_iff : ∀ input output source, command = .build input output →
    w.readText (.ofText input) = .ok source →
    (status = 0 ↔ ∃ compiled, compile source = .ok compiled ∧
      w.write (outputPath input output) compiled.html.toUTF8 = .ok later)
  onlyReads_iff : ∀ source, command.onlyReads = true →
    w.readText (.ofText command.input) = .ok source →
    (status = 0 ↔ ∃ document, Document.parse source = .ok document)
  /-- A text that is no document is answered alike by all commands, with one line. -/
  rejected : ∀ source error, w.readText (.ofText command.input) = .ok source →
    Document.parse source = .error error →
    status = 1 ∧ stdout = error.message ++ "\n" ∧ '\n' ∉ error.message.toList ∧ later = w

variable {command : Command} {w later : Workspace} {source input : String}
  {output : Option String} {document : Document}

private theorem outcome_of_unreadable {fault : Fault}
    (h : w.readText (.ofText command.input) = .error fault) (stdout : String) :
    command.Outcome w 1 stdout w where
  unchanged_of_failed _ := rfl
  unchanged_of_onlyReads _ := rfl
  wrote_of_build := nofun
  build_iff _ _ _ hc hs := by
    subst hc
    cases h.symm.trans hs
  onlyReads_iff _ _ hs := by cases h.symm.trans hs
  rejected _ _ hs := by cases h.symm.trans hs

private theorem outcome_of_rejected {error : SyntaxError}
    (h : w.readText (.ofText command.input) = .ok source)
    (he : Document.parse source = .error error) :
    command.Outcome w 1 (error.message ++ "\n") w where
  unchanged_of_failed _ := rfl
  unchanged_of_onlyReads _ := rfl
  wrote_of_build := nofun
  build_iff _ _ found hc hs := by
    subst hc
    obtain rfl : source = found := Except.ok.inj (h.symm.trans hs)
    simp [compile_eq_error_iff.mpr he]
  onlyReads_iff found _ hs := by
    obtain rfl : source = found := Except.ok.inj (h.symm.trans hs)
    simp [he]
  rejected found other hs ho := by
    obtain rfl : source = found := Except.ok.inj (h.symm.trans hs)
    obtain rfl : error = other := Except.error.inj (he.symm.trans ho)
    have hline := SyntaxError.newline_notMem_message (Document.newline_notMem_expected he)
    exact ⟨rfl, rfl, hline, rfl⟩

private theorem outcome_of_accepted (hr : command.onlyReads = true)
    (h : w.readText (.ofText command.input) = .ok source)
    (hd : Document.parse source = .ok document) (stdout : String) :
    command.Outcome w 0 stdout w where
  unchanged_of_failed _ := rfl
  unchanged_of_onlyReads _ := rfl
  wrote_of_build _ _ hc := by
    subst hc
    cases hr
  build_iff _ _ _ hc := by
    subst hc
    cases hr
  onlyReads_iff found _ hs := by
    obtain rfl : source = found := Except.ok.inj (h.symm.trans hs)
    exact ⟨fun _ ↦ ⟨document, hd⟩, fun _ ↦ rfl⟩
  rejected found _ hs he := by
    obtain rfl : source = found := Except.ok.inj (h.symm.trans hs)
    cases hd.symm.trans he

/-- A build whose input compiles ends as writing its HTML does. -/
private theorem outcome_of_build {compiled : Compiled} (h : w.readText (.ofText input) = .ok source)
    (hc : compile source = .ok compiled) (stdout : String) {status : Nat}
    (hw : (status = 0 ∧ w.write (outputPath input output) compiled.html.toUTF8 = .ok later) ∨
      (status ≠ 0 ∧ later = w ∧
        ∃ fault, w.write (outputPath input output) compiled.html.toUTF8 = .error fault)) :
    (build input output).Outcome w status stdout later where
  unchanged_of_failed hs := by
    rcases hw with ⟨hz, -⟩ | ⟨-, hl, -⟩
    · exact absurd hz hs
    · exact hl
  unchanged_of_onlyReads := nofun
  wrote_of_build := by
    rintro _ _ ⟨⟩ hs
    rcases hw with ⟨-, hw⟩ | ⟨hn, -⟩
    · exact ⟨source, compiled, h, hc, Workspace.wrote_of_write hw⟩
    · exact absurd hs hn
  build_iff := by
    rintro _ _ found ⟨⟩ hs
    obtain rfl : source = found := Except.ok.inj (h.symm.trans hs)
    rcases hw with ⟨hz, hw⟩ | ⟨hn, -, fault, hw⟩
    · exact ⟨fun _ ↦ ⟨compiled, hc, hw⟩, fun _ ↦ hz⟩
    · refine ⟨fun hz ↦ absurd hz hn, ?_⟩
      rintro ⟨other, ho, hwritten⟩
      obtain rfl : compiled = other := Except.ok.inj (hc.symm.trans ho)
      cases hw.symm.trans hwritten
  onlyReads_iff := nofun
  rejected found _ hs he := by
    obtain rfl : source = found := Except.ok.inj (h.symm.trans hs)
    cases (compile_eq_ok_iff.mp hc).1.symm.trans he

end Command

namespace Workspace

variable {w : Workspace} {command : Command}

/-- What is said first changes neither the status, nor the output, nor the files. -/
private theorem carryOut_announce (w : Workspace) (path : String) (plan : Plan) :
    w.carryOut (Command.announce path plan) =
      ((w.carryOut plan).1.after (.debug ("Reading " ++ path)), (w.carryOut plan).2) := by
  cases plan with
  | finish report => rfl
  | write output contents report =>
    simp only [Command.announce, carryOut]
    split <;> rfl

private theorem outcome_of_unreadable {fault : Fault}
    (h : w.readText (.ofText command.input) = .error fault) :
    command.Outcome w (w.run command).1.status (w.run command).1.stdout (w.run command).2 := by
  rw [run, h]
  exact Command.outcome_of_unreadable h ""

/-- A command with a readable input carries out its plan for the text. -/
private theorem run_of_readText {source : String}
    (h : w.readText (.ofText command.input) = .ok source) :
    w.run command = ((w.carryOut (command.planFor source)).1.after
      (.debug ("Reading " ++ command.input)), (w.carryOut (command.planFor source)).2) := by
  rw [run, h]
  exact carryOut_announce w command.input (command.planFor source)

private theorem outcome_of_error {source : String} {error : SyntaxError}
    (h : w.readText (.ofText command.input) = .ok source)
    (he : Document.parse source = .error error) :
    command.Outcome w (w.run command).1.status (w.run command).1.stdout (w.run command).2 := by
  have hplan : command.planFor source = .finish (Command.rejected command.input error) := by
    cases command with
    | build input output => simp only [Command.planFor, compile_eq_error_iff.mpr he, Command.input]
    | check input => simp only [Command.planFor, he, Command.input]
    | tree input => simp only [Command.planFor, he, Command.input]
  rw [run_of_readText h, hplan]
  exact Command.outcome_of_rejected h he

private theorem outcome_of_ok {source : String} {document : Document}
    (h : w.readText (.ofText command.input) = .ok source)
    (hd : Document.parse source = .ok document) :
    command.Outcome w (w.run command).1.status (w.run command).1.stdout (w.run command).2 := by
  rw [run_of_readText h]
  cases command with
  | build input output =>
    have hc : compile source = .ok ⟨document, document.toHtml⟩ := compile_eq_ok_iff.mpr ⟨hd, rfl⟩
    simp only [Command.planFor, hc, carryOut]
    split
    · next later hw => exact Command.outcome_of_build h hc "" (.inl ⟨rfl, hw⟩)
    · next fault hw =>
      exact Command.outcome_of_build h hc "" (.inr ⟨Nat.one_ne_zero, rfl, fault, hw⟩)
  | check input =>
    simp only [Command.planFor, hd]
    exact Command.outcome_of_accepted rfl h hd ""
  | tree input =>
    simp only [Command.planFor, hd]
    exact Command.outcome_of_accepted rfl h hd _

/-- Every command has its outcome, in every workspace. -/
theorem outcome_run (w : Workspace) (command : Command) :
    command.Outcome w (w.run command).1.status (w.run command).1.stdout (w.run command).2 := by
  cases h : w.readText (.ofText command.input) with
  | error fault => exact outcome_of_unreadable h
  | ok source =>
    cases hp : Document.parse source with
    | error error => exact outcome_of_error h hp
    | ok document => exact outcome_of_ok h hp

/-- Whatever the program is asked and whatever files there are: a run that fails leaves them as
they were, the level of the log shows in nothing but the notices, and a command has its outcome. -/
theorem outcome_of_execute (w : Workspace) (level : LogLevel) (arguments : List String) :
    ((w.execute level arguments).status ≠ 0 → (w.execute level arguments).workspace = w) ∧
      (∀ other, (w.execute other arguments).status = (w.execute level arguments).status ∧
        (w.execute other arguments).stdout = (w.execute level arguments).stdout ∧
        (w.execute other arguments).workspace = (w.execute level arguments).workspace) ∧
      ∀ command, Invocation.ofArguments? arguments = some (.command command) →
        command.Outcome w (w.execute level arguments).status (w.execute level arguments).stdout
          (w.execute level arguments).workspace := by
  unfold execute
  cases h : Invocation.ofArguments? arguments with
  | none => exact ⟨fun _ ↦ rfl, fun _ ↦ ⟨rfl, rfl, rfl⟩, nofun⟩
  | some invocation =>
    cases invocation with
    | version => exact ⟨fun _ ↦ rfl, fun _ ↦ ⟨rfl, rfl, rfl⟩, nofun⟩
    | command command =>
      have houtcome := outcome_run w command
      refine ⟨houtcome.unchanged_of_failed, fun _ ↦ ⟨rfl, rfl, rfl⟩, ?_⟩
      rintro _ ⟨⟩
      exact houtcome

/-- A file that can be read and holds a document: to check it and to print its tree succeed and
leave all as it was, and a build writes the HTML beside it. -/
theorem outcome_of_execute_readable :
    let w : Workspace := ⟨⟨[(["page.elk"], .file "p: \"x\"".toUTF8)]⟩, []⟩
    let check := w.execute .warn ["check", "page.elk"]
    let tree := w.execute .warn ["tree", "page.elk"]
    let build := w.execute .warn ["build", "page.elk"]
    w.read (.ofText "page.elk") = .ok "p: \"x\"".toUTF8 ∧
      (check.status = 0 ∧ check.workspace = w) ∧ (tree.status = 0 ∧ tree.workspace = w) ∧
      build.status = 0 ∧
      w.Wrote (.ofText "page.html") "<p>x</p>".toUTF8 build.workspace := by
  intro w check tree build
  have hread : w.read (.ofText "page.elk") = .ok "p: \"x\"".toUTF8 := rfl
  have htext := readText_eq_ok_iff.mpr hread
  have hparse : Document.parse "p: \"x\"" =
      .ok ⟨[.tag ⟨"p", none, none, none⟩ (.single (.text "x"))]⟩ := rfl
  have hcompile : compile "p: \"x\"" = .ok ⟨_, "<p>x</p>"⟩ :=
    compile_eq_ok_iff.mpr ⟨hparse, by decide +kernel⟩
  have hcheck : Invocation.ofArguments? ["check", "page.elk"] =
      some (.command (.check "page.elk")) := by decide +kernel
  have htree : Invocation.ofArguments? ["tree", "page.elk"] =
      some (.command (.tree "page.elk")) := by decide +kernel
  have hbuild : Invocation.ofArguments? ["build", "page.elk"] =
      some (.command (.build "page.elk" none)) := by decide +kernel
  have checked := (outcome_of_execute w .warn _).2.2 _ hcheck
  have printed := (outcome_of_execute w .warn _).2.2 _ htree
  have built := (outcome_of_execute w .warn _).2.2 _ hbuild
  have hstatus : build.status = 0 := by decide +kernel
  have houtput : Command.outputPath "page.elk" none = .ofText "page.html" := by decide +kernel
  obtain ⟨source, compiled, hs, hc, hwrote⟩ := built.wrote_of_build _ _ rfl hstatus
  obtain rfl := Except.ok.inj (htext.symm.trans hs)
  obtain rfl := Except.ok.inj (hcompile.symm.trans hc)
  refine ⟨hread, ⟨?_, checked.unchanged_of_onlyReads rfl⟩,
    ⟨?_, printed.unchanged_of_onlyReads rfl⟩, hstatus, houtput ▸ hwrote⟩
  · exact (checked.onlyReads_iff _ rfl htext).mpr ⟨_, hparse⟩
  · exact (printed.onlyReads_iff _ rfl htext).mpr ⟨_, hparse⟩

end Workspace
end TerseMarkup
