import SolidityBuild.Proofs.EarlyFailure

/-!
# What a run changes

The files of a batch are put together in order, the snapshots first and then what the units render, and of several
contents for one path the last stays (`contentsAt_outputs`). So a run that ends well leaves at a path what the last
compiled unit renders for it, or the snapshot, unless another of the paths leads to the same file; and where none of
the paths leads, nothing changes (`changesOnly_of_wrote`). A directory for documents that is the one of the snapshots,
or a link to it, lets a document and a request compete for one file: the last section has runs where they do.
-/

namespace SolidityBuild

namespace Json

/-! ## The start of a text -/

theorem toList_intercalate_cons (separator first : String) (rest : List String) :
    ∃ tail, (separator.intercalate (first :: rest)).toList = first.toList ++ tail := by
  cases rest with
  | nil => exact ⟨[], by simp⟩
  | cons next more =>
    rw [String.intercalate_cons_cons, String.toList_append, String.toList_append, List.append_assoc]
    exact ⟨_, rfl⟩

/-- The text of an object starts with its first key. -/
theorem toList_pretty_object (key : String) (value : Json) (rest : List (String × Json)) :
    ∃ tail, (object ((key, value) :: rest)).pretty.toList =
      "\x7b\n  ".toList ++ ((quoted key).toList ++ tail) := by
  have text : (object ((key, value) :: rest)).pretty =
      bracketed "\x7b" "\x7d" 0 (indentedMembers 1 ((key, value) :: rest)) := by
    rw [pretty, indented]
  have lines : indentedMembers 1 ((key, value) :: rest) =
      (quoted key ++ ": " ++ value.indented 1) :: indentedMembers 1 rest := by rw [indentedMembers]
  have spaces : "\x7b\n  ".toList = "\x7b".toList ++ ("\n".toList ++ (indentation (0 + 1)).toList) := by decide
  rw [text, lines, bracketed, List.isEmpty_cons, if_neg Bool.false_ne_true, spaces]
  obtain ⟨tail, first⟩ := toList_intercalate_cons (",\n" ++ indentation (0 + 1))
    (quoted key ++ ": " ++ value.indented 1) (indentedMembers 1 rest)
  simp only [String.toList_append] at first ⊢
  rw [first]
  simp only [List.append_assoc]
  exact ⟨_, rfl⟩

end Json

namespace Artifact

/-! ## The last contents of a path -/

/-- The contents that the last file with a path has. -/
def contentsAt (files : List OutputFile) (p : Path) : Option String :=
  (files.reverse.find? (·.path.same p)).map (·.contents)

section

variable {files more : List OutputFile} {file other : OutputFile} {p : Path}

theorem contentsAt_append (files more : List OutputFile) (p : Path) :
    contentsAt (files ++ more) p = (contentsAt more p).or (contentsAt files p) := by
  unfold contentsAt
  rw [List.reverse_append, List.find?_append, Option.map_or]

theorem contentsAt_singleton (file : OutputFile) (p : Path) :
    contentsAt [file] p = if file.path.same p then some file.contents else none := by
  unfold contentsAt
  rw [List.reverse_singleton, List.find?_singleton]
  split <;> rfl

theorem contentsAt_flatMap {α : Type} (items : List α) (f : α → List OutputFile) (p : Path) :
    contentsAt (items.flatMap f) p = items.reverse.findSome? fun item => contentsAt (f item) p := by
  induction items with
  | nil => rfl
  | cons item rest ih =>
    rw [List.flatMap_cons, contentsAt_append, ih, List.reverse_cons, List.findSome?_append, List.findSome?_singleton]

theorem contentsAt_eq_none_iff : contentsAt files p = none ↔ ∀ q ∈ files.map (·.path), q.same p = false := by
  simp [contentsAt]

theorem exists_contentsAt (mem : p ∈ files.map (·.path)) : ∃ contents, contentsAt files p = some contents := by
  refine Option.ne_none_iff_exists'.mp fun absent => ?_
  have differs := contentsAt_eq_none_iff.mp absent p mem
  rw [p.same_refl] at differs
  cases differs

theorem exists_mem_of_contentsAt {contents : String} (last : contentsAt files p = some contents) :
    ∃ file ∈ files, file.path.same p = true ∧ file.contents = contents := by
  obtain ⟨file, first, same⟩ := Option.map_eq_some_iff.mp last
  exact ⟨file, List.mem_reverse.mp (List.mem_of_find?_eq_some first), by simpa using List.find?_some first, same⟩

/-- A file that is put to others overrules those with its path. -/
theorem contentsAt_put (files : List OutputFile) (file : OutputFile) (p : Path) :
    contentsAt (put files file) p = contentsAt (files ++ [file]) p := by
  unfold put
  split
  swap
  · rfl
  next present =>
  obtain ⟨earlier, mem, same⟩ := List.any_eq_true.mp present
  let change (present : OutputFile) : OutputFile :=
    if present.path.same file.path then { present with contents := file.contents } else present
  have kept : (fun present : OutputFile => present.path.same p) ∘ change = fun present => present.path.same p := by
    funext present
    show (change present).path.same p = present.path.same p
    dsimp only [change]
    split <;> rfl
  have mapped : contentsAt (files.map change) p =
      (files.reverse.find? (·.path.same p)).map fun present => (change present).contents := by
    rw [contentsAt, ← List.map_reverse, List.find?_map, kept, Option.map_map]
    rfl
  rw [contentsAt_append, contentsAt_singleton]
  refine mapped.trans ?_
  by_cases here : file.path.same p = true
  · have present : (files.reverse.find? (·.path.same p)).isSome = true :=
      List.find?_isSome.mpr ⟨earlier, List.mem_reverse.mpr mem, Path.same_trans same here⟩
    obtain ⟨found, first⟩ := Option.isSome_iff_exists.mp present
    have isPath : found.path.same p = true := by simpa using List.find?_some first
    have changed : change found = { found with contents := file.contents } :=
      if_pos (Path.same_trans isPath (Path.same_symm here))
    rw [first, Option.map_some, changed, if_pos here, Option.some_or]
  · rw [if_neg here, Option.none_or, contentsAt]
    cases first : files.reverse.find? (·.path.same p) with
    | none => rfl
    | some found =>
      have isPath : found.path.same p = true := by simpa using List.find?_some first
      have same : change found = found :=
        if_neg fun there => here (Path.same_trans (Path.same_symm there) isPath)
      rw [Option.map_some, Option.map_some, same]

theorem contentsAt_foldl_put (start files : List OutputFile) (p : Path) :
    contentsAt (files.foldl put start) p = contentsAt (start ++ files) p := by
  induction files generalizing start with
  | nil => rw [List.foldl_nil, List.append_nil]
  | cons file rest ih =>
    rw [List.foldl_cons, ih, contentsAt_append, contentsAt_put, ← contentsAt_append, List.append_assoc,
      List.singleton_append]

/-- Each path is there once, as it was spelled first. -/
theorem paths_foldl_put (start files : List OutputFile) :
    (files.foldl put start).map (·.path) = Workspace.addNew (start.map (·.path)) (files.map (·.path)) := by
  induction files generalizing start with
  | nil => rfl
  | cons file rest ih =>
    have step : (put start file).map (·.path) =
        if (start.map (·.path)).any (·.same file.path) then start.map (·.path)
        else start.map (·.path) ++ [file.path] := by
      unfold put
      rw [List.any_map]
      show _ = if start.any (·.path.same file.path) = true then _ else _
      split
      · rw [List.map_map]
        refine List.map_congr_left fun present _ => ?_
        show (ite _ _ _ : OutputFile).path = present.path
        split <;> rfl
      · rw [List.map_append]
        rfl
    rw [List.foldl_cons, ih, step]
    rfl

/-- Among files whose paths differ, every one has the contents at its path. -/
theorem contentsAt_of_mem (apart : (files.map (·.path)).Pairwise fun p q => p.same q = false) (mem : file ∈ files) :
    contentsAt files file.path = some file.contents := by
  obtain ⟨before, later, rfl⟩ := List.append_of_mem mem
  rw [List.map_append, List.map_cons] at apart
  obtain ⟨differ, _⟩ := List.pairwise_cons.mp (List.pairwise_append.mp apart).2.1
  have absent : contentsAt later file.path = none := by
    refine contentsAt_eq_none_iff.mpr fun q listed => eq_false_of_ne_true fun same => ?_
    have differs := differ q listed
    rw [Path.same_symm same] at differs
    cases differs
  rw [contentsAt_append, ← List.singleton_append, contentsAt_append, absent, contentsAt_singleton,
    if_pos file.path.same_refl]
  rfl

end

/-! ## The files of a batch -/

section

variable {config : Configuration} {c : Compilation} {units : List CompilationUnit} {written : List OutputFile}

/-- What a unit renders. -/
def renderedFor (config : Configuration) (c : Compilation) (unit : CompilationUnit) : List OutputFile :=
  (unitOutputs config c unit).toOption.getD []

/-- The paths of the snapshots and of what the units render, each once. -/
def outputPaths (config : Configuration) (c : Compilation) (units : List CompilationUnit) : List Path :=
  ((snapshot config c ++ units.flatMap (renderedFor config c)).map (·.path)).eraseDupsBy Path.same

/-- The contents that the last unit that renders a path renders for it, or those of the snapshot if none does. -/
def due (config : Configuration) (c : Compilation) (units : List CompilationUnit) (p : Path) : Option String :=
  (units.reverse.findSome? fun unit => contentsAt (renderedFor config c unit) p).or (contentsAt (snapshot config c) p)

theorem outputs_eq (made : outputs config c units = .ok written) :
    written = (snapshot config c ++ units.flatMap (renderedFor config c)).foldl put [] := by
  obtain ⟨rendered, all, same⟩ := bind_eq_ok_iff.mp made
  cases same
  have flat : units.flatMap (renderedFor config c) = rendered.flatten := by
    rw [mapM_eq_ok_iff] at all
    clear made
    induction all with
    | nil => rfl
    | @cons unit files units rendered here _ ih =>
      have first : renderedFor config c unit = files := by rw [renderedFor, here]; rfl
      rw [List.flatMap_cons, List.flatten_cons, ih, first]
  rw [flat]

theorem paths_outputs (made : outputs config c units = .ok written) :
    written.map (·.path) = outputPaths config c units := by
  rw [outputs_eq made, paths_foldl_put]
  exact Workspace.addNew_nil _

/-- A file that is written has the contents that are due at its path. -/
theorem due_of_mem (made : outputs config c units = .ok written) {file : OutputFile} (mem : file ∈ written) :
    due config c units file.path = some file.contents := by
  have apart : (written.map (·.path)).Pairwise fun p q => p.same q = false := by
    rw [outputs_eq made, paths_foldl_put]
    exact Workspace.pairwise_addNew _
  have last := contentsAt_of_mem apart mem
  rw [outputs_eq made, contentsAt_foldl_put, List.nil_append, contentsAt_append, contentsAt_flatMap] at last
  exact last

end

end Artifact

namespace Build

open Artifact (Wrote OutputFile outputPaths due)
open FileTree (OnlyCreates)

/-! ## What a run changes -/

/-- What the outputs of a run are made of. -/
def compilation (config : Configuration) (toolchain : Toolchain) (plan : Plan) : Result Artifact.Compilation := do
  let (request, names) ← plan.batch.request plan.workspace.store config.settings
  let result ← toolchain.compile config.timeout request
  if result.hasErrors then .error (.diagnostics (shownDiagnostics config result))
  else return ⟨plan.workspace.store, names, request, result, toolchain.name, toolchain.release⟩

/-- A run leaves the outputs of the compiled units and the snapshots, and changes nothing else. -/
structure ChangesOnly (config : Configuration) (c : Artifact.Compilation) (compiled : List CompilationUnit)
    (tree after : FileTree) : Prop where
  /-- What differs is a new output directory, or a file to which one of the paths leads. -/
  changed : ∀ location, after.node? location ≠ tree.node? location →
    (tree.node? location = none ∧ after.node? location = some .directory ∧
        ∃ p ∈ outputPlaces config, after.locate p = .ok location) ∨
      ∃ p ∈ outputPaths config c compiled, after.locate p = .ok location
  /-- What no other one of the paths leads to has the contents that are due. -/
  holds : ∀ p ∈ outputPaths config c compiled,
    (∀ q ∈ outputPaths config c compiled, after.locate q = after.locate p → q = p) →
      ∃ contents, due config c compiled p = some contents ∧ after.readText p = .ok contents
  /-- What none of the paths leads to stays. -/
  untouched : ∀ p location node, tree.locate p = .ok location → tree.node? location = some node →
    (∀ q ∈ outputPaths config c compiled, after.locate q ≠ .ok location) →
      after.locate p = .ok location ∧ after.node? location = some node

section

variable {tree ready after : FileTree} {config : Configuration} {toolchain : Toolchain} {files : List Path}
  {plan : Plan} {written : List OutputFile} {c : Artifact.Compilation} {units : List CompilationUnit}

/-- A run with stale units writes the outputs of what it compiled. -/
theorem exists_compilation (worked : toWrite config toolchain plan = .ok written) (stale : plan.select true ≠ []) :
    ∃ c, compilation config toolchain plan = .ok c ∧ Artifact.outputs config c (plan.select true) = .ok written := by
  unfold toWrite at worked
  rw [plan.batch_units, if_neg (by simpa using stale)] at worked
  obtain ⟨⟨request, names⟩, requested, answered⟩ := bind_eq_ok_iff.mp worked
  obtain ⟨result, compiled, outputs⟩ := bind_eq_ok_iff.mp answered
  unfold rendered at outputs
  split at outputs
  · cases outputs
  next sound =>
  rw [plan.batch_units] at outputs
  refine ⟨_, bind_eq_ok_iff.mpr ⟨_, requested, bind_eq_ok_iff.mpr ⟨result, compiled, ?_⟩⟩, outputs⟩
  rw [if_neg sound]
  rfl

/-- A path leads to what was written where it leads. -/
theorem locate_of_location? {p : Path} {location : Location} (leads : tree.location? p = some location)
    (there : tree.node? location ≠ none) : tree.locate p = .ok location := by
  unfold FileTree.location? FileTree.ending at leads
  obtain ⟨place, found, same⟩ := Option.map_eq_some_iff.mp leads
  rw [toOption_eq_some_iff] at found
  cases place with
  | free directory name =>
    cases same
    exact absurd (FileTree.node?_of_place_free found) there
  | taken taken =>
    cases same
    exact FileTree.locate_eq_ok_iff.mpr found

/-- What was written is found by its path where that leads. -/
theorem locate_of_written (wrote : Wrote ready written after) {location : Location} {file : OutputFile}
    (mem : file ∈ written) (leads : ready.location? file.path = some location) :
    after.locate file.path = .ok location := by
  obtain ⟨last, found⟩ : ∃ last, Artifact.lastAt ready written location = some last :=
    Option.ne_none_iff_exists'.mp fun absent => Artifact.lastAt_eq_none_iff.mp absent file mem leads
  refine locate_of_location? ?_ ?_
  · rw [wrote.samePassages.location?_eq, leads]
  · rw [wrote.node?_eq, found]
    exact Option.some_ne_none _

/-- Writing the outputs of a batch in a tree with output directories. -/
theorem changesOnly_of_wrote (creates : OnlyCreates (outputPlaces config) tree ready)
    (made : Artifact.outputs config c units = .ok written) (wrote : Wrote ready written after) :
    ChangesOnly config c units tree after := by
  have listed {file : OutputFile} (mem : file ∈ written) : file.path ∈ outputPaths config c units := by
    rw [← Artifact.paths_outputs made]
    exact List.mem_map_of_mem mem
  refine ⟨fun location differs => ?_, fun p mem alone => ?_, fun p location node leads entry elsewhere => ?_⟩
  · cases last : Artifact.lastAt ready written location with
    | some file =>
      obtain ⟨inside, leads⟩ := Artifact.mem_of_lastAt last
      exact .inr ⟨file.path, listed inside, locate_of_written wrote inside leads⟩
    | none =>
      have kept : after.node? location = ready.node? location := by rw [wrote.node?_eq, last]
      rw [kept] at differs ⊢
      obtain ⟨new, directory, p, place, leads⟩ := (creates.node location).resolve_left differs
      exact .inl ⟨new, directory, p, place, wrote.covers.locate leads⟩
  · rw [← Artifact.paths_outputs made] at mem
    obtain ⟨file, inside, rfl⟩ := List.mem_map.mp mem
    have isDue := Artifact.due_of_mem made inside
    refine ⟨file.contents, isDue, wrote.readText_of_mem inside fun other inside' location leads leads' => ?_⟩
    have equal := alone other.path (listed inside')
      ((locate_of_written wrote inside' leads').trans (locate_of_written wrote inside leads).symm)
    have isDue' := Artifact.due_of_mem made inside'
    rw [equal, isDue] at isDue'
    exact (Option.some.inj isDue').symm
  · refine ⟨wrote.covers.locate (creates.keeps.locate leads), ?_⟩
    cases last : Artifact.lastAt ready written location with
    | some file =>
      obtain ⟨inside, leads'⟩ := Artifact.mem_of_lastAt last
      exact absurd (locate_of_written wrote inside leads') (elsewhere file.path (listed inside))
    | none =>
      rw [wrote.node?_eq, last]
      exact creates.keeps.entry entry

/-- A run that ends well creates nothing but output directories if no unit is stale. Otherwise it changes, apart from
these, only files to which the paths of the snapshots and of the outputs of the compiled units lead; each of these paths
to whose file no other of them leads has the contents that the last compiled unit renders for it, or those of the
snapshot if no unit does; and whatever none of these paths leads to stays, the outputs of skipped units included. -/
theorem changes_only_compiled {report : BuildReport}
    (ran : (compileFiles tree config toolchain files).result = .ok report) :
    ∃ ready plan, prepare tree config toolchain.release files = .ok (ready, plan) ∧
      report.compiled = (plan.select true).map (·.primary) ∧ report.skipped = (plan.select false).map (·.primary) ∧
      if plan.select true = [] then
        OnlyCreates (outputPlaces config) tree (compileFiles tree config toolchain files).tree
      else ∃ c, compilation config toolchain plan = .ok c ∧
        ChangesOnly config c (plan.select true) tree (compileFiles tree config toolchain files).tree := by
  obtain ⟨ready, plan, written, prepared, worked, wrote, compiled, skipped, _⟩ := compileFiles_eq_ok ran
  have creates := Artifact.onlyCreates_ensureDirectories config.createDirectories (Artifact.directories config) tree
  rw [(prepare_eq_ok_iff.mp prepared).1] at creates
  refine ⟨ready, plan, prepared, compiled, skipped, ?_⟩
  split
  · next idle =>
    unfold toWrite at worked
    rw [plan.batch_units, idle] at worked
    cases worked
    cases wrote
    exact creates
  · next stale =>
    obtain ⟨c, made, outputs⟩ := exists_compilation worked stale
    exact ⟨c, made, changesOnly_of_wrote creates outputs wrote⟩

/-! ## Outputs in each other's place -/

/-- A path that no unit renders is due to have the contents of the snapshot. -/
theorem due_of_unrendered {p : Path}
    (unrendered : ∀ unit ∈ units, Artifact.contentsAt (Artifact.renderedFor config c unit) p = none) :
    due config c units p = Artifact.contentsAt (Artifact.snapshot config c) p := by
  have unrenderedAll : (units.reverse.findSome? fun unit => Artifact.contentsAt (Artifact.renderedFor config c unit) p) = none :=
    List.findSome?_eq_none_iff.mpr fun unit mem => unrendered unit (List.mem_reverse.mp mem)
  rw [due, unrenderedAll, Option.none_or]

/-- Where no unit renders the request, it is due. -/
theorem due_request {p : Path}
    (unrendered : ∀ q ∈ (units.flatMap (Artifact.renderedFor config c)).map (·.path), q.same p = false)
    (here : (config.outputSolDirectory.child "solcStandardInput.json").same p = true)
    (elsewhere : (config.outputSolDirectory.child "solcStandardOutput.json").same p = false) :
    due config c units p = some c.request.toJson.pretty := by
  have nowhere : ∀ unit ∈ units, Artifact.contentsAt (Artifact.renderedFor config c unit) p = none := by
    refine fun unit mem => Artifact.contentsAt_eq_none_iff.mpr fun q listed => unrendered q ?_
    rw [List.map_flatMap]
    exact List.mem_flatMap.mpr ⟨unit, mem, listed⟩
  rw [due_of_unrendered nowhere, Artifact.snapshot, ← List.singleton_append, Artifact.contentsAt_append,
    Artifact.contentsAt_singleton, Artifact.contentsAt_singleton, if_pos here,
    if_neg (by rw [elsewhere]; exact Bool.false_ne_true), Option.none_or]

/-- What a unit renders is its module, its flattened source, or a document. -/
theorem document_of_mem {unit : CompilationUnit} {file : OutputFile} (mem : file ∈ Artifact.renderedFor config c unit)
    (notModule : file.path ≠ Artifact.modulePath config unit.primary)
    (notFlattened : file.path ≠ Artifact.flattenedPath config unit.primary) :
    ∃ hash contract, file.contents = (c.document unit.primary hash contract).pretty := by
  unfold Artifact.renderedFor at mem
  cases made : Artifact.unitOutputs config c unit with
  | error e =>
    rw [made] at mem
    cases mem
  | ok outputs =>
    have inside : file ∈ outputs := by rwa [made] at mem
    clear mem
    obtain ⟨_, _, made⟩ := bind_eq_ok_iff.mp made
    obtain ⟨_, _, made⟩ := bind_eq_ok_iff.mp made
    obtain ⟨documents, listed, made⟩ := bind_eq_ok_iff.mp made
    cases made
    simp only [List.mem_cons, List.mem_map] at inside
    rcases inside with rfl | rfl | ⟨⟨name, document⟩, inside, rfl⟩
    · dsimp only at notModule
      exact (notModule rfl).elim
    · dsimp only at notFlattened
      exact (notFlattened rfl).elim
    · unfold Artifact.Compilation.documents at listed
      split at listed
      · cases listed
        cases inside
      · obtain ⟨stored, _, same⟩ := bind_eq_ok_iff.mp listed
        cases same
        obtain ⟨contract, _, same⟩ := List.mem_map.mp inside
        cases same
        exact ⟨stored.hash, contract, rfl⟩

/-- Where a single unit renders a document, it is due. -/
theorem due_document {unit : CompilationUnit} {p : Path}
    (rendered : p ∈ (Artifact.renderedFor config c unit).map (·.path))
    (notModule : (Artifact.modulePath config unit.primary).same p = false)
    (notFlattened : (Artifact.flattenedPath config unit.primary).same p = false) :
    ∃ hash contract, due config c [unit] p = some (c.document unit.primary hash contract).pretty := by
  obtain ⟨contents, last⟩ := Artifact.exists_contentsAt rendered
  obtain ⟨file, mem, same, rfl⟩ := Artifact.exists_mem_of_contentsAt last
  obtain ⟨hash, contract, text⟩ : ∃ hash contract, file.contents = (c.document unit.primary hash contract).pretty := by
    refine document_of_mem mem (fun equal => ?_) fun equal => ?_
    · rw [equal, notModule] at same
      cases same
    · rw [equal, notFlattened] at same
      cases same
  refine ⟨hash, contract, ?_⟩
  rw [due, List.reverse_singleton, List.findSome?_singleton, last, Option.some_or, text]

end

/-- A request and a document have different texts. -/
theorem request_ne_document (request : CompilerRequest) (c : Artifact.Compilation) (primary : Path) (hash : String)
    (contract : String × ContractOutput) : request.toJson.pretty ≠ (c.document primary hash contract).pretty := by
  intro same
  obtain ⟨tail, first⟩ : ∃ tail, request.toJson.pretty.toList = _ := Json.toList_pretty_object "language" _ _
  obtain ⟨tail', second⟩ : ∃ tail, (c.document primary hash contract).pretty.toList = _ :=
    Json.toList_pretty_object "compiler" _ _
  have language : (Json.quoted "language").toList = '"' :: 'l' :: "anguage\"".toList := by decide
  have compiler : (Json.quoted "compiler").toList = '"' :: 'c' :: "ompiler\"".toList := by decide
  rw [same, second, language, compiler] at first
  simp at first

/-- Each path has what is due there. -/
def HoldsDue (config : Configuration) (c : Artifact.Compilation) (compiled : List CompilationUnit) (after : FileTree) :
    Prop :=
  ∀ p ∈ outputPaths config c compiled, ∀ contents, due config c compiled p = some contents →
    after.readText p = .ok contents

/-- What no compiled unit renders stays of some files. -/
def KeepsUnrendered (config : Configuration) (c : Artifact.Compilation) (compiled : List CompilationUnit)
    (files : List OutputFile) (tree after : FileTree) : Prop :=
  ∀ file ∈ files, (∀ unit ∈ compiled, Artifact.contentsAt (Artifact.renderedFor config c unit) file.path = none) →
    after.readText file.path = tree.readText file.path

/-- A run that ends well, by the plan that it makes and what its outputs are made of. -/
structure EndsWell (tree : FileTree) (config : Configuration) (toolchain : Toolchain) (files : List Path)
    (ready : FileTree) (plan : Plan) (c : Artifact.Compilation) : Prop where
  prepared : prepare tree config toolchain.release files = .ok (ready, plan)
  made : compilation config toolchain plan = .ok c
  ran : ∃ report, (compileFiles tree config toolchain files).result = .ok report ∧
    report.compiled = (plan.select true).map (·.primary) ∧ report.skipped = plan.skipped
  /-- Nothing is written to a link. -/
  noLinks : ∀ p ∈ outputPaths config c (plan.select true), ready.isLink p = false

namespace SharedPlace

/-- Two sources and a directory for outputs. -/
def project : FileTree :=
  ⟨[(["p"], .directory), (["p", "contracts"], .directory), (["p", "build"], .directory),
    (["p", "contracts", "A.sol"], .file (.text "contract A {}\n")),
    (["p", "contracts", "B.sol"], .file (.text "contract B {}\n"))], [], by decide⟩

/-- The same with a directory for documents that is a link to the one of the other outputs. -/
def linked : FileTree := ⟨(["p", "build", "artifacts"], .link (.ofText "/p/build")) :: project.nodes, [], by decide⟩

def usual : Configuration := .withBase project (.ofText "/p")

/-- All outputs in one directory. -/
def together : Configuration := { usual with artifactsDirectory := usual.outputSolDirectory }

def first : CompilationUnit := ⟨.ofText "/p/contracts/A.sol", []⟩

def second : CompilationUnit := ⟨.ofText "/p/contracts/B.sol", []⟩

/-- A compiler that finds a contract in the second source. -/
def solc : Toolchain where
  name := "solc"
  version := Version.default
  run _ :=
    let contract : ContractOutput := ⟨.object []⟩
    let contracts := Dict.ofList [(second.primary.text, Dict.ofList [("solcStandardInput", contract)])]
    ⟨0, .ok ⟨[], contracts, Dict.empty, .object []⟩⟩

/-- The path of the request that was sent; if all outputs are in one directory, also that of the document. -/
def request : Path := .ofText "/p/build/solcStandardInput.json"

/-- The usual path of the document of the contract. -/
def document : Path := .ofText "/p/build/artifacts/solcStandardInput.json"

/-- Where both of them lead. -/
def place : Location := ["p", "build", "solcStandardInput.json"]

/-- What there is to tell about a run but for contents. -/
structure Outline where
  compiled : List CompilationUnit
  skipped : List Path
  rendered : List Path
  written : List Path
  /-- Those of the two paths that lead to the place. -/
  lead : List Path
  /-- The path that was written last there. -/
  last : Option Path
  links : Bool
deriving DecidableEq

def Outline.of (config : Configuration) (ready : FileTree) (plan : Plan) (c : Artifact.Compilation)
    (written : List OutputFile) : Outline where
  compiled := plan.select true
  skipped := plan.skipped
  rendered := ((plan.select true).flatMap (Artifact.renderedFor config c)).map (·.path)
  written := written.map (·.path)
  lead := [request, document].filter fun p => ready.location? p = some place
  last := (Artifact.lastAt ready written place).map (·.path)
  links := written.any fun file => ready.isLink file.path

/-- The outline of a run that ends well. -/
def outline (tree : FileTree) (config : Configuration) (files : List Path) : Option Outline := do
  let (ready, plan) ← (prepare tree config solc.release files).toOption
  let written ← (toWrite config solc plan).toOption
  let c ← (compilation config solc plan).toOption
  let _ ← (Artifact.writeAll ready written).1.toOption
  return .of config ready plan c written

/-- What an outline tells about a run. -/
theorem exists_of_outline {tree : FileTree} {config : Configuration} {files : List Path} {seen : Outline}
    (sees : outline tree config files = some seen) (stale : seen.compiled ≠ []) (plain : seen.links = false) :
    ∃ ready plan c written, EndsWell tree config solc files ready plan c ∧
      Artifact.outputs config c (plan.select true) = .ok written ∧
      Wrote ready written (compileFiles tree config solc files).tree ∧ .of config ready plan c written = seen := by
  unfold outline at sees
  simp only [Option.bind_eq_bind, Option.bind_eq_some_iff, toOption_eq_some_iff, Option.pure_def,
    Option.some.injEq] at sees
  obtain ⟨⟨ready, plan⟩, prepared, written, worked, c, made, _, all, same⟩ := sees
  have compiles : plan.select true ≠ [] := by rwa [← same] at stale
  obtain ⟨c', made', outputs⟩ := exists_compilation worked compiles
  rw [made] at made'
  cases made'
  obtain ⟨report, ran⟩ := exists_report prepared worked all
  obtain ⟨wrote, compiled, skipped⟩ := done_of_run ran prepared worked
  have noLinks : ∀ p ∈ outputPaths config c (plan.select true), ready.isLink p = false := by
    intro p mem
    rw [← Artifact.paths_outputs outputs] at mem
    obtain ⟨file, inside, rfl⟩ := List.mem_map.mp mem
    rw [← same] at plain
    exact eq_false_of_ne_true (List.any_eq_false.mp plain file inside)
  exact ⟨ready, plan, c, written, ⟨prepared, made, ⟨report, ran, compiled, skipped⟩, noLinks⟩, outputs, wrote, same⟩

/-- The tree after a run that selects the second source. -/
def left : FileTree := (compileFiles project together solc [second.primary]).tree

theorem outline_linked : outline linked usual [second.primary] = some {
    compiled := [second]
    skipped := []
    rendered := ["/p/build/B.sol.js", "/p/build/B_all.sol", "/p/build/artifacts/solcStandardInput.json"].map .ofText
    written := ["/p/build/solcStandardInput.json", "/p/build/solcStandardOutput.json", "/p/build/B.sol.js",
      "/p/build/B_all.sol", "/p/build/artifacts/solcStandardInput.json"].map .ofText
    lead := [request, document]
    last := some document
    links := false } := by decide +kernel

theorem outline_first : outline project together [second.primary] = some {
    compiled := [second]
    skipped := []
    rendered := ["/p/build/B.sol.js", "/p/build/B_all.sol", "/p/build/solcStandardInput.json"].map .ofText
    written := ["/p/build/solcStandardInput.json", "/p/build/solcStandardOutput.json", "/p/build/B.sol.js",
      "/p/build/B_all.sol"].map .ofText
    lead := [request]
    last := some request
    links := false } := by decide +kernel

theorem outline_second : outline left together [first.primary, second.primary] = some {
    compiled := [first]
    skipped := [second.primary]
    rendered := ["/p/build/A.sol.js", "/p/build/A_all.sol"].map .ofText
    written := ["/p/build/solcStandardInput.json", "/p/build/solcStandardOutput.json", "/p/build/A.sol.js",
      "/p/build/A_all.sol"].map .ofText
    lead := [request]
    last := some request
    links := false } := by decide +kernel

/-- What is written last at the place stays there. -/
theorem readText_of_last {ready after : FileTree} {config : Configuration} {c : Artifact.Compilation}
    {units : List CompilationUnit} {written : List OutputFile} {contents : String}
    (made : Artifact.outputs config c units = .ok written) (wrote : Wrote ready written after)
    (lead : ([request, document].filter fun p => ready.location? p = some place) = [request])
    (last : (Artifact.lastAt ready written place).map (·.path) = some request)
    (isDue : due config c units request = some contents) : after.readText request = .ok contents := by
  have toPlace : request ∈ [request, document].filter fun p => ready.location? p = some place := by
    rw [lead]
    exact List.mem_singleton_self request
  obtain ⟨file, lastly, here⟩ := Option.map_eq_some_iff.mp last
  have stays := Artifact.due_of_mem made (Artifact.mem_of_lastAt lastly).1
  rw [here, isDue] at stays
  cases stays
  exact wrote.readText_of_lastAt (by simpa using (List.mem_filter.mp toPlace).2) lastly

/-- Where the paths of the request and of a document lead to one file, not both of them can have what is due. -/
theorem not_holds_linked :
    ∃ ready plan c, EndsWell linked usual solc [second.primary] ready plan c ∧ plan.select true = [second] ∧
      ¬ HoldsDue usual c [second] (compileFiles linked usual solc [second.primary]).tree := by
  obtain ⟨ready, plan, c, written, ends, made, wrote, same⟩ := exists_of_outline outline_linked (by decide) rfl
  rw [Outline.of, Outline.mk.injEq] at same
  obtain ⟨compiled, _, rendered, paths, lead, _⟩ := same
  rw [compiled] at made rendered
  refine ⟨ready, plan, c, ends, compiled, fun plain => ?_⟩
  have listed : ∀ p ∈ [request, document], p ∈ outputPaths usual c [second] := by
    rw [← Artifact.paths_outputs made, paths]
    decide
  have leads : ∀ p ∈ [request, document], ready.location? p = some place := by
    intro p mem
    rw [← lead] at mem
    simpa using (List.mem_filter.mp mem).2
  have requested : due usual c [second] request = some c.request.toJson.pretty := by
    refine due_request ?_ (by decide +kernel) (by decide +kernel)
    rw [rendered]
    decide
  obtain ⟨hash, contract, documented⟩ : ∃ hash contract, due usual c [second] document = some _ := by
    refine due_document ?_ (by decide +kernel) (by decide +kernel)
    rw [← List.flatMap_singleton (Artifact.renderedFor usual c) second, rendered]
    decide
  obtain ⟨there, toPlace, entry⟩ := FileTree.readText_eq_ok_iff.mp (plain request (listed _ (by simp)) _ requested)
  obtain ⟨there', toPlace', entry'⟩ := FileTree.readText_eq_ok_iff.mp (plain document (listed _ (by simp)) _ documented)
  rw [wrote.samePassages.location?_eq, leads _ (by simp)] at toPlace toPlace'
  cases toPlace
  cases toPlace'
  rw [entry] at entry'
  simp only [Option.some.injEq, Node.file.injEq, Content.text.injEq] at entry'
  exact request_ne_document _ _ _ _ _ entry'

/-- Where the paths of the request and of a document are the same, the second run, which skips the unit of the document,
writes its request over it. -/
theorem not_untouched_left :
    ∃ ready plan c ready' plan' c', EndsWell project together solc [second.primary] ready plan c ∧
      EndsWell left together solc [first.primary, second.primary] ready' plan' c' ∧
      plan.select true = [second] ∧ plan'.select true = [first] ∧ plan'.skipped = [second.primary] ∧
      ¬ KeepsUnrendered together c' [first] (Artifact.renderedFor together c second) left
        (compileFiles left together solc [first.primary, second.primary]).tree := by
  obtain ⟨ready, plan, c, written, ends, made, wrote, same⟩ := exists_of_outline outline_first (by decide) rfl
  obtain ⟨ready', plan', c', written', ends', made', wrote', same'⟩ := exists_of_outline outline_second (by decide) rfl
  rw [Outline.of, Outline.mk.injEq] at same same'
  obtain ⟨compiled, _, rendered, _, lead, last, _⟩ := same
  obtain ⟨compiled', skipped', rendered', _, lead', last', _⟩ := same'
  rw [compiled] at made rendered
  rw [compiled'] at made' rendered'
  rw [List.flatMap_singleton] at rendered
  refine ⟨ready, plan, c, ready', plan', c', ends, ends', compiled, compiled', skipped', fun untouched => ?_⟩
  -- The first run leaves the document.
  obtain ⟨hash, contract, documented⟩ : ∃ hash contract, due together c [second] request = some _ := by
    refine due_document ?_ (by decide +kernel) (by decide +kernel)
    rw [rendered]
    decide
  have leaves : left.readText request = .ok (c.document second.primary hash contract).pretty :=
    readText_of_last made wrote lead last documented
  -- The second one leaves its request.
  have requested : due together c' [first] request = some c'.request.toJson.pretty := by
    refine due_request ?_ (by decide +kernel) (by decide +kernel)
    rw [rendered']
    decide
  have leaves' := readText_of_last made' wrote' lead' last' requested
  obtain ⟨file, mem, path⟩ : ∃ file ∈ Artifact.renderedFor together c second, file.path = request := by
    rw [← List.mem_map, rendered]
    decide
  have kept := untouched file mem fun unit single => by
    cases List.mem_singleton.mp single
    rw [path, Artifact.contentsAt_eq_none_iff, ← List.flatMap_singleton (Artifact.renderedFor together c') first,
      rendered']
    decide
  rw [path, leaves, leaves'] at kept
  exact request_ne_document _ _ _ _ _ (Except.ok.inj kept)

/-- Outputs of a run that share a file do not all have what is due, and a run writes over the output of a unit that it
skips. -/
theorem outputs_overlap :
    (∃ ready plan c, EndsWell linked usual solc [second.primary] ready plan c ∧ plan.select true = [second] ∧
      ¬ HoldsDue usual c [second] (compileFiles linked usual solc [second.primary]).tree) ∧
    ∃ ready plan c ready' plan' c', EndsWell project together solc [second.primary] ready plan c ∧
      EndsWell left together solc [first.primary, second.primary] ready' plan' c' ∧
      plan.select true = [second] ∧ plan'.select true = [first] ∧ plan'.skipped = [second.primary] ∧
      ¬ KeepsUnrendered together c' [first] (Artifact.renderedFor together c second) left
        (compileFiles left together solc [first.primary, second.primary]).tree :=
  ⟨not_holds_linked, not_untouched_left⟩

/-- The second of the runs in one directory: nothing but the outputs of the first source and the snapshots differs. -/
theorem changes_only_compiled_left :
    ∃ report, (compileFiles left together solc [first.primary, second.primary]).result = .ok report ∧
      report.compiled = [first.primary] ∧ report.skipped = [second.primary] ∧
      ∃ c, ChangesOnly together c [first] left
        (compileFiles left together solc [first.primary, second.primary]).tree := by
  obtain ⟨ready, plan, _, _, ends, _, _, same⟩ := exists_of_outline outline_second (by decide) rfl
  rw [Outline.of, Outline.mk.injEq] at same
  obtain ⟨compiled, skipped, _⟩ := same
  obtain ⟨report, ran, _⟩ := ends.ran
  obtain ⟨ready', plan', prepared, names, others, changes⟩ := changes_only_compiled ran
  rw [ends.prepared] at prepared
  cases prepared
  rw [compiled, if_neg (by decide)] at changes
  obtain ⟨c, _, only⟩ := changes
  exact ⟨report, ran, by rw [names, compiled]; rfl, others.trans skipped, c, only⟩

end SharedPlace

end Build

end SolidityBuild
