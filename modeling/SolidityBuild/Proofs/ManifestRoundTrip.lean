import SolidityBuild.Artifact.ExportModule
import SolidityBuild.Proofs.Dictionary
import SolidityBuild.Proofs.Identifiers
import SolidityBuild.Proofs.LineReading
import SolidityBuild.Proofs.Quotation
import SolidityBuild.Proofs.Results

/-!
# Export modules read back as manifests

Of the lines of an export module only the hash lines and the release line say something to the reader of
manifests, as long as contracts are named by identifiers. So reading the module of a unit as a manifest
gives exactly the hashes of its files and the release (`parse_exportModule`).
-/

namespace SolidityBuild

/-- Every contract of an answer is named by an identifier. -/
def CompilerResult.NamesIdentifiers (result : CompilerResult) : Prop :=
  ∀ source, ∀ contract ∈ result.contractsIn source, IsIdentifier contract.1

theorem CompilerResult.namesIdentifiers_of_contracts {result : CompilerResult}
    (all : ∀ entry ∈ result.contracts.toList, ∀ contract ∈ entry.2.toList, IsIdentifier contract.1) :
    result.NamesIdentifiers := by
  intro source contract mem
  unfold contractsIn at mem
  split at mem
  · next contracts found => exact all (source, contracts) (Dict.get?_eq_some_iff.mp found) contract mem
  · cases mem

end SolidityBuild

namespace SolidityBuild.Manifest

open Text (Reads reads_nil reads_flatMap reads_of_none reads_of_some)

/-! ## Literals -/

theorem literalBody_escape (c : Char) (rest : List Char) :
    literalBody (Json.escape c ++ rest) =
      (literalBody rest).map fun (body, after) => (Json.escape c ++ body, after) := by
  rcases Json.escape_cases c with ⟨form, mark, backslash, _⟩ | ⟨letter, form, _, notBreak, _⟩ | ⟨control, form⟩
  · rw [form, List.singleton_append, literalBody]
    · simp [backslash]
    · exact mark
    · intro a rest same
      exact absurd same backslash
  · rw [form]
    simp only [List.cons_append, List.nil_append]
    rw [literalBody]
    simp [notBreak]
  · rw [form]
    simp only [List.cons_append, List.nil_append]
    have high := Json.digitChar_ne_lineFeed (c.toNat / 16) (by omega)
    have plain : ∀ d rest, d ≠ '"' → d ≠ '\\' →
        literalBody (d :: rest) = (literalBody rest).map fun (body, after) => (d :: body, after) := by
      intro d rest mark backslash
      rw [literalBody]
      · simp [backslash]
      · exact mark
      · intro a rest same
        exact absurd same backslash
    have digit : ∀ n < 16, Nat.digitChar n ≠ '"' ∧ Nat.digitChar n ≠ '\\' := by decide
    have highDigit := digit (c.toNat / 16) (by omega)
    have lowDigit := digit (c.toNat % 16) (by omega)
    rw [literalBody, plain '0' _ (by decide) (by decide), plain '0' _ (by decide) (by decide),
      plain _ _ highDigit.1 highDigit.2, plain _ _ lowDigit.1 lowDigit.2]
    simp [Function.comp_def]

theorem literalBody_escaped (cs rest : List Char) :
    literalBody (cs.flatMap Json.escape ++ '"' :: rest) = some (cs.flatMap Json.escape ++ ['"'], rest) := by
  induction cs with
  | nil => simp [literalBody]
  | cons c tail ih => rw [List.flatMap_cons, List.append_assoc, literalBody_escape, ih]; simp

/-- A quoted text is one literal. -/
theorem literal?_quoted (text : String) (rest : List Char) :
    literal? ((Json.quoted text).toList ++ rest) = some ((Json.quoted text).toList, rest) := by
  rw [Json.toList_quoted, List.cons_append, List.append_assoc, List.singleton_append, literal?,
    literalBody_escaped]
  rfl

theorem assigned?_quoted (text : String) (rest : List Char) :
    assigned? (" = ".toList ++ ((Json.quoted text).toList ++ rest)) = some ((Json.quoted text).toList, rest) := by
  have blank : Text.isBlank ' ' = true := by decide
  have sign : Text.isBlank '=' = false := by decide
  have mark : Text.isBlank '"' = false := by decide
  have start : (Json.quoted text).toList ++ rest =
      '"' :: (text.toList.flatMap Json.escape ++ ['"'] ++ rest) := by rw [Json.toList_quoted]; rfl
  have kept : ((Json.quoted text).toList ++ rest).dropWhile Text.isBlank = (Json.quoted text).toList ++ rest := by
    rw [start, List.dropWhile_cons_of_neg (by simp [mark])]
  have spaces : " = ".toList = [' ', '=', ' '] := by decide
  simp only [assigned?, spaces, List.cons_append, List.nil_append, List.dropWhile_cons, blank, sign, if_true,
    Bool.false_eq_true, if_false, kept, literal?_quoted]

theorem hashKey?_hashExport (key : String) : hashKey? (hashExport key) = some key := by
  have name : (hashExport key).toList = "_".toList ++ (key.toList ++ "_sha256".toList) := by
    simp [hashExport, String.toList_append]
  have suffix : "_sha256".toList.isSuffixOf (key.toList ++ "_sha256".toList) = true :=
    List.isSuffixOf_iff_suffix.mpr (List.suffix_append _ _)
  have size : (key.toList ++ "_sha256".toList).length - "_sha256".toList.length = key.toList.length := by simp
  simp only [hashKey?, name, Text.isPrefixOf?_append, bind, Option.bind]
  rw [if_pos suffix, size, List.take_left, String.ofList_toList]

/-- The literals of the line that exports the hash of a file. -/
def literals (entry : String × String) : List Char × List Char :=
  ((Json.quoted (hashExport entry.1)).toList, (Json.quoted entry.2).toList)

theorem entry?_literals (entry : String × String) : entry? (literals entry) = some entry := by
  simp [ entry?, literals, Json.unquote?_quoted, hashKey?_hashExport]

/-! ## Lines -/

theorem entryLine_eq_none {cs : List Char} (other : "exports[".toList.isPrefixOf? cs = none) :
    entryLine cs = none := by
  unfold entryLine
  rw [other]
  rfl

theorem releaseLine_eq_none {cs : List Char} (other : ("exports." ++ releaseExport).toList.isPrefixOf? cs = none) :
    releaseLine cs = none := by
  unfold releaseLine
  rw [other]
  rfl

theorem entryLine_eq_some {cs rest : List Char} {name value : String}
    (text : cs = "exports[".toList ++ ((Json.quoted name).toList ++ ']' ::
      (" = ".toList ++ ((Json.quoted value).toList ++ rest))))
    (shorter : rest.length < cs.length) :
    entryLine cs = some (((Json.quoted name).toList, (Json.quoted value).toList), ⟨rest, shorter⟩) := by
  have name? : "exports[".toList.isPrefixOf? cs = some _ := text ▸ Text.isPrefixOf?_append _ _
  unfold entryLine
  rw [name?]
  simp only [bind, Option.bind, literal?_quoted, assigned?_quoted]
  exact Text.shorter?_eq shorter

theorem releaseLine_eq_some {cs rest : List Char} {value : String}
    (text : cs = ("exports." ++ releaseExport).toList ++ (" = ".toList ++ ((Json.quoted value).toList ++ rest)))
    (shorter : rest.length < cs.length) :
    releaseLine cs = some ((Json.quoted value).toList, ⟨rest, shorter⟩) := by
  have name? : ("exports." ++ releaseExport).toList.isPrefixOf? cs = some _ := text ▸ Text.isPrefixOf?_append _ _
  unfold releaseLine
  rw [name?]
  simp only [bind, Option.bind, assigned?_quoted]
  exact Text.shorter?_eq shorter

theorem toList_hashLine (key hash : String) (rest : List Char) :
    (Artifact.hashLine key hash).toList ++ '\n' :: rest =
      "exports[".toList ++ ((Json.quoted (hashExport key)).toList ++ ']' ::
        (" = ".toList ++ ((Json.quoted hash).toList ++ (';' :: '\n' :: rest)))) := by
  simp [Artifact.hashLine, String.toList_append]

theorem reads_hashLine (key hash : String) :
    Reads entryLine [(Artifact.hashLine key hash).toList] [literals (key, hash)] := by
  have plain : '\n' ∉ [';'] := by decide
  refine reads_of_some plain fun rest => ?_
  have shorter : (';' :: '\n' :: rest).length < ((Artifact.hashLine key hash).toList ++ '\n' :: rest).length := by
    rw [toList_hashLine]
    simp only [List.length_append, List.length_cons]
    omega
  exact ⟨shorter, entryLine_eq_some (toList_hashLine key hash rest) shorter⟩

/-- The release is not found in a line that exports a hash. -/
theorem reads_hashLine_release (key hash : String) :
    Reads releaseLine [(Artifact.hashLine key hash).toList] [] := by
  refine reads_of_none ?_ fun rest => releaseLine_eq_none ?_
  · have name := Json.lineFeed_not_mem_quoted (hashExport key)
    have value := Json.lineFeed_not_mem_quoted hash
    simp only [Artifact.hashLine, String.toList_append, List.mem_append, not_or]
    exact ⟨⟨⟨⟨by decide, name⟩, by decide⟩, value⟩, by decide⟩
  · rw [toList_hashLine]
    simp [releaseExport, Text.isPrefixOf?_cons]

theorem isIdentifierChar_releaseExport : ∀ c ∈ releaseExport.toList, isIdentifierChar c = true := by
  simp [releaseExport, isIdentifierChar]

theorem assigned?_eq_none {c : Char} (identifier : isIdentifierChar c = true) (rest : List Char) :
    assigned? (c :: rest) = none := by
  have notBlank := isBlank_of_isIdentifierChar identifier
  have notSign : c ≠ '=' := ne_of_isIdentifierChar identifier (by decide)
  unfold assigned?
  rw [List.dropWhile_cons_of_neg (by simp [notBlank])]
  split
  · next same => exact absurd (List.cons.inj same).1 notSign
  · rfl

/-- The line `exports.label = value`, where the label is not that of the release. -/
theorem releaseLine_label {label rest : List Char} (identifier : ∀ c ∈ label, isIdentifierChar c = true)
    (other : label ≠ releaseExport.toList) :
    releaseLine ("exports.".toList ++ (label ++ (" = ".toList ++ rest))) = none := by
  cases opening : ("exports." ++ releaseExport).toList.isPrefixOf?
      ("exports.".toList ++ (label ++ (" = ".toList ++ rest))) with
  | none => exact releaseLine_eq_none opening
  | some tail =>
    have whole := Text.eq_append_of_isPrefixOf? opening
    rw [String.toList_append, List.append_assoc, List.append_cancel_left_eq] at whole
    have unassigned : assigned? tail = none := by
      rcases List.append_eq_append_iff.mp whole with ⟨extra, same, behind⟩ | ⟨extra, same, behind⟩
      · cases extra with
        | nil => exact absurd (by simpa using same.symm) other
        | cons c extra =>
          have space : c = ' ' := (List.cons.inj behind).1.symm
          have inside : ' ' ∈ releaseExport.toList := by simp [same, space]
          exact absurd (isIdentifierChar_releaseExport _ inside) (by decide)
      · cases extra with
        | nil => exact absurd (by simpa using same) other
        | cons c extra =>
          rw [behind, List.cons_append]
          exact assigned?_eq_none (identifier c (by simp [same])) _
    unfold releaseLine
    rw [opening]
    simp [bind, Option.bind, unassigned]

theorem reads_label {line label value : List Char} (text : line = "exports.".toList ++ (label ++ (" = ".toList ++ value)))
    (identifier : ∀ c ∈ label, isIdentifierChar c = true) (other : label ≠ releaseExport.toList)
    (plain : '\n' ∉ value) : Reads entryLine [line] [] ∧ Reads releaseLine [line] [] := by
  have oneLine : '\n' ∉ line := by
    have inLabel : '\n' ∉ label := fun mem => absurd (identifier _ mem) (by decide)
    simp only [text, List.mem_append, not_or]
    exact ⟨by decide, inLabel, by decide, plain⟩
  constructor
  · refine reads_of_none oneLine fun rest => entryLine_eq_none ?_
    rw [text]
    simp [Text.isPrefixOf?_cons]
  · refine reads_of_none oneLine fun rest => ?_
    have longer : line ++ '\n' :: rest = "exports.".toList ++ (label ++ (" = ".toList ++ (value ++ '\n' :: rest))) := by
      simp [text]
    rw [longer]
    exact releaseLine_label identifier other

/-- Labels that end otherwise than the one of the release. -/
theorem label_ne_releaseExport {name ending : List Char} (last : ending.getLast? ≠ releaseExport.toList.getLast?)
    (nonempty : ending ≠ []) : name ++ ending ≠ releaseExport.toList := by
  intro same
  rw [← same, List.getLast?_append_of_ne_nil _ nonempty] at last
  exact last rfl

theorem reads_contractLines {contract : String × ContractOutput} (named : IsIdentifier contract.1) :
    Reads entryLine ((Artifact.contractLines contract).map String.toList) [] ∧
      Reads releaseLine ((Artifact.contractLines contract).map String.toList) [] := by
  obtain ⟨name, output⟩ := contract
  have labelled (ending : String) (letters : ∀ c ∈ ending.toList, isIdentifierChar c = true) :
      ∀ c ∈ name.toList ++ ending.toList, isIdentifierChar c = true := by
    intro c mem
    rcases List.mem_append.mp mem with mem | mem
    · exact isIdentifierChar_of_mem named mem
    · exact letters c mem
  have line (ending value : String) (letters : ∀ c ∈ ending.toList, isIdentifierChar c = true)
      (last : ending.toList.getLast? ≠ releaseExport.toList.getLast?) (nonempty : ending.toList ≠ [])
      (plain : '\n' ∉ value.toList) :
      Reads entryLine [("exports." ++ name ++ (ending ++ " = ") ++ value ++ ";").toList] [] ∧
        Reads releaseLine [("exports." ++ name ++ (ending ++ " = ") ++ value ++ ";").toList] [] := by
    have text : ("exports." ++ name ++ (ending ++ " = ") ++ value ++ ";").toList =
        "exports.".toList ++ (name.toList ++ ending.toList ++ (" = ".toList ++ (value.toList ++ [';']))) := by
      simp [String.toList_append]
    exact reads_label text (labelled ending letters) (label_ne_releaseExport last nonempty) (by simp [plain])
  have interface := line "Abi" output.interface.compact (by simp [isIdentifierChar]) (by decide)
    (by decide) (Json.lineFeed_not_mem_compact _)
  have bytecode := line "ByteCode" (Json.quoted output.bytecode) (by simp [isIdentifierChar]) (by decide)
    (by decide) (Json.lineFeed_not_mem_quoted _)
  have deployed := line "RuntimeByteCode" (Json.quoted output.deployedBytecode) (by simp [isIdentifierChar]) (by decide)
    (by decide) (Json.lineFeed_not_mem_quoted _)
  exact ⟨interface.1.cons (bytecode.1.cons deployed.1), interface.2.cons (bytecode.2.cons deployed.2)⟩

theorem toList_releaseLine (release : String) (rest : List Char) :
    (Artifact.releaseLine release).toList ++ '\n' :: rest =
      ("exports." ++ releaseExport).toList ++
        (" = ".toList ++ ((Json.quoted release).toList ++ (';' :: '\n' :: rest))) := by
  simp [Artifact.releaseLine, String.toList_append]

theorem reads_releaseLine (release : String) :
    Reads entryLine [(Artifact.releaseLine release).toList] [] ∧
      Reads releaseLine [(Artifact.releaseLine release).toList] [(Json.quoted release).toList] := by
  constructor
  · refine reads_of_none ?_ fun rest => entryLine_eq_none ?_
    · have value := Json.lineFeed_not_mem_quoted release
      simp only [Artifact.releaseLine, String.toList_append, List.mem_append, not_or]
      exact ⟨⟨⟨⟨by decide, by decide⟩, by decide⟩, value⟩, by decide⟩
    · rw [toList_releaseLine]
      simp [Text.isPrefixOf?_cons, String.toList_append]
  · have plain : '\n' ∉ [';'] := by decide
    refine reads_of_some plain fun rest => ?_
    have shorter : (';' :: '\n' :: rest).length < ((Artifact.releaseLine release).toList ++ '\n' :: rest).length := by
      have sign : (" = ".toList).length = 3 := by decide
      rw [toList_releaseLine]
      simp only [List.length_append, List.length_cons, sign]
      omega
    exact ⟨shorter, releaseLine_eq_some (toList_releaseLine release rest) shorter⟩

/-! ## Modules -/

theorem reads_header :
    Reads entryLine ([Artifact.moduleHeader, ""].map String.toList) [] ∧
      Reads releaseLine ([Artifact.moduleHeader, ""].map String.toList) [] := by
  have header : '\n' ∉ Artifact.moduleHeader.toList := by decide
  have start : ∃ rest, Artifact.moduleHeader.toList = '/' :: rest := ⟨_, rfl⟩
  obtain ⟨tail, start⟩ := start
  constructor
  · refine Reads.cons (reads_of_none header fun rest => entryLine_eq_none ?_)
      (reads_of_none (by simp) fun rest => entryLine_eq_none ?_)
    · simp [start, Text.isPrefixOf?_cons]
    · simp [Text.isPrefixOf?_cons]
  · refine Reads.cons (reads_of_none header fun rest => releaseLine_eq_none ?_)
      (reads_of_none (by simp) fun rest => releaseLine_eq_none ?_)
    · simp [start, Text.isPrefixOf?_cons]
    · simp [Text.isPrefixOf?_cons]

section

variable {store : SourceStore} {names : SourceNames} {result : CompilerResult}

/-- The lines of a file tell its hash and nothing else. -/
theorem reads_fileLines (named : result.NamesIdentifiers) {file : Path} {lines : List String}
    (rendered : Artifact.fileLines store names result file = .ok lines) :
    ∃ unit, store.unit file = .ok unit ∧
      Reads entryLine (lines.map String.toList) [literals (file.key store.base, unit.hash)] ∧
      Reads releaseLine (lines.map String.toList) [] := by
  obtain ⟨unit, found, whole⟩ := bind_eq_ok_iff.mp rendered
  cases whole
  have each : ∀ contract ∈ Artifact.contractsOf names result file, IsIdentifier contract.1 := by
    intro contract mem
    unfold Artifact.contractsOf at mem
    split at mem
    · exact named _ contract mem
    · simp at mem
  have text : ((Artifact.contractsOf names result file).flatMap Artifact.contractLines ++
      [Artifact.hashLine (file.key store.base) unit.hash]).map String.toList =
      (Artifact.contractsOf names result file).flatMap (fun c => (Artifact.contractLines c).map String.toList) ++
        [(Artifact.hashLine (file.key store.base) unit.hash).toList] := by
    simp [List.map_flatMap]
  refine ⟨unit, found, ?_, ?_⟩
  · rw [text]
    exact (reads_flatMap fun c mem => (reads_contractLines (each c mem)).1).append (reads_hashLine _ _)
  · rw [text]
    exact (reads_flatMap fun c mem => (reads_contractLines (each c mem)).2).append (reads_hashLine_release _ _)

theorem reads_files (named : result.NamesIdentifiers) {files : List Path} {lines : List (List String)}
    (rendered : files.mapM (Artifact.fileLines store names result) = .ok lines) :
    ∃ entries, files.mapM (fun p => do return (p.key store.base, (← store.unit p).hash)) = .ok entries ∧
      Reads entryLine (lines.flatten.map String.toList) (entries.map literals) ∧
      Reads releaseLine (lines.flatten.map String.toList) [] := by
  induction files generalizing lines with
  | nil =>
    cases rendered
    exact ⟨[], rfl, reads_nil _, reads_nil _⟩
  | cons file rest ih =>
    obtain ⟨first, others, renderedFirst, renderedRest, rfl⟩ := mapM_cons_eq_ok_iff.mp rendered
    obtain ⟨unit, found, entryHere, releaseHere⟩ := reads_fileLines named renderedFirst
    obtain ⟨entries, listed, entryThere, releaseThere⟩ := ih renderedRest
    refine ⟨(file.key store.base, unit.hash) :: entries, ?_, ?_, ?_⟩
    · exact mapM_cons_eq_ok_iff.mpr ⟨_, _, bind_eq_ok_iff.mpr ⟨unit, found, rfl⟩, listed, rfl⟩
    · rw [List.flatten_cons, List.map_append, List.map_cons]
      exact entryHere.append entryThere
    · rw [List.flatten_cons, List.map_append]
      exact releaseHere.append releaseThere

/-- The module of a unit read as a manifest gives the hashes of the files of the unit and the release. -/
theorem parse_exportModule (named : result.NamesIdentifiers) {unit : CompilationUnit} {release text : String}
    (rendered : Artifact.exportModule store names result unit release = .ok text) :
    ∃ hashes, store.hashes unit.files = .ok hashes ∧ parse text = ⟨hashes, some release⟩ := by
  obtain ⟨lines, renderedFiles, whole⟩ := bind_eq_ok_iff.mp rendered
  cases whole
  obtain ⟨entries, listed, entryReads, releaseReads⟩ := reads_files named renderedFiles
  have entryAll := reads_header.1.append (entryReads.append (reads_releaseLine release).1)
  have releaseAll := reads_header.2.append (releaseReads.append (reads_releaseLine release).2)
  have text : (Artifact.moduleHeader ++ "\n\n" ++
      "\n".intercalate (lines.flatten ++ [Artifact.releaseLine release]) ++ "\n").toList =
      Text.unlines ([Artifact.moduleHeader, ""].map String.toList ++
        (lines.flatten.map String.toList ++ [(Artifact.releaseLine release).toList])) := by
    have nonempty : lines.flatten ++ [Artifact.releaseLine release] ≠ [] := by simp
    have body := Text.toList_lines nonempty
    rw [String.append_assoc, String.toList_append, body, Text.unlines_append]
    simp [Text.unlines, String.toList_append]
  refine ⟨Dict.ofList entries, bind_eq_ok_iff.mpr ⟨entries, listed, rfl⟩, ?_⟩
  have found : Text.found (Text.atLineStarts entryLine _) = _ := Text.found_atLineStarts entryAll
  have foundRelease : Text.found (Text.atLineStarts releaseLine _) = _ := Text.found_atLineStarts releaseAll
  have each : (fun entry => entry? (literals entry)) = some := funext entry?_literals
  unfold parse
  rw [text, found, foundRelease]
  simp [List.filterMap_map, each, Json.unquote?_quoted]

/-- Only a file that is not loaded keeps a module from being rendered. -/
theorem exists_exportModule {unit : CompilationUnit} (loaded : ∀ file ∈ unit.files, ∃ stored, store.unit file = .ok stored)
    (names : SourceNames) (result : CompilerResult) (release : String) :
    ∃ text, Artifact.exportModule store names result unit release = .ok text := by
  have lines : ∀ file ∈ unit.files, ∃ lines, Artifact.fileLines store names result file = .ok lines := by
    intro file mem
    obtain ⟨stored, found⟩ := loaded file mem
    exact ⟨_, bind_eq_ok_iff.mpr ⟨stored, found, rfl⟩⟩
  obtain ⟨rendered, all⟩ := exists_mapM_eq_ok lines
  exact ⟨_, bind_eq_ok_iff.mpr ⟨rendered, all, rfl⟩⟩

/-- Reading is the inverse of rendering: the module of a unit whose files are all loaded is rendered, and reading it
gives the hashes of the files and the release, whatever the names of the files, the interfaces and the code are. -/
theorem exportModule_reads_back (named : result.NamesIdentifiers) {unit : CompilationUnit}
    (loaded : ∀ file ∈ unit.files, ∃ stored, store.unit file = .ok stored) (names : SourceNames) (release : String) :
    ∃ text hashes, Artifact.exportModule store names result unit release = .ok text ∧
      store.hashes unit.files = .ok hashes ∧ parse text = ⟨hashes, some release⟩ := by
  obtain ⟨text, rendered⟩ := exists_exportModule loaded names result release
  obtain ⟨hashes, found, same⟩ := parse_exportModule named rendered
  exact ⟨text, hashes, rendered, found, same⟩

end

namespace Misleading

/-- A text that would be a line of a manifest if it stood in a line of its own. -/
def line : String := "\nexports[\"_contracts/A.sol_sha256\"] = \"00\";\nexports._solcVersion = \"0\";\n"

def quotes : Path := .ofText "/p/contracts/\"\\_sha256\".sol"

def breaks : Path := .ofText ("/p/contracts/" ++ line ++ ".sol")

def store : SourceStore where
  base := .ofText "/p"
  constants := Dict.empty
  units := [⟨quotes, "contract A {}\n", .dependency⟩, ⟨breaks, "contract solc {}\n", .primary⟩]
  aliases := Dict.empty
  vendored := none

def unit : CompilationUnit := ⟨breaks, [quotes]⟩

def names : SourceNames := .ofOwners [(breaks, breaks.text), (quotes, quotes.text)] []

def output : ContractOutput :=
  ⟨.object [("abi", .array [.string line]), ("evm", .object [("bytecode", .object [("object", .string line)])])]⟩

/-- A result with contracts whose names are as near to that of the release as identifiers can be. -/
def result : CompilerResult where
  diagnostics := []
  contracts := Dict.ofList [(breaks.text, Dict.ofList [("_solcVersion", output), ("$", output)])]
  sourceIds := Dict.empty
  raw := .object []

theorem namesIdentifiers : result.NamesIdentifiers := CompilerResult.namesIdentifiers_of_contracts (by decide)

theorem loaded : ∀ file ∈ unit.files, ∃ stored, store.unit file = .ok stored := by
  have all : ∀ file ∈ unit.files, (store.unit file).toOption.isSome = true := by decide +kernel
  exact fun file mem => ⟨_, eq_ok_of_isSome (all file mem)⟩

end Misleading

theorem exportModule_reads_back_misleading :
    Misleading.result.NamesIdentifiers ∧
      ∃ text hashes,
        Artifact.exportModule Misleading.store Misleading.names Misleading.result Misleading.unit Misleading.line =
          .ok text ∧
        Misleading.store.hashes Misleading.unit.files = .ok hashes ∧ parse text = ⟨hashes, some Misleading.line⟩ ∧
        (hashes.toList.map (·.1)) =
          ["contracts/" ++ Misleading.line ++ ".sol", "contracts/\"\\_sha256\".sol"] := by
  refine ⟨Misleading.namesIdentifiers, ?_⟩
  obtain ⟨text, hashes, rendered, found, same⟩ :=
    exportModule_reads_back Misleading.namesIdentifiers Misleading.loaded Misleading.names Misleading.line
  have keys : (Misleading.store.hashes Misleading.unit.files).toOption.map (·.toList.map (·.1)) =
      some ["contracts/" ++ Misleading.line ++ ".sol", "contracts/\"\\_sha256\".sol"] := by decide +kernel
  rw [found] at keys
  exact ⟨text, hashes, rendered, found, same, Option.some.inj keys⟩

end SolidityBuild.Manifest
