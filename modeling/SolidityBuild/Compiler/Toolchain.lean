import SolidityBuild.Compiler.Result
import SolidityBuild.Compiler.Version
import SolidityBuild.Request.Basic

/-!
# Toolchains

Anything that answers requests is a toolchain. A compiler that runs as a process becomes one when its
answer is read as a JSON value. The compiler installed on the machine is taken if it has the release that
is asked for, or if none is; otherwise the release is taken from the managed compilers.
-/

namespace SolidityBuild

/-- The answer to a request, and how many milliseconds it took. -/
structure Reply where
  duration : Nat
  result : Result CompilerResult

/-- A compiler that can be asked. -/
structure Toolchain where
  name : String
  version : Version
  run : CompilerRequest → Reply

namespace Toolchain

/-- The release that is recorded in manifests. -/
def release (toolchain : Toolchain) : String := toolchain.version.release.text

/-- The answer of the compiler to a request, within a limit in seconds. -/
def compile (toolchain : Toolchain) (limit : Option Nat) (request : CompilerRequest) :
    Result CompilerResult :=
  let reply := toolchain.run request
  match limit with
  | some seconds => if 1000 * seconds < reply.duration then .error (.timeout seconds) else reply.result
  | none => reply.result

end Toolchain

/-- The end of a process: its exit code and what it wrote. -/
structure Ending where
  code : Int
  output : String
deriving DecidableEq

/-- A compiler as a program. -/
structure Executable where
  /-- How it ends when asked for its version. -/
  versionReport : Ending
  /-- How it ends when given a request. -/
  answer : CompilerRequest → Ending

namespace Executable

/-- The name of the compiler. -/
def name : String := "solc"

/-- The version that the program reports, if it does so properly. -/
def version? (executable : Executable) : Option Version :=
  if executable.versionReport.code = 0 then Version.ofReport? executable.versionReport.output else none

/-- Reads the answer to a request. -/
def resultOf (ending : Ending) : Result CompilerResult :=
  if ending.code ≠ 0 then
    .error (.compiler "Solc compilation failed" ("exit code " ++ toString ending.code))
  else
    match Json.parse? ending.output with
    | some raw => CompilerResult.ofJson raw
    | none => .error (.compiler "Solc compilation failed" "the output is not JSON")

/-- The toolchain that runs a program of a known version. -/
def toolchain (executable : Executable) (version : Version) : Toolchain where
  name
  version
  run request := ⟨0, resultOf (executable.answer request)⟩

end Executable

namespace Toolchain

/-- Which compiler is taken. -/
inductive Choice where
  | installed
  | managed (release : Version)
deriving DecidableEq

/-- Chooses between the installed compiler, given by its version, and a managed one. -/
def choose (requested installed : Option Version) : Choice :=
  match requested, installed with
  | none, some _ => .installed
  | none, none => .managed Version.default
  | some version, some found => if version.sameRelease found then .installed else .managed version.release
  | some version, none => .managed version.release

/-- The toolchain for a requested version. An installed program counts if it reports its version;
`managed` finds the program of a release. -/
def select (requested : Option Version) (installed : Option Executable)
    (managed : Version → Option Executable) : Result Toolchain :=
  let usable := installed.bind fun executable => executable.version?.map fun v => (executable, v)
  match choose requested (usable.map (·.2)), usable with
  | .installed, some (executable, version) => .ok (executable.toolchain version)
  | .installed, none => .error (.compiler "Failed to select solc" "no local binary available")
  | .managed release, _ =>
    match managed release with
    | some executable => .ok (executable.toolchain release)
    | none => .error (.compiler "Failed to install solc version" release.text)

end Toolchain

end SolidityBuild
