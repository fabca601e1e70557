import SolidityBuild.Main
import SolidityBuild.Proofs.ManifestRoundTrip
import SolidityBuild.Proofs.Writing
import SolidityBuild.Proofs.Staleness
import SolidityBuild.Proofs.OutputNames
import SolidityBuild.Proofs.BuildRuns
import SolidityBuild.Proofs.IncrementalBuild
import SolidityBuild.Proofs.FailedWrite
import SolidityBuild.Proofs.EarlyFailure
import SolidityBuild.Proofs.NameRegistry
import SolidityBuild.Proofs.RequestCoverage
import SolidityBuild.Proofs.RequestNames
import SolidityBuild.Proofs.PrimaryNames
import SolidityBuild.Proofs.ServedImports
import SolidityBuild.Proofs.ImportClosures
import SolidityBuild.Proofs.AliasCache
import SolidityBuild.Proofs.RepeatedBuild
import SolidityBuild.Proofs.UndisturbedBuild
import SolidityBuild.Proofs.Registrations
import SolidityBuild.Proofs.Deduplication
import SolidityBuild.Proofs.FlattenedOutputs
import SolidityBuild.Proofs.StoreInvariant
import SolidityBuild.Proofs.LoadedSources
import SolidityBuild.Proofs.SharedStems
import SolidityBuild.Proofs.ChangedFiles
import SolidityBuild.Proofs.StrippedSources
import SolidityBuild.Proofs.ImportCycles
import SolidityBuild.Proofs.BlankedComments
import SolidityBuild.Proofs.LayeredConstants
import SolidityBuild.Proofs.RepeatedSubstitution
import SolidityBuild.Proofs.VendoredFiles
import SolidityBuild.Proofs.DiscoveredFiles
import SolidityBuild.Proofs.NormalPaths
import SolidityBuild.Proofs.SettingsLayers
import SolidityBuild.Proofs.CoverageSources
import SolidityBuild.Proofs.SourceNumbers
