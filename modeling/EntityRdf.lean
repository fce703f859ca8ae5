import EntityRdf.FileTree
import EntityRdf.Main
import EntityRdf.Proofs.Fallible
import EntityRdf.Proofs.Registration
import EntityRdf.Proofs.BuiltInstance
import EntityRdf.Proofs.Occurrences
import EntityRdf.Proofs.OwnBlock
import EntityRdf.Proofs.EncoderRun
import EntityRdf.Proofs.Merging
import EntityRdf.Proofs.IncrementalEncoding
import EntityRdf.Proofs.BlockReading
import EntityRdf.Proofs.Assembly
import EntityRdf.Proofs.Decodes
import EntityRdf.Proofs.DecoderRun
import EntityRdf.Proofs.DocumentDecoding
import EntityRdf.Proofs.Pruning
import EntityRdf.Proofs.OwnBlockReading
import EntityRdf.Proofs.RoundTrip
import EntityRdf.Proofs.NormalForm
import EntityRdf.Proofs.DocumentChecks
import EntityRdf.Proofs.CycleDetection
import EntityRdf.Proofs.Expansion
import EntityRdf.Proofs.Presentation
import EntityRdf.Proofs.NodeMembers
import EntityRdf.Proofs.JsonLdRoundTrip
import EntityRdf.Proofs.RepeatedConversion
import EntityRdf.Proofs.DeclaredClasses
import EntityRdf.Proofs.DeclaredInstances
import EntityRdf.Proofs.TypedReading
import EntityRdf.Proofs.ModelResources
import EntityRdf.Proofs.ModelRoundTrip
import EntityRdf.Proofs.RegistryRuns
import EntityRdf.Proofs.RepeatedRegistration
import EntityRdf.Proofs.Rearrangement
import EntityRdf.Proofs.TypeFields
import EntityRdf.Proofs.TopLevel
import EntityRdf.Proofs.Strictness
import EntityRdf.Proofs.Limits
import EntityRdf.Proofs.DepthBound
import EntityRdf.Proofs.SubjectDecoding
import EntityRdf.Proofs.ReportedErrors
import EntityRdf.Proofs.Hoisting
import EntityRdf.Proofs.WellFormedOutput
import EntityRdf.Proofs.DistinctSubjects
import EntityRdf.Proofs.StatedTriples
import EntityRdf.Proofs.TermScanning
import EntityRdf.Proofs.NTriplesReading
import EntityRdf.Proofs.TurtleReading
import EntityRdf.Proofs.Acceptance
import EntityRdf.Proofs.ValidatedRegistries
import EntityRdf.Proofs.ModelRegistration
import EntityRdf.Proofs.TypedConversion
import EntityRdf.Proofs.DecodedShapes
