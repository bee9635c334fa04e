import BindlessHlsl.Main
import BindlessHlsl.Pipeline.Vulkan
import BindlessHlsl.Proofs.Utf8
import BindlessHlsl.Proofs.CursorText
import BindlessHlsl.Proofs.MemberSizes
import BindlessHlsl.Proofs.ScanSteps
import BindlessHlsl.Proofs.OutlineItems
import BindlessHlsl.Proofs.Gathering
import BindlessHlsl.Proofs.Generation
import BindlessHlsl.Proofs.TableOrder
import BindlessHlsl.Proofs.Editing
import BindlessHlsl.Proofs.WordSearch
import BindlessHlsl.Proofs.FunctionBodies
import BindlessHlsl.Proofs.LineStructure
import BindlessHlsl.Proofs.ConstantsOrder
import BindlessHlsl.Proofs.PreambleParts
import BindlessHlsl.Proofs.SlotAgreement
import BindlessHlsl.Proofs.PushConstants
import BindlessHlsl.Proofs.ConstantsBudget
import BindlessHlsl.Proofs.Nesting
import BindlessHlsl.Proofs.CheckedScan
import BindlessHlsl.Proofs.SafeRuns
import BindlessHlsl.Proofs.IncludeStack
import BindlessHlsl.Proofs.IncludedRoot
import BindlessHlsl.Proofs.Listing
import BindlessHlsl.Proofs.DeclarationOrder
import BindlessHlsl.Proofs.FailurePlaces
import BindlessHlsl.Proofs.RejectionPlaces
import BindlessHlsl.Proofs.NameMap
import BindlessHlsl.Proofs.InspectionTraversal
import BindlessHlsl.Proofs.ScanMoves
import BindlessHlsl.Proofs.InspectionSteps
import BindlessHlsl.Proofs.GroupAgreement
import BindlessHlsl.Proofs.Comments
import BindlessHlsl.Proofs.AttributeTargets
import BindlessHlsl.Proofs.JsonText
import BindlessHlsl.Proofs.JsonRecords
import BindlessHlsl.Proofs.StructTexts
import BindlessHlsl.Proofs.ConstantsStructs
import BindlessHlsl.Proofs.DefinitionOrder
import BindlessHlsl.Proofs.FileTrees
import BindlessHlsl.Proofs.BuildRuns
import BindlessHlsl.Proofs.BuildIsolation
import BindlessHlsl.Proofs.EditSplits
import BindlessHlsl.Proofs.EditOrder
import BindlessHlsl.Proofs.StructSpans
import BindlessHlsl.Proofs.OrdinaryText
import BindlessHlsl.Proofs.Prototypes
import BindlessHlsl.Proofs.InspectionLocality
import BindlessHlsl.Proofs.PragmaLines
import BindlessHlsl.Proofs.VariantRecords
import BindlessHlsl.Proofs.StructGrammar
import BindlessHlsl.Proofs.VertexAttributes
import BindlessHlsl.Proofs.RecordedRanges
import BindlessHlsl.Proofs.Trivia
import BindlessHlsl.Proofs.SamplerValues
import BindlessHlsl.Proofs.SamplerGrammar
import BindlessHlsl.Proofs.CursorRuns
