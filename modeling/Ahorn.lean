import Ahorn.LoweringCorrect
import Ahorn.EtfaTermination
import Ahorn.EtfaTestCases
import Ahorn.NoMergePaths
import Ahorn.FlatteningPaths
import Ahorn.HierarchyUpdates
import Ahorn.ProjectModules
import Ahorn.CompletedCalls
import Ahorn.DecisionTransformationCorrect
import Ahorn.BasicBlockCalls
import Ahorn.RecursionCheck
import Ahorn.EncoderCorrect
import Ahorn.TimeConversions
import Ahorn.ExpressionGrouping
import Ahorn.AnalyzerStatements
import Ahorn.TacNormalForm
import Ahorn.EnumeratedTypes
import Ahorn.PassedParameters
import Ahorn.FlattenedCallees
import Ahorn.VertexLabels
import Ahorn.ExplorerQueue
import Ahorn.TestCaseFiles
import Ahorn.CoveredHistory
import Ahorn.LoweredVersions
import Ahorn.SummaryApplicability
import Ahorn.NoMergeForks
import Ahorn.UnitContexts
import Ahorn.UnitExecutor
import Ahorn.ReuseMerger
import Ahorn.LiteralPaths
import Ahorn.SummaryLowering
import Ahorn.Worklists
import Ahorn.AcyclicGraphs
import Ahorn.SsaReading
import Ahorn.SsaVisits
import Ahorn.SsaFilling
import Ahorn.VersionedMaps
import Ahorn.PathSummarizer
import Ahorn.SummarizationEngine
import Ahorn.Renumbering
import Ahorn.PathReversioning
import Ahorn.SummarizedUnits
import Ahorn.ChangeTraversal
import Ahorn.OutputDifferences
import Ahorn.SimulatedSuites
