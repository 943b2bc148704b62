import FheSql.Lib.ByteText
import FheSql.Lib.Throwing
import FheSql.Lib.Traced
import FheSql.Lib.TwoRuns
import FheSql.Lib.Pointwise
import FheSql.Lib.FlatTree
import FheSql.Lib.BalancedFold
import FheSql.Lib.IndicatorPoly
import FheSql.Lib.BinaryCodec
import FheSql.Lib.ByteStream
import FheSql.Lib.Connection
import FheSql.Lib.Progress
import FheSql.Lib.Service
import FheSql.Lib.StableSort
import FheSql.Catalog
import FheSql.Ast
import FheSql.Parser
import FheSql.Semantic
import FheSql.Planner
import FheSql.Proto1
import FheSql.QueryPackage
import FheSql.QueryEncryptor
import FheSql.QueryValidator
import FheSql.ResultBatch
import FheSql.QueryExecutor
import FheSql.ClientPipeline
import FheSql.SlotSemantics
import FheSql.PlainProto1
import FheSql.AnalyzedStatement
import FheSql.StatementPlan
import FheSql.PredicateTree
import FheSql.ValidatedPackage
import FheSql.ValidatorTermination
import FheSql.PredicateExpression
import FheSql.CombineTree
import FheSql.ValidatedPredicates
import FheSql.PredicateSharing
import FheSql.PredicateCode
import FheSql.PredicateCompiler
import FheSql.PredicateFlattening
import FheSql.LiteralConfidentiality
import FheSql.PipelineAcceptance
import FheSql.TypeSoundness
import FheSql.NoiseBudget
import FheSql.LiteralRange
import FheSql.OverloadAgreement
import FheSql.PlanCoverage
import FheSql.NameResolution
import FheSql.AnalysisErrors
import FheSql.ScanList
import FheSql.JoinLoop
import FheSql.HoistedWhere
import FheSql.ColumnResolution
import FheSql.ProjectedNames
import FheSql.StorageAccess
import FheSql.ChunkOrigin
import FheSql.SqlSemantics
import FheSql.ResultDecoder
import FheSql.DecodeBounds
import FheSql.StoredRows
import FheSql.PredicateMeaning
import FheSql.DecodedRows
import FheSql.RowReconstruction
import FheSql.PredicateExecution
import FheSql.ScanCorrectness
import FheSql.JoinCorrectness
import FheSql.ResultOrdering
import FheSql.ResultPrinter
import FheSql.PrintedRows
import FheSql.Serialization
import FheSql.Transport
import FheSql.ServerHandler
import FheSql.AccessPattern
import FheSql.TransportFrames
import FheSql.TransportDelivery
import FheSql.ReplyShape
import FheSql.QueryService
import FheSql.TrafficShape
import FheSql.ServiceOrder
import FheSql.ClientQuery
import FheSql.JoinQuery
import FheSql.SqlTokens
import FheSql.SqlGrammar
import FheSql.SqlWords
import FheSql.Readings
import FheSql.StatementLiterals
import FheSql.ParserCompleteness
import FheSql.StatementCompleteness
import FheSql.DocumentedGrammar
import FheSql.ParserSoundness
import FheSql.ParserTermination
import FheSql.IntegerLiterals
import FheSql.KeywordCase
import FheSql.DroppedTokens
import FheSql.PrintedStatement
import FheSql.PrintParse
import FheSql.AlteredIntegers
import FheSql.StringCodes
import FheSql.ClientPrompt
import FheSql.ClientSession
import FheSql.SessionEnd
