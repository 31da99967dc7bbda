import PipelineX.TransitionSystem
import PipelineX.SessionizerTable
import PipelineX.BlockScoring
import PipelineX.Executor
import PipelineX.ExecutorLedger
import PipelineX.ExecutorPhases
import PipelineX.ExecutorAccounting
import PipelineX.ExecutorFailure
import PipelineX.ExecutorOrder
import PipelineX.SessionizerTasks
import PipelineX.SessionizerStop
import PipelineX.BuiltPipeline
import PipelineX.SourceOrder
import PipelineX.InnerGet
import PipelineX.ExecutorBounds
import PipelineX.ExecutorProgress
import PipelineX.CharTable
import PipelineX.SessionizerStall
import PipelineX.Sql
import PipelineX.Uuid
import PipelineX.Repositories
import PipelineX.QueryAgreement
import PipelineX.TraceStore
import PipelineX.Calendar
import PipelineX.Regex
import PipelineX.Csv
import PipelineX.Parsers
import PipelineX.HdfsFormat
import PipelineX.CsvOracle
import PipelineX.TemplateMatcher
import PipelineX.SequenceFile
import PipelineX.SequenceScripts
import PipelineX.Double
import PipelineX.PyFloat
import PipelineX.Bisect
import PipelineX.Detectors
import PipelineX.IqrWindow
import PipelineX.DetectorFaults
import PipelineX.RateLimit
import PipelineX.CsvGrammar
import PipelineX.ParserFaults
import PipelineX.DetectorRuns
import PipelineX.ExactArithmetic
import PipelineX.IqrViews
import PipelineX.IqrExact
import PipelineX.ClampedSum
import PipelineX.CusumDrift
import PipelineX.ZScoreExact
import PipelineX.UnitChange
import PipelineX.DeadDetectors
import PipelineX.IqrNan
import PipelineX.SpecialValues
import PipelineX.AlarmSeverity
import PipelineX.TemplateMatching
import PipelineX.SessionizerJanitor
import PipelineX.SessionizerBounds
import PipelineX.SessionizerEviction
import PipelineX.Counter
import PipelineX.MemoryQueries
import PipelineX.SequenceScoring
import PipelineX.Decorators
import PipelineX.DecoratorStacks
import PipelineX.EventBus
import PipelineX.EventDelivery
import PipelineX.RetryOverflow
import PipelineX.AnomalyCount
import PipelineX.DetectorMarks
import PipelineX.Config
import PipelineX.ConfigOverrides
import PipelineX.BglParser
import PipelineX.BglStamp
import PipelineX.BglFormat
import PipelineX.ParserFactory
import PipelineX.ParserDetection
import PipelineX.LogSources
import PipelineX.SourceReading
import PipelineX.PipedLines
import PipelineX.BglBins
import PipelineX.Metrics
import PipelineX.Listening
import PipelineX.TraceListeners
import PipelineX.SequenceAlarms
import PipelineX.SequenceTraining
import PipelineX.BglScript
import PipelineX.Potential
import PipelineX.ExecutorWork
import PipelineX.PipelineWork
import PipelineX.SessionizerDuty
import PipelineX.CliRun
import PipelineX.Validators
import PipelineX.StatelessStages
import PipelineX.OnlineTraining
import PipelineX.CivilDate
import PipelineX.SyntheticLogs
import PipelineX.Interleaving
import PipelineX.SyntheticStream
import PipelineX.SyntheticFiles
import PipelineX.SyntheticBgl
