import StrongMotion.FileSystem.Tree
import StrongMotion.Main
import StrongMotion.Record.Source
import StrongMotion.Proofs.HeaderParts
import StrongMotion.Proofs.HeaderReading
import StrongMotion.Proofs.Lines
import StrongMotion.Proofs.HeaderBlock
import StrongMotion.Proofs.RecordReading
import StrongMotion.Proofs.ReadingFaults
import StrongMotion.Proofs.Characters
import StrongMotion.Proofs.EncodingRules
import StrongMotion.Proofs.AsciiText
import StrongMotion.Proofs.FormatCheck
import StrongMotion.Proofs.BatchRuns
import StrongMotion.Proofs.HeaderTimes
import StrongMotion.Proofs.FieldValues
import StrongMotion.Proofs.RecordInvariants
import StrongMotion.Proofs.Utf8Text
import StrongMotion.Proofs.Charsets
import StrongMotion.Proofs.FieldTexts
import StrongMotion.Proofs.Latin1Text
import StrongMotion.Proofs.WideText
import StrongMotion.Proofs.ChangedLines
import StrongMotion.Proofs.LineEndings
import StrongMotion.Proofs.Latin1Faults
import StrongMotion.Proofs.Calendar
import StrongMotion.Proofs.CheckedTime
import StrongMotion.Proofs.WallClocks
import StrongMotion.Proofs.HeaderOrder
import StrongMotion.Proofs.HeaderClocks
import StrongMotion.Proofs.TimeStamps
import StrongMotion.Proofs.ArchiveNames
import StrongMotion.Proofs.ArchivePaths
import StrongMotion.Proofs.Sniffing
import StrongMotion.Proofs.SampleFaults
import StrongMotion.Proofs.TimeGrammar
import StrongMotion.Proofs.Iso8601
import StrongMotion.Proofs.HeaderStamps
import StrongMotion.Proofs.FloatParts
import StrongMotion.Proofs.Magnitudes
import StrongMotion.Proofs.FloatNumerals
import StrongMotion.Proofs.Calibrations
import StrongMotion.Proofs.NearestFloats
import StrongMotion.Proofs.NearestNumerals
import StrongMotion.Proofs.WrittenDecimals
import StrongMotion.Proofs.WrittenNumbers
import StrongMotion.Proofs.ReportLines
import StrongMotion.Proofs.HeaderLabels
import StrongMotion.Proofs.BatchReports
import StrongMotion.Proofs.ArgumentGroups
import StrongMotion.Proofs.WholeNumbers
import StrongMotion.Proofs.ArgumentOrder
import StrongMotion.Proofs.Extensions
import StrongMotion.Proofs.WordRuns
import StrongMotion.Proofs.TrimmedTexts
import StrongMotion.Proofs.ChannelCodes
import StrongMotion.Proofs.FailureLogs
