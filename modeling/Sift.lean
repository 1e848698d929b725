import Sift.Main
import Sift.Config.Printer
import Sift.Proofs.Spelling
import Sift.Proofs.Narrowing
import Sift.Proofs.Authorization
import Sift.Proofs.Application
import Sift.Proofs.Noninterference
import Sift.Proofs.NestingLimit
import Sift.Proofs.Strictness
import Sift.Proofs.OuterGroup
import Sift.Proofs.Placeholders
import Sift.Proofs.ErrorCauses
import Sift.Proofs.CheckedParsing
import Sift.Proofs.JsonForm
import Sift.Proofs.NumericEquality
import Sift.Proofs.RelativeDates
import Sift.Proofs.WrittenNumbers
import Sift.Proofs.SavedConfigs
import Sift.Proofs.QuotedNames
import Sift.Proofs.NumericText
import Sift.Proofs.AbsoluteDates
import Sift.Proofs.Outline
import Sift.Proofs.ConfiguredRegistries
import Sift.Proofs.PrintedDates
import Sift.Proofs.RegistryRuns
