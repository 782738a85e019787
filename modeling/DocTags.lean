import DocTags.Main
import DocTags.Proofs.Caching
import DocTags.Proofs.FileRuns
import DocTags.Proofs.IndexedNames
import DocTags.Proofs.InputModes
import DocTags.Proofs.JsonReport
import DocTags.Proofs.LineEndingReading
import DocTags.Proofs.PlainReport
import DocTags.Proofs.ListedTargets
import DocTags.Proofs.PathOrder
import DocTags.Proofs.SelectedPaths
import DocTags.Proofs.ClosingDelimiter
import DocTags.Proofs.FailureReasons
import DocTags.Proofs.FileUnion
import DocTags.Proofs.DeclarationPaths
import DocTags.Proofs.JoinedComments
import DocTags.Proofs.NestingLimit
import DocTags.Proofs.JoinedSources
import DocTags.Proofs.CommentLines
import DocTags.Proofs.CommentOwners
import DocTags.Proofs.CrossedLines
import DocTags.Proofs.StoredComments
import DocTags.Proofs.ClassBodies
import DocTags.Proofs.DeclarationItems
import DocTags.Proofs.IndependentLines
import DocTags.Proofs.IndexOrder
import DocTags.Proofs.ReportLines
import DocTags.Proofs.CacheContents
import DocTags.Proofs.ReportedParameters
