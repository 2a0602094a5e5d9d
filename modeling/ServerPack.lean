import ServerPack.Archive.Name
import ServerPack.Archive.Pack
import ServerPack.Archive.Zip
import ServerPack.Build.Bundled
import ServerPack.Build.Layout
import ServerPack.Build.Run
import ServerPack.Build.Selection
import ServerPack.Calendar
import ServerPack.CommandLine.Arguments
import ServerPack.CommandLine.Program
import ServerPack.Dictionary
import ServerPack.Failure
import ServerPack.FileSystem.Change
import ServerPack.FileSystem.Path
import ServerPack.FileSystem.Resolve
import ServerPack.FileSystem.Tree
import ServerPack.Files
import ServerPack.Json.Fault
import ServerPack.Json.Lexeme
import ServerPack.Json.Number
import ServerPack.Json.Reader
import ServerPack.Json.Value
import ServerPack.Log
import ServerPack.Main
import ServerPack.Placeholder.Basic
import ServerPack.Placeholder.Occurrence
import ServerPack.Placeholder.Substitution
import ServerPack.Proofs.Action
import ServerPack.Proofs.Archive.Entries
import ServerPack.Proofs.Archive.NameOrder
import ServerPack.Proofs.Archive.Names
import ServerPack.Proofs.Archive.Outcomes
import ServerPack.Proofs.Build.BackupHistory
import ServerPack.Proofs.Build.Backups
import ServerPack.Proofs.Build.Confinement
import ServerPack.Proofs.Build.Course
import ServerPack.Proofs.Build.DrawFreeSteps
import ServerPack.Proofs.Build.KeptOutput
import ServerPack.Proofs.Build.LogIndependence
import ServerPack.Proofs.Build.OutputRenewal
import ServerPack.Proofs.Build.Repetition
import ServerPack.Proofs.Build.Result
import ServerPack.Proofs.Build.Secrets
import ServerPack.Proofs.Build.SharedActions
import ServerPack.Proofs.Build.SharedRebuild
import ServerPack.Proofs.Build.SharedStart
import ServerPack.Proofs.Build.Skeleton
import ServerPack.Proofs.Build.Stages
import ServerPack.Proofs.Build.WriteModes
import ServerPack.Proofs.Calendar
import ServerPack.Proofs.FileSystem.Agreement
import ServerPack.Proofs.FileSystem.Ancestors
import ServerPack.Proofs.FileSystem.BaseDirectory
import ServerPack.Proofs.FileSystem.Creation
import ServerPack.Proofs.FileSystem.DirectoryMerge
import ServerPack.Proofs.FileSystem.Follows
import ServerPack.Proofs.FileSystem.Growth
import ServerPack.Proofs.FileSystem.LinkFree
import ServerPack.Proofs.FileSystem.Overwrite
import ServerPack.Proofs.FileSystem.PathNames
import ServerPack.Proofs.FileSystem.TreeCopy
import ServerPack.Proofs.FileSystem.TreeOverlay
import ServerPack.Proofs.Json.KeyOrder
import ServerPack.Proofs.Json.NumberGrammar
import ServerPack.Proofs.Json.NumberSpelling
import ServerPack.Proofs.Json.ReaderSteps
import ServerPack.Proofs.Json.StringCount
import ServerPack.Proofs.Json.StringPieces
import ServerPack.Proofs.Json.Tokens
import ServerPack.Proofs.Json.WrittenValues
import ServerPack.Proofs.Placeholder.ByPath
import ServerPack.Proofs.Placeholder.FileSubstitution
import ServerPack.Proofs.Placeholder.FilledFiles
import ServerPack.Proofs.Placeholder.FramedString
import ServerPack.Proofs.Placeholder.Literals
import ServerPack.Proofs.Placeholder.Occurrences
import ServerPack.Proofs.Placeholder.Protocol
import ServerPack.Proofs.Placeholder.SeparatedBody
import ServerPack.Proofs.Placeholder.SeparatedSubstitution
import ServerPack.Proofs.Placeholder.SimultaneousSubstitution
import ServerPack.Proofs.Selection.Flat
import ServerPack.Proofs.Selection.Recursive
import ServerPack.Proofs.Selection.Selected
import ServerPack.Proofs.Selection.Walk
import ServerPack.Proofs.Settings.ChainedReferences
import ServerPack.Proofs.Settings.DocumentShape
import ServerPack.Proofs.Settings.InMemoryExpansion
import ServerPack.Proofs.Settings.Lookup
import ServerPack.Proofs.Settings.LookupComposition
import ServerPack.Proofs.Settings.ResolvedTree
import ServerPack.Proofs.Settings.RetainedNumbers
import ServerPack.Proofs.Settings.SecretPaths
import ServerPack.Proofs.Settings.SelfReferences
import ServerPack.Proofs.Settings.StringBorders
import ServerPack.Proofs.Settings.WorkingCopy
import ServerPack.Proofs.Text.Utf8
import ServerPack.Secret
import ServerPack.Session
import ServerPack.Settings.Document
import ServerPack.Settings.Expansion
import ServerPack.Settings.Section
import ServerPack.Settings.Value
import ServerPack.Text.Basic
import ServerPack.Text.ControlSequence
import ServerPack.Text.Printable
import ServerPack.Text.Quoted
import ServerPack.Text.Replace
import ServerPack.Text.Utf8
