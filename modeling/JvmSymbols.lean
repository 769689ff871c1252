import JvmSymbols.Bytes.Cursor
import JvmSymbols.Bytes.Hex
import JvmSymbols.Text.Blank
import JvmSymbols.Text.CodePage437
import JvmSymbols.Text.ModifiedUtf8
import JvmSymbols.Text.Utf8
import JvmSymbols.ClassFile.Descriptor
import JvmSymbols.Symbol.Render
import JvmSymbols.Selection.Filter
import JvmSymbols.Selection.RelativeKey
import JvmSymbols.FileTree.Instance
import JvmSymbols.Archive.Crc32
import JvmSymbols.Archive.Deflate.Inflate
import JvmSymbols.Archive.Basic
import JvmSymbols.Digest.Sink
import JvmSymbols.FileSystem.Buffer
import JvmSymbols.Source.Archive
import JvmSymbols.Source.Directory
import JvmSymbols.Source.Memory
import JvmSymbols.Dump.Tree
import JvmSymbols.CommandLine.Program
import JvmSymbols.FileTree.Build
import JvmSymbols.FileTree.World
import JvmSymbols.Main
import JvmSymbols.ClassFile.Contents
import JvmSymbols.Dump.OneByOne
import JvmSymbols.Proofs.ClassFile.Grammar
import JvmSymbols.Proofs.Dump.Batches
import JvmSymbols.Proofs.Dump.Publishing
import JvmSymbols.Text.JsonReader
import JvmSymbols.Symbol.Reading
import JvmSymbols.Proofs.ClassFile.Truncation
import JvmSymbols.Proofs.Text.Utf8Inverse
import JvmSymbols.Proofs.Text.JsonStrings
import JvmSymbols.Proofs.Symbol.Lines
import JvmSymbols.Proofs.Symbol.JsonLines
import JvmSymbols.Proofs.Dump.LineCount
import JvmSymbols.Proofs.Symbol.TextLines
import JvmSymbols.Proofs.FileSystem.Descending
import JvmSymbols.Proofs.Selection.Spelling
import JvmSymbols.Proofs.Dump.Agreeing
import JvmSymbols.Proofs.FileTree.Untouched
import JvmSymbols.Proofs.Source.Listings
import JvmSymbols.Dump.AnyOrder
import JvmSymbols.Proofs.Dump.SameFiles
import JvmSymbols.Proofs.FileTree.Below
import JvmSymbols.Proofs.Source.NamedFiles
import JvmSymbols.Proofs.Source.SameKeys
import JvmSymbols.Proofs.FileTree.Reaching
import JvmSymbols.Proofs.Twins
import JvmSymbols.Proofs.Dump.Policies
import JvmSymbols.Proofs.Dump.Leftovers
import JvmSymbols.Proofs.Dump.Confinement
import JvmSymbols.Proofs.FileTree.Linkless
import JvmSymbols.Proofs.Dump.Repeating
import JvmSymbols.Proofs.Dump.RootListing
import JvmSymbols.Proofs.Dump.Relisting
import JvmSymbols.Proofs.Dump.Idempotence
import JvmSymbols.Proofs.Text.Utf16Inverse
import JvmSymbols.Proofs.Text.ModifiedUtf8Inverse
import JvmSymbols.Proofs.Text.BrokenBytes
import JvmSymbols.Proofs.Dump.Noting
import JvmSymbols.Proofs.Dump.FailedNames
import JvmSymbols.Proofs.Archive.DeclaredSizes
import JvmSymbols.Proofs.Dump.ArchiveCrashes
import JvmSymbols.Proofs.ClassFile.PoolLookups
import JvmSymbols.Proofs.Dump.ReadOrder
import JvmSymbols.Proofs.Source.ArchiveListing
import JvmSymbols.Proofs.Source.DirectoryListing
import JvmSymbols.Proofs.CommandLine.BareRoots
import JvmSymbols.Proofs.Selection.Prefixes
import JvmSymbols.Proofs.Selection.CanonicalForm
import JvmSymbols.Proofs.Selection.RelativeKeys
import JvmSymbols.Proofs.Symbol.HashedLines
import JvmSymbols.Proofs.ClassFile.Reads
