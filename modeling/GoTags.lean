import GoTags.Main
import GoTags.Tag.Section
import GoTags.Proofs.Decimal
import GoTags.Proofs.Framing
import GoTags.Proofs.Blocks
import GoTags.Proofs.Cuts
import GoTags.Proofs.Cursor
import GoTags.Proofs.Canonical
import GoTags.Proofs.Lines
import GoTags.Proofs.Resolvers
import GoTags.Proofs.Caching
import GoTags.Proofs.Indexing
import GoTags.Proofs.Runs
import GoTags.Proofs.Derivation
import GoTags.Proofs.GoTokens
import GoTags.Proofs.GoItems
import GoTags.Proofs.Tagging
import GoTags.Proofs.Histories
import GoTags.Proofs.Incremental
import GoTags.Proofs.Renaming
import GoTags.Proofs.GoValues
import GoTags.Proofs.GoNesting
import GoTags.Proofs.GoPositions
import GoTags.Proofs.Building
import GoTags.Proofs.RecordLines
import GoTags.Proofs.Pages
import GoTags.Proofs.WholeLines
import GoTags.Proofs.Defects
import GoTags.Proofs.Expansion
import GoTags.Proofs.SourceTypes
import GoTags.Proofs.Etags
import GoTags.Proofs.Summaries
import GoTags.Proofs.TomlTables
import GoTags.Proofs.ConfigFiles
import GoTags.Proofs.Coordinates
