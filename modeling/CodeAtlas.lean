import CodeAtlas.Chat.History
import CodeAtlas.Chat.Transcript
import CodeAtlas.Colour
import CodeAtlas.CommandLine.Help
import CodeAtlas.CommandLine.Launcher
import CodeAtlas.CommandLine.MapTool
import CodeAtlas.CommandLine.OutlineTool
import CodeAtlas.CommandLine.Reading
import CodeAtlas.Disk.Change
import CodeAtlas.Disk.Database
import CodeAtlas.Disk.Locate
import CodeAtlas.Disk.Tree
import CodeAtlas.Disk.Walk
import CodeAtlas.Distribution
import CodeAtlas.Error
import CodeAtlas.FileTree
import CodeAtlas.Files.Access
import CodeAtlas.Files.Filter
import CodeAtlas.Files.Important
import CodeAtlas.Files.Kind
import CodeAtlas.Files.Remote
import CodeAtlas.Files.Root
import CodeAtlas.Files.Scratch
import CodeAtlas.Glob.Basic
import CodeAtlas.Glob.Expand
import CodeAtlas.Glob.Select
import CodeAtlas.Grammar.Cursor
import CodeAtlas.Grammar.Expression
import CodeAtlas.Grammar.Literal
import CodeAtlas.Grammar.Match
import CodeAtlas.Grammar.Statement
import CodeAtlas.Grammar.Token
import CodeAtlas.Grammar.Tree
import CodeAtlas.Listing
import CodeAtlas.Main
import CodeAtlas.Map.Generate
import CodeAtlas.Map.Publish
import CodeAtlas.Map.Repository
import CodeAtlas.Moment
import CodeAtlas.Notice
import CodeAtlas.Number.Binary
import CodeAtlas.Number.Whole
import CodeAtlas.Outline.Element
import CodeAtlas.Outline.Extent
import CodeAtlas.Outline.Report
import CodeAtlas.Path
import CodeAtlas.Pattern.Basic
import CodeAtlas.Pattern.Reading
import CodeAtlas.Proofs.Chat.Runs
import CodeAtlas.Proofs.Descent
import CodeAtlas.Proofs.Disk.Alike
import CodeAtlas.Proofs.Disk.Below
import CodeAtlas.Proofs.Disk.Change
import CodeAtlas.Proofs.Disk.Extended
import CodeAtlas.Proofs.Disk.Locate
import CodeAtlas.Proofs.Disk.Names
import CodeAtlas.Proofs.Disk.Opened
import CodeAtlas.Proofs.Disk.Outside
import CodeAtlas.Proofs.Disk.Place
import CodeAtlas.Proofs.Disk.Tree
import CodeAtlas.Proofs.FileTree.Drawing
import CodeAtlas.Proofs.FileTree.Files
import CodeAtlas.Proofs.FileTree.Nodes
import CodeAtlas.Proofs.FileTree.Order
import CodeAtlas.Proofs.Files.Access
import CodeAtlas.Proofs.Files.Expand
import CodeAtlas.Proofs.Files.Forms
import CodeAtlas.Proofs.Files.Important
import CodeAtlas.Proofs.Files.Reach
import CodeAtlas.Proofs.Files.Root
import CodeAtlas.Proofs.Files.Sources
import CodeAtlas.Proofs.Files.Walk
import CodeAtlas.Proofs.Glob
import CodeAtlas.Proofs.Glob.Across
import CodeAtlas.Proofs.Glob.Matches
import CodeAtlas.Proofs.Glob.Select
import CodeAtlas.Proofs.Grammar.Definitions
import CodeAtlas.Proofs.Grammar.Lexemes
import CodeAtlas.Proofs.Grammar.Lines
import CodeAtlas.Proofs.Grammar.Tokens
import CodeAtlas.Proofs.Grammar.Walk
import CodeAtlas.Proofs.Job
import CodeAtlas.Proofs.Listing
import CodeAtlas.Proofs.Map.Generate
import CodeAtlas.Proofs.Map.Limit
import CodeAtlas.Proofs.Map.Order
import CodeAtlas.Proofs.Map.Publish
import CodeAtlas.Proofs.Map.Repeats
import CodeAtlas.Proofs.Map.Repository
import CodeAtlas.Proofs.Map.Symbols
import CodeAtlas.Proofs.Number.Binary
import CodeAtlas.Proofs.Number.Padded
import CodeAtlas.Proofs.Outline.Bindings
import CodeAtlas.Proofs.Outline.NamePattern
import CodeAtlas.Proofs.Outline.Search
import CodeAtlas.Proofs.Outline.Signature
import CodeAtlas.Proofs.Outline.Source
import CodeAtlas.Proofs.Path.Normal
import CodeAtlas.Proofs.Pattern.Plain
import CodeAtlas.Proofs.Pattern.Search
import CodeAtlas.Proofs.Pattern.Spelling
import CodeAtlas.Proofs.Section.BareMaps
import CodeAtlas.Proofs.Section.Calls
import CodeAtlas.Proofs.Section.Decorators
import CodeAtlas.Proofs.Section.Ends
import CodeAtlas.Proofs.Section.Landmark
import CodeAtlas.Proofs.Section.Levels
import CodeAtlas.Proofs.Section.Loads
import CodeAtlas.Proofs.Section.Pack
import CodeAtlas.Proofs.Section.Pass
import CodeAtlas.Proofs.Section.Placed
import CodeAtlas.Proofs.Section.Policies
import CodeAtlas.Proofs.Section.Ranges
import CodeAtlas.Proofs.Section.Recut
import CodeAtlas.Proofs.Section.Split
import CodeAtlas.Proofs.Sorting
import CodeAtlas.Proofs.Spinner
import CodeAtlas.Proofs.Tag.Answer
import CodeAtlas.Proofs.Tag.Cache
import CodeAtlas.Proofs.Tag.Extract
import CodeAtlas.Proofs.Tag.Failure
import CodeAtlas.Proofs.Tag.Line
import CodeAtlas.Proofs.Tag.Rank
import CodeAtlas.Proofs.Tag.Session
import CodeAtlas.Proofs.Tag.Steady
import CodeAtlas.Proofs.Tag.SymbolMap
import CodeAtlas.Proofs.Tag.Truncation
import CodeAtlas.Proofs.Text.Append
import CodeAtlas.Proofs.Text.Fields
import CodeAtlas.Proofs.Text.Lines
import CodeAtlas.Proofs.Text.Physical
import CodeAtlas.Proofs.Text.Utf8
import CodeAtlas.Proofs.Tokens.Chunk
import CodeAtlas.Proofs.Tokens.Room
import CodeAtlas.Proofs.Tokens.Weight
import CodeAtlas.Section.Boundary
import CodeAtlas.Section.Braces
import CodeAtlas.Section.Landmark
import CodeAtlas.Section.Pack
import CodeAtlas.Section.Split
import CodeAtlas.Shell.Command
import CodeAtlas.Shell.Run
import CodeAtlas.Sorting
import CodeAtlas.Spinner
import CodeAtlas.Tag.Basic
import CodeAtlas.Tag.Cache
import CodeAtlas.Tag.Extract
import CodeAtlas.Tag.Queries
import CodeAtlas.Tag.QueryInstall
import CodeAtlas.Tag.Rank
import CodeAtlas.Tag.SymbolMap
import CodeAtlas.Text.Blank
import CodeAtlas.Text.Case
import CodeAtlas.Text.Draft
import CodeAtlas.Text.Fields
import CodeAtlas.Text.Identifier
import CodeAtlas.Text.Lines
import CodeAtlas.Text.Plain
import CodeAtlas.Text.Printable
import CodeAtlas.Text.Quoted
import CodeAtlas.Text.Ranges
import CodeAtlas.Text.Utf8
import CodeAtlas.Text.Word
import CodeAtlas.Tokens.Chunk
import CodeAtlas.Tokens.Counter
import CodeAtlas.Tokens.Display
import CodeAtlas.Value.Basic
import CodeAtlas.Value.Display
import CodeAtlas.Value.Json
import CodeAtlas.Value.Members
import CodeAtlas.Voice
import CodeAtlas.Workspace
import CodeAtlas.Proofs.Pattern.Groups
import CodeAtlas.Proofs.Tag.OnePerLine
import CodeAtlas.Proofs.Section.Braces
