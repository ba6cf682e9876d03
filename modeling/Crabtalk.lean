import Crabtalk.Basis.LittleEndian
import Crabtalk.Basis.Frames
import Crabtalk.Basis.WriteBehind
import Crabtalk.Basis.ColumnMap
import Crabtalk.Basis.Reachable
import Crabtalk.Basis.Locks
import Crabtalk.Basis.Twin
import Crabtalk.Basis.Mirror
import Crabtalk.Basis.Terminated
import Crabtalk.Basis.Lines
import Crabtalk.Basis.Fields
import Crabtalk.Basis.FileTree
import Crabtalk.Basis.Outline
import Crabtalk.Backend.Names
import Crabtalk.Backend.Files
import Crabtalk.Backend.Sessions
import Crabtalk.Backend.Plain
import Crabtalk.Backend.Loaded
import Crabtalk.Backend.Work
import Crabtalk.Backend.Isolated
import Crabtalk.Backend.Window
import Crabtalk.Backend.Torn
import Crabtalk.Basis.Wp
import Crabtalk.Basis.Effect
import Crabtalk.Basis.Footprint
import Crabtalk.Basis.Rely
import Crabtalk.Basis.Spans
import Crabtalk.Basis.Cut
import Crabtalk.Basis.FileSystem
import Crabtalk.Basis.Decimal
import Crabtalk.Basis.Binary64
import Crabtalk.Basis.Scores
import Crabtalk.Crabdb.Format
import Crabtalk.Crabdb.File
import Crabtalk.Crabdb.Db
import Crabtalk.Crabdb.Image
import Crabtalk.Crabdb.Stored
import Crabtalk.Crabdb.Spec
import Crabtalk.Crabdb.Refine
import Crabtalk.Crabdb.Runs
import Crabtalk.Crabdb.Crashes
import Crabtalk.Crabdb.Failures
import Crabtalk.Crabdb.Pieces
import Crabtalk.Crabdb.Dead
import Crabtalk.Crabdb.Fallback
import Crabtalk.Store.Kv
import Crabtalk.Basis.Codes
import Crabtalk.Basis.Simulation
import Crabtalk.Basis.Listing
import Crabtalk.Basis.Service
import Crabtalk.Backend.Folder
import Crabtalk.Backend.Records
import Crabtalk.Crabdb.Backend
import Crabtalk.Store.Text
import Crabtalk.Store.History
import Crabtalk.Store.Sessions
import Crabtalk.Store.Plain
import Crabtalk.Store.Keys
import Crabtalk.Store.Frame
import Crabtalk.Store.Corpus
import Crabtalk.Store.Isolation
import Crabtalk.Store.Reach
import Crabtalk.Store.Messages
import Crabtalk.Store.Growth
import Crabtalk.Store.Views
import Crabtalk.Store.Beside
import Crabtalk.Store.Spared
import Crabtalk.Store.Opening
import Crabtalk.Store.Roster
import Crabtalk.Store.Purge
import Crabtalk.Store.Agents
import Crabtalk.Store.Search
import Crabtalk.Store.Memory
import Crabtalk.Store.Hits
import Crabtalk.Store.Ranking
import Crabtalk.Store.Stems
import Crabtalk.Store.Starred
import Crabtalk.Backend.Search
import Crabtalk.Backend.Memory
import Crabtalk.Store.Compaction
import Crabtalk.Store.Partial
import Crabtalk.System.Berm
import Crabtalk.System.Images
import Crabtalk.System.Reload
import Crabtalk.System.Digest
import Crabtalk.System.Mcp
import Crabtalk.System.McpBridge
import Crabtalk.System.McpReaper
import Crabtalk.System.McpLocks
import Crabtalk.System.McpHooks
import Crabtalk.System.Fingerprint
import Crabtalk.System.Stdio
import Crabtalk.System.MergePatch
import Crabtalk.System.Connection
import Crabtalk.System.Framing
import Crabtalk.Tui.Kept
import Crabtalk.System.Events
import Crabtalk.System.Root
import Crabtalk.System.Registry
import Crabtalk.System.Scoped
import Crabtalk.Store.Deletion
import Crabtalk.Crabdb.Sessions
import Crabtalk.Store.Fresh
import Crabtalk.Store.Written
import Crabtalk.Store.Blind
import Crabtalk.Store.Isolated
import Crabtalk.Store.Intrusion
import Crabtalk.Runtime.Session
import Crabtalk.Runtime.Outcomes
import Crabtalk.Runtime.Batch
import Crabtalk.Runtime.Synced
import Crabtalk.Runtime.World
import Crabtalk.Runtime.Deleted
import Crabtalk.Runtime.Copies
import Crabtalk.Runtime.Live
import Crabtalk.Runtime.Evict
import Crabtalk.Runtime.Conversations
import Crabtalk.Runtime.Cancel
import Crabtalk.Runtime.Agent
import Crabtalk.Runtime.Pairing
import Crabtalk.Runtime.Grammar
import Crabtalk.Runtime.Guests
import Crabtalk.Runtime.Rewind
import Crabtalk.Runtime.Sender
import Crabtalk.Runtime.Shown
import Crabtalk.Runtime.Archive
import Crabtalk.Runtime.Turns
import Crabtalk.Skill.Md
import Crabtalk.Skill.LineEndings
import Crabtalk.Search.Tracking
import Crabtalk.Store.Recall
import Crabtalk.Backend.Printed
import Crabtalk.Backend.Agents
import Crabtalk.Backend.Lodged
import Crabtalk.Backend.Registered
import Crabtalk.Backend.Alike
import Crabtalk.Store.Skills
import Crabtalk.Backend.Skills
import Crabtalk.Search.Agreement
import Crabtalk.Skill.Shadowing
import Crabtalk.Crabdb.Prefixes
import Crabtalk.Tui.History
import Crabtalk.Basis.Occurrences
import Crabtalk.System.Edit
import Crabtalk.Basis.Caret
import Crabtalk.Tui.Input
import Crabtalk.Tui.Editor
import Crabtalk.Tui.Keys
import Crabtalk.Tui.Typed
import Crabtalk.Tui.Item
import Crabtalk.Tui.Settled
