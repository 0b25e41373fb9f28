import SdeSystems.Lib.Run
import SdeSystems.Lib.Ring
import SdeSystems.Lib.Bytes
import SdeSystems.Lib.SearchTree
import SdeSystems.Lib.TreeEdit
import SdeSystems.Lib.Loop
import SdeSystems.Lib.SlotList
import SdeSystems.Lib.Lru
import SdeSystems.Lib.Count
import SdeSystems.Lib.Ledger
import SdeSystems.Lib.Residues
import SdeSystems.Lib.For
import SdeSystems.Lib.Lineage
import SdeSystems.Lib.Simulation
import SdeSystems.Lib.Journal
import SdeSystems.Pool.Machine
import SdeSystems.Pool.Invariant
import SdeSystems.Pool.Accounting
import SdeSystems.Pool.Wakeups
import SdeSystems.Pool.Destroy
import SdeSystems.Bst.Machine
import SdeSystems.Bst.Invariant
import SdeSystems.Bst.Stable
import SdeSystems.Bst.Steps
import SdeSystems.Bst.Spec
import SdeSystems.Bst.Edits
import SdeSystems.Bst.Program
import SdeSystems.Bst.LockSafety
import SdeSystems.Bst.Sequential
import SdeSystems.Bst.Deadlock
import SdeSystems.Bst.Serializable
import SdeSystems.Heap.Machine
import SdeSystems.Heap.Blocks
import SdeSystems.Heap.Alloc
import SdeSystems.Heap.Free
import SdeSystems.Heap.Invariant
import SdeSystems.Heap.User
import SdeSystems.Heap.BestFit
import SdeSystems.Heap.Confluence
import SdeSystems.Heap.DoubleFree
import SdeSystems.Csim.Machine
import SdeSystems.Csim.Lru
import SdeSystems.Csim.Inclusion
import SdeSystems.Puzzles.Sudoku
import SdeSystems.Puzzles.MagicSquare
import SdeSystems.Gemm.Blocked
import SdeSystems.Wmap.Memory
import SdeSystems.Wmap.Files
import SdeSystems.Wmap.Regions
import SdeSystems.Wmap.Kernel
import SdeSystems.Wmap.Process
import SdeSystems.Wmap.Table
import SdeSystems.Wmap.Edits
import SdeSystems.Wmap.PageLoops
import SdeSystems.Wmap.Calls
import SdeSystems.Wmap.Shrink
import SdeSystems.Wmap.CopyMaps
import SdeSystems.Wmap.Forks
import SdeSystems.Wmap.WellFormed
import SdeSystems.Wmap.Placement
import SdeSystems.Wmap.ExitUnmap
import SdeSystems.Wmap.Reject
import SdeSystems.Wmap.FailLate
import SdeSystems.Wmap.Agree
import SdeSystems.Wmap.PartialUnmap
import SdeSystems.Wmap.Loaded
import SdeSystems.Wmap.ForkLoaded
import SdeSystems.Wmap.Counted
import SdeSystems.Wmap.Piecewise
import SdeSystems.Wmap.Sharers
import SdeSystems.Wmap.Owned
import SdeSystems.Wmap.Accounts
import SdeSystems.Wmap.Isolation
import SdeSystems.Wmap.ForkFails
import SdeSystems.Wmap.ForkCopies
import SdeSystems.Wmap.Inside
import SdeSystems.Wmap.Undo
import SdeSystems.Wmap.WriteBack
import SdeSystems.Wmap.Views
import SdeSystems.Wmap.Persist
import SdeSystems.Wmap.ChildLife
import SdeSystems.Wmap.SharedPages
import SdeSystems.Wmap.HandedDown
import SdeSystems.Wmap.ForkTree
import SdeSystems.Wmap.Exec
import SdeSystems.Wmap.ExecFrees
import SdeSystems.Wmap.ExecRegions
import SdeSystems.Wmap.Pieces
import SdeSystems.Wmap.Offsets
import SdeSystems.Disk.Volume
import SdeSystems.Disk.Mapped
import SdeSystems.Disk.Bytewise
import SdeSystems.Disk.Space
import SdeSystems.Disk.Whole
import SdeSystems.Disk.Pieces
import SdeSystems.Disk.Contents
import SdeSystems.Disk.Truncate
import SdeSystems.Disk.Machine
import SdeSystems.Disk.Accounts
import SdeSystems.Disk.Turns
import SdeSystems.Disk.Refines
import SdeSystems.Disk.Alone
import SdeSystems.Log.Machine
import SdeSystems.Log.Space
import SdeSystems.Log.Recovery
import SdeSystems.Log.Buffers
import SdeSystems.Log.Runs
import SdeSystems.Log.Atomic
import SdeSystems.Log.Progress
import SdeSystems.Log.Room
import SdeSystems.Names.Directory
import SdeSystems.Names.Map
import SdeSystems.Names.Path
import SdeSystems.Lib.Programs
import SdeSystems.Inodes.Machine
import SdeSystems.Inodes.Calls
import SdeSystems.Inodes.Links
import SdeSystems.Inodes.Handles
import SdeSystems.Inodes.Tokens
import SdeSystems.Inodes.Fits
import SdeSystems.Inodes.Rules
import SdeSystems.Inodes.Outlines
import SdeSystems.Inodes.Rest
import SdeSystems.Inodes.Safety
