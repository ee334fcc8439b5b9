import Mwr.CodeLib.AvlTree
import Mwr.CodeLib.AvlHeight
import Mwr.CodeLib.BitCount
import Mwr.CodeLib.BitField
import Mwr.CodeLib.Bytes
import Mwr.CodeLib.ByteOrder
import Mwr.CodeLib.CInt
import Mwr.CodeLib.CallStack
import Mwr.CodeLib.Crc
import Mwr.CodeLib.Exec
import Mwr.CodeLib.InputStream
import Mwr.CodeLib.Ledger
import Mwr.CodeLib.LinkedTree
import Mwr.CodeLib.Throwing
import Mwr.CodeLib.Transition
import Mwr.CodeLib.Loop
import Mwr.CodeLib.MapEntries
import Mwr.CodeLib.RetryLoop
import Mwr.CodeLib.Rotation
import Mwr.CodeLib.Memory
import Mwr.CodeLib.Saturation
import Mwr.CodeLib.Substring
import Mwr.CodeLib.TruncDiv
import Mwr.CodeLib.UniqueText
import Mwr.CodeLib.WideMul
import Mwr.Core.Random
import Mwr.Core.Report
import Mwr.Core.Atomics
import Mwr.CodeLib.Linearizable
import Mwr.Core.AtomicOps
import Mwr.CodeLib.CrcErrors
import Mwr.Core.CrcErrors
import Mwr.CodeLib.Digits
import Mwr.CodeLib.SortedInsert
import Mwr.Utils.Modules
import Mwr.Utils.License
import Mwr.CodeLib.SavedValues
import Mwr.Utils.Terminal
import Mwr.Core.BitCount
import Mwr.Core.Bitfields
import Mwr.Core.Bitmap
import Mwr.Core.ByteSwap
import Mwr.Core.Crc
import Mwr.Core.FdIo
import Mwr.Core.FieldLaws
import Mwr.Core.Fits
import Mwr.Core.MulDiv
import Mwr.Core.Udiv
import Mwr.Core.Mul
import Mwr.Core.Rotate
import Mwr.Core.Saturate
import Mwr.Stl.Strings
import Mwr.Stl.Containers
import Mwr.Stl.Numbers
import Mwr.Stl.Replace
import Mwr.Stl.Quoting
import Mwr.Interval.Model
import Mwr.Interval.Repr
import Mwr.Interval.Rebalance
import Mwr.Interval.Insert
import Mwr.Interval.Remove
import Mwr.Interval.Query
import Mwr.Interval.Entries
import Mwr.Interval.World
import Mwr.Interval.Iterate
import Mwr.Interval.Depth
import Mwr.Fdt.Model
import Mwr.Fdt.Encoding
import Mwr.Fdt.Writer
import Mwr.Fdt.Output
import Mwr.Fdt.Decode
import Mwr.Fdt.Reader
import Mwr.Fdt.HostOrder
import Mwr.Fdt.Layout
import Mwr.Fdt.RoundTrip
import Mwr.Fdt.Normal
import Mwr.Fdt.Failures
import Mwr.Fdt.Progress
import Mwr.Fdt.Untrusted
import Mwr.Fdt.FileReader
import Mwr.Fdt.Nesting
import Mwr.Fdt.Handles
import Mwr.Fdt.Drawn
import Mwr.Fdt.Dump
import Mwr.Watchdog.Model
import Mwr.Uimage.Model
import Mwr.Uimage.Format
import Mwr.Watchdog.Deadline
import Mwr.Watchdog.Execution
import Mwr.Watchdog.Shutdown
import Mwr.ServerSocket.Model
import Mwr.ServerSocket.Limit
import Mwr.ServerSocket.Server
import Mwr.ServerSocket.Listen
import Mwr.PagedMemory.Bounds
import Mwr.PagedMemory.Arrays
import Mwr.ServerSocket.Accounts
import Mwr.ServerSocket.Runs
import Mwr.ServerSocket.Descriptors
import Mwr.CodeLib.Framing
import Mwr.ServerSocket.Session
import Mwr.ServerSocket.InOrder
import Mwr.ServerSocket.Ids
import Mwr.ServerSocket.Callbacks
import Mwr.Logging.Model
import Mwr.Logging.Routing
import Mwr.Library.Mopen
import Mwr.Library.Cleanup
import Mwr.Logging.Lines
import Mwr.Logging.Output
import Mwr.Logging.Delivery
import Mwr.Logging.Text
import Mwr.Elf.Model
import Mwr.Elf.Nolibelf
import Mwr.Elf.Libelf
import Mwr.Elf.Padding
import Mwr.Elf.Translate
import Mwr.Elf.Extent
import Mwr.Elf.Image
import Mwr.Elf.Accept
import Mwr.Elf.Encoding
import Mwr.Elf.Symbols
import Mwr.Elf.Agreement
import Mwr.Options.Model
import Mwr.Options.Partition
import Mwr.Options.Grammar
import Mwr.HexFile.Line
import Mwr.HexFile.Ihex
import Mwr.HexFile.IhexLoad
import Mwr.HexFile.IhexAccept
import Mwr.HexFile.Srec
import Mwr.HexFile.SrecLoad
import Mwr.HexFile.SrecAccept
import Mwr.HexFile.Bounds
import Mwr.ClientSocket.Model
import Mwr.ClientSocket.Steps
import Mwr.ClientSocket.Move
import Mwr.ClientSocket.Transfer
import Mwr.ClientSocket.Split
import Mwr.Subprocess.Model
import Mwr.Subprocess.Pipes
import Mwr.Subprocess.Signals
import Mwr.Subprocess.Environment
import Mwr.Subprocess.Inherit
import Mwr.Subprocess.Variables
import Mwr.Subprocess.Reading
import Mwr.Subprocess.CommandLine
import Mwr.Aio.Registry
import Mwr.Aio.Posix
import Mwr.Aio.Win32
import Mwr.Aio.Cancel
import Mwr.Aio.PollSet
import Mwr.Aio.Dispatch
import Mwr.Logging.Backtrace
