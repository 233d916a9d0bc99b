import URoot.Lib.Codec
import URoot.Lib.Split
import URoot.Lib.Runes
import URoot.Lib.Fields
import URoot.Lib.Filepath
import URoot.Lib.CleanPath
import URoot.Lib.RelPath
import URoot.Lib.Firsts
import URoot.Lib.Io
import URoot.Lib.FileTree
import URoot.Lib.Fuel
import URoot.Lib.Crc32
import URoot.Lib.Device
import URoot.Lib.Reader
import URoot.Lib.Bufio
import URoot.Lib.Lines
import URoot.Lib.Scanner
import URoot.Lib.Runs
import URoot.Lib.Pipes
import URoot.Lib.Gather
import URoot.Lib.Merge
import URoot.Lib.Search
import URoot.Lib.Closure
import URoot.Lib.Tables
import URoot.Lib.Digits
import URoot.Lib.Json
import URoot.Lib.Strconv
import URoot.Lib.Calendar
import URoot.Cpio.Newc
import URoot.Cpio.RecordBytes
import URoot.Cpio.ReadInversion
import URoot.Cpio.ReadOutcome
import URoot.Cpio.Parseable
import URoot.Cpio.Archive
import URoot.Cpio.Progress
import URoot.Cpio.RoundTrip
import URoot.Cpio.Concat
import URoot.Cpio.Truncation
import URoot.Cpio.FsUnix
import URoot.Cpio.Renumbering
import URoot.Cpio.Emitted
import URoot.Cpio.Retry
import URoot.Cpio.HardLinks
import URoot.Cpio.Reproducible
import URoot.Cpio.DeviceNumbers
import URoot.Cpio.CreateFile
import URoot.Cpio.Extract
import URoot.Cpio.Transfer
import URoot.Ramfs.Initramfs
import URoot.Ramfs.Walk
import URoot.Ramfs.ParentsFirst
import URoot.Ramfs.Repeat
import URoot.Ramfs.WholeTree
import URoot.SwitchRoot.LittleDoctor
import URoot.SwitchRoot.OldRoot
import URoot.Vboot
import URoot.Gpt.Table
import URoot.Gpt.Layout
import URoot.Gpt.RoundTrip
import URoot.Gpt.Corruption
import URoot.Gpt.Rebuilt
import URoot.Gpt.Rewrite
import URoot.Gpt.KeptApart
import URoot.Fmap
import URoot.Fmap.Signature
import URoot.Fmap.Areas
import URoot.Fmap.Names
import URoot.Archive.Vtoc
import URoot.Archive.Alignment
import URoot.Archive.Build
import URoot.Bb.Rewrite
import URoot.Bb.InitKept
import URoot.Cp.Copy
import URoot.Cp.Moves
import URoot.Cp.Invariant
import URoot.Cp.Reachable
import URoot.Cp.Exact
import URoot.Cp.Leftover
import URoot.Cp.Main
import URoot.Cp.ExitStatus
import URoot.Dd.Copy
import URoot.Dd.Sequential
import URoot.Dd.Moves
import URoot.Dd.Invariant
import URoot.Dd.Exact
import URoot.Dd.Deadlock
import URoot.Dd.Complete
import URoot.Dd.Window
import URoot.Dd.Section
import URoot.Dd.Convert
import URoot.Rush.Parse
import URoot.Rush.Main
import URoot.Rush.Lists
import URoot.Rush.Builtin
import URoot.Rush.Scan
import URoot.Rush.Steps
import URoot.Rush.Terminates
import URoot.Rush.Quoting
import URoot.Ed.Text
import URoot.Ed.Index
import URoot.Ed.Command
import URoot.Ed.Unsaved
import URoot.Ed.Ranges
import URoot.Ed.Reload
import URoot.Ed.Crashes
import URoot.Grep.Main
import URoot.Grep.Moves
import URoot.Grep.Invariant
import URoot.Grep.Complete
import URoot.Tcz.Install
import URoot.Tcz.Closure
import URoot.Ldd.Follow
import URoot.Ldd.Libraries
import URoot.Ldd.Exact
import URoot.Stty.Termios
import URoot.Stty.Reported
import URoot.Ps.Stat
import URoot.Ectool.Lpc
import URoot.Cmp.Main
import URoot.Comm.Outer
import URoot.Sort.Main
import URoot.Uniq.Groups
import URoot.Sort.Histogram
import URoot.Wc.Count
import URoot.Field.Lexer
import URoot.Field.Tokens
import URoot.Field.Ranges
import URoot.Field.Accepts
import URoot.Field.Process
import URoot.Pci.Lookup
import URoot.Ln.RelLink
import URoot.Date.Map
import URoot.Dhclient.Main
