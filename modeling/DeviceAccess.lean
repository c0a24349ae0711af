import DeviceAccess.Bytes
import DeviceAccess.Asm.OpCode
import DeviceAccess.Asm.Codec
import DeviceAccess.Asm.CodecLemmas
import DeviceAccess.Asm.Stream
import DeviceAccess.Filter.Builder
import DeviceAccess.Filter.BuilderLemmas
import DeviceAccess.Filter.Owned
import DeviceAccess.Filter.OwnedLemmas
import DeviceAccess.Filter.Innermost
import DeviceAccess.Asm.Machine
import DeviceAccess.Filter.Gate
import DeviceAccess.Filter.Verdict
import DeviceAccess.Error
import DeviceAccess.Lib.Action
import DeviceAccess.Lib.Handover
import DeviceAccess.V2.Kernel
import DeviceAccess.V2.World
import DeviceAccess.V2.Plan
import DeviceAccess.V2.Controller
import DeviceAccess.V2.Calls
import DeviceAccess.V2.Execute
import DeviceAccess.V2.Blocks
import DeviceAccess.V2.Grouping
import DeviceAccess.V2.Planning
import DeviceAccess.V2.Pass
import DeviceAccess.Filter.Meaning
import DeviceAccess.V2.Programs
import DeviceAccess.V2.NoGlitch
import DeviceAccess.V2.Runs
import DeviceAccess.V2.Result
import DeviceAccess.V2.Again
import DeviceAccess.V2.Repeat
import DeviceAccess.V2.Wiped
import DeviceAccess.V2.Recovery
import DeviceAccess.V2.Access
import DeviceAccess.V2.TakenBack
import DeviceAccess.V1.Devices
import DeviceAccess.V1.Controller
import DeviceAccess.V1.Changes
import DeviceAccess.V1.Exact
import DeviceAccess.V1.Shared
import DeviceAccess.Lexpath
import DeviceAccess.Policy.Glob
import DeviceAccess.Policy.Policy
import DeviceAccess.Text
import DeviceAccess.Docker
import DeviceAccess.Processor.Devfs
import DeviceAccess.Processor.Rules
import DeviceAccess.Processor.Votes
import DeviceAccess.Processor.Narrow
import DeviceAccess.Processor.Enforced
import DeviceAccess.Processor.Tree
import DeviceAccess.Processor.Aliases
import DeviceAccess.Processor.Lifecycle
import DeviceAccess.Processor.Reconcile
import DeviceAccess.Lib.Trace
import DeviceAccess.Processor.History
import DeviceAccess.Lib.Triple
import DeviceAccess.Processor.Moves
import DeviceAccess.Processor.OnRecord
import DeviceAccess.Processor.Live
import DeviceAccess.Daemon.Coordinator
import DeviceAccess.Lib.Since
import DeviceAccess.Daemon.Places
import DeviceAccess.Daemon.OneHolder
import DeviceAccess.Daemon.Loop
import DeviceAccess.Daemon.Stamps
import DeviceAccess.Daemon.Wakes
import DeviceAccess.Daemon.Complete
import DeviceAccess.Daemon.Covered
import DeviceAccess.Daemon.Coalesce
import DeviceAccess.Filter.NormalForm
import DeviceAccess.V2.SameProgram
import DeviceAccess.Filter.Wrappable
import DeviceAccess.V1.Moments
import DeviceAccess.V2.Untouched
import DeviceAccess.V2.Counts
import DeviceAccess.Cgroup.Proc
import DeviceAccess.Policy.FilepathMatch
import DeviceAccess.Cgroup.OwnPath
import DeviceAccess.Config.Resolve
import DeviceAccess.Config.Yaml
import DeviceAccess.Config.Document
import DeviceAccess.Config.Accepted
import DeviceAccess.Processor.Cleanup
import DeviceAccess.Daemon.Node
import DeviceAccess.Lib.Descent
import DeviceAccess.Processor.Succession
import DeviceAccess.Daemon.EndEvent
import DeviceAccess.Launcher.Lines
import DeviceAccess.Lexpath.Bytes
import DeviceAccess.Lib.View
import DeviceAccess.Processor.Lookups
import DeviceAccess.Processor.Names
import DeviceAccess.Processor.WalkDir
import DeviceAccess.Processor.Whole
import DeviceAccess.Cli.Settings
import DeviceAccess.Lib.Fair
import DeviceAccess.Systemd.Watch
import DeviceAccess.Systemd.Followed
