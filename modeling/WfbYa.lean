import WfbYa.Lib.BigEndian
import WfbYa.Lib.LittleEndian
import WfbYa.Lib.Traced
import WfbYa.Lib.Stream
import WfbYa.Lib.KeyedList
import WfbYa.Lib.Circular
import WfbYa.Lib.Machine
import WfbYa.Lib.InOrder
import WfbYa.Lib.Ledger
import WfbYa.Lib.Padding
import WfbYa.Lib.SlidingWindow
import WfbYa.Lib.Fibers
import WfbYa.Lib.Scan
import WfbYa.Params
import WfbYa.Frame.FrameWfb
import WfbYa.Frame.FrameUdp
import WfbYa.Frame.FrameRadiotap
import WfbYa.Frame.FrameIeee80211
import WfbYa.Ring.Rbuf
import WfbYa.Ring.RbufSpec
import WfbYa.Ring.RingWindow
import WfbYa.Ring.SlidingRing
import WfbYa.Rx.Externals
import WfbYa.Rx.Context
import WfbYa.Rx.Data
import WfbYa.Rx.Session
import WfbYa.Rx.Core
import WfbYa.Rx.Node
import WfbYa.Rx.NodeSteps
import WfbYa.Rx.Sending
import WfbYa.Rx.Planning
import WfbYa.Rx.Steps
import WfbYa.Rx.Slots
import WfbYa.Rx.SessionIndices
import WfbYa.Rx.SessionInv
import WfbYa.Rx.Accepting
import WfbYa.Rx.Sender
import WfbYa.Rx.Accounting
import WfbYa.Lib.Erasure
import WfbYa.Lib.Links
import WfbYa.Rx.Conforming
import WfbYa.Rx.Fidelity
import WfbYa.Rx.Desk
import WfbYa.Rx.DeskRun
import WfbYa.Rx.InOrder
import WfbYa.Rx.Release
import WfbYa.Rx.ExactlyOnce
import WfbYa.Rx.Completeness
import WfbYa.Rx.Rejection
import WfbYa.Rx.Repeats
import WfbYa.Rx.Likeness
import WfbYa.Rx.Copies
import WfbYa.Rx.Storing
import WfbYa.Rx.SendCalls
import WfbYa.Rx.Indices
import WfbYa.Rx.Extents
import WfbYa.Rx.BestReception
import WfbYa.Rx.Coverage
import WfbYa.Rx.CutThrough
import WfbYa.Rx.Toggling
import WfbYa.Rx.Lossless
import WfbYa.Lib.Collector
import WfbYa.Rx.Collecting
import WfbYa.Rx.Channel
import WfbYa.Rx.Bare
import WfbYa.Rx.Mirroring
import WfbYa.Rx.Viewing
import WfbYa.Rx.CaptureBounds
import WfbYa.Rx.BufferBounds
import WfbYa.Rx.Relay
import WfbYa.Rx.Datagrams
import WfbYa.Log.RxLog
import WfbYa.Log.LogSteps
import WfbYa.Log.Grammar
import WfbYa.Log.LogRaw
import WfbYa.Log.Entries
import WfbYa.Log.Loading
import WfbYa.Log.Representation
import WfbYa.Log.LogFilter
import WfbYa.Log.Filtering
import WfbYa.Log.Cutoffs
import WfbYa.Log.BlockSums
import WfbYa.Log.Recovery
import WfbYa.Log.Agreement
import WfbYa.Log.RoundTrip
import WfbYa.Log.Creation
import WfbYa.Log.Listener
import WfbYa.Log.Sessions
import WfbYa.Log.SeqKeys
import WfbYa.Log.LogHist
import WfbYa.Log.Histogram
import WfbYa.Log.Analysed
import WfbYa.Log.LogH265
import WfbYa.Log.Replay
import WfbYa.Log.LogCsv
import WfbYa.Log.LogJson
import WfbYa.Log.Documents
import WfbYa.Log.Exports
import WfbYa.Log.CsvText
import WfbYa.Log.FreeLog
import WfbYa.Log.FreePasses
import WfbYa.Log.FreedOnce
import WfbYa.Log.TimeStamps
import WfbYa.Frame.TxIeee80211
import WfbYa.Frame.TxRadiotap
import WfbYa.Gst.Overlay
import WfbYa.Net.NetInet
import WfbYa.Log.Shell
import WfbYa.Lib.Linearization
import WfbYa.Lib.CStrings
import WfbYa.Lib.Csv
import WfbYa.Lib.Numerals
import WfbYa.Lib.AddressText
import WfbYa.Ipc.WfbIpc
import WfbYa.Ipc.Messages
import WfbYa.Ipc.IpcSteps
import WfbYa.Ipc.Commands
import WfbYa.Log.LiveReplay
import WfbYa.Log.ShellCommands
import WfbYa.Log.ShellAlike
import WfbYa.Log.ShellTokens
import WfbYa.Log.ShellSession
import WfbYa.Log.ShellFaults
import WfbYa.Daemon.PidFile
import WfbYa.Daemon.OneDaemon
