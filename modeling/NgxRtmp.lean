import NgxRtmp.LiveClock
import NgxRtmp.LiveKeyFrame
import NgxRtmp.ReassemblyBound
import NgxRtmp.Interleaving
import NgxRtmp.Leftover
import NgxRtmp.StreamIndices
import NgxRtmp.DuplicateConnect
import NgxRtmp.HlsSession
import NgxRtmp.HlsTableRuns
import NgxRtmp.SharedMessages
import NgxRtmp.AmfRoundTrip
import NgxRtmp.Aggregate
import NgxRtmp.PlayPath
import NgxRtmp.BillingRuns
import NgxRtmp.RecordFlags
import NgxRtmp.Mp4Timeline
import NgxRtmp.HandshakeAccounts
import NgxRtmp.Control
import NgxRtmp.ExecRuns
import NgxRtmp.LiveCounters
import NgxRtmp.SessionNames
import NgxRtmp.RelayLookups
import NgxRtmp.RelayPushRuns
import NgxRtmp.Notify
import NgxRtmp.HeaderCompression
import NgxRtmp.AckWindow
import NgxRtmp.VhostCheck
import NgxRtmp.HlsAcceptance
import NgxRtmp.CompositionTime
import NgxRtmp.HlsTargetDuration
import NgxRtmp.HlsUri
import NgxRtmp.NotifyUpdate
import NgxRtmp.ExecFilter
import NgxRtmp.Eval
import NgxRtmp.Limit
