import EdgeSlice.CInteger
import EdgeSlice.FirstFit
import EdgeSlice.ByteMemory
import EdgeSlice.Chain
import EdgeSlice.MonotoneSearch
import EdgeSlice.Placement
import EdgeSlice.Fold
import EdgeSlice.Countdown
import EdgeSlice.IdTable
import EdgeSlice.Traced
import EdgeSlice.Mac.Slices
import EdgeSlice.Mac.DlschPreProcessor
import EdgeSlice.Mac.DlschTurns
import EdgeSlice.Mac.DlschDemand
import EdgeSlice.Mac.DlschIsolation
import EdgeSlice.Mac.DlschAccounting
import EdgeSlice.Mac.DlschCaps
import EdgeSlice.Mac.DlschRetransmission
import EdgeSlice.Mac.Subheader
import EdgeSlice.Mac.SubheaderParser
import EdgeSlice.Mac.DlschHeader
import EdgeSlice.Mac.DlschRoundTrip
import EdgeSlice.Mac.ScheduleUeSpec
import EdgeSlice.Mac.DlschSizing
import EdgeSlice.Mac.DlschBitmap
import EdgeSlice.Mac.UlschHeader
import EdgeSlice.Mac.UlschControl
import EdgeSlice.Mac.UlschBounds
import EdgeSlice.Mac.UeGetSdu
import EdgeSlice.Mac.UlschSizing
import EdgeSlice.Mac.Dci
import EdgeSlice.Mac.DciFeasibility
import EdgeSlice.Mac.UeList
import EdgeSlice.Mac.ScheduleUlsch
import EdgeSlice.Mac.UlschQuota
import EdgeSlice.Mac.UlBuffer
import EdgeSlice.Mac.UeLifecycle
import EdgeSlice.Mac.SlotReuse
import EdgeSlice.Sdn.Controller
import EdgeSlice.Sdn.Windows
import EdgeSlice.Sdn.Topology
import EdgeSlice.Sdn.UserFlows
import EdgeSlice.Sdn.CreateTopology
import EdgeSlice.Sdn.Switchover
import EdgeSlice.Sdn.Runs
import EdgeSlice.Sdn.Connectivity
import EdgeSlice.Sdn.MakeBeforeBreak
import EdgeSlice.Sdn.SliceReconfiguration
import EdgeSlice.Progress
import EdgeSlice.Sdn.RequestQueue
import EdgeSlice.Sdn.RequestService
import EdgeSlice.Sdn.TaskTrigger
import EdgeSlice.Sdn.TriggerRuns
import EdgeSlice.Outcome
import EdgeSlice.Sdn.BandwidthLimiter
import EdgeSlice.Sdn.LimiterRates
import EdgeSlice.Sdn.LimiterRuns
import EdgeSlice.BigEndian
import EdgeSlice.Compute.Deframing
import EdgeSlice.Compute.FrameAlignment
import EdgeSlice.Compute.DeframingExact
import EdgeSlice.SplitCounter
import EdgeSlice.KeyStream
import EdgeSlice.Pdcp.SequenceManager
import EdgeSlice.Pdcp.Pdu
import EdgeSlice.Pdcp.PduRoundTrip
import EdgeSlice.Pdcp.BearerRoundTrip
import EdgeSlice.Pdcp.Numbering
import EdgeSlice.Pdcp.CountAgreement
import EdgeSlice.Pdcp.AcknowledgedMode
import EdgeSlice.Segmentation
import EdgeSlice.BitField
import EdgeSlice.Rlc.UmSegment
import EdgeSlice.Rlc.UmReassembly
import EdgeSlice.Rlc.UmLengthIndicators
import EdgeSlice.Rlc.UmFilling
import EdgeSlice.Rlc.UmPdu
import EdgeSlice.Rlc.UmOutput
import EdgeSlice.Rlc.UmRoundTrip
import EdgeSlice.Rlc.UmGrant
import EdgeSlice.Rlc.UmSegmenters
import EdgeSlice.Rlc.UmHeaderLimits
import EdgeSlice.Rlc.UmParserBounds
import EdgeSlice.ReorderWindow
import EdgeSlice.SequenceSpace
import EdgeSlice.Rlc.UmReordering
import EdgeSlice.Rlc.UmWindow
import EdgeSlice.Rlc.UmWindowSteps
import EdgeSlice.Rlc.UmWindowRuns
import EdgeSlice.Rlc.UmLink
import EdgeSlice.Rlc.AmTransmitter
import EdgeSlice.Rlc.AmAcknowledgement
import EdgeSlice.Rlc.AmNack
import EdgeSlice.Rlc.AmConfirmation
import EdgeSlice.Rlc.AmReportScan
import EdgeSlice.Rlc.AmVtASafety
import EdgeSlice.Rlc.AmPdu
import EdgeSlice.Budget
import EdgeSlice.Rlc.AmStatus
import EdgeSlice.Rlc.AmStatusRequests
import EdgeSlice.Rlc.AmStatusReport
import EdgeSlice.Rlc.AmStatusCoverage
import EdgeSlice.Rlc.AmStatusFitting
import EdgeSlice.Rlc.AmStatusSound
import EdgeSlice.Rlc.AmStatusOrder
import EdgeSlice.Rlc.AmSegmentExact
import EdgeSlice.Rlc.AmStatusAccepted
import EdgeSlice.OrderedRanges
import EdgeSlice.Rlc.AmRxList
import EdgeSlice.Rlc.AmRxInsertion
import EdgeSlice.Rlc.AmRxUnion
import EdgeSlice.GuardedRun
import EdgeSlice.Rlc.AmRxReceive
import EdgeSlice.Rlc.AmRxArrival
import EdgeSlice.Rlc.AmRxWalks
import EdgeSlice.Rlc.AmRxWindow
import EdgeSlice.Rlc.AmRxGaps
import EdgeSlice.RingQueue
import EdgeSlice.Rlc.AmSegment
import EdgeSlice.Rlc.AmResegment
import EdgeSlice.Rlc.AmRetransmit
import EdgeSlice.Rlc.AmTxSdus
import EdgeSlice.Rlc.AmTxWindow
import EdgeSlice.Rlc.AmTxPdus
import EdgeSlice.Rlc.AmTxBuffer
import EdgeSlice.Rlc.AmTxReferences
import EdgeSlice.Rlc.AmTxOnce
import EdgeSlice.Common.HashTable
import EdgeSlice.Common.HashTableRuns
import EdgeSlice.Gtpv1u.TunnelTables
import EdgeSlice.Gtpv1u.TunnelRuns
import EdgeSlice.Rlc.Registry
import EdgeSlice.Rlc.RegistryRuns
import EdgeSlice.Mac.RandomAccess
import EdgeSlice.Mac.RntiUniqueness
import EdgeSlice.BitStream
import EdgeSlice.Rlc.AmStatusRoundTrip
import EdgeSlice.CountedLoop
import EdgeSlice.Coding.SubBlock
import EdgeSlice.Coding.RateMatchingCc
import EdgeSlice.Coding.SubBlockTurbo
import EdgeSlice.Coding.RoundTripTurbo
import EdgeSlice.Rlc.AmStatusOccupancy
import EdgeSlice.Rlc.AmStatusSizing
import EdgeSlice.PackedWord
import EdgeSlice.RunCode
import EdgeSlice.Mac.CommonChannels
import EdgeSlice.Mac.CommonPlacement
import EdgeSlice.Mac.CommonCollisions
import EdgeSlice.ShiftRegister
import EdgeSlice.Coding.Crc
import EdgeSlice.Coding.LteSegmentation
import EdgeSlice.Coding.Segments
import EdgeSlice.WordRecurrence
import EdgeSlice.Coding.GoldSequence
import EdgeSlice.Coding.Scrambling
import EdgeSlice.QuadraticPermutation
import EdgeSlice.Coding.TurboInterleaver
import EdgeSlice.Coding.TurboEncoder
import EdgeSlice.BreakLoop
import EdgeSlice.Nas.EsmData
import EdgeSlice.Nas.EsmTftExact
import EdgeSlice.Mac.UpdateBsr
import EdgeSlice.NumberedStreams
import EdgeSlice.Nas.NasMessage
import EdgeSlice.Nas.NasProtected
import EdgeSlice.Nas.NasExchange
import EdgeSlice.Nas.NasRoundTrip
import EdgeSlice.Nas.NasForgery
import EdgeSlice.LinkedQueue
import EdgeSlice.Nas.NasTimer
import EdgeSlice.Nas.NasTimerInvariant
import EdgeSlice.Nas.NasTimerIsolation
import EdgeSlice.OctetReader
import EdgeSlice.Nas.Tlv
import EdgeSlice.Nas.TrafficFlowTemplate
import EdgeSlice.Nas.DedicatedRequest
import EdgeSlice.Nas.DedicatedOctets
import EdgeSlice.Nas.DedicatedRoundTrip
import EdgeSlice.Nas.AttachAccept
import EdgeSlice.Nas.DecoderSafety
import EdgeSlice.Nas.EsmRuns
import EdgeSlice.Mac.BsrIndex
import EdgeSlice.Mac.UlschPreAllocation
import EdgeSlice.SuccessorList
import EdgeSlice.Mac.UeChains
import EdgeSlice.Mac.UeOrder
import EdgeSlice.Mac.RbAllocation
import EdgeSlice.Rlc.AmSegmentCuts
import EdgeSlice.Rlc.AmDelivery
import EdgeSlice.Rlc.AmFeedback
import EdgeSlice.Rlc.AmLink
import EdgeSlice.Sdn.TaskCompletion
import EdgeSlice.Sdn.TopologyCompilation
