import LPRng.Bytes
import LPRng.Job
import LPRng.Transition
import LPRng.UpdateStatus
import LPRng.Persistence
import LPRng.Outcome
import LPRng.Routing
import LPRng.Completion
import LPRng.QueueServer
import LPRng.ActiveMark
import LPRng.LpcJob
import LPRng.Promise
import LPRng.TicketUpdates
import LPRng.LastWrite
import LPRng.QueueControl
import LPRng.HeaderLine
import LPRng.BlockFraming
import LPRng.SortedKeys
import LPRng.LineList
import LPRng.Split
import LPRng.TicketFile
import LPRng.SecureHeader
import LPRng.ScanQueue
import LPRng.Permission
import LPRng.JobSelection
import LPRng.CaseKeys
import LPRng.ControlFile
import LPRng.QueueLock
import LPRng.ControlCodec
import LPRng.ChildList
import LPRng.IncludeFiles
import LPRng.PermissionBlanks
import LPRng.StreamFile
import LPRng.Attempts
import LPRng.ConfigFiles
import LPRng.Md5Transfer
import LPRng.PrintJob
import LPRng.QueueTraversal
import LPRng.Glob
import LPRng.GlobPattern
import LPRng.PermissionAlias
import LPRng.PermissionAuth
import LPRng.PermissionControl
import LPRng.AddressMask
import LPRng.HostList
import LPRng.PermissionNoJob
import LPRng.SortOrder
import LPRng.DestinationList
import LPRng.StatusLine
import LPRng.LoggerCodec
import LPRng.ControlOrder
import LPRng.DataFileNames
import LPRng.EscapeBuffer
import LPRng.JobAllocation
import LPRng.LineSearch
import LPRng.RouteFilter
import LPRng.SearchBlock
import LPRng.TagExtraction
import LPRng.FixDollars
import LPRng.KeyRuns
import LPRng.Printcap
import LPRng.PrintcapNames
import LPRng.CommandLine
import LPRng.DollarScan
import LPRng.DoneJobs
import LPRng.LprmSelection
import LPRng.NumberFormat
import LPRng.OptionString
import LPRng.OptionValue
import LPRng.PrintFormat
import LPRng.StartRequests
import LPRng.StatusCache
import LPRng.ZOptions
import LPRng.BlockReception
import LPRng.DescriptorMove
import LPRng.FilterMessages
import LPRng.LoggerStream
import LPRng.RetryDelay
import LPRng.SplitReference
import LPRng.StopFilter
import LPRng.SubserverOrder
import LPRng.Mergesort
import LPRng.BlockTransfer
import LPRng.JobTransfer
import LPRng.Md5Digest
