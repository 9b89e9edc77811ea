import SimpleFlow.LineStream
import SimpleFlow.Delivery
import SimpleFlow.InOrder
import SimpleFlow.RotationLoss
import SimpleFlow.WholeLines
import SimpleFlow.RefusedLines
import SimpleFlow.ReadTasks
import SimpleFlow.Stranded
import SimpleFlow.SharedLines
import SimpleFlow.Bounds
import SimpleFlow.Shown
import SimpleFlow.Catchup
import SimpleFlow.Construction
import SimpleFlow.Shortened
import SimpleFlow.RunTime
import SimpleFlow.ServerPlaces
import SimpleFlow.Acks
import SimpleFlow.TailedLines
import SimpleFlow.Replication
import SimpleFlow.RegUtils
import SimpleFlow.PoolShutdown
import SimpleFlow.Library.Simulation
import SimpleFlow.Library.WorkQueue
import SimpleFlow.EpollMemory
import SimpleFlow.ServerEpoll
import SimpleFlow.EpollShutdown
import SimpleFlow.QueryParams
import SimpleFlow.MultipartParser
import SimpleFlow.MultipartScan
import SimpleFlow.MultipartBody
import SimpleFlow.HttpRequest
import SimpleFlow.RequestPieces
import SimpleFlow.RequestReads
import SimpleFlow.RequestFields
import SimpleFlow.PostedForms
import SimpleFlow.MultipartForms
import SimpleFlow.HttpResponse
import SimpleFlow.ResponseSending
import SimpleFlow.HttpConnection
import SimpleFlow.HttpConversation
import SimpleFlow.Library.LineFraming
import SimpleFlow.ResponseFormat
