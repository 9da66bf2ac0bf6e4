import AsioQuickjs.ChannelGuarantees
import AsioQuickjs.HttpEval
import AsioQuickjs.HostTeardown
import AsioQuickjs.HttpRouting
import AsioQuickjs.FetchAbort
import AsioQuickjs.FetchSettles
import AsioQuickjs.SoftCancel
import AsioQuickjs.Backpressure
import AsioQuickjs.OneshotInvariant
import AsioQuickjs.LoopAlive
import AsioQuickjs.HttpExchange
import AsioQuickjs.StreamNatives
import AsioQuickjs.HttpPipeline
import AsioQuickjs.BinaryStore
import AsioQuickjs.TimerRelease
import AsioQuickjs.HttpConnections
import AsioQuickjs.Crypto
import AsioQuickjs.JobWire
import AsioQuickjs.BodyBytes
import AsioQuickjs.BodyOnce
import AsioQuickjs.Trampoline
import AsioQuickjs.AbortSignal
import AsioQuickjs.AbortPropagation
import AsioQuickjs.Transfers
import AsioQuickjs.ChunkedCoding
import AsioQuickjs.FileContents
import AsioQuickjs.Persistence
import AsioQuickjs.MalformedInput
import AsioQuickjs.Handles
import AsioQuickjs.PendingOps
import AsioQuickjs.FunctionRegistry
import AsioQuickjs.LockDiscipline
import AsioQuickjs.PromiseBridge
import AsioQuickjs.HeaderList
import AsioQuickjs.HeaderIteration
import AsioQuickjs.HeaderLaws
import AsioQuickjs.HeaderCopy
import AsioQuickjs.RequestJs
import AsioQuickjs.RequestOptions
import AsioQuickjs.RequestInput
import AsioQuickjs.JsText
import AsioQuickjs.UrlencodedForm
import AsioQuickjs.Cutting
import AsioQuickjs.MultipartForm
import AsioQuickjs.ResponseJs
import AsioQuickjs.Base64
import AsioQuickjs.DataUrls
import AsioQuickjs.ResponseClone
import AsioQuickjs.AesRoundTrip
import AsioQuickjs.GlobMatch
import AsioQuickjs.ReadVariants
import AsioQuickjs.HandOff
import AsioQuickjs.FilePool
import AsioQuickjs.CryptoJs
import AsioQuickjs.Base64Decoders
import AsioQuickjs.IncrementalHash
import AsioQuickjs.HeaderBlocks
import AsioQuickjs.SenderHandles
import AsioQuickjs.Bits
import AsioQuickjs.TextDecoder
import AsioQuickjs.TextEncoder
import AsioQuickjs.CurlWatches
import AsioQuickjs.CurlGuarantees
import AsioQuickjs.AesGcm
import AsioQuickjs.BufferBase64
import AsioQuickjs.BufferText
import AsioQuickjs.Buffers
import AsioQuickjs.RequestWire
import AsioQuickjs.CryptoTexts
import AsioQuickjs.AcceptLoop
import AsioQuickjs.ResponseWire
import AsioQuickjs.SearchParams
import AsioQuickjs.SearchParamsText
import AsioQuickjs.BodyReaders
import AsioQuickjs.StableSort
import AsioQuickjs.Values
