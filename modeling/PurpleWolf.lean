import PurpleWolf.Lib.JsonParser
import PurpleWolf.Lib.Lines
import PurpleWolf.Lib.Transition
import PurpleWolf.Lib.Serial
import PurpleWolf.Lib.PlainText
import PurpleWolf.Lib.IpDisplay
import PurpleWolf.Lib.Wildcard
import PurpleWolf.Lib.Url
import PurpleWolf.Lib.Recency
import PurpleWolf.Lib.Iteration
import PurpleWolf.Lib.MixedText
import PurpleWolf.Lib.JsonText
import PurpleWolf.Lib.Braces
import PurpleWolf.Lib.Memory
import PurpleWolf.Lib.BinarySearch
import PurpleWolf.Lib.OrdMap
import PurpleWolf.Lib.Decode
import PurpleWolf.Core.TokenBuckets
import PurpleWolf.Core.TokenBucketsRefinement
import PurpleWolf.Core.Request
import PurpleWolf.Core.ClientIp
import PurpleWolf.Core.Config
import PurpleWolf.Core.Detectors
import PurpleWolf.Core.Policy
import PurpleWolf.Core.Signatures
import PurpleWolf.Core.Audit
import PurpleWolf.Core.Structural
import PurpleWolf.Core.QueryInspection
import PurpleWolf.Core.SignatureReport
import PurpleWolf.Core.Injection
import PurpleWolf.Core.Reputation
import PurpleWolf.Core.TokenBudget
import PurpleWolf.Core.Isolation
import PurpleWolf.Core.Decoding
import PurpleWolf.Core.DecodePasses
import PurpleWolf.Core.LogSafe
import PurpleWolf.Core.FieldOrder
import PurpleWolf.Core.DecodeSize
import PurpleWolf.Core.Labels
import PurpleWolf.Libinjection.Html5
import PurpleWolf.Libinjection.Xss
import PurpleWolf.Libinjection.TokenStream
import PurpleWolf.Libinjection.XssSafety
import PurpleWolf.Libinjection.XssDetection
import PurpleWolf.Libinjection.SqliTokenizer
import PurpleWolf.Libinjection.SqliFold
import PurpleWolf.Libinjection.Sqli
import PurpleWolf.Libinjection.SqliKeywords
import PurpleWolf.Libinjection.SqliTokens
import PurpleWolf.Libinjection.SqliFolding
import PurpleWolf.Libinjection.SqliSafety
import PurpleWolf.Libinjection.SqliLexemes
import PurpleWolf.Libinjection.SqliProse
import PurpleWolf.Libinjection.SqliTautology
import PurpleWolf.Traefik.Entry
import PurpleWolf.Traefik.BodyIntegrity
import PurpleWolf.Traefik.HeaderTruncation
import PurpleWolf.Traefik.MonitorMode
import PurpleWolf.Traefik.Engine
import PurpleWolf.Traefik.RawBytes
import PurpleWolf.Traefik.Chunking
import PurpleWolf.Traefik.DenyList
import PurpleWolf.Traefik.MultiRead
import PurpleWolf.Traefik.ScriptTags
import PurpleWolf.Traefik.Payloads
import PurpleWolf.Traefik.WireConfig
import PurpleWolf.Traefik.Plugin
import PurpleWolf.Relay.Parser
import PurpleWolf.Relay.JsonScan
import PurpleWolf.Relay.Pipeline
import PurpleWolf.Relay.Fidelity
import PurpleWolf.Relay.Attribution
import PurpleWolf.Relay.LogTail
import PurpleWolf.Relay.LogFraming
import PurpleWolf.Relay.LogRotation
import PurpleWolf.Relay.Accounting
import PurpleWolf.Relay.LogAccounting
import PurpleWolf.Relay.InvalidUtf8
import PurpleWolf.Relay.LogResume
import PurpleWolf.Relay.Sink
import PurpleWolf.Relay.Runtime
import PurpleWolf.Relay.Conservation
import PurpleWolf.Relay.Completion
import PurpleWolf.Relay.Shutdown
import PurpleWolf.Relay.Filter
import PurpleWolf.Relay.Delivery
import PurpleWolf.Relay.Config
import PurpleWolf.Relay.HttpEnricher
import PurpleWolf.Relay.Retry
import PurpleWolf.Relay.Startup
import PurpleWolf.Relay.EnrichUrl
import PurpleWolf.Relay.LogRestart
import PurpleWolf.Relay.DeadLetters
import PurpleWolf.Relay.EnricherCache
import PurpleWolf.Relay.Signer
import PurpleWolf.Relay.BraceSearch
import PurpleWolf.Relay.ObjectSearch
import PurpleWolf.Relay.Reporting
