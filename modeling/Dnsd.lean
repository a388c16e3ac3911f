import Dnsd.Properties.ChainOfTrust
import Dnsd.Properties.Downgrade
import Dnsd.Properties.AnswerRelevance
import Dnsd.Properties.DelegationLinks
import Dnsd.Properties.DnskeyIntegrity
import Dnsd.Properties.CacheGate
import Dnsd.Properties.Bailiwick
import Dnsd.Properties.HoldDown
import Dnsd.Properties.Amplification
import Dnsd.Properties.Descent
import Dnsd.Properties.AddressFamily
import Dnsd.Properties.WarmStart
import Dnsd.Properties.OrderIndependence
import Dnsd.Properties.RefreshRace
import Dnsd.Properties.RefreshAgreement
import Dnsd.Properties.Islands
import Dnsd.Properties.ListenerPolicy
import Dnsd.Properties.ReloadNoop
import Dnsd.Properties.ReloadService
import Dnsd.Properties.ReloadAbort
import Dnsd.Properties.TorLeak
import Dnsd.Properties.PoolIsolation
import Dnsd.Properties.TorFailClosed
import Dnsd.Properties.AnswerAcceptance
import Dnsd.Properties.PendingSlots
import Dnsd.Properties.Coalescing
import Dnsd.Properties.TtlAging
import Dnsd.Properties.Echo
import Dnsd.Properties.ReverseLookup
import Dnsd.Properties.Dns64Policy
import Dnsd.Properties.ValidatedPrefix
import Dnsd.Properties.CnameStitching
import Dnsd.Properties.UdpSize
import Dnsd.Properties.DohFraming
import Dnsd.Properties.DohSplits
import Dnsd.Properties.DohVersions
import Dnsd.Properties.NsecDenial
import Dnsd.Properties.Nsec3Denial
import Dnsd.Properties.NodataDenial
import Dnsd.Properties.SignatureWindow
import Dnsd.Properties.EmbeddingLayout
import Dnsd.Properties.ReverseNames
import Dnsd.Properties.CacheExpiry
import Dnsd.Properties.OfflineValidation
import Dnsd.Properties.RacingQuery
import Dnsd.Properties.SynthesisPaths
import Dnsd.Properties.AnchorFile
import Dnsd.Properties.WalkTermination
import Dnsd.Properties.NameMatching
import Dnsd.Properties.PoolLifetime
import Dnsd.Properties.CaseEncoding
import Dnsd.Properties.HeadGrammar
import Dnsd.Properties.SocksHandshake
import Dnsd.Properties.CacheBounds
import Dnsd.Properties.Rfc3339
import Dnsd.Properties.StreamFraming
