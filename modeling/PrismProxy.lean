import PrismProxy.TransitionRuns
import PrismProxy.SnapshotRegister
import PrismProxy.SocketAddrParser
import PrismProxy.ProxyConfig
import PrismProxy.ProxyPlugin
import PrismProxy.ProxyState
import PrismProxy.ProxyHealthCheck
import PrismProxy.CertificateCache
import PrismProxy.AcmeProvision
import PrismProxy.AcmeReplacement
import PrismProxy.StatePublication
import PrismProxy.ProxyServer
import PrismProxy.ProxyServerSteps
import PrismProxy.ConfigValidation
import PrismProxy.TlsDowngrade
import PrismProxy.HttpMessage
import PrismProxy.RequestMediation
import PrismProxy.HealthLoops
import PrismProxy.PublicationOrder
import PrismProxy.ReloadConvergence
import PrismProxy.CertificateFreshness
import PrismProxy.UpstreamForward
import PrismProxy.RequestDelivery
import PrismProxy.ConnectionExclusivity
import PrismProxy.ProvisionLock
import PrismProxy.LockExclusion
import PrismProxy.LockLifetime
import PrismProxy.StartupWatch
import PrismProxy.RenewalCoverage
import PrismProxy.PoolInvariant
import PrismProxy.PoolTransparency
import PrismProxy.ProxyMetrics
import PrismProxy.RequestServing
import PrismProxy.ForwardTransparency
import PrismProxy.MetricsAccounting
import PrismProxy.ChallengeResponders
import PrismProxy.ChallengeServing
import PrismProxy.ProvisionAgreement
import PrismProxy.AcceptLoops
import PrismProxy.HealthHysteresis
import PrismProxy.PluginChain
import PrismProxy.PrefixMatch
import PrismProxy.RouteSelection
import PrismProxy.SocketAddrText
import PrismProxy.HopByHop
import PrismProxy.ForwardedHost
import PrismProxy.ReloadSkips
import PrismProxy.GatewayErrors
import PrismProxy.ProvisionTermination
import PrismProxy.RedirectTarget
import PrismProxy.PluginMarshalling
import PrismProxy.MetricsScrape
import PrismProxy.ServedScrapes
import PrismProxy.PeriodicRenewal
import PrismProxy.RenewalTicks
import PrismProxy.RenewalSchedule
import PrismProxy.WholeProxy
import PrismProxy.RequestProvenance
import PrismProxy.ServedFreshness
import PrismProxy.ServedHealth
import PrismProxy.RequestProgress
import PrismProxy.HealthTiming
import PrismProxy.ExpositionText
import PrismProxy.MetricsPage
import PrismProxy.ServedCertificates
