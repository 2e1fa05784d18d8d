import Otari.Pricing.ContradictoryUsage
import Otari.Pricing.NoOverlap
import Otari.Pricing.AdmittedRates
import Otari.Pricing.CacheCoherence
import Otari.Pricing.RatesPage
import Otari.Pricing.RatesInStep
import Otari.Pricing.CatalogReadBack
import Otari.Pricing.NeverGuesses
import Otari.Routing.Weighted
import Otari.Routing.CompiledPlans
import Otari.Inference.OneClaim
import Otari.Budgets.EndUserLimit
import Otari.Bridge.ResponsesAgree
import Otari.Bridge.Conversations
import Otari.Bridge.MessagesReplay
import Otari.Bridge.MessagesStream
import Otari.Streaming.SettlesOnce
import Otari.Pricing.RefreshConverges
import Otari.Pricing.ImportedLikeSettled
import Otari.CodeExecution.LeasesExclusive
import Otari.Usage.RollupsExact
import Otari.RateLimit.Fallback
import Otari.RateLimit.ResetAfter
import Otari.Reservations.TopUpsFollow
import Otari.Reservations.RetryAfter
import Otari.Reservations.StateEnforced
import Otari.Reservations.ResetLogs
import Otari.Reservations.Orphans
import Otari.Traces.ErasureFinal
import Otari.Routing.InFlight
import Otari.Routing.Ranking
import Otari.Guardrails.OnlyTighten
import Otari.Routing.AttemptsAccounted
import Otari.Streaming.Delivered
import Otari.Network.PinnedLeases
import Otari.Network.WalkSafe
import Otari.Access.WebNarrows
import Otari.Tools.UsesCapped
import Otari.Tools.HeldExact
import Otari.Policy.ChangedPaths
import Otari.Policy.GlobDiagnostics
import Otari.Policy.PhraseDiagnostics
import Otari.Policy.Transcript
import Otari.Usage.OneBooking
import Otari.Usage.LogWriter
import Otari.Usage.Imports
import Otari.Usage.SetPrice
import Otari.Routing.PricingKeys
import Otari.Traces.Sessions
import Otari.Usage.ScanAccepted
import Otari.Settings.SecretsRestored
import Otari.Files.WalkComplete
import Otari.Traces.ToolCosts
import Otari.Caches.NeverGoBack
