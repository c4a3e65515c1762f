import HealthMonitor.Core.Report
import HealthMonitor.Core.Runs
import HealthMonitor.Core.Gathering
import HealthMonitor.Core.Comparison
import HealthMonitor.Core.Ceilings
import HealthMonitor.Core.CollectionBudget
import HealthMonitor.Core.Ownership
import HealthMonitor.Core.HealthSupport
import HealthMonitor.Core.Isolation
import HealthMonitor.Core.Removals
import HealthMonitor.Core.Reservations
import HealthMonitor.Core.Sustain
import HealthMonitor.Core.Reevaluation
import HealthMonitor.Core.SingleRun
import HealthMonitor.Core.Validity
import HealthMonitor.Core.Refreshing
import HealthMonitor.Library.Alarm
import HealthMonitor.History.Rows
import HealthMonitor.History.Flushing
import HealthMonitor.Integrations.Admission
import HealthMonitor.Providers.LogBatches
import HealthMonitor.Runtime.Publication
import HealthMonitor.Server.DeploymentPages
import HealthMonitor.Server.Pages
import HealthMonitor.Server.Versions
import HealthMonitor.Core.Retention
import HealthMonitor.Core.JobKeys
import HealthMonitor.Core.SharedLimits
import HealthMonitor.Core.Crediting
import HealthMonitor.Server.ScopeCache
import HealthMonitor.Server.Encoding
import HealthMonitor.Library.Decimal
import HealthMonitor.Costs.Amount
import HealthMonitor.Library.Groups
import HealthMonitor.Costs.Aggregate
import HealthMonitor.History.CostSchedule
import HealthMonitor.Query.Normalize
import HealthMonitor.Server.QueryCursor
import HealthMonitor.Library.Overlay
import HealthMonitor.Server.ScopePages
import HealthMonitor.Integrations.NatsReport
import HealthMonitor.Library.Percent
import HealthMonitor.Integrations.ReadPolicy
import HealthMonitor.Providers.EndpointScan
import HealthMonitor.Providers.LogCoverage
import HealthMonitor.Core.Episodes
import HealthMonitor.Runtime.Reading
import HealthMonitor.Server.ProblemGroups
import HealthMonitor.Server.QueryPublish
import HealthMonitor.Providers.InventoryCache
