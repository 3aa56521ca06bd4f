import DjangoNova.Text.PrefixCode
import DjangoNova.Cache.SharedFreshness
import DjangoNova.Cache.LocalFreshness
import DjangoNova.Cache.InvalidationReach
import DjangoNova.Cache.DefaultCache
import DjangoNova.Cache.Announcements
import DjangoNova.Cache.DetachedReads
import DjangoNova.Core.Context
import DjangoNova.Cache.DependencySoundness
import DjangoNova.Cache.QueryIdentity
import DjangoNova.Cache.GenerationRuns
import DjangoNova.Cache.LockDiscipline
import DjangoNova.Tasks.Telemetry
import DjangoNova.Redis.Isolation
import DjangoNova.Tasks.Shutdown
import DjangoNova.Tasks.Arguments
import DjangoNova.Cache.IndexRuns
import DjangoNova.Redis.Ownership
import DjangoNova.Redis.SlidingWindow
import DjangoNova.Redis.ClearNamespace
import DjangoNova.Memcached.CacheBackend
import DjangoNova.Memory.AsyncIOCacheBackend
import DjangoNova.Memory.CacheBackend
import DjangoNova.Query.Relations
import DjangoNova.Validation.Lifecycle
import DjangoNova.Validation.LoadedRelations
import DjangoNova.Query.PlanValidity
import DjangoNova.Db.Router
import DjangoNova.Db.Splitter
import DjangoNova.Cache.GenerationTransport
import DjangoNova.Ecosystem.Graphql
import DjangoNova.Ecosystem.Drf
import DjangoNova.Metrics.Registry
import DjangoNova.Cache.KeyPickler
import DjangoNova.Interchange.Backends
import DjangoNova.Cache.EntryAge
import DjangoNova.Cache.ClearFailure
