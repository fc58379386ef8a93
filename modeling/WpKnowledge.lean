import WpKnowledge.Foundation.Machine
import WpKnowledge.Foundation.Mirror
import WpKnowledge.Foundation.LruCache
import WpKnowledge.Foundation.OptionTraverse
import WpKnowledge.Foundation.Numbering
import WpKnowledge.Foundation.History
import WpKnowledge.Foundation.TaskPool
import WpKnowledge.Foundation.FoldExcept
import WpKnowledge.Foundation.Attempt
import WpKnowledge.Foundation.Trim
import WpKnowledge.Foundation.Utf8
import WpKnowledge.Foundation.Tokens
import WpKnowledge.Foundation.PrefixCode
import WpKnowledge.Foundation.Text
import WpKnowledge.Foundation.Slice
import WpKnowledge.Foundation.AddressBlock
import WpKnowledge.Foundation.Scan
import WpKnowledge.Foundation.Ledger
import WpKnowledge.Foundation.Reporting
import WpKnowledge.Foundation.Widening
import WpKnowledge.Foundation.Quoting
import WpKnowledge.Foundation.LruRecency
import WpKnowledge.Foundation.Numeral
import WpKnowledge.Foundation.Overwrite
import WpKnowledge.Model.DataField
import WpKnowledge.Model.Query
import WpKnowledge.Model.Hash
import WpKnowledge.Model.HashStreams
import WpKnowledge.Cache.FieldQueryCache
import WpKnowledge.Cache.Isolation
import WpKnowledge.Cache.CacheQuery
import WpKnowledge.Cache.SaveFetch
import WpKnowledge.Cache.IndexTables
import WpKnowledge.Cache.PlainCache
import WpKnowledge.Runtime.KnowledgeRuntime
import WpKnowledge.Runtime.Handles
import WpKnowledge.Runtime.ResultCache
import WpKnowledge.Runtime.Reload
import WpKnowledge.Runtime.SlotOrder
import WpKnowledge.Runtime.Answers
import WpKnowledge.Runtime.Configure
import WpKnowledge.Runtime.DisabledCache
import WpKnowledge.Runtime.Async
import WpKnowledge.Runtime.Sequential
import WpKnowledge.Runtime.Ledger
import WpKnowledge.Runtime.Telemetry
import WpKnowledge.Runtime.Retention
import WpKnowledge.Loader.LoadTable
import WpKnowledge.Loader.Plan
import WpKnowledge.Loader.Settings
import WpKnowledge.Loader.Batching
import WpKnowledge.Loader.Contents
import WpKnowledge.Loader.FailedLoad
import WpKnowledge.Mem.ThreadClone
import WpKnowledge.Mem.ColumnNames
import WpKnowledge.Mem.TableLoad
import WpKnowledge.Sql.Rewrite
import WpKnowledge.Sql.Scanners
import WpKnowledge.Sql.Binding
import WpKnowledge.Sql.Route
import WpKnowledge.Sql.RouteStrip
import WpKnowledge.Sql.PrefixDeletion
import WpKnowledge.Sql.ReferenceText
import WpKnowledge.Sql.RoutedReference
import WpKnowledge.Sql.RouteMemo
import WpKnowledge.Sql.RewriteText
import WpKnowledge.Sql.Lexical
import WpKnowledge.Sql.PostgresBinding
import WpKnowledge.Sql.MysqlTokens
import WpKnowledge.Sql.PostgresTokens
import WpKnowledge.Sql.Layout
import WpKnowledge.Sql.TableLayout
import WpKnowledge.Sql.CodeRegions
import WpKnowledge.Sql.RouteIndices
import WpKnowledge.Sql.RewriteIndices
import WpKnowledge.Sql.NamedParams
import WpKnowledge.SqliteExt.Address
import WpKnowledge.SqliteExt.Cidr
import WpKnowledge.SqliteExt.TrimQuotes
import WpKnowledge.SqliteExt.Dotted
import WpKnowledge.Vel.Parse
import WpKnowledge.Vel.RoundTrip
import WpKnowledge.Vel.Eval
import WpKnowledge.Vel.Template
import WpKnowledge.Vel.Phase
import WpKnowledge.Vel.Comments
import WpKnowledge.Redis.Lookup
import WpKnowledge.Redis.Transparency
import WpKnowledge.Redis.BloomWrites
import WpKnowledge.Redis.Registry
import WpKnowledge.Redis.RegistryRuns
import WpKnowledge.Redis.Freshness
import WpKnowledge.Server.Decode
import WpKnowledge.Server.Queries
import WpKnowledge.Server.Session
import WpKnowledge.Facade.CachedQuery
import WpKnowledge.Facade.Init
import WpKnowledge.Facade.Declared
import WpKnowledge.Facade.ReloadSequence
import WpKnowledge.Facade.DefaultSlot
import WpKnowledge.Facade.FailedInit
import WpKnowledge.Refresh.Service
import WpKnowledge.Refresh.Delivery
import WpKnowledge.Intranet.Nets
import WpKnowledge.Intranet.Decisions
