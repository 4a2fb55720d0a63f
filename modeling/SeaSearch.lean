import SeaSearch.Aggregation.Intervals
import SeaSearch.Aggregation.Terms
import SeaSearch.Cache.Eviction
import SeaSearch.Cache.Persist
import SeaSearch.Cluster.Assigns
import SeaSearch.Cluster.Distribute
import SeaSearch.Handlers.BulkLines
import SeaSearch.Handlers.BulkSplit
import SeaSearch.Handlers.DeleteByQuery
import SeaSearch.Handlers.ListPage
import SeaSearch.Handlers.MultiSearch
import SeaSearch.Index.VectorDeletes
import SeaSearch.Index.VectorVersions
import SeaSearch.Manager.IdleWriters
import SeaSearch.Manager.Updates
import SeaSearch.Manager.VecIndexes
import SeaSearch.Manager.WriterCounts
import SeaSearch.Mapping.Build
import SeaSearch.Mapping.Source
import SeaSearch.Rendezvous
import SeaSearch.Search.Collectors
import SeaSearch.Search.NodeSegments
import SeaSearch.Search.Unified
import SeaSearch.Search.VectorSearch
import SeaSearch.Uquery.PathHierarchy
import SeaSearch.Uquery.Terms
import SeaSearch.Vector.Count
import SeaSearch.Vector.HnswSearch
import SeaSearch.Vector.IvfPqBatches
import SeaSearch.Vector.IvfPqReopen
import SeaSearch.Vector.Rebuild
import SeaSearch.Wal.Redo
import SeaSearch.Wal.SqlWal
