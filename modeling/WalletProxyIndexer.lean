import WalletProxyIndexer.Schema
import WalletProxyIndexer.Lib.Transition
import WalletProxyIndexer.Insert
import WalletProxyIndexer.Contents
import WalletProxyIndexer.Record
import WalletProxyIndexer.SupplyAccounting
import WalletProxyIndexer.SupplyRange
import WalletProxyIndexer.M0002
import WalletProxyIndexer.Migrations
import WalletProxyIndexer.Lib.Select
import WalletProxyIndexer.Queries
import WalletProxyIndexer.Chain
import WalletProxyIndexer.Lib.Stateful
import WalletProxyIndexer.NodeHooks
import WalletProxyIndexer.Service
import WalletProxyIndexer.Coordination
import WalletProxyIndexer.FailureReport
import WalletProxyIndexer.Feed
import WalletProxyIndexer.Indexer
import WalletProxyIndexer.ExactlyOnce
import WalletProxyIndexer.UnansweredCommit
import WalletProxyIndexer.KeyMirror
import WalletProxyIndexer.UnknownData
import WalletProxyIndexer.KeyBatches
import WalletProxyIndexer.AccountListing
import WalletProxyIndexer.Lib.Paging
import WalletProxyIndexer.TargetRows
import WalletProxyIndexer.Paging
import WalletProxyIndexer.Monitor
import WalletProxyIndexer.Rotation
import WalletProxyIndexer.Lib.Progress
import WalletProxyIndexer.Progress
import WalletProxyIndexer.Served
import WalletProxyIndexer.Availability
import WalletProxyIndexer.InFlight
import WalletProxyIndexer.AtLeastOnce
import WalletProxyIndexer.Undecodable
import WalletProxyIndexer.Answers
import WalletProxyIndexer.Startup
import WalletProxyIndexer.Compatibility
import WalletProxyIndexer.Caching
import WalletProxyIndexer.Fleet
