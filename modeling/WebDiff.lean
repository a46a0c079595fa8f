import WebDiff.Browser.Live
import WebDiff.Diff.Comments
import WebDiff.Diff.Containers
import WebDiff.Diff.Drawn
import WebDiff.Diff.During
import WebDiff.Diff.Exact
import WebDiff.Diff.Listed
import WebDiff.Diff.Merged
import WebDiff.Diff.PageReloaded
import WebDiff.Diff.SetSemantics
import WebDiff.Diff.Swap
import WebDiff.Server.KeepAlive
import WebDiff.Server.Script
import WebDiff.Server.Sessions
import WebDiff.Sql.ReadBack
import WebDiff.Storage.CacheOrder
import WebDiff.Storage.Crashes
import WebDiff.Storage.FlatCache
import WebDiff.Storage.Ownership
import WebDiff.Storage.Racing
import WebDiff.Storage.Restart
import WebDiff.Storage.Serialisable
import WebDiff.Storage.Spelling
import WebDiff.Upgrade.Started
import WebDiff.Framework.Resumable
import WebDiff.Model.WebSocketFrames
