import TradingChartViewer.Exchange.FetchRange
import TradingChartViewer.App.Finality
import TradingChartViewer.Storage.Actualize
import TradingChartViewer.Storage.LiveUpdates
import TradingChartViewer.Storage.Ring
import TradingChartViewer.Storage.EngineRestart
import TradingChartViewer.Storage.RecordValues
import TradingChartViewer.App.RenderSnapshotBuilder
import TradingChartViewer.App.PagingRequests
import TradingChartViewer.App.Sequential
import TradingChartViewer.Indicators.Rendering
import TradingChartViewer.Storage.RoundTrip
import TradingChartViewer.Storage.RecordReaders
import TradingChartViewer.Exchange.WsSession
import TradingChartViewer.App.GapRepair
import TradingChartViewer.Storage.FileOrder
import TradingChartViewer.Storage.Readiness
import TradingChartViewer.Storage.PriceLimits
import TradingChartViewer.Storage.FailedWrites
import TradingChartViewer.Storage.GapFlag
import TradingChartViewer.Storage.Metadata
import TradingChartViewer.Storage.CachedLimits
import TradingChartViewer.Storage.Ingestion
import TradingChartViewer.Storage.Spans
import TradingChartViewer.Exchange.FetchBounds
import TradingChartViewer.Exchange.KlineOrder
import TradingChartViewer.Indicators.Warmup
import TradingChartViewer.Indicators.Pending
import TradingChartViewer.Indicators.Incremental
import TradingChartViewer.App.Zoom
import TradingChartViewer.App.TimeAxis
import TradingChartViewer.Configuration.CliReads
import TradingChartViewer.Ui.GridSpacing
import TradingChartViewer.Exchange.WsTarget
import TradingChartViewer.Exchange.WebSocketClient
import TradingChartViewer.Exchange.Reconnection
import TradingChartViewer.App.Frames
import TradingChartViewer.App.LabelTexts
import TradingChartViewer.Ui.Grid
import TradingChartViewer.App.MainLoop
import TradingChartViewer.App.LivePublishing
import TradingChartViewer.App.UiState
import TradingChartViewer.App.Stopping
