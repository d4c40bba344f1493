import NgxToolkit.DebugReports
import NgxToolkit.DynamicConfArgs
import NgxToolkit.DynamicConfCheck
import NgxToolkit.DynamicConfFile
import NgxToolkit.DynamicConfParseRuns
import NgxToolkit.DynamicConfPools
import NgxToolkit.DynamicConfReaders
import NgxToolkit.DynamicConfTokenRuns
import NgxToolkit.DynamicConfWords
import NgxToolkit.DynamicResolverAddrs
import NgxToolkit.DynamicResolverBytes
import NgxToolkit.DynamicResolverCalls
import NgxToolkit.DynamicResolverCounts
import NgxToolkit.DynamicResolverDrain
import NgxToolkit.DynamicResolverDrainRuns
import NgxToolkit.DynamicResolverHands
import NgxToolkit.DynamicResolverHost
import NgxToolkit.DynamicResolverModulo
import NgxToolkit.DynamicResolverRuns
import NgxToolkit.DynamicResolverTick
import NgxToolkit.EventResolver
import NgxToolkit.EventTimerJobs
import NgxToolkit.EventTimerRuns
import NgxToolkit.HttpDynamicReload
import NgxToolkit.HttpDynamicRuns
import NgxToolkit.HttpLocationBuilt
import NgxToolkit.HttpTraceHeaders
import NgxToolkit.HttpTraceHops
import NgxToolkit.NgxMapDescent
import NgxToolkit.NgxMapKeys
import NgxToolkit.PooldRuns
import NgxToolkit.RbufPristine
import NgxToolkit.ToolkitMd5
import NgxToolkit.ToolkitPtonPrior
import NgxToolkit.ToolkitUrlStrs
