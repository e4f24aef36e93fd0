import QuickJSSwift.Lib.Binary64
import QuickJSSwift.Lib.Utf
import QuickJSSwift.Lib.RefCount
import QuickJSSwift.Lib.Run
import QuickJSSwift.Lib.Evolution
import QuickJSSwift.Value
import QuickJSSwift.Number
import QuickJSSwift.Ownership
import QuickJSSwift.Text
import QuickJSSwift.TextRoundTrip
import QuickJSSwift.Global
import QuickJSSwift.ModuleDef
import QuickJSSwift.ModuleExports
import QuickJSSwift.ModuleEval
import QuickJSSwift.Registry
import QuickJSSwift.Dispatch
import QuickJSSwift.Handover
import QuickJSSwift.Builder
import QuickJSSwift.Jobs
import QuickJSSwift.Decode
import QuickJSSwift.DecodeLoop
import QuickJSSwift.DecodeFrame
import QuickJSSwift.DecodeElements
import QuickJSSwift.Narrowing
import QuickJSSwift.Exception
import QuickJSSwift.Pending
import QuickJSSwift.Undisturbed
import QuickJSSwift.Runloop
import QuickJSSwift.Teardown
import QuickJSSwift.Release
import QuickJSSwift.Collect
import QuickJSSwift.Lifetime
import QuickJSSwift.AtomRuns
